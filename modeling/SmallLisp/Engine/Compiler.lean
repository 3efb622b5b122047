import SmallLisp.Engine

/-!
# Compiling lambdas and macros

A body is compiled in three passes over its forms, each making a new list: parameters become
addresses, calls of known macros are expanded, and nested lambdas become templates. Quoted data is
left alone. A nested lambda is compiled after the body around it, so its text already holds the
addresses of outer parameters; each further scan moves those one level out, unless an inner
parameter of that name takes their place.
-/

namespace SmallLisp

/-- What compiling is to give. -/
inductive CallableKind where
  /-- A nested lambda, still without an environment. -/
  | template
  | closure (env : Env)
  | expander

/-- The callable of a kind. -/
def CallableKind.make (kind : CallableKind) (shape : Shape) (body : Value) : Callable :=
  match kind with
  | .template => .template shape body
  | .closure env => .closure shape body env
  | .expander => .expander shape body

/-- What can be a parameter. -/
inductive Parameter where
  | sym (s : Symbol)
  | dummy (r : Ref .dummy)
deriving DecidableEq, Repr

/-- A parameter list: the address of each parameter, the latest first, so that the last of several
of one name is found. -/
structure Parameters where
  entries : List (Parameter × Address) := []
  count : Nat := 0
  hasRest : Bool := false

namespace Parameters

/-- The address of a parameter. -/
def find? (ps : Parameters) (p : Parameter) : Option Address :=
  (ps.entries.find? fun e => e.1 == p).map (·.2)

/-- One more parameter, in the next slot. -/
def add (ps : Parameters) (p : Parameter) (symbol : Symbol) : Parameters :=
  { ps with entries := (p, ⟨0, ps.count, symbol⟩) :: ps.entries, count := ps.count + 1 }

/-- The arguments that the parameters take. -/
def shape (ps : Parameters) : Shape :=
  ⟨if ps.hasRest then ps.count - 1 else ps.count, ps.hasRest⟩

end Parameters

namespace Engine

open Eval

/-- The parameter an item of a parameter list stands for, and its symbol. An address is a name that
the lambda around has resolved already. -/
def parameterOf (v : Value) : Eval (Parameter × Symbol) := do
  match v with
  | .sym s => named s
  | .address a => named a.symbol
  | .dummy r => do
      let s ← gets (·.store.dummySymbol r)
      pure (.dummy r, s)
  | v => failOn v .notVariable
where
  /-- A keyword is no parameter. -/
  named (s : Symbol) : Eval (Parameter × Symbol) := do
    if ← isKeyword s then
      let name ← nameOf s
      malformed (.keyword name)
    else pure (.sym s, s)

/-- Read a parameter list through at most `fuel` cells, after the parameters so far. -/
def parametersWithin (E : Engine) : Nat → Value → Parameters → Eval Parameters
  | 0, .pair _, _ => halt .exhausted
  | fuel + 1, .pair r, ps => do
      let item ← car r
      let next ← E.cdrCell r
      if ps.hasRest then malformedOn item .secondRest
      else if item.isSym Symbol.rest then
        match next with
        | .pair r => do
            let item ← car r
            let next ← E.cdrCell r
            if item.isSym Symbol.rest then fail (.notVariable "&rest")
            else
              let (p, s) ← parameterOf item
              E.parametersWithin fuel next { ps.add p s with hasRest := true }
        | _ => fail (.notVariable "nil")
      else
        let (p, s) ← parameterOf item
        E.parametersWithin fuel next (ps.add p s)
  | _, _, ps => pure ps

/-- Read a parameter list. -/
def parameters (E : Engine) (v : Value) : Eval Parameters :=
  if v.isNil || v.isPair then E.parametersWithin E.fuel v {}
  else malformedOn v .parameters

/-- Put the addresses of the parameters in place of their names, `fuel` levels deep at most.
Addresses of outer parameters move one level out, unless a parameter here takes their place. -/
def resolve (E : Engine) (ps : Parameters) : Nat → Value → Eval Value
  | _, .sym s => pure (((ps.find? (.sym s)).map .address).getD (.sym s))
  | _, .dummy r => pure (((ps.find? (.dummy r)).map .address).getD (.dummy r))
  | _, .address a =>
      pure (.address ((ps.find? (.sym a.symbol)).getD { a with level := a.level + 1 }))
  | 0, .pair _ => halt .exhausted
  | fuel + 1, .pair r => do
      let head ← car r
      if head.isSym Symbol.quote then pure (.pair r)
      else E.mapList (E.resolve ps fuel) (.pair r)
  | _, v => pure v

/-- The macro that a head denotes, if it does. -/
def expander? (head : Value) : Eval (Option (Callable × Value)) := do
  let resolved ←
    match head with
    | .sym s => do
        let v? ← gets (·.global? s)
        pure (v?.getD head)
    | v => pure v
  match resolved with
  | .callable r =>
      match ← gets (·.store.callable r) with
      | .expander shape body => pure (some (.expander shape body, body))
      | _ => pure none
  | _ => pure none

/-- Whether the forms with this head are left alone by expansion. -/
def isLeftAlone (v : Value) : Bool :=
  v.isSym Symbol.quote || v.isSym Symbol.lambda || v.isSym Symbol.expander

/-- Expand the macro calls in a form, `fuel` levels deep at most. An expansion is expanded again
with one less of the expansions allowed. -/
def expandMacros (E : Engine) : Nat → Nat → Value → Eval Value
  | 0, _, .pair _ => halt .exhausted
  | fuel + 1, allowed, .pair r => do
      let head ← car r
      if isLeftAlone head then pure (.pair r)
      else
        match ← expander? head with
        | some (f, body) =>
            match allowed with
            | 0 => malformedOn (.pair r) .expansionTooDeep
            | allowed + 1 => do
                let args ← E.cdrCell r
                let expanded ← E.expandCall f body args
                E.expandMacros fuel allowed expanded
        | none => E.mapList (E.expandMacros fuel allowed) (.pair r)
  | _, _, v => pure v

mutual

/-- Compile `(parameters form ...)`, `fuel` levels deep at most. -/
def compileWithin (E : Engine) : Nat → CallableKind → Value → Eval Value
  | 0, _, _ => halt .exhausted
  | fuel + 1, kind, .pair r => do
      let head ← car r
      let ps ← E.parameters head
      let forms ← E.cdrCell r
      let forms ← E.resolve ps E.fuel forms
      let allowed ← gets (·.config.maxMacroExpansions)
      let forms ← E.expandMacros E.fuel allowed forms
      let forms ← E.compileInner fuel forms
      alloc (·.newCallable (kind.make ps.shape forms))
  | _ + 1, _, _ => malformed .parametersAndBody

/-- Make templates of the lambdas in a form. A macro can only be defined at top level. -/
def compileInner (E : Engine) : Nat → Value → Eval Value
  | 0, .pair _ => halt .exhausted
  | fuel + 1, .pair r => do
      let head ← car r
      if head.isSym Symbol.quote then pure (.pair r)
      else if head.isSym Symbol.lambda then
        let rest ← E.cdrCell r
        E.compileWithin fuel .template rest
      else if head.isSym Symbol.expander then malformedOn (.pair r) .nestedMacro
      else E.mapList (E.compileInner fuel) (.pair r)
  | _, v => pure v

end

/-- Compile `(parameters form ...)`. -/
def compile (E : Engine) (kind : CallableKind) (v : Value) : Eval Value :=
  E.compileWithin E.fuel kind v

/-! ## Private variables of macros -/

/-- The stand-ins given to names so far. -/
abbrev Dummies := List (Symbol × Value)

/-- The stand-in of a name, a new one at first sight. -/
def dummyFor (s : Symbol) (names : Dummies) : Eval (Value × Dummies) := do
  match names.find? (·.1 == s) with
  | some (_, v) => pure (v, names)
  | none => do
      let v ← alloc (·.newDummy s)
      pure (v, (s, v) :: names)

mutual

/-- Put stand-ins in place of the names that start with a dollar sign, `fuel` levels deep at
most. -/
def replaceWithin (E : Engine) : Nat → Value → Dummies → Eval (Value × Dummies)
  | _, .sym s, names => do
      if ← gets (·.symbols.isDummy s) then dummyFor s names else pure (.sym s, names)
  | 0, .pair _, _ => halt .exhausted
  | fuel + 1, .pair r, names => do
      let (reversed, names) ← E.replaceItems fuel (.pair r) [] names
      let v ← consAll reversed .nil
      pure (v, names)
  | _, v, names => pure (v, names)

/-- The items of a list with stand-ins put in place, last first, in front of those so far. -/
def replaceItems (E : Engine) : Nat → Value → List Value → Dummies →
    Eval (List Value × Dummies)
  | _, .nil, reversed, names => pure (reversed, names)
  | 0, .pair _, _, _ => halt .exhausted
  | fuel + 1, .pair r, reversed, names => do
      let item ← car r
      let (item, names) ← E.replaceWithin fuel item names
      let next ← E.cdrCell r
      E.replaceItems fuel next (item :: reversed) names
  | _, v, _, _ => failOn v .notProper

end

/-- Put one new stand-in in place of each name that starts with a dollar sign. -/
def replaceDummies (E : Engine) (v : Value) : Eval Value := do
  let (v, _) ← E.replaceWithin E.fuel v []
  pure v

end Engine

end SmallLisp
