import SmallLisp.Engine.Compiler

/-!
# Special forms

The forms whose head is one of the special keywords. Each either is done with a value, or names the
form in tail position to go on with, so that a loop in tail position does not nest.
-/

namespace SmallLisp

/-- One turn of evaluation: a value, or the form in tail position to go on with. -/
inductive Step where
  | done (v : Value)
  | next (form : Value) (env : Env)

/-- The special forms. -/
inductive Special where
  | quote
  | progn
  | cond
  | setq
  | lambda
  | expander
  | catching
  | unwindProtect
  | delay
deriving DecidableEq, Repr

/-- The special form that a symbol heads. -/
def Special.ofSymbol? (s : Symbol) : Option Special :=
  [.quote, .progn, .cond, .setq, .lambda, .expander, .catching, .unwindProtect, .delay][s.index]?

namespace Engine

open Eval

/-- The symbol at the head of a special form is a keyword. -/
theorem isKeyword_of_ofSymbol? {x : Symbol} {form : Special}
    (h : Special.ofSymbol? x = some form) (symbols : SymbolTable) : symbols.isKeyword x = true :=
  symbols.isKeyword_of_special (List.getElem?_eq_some_iff.1 h).1

/-- The operand of a form that takes exactly one; none for any other number. -/
def operand? (E : Engine) (args : Value) : Eval (Option Value) := do
  match args with
  | .pair r =>
      let next ← E.cdrCell r
      if next.isNil then
        let v ← car r
        pure (some v)
      else pure none
  | _ => pure none

/-- Try the clauses of a `cond` through at most `fuel` cells. A clause without a body gives the
value of its test. -/
def condWithin (E : Engine) (env : Env) : Nat → Value → Eval Step
  | 0, .pair _ => halt .exhausted
  | fuel + 1, .pair r => do
      let clause ← car r
      match clause with
      | .nil =>
          let next ← E.cdrCell r
          E.condWithin env fuel next
      | .pair c =>
          let form ← car c
          let test ← E.eval form env
          let test ← E.force test
          if test.truthy then
            let forms ← E.cdrCell c
            if forms.isNil then pure (.done test)
            else
              let last ← E.body forms env
              pure (.next last env)
          else
            let next ← E.cdrCell r
            E.condWithin env fuel next
      | v => malformedOn v .condTest
  | _, _ => pure (.done .nil)

/-- Bind a variable: a symbol globally, an address in its frame. -/
def bindVariable (target v : Value) (env : Env) : Eval Unit := do
  match target with
  | .sym s =>
      if ← isKeyword s then
        let name ← nameOf s
        malformed (.keyword name)
      else modify (·.setGlobal s v)
  | .address a =>
      if ← assign env a v then pure () else failOn target .notVariable
  | _ => failOn target .notVariable

/-- Bind variables in turn through at most `fuel` cells; `last` is the value so far. -/
def setqWithin (E : Engine) (env : Env) : Nat → Value → Value → Eval Value
  | 0, .pair _, _ => halt .exhausted
  | fuel + 1, .pair r, _ => do
      let target ← car r
      match ← E.cdrCell r with
      | .pair rhs =>
          let form ← car rhs
          let v ← E.eval form env
          bindVariable target v env
          let next ← E.cdrCell rhs
          E.setqWithin env fuel next v
      | _ => malformed .rightValue
  | _, _, last => pure last

/-- What a `catch` with this tag does about a failure: the value thrown to it, or the failure itself
as a value if the tag is the symbol that catches all but throws. -/
def caught (tag : Value) (f : Failure) : Eval Value :=
  match f.cause with
  | .thrown thrown v _ => if thrown.agrees tag then pure v else refail f
  | _ => if tag.isSym Symbol.error then alloc (·.newFailure f) else refail f

/-- Evaluate a body that values can be thrown out of. -/
def evalCatch (E : Engine) (args : Value) (env : Env) : Eval Value := do
  match args with
  | .pair r =>
      let form ← car r
      let tag ← E.eval form env
      let tag ← E.force tag
      let forms ← E.cdrCell r
      match ← attempt (E.sequence forms env) with
      | .ok v => pure v
      | .error f => caught tag f
  | _ => malformed .tagAndBody

/-- Evaluate a form and then, whether it failed or not, the forms that clean up after it. A failure
among these takes the place of the first. -/
def evalUnwindProtect (E : Engine) (args : Value) (env : Env) : Eval Value := do
  match args with
  | .pair r =>
      let form ← car r
      let result ← attempt (E.eval form env)
      let forms ← E.cdrCell r
      let _ ← E.sequence forms env
      ofExcept result
  | _ => malformed .bodyAndCleanup

/-- Define a macro. There is no macro inside a lambda. -/
def evalMacro (E : Engine) (whole args : Value) (env : Env) : Eval Value := do
  if env.isSome then malformedOn whole .nestedMacro
  else
    let args ← E.replaceDummies args
    E.compile .expander args

/-- One turn of a special form; `whole` is the form and `args` what follows its head. -/
def special (E : Engine) (form : Special) (whole args : Value) (env : Env) : Eval Step := do
  match form with
  | .quote =>
      match ← E.operand? args with
      | some v => pure (.done v)
      | none => malformed .badQuote
  | .progn =>
      let last ← E.body args env
      pure (.next last env)
  | .cond => E.condWithin env E.fuel args
  | .setq =>
      let v ← E.setqWithin env E.fuel args .nil
      pure (.done v)
  | .lambda =>
      let v ← E.compile (.closure env) args
      pure (.done v)
  | .expander =>
      let v ← E.evalMacro whole args env
      pure (.done v)
  | .catching =>
      let v ← E.evalCatch args env
      pure (.done v)
  | .unwindProtect =>
      let v ← E.evalUnwindProtect args env
      pure (.done v)
  | .delay =>
      match ← E.operand? args with
      | some form =>
          let v ← alloc (·.newPromise (.pending form env))
          pure (.done v)
      | none => malformed .badDelay

end Engine

end SmallLisp
