import SmallLisp.Interpreter
import SmallLisp.Proofs.Prelude.Keys
import SmallLisp.Proofs.Compiler.Scope
import SmallLisp.Proofs.Guard

/-!
# Definitions as trees

What a script of definitions comes to, without a store: forms are read as trees, macros are run on
trees, and the compiler makes trees of trees. A lexicon is what such a script leaves behind: the
names that were seen, what those of them denote that denote a callable, and the stand-ins that were
given out. Nothing fails here; where a form is more than a definition there is no answer.
-/

namespace SmallLisp

open Code

/-- What a name denotes if it denotes a callable, with the body of the callable as a tree. -/
inductive Meaning where
  | native (m : Native)
  | closure (shape : Shape) (body : List Code)
  | expander (shape : Shape) (body : List Code)

/-- What definitions leave behind. -/
structure Lexicon where
  /-- The keys of the names seen so far, each at the index of its symbol. -/
  keys : List Nat
  /-- What names denote, the latest definition first. -/
  meanings : List (Symbol × Meaning) := []
  /-- The names of the stand-ins given out so far. -/
  dummies : List Symbol := []

/-! ## Trees -/

namespace Code

/-- Whether what stands for the tree is no promise. -/
def isData : Code → Bool
  | .word v => !v.isPromise
  | .list _ => true
  | _ => false

/-- A word as it may stand in a tree: lists are trees of their own. -/
def ofWord? (v : Value) : Option Code :=
  if v.isPair || v.isPromise then none else some (.word v)

/-- Whether what stands for the tree counts as true. -/
def truth? : Code → Option Bool
  | .word v => some v.truthy
  | .list (_ :: _) => some true
  | _ => none

/-- The items of a list. -/
def items? : Code → Option (List Code)
  | .word .nil => some []
  | .list cs => some cs
  | _ => none

/-- The items of a list of words. -/
def words? (c : Code) : Option (List Value) :=
  c.items?.bind fun cs => cs.mapM fun
    | .word v => some v
    | _ => none

/-- The symbol that the tree is. -/
def symbol? : Code → Option Symbol
  | .word (.sym x) => some x
  | _ => none

/-- What `f` makes of the last of some pieces of code, if it makes something of each. -/
def lastOf (f : Code → Option Code) (cs : List Code) : Option Code :=
  (cs.mapM f).bind List.getLast?

/-- What the clauses of a `cond` come to, where `f` tells what the forms in them come to. -/
def picked? (f : Code → Option Code) : List Code → Option Code
  | [] => some (.word .nil)
  | .list (test :: body) :: cls => do
      let d ← f test
      if ← d.truth? then
        if body.isEmpty then some d else lastOf f body
      else picked? f cls
  | _ => none

end Code

/-- The operands of a call in the slots of its frame. -/
def Shape.spread? (shape : Shape) (cs : List Code) : Option (List Code) :=
  if cs.all isData then
    some (cs.take shape.required ++
      if shape.hasRest then [ofItems (cs.drop shape.required)] else [])
  else none

namespace Lexicon

/-- What a symbol denotes. -/
def meaning? (L : Lexicon) (x : Symbol) : Option Meaning := L.meanings.lookup x

/-- The lexicon after a name is defined. -/
def define (L : Lexicon) (x : Symbol) (m : Meaning) : Lexicon :=
  { L with meanings := (x, m) :: L.meanings }

/-- The name that a stand-in was given out for. -/
def dummySymbol (L : Lexicon) (r : Ref .dummy) : Symbol := L.dummies.getD r.index ⟨0⟩

/-! ## Running macros -/

/-- What a native makes of data. -/
def built? : Native → List Code → Option Code
  | .lists .list, ds => some (ofItems ds)
  | .lists .cons, [d, e] => e.items?.map fun ds => .list (d :: ds)
  | .tests .eq, [d, .word .nil] => d.truth?.map fun b => .word (.ofBool !b)
  | _, _ => none

/-- What a callable makes of its operands, where `f` tells what a form of a body comes to with them
in the innermost frame. -/
def called? (f : List Code → Code → Option Code) : Meaning → List Code → Option Code
  | .native m, ds => built? m ds
  | .closure shape body, ds => if shape.hasRest then none else lastOf (f ds) body
  | .expander .., _ => none

/-- What a form of a compiled body comes to, where `args` are in the innermost frame. -/
def value? (L : Lexicon) : Nat → List Code → Code → Option Code
  | 0, _, _ => none
  | fuel + 1, args, c =>
      match c with
      | .word .nil => some (.word .nil)
      | .word (.sym x) => if x = Symbol.t then some (.word (.sym x)) else none
      | .word (.address a) => if a.level = 0 then args[a.offset]? else none
      | .list (.word (.sym x) :: cs) =>
          if x = Symbol.quote then cs.head?.filter isData
          else if x = Symbol.cond then picked? (L.value? fuel args) cs
          else if x.index < Symbol.specialCount then none
          else do
            let ds ← cs.mapM (L.value? fuel args)
            called? (L.value? fuel) (← L.meaning? x) ds
      | _ => none

/-- What a macro makes of the operands of a call. -/
def expansion? (L : Lexicon) (fuel : Nat) (shape : Shape) (body cs : List Code) : Option Code :=
  (shape.spread? cs).bind fun args => lastOf (L.value? fuel args) body

/-! ## Compiling -/

/-- The text after a scan with the parameters. -/
def resolved? (ps : Parameters) : Nat → Code → Option Code
  | 0, _ => none
  | fuel + 1, c =>
      match c with
      | .word v => ofWord? v |>.map fun _ => .word (ps.scan v)
      | .list (head :: cs) =>
          if head.symbol? = some Symbol.quote then some (.list (head :: cs))
          else ((head :: cs).mapM (resolved? ps fuel)).map .list
      | _ => none

/-- The text with the calls of macros expanded. -/
def expanded? (L : Lexicon) : Nat → Code → Option Code
  | 0, _ => none
  | fuel + 1, c =>
      match c with
      | .word v => ofWord? v
      | .list (.word (.callable _) :: _) => none
      | .list (.word (.sym x) :: cs) =>
          if Engine.isLeftAlone (.sym x) then some (.list (.word (.sym x) :: cs))
          else
            match L.meaning? x with
            | some (.expander shape body) =>
                (L.expansion? fuel shape body cs).bind (L.expanded? fuel)
            | _ => ((.word (.sym x) :: cs).mapM (L.expanded? fuel)).map .list
      | .list (head :: cs) => ((head :: cs).mapM (L.expanded? fuel)).map .list
      | _ => none

mutual

/-- The shape and the compiled body of a lambda, given what follows its head. -/
def compiled? (L : Lexicon) : Nat → List Code → Option (Shape × List Code)
  | fuel + 1, formals :: forms => do
      let ps := Parameters.ofFormals L.dummySymbol (← formals.words?)
      let text ← resolved? ps fuel (ofItems forms)
      let text ← L.expanded? fuel text
      let text ← L.inner? fuel text
      some (ps.shape, ← text.items?)
  | _, _ => none

/-- The text with templates in place of the lambdas. -/
def inner? (L : Lexicon) : Nat → Code → Option Code
  | 0, _ => none
  | fuel + 1, c =>
      match c with
      | .word v => ofWord? v
      | .list (head :: cs) =>
          if head.symbol? = some Symbol.quote then some (.list (head :: cs))
          else if head.symbol? = some Symbol.lambda then
            (L.compiled? fuel cs).map fun p => .template p.1 p.2
          else if head.symbol? = some Symbol.expander then none
          else ((head :: cs).mapM (L.inner? fuel)).map .list
      | _ => none

end

/-! ## Stand-ins -/

/-- Whether a symbol stands for a variable private to one macro. -/
def isDummy (L : Lexicon) (x : Symbol) : Bool := L.keys.getD x.index 1 % 256 == '$'.toNat

/-- The stand-ins of one macro, by the names that they stand for, and all that were given out. -/
structure StandIns where
  names : Engine.Dummies := []
  dummies : List Symbol

/-- The stand-in of a private variable: the one that it has, or a new one. -/
def StandIns.standIn (S : StandIns) (x : Symbol) : Value × StandIns :=
  match S.names.find? (·.1 == x) with
  | some (_, v) => (v, S)
  | none =>
      let v := Value.dummy ⟨S.dummies.length⟩
      (v, ⟨(x, v) :: S.names, S.dummies ++ [x]⟩)

mutual

/-- The text with stand-ins in place of the private variables. -/
def replaced? (L : Lexicon) : Nat → Code → StandIns → Option (Code × StandIns)
  | 0, _, _ => none
  | fuel + 1, c, S =>
      match c with
      | .word (.sym x) =>
          if L.isDummy x then
            let (v, S) := S.standIn x
            some (.word v, S)
          else some (.word (.sym x), S)
      | .word v => (ofWord? v).map (·, S)
      | .list (c :: cs) => (L.replacedAll? fuel (c :: cs) S).map fun p => (.list p.1, p.2)
      | _ => none

def replacedAll? (L : Lexicon) : Nat → List Code → StandIns → Option (List Code × StandIns)
  | _, [], S => some ([], S)
  | 0, _, _ => none
  | fuel + 1, c :: cs, S => do
      let (c, S) ← L.replaced? fuel c S
      let (cs, S) ← L.replacedAll? fuel cs S
      some (c :: cs, S)

end

/-! ## Definitions -/

/-- The callable that a form of a definition makes, and the lexicon with the stand-ins that this
takes. -/
def made? (L : Lexicon) (fuel : Nat) : Code → Option (Meaning × Lexicon)
  | .word (.sym x) => (L.meaning? x).map (·, L)
  | .list (.word (.sym x) :: cs) =>
      if x = Symbol.lambda then (L.compiled? fuel cs).map fun p => (.closure p.1 p.2, L)
      else if x = Symbol.expander then do
        let (text, S) ← L.replaced? fuel (ofItems cs) ⟨[], L.dummies⟩
        let L := { L with dummies := S.dummies }
        (L.compiled? fuel (← text.items?)).map fun p => (.expander p.1 p.2, L)
      else none
  | _ => none

/-- The lexicon after a form that does nothing but define names. -/
def defined? : Nat → Lexicon → Code → Option Lexicon
  | 0, _, _ => none
  | fuel + 1, L, c =>
      match c with
      | .list (.word (.sym x) :: cs) =>
          if x = Symbol.quote then some L
          else if x = Symbol.progn then cs.foldlM (defined? fuel) L
          else if x = Symbol.setq then
            match cs with
            | [.word (.sym y), c] =>
                if y = Symbol.t then none
                else (L.made? fuel c).map fun p => p.2.define y p.1
            | _ => none
          else if x.index < Symbol.specialCount then none
          else
            match L.meaning? x with
            | some (.expander shape body) =>
                (L.expansion? fuel shape body cs).bind (defined? fuel L)
            | _ => none
      | _ => none

/-! ## Reading -/

/-- The symbol of a key, and the keys with it. -/
def symbol (keys : List Nat) (key : Nat) : Symbol × List Nat :=
  match keys.findIdx? (· == key) with
  | some i => (⟨i⟩, keys)
  | none => (⟨keys.length⟩, keys ++ [key])

/-- The tree of a form, and the keys with those of the names in it. -/
def tree? (keys : List Nat) : Form → Option (Code × List Nat)
  | .atom .nil => some (.word .nil, keys)
  | .atom (.number (.small n)) => some (.word (.int n), keys)
  | .atom (.sym name) =>
      let (x, keys) := symbol keys (SymbolTable.key name)
      some (.word (.sym x), keys)
  | .pair a b => do
      let (b, keys) ← tree? keys b
      let (a, keys) ← tree? keys a
      some (.list (a :: (← b.items?)), keys)
  | _ => none

/-- The lexicon after a form of a script is read and evaluated. -/
def next? (fuel : Nat) (L : Lexicon) (f : Form) : Option Lexicon := do
  let (c, keys) ← tree? L.keys f
  defined? fuel { L with keys } c

/-- The lexicon with a native in it. -/
def withNative (L : Lexicon) (m : Native) : Lexicon :=
  let (x, keys) := symbol L.keys (SymbolTable.key m.name)
  define { L with keys } x (.native m)

/-- The lexicon of an interpreter without the bundled definitions. -/
def core : Lexicon := Native.all.foldl withNative { keys := Symbol.wellKnown.map SymbolTable.key }

end Lexicon

end SmallLisp
