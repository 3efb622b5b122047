import SmallLisp.Engine

/-!
# Natives on single values

How natives take their arguments, and those natives that look at single values: the tests, and
arithmetic.
-/

/-!
## Arguments of natives

What natives take their arguments to be, and how they refuse others.
-/

namespace SmallLisp.Native

open Eval

/-- A number. -/
def numberArg (v : Value) : Eval Num := do
  match ← gets (·.store.number? v) with
  | some n => pure n
  | none => refuseOn v .number

/-- An index: a 64-bit integer that is not negative. -/
def indexArg (v : Value) : Eval Nat := do
  match v with
  | .int n => if 0 ≤ n.toInt then pure n.toInt.toNat else refuseOn v .index
  | _ => refuseOn v .index

/-- The text of a string. -/
def textArg (v : Value) : Eval String := do
  match v with
  | .text r => gets (·.store.text r)
  | _ => refuseOn v .string

/-- A pair. -/
def pairArg (v : Value) : Eval (Ref .cell) := do
  match v with
  | .pair r => pure r
  | _ => refuseOn v .pair

/-- The code of a character as a value. -/
def ofChar (c : Char) : Value := .int (Int64.ofNat c.toNat)

/-- The items of a list or a vector, or the codes of the characters of a string. -/
def sequenceArg (E : Engine) (v : Value) : Eval (List Value) := do
  match v with
  | .nil => pure []
  | .pair r => E.items (.pair r)
  | .vector r => gets fun s => (s.store.vector r).toList
  | .text r => gets fun s => (s.store.text r).toList.map ofChar
  | _ => refuseOn v .sequence

/-- A native called with a frame that is not of its shape. Frames are made by shape, so this does
not arise. -/
def mismatch (spec : NativeSpec) : Eval Value := fail (.arity spec.name)

end SmallLisp.Native

/-!
## Natives that answer yes or no
-/

namespace SmallLisp.TestNative

open Eval Native

/-- The text that a string, a symbol or nil is compared by. -/
def comparedText (v : Value) : Eval String := do
  match v with
  | .nil => pure "nil"
  | v =>
      match ← gets fun s => s.store.textOf? s.symbols v with
      | some text => pure text
      | none => refuseOn v .stringOrSymbol

/-- Whether two values are the same object, or equal numbers of one kind. -/
def eqlIn (store : Store) (a b : Value) : Bool :=
  a.same b ||
    match store.number? a, store.number? b with
    | some m, some n => m.eql n
    | _, _ => false

/-- Whether a value is a keyword. -/
def isKeywordIn (symbols : SymbolTable) : Value → Bool
  | .sym s => symbols.isKeyword s
  | _ => false

/-- What kind of value a test is about. -/
def holds (n : TestNative) (v : Value) : Bool :=
  match n, v with
  | .atom, v => v.isAtom
  | .stringp, .text _ => true
  | .integerp, .int _ => true
  | .integerp, .big _ => true
  | .floatp, .double _ => true
  | .symbolp, .nil => true
  | .symbolp, .sym _ => true
  | .vectorp, .vector _ => true
  | _, _ => false

/-- Run one of these natives. -/
def run (n : TestNative) (args : List Value) : Eval Value := do
  match n, args with
  | .eq, [a, b] => pure (.ofBool (a.same b))
  | .eql, [a, b] => gets fun s => .ofBool (eqlIn s.store a b)
  | .stringEq, [a, b] => do
      let x ← comparedText a
      let y ← comparedText b
      pure (.ofBool (x == y))
  | .keywordp, [v] => gets fun s => .ofBool (isKeywordIn s.symbols v)
  | n, [v] => pure (.ofBool (n.holds v))
  | n, _ => mismatch n.spec

end SmallLisp.TestNative

/-!
## Natives on numbers
-/

namespace SmallLisp.NumberNative

open Eval Native

/-- An operation on numbers, with its refusal. -/
def checked (result : Except NumFault Num) : Eval Num := do
  match result with
  | .ok n => pure n
  | .error fault => refuse (.arithmetic fault)

/-- Combine a number with each value in turn. -/
def fold (op : Num → Num → Except NumFault Num) : Num → List Value → Eval Num
  | acc, [] => pure acc
  | acc, v :: vs => do
      let n ← numberArg v
      let acc ← checked (op acc n)
      fold op acc vs

/-- Combine a number with each item of a list in turn. -/
def foldList (E : Engine) (op : Num → Num → Except NumFault Num) (first : Num) (vs : Value) :
    Eval Value := do
  let items ← E.items vs
  let n ← fold op first items
  alloc (·.newNumber n)

/-- How two values compare as numbers. -/
def order (a b : Value) : Eval (Option Ordering) := do
  let m ← numberArg a
  let n ← numberArg b
  pure (m.compare n)

/-- Run one of these natives. -/
def run (E : Engine) (n : NumberNative) (args : List Value) : Eval Value := do
  match n, args with
  | .add, [vs] => foldList E (fun a b => .ok (a.add b)) (.small 0) vs
  | .mul, [vs] => foldList E (fun a b => .ok (a.mul b)) (.small 1) vs
  | .sub, [v, vs] => do
      let first ← numberArg v
      if vs.isNil then alloc (·.newNumber first.neg)
      else foldList E (fun a b => .ok (a.sub b)) first vs
  | .div, [v, w, vs] => do
      let first ← numberArg v
      let divisor ← numberArg w
      let quotient ← checked (first.div divisor)
      foldList E Num.div quotient vs
  | .rem, [v, w] => do
      let a ← numberArg v
      let b ← numberArg w
      let r ← checked (a.rem b)
      alloc (·.newNumber r)
  | .equal, [v, w] => do
      let o ← order v w
      pure (.ofBool (o == some .eq))
  | .less, [v, w] => do
      let o ← order v w
      pure (.ofBool (o == some .lt))
  | .float, [v] => do
      let a ← numberArg v
      pure (.double a.toFloat)
  | .truncate, [v] => do
      let a ← numberArg v
      let r ← checked a.truncate
      alloc (·.newNumber r)
  | n, _ => mismatch n.spec

end SmallLisp.NumberNative
