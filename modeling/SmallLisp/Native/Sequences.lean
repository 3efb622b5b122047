import SmallLisp.Native.Atoms

/-!
# Natives on sequences

Lists, vectors and strings: what natives do with each of them, and how one is made of another.
-/

/-!
## Natives on lists
-/

namespace SmallLisp.ListNative

open Eval Native

/-- Copy all lists but the last, which is shared; the items so far come last first. -/
def appendAll (E : Engine) : List Value → List Value → Eval Value
  | [], _ => pure .nil
  | [last], reversed => consAll reversed last
  | v :: vs, reversed => do
      let reversed ← E.mapItems pure E.fuel v reversed
      appendAll E vs reversed

/-- Apply a callable to each value in turn; the results so far come last first. -/
def applyEach (E : Engine) (f : Value) (env : Env) : List Value → List Value → Eval (List Value)
  | [], reversed => pure reversed
  | v :: vs, reversed => do
      let args ← Eval.list [v]
      let result ← E.apply f args env
      applyEach E f env vs (result :: reversed)

/-- The number of items of a list or a vector, or of characters of a string. -/
def lengthOf (E : Engine) (v : Value) : Eval Nat := do
  match v with
  | .text r => gets fun s => (s.store.text r).length
  | .vector r => gets fun s => (s.store.vector r).size
  | v => do
      let items ← E.items v
      pure items.length

/-- Run one of these natives. -/
def run (E : Engine) (n : ListNative) (args : List Value) (env : Env) : Eval Value := do
  match n, args with
  | .car, [.nil] => pure .nil
  | .car, [v] => do
      let r ← pairArg v
      Eval.car r
  | .cdr, [.nil] => pure .nil
  | .cdr, [v] => do
      let r ← pairArg v
      Eval.cdr r
  | .cons, [a, d] => Eval.cons a d
  | .list, [v] => pure v
  | .append, [vs] => do
      let lists ← E.items vs
      appendAll E lists []
  | .length, [v] => do
      let n ← lengthOf E v
      pure (.int (Int64.ofNat n))
  | .rplaca, [target, v] => do
      let target ← E.force target
      let r ← pairArg target
      setCar r v
      pure v
  | .rplacd, [target, v] => do
      let target ← E.force target
      let r ← pairArg target
      setCdr r v
      pure v
  | .mapcar, [f, vs] => do
      let items ← sequenceArg E vs
      let reversed ← applyEach E f env items []
      consAll reversed .nil
  | .mapc, [f, vs] => do
      let items ← sequenceArg E vs
      let _ ← applyEach E f env items []
      pure vs
  | n, _ => mismatch n.spec

end SmallLisp.ListNative

/-!
## Natives on vectors
-/

namespace SmallLisp.VectorNative

open Eval Native

/-- The item at an index of a vector, or the code of a character of a string. -/
def itemAt? (store : Store) (v : Value) (i : Nat) : Option Value :=
  match v with
  | .vector r => (store.vector r)[i]?
  | .text r => ((store.text r).toList[i]?).map ofChar
  | _ => none

/-- Run one of these natives. -/
def run (E : Engine) (n : VectorNative) (args : List Value) : Eval Value := do
  match n, args with
  | .vector, [vs] => do
      let items ← E.items vs
      alloc (·.newVector items.toArray)
  | .makeVector, [count, v] => do
      let count ← E.force count
      let n ← indexArg count
      alloc (·.newVector (Array.replicate n v))
  | .aref, [v, index] => do
      let i ← indexArg index
      match v with
      | .vector _ | .text _ =>
          match ← gets fun s => itemAt? s.store v i with
          | some item => pure item
          | none => refuse (.outOfRange i)
      | _ => refuseOn v .vectorOrString
  | .aset, [v, index, item] => do
      let target ← E.force v
      let index ← E.force index
      let i ← indexArg index
      match target with
      | .vector r =>
          let size ← gets fun s => (s.store.vector r).size
          if i < size then
            update (·.setItem r i item)
            pure item
          else refuse (.outOfRange i)
      | _ => refuseOn target .vector
  | n, _ => mismatch n.spec

end SmallLisp.VectorNative

/-!
## Natives on strings and between sequences
-/

namespace SmallLisp.SequenceNative

open Eval Native

/-- The character with the code that a value is, if there is one. -/
def charOf? : Value → Option Char
  | .int n =>
      let code := n.toInt
      if 0 ≤ code ∧ code.toNat.isValidChar then some (Char.ofNat code.toNat) else none
  | _ => none

/-- The characters with the codes that the values are, after those so far, last first. -/
def charsOf : List Value → List Char → Eval (List Char)
  | [], reversed => pure reversed.reverse
  | v :: vs, reversed =>
      match charOf? v with
      | some c => charsOf vs (c :: reversed)
      | none => refuseOn v .characterCode

/-- The number that a text reads as; zero if it reads as none. -/
def numberOf (text : String) : Num := (Literal.number? (Text.trim text.toList)).getD (.small 0)

/-- Run one of these natives. -/
def run (E : Engine) (n : SequenceNative) (args : List Value) : Eval Value := do
  match n, args with
  | .stringToChar, [v] => do
      let text ← textArg v
      match text.toList with
      | c :: _ => pure (ofChar c)
      | [] => pure (.int 0)
  | .numberToString, [v] => do
      let a ← numberArg v
      alloc (·.newText a.format)
  | .stringToNumber, [v] => do
      let text ← textArg v
      alloc (·.newNumber (numberOf text))
  | .stringAppend, [v, w] => do
      let a ← textArg v
      let b ← textArg w
      alloc (·.newText (a ++ b))
  | .sequenceToString, [.text r] => pure (.text r)
  | .sequenceToString, [v] => do
      let items ← sequenceArg E v
      let chars ← charsOf items []
      alloc (·.newText (String.ofList chars))
  | .vectorAppend, [.vector a, .vector b] => do
      let items ← gets fun s => s.store.vector a ++ s.store.vector b
      alloc (·.newVector items)
  | .vectorAppend, [_, _] => refuse .vectors
  | .sequenceToVector, [v] => do
      let items ← sequenceArg E v
      alloc (·.newVector items.toArray)
  | .listAppend, [v, tail] => do
      let reversed ← E.mapItems pure E.fuel v []
      consAll reversed tail
  | .sequenceToList, [.nil] => pure .nil
  | .sequenceToList, [.pair r] => pure (.pair r)
  | .sequenceToList, [v] => do
      let items ← sequenceArg E v
      Eval.list items
  | n, _ => mismatch n.spec

end SmallLisp.SequenceNative
