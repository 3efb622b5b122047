import SmallLisp.Number
import SmallLisp.Symbol

/-!
# Values

A value is a word: an immediate, or a reference into one of the store's tables. Two values are the
same object when they are the same word; `same` decides that, with doubles told apart by their
bits, while the derived `==` compares doubles as numbers.
-/

namespace SmallLisp

/-- A variable as a compiled body sees it: `level` frames up, slot `offset`. The symbol is kept for
printing, and so that an inner parameter list can shadow it. -/
structure Address where
  level : Nat
  offset : Nat
  symbol : Symbol
deriving DecidableEq, Repr

/-- A value of the language. -/
inductive Value where
  | nil
  | int (n : Int64)
  | double (x : Float)
  | big (ref : Ref .bignum)
  | text (ref : Ref .text)
  | sym (ref : Symbol)
  | pair (ref : Ref .cell)
  | vector (ref : Ref .vector)
  | promise (ref : Ref .promise)
  | callable (ref : Ref .callable)
  | address (a : Address)
  | dummy (ref : Ref .dummy)
  | failure (ref : Ref .failure)
  | eof
deriving Inhabited

namespace Value

/-- Equality of words, where a double equals what it equals as a number: a NaN nothing, and the
two zeros each other. -/
def agrees : Value → Value → Bool
  | .nil, .nil => true
  | .int m, .int n => m == n
  | .double x, .double y => x == y
  | .big a, .big b => a == b
  | .text a, .text b => a == b
  | .sym a, .sym b => a == b
  | .pair a, .pair b => a == b
  | .vector a, .vector b => a == b
  | .promise a, .promise b => a == b
  | .callable a, .callable b => a == b
  | .address a, .address b => a == b
  | .dummy a, .dummy b => a == b
  | .failure a, .failure b => a == b
  | .eof, .eof => true
  | _, _ => false

/-- Identity of words: doubles are the same when their bits are. -/
def same : Value → Value → Bool
  | .double x, .double y => x.toBits == y.toBits
  | a, b => a.agrees b

def isNil : Value → Bool
  | .nil => true
  | _ => false

def isPair : Value → Bool
  | .pair _ => true
  | _ => false

/-- Whether the value is one given symbol. -/
def isSym (v : Value) (s : Symbol) : Bool :=
  match v with
  | .sym r => r == s
  | _ => false

def isNumber : Value → Bool
  | .int _ | .double _ | .big _ => true
  | _ => false

/-- Everything but a pair is an atom. -/
def isAtom (v : Value) : Bool := !v.isPair

/-- Everything but nil counts as true. -/
def truthy (v : Value) : Bool := !v.isNil

/-- The truth values of the language. -/
def ofBool : Bool → Value
  | true => .sym Symbol.t
  | false => .nil

end Value

end SmallLisp
