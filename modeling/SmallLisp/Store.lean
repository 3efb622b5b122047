import SmallLisp.Value
import SmallLisp.Failure
import SmallLisp.Native

/-!
# Frames and the store

What is kept outside of values: the frames of lexical variables, and every value that is larger than
a word.
-/

/-!
## Environments as shared mutable frames

Each call of a closure makes one frame, with a slot for every parameter. A frame knows the one it
was made in, so an environment is the innermost frame of a chain, or nothing at top level. Frames
live in one table and are never copied: whatever shares a frame sees its assignments.
-/

namespace SmallLisp

/-- The innermost frame of a chain; none at top level. -/
abbrev Env := Option Nat

/-- One activation: the parameters' slots and the frame around it. -/
structure Frame where
  slots : Array Value
  next : Env
deriving Inhabited

/-- Every frame made so far. A frame is made after the one around it, so following `next` leads to
smaller indices. -/
structure Frames where
  table : Array Frame := #[]

namespace Frames

/-- The number of frames made so far, which is the index of the next one. -/
def size (fs : Frames) : Nat := fs.table.size

/-- Make a new frame in front of an environment. -/
def push (fs : Frames) (slots : Array Value) (next : Env) : Frames :=
  ⟨fs.table.push ⟨slots, next⟩⟩

/-- The frame `level` steps up the chain. -/
def frameAt? (fs : Frames) : Env → Nat → Option Nat
  | none, _ => none
  | some i, 0 => if i < fs.table.size then some i else none
  | some i, level + 1 =>
      match fs.table[i]? with
      | some frame => fs.frameAt? frame.next level
      | none => none

/-- The slot an address denotes; nothing if the chain has no such frame or the frame no such
slot. -/
def lookup? (fs : Frames) (env : Env) (level offset : Nat) : Option Value :=
  match fs.frameAt? env level with
  | some i => (fs.table[i]?).bind fun frame => frame.slots[offset]?
  | none => none

/-- Overwrite the slot an address denotes. An address that denotes none changes nothing. -/
def assign (fs : Frames) (env : Env) (level offset : Nat) (v : Value) : Frames :=
  match fs.frameAt? env level with
  | some i =>
      ⟨fs.table.modify i fun frame =>
        { frame with slots := frame.slots.setIfInBounds offset v }⟩
  | none => fs

/-- The slots of every frame of a chain, innermost first, following at most `fuel` links. -/
def chain (fs : Frames) : Nat → Env → List (Array Value)
  | _, none => []
  | 0, _ => []
  | fuel + 1, some i =>
      match fs.table[i]? with
      | some frame => frame.slots :: fs.chain fuel frame.next
      | none => []

/-- The slots of every frame of a chain, innermost first. -/
def contents (fs : Frames) (env : Env) : List (Array Value) :=
  fs.chain fs.table.size env

end Frames

/-!
## The store

The tables that own every value larger than a word. Entries are only ever added, so a reference
stays valid; cells, vectors and promises can be overwritten in place. The number of cells is bounded
by a capacity, and an allocation beyond it fails.

Reading through a reference that points past its table gives a neutral entry. References are only
made by allocation, so that case does not arise in a running interpreter.
-/

/-- A pair. -/
structure Cell where
  car : Value
  cdr : Value
deriving Inhabited

/-- A delayed computation: what to evaluate and where, or the value once it is known. -/
inductive Promise where
  | pending (form : Value) (env : Env)
  | delivered (v : Value)
deriving Inhabited

/-- What can be called. A template is a nested lambda before it meets its environment; an expander
is a macro, which is run on the forms of a call and not on their values. -/
inductive Callable where
  | native (n : Native)
  | template (shape : Shape) (body : Value)
  | closure (shape : Shape) (body : Value) (env : Env)
  | expander (shape : Shape) (body : Value)

instance : Inhabited Callable := ⟨.template ⟨0, false⟩ .nil⟩

namespace Callable

/-- The arguments a callable takes. -/
def shape : Callable → Shape
  | .native n => n.shape
  | .template shape _ => shape
  | .closure shape _ _ => shape
  | .expander shape _ => shape

/-- How a callable is named in failures. -/
def signature : Callable → String
  | .native n => n.signature
  | .template shape _ => "#<lambda:" ++ shape.format ++ ">"
  | .closure shape _ _ => "#<closure:" ++ shape.format ++ ">"
  | .expander shape _ => "#<macro:" ++ shape.format ++ ">"

end Callable

/-- The tables behind the references. -/
structure Store where
  capacity : Nat
  cells : Array Cell := #[]
  texts : Array String := #[]
  bignums : Array Int := #[]
  vectors : Array (Array Value) := #[]
  promises : Array Promise := #[]
  callables : Array Callable := #[]
  dummies : Array Symbol := #[]
  failures : Array Failure := #[]

namespace Store

/-! ## Cells and lists -/

/-- A new pair; none once the capacity is reached. -/
def cons (s : Store) (car cdr : Value) : Option Value × Store :=
  if s.cells.size < s.capacity then
    (some (.pair ⟨s.cells.size⟩), { s with cells := s.cells.push ⟨car, cdr⟩ })
  else (none, s)

/-- A new list of the items, given last to first, in front of `tail`. If the capacity is reached on
the way there is no list, but the cells made so far stay. -/
def consAll (s : Store) : List Value → Value → Option Value × Store
  | [], tail => (some tail, s)
  | v :: reversed, tail =>
      match s.cons v tail with
      | (some pair, s) => s.consAll reversed pair
      | (none, s) => (none, s)

/-- A new list of the items in front of `tail`, built from the last item on. -/
def listWithTail (s : Store) (items : List Value) (tail : Value) : Option Value × Store :=
  s.consAll items.reverse tail

/-- A new list. -/
def list (s : Store) (items : List Value) : Option Value × Store :=
  s.listWithTail items .nil

def car (s : Store) (r : Ref .cell) : Value := (s.cells.getD r.index default).car

def cdr (s : Store) (r : Ref .cell) : Value := (s.cells.getD r.index default).cdr

def setCar (s : Store) (r : Ref .cell) (v : Value) : Store :=
  { s with cells := s.cells.modify r.index fun c => { c with car := v } }

def setCdr (s : Store) (r : Ref .cell) (v : Value) : Store :=
  { s with cells := s.cells.modify r.index fun c => { c with cdr := v } }

/-- Collect the items of a list through at most `fuel` cells. -/
def collect? (s : Store) : Nat → Value → Option (List Value)
  | _, .nil => some []
  | 0, _ => none
  | fuel + 1, .pair r => (s.collect? fuel (s.cdr r)).map (s.car r :: ·)
  | _, _ => none

/-- The items of a proper list, without forcing anything; nothing for a list that is dotted, has a
promised tail or is cyclic. A proper list has no more cells than there are. -/
def toList? (s : Store) (v : Value) : Option (List Value) :=
  s.collect? (s.cells.size + 1) v

/-! ## Other tables -/

def newText (s : Store) (text : String) : Value × Store :=
  (.text ⟨s.texts.size⟩, { s with texts := s.texts.push text })

def text (s : Store) (r : Ref .text) : String := s.texts.getD r.index ""

/-- Keep an integer as it is given; `newNumber` is for integers that may fit in a word. -/
def newBignum (s : Store) (n : Int) : Value × Store :=
  (.big ⟨s.bignums.size⟩, { s with bignums := s.bignums.push n })

def bignum (s : Store) (r : Ref .bignum) : Int := s.bignums.getD r.index 0

/-- The value of a number, an integer narrowed. -/
def newNumber (s : Store) (n : Num) : Value × Store :=
  match n.normalize with
  | .small n => (.int n, s)
  | .double x => (.double x, s)
  | .big n => s.newBignum n

/-- The number a value is. -/
def number? (s : Store) : Value → Option Num
  | .int n => some (.small n)
  | .double x => some (.double x)
  | .big r => some (.big (s.bignum r))
  | _ => none

def newVector (s : Store) (items : Array Value) : Value × Store :=
  (.vector ⟨s.vectors.size⟩, { s with vectors := s.vectors.push items })

def vector (s : Store) (r : Ref .vector) : Array Value := s.vectors.getD r.index #[]

/-- Overwrite one item of a vector; an index past its end changes nothing. -/
def setItem (s : Store) (r : Ref .vector) (i : Nat) (v : Value) : Store :=
  { s with vectors := s.vectors.modify r.index fun items => items.setIfInBounds i v }

/-- Add an item at the end of a vector. -/
def pushItem (s : Store) (r : Ref .vector) (v : Value) : Store :=
  { s with vectors := s.vectors.modify r.index fun items => items.push v }

def newPromise (s : Store) (p : Promise) : Value × Store :=
  (.promise ⟨s.promises.size⟩, { s with promises := s.promises.push p })

def promise (s : Store) (r : Ref .promise) : Promise := s.promises.getD r.index default

def setPromise (s : Store) (r : Ref .promise) (p : Promise) : Store :=
  { s with promises := s.promises.setIfInBounds r.index p }

/-- The value of a delivered promise; a pending promise stands for itself. -/
def promiseValue (s : Store) (r : Ref .promise) : Value :=
  match s.promise r with
  | .delivered v => v
  | .pending .. => .promise r

def newCallable (s : Store) (f : Callable) : Value × Store :=
  (.callable ⟨s.callables.size⟩, { s with callables := s.callables.push f })

def callable (s : Store) (r : Ref .callable) : Callable := s.callables.getD r.index default

/-- A fresh stand-in for a private variable of a macro definition. -/
def newDummy (s : Store) (name : Symbol) : Value × Store :=
  (.dummy ⟨s.dummies.size⟩, { s with dummies := s.dummies.push name })

def dummySymbol (s : Store) (r : Ref .dummy) : Symbol := s.dummies.getD r.index ⟨0⟩

def newFailure (s : Store) (f : Failure) : Value × Store :=
  (.failure ⟨s.failures.size⟩, { s with failures := s.failures.push f })

def failure (s : Store) (r : Ref .failure) : Failure :=
  s.failures.getD r.index ⟨.malformed "", #[]⟩

/-- The text of a string or the name of a symbol. -/
def textOf? (s : Store) (symbols : SymbolTable) : Value → Option String
  | .text r => some (s.text r)
  | .sym r => some (symbols.name r)
  | _ => none

end Store

end SmallLisp
