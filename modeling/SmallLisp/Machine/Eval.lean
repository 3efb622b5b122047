import SmallLisp.Machine.State

/-!
# Computations

A computation on the machine gives a value, or halts: with a failure that a program can catch, with
an exit it cannot, or because the fuel that bounds every computation here is used up. In each case
there is a state, since what a program did before it failed stays done.
-/

namespace SmallLisp

/-- Why a computation gives no value. -/
inductive Halt where
  | failed (f : Failure)
  /-- The program ended the process with this code. -/
  | exited (code : Nat)
  /-- The fuel is used up. -/
  | exhausted

/-- How a computation ends. -/
inductive Outcome (α : Type) where
  | ok (a : α) (s : State)
  | halt (h : Halt) (s : State)

/-- A computation on the machine. -/
def Eval (α : Type) : Type := State → Outcome α

namespace Eval

@[always_inline, inline]
protected def pure {α : Type} (a : α) : Eval α := fun s => .ok a s

@[always_inline, inline]
protected def bind {α β : Type} (x : Eval α) (f : α → Eval β) : Eval β := fun s =>
  match x s with
  | .ok a s => f a s
  | .halt h s => .halt h s

@[always_inline]
instance : Monad Eval where
  pure := Eval.pure
  bind := Eval.bind

/-- Halt. -/
@[always_inline, inline]
def halt {α : Type} (h : Halt) : Eval α := fun s => .halt h s

/-- Fail for a cause, with nothing traced yet. -/
@[always_inline, inline]
def fail {α : Type} (cause : Cause) : Eval α := halt (.failed { cause })

/-- Fail because a form is malformed. -/
def malformed {α : Type} (f : FormFault) : Eval α := fail (.malformed f.message)

/-- Fail in a native. -/
def refuse {α : Type} (f : NativeFault) : Eval α := fail (.native f.message)

/-- A part of the state. -/
@[always_inline, inline]
def gets {α : Type} (f : State → α) : Eval α := fun s => .ok (f s) s

@[always_inline, inline]
def modify (f : State → State) : Eval Unit := fun s => .ok () (f s)

/-- Run a computation and give its failure as a value. Exits and lack of fuel still halt. -/
@[always_inline, inline]
def attempt {α : Type} (x : Eval α) : Eval (Except Failure α) := fun s =>
  match x s with
  | .ok a s => .ok (.ok a) s
  | .halt (.failed f) s => .ok (.error f) s
  | .halt h s => .halt h s

/-- Fail again with a failure caught before. -/
@[always_inline, inline]
def refail {α : Type} (f : Failure) : Eval α := halt (.failed f)

/-- A result or a failure as a computation. -/
@[always_inline, inline]
def ofExcept {α : Type} : Except Failure α → Eval α
  | .ok a => Eval.pure a
  | .error f => refail f

/-- Change failures on their way out; `change` may look at the state. -/
@[always_inline, inline]
def onFailure {α : Type} (x : Eval α) (change : State → Failure → Failure) : Eval α := fun s =>
  match x s with
  | .ok a s => .ok a s
  | .halt (.failed f) s => .halt (.failed (change s f)) s
  | .halt h s => .halt h s

end Eval

end SmallLisp

/-!
## Access to the machine

The operations of the store, the frames and the symbols as computations, the text of values, and
failures that show a value. The store is taken out of the state while it is changed, so that it can
be changed in place.
-/

namespace SmallLisp.Eval

/-! ## The store -/

/-- An operation that allocates in the store. -/
@[always_inline, inline]
def alloc {α : Type} (f : Store → α × Store) : Eval α := fun s =>
  let store := s.store
  let s := { s with store := { capacity := 0 } }
  match f store with
  | (a, store) => .ok a { s with store }

/-- An operation that changes the store. -/
@[always_inline, inline]
def update (f : Store → Store) : Eval Unit := alloc fun store => ((), f store)

/-- An allocation of cells, which fails when the capacity is reached. -/
@[always_inline, inline]
def allocCells (f : Store → Option Value × Store) : Eval Value := fun s =>
  let store := s.store
  let s := { s with store := { capacity := 0 } }
  match f store with
  | (some v, store) => .ok v { s with store }
  | (none, store) => .halt (.failed { cause := .storeFull store.capacity }) { s with store }

/-- A new pair. -/
def cons (car cdr : Value) : Eval Value := allocCells fun store => store.cons car cdr

/-- A new list of the items, given last to first, in front of a tail. -/
def consAll (reversed : List Value) (tail : Value) : Eval Value :=
  allocCells fun store => store.consAll reversed tail

/-- A new list of the items in front of a tail. -/
def listWithTail (items : List Value) (tail : Value) : Eval Value :=
  allocCells fun store => store.listWithTail items tail

/-- A new list. -/
def list (items : List Value) : Eval Value := listWithTail items .nil

def car (r : Ref .cell) : Eval Value := gets fun s => s.store.car r

def cdr (r : Ref .cell) : Eval Value := gets fun s => s.store.cdr r

def setCar (r : Ref .cell) (v : Value) : Eval Unit := update fun store => store.setCar r v

def setCdr (r : Ref .cell) (v : Value) : Eval Unit := update fun store => store.setCdr r v

/-! ## Text -/

/-- The written text of a value in a state. -/
def textIn (s : State) (v : Value) : String :=
  SmallLisp.print s.store s.symbols true s.config.maxPrintRepeats v

/-- The written text of a value. -/
def textOf (v : Value) : Eval String := gets fun s => textIn s v

/-- The text of a value with strings raw. -/
def rawTextOf (v : Value) : Eval String :=
  gets fun s => SmallLisp.print s.store s.symbols false s.config.maxPrintRepeats v

/-- Fail for a cause that carries the text of a value. -/
def failOn {α : Type} (v : Value) (cause : String → Cause) : Eval α := do
  let text ← textOf v
  fail (cause text)

/-- Fail because of a malformed form that shows a value. -/
def malformedOn {α : Type} (v : Value) (f : String → FormFault) : Eval α :=
  failOn v fun text => .malformed (f text).message

/-- Fail in a native because of a value. -/
def refuseOn {α : Type} (v : Value) (f : String → NativeFault) : Eval α :=
  failOn v fun text => .native (f text).message

/-- The wording of a sink that has no room. -/
def sinkFull : String := "sink full"

/-- Print text, all of it or nothing. -/
def write (text : String) : Eval Unit := fun s =>
  if s.sink.accepts text then .ok () { s with sink := s.sink.add text }
  else .halt (.failed { cause := .io sinkFull }) s

/-! ## Frames -/

/-- A new frame in front of an environment. -/
def extend (slots : List Value) (next : Env) : Eval Env := fun s =>
  let env := some s.frames.size
  .ok env { s with frames := s.frames.push slots.toArray next }

/-- The slot an address denotes. -/
def slot? (env : Env) (a : Address) : Eval (Option Value) :=
  gets fun s => s.frames.lookup? env a.level a.offset

/-- Overwrite the slot an address denotes; false if there is none. -/
def assign (env : Env) (a : Address) (v : Value) : Eval Bool := fun s =>
  if (s.frames.lookup? env a.level a.offset).isSome then
    .ok true { s with frames := s.frames.assign env a.level a.offset v }
  else .ok false s

/-! ## Symbols and globals -/

/-- The name of a symbol. -/
def nameOf (s : Symbol) : Eval String := gets fun st => st.symbols.name s

/-- Whether a symbol is a keyword. -/
def isKeyword (s : Symbol) : Eval Bool := gets fun st => st.symbols.isKeyword s

/-- The symbol of a name. -/
def intern (name : String) : Eval Symbol := fun s =>
  let (sym, symbols) := s.symbols.intern name
  .ok sym { s with symbols }

end SmallLisp.Eval
