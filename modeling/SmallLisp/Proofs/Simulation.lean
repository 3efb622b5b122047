import SmallLisp.Proofs.Guard

/-!
# Simulations

One theory for statements of the form "whatever a program does, it keeps ...": a simulation compares
two runs whose states are related and stay so. Both runs deal with the same values, of which a guard
says what is known. What is known can grow as the runs go on, by the worlds of the guard. A run that
lacks fuel is simulated by anything, so that the other run may have more of it; of the state in
which it was lost something may still be known.

The primitive operations of the machine are the fields of a simulation. That every function of the
evaluator is simulated by itself is proved from them once, in the modules below this one.
-/

namespace SmallLisp

/-! ## Simulations -/

/-- The state with its store changed. -/
def State.mapStore (s : State) (f : Store → Store) : State := { s with store := f s.store }

/-- What a program can overwrite by an operation that is meant for it: the car of a cell, its cdr,
an item of a vector, and a slot of a frame. -/
inductive Place where
  | head
  | tail
  | item
  | slot (frame offset : Nat)
deriving DecidableEq

/-- Two runs side by side: how their states and their failures are related, and that the primitive
operations keep them so. A promise is only ever delivered at the end of a call for that, made by one
of the engines that drive the first run. What is overwritten is a place that is free to be, or it
is a part of a cell that gets the value of the promise found there. -/
structure Simulation (G : Guard) where
  St : G.World → State → State → Prop
  Fault : G.World → Failure → Failure → Prop
  Lost : G.World → State → Prop
  Drives : Engine → Prop
  Frees : Place → Prop
  drives : ∀ n, Drives (Engine.ofFuel n)
  lost : ∀ {w s t}, St w s t → Lost w s
  lost_mono : ∀ {w w' s}, w ≤ w' → Lost w' s → Lost w s
  sees : ∀ {w s t}, St w s t → G.Sees w s t
  covers : ∀ {w s t}, St w s t → G.Covers w s
  fault_mono : ∀ {w w' f g}, w ≤ w' → Fault w f g → Fault w' f g
  fault_cause : ∀ {w f g}, Fault w f g → g.cause = f.cause ∧ G.GoodCause w f.cause
  fault_new : ∀ {w c}, G.GoodCause w c → Fault w { cause := c } { cause := c }
  fault_traced : ∀ {w s t form f g}, St w s t → G.Good w form → Fault w f g →
    Fault w (Engine.traced form s f) (Engine.traced form t g)
  step_cons : ∀ {w s t a d v}, St w s t → G.Good w a → G.Good w d → (s.store.cons a d).1 = some v →
    G.Reaches St w (s.mapStore fun st => (st.cons a d).2) (t.mapStore fun st => (st.cons a d).2)
      fun w' => G.Good w' v
  step_setCar : ∀ {w s t r v}, St w s t → G.Good w (.pair r) → G.Good w v →
    (Frees .head ∨ ∃ w₀ s₀ t₀ E, Drives E ∧ St w₀ s₀ t₀ ∧ w₀ ≤ w ∧ G.Good w₀ (.pair r) ∧
      E.force (s₀.store.car r) s₀ = .ok v s) →
    G.Reaches St w (s.mapStore (·.setCar r v)) (t.mapStore (·.setCar r v)) fun _ => True
  step_setCdr : ∀ {w s t r v}, St w s t → G.Good w (.pair r) → G.Good w v →
    (Frees .tail ∨ ∃ w₀ s₀ t₀ E, Drives E ∧ St w₀ s₀ t₀ ∧ w₀ ≤ w ∧ G.Good w₀ (.pair r) ∧
      E.force (s₀.store.cdr r) s₀ = .ok v s) →
    G.Reaches St w (s.mapStore (·.setCdr r v)) (t.mapStore (·.setCdr r v)) fun _ => True
  step_newText : ∀ {w s t} (text : String), St w s t →
    G.Reaches St w (s.mapStore fun st => (st.newText text).2)
      (t.mapStore fun st => (st.newText text).2) fun w' => G.Good w' (s.store.newText text).1
  step_newNumber : ∀ {w s t} (n : Num), St w s t →
    G.Reaches St w (s.mapStore fun st => (st.newNumber n).2)
      (t.mapStore fun st => (st.newNumber n).2) fun w' => G.Good w' (s.store.newNumber n).1
  step_newVector : ∀ {w s t items}, St w s t → G.GoodAll w items.toList →
    G.Reaches St w (s.mapStore fun st => (st.newVector items).2)
      (t.mapStore fun st => (st.newVector items).2) fun w' => G.Good w' (s.store.newVector items).1
  step_setItem : ∀ {w s t r v} (i : Nat), St w s t → G.Good w (.vector r) → G.Good w v →
    Frees .item →
    G.Reaches St w (s.mapStore (·.setItem r i v)) (t.mapStore (·.setItem r i v)) fun _ => True
  step_newPromise : ∀ {w s t form env}, St w s t → G.Good w form → G.Inside w env →
    G.Reaches St w (s.mapStore fun st => (st.newPromise (.pending form env)).2)
      (t.mapStore fun st => (st.newPromise (.pending form env)).2)
      fun w' => G.Good w' (s.store.newPromise (.pending form env)).1
  step_settle : ∀ {w₀ w s₀ t₀ s t r form env v E}, St w₀ s₀ t₀ → w₀ ≤ w → St w s t →
    G.Good w (.promise r) → G.Final w v → s.store.promise r = .pending form env →
    Drives E → E.deliverTurn r s₀ = .ok v (s.mapStore (·.setPromise r (.delivered v))) →
    G.Reaches St w (s.mapStore (·.setPromise r (.delivered v)))
      (t.mapStore (·.setPromise r (.delivered v))) fun _ => True
  step_newCallable : ∀ {w s t f}, St w s t → G.GoodCallable w f →
    G.Reaches St w (s.mapStore fun st => (st.newCallable f).2)
      (t.mapStore fun st => (st.newCallable f).2) fun w' => G.Good w' (s.store.newCallable f).1
  step_newDummy : ∀ {w s t x}, St w s t → G.Good w (.sym x) → s.symbols.isDummy x = true →
    G.Reaches St w (s.mapStore fun st => (st.newDummy x).2)
      (t.mapStore fun st => (st.newDummy x).2) fun w' => G.Good w' (s.store.newDummy x).1
  step_newFailure : ∀ {w s t f g}, St w s t → Fault w f g →
    G.Reaches St w (s.mapStore fun st => (st.newFailure f).2)
      (t.mapStore fun st => (st.newFailure g).2) fun w' => G.Good w' (s.store.newFailure f).1
  step_intern : ∀ {w s t} (name : String), St w s t →
    G.Reaches St w { s with symbols := (s.symbols.intern name).2 }
      { t with symbols := (t.symbols.intern name).2 }
      fun w' => G.Good w' (.sym (s.symbols.intern name).1)
  step_setGlobal : ∀ {w s t x v}, St w s t → G.Good w (.sym x) → G.Good w v →
    s.symbols.isKeyword x = false →
    G.Reaches St w (s.setGlobal x v) (t.setGlobal x v) fun _ => True
  step_extend : ∀ {w s t slots next}, St w s t → G.GoodAll w slots → G.Inside w next →
    G.Reaches St w { s with frames := s.frames.push slots.toArray next }
      { t with frames := t.frames.push slots.toArray next }
      fun w' => G.Inside w' (some s.frames.size)
  step_assign : ∀ {w s t env v} (i j : Nat), St w s t → G.Inside w env → G.Good w v →
    (∀ frame, s.frames.frameAt? env i = some frame → Frees (.slot frame j)) →
    G.Reaches St w { s with frames := s.frames.assign env i j v }
      { t with frames := t.frames.assign env i j v } fun _ => True
  step_outside : ∀ {w s t} (sink : Sink) (console : LineSource) (reader : Reader)
    (requests : Array Request) (opened : List String), St w s t →
    G.Reaches St w { s with sink, console, reader, requests, opened }
      { t with sink, console, reader, requests, opened } fun _ => True

namespace Simulation

variable {G : Guard} (L : Simulation G)

/-- The simulation puts no restriction on what is overwritten. -/
class Free : Prop where
  frees : ∀ place, L.Frees place

/-- The outcomes match: the same kind of end, related states, and `R` of the results. -/
def Match {α : Type} (w : G.World) (R : G.World → α → α → Prop) :
    Outcome α → Outcome α → Prop
  | .halt .exhausted s, _ => L.Lost w s
  | .ok a s, .ok b t => G.Reaches L.St w s t fun w' => R w' a b
  | .halt (.failed f) s, .halt (.failed g) t => G.Reaches L.St w s t fun w' => L.Fault w' f g
  | .halt (.exited c) s, .halt (.exited d) t => c = d ∧ G.Reaches L.St w s t fun _ => True
  | _, _ => False

/-- Begun in related states, the computations end alike. -/
def Alike {α : Type} (w : G.World) (R : G.World → α → α → Prop) (x y : Eval α) : Prop :=
  ∀ s t, L.St w s t → L.Match w R (x s) (y t)

/-- Begun in related states, the computations end alike, with one result for both. -/
abbrev Gives {α : Type} (w : G.World) (P : G.World → α → Prop) (x y : Eval α) : Prop :=
  L.Alike w (fun w' a b => b = a ∧ P w' a) x y

/-- What relates the engines of two runs. The second may have more fuel. -/
structure Engines (E E' : Engine) : Prop where
  fuel : E.fuel ≤ E'.fuel
  drives : L.Drives E
  eval : ∀ {w form env}, G.Good w form → G.Inside w env →
    L.Gives w G.Good (E.eval form env) (E'.eval form env)
  apply : ∀ {w f args env}, G.Good w f → G.Good w args → G.Inside w env →
    L.Gives w G.Good (E.apply f args env) (E'.apply f args env)
  deliver : ∀ {w r}, G.Good w (.promise r) → L.Gives w G.Final (E.deliver r) (E'.deliver r)

end Simulation

end SmallLisp
