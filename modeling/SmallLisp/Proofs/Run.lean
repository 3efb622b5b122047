import Mathlib
import SmallLisp.Interpreter
import SmallLisp.Proofs.Fuel

/-!
# Runs

A run is a sequence of operations of the machine, each of which changes one of its tables.
Delivering a promise is not such an operation: a promise is only ever delivered as the last act of a
call for it, and the run holds that call, from the state in which it began. Everything an
interpreter does is a run, also where it fails or does not come to an end, so what is proved along
runs holds at every moment of every computation.
-/

namespace SmallLisp

def Outcome.state {α : Type} : Outcome α → State
  | .ok _ s => s
  | .halt _ s => s

/-! ## Operations and runs -/

/-- What the machine can do in one go, short of delivering a promise. -/
inductive Operation (s : State) : State → Prop
  | cons (a d : Value) : Operation s (s.mapStore fun st => (st.cons a d).2)
  | setCar (r : Ref .cell) (v : Value) : Operation s (s.mapStore (·.setCar r v))
  | setCdr (r : Ref .cell) (v : Value) : Operation s (s.mapStore (·.setCdr r v))
  | newText (text : String) : Operation s (s.mapStore fun st => (st.newText text).2)
  | newNumber (n : Num) : Operation s (s.mapStore fun st => (st.newNumber n).2)
  | newVector (items : Array Value) : Operation s (s.mapStore fun st => (st.newVector items).2)
  | setItem (r : Ref .vector) (i : Nat) (v : Value) : Operation s (s.mapStore (·.setItem r i v))
  | newPromise (form : Value) (env : Env) :
      Operation s (s.mapStore fun st => (st.newPromise (.pending form env)).2)
  | newCallable (f : Callable) : Operation s (s.mapStore fun st => (st.newCallable f).2)
  | newDummy (x : Symbol) : Operation s (s.mapStore fun st => (st.newDummy x).2)
  | newFailure (f : Failure) : Operation s (s.mapStore fun st => (st.newFailure f).2)
  | intern (name : String) : Operation s { s with symbols := (s.symbols.intern name).2 }
  | setGlobal (x : Symbol) (v : Value) : Operation s (s.setGlobal x v)
  | extend (slots : Array Value) (next : Env) :
      Operation s { s with frames := s.frames.push slots next }
  | assign (env : Env) (i j : Nat) (v : Value) :
      Operation s { s with frames := s.frames.assign env i j v }
  | outside (sink : Sink) (console : LineSource) (reader : Reader) (requests : Array Request)
      (opened : List String) :
      Operation s { s with sink, console, reader, requests, opened }
  | configure (config : Config) (folder : Folder) : Operation s { s with config, folder }

/-- How a run that began in `s` goes on from one state to another: by operations, and by deliveries
at the end of calls that began in the run. -/
inductive Run (s : State) : State → State → Prop
  | done {t : State} : Run s t t
  | step {t u u' : State} : Run s t u → Operation u u' → Run s t u'
  /-- The call begun in `b` has come to `u`, with the promise still pending, and delivers it. -/
  | deliver {t b u : State} {r : Ref .promise} {form v : Value} {env : Env} (n : Nat) :
      Run s t u → Run s s b → Run s b u → u.store.promise r = .pending form env →
      (Engine.ofFuel n).deliver r b = .ok v (u.mapStore (·.setPromise r (.delivered v))) →
      Run s t (u.mapStore (·.setPromise r (.delivered v)))

namespace Run

variable {s t u : State}

theorem trans {t' : State} (h : Run s t u) (h' : Run s u t') : Run s t t' := by
  induction h' with
  | done => exact h
  | step _ hop ih => exact (ih h).step hop
  | deliver n _ hb hbu hp hcall ih _ _ => exact (ih h).deliver n hb hbu hp hcall

theorem operation (h : Operation t u) : Run s t u := Run.done.step h

/-- The states of a run in their order. -/
abbrev preorder (s : State) : Preorder State where
  le := Run s
  le_refl _ := .done
  le_trans _ _ _ := trans

end Run

/-! ## The promises of a machine -/

/-- No promise has been delivered with a promise. -/
def State.Flat (s : State) : Prop :=
  ∀ r v, s.store.promise r = .delivered v → v.isPromise = false

/-- An operation leaves the promises as they are, or adds one that is pending. -/
theorem Operation.promises {s t : State} (h : Operation s t) :
    t.store.promises = s.store.promises ∨
      ∃ form env, t.store.promises = s.store.promises.push (.pending form env) := by
  cases h with
  | cons a d =>
      left
      by_cases hroom : s.store.cells.size < s.store.capacity
      · simp [State.mapStore, Store.cons, hroom]
      · simp [State.mapStore, Store.cons, hroom]
  | newNumber n =>
      left
      simp only [State.mapStore, Store.newNumber]
      cases n.normalize <;> rfl
  | newPromise form env => exact .inr ⟨form, env, rfl⟩
  | _ => exact .inl rfl

namespace Store

theorem promise_of_promises_eq {s t : Store} (h : t.promises = s.promises)
    (r : Ref .promise) : t.promise r = s.promise r := by
  rw [promise, promise, h]

/-- A promise that is not the new one is as it was. -/
theorem promise_push {s t : Store} {p : Promise} (h : t.promises = s.promises.push p)
    {r : Ref .promise} (hr : r.index < s.promises.size) : t.promise r = s.promise r := by
  have hne : r.index ≠ s.promises.size := Nat.ne_of_lt hr
  simp [promise, h, Array.getD_eq_getD_getElem?, Array.getElem?_push, hne]

theorem lt_of_delivered {s : Store} {r : Ref .promise} {v : Value}
    (h : s.promise r = .delivered v) : r.index < s.promises.size := by
  by_cases hr : r.index < s.promises.size
  · exact hr
  · have hnone : s.promises[r.index]? = none := Array.getElem?_eq_none (by omega)
    simp only [promise, Array.getD_eq_getD_getElem?, hnone, Option.getD_none] at h
    cases h

theorem promise_setPromise_self {s : Store} {r : Ref .promise} (p : Promise)
    (hr : r.index < s.promises.size) : (s.setPromise r p).promise r = p := by
  simp [promise, setPromise, Array.getD_eq_getD_getElem?, hr]

theorem promise_setPromise_of_ne {s : Store} {r q : Ref .promise} (p : Promise) (h : q ≠ r) :
    (s.setPromise r p).promise q = s.promise q := by
  have hne : r.index ≠ q.index := fun hi => h (by cases r; cases q; simp_all)
  simp [promise, setPromise, Array.getD_eq_getD_getElem?, hne]

end Store

theorem Operation.size_promises {s t : State} (h : Operation s t) :
    s.store.promises.size ≤ t.store.promises.size := by
  rcases h.promises with heq | ⟨form, env, heq⟩
  · rw [heq]
  · rw [heq, Array.size_push]
    omega

/-- An operation leaves each promise there is as it is. -/
theorem Operation.promise {s t : State} (h : Operation s t) {r : Ref .promise}
    (hr : r.index < s.store.promises.size) : t.store.promise r = s.store.promise r := by
  rcases h.promises with heq | ⟨form, env, heq⟩
  · exact Store.promise_of_promises_eq heq r
  · exact Store.promise_push heq hr

theorem Operation.flat {s t : State} (h : Operation s t) (hs : s.Flat) : t.Flat := by
  intro r v hr
  rcases h.promises with heq | ⟨form, env, heq⟩
  · rw [Store.promise_of_promises_eq heq] at hr
    exact hs r v hr
  · have hlt := Store.lt_of_delivered hr
    rw [heq, Array.size_push] at hlt
    by_cases hnew : r.index = s.store.promises.size
    · simp [Store.promise, heq, Array.getD_eq_getD_getElem?, hnew] at hr
    · rw [Store.promise_push heq (by omega)] at hr
      exact hs r v hr

theorem State.Flat.setPromise {s : State} (hs : s.Flat) (r : Ref .promise) {v : Value}
    (hv : v.isPromise = false) : (s.mapStore (·.setPromise r (.delivered v))).Flat := by
  intro q u hq
  by_cases hqr : q = r
  · subst hqr
    have hlt := Store.lt_of_delivered hq
    have hsize : q.index < s.store.promises.size := by
      simpa [State.mapStore, Store.setPromise] using hlt
    have hself := Store.promise_setPromise_self (.delivered v) hsize
    have hdelivered := hself.symm.trans hq
    cases hdelivered
    exact hv
  · have hother := Store.promise_setPromise_of_ne (s := s.store) (.delivered v) hqr
    exact hs q u (hother.symm.trans hq)

/-! ## Everything is a run -/

/-- Every value passes, and the world is the state in a run; a delivered value is no promise. -/
def Guard.along (s₀ : State) : Guard where
  World := State
  order := Run.preorder s₀
  Good _ _ := True
  Final _ v := v.isPromise = false
  Inside _ _ := True
  good_mono _ h := h
  final_mono _ h := h
  inside_mono _ h := h
  good_of_final _ := trivial
  final_of_good _ h := h
  nil _ := trivial
  int _ _ := trivial
  double _ _ := trivial
  eof _ := trivial
  truth _ := trivial
  address := Iff.rfl
  top _ := trivial

theorem Guard.along_covers {s₀ : State} (w : (Guard.along s₀).World) {s : State}
    (hs : s.Flat) : (Guard.along s₀).Covers w s where
  car _ := trivial
  cdr _ := trivial
  promise {r} _ := by
    cases hp : s.store.promise r with
    | pending form env => exact ⟨trivial, trivial⟩
    | delivered v => exact hs r v hp
  callable {r} _ := by cases s.store.callable r <;> simp [GoodCallable, along]
  vector _ _ _ := trivial
  dummy _ := trivial
  global _ := ⟨trivial, trivial⟩
  slot _ _ := trivial
  frames _ _ _ _ _ := trivial

theorem Guard.along_goodCause {s₀ : State} (w : (Guard.along s₀).World) (c : Cause) :
    (Guard.along s₀).GoodCause w c := by
  cases c <;> simp [GoodCause, along]

namespace Engine

/-- A call that succeeds leaves the promise delivered with its value. -/
def Delivers (E : Engine) : Prop :=
  ∀ {r v s t}, r.index < t.store.promises.size → E.deliver r s = .ok v t →
    t.store.promise r = .delivered v

variable {E : Engine} {r : Ref .promise} {v : Value} {s t : State}

/-- Whatever the engine evaluates, a turn that succeeds leaves the promise delivered with its
value. -/
theorem promise_of_deliverTurn (hsize : r.index < t.store.promises.size)
    (h : E.deliverTurn r s = .ok v t) : t.store.promise r = .delivered v := by
  cases hp : s.store.promise r with
  | delivered w =>
      rw [deliverTurn_delivered hp] at h
      cases h
      exact hp
  | pending form env =>
      rw [deliverTurn_pending hp, Eval.bind_eq_ok] at h
      obtain ⟨w, m, -, hsettle⟩ := h
      cases hm : m.store.promise r with
      | delivered first =>
          rw [settle_delivered hm] at hsettle
          cases hsettle
          exact hm
      | pending form' env' =>
          rw [settle_pending hm] at hsettle
          cases hsettle
          refine Store.promise_setPromise_self (s := m.store) _ ?_
          simpa [State.mapStore, Store.setPromise] using hsize

theorem deliver_succ (n : Nat) (r : Ref .promise) :
    (ofFuel (n + 1)).deliver r = (ofFuel n).deliverTurn r := by
  simp only [ofFuel, deliverTo]

theorem delivers_handled (H : Handlers) (n : Nat) : (handled H n).Delivers := by
  intro r v s t hsize h
  cases n with
  | zero => cases h
  | succ n => exact promise_of_deliverTurn hsize h

theorem delivers_ofFuel (n : Nat) : (ofFuel n).Delivers :=
  handled_plain n ▸ delivers_handled .plain n

end Engine

namespace Simulation

theorem tracked {s₀ s t : State} {P : (Guard.along s₀).World → Prop} (hs : s.Flat)
    (hrun : Run s₀ s₀ s) (hop : Operation s t) (hP : P t) :
    (Guard.along s₀).Reaches (fun w s t => w = s ∧ t = s ∧ s.Flat ∧ Run s₀ s₀ s) s t t P :=
  ⟨t, Run.operation hop, ⟨rfl, rfl, hop.flat hs, hrun.step hop⟩, hP⟩

/-- A computation beside itself, with its place in a run as the world. -/
def tracking (s₀ : State) : Simulation (Guard.along s₀) where
  St w s t := w = s ∧ t = s ∧ s.Flat ∧ Run s₀ s₀ s
  Fault _ f g := g = f
  Lost w s := Run s₀ w s
  Drives E := ∃ n, E = Engine.ofFuel n
  Frees _ := True
  drives n := ⟨n, rfl⟩
  lost h := h.1 ▸ .done
  lost_mono hw h := Run.trans hw h
  sees h := .of_agrees (h.2.1 ▸ .refl _)
  covers h := Guard.along_covers _ h.2.2.1
  fault_mono _ h := h
  fault_cause h := ⟨h ▸ rfl, Guard.along_goodCause _ _⟩
  fault_new _ := rfl
  fault_traced hst _ h := by rw [hst.2.1, h]
  step_cons := by
    rintro w s t a d v ⟨rfl, rfl, hs, hrun⟩ - - -
    exact tracked hs hrun (.cons a d) trivial
  step_setCar := by
    rintro w s t r v ⟨rfl, rfl, hs, hrun⟩ - - -
    exact tracked hs hrun (.setCar r v) trivial
  step_setCdr := by
    rintro w s t r v ⟨rfl, rfl, hs, hrun⟩ - - -
    exact tracked hs hrun (.setCdr r v) trivial
  step_newText := by
    rintro w s t text ⟨rfl, rfl, hs, hrun⟩
    exact tracked hs hrun (.newText text) trivial
  step_newNumber := by
    rintro w s t n ⟨rfl, rfl, hs, hrun⟩
    exact tracked hs hrun (.newNumber n) trivial
  step_newVector := by
    rintro w s t items ⟨rfl, rfl, hs, hrun⟩ -
    exact tracked hs hrun (.newVector items) trivial
  step_setItem := by
    rintro w s t r v i ⟨rfl, rfl, hs, hrun⟩ - - -
    exact tracked hs hrun (.setItem r i v) trivial
  step_newPromise := by
    rintro w s t form env ⟨rfl, rfl, hs, hrun⟩ - -
    exact tracked hs hrun (.newPromise form env) trivial
  step_settle := by
    rintro w₀ w s₁ t₁ s t r form env v E ⟨rfl, rfl, -, hb⟩ hbu ⟨rfl, rfl, hs, hrun⟩ - hv hp
      ⟨n, rfl⟩ hcall
    rw [← Engine.deliver_succ] at hcall
    exact ⟨_, Run.done.deliver (n + 1) hb hbu hp hcall,
      ⟨rfl, rfl, hs.setPromise r hv, hrun.deliver (n + 1) hb hbu hp hcall⟩, trivial⟩
  step_newCallable := by
    rintro w s t f ⟨rfl, rfl, hs, hrun⟩ -
    exact tracked hs hrun (.newCallable f) trivial
  step_newDummy := by
    rintro w s t x ⟨rfl, rfl, hs, hrun⟩ - -
    exact tracked hs hrun (.newDummy x) trivial
  step_newFailure := by
    rintro w s t f g ⟨rfl, rfl, hs, hrun⟩ rfl
    exact tracked hs hrun (.newFailure g) trivial
  step_intern := by
    rintro w s t name ⟨rfl, rfl, hs, hrun⟩
    exact tracked hs hrun (.intern name) trivial
  step_setGlobal := by
    rintro w s t x v ⟨rfl, rfl, hs, hrun⟩ - - -
    exact tracked hs hrun (.setGlobal x v) trivial
  step_extend := by
    rintro w s t slots next ⟨rfl, rfl, hs, hrun⟩ - -
    exact tracked hs hrun (.extend slots.toArray next) trivial
  step_assign := by
    rintro w s t env v i j ⟨rfl, rfl, hs, hrun⟩ - - -
    exact tracked hs hrun (.assign env i j v) trivial
  step_outside := by
    rintro w s t sink console reader requests opened ⟨rfl, rfl, hs, hrun⟩
    exact tracked hs hrun (.outside sink console reader requests opened) trivial

instance (s₀ : State) : (tracking s₀).Free := ⟨fun _ => trivial⟩

theorem run_of_match {s₀ s : State} {α : Type} {R : (Guard.along s₀).World → α → α → Prop}
    {o o' : Outcome α} (h : (tracking s₀).Match s R o o') : Run s₀ s o.state := by
  rcases h.cases with ⟨t, rfl, hl⟩ | ⟨a, b, t, t', rfl, rfl, w, hw, hst, -⟩ |
    ⟨f, g, t, t', rfl, rfl, w, hw, hst, -⟩ | ⟨c, t, t', rfl, rfl, w, hw, hst, -⟩
  · exact hl
  · obtain ⟨rfl, -⟩ := hst
    exact hw
  · obtain ⟨rfl, -⟩ := hst
    exact hw
  · obtain ⟨rfl, -⟩ := hst
    exact hw

end Simulation

/-- The value of a delivery is no promise. -/
theorem Engine.isPromise_of_force {n : Nat} {u v : Value} {s t : State} (hs : s.Flat)
    (h : (ofFuel n).force u s = .ok v t) : v.isPromise = false := by
  have hE := (Simulation.tracking s).engines (Nat.le_refl n)
  have hmatch := (Simulation.tracking s).forceFinal (w := s) hE (v := u) trivial s s
    ⟨rfl, rfl, hs, .done⟩
  rw [h] at hmatch
  obtain ⟨_, -, -, -, hfinal⟩ := hmatch
  exact hfinal

theorem Run.flat {s t u : State} (h : Run s t u) (hs : s.Flat) (ht : t.Flat) :
    u.Flat := by
  induction h with
  | done => exact ht
  | step _ hop ih => exact hop.flat (ih ht)
  | @deliver t b u r form v env n _ _ _ _ hcall ih ihb _ =>
      exact (ih ht).setPromise r (Engine.isPromise_of_force (u := .promise r) (ihb hs) hcall)

/-! ## What all operations keep -/

theorem Simulation.kept {I : State → Prop} {s : State} {P : Guard.free.World → Prop} (hs : I s)
    (hP : P ()) : Guard.free.Reaches (fun _ s t => t = s ∧ I s) () s s P :=
  ⟨(), le_refl _, ⟨rfl, hs⟩, hP⟩

/-- A computation beside itself, with a property that all operations and deliveries keep. -/
def Simulation.keeping (I : State → Prop) (operate : ∀ {s t : State}, Operation s t → I s → I t)
    (deliver : ∀ {s : State} (r : Ref .promise) (v : Value), I s →
      I (s.mapStore (·.setPromise r (.delivered v)))) : Simulation Guard.free :=
  { same with
    St := fun _ s t => t = s ∧ I s
    lost := fun _ => trivial
    sees := fun h => .of_agrees (h.1 ▸ .refl _)
    covers := fun _ => Guard.free_covers _ _
    fault_traced := by
      rintro w s t form f g ⟨rfl, -⟩ - rfl
      rfl
    step_cons := by
      rintro w s t a d v ⟨rfl, hs⟩ - - -
      exact kept (operate (.cons a d) hs) trivial
    step_setCar := by
      rintro w s t r v ⟨rfl, hs⟩ - - -
      exact kept (operate (.setCar r v) hs) trivial
    step_setCdr := by
      rintro w s t r v ⟨rfl, hs⟩ - - -
      exact kept (operate (.setCdr r v) hs) trivial
    step_newText := by
      rintro w s t text ⟨rfl, hs⟩
      exact kept (operate (.newText text) hs) trivial
    step_newNumber := by
      rintro w s t n ⟨rfl, hs⟩
      exact kept (operate (.newNumber n) hs) trivial
    step_newVector := by
      rintro w s t items ⟨rfl, hs⟩ -
      exact kept (operate (.newVector items) hs) trivial
    step_setItem := by
      rintro w s t r v i ⟨rfl, hs⟩ - - -
      exact kept (operate (.setItem r i v) hs) trivial
    step_newPromise := by
      rintro w s t form env ⟨rfl, hs⟩ - -
      exact kept (operate (.newPromise form env) hs) trivial
    step_settle := by
      rintro w₀ w s₀ t₀ s t r form env v E - - ⟨rfl, hs⟩ - - - - -
      exact kept (deliver r v hs) trivial
    step_newCallable := by
      rintro w s t f ⟨rfl, hs⟩ -
      exact kept (operate (.newCallable f) hs) trivial
    step_newDummy := by
      rintro w s t x ⟨rfl, hs⟩ - -
      exact kept (operate (.newDummy x) hs) trivial
    step_newFailure := by
      rintro w s t f g ⟨rfl, hs⟩ rfl
      exact kept (operate (.newFailure g) hs) trivial
    step_intern := by
      rintro w s t name ⟨rfl, hs⟩
      exact kept (operate (.intern name) hs) trivial
    step_setGlobal := by
      rintro w s t x v ⟨rfl, hs⟩ - - -
      exact kept (operate (.setGlobal x v) hs) trivial
    step_extend := by
      rintro w s t slots next ⟨rfl, hs⟩ - -
      exact kept (operate (.extend slots.toArray next) hs) trivial
    step_assign := by
      rintro w s t env v i j ⟨rfl, hs⟩ - - -
      exact kept (operate (.assign env i j v) hs) trivial
    step_outside := by
      rintro w s t sink console reader requests opened ⟨rfl, hs⟩
      exact kept (operate (.outside sink console reader requests opened) hs) trivial }

/-- The store never gets larger or smaller than it was made. -/
theorem Operation.capacity {s t : State} (h : Operation s t) :
    t.store.capacity = s.store.capacity := by
  cases h with
  | cons a d =>
      by_cases hroom : s.store.cells.size < s.store.capacity
      · simp [State.mapStore, Store.cons, hroom]
      · simp [State.mapStore, Store.cons, hroom]
  | newNumber n =>
      simp only [State.mapStore, Store.newNumber]
      cases n.normalize <;> rfl
  | _ => rfl

theorem Engine.capacity_expandCall {n : Nat} {f : Callable} {body args w : Value} {s t : State}
    (h : (ofFuel n).expandCall f body args s = .ok w t) :
    t.store.capacity = s.store.capacity := by
  let L := Simulation.keeping (fun t => t.store.capacity = s.store.capacity)
    (fun hop ht => hop.capacity.trans ht) fun _ _ ht => ht
  have hfree : L.Free := ⟨fun _ => trivial⟩
  have hbody : Guard.free.Good () body := trivial
  have hargs : Guard.free.Good () args := trivial
  have hmatch := L.expandCall (L.engines (Nat.le_refl n)) f hbody hargs s s ⟨rfl, rfl⟩
  rw [h] at hmatch
  obtain ⟨_, -, ⟨-, hcapacity⟩, -⟩ := hmatch
  exact hcapacity

namespace Eval

/-- Begun in a state of a run, the computation goes on with that run. -/
def Tracked {α : Type} (x : Eval α) : Prop :=
  ∀ s₀ s, s₀.Flat → Run s₀ s₀ s → Run s₀ s (x s).state

namespace Tracked

variable {α β : Type} {x : Eval α}

theorem of_alike (h : ∀ s₀ (w : (Guard.along s₀).World),
    ∃ R, (Simulation.tracking s₀).Alike w R x x) : x.Tracked := by
  intro s₀ s hs₀ hrun
  obtain ⟨R, hR⟩ := h s₀ s
  exact Simulation.run_of_match (hR s s ⟨rfl, rfl, hrun.flat hs₀ hs₀, hrun⟩)

theorem of_operation {f : State → State} (h : ∀ s, Operation s (f s)) : (modify f).Tracked :=
  fun _ s _ _ => Run.operation (h s)

theorem pure (a : α) : (Pure.pure a : Eval α).Tracked := fun _ _ _ _ => .done

theorem gets (f : State → α) : (Eval.gets f).Tracked := fun _ _ _ _ => .done

theorem bind {f : α → Eval β} (hx : x.Tracked) (hf : ∀ a, (f a).Tracked) :
    (x >>= f).Tracked := by
  intro s₀ s hs₀ hrun
  have hrun' := hx s₀ s hs₀ hrun
  rw [bind_apply]
  cases hxs : x s with
  | ok a t =>
      rw [hxs] at hrun'
      exact hrun'.trans (hf a s₀ t hs₀ (hrun.trans hrun'))
  | halt c t =>
      rw [hxs] at hrun'
      exact hrun'

theorem attempt (hx : x.Tracked) : (Eval.attempt x).Tracked := by
  intro s₀ s hs₀ hrun
  have hrun' := hx s₀ s hs₀ hrun
  unfold Eval.attempt
  rcases hxs : x s with ⟨a, t⟩ | ⟨f | c | _, t⟩ <;>
    · rw [hxs] at hrun'
      exact hrun'

theorem fail (c : Cause) : (Eval.fail c : Eval α).Tracked := fun _ _ _ _ => .done

theorem ofExcept (a : Except Failure α) : (Eval.ofExcept a).Tracked := by
  cases a <;> exact fun _ _ _ _ => .done

end Tracked

end Eval

/-! ## What an interpreter does -/

namespace Engine

theorem tracked_eval (n : Nat) (form : Value) (env : Env) :
    ((ofFuel n).eval form env).Tracked :=
  .of_alike fun s₀ w => ⟨fun _ a b => b = a ∧ True,
    ((Simulation.tracking s₀).engines (Nat.le_refl n)).eval (w := w) trivial trivial⟩

theorem tracked_apply (n : Nat) (f args : Value) (env : Env) :
    ((ofFuel n).apply f args env).Tracked :=
  .of_alike fun s₀ w => ⟨fun _ a b => b = a ∧ True,
    ((Simulation.tracking s₀).engines (Nat.le_refl n)).apply (w := w) trivial trivial trivial⟩

theorem tracked_force (n : Nat) (v : Value) : ((ofFuel n).force v).Tracked :=
  .of_alike fun s₀ _ => ⟨_, (Simulation.tracking s₀).forceFinal
    ((Simulation.tracking s₀).engines (Nat.le_refl n)) trivial⟩

theorem tracked_forceEach (n : Nat) (v : Value) : ((ofFuel n).forceEach v).Tracked :=
  .of_alike fun s₀ _ => ⟨_, (Simulation.tracking s₀).forceEach
    ((Simulation.tracking s₀).engines (Nat.le_refl n)) trivial⟩

end Engine

namespace Script

open Eval

variable {n : Nat} {σ : Type} {receiver : Option (Receiver σ)}

theorem tracked_outcome (result : Except Cause Value) :
    (outcome (Engine.ofFuel n) result).Tracked := by
  cases result with
  | ok form => exact .attempt (Engine.tracked_eval n form none)
  | error c => exact .pure _

theorem tracked_loop (hr : ∀ r ∈ receiver, ∀ record result, (r.receive record result).Tracked)
    (k : Nat) (feed : Feed) (record : σ) (last : Value) :
    (loop (Engine.ofFuel n) receiver k feed record last).Tracked := by
  induction k generalizing feed record last with
  | zero => exact fun _ _ _ _ => .done
  | succ k ih =>
      rw [loop]
      refine .bind (.of_alike fun s₀ w => ⟨_, (Simulation.tracking s₀).read feed⟩) fun p => ?_
      obtain ⟨result, feed⟩ := p
      by_cases heof : result = .ok .eof
      · subst heof
        exact .pure _
      · have houtcome := tracked_outcome (n := n) result
        rcases result with c | v
        on_goal 2 => cases v
        case neg.ok.eof => exact absurd rfl heof
        all_goals
          refine houtcome.bind fun a => ?_
          rcases a with f | v <;> rcases receiver with _ | r
          · exact .pure _
          · dsimp only
            split
            · exact .pure _
            · exact (hr r rfl record (.error f)).bind fun record => ih feed record last
          · exact ih feed record v
          · exact (hr r rfl record (.ok v)).bind fun record => ih feed record v

theorem tracked_runWith (hr : ∀ r ∈ receiver, ∀ record result, (r.receive record result).Tracked)
    (feed : Feed) (record : σ) : (runWith (Engine.ofFuel n) receiver feed record).Tracked := by
  refine (tracked_loop hr _ feed record .nil).bind fun p => ?_
  refine .bind (.of_alike fun s₀ w => ⟨_, (Simulation.tracking s₀).close p.2.1⟩) fun _ => ?_
  exact .pure _

theorem tracked_run (source : LineSource) : (run (Engine.ofFuel n) source).Tracked :=
  .of_alike fun s₀ _ =>
    ⟨_, (Simulation.tracking s₀).run ((Simulation.tracking s₀).engines (Nat.le_refl n)) source⟩

theorem tracked_load (path : String) : (load (Engine.ofFuel n) path).Tracked := by
  refine .bind (.of_alike fun s₀ _ => ⟨_, (Simulation.tracking s₀).openFile path⟩) fun a => ?_
  cases a with
  | ok source => exact tracked_run source
  | error message => exact .fail _

end Script

namespace Interpreter

open Eval

theorem tracked_setGlobal (x : Symbol) (v : Value) : (modify (·.setGlobal x v)).Tracked :=
  .of_operation fun _ => .setGlobal x v

theorem tracked_seed : seed.Tracked := by
  refine (tracked_setGlobal _ _).bind fun _ => (tracked_setGlobal _ _).bind fun _ => ?_
  refine .bind (.of_alike fun s₀ _ => ⟨_, (Simulation.tracking s₀).newText _⟩) fun name => ?_
  refine .bind (.of_alike fun s₀ _ => ⟨_, (Simulation.tracking s₀).list fun _ _ => trivial⟩)
    fun version => ?_
  exact (tracked_setGlobal _ _).bind fun _ => tracked_setGlobal _ _

theorem tracked_installAll (natives : List Native) : (installAll natives).Tracked := by
  induction natives with
  | nil => exact .pure _
  | cons n natives ih =>
      refine .bind (.bind ?_ fun x => .bind ?_ fun v => tracked_setGlobal x v) fun _ => ih
      · exact .of_alike fun s₀ _ => ⟨_, (Simulation.tracking s₀).intern n.name⟩
      · exact .of_alike fun s₀ _ => ⟨_, (Simulation.tracking s₀).newCallable trivial⟩

theorem tracked_boot (n : Nat) : (boot (Engine.ofFuel n)).Tracked := by
  refine tracked_seed.bind fun _ => (tracked_installAll _).bind fun _ => ?_
  refine (Tracked.gets _).bind fun load => ?_
  cases load with
  | true => exact (Script.tracked_run _).bind fun _ => .pure _
  | false => exact .pure _

/-- What an interpreter can be asked for once it is booted. -/
inductive Task (E : Engine) : (α : Type) → Eval α → Prop
  | eval (form : Value) (env : Env) : Task E Value (E.eval form env)
  | apply (f args : Value) (env : Env) : Task E Value (E.apply f args env)
  | force (v : Value) : Task E Value (E.force v)
  | forceEach (v : Value) : Task E Unit (E.forceEach v)
  | run (source : LineSource) : Task E Value (Script.run E source)
  | runCollecting (source : LineSource) : Task E _ (runCollecting E source)
  | runConsole : Task E Value (runConsole E)
  | load (path : String) : Task E Value (Script.load E path)

/-- Whatever an interpreter is asked for in the course of a run is part of that run. -/
theorem Task.tracked {n : Nat} {α : Type} {x : Eval α} (h : Task (Engine.ofFuel n) α x) :
    x.Tracked := by
  cases h with
  | eval form env => exact Engine.tracked_eval n form env
  | apply f args env => exact Engine.tracked_apply n f args env
  | force v => exact Engine.tracked_force n v
  | forceEach v => exact Engine.tracked_forceEach n v
  | run source => exact Script.tracked_run source
  | load path => exact Script.tracked_load path
  | runCollecting source =>
      refine Script.tracked_runWith ?_ _ _
      rintro r ⟨⟩ record (f | v)
      · exact .pure _
      · exact (Tracked.gets _).bind fun _ => .pure _
  | runConsole =>
      refine .bind (Script.tracked_runWith ?_ _ _) fun p => .ofExcept _
      have hwrite : ∀ text, (write text).Tracked := fun text =>
        .of_alike fun s₀ _ => ⟨_, (Simulation.tracking s₀).write text⟩
      rintro r ⟨⟩ record (f | v)
      · exact hwrite _
      · exact (Tracked.gets _).bind fun _ => hwrite _

end Interpreter

end SmallLisp
