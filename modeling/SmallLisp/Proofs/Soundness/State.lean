import Mathlib.Logic.Relation
import SmallLisp.Proofs.Run
import SmallLisp.Proofs.Sealed

/-!
# Sound states

A reference is in range if it is below the number of entries of its table. A state is sound if all
references that it holds are in range, wherever it holds them, and its cells fit into the store. An
operation of the machine is admissible if the references that it is given are in range. Admissible
operations only ever add entries, so references stay in range, and they keep states sound; hence so
does any sequence of them.
-/

namespace SmallLisp

/-! ## References in range -/

/-- The reference that a value is or holds, if any, with its table. -/
def Value.ref? : Value → Option (Σ table, Ref table)
  | .nil | .int _ | .double _ | .eof => none
  | .big r => some ⟨_, r⟩
  | .text r => some ⟨_, r⟩
  | .sym r => some ⟨_, r⟩
  | .pair r => some ⟨_, r⟩
  | .vector r => some ⟨_, r⟩
  | .promise r => some ⟨_, r⟩
  | .callable r => some ⟨_, r⟩
  | .address a => some ⟨_, a.symbol⟩
  | .dummy r => some ⟨_, r⟩
  | .failure r => some ⟨_, r⟩

/-- How many entries there are in each table, and how many frames. -/
structure Bounds where
  entries : Table → Nat
  frames : Nat

def State.bounds (s : State) : Bounds where
  entries
    | .symbol => s.symbols.size
    | .cell => s.store.cells.size
    | .text => s.store.texts.size
    | .bignum => s.store.bignums.size
    | .vector => s.store.vectors.size
    | .promise => s.store.promises.size
    | .callable => s.store.callables.size
    | .dummy => s.store.dummies.size
    | .failure => s.store.failures.size
  frames := s.frames.size

namespace Bounds

instance : Preorder Bounds where
  le e e' := (∀ table, e.entries table ≤ e'.entries table) ∧ e.frames ≤ e'.frames
  le_refl _ := ⟨fun _ => Nat.le_refl _, Nat.le_refl _⟩
  le_trans _ _ _ h h' := ⟨fun table => (h.1 table).trans (h'.1 table), h.2.trans h'.2⟩

/-- The reference of a value is in range. -/
def Holds (e : Bounds) (v : Value) : Prop := ∀ p, v.ref? = some p → p.2.index < e.entries p.1

/-- The innermost frame of an environment exists. -/
def HoldsEnv (e : Bounds) (env : Env) : Prop := ∀ i, env = some i → i < e.frames

def HoldsPromise (e : Bounds) : Promise → Prop
  | .pending form env => e.Holds form ∧ e.HoldsEnv env
  | .delivered v => e.Holds v

def HoldsCallable (e : Bounds) : Callable → Prop
  | .native _ => True
  | .template _ body => e.Holds body
  | .closure _ body env => e.Holds body ∧ e.HoldsEnv env
  | .expander _ body => e.Holds body

/-- The tag and the value of a throw are in range. -/
def HoldsCause (e : Bounds) : Cause → Prop
  | .thrown tag v _ => e.Holds tag ∧ e.Holds v
  | _ => True

variable {e e' : Bounds}

theorem Holds.mono {v : Value} (h : e.Holds v) (he : e ≤ e') : e'.Holds v :=
  fun p hp => Nat.lt_of_lt_of_le (h p hp) (he.1 p.1)

theorem HoldsEnv.mono {env : Env} (h : e.HoldsEnv env) (he : e ≤ e') : e'.HoldsEnv env :=
  fun i hi => Nat.lt_of_lt_of_le (h i hi) he.2

theorem HoldsPromise.mono {p : Promise} (h : e.HoldsPromise p) (he : e ≤ e') :
    e'.HoldsPromise p := by
  cases p with
  | pending form env => exact ⟨h.1.mono he, h.2.mono he⟩
  | delivered v => exact Holds.mono h he

theorem HoldsCallable.mono {f : Callable} (h : e.HoldsCallable f) (he : e ≤ e') :
    e'.HoldsCallable f := by
  cases f with
  | native n => trivial
  | template shape body => exact Holds.mono h he
  | closure shape body env => exact ⟨h.1.mono he, h.2.mono he⟩
  | expander shape body => exact Holds.mono h he

theorem HoldsCause.mono {c : Cause} (h : e.HoldsCause c) (he : e ≤ e') : e'.HoldsCause c := by
  cases c with
  | thrown tag v text => exact ⟨h.1.mono he, h.2.mono he⟩
  | _ => trivial

theorem holds_of_ref {v : Value} {table : Table} {r : Ref table} (h : v.ref? = some ⟨table, r⟩) :
    e.Holds v ↔ r.index < e.entries table := by
  constructor
  · intro hv
    exact hv _ h
  · intro hr p hp
    cases h.symm.trans hp
    exact hr

theorem holds_of_none {v : Value} (h : v.ref? = none) : e.Holds v := by
  intro p hp
  cases h.symm.trans hp

end Bounds

/-! ## Sound states -/

/-- Every reference in the state's tables, frames and globals is within bounds. -/
structure State.Points (s : State) (e : Bounds) : Prop where
  cells : ∀ (i : Nat) c, s.store.cells[i]? = some c → e.Holds c.car ∧ e.Holds c.cdr
  vectors : ∀ (i : Nat) items, s.store.vectors[i]? = some items → ∀ v ∈ items.toList, e.Holds v
  promises : ∀ (i : Nat) p, s.store.promises[i]? = some p → e.HoldsPromise p
  callables : ∀ (i : Nat) f, s.store.callables[i]? = some f → e.HoldsCallable f
  dummies : ∀ (i : Nat) x, s.store.dummies[i]? = some x → e.Holds (.sym x)
  failures : ∀ (i : Nat) f, s.store.failures[i]? = some f → e.HoldsCause f.cause
  slots : ∀ (i : Nat) frame, s.frames.table[i]? = some frame → ∀ v ∈ frame.slots.toList, e.Holds v
  globals : ∀ (i : Nat) v, s.globals[i]? = some (some v) → e.Holds (.sym ⟨i⟩) ∧ e.Holds v

theorem State.Points.mono {s : State} {e e' : Bounds} (h : s.Points e) (he : e ≤ e') :
    s.Points e' where
  cells i c hc := ⟨(h.cells i c hc).1.mono he, (h.cells i c hc).2.mono he⟩
  vectors i items hi v hv := (h.vectors i items hi v hv).mono he
  promises i p hp := (h.promises i p hp).mono he
  callables i f hf := (h.callables i f hf).mono he
  dummies i x hx := (h.dummies i x hx).mono he
  failures i f hf := (h.failures i f hf).mono he
  slots i frame hf v hv := (h.slots i frame hf v hv).mono he
  globals i v hv := ⟨(h.globals i v hv).1.mono he, (h.globals i v hv).2.mono he⟩

/-- Every reference is in range, every frame was made after the one around it, the cells fit into
the store, and the names that the language knows are there. -/
structure State.Sound (s : State) : Prop where
  points : s.Points s.bounds
  nested : ∀ (i : Nat) frame, s.frames.table[i]? = some frame → ∀ j, frame.next = some j → j < i
  room : s.store.cells.size ≤ s.store.capacity
  names : Symbol.wellKnown.length ≤ s.symbols.size

/-! ## Admissible operations -/

/-- What the machine can do in one go with references that are in range. -/
inductive Admissible (s : State) : State → Prop
  | cons {a d : Value} (ha : s.bounds.Holds a) (hd : s.bounds.Holds d) :
      Admissible s (s.mapStore fun st => (st.cons a d).2)
  | setCar {r : Ref .cell} {v : Value} (hr : s.bounds.Holds (.pair r)) (hv : s.bounds.Holds v) :
      Admissible s (s.mapStore (·.setCar r v))
  | setCdr {r : Ref .cell} {v : Value} (hr : s.bounds.Holds (.pair r)) (hv : s.bounds.Holds v) :
      Admissible s (s.mapStore (·.setCdr r v))
  | newText (text : String) : Admissible s (s.mapStore fun st => (st.newText text).2)
  | newNumber (n : Num) : Admissible s (s.mapStore fun st => (st.newNumber n).2)
  | newVector {items : Array Value} (h : ∀ v ∈ items.toList, s.bounds.Holds v) :
      Admissible s (s.mapStore fun st => (st.newVector items).2)
  | setItem {r : Ref .vector} {v : Value} (i : Nat) (hr : s.bounds.Holds (.vector r))
      (hv : s.bounds.Holds v) : Admissible s (s.mapStore (·.setItem r i v))
  | newPromise {form : Value} {env : Env} (hf : s.bounds.Holds form)
      (henv : s.bounds.HoldsEnv env) :
      Admissible s (s.mapStore fun st => (st.newPromise (.pending form env)).2)
  | deliver {r : Ref .promise} {v : Value} (hr : s.bounds.Holds (.promise r))
      (hv : s.bounds.Holds v) : Admissible s (s.mapStore (·.setPromise r (.delivered v)))
  | newCallable {f : Callable} (h : s.bounds.HoldsCallable f) :
      Admissible s (s.mapStore fun st => (st.newCallable f).2)
  | newDummy {x : Symbol} (h : s.bounds.Holds (.sym x)) :
      Admissible s (s.mapStore fun st => (st.newDummy x).2)
  | newFailure {f : Failure} (h : s.bounds.HoldsCause f.cause) :
      Admissible s (s.mapStore fun st => (st.newFailure f).2)
  | intern (name : String) : Admissible s { s with symbols := (s.symbols.intern name).2 }
  | setGlobal {x : Symbol} {v : Value} (hx : s.bounds.Holds (.sym x)) (hv : s.bounds.Holds v) :
      Admissible s (s.setGlobal x v)
  | extend {slots : List Value} {next : Env} (h : ∀ v ∈ slots, s.bounds.Holds v)
      (hnext : s.bounds.HoldsEnv next) :
      Admissible s { s with frames := s.frames.push slots.toArray next }
  | assign {env : Env} {v : Value} (i j : Nat) (henv : s.bounds.HoldsEnv env)
      (hv : s.bounds.Holds v) : Admissible s { s with frames := s.frames.assign env i j v }
  | outside (sink : Sink) (console : LineSource) (reader : Reader) (requests : Array Request)
      (opened : List String) :
      Admissible s { s with sink, console, reader, requests, opened }

/-- The machine comes from one state to another by admissible operations. -/
abbrev Advances : State → State → Prop := Relation.ReflTransGen Admissible

namespace SymbolTable

theorem size_intern (t : SymbolTable) (name : String) : t.size ≤ (t.intern name).2.size := by
  cases hname : t.lookup? name with
  | some x => rw [intern_of_lookup?_eq_some hname]
  | none => simp [NameTables.size, (intern_of_lookup?_eq_none hname).2]

theorem intern_lt (t : SymbolTable) (name : String) :
    (t.intern name).1.index < (t.intern name).2.size := by
  cases hname : t.lookup? name with
  | some x =>
      rw [intern_of_lookup?_eq_some hname]
      exact (Array.getElem?_eq_some_iff.1 (lookup?_eq_some_iff.1 hname)).1
  | none =>
      obtain ⟨hsymbol, hnames⟩ := intern_of_lookup?_eq_none hname
      simp [NameTables.size, hsymbol, hnames]

end SymbolTable

theorem Frames.size_assign (fs : Frames) (env : Env) (i j : Nat) (v : Value) :
    (fs.assign env i j v).size = fs.size := by
  unfold assign
  split <;> simp [size]

/-- The frames after an assignment are those before it, but for the value assigned. -/
theorem Frames.of_assign {fs : Frames} {env : Env} {i j k : Nat} {v : Value} {frame : Frame}
    (h : (fs.assign env i j v).table[k]? = some frame) : ∃ old, fs.table[k]? = some old ∧
      (∀ u ∈ frame.slots.toList, u ∈ old.slots.toList ∨ u = v) ∧ frame.next = old.next := by
  unfold assign at h
  split at h
  · rw [Array.getElem?_modify] at h
    split at h
    · obtain ⟨old, hold, rfl⟩ := Option.map_eq_some_iff.1 h
      refine ⟨old, hold, fun u hu => ?_, rfl⟩
      rw [Array.mem_toList_iff] at hu ⊢
      exact Array.mem_or_eq_of_mem_setIfInBounds hu
    · exact ⟨frame, h, fun u hu => .inl hu, rfl⟩
  · exact ⟨frame, h, fun u hu => .inl hu, rfl⟩

/-- The globals after a binding are those before it, but for the value bound. -/
theorem State.of_setGlobal {s : State} {x : Symbol} {v u : Value} {i : Nat}
    (h : (s.setGlobal x v).globals[i]? = some (some u)) :
    (x = ⟨i⟩ ∧ v = u) ∨ s.globals[i]? = some (some u) := by
  unfold setGlobal at h
  dsimp only at h
  generalize hgrown : (if x.index < s.globals.size then s.globals
    else s.globals ++ Array.replicate (x.index + 1 - s.globals.size) none) = grown at h
  rw [Array.getElem?_setIfInBounds] at h
  by_cases hi : x.index = i
  · rw [if_pos hi] at h
    split at h
    · cases h
      exact .inl ⟨by rw [← hi], rfl⟩
    · cases h
  · -- Growing the table binds nothing.
    rw [if_neg hi, ← hgrown] at h
    right
    split at h
    · exact h
    · rw [Array.getElem?_append] at h
      split at h
      · exact h
      · simp [Array.getElem?_replicate] at h

namespace Admissible

variable {s t : State}

/-- No table loses entries. -/
theorem bounds_le (h : Admissible s t) : s.bounds ≤ t.bounds := by
  cases h with
  | cons ha hd =>
      refine ⟨fun table => ?_, Nat.le_refl _⟩
      by_cases hroom : s.store.cells.size < s.store.capacity
      · cases table <;> simp [State.bounds, State.mapStore, Store.cons, hroom]
      · simp [State.bounds, State.mapStore, Store.cons, hroom]
  | newNumber n =>
      refine ⟨fun table => ?_, Nat.le_refl _⟩
      simp only [State.bounds, State.mapStore, Store.newNumber]
      cases n.normalize <;> cases table <;> simp [Store.newBignum]
  | intern name =>
      refine ⟨fun table => ?_, Nat.le_refl _⟩
      cases table with
      | symbol => exact s.symbols.size_intern name
      | _ => exact Nat.le_refl _
  | extend h hnext =>
      refine ⟨fun table => Nat.le_refl _, ?_⟩
      simp [State.bounds, Frames.size, Frames.push]
  | assign i j henv hv =>
      refine ⟨fun table => Nat.le_refl _, ?_⟩
      simp [State.bounds, Frames.size_assign]
  | _ =>
      refine ⟨fun table => ?_, Nat.le_refl _⟩
      cases table <;> simp [State.bounds, State.mapStore, State.setGlobal, Store.setCar,
        Store.setCdr, Store.newText, Store.newVector, Store.setItem, Store.newPromise,
        Store.setPromise, Store.newCallable, Store.newDummy, Store.newFailure]

/-- An admissible operation keeps a state sound: the entries that it leaves alone are as they were,
and what it adds or overwrites was in range before. -/
theorem sound (h : Admissible s t) (hs : s.Sound) : t.Sound := by
  have he := h.bounds_le
  have hold := hs.points.mono he
  cases h with
  | @cons a d ha hd =>
      by_cases hroom : s.store.cells.size < s.store.capacity
      · have hstore : (s.store.cons a d).2 =
            { s.store with cells := s.store.cells.push ⟨a, d⟩ } := by
          simp [Store.cons, hroom]
        have hnew := forall_push (y := ⟨a, d⟩) hold.cells ⟨ha.mono he, hd.mono he⟩
        simp only [State.mapStore, hstore] at hold hnew ⊢
        exact ⟨{ hold with cells := hnew }, hs.nested, by simp; omega, hs.names⟩
      · have hstore : (s.store.cons a d).2 = s.store := by simp [Store.cons, hroom]
        simpa only [State.mapStore, hstore] using hs
  | setCar hr hv =>
      refine ⟨{ hold with cells := ?_ }, hs.nested, ?_, hs.names⟩
      · exact forall_modify hold.cells fun c hc => ⟨hv.mono he, hc.2⟩
      · simpa [State.mapStore, Store.setCar] using hs.room
  | setCdr hr hv =>
      refine ⟨{ hold with cells := ?_ }, hs.nested, ?_, hs.names⟩
      · exact forall_modify hold.cells fun c hc => ⟨hc.1, hv.mono he⟩
      · simpa [State.mapStore, Store.setCdr] using hs.room
  | newText text => exact ⟨{ hold with }, hs.nested, hs.room, hs.names⟩
  | newNumber n =>
      have hstore : (s.mapStore fun st => (st.newNumber n).2) =
          { s with store := { s.store with bignums := (s.store.newNumber n).2.bignums } } := by
        simp only [State.mapStore, Store.newNumber]
        cases n.normalize <;> rfl
      rw [hstore] at hold ⊢
      exact ⟨{ hold with }, hs.nested, hs.room, hs.names⟩
  | newVector h =>
      have hnew := forall_push hold.vectors fun v hv => (h v hv).mono he
      exact ⟨{ hold with vectors := hnew }, hs.nested, hs.room, hs.names⟩
  | setItem i hr hv =>
      refine ⟨{ hold with vectors := ?_ }, hs.nested, hs.room, hs.names⟩
      refine forall_modify hold.vectors fun items hitems => ?_
      refine forall_of_mem (forall_set ?_ (hv.mono he))
      exact fun k u hu => hitems u (Array.mem_toList_iff.2 (Array.mem_of_getElem? hu))
  | newPromise hf henv =>
      refine ⟨{ hold with promises := ?_ }, hs.nested, hs.room, hs.names⟩
      exact forall_push hold.promises ⟨hf.mono he, henv.mono he⟩
  | deliver hr hv =>
      refine ⟨{ hold with promises := ?_ }, hs.nested, hs.room, hs.names⟩
      exact forall_set (p := Bounds.HoldsPromise _) hold.promises (hv.mono he)
  | newCallable h =>
      have hnew := forall_push hold.callables (h.mono he)
      exact ⟨{ hold with callables := hnew }, hs.nested, hs.room, hs.names⟩
  | newDummy h =>
      have hnew := forall_push hold.dummies (h.mono he)
      exact ⟨{ hold with dummies := hnew }, hs.nested, hs.room, hs.names⟩
  | newFailure h =>
      have hnew := forall_push hold.failures (h.mono he)
      exact ⟨{ hold with failures := hnew }, hs.nested, hs.room, hs.names⟩
  | intern name =>
      exact ⟨{ hold with }, hs.nested, hs.room, hs.names.trans (s.symbols.size_intern name)⟩
  | setGlobal hx hv =>
      refine ⟨{ hold with globals := fun i u hu => ?_ }, hs.nested, hs.room, hs.names⟩
      rcases State.of_setGlobal hu with ⟨rfl, rfl⟩ | hu
      · exact ⟨hx.mono he, hv.mono he⟩
      · exact hold.globals i u hu
  | @extend slots next h hnext =>
      refine ⟨{ hold with slots := ?_ }, ?_, hs.room, hs.names⟩
      · refine forall_push hold.slots fun v hv => ?_
        exact (h v (by simpa using hv)).mono he
      · intro i frame hframe j hj
        simp only [Frames.push, Array.getElem?_push] at hframe
        split at hframe
        · cases hframe
          subst i
          exact hnext j hj
        · exact hs.nested i frame hframe j hj
  | @assign env v i j henv hv =>
      refine ⟨{ hold with slots := fun k frame hframe u hu => ?_ }, ?_, hs.room, hs.names⟩
      · obtain ⟨old, hold', hslots, -⟩ := Frames.of_assign hframe
        rcases hslots u hu with hu | rfl
        · exact hold.slots k old hold' u hu
        · exact hv.mono he
      · intro k frame hframe
        obtain ⟨old, hold', -, hnext⟩ := Frames.of_assign hframe
        rw [hnext]
        exact hs.nested k old hold'
  | outside => exact ⟨{ hold with }, hs.nested, hs.room, hs.names⟩

theorem operation_or_delivery (h : Admissible s t) :
    Operation s t ∨ ∃ r v, t = s.mapStore (·.setPromise r (.delivered v)) := by
  cases h with
  | deliver hr hv => exact .inr ⟨_, _, rfl⟩
  | _ => exact .inl (by constructor)

theorem capacity (h : Admissible s t) : t.store.capacity = s.store.capacity := by
  rcases h.operation_or_delivery with hop | ⟨r, v, rfl⟩
  · exact hop.capacity
  · rfl

end Admissible

namespace Advances

variable {s t : State}

theorem sound (h : Advances s t) (hs : s.Sound) : t.Sound := by
  induction h with
  | refl => exact hs
  | tail _ hstep ih => exact hstep.sound ih

theorem bounds_le (h : Advances s t) : s.bounds ≤ t.bounds := by
  induction h with
  | refl => exact le_refl _
  | tail _ hstep ih => exact ih.trans hstep.bounds_le

theorem capacity (h : Advances s t) : t.store.capacity = s.store.capacity := by
  induction h with
  | refl => rfl
  | tail _ hstep ih => exact hstep.capacity.trans ih

end Advances

end SmallLisp
