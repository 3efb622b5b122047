import SmallLisp.Proofs.Soundness.State

/-!
# Regimes

A regime is an invariant of states together with what an earlier state has to do with a later one,
both kept by whatever the machine does in one go with references in range. Most operations only add
entries, and are one case; those that overwrite are a case each. What the operations keep, the
evaluator keeps: the regime is the world of a simulation of a computation by itself, in which
references in range are what is good.
-/

namespace SmallLisp

/-! ## Growth -/

/-- Nothing that was there has changed. Every integer added is too wide for a word, every promise
added is pending, every stand-in added is for a name that asks for one, and every symbol added was
interned. -/
structure State.GrowsInto (s t : State) : Prop where
  cells : s.store.cells.toList <+: t.store.cells.toList
  texts : s.store.texts.toList <+: t.store.texts.toList
  bignums : s.store.bignums.toList <+: t.store.bignums.toList
  vectors : s.store.vectors.toList <+: t.store.vectors.toList
  promises : s.store.promises.toList <+: t.store.promises.toList
  callables : s.store.callables.toList <+: t.store.callables.toList
  dummies : s.store.dummies.toList <+: t.store.dummies.toList
  failures : s.store.failures.toList <+: t.store.failures.toList
  symbols : t.symbols = s.symbols ∨ ∃ name, t.symbols = (s.symbols.intern name).2
  frames : s.frames.table.toList <+: t.frames.table.toList
  globals : t.globals = s.globals
  wide : ∀ (i : Nat) k, t.store.bignums[i]? = some k → s.store.bignums[i]? = some k ∨
    Num.fits k = false
  pending : ∀ (i : Nat) p, t.store.promises[i]? = some p → s.store.promises[i]? = some p ∨
    ∃ form env, p = .pending form env
  named : ∀ (i : Nat) x, t.store.dummies[i]? = some x → s.store.dummies[i]? = some x ∨
    s.symbols.isDummy x = true

/-- What is read below the size of a table is an entry of it. -/
theorem getElem?_of_lt {α : Type} {xs : Array α} {i : Nat} (h : i < xs.size) (d : α) :
    xs[i]? = some (xs.getD i d) := by
  rw [Array.getD_eq_getD_getElem?, Array.getElem?_eq_getElem h, Option.getD_some]

theorem getD_of_getElem? {α : Type} {xs : Array α} {i : Nat} {x : α} (h : xs[i]? = some x)
    (d : α) : xs.getD i d = x := by
  rw [Array.getD_eq_getD_getElem?, h, Option.getD_some]

/-- An entry there after one was added at the end was there before, or is the one added. -/
theorem eq_of_getElem?_push {α : Type} {xs : Array α} {x y : α} {i : Nat}
    (h : (xs.push x)[i]? = some y) : xs[i]? = some y ∨ y = x := by
  rw [Array.getElem?_push] at h
  split at h
  · exact .inr (Option.some.inj h).symm
  · exact .inl h

/-- An entry added at the end leaves those before it in front. -/
theorem isPrefix_push {α : Type} (xs : Array α) (x : α) : xs.toList <+: (xs.push x).toList := by
  rw [Array.toList_push]
  exact List.prefix_append _ _

/-- An integer that is still wide when narrowed does not fit in a word. -/
theorem Num.fits_of_normalize {n : Num} {k : Int} (h : n.normalize = .big k) :
    fits k = false := by
  cases n with
  | big m =>
      simp only [normalize, ofInt] at h
      split at h
      · cases h
      · rename_i hwide
        cases h
        exact Bool.eq_false_of_not_eq_true hwide
  | _ => cases h

namespace State.GrowsInto

theorem refl (s : State) : s.GrowsInto s where
  cells := List.prefix_rfl
  texts := List.prefix_rfl
  bignums := List.prefix_rfl
  vectors := List.prefix_rfl
  promises := List.prefix_rfl
  callables := List.prefix_rfl
  dummies := List.prefix_rfl
  failures := List.prefix_rfl
  symbols := .inl rfl
  frames := List.prefix_rfl
  globals := rfl
  wide := fun _ _ h => .inl h
  pending := fun _ _ h => .inl h
  named := fun _ _ h => .inl h

variable (s : State)

theorem cons (a d : Value) : s.GrowsInto (s.mapStore fun st => (st.cons a d).2) := by
  by_cases hroom : s.store.cells.size < s.store.capacity
  · have hstore : (s.store.cons a d).2 = { s.store with cells := s.store.cells.push ⟨a, d⟩ } := by
      simp [Store.cons, hroom]
    simp only [State.mapStore, hstore]
    exact { refl s with cells := isPrefix_push _ _ }
  · have hstore : (s.store.cons a d).2 = s.store := by simp [Store.cons, hroom]
    simp only [State.mapStore, hstore]
    exact refl s

theorem newNumber (n : Num) : s.GrowsInto (s.mapStore fun st => (st.newNumber n).2) := by
  simp only [State.mapStore, Store.newNumber]
  cases hn : n.normalize with
  | small k => exact refl s
  | double x => exact refl s
  | big k =>
      refine { refl s with bignums := isPrefix_push _ _, wide := fun i j hj => ?_ }
      refine (eq_of_getElem?_push hj).imp_right ?_
      rintro rfl
      exact Num.fits_of_normalize hn

theorem newText (text : String) : s.GrowsInto (s.mapStore fun st => (st.newText text).2) :=
  { refl s with texts := isPrefix_push _ _ }

theorem newVector (items : Array Value) :
    s.GrowsInto (s.mapStore fun st => (st.newVector items).2) :=
  { refl s with vectors := isPrefix_push _ _ }

theorem newPromise (form : Value) (env : Env) :
    s.GrowsInto (s.mapStore fun st => (st.newPromise (.pending form env)).2) := by
  refine { refl s with promises := isPrefix_push _ _, pending := fun i p hp => ?_ }
  exact (eq_of_getElem?_push hp).imp_right fun heq => ⟨form, env, heq⟩

theorem newCallable (f : Callable) : s.GrowsInto (s.mapStore fun st => (st.newCallable f).2) :=
  { refl s with callables := isPrefix_push _ _ }

theorem newFailure (f : Failure) : s.GrowsInto (s.mapStore fun st => (st.newFailure f).2) :=
  { refl s with failures := isPrefix_push _ _ }

theorem newDummy {x : Symbol} (h : s.symbols.isDummy x = true) :
    s.GrowsInto (s.mapStore fun st => (st.newDummy x).2) := by
  refine { refl s with dummies := isPrefix_push _ _, named := fun i y hy => ?_ }
  refine (eq_of_getElem?_push hy).imp_right ?_
  rintro rfl
  exact h

theorem intern (name : String) : s.GrowsInto { s with symbols := (s.symbols.intern name).2 } :=
  { refl s with symbols := .inr ⟨name, rfl⟩ }

theorem extend (slots : Array Value) (next : Env) :
    s.GrowsInto { s with frames := s.frames.push slots next } :=
  { refl s with frames := isPrefix_push _ _ }

theorem outside (sink : Sink) (console : LineSource) (reader : Reader) (requests : Array Request)
    (opened : List String) : s.GrowsInto { s with sink, console, reader, requests, opened } :=
  { refl s with }

end State.GrowsInto

/-! ## Forced values -/

/-- The second value is what forcing the first gives: what a promise was delivered with, and any
other value itself. -/
def Store.Forces (s : Store) : Value → Value → Prop
  | .promise p, v' => s.promise p = .delivered v'
  | v, v' => v' = v

theorem Engine.Delivers.forces_of_force {E : Engine} (hE : E.Delivers) {v v' : Value} {s t : State}
    (hv : t.bounds.Holds v) (h : E.force v s = .ok v' t) : t.store.Forces v v' := by
  cases v with
  | promise p => exact hE ((Bounds.holds_of_ref rfl).1 hv) h
  | _ =>
      cases h
      rfl

/-! ## Regimes -/

/-- An invariant, and what is kept between two states in which it holds. A regime says which places
it leaves free to be overwritten, which symbols it lets be bound globally, and what it knows of the
values of promises. A part of a cell may always get what forcing what was found there gives. -/
structure Regime where
  Inv : State → Prop
  Rel : State → State → Prop
  Frees : Place → Prop
  Binds : SymbolTable → Symbol → Prop
  Delivers : Value → Prop
  sound : ∀ {s}, Inv s → s.Sound
  refl : ∀ {s}, Inv s → Rel s s
  trans : ∀ {s t u}, Inv t → Rel s t → Rel t u → Rel s u
  bounds_le : ∀ {s t}, Rel s t → s.bounds ≤ t.bounds
  binds : ∀ {table x}, table.isKeyword x = false → Binds table x
  binds_known : ∀ {s : State} {x : Symbol}, Inv s → Symbol.specialCount ≤ x.index →
    x.index < Symbol.wellKnown.length → Binds s.symbols x
  binds_native : ∀ {s : State} {n : Native}, Inv s → n ∈ Native.all →
    Binds (s.symbols.intern n.name).2 (s.symbols.intern n.name).1
  delivers : ∀ {s r v}, Inv s → s.store.promise r = .delivered v → Delivers v
  delivers_value : ∀ {v}, v.isPromise = false → Delivers v
  grow : ∀ {s t}, Inv s → Admissible s t → s.GrowsInto t → Inv t ∧ Rel s t
  setCar : ∀ {s r v}, Inv s → s.bounds.Holds (.pair r) → s.bounds.Holds v →
    (Frees .head ∨ ∃ s₀, Inv s₀ ∧ Rel s₀ s ∧ s₀.bounds.Holds (.pair r) ∧
      s.store.Forces (s₀.store.car r) v) →
    Inv (s.mapStore (·.setCar r v)) ∧ Rel s (s.mapStore (·.setCar r v))
  setCdr : ∀ {s r v}, Inv s → s.bounds.Holds (.pair r) → s.bounds.Holds v →
    (Frees .tail ∨ ∃ s₀, Inv s₀ ∧ Rel s₀ s ∧ s₀.bounds.Holds (.pair r) ∧
      s.store.Forces (s₀.store.cdr r) v) →
    Inv (s.mapStore (·.setCdr r v)) ∧ Rel s (s.mapStore (·.setCdr r v))
  setItem : ∀ {s r v} (i : Nat), Inv s → s.bounds.Holds (.vector r) → s.bounds.Holds v →
    Frees .item → Inv (s.mapStore (·.setItem r i v)) ∧ Rel s (s.mapStore (·.setItem r i v))
  deliver : ∀ {s r v form env}, Inv s → s.bounds.Holds (.promise r) → s.bounds.Holds v →
    Delivers v → s.store.promise r = .pending form env →
    Inv (s.mapStore (·.setPromise r (.delivered v))) ∧
      Rel s (s.mapStore (·.setPromise r (.delivered v)))
  setGlobal : ∀ {s x v}, Inv s → s.bounds.Holds (.sym x) → s.bounds.Holds v →
    Binds s.symbols x → Inv (s.setGlobal x v) ∧ Rel s (s.setGlobal x v)
  assign : ∀ {s env v} (i j : Nat), Inv s → s.bounds.HoldsEnv env → s.bounds.Holds v →
    (∀ frame, s.frames.frameAt? env i = some frame → Frees (.slot frame j)) →
    Inv { s with frames := s.frames.assign env i j v } ∧
      Rel s { s with frames := s.frames.assign env i j v }

namespace Regime

variable (R : Regime)

/-- The guard that lets references in range pass, in a world of states that keep to the regime. -/
abbrev guard : Guard where
  World := { s : State // R.Inv s }
  order :=
    { le := fun w w' => R.Rel w.1 w'.1
      le_refl := fun w => R.refl w.2
      le_trans := fun _ w _ => R.trans w.2 }
  Good w v := w.1.bounds.Holds v
  Final w v := w.1.bounds.Holds v ∧ R.Delivers v
  Inside w env := w.1.bounds.HoldsEnv env
  good_mono hw h := h.mono (R.bounds_le hw)
  final_mono hw h := ⟨h.1.mono (R.bounds_le hw), h.2⟩
  inside_mono hw h := h.mono (R.bounds_le hw)
  good_of_final h := h.1
  final_of_good h hv := ⟨h, R.delivers_value hv⟩
  nil _ := Bounds.holds_of_none rfl
  int _ _ := Bounds.holds_of_none rfl
  double _ _ := Bounds.holds_of_none rfl
  eof _ := Bounds.holds_of_none rfl
  truth w := (Bounds.holds_of_ref rfl).2 (Nat.lt_of_lt_of_le (by decide) (R.sound w.2).names)
  address := Iff.rfl
  top _ := fun i hi => by cases hi

variable {R} {w : R.guard.World}

theorem goodCallable_iff {f : Callable} :
    R.guard.GoodCallable w f ↔ w.1.bounds.HoldsCallable f := by
  cases f <;> rfl

theorem goodCause_iff {c : Cause} : R.guard.GoodCause w c ↔ w.1.bounds.HoldsCause c := by
  cases c <;> rfl

/-- What a reference in range denotes holds only references in range. -/
theorem covers {s : State} (h : R.Inv s) : R.guard.Covers ⟨s, h⟩ s where
  car hr :=
    ((R.sound h).points.cells _ _ (getElem?_of_lt ((Bounds.holds_of_ref rfl).1 hr) default)).1
  cdr hr :=
    ((R.sound h).points.cells _ _ (getElem?_of_lt ((Bounds.holds_of_ref rfl).1 hr) default)).2
  promise {r} hr := by
    have hlt : r.index < s.store.promises.size := (Bounds.holds_of_ref rfl).1 hr
    have hholds : s.bounds.HoldsPromise (s.store.promise r) :=
      (R.sound h).points.promises _ _ (getElem?_of_lt hlt default)
    cases hd : s.store.promise r with
    | pending form env =>
        rw [hd] at hholds
        exact hholds
    | delivered v =>
        rw [hd] at hholds
        exact ⟨hholds, R.delivers h hd⟩
  callable hr := goodCallable_iff.2
    ((R.sound h).points.callables _ _ (getElem?_of_lt ((Bounds.holds_of_ref rfl).1 hr) default))
  vector hr :=
    (R.sound h).points.vectors _ _ (getElem?_of_lt ((Bounds.holds_of_ref rfl).1 hr) #[])
  dummy hr :=
    (R.sound h).points.dummies _ _ (getElem?_of_lt ((Bounds.holds_of_ref rfl).1 hr) ⟨0⟩)
  global {x v} hx := by
    simp only [State.global?, Option.join_eq_some_iff] at hx
    exact (R.sound h).points.globals _ _ hx
  slot {env i j v} _ hv := by
    unfold Frames.lookup? at hv
    split at hv
    · rw [Option.bind_eq_some_iff] at hv
      obtain ⟨frame, hframe, hslot⟩ := hv
      exact (R.sound h).points.slots _ _ hframe v
        (Array.mem_toList_iff.2 (Array.mem_of_getElem? hslot))
    · cases hv
  frames {env} _ slots hslots := by
    obtain ⟨i, frame, hframe, rfl⟩ := Frames.mem_chain hslots
    exact (R.sound h).points.slots _ _ hframe

/-- What keeps to the regime leads to a world that is as good. -/
theorem reached {s t : State} {P : R.guard.World → Prop} (hs : R.Inv s)
    (h : R.Inv t ∧ R.Rel s t) (hP : P ⟨t, h.1⟩) :
    R.guard.Reaches (fun w s t => w.1 = s ∧ t = s) ⟨s, hs⟩ t t P :=
  ⟨⟨t, h.1⟩, h.2, ⟨rfl, rfl⟩, hP⟩

variable (R) in
/-- A computation beside itself, with the state it is in as the world. -/
def watching : Simulation R.guard where
  St w s t := w.1 = s ∧ t = s
  Fault w f g := g = f ∧ w.1.bounds.HoldsCause f.cause
  Lost w s := R.Inv s ∧ R.Rel w.1 s
  Drives := Engine.Delivers
  Frees := R.Frees
  drives n := Engine.delivers_ofFuel n
  lost := by
    rintro w s t ⟨rfl, -⟩
    exact ⟨w.2, R.refl w.2⟩
  lost_mono {w w' s} hw h := ⟨h.1, R.trans w'.2 hw h.2⟩
  sees h := .of_agrees (h.2 ▸ .refl _)
  covers := by
    rintro ⟨w, hw⟩ s t ⟨rfl, -⟩
    exact covers hw
  fault_mono hw h := ⟨h.1, h.2.mono (R.bounds_le hw)⟩
  fault_cause := by
    rintro w f g ⟨rfl, hc⟩
    exact ⟨rfl, goodCause_iff.2 hc⟩
  fault_new hc := ⟨rfl, goodCause_iff.1 hc⟩
  fault_traced := by
    rintro w s t form f g ⟨-, rfl⟩ - ⟨rfl, hc⟩
    refine ⟨rfl, ?_⟩
    rw [Engine.cause_traced]
    exact hc
  step_cons := by
    rintro ⟨w, hs⟩ s t a d v ⟨rfl, rfl⟩ ha hd hv
    have hcons : t.store.cons a d = (some v, (t.store.cons a d).2) := Prod.ext hv rfl
    obtain ⟨rfl, hstore⟩ := Store.cons_eq_some hcons
    refine reached hs (R.grow hs (.cons ha hd) (.cons t a d)) ((Bounds.holds_of_ref rfl).2 ?_)
    simp [State.bounds, State.mapStore, hstore]
  step_setCar := by
    rintro ⟨w, hs⟩ s t r v ⟨rfl, rfl⟩ hr hv hfree
    refine reached hs (R.setCar hs hr hv (hfree.imp_right ?_)) trivial
    rintro ⟨⟨s₀, h₀⟩, _, _, E, hE, ⟨rfl, -⟩, hle, hr₀, hforce⟩
    have hcar : t.bounds.Holds (s₀.store.car r) := ((covers h₀).car hr₀).mono (R.bounds_le hle)
    exact ⟨s₀, h₀, hle, hr₀, hE.forces_of_force hcar hforce⟩
  step_setCdr := by
    rintro ⟨w, hs⟩ s t r v ⟨rfl, rfl⟩ hr hv hfree
    refine reached hs (R.setCdr hs hr hv (hfree.imp_right ?_)) trivial
    rintro ⟨⟨s₀, h₀⟩, _, _, E, hE, ⟨rfl, -⟩, hle, hr₀, hforce⟩
    have hcdr : t.bounds.Holds (s₀.store.cdr r) := ((covers h₀).cdr hr₀).mono (R.bounds_le hle)
    exact ⟨s₀, h₀, hle, hr₀, hE.forces_of_force hcdr hforce⟩
  step_newText := by
    rintro ⟨w, hs⟩ s t text ⟨rfl, rfl⟩
    refine reached hs (R.grow hs (.newText text) (.newText t text)) ?_
    exact (Bounds.holds_of_ref rfl).2 (by simp [State.bounds, State.mapStore, Store.newText])
  step_newNumber := by
    rintro ⟨w, hs⟩ s t n ⟨rfl, rfl⟩
    refine reached hs (R.grow hs (.newNumber n) (.newNumber t n)) ?_
    show (t.mapStore fun st => (st.newNumber n).2).bounds.Holds (t.store.newNumber n).1
    simp only [State.mapStore, Store.newNumber]
    cases n.normalize with
    | small k => exact Bounds.holds_of_none rfl
    | double x => exact Bounds.holds_of_none rfl
    | big k => exact (Bounds.holds_of_ref rfl).2 (by simp [State.bounds, Store.newBignum])
  step_newVector := by
    rintro ⟨w, hs⟩ s t items ⟨rfl, rfl⟩ h
    refine reached hs (R.grow hs (.newVector h) (.newVector t items)) ?_
    exact (Bounds.holds_of_ref rfl).2 (by simp [State.bounds, State.mapStore, Store.newVector])
  step_setItem := by
    rintro ⟨w, hs⟩ s t r v i ⟨rfl, rfl⟩ hr hv hfree
    exact reached hs (R.setItem i hs hr hv hfree) trivial
  step_newPromise := by
    rintro ⟨w, hs⟩ s t form env ⟨rfl, rfl⟩ hf henv
    refine reached hs (R.grow hs (.newPromise hf henv) (.newPromise t _ _)) ?_
    exact (Bounds.holds_of_ref rfl).2 (by simp [State.bounds, State.mapStore, Store.newPromise])
  step_settle := by
    rintro w₀ ⟨w, hs⟩ s₀ t₀ s t r form env v E - - ⟨rfl, rfl⟩ hr hv hp - -
    exact reached hs (R.deliver hs hr hv.1 hv.2 hp) trivial
  step_newCallable := by
    rintro ⟨w, hs⟩ s t f ⟨rfl, rfl⟩ hf
    refine reached hs (R.grow hs (.newCallable (goodCallable_iff.1 hf)) (.newCallable t f)) ?_
    exact (Bounds.holds_of_ref rfl).2 (by simp [State.bounds, State.mapStore, Store.newCallable])
  step_newDummy := by
    rintro ⟨w, hs⟩ s t x ⟨rfl, rfl⟩ hx hd
    refine reached hs (R.grow hs (.newDummy hx) (.newDummy t hd)) ?_
    exact (Bounds.holds_of_ref rfl).2 (by simp [State.bounds, State.mapStore, Store.newDummy])
  step_newFailure := by
    rintro ⟨w, hs⟩ s t f g ⟨rfl, rfl⟩ ⟨rfl, hc⟩
    refine reached hs (R.grow hs (.newFailure hc) (.newFailure t _)) ?_
    exact (Bounds.holds_of_ref rfl).2 (by simp [State.bounds, State.mapStore, Store.newFailure])
  step_intern := by
    rintro ⟨w, hs⟩ s t name ⟨rfl, rfl⟩
    refine reached hs (R.grow hs (.intern name) (.intern t name)) ?_
    exact (Bounds.holds_of_ref rfl).2 (SymbolTable.intern_lt _ name)
  step_setGlobal := by
    rintro ⟨w, hs⟩ s t x v ⟨rfl, rfl⟩ hx hv hk
    exact reached hs (R.setGlobal hs hx hv (R.binds hk)) trivial
  step_extend := by
    rintro ⟨w, hs⟩ s t slots next ⟨rfl, rfl⟩ hslots hnext
    refine reached hs (R.grow hs (.extend hslots hnext) (.extend t _ _)) fun i hi => ?_
    cases hi
    simp [State.bounds, Frames.size, Frames.push]
  step_assign := by
    rintro ⟨w, hs⟩ s t env v i j ⟨rfl, rfl⟩ henv hv hfree
    exact reached hs (R.assign i j hs henv hv hfree) trivial
  step_outside := by
    rintro ⟨w, hs⟩ s t sink console reader requests opened ⟨rfl, rfl⟩
    refine reached hs (R.grow hs (.outside sink console reader requests opened) ?_) trivial
    exact .outside t sink console reader requests opened

/-- What matches in a regime has kept to it, however it ended. -/
theorem rel_of_match {s : State} (hs : R.Inv s) {α : Type} {P : R.guard.World → α → α → Prop}
    {o o' : Outcome α} (h : R.watching.Match ⟨s, hs⟩ P o o') : R.Inv o.state ∧ R.Rel s o.state := by
  rcases h.cases with ⟨t, rfl, hlost⟩ | ⟨a, b, t, t', rfl, rfl, w, hw, ⟨rfl, -⟩, -⟩ |
    ⟨f, g, t, t', rfl, rfl, w, hw, ⟨rfl, -⟩, -⟩ | ⟨c, t, t', rfl, rfl, w, hw, ⟨rfl, -⟩, -⟩
  · exact hlost
  · exact ⟨w.2, hw⟩
  · exact ⟨w.2, hw⟩
  · exact ⟨w.2, hw⟩

/-- Outcomes that match with one result are the same, unless the first computation lacks fuel. -/
theorem eq_or_exhausted {s : State} (hs : R.Inv s) {α : Type} {P : R.guard.World → α → Prop}
    {o o' : Outcome α} (h : R.watching.Match ⟨s, hs⟩ (fun w a b => b = a ∧ P w a) o o') :
    o = o' ∨ ∃ t, o = .halt .exhausted t := by
  rcases h.cases with ⟨t, rfl, -⟩ | ⟨a, b, t, t', rfl, rfl, w, -, ⟨-, rfl⟩, rfl, -⟩ |
    ⟨f, g, t, t', rfl, rfl, w, -, ⟨-, rfl⟩, rfl, -⟩ | ⟨c, t, t', rfl, rfl, w, -, ⟨-, rfl⟩, -⟩
  · exact .inr ⟨t, rfl⟩
  · exact .inl rfl
  · exact .inl rfl
  · exact .inl rfl

end Regime

/-!
## Computations on sound states

What the primitive operations keep, the evaluator keeps. Here they keep the soundness of the state,
and a later state is one that admissible operations lead to. Whatever is in range may be overwritten
and bound.
-/

/-- The regime of soundness. -/
abbrev Regime.soundness : Regime where
  Inv := State.Sound
  Rel := Advances
  Frees _ := True
  Binds _ _ := True
  Delivers _ := True
  sound hs := hs
  refl _ := .refl
  trans _ h h' := Relation.ReflTransGen.trans h h'
  bounds_le h := Advances.bounds_le h
  binds _ := trivial
  binds_known _ _ _ := trivial
  binds_native _ _ := trivial
  delivers _ _ := trivial
  delivers_value _ := trivial
  grow hs h _ := ⟨h.sound hs, .single h⟩
  setCar hs hr hv _ := ⟨(Admissible.setCar hr hv).sound hs, .single (.setCar hr hv)⟩
  setCdr hs hr hv _ := ⟨(Admissible.setCdr hr hv).sound hs, .single (.setCdr hr hv)⟩
  setItem i hs hr hv _ := ⟨(Admissible.setItem i hr hv).sound hs, .single (.setItem i hr hv)⟩
  deliver hs hr hv _ _ := ⟨(Admissible.deliver hr hv).sound hs, .single (.deliver hr hv)⟩
  setGlobal hs hx hv _ := ⟨(Admissible.setGlobal hx hv).sound hs, .single (.setGlobal hx hv)⟩
  assign i j hs henv hv _ :=
    ⟨(Admissible.assign i j henv hv).sound hs, .single (.assign i j henv hv)⟩

/-- The guard that lets references in range pass, in a world of sound states. -/
abbrev Guard.inRange : Guard := Regime.soundness.guard

namespace Simulation

/-- A computation beside itself, with the sound state it is in as the world. -/
abbrev secure : Simulation Guard.inRange := Regime.soundness.watching

instance : secure.Free := ⟨fun _ => trivial⟩

end Simulation

end SmallLisp
