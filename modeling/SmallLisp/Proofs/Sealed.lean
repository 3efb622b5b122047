import Mathlib
import SmallLisp.Proofs.Fuel
import SmallLisp.Proofs.Reading.Layout

/-!
# What a program cannot reach

Some cells are private to whoever made them: no table of the machine holds a reference to one, but
for the private cells themselves. As references are only made by allocation, a program that is not
given a private cell never comes by one. So it leaves the private cells as they are, and keeps them
private.
-/

namespace SmallLisp

/-- The guard against references to private cells and past the table, whose world is the number of
cells. -/
abbrev Guard.outside (hidden : Nat → Prop) : Guard where
  World := Nat
  Good n v := ∀ r, v = .pair r → r.index < n ∧ ¬ hidden r.index
  Final n v := ∀ r, v = .pair r → r.index < n ∧ ¬ hidden r.index
  Inside _ _ := True
  good_mono hn h r hr := ⟨Nat.lt_of_lt_of_le (h r hr).1 hn, (h r hr).2⟩
  final_mono hn h r hr := ⟨Nat.lt_of_lt_of_le (h r hr).1 hn, (h r hr).2⟩
  inside_mono _ h := h
  good_of_final h := h
  final_of_good h _ := h
  nil _ _ h := by cases h
  int _ _ _ h := by cases h
  double _ _ _ h := by cases h
  eof _ _ h := by cases h
  truth _ _ h := by cases h
  address := by
    intro n a
    constructor
    · intro _ r hr
      cases hr
    · intro _ r hr
      cases hr
  top _ := trivial

/-- What is good under one guard is good under another if their good values are. -/
theorem Guard.goodPromise_of_good {G G' : Guard} {w : G.World} {w' : G'.World} {p : Promise}
    (hgood : ∀ v, G.Good w v → G'.Good w' v) (hfinal : ∀ v, G.Final w v → G'.Final w' v)
    (henv : ∀ env, G.Inside w env → G'.Inside w' env) (h : G.GoodPromise w p) :
    G'.GoodPromise w' p := by
  cases p with
  | pending form env => exact ⟨hgood _ h.1, henv _ h.2⟩
  | delivered v => exact hfinal _ h

theorem Guard.goodCallable_of_good {G G' : Guard} {w : G.World} {w' : G'.World} {f : Callable}
    (hgood : ∀ v, G.Good w v → G'.Good w' v) (henv : ∀ env, G.Inside w env → G'.Inside w' env)
    (h : G.GoodCallable w f) : G'.GoodCallable w' f := by
  cases f with
  | native f => trivial
  | template shape body => exact hgood _ h
  | closure shape body env => exact ⟨hgood _ h.1, henv _ h.2⟩
  | expander shape body => exact hgood _ h

/-! ## What holds of all entries of a table -/

section

variable {α : Type} {p : α → Prop} {xs : Array α}

theorem forall_push {y : α} (h : ∀ (i : Nat) x, xs[i]? = some x → p x) (hy : p y) :
    ∀ (i : Nat) x, (xs.push y)[i]? = some x → p x := by
  intro i x hx
  rw [Array.getElem?_push] at hx
  split at hx
  · cases hx
    exact hy
  · exact h i x hx

theorem forall_modify {f : α → α} {j : Nat} (h : ∀ (i : Nat) x, xs[i]? = some x → p x)
    (hf : ∀ x, p x → p (f x)) : ∀ (i : Nat) x, (xs.modify j f)[i]? = some x → p x := by
  intro i x hx
  rw [Array.getElem?_modify] at hx
  split at hx
  · obtain ⟨y, hy, rfl⟩ := Option.map_eq_some_iff.1 hx
    exact hf y (h i y hy)
  · exact h i x hx

theorem forall_set {y : α} {j : Nat} (h : ∀ (i : Nat) x, xs[i]? = some x → p x) (hy : p y) :
    ∀ (i : Nat) x, (xs.setIfInBounds j y)[i]? = some x → p x := by
  intro i x hx
  rw [Array.getElem?_setIfInBounds] at hx
  split at hx
  · split at hx
    · cases hx
      exact hy
    · cases hx
  · exact h i x hx

theorem forall_of_mem (h : ∀ (i : Nat) x, xs[i]? = some x → p x) : ∀ x ∈ xs.toList, p x := by
  intro x hx
  obtain ⟨i, hi⟩ := List.getElem?_of_mem hx
  exact h i x (by simpa using hi)

end

/-! ## Sealed states -/

/-- Nothing in the state but hidden cells refers to a hidden cell or past the table of cells. -/
structure State.Sealed (hidden : Nat → Prop) (s : State) : Prop where
  bound : ∀ i, hidden i → i < s.store.cells.size
  cells : ∀ (i : Nat) c, s.store.cells[i]? = some c → ¬ hidden i →
    (Guard.outside hidden).Good s.store.cells.size c.car ∧
      (Guard.outside hidden).Good s.store.cells.size c.cdr
  promises : ∀ (i : Nat) p, s.store.promises[i]? = some p →
    (Guard.outside hidden).GoodPromise s.store.cells.size p
  callables : ∀ (i : Nat) f, s.store.callables[i]? = some f →
    (Guard.outside hidden).GoodCallable s.store.cells.size f
  vectors : ∀ (i : Nat) vs, s.store.vectors[i]? = some vs →
    (Guard.outside hidden).GoodAll s.store.cells.size vs.toList
  globals : ∀ (i : Nat) v, s.globals[i]? = some (some v) →
    (Guard.outside hidden).Good s.store.cells.size v
  frames : ∀ (i : Nat) frame, s.frames.table[i]? = some frame →
    (Guard.outside hidden).GoodAll s.store.cells.size frame.slots.toList
  symbols : s.symbols.Sound

/-! ## Checking states

Where nothing is hidden, a state is sealed if all its references to cells are in range. That can be
computed. -/

def Value.below (n : Nat) : Value → Bool
  | .pair r => decide (r.index < n)
  | _ => true

def Promise.below (n : Nat) : Promise → Bool
  | .pending form _ => form.below n
  | .delivered v => v.below n

def Callable.below (n : Nat) : Callable → Bool
  | .native _ => true
  | .template _ body => body.below n
  | .closure _ body _ => body.below n
  | .expander _ body => body.below n

/-- All references to cells are in range. -/
def State.closed (s : State) : Bool :=
  let n := s.store.cells.size
  s.store.cells.all (fun c => c.car.below n && c.cdr.below n) &&
    s.store.promises.all (·.below n) && s.store.callables.all (·.below n) &&
    s.store.vectors.all (·.all (·.below n)) && s.globals.all (·.all (·.below n)) &&
    s.frames.table.all (·.slots.all (·.below n))

theorem Guard.good_of_below {n : Nat} {v : Value} (h : v.below n = true) :
    (Guard.outside fun _ => False).Good n v := by
  rintro r rfl
  exact ⟨of_decide_eq_true h, id⟩

theorem State.sealed_of_closed {s : State} (h : s.closed = true) (hs : s.symbols.Sound) :
    s.Sealed fun _ => False := by
  simp only [closed, Bool.and_eq_true, Array.all_eq_true_iff_forall_mem] at h
  obtain ⟨⟨⟨⟨⟨hcells, hpromises⟩, hcallables⟩, hvectors⟩, hglobals⟩, hframes⟩ := h
  refine ⟨fun _ hi => hi.elim, fun i c hc _ => ?_, fun i p hp => ?_, fun i f hf => ?_,
    fun i vs hvs v hv => ?_, fun i v hv => ?_, fun i frame hframe v hv => ?_, hs⟩
  · have hbelow := hcells c (Array.mem_of_getElem? hc)
    exact ⟨Guard.good_of_below hbelow.1, Guard.good_of_below hbelow.2⟩
  · have hbelow := hpromises p (Array.mem_of_getElem? hp)
    cases p with
    | pending form env => exact ⟨Guard.good_of_below hbelow, trivial⟩
    | delivered v => exact Guard.good_of_below hbelow
  · have hbelow := hcallables f (Array.mem_of_getElem? hf)
    cases f with
    | native n => trivial
    | template shape body => exact Guard.good_of_below hbelow
    | closure shape body env => exact ⟨Guard.good_of_below hbelow, trivial⟩
    | expander shape body => exact Guard.good_of_below hbelow
  · have hmem := Array.mem_toList_iff.1 hv
    exact Guard.good_of_below (hvectors vs (Array.mem_of_getElem? hvs) v hmem)
  · exact Guard.good_of_below (hglobals _ (Array.mem_of_getElem? hv))
  · exact Guard.good_of_below
      (hframes frame (Array.mem_of_getElem? hframe) v (Array.mem_toList_iff.1 hv))

/-- The slots along a chain are those of frames in the table. -/
theorem Frames.mem_chain {fs : Frames} {fuel : Nat} {env : Env} {slots : Array Value}
    (h : slots ∈ fs.chain fuel env) : ∃ (i : Nat) (frame : Frame), fs.table[i]? = some frame ∧
      frame.slots = slots := by
  induction fuel generalizing env with
  | zero => cases env <;> simp [chain] at h
  | succ fuel ih =>
      cases env with
      | none => simp [chain] at h
      | some i =>
          rw [chain] at h
          split at h
          · rename_i frame hframe
            rcases List.mem_cons.1 h with rfl | h
            · exact ⟨i, frame, hframe, rfl⟩
            · exact ih h
          · simp at h

namespace State.Sealed

variable {hidden : Nat → Prop} {s : State}

theorem covers (h : s.Sealed hidden) : (Guard.outside hidden).Covers s.store.cells.size s where
  car {r} hr := by
    obtain ⟨hlt, hn⟩ := hr r rfl
    simp only [Store.car, Array.getD_eq_getD_getElem?, Array.getElem?_eq_getElem hlt]
    exact (h.cells _ _ (Array.getElem?_eq_getElem hlt) hn).1
  cdr {r} hr := by
    obtain ⟨hlt, hn⟩ := hr r rfl
    simp only [Store.cdr, Array.getD_eq_getD_getElem?, Array.getElem?_eq_getElem hlt]
    exact (h.cells _ _ (Array.getElem?_eq_getElem hlt) hn).2
  promise {r} _ := by
    simp only [Store.promise, Array.getD_eq_getD_getElem?]
    cases hp : s.store.promises[r.index]? with
    | none => exact ⟨(Guard.outside hidden).nil _, trivial⟩
    | some p => exact h.promises _ _ hp
  callable {r} _ := by
    simp only [Store.callable, Array.getD_eq_getD_getElem?]
    cases hf : s.store.callables[r.index]? with
    | none => exact (Guard.outside hidden).nil _
    | some f => exact h.callables _ _ hf
  vector {r} _ := by
    simp only [Store.vector, Array.getD_eq_getD_getElem?]
    cases hv : s.store.vectors[r.index]? with
    | none => exact Guard.goodAll_nil _
    | some vs => exact h.vectors _ _ hv
  dummy _ _ h := by cases h
  global {x v} hx := by
    refine ⟨fun _ h => (by cases h), ?_⟩
    simp only [State.global?, Option.join_eq_some_iff] at hx
    exact h.globals _ _ hx
  slot {env i j v} _ hv := by
    unfold Frames.lookup? at hv
    split at hv
    · rename_i k hk
      rw [Option.bind_eq_some_iff] at hv
      obtain ⟨frame, hframe, hslot⟩ := hv
      exact h.frames _ _ hframe v (Array.mem_toList_iff.2 (Array.mem_of_getElem? hslot))
    · cases hv
  frames {env} _ slots hslots := by
    obtain ⟨i, frame, hframe, rfl⟩ := Frames.mem_chain hslots
    exact h.frames _ _ hframe

/-- The state stays sealed as cells are added, where those that are not hidden hold good values. -/
theorem grow (h : s.Sealed hidden) {hidden' : Nat → Prop} {store : Store}
    (hadd : s.store.AddsCells store) (hbound : ∀ i, hidden' i → i < store.cells.size)
    (hkeep : ∀ i, hidden i → hidden' i)
    (hnew : ∀ i, i < s.store.cells.size → hidden' i → hidden i)
    (hcells : ∀ (i : Nat) c, s.store.cells.size ≤ i → store.cells[i]? = some c → ¬ hidden' i →
      (Guard.outside hidden').Good store.cells.size c.car ∧
        (Guard.outside hidden').Good store.cells.size c.cdr) :
    { s with store }.Sealed hidden' := by
  have hgood : ∀ v, (Guard.outside hidden).Good s.store.cells.size v →
      (Guard.outside hidden').Good store.cells.size v := by
    intro v hv r hr
    obtain ⟨hlt, hn⟩ := hv r hr
    exact ⟨Nat.lt_of_lt_of_le hlt hadd.size_le, fun hh => hn (hnew _ hlt hh)⟩
  have hrest := hadd.rest
  have hpromises : store.promises = s.store.promises := by rw [hrest]
  have hcallables : store.callables = s.store.callables := by rw [hrest]
  have hvectors : store.vectors = s.store.vectors := by rw [hrest]
  refine ⟨hbound, ?_, ?_, ?_, ?_, ?_, ?_, h.symbols⟩
  · intro i c hc hi
    by_cases hlt : i < s.store.cells.size
    · have hold := Array.getElem?_eq_getElem hlt
      have hsame : store.cells[i]? = some s.store.cells[i] := hadd.keeps ⟨i⟩ _ hold
      cases hc.symm.trans hsame
      obtain ⟨hcar, hcdr⟩ := h.cells i _ hold fun hh => hi (hkeep i hh)
      exact ⟨hgood _ hcar, hgood _ hcdr⟩
    · exact hcells i c (by omega) hc hi
  · intro i p hp
    rw [hpromises] at hp
    exact Guard.goodPromise_of_good hgood hgood (fun _ _ => trivial) (h.promises i p hp)
  · intro i f hf
    rw [hcallables] at hf
    exact Guard.goodCallable_of_good hgood (fun _ _ => trivial) (h.callables i f hf)
  · intro i vs hvs v hv
    rw [hvectors] at hvs
    exact hgood _ (h.vectors i vs hvs v hv)
  · intro i v hv
    exact hgood _ (h.globals i v hv)
  · intro i frame hframe v hv
    exact hgood _ (h.frames i frame hframe v hv)

/-- A new cell that holds good values. -/
theorem push (h : s.Sealed hidden) {a d : Value}
    (ha : (Guard.outside hidden).Good s.store.cells.size a)
    (hd : (Guard.outside hidden).Good s.store.cells.size d) :
    { s with store := { s.store with cells := s.store.cells.push ⟨a, d⟩ } }.Sealed hidden := by
  have hle : s.store.cells.size ≤ (s.store.cells.push ⟨a, d⟩).size := by simp
  refine h.grow (Store.AddsCells.push s.store ⟨a, d⟩) ?_ (fun _ hi => hi) (fun _ _ hi => hi) ?_
  · exact fun i hi => Nat.lt_of_lt_of_le (h.bound i hi) hle
  · intro i c hi hc _
    have hlt := (Array.getElem?_eq_some_iff.1 hc).1
    simp only [Array.size_push] at hlt
    rw [Array.getElem?_push, if_pos (by omega)] at hc
    cases hc
    exact ⟨(Guard.outside hidden).good_mono hle ha, (Guard.outside hidden).good_mono hle hd⟩

/-- The state stays sealed as visible cells are overwritten with good values. -/
theorem overwrite (h : s.Sealed hidden) {cells : Array Cell}
    (hsize : cells.size = s.store.cells.size)
    (hcells : ∀ (i : Nat) c, cells[i]? = some c → ¬ hidden i →
      (Guard.outside hidden).Good s.store.cells.size c.car ∧
        (Guard.outside hidden).Good s.store.cells.size c.cdr) :
    { s with store := { s.store with cells } }.Sealed hidden := by
  have hgood : ∀ v, (Guard.outside hidden).Good s.store.cells.size v →
      (Guard.outside hidden).Good cells.size v := fun v hv => hsize.symm ▸ hv
  refine ⟨fun i hi => hsize.symm ▸ h.bound i hi, fun i c hc hi => ?_, fun i p hp => ?_,
    fun i f hf => ?_, fun i vs hvs v hv => ?_, fun i v hv => ?_, fun i frame hframe v hv => ?_,
    h.symbols⟩
  · exact ⟨hgood _ (hcells i c hc hi).1, hgood _ (hcells i c hc hi).2⟩
  · exact Guard.goodPromise_of_good hgood hgood (fun _ _ => trivial) (h.promises i p hp)
  · exact Guard.goodCallable_of_good hgood (fun _ _ => trivial) (h.callables i f hf)
  · exact hgood _ (h.vectors i vs hvs v hv)
  · exact hgood _ (h.globals i v hv)
  · exact hgood _ (h.frames i frame hframe v hv)

/-- Overwriting a part of a visible cell. -/
theorem modifyCell (h : s.Sealed hidden) {r : Ref .cell} {f : Cell → Cell}
    (hf : ∀ c, (Guard.outside hidden).Good s.store.cells.size c.car →
      (Guard.outside hidden).Good s.store.cells.size c.cdr →
      (Guard.outside hidden).Good s.store.cells.size (f c).car ∧
        (Guard.outside hidden).Good s.store.cells.size (f c).cdr) :
    (s.mapStore fun st => { st with cells := st.cells.modify r.index f }).Sealed hidden := by
  refine h.overwrite (by simp) fun i c hc hi => ?_
  rw [Array.getElem?_modify] at hc
  split at hc
  · obtain ⟨c', hc', rfl⟩ := Option.map_eq_some_iff.1 hc
    obtain ⟨hcar, hcdr⟩ := h.cells i c' hc' hi
    exact hf c' hcar hcdr
  · exact h.cells i c hc hi

theorem modify_hidden (_ : s.Sealed hidden) {r : Ref .cell} {f : Cell → Cell}
    (hr : ¬ hidden r.index) (i : Nat) (hi : hidden i) :
    (s.store.cells.modify r.index f)[i]? = s.store.cells[i]? := by
  rw [Array.getElem?_modify, if_neg]
  rintro rfl
  exact hr hi

theorem setGlobal (h : s.Sealed hidden) {x : Symbol} {v : Value}
    (hv : (Guard.outside hidden).Good s.store.cells.size v) :
    (s.setGlobal x v).Sealed hidden := by
  have hglobals : ∀ (i : Nat) o, s.globals[i]? = some o → ∀ u, o = some u →
      (Guard.outside hidden).Good s.store.cells.size u :=
    fun i o ho u hu => h.globals i u (hu ▸ ho)
  refine { h with globals := fun i u hu => ?_ }
  refine forall_set (p := fun o => ∀ u, o = some u →
    (Guard.outside hidden).Good s.store.cells.size u) ?_ ?_ i (some u) hu u rfl
  · split
    · exact hglobals
    · intro j o ho w hw
      rw [Array.getElem?_append] at ho
      split at ho
      · exact hglobals j o ho w hw
      · rw [Array.getElem?_replicate] at ho
        split at ho
        · cases ho
          cases hw
        · cases ho
  · intro w hw
    cases hw
    exact hv

/-- A new frame with good slots. -/
theorem extend (h : s.Sealed hidden) (slots : Array Value) (next : Env)
    (hslots : ∀ v ∈ slots, (Guard.outside hidden).Good s.store.cells.size v) :
    { s with frames := s.frames.push slots next }.Sealed hidden :=
  { h with
    frames := forall_push h.frames fun v hv => hslots v (Array.mem_toList_iff.1 hv) }

theorem assign (h : s.Sealed hidden) {env : Env} {i j : Nat} {v : Value}
    (hv : (Guard.outside hidden).Good s.store.cells.size v) :
    { s with frames := s.frames.assign env i j v }.Sealed hidden := by
  refine { h with frames := ?_ }
  unfold Frames.assign
  split
  · refine forall_modify (p := fun frame : Frame =>
      (Guard.outside hidden).GoodAll s.store.cells.size frame.slots.toList) h.frames ?_
    intro frame hframe
    refine forall_of_mem (forall_set ?_ hv)
    exact fun k u hu => hframe u (Array.mem_toList_iff.2 (Array.mem_of_getElem? hu))
  · exact h.frames

end State.Sealed

/-! ## States that agree outside -/

/-- The second state is the first but for what the hidden cells hold. -/
def State.AgreesOutside (hidden : Nat → Prop) (s t : State) : Prop :=
  ∃ cells, t = { s with store := { s.store with cells } } ∧ cells.size = s.store.cells.size ∧
    ∀ i, ¬ hidden i → cells[i]? = s.store.cells[i]?

namespace State.AgreesOutside

variable {hidden : Nat → Prop} {s t u : State}

theorem refl (hidden : Nat → Prop) (s : State) : s.AgreesOutside hidden s :=
  ⟨s.store.cells, rfl, rfl, fun _ _ => rfl⟩

theorem symm (h : s.AgreesOutside hidden t) : t.AgreesOutside hidden s := by
  obtain ⟨cells, rfl, hsize, hout⟩ := h
  exact ⟨s.store.cells, rfl, hsize.symm, fun i hi => (hout i hi).symm⟩

theorem size_eq (h : s.AgreesOutside hidden t) : t.store.cells.size = s.store.cells.size := by
  obtain ⟨cells, rfl, hsize, -⟩ := h
  exact hsize

theorem sees (h : s.AgreesOutside hidden t) {n : Nat} : (Guard.outside hidden).Sees n s t := by
  obtain ⟨cells, rfl, hsize, hout⟩ := h
  exact ⟨s.store.failures, cells, rfl, rfl, hsize, fun r hr => hout _ (hr r rfl).2⟩

/-- What the hidden cells hold has no part in whether the state is sealed. -/
theorem sealed (h : s.AgreesOutside hidden t) (hs : s.Sealed hidden) : t.Sealed hidden := by
  obtain ⟨cells, rfl, hsize, hout⟩ := h
  exact hs.overwrite hsize fun i c hc hi => hs.cells i c ((hout i hi).symm.trans hc) hi

/-- The same is done to a visible cell of both. -/
theorem modifyCell (h : s.AgreesOutside hidden t) (r : Ref .cell) (f : Cell → Cell) :
    (s.mapStore fun st => { st with cells := st.cells.modify r.index f }).AgreesOutside hidden
      (t.mapStore fun st => { st with cells := st.cells.modify r.index f }) := by
  obtain ⟨cells, rfl, hsize, hout⟩ := h
  refine ⟨cells.modify r.index f, rfl, by simp [State.mapStore, hsize], fun i hi => ?_⟩
  simp only [State.mapStore, Array.getElem?_modify, hout i hi]

/-- The same is done to a hidden cell of one. -/
theorem modifyHidden (h : s.AgreesOutside hidden t) {r : Ref .cell} (hr : hidden r.index)
    (f : Cell → Cell) : s.AgreesOutside hidden
      (t.mapStore fun st => { st with cells := st.cells.modify r.index f }) := by
  obtain ⟨cells, rfl, hsize, hout⟩ := h
  refine ⟨cells.modify r.index f, rfl, by simp [hsize], fun i hi => ?_⟩
  rw [Array.getElem?_modify, if_neg fun hir : r.index = i => hi (hir ▸ hr), hout i hi]

end State.AgreesOutside

/-! ## Programs keep states sealed -/

namespace Simulation

/-- Two runs that differ in the hidden cells only, which stay as they are. -/
def concealing (hidden : Nat → Prop) (contents contents' : Nat → Option Cell) :
    Simulation (Guard.outside hidden) where
  St n s t := s.AgreesOutside hidden t ∧ s.store.cells.size = n ∧ s.Sealed hidden ∧
    (∀ i, hidden i → s.store.cells[i]? = contents i) ∧
    ∀ i, hidden i → t.store.cells[i]? = contents' i
  Fault n f g := g = f ∧ (Guard.outside hidden).GoodCause n f.cause
  Lost _ _ := True
  Drives _ := True
  Frees _ := True
  drives _ := trivial
  lost _ := trivial
  lost_mono _ h := h
  sees h := h.1.sees
  covers := by
    rintro n s t ⟨-, rfl, hs, -⟩
    exact hs.covers
  fault_mono := by
    rintro n m f g hn ⟨hg, hf⟩
    refine ⟨hg, ?_⟩
    cases hcause : f.cause with
    | thrown tag v text =>
        rw [hcause] at hf
        exact ⟨(Guard.outside hidden).good_mono hn hf.1, (Guard.outside hidden).good_mono hn hf.2⟩
    | _ => trivial
  fault_cause h := ⟨h.1 ▸ rfl, h.2⟩
  fault_new h := ⟨rfl, h⟩
  fault_traced := by
    rintro n s t form f g ⟨hst, hn, hs, -⟩ hform ⟨hg, hf⟩
    subst hn hg
    have htext := (hst.sees (n := s.store.cells.size)).textIn hs.covers hform
    obtain ⟨cells, rfl, -⟩ := hst
    refine ⟨?_, ?_⟩
    · simp only [Engine.traced, htext]
    · rw [Engine.cause_traced]
      exact hf
  step_cons := by
    rintro n s t a d v ⟨⟨cells, rfl, hsize, hout⟩, hn, hs, hc, hc'⟩ ha hd hv
    subst hn
    have hcons : s.store.cons a d = (some v, (s.store.cons a d).2) := Prod.ext hv rfl
    have hroom : s.store.cells.size < s.store.capacity := by
      by_contra hfull
      rw [Store.cons, if_neg hfull] at hv
      cases hv
    have hroom' : cells.size < s.store.capacity := hsize ▸ hroom
    obtain ⟨rfl, -⟩ := Store.cons_eq_some hcons
    simp only [State.mapStore, Store.cons, if_pos hroom, if_pos hroom']
    refine ⟨s.store.cells.size + 1, Nat.le_succ _,
      ⟨⟨cells.push ⟨a, d⟩, rfl, by simp [hsize], fun i hi => ?_⟩, Array.size_push ..,
        hs.push ha hd, fun i hi => ?_, fun i hi => ?_⟩, fun r hr => ?_⟩
    · rw [Array.getElem?_push, Array.getElem?_push, hsize, hout i hi]
    · rw [← hc i hi, Array.getElem?_push, if_neg (Nat.ne_of_lt (hs.bound i hi))]
    · rw [← hc' i hi, Array.getElem?_push, if_neg (hsize ▸ Nat.ne_of_lt (hs.bound i hi))]
    · cases hr
      exact ⟨Nat.lt_succ_self _, fun hh => Nat.lt_irrefl _ (hs.bound _ hh)⟩
  step_setCar := by
    rintro n s t r v ⟨hst, hn, hs, hc, hc'⟩ hr hv -
    subst hn
    refine ⟨_, le_refl _, ⟨hst.modifyCell r _, by simp [State.mapStore, Store.setCar],
      hs.modifyCell fun c _ hcdr => ⟨hv, hcdr⟩, ?_, ?_⟩, trivial⟩
    · exact fun i hi => (hs.modify_hidden (hr r rfl).2 i hi).trans (hc i hi)
    · exact fun i hi => ((hst.sealed hs).modify_hidden (hr r rfl).2 i hi).trans (hc' i hi)
  step_setCdr := by
    rintro n s t r v ⟨hst, hn, hs, hc, hc'⟩ hr hv -
    subst hn
    refine ⟨_, le_refl _, ⟨hst.modifyCell r _, by simp [State.mapStore, Store.setCdr],
      hs.modifyCell fun c hcar _ => ⟨hcar, hv⟩, ?_, ?_⟩, trivial⟩
    · exact fun i hi => (hs.modify_hidden (hr r rfl).2 i hi).trans (hc i hi)
    · exact fun i hi => ((hst.sealed hs).modify_hidden (hr r rfl).2 i hi).trans (hc' i hi)
  step_newText := by
    rintro n s t text ⟨⟨cells, rfl, hsize, hout⟩, hn, hs, hc⟩
    subst hn
    exact ⟨_, le_refl _, ⟨⟨cells, rfl, hsize, hout⟩, rfl, { hs with }, hc⟩, fun _ h => by cases h⟩
  step_newNumber := by
    rintro n s t k ⟨⟨cells, rfl, hsize, hout⟩, hn, hs, hc⟩
    subst hn
    -- A bignum is at most added, the same in both.
    have hstep : ∀ cells' : Array Cell,
        ({ s with store := { s.store with cells := cells' } } : State).mapStore
          (fun st => (st.newNumber k).2) =
        { s with store := { s.store with
            cells := cells', bignums := (s.store.newNumber k).2.bignums } } := by
      intro cells'
      simp only [State.mapStore, Store.newNumber]
      cases k.normalize <;> rfl
    rw [hstep cells, show (s.mapStore fun st => (st.newNumber k).2) = _ from hstep s.store.cells]
    refine ⟨_, le_refl _, ⟨⟨cells, rfl, hsize, hout⟩, rfl, { hs with }, hc⟩, ?_⟩
    intro r hr
    unfold Store.newNumber at hr
    split at hr <;> cases hr
  step_newVector := by
    rintro n s t items ⟨⟨cells, rfl, hsize, hout⟩, hn, hs, hc⟩ hitems
    subst hn
    refine ⟨_, le_refl _, ⟨⟨cells, rfl, hsize, hout⟩, rfl, { hs with vectors := ?_ }, hc⟩,
      fun _ h => by cases h⟩
    exact forall_push hs.vectors hitems
  step_setItem := by
    rintro n s t r v i ⟨⟨cells, rfl, hsize, hout⟩, hn, hs, hc⟩ - hv -
    subst hn
    refine ⟨_, le_refl _, ⟨⟨cells, rfl, hsize, hout⟩, rfl, { hs with vectors := ?_ }, hc⟩, trivial⟩
    refine forall_modify hs.vectors fun vs hvs => forall_of_mem (forall_set ?_ hv)
    exact fun k u hu => hvs u (Array.mem_toList_iff.2 (Array.mem_of_getElem? hu))
  step_newPromise := by
    rintro n s t form env ⟨⟨cells, rfl, hsize, hout⟩, hn, hs, hc⟩ hf henv
    subst hn
    refine ⟨_, le_refl _, ⟨⟨cells, rfl, hsize, hout⟩, rfl, { hs with promises := ?_ }, hc⟩,
      fun _ h => by cases h⟩
    exact forall_push hs.promises ⟨hf, henv⟩
  step_settle := by
    rintro n₀ n s₀ t₀ s t r form env v E - - ⟨⟨cells, rfl, hsize, hout⟩, hn, hs, hc⟩ - hv - - -
    subst hn
    refine ⟨_, le_refl _, ⟨⟨cells, rfl, hsize, hout⟩, rfl, { hs with promises := ?_ }, hc⟩, trivial⟩
    exact forall_set hs.promises hv
  step_newCallable := by
    rintro n s t f ⟨⟨cells, rfl, hsize, hout⟩, hn, hs, hc⟩ hf
    subst hn
    refine ⟨_, le_refl _, ⟨⟨cells, rfl, hsize, hout⟩, rfl, { hs with callables := ?_ }, hc⟩,
      fun _ h => by cases h⟩
    exact forall_push hs.callables hf
  step_newDummy := by
    rintro n s t x ⟨⟨cells, rfl, hsize, hout⟩, hn, hs, hc⟩ - -
    subst hn
    exact ⟨_, le_refl _, ⟨⟨cells, rfl, hsize, hout⟩, rfl, { hs with }, hc⟩, fun _ h => by cases h⟩
  step_newFailure := by
    rintro n s t f _ ⟨⟨cells, rfl, hsize, hout⟩, hn, hs, hc⟩ ⟨rfl, -⟩
    subst hn
    exact ⟨_, le_refl _, ⟨⟨cells, rfl, hsize, hout⟩, rfl, { hs with }, hc⟩, fun _ h => by cases h⟩
  step_intern := by
    rintro n s t name ⟨⟨cells, rfl, hsize, hout⟩, hn, hs, hc⟩
    subst hn
    refine ⟨_, le_refl _, ⟨⟨cells, rfl, hsize, hout⟩, rfl, { hs with symbols := ?_ }, hc⟩,
      fun _ h => by cases h⟩
    exact SymbolTable.sound _
  step_setGlobal := by
    rintro n s t x v ⟨⟨cells, rfl, hsize, hout⟩, hn, hs, hc⟩ - hv -
    subst hn
    exact ⟨_, le_refl _, ⟨⟨cells, rfl, hsize, hout⟩, rfl, hs.setGlobal hv, hc⟩, trivial⟩
  step_extend := by
    rintro n s t slots next ⟨⟨cells, rfl, hsize, hout⟩, hn, hs, hc⟩ hslots -
    subst hn
    refine ⟨_, le_refl _, ⟨⟨cells, rfl, hsize, hout⟩, rfl, hs.extend _ next ?_, hc⟩, trivial⟩
    exact fun v hv => hslots v (by simpa using hv)
  step_assign := by
    rintro n s t env v i j ⟨⟨cells, rfl, hsize, hout⟩, hn, hs, hc⟩ - hv -
    subst hn
    exact ⟨_, le_refl _, ⟨⟨cells, rfl, hsize, hout⟩, rfl, hs.assign hv, hc⟩, trivial⟩
  step_outside := by
    rintro n s t sink console reader requests opened ⟨⟨cells, rfl, hsize, hout⟩, hn, hs, hc⟩
    subst hn
    exact ⟨_, le_refl _, ⟨⟨cells, rfl, hsize, hout⟩, rfl, { hs with }, hc⟩, trivial⟩

instance (hidden : Nat → Prop) (contents contents' : Nat → Option Cell) :
    (concealing hidden contents contents').Free := ⟨fun _ => trivial⟩

end Simulation

/-- The second state is as a program may leave the first that was not given a hidden cell: the
hidden cells are as they were, and it is sealed. -/
structure State.SparesHidden (hidden : Nat → Prop) (s t : State) : Prop where
  sealed : t.Sealed hidden
  size_le : s.store.cells.size ≤ t.store.cells.size
  kept : ∀ i, hidden i → t.store.cells[i]? = s.store.cells[i]?

theorem State.SparesHidden.trans {hidden : Nat → Prop} {s t u : State} (h : s.SparesHidden hidden t)
    (h' : t.SparesHidden hidden u) : s.SparesHidden hidden u :=
  ⟨h'.sealed, Nat.le_trans h.size_le h'.size_le, fun i hi => (h'.kept i hi).trans (h.kept i hi)⟩

/-- Evaluating a form that does not refer to hidden cells leaves them as they are and the state
sealed, and its value does not refer to them. -/
theorem State.Sealed.evaluate {hidden : Nat → Prop} {s t : State} (h : s.Sealed hidden) {n : Nat}
    {form v : Value} {env : Env} (hform : (Guard.outside hidden).Good s.store.cells.size form)
    (hrun : SmallLisp.evaluate n form env s = .ok v t) :
    s.SparesHidden hidden t ∧ (Guard.outside hidden).Good t.store.cells.size v := by
  have hengines := (Simulation.concealing hidden (fun i => s.store.cells[i]?)
    fun i => s.store.cells[i]?).engines (Nat.le_refl n)
  have hmatch := @Simulation.Engines.eval _ _ _ _ hengines _ form env hform trivial s s
    ⟨.refl hidden s, rfl, h, fun _ _ => rfl, fun _ _ => rfl⟩
  have heval : (Engine.ofFuel n).eval form env s = .ok v t := hrun
  rw [heval] at hmatch
  obtain ⟨m, hle, ⟨-, hsize, hsealed, hcells, -⟩, -, hgood⟩ := hmatch
  subst hsize
  exact ⟨⟨hsealed, hle, hcells⟩, hgood⟩

/-- What hidden cells hold makes no difference to forcing a value that does not refer to them. -/
theorem State.Sealed.force {hidden : Nat → Prop} {s s' t : State} (h : s.Sealed hidden)
    (hst : s.AgreesOutside hidden t) {n : Nat} {v u : Value}
    (hv : (Guard.outside hidden).Good s.store.cells.size v)
    (hrun : (Engine.ofFuel n).force v s = .ok u s') :
    ∃ t', (Engine.ofFuel n).force v t = .ok u t' ∧ s'.AgreesOutside hidden t' ∧
      s.SparesHidden hidden s' ∧ t.SparesHidden hidden t' ∧
      (Guard.outside hidden).Good s'.store.cells.size u := by
  have hmatch := (Simulation.concealing hidden (fun i => s.store.cells[i]?)
    fun i => t.store.cells[i]?).force (Simulation.engines _ (Nat.le_refl n)) hv s t
      ⟨hst, rfl, h, fun _ _ => rfl, fun _ _ => rfl⟩
  rw [hrun] at hmatch
  cases hforce : (Engine.ofFuel n).force v t with
  | halt k t' => rw [hforce] at hmatch; exact hmatch.elim
  | ok u' t' =>
      rw [hforce] at hmatch
      obtain ⟨m, hle, ⟨hst', hsize, hsealed, hcells, hcells'⟩, rfl, hgood⟩ := hmatch
      subst hsize
      refine ⟨t', rfl, hst', ⟨hsealed, hle, hcells⟩, ⟨hst'.sealed hsealed, ?_, hcells'⟩, hgood⟩
      rw [hst.size_eq, hst'.size_eq]
      exact hle

end SmallLisp
