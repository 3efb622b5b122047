import Mathlib.Order.Filter.AtTopBot.Basic
import SmallLisp.Proofs.Sealed
import SmallLisp.Proofs.Template.Meaning

/-!
# Computations that follow a course of events

A computation follows a course if, as long as the course does not go wrong, it gives what the course
can come to, or else the store is full. What the computation allocates on its way is hidden from the
expressions of the template, which are programs of their own: they can neither reach nor change it,
so data that were built before an expression is evaluated are the same afterwards.

The rules below are those of a small program logic. The number is the fuel, of which there always is
enough.
-/

namespace SmallLisp

open Eval Filter

/-! ## States that grow -/

namespace State.Grows

theorem refl (s : State) : s.Grows s := ⟨.refl _, rfl⟩

theorem trans {s t u : State} (h : s.Grows t) (h' : t.Grows u) : s.Grows u := by
  refine ⟨h.cells.trans h'.cells, ?_⟩
  have hu := h'.rest
  rw [h.rest] at hu
  exact hu

end State.Grows

/-- The computation ended because the store is full. -/
def Outcome.IsFull {α : Type} : Outcome α → Prop
  | .halt (.failed f) _ => ∃ capacity, f.cause = .storeFull capacity
  | _ => False

theorem Outcome.IsFull.exists {α : Type} {o : Outcome α} (h : o.IsFull) :
    ∃ f t capacity, o = .halt (.failed f) t ∧ f.cause = .storeFull capacity := by
  cases o with
  | ok a t => exact h.elim
  | halt c t =>
      cases c with
      | failed f =>
          obtain ⟨capacity, hf⟩ := h
          exact ⟨f, t, capacity, rfl, hf⟩
      | _ => exact h.elim

theorem eventually_of_succ {P : Nat → Prop} (h : ∀ᶠ n in atTop, P (n + 1)) :
    ∀ᶠ n in atTop, P n := by
  rw [eventually_atTop] at h ⊢
  obtain ⟨N, hN⟩ := h
  refine ⟨N + 1, fun n hn => ?_⟩
  obtain ⟨m, rfl⟩ : ∃ m, n = m + 1 := ⟨n - 1, by omega⟩
  exact hN m (by omega)

/-! ## Unfolding -/

/-- All that was hidden still is, and is as it was. -/
structure Onward (hidden : Nat → Prop) (s : State) (hidden' : Nat → Prop) (t : State) : Prop where
  wider : ∀ i, hidden i → hidden' i
  kept : ∀ i, hidden i → t.store.cells[i]? = s.store.cells[i]?

namespace Onward

variable {hidden hidden₁ hidden₂ : Nat → Prop} {s t u : State}

theorem refl (hidden : Nat → Prop) (s : State) : Onward hidden s hidden s :=
  ⟨fun _ h => h, fun _ _ => rfl⟩

theorem trans (h : Onward hidden s hidden₁ t) (h' : Onward hidden₁ t hidden₂ u) :
    Onward hidden s hidden₂ u :=
  ⟨fun i hi => h'.wider i (h.wider i hi),
    fun i hi => (h'.kept i (h.wider i hi)).trans (h.kept i hi)⟩

theorem unfolds (h : Onward hidden s hidden₁ t) {w : Value} {d : Datum}
    (hw : s.store.Unfolds hidden w d) : t.store.Unfolds hidden₁ w d := by
  induction d generalizing w with
  | value v => exact hw
  | pair a d iha ihd =>
      obtain ⟨r, x, y, rfl, hr, hc, hx, hy⟩ := hw
      exact ⟨r, x, y, rfl, h.wider _ hr, (h.kept _ hr).trans hc, iha hx, ihd hy⟩

theorem unfoldsAll (h : Onward hidden s hidden₁ t) {ws : List Value} {ds : List Datum}
    (hw : List.Forall₂ (s.store.Unfolds hidden) ws ds) :
    List.Forall₂ (t.store.Unfolds hidden₁) ws ds :=
  hw.imp fun _ _ => h.unfolds

end Onward

/-- A value that is a proper list as a datum is one in the store. -/
theorem Datum.Lists.chain {st : Store} {s : State} {hidden : Nat → Prop} {d : Datum}
    {items : List Datum} {w : Value} (h : d.Lists st items) (hk : st.KeepsCells s.store)
    (hw : s.store.Unfolds hidden w d) :
    ∃ xs, s.store.Chain xs .nil w ∧ List.Forall₂ (s.store.Unfolds hidden) xs items := by
  induction d generalizing items w with
  | value v =>
      obtain ⟨xs, hxs, rfl⟩ := h
      cases hw
      refine ⟨xs, hxs.keeps hk, ?_⟩
      rw [List.forall₂_map_right_iff]
      exact List.forall₂_same.2 fun _ _ => rfl
  | pair a d iha ihd =>
      obtain ⟨rest, rfl, hrest⟩ := h
      obtain ⟨r, x, y, rfl, -, hc, hx, hy⟩ := hw
      obtain ⟨xs, hxs, hall⟩ := ihd hrest hy
      exact ⟨x :: xs, ⟨r, y, rfl, hc, hxs⟩, .cons hx hall⟩

/-! ## Following a course -/

namespace Site

variable (T : Site)

/-- The state is the one that the events have led to, but for hidden cells, and the code at hand is
still as it was. -/
structure Ready (hidden : Nat → Prop) (p : Trail) (s : State) : Prop where
  grown : p.state.Grows s
  sealed : s.Sealed hidden
  fresh : ∀ i, hidden i → T.start.store.cells.size ≤ i
  size : T.start.store.cells.size ≤ s.store.cells.size
  stays : T.Stays s

/-- With enough fuel the computation gives what the course comes to, up to `R`, unless the course
goes wrong or the store is full. -/
def Follows {α β : Type} (hidden : Nat → Prop) (p : Trail) (s : State) (x : Nat → Eval α)
    (K : Course β) (R : (Nat → Prop) → State → α → β → Prop) : Prop :=
  K.wrong p ∨ (∀ᶠ n in atTop, (x n s).IsFull) ∨
    ∃ a s' b p' hidden', (∀ᶠ n in atTop, x n s = .ok a s') ∧ K.ends p b p' ∧
      T.Ready hidden' p' s' ∧ Onward hidden s hidden' s' ∧ R hidden' s' a b

/-- The value unfolds to the datum by hidden cells. -/
abbrev Shows (hidden : Nat → Prop) (s : State) (w : Value) (d : Datum) : Prop :=
  s.store.Unfolds hidden w d

/-- The values unfold to the data. -/
abbrev ShowsAll (hidden : Nat → Prop) (s : State) (ws : List Value) (ds : List Datum) : Prop :=
  List.Forall₂ (s.store.Unfolds hidden) ws ds

variable {T} {hidden : Nat → Prop} {p : Trail} {s : State}

/-- Adding cells leaves the code alone. -/
theorem Stays.grow (h : T.Stays s) (hsize : T.start.store.cells.size ≤ s.store.cells.size)
    {t : State} (hg : s.Grows t) : T.Stays t where
  cells r hr := by
    rw [← h.cells r hr]
    have hlt : r.index < s.store.cells.size := Nat.lt_of_lt_of_le (T.inRange hr) hsize
    have hcell : s.store.cell? r = some s.store.cells[r.index] := Array.getElem?_eq_getElem hlt
    rw [hcell]
    exact hg.cells.keeps r _ hcell
  natives b := by
    obtain ⟨r, hglobal, hcallable⟩ := h.natives b
    refine ⟨r, ?_, ?_⟩
    · rw [hg.rest]
      exact hglobal
    · rw [hg.cells.rest]
      exact hcallable

/-- Cells that are added are hidden. -/
theorem Ready.grow (h : T.Ready hidden p s) {t : State} (hg : s.Grows t) :
    T.Ready (fun i => hidden i ∨ s.store.cells.size ≤ i ∧ i < t.store.cells.size) p t ∧
      Onward hidden s (fun i => hidden i ∨ s.store.cells.size ≤ i ∧ i < t.store.cells.size) t := by
  have hle := hg.cells.size_le
  have hkept : ∀ i, i < s.store.cells.size → t.store.cells[i]? = s.store.cells[i]? := by
    intro i hi
    have hcell : s.store.cells[i]? = some s.store.cells[i] := Array.getElem?_eq_getElem hi
    rw [hcell]
    exact hg.cells.keeps ⟨i⟩ _ hcell
  constructor
  · refine ⟨h.grown.trans hg, ?_, ?_, Nat.le_trans h.size hle, h.stays.grow h.size hg⟩
    · rw [hg.rest]
      refine h.sealed.grow hg.cells ?_ (fun i hi => .inl hi) ?_ ?_
      · rintro i (hi | hi)
        · exact Nat.lt_of_lt_of_le (h.sealed.bound i hi) hle
        · exact hi.2
      · rintro i hi (hh | hh)
        · exact hh
        · omega
      · intro i c hi hc hn
        exact (hn (.inr ⟨hi, (Array.getElem?_eq_some_iff.1 hc).1⟩)).elim
    · rintro i (hi | hi)
      · exact h.fresh i hi
      · exact Nat.le_trans h.size hi.1
  · exact ⟨fun i hi => .inl hi, fun i hi => hkept i (h.sealed.bound i hi)⟩

namespace Follows

variable {α β γ δ : Type} {x : Nat → Eval α} {K : Course β}
  {R : (Nat → Prop) → State → α → β → Prop} {Q : (Nat → Prop) → State → γ → δ → Prop}

/-! ## Rules -/

theorem done {a : α} {b : β} (hx : ∀ᶠ n in atTop, x n s = .ok a s) (hK : K.ends p b p)
    (h : T.Ready hidden p s) (hR : R hidden s a b) : T.Follows hidden p s x K R :=
  .inr (.inr ⟨a, s, b, p, hidden, hx, hK, h, .refl _ _, hR⟩)

theorem bind {f : Nat → α → Eval γ} {g : β → Course δ} (hx : T.Follows hidden p s x K R)
    (hf : ∀ {a b hidden' p' s'}, T.Ready hidden' p' s' → Onward hidden s hidden' s' →
      R hidden' s' a b → T.Follows hidden' p' s' (fun n => f n a) (g b) Q) :
    T.Follows hidden p s (fun n => x n >>= f n) (K >>= g) Q := by
  obtain hwrong | hfull | ⟨a, s₁, b, p₁, hidden₁, hok, hends, hready, hon, hR⟩ := hx
  · exact .inl (.inl hwrong)
  · refine .inr (.inl ?_)
    filter_upwards [hfull] with n hn
    rw [bind_apply]
    generalize x n s = o at hn
    cases o with
    | ok a t => exact hn.elim
    | halt h t => cases h <;> exact hn
  · obtain hwrong | hfull | ⟨c, s₂, d, p₂, hidden₂, hok₂, hends₂, hready₂, hon₂, hR₂⟩ :=
      hf hready hon hR
    · exact .inl (.inr ⟨b, p₁, hends, hwrong⟩)
    · refine .inr (.inl ?_)
      filter_upwards [hok, hfull] with n hn hn'
      rw [bind_of_ok hn]
      exact hn'
    · refine .inr (.inr ⟨c, s₂, d, p₂, hidden₂, ?_, ⟨b, p₁, hends, hends₂⟩, hready₂,
        hon.trans hon₂, hR₂⟩)
      filter_upwards [hok, hok₂] with n hn hn'
      rw [bind_of_ok hn]
      exact hn'

/-- A part of the computation that has nothing to do with the course. -/
theorem read {f : Nat → α → Eval γ} {K : Course δ} {a : α}
    (hx : ∀ᶠ n in atTop, x n s = .ok a s)
    (hf : T.Follows hidden p s (fun n => f n a) K Q) :
    T.Follows hidden p s (fun n => x n >>= f n) K Q := by
  obtain hwrong | hfull | ⟨c, s₂, d, p₂, hidden₂, hok₂, hrest⟩ := hf
  · exact .inl hwrong
  · refine .inr (.inl ?_)
    filter_upwards [hx, hfull] with n hn hn'
    rw [bind_of_ok hn]
    exact hn'
  · refine .inr (.inr ⟨c, s₂, d, p₂, hidden₂, ?_, hrest⟩)
    filter_upwards [hx, hok₂] with n hn hn'
    rw [bind_of_ok hn]
    exact hn'

/-- Traces and call sites that are added to failures make no difference. -/
theorem onFailure {change : State → Failure → Failure} (hx : T.Follows hidden p s x K R)
    (hchange : ∀ s f capacity, f.cause = .storeFull capacity →
      (change s f).cause = .storeFull capacity) :
    T.Follows hidden p s (fun n => (x n).onFailure change) K R := by
  obtain hwrong | hfull | ⟨a, s₁, b, p₁, hidden₁, hok, hrest⟩ := hx
  · exact .inl hwrong
  · refine .inr (.inl ?_)
    filter_upwards [hfull] with n hn
    unfold Eval.onFailure
    generalize x n s = o at hn
    cases o with
    | ok a t => exact hn.elim
    | halt h t =>
        cases h with
        | failed f =>
            obtain ⟨capacity, hf⟩ := hn
            exact ⟨capacity, hchange _ _ _ hf⟩
        | _ => exact hn
  · refine .inr (.inr ⟨a, s₁, b, p₁, hidden₁, ?_, hrest⟩)
    filter_upwards [hok] with n hn
    unfold Eval.onFailure
    rw [hn]

/-- What follows a course follows one that allows more. -/
theorem mono {L : Course δ} {Q : (Nat → Prop) → State → α → δ → Prop}
    (hx : T.Follows hidden p s x K R) (hwrong : K.wrong p → L.wrong p)
    (hends : ∀ {a b hidden' p' s'}, K.ends p b p' → R hidden' s' a b →
      L.wrong p ∨ ∃ d, L.ends p d p' ∧ Q hidden' s' a d) :
    T.Follows hidden p s x L Q := by
  obtain h | h | ⟨a, s₁, b, p₁, hidden₁, hok, hb, hready, hon, hR⟩ := hx
  · exact .inl (hwrong h)
  · exact .inr (.inl h)
  · obtain h | ⟨d, hd, hQ⟩ := hends hb hR
    · exact .inl h
    · exact .inr (.inr ⟨a, s₁, d, p₁, hidden₁, hok, hd, hready, hon, hQ⟩)

theorem congr {y : Nat → Eval α} (hy : T.Follows hidden p s y K R)
    (h : ∀ᶠ n in atTop, x n s = y n s) : T.Follows hidden p s x K R := by
  obtain hwrong | hfull | ⟨a, s₁, b, p₁, hidden₁, hok, hrest⟩ := hy
  · exact .inl hwrong
  · refine .inr (.inl ?_)
    filter_upwards [h, hfull] with n hn hn'
    rwa [hn]
  · refine .inr (.inr ⟨a, s₁, b, p₁, hidden₁, ?_, hrest⟩)
    filter_upwards [h, hok] with n hn hn'
    rwa [hn]

theorem succ (h : T.Follows hidden p s (fun n => x (n + 1)) K R) : T.Follows hidden p s x K R := by
  obtain hwrong | hfull | ⟨a, s₁, b, p₁, hidden₁, hok, hrest⟩ := h
  · exact .inl hwrong
  · exact .inr (.inl (eventually_of_succ hfull))
  · exact .inr (.inr ⟨a, s₁, b, p₁, hidden₁, eventually_of_succ hok, hrest⟩)

/-! ## Allocation -/

theorem cons {a d : Value} {da dd : Datum} (h : T.Ready hidden p s)
    (ha : Shows hidden s a da) (hd : Shows hidden s d dd) :
    T.Follows hidden p s (fun _ => Eval.cons a d) (pure (.pair da dd)) Shows := by
  by_cases hroom : s.store.cells.size < s.store.capacity
  · have hg : s.Grows { s with store := { s.store with cells := s.store.cells.push ⟨a, d⟩ } } :=
      ⟨.push s.store ⟨a, d⟩, rfl⟩
    obtain ⟨hready, hon⟩ := h.grow hg
    refine .inr (.inr ⟨.pair ⟨s.store.cells.size⟩, _, _, p, _, .of_forall fun n => ?_, ⟨rfl, rfl⟩,
      hready, hon, ?_⟩)
    · simp [Eval.cons, allocCells, Store.cons, hroom]
    · refine ⟨_, a, d, rfl, .inr ⟨Nat.le_refl _, by simp⟩, Store.cell?_push_size _ _, ?_, ?_⟩
      · exact hon.unfolds ha
      · exact hon.unfolds hd
  · refine .inr (.inl (.of_forall fun n => ?_))
    simp [Eval.cons, allocCells, Store.cons, hroom, Outcome.IsFull]

theorem consAll {reversed : List Value} {ds : List Datum} {tail : Value} {d : Datum}
    (h : T.Ready hidden p s) (hitems : ShowsAll hidden s reversed ds)
    (htail : Shows hidden s tail d) :
    T.Follows hidden p s (fun _ => Eval.consAll reversed tail)
      (pure (Datum.listWithTail ds.reverse d)) Shows := by
  induction reversed generalizing hidden p s tail d ds with
  | nil =>
      cases hitems
      exact done (.of_forall fun _ => rfl) ⟨rfl, rfl⟩ h htail
  | cons v vs ih =>
      cases hitems with
      | cons hv hvs =>
          rename_i dv ds
          have hlist : Datum.listWithTail (dv :: ds).reverse d =
              Datum.listWithTail ds.reverse (.pair dv d) := by
            simp [Datum.listWithTail]
          rw [hlist, ← pure_bind (m := Course) (Datum.pair dv d) fun d =>
            pure (Datum.listWithTail ds.reverse d)]
          simp only [consAll_cons]
          exact bind (cons h hv htail) fun hready hon hw => ih hready (hon.unfoldsAll hvs) hw

end Follows

end Site

end SmallLisp
