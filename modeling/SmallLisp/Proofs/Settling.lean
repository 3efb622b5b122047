import SmallLisp.Proofs.Chain
import SmallLisp.Proofs.Fuel

/-!
# Computations that settle

A computation settles if with enough fuel it always comes to the same end: a value of which
something is known, or a halt of a given kind. Sequences of computations that settle do so, and
walks along lists do so if what is done to each item does. A walk is at an item in the state that
what was done to the items before it has left.
-/

namespace SmallLisp

open Filter

/-! ## Ends -/

/-- The end of a computation is a value with `Q`, or a halt of the kind `F`. -/
def Outcome.Meets {α : Type} (F : Halt → Prop) (Q : α → State → Prop) : Outcome α → Prop
  | .ok a s => Q a s
  | .halt h _ => F h

/-- With enough fuel the computation always comes to the same end, of which `F` and `Q` tell. -/
def Eval.Settles {α : Type} (F : Halt → Prop) (s : State) (x : Nat → Eval α)
    (Q : α → State → Prop) : Prop :=
  ∃ o : Outcome α, o.Meets F Q ∧ ∀ᶠ n in atTop, x n s = o

/-- The kind of halt that is not for lack of fuel. -/
def Halt.IsEnd (h : Halt) : Prop := h ≠ .exhausted

theorem Outcome.Meets.ends {α : Type} {Q : α → State → Prop} {o : Outcome α}
    (h : o.Meets Halt.IsEnd Q) : o.Ends := by
  cases o with
  | ok a s => trivial
  | halt c s =>
      cases c with
      | exhausted => exact absurd rfl h
      | _ => trivial

namespace Eval.Settles

variable {α β : Type} {F : Halt → Prop} {s : State} {x y : Nat → Eval α}
  {Q R : α → State → Prop}

theorem of_ok {a : α} {t : State} (hx : ∀ᶠ n in atTop, x n s = .ok a t) (hQ : Q a t) :
    Settles F s x Q :=
  ⟨.ok a t, hQ, hx⟩

theorem of_halt {h : Halt} {t : State} (hx : ∀ᶠ n in atTop, x n s = .halt h t) (hF : F h) :
    Settles F s x Q :=
  ⟨.halt h t, hF, hx⟩

theorem of_eq (h : Settles F s y Q) (hx : ∀ᶠ n in atTop, x n s = y n s) : Settles F s x Q := by
  obtain ⟨o, ho, hy⟩ := h
  refine ⟨o, ho, ?_⟩
  filter_upwards [hx, hy] with n hn hyn
  rw [hn, hyn]

theorem mono (h : Settles F s x Q) (hQ : ∀ a t, Q a t → R a t) : Settles F s x R := by
  obtain ⟨o, ho, hx⟩ := h
  refine ⟨o, ?_, hx⟩
  cases o with
  | ok a t => exact hQ a t ho
  | halt c t => exact ho

theorem mono_halt {F' : Halt → Prop} (h : Settles F s x Q) (hF : ∀ c, F c → F' c) :
    Settles F' s x Q := by
  obtain ⟨o, ho, hx⟩ := h
  refine ⟨o, ?_, hx⟩
  cases o with
  | ok a t => exact ho
  | halt c t => exact hF c ho

/-- What a computation settles for is something it gives with some fuel. -/
theorem with_gives (h : Settles F s x Q) :
    Settles F s x fun a t => (∃ n, x n s = .ok a t) ∧ Q a t := by
  obtain ⟨o, ho, hx⟩ := h
  refine ⟨o, ?_, hx⟩
  cases o with
  | ok a t => exact ⟨hx.exists, ho⟩
  | halt c t => exact ho

theorem bind {f : Nat → α → Eval β} {P : β → State → Prop} (hx : Settles F s x Q)
    (hf : ∀ a t, Q a t → Settles F t (fun n => f n a) P) :
    Settles F s (fun n => x n >>= f n) P := by
  obtain ⟨o, ho, hn⟩ := hx
  cases o with
  | ok a t =>
      refine (hf a t ho).imp fun o h => ⟨h.1, ?_⟩
      filter_upwards [hn, h.2] with n hx hf
      rw [Eval.bind_of_ok hx, hf]
  | halt c t =>
      refine of_halt (t := t) ?_ ho
      filter_upwards [hn] with n hx
      exact Eval.bind_of_halt hx

end Eval.Settles

/-! ## Cells that stay -/

/-- The cells of the first state are all in the second, unchanged, and there is room for as many. -/
structure State.Retains (s t : State) : Prop where
  cells : s.store.KeepsCells t.store
  capacity : t.store.capacity = s.store.capacity

namespace State.Retains

variable {s t u : State}

theorem refl (s : State) : s.Retains s := ⟨.refl _, rfl⟩

theorem trans (h : s.Retains t) (h' : t.Retains u) : s.Retains u :=
  ⟨h.cells.trans h'.cells, h'.capacity.trans h.capacity⟩

theorem of_addsCells (h : s.store.AddsCells t.store) : s.Retains t :=
  ⟨h.keeps, by rw [h.rest]⟩

end State.Retains

/-- What a relation between states must be to hold between the first and the last state of a
computation: new cells alone do not break it, and it keeps the cells that there are. -/
structure Keeping (K : State → State → Prop) : Prop where
  refl : ∀ s, K s s
  trans : ∀ {s t u : State}, K s t → K t u → K s u
  retains : ∀ {s t : State}, K s t → s.Retains t
  adds : ∀ {s t : State}, s.store.AddsCells t.store → t = { s with store := t.store } → K s t

theorem State.Retains.keeping : Keeping State.Retains where
  refl := .refl
  trans := .trans
  retains h := h
  adds h _ := .of_addsCells h

/-- How many cells can still be made. -/
def Store.room (s : Store) : Nat := s.capacity - s.cells.size

theorem Store.KeepsCells.size_le {s t : Store} (h : s.KeepsCells t) :
    s.cells.size ≤ t.cells.size := by
  by_contra hlt
  have hindex : t.cells.size < s.cells.size := by omega
  have hsome : s.cell? ⟨t.cells.size⟩ = some s.cells[t.cells.size] :=
    Array.getElem?_eq_getElem hindex
  have hcell := Store.lt_of_cell? (h _ _ hsome)
  simp at hcell

theorem State.Retains.room_le {s t : State} (h : s.Retains t) : t.store.room ≤ s.store.room := by
  have hsize := h.cells.size_le
  have hcapacity := h.capacity
  unfold Store.room
  omega

/-- A list that is not empty takes up room. -/
theorem Store.room_lt_of_consAll {s t : Store} {reversed : List Value} {tail w : Value}
    (hne : reversed ≠ []) (h : s.consAll reversed tail = (some w, t)) : t.room < s.room := by
  cases reversed with
  | nil => exact absurd rfl hne
  | cons v reversed =>
      rw [consAll] at h
      by_cases hroom : s.cells.size < s.capacity
      · simp only [cons, hroom, if_true] at h
        have hadd := (consAll_eq_some h).1
        have hsize := hadd.size_le
        have hcapacity : t.capacity = s.capacity := by rw [hadd.rest]
        simp only [Array.size_push] at hsize
        unfold room
        omega
      · simp [cons, hroom] at h

/-- A list can only fail to be built because the store is full. -/
theorem Eval.consAll_eq_halt {reversed : List Value} {tail : Value} {s t : State} {c : Halt}
    (h : consAll reversed tail s = .halt c t) :
    ∃ capacity, c = .failed { cause := .storeFull capacity } := by
  unfold consAll allocCells at h
  dsimp only at h
  split at h
  · cases h
  · cases h
    exact ⟨_, rfl⟩

/-! ## Walks along lists -/

namespace Engine

open Eval

theorem cdrCell_of_tail (E : Engine) {s : State} {r : Ref .cell} {a d : Value}
    (hr : s.store.cell? r = some ⟨a, d⟩) (hd : d.isPair = true ∨ d = .nil) :
    E.cdrCell r s = .ok d s := by
  unfold cdrCell
  rw [bind_of_ok (cdr_apply r s), Store.cdr_of_cell? hr]
  rcases hd with hd | rfl
  · cases d <;> first | rfl | simp [Value.isPair] at hd
  · rfl

/-- A tail that is neither a pair nor nil nor a promise is no list. -/
theorem cdrCell_of_atom (E : Engine) {s : State} {r : Ref .cell} {a d : Value}
    (hr : s.store.cell? r = some ⟨a, d⟩) (hpair : d.isPair = false) (hnil : d ≠ .nil)
    (hpromise : d.isPromise = false) :
    E.cdrCell r s = .halt (.failed { cause := .notProper (textIn s (.pair r)) }) s := by
  unfold cdrCell
  rw [bind_of_ok (cdr_apply r s), Store.cdr_of_cell? hr]
  cases d <;> first | rfl | simp [Value.isPair, Value.isPromise] at hpair hnil hpromise

/-- The walk of a list from a state comes to an item in a state, where `step` is what is done to the
items. -/
inductive Visits (step : Value → State → Value → State → Prop) :
    Value → State → Value → State → Prop
  | here {r : Ref .cell} {a d : Value} {s : State} :
      s.store.cell? r = some ⟨a, d⟩ → Visits step (.pair r) s a s
  | next {r : Ref .cell} {a b c d x : Value} {s t u : State} :
      s.store.cell? r = some ⟨a, d⟩ → step a s b t → t.store.cell? r = some ⟨c, d⟩ →
      Visits step d t x u → Visits step (.pair r) s x u

theorem tendsto_pred {j : Nat → Nat} (hj : Tendsto j atTop atTop) :
    Tendsto (fun n => j n - 1) atTop atTop :=
  (tendsto_sub_atTop_nat 1).comp hj

theorem eventually_succ {j : Nat → Nat} (hj : Tendsto j atTop atTop) :
    ∀ᶠ n in atTop, j n = j n - 1 + 1 := by
  filter_upwards [hj.eventually_ge_atTop 1] with n hn
  omega

section Walks

variable {F : Halt → Prop} {K : State → State → Prop}
  {step : Value → State → Value → State → Prop} {f : Nat → Value → Eval Value}
  {P : State → Value → Prop} {N : Value → Prop} {xs : List Value} {tail v : Value} {s : State}

/-- A walk settles if what is done to each item does, in the state in which the walk comes to it. Of
the items `N` is known then, and of the results `P`. -/
theorem mapItems_settles (hK : Keeping K) (hF : ∀ text, F (.failed { cause := .notProper text }))
    (hstep : ∀ n x t y u, f n x t = .ok y u → step x t y u)
    (hP : ∀ t u y, K t u → P t y → P u y)
    (hv : s.store.Chain xs tail v) (hpair : tail.isPair = false)
    (hpromise : tail.isPromise = false)
    (hf : ∀ x ∈ xs, ∀ t, K s t → Visits step v s x t →
      Settles F t (fun n => f n x) fun y u => K t u ∧ P u y ∧ N x)
    {j : Nat → Nat} (hj : Tendsto j atTop atTop) {done : List Value} (hdone : ∀ y ∈ done, P s y) :
    Settles F s (fun n => (ofFuel n).mapItems (f n) (j n) v done) fun out t => K s t ∧
      (∀ y ∈ out, P t y) ∧ (∀ x ∈ xs, N x) ∧ out.length = xs.length + done.length := by
  induction xs generalizing v s j done with
  | nil =>
      cases hv
      by_cases hnil : tail = .nil
      · subst hnil
        refine .of_ok (a := done) (t := s) (.of_forall fun n => ?_)
          ⟨hK.refl s, hdone, by simp, by simp⟩
        rw [mapItems]
        rfl
      · refine .of_halt (t := s) (.of_forall fun n => ?_) (hF (textIn s tail))
        cases tail <;>
          first | (cases j n <;> rfl) | simp [Value.isPair] at hpair hnil
  | cons x xs ih =>
      obtain ⟨r, d, rfl, hr, hd⟩ := hv
      have hsucc : ∀ᶠ n in atTop, (ofFuel n).mapItems (f n) (j n) (.pair r) done s =
          (f n x >>= fun y => (ofFuel n).cdrCell r >>= fun next =>
            (ofFuel n).mapItems (f n) (j n - 1) next (y :: done)) s := by
        filter_upwards [eventually_succ hj] with n hn
        rw [hn, mapItems, bind_of_ok (car_apply r s), Store.car_of_cell? hr]
        rfl
      refine .of_eq (.bind (hf x (by simp) s (hK.refl s) (.here hr)).with_gives ?_) hsucc
      rintro y t ⟨⟨n, hn⟩, ht, hPy, hNx⟩
      have hrt := (hK.retains ht).cells r _ hr
      have hdt := hd.keeps (hK.retains ht).cells
      have hdone' : ∀ z ∈ y :: done, P t z := by
        intro z hz
        rcases List.mem_cons.1 hz with rfl | hz
        · exact hPy
        · exact hP s t z ht (hdone z hz)
      by_cases hlist : d.isPair = true ∨ d = .nil
      · have hrest := ih hdt (fun z hz u hu hvisit => hf z (by simp [hz]) u (hK.trans ht hu)
          (.next hr (hstep n x s y t hn) hrt hvisit)) (tendsto_pred hj) hdone'
        refine (hrest.mono fun out u h => ?_).of_eq (.of_forall fun n => ?_)
        · obtain ⟨hu, hout, hN, hlength⟩ := h
          refine ⟨hK.trans ht hu, hout, ?_, ?_⟩
          · intro z hz
            rcases List.mem_cons.1 hz with rfl | hz
            · exact hNx
            · exact hN z hz
          · simp only [List.length_cons] at hlength ⊢
            omega
        · exact bind_of_ok ((ofFuel n).cdrCell_of_tail hrt hlist)
      · -- The list ends here, since a walk goes on only through pairs.
        have hxs : xs = [] := by
          cases xs with
          | nil => rfl
          | cons z zs =>
              obtain ⟨q, e, rfl, -⟩ := hd
              exact absurd (.inl rfl) hlist
        subst hxs
        cases hd
        refine .of_halt (t := t) (.of_forall fun n => ?_) (hF (textIn t (.pair r)))
        refine bind_of_halt ((ofFuel n).cdrCell_of_atom hrt hpair ?_ hpromise)
        exact fun hnil => hlist (.inr hnil)

/-- A new list of the results settles too; it takes up room unless it is empty. -/
theorem mapList_settles (hK : Keeping K) (hF : ∀ text, F (.failed { cause := .notProper text }))
    (hfull : ∀ capacity, F (.failed { cause := .storeFull capacity }))
    (hstep : ∀ n x t y u, f n x t = .ok y u → step x t y u)
    (hP : ∀ t u y, K t u → P t y → P u y)
    (hv : s.store.Chain xs tail v) (hpair : tail.isPair = false)
    (hpromise : tail.isPromise = false)
    (hf : ∀ x ∈ xs, ∀ t, K s t → Visits step v s x t →
      Settles F t (fun n => f n x) fun y u => K t u ∧ P u y ∧ N x) :
    Settles F s (fun n => (ofFuel n).mapList (f n) v) fun w t => K s t ∧
      (xs ≠ [] → t.store.room < s.store.room) ∧ (∀ x ∈ xs, N x) ∧
        ∃ ys, t.store.Chain ys .nil w ∧ ∀ y ∈ ys, P t y := by
  have hnone : ∀ y ∈ ([] : List Value), P s y := by simp
  refine .bind (mapItems_settles hK hF hstep hP hv hpair hpromise hf tendsto_id hnone) ?_
  rintro out t ⟨ht, hout, hN, hlength⟩
  cases ho : consAll out .nil t with
  | ok w u =>
      obtain ⟨hadd, hrest, hchain⟩ := consAll_eq_ok ho
      have hu := hK.adds hadd hrest
      refine .of_ok (.of_forall fun _ => ho) ⟨hK.trans ht hu, ?_, hN, out.reverse, hchain, ?_⟩
      · intro hne
        have hout : out ≠ [] := by
          intro hnil
          subst hnil
          simp only [List.length_nil, Nat.add_zero] at hlength
          exact hne (List.eq_nil_of_length_eq_zero hlength.symm)
        have hless := Store.room_lt_of_consAll hout (allocCells_eq_ok ho).1
        exact Nat.lt_of_lt_of_le hless (hK.retains ht).room_le
      · intro y hy
        exact hP t u y hu (hout y (List.mem_reverse.1 hy))
  | halt c u =>
      refine .of_halt (.of_forall fun _ => ho) ?_
      obtain ⟨capacity, rfl⟩ := consAll_eq_halt ho
      exact hfull capacity

end Walks

end Engine

end SmallLisp
