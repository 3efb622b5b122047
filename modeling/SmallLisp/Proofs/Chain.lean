import SmallLisp.Proofs.Computation

/-!
# Lists in the store

A chain is a run of cells that holds given items, one each, in front of a tail; a proper list is a
chain in front of nil. Allocation makes chains of new cells and leaves every cell there was as it
was, so a chain stays one for as long as its cells do.
-/

namespace SmallLisp

namespace Store

/-- The cell behind a reference; none if the reference points past the table. -/
def cell? (s : Store) (r : Ref .cell) : Option Cell := s.cells[r.index]?

theorem car_of_cell? {s : Store} {r : Ref .cell} {c : Cell} (h : s.cell? r = some c) :
    s.car r = c.car := by
  simp [car, cell?] at h ⊢
  simp [h]

theorem cdr_of_cell? {s : Store} {r : Ref .cell} {c : Cell} (h : s.cell? r = some c) :
    s.cdr r = c.cdr := by
  simp [cdr, cell?] at h ⊢
  simp [h]

theorem lt_of_cell? {s : Store} {r : Ref .cell} {c : Cell} (h : s.cell? r = some c) :
    r.index < s.cells.size :=
  (Array.getElem?_eq_some_iff.1 h).1

/-- Every cell of the first store is in the second, unchanged. -/
def KeepsCells (s t : Store) : Prop := ∀ r c, s.cell? r = some c → t.cell? r = some c

theorem KeepsCells.refl (s : Store) : s.KeepsCells s := fun _ _ h => h

theorem KeepsCells.trans {s t u : Store} (h₁ : s.KeepsCells t) (h₂ : t.KeepsCells u) :
    s.KeepsCells u := fun r c h => h₂ r c (h₁ r c h)

/-! ## Chains -/

/-- The value is the items in front of the tail, in one cell each. -/
def Chain (s : Store) : List Value → Value → Value → Prop
  | [], tail, v => v = tail
  | x :: xs, tail, v => ∃ r d, v = .pair r ∧ s.cell? r = some ⟨x, d⟩ ∧ s.Chain xs tail d

theorem Chain.keeps {s t : Store} (hk : s.KeepsCells t) {xs : List Value} {tail v : Value}
    (h : s.Chain xs tail v) : t.Chain xs tail v := by
  induction xs generalizing v with
  | nil => exact h
  | cons x xs ih =>
      obtain ⟨r, d, rfl, hc, hd⟩ := h
      exact ⟨r, d, rfl, hk r _ hc, ih hd⟩

theorem Chain.append {s : Store} {xs ys : List Value} {mid tail v : Value}
    (hx : s.Chain xs mid v) (hy : s.Chain ys tail mid) : s.Chain (xs ++ ys) tail v := by
  induction xs generalizing v with
  | nil => exact hx ▸ hy
  | cons x xs ih =>
      obtain ⟨r, d, rfl, hc, hd⟩ := hx
      exact ⟨r, d, rfl, hc, ih hd⟩

/-- What a list walk sees of a chain that is a proper list: nil or a pair. -/
theorem Chain.nil_or_pair {s : Store} {xs : List Value} {v : Value} (h : s.Chain xs .nil v) :
    v = .nil ∨ ∃ r, v = .pair r := by
  cases xs with
  | nil => exact .inl h
  | cons x xs =>
      obtain ⟨r, d, rfl, -⟩ := h
      exact .inr ⟨r, rfl⟩

/-- A value is one proper list at most. -/
theorem Chain.unique {s : Store} {xs ys : List Value} {v : Value} (hx : s.Chain xs .nil v)
    (hy : s.Chain ys .nil v) : xs = ys := by
  induction xs generalizing ys v with
  | nil =>
      cases hx
      cases ys with
      | nil => rfl
      | cons y ys =>
          obtain ⟨r, d, ⟨⟩, -⟩ := hy
  | cons x xs ih =>
      obtain ⟨r, d, rfl, hr, hd⟩ := hx
      cases ys with
      | nil => cases hy
      | cons y ys =>
          obtain ⟨r', d', ⟨⟩, hr', hd'⟩ := hy
          cases hr.symm.trans hr'
          rw [ih hd hd']

/-! ## Lists of owned cells -/

/-- The value is the items as a proper list, made of cells that belong to someone. -/
def Owned (s : Store) (own : Ref .cell → Prop) : List Value → Value → Prop
  | [], v => v = .nil
  | x :: xs, v => ∃ r d, v = .pair r ∧ own r ∧ s.cell? r = some ⟨x, d⟩ ∧ s.Owned own xs d

section Owned

variable {s t : Store} {own own' : Ref .cell → Prop} {xs : List Value} {v : Value}

theorem Owned.mono (h : s.Owned own xs v) (hown : ∀ r, own r → own' r) : s.Owned own' xs v := by
  induction xs generalizing v with
  | nil => exact h
  | cons x xs ih =>
      obtain ⟨r, d, rfl, hr, hc, hd⟩ := h
      exact ⟨r, d, rfl, hown r hr, hc, ih hd⟩

/-- The list stays as it is for as long as its owner's cells do. -/
theorem Owned.keeps (h : s.Owned own xs v) (ht : ∀ r, own r → t.cell? r = s.cell? r) :
    t.Owned own xs v := by
  induction xs generalizing v with
  | nil => exact h
  | cons x xs ih =>
      obtain ⟨r, d, rfl, hr, hc, hd⟩ := h
      exact ⟨r, d, rfl, hr, (ht r hr).trans hc, ih hd⟩

theorem Owned.chain (h : s.Owned own xs v) : s.Chain xs .nil v := by
  induction xs generalizing v with
  | nil => exact h
  | cons x xs ih =>
      obtain ⟨r, d, rfl, -, hc, hd⟩ := h
      exact ⟨r, d, rfl, hc, ih hd⟩

theorem Chain.owned (h : s.Chain xs .nil v) : s.Owned (fun _ => True) xs v := by
  induction xs generalizing v with
  | nil => exact h
  | cons x xs ih =>
      obtain ⟨r, d, rfl, hc, hd⟩ := h
      exact ⟨r, d, rfl, trivial, hc, ih hd⟩

/-- A cell that heads a longer list is none of the list's. -/
theorem Owned.ne_of_longer {r : Ref .cell} {ys : List Value} (h : s.Owned own xs v)
    (hr : s.Chain ys .nil (.pair r)) (hlt : xs.length < ys.length) :
    s.Owned (fun q => own q ∧ q ≠ r) xs v := by
  induction xs generalizing v with
  | nil => exact h
  | cons x xs ih =>
      have hchain := h.chain
      obtain ⟨q, d, rfl, hq, hc, hd⟩ := h
      refine ⟨q, d, rfl, ⟨hq, ?_⟩, hc, ih hd (Nat.lt_of_succ_lt hlt)⟩
      rintro rfl
      rw [hchain.unique hr] at hlt
      exact Nat.lt_irrefl _ hlt

end Owned

/-! ## Making chains -/

/-- Nothing but cells differs between the two stores, and those there were are kept. -/
structure AddsCells (s t : Store) : Prop where
  keeps : s.KeepsCells t
  rest : t = { s with cells := t.cells }
  size_le : s.cells.size ≤ t.cells.size

theorem AddsCells.refl (s : Store) : s.AddsCells s := ⟨.refl s, rfl, Nat.le_refl _⟩

theorem AddsCells.trans {s t u : Store} (h₁ : s.AddsCells t) (h₂ : t.AddsCells u) :
    s.AddsCells u := by
  refine ⟨h₁.keeps.trans h₂.keeps, ?_, Nat.le_trans h₁.size_le h₂.size_le⟩
  have h := h₂.rest
  rw [h₁.rest] at h
  exact h

/-- A new pair is the next cell, and its contents are as given. -/
theorem cons_eq_some {s t : Store} {a d w : Value} (h : s.cons a d = (some w, t)) :
    w = .pair ⟨s.cells.size⟩ ∧ t = { s with cells := s.cells.push ⟨a, d⟩ } := by
  unfold cons at h
  split at h
  · simp only [Prod.mk.injEq, Option.some.injEq] at h
    exact ⟨h.1.symm, h.2.symm⟩
  · simp at h

theorem AddsCells.push (s : Store) (c : Cell) :
    s.AddsCells { s with cells := s.cells.push c } := by
  refine ⟨fun r c' h => ?_, rfl, by simp⟩
  have hlt := lt_of_cell? h
  simp only [cell?] at h ⊢
  rw [Array.getElem?_push_lt hlt]
  rw [Array.getElem?_eq_getElem hlt] at h
  exact h

theorem cell?_push_size (s : Store) (c : Cell) :
    { s with cells := s.cells.push c }.cell? ⟨s.cells.size⟩ = some c := by
  simp [cell?]

/-- A list that could be built is the chain of its items, in new cells. -/
theorem consAll_eq_some {s t : Store} {reversed : List Value} {tail w : Value}
    (h : s.consAll reversed tail = (some w, t)) :
    s.AddsCells t ∧ t.Chain reversed.reverse tail w := by
  induction reversed generalizing s tail with
  | nil =>
      simp only [consAll, Prod.mk.injEq, Option.some.injEq] at h
      obtain ⟨rfl, rfl⟩ := h
      exact ⟨.refl _, rfl⟩
  | cons v reversed ih =>
      rw [consAll] at h
      cases hc : s.cons v tail with
      | mk p s₁ =>
          cases p with
          | none => simp [hc] at h
          | some p =>
              obtain ⟨rfl, rfl⟩ := cons_eq_some hc
              simp only [hc] at h
              obtain ⟨hadd, hchain⟩ := ih h
              refine ⟨(AddsCells.push s _).trans hadd, ?_⟩
              rw [List.reverse_cons]
              refine hchain.append ⟨_, tail, rfl, ?_, rfl⟩
              exact hadd.keeps _ _ (cell?_push_size s ⟨v, tail⟩)

/-- A list that there is room for is made, in a cell for each item. -/
theorem exists_consAll {s : Store} (reversed : List Value) (tail : Value)
    (hroom : reversed.length ≤ s.capacity - s.cells.size) :
    ∃ v t, s.consAll reversed tail = (some v, t) ∧
      t.cells.size = s.cells.size + reversed.length := by
  induction reversed generalizing s tail with
  | nil => exact ⟨tail, s, rfl, rfl⟩
  | cons x reversed ih =>
      rw [List.length_cons] at hroom
      have hlt : s.cells.size < s.capacity := by omega
      obtain ⟨v, t, hlist, hsize⟩ := ih (s := { s with cells := s.cells.push ⟨x, tail⟩ })
        (.pair ⟨s.cells.size⟩) (by simp only [Array.size_push]; omega)
      refine ⟨v, t, ?_, ?_⟩
      · rw [consAll, cons, if_pos hlt]
        exact hlist
      · rw [hsize, Array.size_push, List.length_cons]
        omega

end Store

/-! ## Chains in computations -/

namespace Eval

/-- Where there is room a pair is the next cell. -/
theorem cons_of_room {s : State} (h : s.store.cells.size < s.store.capacity) (a d : Value) :
    cons a d s = .ok (.pair ⟨s.store.cells.size⟩)
      { s with store := { s.store with cells := s.store.cells.push ⟨a, d⟩ } } := by
  simp only [cons, allocCells, Store.cons, if_pos h]

theorem allocCells_eq_ok {f : Store → Option Value × Store} {s t : State} {w : Value}
    (h : allocCells f s = .ok w t) :
    f s.store = (some w, t.store) ∧ t = { s with store := t.store } := by
  unfold allocCells at h
  dsimp only at h
  split at h
  · rename_i v store hf
    cases h
    exact ⟨hf, rfl⟩
  · simp at h

/-- A list that was built is the chain of its items, and nothing but new cells was added. -/
theorem consAll_eq_ok {reversed : List Value} {tail w : Value} {s t : State}
    (h : consAll reversed tail s = .ok w t) :
    s.store.AddsCells t.store ∧ t = { s with store := t.store } ∧
      t.store.Chain reversed.reverse tail w := by
  obtain ⟨hf, ht⟩ := allocCells_eq_ok h
  obtain ⟨hadd, hchain⟩ := Store.consAll_eq_some hf
  exact ⟨hadd, ht, hchain⟩

end Eval

namespace Engine

open Eval

/-- The next cell of a proper list is found without touching anything. -/
theorem cdrCell_of_list (E : Engine) {s : State} {r : Ref .cell} {a d : Value} {xs : List Value}
    (hc : s.store.cell? r = some ⟨a, d⟩) (hd : s.store.Chain xs .nil d) :
    E.cdrCell r s = .ok d s := by
  have hcdr : s.store.cdr r = d := Store.cdr_of_cell? hc
  unfold cdrCell
  rw [bind_of_ok (cdr_apply r s), hcdr]
  rcases hd.nil_or_pair with rfl | ⟨r', rfl⟩ <;> rfl

/-- A list that a special form's symbol heads is that form. -/
theorem step_special_of_list {E : Engine} {k : Special} {x : Symbol} {r : Ref .cell} {args : Value}
    {vs : List Value} {env : Env} {s : State} (hx : Special.ofSymbol? x = some k)
    (hr : s.store.cell? r = some ⟨.sym x, args⟩) (hargs : s.store.Chain vs .nil args) :
    E.step (.pair r) env s = E.special k (.pair r) args env s := by
  have hkeyword : Eval.isKeyword x s = .ok true s := by
    rw [Eval.isKeyword, gets_apply, isKeyword_of_ofSymbol? hx]
  rw [step, pairStep, bind_of_ok (car_apply r s), Store.car_of_cell? hr,
    bind_of_ok (E.cdrCell_of_list hr hargs)]
  dsimp only
  rw [bind_of_ok hkeyword, if_pos rfl, hx]

variable {E : Engine} {s : State} {xs : List Value} {v : Value}

/-- The items of a proper list that is in the store. -/
theorem mapItems_pure_of_chain {n : Nat} {done : List Value} (hv : s.store.Chain xs .nil v)
    (hn : xs.length ≤ n) : E.mapItems pure n v done s = .ok (xs.reverse ++ done) s := by
  induction xs generalizing n v done with
  | nil =>
      cases hv
      rw [mapItems]
      rfl
  | cons x xs ih =>
      obtain ⟨r, d, rfl, hr, hd⟩ := hv
      obtain ⟨n, rfl⟩ : ∃ m, n = m + 1 := Nat.exists_eq_succ_of_ne_zero (Nat.ne_zero_of_lt hn)
      rw [mapItems, bind_of_ok (car_apply r s), Store.car_of_cell? hr, bind_of_ok (pure_apply x s),
        bind_of_ok (E.cdrCell_of_list hr hd), ih hd (Nat.le_of_succ_le_succ hn)]
      simp

theorem items_of_chain (hv : s.store.Chain xs .nil v) (hn : xs.length ≤ E.fuel) :
    E.items v s = .ok xs s := by
  rw [items, bind_of_ok (mapItems_pure_of_chain hv hn)]
  simp

/-- The items of a proper list that a frame has slots for, and what follows them. -/
theorem takeItems_of_owned {own : Ref .cell → Prop} {count : Nat} (done : List Value)
    (hv : s.store.Owned own xs v) (hcount : count ≤ xs.length) :
    ∃ rest, s.store.Owned own (xs.drop count) rest ∧
      E.takeItems count v done s = .ok (some ((xs.take count).reverse ++ done, rest)) s := by
  induction count generalizing xs v done with
  | zero => exact ⟨v, hv, rfl⟩
  | succ count ih =>
      cases xs with
      | nil => cases hcount
      | cons x xs =>
          obtain ⟨r, d, rfl, -, hr, hd⟩ := hv
          obtain ⟨rest, hrest, htake⟩ := ih (x :: done) hd (Nat.le_of_succ_le_succ hcount)
          have hforce : E.force d s = .ok d s := by
            rcases hd.chain.nil_or_pair with rfl | ⟨q, rfl⟩ <;> rfl
          refine ⟨rest, hrest, ?_⟩
          rw [takeItems, bind_of_ok (car_apply r s), bind_of_ok (cdr_apply r s),
            Store.car_of_cell? hr, Store.cdr_of_cell? hr, bind_of_ok hforce, htake]
          simp

theorem takeItems_of_chain {count : Nat} (done : List Value) (hv : s.store.Chain xs .nil v)
    (hcount : count ≤ xs.length) : ∃ rest, s.store.Chain (xs.drop count) .nil rest ∧
      E.takeItems count v done s = .ok (some ((xs.take count).reverse ++ done, rest)) s := by
  obtain ⟨rest, hrest, htake⟩ := takeItems_of_owned done hv.owned hcount
  exact ⟨rest, hrest.chain, htake⟩

theorem takeItems_of_short {count : Nat} {done : List Value} (hv : s.store.Chain xs .nil v)
    (hcount : xs.length < count) : E.takeItems count v done s = .ok none s := by
  induction count generalizing xs v done with
  | zero => cases hcount
  | succ count ih =>
      cases xs with
      | nil =>
          cases hv
          rfl
      | cons x xs =>
          obtain ⟨r, d, rfl, hr, hd⟩ := hv
          have hforce : E.force d s = .ok d s := by
            rcases hd.nil_or_pair with rfl | ⟨q, rfl⟩ <;> rfl
          rw [takeItems, bind_of_ok (car_apply r s), bind_of_ok (cdr_apply r s),
            Store.car_of_cell? hr, Store.cdr_of_cell? hr, bind_of_ok hforce]
          exact ih hd (Nat.lt_of_succ_lt_succ hcount)

end Engine

/-! ## Frames of proper lists -/

/-- Whether a callable of the shape takes so many arguments. -/
def Shape.Takes (shape : Shape) (n : Nat) : Prop :=
  if shape.hasRest then shape.required ≤ n else n = shape.required

theorem Shape.Takes.required_le {shape : Shape} {n : Nat} (h : shape.Takes n) :
    shape.required ≤ n := by
  unfold Takes at h
  split at h
  · exact h
  · exact Nat.le_of_eq h.symm

namespace Engine

open Eval

variable {E : Engine} {s : State} {xs : List Value} {v : Value} {f : Callable}

/-- The frame of a proper list that the callable takes: the required items, and what is left of the
list if there is a rest. -/
theorem makeFrame_of_takes {own : Ref .cell → Prop} (hv : s.store.Owned own xs v)
    (htakes : f.shape.Takes xs.length) :
    ∃ rest, s.store.Owned own (xs.drop f.shape.required) rest ∧ E.makeFrame f v s =
      .ok (xs.take f.shape.required ++ if f.shape.hasRest then [rest] else []) s := by
  obtain ⟨rest, hrest, htake⟩ := takeItems_of_owned (E := E) [] hv htakes.required_le
  refine ⟨rest, hrest, ?_⟩
  rw [makeFrame, bind_of_ok htake]
  unfold Shape.Takes at htakes
  dsimp only
  by_cases hshape : f.shape.hasRest = true
  · have hlist : (rest.isNil || rest.isPair) = true := by
      rcases hrest.chain.nil_or_pair with rfl | ⟨q, rfl⟩ <;> rfl
    rw [if_pos hshape, if_pos hlist, if_pos hshape]
    simp
  · rw [if_neg hshape] at htakes
    rw [← htakes, List.drop_length] at hrest
    cases hrest
    rw [if_neg hshape, if_neg hshape, ← htakes]
    simp [Value.isNil]

/-- A proper list that the callable does not take has no frame. -/
theorem makeFrame_of_not_takes (hv : s.store.Chain xs .nil v)
    (htakes : ¬ f.shape.Takes xs.length) :
    E.makeFrame f v s = .halt (.failed { cause := .arity f.signature }) s := by
  by_cases hshort : xs.length < f.shape.required
  · exact bind_of_ok (takeItems_of_short hv hshort)
  obtain ⟨rest, hrest, htake⟩ :=
    takeItems_of_chain (E := E) [] hv (Nat.le_of_not_lt hshort)
  rw [makeFrame, bind_of_ok htake]
  unfold Shape.Takes at htakes
  dsimp only
  by_cases hshape : f.shape.hasRest = true
  · rw [if_pos hshape] at htakes
    exact absurd (Nat.le_of_not_lt hshort) htakes
  · -- More than it takes, so there is something after the required ones.
    rw [if_neg hshape] at htakes
    have hne : xs.drop f.shape.required ≠ [] := by
      rw [Ne, List.drop_eq_nil_iff]
      omega
    obtain ⟨x, ys, hys⟩ := List.exists_cons_of_ne_nil hne
    rw [hys] at hrest
    obtain ⟨q, d, rfl, -⟩ := hrest
    rw [if_neg hshape]
    rfl

/-- The frame of a callable with a rest: the rest is the remainder of the list. -/
theorem makeFrame_of_rest {own : Ref .cell → Prop} (hshape : f.shape.hasRest = true)
    (hv : s.store.Owned own xs v) (hlength : f.shape.required ≤ xs.length) :
    ∃ rest, s.store.Owned own (xs.drop f.shape.required) rest ∧
      E.makeFrame f v s = .ok (xs.take f.shape.required ++ [rest]) s := by
  have htakes : f.shape.Takes xs.length := by rwa [Shape.Takes, if_pos hshape]
  obtain ⟨rest, hrest, hmake⟩ := makeFrame_of_takes (E := E) hv htakes
  rw [if_pos hshape] at hmake
  exact ⟨rest, hrest, hmake⟩

/-- The frame of a callable that takes exactly the items is the items. -/
theorem makeFrame_of_fixed (hshape : f.shape = .fixed xs.length) (hv : s.store.Chain xs .nil v) :
    E.makeFrame f v s = .ok xs s := by
  have htakes : f.shape.Takes xs.length := by
    rw [hshape]
    rfl
  obtain ⟨rest, -, hmake⟩ := makeFrame_of_takes (E := E) hv.owned htakes
  rw [hmake, hshape]
  simp [Shape.fixed]

end Engine

end SmallLisp
