import Mathlib.Data.Fintype.Pigeonhole
import SmallLisp.Proofs.Chain

/-!
# Telling proper lists

The tails of a list can be overwritten at will, so following them from a value can lead to nil, to
something that is neither nil nor a pair, or round and round. `Store.toList?` gives up after one
cell more than there are. A list that goes through more cells than there are has been at one of them
twice, and a list that comes back to a cell never ends; so nothing is given up that ends in nil.
-/

namespace SmallLisp.Store

/-- A pair is one of the cells. -/
def HasCell (s : Store) (v : Value) : Prop := ∀ r, v = .pair r → r.index < s.cells.size

/-- Every tail that is a pair is one of the cells. -/
def TailsHaveCells (s : Store) : Prop := ∀ c ∈ s.cells.toList, s.HasCell c.cdr

theorem TailsHaveCells.cdr {s : Store} {r : Ref .cell} {c : Cell} (hs : s.TailsHaveCells)
    (hc : s.cell? r = some c) : s.HasCell c.cdr :=
  hs c (Array.mem_toList_iff.2 (Array.mem_of_getElem? hc))

variable {s : Store} {xs ys zs : List Value} {v w tail : Value} {r : Ref .cell}

/-! ## Parts of a chain -/

theorem Chain.exists_mid (h : s.Chain (xs ++ ys) tail v) :
    ∃ mid, s.Chain xs mid v ∧ s.Chain ys tail mid := by
  induction xs generalizing v with
  | nil => exact ⟨v, rfl, h⟩
  | cons x xs ih =>
      obtain ⟨r, d, rfl, hr, hd⟩ := h
      obtain ⟨mid, hx, hy⟩ := ih hd
      exact ⟨mid, ⟨r, d, rfl, hr, hx⟩, hy⟩

/-- As many items lead to one value only. -/
theorem Chain.tail_unique {tail' : Value} (h : s.Chain xs tail v) (h' : s.Chain ys tail' v)
    (hlength : xs.length = ys.length) : tail = tail' := by
  induction xs generalizing ys v with
  | nil =>
      cases List.length_eq_zero_iff.1 hlength.symm
      exact h.symm.trans h'
  | cons x xs ih =>
      cases ys with
      | nil => cases hlength
      | cons y ys =>
          obtain ⟨r, d, rfl, hr, hd⟩ := h
          obtain ⟨r', d', hsame, hr', hd'⟩ := h'
          cases hsame
          cases hr.symm.trans hr'
          exact ih hd hd' (Nat.succ.inj hlength)

/-- What a proper list leads to is a proper list. -/
theorem Chain.exists_rest (hv : s.Chain ys .nil v) (h : s.Chain xs w v) :
    ∃ zs, ys = xs ++ zs ∧ s.Chain zs .nil w := by
  induction xs generalizing ys v with
  | nil =>
      cases h
      exact ⟨ys, rfl, hv⟩
  | cons x xs ih =>
      obtain ⟨r, d, rfl, hr, hd⟩ := h
      cases ys with
      | nil => cases hv
      | cons y ys =>
          obtain ⟨r', d', hr', hc', hd'⟩ := hv
          cases hr'
          cases hr.symm.trans hc'
          obtain ⟨zs, rfl, hz⟩ := ih hd' hd
          exact ⟨zs, rfl, hz⟩

/-- The cell that a chain goes through after some of its items. -/
theorem Chain.exists_cell (h : s.Chain xs tail v) {i : Nat} (hi : i < xs.length) :
    ∃ r, r.index < s.cells.size ∧ s.Chain (xs.take i) (.pair r) v ∧
      s.Chain (xs.drop i) tail (.pair r) := by
  rw [← xs.take_append_drop i] at h
  obtain ⟨mid, hfront, hback⟩ := h.exists_mid
  rw [List.drop_eq_getElem_cons hi] at hback
  obtain ⟨r, d, rfl, hr, hd⟩ := hback
  refine ⟨r, lt_of_cell? hr, hfront, ?_⟩
  rw [List.drop_eq_getElem_cons hi]
  exact ⟨r, d, rfl, hr, hd⟩

/-! ## Chains that are too long -/

/-- A chain longer than there are cells goes through one of them twice. -/
theorem Chain.exists_loop (h : s.Chain xs tail v) (hlong : s.cells.size < xs.length) :
    ∃ ys zs r, zs ≠ [] ∧ s.Chain ys (.pair r) v ∧ s.Chain zs (.pair r) (.pair r) := by
  choose cell hlt hfront hback using fun i : Fin xs.length => h.exists_cell i.isLt
  obtain ⟨i, j, hne, hsame⟩ := Fintype.exists_ne_map_eq_of_card_lt
    (fun i => (⟨(cell i).index, hlt i⟩ : Fin s.cells.size)) (by simpa using hlong)
  have hcell : cell i = cell j := by
    cases hi : cell i
    cases hj : cell j
    simpa [hi, hj] using hsame
  wlog hij : i < j generalizing i j
  · exact this j i hne.symm hsame.symm hcell.symm
      (lt_of_le_of_ne (not_lt.1 hij) hne.symm)
  -- The stretch of the chain from the one place to the other ends in the cell that it began in.
  have hstretch := hback i
  rw [← (xs.drop i).take_append_drop (j - i)] at hstretch
  obtain ⟨mid, hloop, -⟩ := hstretch.exists_mid
  have hmid : mid = .pair (cell j) := by
    refine ((hfront i).append hloop).tail_unique (hfront j) ?_
    simp only [List.length_append, List.length_take, List.length_drop]
    omega
  rw [hmid, hcell] at hloop
  refine ⟨_, _, cell j, ?_, hfront j, hloop⟩
  rw [Ne, List.take_eq_nil_iff, List.drop_eq_nil_iff]
  omega

/-- A proper list does not come back to a cell that it went through. -/
theorem Chain.not_loop (hv : s.Chain xs .nil v) (hy : s.Chain ys (.pair r) v)
    (hz : s.Chain zs (.pair r) (.pair r)) : zs = [] := by
  obtain ⟨us, -, hu⟩ := hv.exists_rest hy
  have heq := (hz.append hu).unique hu
  simpa using heq

/-- A proper list has no more items than there are cells. -/
theorem Chain.length_le (h : s.Chain xs .nil v) : xs.length ≤ s.cells.size := by
  by_contra hlong
  obtain ⟨ys, zs, r, hne, hy, hz⟩ := h.exists_loop (not_le.1 hlong)
  exact hne (h.not_loop hy hz)

/-! ## Collecting items -/

theorem collect?_of_chain {fuel : Nat} (h : s.Chain xs .nil v) (hfuel : xs.length ≤ fuel) :
    s.collect? fuel v = some xs := by
  induction xs generalizing fuel v with
  | nil =>
      cases h
      simp [collect?]
  | cons x xs ih =>
      obtain ⟨r, d, rfl, hr, hd⟩ := h
      obtain ⟨fuel, rfl⟩ : ∃ n, fuel = n + 1 :=
        Nat.exists_eq_succ_of_ne_zero (Nat.ne_zero_of_lt hfuel)
      rw [collect?, cdr_of_cell? hr, car_of_cell? hr, ih hd (Nat.le_of_succ_le_succ hfuel),
        Option.map_some]

theorem exists_cell? (h : s.HasCell (.pair r)) : ∃ c, s.cell? r = some c :=
  ⟨_, Array.getElem?_eq_getElem (h r rfl)⟩

/-- If the items are collected, they are those of a proper list. -/
theorem chain_of_collect? (hs : s.TailsHaveCells) (hv : s.HasCell v) {fuel : Nat}
    (h : s.collect? fuel v = some xs) : s.Chain xs .nil v := by
  induction fuel generalizing v xs with
  | zero => cases v <;> simp_all [collect?, Chain]
  | succ fuel ih =>
      cases v with
      | nil =>
          simp only [collect?, Option.some.injEq] at h
          subst h
          rfl
      | pair r =>
          obtain ⟨c, hc⟩ := exists_cell? hv
          rw [collect?, cdr_of_cell? hc, car_of_cell? hc, Option.map_eq_some_iff] at h
          obtain ⟨ys, hy, rfl⟩ := h
          exact ⟨r, c.cdr, rfl, hc, ih (hs.cdr hc) hy⟩
      | _ => cases h

/-- Following the tails through so many cells leads to nil before that, or to something else that is
no pair, or through all of them. -/
theorem chain_cases (hs : s.TailsHaveCells) (hv : s.HasCell v) (fuel : Nat) :
    (∃ xs, s.Chain xs .nil v) ∨ (∃ xs tail, s.Chain xs tail v ∧ tail ≠ .nil ∧ tail.isPair = false) ∨
      ∃ xs tail, s.Chain xs tail v ∧ xs.length = fuel := by
  induction fuel generalizing v with
  | zero => exact .inr (.inr ⟨[], v, rfl, rfl⟩)
  | succ fuel ih =>
      cases v with
      | nil => exact .inl ⟨[], rfl⟩
      | pair r =>
          obtain ⟨c, hc⟩ := exists_cell? hv
          have hcons : ∀ {xs tail}, s.Chain xs tail c.cdr → s.Chain (c.car :: xs) tail (.pair r) :=
            fun h => ⟨r, c.cdr, rfl, hc, h⟩
          rcases ih (hs.cdr hc) with
            ⟨xs, hx⟩ | ⟨xs, tail, hx, hnil, hpair⟩ | ⟨xs, tail, hx, hlength⟩
          · exact .inl ⟨_, hcons hx⟩
          · exact .inr (.inl ⟨_, tail, hcons hx, hnil, hpair⟩)
          · exact .inr (.inr ⟨_, tail, hcons hx, congrArg (· + 1) hlength⟩)
      | _ => exact .inr (.inl ⟨[], _, rfl, by simp, rfl⟩)

theorem toList?_eq_some_iff (hs : s.TailsHaveCells) (hv : s.HasCell v) :
    s.toList? v = some xs ↔ s.Chain xs .nil v :=
  ⟨chain_of_collect? hs hv, fun h => collect?_of_chain h (Nat.le_succ_of_le h.length_le)⟩

/-- Nothing is collected exactly from what ends in something else than nil, or comes back to a cell
that it went through. -/
theorem toList?_eq_none_iff (hs : s.TailsHaveCells) (hv : s.HasCell v) :
    s.toList? v = none ↔
      (∃ xs tail, s.Chain xs tail v ∧ tail ≠ .nil ∧ tail.isPair = false) ∨
      ∃ ys zs r, zs ≠ [] ∧ s.Chain ys (.pair r) v ∧ s.Chain zs (.pair r) (.pair r) := by
  have hnone : s.toList? v = none ↔ ∀ xs, ¬ s.Chain xs .nil v := by
    simp only [Option.eq_none_iff_forall_ne_some, Ne, toList?_eq_some_iff hs hv]
  rw [hnone]
  constructor
  · intro hproper
    rcases chain_cases hs hv (s.cells.size + 1) with ⟨xs, hx⟩ | hother | ⟨xs, tail, hx, hlength⟩
    · exact absurd hx (hproper xs)
    · exact .inl hother
    · exact .inr (hx.exists_loop (by omega))
  · rintro (⟨xs, tail, hx, hnil, hpair⟩ | ⟨ys, zs, r, hne, hy, hz⟩) ws hw
    · obtain ⟨us, -, hu⟩ := hw.exists_rest hx
      rcases hu.nil_or_pair with rfl | ⟨r, rfl⟩
      · exact hnil rfl
      · cases hpair
    · exact hne (hw.not_loop hy hz)

/-! ## Lists that were made -/

/-- A list that there is no room for is not made. -/
theorem consAll_eq_none (reversed : List Value) (tail : Value) (hsize : s.cells.size ≤ s.capacity)
    (hfull : s.capacity < s.cells.size + reversed.length) :
    ∃ t, s.consAll reversed tail = (none, t) ∧ t.capacity = s.capacity := by
  induction reversed generalizing s tail with
  | nil => exact absurd hfull (Nat.not_lt.2 hsize)
  | cons x reversed ih =>
      rw [List.length_cons] at hfull
      rw [consAll, cons]
      by_cases hlt : s.cells.size < s.capacity
      · rw [if_pos hlt]
        exact ih (s := { s with cells := s.cells.push ⟨x, tail⟩ }) _
          (by simp only [Array.size_push]; omega) (by simp only [Array.size_push]; omega)
      · rw [if_neg hlt]
        exact ⟨s, rfl, rfl⟩

theorem toList?_list (vs : List Value) (hroom : s.cells.size + vs.length ≤ s.capacity) :
    ∃ v t, s.list vs = (some v, t) ∧ t.toList? v = some vs := by
  obtain ⟨v, t, hlist, -⟩ := exists_consAll vs.reverse .nil
    (by rw [List.length_reverse]; exact Nat.le_sub_of_add_le' hroom)
  have hchain := (consAll_eq_some hlist).2
  rw [List.reverse_reverse] at hchain
  exact ⟨v, t, hlist, collect?_of_chain hchain (Nat.le_succ_of_le hchain.length_le)⟩

/-- Proper lists are told on every heap. From a value whose cells are there the items are collected
exactly if following the tails leads to nil, and then they are the items on the way, in order. They
are not collected exactly if the way ends in something else, as in a promise, or comes back to a
cell that it went through; there is no third case. Giving up is never too early, since a proper list
has at most as many items as there are cells, all of which it may use. And of a new list that fits
into the store the items are collected that it was made of. -/
theorem proper_lists_decided (s : Store) :
    (s.TailsHaveCells → ∀ v, s.HasCell v → (∀ xs, s.toList? v = some xs ↔ s.Chain xs .nil v) ∧
      (s.toList? v = none ↔
        (∃ xs tail, s.Chain xs tail v ∧ tail ≠ .nil ∧ tail.isPair = false) ∨
        ∃ ys zs r, zs ≠ [] ∧ s.Chain ys (.pair r) v ∧ s.Chain zs (.pair r) (.pair r))) ∧
    (∀ v xs, s.Chain xs .nil v → xs.length ≤ s.cells.size) ∧
    ∀ vs, s.cells.size + vs.length ≤ s.capacity →
      ∃ v t, s.list vs = (some v, t) ∧ t.toList? v = some vs :=
  ⟨fun hs _ hv => ⟨fun _ => toList?_eq_some_iff hs hv, toList?_eq_none_iff hs hv⟩,
    fun _ _ h => h.length_le, fun vs => toList?_list vs⟩

/-- A store that is full, with a list through all of its cells. -/
def full : Store where
  capacity := 3
  cells := #[⟨.int 1, .pair ⟨2⟩⟩, ⟨.int 3, .nil⟩, ⟨.int 2, .pair ⟨1⟩⟩]

/-- The list through all cells is told to be proper, and no longer is when its end leads back to its
second cell. An empty store of the same capacity has room for a list of as many items. -/
theorem proper_lists_decided_full :
    let items := [Value.int 1, .int 2, .int 3]
    let looped := full.setCdr ⟨1⟩ (.pair ⟨2⟩)
    full.TailsHaveCells ∧ full.HasCell (.pair ⟨0⟩) ∧ full.toList? (.pair ⟨0⟩) = some items ∧
      items.length ≤ full.cells.size ∧
      looped.TailsHaveCells ∧ looped.HasCell (.pair ⟨0⟩) ∧ looped.toList? (.pair ⟨0⟩) = none ∧
      ∃ v t, ({ capacity := 3 } : Store).list items = (some v, t) ∧ t.toList? v = some items := by
  intro items looped
  obtain ⟨htold, hlength, -⟩ := proper_lists_decided full
  obtain ⟨hlooped, -, -⟩ := proper_lists_decided looped
  obtain ⟨-, -, hlist⟩ := proper_lists_decided { capacity := 3 }
  have hfull : full.TailsHaveCells := by simp [TailsHaveCells, HasCell, full]
  have hloop : looped.TailsHaveCells := by
    simp [TailsHaveCells, HasCell, looped, setCdr, full]
  have hstart : full.HasCell (.pair ⟨0⟩) := by simp [HasCell, full]
  have hstart' : looped.HasCell (.pair ⟨0⟩) := by simp [HasCell, looped, setCdr, full]
  have hchain : full.Chain items .nil (.pair ⟨0⟩) :=
    ⟨_, _, rfl, rfl, _, _, rfl, rfl, _, _, rfl, rfl, rfl⟩
  refine ⟨hfull, hstart, ((htold hfull _ hstart).1 _).2 hchain, hlength _ _ hchain, hloop, hstart',
    (hlooped hloop _ hstart').2.2 (.inr ?_), hlist items (by decide)⟩
  exact ⟨[.int 1], [.int 2, .int 3], ⟨2⟩, by simp, ⟨_, _, rfl, rfl, rfl⟩,
    _, _, rfl, rfl, _, _, rfl, rfl, rfl⟩

end SmallLisp.Store
