import SmallLisp.Proofs.Conservation.Integers
import SmallLisp.Proofs.ProperLists

/-!
# Conversions between sequences

A sequence is a proper list, a vector or a string, and a string has the codes of its characters as
elements. A conversion gives a sequence of another kind with the same elements: a new list takes one
cell for each of them, and a string takes codes of characters only. So one conversion undoes
another, and what is found in a sequence does not depend on its kind.
-/

namespace SmallLisp

open Eval

/-! ## Codes of characters -/

/-- The integers that are codes of characters: Unicode has no character for a surrogate, and none
above 0x10FFFF. -/
def IsScalar (k : Int) : Prop := 0 ≤ k ∧ k < 0xD800 ∨ 0xDFFF < k ∧ k < 0x110000

namespace SequenceNative

open Native

variable {v : Value} {c : Char}

theorem isScalar_toNat (c : Char) : IsScalar c.toNat := by
  have hvalid : c.toNat.isValidChar := c.valid
  unfold IsScalar
  unfold Nat.isValidChar at hvalid
  omega

theorem toInt_ofNat_toNat (c : Char) : (Int64.ofNat c.toNat).toInt = c.toNat := by
  have hscalar := isScalar_toNat c
  unfold IsScalar at hscalar
  exact Int64.toInt_ofNat_of_lt (by omega)

theorem charOf?_ofChar (c : Char) : charOf? (ofChar c) = some c := by
  have hvalid : c.toNat.isValidChar := c.valid
  simp only [charOf?, ofChar, toInt_ofNat_toNat, Int.toNat_natCast, hvalid, Char.ofNat_toNat]
  simp

/-- A value stands for the character of which it is the code, and for no other. -/
theorem charOf?_eq_some_iff : charOf? v = some c ↔ v = ofChar c := by
  refine ⟨fun h => ?_, fun h => h ▸ charOf?_ofChar c⟩
  cases v with
  | int n =>
      simp only [charOf?, Option.ite_none_right_eq_some, Option.some.injEq] at h
      obtain ⟨⟨hpos, hvalid⟩, rfl⟩ := h
      rw [ofChar, Char.toNat_ofNat, if_pos hvalid, Value.int.injEq, ← Int64.toInt_inj,
        Int64.toInt_ofNat_of_lt (by have := n.toInt_lt; omega), Int.toNat_of_nonneg hpos]
  | _ => cases h

/-- The values that stand for characters are the words that are codes. -/
theorem exists_eq_ofChar_iff : (∃ c, v = ofChar c) ↔ ∃ n, v = .int n ∧ IsScalar n.toInt := by
  constructor
  · rintro ⟨c, rfl⟩
    refine ⟨_, rfl, ?_⟩
    rw [toInt_ofNat_toNat]
    exact isScalar_toNat c
  · rintro ⟨n, rfl, hscalar⟩
    unfold IsScalar at hscalar
    have hcode : 0 ≤ n.toInt ∧ n.toInt.toNat.isValidChar := by
      unfold Nat.isValidChar
      omega
    exact ⟨Char.ofNat n.toInt.toNat, charOf?_eq_some_iff.1 (if_pos hcode)⟩

theorem exists_eq_map_ofChar_iff {vs : List Value} :
    (∃ cs : List Char, vs = cs.map ofChar) ↔ ∀ v ∈ vs, ∃ c, v = ofChar c := by
  simpa [Set.mem_range, eq_comm] using Set.ext_iff.1 (Set.range_list_map ofChar) vs

theorem ofChar_injective : Function.Injective ofChar := fun c d h => by
  have hsame := charOf?_ofChar c
  rw [h, charOf?_ofChar] at hsame
  exact (Option.some.inj hsame).symm

/-- In a tidy state an integer that fits in a word is one. -/
theorem exists_word_iff {s : State} (hs : s.Tidy) (hv : s.bounds.Holds v) {k : Int}
    (hk : Num.fits k = true) :
    (∃ n, v = .int n ∧ n.toInt = k) ↔ s.store.integer? v = some k := by
  constructor
  · rintro ⟨n, rfl, rfl⟩
    rfl
  · intro hint
    obtain ⟨n, rfl⟩ := (hs.int_iff_fits hv hint).2 hk
    exact ⟨n, rfl, Option.some.inj hint⟩

/-- In a tidy state a value stands for a character exactly if it is an integer that is a code. -/
theorem exists_eq_ofChar_iff_of_tidy {s : State} (hs : s.Tidy) (hv : s.bounds.Holds v) :
    (∃ c, v = ofChar c) ↔ ∃ k, s.store.integer? v = some k ∧ IsScalar k := by
  rw [exists_eq_ofChar_iff]
  constructor
  · rintro ⟨n, rfl, hscalar⟩
    exact ⟨_, rfl, hscalar⟩
  · rintro ⟨k, hk, hscalar⟩
    have hfits : Num.fits k = true := by
      rw [Num.fits_iff]
      unfold IsScalar at hscalar
      omega
    obtain ⟨n, hn, rfl⟩ := (exists_word_iff hs hv hfits).2 hk
    exact ⟨n, hn, hscalar⟩

/-- Codes are turned into their characters. -/
theorem charsOf_map (cs reversed : List Char) (s : State) :
    charsOf (cs.map ofChar) reversed s = .ok (reversed.reverse ++ cs) s := by
  induction cs generalizing reversed with
  | nil => simp [charsOf]
  | cons c cs ih => simp [charsOf, charOf?_ofChar, ih]

/-- The first value that is no code is refused. -/
theorem charsOf_of_not {vs : List Value} (h : ∃ v ∈ vs, ¬ ∃ c, v = ofChar c)
    (reversed : List Char) (s : State) : ∃ v ∈ vs, (¬ ∃ c, v = ofChar c) ∧
      charsOf vs reversed s = refuseOn v .characterCode s := by
  induction vs generalizing reversed with
  | nil => simp at h
  | cons v vs ih =>
      rw [charsOf]
      cases hv : charOf? v with
      | none =>
          refine ⟨v, by simp, ?_, rfl⟩
          rintro ⟨c, hc⟩
          rw [charOf?_eq_some_iff.2 hc] at hv
          cases hv
      | some c =>
          have hcode := charOf?_eq_some_iff.1 hv
          have hrest : ∃ v ∈ vs, ¬ ∃ c, v = ofChar c := by
            obtain ⟨w, hw, hno⟩ := h
            exact ⟨w, (List.mem_cons.1 hw).resolve_left fun heq => hno ⟨c, heq ▸ hcode⟩, hno⟩
          obtain ⟨w, hw, hno, hrefuse⟩ := ih hrest (c :: reversed)
          exact ⟨w, List.mem_cons_of_mem _ hw, hno, hrefuse⟩

end SequenceNative

/-! ## Sequences -/

/-- The value is a vector of the elements, or a string of the characters with these codes. -/
inductive Store.Indexed (s : Store) : List Value → Value → Prop
  | vector (r : Ref .vector) : s.Indexed (s.vector r).toList (.vector r)
  | text (r : Ref .text) : s.Indexed ((s.text r).toList.map Native.ofChar) (.text r)

/-- The value is a sequence of the elements. -/
def Store.Elements (s : Store) (xs : List Value) (q : Value) : Prop :=
  s.Chain xs .nil q ∨ s.Indexed xs q

namespace SequenceNative

open Native

/-- Convert a value by a native. -/
def convert (E : Engine) (env : Env) (n : SequenceNative) (q : Value) : Eval Value :=
  (Native.sequences n).call E [q] env

variable {E : Engine} {env : Env} {s : State} {q v : Value} {xs : List Value}

theorem sequenceArg_of_elements (hq : s.store.Elements xs q) (hfuel : xs.length ≤ E.fuel) :
    sequenceArg E q s = .ok xs s := by
  rcases hq with hq | ⟨r⟩ | ⟨r⟩
  · rcases hq.nil_or_pair with rfl | ⟨r, rfl⟩
    · cases hq.unique (show s.store.Chain [] .nil .nil from rfl)
      rfl
    · exact Engine.items_of_chain hq hfuel
  · rfl
  · rfl

variable (env)

/-! ### To vectors -/

/-- A sequence is converted to a vector, in no cells. -/
theorem convert_toVector (hq : s.store.Elements xs q) (hfuel : xs.length ≤ E.fuel) :
    ∃ w t, convert E env .sequenceToVector q s = .ok (.vector w) t ∧
      (t.store.vector w).toList = xs ∧
      t.store.cells = s.store.cells ∧ t.store.capacity = s.store.capacity := by
  have hrun : (Native.sequences .sequenceToVector).run E [q] env s =
      .ok (.vector ⟨s.store.vectors.size⟩)
        (s.mapStore fun st => (st.newVector xs.toArray).2) :=
    bind_of_ok (sequenceArg_of_elements hq hfuel)
  refine ⟨_, _, call_eq_ok.2 hrun, ?_, rfl, rfl⟩
  simp [State.mapStore, Store.newVector, Store.vector]

/-! ### To lists -/

theorem convert_toList_of_chain (hq : s.store.Chain xs .nil q) :
    convert E env .sequenceToList q s = .ok q s := by
  rcases hq.nil_or_pair with rfl | ⟨r, rfl⟩ <;> exact call_eq_ok.2 rfl

theorem run_toList_of_indexed (hq : s.store.Indexed xs q) (hfuel : xs.length ≤ E.fuel) :
    (Native.sequences .sequenceToList).run E [q] env s = Eval.list xs s := by
  have hitems := sequenceArg_of_elements (.inr hq) hfuel
  cases hq with
  | vector r => exact bind_of_ok hitems
  | text r => exact bind_of_ok hitems

/-- With a cell for each element a sequence is converted to a list, and nothing is lost. -/
theorem convert_toList (hq : s.store.Elements xs q) (hfuel : xs.length ≤ E.fuel)
    (hroom : s.store.cells.size + xs.length ≤ s.store.capacity) :
    ∃ l t, convert E env .sequenceToList q s = .ok l t ∧ t.store.Chain xs .nil l := by
  rcases hq with hq | hq
  · exact ⟨q, s, convert_toList_of_chain env hq, hq⟩
  · obtain ⟨l, store, hlist, -⟩ := Store.exists_consAll xs.reverse .nil
      (by rw [List.length_reverse]; exact Nat.le_sub_of_add_le' hroom)
    have hrun : Eval.list xs s = .ok l { s with store } := by
      simp only [Eval.list, Eval.listWithTail, allocCells, Store.listWithTail, hlist]
    refine ⟨l, _, call_eq_ok.2 ((run_toList_of_indexed env hq hfuel).trans hrun), ?_⟩
    have hchain := (Store.consAll_eq_some hlist).2
    rwa [List.reverse_reverse] at hchain

/-- Without them it is not, and that the store is full is what is reported. -/
theorem convert_toList_full (hq : s.store.Indexed xs q) (hfuel : xs.length ≤ E.fuel)
    (hsize : s.store.cells.size ≤ s.store.capacity)
    (hfull : s.store.capacity < s.store.cells.size + xs.length) :
    ∃ t, convert E env .sequenceToList q s =
      .halt (.failed { cause := .storeFull s.store.capacity }) t := by
  obtain ⟨store, hlist, hcapacity⟩ := Store.consAll_eq_none xs.reverse .nil hsize
    (by rwa [List.length_reverse])
  have hrun : (Native.sequences .sequenceToList).run E [q] env s =
      .halt (.failed { cause := .storeFull s.store.capacity }) { s with store } := by
    rw [run_toList_of_indexed env hq hfuel]
    simp only [Eval.list, Eval.listWithTail, allocCells, Store.listWithTail, hlist, hcapacity]
  exact ⟨_, Native.call_of_failed hrun⟩

/-! ### To strings -/

theorem run_toString (hq : s.store.Elements xs q) (hfuel : xs.length ≤ E.fuel)
    (htext : ∀ r, q ≠ .text r) : (Native.sequences .sequenceToString).run E [q] env s =
      (charsOf xs [] >>= fun chars => alloc (·.newText (String.ofList chars))) s := by
  have hitems := sequenceArg_of_elements hq hfuel
  rcases hq with hq | ⟨r⟩ | ⟨r⟩
  · rcases hq.nil_or_pair with rfl | ⟨r, rfl⟩ <;> exact bind_of_ok hitems
  · exact bind_of_ok hitems
  · exact absurd rfl (htext r)

/-- A sequence of codes is converted to the string of their characters, in no cells. -/
theorem convert_toString {cs : List Char} (hq : s.store.Elements (cs.map ofChar) q)
    (hfuel : cs.length ≤ E.fuel) :
    ∃ w t, convert E env .sequenceToString q s = .ok (.text w) t ∧ (t.store.text w).toList = cs ∧
      t.store.cells = s.store.cells ∧ t.store.capacity = s.store.capacity := by
  by_cases htext : ∃ r, q = .text r
  · obtain ⟨r, rfl⟩ := htext
    refine ⟨r, s, call_eq_ok.2 rfl, ?_, rfl, rfl⟩
    rcases hq with hq | hq
    · rcases hq.nil_or_pair with hnil | ⟨_, hpair⟩
      · cases hnil
      · cases hpair
    · generalize hxs : cs.map ofChar = xs at hq
      cases hq
      exact (ofChar_injective.list_map hxs).symm
  · have hrun := run_toString env hq (by rwa [List.length_map])
      fun r hr => htext ⟨r, hr⟩
    rw [bind_of_ok (charsOf_map cs [] s), alloc_apply] at hrun
    refine ⟨_, _, call_eq_ok.2 hrun, ?_, rfl, rfl⟩
    simp [Store.newText, Store.text]

/-- A sequence in which something is no code is refused. -/
theorem convert_toString_refused (hq : s.store.Elements xs q) (hfuel : xs.length ≤ E.fuel)
    (htext : ∀ r, q ≠ .text r) (hno : ∃ x ∈ xs, ¬ ∃ c, x = ofChar c) :
    ∃ x ∈ xs, (¬ ∃ c, x = ofChar c) ∧ ∃ site, convert E env .sequenceToString q s =
      .halt (.failed { cause := .call ("character code expected: " ++ textIn s x) site }) s := by
  obtain ⟨x, hx, hcode, hrefuse⟩ := charsOf_of_not hno [] s
  have hrun : (Native.sequences .sequenceToString).run E [q] env s =
      refuseOn x .characterCode s := by
    rw [run_toString env hq hfuel htext, bind_of_halt hrefuse]
    rfl
  exact ⟨x, hx, hcode, _, Native.call_of_failed hrun⟩

/-- The elements of a string are the codes of its characters. -/
theorem elements_text {r : Ref .text} (hq : s.store.Elements xs (.text r)) :
    xs = (s.store.text r).toList.map ofChar := by
  rcases hq with hq | ⟨r⟩ | ⟨r⟩
  · rcases hq.nil_or_pair with hnil | ⟨_, hpair⟩
    · cases hnil
    · cases hpair
  · rfl

/-- Only a sequence of codes is converted to a string. -/
theorem isOk_convert_toString (hq : s.store.Elements xs q) (hfuel : xs.length ≤ E.fuel) :
    (convert E env .sequenceToString q s).isOk = true ↔ ∃ cs : List Char, xs = cs.map ofChar := by
  constructor
  · intro hok
    by_cases htext : ∃ r, q = .text r
    · obtain ⟨r, rfl⟩ := htext
      exact ⟨_, elements_text hq⟩
    · by_contra hno
      have hsome : ∃ x ∈ xs, ¬ ∃ c, x = ofChar c := by
        by_contra hall
        exact hno (exists_eq_map_ofChar_iff.2 fun x hx => by_contra fun hc => hall ⟨x, hx, hc⟩)
      obtain ⟨x, -, -, site, hrefused⟩ := convert_toString_refused env hq hfuel
        (fun r hr => htext ⟨r, hr⟩) hsome
      rw [hrefused] at hok
      cases hok
  · rintro ⟨cs, rfl⟩
    obtain ⟨w, t, hconvert, -⟩ := convert_toString (E := E) env hq
      (by rwa [List.length_map] at hfuel)
    rw [hconvert]
    rfl

variable {env}

/-! ### Lengths and items -/

theorem lengthOf_of_elements (hq : s.store.Elements xs q) (hfuel : xs.length ≤ E.fuel) :
    ListNative.lengthOf E q s = .ok xs.length s := by
  rcases hq with hq | ⟨r⟩ | ⟨r⟩
  · have hitems := Engine.items_of_chain hq hfuel
    rcases hq.nil_or_pair with rfl | ⟨r, rfl⟩ <;> exact bind_of_ok hitems
  · rfl
  · rw [List.length_map, String.length_toList]
    rfl

theorem call_length (hq : s.store.Elements xs q) (hfuel : xs.length ≤ E.fuel) :
    (Native.lists .length).call E [q] env s = .ok (.int (Int64.ofNat xs.length)) s :=
  call_eq_ok.2 (bind_of_ok (lengthOf_of_elements hq hfuel))

theorem itemAt?_of_indexed (hq : s.store.Indexed xs q) (i : Nat) :
    VectorNative.itemAt? s.store q i = xs[i]? := by
  cases hq with
  | vector r => exact Array.getElem?_toList.symm
  | text r => exact List.getElem?_map.symm

theorem indexArg_eq_ok {k : Nat} {t : State} :
    indexArg v s = .ok k t ↔ t = s ∧ ∃ n, v = .int n ∧ n.toInt = k := by
  constructor
  · intro h
    cases v with
    | int n =>
        by_cases hpos : 0 ≤ n.toInt
        · simp only [indexArg, if_pos hpos, pure_apply, Outcome.ok.injEq] at h
          obtain ⟨rfl, rfl⟩ := h
          exact ⟨rfl, n, rfl, (Int.toNat_of_nonneg hpos).symm⟩
        · simp only [indexArg, if_neg hpos] at h
          cases h
    | _ => cases h
  · rintro ⟨rfl, n, rfl, hn⟩
    simp only [indexArg, hn, Int.toNat_natCast, Int.natCast_nonneg, if_true, pure_apply]

/-- Where there is an index, what is found is the element there. -/
theorem run_aref_of_index {i : Value} {k : Nat} (hq : s.store.Indexed xs q)
    (hindex : indexArg i s = .ok k s) :
    (Native.vectors .aref).run E [q, i] env s =
      xs[k]?.elim (refuse (.outOfRange k)) pure s := by
  rw [← itemAt?_of_indexed hq]
  cases hq
  all_goals
    refine (bind_of_ok hindex).trans ((bind_of_ok (gets_apply _ s)).trans ?_)
    cases VectorNative.itemAt? s.store _ k <;> rfl

theorem exists_index_of_aref {i x : Value} {t : State} (hq : s.store.Indexed xs q)
    (h : (Native.vectors .aref).run E [q, i] env s = .ok x t) :
    ∃ k, indexArg i s = .ok k s := by
  obtain ⟨k, u, hindex⟩ : ∃ k u, indexArg i s = .ok k u := by
    cases hq
    all_goals
      obtain ⟨k, u, hindex, -⟩ := bind_eq_ok.1 h
      exact ⟨k, u, hindex⟩
  obtain ⟨rfl, -⟩ := indexArg_eq_ok.1 hindex
  exact ⟨k, hindex⟩

/-- In a vector or a string something is found at an index exactly if it is the element there. -/
theorem call_aref_eq_ok {i x : Value} {t : State} (hq : s.store.Indexed xs q) :
    (Native.vectors .aref).call E [q, i] env s = .ok x t ↔
      t = s ∧ ∃ n k, i = .int n ∧ n.toInt = (k : Nat) ∧ xs[k]? = some x := by
  rw [call_eq_ok]
  constructor
  · intro h
    obtain ⟨k, hindex⟩ := exists_index_of_aref hq h
    obtain ⟨-, n, rfl, hn⟩ := indexArg_eq_ok.1 hindex
    rw [run_aref_of_index hq hindex] at h
    cases hk : xs[k]? with
    | none =>
        rw [hk] at h
        cases h
    | some y =>
        rw [hk] at h
        cases h
        exact ⟨rfl, n, k, rfl, hn, hk⟩
  · rintro ⟨rfl, n, k, rfl, hn, hk⟩
    rw [run_aref_of_index hq (indexArg_eq_ok.2 ⟨rfl, n, rfl, hn⟩), hk]
    rfl

theorem holds_of_chain (hs : s.Sound) (hq : s.store.Chain xs .nil q) :
    ∀ x ∈ xs, s.bounds.Holds x := by
  induction xs generalizing q with
  | nil => simp
  | cons x xs ih =>
      obtain ⟨r, d, -, hr, hd⟩ := hq
      exact List.forall_mem_cons.2 ⟨(hs.points.cells _ _ hr).1, ih hd⟩

/-- The elements of a sequence are references in range. -/
theorem holds_of_elements (hs : s.Sound) (hq : s.store.Elements xs q) :
    ∀ x ∈ xs, s.bounds.Holds x := by
  rcases hq with hq | ⟨r⟩ | ⟨r⟩
  · exact holds_of_chain hs hq
  · intro x hx
    have hlt : r.index < s.store.vectors.size := by
      by_contra hout
      have hnone : s.store.vectors[r.index]? = none := Array.getElem?_eq_none (not_lt.1 hout)
      simp [Store.vector, hnone] at hx
    exact hs.points.vectors _ _ (getElem?_of_lt hlt #[]) x hx
  · intro x hx
    obtain ⟨c, -, rfl⟩ := List.mem_map.1 hx
    exact Bounds.holds_of_none rfl

/-- At an index of a sequence its element is found, at everything else nothing. -/
theorem call_aref_eq_ok_of_tidy (hs : s.Tidy) (hq : s.store.Indexed xs q)
    (hsize : xs.length < 2 ^ 63) {i x : Value} {t : State} (hi : s.bounds.Holds i) :
    (Native.vectors .aref).call E [q, i] env s = .ok x t ↔
      t = s ∧ ∃ k : Nat, s.store.integer? i = some (k : Int) ∧ xs[k]? = some x := by
  rw [call_aref_eq_ok hq]
  refine and_congr_right fun _ => ?_
  rw [exists_comm]
  refine exists_congr fun k => ?_
  constructor
  · rintro ⟨n, rfl, hn, hx⟩
    exact ⟨congrArg some hn, hx⟩
  · rintro ⟨hk, hx⟩
    have hlt := (List.getElem?_eq_some_iff.1 hx).1
    have hfits : Num.fits k = true := by
      rw [Num.fits_iff]
      omega
    obtain ⟨n, hn, hnk⟩ := (exists_word_iff hs hi hfits).2 hk
    exact ⟨n, hn, hnk, hx⟩

theorem isOk_aref (hs : s.Tidy) (hq : s.store.Indexed xs q) (hsize : xs.length < 2 ^ 63)
    {i : Value} (hi : s.bounds.Holds i) :
    ((Native.vectors .aref).call E [q, i] env s).isOk = true ↔
      ∃ k, s.store.integer? i = some k ∧ 0 ≤ k ∧ k < xs.length := by
  constructor
  · intro hok
    obtain ⟨x, t, hx⟩ := Outcome.exists_of_isOk hok
    obtain ⟨-, k, hk, hx⟩ := (call_aref_eq_ok_of_tidy hs hq hsize hi).1 hx
    exact ⟨k, hk, by omega, by exact_mod_cast (List.getElem?_eq_some_iff.1 hx).1⟩
  · rintro ⟨k, hk, hpos, hlt⟩
    obtain ⟨k, rfl⟩ := Int.eq_ofNat_of_zero_le hpos
    have hx := List.getElem?_eq_getElem (Int.ofNat_lt.1 hlt)
    rw [(call_aref_eq_ok_of_tidy hs hq hsize hi).2 ⟨rfl, k, hk, hx⟩]
    rfl

/-! ### There and back -/

theorem indexed_vector {r : Ref .vector} (h : (s.store.vector r).toList = xs) :
    s.store.Indexed xs (.vector r) := h ▸ .vector r

theorem indexed_text {cs : List Char} {r : Ref .text} (h : (s.store.text r).toList = cs) :
    s.store.Indexed (cs.map ofChar) (.text r) := h ▸ .text r

/-- What is converted to a string comes from the codes of its characters, and is then a string of
them. -/
theorem indexed_of_convert_toString {w : Value} {t : State} (hq : s.store.Elements xs q)
    (hfuel : xs.length ≤ E.fuel) (h : convert E env .sequenceToString q s = .ok w t) :
    t.store.Indexed xs w ∧ t.store.cells = s.store.cells ∧ t.store.capacity = s.store.capacity := by
  have hok : (convert E env .sequenceToString q s).isOk = true := by
    rw [h]
    rfl
  obtain ⟨cs, rfl⟩ := (isOk_convert_toString env hq hfuel).1 hok
  obtain ⟨w', t', h', htext, hkept⟩ := convert_toString (E := E) env hq
    (by rwa [List.length_map] at hfuel)
  cases h.symm.trans h'
  exact ⟨indexed_text htext, hkept⟩

/-- From the codes of its characters a string is made again. -/
theorem convert_toString_of_text (env : Env) {r : Ref .text} {t : State}
    (hq : t.store.Elements ((s.store.text r).toList.map ofChar) q)
    (hfuel : ((s.store.text r).toList.map ofChar).length ≤ E.fuel) :
    ∃ w u, convert E env .sequenceToString q t = .ok (.text w) u ∧
      u.store.text w = s.store.text r := by
  obtain ⟨w, u, hw, htext, -⟩ := convert_toString (E := E) env hq
    (by rwa [List.length_map] at hfuel)
  exact ⟨w, u, hw, String.toList_inj.1 htext⟩

/-- What the conversions make of a sequence of these elements, and what is found in it. Lengths are
words, as with addresses of 64 bits no sequence has 2 ^ 63 elements. -/
structure Converts (E : Engine) (env : Env) (s : State) (xs : List Value) (q : Value) : Prop where
  /-- A string comes back from the vector of its codes, with its text. -/
  text_vector : ∀ r, q = .text r → ∃ w t,
    (convert E env .sequenceToVector q >>= convert E env .sequenceToString) s = .ok (.text w) t ∧
      t.store.text w = s.store.text r
  /-- And from the list of them, if there are cells for it. -/
  text_list : s.store.cells.size + xs.length ≤ s.store.capacity → ∀ r, q = .text r → ∃ w t,
    (convert E env .sequenceToList q >>= convert E env .sequenceToString) s = .ok (.text w) t ∧
      t.store.text w = s.store.text r
  /-- A vector comes back from a list, with its elements. -/
  vector_list : s.store.cells.size + xs.length ≤ s.store.capacity → ∀ r, q = .vector r → ∃ w t,
    (convert E env .sequenceToList q >>= convert E env .sequenceToVector) s = .ok (.vector w) t ∧
      (t.store.vector w).toList = xs
  /-- A list comes back from a vector. -/
  list_vector : s.store.cells.size + xs.length ≤ s.store.capacity → s.store.Chain xs .nil q →
    ∃ l t, (convert E env .sequenceToVector q >>= convert E env .sequenceToList) s = .ok l t ∧
      t.store.Chain xs .nil l
  /-- There is a string of the elements exactly if each is a code. -/
  text_iff : (convert E env .sequenceToString q s).isOk = true ↔
    ∀ x ∈ xs, ∃ k, s.store.integer? x = some k ∧ IsScalar k
  /-- From the string the vector of them comes back. -/
  vector_text : ∀ w t, convert E env .sequenceToString q s = .ok w t → ∃ v u,
    convert E env .sequenceToVector w t = .ok (.vector v) u ∧ (u.store.vector v).toList = xs
  /-- And the list, if there are cells for it. -/
  list_text : s.store.cells.size + xs.length ≤ s.store.capacity →
    ∀ w t, convert E env .sequenceToString q s = .ok w t → ∃ l u,
      convert E env .sequenceToList w t = .ok l u ∧ u.store.Chain xs .nil l
  /-- What is converted to a list has the elements as items. -/
  list : s.store.cells.size + xs.length ≤ s.store.capacity → ∃ l t,
    convert E env .sequenceToList q s = .ok l t ∧ t.store.Chain xs .nil l
  /-- A vector or a string without cells for it is not converted to a list. -/
  list_full : s.store.Indexed xs q → s.store.capacity < s.store.cells.size + xs.length → ∃ t,
    convert E env .sequenceToList q s =
      .halt (.failed { cause := .storeFull s.store.capacity }) t
  /-- The length is the number of elements. -/
  length : xs.length < 2 ^ 63 → ∃ n,
    (Native.lists .length).call E [q] env s = .ok (.int n) s ∧ n.toInt = xs.length
  /-- Something is found in a vector or a string exactly at the integers below its length. -/
  aref_iff : s.store.Indexed xs q → xs.length < 2 ^ 63 → ∀ i, s.bounds.Holds i →
    (((Native.vectors .aref).call E [q, i] env s).isOk = true ↔
      ∃ k, s.store.integer? i = some k ∧ 0 ≤ k ∧ k < xs.length)
  /-- It is the element there. -/
  aref : s.store.Indexed xs q → xs.length < 2 ^ 63 → ∀ i, s.bounds.Holds i → ∀ k : Nat,
    s.store.integer? i = some (k : Int) → ∀ h : k < xs.length,
      (Native.vectors .aref).call E [q, i] env s = .ok xs[k] s

/-- Conversions between sequences undo one another. In every tidy state, whatever the elements are:
a string comes back from the list and from the vector of its codes, a list from a vector and a
vector from a list. There is a string of a list or a vector exactly if every element is an integer
that is a code, and from it the elements come back. The length, what is found at an index and the
items of the list are the same for all of them. Only a new list takes cells, one for each
element. -/
theorem conversions_inverse (hs : s.Tidy) (hq : s.store.Elements xs q)
    (hfuel : xs.length ≤ E.fuel) : Converts E env s xs q := by
  refine ⟨?text_vector, ?text_list, ?vector_list, ?list_vector, ?text_iff, ?vector_text, ?list_text,
    convert_toList env hq hfuel, fun hq' => convert_toList_full env hq' hfuel hs.sound.room,
    ?length, fun hq' hsize i hi => isOk_aref hs hq' hsize hi, ?aref⟩
  case text_vector =>
    rintro r rfl
    obtain ⟨v, t, hv, hitems, -⟩ := convert_toVector env hq hfuel
    obtain rfl := elements_text hq
    obtain ⟨w, u, hw, htext⟩ := convert_toString_of_text env
      (.inr (indexed_vector hitems)) hfuel
    exact ⟨w, u, (bind_of_ok hv).trans hw, htext⟩
  case text_list =>
    rintro hroom r rfl
    obtain ⟨l, t, hl, hchain⟩ := convert_toList env hq hfuel hroom
    obtain rfl := elements_text hq
    obtain ⟨w, u, hw, htext⟩ := convert_toString_of_text env (.inl hchain) hfuel
    exact ⟨w, u, (bind_of_ok hl).trans hw, htext⟩
  case vector_list =>
    rintro hroom r rfl
    obtain ⟨l, t, hl, hchain⟩ := convert_toList env hq hfuel hroom
    obtain ⟨w, u, hw, hitems, -⟩ := convert_toVector env (.inl hchain) hfuel
    exact ⟨w, u, (bind_of_ok hl).trans hw, hitems⟩
  case list_vector =>
    intro hroom hchain
    obtain ⟨v, t, hv, hitems, hcells, hcapacity⟩ := convert_toVector env hq hfuel
    obtain ⟨l, u, hl, hlist⟩ := convert_toList env (.inr (indexed_vector hitems)) hfuel
      (by rwa [hcells, hcapacity])
    exact ⟨l, u, (bind_of_ok hv).trans hl, hlist⟩
  case text_iff =>
    rw [isOk_convert_toString env hq hfuel, exists_eq_map_ofChar_iff]
    exact forall₂_congr fun x hx =>
      exists_eq_ofChar_iff_of_tidy hs (holds_of_elements hs.sound hq x hx)
  case vector_text =>
    intro w t hw
    obtain ⟨hindexed, -⟩ := indexed_of_convert_toString hq hfuel hw
    obtain ⟨v, u, hv, hitems, -⟩ := convert_toVector env (.inr hindexed) hfuel
    exact ⟨v, u, hv, hitems⟩
  case list_text =>
    intro hroom w t hw
    obtain ⟨hindexed, hcells, hcapacity⟩ := indexed_of_convert_toString hq hfuel hw
    exact convert_toList env (.inr hindexed) hfuel (by rwa [hcells, hcapacity])
  case length =>
    intro hsize
    exact ⟨_, call_length hq hfuel, Int64.toInt_ofNat_of_lt hsize⟩
  case aref =>
    intro hq' hsize i hi k hk hlt
    exact (call_aref_eq_ok_of_tidy hs hq' hsize hi).2 ⟨rfl, k, hk, List.getElem?_eq_getElem hlt⟩

/-- A store with a list of one promise, a vector of one integer and a string of two characters, and
with room for three cells. -/
def mixed : State := Interpreter.promised.mapStore fun st => (st.newText "é€").2

theorem tidy_mixed : mixed.Tidy :=
  (State.GrowsInto.newText Interpreter.promised "é€").tidy (.newText _) Interpreter.tidy_promised

/-- The string goes to a list or a vector of its codes and back, and the vector to a list and back.
A promise is an element like any other but is no code, so there is no string of the list. -/
theorem conversions_inverse_mixed :
    let E := Engine.ofFuel 3
    let codes := [Value.int 233, .int 8364]
    mixed.Tidy ∧ mixed.store.Elements codes (.text ⟨0⟩) ∧ codes.length ≤ E.fuel ∧
      Converts E none mixed codes (.text ⟨0⟩) ∧
      mixed.store.cells.size + codes.length ≤ mixed.store.capacity ∧
      Converts E none mixed [.int 5] (.vector ⟨0⟩) ∧
      Converts E none mixed [.promise ⟨0⟩] (.pair ⟨0⟩) ∧
      (convert E none .sequenceToString (.pair ⟨0⟩) mixed).isOk = false := by
  intro E codes
  have htext : mixed.store.Elements codes (.text ⟨0⟩) := by
    have hchars : (mixed.store.text ⟨0⟩).toList = ['é', '€'] := by decide +kernel
    exact .inr (indexed_text hchars)
  have hlist : mixed.store.Elements [.promise ⟨0⟩] (.pair ⟨0⟩) := .inl ⟨⟨0⟩, .nil, rfl, rfl, rfl⟩
  have hpromise : Converts E none mixed [.promise ⟨0⟩] (.pair ⟨0⟩) :=
    conversions_inverse tidy_mixed hlist (by decide)
  refine ⟨tidy_mixed, htext, by decide, conversions_inverse tidy_mixed htext (by decide), by decide,
    conversions_inverse tidy_mixed (.inr (.vector ⟨0⟩)) (by decide), hpromise, ?_⟩
  rw [← Bool.not_eq_true, hpromise.text_iff]
  intro hall
  obtain ⟨k, hk, -⟩ := hall _ (List.mem_singleton_self _)
  cases hk

/-- A store with a string of four characters and room for three cells. -/
def crowded : State := Interpreter.promised.mapStore fun st => (st.newText "abcd").2

/-- A list takes cells: there is no list of this string, so none that it could come back from. -/
theorem conversion_needs_room :
    crowded.Tidy ∧ crowded.store.Elements ("abcd".toList.map ofChar) (.text ⟨0⟩) ∧ ∃ t,
      (convert (Engine.ofFuel 4) none .sequenceToList (.text ⟨0⟩) >>=
        convert (Engine.ofFuel 4) none .sequenceToString) crowded =
          .halt (.failed { cause := .storeFull 4 }) t := by
  have htidy : crowded.Tidy :=
    (State.GrowsInto.newText Interpreter.promised "abcd").tidy (.newText _)
      Interpreter.tidy_promised
  have hindexed : crowded.store.Indexed ("abcd".toList.map ofChar) (.text ⟨0⟩) := indexed_text rfl
  obtain ⟨t, hfull⟩ := convert_toList_full (E := Engine.ofFuel 4) none hindexed
    (by decide) htidy.sound.room (by decide)
  exact ⟨htidy, .inr hindexed, t, bind_of_halt hfull⟩

end SequenceNative

end SmallLisp
