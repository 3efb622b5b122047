import SmallLisp.Number
import Mathlib.Algebra.Ring.Int.Defs

/-!
# Integer arithmetic is exact

Whatever the forms of two integers are, combining them gives the exact result, as a word if it fits
in one. The operations on words are left only for a result that is no word, and what the operations
without bounds give is narrowed.
-/

namespace SmallLisp.Num

/-! ## Narrow integers -/

theorem fits_iff (k : Int) : fits k = true ↔ -2 ^ 63 ≤ k ∧ k ≤ 2 ^ 63 - 1 := by
  have hmin : Int64.minValue.toInt = -2 ^ 63 := by decide
  have hmax : Int64.maxValue.toInt = 2 ^ 63 - 1 := by decide
  rw [fits, decide_eq_true_iff, hmin, hmax]

theorem fits_toInt (n : Int64) : fits n.toInt = true :=
  (fits_iff _).2 ⟨n.le_toInt, Int.le_sub_one_of_lt n.toInt_lt⟩

theorem ofInt_toInt (n : Int64) : ofInt n.toInt = .small n := by
  rw [ofInt, if_pos (fits_toInt n), Int64.ofInt_toInt]

theorem int?_ofInt (k : Int) : (ofInt k).int? = some k := by
  unfold ofInt
  split
  case isTrue hfits =>
    obtain ⟨hmin, hmax⟩ := (fits_iff k).1 hfits
    exact congrArg some (Int64.toInt_ofInt_of_le hmin (Int.lt_of_le_sub_one hmax))
  case isFalse => rfl

/-- The number is the integer, and a word exactly if the integer fits in one. -/
structure Is (a : Num) (k : Int) : Prop where
  int : a.int? = some k
  word_iff : (∃ n, a = .small n) ↔ fits k = true

theorem is_ofInt (k : Int) : (ofInt k).Is k := by
  refine ⟨int?_ofInt k, ?_⟩
  unfold ofInt
  split
  case isTrue hfits => exact iff_of_true ⟨_, rfl⟩ hfits
  case isFalse hfits => exact iff_of_false (by rintro ⟨n, ⟨⟩⟩) hfits

/-- An integer that is narrowed is as any other of its value that is. -/
theorem normalize_of_int {a : Num} {k : Int} (ha : a.int? = some k) : a.normalize = ofInt k := by
  cases a with
  | small n =>
      cases ha
      exact (ofInt_toInt n).symm
  | big n =>
      cases ha
      rfl
  | double x => cases ha

theorem isDouble_of_int {a : Num} {k : Int} (ha : a.int? = some k) : a.isDouble = false := by
  cases a with
  | double x => cases ha
  | _ => rfl

/-! ## Operations -/

variable {a b : Num} {m n : Int}

/-- Integers are combined exactly if the operation on words, where it has a result, agrees with the
one without bounds. -/
theorem combine_of_int {small : Int64 → Int64 → Option Int64} {large : Int → Int → Int}
    {onDoubles : Float → Float → Float}
    (hsmall : ∀ {j k l}, small j k = some l → l.toInt = large j.toInt k.toInt)
    (ha : a.int? = some m) (hb : b.int? = some n) :
    combine small large onDoubles a b = ofInt (large m n) := by
  simp only [combine, ha, hb]
  cases hwords : inWords small a b with
  | none => rfl
  | some l =>
      cases a with
      | small j =>
          cases b with
          | small k =>
              cases ha
              cases hb
              rw [← hsmall hwords, ofInt_toInt]
          | _ => cases hwords
      | _ => cases hwords

theorem add_of_int (ha : a.int? = some m) (hb : b.int? = some n) : a.add b = ofInt (m + n) :=
  combine_of_int Word.toInt_of_add? ha hb

theorem sub_of_int (ha : a.int? = some m) (hb : b.int? = some n) : a.sub b = ofInt (m - n) :=
  combine_of_int Word.toInt_of_sub? ha hb

theorem mul_of_int (ha : a.int? = some m) (hb : b.int? = some n) : a.mul b = ofInt (m * n) :=
  combine_of_int Word.toInt_of_mul? ha hb

theorem neg_of_int (ha : a.int? = some m) : a.neg = ofInt (-m) := by
  rw [neg, sub_of_int rfl ha]
  exact congrArg ofInt (Int.zero_sub m)

/-- The divisor that integers cannot be divided by is zero, in whatever form. -/
theorem isIntZero_of_int (hb : b.int? = some n) : b.isIntZero = decide (n = 0) := by
  rw [Bool.eq_iff_iff]
  simp [isIntZero, hb]

theorem div_of_zero (ha : a.int? = some m) (hb : b.int? = some 0) :
    a.div b = .error .divisionByZero := by
  simp [div, isDouble_of_int ha, isIntZero_of_int hb]

theorem rem_of_zero (ha : a.int? = some m) (hb : b.int? = some 0) :
    a.rem b = .error .divisionByZero := by
  simp [rem, isDouble_of_int ha, isIntZero_of_int hb]

theorem div_of_int (ha : a.int? = some m) (hb : b.int? = some n) (hn : n ≠ 0) :
    a.div b = .ok (ofInt (m.tdiv n)) := by
  simp [div, isIntZero_of_int hb, hn, combine_of_int Word.toInt_of_div? ha hb]

theorem rem_of_int (ha : a.int? = some m) (hb : b.int? = some n) (hn : n ≠ 0) :
    a.rem b = .ok (ofInt (m.tmod n)) := by
  simp [rem, isIntZero_of_int hb, hn, combine_of_int Word.toInt_of_rem? ha hb]

theorem compare_of_int (ha : a.int? = some m) (hb : b.int? = some n) :
    a.compare b = some (Ord.compare m n) := by
  cases a with
  | small j =>
      cases b with
      | small k =>
          cases ha
          cases hb
          exact congrArg some (Word.compare_eq j k)
      | _ => simp only [compare, ha, hb]
  | _ => simp only [compare, ha, hb]

theorem eql_of_int (ha : a.int? = some m) (hb : b.int? = some n) : a.eql b = decide (m = n) := by
  have heql : a.eql b = (a.compare b == some .eq) := by
    cases a with
    | double x => cases ha
    | _ =>
        cases b with
        | double y => cases hb
        | _ => rfl
  rw [heql, compare_of_int ha hb, Bool.eq_iff_iff]
  simp

/-! ## Quotient and remainder -/

/-- The quotient and the remainder of an integer by another that is not zero, rounded toward
zero. -/
structure IsQuotient (m n q r : Int) : Prop where
  eq : m = n * q + r
  small : r.natAbs < n.natAbs
  towardZero : q.natAbs = m.natAbs / n.natAbs
  sign : r = 0 ∨ r.sign = m.sign

theorem isQuotient_tdiv (m : Int) (hn : n ≠ 0) : IsQuotient m n (m.tdiv n) (m.tmod n) where
  eq := (Int.mul_tdiv_add_tmod m n).symm
  small := by
    rw [Int.natAbs_tmod]
    exact Nat.mod_lt _ (Int.natAbs_pos.2 hn)
  towardZero := Int.natAbs_tdiv m n
  sign := by
    rw [Int.sign_tmod]
    split
    case isTrue hdvd => exact .inl (Int.tmod_eq_zero_of_dvd hdvd)
    case isFalse => exact .inr rfl

end SmallLisp.Num
