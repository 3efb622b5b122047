import SmallLisp.Proofs.Arithmetic.Natives
import SmallLisp.Proofs.Conservation.Interpreter
import SmallLisp.Proofs.Reading.RoundTrip

/-!
# Integers have one form

An integer is a word if it fits in one, and else an entry of the table of wide integers. Since no
entry of that table fits, the form of an integer tells whether it does. Most of what makes integers
narrows them; what is read from text is put into the store as it is, as each literal is narrow
already.
-/

namespace SmallLisp

namespace Store

variable {s : Store} {v w : Value} {j k : Int}

/-- Integers that are the same object denote the same number. -/
theorem eq_of_same (hv : s.integer? v = some j) (hw : s.integer? w = some k)
    (h : v.same w = true) : j = k := by
  rcases integer?_cases hv with ⟨m, rfl, rfl⟩ | ⟨q, rfl, rfl⟩ <;>
    rcases integer?_cases hw with ⟨n, rfl, rfl⟩ | ⟨r, rfl, rfl⟩
  · exact congrArg Int64.toInt (beq_iff_eq.1 h)
  · cases h
  · cases h
  · exact congrArg s.bignum (beq_iff_eq.1 h)

/-- On integers the test for equality within one kind is equality of the numbers. -/
theorem eqlIn_integers (hv : s.integer? v = some j) (hw : s.integer? w = some k) :
    TestNative.eqlIn s v w = decide (j = k) := by
  have heql : TestNative.eqlIn s v w = (v.same w || decide (j = k)) := by
    rcases integer?_cases hv with ⟨m, rfl, rfl⟩ | ⟨q, rfl, rfl⟩ <;>
      rcases integer?_cases hw with ⟨n, rfl, rfl⟩ | ⟨r, rfl, rfl⟩ <;>
      exact congrArg (_ || ·) (Num.eql_of_int rfl rfl)
  rw [heql]
  cases hsame : v.same w with
  | false => rfl
  | true => simp [eq_of_same hv hw hsame]

end Store

/-- In a tidy state an integer is a word exactly if it fits in one. -/
theorem State.Tidy.int_iff_fits {s : State} (hs : s.Tidy) {v : Value} {k : Int}
    (hv : s.bounds.Holds v) (hk : s.store.integer? v = some k) :
    (∃ n, v = .int n) ↔ Num.fits k = true := by
  rcases Store.integer?_cases hk with ⟨n, rfl, rfl⟩ | ⟨r, rfl, rfl⟩
  · exact iff_of_true ⟨n, rfl⟩ (Num.fits_toInt n)
  · have hlt : r.index < s.store.bignums.size := (Bounds.holds_of_ref rfl).1 hv
    have hentry : s.store.bignums[r.index]? = some (s.store.bignum r) := getElem?_of_lt hlt 0
    refine iff_of_false ?_ ?_
    · rintro ⟨n, hn⟩
      cases hn
    · rw [hs.wide _ _ hentry]
      exact Bool.false_ne_true

namespace Interpreter

/-- Integers have one form. Every state that an interpreter goes through is tidy. In a tidy state no
integer that fits in 64 bits is in the table of wide integers. So an integer is a word exactly if it
fits in 64 bits, and `eql` of two integers, however they came about, is true exactly if they are the
same number. The numbers in a form that was read are narrow already, for putting the form into the
store keeps each of them as it is. -/
theorem integers_have_one_form (config : Config) :
    (∀ s, Visited config s → s.Tidy) ∧
    (∀ s : State, s.Tidy →
      (∀ (i : Nat) k, s.store.bignums[i]? = some k → k < -2 ^ 63 ∨ 2 ^ 63 - 1 < k) ∧
      (∀ v k, s.bounds.Holds v → s.store.integer? v = some k →
        ((∃ n, v = .int n) ↔ -2 ^ 63 ≤ k ∧ k ≤ 2 ^ 63 - 1)) ∧
      ∀ E v w j k env, s.store.integer? v = some j → s.store.integer? w = some k →
        (Native.tests .eql).call E [v, w] env s = .ok (.ofBool (decide (j = k))) s) ∧
    ∀ sc src f sc' src', Reader.readForm [] sc src = (.ok (some f), sc', src') →
      ∀ a ∈ f.atoms, a.Narrow := by
  refine ⟨fun s h => h.tidy, fun s hs => ⟨?wide, ?form, ?eql⟩, ?read⟩
  case wide =>
    intro i k hk
    have hfits : ¬ (-2 ^ 63 ≤ k ∧ k ≤ 2 ^ 63 - 1) := by
      rw [← Num.fits_iff, hs.wide i k hk]
      exact Bool.false_ne_true
    omega
  case form =>
    intro v k hv hk
    rw [← Num.fits_iff]
    exact hs.int_iff_fits hv hk
  case eql =>
    intro E v w j k env hv hw
    rw [← Store.eqlIn_integers hv hw]
    rfl
  case read =>
    intro sc src f sc' src' h a ha
    exact (Reader.scanned_readForm Parser.scanned_nil h a ha).narrow

/-- An interpreter has started. In a state with one wide integer this is no word, and `eql` tells it
from a small one and not from itself. The wide integer in a form that was read is kept as it is. -/
theorem integers_have_one_form_wide :
    let started := (start (Engine.ofFuel 0) .bare { answers := [] } {} {}).state
    let s := promised.mapStore fun st => (st.newNumber (.big (2 ^ 63))).2
    let wide := Value.big ⟨0⟩
    Visited .bare started ∧ started.Tidy ∧ s.Tidy ∧ s.store.bignums[0]? = some (2 ^ 63) ∧
      s.bounds.Holds wide ∧ s.store.integer? wide = some (2 ^ 63) ∧ (¬ ∃ n, wide = .int n) ∧
      (Native.tests .eql).call Engine.idle [wide, .int 5] none s = .ok .nil s ∧
      (Native.tests .eql).call Engine.idle [wide, wide] none s = .ok (.sym Symbol.t) s ∧
      (∃ sc src, Reader.readForm [] {}
        (.ofText "(('a . \"x\\n\\x7f\") -9223372036854775809 . [:k nil])") =
          (.ok (some Form.sample), sc, src)) ∧
      ∀ a ∈ Form.sample.atoms, a.Narrow := by
  intro started s wide
  obtain ⟨hvisited, htidy, hread⟩ := integers_have_one_form .bare
  have hstarted : Visited .bare started := .left (.start 0 _ _ _)
  have hs : s.Tidy :=
    (State.GrowsInto.newNumber promised (.big (2 ^ 63))).tidy (.newNumber _) tidy_promised
  obtain ⟨hentries, hform, heql⟩ := htidy s hs
  have hentry : s.store.bignums[0]? = some (2 ^ 63) := by decide
  have hholds : s.bounds.Holds wide := (Bounds.holds_of_ref rfl).2 (by decide)
  have hwide : s.store.integer? wide = some (2 ^ 63) := by decide
  have hword : ¬ ∃ n, wide = .int n := by
    rw [hform wide _ hholds hwide]
    rcases hentries 0 _ hentry with h | h <;> omega
  have htext : "(('a . \"x\\n\\x7f\") -9223372036854775809 . [:k nil])".toList =
      Form.sample.written := by decide +kernel
  obtain ⟨sc, src, hsample, -, -⟩ := Reader.readForm_ofText Form.legible_sample htext
  exact ⟨hstarted, hvisited started hstarted, hs, hentry, hholds, hwide, hword,
    heql Engine.idle wide (.int 5) _ 5 none hwide rfl,
    heql Engine.idle wide wide _ _ none hwide hwide,
    ⟨sc, src, hsample⟩, hread _ _ _ _ _ hsample⟩

end Interpreter

end SmallLisp
