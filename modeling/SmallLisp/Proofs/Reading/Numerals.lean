import Mathlib.Data.List.Forall2
import Mathlib.Data.Nat.Digits.Defs
import SmallLisp.Evaluator
import SmallLisp.Proofs.Arithmetic.Natives
import SmallLisp.Proofs.Conservation.Integers
import SmallLisp.Proofs.Reading.Tokens

/-!
# Integers as they are written

`Numeral` is the grammar of integers: a sign or none, a mark of the radix or none, and digits of
that radix. Its value is that of the digits by their places. Reading a number takes exactly the
texts of this grammar for integers and gives their values, in a word if they fit. Decimal text is
one of the spellings, so an integer that is written is read back.
-/

namespace SmallLisp

namespace Literal

/-! ## The grammar -/

/-- A sign, or none; whether it makes the number negative. -/
inductive Sign : List Char → Bool → Prop
  | none : Sign [] false
  | plus : Sign ['+'] false
  | minus : Sign ['-'] true

/-- A mark of the radix, or none for decimal digits. -/
inductive Mark : List Char → Nat → Prop
  | none : Mark [] 10
  | letter {c : Char} {radix : Nat} :
      (c, radix) ∈ [('b', 2), ('B', 2), ('o', 8), ('O', 8), ('x', 16), ('X', 16)] →
      Mark ['#', c] radix

/-- The character is the digit of the radix with this value, letters in either case. -/
def IsDigit (radix : Nat) (c : Char) (d : Nat) : Prop :=
  d < radix ∧
    ("0123456789abcdef".toList[d]? = some c ∨ "0123456789ABCDEF".toList[d]? = some c)

/-- The text is an integer as it is written, and this is its value. -/
inductive Numeral : List Char → Int → Prop
  | intro {sign mark digits : List Char} {negative : Bool} {radix : Nat} {values : List Nat} :
      Sign sign negative → Mark mark radix → values ≠ [] →
      List.Forall₂ (IsDigit radix) digits values →
      Numeral (sign ++ mark ++ digits)
        (Text.signed negative (Nat.ofDigits radix values.reverse))

theorem Mark.radix_le {mark : List Char} {radix : Nat} (h : Mark mark radix) : radix ≤ 16 := by
  cases h with
  | none => omega
  | letter h =>
      simp only [List.mem_cons, Prod.mk.injEq, List.not_mem_nil, or_false] at h
      omega

/-! ## Digits -/

/-- The rows of digits list the characters that have a value, by their values. -/
theorem digit?_rows {c : Char} {d : Nat} :
    Text.digit? 16 c = some d ↔
      "0123456789abcdef".toList[d]? = some c ∨ "0123456789ABCDEF".toList[d]? = some c := by
  constructor
  · intro h
    have hascii : c.toNat < 123 := by
      by_contra hlarge
      have hnone : Text.digit? 16 c = none := by
        simp [Text.digit?, show ¬ c.toNat ≤ 57 by omega, show ¬ c.toNat ≤ 122 by omega,
          show ¬ c.toNat ≤ 90 by omega]
      rw [hnone] at h
      cases h
    have hall : ∀ n < 123, ∀ d ∈ Text.digit? 16 (Char.ofNat n),
        "0123456789abcdef".toList[d]? = some (Char.ofNat n) ∨
          "0123456789ABCDEF".toList[d]? = some (Char.ofNat n) := by decide
    have hrow := hall c.toNat hascii d
    rw [Char.ofNat_toNat] at hrow
    exact hrow h
  · intro h
    have hd : d < 16 := by
      rcases h with h | h <;> exact (List.getElem?_eq_some_iff.1 h).1
    rcases h with h | h <;> interval_cases d <;> cases h <;> rfl

theorem digit?_eq_some_iff {radix : Nat} (hradix : radix ≤ 16) {c : Char} {d : Nat} :
    Text.digit? radix c = some d ↔ IsDigit radix c d := by
  have hrows := digit?_rows (c := c) (d := d)
  rw [IsDigit, ← hrows]
  unfold Text.digit?
  simp only [Option.filter_eq_some_iff, decide_eq_true_eq]
  constructor
  · rintro ⟨hvalue, hlt⟩
    exact ⟨hlt, hvalue, by omega⟩
  · rintro ⟨hlt, hvalue, -⟩
    exact ⟨hvalue, hlt⟩

/-- Digits are added up from the left, each time in front of one more place. -/
theorem foldl_digit?_eq_some_iff {radix : Nat} (hradix : radix ≤ 16) {cs : List Char} {m n : Nat} :
    cs.foldl (fun acc c => acc.bind fun n => (Text.digit? radix c).map (radix * n + ·)) (some m) =
        some n ↔
      ∃ values, List.Forall₂ (IsDigit radix) cs values ∧
        n = Nat.ofDigits radix values.reverse + radix ^ values.length * m := by
  induction cs generalizing m with
  | nil =>
      constructor
      · intro h
        cases h
        exact ⟨[], .nil, by simp⟩
      · rintro ⟨values, hvalues, rfl⟩
        cases hvalues
        simp
  | cons c cs ih =>
      rw [List.foldl_cons, Option.bind_some]
      cases hc : Text.digit? radix c with
      | none =>
          have hnone : cs.foldl (fun acc c => acc.bind fun n =>
              (Text.digit? radix c).map (radix * n + ·)) none = none := by
            clear ih hc
            induction cs with
            | nil => rfl
            | cons c cs ih => exact ih
          rw [Option.map_none, hnone]
          refine iff_of_false (by simp) ?_
          rintro ⟨values, hvalues, -⟩
          cases hvalues with
          | cons hd _ =>
              rw [(digit?_eq_some_iff hradix).2 hd] at hc
              cases hc
      | some d =>
          rw [Option.map_some, ih]
          have hplace : ∀ values : List Nat,
              Nat.ofDigits radix (d :: values).reverse + radix ^ (d :: values).length * m =
                Nat.ofDigits radix values.reverse + radix ^ values.length * (radix * m + d) := by
            intro values
            simp only [List.reverse_cons, Nat.ofDigits_append, Nat.ofDigits_singleton,
              List.length_reverse, List.length_cons, pow_succ]
            ring
          constructor
          · rintro ⟨values, hvalues, rfl⟩
            exact ⟨d :: values, .cons ((digit?_eq_some_iff hradix).1 hc) hvalues,
              (hplace values).symm⟩
          · rintro ⟨values, hvalues, rfl⟩
            cases hvalues with
            | @cons _ e _ values hd hvalues =>
                rw [(digit?_eq_some_iff hradix).2 hd] at hc
                cases hc
                exact ⟨values, hvalues, hplace values⟩

theorem natural?_eq_some_iff {radix : Nat} (hradix : radix ≤ 16) {cs : List Char} {n : Nat} :
    Text.natural? radix cs = some n ↔
      ∃ values, values ≠ [] ∧ List.Forall₂ (IsDigit radix) cs values ∧
        n = Nat.ofDigits radix values.reverse := by
  unfold Text.natural?
  cases cs with
  | nil =>
      refine iff_of_false (by simp) ?_
      rintro ⟨values, hne, hvalues, -⟩
      cases hvalues
      exact hne rfl
  | cons c cs =>
      rw [List.isEmpty_cons, if_neg Bool.false_ne_true, foldl_digit?_eq_some_iff hradix]
      constructor
      · rintro ⟨values, hvalues, rfl⟩
        refine ⟨values, ?_, hvalues, by simp⟩
        rintro rfl
        cases hvalues
      · rintro ⟨values, -, hvalues, rfl⟩
        exact ⟨values, hvalues, by simp⟩

/-! ## Signs and marks -/

theorem sign_of_splitSign {text body : List Char} {negative : Bool}
    (h : splitSign text = (negative, body)) : ∃ sign, Sign sign negative ∧ text = sign ++ body := by
  unfold splitSign at h
  split at h
  · cases h
    exact ⟨['-'], .minus, rfl⟩
  · cases h
    exact ⟨['+'], .plus, rfl⟩
  · cases h
    exact ⟨[], .none, rfl⟩

theorem radixOf?_eq_some_iff {c : Char} {radix : Nat} :
    radixOf? c = some radix ↔
      (c, radix) ∈ [('b', 2), ('B', 2), ('o', 8), ('O', 8), ('x', 16), ('X', 16)] := by
  simp only [radixOf?, List.mem_cons, Prod.mk.injEq, List.not_mem_nil, or_false]
  constructor
  · intro h
    split at h
    · rename_i hc
      cases h
      rcases hc with rfl | rfl <;> simp
    · split at h
      · rename_i hc
        cases h
        rcases hc with rfl | rfl <;> simp
      · split at h
        · rename_i hc
          cases h
          rcases hc with rfl | rfl <;> simp
        · cases h
  · rintro (⟨rfl, rfl⟩ | ⟨rfl, rfl⟩ | ⟨rfl, rfl⟩ | ⟨rfl, rfl⟩ | ⟨rfl, rfl⟩ | ⟨rfl, rfl⟩) <;> rfl

theorem mark_of_splitRadix {body digits : List Char} {radix : Nat}
    (h : splitRadix body = (radix, digits)) : ∃ mark, Mark mark radix ∧ body = mark ++ digits := by
  unfold splitRadix at h
  split at h
  · split at h
    · rename_i hradix
      cases h
      exact ⟨_, .letter (radixOf?_eq_some_iff.1 hradix), rfl⟩
    · cases h
      exact ⟨[], .none, rfl⟩
  · cases h
    exact ⟨[], .none, rfl⟩

/-- A digit is neither a sign nor the start of a mark. -/
theorem IsDigit.ne {radix d : Nat} {c : Char} (hradix : radix ≤ 16) (h : IsDigit radix c d) :
    c ≠ '+' ∧ c ≠ '-' ∧ c ≠ '#' := by
  have hdigit := (digit?_eq_some_iff hradix).2 h
  refine ⟨?_, ?_, ?_⟩ <;> rintro rfl <;> cases hdigit

theorem splitRadix_mark {mark digits : List Char} {radix : Nat} (h : Mark mark radix)
    (hne : digits ≠ []) (hdigits : ∀ c ∈ digits.head?, c ≠ '#') :
    splitRadix (mark ++ digits) = (radix, digits) := by
  cases digits with
  | nil => exact absurd rfl hne
  | cons c cs =>
      cases h with
      | none =>
          have hc : c ≠ '#' := hdigits c rfl
          unfold splitRadix
          split
          · rename_i heq
            cases heq
            exact absurd rfl hc
          · rfl
      | letter h => simp [splitRadix, radixOf?_eq_some_iff.2 h]

theorem splitSign_sign {sign body : List Char} {negative : Bool} (h : Sign sign negative)
    (hne : body ≠ []) (hbody : ∀ c ∈ body.head?, c ≠ '+' ∧ c ≠ '-') :
    splitSign (sign ++ body) = (negative, body) := by
  cases body with
  | nil => exact absurd rfl hne
  | cons c cs =>
      cases h with
      | none =>
          obtain ⟨hplus, hminus⟩ := hbody c rfl
          unfold splitSign
          split
          · rename_i heq
            cases heq
            exact absurd rfl hminus
          · rename_i heq
            cases heq
            exact absurd rfl hplus
          · rfl
      | plus => rfl
      | minus => rfl

/-! ## Reading integers -/

theorem number?_of_numeral {text : List Char} {k : Int} (h : Numeral text k) :
    number? text = some (Num.ofInt k) := by
  obtain @⟨sign, mark, digits, negative, radix, values, hsign, hmark, hne, hdigits⟩ := h
  have hradix := hmark.radix_le
  obtain ⟨c, cs, rfl⟩ : ∃ c cs, digits = c :: cs := by
    cases hdigits with
    | nil => exact absurd rfl hne
    | cons _ _ => exact ⟨_, _, rfl⟩
  have hc : c ≠ '+' ∧ c ≠ '-' ∧ c ≠ '#' := by
    cases hdigits with
    | cons hd _ => exact hd.ne hradix
  have hbody : splitRadix (mark ++ c :: cs) = (radix, c :: cs) :=
    splitRadix_mark hmark (by simp) (by simpa using hc.2.2)
  have htext : splitSign (sign ++ (mark ++ c :: cs)) = (negative, mark ++ c :: cs) := by
    refine splitSign_sign hsign (by simp) ?_
    cases hmark with
    | none => simpa using ⟨hc.1, hc.2.1⟩
    | letter _ => simp
  have hnatural := (natural?_eq_some_iff hradix).2 ⟨values, hne, hdigits, rfl⟩
  simp only [number?, List.append_assoc, htext, hbody, hnatural]

theorem numeral_of_number? {text : List Char} {a : Num} {k : Int} (h : number? text = some a)
    (ha : a.int? = some k) : Numeral text k := by
  unfold number? at h
  rcases hsign : splitSign text with ⟨negative, body⟩
  rcases hradix : splitRadix body with ⟨radix, digits⟩
  obtain ⟨sign, hs, rfl⟩ := sign_of_splitSign hsign
  obtain ⟨mark, hm, rfl⟩ := mark_of_splitRadix hradix
  simp only [hsign, hradix] at h
  split at h
  · rename_i n hn
    cases h
    obtain ⟨values, hne, hdigits, rfl⟩ := (natural?_eq_some_iff hm.radix_le).1 hn
    rw [Num.int?_ofInt] at ha
    cases ha
    rw [← List.append_assoc]
    exact .intro hs hm hne hdigits
  · split at h
    · obtain ⟨x, -, rfl⟩ := Option.map_eq_some_iff.1 h
      cases ha
    · cases h

/-- What reads as a double has no mark of a radix anywhere. -/
theorem mark_notMem_of_double {text : List Char} {x : Float} (h : number? text = some (.double x)) :
    '#' ∉ text := by
  unfold number? at h
  simp only at h
  split at h
  · rename_i n _
    have hint := Num.int?_ofInt (Text.signed (splitSign text).1 n)
    rw [Option.some.inj h] at hint
    cases hint
  · split at h
    · rename_i hlooks
      intro hmem
      simp only [looksDouble, Bool.and_eq_true, List.all_eq_true] at hlooks
      exact absurd (hlooks.2.2 '#' hmem) (by decide)
    · cases h

/-! ## Integers written and read back -/

theorem number?_formatInt (k : Int) :
    number? (Text.formatInt k).toList = some (Num.ofInt k) := by
  cases k with
  | ofNat n =>
      simp only [Text.formatInt, Nat.toList_repr]
      exact (Token.number?_toDigits n).1
  | negSucc n =>
      have htext : (Text.formatInt (Int.negSucc n)).toList = '-' :: Nat.toDigits 10 (n + 1) := by
        simp [Text.formatInt]
      rw [htext]
      exact (Token.number?_toDigits (n + 1)).2

end Literal

/-- Text without blanks is as it was when it is trimmed. -/
theorem Text.trim_of_notBlank {cs : List Char} (h : ∀ c ∈ cs, isBlank c = false) :
    trim cs = cs := by
  have hdrop : ∀ ds : List Char, (∀ c ∈ ds, isBlank c = false) → ds.dropWhile isBlank = ds := by
    intro ds hds
    cases ds with
    | nil => rfl
    | cons d ds => rw [List.dropWhile_cons_of_neg (by simp [hds d])]
  have hreverse : ∀ c ∈ cs.reverse, isBlank c = false := fun c hc => h c (List.mem_reverse.1 hc)
  rw [trim, hdrop cs h, hdrop cs.reverse hreverse, List.reverse_reverse]

namespace SequenceNative

open Eval

variable {E : Engine} {env : Env} {s : State} {v : Value} {k : Int}

theorem numberOf_formatInt (k : Int) : numberOf (Text.formatInt k) = Num.ofInt k := by
  have hword := (Token.classify?_formatInt k).2.2
  have hblank : ∀ c ∈ (Text.formatInt k).toList, Text.isBlank c = false := by
    intro c hc
    cases hb : Text.isBlank c with
    | false => rfl
    | true =>
        have hnot := Token.isWordChar_eq_false_of_isBlank hb
        rw [hword c hc] at hnot
        cases hnot
  rw [numberOf, Text.trim_of_notBlank hblank, Literal.number?_formatInt]
  rfl

theorem format_of_int {a : Num} (ha : a.int? = some k) : a.format = Text.formatInt k := by
  cases a with
  | small n =>
      cases ha
      rfl
  | big n =>
      cases ha
      rfl
  | double x => cases ha

theorem call_numberToString (E : Engine) (env : Env) (hv : s.store.integer? v = some k) :
    (Native.sequences .numberToString).call E [v] env s =
      alloc (·.newText (Text.formatInt k)) s := by
  obtain ⟨a, ha, hk⟩ := NumberNative.numberArg_of_integer hv
  have hrun : (Native.sequences .numberToString).run E [v] env s =
      alloc (·.newText (Text.formatInt k)) s := by
    show (Native.numberArg v >>= _) s = _
    rw [bind_of_ok ha, format_of_int hk]
  exact Native.call_eq_ok.2 hrun

theorem call_stringToNumber (E : Engine) (env : Env) {r : Ref .text}
    (hr : s.store.text r = Text.formatInt k) :
    (Native.sequences .stringToNumber).call E [.text r] env s =
      alloc (·.newNumber (.ofInt k)) s := by
  have hrun : (Native.sequences .stringToNumber).run E [.text r] env s =
      alloc (·.newNumber (.ofInt k)) s := by
    show (Native.textArg (.text r) >>= _) s = _
    rw [bind_of_ok (show Native.textArg (.text r) s = .ok (s.store.text r) s from rfl), hr,
      numberOf_formatInt]
  exact Native.call_eq_ok.2 hrun

/-- An integer that has the one form integers have comes back from its text in that form. -/
theorem stringToNumber_numberToString (hs : s.Tidy) (hheld : s.bounds.Holds v)
    (hv : s.store.integer? v = some k) :
    ∃ r t w u, (Native.sequences .numberToString).call E [v] env s = .ok (.text r) t ∧
      (Native.sequences .stringToNumber).call E [.text r] env t = .ok w u ∧
      ((∃ n, v = .int n ∧ w = .int n) ∨
        ∃ p q, v = .big p ∧ w = .big q ∧ u.store.bignum q = s.store.bignum p) := by
  have hwrite := call_numberToString E env hv
  rw [alloc_apply] at hwrite
  set t := s.mapStore fun st => (st.newText (Text.formatInt k)).2 with ht
  have htext : t.store.text ⟨s.store.texts.size⟩ = Text.formatInt k := by
    simp [ht, State.mapStore, Store.newText, Store.text]
  have hread := call_stringToNumber E env htext
  obtain ⟨w, u, hw, hint, hword⟩ := Outcome.givesInteger_of_eq hread
  refine ⟨⟨s.store.texts.size⟩, t, w, u, hwrite, hw, ?_⟩
  have hform := hs.int_iff_fits hheld hv
  rcases Store.integer?_cases hv with ⟨n, rfl, hn⟩ | ⟨p, rfl, hp⟩
  · obtain ⟨m, rfl⟩ := hword.2 (hform.1 ⟨n, rfl⟩)
    have hm : m.toInt = k := Option.some.inj hint
    refine .inl ⟨n, rfl, ?_⟩
    rw [Int64.toInt_inj.1 (hm.trans hn)]
  · rcases Store.integer?_cases hint with ⟨m, rfl, -⟩ | ⟨q, rfl, hq⟩
    · obtain ⟨n, hn⟩ := hform.2 (hword.1 ⟨m, rfl⟩)
      cases hn
    · exact .inr ⟨p, q, rfl, rfl, hq.symm.trans hp⟩

end SequenceNative

/-- Integers are read exactly. A text reads as an integer exactly if it is an integer of the
grammar, and then as the value of its digits with its sign, in a word exactly if that fits in one.
What reads as a double has no mark of a radix. So every integer comes back as it was, in the same
form, from the text that it is written as. -/
theorem Literal.integers_read_exactly :
    (∀ text k, (∃ a, number? text = some a ∧ a.int? = some k) ↔ Numeral text k) ∧
    (∀ text k, Numeral text k → number? text = some
      (if -2 ^ 63 ≤ k ∧ k ≤ 2 ^ 63 - 1 then .small (Int64.ofInt k) else .big k)) ∧
    (∀ text x, number? text = some (.double x) → '#' ∉ text) ∧
    ∀ E env s v k, s.Tidy → s.bounds.Holds v → s.store.integer? v = some k →
      ∃ r t w u, (Native.sequences .numberToString).call E [v] env s = .ok (.text r) t ∧
        (Native.sequences .stringToNumber).call E [.text r] env t = .ok w u ∧
        ((∃ n, v = .int n ∧ w = .int n) ∨
          ∃ p q, v = .big p ∧ w = .big q ∧ u.store.bignum q = s.store.bignum p) := by
  refine ⟨fun text k => ⟨?read, ?written⟩, fun text k h => ?form, fun _ _ => mark_notMem_of_double,
    fun E env s v k hs hheld hv => SequenceNative.stringToNumber_numberToString hs hheld hv⟩
  case read =>
    rintro ⟨a, ha, hk⟩
    exact numeral_of_number? ha hk
  case written => exact fun h => ⟨_, number?_of_numeral h, Num.int?_ofInt k⟩
  case form =>
    rw [number?_of_numeral h, Num.ofInt]
    simp only [Num.fits_iff]

/-- Two digits in either case after a sign and a mark, a fraction, and an integer that no word
holds. -/
theorem Literal.integers_read_exactly_wide :
    let s := Interpreter.promised.mapStore fun st => (st.newNumber (.big (2 ^ 63))).2
    let wide := Value.big ⟨0⟩
    Numeral "-#XfF".toList (-255) ∧ number? "-#XfF".toList = some (.small (-255)) ∧
      (∃ x, number? "-.5".toList = some (.double x)) ∧ '#' ∉ "-.5".toList ∧
      s.Tidy ∧ s.bounds.Holds wide ∧ s.store.integer? wide = some (2 ^ 63) ∧
      ∃ r t w u, (Native.sequences .numberToString).call Engine.idle [wide] none s =
          .ok (.text r) t ∧
        (Native.sequences .stringToNumber).call Engine.idle [.text r] none t = .ok w u ∧
        ∃ q, w = .big q ∧ u.store.bignum q = 2 ^ 63 := by
  intro s wide
  obtain ⟨hgrammar, hform, hdouble, hback⟩ := Literal.integers_read_exactly
  have hmark : Mark ['#', 'X'] 16 := .letter (by decide)
  have hdigits : List.Forall₂ (IsDigit 16) ['f', 'F'] [15, 15] :=
    .cons (by unfold IsDigit; decide) (.cons (by unfold IsDigit; decide) .nil)
  have hff : Numeral "-#XfF".toList (-255) := .intro .minus hmark (by decide) hdigits
  obtain ⟨x, hx⟩ : ∃ x, number? "-.5".toList = some (.double x) := ⟨_, rfl⟩
  have hs : s.Tidy :=
    (State.GrowsInto.newNumber Interpreter.promised (.big (2 ^ 63))).tidy (.newNumber _)
      Interpreter.tidy_promised
  have hheld : s.bounds.Holds wide := (Bounds.holds_of_ref rfl).2 (by decide)
  have hwide : s.store.integer? wide = some (2 ^ 63) := by decide
  refine ⟨hff, hform _ _ hff, ⟨x, hx⟩, hdouble _ _ hx, hs, hheld, hwide, ?_⟩
  obtain ⟨r, t, w, u, hwrite, hread, hsame⟩ := hback Engine.idle none s wide _ hs hheld hwide
  refine ⟨r, t, w, u, hwrite, hread, ?_⟩
  rcases hsame with ⟨n, hn, -⟩ | ⟨p, q, hp, hq, hvalue⟩
  · exact Value.noConfusion hn
  · have hpos : p = ⟨0⟩ := (Value.big.inj hp).symm
    subst hpos
    exact ⟨q, hq, hvalue.trans (by decide)⟩

end SmallLisp
