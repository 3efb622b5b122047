import Mathlib
import SmallLisp.Proofs.Reading.Writing

/-!
# Written atoms are scanned back

The text of an atom is one token, and that token is the atom, provided that a word is followed by a
delimiter. Strings read back because every escape that is written is one the scanner takes; a code
in hexadecimal digits is only turned into its character by the character after it, so the induction
over a string goes through any state that acts on the next character like plain text.
-/

namespace SmallLisp

namespace Token

/-! ## Words -/

/-- The characters of words. -/
def isWordChar (c : Char) : Bool := c == ':' || isSymbolChar c

theorem isWordChar_of_isDigit {c : Char} (h : c.isDigit = true) : isWordChar c = true := by
  simp [isWordChar, isSymbolChar, Char.isAlphanum, h]

theorem isWordChar_eq_false_of_isBlank {c : Char} (h : Text.isBlank c = true) :
    isWordChar c = false := by
  cases hw : isWordChar c with
  | false => rfl
  | true =>
      exfalso
      simp only [isWordChar, isSymbolChar, Bool.or_eq_true, beq_iff_eq] at hw
      rcases hw with rfl | hw | hw
      · exact absurd h (by decide)
      · simp only [Char.isAlphanum, Char.isAlpha, Char.isUpper, Char.isLower, Char.isDigit,
          Bool.or_eq_true, Bool.and_eq_true, decide_eq_true_eq, ge_iff_le,
          UInt32.le_iff_toNat_le, Text.isBlank, beq_iff_eq, Char.toNat] at hw h
        simp at hw h
        omega
      · simp only [List.contains_iff_mem] at hw
        simp at hw
        rcases hw with rfl | rfl | rfl | rfl | rfl | rfl | rfl | rfl | rfl | rfl | rfl | rfl | rfl
        all_goals exact absurd h (by decide)

/-- No character of a word ends it. -/
theorem isDelimiter_eq_false {c : Char} (h : isWordChar c = true) : isDelimiter c = false := by
  cases hd : isDelimiter c with
  | false => rfl
  | true =>
      exfalso
      simp only [isDelimiter, Bool.or_eq_true] at hd
      rcases hd with hd | hd
      · rw [isWordChar_eq_false_of_isBlank hd] at h
        cases h
      · simp at hd
        rcases hd with rfl | rfl | rfl | rfl | rfl | rfl | rfl | rfl | rfl | rfl
        all_goals exact absurd h (by decide)

/-- The text ends here or goes on with a delimiter. -/
def Stops (rest : List Char) : Prop := ∀ c ∈ rest.head?, isDelimiter c = true

theorem takeWhile_of_stops {rest : List Char} (h : Stops rest) :
    rest.takeWhile (!isDelimiter ·) = [] ∧ rest.dropWhile (!isDelimiter ·) = rest := by
  cases rest with
  | nil => exact ⟨rfl, rfl⟩
  | cons c cs =>
      have hc : isDelimiter c = true := h c (by simp)
      simp [hc]

/-- No word starts like another token. -/
theorem scan_eq_scanWord {c : Char} (h : isWordChar c = true) (cs : List Char) :
    scan c cs = scanWord c cs := by
  have hsingle : single? c = none := by
    unfold single?
    repeat'
      split
      · rename_i heq
        rw [heq] at h
        exact absurd h (by decide)
    rfl
  have hcomma : ¬ c = ',' := by
    rintro rfl
    exact absurd h (by decide)
  have hquote : ¬ c = '"' := by
    rintro rfl
    exact absurd h (by decide)
  unfold scan
  simp only [hsingle]
  rw [if_neg hcomma, if_neg hquote]

/-- A word is scanned up to what follows it. -/
theorem scan_word {c : Char} {cs rest : List Char} {a : Atom}
    (hword : ∀ d ∈ c :: cs, isWordChar d = true) (hrest : Stops rest)
    (ha : classify? (c :: cs) = some a) : scan c (cs ++ rest) = (.ok (.atom a), rest) := by
  have hcs : ∀ d ∈ cs, (!isDelimiter d) = true := by
    intro d hd
    rw [isDelimiter_eq_false (hword d (by simp [hd]))]
    rfl
  rw [scan_eq_scanWord (hword c (by simp)), scanWord, List.takeWhile_append_of_pos hcs,
    List.dropWhile_append_of_pos hcs, (takeWhile_of_stops hrest).1, (takeWhile_of_stops hrest).2,
    List.append_nil]
  simp only [ha]

/-- A symbol is made of characters of words. -/
theorem isWordChar_of_classify? {word : List Char} {name : String}
    (h : classify? word = some (.sym name)) : word ≠ [] ∧ ∀ c ∈ word, isWordChar c = true := by
  unfold classify? at h
  split at h
  · simp at h
  · split at h
    · simp at h
    · simp only [Bool.and_eq_true, Bool.not_eq_true', List.isEmpty_eq_false_iff,
        List.all_eq_true, Option.ite_none_right_eq_some] at h
      replace h := h.1
      split at h
      · rename_i cs
        refine ⟨by simp, ?_⟩
        intro c hc
        rcases List.mem_cons.1 hc with rfl | hc
        · rfl
        · simp [isWordChar, h.2 c hc]
      · exact ⟨h.1, fun c hc => by simp [isWordChar, h.2 c hc]⟩

/-! ## Numbers -/

theorem digit?_of_isDigit {c : Char} (h : c.isDigit = true) :
    Text.digit? 10 c = some (c.toNat - '0'.toNat) := by
  simp only [Char.isDigit, Bool.and_eq_true, decide_eq_true_eq, ge_iff_le,
    UInt32.le_iff_toNat_le] at h
  have hc : 48 ≤ c.toNat ∧ c.toNat ≤ 57 := h
  have hlt : c.toNat - 48 < 10 := by omega
  simp [Text.digit?, hc, hlt]

theorem foldl_digits {cs : List Char} (h : ∀ c ∈ cs, c.isDigit = true) (n : Nat) :
    cs.foldl (fun acc c => acc.bind fun n => (Text.digit? 10 c).map (10 * n + ·)) (some n) =
      some (Nat.ofDigitChars 10 cs n) := by
  induction cs generalizing n with
  | nil => simp
  | cons c cs ih =>
      have hc := digit?_of_isDigit (h c (by simp))
      rw [List.foldl_cons, Nat.ofDigitChars_cons, ← ih (fun d hd => h d (by simp [hd]))]
      simp [hc]

theorem isDigit_toDigits {n : Nat} {c : Char} (h : c ∈ Nat.toDigits 10 n) : c.isDigit = true :=
  Nat.isDigit_of_mem_toDigits (by decide) (by decide) h

theorem natural?_toDigits (n : Nat) : Text.natural? 10 (Nat.toDigits 10 n) = some n := by
  have hne : (Nat.toDigits 10 n).isEmpty = false := by simp
  unfold Text.natural?
  rw [hne, if_neg (by simp), foldl_digits fun c hc => isDigit_toDigits hc]
  simp

/-- The digits of a number start with one that is no sign and no radix mark. -/
theorem number?_toDigits (n : Nat) :
    Literal.number? (Nat.toDigits 10 n) = some (Num.ofInt n) ∧
      Literal.number? ('-' :: Nat.toDigits 10 n) = some (Num.ofInt (-n)) := by
  have hnat := natural?_toDigits n
  cases hds : Nat.toDigits 10 n with
  | nil => exact absurd hds Nat.toDigits_ne_nil
  | cons c cs =>
      rw [hds] at hnat
      have hc : c.isDigit = true := isDigit_toDigits (n := n) (by simp [hds])
      have hsign : Literal.splitSign (c :: cs) = (false, c :: cs) := by
        unfold Literal.splitSign
        split
        · simp_all
        · simp_all
        · rfl
      have hradix : Literal.splitRadix (c :: cs) = (10, c :: cs) := by
        unfold Literal.splitRadix
        split
        · simp_all
        · rfl
      constructor
      · simp [Literal.number?, hsign, hradix, hnat, Text.signed]
      · simp [Literal.number?, Literal.splitSign, hradix, hnat, Text.signed]

theorem classify?_of_number? {word : List Char} {n : Num} (h : Literal.number? word = some n) :
    classify? word = some (.number n) := by
  have hnil : word ≠ "nil".toList := by
    rintro rfl
    have hnone : Literal.number? "nil".toList = none := rfl
    rw [hnone] at h
    cases h
  unfold classify?
  rw [if_neg hnil, h]

/-- The text of an integer is a word for the integer. -/
theorem classify?_formatInt (n : Int) :
    classify? (Text.formatInt n).toList = some (.number (Num.ofInt n)) ∧
      (Text.formatInt n).toList ≠ [] ∧
      ∀ c ∈ (Text.formatInt n).toList, isWordChar c = true := by
  cases n with
  | ofNat n =>
      simp only [Text.formatInt, Nat.toList_repr]
      refine ⟨classify?_of_number? (number?_toDigits n).1, Nat.toDigits_ne_nil, ?_⟩
      exact fun c hc => isWordChar_of_isDigit (isDigit_toDigits hc)
  | negSucc n =>
      have hnum := (number?_toDigits (n + 1)).2
      have htext : (Text.formatInt (Int.negSucc n)).toList = '-' :: Nat.toDigits 10 (n + 1) := by
        simp [Text.formatInt]
      rw [htext]
      refine ⟨classify?_of_number? hnum, by simp, ?_⟩
      intro c hc
      rcases List.mem_cons.1 hc with rfl | hc
      · decide
      · exact isWordChar_of_isDigit (isDigit_toDigits hc)

/-! ## Strings -/

/-- The scan is at a place where the next character counts as plain text after the characters. -/
def Ready (mode : StringMode) (reversed chars : List Char) : Prop :=
  ∀ c, stringStep mode reversed c = plainStep chars c

theorem ready_plain (chars : List Char) : Ready .plain chars chars := fun _ => rfl

theorem ready_code (n : Nat) (reversed : List Char) :
    Ready (.code 16 n 0) reversed (Char.ofNat n :: reversed) := fun _ => rfl

theorem digit?_hexDigit {d : Nat} (h : d < 16) :
    Text.digit? 16 (Printer.hexDigit d) = some d := by
  have hall : ∀ d < 16, Text.digit? 16 (Printer.hexDigit d) = some d := by decide
  exact hall d h

/-- An escape of one letter. -/
theorem scanString_letter {mode : StringMode} {reversed chars : List Char} {c l : Char}
    (hready : Ready mode reversed chars) (hl : escaped? l = some c) (rest : List Char) :
    scanString mode reversed ('\\' :: l :: rest) = scanString .plain (c :: chars) rest := by
  have hbackslash : plainStep chars '\\' = .more .escape chars := rfl
  rw [scanString, hready, hbackslash]
  simp only
  rw [scanString, stringStep, hl]

/-- An escape of two hexadecimal digits. -/
theorem scanString_hex {mode : StringMode} {reversed chars : List Char} {n : Nat} (hn : n < 256)
    (hready : Ready mode reversed chars) (rest : List Char) :
    scanString mode reversed
        ('\\' :: 'x' :: Printer.hexDigit (n / 16) :: Printer.hexDigit (n % 16) :: rest) =
      scanString (.code 16 n 0) chars rest := by
  have hbackslash : plainStep chars '\\' = .more .escape chars := rfl
  have hx : stringStep .escape chars 'x' = .more .hex chars := rfl
  have hhigh : stringStep .hex chars (Printer.hexDigit (n / 16)) =
      .more (.code 16 (n / 16) 1) chars := by
    simp [stringStep, digit?_hexDigit (d := n / 16) (by omega)]
  have hlow : stringStep (.code 16 (n / 16) 1) chars (Printer.hexDigit (n % 16)) =
      .more (.code 16 n 0) chars := by
    simp [stringStep, digit?_hexDigit (d := n % 16) (by omega), Nat.div_add_mod]
  rw [scanString, hready, hbackslash]
  simp only
  rw [scanString, hx]
  simp only
  rw [scanString, hhigh]
  simp only
  rw [scanString, hlow]

/-- A character is written as a letter after a backslash, as a code or as it is. -/
theorem escapeChar_cases (c : Char) :
    (∃ l, Printer.escapeChar c = ['\\', l] ∧ escaped? l = some c) ∨
      (c.toNat < 256 ∧ Printer.escapeChar c =
        ['\\', 'x', Printer.hexDigit (c.toNat / 16), Printer.hexDigit (c.toNat % 16)]) ∨
      (Printer.escapeChar c = [c] ∧ c ≠ '"' ∧ c ≠ '\\' ∧ c ≠ '\n' ∧ c ≠ '\r') := by
  have hof : ∀ n, c.toNat = n → Char.ofNat n = c := fun n hn => hn ▸ Char.ofNat_toNat c
  generalize he : Printer.escapeChar c = e
  unfold Printer.escapeChar at he
  split at he
  · exact .inl ⟨_, he.symm, by rw [‹c = _›]; rfl⟩
  split at he
  · exact .inl ⟨_, he.symm, by rw [‹c = _›]; rfl⟩
  split at he
  · exact .inl ⟨_, he.symm, by rw [‹c = _›]; rfl⟩
  split at he
  · exact .inl ⟨_, he.symm, by rw [‹c = _›]; rfl⟩
  split at he
  · exact .inl ⟨_, he.symm, by rw [‹c = _›]; rfl⟩
  simp only at he
  split at he
  · exact .inl ⟨_, he.symm, by rw [← hof _ ‹_›]; rfl⟩
  split at he
  · exact .inl ⟨_, he.symm, by rw [← hof _ ‹_›]; rfl⟩
  split at he
  · exact .inl ⟨_, he.symm, by rw [← hof _ ‹_›]; rfl⟩
  split at he
  · exact .inl ⟨_, he.symm, by rw [← hof _ ‹_›]; rfl⟩
  split at he
  · exact .inr (.inl ⟨by omega, he.symm⟩)
  · exact .inr (.inr ⟨he.symm, ‹_›, ‹_›, ‹_›, ‹_›⟩)

/-- A written character is scanned back. -/
theorem scanString_escapeChar {mode : StringMode} {reversed chars : List Char}
    (hready : Ready mode reversed chars) (c : Char) :
    ∃ mode' reversed', Ready mode' reversed' (c :: chars) ∧
      ∀ rest, scanString mode reversed (Printer.escapeChar c ++ rest) =
        scanString mode' reversed' rest := by
  rcases escapeChar_cases c with ⟨l, he, hl⟩ | ⟨hn, he⟩ | ⟨he, hquote, hbackslash, hline, -⟩
  · exact ⟨.plain, c :: chars, ready_plain _, fun rest => he ▸ scanString_letter hready hl rest⟩
  · have hcode := ready_code c.toNat chars
    rw [Char.ofNat_toNat] at hcode
    exact ⟨.code 16 c.toNat 0, chars, hcode, fun rest => he ▸ scanString_hex hn hready rest⟩
  · refine ⟨.plain, c :: chars, ready_plain _, fun rest => ?_⟩
    rw [he, List.singleton_append, scanString, hready]
    simp [plainStep, hquote, hbackslash, hline]

/-- A written string is scanned back up to its closing quote. -/
theorem scanString_written (cs rest : List Char) {mode : StringMode} {reversed chars : List Char}
    (hready : Ready mode reversed chars) :
    scanString mode reversed (cs.flatMap Printer.escapeChar ++ '"' :: rest) =
      (.ok (cs.reverse ++ chars), rest) := by
  induction cs generalizing mode reversed chars with
  | nil =>
      rw [List.flatMap_nil, List.nil_append, scanString, hready]
      simp [plainStep]
  | cons c cs ih =>
      obtain ⟨mode', reversed', hready', hstep⟩ := scanString_escapeChar hready c
      rw [List.flatMap_cons, List.append_assoc, hstep, ih hready']
      simp

theorem scan_string (x : String) (rest : List Char) :
    ∃ cs, (Printer.escapeString x).toList = '"' :: cs ∧
      scan '"' (cs ++ rest) = (.ok (.atom (.text x)), rest) := by
  refine ⟨x.toList.flatMap Printer.escapeChar ++ ['"'], by simp [Printer.escapeString], ?_⟩
  have hscan := scanString_written x.toList rest (ready_plain [])
  have hsingle : single? '"' = none := rfl
  unfold scan
  rw [hsingle]
  simp [hscan]

end Token

/-! ## Atoms -/

/-- The atom is one that the scanner makes of a token: a symbol is a word of its own, and an
integer is in a word if it fits. -/
def Atom.Scanned : Atom → Prop
  | .sym name => Token.classify? name.toList = some (.sym name)
  | .number n => n.normalize = n
  | _ => True

theorem Atom.Scanned.narrow {a : Atom} (h : a.Scanned) : a.Narrow := by
  cases a with
  | number n => exact h
  | _ => trivial

/-- Whether the atom is a double. -/
def Atom.isDouble : Atom → Bool
  | .number n => n.isDouble
  | _ => false

/-- An integer that is kept as it is is the number for it. -/
theorem Num.exists_ofInt {n : Num} (hn : n.normalize = n) (hd : n.isDouble = false) :
    ∃ k, n = ofInt k ∧ n.format = Text.formatInt k := by
  cases n with
  | small n =>
      refine ⟨n.toInt, ?_, rfl⟩
      have hfits : fits n.toInt = true := by
        simp only [fits, decide_eq_true_eq]
        exact ⟨n.minValue_le_toInt, n.toInt_le⟩
      simp [ofInt, hfits]
  | big n => exact ⟨n, hn.symm, rfl⟩
  | double x => simp [isDouble] at hd

theorem Atom.isWordChar_nil : ∀ c ∈ Atom.nil.written, Token.isWordChar c = true :=
  List.all_eq_true.1 (by decide)

open Token in
/-- The text of an atom is a token for it. -/
theorem Atom.scan_written {a : Atom} (ha : a.Scanned) (hd : a.isDouble = false)
    {rest : List Char} (hrest : Stops rest) :
    ∃ c cs, a.written = c :: cs ∧ Text.isBlank c = false ∧ c ≠ ';' ∧
      scan c (cs ++ rest) = (.ok (.atom a), rest) := by
  have word : a.written ≠ [] → (∀ d ∈ a.written, isWordChar d = true) →
      classify? a.written = some a → ∃ c cs, a.written = c :: cs ∧ Text.isBlank c = false ∧
        c ≠ ';' ∧ scan c (cs ++ rest) = (.ok (.atom a), rest) := by
    intro hne hword hclass
    cases hw : a.written with
    | nil => exact absurd hw hne
    | cons c cs =>
        rw [hw] at hword hclass
        have hc := isDelimiter_eq_false (hword c (by simp))
        simp only [isDelimiter, Bool.or_eq_false_iff] at hc
        refine ⟨c, cs, rfl, hc.1, ?_, scan_word hword hrest hclass⟩
        rintro rfl
        exact absurd hc.2 (by decide)
  cases a with
  | nil => exact word (by decide) Atom.isWordChar_nil rfl
  | number n =>
      obtain ⟨k, rfl, hformat⟩ := Num.exists_ofInt ha hd
      obtain ⟨hclass, hne, hword⟩ := classify?_formatInt k
      simp only [written, hformat] at word ⊢
      exact word hne hword hclass
  | text x =>
      obtain ⟨cs, hcs, hscan⟩ := scan_string x rest
      exact ⟨'"', cs, hcs, by decide, by decide, hscan⟩
  | sym name =>
      obtain ⟨hne, hword⟩ := isWordChar_of_classify? ha
      exact word hne hword ha

end SmallLisp
