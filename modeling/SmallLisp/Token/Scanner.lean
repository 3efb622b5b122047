import SmallLisp.Source
import SmallLisp.Token

/-!
# Scanning a line source

The scanner holds the current line and what of it is unread, a final line feed included. Because
every token ends before that line feed, a new line is only asked for between tokens: a failing
request loses no text, and every request tells whether a form has been begun.
-/

namespace SmallLisp

/-- Where a line source is being scanned. -/
structure Scanner where
  /-- The current line. -/
  line : String := ""
  /-- What is unread of the current line and the line feed after it. -/
  rest : List Char := []
  lineNumber : Nat := 0
  /-- Whether the next line asked for is the first of a form. -/
  prompt : Bool := true
  /-- Whether the source has ended. It is not asked again. -/
  atEnd : Bool := false

namespace Scanner

/-- The next line asked for will be the first of a form. -/
def beginForm (sc : Scanner) : Scanner := { sc with prompt := true }

/-- Leave out what is unread of the current line. -/
def skipLine (sc : Scanner) : Scanner := { sc with rest := [] }

/-- A line as quoted in failures: without line feeds at its end. -/
def quoted (line : String) : String :=
  String.ofList ((line.toList.reverse.dropWhile (· == '\n')).reverse)

/-- The cause of a fault on the current line. -/
def fault (sc : Scanner) (f : ReadFault) : Cause :=
  .unreadable f.message sc.lineNumber (quoted sc.line)

/-- Take up a new line. -/
def take (sc : Scanner) (text : String) : Scanner :=
  { sc with
    line := text
    rest := text.toList ++ ['\n']
    lineNumber := sc.lineNumber + 1
    prompt := false }

/-- Skip blanks; a semicolon hides the rest of its line. -/
def skipBlank : List Char → List Char
  | [] => []
  | c :: cs =>
      if c = ';' then []
      else if Text.isBlank c then skipBlank cs
      else c :: cs

/-- What comes after blanks and comments. -/
inductive Sought where
  /-- A token starts with `c`, and `cs` follows on its line. -/
  | start (c : Char) (cs : List Char)
  | ended
  | failed (f : SourceFault)

/-- Ask for lines until one has more than blanks and comments. -/
def fetch (sc : Scanner) (src : LineSource) : List Answer → Sought × Scanner × LineSource
  | [] => (.ended, { sc with atEnd := true }, src.asked sc.prompt [])
  | .fault f :: answers => (.failed f, sc, src.asked sc.prompt answers)
  | .line text :: answers =>
      let src := src.asked sc.prompt answers
      let sc := sc.take text
      match skipBlank sc.rest with
      | c :: cs => (.start c cs, sc, src)
      | [] => fetch sc.skipLine src answers

/-- Skip blanks and comments, over as many lines as need be. -/
def seek (sc : Scanner) (src : LineSource) : Sought × Scanner × LineSource :=
  match skipBlank sc.rest with
  | c :: cs => (.start c cs, sc, src)
  | [] =>
      let sc := sc.skipLine
      if sc.atEnd then (.ended, sc, src) else sc.fetch src src.answers

/-- The next token; none at the end of the input. -/
def next (sc : Scanner) (src : LineSource) :
    Except Cause (Option Token) × Scanner × LineSource :=
  match sc.seek src with
  | (.start c cs, sc, src) =>
      match Token.scan c cs with
      | (.ok t, rest) => (.ok (some t), { sc with rest }, src)
      | (.error f, rest) => (.error (sc.fault f), { sc with rest }, src)
  | (.ended, sc, src) => (.ok none, sc, src)
  | (.failed f, sc, src) => (.error (.io f.message), sc, src)

end Scanner

end SmallLisp

/-!
## Scanning makes progress

Every token takes at least one character of what a scanner and its source still hold, so a reader
that goes from token to token comes to an end.
-/

namespace SmallLisp.Scanner

/-- What a request for a line can still bring, in characters. -/
def weight : Answer → Nat
  | .line text => text.toList.length + 2
  | .fault _ => 1

/-- What all requests to come can still bring. -/
def totalWeight : List Answer → Nat
  | [] => 0
  | a :: answers => weight a + totalWeight answers

/-- How much text there is still to scan. -/
def remaining (sc : Scanner) (src : LineSource) : Nat :=
  sc.rest.length + totalWeight src.answers

theorem length_skipBlank_le (cs : List Char) : (skipBlank cs).length ≤ cs.length := by
  induction cs with
  | nil => simp [skipBlank]
  | cons c cs ih =>
      simp only [skipBlank]
      split
      · simp
      · split
        · simp only [List.length_cons]
          omega
        · simp

theorem length_scanString_le (mode : Token.StringMode) (reversed cs : List Char) :
    (Token.scanString mode reversed cs).2.length ≤ cs.length := by
  induction cs generalizing mode reversed with
  | nil => simp [Token.scanString]
  | cons c cs ih =>
      simp only [Token.scanString]
      split
      · exact Nat.le_succ_of_le (ih _ _)
      · simp
      · simp

theorem length_dropWhile_le (p : Char → Bool) (cs : List Char) :
    (cs.dropWhile p).length ≤ cs.length :=
  (List.dropWhile_suffix p).length_le

/-- A token takes at least its first character. -/
theorem length_scan_le (c : Char) (cs : List Char) : (Token.scan c cs).2.length ≤ cs.length := by
  have hs := length_scanString_le .plain [] cs
  have hw := length_dropWhile_le (!Token.isDelimiter ·) cs
  unfold Token.scan
  split
  · exact Nat.le_refl _
  · split
    · split <;> simp
    · split
      · split <;> simp_all
      · unfold Token.scanWord
        dsimp only
        split <;> exact hw

/-- Finding the start of a token does not add text, and the token's first character is still to
come. -/
theorem remaining_seek (sc : Scanner) (src : LineSource) {c : Char} {cs : List Char}
    {sc' : Scanner} {src' : LineSource} (h : sc.seek src = (.start c cs, sc', src')) :
    cs.length + 1 + totalWeight src'.answers ≤ sc.remaining src := by
  have fetched : ∀ (answers : List Answer) (sc : Scanner) (src : LineSource),
      sc.fetch src answers = (.start c cs, sc', src') →
      cs.length + 1 + totalWeight src'.answers ≤ totalWeight answers := by
    intro answers
    induction answers with
    | nil => intro sc src h; simp [fetch] at h
    | cons a answers ih =>
        intro sc src h
        cases a with
        | fault f => simp [fetch] at h
        | line text =>
            simp only [fetch] at h
            have hb := length_skipBlank_le (sc.take text).rest
            split at h
            · rename_i d ds hd
              simp only [Prod.mk.injEq, Sought.start.injEq] at h
              obtain ⟨⟨rfl, rfl⟩, -, rfl⟩ := h
              rw [hd] at hb
              simp [take, weight, totalWeight, LineSource.asked] at hb ⊢
              omega
            · have := ih _ _ h
              simp only [totalWeight]
              omega
  unfold seek at h
  have hb := length_skipBlank_le sc.rest
  split at h
  · rename_i d ds hd
    simp only [Prod.mk.injEq, Sought.start.injEq] at h
    obtain ⟨⟨rfl, rfl⟩, -, rfl⟩ := h
    rw [hd] at hb
    simp only [List.length_cons] at hb
    unfold remaining
    omega
  · simp only at h
    split at h
    · simp at h
    · have := fetched _ _ _ h
      unfold remaining
      omega

/-- Every token makes the text that is left shorter. -/
theorem remaining_next_lt (sc : Scanner) (src : LineSource) {t : Token}
    {sc' : Scanner} {src' : LineSource} (h : sc.next src = (.ok (some t), sc', src')) :
    sc'.remaining src' < sc.remaining src := by
  unfold next at h
  split at h
  · rename_i c cs sc₁ src₁ hs
    have hr := remaining_seek sc src hs
    have hl := length_scan_le c cs
    split at h
    · rename_i t' rest ht
      simp only [Prod.mk.injEq] at h
      obtain ⟨-, rfl, rfl⟩ := h
      rw [ht] at hl
      simp only [remaining] at hr hl ⊢
      omega
    · simp at h
  · simp at h
  · simp at h

end SmallLisp.Scanner
