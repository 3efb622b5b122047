import SmallLisp.Proofs.Reading.Progress

/-!
# Scanning line by line

Every line is scanned with a line feed after it, and no token takes that line feed: each kind of
token, and each kind of fault in one, stops in front of it. So what a line holds settles its tokens,
whatever would come after it, and what is left of a line ends in its line feed until the line is
given up as a whole. Tokens are asked for call by call up to the end of the input, and after a fault
either from where the scanner stands or with the rest of the line left out.
-/

namespace SmallLisp

namespace Text

/-- A line feed is a digit in no radix. -/
@[simp] theorem digit?_newline (radix : Nat) : digit? radix '\n' = none := by
  simp [digit?]

end Text

namespace Token

/-! ## One token -/

@[simp] theorem isDelimiter_newline : isDelimiter '\n' = true := by
  simp [isDelimiter]

/-- Whatever the scan of a string has come to, a line feed stops it. -/
theorem stringStep_newline (mode : StringMode) (reversed : List Char) :
    ∃ f, stringStep mode reversed '\n' = .stop f := by
  cases mode with
  | plain => exact ⟨.unterminated, rfl⟩
  | escape => exact ⟨.badEscape, by simp [stringStep, escaped?]⟩
  | hex => exact ⟨.badEscape, by simp [stringStep]⟩
  | code radix value left =>
      refine ⟨.unterminated, ?_⟩
      cases left <;> simp [stringStep, plainStep]

/-- A string, or the fault in it, ends in front of the line feed. -/
theorem scanString_within (mode : StringMode) (reversed cs : List Char) :
    ∃ x rest, ∀ more,
      scanString mode reversed (cs ++ '\n' :: more) = (x, rest ++ '\n' :: more) := by
  induction cs generalizing mode reversed with
  | nil =>
      obtain ⟨f, hf⟩ := stringStep_newline mode reversed
      exact ⟨.error f, [], fun more => by simp [scanString, hf]⟩
  | cons c cs ih =>
      cases hstep : stringStep mode reversed c with
      | more mode reversed =>
          obtain ⟨x, rest, h⟩ := ih mode reversed
          exact ⟨x, rest, fun more => by simp [scanString, hstep, h]⟩
      | done reversed => exact ⟨.ok reversed, cs, fun more => by simp [scanString, hstep]⟩
      | stop f => exact ⟨.error f, c :: cs, fun more => by simp [scanString, hstep]⟩

/-- A word ends in front of the line feed. -/
theorem scanWord_within (c : Char) (cs : List Char) :
    ∃ x rest, ∀ more, scanWord c (cs ++ '\n' :: more) = (x, rest ++ '\n' :: more) := by
  have htake : ∀ more, (cs ++ '\n' :: more).takeWhile (!isDelimiter ·) =
      cs.takeWhile (!isDelimiter ·) := by
    intro more
    induction cs with
    | nil => simp
    | cons d cs ih => simp [List.takeWhile_cons, ih]
  have hdrop : ∀ more, (cs ++ '\n' :: more).dropWhile (!isDelimiter ·) =
      cs.dropWhile (!isDelimiter ·) ++ '\n' :: more := by
    intro more
    induction cs with
    | nil => simp
    | cons d cs ih =>
        by_cases hd : isDelimiter d = true <;> simp_all
  refine ⟨(scanWord c cs).1, cs.dropWhile (!isDelimiter ·), fun more => ?_⟩
  simp only [scanWord, htake, hdrop]
  split <;> rfl

/-- A token, or the fault in it, is settled by what comes before the line feed, and leaves the line
feed where it is. -/
theorem scan_within (c : Char) (cs : List Char) :
    ∃ x rest, ∀ more, scan c (cs ++ '\n' :: more) = (x, rest ++ '\n' :: more) := by
  unfold scan
  cases single? c with
  | some t => exact ⟨.ok t, cs, fun more => rfl⟩
  | none =>
      dsimp only
      by_cases hcomma : c = ','
      · rcases cs with _ | ⟨d, cs⟩
        · exact ⟨.ok .comma, [], fun more => by simp [hcomma]⟩
        · by_cases hd : d = '@'
          · exact ⟨.ok .commaAt, cs, fun more => by simp [hcomma, hd]⟩
          · refine ⟨.ok .comma, d :: cs, fun more => ?_⟩
            simp [hcomma, hd]
      · by_cases hstring : c = '"'
        · obtain ⟨x, rest, h⟩ := scanString_within .plain [] cs
          cases x with
          | ok reversed =>
              exact ⟨.ok (.atom (.text (String.ofList reversed.reverse))), rest,
                fun more => by simp [hstring, h]⟩
          | error f => exact ⟨.error f, rest, fun more => by simp [hstring, h]⟩
        · obtain ⟨x, rest, h⟩ := scanWord_within c cs
          exact ⟨x, rest, fun more => by simp [hcomma, hstring, h]⟩

end Token

/-! ## What is left of a line -/

namespace Scanner

/-- What is unread of a line ends in its line feed. -/
def Lined (sc : Scanner) : Prop := sc.rest = [] ∨ ∃ cs, sc.rest = cs ++ ['\n']

theorem Lined.new : ({} : Scanner).Lined := .inl rfl

theorem Lined.skipLine (sc : Scanner) : sc.skipLine.Lined := .inl rfl

theorem Lined.beginForm {sc : Scanner} (h : sc.Lined) : sc.beginForm.Lined := h

theorem Lined.take (sc : Scanner) (text : String) : (sc.take text).Lined := .inr ⟨text.toList, rfl⟩

/-- What comes after blanks is the start of a token and the text after it, up to the line feed. -/
theorem skipBlank_within (cs : List Char) :
    skipBlank (cs ++ ['\n']) = [] ∨ ∃ c ds, skipBlank (cs ++ ['\n']) = c :: (ds ++ ['\n']) := by
  induction cs with
  | nil => exact .inl (by simp [skipBlank])
  | cons c cs ih =>
      simp only [List.cons_append, skipBlank]
      split
      · exact .inl rfl
      · split
        · exact ih
        · exact .inr ⟨c, cs, rfl⟩

theorem Lined.skipBlank {sc : Scanner} (h : sc.Lined) {c : Char} {cs : List Char}
    (hs : skipBlank sc.rest = c :: cs) : ∃ ds, cs = ds ++ ['\n'] := by
  rcases h with hnil | ⟨ds, hds⟩
  · rw [hnil] at hs
    cases hs
  · rw [hds] at hs
    rcases skipBlank_within ds with hnone | ⟨d, es, hsome⟩
    · rw [hnone] at hs
      cases hs
    · rw [hsome] at hs
      cases hs
      exact ⟨es, rfl⟩

theorem Lined.fetch {sc : Scanner} (h : sc.Lined) (src : LineSource) (answers : List Answer) :
    (sc.fetch src answers).2.1.Lined ∧ ∀ c cs, (sc.fetch src answers).1 = .start c cs →
      ∃ ds, cs = ds ++ ['\n'] := by
  induction answers generalizing sc src with
  | nil => exact ⟨h, fun c cs hs => by cases hs⟩
  | cons a answers ih =>
      cases a with
      | fault f => exact ⟨h, fun c cs hs => by cases hs⟩
      | line text =>
          have htaken := Lined.take sc text
          simp only [Scanner.fetch]
          split
          · rename_i d ds hskip
            refine ⟨htaken, fun c cs hs => ?_⟩
            cases hs
            exact htaken.skipBlank hskip
          · exact ih (Lined.skipLine _) _

/-- Where a token is found, it stands before the line feed of its line. -/
theorem Lined.seek {sc : Scanner} (h : sc.Lined) (src : LineSource) :
    (sc.seek src).2.1.Lined ∧ ∀ c cs, (sc.seek src).1 = .start c cs →
      ∃ ds, cs = ds ++ ['\n'] := by
  unfold Scanner.seek
  split
  · rename_i d ds hskip
    refine ⟨h, fun c cs hs => ?_⟩
    cases hs
    exact h.skipBlank hskip
  · dsimp only
    split
    · exact ⟨Lined.skipLine _, fun c cs hs => by cases hs⟩
    · exact (Lined.skipLine _).fetch src src.answers

/-- Once a token is begun, its line has all of it: it is the same whatever else would stand behind
the line, the line feed is left, and the source is as it was when the token was found. -/
theorem Lined.token {sc sc₁ : Scanner} (h : sc.Lined) {src src₁ : LineSource} {c : Char}
    {cs : List Char} (hs : sc.seek src = (.start c cs, sc₁, src₁)) :
    ∃ ds rest, cs = ds ++ ['\n'] ∧
      sc.next src = (((Token.scan c cs).1.mapError sc₁.fault).map some,
        { sc₁ with rest := rest ++ ['\n'] }, src₁) ∧
      ∀ more, Token.scan c (cs ++ more) = ((Token.scan c cs).1, rest ++ '\n' :: more) := by
  have hfeed := (h.seek src).2
  rw [hs] at hfeed
  obtain ⟨ds, rfl⟩ := hfeed c cs rfl
  obtain ⟨x, rest, hscan⟩ := Token.scan_within c ds
  have hline := hscan []
  refine ⟨ds, rest, rfl, ?_, fun more => ?_⟩
  · rw [Scanner.next, hs]
    dsimp only
    rw [hline]
    cases x <;> rfl
  · rw [List.append_assoc, List.singleton_append, hscan, hline]

/-- The source is only asked before a token is begun. -/
theorem source_next (sc : Scanner) (src : LineSource) : (sc.next src).2.2 = (sc.seek src).2.2 := by
  unfold Scanner.next
  rcases sc.seek src with ⟨⟨c, cs⟩ | _ | f, sc₁, src₁⟩
  · dsimp only
    split <;> rfl
  · rfl
  · rfl

/-- The flag of the next request is as the search for a token leaves it. -/
theorem prompt_next (sc : Scanner) (src : LineSource) :
    (sc.next src).2.1.prompt = (sc.seek src).2.1.prompt := by
  unfold Scanner.next
  rcases sc.seek src with ⟨⟨c, cs⟩ | _ | f, sc₁, src₁⟩
  · dsimp only
    split <;> rfl
  · rfl
  · rfl

/-- A token is given only where the start of one is found. -/
theorem seek_of_token {sc : Scanner} {src : LineSource} {t : Token}
    (h : (sc.next src).1 = .ok (some t)) : ∃ c cs, (sc.seek src).1 = .start c cs := by
  unfold Scanner.next at h
  rcases hs : sc.seek src with ⟨⟨c, cs⟩ | _ | f, sc₁, src₁⟩
  · exact ⟨c, cs, rfl⟩
  · rw [hs] at h
    cases h
  · rw [hs] at h
    cases h

theorem Lined.next {sc : Scanner} (h : sc.Lined) (src : LineSource) : (sc.next src).2.1.Lined := by
  have hseek := (h.seek src).1
  rcases hs : sc.seek src with ⟨⟨c, cs⟩ | _ | f, sc₁, src₁⟩
  · obtain ⟨ds, rest, -, hnext, -⟩ := h.token hs
    rw [hnext]
    exact .inr ⟨rest, rfl⟩
  · rw [hs] at hseek
    rw [Scanner.next, hs]
    exact hseek
  · rw [hs] at hseek
    rw [Scanner.next, hs]
    exact hseek

end Scanner

/-! ## Call after call -/

/-- What is done after a fault, before the next token is asked for. -/
inductive FaultPolicy where
  /-- Go on from where the scanner stands. -/
  | goOn
  /-- Leave out the rest of the line. -/
  | skipLine
deriving DecidableEq, Repr

/-- Whether a result is that a line failed to arrive. -/
def interrupted {α : Type} : Except Cause α → Bool
  | .error cause => cause.stopsScript
  | .ok _ => false

/-- A call for the next token: the scanner and the source that it is made on. -/
structure Scan where
  scanner : Scanner := {}
  source : LineSource

namespace Scan

/-- What the call gives. -/
def result (c : Scan) : Except Cause (Option Token) := (c.scanner.next c.source).1

/-- The scanner that the call leaves. -/
def after (c : Scan) : Scanner := (c.scanner.next c.source).2.1

/-- The source that the call leaves. -/
def sourceAfter (c : Scan) : LineSource := (c.scanner.next c.source).2.2

/-- Whether the call finds the end of the input. -/
def isAtEnd (c : Scan) : Bool :=
  match c.result with
  | .ok none => true
  | _ => false

/-- Whether the call ends because a line fails to arrive. -/
def isInterrupted (c : Scan) : Bool := interrupted c.result

/-- The next call. -/
def following (policy : FaultPolicy) (c : Scan) : Scan :=
  match policy, c.result with
  | .skipLine, .error _ => ⟨c.after.skipLine, c.sourceAfter⟩
  | _, _ => ⟨c.after, c.sourceAfter⟩

theorem isAtEnd_eq_false {c : Scan} : c.isAtEnd = false ↔ c.result ≠ .ok none := by
  unfold isAtEnd
  split <;> simp_all

theorem following_eq (policy : FaultPolicy) (c : Scan) :
    c.following policy = ⟨c.after, c.sourceAfter⟩ ∨
      c.following policy = ⟨c.after.skipLine, c.sourceAfter⟩ := by
  unfold following
  split
  · exact .inr rfl
  · exact .inl rfl

theorem following_of_ok {c : Scan} {t : Option Token} (h : c.result = .ok t)
    (policy : FaultPolicy) : c.following policy = ⟨c.after, c.sourceAfter⟩ := by
  unfold following
  rw [h]
  cases policy <;> rfl

/-- Each call before the end of the input leaves less to scan. -/
theorem remaining_following (policy : FaultPolicy) {c : Scan} (h : ¬ c.isAtEnd = true) :
    (c.following policy).scanner.remaining (c.following policy).source <
      c.scanner.remaining c.source := by
  have hne : c.result ≠ .ok none := isAtEnd_eq_false.1 (Bool.eq_false_iff.2 h)
  have hlt : c.after.remaining c.sourceAfter < c.scanner.remaining c.source :=
    (Scanner.remaining_next rfl).2 hne
  rcases following_eq policy c with heq | heq <;> rw [heq]
  · exact hlt
  · refine Nat.lt_of_le_of_lt ?_ hlt
    simp [Scanner.remaining, Scanner.skipLine]

/-- The calls up to the one that finds the end of the input. -/
def toEnd (policy : FaultPolicy) (c : Scan) : List Scan :=
  if _h : c.isAtEnd = true then [c] else c :: toEnd policy (c.following policy)
termination_by c.scanner.remaining c.source
decreasing_by exact remaining_following policy _h

theorem toEnd_of_isAtEnd {policy : FaultPolicy} {c : Scan} (h : c.isAtEnd = true) :
    c.toEnd policy = [c] := by
  rw [toEnd, dif_pos h]

theorem toEnd_of_not_isAtEnd {policy : FaultPolicy} {c : Scan} (h : ¬ c.isAtEnd = true) :
    c.toEnd policy = c :: (c.following policy).toEnd policy := by
  rw [toEnd, dif_neg h]

theorem mem_toEnd_self (policy : FaultPolicy) (c : Scan) : c ∈ c.toEnd policy := by
  by_cases h : c.isAtEnd = true
  · rw [toEnd_of_isAtEnd h]
    exact List.mem_singleton_self c
  · rw [toEnd_of_not_isAtEnd h]
    exact List.mem_cons_self

/-- The last call finds the end of the input, and none before it does. -/
theorem toEnd_ends (policy : FaultPolicy) (c : Scan) :
    ∃ before last, c.toEnd policy = before ++ [last] ∧ last.isAtEnd = true ∧
      ∀ d ∈ before, d.isAtEnd = false := by
  fun_induction toEnd policy c with
  | case1 c hend => exact ⟨[], c, rfl, hend, by simp⟩
  | case2 c hmore ih =>
      obtain ⟨before, last, heq, hend, hbefore⟩ := ih
      refine ⟨c :: before, last, by rw [heq, List.cons_append], hend, ?_⟩
      exact List.forall_mem_cons.2 ⟨Bool.eq_false_iff.2 hmore, hbefore⟩

/-- What holds of the first call, and of the next one with each, holds of all. -/
theorem forall_mem_toEnd {p : Scan → Prop} {policy : FaultPolicy} {c : Scan} (hc : p c)
    (hnext : ∀ d, p d → p (d.following policy)) : ∀ d ∈ c.toEnd policy, p d := by
  fun_induction toEnd policy c with
  | case1 c hend => exact List.forall_mem_singleton.2 hc
  | case2 c hmore ih => exact List.forall_mem_cons.2 ⟨hc, ih (hnext c hc)⟩

/-- In every call, what is unread of a line ends in its line feed. -/
theorem lined_following {policy : FaultPolicy} {c : Scan} (h : c.scanner.Lined) :
    (c.following policy).scanner.Lined := by
  rcases following_eq policy c with heq | heq <;> rw [heq]
  · exact h.next c.source
  · exact Scanner.Lined.skipLine _

end Scan

end SmallLisp
