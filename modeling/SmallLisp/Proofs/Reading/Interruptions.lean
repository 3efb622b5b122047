import Mathlib
import SmallLisp.Proofs.Reading.Scanning

/-!
# Lines that fail to arrive

A line is only asked for between tokens, so a failure in between costs nothing. The scanner that is
interrupted has come as far as it would have come without the failure, and the next call goes on
from there: whatever fails to arrive and however often, the tokens, the faults in the text and the
places where the scanner stands are those of the lines alone.
-/

namespace SmallLisp

/-- Whether an answer is a line. -/
def Answer.isLine : Answer → Bool
  | .line _ => true
  | .fault _ => false

namespace Scanner

/-! ## Seeking without failures -/

/-- What is found, where the scanner stands then, and what its source still answers. -/
def found (r : Sought × Scanner × LineSource) : Sought × Scanner × List Answer :=
  (r.1, r.2.1, r.2.2.answers)

/-- What is found where no line fails to arrive. -/
def smoothly (sc : Scanner) (answers : List Answer) : Sought × Scanner × List Answer :=
  found (sc.seek { answers := answers.filter Answer.isLine })

/-- What is found in the end, if after an interruption no line fails to arrive. -/
def onward : Sought × Scanner × LineSource → Sought × Scanner × List Answer
  | (.failed _, sc, src) => sc.smoothly src.answers
  | (x, sc, src) => (x, sc, src.answers.filter Answer.isLine)

/-- What is found by asking for lines depends on the answers alone. -/
theorem found_fetch (answers : List Answer) (sc : Scanner) (src src' : LineSource) :
    found (sc.fetch src answers) = found (sc.fetch src' answers) := by
  induction answers generalizing sc src src' with
  | nil => rfl
  | cons a answers ih =>
      cases a with
      | fault f => rfl
      | line text =>
          simp only [fetch]
          split
          · rfl
          · exact ih _ _ _

theorem found_seek {src src' : LineSource} (sc : Scanner) (h : src.answers = src'.answers) :
    found (sc.seek src) = found (sc.seek src') := by
  unfold seek
  split
  · exact congrArg (fun as => (_, _, as)) h
  · dsimp only
    split
    · exact congrArg (fun as => (_, _, as)) h
    · rw [h]
      exact found_fetch _ _ _ _

theorem smoothly_filter (sc : Scanner) (answers : List Answer) :
    sc.smoothly (answers.filter Answer.isLine) = sc.smoothly answers := by
  simp [smoothly]

/-- Where nothing is unread, lines are asked for. -/
theorem smoothly_of_rest_nil {sc : Scanner} (hrest : sc.rest = []) (hend : sc.atEnd = false)
    (answers : List Answer) (src : LineSource) :
    sc.smoothly answers = found (sc.fetch src (answers.filter Answer.isLine)) := by
  have hskip : sc.skipLine = sc := by
    unfold skipLine
    rw [← hrest]
  rw [smoothly, seek, hrest, skipBlank, hskip]
  simp only [hend, Bool.false_eq_true, if_false]
  exact found_fetch _ _ _ _

/-- Asking for lines comes as far as the first failure, and from there on it finds what it would
have found without. -/
theorem onward_fetch (answers : List Answer) {sc : Scanner} (hrest : sc.rest = [])
    (hend : sc.atEnd = false) (src src' : LineSource) :
    found (sc.fetch src' (answers.filter Answer.isLine)) = onward (sc.fetch src answers) := by
  induction answers generalizing sc src src' with
  | nil => rfl
  | cons a answers ih =>
      cases a with
      | fault f =>
          rw [List.filter_cons_of_neg (by simp [Answer.isLine])]
          exact (smoothly_of_rest_nil hrest hend answers src').symm
      | line text =>
          rw [List.filter_cons_of_pos (by simp [Answer.isLine])]
          simp only [fetch]
          split
          · rfl
          · exact ih (show (sc.take text).skipLine.rest = [] from rfl) hend _ _

/-- An interruption changes nothing about what is found in the end. -/
theorem smoothly_eq_onward (sc : Scanner) (src : LineSource) :
    sc.smoothly src.answers = onward (sc.seek src) := by
  rw [smoothly]
  unfold seek
  split
  · rfl
  · dsimp only
    split
    · rfl
    · rename_i hend
      exact onward_fetch src.answers rfl (Bool.eq_false_iff.2 hend) src _

/-- An interrupted scanner has nothing unread. -/
theorem rest_of_failed {sc sc' : Scanner} {src src' : LineSource} {f : SourceFault}
    (h : sc.seek src = (.failed f, sc', src')) : sc'.rest = [] := by
  have fetched : ∀ (answers : List Answer) (sc : Scanner) (src : LineSource), sc.rest = [] →
      sc.fetch src answers = (.failed f, sc', src') → sc'.rest = [] := by
    intro answers
    induction answers with
    | nil => intro sc src _ h; cases h
    | cons a answers ih =>
        intro sc src hrest h
        cases a with
        | fault g =>
            cases h
            exact hrest
        | line text =>
            simp only [fetch] at h
            split at h
            · cases h
            · exact ih _ _ rfl h
  unfold seek at h
  split at h
  · cases h
  · dsimp only at h
    split at h
    · cases h
    · exact fetched _ _ _ rfl h

end Scanner

namespace Scan

open Scanner

/-! ## The course of the calls -/

/-- What a call comes to: what it gives, and where the scanner stands then. -/
def outcome (c : Scan) : Except Cause (Option Token) × Scanner := (c.result, c.after)

/-- What a call makes of what it finds. -/
def outcomeOf : Sought → Scanner → Except Cause (Option Token) × Scanner
  | .start c cs, sc =>
      (((Token.scan c cs).1.mapError sc.fault).map some, { sc with rest := (Token.scan c cs).2 })
  | .ended, sc => (.ok none, sc)
  | .failed f, sc => (.error (.io f.message), sc)

theorem outcome_eq (c : Scan) :
    c.outcome = outcomeOf (c.scanner.seek c.source).1 (c.scanner.seek c.source).2.1 ∧
      c.sourceAfter = (c.scanner.seek c.source).2.2 := by
  refine ⟨?_, c.scanner.source_next c.source⟩
  unfold outcome result after Scanner.next
  rcases c.scanner.seek c.source with ⟨⟨d, cs⟩ | _ | f, sc, src⟩
  · dsimp only
    rcases hscan : Token.scan d cs with ⟨_ | _, rest⟩ <;>
      simp [outcomeOf, hscan, Except.mapError, Except.map]
  · rfl
  · rfl

theorem result_of_outcome {c d : Scan} (h : d.outcome = c.outcome) : d.result = c.result :=
  (Prod.mk.inj h).1

theorem isAtEnd_of_outcome {c d : Scan} (h : d.outcome = c.outcome) : d.isAtEnd = c.isAtEnd := by
  unfold isAtEnd
  rw [result_of_outcome h]

/-- A call is interrupted exactly if it fails to find out whether there is a token. -/
theorem isInterrupted_iff (c : Scan) :
    c.isInterrupted = true ↔ ∃ f, (c.scanner.seek c.source).1 = .failed f := by
  have hresult := congrArg Prod.fst (outcome_eq c).1
  unfold isInterrupted
  rw [show c.result = _ from hresult]
  rcases (c.scanner.seek c.source).1 with ⟨d, cs⟩ | _ | f
  · rcases hscan : Token.scan d cs with ⟨_ | _, rest⟩ <;>
      simp [outcomeOf, hscan, Except.mapError, Except.map, fault, interrupted, Cause.stopsScript]
  · simp [outcomeOf, interrupted]
  · simp [outcomeOf, interrupted, Cause.stopsScript]

/-- The second call is made on a source of lines, and finds what the first would find if no line
failed to arrive. -/
structure Level (c d : Scan) : Prop where
  lines : ∀ a ∈ d.source.answers, a.isLine = true
  found : c.scanner.smoothly c.source.answers = d.scanner.smoothly d.source.answers

/-- After an interruption, the next call is level with what the interrupted one was. -/
theorem Level.resumed {c d : Scan} (h : Level c d) (hc : c.isInterrupted = true)
    (policy : FaultPolicy) : Level (c.following policy) d := by
  obtain ⟨f, hf⟩ := c.isInterrupted_iff.1 hc
  obtain ⟨hout, hsource⟩ := c.outcome_eq
  rcases hs : c.scanner.seek c.source with ⟨x, sc, src⟩
  rw [hs] at hf hout hsource
  dsimp only at hf
  subst hf
  have hafter : c.after = sc := congrArg Prod.snd hout
  have hskip : sc.skipLine = sc := by
    unfold skipLine
    rw [← rest_of_failed hs]
  have hfollowing : c.following policy = ⟨sc, src⟩ := by
    rcases following_eq policy c with heq | heq <;> rw [heq, hafter, hsource]
    rw [hskip]
  refine ⟨h.lines, ?_⟩
  rw [hfollowing, ← h.found, smoothly_eq_onward c.scanner, hs]
  rfl

/-- Where the first call is not interrupted, both come to the same, and the next ones are level. -/
theorem Level.together {c d : Scan} (h : Level c d) (hc : ¬ c.isInterrupted = true)
    (policy : FaultPolicy) :
    d.outcome = c.outcome ∧ Level (c.following policy) (d.following policy) := by
  have hfound : Scanner.found (d.scanner.seek d.source) = onward (c.scanner.seek c.source) := by
    rw [← smoothly_eq_onward, h.found, smoothly, List.filter_eq_self.2 h.lines]
    exact found_seek _ rfl
  obtain ⟨hout, hsource⟩ := c.outcome_eq
  obtain ⟨hout', hsource'⟩ := d.outcome_eq
  have hnot := mt c.isInterrupted_iff.2 hc
  rcases hs : c.scanner.seek c.source with ⟨x, sc, src⟩
  rcases hs' : d.scanner.seek d.source with ⟨x', sc', src'⟩
  rw [hs] at hfound hout hsource hnot
  rw [hs'] at hfound hout' hsource'
  have honward : onward (x, sc, src) = (x, sc, src.answers.filter Answer.isLine) := by
    cases x with
    | failed f => exact absurd ⟨f, rfl⟩ hnot
    | _ => rfl
  rw [honward] at hfound
  simp only [Scanner.found, Prod.mk.injEq] at hfound
  obtain ⟨rfl, rfl, hanswers⟩ := hfound
  have hsame : d.outcome = c.outcome := hout'.trans hout.symm
  have hresult : d.result = c.result := result_of_outcome hsame
  have hafter : d.after = c.after := (Prod.mk.inj hsame).2
  refine ⟨hsame, ?_, ?_⟩
  · intro a ha
    have hmem : a ∈ src'.answers := by
      rcases following_eq policy d with heq | heq <;>
      · rw [heq, hsource'] at ha
        exact ha
    rw [hanswers] at hmem
    exact (List.mem_filter.1 hmem).2
  · unfold following
    rw [hresult, hafter, hsource, hsource']
    split <;> dsimp only <;> rw [hanswers, smoothly_filter]

/-- Call after call, the uninterrupted calls come to what the calls on the lines come to. -/
theorem Level.toEnd {c d : Scan} (h : Level c d) (policy : FaultPolicy) :
    ((c.toEnd policy).filter (!·.isInterrupted)).map outcome = (d.toEnd policy).map outcome := by
  fun_induction Scan.toEnd policy c generalizing d with
  | case1 c hend =>
      have hc : ¬ c.isInterrupted = true := by
        unfold isAtEnd at hend
        unfold isInterrupted interrupted
        split at hend <;> simp_all
      obtain ⟨hsame, -⟩ := h.together hc policy
      have hend' : d.isAtEnd = true := (isAtEnd_of_outcome hsame).trans hend
      rw [toEnd_of_isAtEnd hend', List.filter_cons_of_pos (by simpa using hc)]
      simp [hsame]
  | case2 c hmore ih =>
      by_cases hc : c.isInterrupted = true
      · rw [List.filter_cons_of_neg (by simpa using hc)]
        exact ih (h.resumed hc policy)
      · obtain ⟨hsame, hnext⟩ := h.together hc policy
        have hmore' : ¬ d.isAtEnd = true := isAtEnd_of_outcome hsame ▸ hmore
        rw [toEnd_of_not_isAtEnd hmore', List.filter_cons_of_pos (by simpa using hc),
          List.map_cons, List.map_cons, hsame, ih hnext]

/-- Lines that fail to arrive lose no text. Whatever fails to arrive between the lines of a source,
and however often, the calls up to the end of the input give the same tokens and the same faults in
the text as those on the lines alone, one after the other, and leave the scanner at the same places;
the calls that are interrupted come on top. For the next line is only asked for where no character
of a token is taken: once one is found, the source is not asked again, and the line has all of it,
whatever else might stand behind the line. -/
theorem interruptions_lose_nothing (policy : FaultPolicy) (src lines : LineSource)
    (h : lines.answers = src.answers.filter Answer.isLine) :
    (((Scan.mk {} src).toEnd policy).filter (!·.isInterrupted)).map outcome =
        ((Scan.mk {} lines).toEnd policy).map outcome ∧
      (∀ c ∈ (Scan.mk {} lines).toEnd policy, c.isInterrupted = false) ∧
      ∀ c ∈ (Scan.mk {} src).toEnd policy, ∀ d cs sc found,
        c.scanner.seek c.source = (.start d cs, sc, found) →
          c.sourceAfter = found ∧ ∃ rest, rest ≠ [] ∧ c.after = { sc with rest } ∧
            ∀ more, Token.scan d (cs ++ more) = ((Token.scan d cs).1, rest ++ more) := by
  have hlevel : Level ⟨{}, src⟩ ⟨{}, lines⟩ := by
    refine ⟨fun a ha => ?_, ?_⟩
    · rw [h] at ha
      exact (List.mem_filter.1 ha).2
    · rw [h, smoothly_filter]
  have hsame := hlevel.toEnd policy
  refine ⟨hsame, fun c hc => ?_, fun c hc d cs sc found hs => ?_⟩
  · -- what the calls on the lines come to, an uninterrupted call comes to
    have hmem : c.outcome ∈ ((Scan.mk {} lines).toEnd policy).map outcome :=
      List.mem_map_of_mem hc
    rw [← hsame] at hmem
    obtain ⟨e, he, heq⟩ := List.mem_map.1 hmem
    have hnot := (List.mem_filter.1 he).2
    unfold isInterrupted at hnot ⊢
    rw [← result_of_outcome heq]
    simpa using hnot
  · have hlined : c.scanner.Lined :=
      forall_mem_toEnd (p := fun c => c.scanner.Lined) Lined.new (fun _ => lined_following) c hc
    obtain ⟨ds, rest, -, hnext, hscan⟩ := hlined.token hs
    refine ⟨congrArg (·.2.2) hnext, rest ++ ['\n'], by simp, congrArg (·.2.1) hnext,
      fun more => ?_⟩
    rw [hscan, List.append_assoc, List.singleton_append]

/-- A source that fails between its lines and twice at its end: the string that the second line does
not close is a fault on line 2 still, and the first token is settled by the first line. -/
theorem interruptions_lose_nothing_twoLines :
    ∃ src lines : LineSource, src.answers = [.line "(a", .fault .invalidText, .line "b \"c",
        .fault (.reported "broken"), .fault .invalidText] ∧
      lines.answers = src.answers.filter Answer.isLine ∧
      (((Scan.mk {} src).toEnd .goOn).filter (!·.isInterrupted)).map outcome =
        ((Scan.mk {} lines).toEnd .goOn).map outcome ∧
      Scan.mk {} src ∈ (Scan.mk {} src).toEnd .goOn ∧
      ∃ sc found, ({} : Scanner).seek src = (.start '(' ['a', '\n'], sc, found) ∧
        (Scan.mk {} src).sourceAfter = found := by
  have hmem := mem_toEnd_self .goOn (Scan.mk {} { answers := [.line "(a", .fault .invalidText,
    .line "b \"c", .fault (.reported "broken"), .fault .invalidText] })
  obtain ⟨hsame, -, htoken⟩ := interruptions_lose_nothing .goOn { answers := [.line "(a",
    .fault .invalidText, .line "b \"c", .fault (.reported "broken"), .fault .invalidText] }
    { answers := [.line "(a", .line "b \"c"] } rfl
  exact ⟨_, _, rfl, rfl, hsame, hmem, _, _, rfl, (htoken _ hmem _ _ _ _ rfl).1⟩

end Scan

end SmallLisp
