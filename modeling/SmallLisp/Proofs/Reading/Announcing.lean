import SmallLisp.Proofs.Reading.Grammar
import SmallLisp.Proofs.Reading.Scanning

/-!
# Which lines are announced as the start of a form

A request for a line tells whether the line is to start a form. A reading sets the flag when it
begins and clears it with the first line that it gets, and no token touches it. So the first request
of a reading is announced, and no other: where a form starts in the middle of a line, the line that
continues it is announced, and where blank lines come before a form, the line that it starts on is
not. In between, for a form that starts on the first line that is asked for, the flag is right.
-/

namespace SmallLisp

/-- So many requests for lines one after another, last first, the first of them with the flag. -/
def LineSource.asks (prompt : Bool) : Nat → List Request
  | 0 => []
  | n + 1 => List.replicate n (.line false) ++ [.line prompt]

open LineSource

namespace Scanner

/-- Once a line is asked for, the flag is down. -/
theorem asks_add (prompt : Bool) (m n : Nat) :
    asks (prompt && decide (m = 0)) n ++ asks prompt m = asks prompt (m + n) := by
  cases m with
  | zero => simp [asks]
  | succ m =>
      cases n with
      | zero => rfl
      | succ n =>
          have hsum : m + 1 + (n + 1) = (n + 1 + m) + 1 := by omega
          rw [hsum]
          simp only [asks, Nat.add_one_ne_zero, decide_false, Bool.and_false,
            ← List.append_assoc, ← List.replicate_succ', List.replicate_append_replicate]

theorem asks_cons (prompt : Bool) (n : Nat) :
    asks false n ++ [.line prompt] = asks prompt (n + 1) := by
  have hadd := asks_add prompt 1 n
  rw [decide_eq_false Nat.one_ne_zero, Bool.and_false, Nat.add_comm] at hadd
  exact hadd

/-- Asking for lines is at least one request, and the first has the flag. A line that was taken lets
it down. -/
theorem requests_fetch (answers : List Answer) (sc : Scanner) (src : LineSource) :
    ∃ n, (sc.fetch src answers).2.2.requests = asks sc.prompt (n + 1) ++ src.requests ∧
      ∀ c cs, (sc.fetch src answers).1 = .start c cs →
        (sc.fetch src answers).2.1.prompt = false := by
  induction answers generalizing sc src with
  | nil => exact ⟨0, rfl, fun c cs hs => by cases hs⟩
  | cons a answers ih =>
      cases a with
      | fault f => exact ⟨0, rfl, fun c cs hs => by cases hs⟩
      | line text =>
          simp only [fetch]
          split
          · exact ⟨0, rfl, fun _ _ _ => rfl⟩
          · obtain ⟨n, hn, hprompt⟩ := ih (sc.take text).skipLine (src.asked sc.prompt answers)
            refine ⟨n + 1, ?_, hprompt⟩
            rw [hn, ← asks_cons sc.prompt, List.append_assoc]
            rfl

theorem requests_seek (sc : Scanner) (src : LineSource) :
    ∃ n, (sc.seek src).2.2.requests = asks sc.prompt n ++ src.requests ∧
      ∀ c cs, (sc.seek src).1 = .start c cs →
        (sc.seek src).2.1.prompt = (sc.prompt && decide (n = 0)) := by
  unfold seek
  split
  · exact ⟨0, rfl, fun _ _ _ => by simp⟩
  · dsimp only
    split
    · exact ⟨0, rfl, fun _ _ hs => by cases hs⟩
    · obtain ⟨n, hn, hprompt⟩ := requests_fetch src.answers sc.skipLine src
      exact ⟨n + 1, hn, fun c cs hs => by simpa using hprompt c cs hs⟩

/-- The requests that a call for a token makes. If it gives one, the flag is still up only if it was
up and no line was asked for. -/
theorem requests_next (sc : Scanner) (src : LineSource) :
    ∃ n, (sc.next src).2.2.requests = asks sc.prompt n ++ src.requests ∧
      ∀ t, (sc.next src).1 = .ok (some t) →
        (sc.next src).2.1.prompt = (sc.prompt && decide (n = 0)) := by
  obtain ⟨n, hn, hprompt⟩ := requests_seek sc src
  rw [source_next, prompt_next]
  refine ⟨n, hn, fun t ht => ?_⟩
  obtain ⟨c, cs, hs⟩ := seek_of_token ht
  exact hprompt c cs hs

/-- The requests that are made until some tokens are taken. -/
theorem Gives.requests {sc sc' : Scanner} {src src' : LineSource} {ts : List Token}
    (h : sc.Gives src ts sc' src') :
    ∃ n, src'.requests = asks sc.prompt n ++ src.requests ∧
      sc'.prompt = (sc.prompt && decide (n = 0)) := by
  induction h with
  | none sc src => exact ⟨0, rfl, by simp⟩
  | @next sc sc₁ sc' src src₁ src' t ts first rest ih =>
      obtain ⟨m, hm, hprompt⟩ := requests_next sc src
      obtain ⟨n, hn, hprompt'⟩ := ih
      rw [first] at hm hprompt
      have hflag := hprompt t rfl
      dsimp only at hm hflag
      refine ⟨m + n, ?_, ?_⟩
      · rw [hn, hm, hflag, ← List.append_assoc, asks_add]
      · rw [hprompt', hflag]
        by_cases h0 : m = 0 <;> simp [h0]

end Scanner

namespace Reader

open Scanner

@[simp] theorem prompt_prepared (r : Reader) : r.prepared.prompt = true := by
  unfold prepared
  split <;> rfl

/-- In the course of a reading the tokens are taken and the form is unfinished, so that the next
token is asked for. -/
structure Underway (r : Reader) (src : LineSource) (ts : List Token) (sc : Scanner)
    (s : LineSource) : Prop where
  taken : r.prepared.Gives src ts sc s
  unfinished : ∃ stack, Parser.parse [] ts = (.more stack, [])

/-- The reading does go through it. -/
theorem Underway.readForm_eq {r : Reader} {src s : LineSource} {ts : List Token} {sc : Scanner}
    (h : r.Underway src ts sc s) :
    ∃ stack, readForm [] r.prepared src = readForm stack sc s ∧
      Parser.parse [] ts = (.more stack, []) := by
  obtain ⟨stack, hstack⟩ := h.unfinished
  exact ⟨stack, readForm_of_gives h.taken hstack, hstack⟩

/-- Every line that the reading asks for is announced as the start of a form exactly if no token of
the form has been taken. -/
def Heralds (r : Reader) (src : LineSource) : Prop :=
  ∀ ts sc s, r.Underway src ts sc s → ∀ made, (sc.next s).2.2.requests = made ++ s.requests →
    ∀ q ∈ made, q = .line ts.isEmpty

/-- The reading starts on a new line, and the first line that it asks for is not blank, if there is
one. -/
structure StartsLine (r : Reader) (src : LineSource) : Prop where
  unread : skipBlank r.prepared.rest = []
  line : ∀ text answers, src.answers = .line text :: answers →
    skipBlank (text.toList ++ ['\n']) ≠ []

/-- What a reading asks for, at any point of it. -/
theorem Underway.requests {r : Reader} {src s : LineSource} {ts : List Token} {sc : Scanner}
    (h : r.Underway src ts sc s) :
    ∃ m n, s.requests = asks true m ++ src.requests ∧
      (sc.next s).2.2.requests = asks (decide (m = 0)) n ++ s.requests := by
  obtain ⟨m, hm, hprompt⟩ := h.taken.requests
  obtain ⟨n, hn, -⟩ := requests_next sc s
  rw [prompt_prepared] at hm hprompt
  rw [hprompt, Bool.true_and] at hn
  exact ⟨m, n, hm, hn⟩

/-- A search that starts on a new line makes one request at most, and lets the flag down if it finds
a token. -/
theorem StartsLine.requests {r : Reader} {src : LineSource} (h : r.StartsLine src) :
    ((r.prepared.next src).2.2.requests = src.requests ∨
        (r.prepared.next src).2.2.requests = .line true :: src.requests) ∧
      ∀ t, (r.prepared.next src).1 = .ok (some t) →
        (r.prepared.next src).2.1.prompt = false := by
  have hseek : ((r.prepared.seek src).2.2.requests = src.requests ∨
        (r.prepared.seek src).2.2.requests = .line true :: src.requests) ∧
      ∀ c cs, (r.prepared.seek src).1 = .start c cs →
        (r.prepared.seek src).2.1.prompt = false := by
    have hflag : r.prepared.skipLine.prompt = true := r.prompt_prepared
    rw [seek, h.unread]
    dsimp only
    split
    · exact ⟨.inl rfl, fun c cs hs => by cases hs⟩
    · rcases hsrc : src.answers with _ | ⟨text | f, answers⟩
      · exact ⟨.inr (by simp [fetch, LineSource.asked, hflag]), fun c cs hs => by cases hs⟩
      · simp only [fetch]
        split
        · exact ⟨.inr (by simp [LineSource.asked, hflag]), fun _ _ _ => rfl⟩
        · rename_i hblank
          exact absurd hblank (h.line text answers hsrc)
      · exact ⟨.inr (by simp [fetch, LineSource.asked, hflag]), fun c cs hs => by cases hs⟩
  rw [source_next, prompt_next]
  refine ⟨hseek.1, fun t ht => ?_⟩
  obtain ⟨c, cs, hs⟩ := seek_of_token ht
  exact hseek.2 c cs hs

theorem eq_of_mem_asks_false {n : Nat} {q : Request} (h : q ∈ asks false n) : q = .line false := by
  cases n with
  | zero => cases h
  | succ n =>
      rcases List.mem_append.1 h with h | h
      · exact (List.mem_replicate.1 h).2
      · exact List.mem_singleton.1 h

theorem StartsLine.heralds {r : Reader} {src : LineSource} (h : r.StartsLine src) :
    r.Heralds src := by
  intro ts sc s hway made hmade q hq
  obtain ⟨hone, hdown⟩ := h.requests
  cases hway.taken with
  | none =>
      rcases hone with heq | heq <;> rw [heq] at hmade
      · rw [List.self_eq_append_left.1 hmade] at hq
        cases hq
      · rw [← List.singleton_append, List.append_cancel_right_eq] at hmade
        rw [← hmade] at hq
        exact List.mem_singleton.1 hq
  | next first rest =>
      obtain ⟨m, -, hprompt⟩ := rest.requests
      have hflag := hdown _ (congrArg Prod.fst first)
      rw [first] at hflag
      rw [hflag, Bool.false_and] at hprompt
      obtain ⟨n, hn, -⟩ := requests_next sc s
      rw [hprompt] at hn
      rw [hn, List.append_cancel_right_eq] at hmade
      exact eq_of_mem_asks_false (hmade ▸ hq)

/-- What the parser has taken before, it had taken without a form or a fault. -/
theorem Underway.of_append {r : Reader} {src s : LineSource} {ts us : List Token} {sc : Scanner}
    (h : r.Underway src (ts ++ us) sc s) :
    ∃ sc₁ s₁, r.Underway src ts sc₁ s₁ ∧ sc₁.Gives s₁ us sc s := by
  have taken : ∀ (ts : List Token) (stack : List Pending) {last : List Pending},
      Parser.parse stack (ts ++ us) = (.more last, []) →
      ∃ mid, Parser.parse stack ts = (.more mid, []) := by
    intro ts
    induction ts with
    | nil => exact fun stack _ _ => ⟨stack, rfl⟩
    | cons t ts ih =>
        intro stack last hlast
        rw [List.cons_append, Parser.parse_cons] at hlast
        rw [Parser.parse_cons]
        cases hfeed : Parser.feed stack t with
        | more next =>
            rw [hfeed] at hlast
            exact ih next hlast
        | done f => simp [hfeed] at hlast
        | fault e => simp [hfeed] at hlast
  obtain ⟨sc₁, s₁, hts, hus⟩ := h.taken.of_append
  obtain ⟨stack, hstack⟩ := h.unfinished
  exact ⟨sc₁, s₁, ⟨hts, taken ts [] hstack⟩, hus⟩

/-- A blank line costs a second request. -/
theorem requests_of_blank {sc : Scanner} {src : LineSource} {text : String}
    {answers : List Answer} (hrest : skipBlank sc.rest = []) (hend : sc.atEnd = false)
    (hsrc : src.answers = .line text :: answers)
    (hblank : skipBlank (text.toList ++ ['\n']) = []) :
    ∃ n, (sc.next src).2.2.requests = asks sc.prompt (n + 2) ++ src.requests := by
  have htaken : skipBlank (sc.skipLine.take text).rest = [] := hblank
  obtain ⟨n, hn, -⟩ := requests_fetch answers (sc.skipLine.take text).skipLine
    (src.asked sc.prompt answers)
  refine ⟨n, ?_⟩
  rw [source_next, seek, hrest]
  simp only [show sc.skipLine.atEnd = false from hend, Bool.false_eq_true, if_false, hsrc, fetch,
    htaken]
  rw [← asks_cons, List.append_assoc]
  exact hn

/-- If the lines that it asks for are announced rightly, a reading starts on a new line or asks for
none. -/
theorem Heralds.startsLine {r : Reader} {src : LineSource} (h : r.Heralds src) :
    r.StartsLine src ∨ ∀ ts sc s, r.Underway src ts sc s →
      (sc.next s).2.2.requests = src.requests := by
  refine or_iff_not_imp_left.2 fun hnot ts => ?_
  induction ts using List.reverseRecOn with
  | nil =>
      intro sc s hway
      have hmade := h [] sc s hway
      cases hway.taken
      obtain ⟨n, hn, -⟩ := requests_next r.prepared src
      rw [prompt_prepared] at hn
      by_cases hblank : skipBlank r.prepared.rest = []
      · by_cases hend : r.prepared.atEnd = true
        · rw [source_next, seek, hblank]
          simp only [show r.prepared.skipLine.atEnd = true from hend, if_true]
        · -- a second request would not be announced, though no token is taken by then
          refine absurd ⟨hblank, fun text answers hsrc hline => ?_⟩ hnot
          obtain ⟨m, hm⟩ := requests_of_blank hblank (Bool.eq_false_iff.2 hend) hsrc hline
          rw [prompt_prepared] at hm
          have hfalse := hmade _ hm (.line false) (by simp [asks])
          cases hfalse
      · rcases hskip : skipBlank r.prepared.rest with _ | ⟨c, cs⟩
        · exact absurd hskip hblank
        · rw [source_next, seek, hskip]
  | append_singleton ts t ih =>
      intro sc s hway
      have hmade := h _ sc s hway
      obtain ⟨sc₁, s₁, hbefore, hlast⟩ := hway.of_append
      have hnone := ih sc₁ s₁ hbefore
      cases hlast with
      | next first rest =>
          cases rest
          rw [first] at hnone
          obtain ⟨m, n, hm, hn⟩ := hway.requests
          dsimp only at hnone
          -- no line was asked for yet, so the next one is announced, though tokens are taken
          have hzero : m = 0 := by
            rw [hnone] at hm
            have hnil := List.self_eq_append_left.1 hm
            cases m with
            | zero => rfl
            | succ m => simp [asks] at hnil
          subst hzero
          rw [decide_eq_true rfl] at hn
          cases n with
          | zero => rw [hn, hnone]; rfl
          | succ n =>
              have htrue := hmade _ hn (.line true) (by simp [asks])
              simp at htrue

/-- The requests that are made until there is a form or a fault. -/
theorem requests_readForm (stack : List Pending) (sc : Scanner) (src : LineSource) :
    ∃ n, (readForm stack sc src).2.2.requests = asks sc.prompt n ++ src.requests := by
  have made : ∀ {sc sc₁ : Scanner} {src src₁ : LineSource} {x : Except Cause (Option Token)},
      sc.next src = (x, sc₁, src₁) → ∃ n, src₁.requests = asks sc.prompt n ++ src.requests := by
    intro sc sc₁ src src₁ x hnext
    obtain ⟨n, hn, -⟩ := requests_next sc src
    rw [hnext] at hn
    exact ⟨n, hn⟩
  fun_induction readForm stack sc src with
  | case1 stack sc src cause sc₁ src₁ hnext => exact made hnext
  | case2 stack sc src sc₁ src₁ hnext hempty => exact made hnext
  | case3 stack sc src sc₁ src₁ hnext hopen => exact made hnext
  | case4 stack sc src t sc₁ src₁ hnext f hfeed => exact made hnext
  | case5 stack sc src t sc₁ src₁ hnext f hfeed => exact made hnext
  | case6 stack sc src t sc₁ src₁ hnext stack' hfeed ih =>
      obtain ⟨m, hm, hprompt⟩ := requests_next sc src
      obtain ⟨n, hn⟩ := ih
      rw [hnext] at hm hprompt
      have hflag := hprompt t rfl
      dsimp only at hm hflag
      refine ⟨m + n, ?_⟩
      rw [hn, hm, hflag, ← List.append_assoc, asks_add]

/-- Of the requests that a reading makes for lines, the first is announced as the start of a form
and no other, whatever tokens are taken by then. So the lines are announced rightly, that is as long
as no token of the form is taken, exactly if the reading starts on a new line and the first line
that it asks for is not blank, or if it asks for no line. -/
theorem first_request_announced (r : Reader) (src : LineSource) :
    (∀ store symbols, ∃ n, (r.read src store symbols).source.requests =
      asks true n ++ src.requests) ∧
    (∀ ts sc s, r.Underway src ts sc s →
      (∃ stack, readForm [] r.prepared src = readForm stack sc s) ∧
      ∃ m n, s.requests = asks true m ++ src.requests ∧
        (sc.next s).2.2.requests = asks true (m + n) ++ src.requests) ∧
    (r.Heralds src ↔ r.StartsLine src ∨ ∀ ts sc s, r.Underway src ts sc s →
      (sc.next s).2.2.requests = src.requests) := by
  refine ⟨fun store symbols => ?_, fun ts sc s h => ⟨?_, ?_⟩, Heralds.startsLine, ?_⟩
  · obtain ⟨n, hn⟩ := requests_readForm [] r.prepared src
    rw [prompt_prepared] at hn
    refine ⟨n, ?_⟩
    rw [← hn]
    unfold read
    rcases readForm [] r.prepared src with ⟨_ | _ | f, sc, s⟩
    · rfl
    · rfl
    · dsimp only
      rcases f.lower store symbols with ⟨_ | _, store, symbols⟩ <;> rfl
  · obtain ⟨stack, hread, -⟩ := h.readForm_eq
    exact ⟨stack, hread⟩
  · obtain ⟨m, n, hm, hn⟩ := h.requests
    refine ⟨m, n, hm, ?_⟩
    rw [hn, hm, ← List.append_assoc, ← asks_add, Bool.true_and]
  · rintro (hstart | hnone)
    · exact hstart.heralds
    · intro ts sc s h made hmade q hq
      obtain ⟨m, -, hm, -⟩ := h.requests
      rw [hnone ts sc s h, hm, ← List.append_assoc] at hmade
      have hnil := (List.append_eq_nil_iff.1 (List.self_eq_append_left.1 hmade)).1
      rw [hnil] at hq
      cases hq

/-- A list over two lines: the second line is asked for with two tokens taken, and not announced. -/
theorem first_request_announced_list :
    ∃ src sc s, src.answers = ["(a", "b)"].map Answer.line ∧
      ({} : Reader).Underway src [.openParen, .atom (.sym "a")] sc s ∧
      (∃ stack, readForm [] ({} : Reader).prepared src = readForm stack sc s) ∧
      ({} : Reader).StartsLine src ∧ ({} : Reader).Heralds src ∧
      (sc.next s).2.2.requests = [.line false, .line true] := by
  have hway : ({} : Reader).Underway { answers := ["(a", "b)"].map .line }
      [.openParen, .atom (.sym "a")] ⟨"(a", ['\n'], 1, false, false⟩
      ⟨[.line "b)"], none, false, [.line true]⟩ :=
    ⟨.next rfl (.next rfl (.none _ _)), [.list [.atom (.sym "a")]], rfl⟩
  have hstart : ({} : Reader).StartsLine { answers := ["(a", "b)"].map .line } := by
    refine ⟨rfl, fun text answers hsrc => ?_⟩
    cases hsrc
    decide
  obtain ⟨-, hpoints, hright⟩ := first_request_announced {} { answers := ["(a", "b)"].map .line }
  exact ⟨_, _, _, rfl, hway, (hpoints _ _ _ hway).1, hstart, hright.2 (.inl hstart), rfl⟩

/-- A list that begins in the middle of a line: the second reading takes two tokens and then
announces the line that the list goes on with as the start of a form. And with a blank line before a
form, the line of the form is not announced, though no token is taken. -/
theorem lines_announced_wrongly :
    (∃ first, first = ({} : Reader).read { answers := ["a (b", "c)"].map .line } { capacity := 8 }
        .new ∧ ¬ first.reader.Heralds first.source) ∧
      ¬ ({} : Reader).Heralds { answers := ["", "a"].map .line } := by
  constructor
  · have hform : readForm [] ({} : Reader).prepared { answers := ["a (b", "c)"].map .line } =
        (.ok (some (.atom (.sym "a"))), ⟨"a (b", [' ', '(', 'b', '\n'], 1, false, false⟩,
          ⟨[.line "c)"], none, false, [.line true]⟩) := readForm_eq _ _ _
    have hread : (({} : Reader).read { answers := ["a (b", "c)"].map .line } { capacity := 8 }
          .new).reader = ⟨⟨"a (b", [' ', '(', 'b', '\n'], 1, false, false⟩, false⟩ ∧
        (({} : Reader).read { answers := ["a (b", "c)"].map .line } { capacity := 8 } .new).source =
          ⟨[.line "c)"], none, false, [.line true]⟩ := by
      rw [read, hform]
      exact ⟨rfl, rfl⟩
    refine ⟨_, rfl, ?_⟩
    rw [hread.1, hread.2]
    intro h
    have hway : Underway ⟨⟨"a (b", [' ', '(', 'b', '\n'], 1, false, false⟩, false⟩
        ⟨[.line "c)"], none, false, [.line true]⟩ [.openParen, .atom (.sym "b")]
        ⟨"a (b", ['\n'], 1, true, false⟩ ⟨[.line "c)"], none, false, [.line true]⟩ :=
      ⟨.next rfl (.next rfl (.none _ _)), [.list [.atom (.sym "b")]], rfl⟩
    have hlast := h _ _ _ hway [.line true] rfl (.line true) (List.mem_singleton_self _)
    cases hlast
  · intro h
    have hway : ({} : Reader).Underway { answers := ["", "a"].map .line } []
        ({} : Reader).prepared { answers := ["", "a"].map .line } := ⟨.none _ _, [], rfl⟩
    have hfirst := h _ _ _ hway [.line false, .line true] rfl (.line false) List.mem_cons_self
    cases hfirst

end Reader

end SmallLisp
