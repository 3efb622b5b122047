import SmallLisp.Proofs.Reading.Parsing

/-!
# Reading on after a fault

A fault in the text costs its own line and nothing else. Whatever was wrong, and wherever in a line
or a form it came up, the next reading stands where a new reader stands that is given the lines
after the faulty one, and so do all readings after it. Only the numbers of lines in failures tell
the two apart.

Two things are followed from token to token: where a scanner stands among the lines of its source
(`Stands`), and that two scanners, one of which was given fewer lines, have the same text before
them (`Trails`).
-/

namespace SmallLisp

/-- The cause as it reads when `k` more lines stand before the text. -/
def Cause.moved (k : Nat) : Cause → Cause
  | .unreadable message lineNumber line => .unreadable message (lineNumber + k) line
  | c => c

theorem Cause.stopsScript_moved (k : Nat) (c : Cause) :
    (c.moved k).stopsScript = c.stopsScript := by
  cases c <;> rfl

namespace Reading

/-- What a reading gives to who asked for it: its result, and what became of the store and the
symbols. -/
def answer (r : Reading) : Except Cause Value × Store × SymbolTable :=
  (r.result, r.store, r.symbols)

/-- The reading as it is when `k` more lines stand before the text. -/
def moved (k : Nat) (r : Reading) : Reading :=
  { r with result := r.result.mapError (Cause.moved k) }

end Reading

namespace Scanner

/-- The scanner is on its way through `lines`: it has taken as many of them as its line number says,
and the source still has the others. -/
structure Stands (lines : List String) (sc : Scanner) (src : LineSource) : Prop where
  within : sc.lineNumber ≤ lines.length
  answers : src.answers = (lines.drop sc.lineNumber).map .line
  line : 0 < sc.lineNumber → lines[sc.lineNumber - 1]? = some sc.line
  taken : sc.rest ≠ [] → 0 < sc.lineNumber
  ended : sc.atEnd = true → sc.lineNumber = lines.length

/-! Line numbers only go up. -/

theorem le_lineNumber_fetch (answers : List Answer) (sc : Scanner) (src : LineSource) :
    sc.lineNumber ≤ (sc.fetch src answers).2.1.lineNumber := by
  induction answers generalizing sc src with
  | nil => exact Nat.le_refl _
  | cons a answers ih =>
      cases a with
      | fault f => exact Nat.le_refl _
      | line text =>
          simp only [fetch]
          split
          · exact Nat.le_succ _
          · exact Nat.le_trans (Nat.le_succ _) (ih (sc.take text).skipLine _)

theorem le_lineNumber_seek (sc : Scanner) (src : LineSource) :
    sc.lineNumber ≤ (sc.seek src).2.1.lineNumber := by
  unfold seek
  split
  · exact Nat.le_refl _
  · dsimp only
    split
    · exact Nat.le_refl _
    · exact le_lineNumber_fetch src.answers sc.skipLine src

theorem le_lineNumber_next {sc sc' : Scanner} {src src' : LineSource}
    {x : Except Cause (Option Token)} (h : sc.next src = (x, sc', src')) :
    sc.lineNumber ≤ sc'.lineNumber := by
  have hseek := le_lineNumber_seek sc src
  unfold next at h
  rcases hs : sc.seek src with ⟨_ | _ | _, sc₁, src₁⟩
  · simp only [hs] at h hseek
    split at h <;>
    · cases h
      exact hseek
  · simp only [hs] at h hseek
    cases h
    exact hseek
  · simp only [hs] at h hseek
    cases h
    exact hseek

namespace Stands

variable {lines : List String} {sc sc' : Scanner} {src src' : LineSource}

theorem start (h : src.answers = lines.map .line) : Stands lines {} src where
  within := Nat.zero_le _
  answers := h
  line := fun h => absurd h (Nat.lt_irrefl 0)
  taken := fun h => absurd rfl h
  ended := fun h => by cases h

theorem beginForm (h : Stands lines sc src) : Stands lines sc.beginForm src :=
  ⟨h.within, h.answers, h.line, h.taken, h.ended⟩

theorem skipLine (h : Stands lines sc src) : Stands lines sc.skipLine src :=
  ⟨h.within, h.answers, h.line, fun hrest => absurd rfl hrest, h.ended⟩

/-- Taking a token leaves the scanner on its line. -/
theorem advance (h : Stands lines sc src) (hline : 0 < sc.lineNumber) (rest : List Char) :
    Stands lines { sc with rest } src :=
  ⟨h.within, h.answers, h.line, fun _ => hline, h.ended⟩

/-- What is left of the lines after one more is taken. -/
theorem take (h : Stands lines sc src) (hend : sc.atEnd = false) {text : String}
    {answers : List Answer} (hs : src.answers = .line text :: answers) (prompt : Bool) :
    Stands lines (sc.take text) (src.asked prompt answers) := by
  have hleft : (lines.drop sc.lineNumber).map Answer.line = .line text :: answers :=
    h.answers.symm.trans hs
  rcases hdrop : lines.drop sc.lineNumber with _ | ⟨next, others⟩
  · rw [hdrop] at hleft
    cases hleft
  · rw [hdrop] at hleft
    cases hleft
    have hlen := congrArg List.length hdrop
    simp only [List.length_drop, List.length_cons] at hlen
    refine ⟨?_, ?_, fun _ => ?_, fun _ => Nat.succ_pos _, fun hat => ?_⟩
    · simp only [Scanner.take]
      omega
    · have hmore := congrArg List.tail hdrop
      rw [List.tail_drop] at hmore
      simp [Scanner.take, LineSource.asked, hmore]
    · have hhead := congrArg List.head? hdrop
      rw [List.head?_drop] at hhead
      simpa [Scanner.take] using hhead
    · rw [show (sc.take text).atEnd = sc.atEnd from rfl, hend] at hat
      cases hat

/-- Lines are there or they are at their end: none fails to arrive. -/
theorem fetch (answers : List Answer) (h : Stands lines sc src) (hend : sc.atEnd = false)
    (hs : src.answers = answers) :
    Stands lines (sc.fetch src answers).2.1 (sc.fetch src answers).2.2 ∧
      (∀ f, (sc.fetch src answers).1 ≠ .failed f) ∧
      (∀ c cs, (sc.fetch src answers).1 = .start c cs →
        0 < (sc.fetch src answers).2.1.lineNumber) := by
  induction answers generalizing sc src with
  | nil =>
      have hlen : lines.length ≤ sc.lineNumber := by
        have hdrop := h.answers.symm.trans hs
        simpa using hdrop
      have hnone : ([] : List Answer) = (lines.drop sc.lineNumber).map .line :=
        hs.symm.trans h.answers
      refine ⟨⟨h.within, hnone, h.line, h.taken, fun _ => Nat.le_antisymm h.within hlen⟩, ?_, ?_⟩
      · intro f hf
        cases hf
      · intro c cs hc
        cases hc
  | cons a answers ih =>
      cases a with
      | fault f =>
          have hmem : Answer.fault f ∈ (lines.drop sc.lineNumber).map Answer.line := by
            rw [← h.answers, hs]
            exact List.mem_cons_self
          obtain ⟨text, -, htext⟩ := List.mem_map.1 hmem
          cases htext
      | line text =>
          have hnext := h.take hend hs sc.prompt
          simp only [Scanner.fetch]
          split
          · refine ⟨hnext, ?_, fun _ _ _ => Nat.succ_pos _⟩
            intro f hf
            cases hf
          · exact ih hnext.skipLine hend rfl

theorem seek (h : Stands lines sc src) :
    Stands lines (sc.seek src).2.1 (sc.seek src).2.2 ∧ (∀ f, (sc.seek src).1 ≠ .failed f) ∧
      (∀ c cs, (sc.seek src).1 = .start c cs → 0 < (sc.seek src).2.1.lineNumber) := by
  unfold Scanner.seek
  split
  · rename_i c cs hskip
    refine ⟨h, by simp, fun _ _ _ => h.taken fun hnil => ?_⟩
    rw [hnil] at hskip
    cases hskip
  · dsimp only
    split
    · exact ⟨h.skipLine, by simp, by simp⟩
    · rename_i hend
      exact h.skipLine.fetch src.answers (Bool.eq_false_iff.2 hend) rfl

/-- A token, or a fault in one, lies on a line that was taken. -/
theorem next (h : Stands lines sc src) {x : Except Cause (Option Token)}
    (hn : sc.next src = (x, sc', src')) :
    Stands lines sc' src' ∧ (x ≠ .ok none → 0 < sc'.lineNumber) ∧
      (∀ c, x = .error c → c.stopsScript = false) := by
  obtain ⟨hs, hfail, hstart⟩ := h.seek
  unfold Scanner.next at hn
  rcases hseek : sc.seek src with ⟨⟨c, cs⟩ | _ | f, sc₁, src₁⟩
  · rw [hseek] at hs hstart
    have hline := hstart c cs rfl
    simp only [hseek] at hn
    split at hn
    · cases hn
      exact ⟨hs.advance hline _, fun _ => hline, by simp⟩
    · cases hn
      exact ⟨hs.advance hline _, fun _ => hline, fun c hc => by cases hc; rfl⟩
  · rw [hseek] at hs
    simp only [hseek] at hn
    cases hn
    exact ⟨hs, fun hx => absurd rfl hx, by simp⟩
  · rw [hseek] at hfail
    exact absurd rfl (hfail f)

end Stands

/-- The two scanners have the same text before them, but the first one has taken `k` lines more. -/
structure Trails (k : Nat) (sc sc' : Scanner) : Prop where
  rest : sc.rest = sc'.rest
  number : sc.lineNumber = sc'.lineNumber + k

namespace Trails

variable {lines : List String} {k : Nat} {sc sc' : Scanner} {src src' : LineSource}

/-- Scanners that trail each other stand on the same line of text. -/
theorem line (h : Trails k sc sc') (hs : Stands lines sc src) (hs' : Stands (lines.drop k) sc' src')
    (hpos : 0 < sc'.lineNumber) : sc.line = sc'.line := by
  have hnumber := h.number
  have hline := hs.line (by omega)
  have hline' := hs'.line hpos
  rw [List.getElem?_drop, show k + (sc'.lineNumber - 1) = sc.lineNumber - 1 by omega, hline]
    at hline'
  exact Option.some.inj hline'

theorem fault (h : Trails k sc sc') (hs : Stands lines sc src)
    (hs' : Stands (lines.drop k) sc' src') (hpos : 0 < sc'.lineNumber) (f : ReadFault) :
    sc.fault f = (sc'.fault f).moved k := by
  simp only [Scanner.fault, Cause.moved, h.number, h.line hs hs' hpos]

theorem answers (h : Trails k sc sc') (hs : Stands lines sc src)
    (hs' : Stands (lines.drop k) sc' src') : src.answers = src'.answers := by
  rw [hs.answers, hs'.answers, List.drop_drop, h.number, Nat.add_comm]

theorem fetch (answers : List Answer) (h : Trails k sc sc') :
    (sc.fetch src answers).1 = (sc'.fetch src' answers).1 ∧
      Trails k (sc.fetch src answers).2.1 (sc'.fetch src' answers).2.1 := by
  induction answers generalizing sc sc' src src' with
  | nil => exact ⟨rfl, h.rest, h.number⟩
  | cons a answers ih =>
      cases a with
      | fault f => exact ⟨rfl, h⟩
      | line text =>
          have hnumber : sc.lineNumber + 1 = sc'.lineNumber + 1 + k := by
            rw [h.number]
            omega
          simp only [Scanner.fetch, Scanner.take]
          split
          · exact ⟨rfl, rfl, hnumber⟩
          · exact ih ⟨rfl, hnumber⟩

/-- Both find the same text. A source that has ended is not asked again, which is all that a
scanner that was given no line can differ in. -/
theorem seek (h : Trails k sc sc') (hs : Stands lines sc src)
    (hs' : Stands (lines.drop k) sc' src') :
    (sc.seek src).1 = (sc'.seek src').1 ∧ Trails k (sc.seek src).2.1 (sc'.seek src').2.1 := by
  have hanswers := h.answers hs hs'
  have hskip : Trails k sc.skipLine sc'.skipLine := ⟨rfl, h.number⟩
  have hnone : sc.lineNumber = lines.length → src'.answers = [] := by
    intro hlen
    rw [← hanswers, hs.answers, hlen]
    simp
  have hnumber := h.number
  unfold Scanner.seek
  rw [h.rest]
  split
  · exact ⟨rfl, h⟩
  · rw [hanswers]
    dsimp only
    split
    · rename_i hend
      have hnil := hnone (hs.ended hend)
      split
      · exact ⟨rfl, hskip⟩
      · rw [hnil]
        exact ⟨rfl, rfl, h.number⟩
    · split
      · rename_i hend
        have hlen := hs'.ended hend
        rw [List.length_drop] at hlen
        have hle := hs.within
        rw [hnone (by omega)]
        exact ⟨rfl, rfl, h.number⟩
      · exact hskip.fetch src'.answers

theorem next (h : Trails k sc sc') (hs : Stands lines sc src)
    (hs' : Stands (lines.drop k) sc' src') :
    (sc.next src).1 = (sc'.next src').1.mapError (Cause.moved k) ∧
      Trails k (sc.next src).2.1 (sc'.next src').2.1 := by
  obtain ⟨hfound, htrails⟩ := h.seek hs hs'
  obtain ⟨hst, -, -⟩ := hs.seek
  obtain ⟨hst', -, hpos⟩ := hs'.seek
  unfold Scanner.next
  rcases hseek : sc.seek src with ⟨found, sc₁, src₁⟩
  rcases hseek' : sc'.seek src' with ⟨found', sc₁', src₁'⟩
  rw [hseek, hseek'] at hfound htrails
  rw [hseek] at hst
  rw [hseek'] at hst' hpos
  dsimp only at hfound
  subst hfound
  cases found with
  | start c cs =>
      dsimp only
      split
      · exact ⟨rfl, rfl, htrails.number⟩
      · rename_i f rest _
        have hfault := htrails.fault hst hst' (hpos c cs rfl) f
        exact ⟨congrArg Except.error hfault, rfl, htrails.number⟩
  | ended => exact ⟨rfl, htrails⟩
  | failed f => exact ⟨rfl, htrails⟩

end Trails

end Scanner

namespace Reader

open Scanner

/-- Reading a form leaves the scanner among the lines; a fault lies on a line that was taken. -/
theorem stands_readForm {lines : List String} {stack : List Pending} {sc sc' : Scanner}
    {src src' : LineSource} {x : Except Cause (Option Form)} (hs : Stands lines sc src)
    (hstack : stack ≠ [] → 0 < sc.lineNumber) (h : readForm stack sc src = (x, sc', src')) :
    Stands lines sc' src' ∧ (x ≠ .ok none → 0 < sc'.lineNumber) ∧
      (∀ c, x = .error c → c.stopsScript = false) := by
  fun_induction readForm stack sc src with
  | case1 stack sc src cause sc₁ src₁ hnext =>
      cases h
      obtain ⟨hst, hpos, hio⟩ := hs.next hnext
      exact ⟨hst, fun _ => hpos (by simp), fun c hc => hio c (by rw [Except.error.inj hc])⟩
  | case2 stack sc src sc₁ src₁ hnext hempty =>
      cases h
      exact ⟨(hs.next hnext).1, fun hx => absurd rfl hx, by simp⟩
  | case3 stack sc src sc₁ src₁ hnext hopen =>
      cases h
      have hpos : 0 < sc.lineNumber := hstack (by simpa using hopen)
      have hle := le_lineNumber_next hnext
      exact ⟨(hs.next hnext).1, fun _ => by omega, fun c hc => by cases hc; rfl⟩
  | case4 stack sc src t sc₁ src₁ hnext f hfeed =>
      cases h
      obtain ⟨hst, hpos, -⟩ := hs.next hnext
      exact ⟨hst, fun _ => hpos (by simp), by simp⟩
  | case5 stack sc src t sc₁ src₁ hnext f hfeed =>
      cases h
      obtain ⟨hst, hpos, -⟩ := hs.next hnext
      exact ⟨hst, fun _ => hpos (by simp), fun c hc => by cases hc; rfl⟩
  | case6 stack sc src t sc₁ src₁ hnext stack' hfeed ih =>
      obtain ⟨hst, hpos, -⟩ := hs.next hnext
      exact ih hst (fun _ => hpos (by simp)) h

/-- Readers that trail each other read the same form, or meet the same fault. -/
theorem trails_readForm {lines : List String} {k : Nat} {stack : List Pending} {sc sc' : Scanner}
    {src src' : LineSource} (h : Trails k sc sc') (hs : Stands lines sc src)
    (hs' : Stands (lines.drop k) sc' src') (hstack : stack ≠ [] → 0 < sc'.lineNumber) :
    (readForm stack sc src).1 = (readForm stack sc' src').1.mapError (Cause.moved k) ∧
      Trails k (readForm stack sc src).2.1 (readForm stack sc' src').2.1 := by
  obtain ⟨hsame, htrails⟩ := h.next hs hs'
  rcases hnext : sc.next src with ⟨x, sc₁, src₁⟩
  fun_induction readForm stack sc' src' generalizing sc src x sc₁ src₁ with
  | case1 stack sc' src' cause sc₁' src₁' hnext' =>
      rw [hnext, hnext'] at hsame htrails
      rw [readForm_eq, hnext]
      cases hsame
      exact ⟨rfl, htrails⟩
  | case2 stack sc' src' sc₁' src₁' hnext' hempty =>
      rw [hnext, hnext'] at hsame htrails
      rw [readForm_eq, hnext]
      cases hsame
      simp only [afterNext, hempty, if_true]
      exact ⟨rfl, htrails⟩
  | case3 stack sc' src' sc₁' src₁' hnext' hopen =>
      have hst := (hs.next hnext).1
      have hst' := (hs'.next hnext').1
      have hpos : 0 < sc'.lineNumber := hstack (by simpa using hopen)
      have hle := le_lineNumber_next hnext'
      rw [hnext, hnext'] at hsame htrails
      rw [readForm_eq, hnext]
      cases hsame
      simp only [afterNext, hopen]
      have hfault := htrails.fault hst hst' (Nat.lt_of_lt_of_le hpos hle) .unexpectedEnd
      exact ⟨congrArg Except.error hfault, htrails⟩
  | case4 stack sc' src' t sc₁' src₁' hnext' f hfeed =>
      rw [hnext, hnext'] at hsame htrails
      rw [readForm_eq, hnext]
      cases hsame
      simp only [afterNext, hfeed, after]
      exact ⟨rfl, htrails⟩
  | case5 stack sc' src' t sc₁' src₁' hnext' f hfeed =>
      have hst := (hs.next hnext).1
      obtain ⟨hst', hpos, -⟩ := hs'.next hnext'
      rw [hnext, hnext'] at hsame htrails
      rw [readForm_eq, hnext]
      cases hsame
      simp only [afterNext, hfeed, after]
      exact ⟨congrArg Except.error (htrails.fault hst hst' (hpos (by simp)) f), htrails⟩
  | case6 stack sc' src' t sc₁' src₁' hnext' stack' hfeed ih =>
      have hst := (hs.next hnext).1
      obtain ⟨hst', hpos, -⟩ := hs'.next hnext'
      rw [hnext, hnext'] at hsame htrails
      rw [readForm_eq, hnext]
      cases hsame
      simp only [afterNext, hfeed, after]
      obtain ⟨hsame₁, htrails₁⟩ := htrails.next hst hst'
      exact ih htrails hst hst' (fun _ => hpos (by simp)) hsame₁ htrails₁ _ _ _ rfl

theorem stands_prepared {lines : List String} {r : Reader} {src : LineSource}
    (hs : Stands lines r.scanner src) : Stands lines r.prepared src := by
  unfold prepared
  split
  · exact hs.beginForm.skipLine
  · exact hs.beginForm

/-- After a fault the reader stands on the faulty line and will leave out the rest of it. -/
theorem stands_read {lines : List String} {r : Reader} {src : LineSource}
    (hs : Stands lines r.scanner src) (store : Store) (symbols : SymbolTable) :
    Stands lines (r.read src store symbols).reader.scanner (r.read src store symbols).source ∧
      ∀ c, (r.read src store symbols).result = .error c →
        c.stopsScript = false ∧ (r.read src store symbols).reader.erred = true ∧
          0 < (r.read src store symbols).reader.scanner.lineNumber := by
  rcases hread : readForm [] r.prepared src with ⟨x, sc', src'⟩
  obtain ⟨hst, hpos, hio⟩ := stands_readForm (stands_prepared hs) (fun h => absurd rfl h) hread
  unfold read
  rw [hread]
  rcases x with c | _ | f
  · refine ⟨hst, fun d hd => ?_⟩
    cases hd
    have hc := hio c rfl
    exact ⟨hc, congrArg not hc, hpos (by simp)⟩
  · exact ⟨hst, by simp⟩
  · dsimp only
    rcases f.lower store symbols with ⟨_ | _, store', symbols'⟩
    · refine ⟨hst, fun d hd => ?_⟩
      cases hd
      exact ⟨rfl, rfl, hpos (by simp)⟩
    · exact ⟨hst, by simp⟩

/-- Two readers about to read the same text, the first of which has taken `k` lines more. -/
structure Trails (lines : List String) (k : Nat) (r : Reader) (src : LineSource) (r' : Reader)
    (src' : LineSource) : Prop where
  stands : Stands lines r.scanner src
  stands' : Stands (lines.drop k) r'.scanner src'
  prepared : Scanner.Trails k r.prepared r'.prepared

/-- Both give the same answer, but for the numbers of lines, and are level again. -/
theorem trails_read {lines : List String} {k : Nat} {r r' : Reader} {src src' : LineSource}
    (h : Trails lines k r src r' src') (store : Store) (symbols : SymbolTable) :
    (r.read src store symbols).answer = ((r'.read src' store symbols).moved k).answer ∧
      Trails lines k (r.read src store symbols).reader (r.read src store symbols).source
        (r'.read src' store symbols).reader (r'.read src' store symbols).source := by
  have hst := stands_prepared h.stands
  have hst' := stands_prepared h.stands'
  have hafter := (stands_read h.stands store symbols).1
  have hafter' := (stands_read h.stands' store symbols).1
  obtain ⟨hsame, htrails⟩ := trails_readForm h.prepared hst hst' (fun h => absurd rfl h)
  rcases hread : readForm [] r.prepared src with ⟨x, sc₁, src₁⟩
  rcases hread' : readForm [] r'.prepared src' with ⟨x', sc₁', src₁'⟩
  have hpos := (stands_readForm hst' (fun h => absurd rfl h) hread').2.1
  have hst₁ := (stands_readForm hst (fun h => absurd rfl h) hread).1
  have hst₁' := (stands_readForm hst' (fun h => absurd rfl h) hread').1
  rw [hread, hread'] at hsame htrails
  dsimp only at hsame
  subst hsame
  -- the two are level again however the reading ended, since they agree on whether it was a fault
  have hlevel : ∀ erred, Scanner.Trails k (Reader.mk sc₁ erred).prepared
      (Reader.mk sc₁' erred).prepared := by
    intro erred
    cases erred
    · exact ⟨htrails.rest, htrails.number⟩
    · exact ⟨rfl, htrails.number⟩
  suffices hboth : (r.read src store symbols).answer = ((r'.read src' store symbols).moved k).answer
      ∧ Scanner.Trails k (r.read src store symbols).reader.prepared
        (r'.read src' store symbols).reader.prepared from
    ⟨hboth.1, hafter, hafter', hboth.2⟩
  unfold read
  rw [hread, hread']
  rcases x' with c | _ | f
  · have hflag := hlevel (!c.stopsScript)
    refine ⟨rfl, ?_⟩
    simp only [Except.mapError, Cause.stopsScript_moved]
    exact hflag
  · exact ⟨rfl, hlevel false⟩
  · dsimp only [Except.mapError]
    rcases f.lower store symbols with ⟨g | v, store', symbols'⟩
    · have hfault := htrails.fault hst₁ hst₁' (hpos (by simp)) g
      refine ⟨?_, hlevel true⟩
      simp only [Reading.answer, Reading.moved, Except.mapError, hfault]
    · exact ⟨rfl, hlevel false⟩

/-- One reading after the other, each with the store and the symbols at hand by then. -/
def readings (r : Reader) (src : LineSource) : List (Store × SymbolTable) → List Reading
  | [] => []
  | (store, symbols) :: later =>
      let reading := r.read src store symbols
      reading :: readings reading.reader reading.source later

theorem stands_readings {lines : List String} {r : Reader} {src : LineSource}
    (hs : Stands lines r.scanner src) (memories : List (Store × SymbolTable)) :
    ∀ reading ∈ r.readings src memories, Stands lines reading.reader.scanner reading.source ∧
      ∀ c, reading.result = .error c → c.stopsScript = false ∧ reading.reader.erred = true ∧
        0 < reading.reader.scanner.lineNumber := by
  induction memories generalizing r src with
  | nil => simp [readings]
  | cons memory later ih =>
      obtain ⟨store, symbols⟩ := memory
      have hread := stands_read hs store symbols
      intro reading hmem
      rw [readings, List.mem_cons] at hmem
      rcases hmem with rfl | hlater
      · exact hread
      · exact ih hread.1 reading hlater

theorem trails_readings {lines : List String} {k : Nat} {r r' : Reader} {src src' : LineSource}
    (h : Trails lines k r src r' src') (memories : List (Store × SymbolTable)) :
    (r.readings src memories).map Reading.answer =
      (r'.readings src' memories).map fun reading => (reading.moved k).answer := by
  induction memories generalizing r src r' src' with
  | nil => rfl
  | cons memory later ih =>
      obtain ⟨store, symbols⟩ := memory
      obtain ⟨hanswer, htrails⟩ := trails_read h store symbols
      simp only [readings, List.map_cons, hanswer, ih htrails]

/-- A reading that fails on line `k` of a source of lines leaves the reader to go on like a new one
that is given the lines after line `k`: whatever store and symbols the later readings find, they
give the same results and leave the same store and symbols behind, with the numbers of lines in
failures moved by `k`. Line `k` is the one that the failure quotes. -/
theorem readings_after_fault (lines : List String) (src : LineSource)
    (hsrc : src.answers = lines.map .line) (memories : List (Store × SymbolTable))
    (reading : Reading) (hmem : reading ∈ ({} : Reader).readings src memories) (c : Cause)
    (hfault : reading.result = .error c) (fresh : LineSource)
    (hfresh : fresh.answers = (lines.drop reading.reader.scanner.lineNumber).map .line)
    (later : List (Store × SymbolTable)) :
    c.stopsScript = false ∧ 0 < reading.reader.scanner.lineNumber ∧
      lines[reading.reader.scanner.lineNumber - 1]? = some reading.reader.scanner.line ∧
      (reading.reader.readings reading.source later).map Reading.answer =
        (({} : Reader).readings fresh later).map fun after =>
          (after.moved reading.reader.scanner.lineNumber).answer := by
  obtain ⟨hst, hfaults⟩ := stands_readings (Stands.start hsrc) memories reading hmem
  obtain ⟨hio, herred, hpos⟩ := hfaults c hfault
  refine ⟨hio, hpos, hst.line hpos, trails_readings ⟨hst, .start hfresh, ?_⟩ later⟩
  unfold prepared
  rw [herred]
  exact ⟨rfl, (Nat.zero_add _).symm⟩

/-- A bracket that closes nothing, inside a list begun on the line before: the list is given up, the
rest of the line with it, and the next reading starts on the third line. -/
theorem readings_after_fault_bracket :
    ∃ reading ∈ ({} : Reader).readings { answers := ["(", "] c", "d"].map .line }
        [({ capacity := 8 }, .new)],
      reading.result = .error (.unreadable "unexpected \"]\"" 2 "] c") ∧
      reading.reader.scanner.lineNumber = 2 ∧
      ∀ later, (reading.reader.readings reading.source later).map Reading.answer =
        (({} : Reader).readings { answers := ["d"].map .line } later).map fun after =>
          (after.moved 2).answer := by
  have hread : readForm [] ({} : Reader).prepared { answers := ["(", "] c", "d"].map .line } =
      (.error (.unreadable "unexpected \"]\"" 2 "] c"), ⟨"] c", [' ', 'c', '\n'], 2, false, false⟩,
        ⟨[.line "d"], none, false, [.line false, .line true]⟩) := by
    rw [readForm_eq]
    exact readForm_eq _ _ _
  have hfault : (({} : Reader).read { answers := ["(", "] c", "d"].map .line }
      { capacity := 8 } .new).result = .error (.unreadable "unexpected \"]\"" 2 "] c") := by
    rw [read, hread]
  have hnumber : (({} : Reader).read { answers := ["(", "] c", "d"].map .line }
      { capacity := 8 } .new).reader.scanner.lineNumber = 2 := by
    rw [read, hread]
  refine ⟨_, List.mem_singleton.2 rfl, hfault, hnumber, fun later => ?_⟩
  have hafter := readings_after_fault ["(", "] c", "d"] _ rfl [({ capacity := 8 }, .new)] _
    (List.mem_singleton.2 rfl) _ hfault { answers := ["d"].map .line } (by rw [hnumber]; rfl) later
  rw [hnumber] at hafter
  exact hafter.2.2.2

end Reader

end SmallLisp
