import SmallLisp.Proofs.Reading.Recovery
import SmallLisp.Proofs.Reading.Scanning

/-!
# A finite source is read to its end

What is left of a source is counted in the characters of its lines, without the line feeds that the
scanner adds, and in the failures that are due. A token takes at least its first character, so a
form and a fault in the text take one too; a line that fails to arrive takes one of the failures. So
there are no more readings before the end of the input than characters and failures together, and
once the end is found the source is not asked again.
-/

namespace SmallLisp

/-! ## What is left to read -/

/-- Of the characters and the failures that are left, something is taken: one of the failures by an
interruption, and at least one of the characters otherwise. -/
def Shrinks (interrupted : Bool) (characters failures characters' failures' : Nat) : Prop :=
  if interrupted then characters' ≤ characters ∧ failures' + 1 = failures
  else characters' < characters ∧ failures' = failures

theorem Shrinks.sum_lt {interrupted : Bool} {characters failures characters' failures' : Nat}
    (h : Shrinks interrupted characters failures characters' failures') :
    characters' + failures' < characters + failures := by
  unfold Shrinks at h
  split at h <;> omega

theorem Shrinks.mono {interrupted : Bool} {most characters failures characters' failures' : Nat}
    (h : Shrinks interrupted characters failures characters' failures') (hle : characters ≤ most) :
    Shrinks interrupted most failures characters' failures' := by
  cases interrupted with
  | true => exact ⟨Nat.le_trans h.1 hle, h.2⟩
  | false => exact ⟨Nat.lt_of_lt_of_le h.1 hle, h.2⟩

/-- The characters that an answer brings. -/
def Answer.characters : Answer → Nat
  | .line text => text.toList.length
  | .fault _ => 0

/-- The failures among one answer. -/
def Answer.failures : Answer → Nat
  | .line _ => 0
  | .fault _ => 1

namespace LineSource

/-- The characters of the lines that a source still gives. -/
def characters (src : LineSource) : Nat := (src.answers.map Answer.characters).sum

/-- How often a source will still fail. -/
def failures (src : LineSource) : Nat := (src.answers.map Answer.failures).sum

end LineSource

namespace Scanner

/-- The characters that are unread, here and in the source. The line feed after a line is not one of
them. -/
def unread (sc : Scanner) (src : LineSource) : Nat := sc.rest.length - 1 + src.characters

/-- What a call or a reading has taken of what was left: characters, unless it only finds the end of
the input or goes on with something begun, and a failure if it is interrupted. Where it finds the
end of the input, the scanner will not ask for lines again. -/
structure Spent {α : Type} (begun : Bool) (x : Except Cause (Option α)) (sc : Scanner)
    (src : LineSource) (sc' : Scanner) (src' : LineSource) : Prop where
  lined : sc'.Lined
  unread_le : sc'.unread src' ≤ sc.unread src
  unread_lt : begun = false → interrupted x = false → x ≠ .ok none →
    sc'.unread src' < sc.unread src
  failures : src'.failures + (if interrupted x then 1 else 0) = src.failures
  ended : x = .ok none → sc'.rest = [] ∧ sc'.atEnd = true

theorem Spent.shrinks {α : Type} {x : Except Cause (Option α)} {begun : Bool} {sc sc' : Scanner}
    {src src' : LineSource} (h : Spent begun x sc src sc' src') (hbegun : begun = false)
    (hx : x ≠ .ok none) :
    Shrinks (interrupted x) (sc.unread src) src.failures (sc'.unread src') src'.failures := by
  have hfail := h.failures
  unfold Shrinks
  cases hint : interrupted x with
  | true =>
      rw [hint, if_pos rfl] at hfail
      exact ⟨h.unread_le, hfail⟩
  | false =>
      rw [hint] at hfail
      exact ⟨h.unread_lt hbegun hint hx, hfail⟩

/-- What asking for lines comes to, by what it finds: the text from the first character of a token
on, an end for good, or one of the failures. -/
def Leaves (characters failures : Nat) : Sought × Scanner × LineSource → Prop
  | (.start _ cs, _, src) => cs.length + src.characters ≤ characters ∧ src.failures = failures
  | (.ended, sc, src) => sc.rest = [] ∧ sc.atEnd = true ∧ src.characters ≤ characters ∧
      src.failures = failures
  | (.failed _, sc, src) => sc.rest = [] ∧ src.characters ≤ characters ∧
      src.failures + 1 = failures

theorem Leaves.mono {characters characters' failures : Nat} (hle : characters ≤ characters')
    {r : Sought × Scanner × LineSource} (h : Leaves characters failures r) :
    Leaves characters' failures r := by
  rcases r with ⟨⟨c, cs⟩ | _ | f, sc, src⟩
  · exact ⟨Nat.le_trans h.1 hle, h.2⟩
  · exact ⟨h.1, h.2.1, Nat.le_trans h.2.2.1 hle, h.2.2.2⟩
  · exact ⟨h.1, Nat.le_trans h.2.1 hle, h.2.2⟩

theorem leaves_fetch (answers : List Answer) {sc : Scanner} (src : LineSource)
    (hrest : sc.rest = []) :
    Leaves (answers.map Answer.characters).sum (answers.map Answer.failures).sum
      (sc.fetch src answers) := by
  induction answers generalizing sc src with
  | nil => exact ⟨hrest, rfl, Nat.le_refl _, rfl⟩
  | cons a answers ih =>
      simp only [List.map_cons, List.sum_cons]
      cases a with
      | fault f =>
          refine ⟨hrest, Nat.le_add_left _ _, ?_⟩
          exact Nat.add_comm _ _
      | line text =>
          have hblank := length_skipBlank_le (sc.take text).rest
          simp only [fetch]
          split
          · rename_i c cs hskip
            rw [hskip] at hblank
            simp only [take, List.length_append, List.length_cons, List.length_nil] at hblank
            refine ⟨?_, (Nat.zero_add _).symm⟩
            simp only [LineSource.characters, LineSource.asked, Answer.characters]
            omega
          · have hmore := @ih (sc.take text).skipLine (src.asked sc.prompt answers) rfl
            rw [Answer.failures, Nat.zero_add]
            exact hmore.mono (Nat.le_add_left _ _)

theorem leaves_seek (sc : Scanner) (src : LineSource) :
    Leaves (sc.unread src) src.failures (sc.seek src) := by
  have hblank := length_skipBlank_le sc.rest
  unfold seek
  split
  · rename_i c cs hskip
    rw [hskip, List.length_cons] at hblank
    refine ⟨?_, rfl⟩
    unfold unread
    omega
  · dsimp only
    split
    · rename_i hend
      exact ⟨rfl, hend, Nat.le_add_left _ _, rfl⟩
    · exact (leaves_fetch src.answers src rfl).mono (Nat.le_add_left _ _)

/-- A token takes at least its first character, and so does the fault in one. -/
theorem Lined.spent_next {sc sc' : Scanner} (h : sc.Lined) {src src' : LineSource}
    {x : Except Cause (Option Token)} (hn : sc.next src = (x, sc', src')) :
    Spent false x sc src sc' src' := by
  have hleaves := leaves_seek sc src
  have hlined := h.next src
  rw [hn] at hlined
  rcases hs : sc.seek src with ⟨⟨c, cs⟩ | _ | f, sc₁, src₁⟩
  · rw [hs] at hleaves
    obtain ⟨hchars, hfail⟩ := hleaves
    obtain ⟨ds, rest, rfl, hnext, hscan⟩ := h.token hs
    rw [hn, Prod.mk.injEq, Prod.mk.injEq] at hnext
    obtain ⟨rfl, rfl, rfl⟩ := hnext
    have htaken := length_scan_le c (ds ++ ['\n'])
    have hline := hscan []
    rw [List.append_nil] at hline
    rw [hline] at htaken
    have hlt : { sc₁ with rest := rest ++ ['\n'] }.unread src' < sc.unread src := by
      simp only [unread, List.length_append, List.length_cons, List.length_nil] at hchars htaken ⊢
      omega
    rcases (Token.scan c (ds ++ ['\n'])).1 with f | t
    · exact ⟨hlined, Nat.le_of_lt hlt, fun _ _ _ => hlt, hfail, fun hx => by cases hx⟩
    · exact ⟨hlined, Nat.le_of_lt hlt, fun _ _ _ => hlt, hfail, fun hx => by cases hx⟩
  · rw [Scanner.next, hs] at hn
    rw [hs] at hleaves
    cases hn
    obtain ⟨hrest, hend, hchars, hfail⟩ := hleaves
    refine ⟨hlined, ?_, fun _ _ hx => absurd rfl hx, hfail, fun _ => ⟨hrest, hend⟩⟩
    simpa [unread, hrest] using hchars
  · rw [Scanner.next, hs] at hn
    rw [hs] at hleaves
    cases hn
    obtain ⟨hrest, hchars, hfail⟩ := hleaves
    refine ⟨hlined, ?_, fun _ hx _ => (by cases hx), hfail, fun hx => by cases hx⟩
    simpa [unread, hrest] using hchars

end Scanner

namespace Reader

open Scanner

/-- A form takes at least one character, and so does a fault on the way to one, unless it is that a
line fails to arrive. -/
theorem spent_readForm {stack : List Pending} {sc sc' : Scanner} (h : sc.Lined)
    {src src' : LineSource} {x : Except Cause (Option Form)}
    (hf : readForm stack sc src = (x, sc', src')) :
    Spent (!stack.isEmpty) x sc src sc' src' := by
  fun_induction readForm stack sc src with
  | case1 stack sc src cause sc₁ src₁ hnext =>
      cases hf
      have hs := h.spent_next hnext
      exact ⟨hs.lined, hs.unread_le, fun _ hx _ => hs.unread_lt rfl hx (by simp), hs.failures,
        fun hx => by cases hx⟩
  | case2 stack sc src sc₁ src₁ hnext hempty =>
      cases hf
      have hs := h.spent_next hnext
      exact ⟨hs.lined, hs.unread_le, fun _ _ hx => absurd rfl hx, hs.failures,
        fun _ => hs.ended rfl⟩
  | case3 stack sc src sc₁ src₁ hnext hopen =>
      cases hf
      have hs := h.spent_next hnext
      refine ⟨hs.lined, hs.unread_le, fun hbegun => ?_, hs.failures, fun hx => by cases hx⟩
      exact absurd hbegun (by simpa using hopen)
  | case4 stack sc src t sc₁ src₁ hnext f hfeed =>
      cases hf
      have hs := h.spent_next hnext
      exact ⟨hs.lined, hs.unread_le, fun _ _ _ => hs.unread_lt rfl rfl (by simp), hs.failures,
        fun hx => by cases hx⟩
  | case5 stack sc src t sc₁ src₁ hnext f hfeed =>
      cases hf
      have hs := h.spent_next hnext
      exact ⟨hs.lined, hs.unread_le, fun _ _ _ => hs.unread_lt rfl rfl (by simp), hs.failures,
        fun hx => by cases hx⟩
  | case6 stack sc src t sc₁ src₁ hnext stack' hfeed ih =>
      have hs := h.spent_next hnext
      have hmore := ih hs.lined hf
      have hlt := hs.unread_lt rfl rfl (by simp)
      have hle := hmore.unread_le
      exact ⟨hmore.lined, by omega, fun _ _ _ => by omega, hmore.failures.trans hs.failures,
        hmore.ended⟩

/-! ## Readings -/

/-- A form that was read is not the end of the input. -/
theorem lower_ne_eof (f : Form) (store : Store) (symbols : SymbolTable) :
    (f.lower store symbols).1 ≠ .ok .eof := by
  cases f with
  | atom a =>
      cases a with
      | nil => simp [Form.lower]
      | number n => cases n <;> simp [Form.lower, Store.newBignum]
      | text s => simp [Form.lower, Store.newText]
      | sym name => simp [Form.lower]
  | pair a b =>
      rw [Form.lower]
      rcases b.lower store symbols with ⟨_ | cdr, store, symbols⟩
      · simp
      dsimp only
      rcases a.lower store symbols with ⟨_ | car, store, symbols⟩
      · simp
      · by_cases hroom : store.cells.size < store.capacity <;> simp [Store.cons, hroom]
  | vector items =>
      rw [Form.lower]
      rcases Form.lowerAll store symbols items #[] with ⟨_ | values, store, symbols⟩ <;>
        simp [Store.newVector]
  | unquote f => simp [Form.lower]
  | splice f => simp [Form.lower]

end Reader

namespace Reading

/-- Whether a line failed to arrive for the reading. -/
def isInterrupted (r : Reading) : Bool := interrupted r.result

/-- The characters that a reading leaves unread. -/
def unread (r : Reading) : Nat := r.reader.scanner.unread r.source

/-- What a reading does with what is left to read: it takes something, unless it finds the end of
the input. Then the scanner will not ask for lines again. -/
structure Takes (r : Reading) (characters failures : Nat) : Prop where
  lined : r.reader.scanner.Lined
  shrinks : r.isAtEnd = false →
    Shrinks r.isInterrupted characters failures r.unread r.source.failures
  ended : r.isAtEnd = true → r.reader.scanner.rest = [] ∧ r.reader.scanner.atEnd = true

/-- A reading takes what reading its form takes. -/
theorem Takes.of_spent {r : Reading} {x : Except Cause (Option Form)} {sc : Scanner}
    {src : LineSource} {characters : Nat} (hle : sc.unread src ≤ characters)
    (hs : Scanner.Spent false x sc src r.reader.scanner r.source)
    (hint : r.isInterrupted = interrupted x) (hend : r.isAtEnd = true ↔ x = .ok none) :
    r.Takes characters src.failures where
  lined := hs.lined
  shrinks hmore := by
    have hsome : x ≠ .ok none := fun hx => by simp [hend.2 hx] at hmore
    rw [hint]
    exact (hs.shrinks rfl hsome).mono hle
  ended h := hs.ended (hend.1 h)

end Reading

namespace Reader

open Scanner

theorem lined_prepared {r : Reader} (h : r.scanner.Lined) : r.prepared.Lined := by
  unfold prepared
  split
  · exact Lined.skipLine _
  · exact h.beginForm

theorem unread_prepared_le (r : Reader) (src : LineSource) :
    r.prepared.unread src ≤ r.scanner.unread src := by
  unfold prepared
  split <;> simp [Scanner.unread, beginForm, skipLine]

theorem takes_read {r : Reader} (h : r.scanner.Lined) (src : LineSource) (store : Store)
    (symbols : SymbolTable) :
    (r.read src store symbols).Takes (r.scanner.unread src) src.failures := by
  have hle := unread_prepared_le r src
  rcases hform : readForm [] r.prepared src with ⟨x, sc', src'⟩
  have hs := spent_readForm (lined_prepared h) hform
  rcases x with c | _ | f
  · have hread : r.read src store symbols =
        ⟨.error c, ⟨sc', !c.stopsScript⟩, src', store, symbols⟩ := by rw [read, hform]
    rw [hread]
    exact .of_spent hle hs rfl (by simp [Reading.isAtEnd])
  · have hread : r.read src store symbols = ⟨.ok .eof, ⟨sc', false⟩, src', store, symbols⟩ := by
      rw [read, hform]
    rw [hread]
    exact .of_spent hle hs rfl (by simp [Reading.isAtEnd])
  · have heof := lower_ne_eof f store symbols
    rcases hlower : f.lower store symbols with ⟨g | v, store', symbols'⟩
    · have hread : r.read src store symbols =
          ⟨.error (sc'.fault g), ⟨sc', true⟩, src', store', symbols'⟩ := by
        rw [read, hform]
        simp [hlower]
      rw [hread]
      exact .of_spent hle hs rfl (by simp [Reading.isAtEnd])
    · have hread : r.read src store symbols = ⟨.ok v, ⟨sc', false⟩, src', store', symbols'⟩ := by
        rw [read, hform]
        simp [hlower]
      have hv : v ≠ .eof := fun hv => heof (by rw [hlower, hv])
      have hmore := Reading.isAtEnd_eq_false (r := ⟨.ok v, ⟨sc', false⟩, src', store', symbols'⟩)
        (by simpa using hv)
      rw [hread]
      exact .of_spent hle hs rfl (by simp [hmore])

/-- Once the scanner has found the end, every reading finds it, and none asks the source. -/
theorem read_at_end {r : Reader} (hrest : r.scanner.rest = []) (hend : r.scanner.atEnd = true)
    (src : LineSource) (store : Store) (symbols : SymbolTable) :
    (r.read src store symbols).isAtEnd = true ∧ (r.read src store symbols).source = src ∧
      (r.read src store symbols).reader.scanner.rest = [] ∧
      (r.read src store symbols).reader.scanner.atEnd = true := by
  have hrest' : r.prepared.rest = [] := by
    unfold prepared
    split
    · rfl
    · exact hrest
  have hend' : r.prepared.skipLine.atEnd = true := by
    unfold prepared
    split <;> exact hend
  have hform : readForm [] r.prepared src = (.ok none, r.prepared.skipLine, src) := by
    rw [readForm_eq, Scanner.next, seek, hrest', skipBlank]
    simp only [hend', if_true]
    rfl
  have hread : r.read src store symbols =
      ⟨.ok .eof, ⟨r.prepared.skipLine, false⟩, src, store, symbols⟩ := by rw [read, hform]
  rw [hread]
  exact ⟨rfl, rfl, rfl, hend'⟩

/-- The reader and its source after some readings, whatever store and symbols each of them found. -/
inductive Reached (src : LineSource) : Reader → LineSource → Prop
  | new : Reached src {} src
  | read {r : Reader} {s : LineSource} (h : Reached src r s) (store : Store)
      (symbols : SymbolTable) :
      Reached src (r.read s store symbols).reader (r.read s store symbols).source

theorem Reached.lined {src s : LineSource} {r : Reader} (h : Reached src r s) :
    r.scanner.Lined := by
  induction h with
  | new => exact Lined.new
  | read _ store symbols ih => exact (takes_read ih _ store symbols).lined

theorem readings_at_end {r : Reader} (hrest : r.scanner.rest = [])
    (hend : r.scanner.atEnd = true) (src : LineSource) (memories : List (Store × SymbolTable)) :
    ∀ reading ∈ r.readings src memories, reading.isAtEnd = true ∧ reading.source = src := by
  induction memories generalizing r with
  | nil => simp [readings]
  | cons memory later ih =>
      obtain ⟨store, symbols⟩ := memory
      obtain ⟨hat, hsource, hrest, hend⟩ := read_at_end hrest hend src store symbols
      rw [readings, hsource]
      exact List.forall_mem_cons.2 ⟨⟨hat, hsource⟩, ih hrest hend⟩

/-- Readings one after another come to the end of the input, and stay there. -/
theorem readings_end {r : Reader} (h : r.scanner.Lined) (src : LineSource)
    (memories : List (Store × SymbolTable)) :
    ∃ before after, r.readings src memories = before ++ after ∧
      before.length ≤ r.scanner.unread src + src.failures ∧
      (∀ reading ∈ before, reading.isAtEnd = false) ∧
      ∀ reading ∈ after, reading.isAtEnd = true ∧
        ∀ other ∈ after, other.source = reading.source := by
  induction memories generalizing r src with
  | nil => exact ⟨[], [], rfl, Nat.zero_le _, by simp, by simp⟩
  | cons memory later ih =>
      obtain ⟨store, symbols⟩ := memory
      have htakes := takes_read h src store symbols
      rw [readings]
      generalize r.read src store symbols = reading at htakes ⊢
      cases hat : reading.isAtEnd with
      | true =>
          obtain ⟨hrest, hend⟩ := htakes.ended hat
          have hlater := readings_at_end hrest hend reading.source later
          refine ⟨[], reading :: _, rfl, Nat.zero_le _, by simp, ?_⟩
          have hall : ∀ other ∈ reading :: reading.reader.readings reading.source later,
              other.isAtEnd = true ∧ other.source = reading.source :=
            List.forall_mem_cons.2 ⟨⟨hat, rfl⟩, hlater⟩
          exact fun other ho => ⟨(hall other ho).1,
            fun another ha => (hall another ha).2.trans (hall other ho).2.symm⟩
      | false =>
          obtain ⟨before, after, heq, hlen, hbefore, hafter⟩ := ih htakes.lined reading.source
          refine ⟨reading :: before, after, by rw [heq, List.cons_append], ?_,
            List.forall_mem_cons.2 ⟨hat, hbefore⟩, hafter⟩
          have hlt := (htakes.shrinks hat).sum_lt
          unfold Reading.unread at hlt
          rw [List.length_cons]
          omega

end Reader

/-! ## Calls -/

namespace Scan

open Scanner

theorem spent {c : Scan} (h : c.scanner.Lined) :
    Spent false c.result c.scanner c.source c.after c.sourceAfter := h.spent_next rfl

/-- The characters that a call leaves unread. -/
def unread (c : Scan) : Nat := c.after.unread c.sourceAfter

theorem shrinks {c : Scan} (h : c.scanner.Lined) (hmore : c.isAtEnd = false) :
    Shrinks c.isInterrupted (c.scanner.unread c.source) c.source.failures c.unread
      c.sourceAfter.failures :=
  (spent h).shrinks rfl (isAtEnd_eq_false.1 hmore)

theorem unread_following_le (policy : FaultPolicy) (c : Scan) :
    (c.following policy).scanner.unread (c.following policy).source ≤ c.unread ∧
      (c.following policy).source = c.sourceAfter := by
  rcases following_eq policy c with heq | heq <;> rw [heq]
  · exact ⟨Nat.le_refl _, rfl⟩
  · exact ⟨by simp [unread, Scanner.unread, skipLine], rfl⟩

/-- Before the end of the input there are no more calls than characters and failures. -/
theorem length_before_le {c : Scan} (h : c.scanner.Lined) {policy : FaultPolicy}
    {before : List Scan} {last : Scan} (heq : c.toEnd policy = before ++ [last]) :
    before.length ≤ c.scanner.unread c.source + c.source.failures := by
  fun_induction toEnd policy c generalizing before with
  | case1 c hend =>
      have hlen := congrArg List.length heq
      simp only [List.length_append, List.length_cons, List.length_nil] at hlen
      omega
  | case2 c hmore ih =>
      cases before with
      | nil => exact Nat.zero_le _
      | cons d before =>
          rw [List.cons_append, List.cons.injEq] at heq
          have hlen := ih (lined_following h) heq.2
          have hlt := (shrinks h (Bool.eq_false_iff.2 hmore)).sum_lt
          obtain ⟨hle, hsource⟩ := unread_following_le policy c
          rw [hsource] at hle hlen
          rw [List.length_cons]
          omega

/-- After the end is found, a call finds it again, without asking the source, and leaves everything
as it is. -/
theorem following_at_end {c : Scan} (h : c.scanner.Lined) (hat : c.isAtEnd = true)
    (policy : FaultPolicy) :
    (c.following policy).isAtEnd = true ∧
      (c.following policy).following policy = c.following policy := by
  have hresult : c.result = .ok none := by
    unfold isAtEnd at hat
    split at hat
    · assumption
    · cases hat
  obtain ⟨hrest, hend⟩ := (spent h).ended hresult
  have hskip : c.after.skipLine = c.after := by
    unfold skipLine
    rw [← hrest]
  have hnext : c.after.next c.sourceAfter = (.ok none, c.after, c.sourceAfter) := by
    rw [Scanner.next, seek, hrest, skipBlank]
    simp only [hskip, hend, if_true]
  have hagain : (Scan.mk c.after c.sourceAfter).result = .ok none := congrArg Prod.fst hnext
  rw [following_of_ok hresult policy, following_of_ok hagain policy]
  refine ⟨by rw [isAtEnd, hagain], ?_⟩
  exact congrArg (fun r => Scan.mk r.2.1 r.2.2) hnext

end Scan

namespace Reader

/-- A finite source is read to its end. Every reading of a source before its end takes something: a
form and a fault in the text at least one character, an interruption one of the failures. So there
are at most as many readings before the end of the input as characters and failures, whatever store
and symbols each of them finds, and once the end is found every reading finds it and none asks the
source again. The same goes for the calls for single tokens, whether a fault costs the rest of its
line or not. -/
theorem source_is_exhausted (src : LineSource) :
    (∀ r s, Reached src r s → ∀ store symbols, (r.read s store symbols).isAtEnd = false →
      Shrinks (r.read s store symbols).isInterrupted (r.scanner.unread s) s.failures
        (r.read s store symbols).unread (r.read s store symbols).source.failures) ∧
    (∀ memories, ∃ before after, ({} : Reader).readings src memories = before ++ after ∧
      before.length ≤ src.characters + src.failures ∧
      (∀ reading ∈ before, reading.isAtEnd = false) ∧
      ∀ reading ∈ after, reading.isAtEnd = true ∧
        ∀ other ∈ after, other.source = reading.source) ∧
    ∀ policy, ∃ before last, (Scan.mk {} src).toEnd policy = before ++ [last] ∧
      before.length ≤ src.characters + src.failures ∧
      (∀ c ∈ before, c.isAtEnd = false ∧ Shrinks c.isInterrupted (c.scanner.unread c.source)
        c.source.failures c.unread c.sourceAfter.failures) ∧
      last.isAtEnd = true ∧ (last.following policy).isAtEnd = true ∧
      (last.following policy).following policy = last.following policy := by
  have hnew : ({} : Scanner).unread src = src.characters := Nat.zero_add _
  refine ⟨fun r s h store symbols => (takes_read h.lined s store symbols).shrinks,
    fun memories => ?_, fun policy => ?_⟩
  · have hends := readings_end (r := {}) Scanner.Lined.new src memories
    rwa [hnew] at hends
  · obtain ⟨before, last, heq, hat, hbefore⟩ := Scan.toEnd_ends policy ⟨{}, src⟩
    have hlined : ∀ c ∈ (Scan.mk {} src).toEnd policy, c.scanner.Lined :=
      Scan.forall_mem_toEnd (p := fun c => c.scanner.Lined) Scanner.Lined.new
        (fun _ => Scan.lined_following)
    have hlen := Scan.length_before_le (c := ⟨{}, src⟩) Scanner.Lined.new heq
    rw [hnew] at hlen
    rw [heq] at hlined
    have hlast : last.scanner.Lined := hlined last (by simp)
    obtain ⟨hagain, hfixed⟩ := Scan.following_at_end hlast hat policy
    refine ⟨before, last, heq, hlen, fun c hc => ⟨hbefore c hc, ?_⟩, hat, hagain, hfixed⟩
    exact Scan.shrinks (hlined c (by simp [hc])) (hbefore c hc)

/-- Of five characters and one failure, an interrupted first reading leaves three characters; the
list that it has begun is given up. -/
theorem source_is_exhausted_interrupted :
    ∃ src : LineSource, src.answers = [.line "(a", .fault .invalidText, .line ") b"] ∧
      src.characters = 5 ∧ src.failures = 1 ∧ Reached src {} src ∧
      (({} : Reader).read src { capacity := 8 } .new).isAtEnd = false ∧
      (({} : Reader).read src { capacity := 8 } .new).isInterrupted = true ∧
      (({} : Reader).read src { capacity := 8 } .new).unread = 3 ∧ Shrinks true 5 1 3 0 := by
  have hform : readForm [] ({} : Reader).prepared
      { answers := [.line "(a", .fault .invalidText, .line ") b"] } =
      (.error (.io SourceFault.invalidText.message), ⟨"(a", [], 1, false, false⟩,
        ⟨[.line ") b"], none, false, [.line false, .line true]⟩) := by
    rw [readForm_eq]
    refine (readForm_eq _ _ _).trans ?_
    exact readForm_eq _ _ _
  have hread : ({} : Reader).read { answers := [.line "(a", .fault .invalidText, .line ") b"] }
      { capacity := 8 } .new = ⟨.error (.io SourceFault.invalidText.message),
        ⟨⟨"(a", [], 1, false, false⟩, false⟩,
        ⟨[.line ") b"], none, false, [.line false, .line true]⟩, { capacity := 8 }, .new⟩ := by
    rw [read, hform]
    rfl
  have hmore : (({} : Reader).read { answers := [.line "(a", .fault .invalidText, .line ") b"] }
      { capacity := 8 } .new).isAtEnd = false := by
    rw [hread]
    rfl
  have hshrinks := (source_is_exhausted _).1 _ _ .new _ _ hmore
  rw [hread] at hshrinks
  refine ⟨_, rfl, rfl, rfl, .new, hmore, ?_, ?_, hshrinks⟩ <;>
  · rw [hread]
    rfl

end Reader

end SmallLisp
