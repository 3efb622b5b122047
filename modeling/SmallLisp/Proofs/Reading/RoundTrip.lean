import SmallLisp.Proofs.Reading.Scanned

/-!
# Printed forms read back

The text of a value that a reader made is one line. Another reader that is given this line makes a
value that spells the same form, so that it prints as the same line, and is then at the end of its
input.
-/

namespace SmallLisp

/-! ## One line -/

/-- The text has no character that ends a line. -/
def SingleLine (text : List Char) : Prop := '\n' ∉ text ∧ '\r' ∉ text

@[simp] theorem singleLine_nil : SingleLine [] := by simp [SingleLine]

@[simp] theorem singleLine_cons {c : Char} {cs : List Char} :
    SingleLine (c :: cs) ↔ (c ≠ '\n' ∧ c ≠ '\r') ∧ SingleLine cs := by
  simp only [SingleLine, List.mem_cons, not_or]
  constructor
  · exact fun h => ⟨⟨fun hc => h.1.1 hc.symm, fun hc => h.2.1 hc.symm⟩, h.1.2, h.2.2⟩
  · exact fun h => ⟨⟨fun hc => h.1.1 hc.symm, h.2.1⟩, fun hc => h.1.2 hc.symm, h.2.2⟩

@[simp] theorem singleLine_append {cs ds : List Char} :
    SingleLine (cs ++ ds) ↔ SingleLine cs ∧ SingleLine ds := by
  induction cs with
  | nil => simp
  | cons c cs ih => simp [ih, and_assoc]

theorem singleLine_of_word {word : List Char} (h : ∀ c ∈ word, Token.isWordChar c = true) :
    SingleLine word :=
  ⟨fun hmem => absurd (h _ hmem) (by decide), fun hmem => absurd (h _ hmem) (by decide)⟩

theorem singleLine_escapeChar (c : Char) : SingleLine (Printer.escapeChar c) := by
  rcases Token.escapeChar_cases c with ⟨l, he, hl⟩ | ⟨hn, he⟩ | ⟨he, -, -, hline, hreturn⟩
  · rw [he]
    have hn : l ≠ '\n' := by
      rintro rfl
      cases hl
    have hr : l ≠ '\r' := by
      rintro rfl
      cases hl
    simp [hn, hr]
  · rw [he]
    have hex : ∀ d < 16, Printer.hexDigit d ≠ '\n' ∧ Printer.hexDigit d ≠ '\r' := by decide
    simp [hex (c.toNat / 16) (by omega), hex (c.toNat % 16) (by omega)]
  · rw [he]
    simp [hline, hreturn]

theorem singleLine_escapeString (x : String) : SingleLine (Printer.escapeString x).toList := by
  have hchars : ∀ cs : List Char, SingleLine (cs.flatMap Printer.escapeChar) := by
    intro cs
    induction cs with
    | nil => simp
    | cons c cs ih => simp [ih, singleLine_escapeChar c]
  simp [Printer.escapeString, hchars]

theorem Atom.singleLine_written {a : Atom} (ha : a.Scanned) (hd : a.isDouble = false) :
    SingleLine a.written := by
  cases a with
  | nil => exact singleLine_of_word isWordChar_nil
  | number n =>
      obtain ⟨k, -, hformat⟩ := Num.exists_ofInt ha hd
      simp only [written, hformat]
      exact singleLine_of_word (Token.classify?_formatInt k).2.2
  | text x => exact singleLine_escapeString x
  | sym name => exact singleLine_of_word (Token.isWordChar_of_classify? ha).2

namespace Form

mutual

theorem singleLine_written : ∀ {f : Form}, f.Legible → SingleLine f.written
  | .atom a, h => by
      rw [written]
      exact Atom.singleLine_written h.atom.1 h.atom.2
  | .pair a b, h => by
      by_cases hq : ∃ f, a.isQuoteHead ∧ b = .pair f nil
      · obtain ⟨f, hq, rfl⟩ := hq
        rw [written_quote hq]
        simp [singleLine_written h.pair.2.pair.1]
      · rw [written_list fun f ha hb => hq ⟨f, ha, hb⟩]
        simp [singleLine_written h.pair.1, singleLine_writtenTail h.pair.2]
  | .vector fs, h => by
      rw [written]
      simp [singleLine_writtenItems h]
termination_by f => (sizeOf f, 0)

theorem singleLine_writtenTail : ∀ {b : Form}, b.Legible → SingleLine b.writtenTail
  | .atom a, h => by
      by_cases hg : (Form.atom a).goesOn
      · rw [eq_nil_of_goesOn hg]
        simp [writtenTail]
      · rw [writtenTail_dotted (by simpa using hg)]
        simp [singleLine_written h]
  | .pair a b, h => by
      rw [writtenTail]
      simp [singleLine_written h.pair.1, singleLine_writtenTail h.pair.2]
  | .vector fs, h => by
      rw [writtenTail_dotted rfl]
      simp [singleLine_written h]
termination_by b => (sizeOf b, 1)

theorem singleLine_writtenItems : ∀ {fs : List Form}, (Form.vector fs).Legible →
    SingleLine (writtenItems fs)
  | [], _ => by simp [writtenItems]
  | [f], h => by
      rw [writtenItems]
      exact singleLine_written h.vector_cons.1
  | f :: f' :: fs, h => by
      rw [writtenItems]
      · simp [singleLine_written h.vector_cons.1, singleLine_writtenItems h.vector_cons.2]
      · simp
termination_by fs => (sizeOf fs, 2)

end

end Form

/-! ## A reader over one line -/

namespace LineSource

theorem splitLines_of_singleLine {cs : List Char} (h : '\n' ∉ cs) : splitLines cs = [cs] := by
  induction cs with
  | nil => rfl
  | cons c cs ih =>
      simp only [List.mem_cons, not_or] at h
      have hc : ¬ c = '\n' := fun hc => h.1 hc.symm
      have hcs := ih h.2
      simp only [splitLines] at hcs ⊢
      rw [List.foldr_cons, hcs]
      simp [hc]

theorem dropReturn_of_singleLine {cs : List Char} (h : '\r' ∉ cs) : dropReturn cs = cs := by
  unfold dropReturn
  split
  · rename_i r hr
    refine absurd ?_ h
    rw [← List.mem_reverse, hr]
    simp
  · rfl

theorem answers_ofText {text : String} (h : SingleLine text.toList) :
    (ofText text).answers = [.line text] := by
  simp [ofText, splitLines_of_singleLine h.1, dropReturn_of_singleLine h.2]

end LineSource

namespace Reader

/-- A reader that has nothing left of its line takes up the next one. -/
theorem readForm_of_line {stack : List Pending} {sc : Scanner} {src : LineSource} {text : String}
    {answers : List Answer} {c : Char} {cs : List Char}
    (hrest : Scanner.skipBlank sc.rest = []) (hend : sc.atEnd = false)
    (hsrc : src.answers = .line text :: answers)
    (htext : Scanner.skipBlank (text.toList ++ ['\n']) = c :: cs) :
    readForm stack sc src =
      readForm stack (sc.skipLine.take text) (src.asked sc.skipLine.prompt answers) := by
  have htake : (sc.skipLine.take text).rest = text.toList ++ ['\n'] := rfl
  have hend' : sc.skipLine.atEnd = false := hend
  have hseek : sc.seek src =
      (sc.skipLine.take text).seek (src.asked sc.skipLine.prompt answers) := by
    simp [Scanner.seek, hrest, hend', hsrc, Scanner.fetch, htake, htext]
  rw [readForm_eq, readForm_eq stack (sc.skipLine.take text), Scanner.next, hseek, Scanner.next]

/-- At the end of its source a reader has no form. -/
theorem readForm_of_end {sc : Scanner} {src : LineSource}
    (hrest : Scanner.skipBlank sc.rest = []) (hsrc : src.answers = []) :
    (readForm [] sc src).1 = .ok none := by
  have hseek : ∃ sc' src', sc.seek src = (.ended, sc', src') := by
    cases hend : sc.skipLine.atEnd with
    | true =>
        refine ⟨sc.skipLine, src, ?_⟩
        simp [Scanner.seek, hrest, hend]
    | false =>
        refine ⟨{ sc.skipLine with atEnd := true }, src.asked sc.skipLine.prompt [], ?_⟩
        simp [Scanner.seek, hrest, hend, hsrc, Scanner.fetch]
  obtain ⟨sc', src', hseek⟩ := hseek
  rw [readForm_eq, Scanner.next, hseek]
  rfl

theorem read_of_end {sc : Scanner} {src : LineSource} (hrest : sc.rest = ['\n'])
    (hsrc : src.answers = []) (store : Store) (symbols : SymbolTable) :
    (read ⟨sc, false⟩ src store symbols).result = .ok .eof := by
  have hskip : Scanner.skipBlank (prepared ⟨sc, false⟩).rest = [] := by
    have hprepared : (prepared ⟨sc, false⟩).rest = ['\n'] := hrest
    rw [hprepared]
    rfl
  have hend := readForm_of_end hskip hsrc
  rcases hf : readForm [] (prepared ⟨sc, false⟩) src with ⟨x, sc', src'⟩
  rw [hf] at hend
  simp only at hend
  subst hend
  simp [read, hf]

/-- A fresh reader over the text of a form reads the form and leaves no more than the line feed. -/
theorem readForm_ofText {f : Form} (h : f.Legible) {text : String}
    (htext : text.toList = f.written) :
    ∃ sc src, readForm [] {} (.ofText text) = (.ok (some f), sc, src) ∧ sc.rest = ['\n'] ∧
      src.answers = [] := by
  have hline : SingleLine text.toList := htext ▸ Form.singleLine_written h
  have hstart := skipBlank_written h ['\n']
  cases hcs : f.written ++ ['\n'] with
  | nil => simp at hcs
  | cons c cs =>
      have hend : Token.Stops ['\n'] := stops_cons (by decide) []
      rw [readForm_of_line rfl rfl (LineSource.answers_ofText hline) (htext ▸ hstart.trans hcs),
        readForm_written h (fun _ _ _ h => by cases h) hend]
      · exact ⟨_, _, rfl, rfl, rfl⟩
      · rw [Scanner.take, htext]
        exact hstart

end Reader

/-! ## The round trip -/

/-- Printed with whatever allowance, the value is one line from which a fresh reader, in a store
with room for the form, reads a value that spells the form and then nothing more; and that value
prints as the same line. -/
def ReadsBack (store : Store) (symbols : SymbolTable) (f : Form) (v : Value) : Prop :=
  ∀ repeats : Nat,
    let text := print store symbols true repeats v
    SingleLine text.toList ∧
      ∀ heap : Store, heap.cells.size + f.pairs ≤ heap.capacity →
        let again := Reader.read {} (.ofText text) heap symbols
        ∃ w, again.result = .ok w ∧ again.symbols = symbols ∧ again.store.Spells symbols f w ∧
          (∀ repeats' : Nat, print again.store symbols true repeats' w = text) ∧
          (again.reader.read again.source again.store symbols).result = .ok .eof

theorem readsBack_of_laid {s : Store} {t : SymbolTable} (ht : t.Sound) {f : Form} {v : Value}
    {e e' : Store.Extent} (hl : s.Laid t f v e e') (hf : f.Legible)
    (hd : f.nesting ≤ Printer.maxDepth) : ReadsBack s t f v := by
  intro repeats
  have hprint := print_laid ht hl hd repeats
  have hwritten : (print s t true repeats v).toList = f.written := by
    rw [hprint, String.toList_ofList]
  refine ⟨hwritten ▸ Form.singleLine_written hf, ?_⟩
  intro heap hroom
  obtain ⟨sc, src, hform, hrest, hanswers⟩ := Reader.readForm_ofText hf hwritten
  have hnames : ∀ name, .sym name ∈ f.atoms → name ∈ t.names.toList := fun _ h => hl.mem_names h
  obtain ⟨w, heap', hlower, -, -⟩ := Form.lower_total (s := heap) hf.unmarked hnames hroom
  obtain ⟨-, hl', -⟩ := Form.lower_eq_ok hlower
  have hread : Reader.read {} (.ofText (print s t true repeats v)) heap t =
      ⟨.ok w, ⟨sc, false⟩, src, heap', t⟩ := by
    have hprepared : Reader.prepared {} = {} := rfl
    rw [Reader.read, hprepared, hform]
    simp only [hlower]
  refine ⟨w, ?_, ?_, ?_, ?_, ?_⟩
  · rw [hread]
  · rw [hread]
  · rw [hread]
    exact hl'.spells
  · intro repeats'
    rw [hread, hprint]
    exact print_laid ht hl' hd repeats'
  · rw [hread]
    exact Reader.read_of_end hrest hanswers heap' t

/-- Every form that a reader makes of a text, without doubles and not nested too deep, is read back
from what it prints as. -/
theorem read_print_read (r : Reader) (src : LineSource) (store : Store) (symbols : SymbolTable)
    (hsymbols : symbols.Sound) (v : Value) (hread : (r.read src store symbols).result = .ok v)
    (hform : v ≠ .eof) :
    ∃ f : Form, (r.read src store symbols).store.Spells (r.read src store symbols).symbols f v ∧
      ((∀ a ∈ f.atoms, a.isDouble = false) → f.nesting ≤ 1000 →
        ReadsBack (r.read src store symbols).store (r.read src store symbols).symbols f v) := by
  rcases hf : Reader.readForm [] r.prepared src with ⟨c | f | f, sc, src'⟩
  · simp [Reader.read, hf] at hread
  · simp only [Reader.read, hf, Except.ok.injEq] at hread
    exact absurd hread.symm hform
  · have hscanned : f.Scanned := Reader.scanned_readForm Parser.scanned_nil hf
    rcases hl : f.lower store symbols with ⟨c | w, store', symbols'⟩
    · simp [Reader.read, hf, hl] at hread
    · simp only [Reader.read, hf, hl, Except.ok.injEq] at hread ⊢
      subst hread
      obtain ⟨-, hlaid, hsound⟩ := Form.lower_eq_ok hl
      refine ⟨f, hlaid.spells, fun hd hn => ?_⟩
      exact readsBack_of_laid (hsound hsymbols) hlaid ⟨hlaid.unmarked, hscanned, hd⟩ hn

/-- A quote form, a string with a line feed in it, an integer beyond 64 bits, a vector after a dot
and a colon name. -/
def Form.sample : Form :=
  .pair (.pair (call "quote" [sym "a"]) (.atom (.text "x\n\x7f")))
    (.pair (.atom (.number (.big (-9223372036854775809)))) (.vector [sym ":k", nil]))

theorem Form.legible_sample : sample.Legible := by
  have hatoms : sample.atoms = [.sym "quote", .sym "a", .nil, .text "x\n\x7f",
      .number (.big (-9223372036854775809)), .sym ":k", .nil] := rfl
  refine ⟨by simp [sample, Unmarked, UnmarkedAll, call, sym, list, listWithTail, nil], ?_, ?_⟩
  · rw [hatoms]
    simp only [List.forall_mem_cons, List.not_mem_nil, false_implies, implies_true, and_true]
    exact ⟨rfl, rfl, trivial, trivial, rfl, rfl, trivial⟩
  · rw [hatoms]
    decide

theorem read_print_read_sample :
    let made := Reader.read {} (.ofText "(('a . \"x\\n\\x7f\") -9223372036854775809 . [:k nil])")
      { capacity := 6 } .new
    made.result = .ok (.pair ⟨4⟩) ∧ SymbolTable.new.Sound ∧
      (∀ a ∈ Form.sample.atoms, a.isDouble = false) ∧ Form.sample.nesting ≤ 1000 ∧
      made.store.Spells made.symbols Form.sample (.pair ⟨4⟩) ∧
      ReadsBack made.store made.symbols Form.sample (.pair ⟨4⟩) := by
  intro made
  have htext : "(('a . \"x\\n\\x7f\") -9223372036854775809 . [:k nil])".toList =
      Form.sample.written := by decide +kernel
  obtain ⟨sc, src, hform, -, -⟩ := Reader.readForm_ofText Form.legible_sample htext
  rcases hlower : Form.sample.lower { capacity := 6 } .new with ⟨x, store, symbols⟩
  have hx : x = .ok (.pair ⟨4⟩) := (congrArg Prod.fst hlower).symm
  subst hx
  have hmade : made = ⟨.ok (.pair ⟨4⟩), ⟨sc, false⟩, src, store, symbols⟩ := by
    have hprepared : Reader.prepared {} = {} := rfl
    simp only [made, Reader.read, hprepared, hform, hlower]
  obtain ⟨-, hlaid, -⟩ := Form.lower_eq_ok hlower
  have hspells : made.store.Spells made.symbols Form.sample (.pair ⟨4⟩) := hmade ▸ hlaid.spells
  have hresult : made.result = .ok (.pair ⟨4⟩) := by rw [hmade]
  obtain ⟨f, hf, hback⟩ :=
    read_print_read {} _ _ _ SymbolTable.sound_new _ hresult (by simp)
  have hnest : Form.sample.nesting ≤ 1000 := by decide
  cases hf.unique hspells
  exact ⟨hresult, SymbolTable.sound_new, Form.legible_sample.integral, hnest, hspells,
    hback Form.legible_sample.integral hnest⟩

end SmallLisp
