import SmallLisp.Reader
import SmallLisp.Proofs.Reading.Tokens

/-!
# Written forms are parsed back

The text of a form takes a reader that waits for a form to where that form is complete, and leaves
what follows the text. The statement speaks of any stack of unfinished forms, so that it applies to
the parts of a form as it does to the whole.
-/

namespace SmallLisp

namespace Form

/-- The form has no marks and no doubles, and its atoms are such as the scanner makes. -/
structure Legible (f : Form) : Prop where
  unmarked : f.Unmarked
  scanned : ∀ a ∈ f.atoms, a.Scanned
  integral : ∀ a ∈ f.atoms, a.isDouble = false

theorem Legible.atom {a : Atom} (h : (Form.atom a).Legible) : a.Scanned ∧ a.isDouble = false :=
  ⟨h.scanned a (by simp [atoms]), h.integral a (by simp [atoms])⟩

theorem Legible.pair {a b : Form} (h : (Form.pair a b).Legible) : a.Legible ∧ b.Legible := by
  obtain ⟨⟨ha, hb⟩, hs, hi⟩ := h
  refine ⟨⟨ha, ?_, ?_⟩, ⟨hb, ?_, ?_⟩⟩
  · exact fun x hx => hs x (by simp [atoms, hx])
  · exact fun x hx => hi x (by simp [atoms, hx])
  · exact fun x hx => hs x (by simp [atoms, hx])
  · exact fun x hx => hi x (by simp [atoms, hx])

theorem Legible.vector_cons {f : Form} {fs : List Form} (h : (Form.vector (f :: fs)).Legible) :
    f.Legible ∧ (Form.vector fs).Legible := by
  obtain ⟨⟨hf, hfs⟩, hs, hi⟩ := h
  refine ⟨⟨hf, ?_, ?_⟩, ⟨hfs, ?_, ?_⟩⟩
  · exact fun x hx => hs x (by simp [atoms, atomsAll, hx])
  · exact fun x hx => hi x (by simp [atoms, atomsAll, hx])
  · exact fun x hx => hs x (by simp only [atoms] at hx; simp [atoms, atomsAll, hx])
  · exact fun x hx => hi x (by simp only [atoms] at hx; simp [atoms, atomsAll, hx])

theorem eq_of_isQuoteHead {a : Form} (h : a.isQuoteHead) : a = sym "quote" := by
  unfold isQuoteHead at h
  split at h
  · simp only [beq_iff_eq] at h
    rw [h, sym]
  · cases h

end Form

namespace Reader

/-- What a reader does with what its parser has after a token. -/
def after (p : Progress) (sc : Scanner) (src : LineSource) :
    Except Cause (Option Form) × Scanner × LineSource :=
  match p with
  | .done f => (.ok (some f), sc, src)
  | .fault f => (.error (sc.fault f), sc, src)
  | .more stack => readForm stack sc src

@[simp] theorem after_more (stack : List Pending) (sc : Scanner) (src : LineSource) :
    after (.more stack) sc src = readForm stack sc src := rfl

/-- What a reader does with what its scanner gives next. -/
def afterNext (stack : List Pending) :
    Except Cause (Option Token) × Scanner × LineSource →
      Except Cause (Option Form) × Scanner × LineSource
  | (.error cause, sc, src) => (.error cause, sc, src)
  | (.ok none, sc, src) =>
      if stack.isEmpty then (.ok none, sc, src) else (.error (sc.fault .unexpectedEnd), sc, src)
  | (.ok (some t), sc, src) => after (Parser.feed stack t) sc src

theorem readForm_eq (stack : List Pending) (sc : Scanner) (src : LineSource) :
    readForm stack sc src = afterNext stack (sc.next src) := by
  rw [readForm]
  split
  · rename_i h
    rw [h, afterNext]
  · rename_i h
    rw [h, afterNext]
  · rename_i h
    rw [h, afterNext]
    refine Eq.trans ?_ (after.eq_def ..).symm
    cases Parser.feed stack _ <;> rfl

/-- Reading takes one token, if there is one on the line. -/
theorem readForm_of_token {stack : List Pending} {sc : Scanner} {src : LineSource} {c : Char}
    {cs rest : List Char} {t : Token} (hb : Scanner.skipBlank sc.rest = c :: cs)
    (ht : Token.scan c cs = (.ok t, rest)) :
    readForm stack sc src = after (Parser.feed stack t) { sc with rest } src := by
  have hnext : sc.next src = (.ok (some t), { sc with rest }, src) := by
    simp [Scanner.next, Scanner.seek, hb, ht]
  rw [readForm_eq, hnext, afterNext]

/-- The stack waits for a form. -/
def Open (stack : List Pending) : Prop := ∀ items tail below, stack ≠ .close items tail :: below

theorem readForm_of_start {stack : List Pending} (hstack : Open stack) {sc : Scanner}
    {src : LineSource} {c : Char} {cs rest : List Char} {t : Token}
    (hb : Scanner.skipBlank sc.rest = c :: cs) (ht : Token.scan c cs = (.ok t, rest))
    (hparen : t ≠ .closeParen) (hbracket : t ≠ .closeBracket) (hdot : t ≠ .dot) :
    readForm stack sc src = after (Parser.start stack t) { sc with rest } src := by
  rw [readForm_of_token hb ht]
  congr 1
  unfold Parser.feed
  split
  · contradiction
  · contradiction
  · contradiction
  · exact absurd rfl (hstack _ _ _)
  · contradiction
  · rfl

theorem skipBlank_space (cs : List Char) :
    Scanner.skipBlank (' ' :: cs) = Scanner.skipBlank cs := by
  rw [Scanner.skipBlank]
  simp [Text.isBlank]

theorem skipBlank_cons {c : Char} (hc : Text.isBlank c = false) (hs : c ≠ ';') (cs : List Char) :
    Scanner.skipBlank (c :: cs) = c :: cs := by
  simp [Scanner.skipBlank, hc, hs]

/-- The text of a form starts with a character that is not skipped. -/
theorem skipBlank_written {f : Form} (h : f.Legible) (rest : List Char) :
    Scanner.skipBlank (f.written ++ rest) = f.written ++ rest := by
  have head : ∀ {c : Char} {cs : List Char}, f.written = c :: cs → Text.isBlank c = false →
      c ≠ ';' → Scanner.skipBlank (f.written ++ rest) = f.written ++ rest := by
    intro c cs hw hc hs
    rw [hw]
    exact skipBlank_cons hc hs _
  cases f with
  | atom a =>
      have hend : Token.Stops [] := fun _ hc => by cases hc
      obtain ⟨c, cs, hw, hc, hs, -⟩ := Atom.scan_written h.atom.1 h.atom.2 hend
      exact head hw hc hs
  | pair a b =>
      by_cases hq : ∃ f, a.isQuoteHead ∧ b = .pair f .nil
      · obtain ⟨f, hq, rfl⟩ := hq
        exact head (Form.written_quote hq) (by decide) (by decide)
      · have hlist := Form.written_list fun f ha hb => hq ⟨f, ha, hb⟩
        exact head hlist (by decide) (by decide)
  | vector items => exact head (by rw [Form.written]) (by decide) (by decide)
  | unquote f => exact h.unmarked.elim
  | splice f => exact h.unmarked.elim

theorem skipBlank_writtenItems {fs : List Form} (h : (Form.vector fs).Legible)
    (rest : List Char) : Scanner.skipBlank (Form.writtenItems fs ++ ']' :: rest) =
      Form.writtenItems fs ++ ']' :: rest := by
  cases fs with
  | nil => exact skipBlank_cons (by decide) (by decide) _
  | cons f fs =>
      cases fs with
      | nil => exact skipBlank_written h.vector_cons.1 _
      | cons f' fs =>
          rw [Form.writtenItems, List.append_assoc]
          · exact skipBlank_written h.vector_cons.1 _
          · simp

theorem stops_cons {c : Char} (hc : Token.isDelimiter c = true) (cs : List Char) :
    Token.Stops (c :: cs) := by
  intro d hd
  simp only [List.head?_cons, Option.mem_some_iff] at hd
  exact hd ▸ hc

theorem stops_writtenTail (b : Form) (rest : List Char) :
    Token.Stops (b.writtenTail ++ ')' :: rest) := by
  cases b with
  | atom a =>
      cases a with
      | nil => exact stops_cons (by decide) _
      | number n => exact stops_cons (by decide) _
      | text x => exact stops_cons (by decide) _
      | sym name => exact stops_cons (by decide) _
  | pair a b =>
      rw [Form.writtenTail]
      exact stops_cons (by decide) _
  | vector items =>
      rw [Form.writtenTail]
      exact stops_cons (by decide) _
  | unquote f =>
      rw [Form.writtenTail]
      exact stops_cons (by decide) _
  | splice f =>
      rw [Form.writtenTail]
      exact stops_cons (by decide) _

theorem listWithTail_pair (items : List Form) (a b : Form) :
    Form.listWithTail (a :: items).reverse b = Form.listWithTail items.reverse (.pair a b) := by
  simp [Form.listWithTail]

/-- A tail after a dot, with the parenthesis after it. -/
theorem readForm_dotted {b : Form} (h : b.Legible) (hb : b.goesOn = false) {item : Form}
    {items : List Form} {stack : List Pending} {sc : Scanner} {src : LineSource}
    {rest : List Char} (hsc : sc.rest = b.writtenTail ++ ')' :: rest)
    (hread : ∀ {stack : List Pending} {sc : Scanner} {rest : List Char}, Open stack →
      Token.Stops rest → Scanner.skipBlank sc.rest = b.written ++ rest →
      readForm stack sc src = after (Parser.complete b stack) { sc with rest } src) :
    readForm (.list (item :: items) :: stack) sc src =
      after (Parser.complete (.listWithTail (item :: items).reverse b) stack)
        { sc with rest } src := by
  rw [Form.writtenTail_dotted hb] at hsc
  have hdot : Scanner.skipBlank sc.rest = '.' :: ' ' :: (b.written ++ ')' :: rest) := by
    rw [hsc, List.cons_append, skipBlank_space]
    exact skipBlank_cons (by decide) (by decide) _
  rw [readForm_of_token hdot (t := .dot) rfl]
  simp only [Parser.feed, after_more]
  have hclose : Token.Stops (')' :: rest) := stops_cons (by decide) _
  rw [hread (fun _ _ _ h => by cases h) hclose (by rw [skipBlank_space, skipBlank_written h])]
  simp only [Parser.complete, after_more]
  rw [readForm_of_token (skipBlank_cons (by decide) (by decide) _) (t := .closeParen) rfl]
  simp only [Parser.feed]

mutual

/-- Reading goes over the text of a form and has the form. -/
theorem readForm_written : ∀ {f : Form}, f.Legible → ∀ {stack : List Pending} {sc : Scanner}
    {src : LineSource} {rest : List Char}, Open stack → Token.Stops rest →
    Scanner.skipBlank sc.rest = f.written ++ rest →
    readForm stack sc src = after (Parser.complete f stack) { sc with rest } src
  | .atom a, h, stack, sc, src, rest, hstack, hrest, hsc => by
      obtain ⟨c, cs, hw, -, -, hscan⟩ := Atom.scan_written h.atom.1 h.atom.2 hrest
      rw [Form.written, hw, List.cons_append] at hsc
      rw [readForm_of_start hstack hsc hscan (by simp) (by simp) (by simp), Parser.start]
  | .pair a b, h, stack, sc, src, rest, hstack, hrest, hsc => by
      by_cases hq : ∃ f, a.isQuoteHead ∧ b = .pair f .nil
      · obtain ⟨f, hq, rfl⟩ := hq
        have hf : f.Legible := h.pair.2.pair.1
        have hcall : Form.call "quote" [f] = .pair a (.pair f .nil) := by
          rw [Form.eq_of_isQuoteHead hq]
          rfl
        rw [Form.written_quote hq, List.cons_append] at hsc
        rw [readForm_of_start hstack hsc (t := .quote) rfl (by simp) (by simp) (by simp)]
        simp only [Parser.start, after_more]
        rw [readForm_written hf (fun _ _ _ h => by cases h) hrest (skipBlank_written hf rest)]
        simp only [Parser.complete, Mark.apply, hcall]
      · have hq' : ∀ f, a.isQuoteHead → b ≠ .pair f .nil := fun f h h' => hq ⟨f, h, h'⟩
        rw [Form.written_list hq', List.cons_append] at hsc
        rw [readForm_of_start hstack hsc (t := .openParen) rfl (by simp) (by simp) (by simp)]
        simp only [Parser.start, after_more]
        rw [readForm_written h.pair.1 (fun _ _ _ h => by cases h) (stops_writtenTail b rest)
          (by simp [skipBlank_written h.pair.1])]
        simp only [Parser.complete, after_more]
        rw [readForm_writtenTail h.pair.2 rfl]
        rfl
  | .vector fs, h, stack, sc, src, rest, hstack, hrest, hsc => by
      rw [Form.written, List.cons_append] at hsc
      rw [readForm_of_start hstack hsc (t := .openBracket) rfl (by simp) (by simp) (by simp)]
      simp only [Parser.start, after_more]
      have hitems := skipBlank_writtenItems h rest
      rw [readForm_writtenItems h (by simpa using hitems)]
      rfl
termination_by f => (sizeOf f, 0)

theorem readForm_writtenTail : ∀ {b : Form}, b.Legible → ∀ {item : Form} {items : List Form}
    {stack : List Pending} {sc : Scanner} {src : LineSource} {rest : List Char},
    sc.rest = b.writtenTail ++ ')' :: rest →
    readForm (.list (item :: items) :: stack) sc src =
      after (Parser.complete (.listWithTail (item :: items).reverse b) stack)
        { sc with rest } src
  | .atom a, h, item, items, stack, sc, src, rest, hsc => by
      by_cases hg : (Form.atom a).goesOn
      · cases Form.eq_nil_of_goesOn hg
        have hclose : Scanner.skipBlank sc.rest = ')' :: rest := by
          rw [hsc]
          exact skipBlank_cons (by decide) (by decide) _
        rw [readForm_of_token hclose (t := .closeParen) rfl]
        rfl
      · exact readForm_dotted h (by simpa using hg) hsc (readForm_written h)
  | .pair a b, h, item, items, stack, sc, src, rest, hsc => by
      have ha : Scanner.skipBlank sc.rest = a.written ++ (b.writtenTail ++ ')' :: rest) := by
        rw [hsc, Form.writtenTail, List.cons_append, skipBlank_space, List.append_assoc]
        exact skipBlank_written h.pair.1 _
      rw [readForm_written h.pair.1 (fun _ _ _ h => by cases h) (stops_writtenTail b rest) ha]
      simp only [Parser.complete, after_more]
      rw [readForm_writtenTail h.pair.2 rfl, listWithTail_pair]
  | .vector fs, h, item, items, stack, sc, src, rest, hsc =>
      readForm_dotted h rfl hsc (readForm_written h)
termination_by b => (sizeOf b, 1)

theorem readForm_writtenItems : ∀ {fs : List Form}, (Form.vector fs).Legible →
    ∀ {items : List Form} {stack : List Pending} {sc : Scanner} {src : LineSource}
    {rest : List Char}, Scanner.skipBlank sc.rest = Form.writtenItems fs ++ ']' :: rest →
    readForm (.vector items :: stack) sc src =
      after (Parser.complete (.vector (items.reverse ++ fs)) stack) { sc with rest } src
  | [], h, items, stack, sc, src, rest, hsc => by
      rw [readForm_of_token hsc (t := .closeBracket) rfl]
      simp [Parser.feed]
  | f :: fs, h, items, stack, sc, src, rest, hsc => by
      cases fs with
      | nil =>
          have hclose : Token.Stops (']' :: rest) := stops_cons (by decide) _
          rw [Form.writtenItems] at hsc
          rw [readForm_written h.vector_cons.1 (fun _ _ _ h => by cases h) hclose hsc]
          simp only [Parser.complete, after_more]
          rw [readForm_of_token (skipBlank_cons (by decide) (by decide) _) (t := .closeBracket) rfl]
          simp [Parser.feed]
      | cons f' fs =>
          have hspace : Token.Stops (' ' :: (Form.writtenItems (f' :: fs) ++ ']' :: rest)) :=
            stops_cons (by decide) _
          rw [Form.writtenItems, List.append_assoc, List.cons_append] at hsc
          · rw [readForm_written h.vector_cons.1 (fun _ _ _ h => by cases h) hspace hsc]
            simp only [Parser.complete, after_more]
            have hitems := skipBlank_writtenItems h.vector_cons.2 rest
            rw [readForm_writtenItems h.vector_cons.2 (by rw [skipBlank_space, hitems])]
            simp
          · simp
termination_by fs => (sizeOf fs, 2)

end

end Reader

end SmallLisp
