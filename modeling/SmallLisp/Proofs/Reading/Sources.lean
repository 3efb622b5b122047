import SmallLisp.Proofs.Reading.Lines
import SmallLisp.Proofs.Reading.Progress
import SmallLisp.Proofs.Reading.Recovery

/-!
# Text in memory and the stream of its bytes

Reading a text to its end gives the same through either source, whatever its lines end in: the same
forms in the same memory, and the same faults, which may only be told of another place. Where the
sources differ, at the last line, what is unread differs by a carriage return in front of the line
feed. Both are blank, and in a string or an escape neither changes what is amiss with it.
-/

namespace SmallLisp

/-! ## Unread text that differs by a carriage return at its end -/

namespace Scanner

/-- The second text is the first, or has a carriage return more in front of its last line feed. -/
inductive RestAlike : List Char → List Char → Prop
  | refl (cs : List Char) : RestAlike cs cs
  | carriage : RestAlike ['\n'] ['\r', '\n']
  | cons (c : Char) {cs cs' : List Char} : RestAlike cs cs' → RestAlike (c :: cs) (c :: cs')

theorem RestAlike.line (cs : List Char) : RestAlike (cs ++ ['\n']) (cs ++ ['\r'] ++ ['\n']) := by
  induction cs with
  | nil => exact .carriage
  | cons c cs ih => exact .cons c ih

end Scanner

namespace Token

open Scanner

/-- A string ends in the same way, whether the line it is on ends in a carriage return or not. -/
theorem scanString_alike {cs cs' : List Char} (h : RestAlike cs cs') (mode : StringMode)
    (reversed : List Char) :
    (scanString mode reversed cs).1 = (scanString mode reversed cs').1 ∧
      RestAlike (scanString mode reversed cs).2 (scanString mode reversed cs').2 := by
  induction h generalizing mode reversed with
  | refl cs => exact ⟨rfl, .refl _⟩
  | carriage =>
      cases mode with
      | plain => exact ⟨rfl, .refl _⟩
      | escape => exact ⟨rfl, .carriage⟩
      | hex => exact ⟨rfl, .carriage⟩
      | code radix value left =>
          cases left <;> exact ⟨rfl, .refl _⟩
  | cons c h ih =>
      simp only [scanString]
      split
      · exact ih _ _
      · exact ⟨rfl, h⟩
      · exact ⟨rfl, .cons c h⟩

/-- Words end before either. -/
theorem takeWhile_alike {cs cs' : List Char} (h : RestAlike cs cs') :
    cs.takeWhile (!isDelimiter ·) = cs'.takeWhile (!isDelimiter ·) ∧
      RestAlike (cs.dropWhile (!isDelimiter ·)) (cs'.dropWhile (!isDelimiter ·)) := by
  induction h with
  | refl cs => exact ⟨rfl, .refl _⟩
  | carriage => exact ⟨rfl, .carriage⟩
  | cons c h ih =>
      by_cases hc : isDelimiter c = true
      · simpa [hc] using RestAlike.cons c h
      · simpa [hc] using ih

theorem scanWord_alike {cs cs' : List Char} (h : RestAlike cs cs') (c : Char) :
    (scanWord c cs).1 = (scanWord c cs').1 ∧ RestAlike (scanWord c cs).2 (scanWord c cs').2 := by
  obtain ⟨htake, hdrop⟩ := takeWhile_alike h
  unfold scanWord
  rw [htake]
  dsimp only
  split <;> exact ⟨rfl, hdrop⟩

/-- The same token, or the same fault in one. -/
theorem scan_alike {cs cs' : List Char} (h : RestAlike cs cs') (c : Char) :
    (scan c cs).1 = (scan c cs').1 ∧ RestAlike (scan c cs).2 (scan c cs').2 := by
  unfold scan
  split
  · exact ⟨rfl, h⟩
  split
  · cases h with
    | refl => exact ⟨rfl, .refl _⟩
    | carriage => exact ⟨rfl, .carriage⟩
    | @cons d ds ds' h =>
        by_cases hd : d = '@'
        · subst hd
          exact ⟨rfl, h⟩
        · split <;> split <;> simp_all [RestAlike.cons]
  split
  · obtain ⟨hsame, hrest⟩ := scanString_alike h .plain []
    rcases hs : scanString .plain [] cs with ⟨x, rest⟩
    rcases hs' : scanString .plain [] cs' with ⟨x', rest'⟩
    rw [hs, hs'] at hsame hrest
    dsimp only at hsame
    subst hsame
    cases x <;> exact ⟨rfl, hrest⟩
  · exact scanWord_alike h c

end Token

/-! ## Readers in step -/

/-- The cause without the place that it tells of. -/
def Cause.unplaced : Cause → Cause
  | .unreadable message _ _ => .unreadable message 0 ""
  | c => c

theorem Cause.stopsScript_unplaced (c : Cause) : c.unplaced.stopsScript = c.stopsScript := by
  cases c <;> rfl

/-- The outcome of a reading but for the place that a fault is told of: the form or the fault, and
the memory. -/
def Reading.unplaced (r : Reading) : Except Cause Value × Store × SymbolTable :=
  (r.result.mapError Cause.unplaced, r.store, r.symbols)

namespace Scanner

/-- Two scanners have the same text before them, but for what the last line ends in. -/
structure Alike (sc : Scanner) (src : LineSource) (sc' : Scanner) (src' : LineSource) : Prop where
  rest : RestAlike sc.rest sc'.rest
  answers : LineSource.EndAlike src.answers src'.answers
  atEnd : sc.atEnd = sc'.atEnd

/-- Two scanners seek the same: both find a token that starts with the same character, or neither
finds one. They are alike then. -/
inductive SoughtAlike : Sought × Scanner × LineSource → Sought × Scanner × LineSource → Prop
  | start (c : Char) {cs cs' : List Char} {sc sc' : Scanner} {src src' : LineSource} :
      RestAlike cs cs' → Alike sc src sc' src' →
      SoughtAlike (.start c cs, sc, src) (.start c cs', sc', src')
  | ended {sc sc' : Scanner} {src src' : LineSource} : Alike sc src sc' src' →
      SoughtAlike (.ended, sc, src) (.ended, sc', src')
  | failed (f : SourceFault) {sc sc' : Scanner} {src src' : LineSource} : Alike sc src sc' src' →
      SoughtAlike (.failed f, sc, src) (.failed f, sc', src')

/-- Two scanners come to the same result, up to the place of a fault, and are alike then. -/
inductive ResultAlike {α : Type} :
    Except Cause α × Scanner × LineSource → Except Cause α × Scanner × LineSource → Prop
  | ok (a : α) {sc sc' : Scanner} {src src' : LineSource} : Alike sc src sc' src' →
      ResultAlike (.ok a, sc, src) (.ok a, sc', src')
  | error {c c' : Cause} {sc sc' : Scanner} {src src' : LineSource} : c.unplaced = c'.unplaced →
      Alike sc src sc' src' → ResultAlike (.error c, sc, src) (.error c', sc', src')

/-- What comes after blanks. -/
theorem skipBlank_alike {cs cs' : List Char} (h : RestAlike cs cs') :
    (skipBlank cs = [] ∧ skipBlank cs' = []) ∨
      ∃ c ds ds', skipBlank cs = c :: ds ∧ skipBlank cs' = c :: ds' ∧ RestAlike ds ds' := by
  induction h with
  | refl cs =>
      cases skipBlank cs with
      | nil => exact .inl ⟨rfl, rfl⟩
      | cons c ds => exact .inr ⟨c, ds, ds, rfl, rfl, .refl _⟩
  | carriage => exact .inl ⟨by decide, by decide⟩
  | @cons c ds ds' h ih =>
      simp only [skipBlank]
      split
      · exact .inl ⟨rfl, rfl⟩
      split
      · exact ih
      · exact .inr ⟨c, ds, ds', rfl, rfl, h⟩

namespace Alike

variable {sc sc' : Scanner} {src src' : LineSource}

theorem beginForm (h : Alike sc src sc' src') : Alike sc.beginForm src sc'.beginForm src' :=
  ⟨h.rest, h.answers, h.atEnd⟩

theorem skipLine (h : Alike sc src sc' src') : Alike sc.skipLine src sc'.skipLine src' :=
  ⟨.refl _, h.answers, h.atEnd⟩

/-- A line is taken up, and if it is blank the next one is asked for. -/
theorem fetch_line {text text' : String} {answers answers' : List Answer}
    (htext : RestAlike (text.toList ++ ['\n']) (text'.toList ++ ['\n']))
    (h : LineSource.EndAlike answers answers') (hend : sc.atEnd = sc'.atEnd)
    (hnext : ∀ sc sc' : Scanner, ∀ src src', sc.rest = [] → sc'.rest = [] → sc.atEnd = sc'.atEnd →
      SoughtAlike (sc.fetch src answers) (sc'.fetch src' answers')) :
    SoughtAlike (sc.fetch src (.line text :: answers))
      (sc'.fetch src' (.line text' :: answers')) := by
  have hline : Alike (sc.take text) (src.asked sc.prompt answers) (sc'.take text')
      (src'.asked sc'.prompt answers') := ⟨htext, h, hend⟩
  simp only [fetch]
  rcases skipBlank_alike hline.rest with ⟨hnone, hnone'⟩ | ⟨c, ds, ds', hsome, hsome', hds⟩
  · rw [hnone, hnone']
    exact hnext _ _ _ _ rfl rfl hend
  · rw [hsome, hsome']
    exact .start c hds hline

/-- Asking for lines finds the same. The text in memory may have an empty line more to ask for. -/
theorem fetch {answers answers' : List Answer} (h : LineSource.EndAlike answers answers')
    (hrest : sc.rest = []) (hrest' : sc'.rest = []) (hend : sc.atEnd = sc'.atEnd) :
    SoughtAlike (sc.fetch src answers) (sc'.fetch src' answers') := by
  have hsame : RestAlike sc.rest sc'.rest := by
    rw [hrest, hrest']
    exact .refl _
  induction h generalizing sc sc' src src' with
  | nil => exact .ended ⟨hsame, .nil, rfl⟩
  | blank =>
      have hblank : skipBlank (sc.take "").rest = [] :=
        show skipBlank ("".toList ++ ['\n']) = [] by decide
      simp only [Scanner.fetch, hblank]
      refine .ended ⟨?_, .nil, rfl⟩
      rw [hrest']
      exact .refl _
  | carriage cs =>
      refine fetch_line ?_ .nil hend fun sc sc' src src' h h' _ => .ended ⟨?_, .nil, rfl⟩
      · rw [String.toList_ofList, String.toList_ofList]
        exact .line cs
      · rw [h, h']
        exact .refl _
  | cons a h ih =>
      cases a with
      | fault f => exact .failed f ⟨hsame, h, hend⟩
      | line text =>
          refine fetch_line (.refl _) h hend fun sc sc' src src' hrest hrest' hend =>
            ih hrest hrest' hend ?_
          rw [hrest, hrest']
          exact .refl _

theorem seek (h : Alike sc src sc' src') : SoughtAlike (sc.seek src) (sc'.seek src') := by
  unfold Scanner.seek
  rcases skipBlank_alike h.rest with ⟨hnone, hnone'⟩ | ⟨c, ds, ds', hsome, hsome', hds⟩
  · rw [hnone, hnone']
    dsimp only
    by_cases hend : sc.atEnd = true
    · rw [if_pos (show sc.skipLine.atEnd = true from hend),
        if_pos (show sc'.skipLine.atEnd = true from h.atEnd ▸ hend)]
      exact .ended h.skipLine
    · rw [if_neg (show ¬ sc.skipLine.atEnd = true from hend),
        if_neg (show ¬ sc'.skipLine.atEnd = true from h.atEnd ▸ hend)]
      exact fetch h.answers rfl rfl h.atEnd
  · rw [hsome, hsome']
    exact .start c hds h

/-- The next token is the same, or the fault in it. -/
theorem next (h : Alike sc src sc' src') : ResultAlike (sc.next src) (sc'.next src') := by
  have hseek := h.seek
  unfold Scanner.next
  generalize sc.seek src = found at hseek ⊢
  generalize sc'.seek src' = found' at hseek ⊢
  cases hseek with
  | @start c cs cs' sc sc' src src' hcs h =>
      obtain ⟨hsame, hrest⟩ := Token.scan_alike hcs c
      rcases hs : Token.scan c cs with ⟨x, rest⟩
      rcases hs' : Token.scan c cs' with ⟨x', rest'⟩
      rw [hs, hs'] at hsame hrest
      dsimp only at hsame
      subst hsame
      simp only [hs, hs']
      cases x with
      | ok t => exact .ok _ ⟨hrest, h.answers, h.atEnd⟩
      | error f => exact .error rfl ⟨hrest, h.answers, h.atEnd⟩
  | ended h => exact .ok _ h
  | failed f h => exact .error rfl h

end Alike

end Scanner

namespace Reader

open Scanner

/-- The next form is the same, or the fault on the way. -/
theorem readForm_alike {stack : List Pending} {sc sc' : Scanner} {src src' : LineSource}
    (h : Scanner.Alike sc src sc' src') :
    ResultAlike (readForm stack sc src) (readForm stack sc' src') := by
  have hstep := h.next
  rw [readForm_eq stack sc']
  fun_induction readForm stack sc src generalizing sc' src' with
  | case1 stack sc src cause sc₁ src₁ hnext =>
      rw [hnext] at hstep
      generalize sc'.next src' = found at hstep ⊢
      cases hstep with
      | error hc h => exact .error hc h
  | case2 stack sc src sc₁ src₁ hnext hempty =>
      rw [hnext] at hstep
      generalize sc'.next src' = found at hstep ⊢
      cases hstep with
      | ok _ h =>
          rw [afterNext, if_pos hempty]
          exact .ok _ h
  | case3 stack sc src sc₁ src₁ hnext hopen =>
      rw [hnext] at hstep
      generalize sc'.next src' = found at hstep ⊢
      cases hstep with
      | ok _ h =>
          rw [afterNext, if_neg hopen]
          exact .error rfl h
  | case4 stack sc src t sc₁ src₁ hnext f hfeed =>
      rw [hnext] at hstep
      generalize sc'.next src' = found at hstep ⊢
      cases hstep with
      | ok _ h =>
          rw [afterNext, hfeed]
          exact .ok _ h
  | case5 stack sc src t sc₁ src₁ hnext f hfeed =>
      rw [hnext] at hstep
      generalize sc'.next src' = found at hstep ⊢
      cases hstep with
      | ok _ h =>
          rw [afterNext, hfeed]
          exact .error rfl h
  | case6 stack sc src t sc₁ src₁ hnext stack' hfeed ih =>
      rw [hnext] at hstep
      generalize sc'.next src' = found at hstep ⊢
      cases hstep with
      | ok _ h =>
          have hrest := ih h h.next
          rw [← readForm_eq] at hrest
          rw [afterNext, hfeed, after_more]
          exact hrest

theorem isAtEnd_eq {reading reading' : Reading} (h : reading.unplaced = reading'.unplaced) :
    reading.isAtEnd = reading'.isAtEnd := by
  have hresult := congrArg Prod.fst h
  unfold Reading.isAtEnd
  simp only [Reading.unplaced] at hresult
  rcases hx : reading.result with c | v <;> rcases hx' : reading'.result with c' | v' <;>
    simp only [hx, hx', Except.mapError, reduceCtorEq, Except.ok.injEq] at hresult
  · rfl
  · rw [hresult]

/-- Two readers about to read the same text. -/
def Alike (r : Reader) (src : LineSource) (r' : Reader) (src' : LineSource) : Prop :=
  Scanner.Alike r.prepared src r'.prepared src'

/-- New readers of a text in memory and of the stream of its bytes. -/
theorem alike_new (text : String) :
    Alike {} (.ofText text) {} (.ofBytes text.toUTF8) :=
  ⟨.refl _, LineSource.endAlike_ofText_ofBytes text, rfl⟩

/-- After a form or a fault the readers are alike again: of a faulty line, nothing is left. -/
theorem prepared_alike {sc sc' : Scanner} {src src' : LineSource}
    (h : Scanner.Alike sc src sc' src') (erred : Bool) :
    Alike ⟨sc, erred⟩ src ⟨sc', erred⟩ src' := by
  cases erred with
  | false => exact h.beginForm
  | true => exact h.beginForm.skipLine

/-- Both readings come out the same in the same memory, and the readers are alike again. -/
theorem read_alike {r r' : Reader} {src src' : LineSource} (h : Alike r src r' src')
    (store : Store) (symbols : SymbolTable) :
    (r.read src store symbols).unplaced = (r'.read src' store symbols).unplaced ∧
      Alike (r.read src store symbols).reader (r.read src store symbols).source
        (r'.read src' store symbols).reader (r'.read src' store symbols).source := by
  have hform : ResultAlike (readForm [] r.prepared src) (readForm [] r'.prepared src') :=
    readForm_alike h
  unfold read
  generalize readForm [] r.prepared src = result at hform ⊢
  generalize readForm [] r'.prepared src' = result' at hform ⊢
  cases hform with
  | @ok f sc sc' src src' h =>
      cases f with
      | none => exact ⟨rfl, prepared_alike h false⟩
      | some f =>
          dsimp only
          rcases f.lower store symbols with ⟨_ | _, store, symbols⟩
          · exact ⟨rfl, prepared_alike h true⟩
          · exact ⟨rfl, prepared_alike h false⟩
  | @error c c' sc sc' src src' hc h =>
      have hstops : c.stopsScript = c'.stopsScript := by
        rw [← c.stopsScript_unplaced, hc, c'.stopsScript_unplaced]
      refine ⟨?_, ?_⟩
      · simp only [Reading.unplaced, Except.mapError, hc]
      · dsimp only
        rw [hstops]
        exact prepared_alike h _

/-- Whatever memory each reading finds, the readings come out the same. -/
theorem readings_alike {r r' : Reader} {src src' : LineSource} (h : Alike r src r' src')
    (memories : List (Store × SymbolTable)) :
    (r.readings src memories).map Reading.unplaced =
      (r'.readings src' memories).map Reading.unplaced := by
  induction memories generalizing r src r' src' with
  | nil => rfl
  | cons memory later ih =>
      obtain ⟨hread, hafter⟩ := read_alike h memory.1 memory.2
      simp only [readings, List.map_cons, hread, ih hafter]

/-- Read to the end, the readings come out the same, and there are as many. -/
theorem readAll_alike {r r' : Reader} {src src' : LineSource} (h : Alike r src r' src')
    (store : Store) (symbols : SymbolTable) :
    (r.readAll src store symbols).map Reading.unplaced =
      (r'.readAll src' store symbols).map Reading.unplaced := by
  fun_induction readAll r src store symbols generalizing r' src' with
  | case1 r src store symbols reading =>
      rename_i hend
      obtain ⟨hread, -⟩ := read_alike h store symbols
      have hend' : (r'.read src' store symbols).isAtEnd = true := isAtEnd_eq hread ▸ hend
      rw [readAll, dif_pos hend', List.map_singleton, List.map_singleton]
      exact congrArg (fun x => [x]) hread
  | case2 r src store symbols reading hmore =>
      rename_i ih
      obtain ⟨hread, hafter⟩ := read_alike h store symbols
      have hmore' : ¬ (r'.read src' store symbols).isAtEnd = true := isAtEnd_eq hread ▸ hmore
      have hstore : reading.store = (r'.read src' store symbols).store :=
        congrArg (·.2.1) hread
      have hsymbols : reading.symbols = (r'.read src' store symbols).symbols :=
        congrArg (·.2.2) hread
      have hrest := ih hafter
      rw [hstore, hsymbols] at hrest
      rw [readAll.eq_def r', dif_neg hmore', List.map_cons, List.map_cons, ← hread, ← hrest,
        hstore, hsymbols]

/-- The two sources of a text agree. Read to the end, a text in memory and the stream of its bytes
give the same forms and faults, one after the other, in the same memory; only the place that a fault
is told of may differ. So they do if the memory of each reading is whatever was made of it since the
one before. -/
theorem sources_agree (text : String) :
    (∀ store symbols,
      (({} : Reader).readAll (.ofText text) store symbols).map Reading.unplaced =
        (({} : Reader).readAll (.ofBytes text.toUTF8) store symbols).map Reading.unplaced) ∧
    ∀ memories, (({} : Reader).readings (.ofText text) memories).map Reading.unplaced =
      (({} : Reader).readings (.ofBytes text.toUTF8) memories).map Reading.unplaced :=
  ⟨readAll_alike (alike_new text), readings_alike (alike_new text)⟩

end Reader

end SmallLisp
