import SmallLisp.Proofs.Prelude.Defining
import SmallLisp.Proofs.Reading.Exhaustion
import SmallLisp.Proofs.Rounds

/-!
# Scripts of definitions

The forms on lines of text are what reading them gives one after the other, and building one gives a
value that stands for its tree. So a script of definitions that is run to its end leads from a state
that a lexicon describes to one that the lexicon with the definitions describes.
-/

namespace SmallLisp

open Eval Code

/-! ## Building forms -/

namespace Lexicon

/-- Interning a name finds its key, or adds it. -/
theorem intern_eq_symbol (table : SymbolTable) (name : String) :
    let found := symbol (table.names.toList.map SymbolTable.key) (SymbolTable.key name)
    (table.intern name).1 = found.1 ∧
      (table.intern name).2.names.toList.map SymbolTable.key = found.2 := by
  have hfind : (table.names.toList.map SymbolTable.key).findIdx? (· == SymbolTable.key name) =
      table.names.findIdx? (· == name) := by
    have hkey : (fun a : String => SymbolTable.key a == SymbolTable.key name) = (· == name) := by
      funext a
      rw [Bool.eq_iff_iff, beq_iff_eq, beq_iff_eq, SymbolTable.key_inj]
    rw [List.findIdx?_map, Function.comp_def, hkey, ← List.findIdx?_toArray, Array.toArray_toList]
  rw [symbol, hfind]
  cases hname : table.names.findIdx? (· == name) with
  | some i =>
      obtain ⟨hlt, heq, -⟩ := Array.findIdx?_eq_some_iff_getElem.1 hname
      have hat : table.names[i]? = some name := by
        rw [Array.getElem?_eq_getElem hlt, eq_of_beq heq]
      rw [SymbolTable.intern_of_lookup?_eq_some (s := ⟨i⟩) (SymbolTable.lookup?_eq_some_iff.2 hat)]
      exact ⟨rfl, rfl⟩
  | none =>
      have hnew : table.lookup? name = none := by
        rw [SymbolTable.lookup?_eq_none_iff, Array.mem_toList_iff]
        intro hmem
        simpa using Array.findIdx?_eq_none_iff.1 hname name hmem
      obtain ⟨hsymbol, hnames⟩ := SymbolTable.intern_of_lookup?_eq_none hnew
      simp [hsymbol, hnames, NameTables.size]

/-- A form that was built stands for its tree. -/
theorem stands_of_lower {keys keys' : List Nat} {f : Form} {c : Code} {store store' : Store}
    {symbols symbols' : SymbolTable} {v : Value} (hf : tree? keys f = some (c, keys'))
    (hkeys : symbols.names.toList.map SymbolTable.key = keys) (hsound : symbols.Sound)
    (h : f.lower store symbols = (.ok v, store', symbols')) :
    store.AddsCells store' ∧ symbols'.names.toList.map SymbolTable.key = keys' ∧
      symbols'.Sound ∧ c.Stands store' v := by
  fun_induction tree? keys f generalizing c keys' store symbols v store' symbols' with
  | case1 keys =>
      cases hf
      cases h
      exact ⟨.refl _, hkeys, hsound, rfl⟩
  | case2 keys n =>
      cases hf
      cases h
      exact ⟨.refl _, hkeys, hsound, rfl⟩
  | case3 keys name x keys₁ hx =>
      cases hf
      subst hkeys
      obtain ⟨hsym, hnames⟩ := intern_eq_symbol symbols name
      rw [hx] at hsym hnames
      cases h
      exact ⟨.refl _, hnames, SymbolTable.sound _, congrArg _ hsym⟩
  | case4 keys a b ihb iha =>
      obtain ⟨⟨d, keys₁⟩, hd, hf⟩ := Option.bind_eq_some_iff.1 hf
      obtain ⟨⟨e, keys₂⟩, he, hf⟩ := Option.bind_eq_some_iff.1 hf
      obtain ⟨cs, hcs, hf⟩ := Option.bind_eq_some_iff.1 hf
      cases hf
      rw [Form.lower] at h
      split at h
      · rename_i cdr store₁ symbols₁ hb
        obtain ⟨hadd₁, hkeys₁, hsound₁, hcdr⟩ := ihb hd hkeys hsound hb
        split at h
        · rename_i car store₂ symbols₂ ha
          obtain ⟨hadd₂, hkeys₂, hsound₂, hcar⟩ := iha _ he hkeys₁ hsound₁ ha
          split at h
          · rename_i w store₃ hcons
            cases h
            obtain ⟨rfl, rfl⟩ := Store.cons_eq_some hcons
            have hadd₃ := Store.AddsCells.push store₂ ⟨car, cdr⟩
            refine ⟨(hadd₁.trans hadd₂).trans hadd₃, hkeys₂, hsound₂, _, car, cdr, rfl,
              Store.cell?_push_size _ _, ?_, ?_⟩
            · exact (Store.KeepsCode.of_addsCells hadd₃).stands hcar
            · exact (Store.KeepsCode.of_addsCells (hadd₂.trans hadd₃)).standsAll
                ((standsAll_of_items? hcs).1 hcdr)
          · cases h
        · cases h
      · cases h
  | case5 => cases hf

end Lexicon

/-! ## Reading lines -/

namespace Reader

/-- The forms on lines of text. The text `rest` is unread of the line before them, and what the
stack holds waits for it. There is no answer if anything is wrong with the text. -/
def forms? : Nat → List Pending → List Char → List (List Char) → Option (List Form)
  | 0, _, _, _ => none
  | fuel + 1, stack, rest, lines =>
      match Scanner.skipBlank rest with
      | [] =>
          match lines with
          | [] => if stack.isEmpty then some [] else none
          | line :: lines => forms? fuel stack (line ++ ['\n']) lines
      | c :: cs =>
          match Token.scan c cs with
          | (.error _, _) => none
          | (.ok t, rest) =>
              match Parser.feed stack t with
              | .done f => (forms? fuel [] rest lines).map (f :: ·)
              | .more stack => forms? fuel stack rest lines
              | .fault _ => none

/-- What is left to read: the text `rest` of the line at hand, and the lines after it. -/
structure Faces (sc : Scanner) (src : LineSource) (rest : List Char) (lines : List (List Char)) :
    Prop where
  rest : sc.rest = rest
  answers : src.answers = lines.map fun line => .line (String.ofList line)
  ended : sc.atEnd = true → lines = []

variable {sc : Scanner} {src : LineSource} {rest : List Char} {lines : List (List Char)}

/-- Where nothing is left of a line, the next one is taken up. -/
theorem seek_of_blank {text : String} {answers : List Answer}
    (hblank : Scanner.skipBlank sc.rest = []) (hend : sc.atEnd = false)
    (hsrc : src.answers = .line text :: answers) :
    sc.seek src = (sc.take text).seek (src.asked sc.prompt answers) := by
  rw [Scanner.seek, hblank, Scanner.seek]
  simp only [show sc.skipLine.atEnd = false from hend, Bool.false_eq_true, if_false, hsrc,
    Scanner.fetch]
  have hend' : (sc.take text).skipLine.atEnd = false := hend
  simp only [hend', Bool.false_eq_true, if_false]
  rfl

theorem readForm_of_forms? {k : Nat} {stack : List Pending} {fs : List Form}
    (hfs : forms? k stack rest lines = some fs) (h : Faces sc src rest lines) :
    (fs = [] ∧ ∃ sc' src', readForm stack sc src = (.ok none, sc', src')) ∨
      ∃ f fs' k' rest' lines' sc' src', fs = f :: fs' ∧
        readForm stack sc src = (.ok (some f), sc', src') ∧
        forms? k' [] rest' lines' = some fs' ∧ Faces sc' src' rest' lines' := by
  induction k generalizing stack rest lines sc src fs with
  | zero => cases hfs
  | succ k ih =>
      unfold forms? at hfs
      obtain ⟨rfl, hanswers, hended⟩ := h
      split at hfs
      · rename_i hblank
        split at hfs
        · split at hfs
          · rename_i hempty
            cases hfs
            obtain ⟨sc', src', hnext⟩ : ∃ sc' src', sc.next src = (.ok none, sc', src') := by
              rw [Scanner.next, Scanner.seek, hblank]
              cases hat : sc.skipLine.atEnd <;>
                simp [hat, show src.answers = [] from hanswers, Scanner.fetch]
            rw [readForm_eq, hnext, afterNext, if_pos hempty]
            exact .inl ⟨rfl, sc', src', rfl⟩
          · cases hfs
        · rename_i line lines
          have hend : sc.atEnd = false := by
            cases hat : sc.atEnd with
            | false => rfl
            | true => cases hended hat
          have hnext : sc.next src =
              (sc.take (String.ofList line)).next
                (src.asked sc.prompt (lines.map fun line => .line (String.ofList line))) := by
            rw [Scanner.next, seek_of_blank hblank hend hanswers, Scanner.next]
          rw [readForm_eq, hnext, ← readForm_eq]
          refine ih hfs ⟨?_, rfl, ?_⟩
          · rw [Scanner.take, String.toList_ofList]
          · intro hat
            cases hend.symm.trans hat
      · rename_i c cs htext
        split at hfs
        · cases hfs
        rename_i t rest htoken
        rw [readForm_of_token htext htoken]
        split at hfs
        · rename_i f hfeed
          obtain ⟨fs', hfs', rfl⟩ := Option.map_eq_some_iff.1 hfs
          rw [hfeed]
          exact .inr ⟨f, fs', k, rest, lines, _, _, rfl, rfl, hfs', rfl, hanswers, hended⟩
        · rename_i stack' hfeed
          rw [hfeed]
          exact ih hfs ⟨rfl, hanswers, hended⟩
        · cases hfs

/-- Reading where such text is left reaches the end, or it reads the first of the forms and the
others are left. Only building a form can fail. -/
theorem read_of_forms? {k : Nat} {fs : List Form} {r : Reader}
    (hfs : forms? k [] rest lines = some fs) (h : Faces r.prepared src rest lines) (store : Store)
    (symbols : SymbolTable) :
    let out := r.read src store symbols
    (fs = [] ∧ out.result = .ok .eof ∧ out.store = store ∧ out.symbols = symbols) ∨
      (∃ cause, out.result = .error cause) ∨
      ∃ f fs' v k' rest' lines', fs = f :: fs' ∧ out.result = .ok v ∧ v ≠ .eof ∧
        f.lower store symbols = (.ok v, out.store, out.symbols) ∧
        forms? k' [] rest' lines' = some fs' ∧
          Faces out.reader.prepared out.source rest' lines' := by
  dsimp only
  rcases readForm_of_forms? hfs h with ⟨rfl, sc', src', hform⟩ |
    ⟨f, fs', k', rest', lines', sc', src', rfl, hform, hfs', h'⟩
  · rw [read, hform]
    exact .inl ⟨rfl, rfl, rfl, rfl⟩
  · have hne := lower_ne_eof f store symbols
    rw [read, hform]
    dsimp only
    rcases hlower : f.lower store symbols with ⟨e | v, store', symbols'⟩
    · exact .inr (.inl ⟨_, rfl⟩)
    · have hv : v ≠ .eof := fun hv => hne (by rw [hlower, hv])
      have hprepared : Faces (prepared ⟨sc', false⟩) src' rest' lines' :=
        ⟨h'.rest, h'.answers, h'.ended⟩
      exact .inr (.inr ⟨f, fs', v, k', rest', lines', rfl, rfl, hv, hlower, hfs', hprepared⟩)

end Reader

/-! ## Running scripts -/

/-- What reading a form of a script leaves. -/
theorem Feed.read_own (reader : Reader) (source : LineSource) (s : State) :
    let r := reader.read source s.store s.symbols
    (Feed.own reader source).read s =
      .ok (r.result, .own r.reader { r.source with requests := [] })
        { s with store := r.store, symbols := r.symbols
                 requests := r.source.addedTo s.requests } := by
  simp only [Feed.read, bind_apply, readFrom, State.note_eq]
  rfl

namespace Lexicon.Describes

variable {L L' : Lexicon} {s t : State}

theorem noted (h : L.Describes s) (requests : Array Request) :
    L.Describes { s with requests } :=
  ⟨h.keys, h.sound, h.truth, h.meanings, h.bound, h.expanders, h.dummies⟩

/-- A form that is read and evaluated leaves what the lexicon tells. -/
theorem next {k n : Nat} {f : Form} {v w : Value} {store : Store} {symbols : SymbolTable}
    (h : L.Describes s) (hf : L.next? k f = some L')
    (hlower : f.lower s.store s.symbols = (.ok v, store, symbols))
    (hw : evaluate n v none { s with store, symbols } = .ok w t) : L'.Describes t := by
  obtain ⟨⟨c, keys⟩, hc, hL'⟩ := Option.bind_eq_some_iff.1 hf
  obtain ⟨hadd, hkeys, hsound, hstands⟩ := stands_of_lower hc h.keys h.sound hlower
  have hread : Describes { L with keys } { s with store, symbols } := by
    have hdummies : store.dummies = s.store.dummies := by rw [hadd.rest]
    have hkept : L.Describes { s with store } :=
      h.keeps (t := { s with store }) (.of_addsCells hadd) rfl rfl
        ((congrArg Array.toList hdummies).trans h.dummies)
    exact { hkept with keys := hkeys, sound := hsound }
  exact (defines k hread hL' hstands hw).1

/-- A script of definitions that comes to its end leaves what the lexicon tells. -/
theorem loop {k m n j : Nat} {reader : Reader} {source : LineSource} {rest : List Char}
    {lines : List (List Char)} {fs : List Form} {record record' : Unit} {last v : Value}
    {feed : Feed} (h : L.Describes s) (hfs : Reader.forms? m [] rest lines = some fs)
    (hL' : fs.foldlM (next? k) L = some L')
    (hfaces : Reader.Faces reader.prepared source rest lines)
    (hv : Script.loop (Engine.ofFuel n) none j (.own reader source) record last s =
      .ok (.ok v, feed, record') t) : L'.Describes t := by
  induction j generalizing m reader source rest lines fs record last s L with
  | zero => cases hv
  | succ j ih =>
      have hfeed := Feed.read_own reader source s
      have hread := Reader.read_of_forms? hfs hfaces s.store s.symbols
      generalize reader.read source s.store s.symbols = out at hfeed hread
      obtain ⟨result, reader', source', store, symbols⟩ := out
      obtain ⟨rfl, rfl, rfl, rfl⟩ | ⟨cause, rfl⟩ |
        ⟨f, fs, u, m, rest, lines, rfl, rfl, hu, hlower, hfs, hfaces⟩ := hread
      · cases (Script.loop_of_eof hfeed j record last).symm.trans hv
        cases hL'
        exact h.noted _
      · cases (Script.loop_of_form hfeed (by simp) j record last).symm.trans hv
      · rw [List.foldlM_cons] at hL'
        obtain ⟨L₁, hL₁, hL'⟩ := Option.bind_eq_some_iff.1 hL'
        have hform : (Except.ok u : Except Cause Value) ≠ .ok .eof := fun heq =>
          hu (Except.ok.inj heq)
        have hloop := (Script.loop_of_form hfeed hform j record last).symm.trans hv
        obtain ⟨o, s₁, ho, hloop⟩ := bind_eq_ok.1 hloop
        unfold Script.outcome attempt at ho
        dsimp only at ho
        split at ho
        · rename_i w s₂ hw
          cases ho
          have hs₁ := (h.noted (source'.addedTo s.requests)).next hL₁ hlower hw
          have hfaces' : Reader.Faces reader'.prepared { source' with requests := [] } rest lines :=
            ⟨hfaces.rest, hfaces.answers, hfaces.ended⟩
          exact ih hs₁ hfs hL' hfaces' hloop
        · cases ho
          cases hloop
        · cases ho

end Lexicon.Describes

end SmallLisp
