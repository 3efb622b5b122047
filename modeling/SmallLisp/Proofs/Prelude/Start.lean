import SmallLisp.Proofs.Prelude.Scripts
import SmallLisp.Proofs.Prelude.Definitions

/-!
# After the start the bundled definitions are loaded

What the bundled text comes to as trees is computed once. An interpreter that starts goes through
states that lexicons describe: the one without definitions, the ones with more and more natives, and
the ones with more and more of the bundled definitions. The last has the four definitions with the
bodies that are told of them.
-/

namespace SmallLisp

open Eval Code

variable {L L' : Lexicon} {s t : State}

/-! ## Texts -/

namespace LineSource

/-- A line of its own in front of others. -/
theorem splitLines_append {l : List Char} (h : '\n' ∉ l) (rest : List Char) :
    splitLines (l ++ '\n' :: rest) = l :: splitLines rest := by
  induction l with
  | nil => rfl
  | cons c l ih =>
      rw [List.mem_cons, not_or] at h
      rw [List.cons_append, splitLines_cons (Ne.symm h.1), ih h.2]
      rfl

/-- Lines that are put together with a line feed after each are cut again. -/
theorem splitLines_intercalate {lines : List String} (hne : lines ≠ [])
    (h : ∀ line ∈ lines, '\n' ∉ line.toList) :
    splitLines ("\n".intercalate lines ++ "\n").toList = lines.map String.toList ++ [[]] := by
  have hfeed : "\n".toList = ['\n'] := rfl
  rw [String.toList_append, hfeed]
  induction lines with
  | nil => exact absurd rfl hne
  | cons line lines ih =>
      rw [List.forall_mem_cons] at h
      cases lines with
      | nil =>
          rw [String.intercalate_singleton, splitLines_append h.1]
          rfl
      | cons line' lines =>
          have ih := ih (List.cons_ne_nil _ _) h.2
          rw [String.intercalate_cons_cons, String.toList_append, String.toList_append, hfeed,
            List.append_assoc, List.append_assoc, List.singleton_append, splitLines_append h.1, ih]
          rfl

end LineSource

namespace Lexicon

theorem Describes.close (h : L.Describes s) {feed : Feed} {fault : Option SourceFault}
    (hc : feed.close s = .ok fault t) : L.Describes t := by
  cases feed <;>
  · simp only [Feed.close, State.note_eq] at hc
    cases hc
    exact ⟨h.keys, h.sound, h.truth, h.meanings, h.bound, h.expanders, h.dummies⟩

/-- A text of definitions that is run to its end leaves what the lexicon tells. -/
theorem Describes.runText {k m n : Nat} {text : String} {fs : List Form} {v : Value}
    (h : L.Describes s)
    (hfs : Reader.forms? m [] []
      ((LineSource.splitLines text.toList).map LineSource.dropReturn) = some fs)
    (hL' : fs.foldlM (next? k) L = some L')
    (hv : Interpreter.runText (Engine.ofFuel n) text s = .ok v t) : L'.Describes t := by
  have hfaces : Reader.Faces (Reader.prepared {}) (.ofText text) []
      ((LineSource.splitLines text.toList).map LineSource.dropReturn) := by
    refine ⟨rfl, ?_, fun hend => by cases hend⟩
    rw [LineSource.ofText, List.map_map]
    rfl
  rw [Interpreter.runText, Script.run, bind_eq_ok] at hv
  obtain ⟨⟨result, record⟩, s₁, hrun, hv⟩ := hv
  rw [Script.runWith, bind_eq_ok] at hrun
  obtain ⟨⟨result', feed, record'⟩, s₂, hloop, hrun⟩ := hrun
  obtain ⟨closing, s₃, hclose, hrun⟩ := bind_eq_ok.1 hrun
  cases hrun
  cases result' with
  | error f => cases hv
  | ok w =>
      have hdone := (h.loop hfs hL' hfaces hloop).close hclose
      cases closing <;> cases hv
      exact hdone

/-! ## Natives -/

/-- A native is installed under its name. -/
theorem Describes.install (h : L.Describes s) {m : Native} (hm : m.name ≠ "t") {u : Unit}
    (hu : Interpreter.install m s = .ok u t) :
    (L.withNative m).Describes t ∧ t.config = s.config := by
  obtain ⟨hsym, hkeys⟩ := intern_eq_symbol s.symbols m.name
  have hsound := (s.symbols.intern m.name).2.sound
  have hname := s.symbols.name?_intern m.name
  have hinstall : Interpreter.install m s = .ok () (State.setGlobal
      { s with
        symbols := (s.symbols.intern m.name).2
        store := (s.store.newCallable (.native m)).2 }
      (s.symbols.intern m.name).1 (.callable ⟨s.store.callables.size⟩)) := rfl
  rw [hinstall] at hu
  rw [h.keys] at hsym hkeys
  generalize s.symbols.intern m.name = interned at *
  obtain ⟨x, symbols⟩ := interned
  have hx : x ≠ Symbol.t := by
    rintro rfl
    rw [hsound.name?_known (i := Symbol.t.index) (by decide)] at hname
    exact hm (Option.some.inj hname).symm
  cases hu
  have hinterned : Describes { L with keys := (symbol L.keys (SymbolTable.key m.name)).2 }
      { s with symbols } := { h with keys := hkeys, sound := hsound }
  have hmade := hinterned.accrues (.newCallable _ (.native m))
  have hset := hmade.setGlobal hx (m := .native m)
    ⟨⟨s.store.callables.size⟩, .native m, rfl, Array.getElem?_push_size, rfl⟩
  obtain rfl : x = _ := hsym
  exact ⟨hset, rfl⟩

theorem Describes.installAll {ms : List Native} (h : L.Describes s) (hms : ∀ m ∈ ms, m.name ≠ "t")
    {u : Unit} (hu : Interpreter.installAll ms s = .ok u t) :
    (ms.foldl withNative L).Describes t ∧ t.config = s.config := by
  induction ms generalizing L s with
  | nil =>
      cases hu
      exact ⟨h, rfl⟩
  | cons m ms ih =>
      rw [List.forall_mem_cons] at hms
      rw [Interpreter.installAll, bind_eq_ok] at hu
      obtain ⟨_, s₁, hm, hu⟩ := hu
      obtain ⟨hs₁, hconfig₁⟩ := h.install hms.1 hm
      obtain ⟨ht, hconfig⟩ := ih hs₁ hms.2 hu
      exact ⟨ht, hconfig.trans hconfig₁⟩

/-- What the first bindings leave: new cells, a text, and the values bound. -/
theorem seed_eq_ok {u : Unit} (h : Interpreter.seed s = .ok u t) :
    ∃ version, (version = .nil ∨ ∃ r, version = .pair r) ∧
      (∀ x, t.global? x = if x = Symbol.eof then some .eof
        else if x = Symbol.version then some version
        else if x = Symbol.t then some (.sym Symbol.t)
        else if x = Symbol.error then some (.sym Symbol.error) else s.global? x) ∧
      t.symbols = s.symbols ∧ t.store.dummies = s.store.dummies ∧ t.config = s.config := by
  unfold Interpreter.seed at h
  generalize Interpreter.release = release at h
  generalize Interpreter.implementation = implementation at h
  obtain ⟨_, s₁, hs₁, h⟩ := bind_eq_ok.1 h
  obtain ⟨_, s₂, hs₂, h⟩ := bind_eq_ok.1 h
  obtain ⟨name, s₃, hs₃, h⟩ := bind_eq_ok.1 h
  obtain ⟨version, s₄, hlist, h⟩ := bind_eq_ok.1 h
  obtain ⟨_, s₅, hs₅, h⟩ := bind_eq_ok.1 h
  have hcons : consAll [name, .double release] .nil s₃ = .ok version s₄ := hlist
  obtain ⟨hadd, hs₄, hchain⟩ := consAll_eq_ok hcons
  have htext : s₃ = { s₂ with store := (s₂.store.newText implementation).2 } := by
    cases hs₃
    rfl
  have hglobal : ∀ x, s₄.global? x = s₂.global? x := fun x => by
    rw [State.global?, hs₄, htext]
    rfl
  have hsymbols : s₄.symbols = s₂.symbols := by rw [hs₄, htext]
  have hdummies : s₄.store.dummies = s₂.store.dummies := by
    rw [hadd.rest, htext]
    rfl
  have hconfig : s₄.config = s₂.config := by rw [hs₄, htext]
  rw [modify_eq_ok hs₁] at hs₂
  rw [modify_eq_ok hs₂] at hglobal hsymbols hdummies hconfig
  rw [modify_eq_ok hs₅] at h
  rw [modify_eq_ok h]
  refine ⟨version, hchain.nil_or_pair, fun x => ?_, by simpa using hsymbols,
    by simpa using hdummies, by simpa using hconfig⟩
  rw [State.global?_setGlobal, State.global?_setGlobal, hglobal, State.global?_setGlobal,
    State.global?_setGlobal]

/-- Before the natives are installed no name denotes a callable. -/
theorem describes_seed {config : Config} {console : LineSource} {sink : Sink} {folder : Folder}
    {u : Unit}
    (h : Interpreter.seed (Interpreter.blank config console sink folder) = .ok u t) :
    Describes { keys := Symbol.wellKnown.map SymbolTable.key } t ∧ t.config = config := by
  obtain ⟨version, hversion, hglobal, hsymbols, hdummies, hconfig⟩ := seed_eq_ok h
  have hcallable : ∀ x r, t.global? x ≠ some (.callable r) := by
    intro x r hx
    rw [hglobal] at hx
    rcases hversion with rfl | ⟨p, rfl⟩ <;> (repeat' split at hx) <;>
      simp [State.global?, Interpreter.blank] at hx
  refine ⟨?_, hconfig⟩
  constructor
  case keys => rw [hsymbols]; rfl
  case sound => exact hsymbols ▸ SymbolTable.sound_new
  case truth => rw [hglobal]; rfl
  case meanings => exact fun hx => by cases hx
  case bound => exact fun hx => (hcallable _ _ hx).elim
  case expanders =>
    rintro x ⟨r, -, -, hx, -⟩
    exact (hcallable x r hx).elim
  case dummies => rw [hdummies]; rfl

end Lexicon

/-! ## The bundled definitions -/

namespace Code

mutual

/-- Whether words and lists are the same. Nothing else is the same as anything. -/
def same : Code → Code → Bool
  | .word (.double _), _ => false
  | .word v, .word w => v.same w
  | .list cs, .list ds => sameAll cs ds
  | _, _ => false

def sameAll : List Code → List Code → Bool
  | [], [] => true
  | c :: cs, d :: ds => same c d && sameAll cs ds
  | _, _ => false

end

mutual

theorem eq_of_same {c d : Code} (h : c.same d = true) : c = d := by
  unfold same at h
  split at h
  · cases h
  · rename_i v w hdouble
    rw [(Value.same_iff fun x hx => hdouble x (by rw [hx])).1 h]
  · rename_i cs ds
    rw [eq_of_sameAll h]
  · cases h

theorem eq_of_sameAll : ∀ {cs ds : List Code}, sameAll cs ds = true → cs = ds
  | [], [], _ => rfl
  | c :: cs, d :: ds, h => by
      rw [sameAll, Bool.and_eq_true] at h
      rw [eq_of_same h.1, eq_of_sameAll h.2]

end

end Code

/-- Whether the meanings are the same, where both have bodies of words and lists. -/
def Meaning.same : Meaning → Meaning → Bool
  | .native m, .native m' => decide (m = m')
  | .closure shape body, .closure shape' body' =>
      decide (shape = shape') && sameAll body body'
  | .expander shape body, .expander shape' body' =>
      decide (shape = shape') && sameAll body body'
  | _, _ => false

theorem Meaning.eq_of_same {m m' : Meaning} (h : m.same m' = true) : m = m' := by
  unfold same at h
  split at h
  · rw [of_decide_eq_true h]
  · rw [Bool.and_eq_true, decide_eq_true_eq] at h
    rw [h.1, eq_of_sameAll h.2]
  · rw [Bool.and_eq_true, decide_eq_true_eq] at h
    rw [h.1, eq_of_sameAll h.2]
  · cases h

namespace Lexicon

/-- The symbol of a name in the lexicon. -/
def symbolOf (L : Lexicon) (name : String) : Symbol := (symbol L.keys (SymbolTable.key name)).1

/-- Whether the name has the meaning. -/
def has (L : Lexicon) (name : String) (m : Meaning) : Bool :=
  (L.meaning? (L.symbolOf name)).any (·.same m)

theorem Describes.exists_of_has (h : L.Describes s) {name : String} {m : Meaning}
    (hm : L.has name m = true) : ∃ r f, s.global? (L.symbolOf name) = some (.callable r) ∧
      s.store.callable r = f ∧ m.Tells s.store f := by
  obtain ⟨m', hmeaning, hsame⟩ := (Option.any_eq_true _ _).1 hm
  rw [Meaning.eq_of_same hsame] at hmeaning
  obtain ⟨r, f, hr, hf, htells⟩ := h.meanings hmeaning
  exact ⟨r, f, hr, getD_of_getElem? hf _, htells⟩

end Lexicon

namespace Prelude

/-- What the name of the definition means. -/
def Definition.meaning (d : Definition) (σ : String → Symbol) : Meaning :=
  if d.isMacro then .expander d.shape (d.body σ) else .closure d.shape (d.body σ)

theorem Definition.exists_of_tells {d : Definition} {σ : String → Symbol} {f : Callable}
    (h : (d.meaning σ).Tells s.store f) :
    ∃ body, f = d.callable body ∧ StandsAll s.store (d.body σ) body := by
  unfold meaning at h
  unfold callable
  split at h
  · obtain ⟨b, rfl, hb⟩ := h
    exact ⟨b, by rw [if_pos ‹_›], hb⟩
  · obtain ⟨b, rfl, hb⟩ := h
    exact ⟨b, by rw [if_neg ‹_›], hb⟩

/-- Whether the lexicon has all that the definitions need. -/
def covers (L : Lexicon) : Bool :=
  vocabulary.all (fun name => L.keys[(L.symbolOf name).index]? == some (SymbolTable.key name)) &&
    natives.all (fun m => L.has m.name (.native m)) &&
    definitions.all fun d => L.has d.name (d.meaning L.symbolOf)

/-- In a state that such a lexicon describes the definitions are loaded. -/
theorem loaded_of_covers (h : L.Describes s) (hL : covers L = true) (d : Definition) :
    Loaded L.symbolOf d s := by
  simp only [covers, Bool.and_eq_true, List.all_eq_true, beq_iff_eq] at hL
  obtain ⟨⟨hnames, hnatives⟩, hdefinitions⟩ := hL
  constructor
  case symbols => exact h.sound
  case names =>
    intro name hname
    have hkey := hnames name hname
    rw [← h.keys, List.getElem?_map, Option.map_eq_some_iff, Array.getElem?_toList] at hkey
    obtain ⟨name', hname', heq⟩ := hkey
    rw [hname', SymbolTable.key_inj.1 heq]
  case truth => exact h.truth
  case natives =>
    intro m hm
    obtain ⟨r, f, hr, hf, rfl⟩ := h.exists_of_has (hnatives m (List.mem_filter.1 hm).1)
    exact ⟨r, hr, hf⟩
  case callees =>
    intro f hf
    obtain ⟨r, g, hr, hg, htells⟩ := h.exists_of_has (hdefinitions f (List.mem_filter.1 hf).1)
    obtain ⟨body, rfl, hbody⟩ := f.exists_of_tells htells
    exact ⟨r, body, hr, hg, hbody⟩

/-! ## The bundled text -/

/-- The lines of the bundled text, the last of which is empty. -/
def lines : List (List Char) :=
  ((preludeLines.map fun line => Utf8.chars (Utf8.ofText line)) ++ [[]]).map LineSource.dropReturn

theorem lines_eq :
    (LineSource.splitLines preludeText.toList).map LineSource.dropReturn = lines := by
  have hplain : ∀ line ∈ preludeLines, (Utf8.ofText line).all (·.toNat < 128) = true ∧
      '\n' ∉ Utf8.chars (Utf8.ofText line) := by
    decide +kernel
  have htext : preludeLines.map String.toList =
      preludeLines.map fun line => Utf8.chars (Utf8.ofText line) :=
    List.map_congr_left fun line hline => Utf8.toList_eq_chars (hplain line hline).1
  have hne : preludeLines ≠ [] := List.cons_ne_nil _ _
  rw [lines, ← htext, preludeText, LineSource.splitLines_intercalate hne]
  intro line hline
  rw [Utf8.toList_eq_chars (hplain line hline).1]
  exact (hplain line hline).2

/-- What the bundled text leaves behind. -/
def lexicon? : Option Lexicon :=
  (Reader.forms? 1000 [] [] lines).bind fun fs => fs.foldlM (Lexicon.next? 80) .core

theorem lexicon?_covers : lexicon?.any covers = true := by
  decide +kernel

/-- An interpreter that has started with the bundled definitions has them loaded. -/
theorem exists_loaded_of_start {n : Nat} {config : Config} {console : LineSource} {sink : Sink}
    {folder : Folder} {u : Unit} (hload : config.loadPrelude = true)
    (h : Interpreter.start (Engine.ofFuel n) config console sink folder = .ok u s) :
    ∃ σ, ∀ d, Loaded σ d s := by
  obtain ⟨L, hL, hcovers⟩ := (Option.any_eq_true _ _).1 lexicon?_covers
  obtain ⟨fs, hfs, hfold⟩ := Option.bind_eq_some_iff.1 hL
  have hnames : ∀ m ∈ Native.all, m.name ≠ "t" := by decide +kernel
  obtain ⟨_, s₁, hseed, h⟩ := bind_eq_ok.1 h
  obtain ⟨hs₁, hconfig₁⟩ := Lexicon.describes_seed hseed
  obtain ⟨_, s₂, hinstall, h⟩ := bind_eq_ok.1 h
  obtain ⟨hs₂, hconfig₂⟩ := hs₁.installAll hnames hinstall
  rw [bind_of_ok (gets_apply _ s₂), hconfig₂, hconfig₁, if_pos hload] at h
  obtain ⟨v, s₃, hrun, h⟩ := bind_eq_ok.1 h
  cases h
  rw [← lines_eq] at hfs
  exact ⟨L.symbolOf, loaded_of_covers (hs₂.runText hfs hfold hrun) hcovers⟩

end Prelude

end SmallLisp
