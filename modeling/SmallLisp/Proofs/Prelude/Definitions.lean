import SmallLisp.Interpreter
import SmallLisp.Proofs.Conservation.State
import SmallLisp.Proofs.Prelude.Running

/-!
# What the bundled definitions leave

The bodies of `null`, `and`, `or` and `equal` as the compiler has made them of the bundled text:
calls of `and` and `if` are gone, templates are calls of `list` and `cons`, and parameters are slots
of the innermost frame. In a state in which the definitions are loaded these names, and those of the
natives that the bodies call, still denote what they did after the start.
-/

namespace SmallLisp

namespace Code

variable (σ : String → Symbol)

/-- A call of a name. -/
def call (name : String) (args : List Code) : Code := .list (.word (.sym (σ name)) :: args)

/-- A parameter of the function at hand. -/
def parameter (offset : Nat) (name : String) : Code := .word (.address ⟨0, offset, σ name⟩)

/-- A quoted value. -/
def quotation (v : Value) : Code := .list [.word (.sym Symbol.quote), .word v]

def cond (clauses : List (List Code)) : Code :=
  .list (.word (.sym Symbol.cond) :: clauses.map .list)

end Code

namespace Prelude

open Code

/-- A function or a macro that the bundled text defines. -/
structure Definition where
  name : String
  isMacro : Bool
  shape : Shape
  /-- The names of what takes part in a call, itself included. -/
  uses : List String
  /-- The compiled body, by the symbols of the names in it. -/
  body : (String → Symbol) → List Code

/-- What the name denotes. -/
def Definition.callable (d : Definition) (body : Value) : Callable :=
  if d.isMacro then .expander d.shape body else .closure d.shape body none

def null : Definition where
  name := "null"
  isMacro := false
  shape := .fixed 1
  uses := ["null", "eq"]
  body σ := [call σ "eq" [parameter σ 0 "x", .word .nil]]

/-- The body of a macro that has its only operand for an expansion, and otherwise builds another
form. -/
def unlessSingle (σ : String → Symbol) (form : Code) : Code :=
  cond [[call σ "null" [parameter σ 1 "y"], parameter σ 0 "x"],
    [.word (.sym Symbol.t), .word .nil, form]]

def conjunction : Definition where
  name := "and"
  isMacro := true
  shape := .rest 1
  uses := ["and", "null", "eq", "list", "cons"]
  body σ := [unlessSingle σ (call σ "list" [quotation (.sym Symbol.cond),
    call σ "list" [parameter σ 0 "x",
      call σ "cons" [quotation (.sym (σ "and")), parameter σ 1 "y"]]])]

def disjunction : Definition where
  name := "or"
  isMacro := true
  shape := .rest 1
  uses := ["or", "null", "eq", "list", "cons"]
  body σ := [unlessSingle σ (call σ "list" [quotation (.sym Symbol.cond),
    call σ "list" [parameter σ 0 "x"],
    call σ "list" [call σ "cons" [quotation (.sym (σ "or")), parameter σ 1 "y"]]])]

/-- Equality of what is no pair. -/
def atomsEqual (σ : String → Symbol) : Code :=
  let x := parameter σ 0 "x"
  let y := parameter σ 1 "y"
  cond [[call σ "vectorp" [x], cond [[call σ "vectorp" [y],
      call σ "equal" [call σ "_sequence-to-list" [x], call σ "_sequence-to-list" [y]]]]],
    [call σ "stringp" [x], cond [[call σ "stringp" [y], call σ "string=" [x, y]]]],
    [.word (.sym Symbol.t), call σ "eql" [x, y]]]

def equality : Definition where
  name := "equal"
  isMacro := false
  shape := .fixed 2
  uses := ["equal", "atom", "car", "cdr", "eql", "stringp", "string=", "vectorp",
    "_sequence-to-list"]
  body σ :=
    let x := parameter σ 0 "x"
    let y := parameter σ 1 "y"
    [cond [[call σ "atom" [x], atomsEqual σ],
      [call σ "atom" [y], .word .nil],
      [call σ "equal" [call σ "car" [x], call σ "car" [y]],
        call σ "equal" [call σ "cdr" [x], call σ "cdr" [y]]]]]

def definitions : List Definition := [null, conjunction, disjunction, equality]

/-- The natives that the definitions call. -/
def natives : List Native :=
  [.lists .car, .lists .cdr, .lists .cons, .lists .list, .tests .atom, .tests .eq, .tests .eql,
    .tests .stringp, .tests .vectorp, .tests .stringEq, .sequences .sequenceToList]

/-- The names in the definitions. -/
def vocabulary : List String :=
  ["x", "y"] ++ natives.map Native.name ++ definitions.map Definition.name

/-- The natives that take part in a call. -/
def Definition.natives (d : Definition) : List Native :=
  Prelude.natives.filter (·.name ∈ d.uses)

/-- The definitions that take part in a call. -/
def Definition.callees (d : Definition) : List Definition :=
  definitions.filter (·.name ∈ d.uses)

/-- The definition is loaded, with `σ` for the symbols of names, and nothing that takes part in a
call is bound anew. After a start with the bundled text this is so (`exists_loaded_of_start`). -/
structure Loaded (σ : String → Symbol) (d : Definition) (s : State) : Prop where
  symbols : s.symbols.Sound
  names : ∀ name ∈ vocabulary, s.symbols.names[(σ name).index]? = some name
  truth : s.global? Symbol.t = some (.sym Symbol.t)
  natives : ∀ m ∈ d.natives, ∃ r, s.global? (σ m.name) = some (.callable r) ∧
    s.store.callable r = .native m
  callees : ∀ f ∈ d.callees, ∃ r body, s.global? (σ f.name) = some (.callable r) ∧
    s.store.callable r = f.callable body ∧ StandsAll s.store (f.body σ) body

namespace Loaded

variable {σ : String → Symbol} {d f : Definition} {s t : State}

/-- It is the code, the callables and the names that matter. -/
theorem keeps (h : Loaded σ d s) (hcells : s.store.KeepsCells t.store)
    (hcallables : t.store.callables = s.store.callables) (hglobals : t.globals = s.globals)
    (hsymbols : t.symbols = s.symbols) : Loaded σ d t := by
  have hglobal : ∀ x, t.global? x = s.global? x := fun x => by rw [State.global?, hglobals]; rfl
  have hcallable : ∀ r, t.store.callable r = s.store.callable r := fun r => by
    rw [Store.callable, hcallables]; rfl
  refine ⟨hsymbols ▸ h.symbols, hsymbols ▸ h.names, (hglobal _).trans h.truth, fun m hm => ?_,
    fun f hf => ?_⟩
  · obtain ⟨r, hr, hm⟩ := h.natives m hm
    exact ⟨r, (hglobal _).trans hr, (hcallable r).trans hm⟩
  · obtain ⟨r, body, hr, hf, hbody⟩ := h.callees f hf
    refine ⟨r, body, (hglobal _).trans hr, (hcallable r).trans hf, ?_⟩
    exact Code.StandsAll.keeps hcells (fun i f hf => hcallables ▸ hf) _ hbody

theorem gains (h : Loaded σ d s) (hst : s.Gains t) : Loaded σ d t :=
  h.keeps hst.cells.keeps (by rw [hst.store]) (by rw [hst.rest]) hst.symbols

theorem isKeyword (h : Loaded σ d s) {name : String} (hname : name ∈ vocabulary) :
    s.symbols.isKeyword (σ name) = false := by
  have hplain : ∀ name ∈ vocabulary, SymbolTable.isColonName name = false ∧
      name ∉ Symbol.wellKnown.take Symbol.specialCount := by decide +kernel
  obtain ⟨hcolon, hspecial⟩ := hplain name hname
  have hentry := h.names name hname
  have hlt : (σ name).index < s.symbols.size := (Array.getElem?_eq_some_iff.1 hentry).1
  have hnamed : s.symbols.name (σ name) = name := getD_of_getElem? hentry ""
  rw [← Bool.not_eq_true, h.symbols.isKeyword_iff hlt, hnamed]
  rintro (hmem | hcolon')
  · exact hspecial hmem
  · cases hcolon'.symm.trans hcolon

theorem native (h : Loaded σ d s) {m : Native} (hm : m ∈ d.natives) :
    s.Defines (σ m.name) (.native m) := by
  refine ⟨h.isKeyword ?_, h.natives m hm⟩
  exact List.mem_append_left _
    (List.mem_append_right _ (List.mem_map_of_mem (List.mem_filter.1 hm).1))

theorem callee (h : Loaded σ d s) (hf : f ∈ d.callees) :
    ∃ body, s.Defines (σ f.name) (f.callable body) ∧ StandsAll s.store (f.body σ) body := by
  obtain ⟨r, body, hglobal, hr, hbody⟩ := h.callees f hf
  refine ⟨body, ⟨h.isKeyword ?_, r, hglobal, hr⟩, hbody⟩
  exact List.mem_append_right _ (List.mem_map_of_mem (List.mem_filter.1 hf).1)

theorem runs_native (h : Loaded σ d s) {m : Native} {cs : List Code}
    {env : Env} {ws : List Value} {w : Value} {u : State} (hm : m ∈ d.natives)
    (hshape : m.shape = .fixed cs.length) (hargs : RunsAll env cs s ws t)
    (hws : ∀ w ∈ ws, w.isPromise = false)
    (hcall : ∀ n, m.call (Engine.ofFuel n) ws env t = .ok w u) (hu : t.Gains u) :
    (call σ m.name cs).Runs env s w u :=
  .native (h.native hm) hshape hargs (.inr hws) (.of_eq hcall) hu

end Loaded

/-- A parameter of the innermost frame. -/
theorem runs_parameter {σ : String → Symbol} {s : State} {i : Nat} {w : Value}
    {slots : Array Value} {next : Env} {offset : Nat} {name : String}
    (hi : s.frames.table[i]? = some ⟨slots, next⟩) (hw : slots[offset]? = some w) :
    (parameter σ offset name).Runs (some i) s w s := by
  have hlt : i < s.frames.table.size := (Array.getElem?_eq_some_iff.1 hi).1
  refine .slot ?_
  simp only [Frames.lookup?, Frames.frameAt?, if_pos hlt, hi, Option.bind_some, hw]

end Prelude

/-! ## Laying code out -/

/-- Values other than doubles are the same only if they are equal. -/
theorem Value.same_iff {v w : Value} (hv : ∀ x, v ≠ .double x) : v.same w = true ↔ v = w := by
  cases v <;> cases w <;> simp_all [same, agrees]

namespace Code

mutual

/-- Lay code out in new cells. Only words and lists can be laid out. -/
def lay (cells : Array Cell) : Code → Value × Array Cell
  | .word w => (w, cells)
  | .list items => layAll cells items
  | _ => (.nil, cells)

/-- Lay a list of code out in new cells. -/
def layAll (cells : Array Cell) : List Code → Value × Array Cell
  | [] => (.nil, cells)
  | c :: cs =>
      let (a, cells) := lay cells c
      let (d, cells) := layAll cells cs
      (.pair ⟨cells.size⟩, cells.push ⟨a, d⟩)

end

mutual

/-- Whether words and lists stand for the code. -/
def isAt (store : Store) : Code → Value → Bool
  | .word (.double _), _ => false
  | .word w, v => w.same v
  | .list items, v => areAt store items v
  | _, _ => false

/-- Whether the list stands for the code. -/
def areAt (store : Store) : List Code → Value → Bool
  | [], v => v.isNil
  | c :: cs, .pair r =>
      match store.cell? r with
      | some ⟨a, d⟩ => isAt store c a && areAt store cs d
      | none => false
  | _ :: _, _ => false

end

mutual

theorem stands_of_isAt {store : Store} : ∀ {c : Code} {v : Value}, isAt store c v = true →
    c.Stands store v
  | .word w, v, h => by
      have hw : ∀ x, w ≠ .double x := by
        rintro x rfl
        cases h
      rw [isAt] at h
      · exact ((Value.same_iff hw).1 h).symm
      · exact hw
  | .list items, v, h => by
      rw [isAt] at h
      exact standsAll_of_areAt h

theorem standsAll_of_areAt {store : Store} : ∀ {cs : List Code} {v : Value},
    areAt store cs v = true → StandsAll store cs v
  | [], v, h => by
      cases v <;> first | rfl | cases h
  | c :: cs, .pair r, h => by
      rw [areAt] at h
      split at h
      · rename_i a d hr
        rw [Bool.and_eq_true] at h
        exact ⟨r, a, d, rfl, hr, stands_of_isAt h.1, standsAll_of_areAt h.2⟩
      · cases h

end

end Code

namespace Prelude

/-! ## Checking that the definitions are loaded -/

/-- What a symbol that denotes a callable denotes. -/
def denoted? (s : State) (x : Symbol) : Option Callable :=
  match s.global? x with
  | some (.callable r) => some (s.store.callable r)
  | _ => none

theorem exists_of_denoted? {s : State} {x : Symbol} {f : Callable} (h : denoted? s x = some f) :
    ∃ r, s.global? x = some (.callable r) ∧ s.store.callable r = f := by
  unfold denoted? at h
  split at h
  · rename_i r hr
    exact ⟨r, hr, Option.some.inj h⟩
  · cases h

/-- Whether the callable is the native. -/
def isNative (m : Native) : Callable → Bool
  | .native m' => decide (m' = m)
  | _ => false

/-- Whether the callable is the definition. -/
def isDefinition (σ : String → Symbol) (store : Store) (d : Definition) : Callable → Bool
  | .closure shape body none =>
      !d.isMacro && decide (shape = d.shape) && Code.areAt store (d.body σ) body
  | .expander shape body =>
      d.isMacro && decide (shape = d.shape) && Code.areAt store (d.body σ) body
  | _ => false

theorem callable_of_isDefinition {σ : String → Symbol} {store : Store} {d : Definition}
    {f : Callable} (h : isDefinition σ store d f = true) :
    ∃ body, f = d.callable body ∧ Code.StandsAll store (d.body σ) body := by
  unfold isDefinition at h
  split at h
  · simp only [Bool.and_eq_true, Bool.not_eq_true', decide_eq_true_eq] at h
    obtain ⟨⟨hkind, hshape⟩, hbody⟩ := h
    refine ⟨_, ?_, Code.standsAll_of_areAt hbody⟩
    simp [Definition.callable, hkind, hshape]
  · simp only [Bool.and_eq_true, decide_eq_true_eq] at h
    obtain ⟨⟨hkind, hshape⟩, hbody⟩ := h
    refine ⟨_, ?_, Code.standsAll_of_areAt hbody⟩
    simp [Definition.callable, hkind, hshape]
  · cases h

/-- Whether the definitions are loaded. -/
def check (σ : String → Symbol) (s : State) : Bool :=
  decide s.symbols.names.toList.Nodup && decide (Symbol.wellKnown <+: s.symbols.names.toList) &&
    vocabulary.all (fun name => decide (s.symbols.names[(σ name).index]? = some name)) &&
    (s.global? Symbol.t).any (·.isSym Symbol.t) &&
    natives.all (fun m => (denoted? s (σ m.name)).any (isNative m)) &&
    definitions.all fun d => (denoted? s (σ d.name)).any (isDefinition σ s.store d)

theorem loaded_of_check {σ : String → Symbol} {s : State} (h : check σ s = true)
    (d : Definition) : Loaded σ d s := by
  simp only [check, Bool.and_eq_true, decide_eq_true_eq, List.all_eq_true] at h
  obtain ⟨⟨⟨⟨⟨hnodup, hknown⟩, hnames⟩, htruth⟩, hnatives⟩, hdefinitions⟩ := h
  refine ⟨⟨hnodup, hknown⟩, hnames, ?_, fun m hm => ?_, fun f hf => ?_⟩
  · obtain ⟨v, hv, hsym⟩ := (Option.any_eq_true _ _).1 htruth
    cases v <;> simp [Value.isSym] at hsym
    rw [hv, hsym]
  · obtain ⟨c, hc, hnative⟩ :=
      (Option.any_eq_true _ _).1 (hnatives m (List.mem_filter.1 hm).1)
    obtain ⟨r, hr, hrc⟩ := exists_of_denoted? hc
    cases c <;> simp [isNative] at hnative
    exact ⟨r, hr, hrc.trans (congrArg _ hnative)⟩
  · obtain ⟨c, hc, hdefinition⟩ :=
      (Option.any_eq_true _ _).1 (hdefinitions f (List.mem_filter.1 hf).1)
    obtain ⟨r, hr, hrc⟩ := exists_of_denoted? hc
    obtain ⟨body, rfl, hbody⟩ := callable_of_isDefinition hdefinition
    exact ⟨r, body, hr, hrc, hbody⟩

/-! ## A machine with the definitions alone -/

namespace Machine

/-- Lay the definitions out one after the other; also the callables that they are. -/
def layDefinitions (σ : String → Symbol) (cells : Array Cell) :
    List Definition → List Callable × Array Cell
  | [] => ([], cells)
  | d :: ds =>
      let (body, cells) := Code.layAll cells (d.body σ)
      let (callables, cells) := layDefinitions σ cells ds
      (d.callable body :: callables, cells)

/-- The names that are bound, each to the callable at its place. -/
def bound : List String := natives.map Native.name ++ definitions.map Definition.name

def symbols : SymbolTable :=
  .ofNames vocabulary

def symbol (name : String) : Symbol := (symbols.lookup? name).getD Symbol.quote

/-- The definitions and what they use, two vectors of texts, and a list of forms to be evaluated, in
a store with room for so many more cells. -/
def holding (room : Nat) (forms : List Code) : State :=
  let laid := layDefinitions symbol #[] definitions
  let cells := (Code.layAll laid.2 forms).2
  { store :=
      { capacity := cells.size + room, cells
        callables := (natives.map Callable.native ++ laid.1).toArray
        texts := #["a", "a"]
        vectors := #[#[.int 1, .text ⟨0⟩], #[.int 1, .text ⟨1⟩]] }
    symbols
    globals := symbols.names.mapIdx fun i name =>
      if i = Symbol.t.index then some (.sym Symbol.t)
      else (bound.findIdx? (· == name)).map fun j => .callable ⟨j⟩
    console := .ofText "" }

end Machine

end Prelude

end SmallLisp
