import SmallLisp.Proofs.Conservation.Interpreter

/-!
# Keywords are never bound

A keyword heads a special form or begins with a colon. No keyword has a global value, and none is a
parameter of anything that is compiled, at any depth of anything an interpreter is asked for. So a
keyword evaluates to itself, no scan puts an address in its place, and no program can have a special
form mean something else.
-/

namespace SmallLisp

open Eval

/-! ## Keywords by name -/

namespace SymbolTable

variable {t : SymbolTable} {x : Symbol}

/-- What stands for a variable of a macro is no keyword. -/
theorem Sound.isKeyword_of_isDummy (ht : t.Sound) (hx : t.isDummy x = true) :
    t.isKeyword x = false := by
  have hnames : ∀ name ∈ Symbol.wellKnown.take Symbol.specialCount, isDummyName name = false := by
    decide
  rw [← Bool.not_eq_true, ht.isKeyword_iff (lt_of_isDummy hx)]
  rintro (hmem | hcolon)
  · cases hx.symm.trans (hnames _ hmem)
  · simp only [NameTables.isDummy, isDummyName] at hx
    simp only [isColonName] at hcolon
    split at hx
    · rename_i heq
      rw [heq] at hcolon
      cases hcolon
    · cases hx

end SymbolTable

/-! ## Parameters -/

/-- Whether no parameter is a keyword, and no name that the address of one carries is. -/
def SymbolTable.allows (t : SymbolTable) (ps : Parameters) : Bool :=
  ps.entries.all fun e =>
    !t.isKeyword e.2.symbol &&
      match e.1 with
      | .sym x => !t.isKeyword x
      | .dummy _ => true

/-- Leave the program with a code where a parameter list names a keyword. -/
def Handlers.vetting (code : Nat) : Handlers where
  call E n args env := n.call E args env
  bind := Engine.bindVariable
  parameters E v := do
    let ps ← E.parameters v
    if ← gets fun s => s.symbols.allows ps then pure ps else halt (.exited code)

/-- What is known of a parameter that was read: its name is in range and no keyword, and a parameter
that is a symbol is its name. -/
structure State.Admits (s : State) (p : Parameter × Symbol) : Prop where
  held : s.bounds.Holds (.sym p.2)
  plain : s.symbols.isKeyword p.2 = false
  named : ∀ x, p.1 = .sym x → x = p.2

namespace State.Admits

variable {s t : State} {p : Parameter × Symbol}

theorem mono {places : List Place} (hst : s.Kept places t) (h : s.Admits p) : t.Admits p where
  held := h.held.mono hst.sizes
  plain := by
    rw [SymbolTable.isKeyword_of_isPrefix hst.symbols ((Bounds.holds_of_ref rfl).1 h.held)]
    exact h.plain
  named := h.named

end State.Admits

namespace State

variable {s t : State} {ps : Parameters}

theorem allows_of_admits (h : ∀ e ∈ ps.entries, s.Admits (e.1, e.2.symbol)) :
    s.symbols.allows ps = true := by
  refine List.all_eq_true.2 fun e he => ?_
  have hplain : s.symbols.isKeyword e.2.symbol = false := (h e he).plain
  cases hp : e.1 with
  | sym x =>
      have hx : x = e.2.symbol := (h e he).named x hp
      simp [hx, hplain]
  | dummy r => simp [hplain]

/-- A scan leaves a keyword alone, also one that has become known since. -/
theorem find?_of_admits (h : ∀ e ∈ ps.entries, s.Admits (e.1, e.2.symbol)) {places : List Place}
    (hst : s.Kept places t) {x : Symbol} (hx : t.symbols.isKeyword x = true) :
    ps.find? (.sym x) = none := by
  rw [Parameters.find?, Option.map_eq_none_iff, List.find?_eq_none]
  intro e he heq
  have hadmits := (h e he).mono hst
  cases hadmits.named x (beq_iff_eq.1 heq)
  cases hx.symm.trans hadmits.plain

end State

namespace Simulation

variable {places : List Place} {w : (Regime.conserving places).guard.World} {E E' : Engine}

/-- A parameter is checked where it is a symbol, by itself or in an address; a stand-in is no
keyword by its name. -/
theorem admits_parameterOf {v : Value} (hv : w.1.bounds.Holds v) :
    (Regime.conserving places).watching.Gives w (fun w p => w.1.Admits p) (Engine.parameterOf v)
      (Engine.parameterOf v) := by
  have named : ∀ x, w.1.bounds.Holds (.sym x) →
      (Regime.conserving places).watching.Gives w (fun w p => w.1.Admits p)
        (Engine.parameterOf.named x) (Engine.parameterOf.named x) := by
    intro x hx
    unfold Engine.parameterOf.named
    refine Simulation.bindGets _ (f := fun s => s.symbols.isKeyword x) ?_ ?_
    · rintro s t ⟨fs, cells, rfl, -⟩
      rfl
    rintro s t ⟨rfl, rfl⟩
    cases hk : w.1.symbols.isKeyword x with
    | true =>
        exact (Simulation.bind _ (Simulation.nameOf _ x) fun _ _ _ _ => Simulation.malformed _ _)
          _ _ ⟨rfl, rfl⟩
    | false =>
        refine Simulation.here _ ⟨rfl, rfl⟩ ⟨rfl, hx, hk, fun y hy => ?_⟩
        cases hy
        rfl
  cases v with
  | sym x => exact named x hv
  | address a => exact named a.symbol hv
  | dummy r =>
      rintro s t ⟨rfl, rfl⟩
      have hlt : r.index < w.1.store.dummies.size := (Bounds.holds_of_ref rfl).1 hv
      have hentry : w.1.store.dummies[r.index]? = some (w.1.store.dummySymbol r) :=
        getElem?_of_lt hlt ⟨0⟩
      refine Simulation.here _ ⟨rfl, rfl⟩ ⟨rfl, ?_, ?_, fun y hy => by cases hy⟩
      · exact w.2.sound.points.dummies _ _ hentry
      · exact w.2.symbols.isKeyword_of_isDummy (w.2.named _ _ hentry)
  | _ => exact Simulation.failOn _ hv fun _ => trivial

theorem admits_parameters (hE : (Regime.conserving places).watching.Engines E E') {v : Value}
    (hv : w.1.bounds.Holds v) :
    (Regime.conserving places).watching.Gives w
      (fun w ps => ∀ e ∈ ps.entries, w.1.Admits (e.1, e.2.symbol)) (E.parameters v)
      (E'.parameters v) :=
  Simulation.parametersOf _ (fun _ _ _ hw h => h.mono hw) (fun _ _ => admits_parameterOf) hE hv

/-- Vetting parameter lists makes no difference. -/
theorem handles_vetting (code : Nat) :
    (Regime.conserving []).watching.Handles (.vetting code) .plain where
  call hE ha henv := (handles_plain _).call hE ha henv
  bind ht hv henv := (handles_plain _).bind ht hv henv
  parameters {w E E' v} hE hv := by
    have hplain : Handlers.plain.parameters E' v = E'.parameters v >>= Pure.pure := by
      rw [bind_pure]
      rfl
    rw [hplain]
    refine Simulation.bind _ (admits_parameters hE hv) fun w₁ _ ps hps => ?_
    rintro s t ⟨rfl, rfl⟩
    have hallows : w₁.1.symbols.allows ps = true := State.allows_of_admits hps
    rw [bind_apply, gets_apply]
    simp only [hallows, if_true]
    exact Simulation.here _ ⟨rfl, rfl⟩ ⟨rfl, fun e he => (hps e he).held⟩

theorem engines_vetting (n code : Nat) :
    (Regime.conserving []).watching.Engines (Engine.handled (.vetting code) n)
      (Engine.ofFuel n) := by
  rw [← Engine.handled_plain n]
  exact Simulation.handledEngines _ (handles_vetting code) (Engine.delivers_handled _)
    (Nat.le_refl n)

end Simulation

/-! ## Keywords -/

namespace State.Tidy

variable {s : State} {x : Symbol}

theorem global?_keyword (hs : s.Tidy) (hx : s.symbols.isKeyword x = true) : s.global? x = none := by
  cases hg : s.global? x with
  | none => rfl
  | some v => cases hx.symm.trans (hs.unbound hg)

theorem evaluate_keyword (hs : s.Tidy) (hx : s.symbols.isKeyword x = true) (n : Nat) (env : Env) :
    evaluate (n + 1) (.sym x) env s = .ok (.sym x) s := by
  simp only [evaluate, Engine.step, bind_apply, onFailure, gets_apply, hs.global?_keyword hx,
    isKeyword, hx, if_true]
  rfl

/-- A keyword is never taken for the name of a macro. -/
theorem expander?_keyword (hs : s.Tidy) (hx : s.symbols.isKeyword x = true) :
    Engine.expander? (.sym x) s = .ok none s := by
  simp only [Engine.expander?, bind_apply, gets_apply, hs.global?_keyword hx]
  rfl

/-- The parameters that are read from a list are no keywords. -/
theorem admits_of_parameters (hs : s.Tidy) {n : Nat} {v : Value} {ps : Parameters} {t : State}
    (hv : s.bounds.Holds v) (h : (Engine.ofFuel n).parameters v s = .ok ps t) :
    ∀ e ∈ ps.entries, t.Admits (e.1, e.2.symbol) := by
  have hE := (Regime.conserving []).watching.engines (Nat.le_refl n)
  have hmatch := Simulation.admits_parameters (w := ⟨s, hs⟩) hE hv s s ⟨rfl, rfl⟩
  rw [h] at hmatch
  obtain ⟨w, -, ⟨rfl, -⟩, -, hps⟩ := hmatch
  exact hps

end State.Tidy

namespace Interpreter

/-- An evaluator that leaves the program at a parameter list with a keyword answers the same, unless
it lacks fuel: it never has to leave. -/
theorem vetted_or_exhausted {s : State} (hs : s.Tidy) (n code : Nat) {ask : Ask}
    (hask : ask.InRange s.bounds) :
    ask.answer (Engine.handled (.vetting code) n) s = ask.answer (Engine.ofFuel n) s ∨
      ∃ t, ask.answer (Engine.handled (.vetting code) n) s = .halt .exhausted t :=
  Regime.eq_or_exhausted hs
    (Simulation.answer (Simulation.engines_vetting n code) hask s s ⟨rfl, rfl⟩)

/-- Keywords are never bound. Every state that an interpreter goes through is tidy. In a tidy state
the keywords are the symbols of the special forms' names and the colon names. None has a global
value, evaluating one gives it back, and none is taken for the name of a macro. No list of
parameters that is read there names one, and a scan for the parameters leaves every keyword alone,
also one that has become known since. Whatever the interpreter is asked for, an evaluator that
leaves the program at a parameter list with a keyword, at any depth, answers the same or lacks fuel,
so it never comes to one. And a form with the name of a special form at its head is that special
form, whatever the environment. -/
theorem keywords_never_bound (config : Config) :
    (∀ s, Visited config s → s.Tidy) ∧
    ∀ s : State, s.Tidy →
      (∀ x, x.index < s.symbols.size → (s.symbols.isKeyword x = true ↔
        s.symbols.name x ∈ Symbol.wellKnown.take Symbol.specialCount ∨
          SymbolTable.isColonName (s.symbols.name x) = true)) ∧
      (∀ x, s.symbols.isKeyword x = true → s.global? x = none ∧
        (∀ n env, evaluate (n + 1) (.sym x) env s = .ok (.sym x) s) ∧
        Engine.expander? (.sym x) s = .ok none s) ∧
      (∀ n v ps t, s.bounds.Holds v → (Engine.ofFuel n).parameters v s = .ok ps t →
        t.symbols.allows ps = true ∧
        ∀ u x, t.Kept [] u → u.symbols.isKeyword x = true →
          ∀ (E : Engine) fuel, E.resolve ps fuel (.sym x) = pure (.sym x)) ∧
      (∀ n code (ask : Ask), ask.InRange s.bounds →
        ask.answer (Engine.handled (.vetting code) n) s = ask.answer (Engine.ofFuel n) s ∨
          ∃ t, ask.answer (Engine.handled (.vetting code) n) s = .halt .exhausted t) ∧
      ∀ (E : Engine) r x form env, s.store.car r = .sym x → Special.ofSymbol? x = some form →
        E.step (.pair r) env s =
          (E.cdrCell r >>= fun args => E.special form (.pair r) args env) s := by
  refine ⟨fun s h => h.tidy, fun s hs => ⟨?names, ?keywords, ?parameters, ?vetted, ?special⟩⟩
  case names => exact fun x hx => hs.symbols.isKeyword_iff hx
  case keywords =>
    intro x hx
    exact ⟨hs.global?_keyword hx, hs.evaluate_keyword hx, hs.expander?_keyword hx⟩
  case parameters =>
    intro n v ps t hv hps
    have hadmits := hs.admits_of_parameters hv hps
    refine ⟨State.allows_of_admits hadmits, fun u x hu hx E fuel => ?_⟩
    have hfind := State.find?_of_admits hadmits hu hx
    cases fuel <;> simp only [Engine.resolve, hfind] <;> rfl
  case vetted => exact fun n code ask hask => vetted_or_exhausted hs n code hask
  case special => exact fun E r x form env hhead hform => Engine.step_special E env hhead hform

/-- An interpreter has started. In a state with a list of one parameter and a form with the name of
a special form at its head, the name is unbound and evaluates to itself, and the parameter is read
and does not get in its way. -/
theorem keywords_never_bound_quote :
    let started := (start (Engine.ofFuel 0) .bare { answers := [] } {} {}).state
    let listed := promised.mapStore fun st => (st.cons (.sym Symbol.t) .nil).2
    let s := listed.mapStore fun st => (st.cons (.sym Symbol.quote) .nil).2
    let ask := Ask.eval (.sym Symbol.quote) none
    Visited .bare started ∧ started.Tidy ∧ s.Tidy ∧
      s.symbols.name Symbol.quote ∈ Symbol.wellKnown.take Symbol.specialCount ∧
      s.symbols.isKeyword Symbol.quote = true ∧ s.global? Symbol.quote = none ∧
      evaluate 1 (.sym Symbol.quote) none s = .ok (.sym Symbol.quote) s ∧
      s.bounds.Holds (.pair ⟨1⟩) ∧
      (∃ ps t, (Engine.ofFuel 3).parameters (.pair ⟨1⟩) s = .ok ps t ∧
        t.symbols.allows ps = true ∧ t.symbols.isKeyword Symbol.quote = true ∧
        Engine.idle.resolve ps 3 (.sym Symbol.quote) = pure (.sym Symbol.quote)) ∧
      ask.InRange s.bounds ∧
      (ask.answer (Engine.handled (.vetting 0) 3) s = ask.answer (Engine.ofFuel 3) s ∨
        ∃ t, ask.answer (Engine.handled (.vetting 0) 3) s = .halt .exhausted t) ∧
      Engine.idle.step (.pair ⟨2⟩) none s = (Engine.idle.cdrCell ⟨2⟩ >>= fun args =>
        Engine.idle.special .quote (.pair ⟨2⟩) args none) s := by
  intro started listed s ask
  obtain ⟨hvisited, htidy⟩ := keywords_never_bound .bare
  have hstarted : Visited .bare started := .left (.start 0 _ _ _)
  have hnil : ∀ s : State, s.bounds.Holds .nil := fun s => Bounds.holds_of_none rfl
  have hx : promised.bounds.Holds (.sym Symbol.t) := (Bounds.holds_of_ref rfl).2 (by decide)
  have hlisted : listed.Tidy :=
    (State.GrowsInto.cons promised (.sym Symbol.t) .nil).tidy (.cons hx (hnil _)) tidy_promised
  have hquote : listed.bounds.Holds (.sym Symbol.quote) := (Bounds.holds_of_ref rfl).2 (by decide)
  have hs : s.Tidy :=
    (State.GrowsInto.cons listed (.sym Symbol.quote) .nil).tidy (.cons hquote (hnil _)) hlisted
  obtain ⟨hnames, hkeywords, hparameters, hvetted, hspecial⟩ := htidy s hs
  have hkeyword : s.symbols.isKeyword Symbol.quote = true := by decide
  obtain ⟨hglobal, heval, -⟩ := hkeywords Symbol.quote hkeyword
  have hlist : s.bounds.Holds (.pair ⟨1⟩) := (Bounds.holds_of_ref rfl).2 (by decide)
  have hok : ((Engine.ofFuel 3).parameters (.pair ⟨1⟩) s).isOk = true := by decide +kernel
  obtain ⟨ps, t, hread⟩ := Outcome.exists_of_isOk hok
  obtain ⟨hallows, hscan⟩ := hparameters 3 _ ps t hlist hread
  have hstill : t.symbols.isKeyword Symbol.quote = true :=
    Engine.isKeyword_of_ofSymbol? (show Special.ofSymbol? Symbol.quote = some .quote from rfl) _
  have hname := (hnames Symbol.quote (by decide)).1 hkeyword
  have hask : ask.InRange s.bounds :=
    ⟨(Bounds.holds_of_ref rfl).2 (by decide), fun i hi => by cases hi⟩
  exact ⟨hstarted, hvisited started hstarted, hs, hname.resolve_right (by decide), hkeyword,
    hglobal, heval 0 none, hlist,
    ⟨ps, t, hread, hallows, hstill, hscan t _ (State.Kept.refl t) hstill _ 3⟩, hask,
    hvetted 3 0 ask hask, hspecial _ ⟨2⟩ Symbol.quote .quote none rfl rfl⟩

end Interpreter

end SmallLisp
