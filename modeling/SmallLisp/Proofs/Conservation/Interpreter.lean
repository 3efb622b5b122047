import SmallLisp.Proofs.Conservation.State
import SmallLisp.Proofs.Soundness.Interpreter

/-!
# What an interpreter leaves alone

An interpreter is tidy from its start on, in each state in which something is evaluated or applied.
Whatever it is asked for, most of what there was is still there afterwards; and what a program can
overwrite is as it was, unless the program does so by the operation meant for it. Whether it does is
told by an evaluator that gives up at that operation and is the plain one otherwise.
-/

namespace SmallLisp

open Eval

/-! ## Barring places -/

/-- The slot that binding a variable overwrites. -/
def State.boundPlace? (s : State) (env : Env) : Value → Option Place
  | .address a => (s.frames.frameAt? env a.level).map fun frame => .slot frame a.offset
  | _ => none

/-- Give up where one of the places would be overwritten by what is meant to: a call of `rplaca`,
`rplacd` or `aset`, or a `setq` of an address that denotes the slot. -/
def Handlers.barring (places : List Place) : Handlers where
  call E n args env :=
    if n.overwrites?.any fun place => decide (place ∈ places) then halt .exhausted
    else n.call E args env
  bind target v env := fun s =>
    if (s.boundPlace? env target).any fun place => decide (place ∈ places) then
      .halt .exhausted s
    else Engine.bindVariable target v env s
  parameters := Engine.parameters

namespace Simulation

variable (places : List Place)

/-- An evaluator that gives up at some places does nothing else than the plain one until it does. -/
theorem handles_barring :
    (Regime.conserving places).watching.Handles (.barring places) .plain where
  call {w E E' n args env} hE ha henv := by
    dsimp only [Handlers.barring, Handlers.plain]
    split
    · exact Simulation.exhausted _ _
    · rename_i hbarred
      refine Simulation.call _ hE n ha henv fun place hplace hmem => hbarred ?_
      simp [hplace, hmem]
  bind {w target v env} ht hv henv := by
    intro s t hst
    dsimp only [Handlers.barring, Handlers.plain]
    split
    · exact (Regime.conserving places).watching.lost hst
    · rename_i hbarred
      refine Simulation.bindVariable _ hst ht hv henv fun a frame ha hframe hmem => hbarred ?_
      subst ha
      simp [State.boundPlace?, hframe, hmem]
  parameters hE hv := Simulation.parameters _ hE hv

theorem engines_barring (n : Nat) :
    (Regime.conserving places).watching.Engines (Engine.handled (.barring places) n)
      (Engine.ofFuel n) := by
  rw [← Engine.handled_plain n]
  exact Simulation.handledEngines _ (handles_barring places)
    (Engine.delivers_handled _) (Nat.le_refl n)

end Simulation

namespace Interpreter

/-! ## Tidiness -/

/-- The states that an interpreter of some configuration can be in: those that it can be left in,
and those in which, while it starts or is asked for something, something is evaluated or applied. -/
inductive Visited (config : Config) : State → Prop
  | left {s : State} (h : Reachable config s) : Visited config s
  | starting {n : Nat} {console : LineSource} {sink : Sink} {folder : Folder} {a : Activation}
      (h : Arises n boot (blank config console sink folder) a) : Visited config a.state
  | asked {s : State} {n : Nat} {ask : Ask} {a : Activation} (hs : Reachable config s)
      (hask : ask.InRange s.bounds) (h : Arises n ask.answer s a) : Visited config a.state

theorem tidy_blank (config : Config) (console : LineSource) (sink : Sink) (folder : Folder) :
    (blank config console sink folder).Tidy where
  sound := sound_blank config console sink folder
  flat := flat_blank config console sink folder
  wide := by simp [blank]
  symbols := SymbolTable.sound_new
  unbound := by simp [blank, State.global?]
  named := by simp [blank]

/-- What an interpreter is asked for in a tidy state leaves it tidy, with most of what there was. -/
theorem kept_answer {s : State} (hs : s.Tidy) (n : Nat) {ask : Ask} (hask : ask.InRange s.bounds) :
    (ask.answer (Engine.ofFuel n) s).state.Tidy ∧
      s.Kept [] (ask.answer (Engine.ofFuel n) s).state := by
  have hE := (Regime.conserving []).watching.engines (Nat.le_refl n)
  exact Regime.rel_of_match hs (Simulation.answer hE hask s s ⟨rfl, rfl⟩)

theorem Reachable.tidy {config : Config} {s : State} (h : Reachable config s) : s.Tidy := by
  induction h with
  | start n console sink folder =>
      have hblank := tidy_blank config console sink folder
      have hE := (Regime.conserving []).watching.engines (Nat.le_refl n)
      exact (Regime.rel_of_match hblank (Simulation.boot hE _ _ ⟨rfl, rfl⟩)).1
  | asked n ask h hask ih => exact (kept_answer ih n hask).1

theorem Visited.tidy {config : Config} {s : State} (h : Visited config s) : s.Tidy := by
  cases h with
  | left h => exact h.tidy
  | @starting n console sink folder a h =>
      have hblank := tidy_blank config console sink folder
      exact (h.in_regime (R := .conserving []) hblank fun E E' => Simulation.boot).1
  | asked hs hask h =>
      exact (h.in_regime (R := .conserving []) hs.tidy fun E E' hE => Simulation.answer hE hask).1

/-! ## Sparing places -/

/-- What is asked for does not depend on whether the places may be overwritten: an evaluator that
gives up where they are answers the same. -/
def Ask.Spares (n : Nat) (ask : Ask) (s : State) (places : List Place) : Prop :=
  ask.answer (Engine.handled (.barring places) n) s = ask.answer (Engine.ofFuel n) s

variable {s : State} (places : List Place) (n : Nat) {ask : Ask}

/-- The evaluator that gives up at some places answers the same unless it gives up, and of the state
where it does it has kept those places. -/
theorem match_barring (hs : s.Tidy) (hask : ask.InRange s.bounds) :
    (Regime.conserving places).watching.Match ⟨s, hs⟩ (fun w a b => b = a ∧ w.1.bounds.Holds a)
      (ask.answer (Engine.handled (.barring places) n) s) (ask.answer (Engine.ofFuel n) s) :=
  Simulation.answer (Simulation.engines_barring places n) hask s s ⟨rfl, rfl⟩

theorem spares_or_gives_up (hs : s.Tidy) (hask : ask.InRange s.bounds) :
    ask.Spares n s places ∨
      ∃ t, ask.answer (Engine.handled (.barring places) n) s = .halt .exhausted t :=
  Regime.eq_or_exhausted hs (match_barring places n hs hask)

variable {places n}

theorem Ask.Spares.kept (h : ask.Spares n s places) (hs : s.Tidy) (hask : ask.InRange s.bounds) :
    s.Kept places (ask.answer (Engine.ofFuel n) s).state := by
  rw [← h]
  exact (Regime.rel_of_match hs (match_barring places n hs hask)).2

/-- What is there changes only as it is meant to. Every state that an interpreter goes through is
tidy, and stays so whatever the interpreter is asked for there with operands in range, and however
that ends. Texts, wide integers, callables, stand-ins, failures and names are there afterwards as
they were, before all that is new, and no table has lost an entry. As for the rest, an evaluator
that gives up at the operations meant to overwrite some places answers the same, unless it does give
up. If it answers the same where it may not `aset`, every vector has the items that it had. If it
does where it may not `rplaca`, each car is what it was, or was a promise and is the value that this
was delivered with; and likewise for `rplacd` and the cdrs. Every frame has the place in its chain
and the number of slots that it had, and each slot holds what it held, if the evaluator answers the
same where it may not `setq` that slot. -/
theorem changes_only_as_meant (config : Config) :
    (∀ s, Visited config s → s.Tidy) ∧
    ∀ (s : State) n (ask : Ask), s.Tidy → ask.InRange s.bounds →
      let t := (ask.answer (Engine.ofFuel n) s).state
      t.Tidy ∧
      s.store.texts.toList <+: t.store.texts.toList ∧
      s.store.bignums.toList <+: t.store.bignums.toList ∧
      s.store.callables.toList <+: t.store.callables.toList ∧
      s.store.dummies.toList <+: t.store.dummies.toList ∧
      s.store.failures.toList <+: t.store.failures.toList ∧
      s.symbols.names.toList <+: t.symbols.names.toList ∧
      s.bounds ≤ t.bounds ∧
      (∀ places, ask.Spares n s places ∨
        ∃ u, ask.answer (Engine.handled (.barring places) n) s = .halt .exhausted u) ∧
      (ask.Spares n s [.item] → s.store.vectors.toList <+: t.store.vectors.toList) ∧
      (ask.Spares n s [.head] → ∀ r, s.bounds.Holds (.pair r) →
        t.store.Settles (s.store.car r) (t.store.car r)) ∧
      (ask.Spares n s [.tail] → ∀ r, s.bounds.Holds (.pair r) →
        t.store.Settles (s.store.cdr r) (t.store.cdr r)) ∧
      ∀ (i : Nat) frame, s.frames.table[i]? = some frame →
        ∃ frame', t.frames.table[i]? = some frame' ∧ frame'.next = frame.next ∧
          frame'.slots.size = frame.slots.size ∧
          ∀ j, ask.Spares n s [.slot i j] → frame'.slots[j]? = frame.slots[j]? := by
  refine ⟨fun s h => h.tidy, fun s n ask hs hask => ?_⟩
  obtain ⟨htidy, hkept⟩ := kept_answer hs n hask
  refine ⟨htidy, hkept.texts, hkept.bignums, hkept.callables, hkept.dummies, hkept.failures,
    hkept.symbols, hkept.sizes, fun places => spares_or_gives_up places n hs hask, ?items, ?heads,
    ?tails, ?frames⟩
  case items => exact fun h => (h.kept hs hask).items List.mem_cons_self
  case heads => exact fun h => (h.kept hs hask).heads List.mem_cons_self
  case tails => exact fun h => (h.kept hs hask).tails List.mem_cons_self
  case frames =>
    intro i frame hi
    obtain ⟨frame', hi', hnext, hsize, -⟩ := hkept.frames i frame hi
    refine ⟨frame', hi', hnext, hsize, fun j h => ?_⟩
    obtain ⟨frame₁, hi₁, -, -, hslots⟩ := (h.kept hs hask).frames i frame hi
    cases hi'.symm.trans hi₁
    exact hslots j List.mem_cons_self

/-- A state with a cell whose car is promised, a vector and a frame. -/
def promised : State where
  store :=
    { capacity := 4
      cells := #[⟨.promise ⟨0⟩, .nil⟩]
      promises := #[.pending (.int 2) none]
      vectors := #[#[.int 5]] }
  frames := ⟨#[⟨#[.int 7], none⟩]⟩
  console := { answers := [] }

theorem tidy_promised : promised.Tidy := by
  have honly : ∀ {α : Type} {x y : α} {i : Nat}, #[x][i]? = some y → y = x := by
    intro α x y i h
    exact (eq_of_getElem?_push (show (#[].push x)[i]? = some y from h)).resolve_left (by simp)
  have hpromise : promised.bounds.Holds (.promise ⟨0⟩) := (Bounds.holds_of_ref rfl).2 (by decide)
  have hword : ∀ {v : Value}, v.ref? = none → promised.bounds.Holds v := Bounds.holds_of_none
  have hpoints : promised.Points promised.bounds := by
    constructor
    case cells =>
      rintro i c h
      cases honly h
      exact ⟨hpromise, hword rfl⟩
    case vectors =>
      rintro i items h v hv
      cases honly h
      cases List.mem_singleton.1 hv
      exact hword rfl
    case promises =>
      rintro i p h
      cases honly h
      exact ⟨hword rfl, fun j hj => by cases hj⟩
    case slots =>
      rintro i frame h v hv
      cases honly h
      cases List.mem_singleton.1 hv
      exact hword rfl
    all_goals simp [promised]
  constructor
  case sound =>
    refine ⟨hpoints, fun i frame h j hj => ?_, by decide, by decide⟩
    cases honly h
    cases hj
  case flat =>
    intro r v hr
    have hr0 : r.index = 0 := Nat.lt_one_iff.1 (Store.lt_of_delivered hr)
    rw [Store.promise, hr0] at hr
    cases hr
  case symbols => exact SymbolTable.sound_new
  all_goals simp [promised, State.global?]

theorem spares_promised (places : List Place) :
    (Ask.forceEach (.pair ⟨0⟩)).Spares 3 promised places := by
  have hdeliver : (Engine.handled (.barring places) 3).deliver ⟨0⟩ promised =
      (Engine.ofFuel 3).deliver ⟨0⟩ promised := rfl
  have hcar : promised.store.car ⟨0⟩ = .promise ⟨0⟩ := rfl
  have hfuel : (Engine.ofFuel 3).fuel = 3 := rfl
  simp only [Ask.Spares, Ask.answer, Engine.forceEach, Engine.fuel_handled, hfuel,
    Engine.forceItems, bind_apply, car_apply, hcar, Engine.force, hdeliver]
  rfl

/-- An interpreter has started. In a state with a promise in a cell each item of a list is forced:
the promise gives way to its value, and the vector and the frame are left alone. -/
theorem changes_only_as_meant_forced :
    let started := (start (Engine.ofFuel 0) .bare { answers := [] } {} {}).state
    let ask := Ask.forceEach (.pair ⟨0⟩)
    let t := (ask.answer (Engine.ofFuel 3) promised).state
    Visited .bare started ∧ started.Tidy ∧ promised.Tidy ∧ ask.InRange promised.bounds ∧
      (∀ places, ask.Spares 3 promised places) ∧
      promised.store.vectors.toList <+: t.store.vectors.toList ∧
      t.store.Settles (.promise ⟨0⟩) (t.store.car ⟨0⟩) ∧ t.store.car ⟨0⟩ = .int 2 ∧
      t.store.Settles .nil (t.store.cdr ⟨0⟩) ∧
      ∃ frame, t.frames.table[0]? = some frame ∧ frame.slots[0]? = some (.int 7) := by
  intro started ask t
  obtain ⟨hvisited, hasked⟩ := changes_only_as_meant .bare
  have hstarted : Visited .bare started := .left (.start 0 _ _ _)
  have hpair : promised.bounds.Holds (.pair ⟨0⟩) := (Bounds.holds_of_ref rfl).2 (by decide)
  obtain ⟨-, -, -, -, -, -, -, -, -, hitems, hheads, htails, hframes⟩ :=
    hasked promised 3 ask tidy_promised hpair
  obtain ⟨frame, hframe, -, -, hslots⟩ := hframes 0 ⟨#[.int 7], none⟩ rfl
  refine ⟨hstarted, hvisited started hstarted, tidy_promised, hpair, spares_promised,
    hitems (spares_promised _), hheads (spares_promised _) _ hpair, ?_,
    htails (spares_promised _) _ hpair, frame, hframe, hslots 0 (spares_promised _)⟩
  rfl

end Interpreter

end SmallLisp
