import SmallLisp.Proofs.Soundness.Asking
import SmallLisp.Proofs.Soundness.Frames
import SmallLisp.Proofs.Soundness.Natives

/-!
# No reference dangles

The states that an interpreter can be in, from its start on and after anything that it is asked for,
however that ended. All of them are sound, and so is every state on the way from one to the next in
which something is evaluated or applied.
-/

namespace SmallLisp.Interpreter

/-- The states an interpreter of some configuration can be left in: when it has started, and after
each thing that it is asked for with references in range. -/
inductive Reachable (config : Config) : State → Prop
  | start (n : Nat) (console : LineSource) (sink : Sink) (folder : Folder) :
      Reachable config (start (Engine.ofFuel n) config console sink folder).state
  | asked {s : State} (n : Nat) (ask : Ask) (h : Reachable config s)
      (hask : ask.InRange s.bounds) : Reachable config (ask.answer (Engine.ofFuel n) s).state

theorem sound_blank (config : Config) (console : LineSource) (sink : Sink) (folder : Folder) :
    (blank config console sink folder).Sound where
  points := by constructor <;> simp [blank]
  nested := by simp [blank]
  room := by simp [blank]
  names := Nat.le_of_eq (show Symbol.wellKnown.length = SymbolTable.new.size by decide)

theorem keeps_answer {s : State} (hs : s.Sound) (n : Nat) {ask : Ask}
    (hask : ask.InRange s.bounds) : (ask.answer (Engine.ofFuel n) s).Keeps s Bounds.Holds := by
  have hE := Simulation.secure.engines (Nat.le_refl n)
  exact Simulation.keeps_of_match hs (Simulation.answer hE hask s s ⟨rfl, rfl⟩)

theorem keeps_start (n : Nat) (config : Config) (console : LineSource) (sink : Sink)
    (folder : Folder) : (start (Engine.ofFuel n) config console sink folder).Keeps
      (blank config console sink folder) fun _ _ => True := by
  have hE := Simulation.secure.engines (Nat.le_refl n)
  exact Simulation.keeps_of_match (sound_blank config console sink folder)
    (Simulation.boot hE _ _ ⟨rfl, rfl⟩)

theorem Reachable.advances {config : Config} {s : State} (h : Reachable config s) :
    ∃ console sink folder, Advances (blank config console sink folder) s := by
  induction h with
  | start n console sink folder =>
      exact ⟨console, sink, folder, (keeps_start n config console sink folder).advances⟩
  | asked n ask h hask ih =>
      obtain ⟨console, sink, folder, hadvance⟩ := ih
      have hs := hadvance.sound (sound_blank config console sink folder)
      exact ⟨console, sink, folder, hadvance.trans (keeps_answer hs n hask).advances⟩

theorem Reachable.sound {config : Config} {s : State} (h : Reachable config s) : s.Sound := by
  obtain ⟨console, sink, folder, hadvance⟩ := h.advances
  exact hadvance.sound (sound_blank config console sink folder)

theorem Reachable.capacity {config : Config} {s : State} (h : Reachable config s) :
    s.store.capacity = config.heapCapacity := by
  obtain ⟨console, sink, folder, hadvance⟩ := h.advances
  exact hadvance.capacity

/-- A native that is run on references in range goes by admissible operations, and what it gives or
throws is in range. -/
theorem keeps_native {s : State} (hs : s.Sound) (m : Nat) (n : Native) {args : List Value}
    {env : Env} (hargs : ∀ v ∈ args, s.bounds.Holds v) (henv : s.bounds.HoldsEnv env) :
    (n.run (Engine.ofFuel m) args env s).Keeps s Bounds.Holds := by
  have hE := Simulation.secure.engines (Nat.le_refl m)
  have hgood : Guard.inRange.GoodAll ⟨s, hs⟩ args := hargs
  have hrun := Simulation.secure.runNative hE n hgood henv fun _ _ => trivial
  exact Simulation.keeps_of_match hs (hrun s s ⟨rfl, rfl⟩)

/-- No reference dangles. While an interpreter starts, whatever is evaluated or applied is in range.
Every state that it can be in is sound, and holds no more cells than it was given room for. Whatever
it is asked for then, with operands in range, it does by admissible operations, so that what was in
range remains so; what it gives or throws is in range, and so is whatever is evaluated or applied on
the way, at any depth. The frames of the calls made there fit the shapes of what is called, since it
makes no difference whether they are measured. A shape with a rest has a slot for it, and the shape
of a parameter list has a slot for each parameter. No native runs out of slots in a frame of its
shape, and on references in range it gives a reference in range. -/
theorem references_in_range (config : Config) :
    (∀ n console sink folder a, Arises n boot (blank config console sink folder) a → a.InRange) ∧
    (∀ s, Reachable config s → s.Sound ∧ s.store.cells.size ≤ config.heapCapacity ∧
      ∀ n (ask : Ask), ask.InRange s.bounds →
        (ask.answer (Engine.ofFuel n) s).Keeps s Bounds.Holds ∧
        ∀ a, Arises n ask.answer s a → a.InRange) ∧
    (∀ n (stop : Halt) s f args env, s.Sound → s.bounds.HoldsCall (.apply f args env) →
      (∀ callee body, (Engine.ofFuel n).measuredExpand stop callee body args s =
        (Engine.ofFuel n).expandCall callee body args s) ∧
      (Engine.ofFuel n).measuredCall stop f args env s = (Engine.ofFuel n).callStep f args env s ∧
      (Engine.ofFuel n).measuredApply stop f args env s =
        (Engine.ofFuel n).applyList f args env s) ∧
    (∀ shape : Shape, shape.hasRest = true → 1 ≤ shape.arity) ∧
    (∀ (E : Engine) v ps s t, E.parameters v s = .ok ps t → ps.shape.arity = ps.count) ∧
    ∀ (n : Native) (args : List Value) (env : Env), args.length = n.shape.arity →
      (n.run Engine.idle args env).Accepts ∧
      ∀ m s, s.Sound → (∀ v ∈ args, s.bounds.Holds v) → s.bounds.HoldsEnv env →
        (n.run (Engine.ofFuel m) args env s).Keeps s Bounds.Holds := by
  refine ⟨?boot, ?asked, ?frames, fun shape => Shape.one_le_arity,
    fun E v ps s t => Engine.arity_parameters, ?natives⟩
  case boot =>
    intro n console sink folder a ha
    exact ha.in_range (sound_blank config console sink folder) fun E E' => Simulation.boot
  case asked =>
    intro s h
    refine ⟨h.sound, h.capacity ▸ h.sound.room, fun n ask hask => ⟨keeps_answer h.sound n hask, ?_⟩⟩
    intro a ha
    exact ha.in_range h.sound fun E E' hE => Simulation.answer hE hask
  case frames =>
    intro n stop s f args env hs h
    obtain ⟨hf, hargs, henv⟩ := h
    have hE := Simulation.secure.engines (Nat.le_refl n)
    refine ⟨fun callee body => ?_, ?_, ?_⟩
    · exact Simulation.measuredExpand_eq (w := ⟨s, hs⟩) hE callee body hargs
    · exact Simulation.measuredCall_eq (w := ⟨s, hs⟩) hE hf hargs henv
    · exact Simulation.measuredApply_eq (w := ⟨s, hs⟩) hE hf hargs
  case natives =>
    intro n args env hlen
    exact ⟨n.accepts env hlen, fun m s hs hargs henv => keeps_native hs m n hargs henv⟩

/-- An interpreter has started and run a script, however that went. It is then asked to evaluate a
name that the language knows. -/
theorem references_in_range_name :
    let before := (start (Engine.ofFuel 0) .bare { answers := [] } {} {}).state
    let s := ((Ask.run (.ofText "(car (cons t nil))")).answer (Engine.ofFuel 9) before).state
    let ask := Ask.eval (.sym Symbol.t) none
    Reachable .bare s ∧ s.Sound ∧ ask.InRange s.bounds ∧
      (ask.answer (Engine.ofFuel 9) s).Keeps s Bounds.Holds ∧
      Arises 9 ask.answer s ⟨9, .eval (.sym Symbol.t) none, s⟩ ∧
      Activation.InRange ⟨9, .eval (.sym Symbol.t) none, s⟩ ∧
      Engine.measuredApply .exhausted (Engine.ofFuel 9) (.sym Symbol.t) .nil none s =
        (Engine.ofFuel 9).applyList (.sym Symbol.t) .nil none s ∧
      (Native.run Engine.idle (.lists .cons) [.sym Symbol.t, .nil] none).Accepts ∧
      (Native.run (Engine.ofFuel 9) (.lists .cons) [.sym Symbol.t, .nil] none s).Keeps s
        Bounds.Holds := by
  intro before s ask
  have hreach : Reachable .bare s := .asked 9 _ (.start 0 _ _ _) trivial
  obtain ⟨-, hasked, hframes, -, -, hnatives⟩ := references_in_range .bare
  obtain ⟨hs, -, hanswers⟩ := hasked s hreach
  have hname : s.bounds.Holds (.sym Symbol.t) :=
    (Bounds.holds_of_ref rfl).2 (Nat.lt_of_lt_of_le (by decide) hs.names)
  have hnil : s.bounds.Holds .nil := Bounds.holds_of_none rfl
  have hglobal : s.bounds.HoldsEnv none := fun i hi => by cases hi
  have hask : ask.InRange s.bounds := ⟨hname, hglobal⟩
  have harises : Arises 9 ask.answer s ⟨9, .eval (.sym Symbol.t) none, s⟩ :=
    .asked fun E code t _ h => h
  have hargs : ∀ v ∈ [Value.sym Symbol.t, .nil], s.bounds.Holds v := by
    simp only [List.forall_mem_cons]
    exact ⟨hname, hnil, by simp⟩
  obtain ⟨hkeeps, hcalls⟩ := hanswers 9 ask hask
  obtain ⟨-, -, happly⟩ := hframes 9 .exhausted s _ _ none hs ⟨hname, hnil, hglobal⟩
  obtain ⟨haccepts, hnative⟩ := hnatives (.lists .cons) [.sym Symbol.t, .nil] none rfl
  exact ⟨hreach, hs, hask, hkeeps, harises, hcalls _ harises, happly, haccepts,
    hnative 9 s hs hargs hglobal⟩

end SmallLisp.Interpreter
