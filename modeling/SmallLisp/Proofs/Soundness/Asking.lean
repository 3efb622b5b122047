import SmallLisp.Proofs.Run
import SmallLisp.Proofs.Soundness.Regime
import SmallLisp.Proofs.Unwinding.Nest

/-!
# What an interpreter is asked for

Whatever an interpreter is asked for with references in range, it keeps to the regime that its state
was in, and its answer is in range. The same goes for all that is evaluated or applied on the way,
at any depth: where a computation comes to ask for a call, it has kept to the regime until there,
and the operands of the call are in range. In the regime of soundness it goes by admissible
operations.
-/

namespace SmallLisp

open Eval

/-! ## How computations end -/

/-- A computation that began in `s` has gone on by admissible operations, and what it gives or
throws is in range. -/
def Outcome.Keeps {α : Type} (s : State) (P : Bounds → α → Prop) : Outcome α → Prop
  | .ok a t => Advances s t ∧ P t.bounds a
  | .halt (.failed f) t => Advances s t ∧ t.bounds.HoldsCause f.cause
  | .halt _ t => Advances s t

/-- What is kept of the state does not depend on how the computation ended. -/
theorem Outcome.Keeps.advances {α : Type} {s : State} {P : Bounds → α → Prop} {o : Outcome α}
    (h : o.Keeps s P) : Advances s o.state := by
  rcases o with ⟨a, t⟩ | ⟨f | c | _, t⟩
  · exact h.1
  · exact h.1
  · exact h
  · exact h

namespace Simulation

theorem keeps_of_match {s : State} (hs : s.Sound) {α : Type} {P : Bounds → α → Prop}
    {o o' : Outcome α}
    (h : secure.Match ⟨s, hs⟩ (fun w a b => b = a ∧ P w.1.bounds a) o o') : o.Keeps s P := by
  rcases h.cases with ⟨t, rfl, hlost⟩ | ⟨a, b, t, t', rfl, rfl, w, hw, ⟨rfl, -⟩, -, hP⟩ |
    ⟨f, g, t, t', rfl, rfl, w, hw, ⟨rfl, -⟩, -, hcause⟩ | ⟨c, t, t', rfl, rfl, w, hw, ⟨rfl, -⟩, -⟩
  · exact hlost.2
  · exact ⟨hw, hP⟩
  · exact ⟨hw, hcause⟩
  · exact hw

theorem bind_global {R : Regime} {w : R.guard.World} {x : Symbol} {v : Value}
    (hx : w.1.bounds.Holds (.sym x)) (hv : w.1.bounds.Holds v) (hb : R.Binds w.1.symbols x) :
    R.watching.Gives w (fun _ _ => True) (modify (·.setGlobal x v)) (modify (·.setGlobal x v)) := by
  rintro s t ⟨rfl, rfl⟩
  obtain ⟨hinv, hrel⟩ := R.setGlobal w.2 hx hv hb
  exact ⟨⟨_, hinv⟩, hrel, ⟨rfl, rfl⟩, rfl, trivial⟩

end Simulation

/-! ## Asking -/

namespace Interpreter

/-- What an interpreter can be asked for: to run a script, alone or with its outcomes kept, to run
what the console holds, to load a file, to evaluate, apply or force. -/
inductive Ask where
  | run (source : LineSource)
  | collect (source : LineSource)
  | converse
  | load (path : String)
  | eval (form : Value) (env : Env)
  | apply (f args : Value) (env : Env)
  | force (v : Value)
  | forceEach (v : Value)

namespace Ask

/-- What the interpreter answers. -/
def answer (E : Engine) : Ask → Eval Value
  | .run source => Script.run E source
  | .collect source => do
      let (result, _) ← runCollecting E source
      ofExcept result
  | .converse => runConsole E
  | .load path => Script.load E path
  | .eval form env => E.eval form env
  | .apply f args env => E.apply f args env
  | .force v => E.force v
  | .forceEach v => do
      E.forceEach v
      pure v

/-- What is asked for with references in range. -/
def InRange (e : Bounds) : Ask → Prop
  | .eval form env => e.Holds form ∧ e.HoldsEnv env
  | .apply f args env => e.Holds f ∧ e.Holds args ∧ e.HoldsEnv env
  | .force v => e.Holds v
  | .forceEach v => e.Holds v
  | _ => True

end Ask

end Interpreter

namespace Simulation

variable {R : Regime} {E E' : Engine} {w : R.guard.World}

theorem eq_of_outcomes {a b : Except Failure Value} (h : R.watching.Outcomes w a b) : b = a := by
  cases a <;> cases b
  · rw [h.1]
  · exact h.elim
  · exact h.elim
  · rw [h.1]

theorem listens_collector : R.watching.Listens (some Interpreter.collector) := by
  rintro r ⟨⟩ w record a b hab
  cases eq_of_outcomes hab
  cases a with
  | error f => exact R.watching.give trivial
  | ok v => exact R.watching.bind (R.watching.textOf hab.2) fun _ _ _ _ => R.watching.give trivial

theorem listens_echo : R.watching.Listens (some Interpreter.echo) := by
  rintro r ⟨⟩ w record a b hab
  cases eq_of_outcomes hab
  cases a with
  | error f => exact R.watching.write _
  | ok v => exact R.watching.bind (R.watching.textOf hab.2) fun _ _ _ _ => R.watching.write _

theorem answer (hE : R.watching.Engines E E') {ask : Interpreter.Ask} (h : ask.InRange w.1.bounds) :
    R.watching.Gives w R.guard.Good (ask.answer E) (ask.answer E') := by
  cases ask with
  | run source => exact R.watching.run hE source
  | collect source =>
      refine R.watching.bindTwo (R.watching.runWith hE listens_collector (.own {} source) #[]) ?_
      intro w₁ _ a b hab
      exact R.watching.ofExcept hab
  | converse =>
      refine R.watching.bindTwo (R.watching.runWith hE listens_echo (.console {}) ()) ?_
      intro w₁ _ a b hab
      exact R.watching.ofExcept hab
  | load path =>
      refine R.watching.bind (R.watching.openFile path) fun w₁ _ opened _ => ?_
      cases opened with
      | ok source => exact R.watching.run hE source
      | error message => exact R.watching.fail trivial
  | eval form env => exact hE.eval h.1 h.2
  | apply f args env => exact hE.apply h.1 h.2.1 h.2.2
  | force v => exact R.watching.force hE h
  | forceEach v =>
      refine R.watching.bind (R.watching.forceEach hE h) fun w₁ h₁ _ _ => ?_
      exact R.watching.give (R.guard.good_mono h₁ h)

theorem wellKnown {x : Symbol} (hx : x.index < Symbol.wellKnown.length) :
    w.1.bounds.Holds (.sym x) := by
  have hlt : x.index < w.1.symbols.size := Nat.lt_of_lt_of_le hx (R.sound w.2).names
  exact (Bounds.holds_of_ref rfl).2 hlt

/-- Binding a name that the language knows and that heads no special form. -/
theorem bind_known {x : Symbol} {v : Value} (hx : Symbol.specialCount ≤ x.index)
    (hlt : x.index < Symbol.wellKnown.length) (hv : w.1.bounds.Holds v) :
    R.watching.Gives w (fun _ _ => True) (modify (·.setGlobal x v)) (modify (·.setGlobal x v)) :=
  bind_global (wellKnown hlt) hv (R.binds_known w.2 hx hlt)

theorem seed : R.watching.Gives w (fun _ _ => True) Interpreter.seed Interpreter.seed := by
  refine R.watching.bind (bind_known (by decide) (by decide) (wellKnown (by decide))) ?_
  intro w₁ _ _ _
  refine R.watching.bind (bind_known (by decide) (by decide) (wellKnown (by decide))) ?_
  intro w₂ _ _ _
  refine R.watching.bind (R.watching.newText _) fun w₃ _ name hname => ?_
  have hitems : R.guard.GoodAll w₃ [.double Interpreter.release, name] := by
    refine Guard.goodAll_cons.2 ⟨R.guard.double w₃ _, ?_⟩
    exact Guard.goodAll_cons.2 ⟨hname, Guard.goodAll_nil w₃⟩
  refine R.watching.bind (R.watching.list hitems) fun w₄ _ version hversion => ?_
  refine R.watching.bind (bind_known (by decide) (by decide) hversion) ?_
  intro w₅ _ _ _
  exact bind_known (by decide) (by decide) (R.guard.eof w₅)

/-- The name is interned, the native is kept, and the one is bound to the other. -/
theorem install_apply (n : Native) (s : State) : Interpreter.install n s =
    .ok () ((({ s with symbols := (s.symbols.intern n.name).2 } : State).mapStore fun st =>
      (st.newCallable (.native n)).2).setGlobal (s.symbols.intern n.name).1
        (.callable ⟨s.store.callables.size⟩)) := rfl

theorem install {n : Native} (hn : n ∈ Native.all) :
    R.watching.Gives w (fun _ _ => True) (Interpreter.install n) (Interpreter.install n) := by
  rintro s t ⟨rfl, rfl⟩
  let s₁ : State := { w.1 with symbols := (w.1.symbols.intern n.name).2 }
  let s₂ : State := s₁.mapStore fun st => (st.newCallable (.native n)).2
  have hnative : s₁.bounds.HoldsCallable (.native n) := trivial
  obtain ⟨h₁, hrel₁⟩ := R.grow w.2 (.intern n.name) (.intern w.1 n.name)
  obtain ⟨h₂, hrel₂⟩ := R.grow (s := s₁) h₁ (.newCallable hnative) (.newCallable s₁ (.native n))
  have hx : s₂.bounds.Holds (.sym (w.1.symbols.intern n.name).1) :=
    (Bounds.holds_of_ref rfl).2 (SymbolTable.intern_lt w.1.symbols n.name)
  have hv : s₂.bounds.Holds (.callable ⟨w.1.store.callables.size⟩) :=
    (Bounds.holds_of_ref rfl).2
      (by simp [s₂, s₁, State.bounds, State.mapStore, Store.newCallable])
  obtain ⟨h₃, hrel₃⟩ := R.setGlobal (s := s₂) h₂ hx hv (R.binds_native w.2 hn)
  rw [install_apply]
  exact ⟨⟨_, h₃⟩, R.trans h₂ (R.trans h₁ hrel₁ hrel₂) hrel₃, ⟨rfl, rfl⟩, rfl, trivial⟩

theorem installAll {natives : List Native} (h : ∀ n ∈ natives, n ∈ Native.all) :
    R.watching.Gives w (fun _ _ => True) (Interpreter.installAll natives)
      (Interpreter.installAll natives) := by
  induction natives generalizing w with
  | nil => exact R.watching.give trivial
  | cons n natives ih =>
      refine R.watching.bind (install (h n List.mem_cons_self)) fun w₁ _ _ _ => ?_
      exact ih fun m hm => h m (List.mem_cons_of_mem n hm)

/-- Booting, whatever text is run. -/
theorem boot (hE : R.watching.Engines E E') :
    R.watching.Gives w (fun _ _ => True) (Interpreter.boot E) (Interpreter.boot E') := by
  unfold Interpreter.boot Interpreter.runText
  obtain ⟨natives, hnatives⟩ : ∃ natives, natives = Native.all := ⟨_, rfl⟩
  have hall : ∀ n ∈ natives, n ∈ Native.all := fun n hn => hnatives ▸ hn
  rw [← hnatives]
  generalize preludeText = text
  refine R.watching.bind seed fun w₁ _ _ _ => ?_
  refine R.watching.bind (installAll hall) fun w₂ _ _ _ => ?_
  have hload : R.watching.Gives w₂ (fun _ _ => True) (Eval.gets fun s => s.config.loadPrelude)
      (Eval.gets fun s => s.config.loadPrelude) :=
    R.watching.gets (fun _ _ _ => rfl) fun _ _ => trivial
  refine R.watching.bind hload fun w₃ _ load _ => ?_
  cases load with
  | true =>
      refine R.watching.bind (R.watching.run hE (.ofText text)) fun _ _ _ _ => ?_
      exact R.watching.give trivial
  | false => exact R.watching.give trivial

end Simulation

/-! ## Calls on the way -/

/-- The operands of a call are in range. -/
def Bounds.HoldsCall (e : Bounds) : Call → Prop
  | .eval form env => e.Holds form ∧ e.HoldsEnv env
  | .apply f args env => e.Holds f ∧ e.Holds args ∧ e.HoldsEnv env
  | .deliver r => e.Holds (.promise r)

/-- The call is made in a sound state with operands in range. -/
def Activation.InRange (a : Activation) : Prop := a.state.Sound ∧ a.state.bounds.HoldsCall a.call

/-- The calls that are made in the course of a computation: those it asks for itself, and those that
are asked for in turn by one of them. -/
inductive Arises {α : Type} (n : Nat) (x : Engine → Eval α) (s : State) : Activation → Prop
  | asked {b : Call} {u : State} (h : (Engine.ofFuel n).Reaches x s b u) : Arises n x s ⟨n, b, u⟩
  | inner {m : Nat} {a b : Call} {t u : State} (outer : Arises n x s ⟨m + 1, a, t⟩)
      (h : (Engine.ofFuel m).Reaches (·.attend a) t b u) : Arises n x s ⟨m, b, u⟩

namespace Engine

/-- A call on its own asks for nothing but itself. -/
theorem Reaches.eq_of_perform {E : Engine} {b c : Call} {u v : State}
    (h : E.Reaches (·.perform b) u c v) : (b, u) = (c, v) := by
  by_contra hne
  exact (reaches_iff.1 h).false_of_const fun E' hagree => hagree.other b u hne

theorem Reaches.self (E : Engine) (b : Call) (u : State) : E.Reaches (·.perform b) u b u :=
  fun _ _ _ _ h => h

end Engine

namespace Arises

variable {α : Type} {n : Nat} {x : Engine → Eval α} {s u : State} {a : Activation} {b : Call}

/-- What arises in a call arises in whatever comes to ask for the call. -/
theorem through (hreach : (Engine.ofFuel n).Reaches x s b u) (h : Arises n (·.perform b) u a) :
    Arises n x s a := by
  induction h with
  | asked h =>
      cases h.eq_of_perform
      exact .asked hreach
  | inner _ h ih => exact ih.inner h

theorem attend {form : Value} {env : Env} (h : Arises n (·.step form env) s a) :
    Arises n (·.attend (.eval form env)) s a := by
  induction h with
  | asked h => exact .asked h.attend
  | inner _ h ih => exact ih.inner h

/-- What arises while a call is attended to arises in the call. -/
theorem perform (h : Arises n (·.attend b) s a) : Arises (n + 1) (·.perform b) s a := by
  have hself : Arises (n + 1) (·.perform b) s ⟨n + 1, b, s⟩ := .asked (.self _ b s)
  induction h with
  | asked h => exact hself.inner h
  | inner _ h ih => exact ih.inner h

end Arises

namespace Simulation

variable {R : Regime} {E E' : Engine} {w : R.guard.World}

theorem attend [R.watching.Free] (hE : R.watching.Engines E E') {call : Call}
    (h : w.1.bounds.HoldsCall call) :
    R.watching.Gives w R.guard.Good (E.attend call) (E'.attend call) := by
  cases call with
  | eval form env =>
      have hstep := R.watching.step hE h.1 h.2
      refine R.watching.bind (R.watching.onFailure hstep fun hw hst hfault =>
        R.watching.fault_traced hst (R.guard.good_mono hw h.1) hfault) ?_
      intro w₁ h₁ next hnext
      cases next with
      | done v => exact R.watching.give hnext
      | next form env => exact hE.eval hnext.1 hnext.2
  | apply f args env => exact R.watching.applyList hE h.1 h.2.1 h.2.2
  | deliver r =>
      exact R.watching.weaken (R.watching.deliverTurn hE h) fun h => R.guard.good_of_final h

/-- What is known of the answer to a call. -/
def Answers (R : Regime) (w : R.guard.World) : Call → Value → Prop
  | .deliver _, v => R.guard.Final w v
  | _, v => R.guard.Good w v

/-- Engines are related if they answer each call with operands in range alike. -/
theorem engines_of_perform (hfuel : E.fuel ≤ E'.fuel) (hdelivers : E.Delivers)
    (h : ∀ call (w : R.guard.World), w.1.bounds.HoldsCall call →
      R.watching.Match w (fun w a b => b = a ∧ Answers R w call a) (E.perform call w.1)
        (E'.perform call w.1)) : R.watching.Engines E E' where
  fuel := hfuel
  drives := hdelivers
  eval := by
    rintro w form env hf henv s t ⟨rfl, rfl⟩
    exact h (.eval form env) w ⟨hf, henv⟩
  apply := by
    rintro w f args env hf ha henv s t ⟨rfl, rfl⟩
    exact h (.apply f args env) w ⟨hf, ha, henv⟩
  deliver := by
    rintro w r hr s t ⟨rfl, rfl⟩
    exact h (.deliver r) w hr

theorem match_perform [R.watching.Free] (n : Nat) {call : Call} (h : w.1.bounds.HoldsCall call) :
    R.watching.Match w (fun w a b => b = a ∧ Answers R w call a)
      ((Engine.ofFuel n).perform call w.1) ((Engine.ofFuel n).perform call w.1) := by
  have hE := R.watching.engines (Nat.le_refl n)
  cases call with
  | eval form env => exact hE.eval h.1 h.2 w.1 w.1 ⟨rfl, rfl⟩
  | apply f args env => exact hE.apply h.1 h.2.1 h.2.2 w.1 w.1 ⟨rfl, rfl⟩
  | deliver r => exact hE.deliver h w.1 w.1 ⟨rfl, rfl⟩

/-- Where a call leaves the program it delivers nothing. -/
theorem delivers_leaving (n code : Nat) (b : Call) (u : State) :
    ((Engine.ofFuel n).replying b u (.halt (.exited code) u)).Delivers := by
  intro r v s t hsize h
  by_cases hcall : (Call.deliver r, s) = (b, u)
  · cases hcall
    have hself := (Engine.ofFuel n).perform_replying_self (.deliver r) u (.halt (.exited code) u)
    cases hself.symm.trans h
  · have hother := (Engine.ofFuel n).perform_replying_other (.halt (.exited code) u) hcall
    exact Engine.delivers_ofFuel n hsize (hother.symm.trans h)

/-- An engine that leaves the program at one call still keeps to the regime. -/
theorem engines_leaving [R.watching.Free] (n code : Nat) (b : Call) (u : State) :
    R.watching.Engines ((Engine.ofFuel n).replying b u (.halt (.exited code) u))
      ((Engine.ofFuel n).replying b u (.halt (.exited code) u)) := by
  refine engines_of_perform (Nat.le_refl _) (delivers_leaving n code b u) fun call w h => ?_
  by_cases hcall : (call, w.1) = (b, u)
  · cases hcall
    rw [Engine.perform_replying_self]
    exact ⟨rfl, R.watching.here ⟨rfl, rfl⟩ trivial⟩
  · rw [Engine.perform_replying_other _ _ hcall]
    exact match_perform n h

/-- Leaving the program at a call that is not in range is of no account. -/
theorem engines_unasked [R.watching.Free] (n code : Nat) {b : Call} {u : State}
    (h : ¬ u.bounds.HoldsCall b) :
    R.watching.Engines ((Engine.ofFuel n).replying b u (.halt (.exited code) u))
      (Engine.ofFuel n) := by
  refine engines_of_perform (Nat.le_refl _) (delivers_leaving n code b u) fun call w hcall => ?_
  have hother : (call, w.1) ≠ (b, u) := by
    intro heq
    cases heq
    exact h hcall
  rw [Engine.perform_replying_other _ _ hother]
  exact match_perform n hcall

end Simulation

/-- Where a computation comes to ask for a call, it has kept to the regime, and the operands of the
call are in range. -/
theorem Engine.Reaches.in_regime {R : Regime} [R.watching.Free] {α : Type} {n : Nat}
    {x : Engine → Eval α} {s u : State} {b : Call} (hs : R.Inv s) {P : R.guard.World → α → Prop}
    (hx : ∀ E E', R.watching.Engines E E' → R.watching.Gives ⟨s, hs⟩ P (x E) (x E'))
    (h : (ofFuel n).Reaches x s b u) : R.Inv u ∧ R.Rel s u ∧ u.bounds.HoldsCall b := by
  have hleave : ∀ code, x ((ofFuel n).replying b u (.halt (.exited code) u)) s =
      .halt (.exited code) u := fun code =>
    h _ code u ((ofFuel n).agreesBut_replying b u _) ((ofFuel n).perform_replying_self b u _)
  have hreached : R.Inv u ∧ R.Rel s u := by
    have hmatch := hx _ _ (Simulation.engines_leaving n 0 b u) s s ⟨rfl, rfl⟩
    rw [hleave 0] at hmatch
    obtain ⟨-, w, hw, ⟨rfl, -⟩, -⟩ := hmatch
    exact ⟨w.2, hw⟩
  refine ⟨hreached.1, hreached.2, ?_⟩
  by_contra hcall
  -- The engine itself would have to leave the program with either code.
  have hcode : ∀ code, ∃ t, x (ofFuel n) s = .halt (.exited code) t := by
    intro code
    have hmatch := hx _ _ (Simulation.engines_unasked n code hcall) s s ⟨rfl, rfl⟩
    rw [hleave code] at hmatch
    rcases hmatch.cases with ⟨t, ht, -⟩ | ⟨a, a', t, t', ht, -⟩ | ⟨f, g, t, t', ht, -⟩ |
      ⟨c, t, t', ht, ht', -⟩
    · cases ht
    · cases ht
    · cases ht
    · cases ht
      exact ⟨t', ht'⟩
  obtain ⟨t, h₀⟩ := hcode 0
  obtain ⟨t', h₁⟩ := hcode 1
  rw [h₀] at h₁
  cases h₁

/-- What arises in the course of a computation keeps to the regime: by induction on how deep it is,
since what a call in range does keeps to it again. -/
theorem Arises.in_regime {R : Regime} [R.watching.Free] {α : Type} {n : Nat} {x : Engine → Eval α}
    {s : State} {a : Activation} (hs : R.Inv s) {P : R.guard.World → α → Prop}
    (hx : ∀ E E', R.watching.Engines E E' → R.watching.Gives ⟨s, hs⟩ P (x E) (x E'))
    (h : Arises n x s a) : R.Inv a.state ∧ a.state.bounds.HoldsCall a.call := by
  induction h with
  | asked h =>
      obtain ⟨hinv, -, hcall⟩ := h.in_regime hs hx
      exact ⟨hinv, hcall⟩
  | @inner m a b t u outer h ih =>
      obtain ⟨ht, hcall⟩ := ih
      have hattend : ∀ E E', R.watching.Engines E E' → R.watching.Gives ⟨t, ht⟩ R.guard.Good
          (E.attend a) (E'.attend a) := fun E E' hE => Simulation.attend hE hcall
      obtain ⟨hinv, -, hb⟩ := h.in_regime ht hattend
      exact ⟨hinv, hb⟩

/-- What arises in the course of a computation is in range. -/
theorem Arises.in_range {α : Type} {n : Nat} {x : Engine → Eval α} {s : State} {a : Activation}
    (hs : s.Sound) {P : Guard.inRange.World → α → Prop}
    (hx : ∀ E E', Simulation.secure.Engines E E' →
      Simulation.secure.Gives ⟨s, hs⟩ P (x E) (x E'))
    (h : Arises n x s a) : a.InRange :=
  h.in_regime hs hx

end SmallLisp
