import SmallLisp.Proofs.Fuel
import SmallLisp.Proofs.Recursive

/-!
# Turns agree with plain recursion

Evaluating turn by turn and evaluating by plain recursion end alike on every form, in every
environment and in every state: with the same value, for the same cause, or with the same exit code,
and with the same state. They differ in the traces of failures only, since in plain recursion a form
is still being evaluated while its tail form is. A program never sees a trace, but it can keep a
failure in the store, so the states are the same up to traces there.
-/

namespace SmallLisp

open Eval

namespace Simulation

/-- Two runs that differ in traces only. -/
def blind : Simulation Guard.free where
  St _ s t := s.Agrees t
  Fault _ f g := g.cause = f.cause
  Lost _ _ := True
  Drives _ := True
  Frees _ := True
  drives _ := trivial
  lost _ := trivial
  lost_mono _ h := h
  sees h := .of_agrees h
  covers _ := Guard.free_covers _ _
  fault_mono _ h := h
  fault_cause h := ⟨h, Guard.free_goodCause _ _⟩
  fault_new _ := rfl
  fault_traced _ _ h := by rw [Engine.cause_traced, Engine.cause_traced, h]
  step_cons := by
    rintro w s _ a d v ⟨fs, rfl, hfs⟩ - - -
    refine ⟨w, le_refl w, ⟨fs, ?_, ?_⟩, trivial⟩ <;>
      by_cases hroom : s.store.cells.size < s.store.capacity <;>
      simp [State.mapStore, State.withFailures, Store.cons, hroom, hfs]
  step_setCar := by
    rintro w s _ r v ⟨fs, rfl, hfs⟩ - - -
    exact ⟨w, le_refl w, ⟨fs, rfl, hfs⟩, trivial⟩
  step_setCdr := by
    rintro w s _ r v ⟨fs, rfl, hfs⟩ - - -
    exact ⟨w, le_refl w, ⟨fs, rfl, hfs⟩, trivial⟩
  step_newText := by
    rintro w s _ text ⟨fs, rfl, hfs⟩
    exact ⟨w, le_refl w, ⟨fs, rfl, hfs⟩, trivial⟩
  step_newNumber := by
    rintro w s _ n ⟨fs, rfl, hfs⟩
    refine ⟨w, le_refl w, ⟨fs, ?_, ?_⟩, trivial⟩
    · simp only [State.mapStore, State.withFailures, Store.newNumber]
      cases n.normalize <;> rfl
    · simp only [State.mapStore, Store.newNumber]
      cases n.normalize <;> exact hfs
  step_newVector := by
    rintro w s _ items ⟨fs, rfl, hfs⟩ -
    exact ⟨w, le_refl w, ⟨fs, rfl, hfs⟩, trivial⟩
  step_setItem := by
    rintro w s _ r v i ⟨fs, rfl, hfs⟩ - - -
    exact ⟨w, le_refl w, ⟨fs, rfl, hfs⟩, trivial⟩
  step_newPromise := by
    rintro w s _ form env ⟨fs, rfl, hfs⟩ - -
    exact ⟨w, le_refl w, ⟨fs, rfl, hfs⟩, trivial⟩
  step_settle := by
    rintro w₀ w s₀ t₀ s _ r form env v E - - ⟨fs, rfl, hfs⟩ - - - - -
    exact ⟨w, le_refl w, ⟨fs, rfl, hfs⟩, trivial⟩
  step_newCallable := by
    rintro w s _ f ⟨fs, rfl, hfs⟩ -
    exact ⟨w, le_refl w, ⟨fs, rfl, hfs⟩, trivial⟩
  step_newDummy := by
    rintro w s _ x ⟨fs, rfl, hfs⟩ - -
    exact ⟨w, le_refl w, ⟨fs, rfl, hfs⟩, trivial⟩
  step_newFailure := by
    rintro w s _ f g ⟨fs, rfl, hfs⟩ hfg
    refine ⟨w, le_refl w, ⟨fs.push g, rfl, ?_⟩, trivial⟩
    simp only [State.mapStore, Store.newFailure, Array.map_push, hfs, hfg]
  step_intern := by
    rintro w s _ name ⟨fs, rfl, hfs⟩
    exact ⟨w, le_refl w, ⟨fs, rfl, hfs⟩, trivial⟩
  step_setGlobal := by
    rintro w s _ x v ⟨fs, rfl, hfs⟩ - - -
    exact ⟨w, le_refl w, ⟨fs, rfl, hfs⟩, trivial⟩
  step_extend := by
    rintro w s _ slots next ⟨fs, rfl, hfs⟩ - -
    exact ⟨w, le_refl w, ⟨fs, rfl, hfs⟩, trivial⟩
  step_assign := by
    rintro w s _ env v i j ⟨fs, rfl, hfs⟩ - - -
    exact ⟨w, le_refl w, ⟨fs, rfl, hfs⟩, trivial⟩
  step_outside := by
    rintro w s _ sink console reader requests opened ⟨fs, rfl, hfs⟩
    exact ⟨w, le_refl w, ⟨fs, rfl, hfs⟩, trivial⟩

instance : blind.Free := ⟨fun _ => trivial⟩

/-! ## Plain recursion -/

theorem finish {G : Guard} (L : Simulation G) {E E' : Engine} (hE : L.Engines E E')
    {w : G.World} {next : Step} (h : G.GoodStep w next) :
    L.Gives w G.Good (E.finish next) (E'.finish next) := by
  cases next with
  | done v => exact L.give h
  | next form env => exact hE.eval h.1 h.2

/-- What the primitive operations keep, plain recursion keeps as well. -/
theorem recursiveEngines {G : Guard} (L : Simulation G) [L.Free]
    (hd : ∀ n, L.Drives (Engine.recursive n)) {n m : Nat} (hn : n ≤ m) :
    L.Engines (Engine.recursive n) (Engine.recursive m) := by
  induction n generalizing m with
  | zero =>
      refine ⟨hn, hd _, fun _ _ => ?_, fun _ _ _ => ?_, fun _ => ?_⟩
      · exact L.exhausted _
      · exact L.exhausted _
      · exact L.exhausted _
  | succ n ih =>
      obtain ⟨m, rfl, hm⟩ := step_left hn
      have hE := ih hm
      refine ⟨hn, hd _, fun {w form env} hf henv => ?_, fun hf ha henv => ?_,
        fun hr => L.deliverTurn hE hr⟩
      · show L.Gives w G.Good (((Engine.recursive n).value form env).onFailure _)
          (((Engine.recursive m).value form env).onFailure _)
        rw [Engine.value_eq, Engine.value_eq]
        refine L.onFailure ?_ fun hw hst h => L.fault_traced hst (G.good_mono hw hf) h
        exact L.bind (L.step hE hf henv) fun w₁ _ next hnext => L.finish hE hnext
      · exact L.applyList hE hf ha henv

variable {α : Type} {w : Guard.free.World} {R : Guard.free.World → α → α → Prop} {x y : Eval α}

/-- A trace more on the left makes no difference. -/
theorem blind_traced_left (form : Value) (h : blind.Alike w R x y) :
    blind.Alike w R (x.onFailure (Engine.traced form)) y := by
  intro s t hst
  unfold Eval.onFailure
  rcases (h s t hst).cases with ⟨s₁, hs, -⟩ | ⟨a, b, s₁, t₁, hs, ht, h⟩ |
    ⟨f, g, s₁, t₁, hs, ht, h⟩ | ⟨c, s₁, t₁, hs, ht, h⟩
  · rw [hs]
    trivial
  · rw [hs, ht]
    exact h
  · rw [hs, ht]
    obtain ⟨w', hw, hst', hfg⟩ := h
    exact ⟨w', hw, hst', (show g.cause = f.cause from hfg).trans (Engine.cause_traced _ _ f).symm⟩
  · rw [hs, ht]
    exact ⟨rfl, h⟩

/-- A trace more on the right makes no difference. -/
theorem blind_traced_right (form : Value) (h : blind.Alike w R x y) :
    blind.Alike w R x (y.onFailure (Engine.traced form)) := by
  intro s t hst
  unfold Eval.onFailure
  rcases (h s t hst).cases with ⟨s₁, hs, -⟩ | ⟨a, b, s₁, t₁, hs, ht, h⟩ |
    ⟨f, g, s₁, t₁, hs, ht, h⟩ | ⟨c, s₁, t₁, hs, ht, h⟩
  · rw [hs]
    trivial
  · rw [hs, ht]
    exact h
  · rw [hs, ht]
    obtain ⟨w', hw, hst', hfg⟩ := h
    exact ⟨w', hw, hst', (Engine.cause_traced _ _ g).trans hfg⟩
  · rw [hs, ht]
    exact ⟨rfl, h⟩

theorem evaluate_succ (n : Nat) (form : Value) (env : Env) :
    evaluate (n + 1) form env =
      ((Engine.ofFuel n).step form env).onFailure (Engine.traced form) >>=
        (Engine.ofFuel n).finish := by
  rw [evaluate]
  refine bind_congr fun next => ?_
  cases next <;> rfl

theorem recurse_succ (n : Nat) (form : Value) (env : Env) :
    recurse (n + 1) form env =
      ((Engine.recursive n).step form env >>= (Engine.recursive n).finish).onFailure
        (Engine.traced form) := by
  rw [recurse, Engine.value_eq]
  rfl

/-- Turns and plain recursion with the same fuel simulate each other. -/
theorem blind_engines (n : Nat) :
    blind.Engines (Engine.ofFuel n) (Engine.recursive n) ∧
      blind.Engines (Engine.recursive n) (Engine.ofFuel n) := by
  induction n with
  | zero =>
      refine ⟨⟨Nat.le_refl _, trivial, fun _ _ => ?_, fun _ _ _ => ?_, fun _ => ?_⟩,
        Nat.le_refl _, trivial, fun _ _ => ?_, fun _ _ _ => ?_, fun _ => ?_⟩ <;>
        exact blind.exhausted _
  | succ n ih =>
      obtain ⟨hER, hRE⟩ := ih
      constructor
      · refine ⟨Nat.le_refl _, trivial, fun {w form env} _ _ => ?_, fun hf ha henv => ?_,
          fun hr => blind.deliverTurn hER hr⟩
        · show blind.Gives w Guard.free.Good (evaluate (n + 1) form env) (recurse (n + 1) form env)
          rw [evaluate_succ, recurse_succ]
          refine blind_traced_right form (blind.bind ?_ fun _ _ _ hnext => blind.finish hER hnext)
          exact blind_traced_left form (blind.step hER trivial trivial)
        · exact blind.applyList hER hf ha henv
      · refine ⟨Nat.le_refl _, trivial, fun {w form env} _ _ => ?_, fun hf ha henv => ?_,
          fun hr => blind.deliverTurn hRE hr⟩
        · show blind.Gives w Guard.free.Good (recurse (n + 1) form env) (evaluate (n + 1) form env)
          rw [evaluate_succ, recurse_succ]
          refine blind_traced_left form (blind.bind ?_ fun _ _ _ hnext => blind.finish hRE hnext)
          exact blind_traced_right form (blind.step hRE trivial trivial)
        · exact blind.applyList hRE hf ha henv

end Simulation

theorem recurse_mono {n m : Nat} (hn : n ≤ m) {form : Value} {env : Env} {s : State}
    (h : (recurse n form env s).Ends) : recurse m form env s = recurse n form env s :=
  have hE := Simulation.same.recursiveEngines (fun _ => trivial) hn
  Simulation.eq_of_match_same (hE.eval (w := ()) trivial trivial s s rfl) h

/-! ## How evaluation ends -/

/-- A way to evaluate forms, by the fuel it is given. -/
abbrev Evaluation := Nat → Value → Env → Eval Value

namespace Evaluation

/-- With enough fuel the form comes to the value, and to the state up to traces. -/
def Returns (ev : Evaluation) (form : Value) (env : Env) (s : State) (v : Value) (t : State) :
    Prop :=
  ∃ n u, t.Agrees u ∧ ∀ m, n ≤ m → ev m form env s = .ok v u

/-- With enough fuel the form fails for the cause, and leaves the state up to traces. -/
def Fails (ev : Evaluation) (form : Value) (env : Env) (s : State) (c : Cause) (t : State) :
    Prop :=
  ∃ n f u, f.cause = c ∧ t.Agrees u ∧ ∀ m, n ≤ m → ev m form env s = .halt (.failed f) u

/-- With enough fuel the form ends the process with the code, and leaves the state up to traces. -/
def Exits (ev : Evaluation) (form : Value) (env : Env) (s : State) (code : Nat) (t : State) :
    Prop :=
  ∃ n u, t.Agrees u ∧ ∀ m, n ≤ m → ev m form env s = .halt (.exited code) u

/-- The second evaluation ends as the first does, with the same fuel, and keeps to that. -/
structure Follows (ev ev' : Evaluation) : Prop where
  alike : ∀ n form env, Simulation.blind.Gives () Guard.free.Good (ev n form env) (ev' n form env)
  mono : ∀ {n m form env s}, n ≤ m → (ev' n form env s).Ends → ev' m form env s = ev' n form env s

namespace Follows

variable {ev ev' : Evaluation} (h : Follows ev ev') {form : Value} {env : Env} {s t : State}
include h

theorem returns {v : Value} (hr : ev.Returns form env s v t) : ev'.Returns form env s v t := by
  obtain ⟨n, u, hu, hn⟩ := hr
  have hmatch := h.alike n form env s s (.refl s)
  rw [hn n (Nat.le_refl n)] at hmatch
  obtain ⟨_, ho, -⟩ | ⟨a, b, u₁, u₂, ho, ho', hr⟩ | ⟨_, _, _, _, ho, -⟩ | ⟨_, _, _, ho, -⟩ :=
    hmatch.cases <;> cases ho
  obtain ⟨_, -, hst, hab, -⟩ := hr
  refine ⟨n, u₂, hu.trans hst, fun m hm => ?_⟩
  rw [h.mono hm (by rw [ho']; trivial), ho', hab]

theorem fails {c : Cause} (hf : ev.Fails form env s c t) : ev'.Fails form env s c t := by
  obtain ⟨n, f, u, hc, hu, hn⟩ := hf
  have hmatch := h.alike n form env s s (.refl s)
  rw [hn n (Nat.le_refl n)] at hmatch
  obtain ⟨_, ho, -⟩ | ⟨_, _, _, _, ho, -⟩ | ⟨f₁, g, u₁, u₂, ho, ho', hr⟩ | ⟨_, _, _, ho, -⟩ :=
    hmatch.cases <;> cases ho
  obtain ⟨_, -, hst, hfg⟩ := hr
  refine ⟨n, g, u₂, (show g.cause = f.cause from hfg).trans hc, hu.trans hst, fun m hm => ?_⟩
  rw [h.mono hm (by rw [ho']; trivial), ho']

theorem exits {code : Nat} (hx : ev.Exits form env s code t) : ev'.Exits form env s code t := by
  obtain ⟨n, u, hu, hn⟩ := hx
  have hmatch := h.alike n form env s s (.refl s)
  rw [hn n (Nat.le_refl n)] at hmatch
  obtain ⟨_, ho, -⟩ | ⟨_, _, _, _, ho, -⟩ | ⟨_, _, _, _, ho, -⟩ | ⟨c, u₁, u₂, ho, ho', hr⟩ :=
    hmatch.cases <;> cases ho
  obtain ⟨_, -, hst, -⟩ := hr
  refine ⟨n, u₂, hu.trans hst, fun m hm => ?_⟩
  rw [h.mono hm (by rw [ho']; trivial), ho']

end Follows

theorem recurse_follows : Follows evaluate recurse where
  alike n _ _ := (Simulation.blind_engines n).1.eval trivial trivial
  mono hn h := recurse_mono hn h

theorem evaluate_follows : Follows recurse evaluate where
  alike n _ _ := (Simulation.blind_engines n).2.eval trivial trivial
  mono hn h := evaluate_mono hn h

/-- Evaluating turn by turn and by plain recursion end alike on every form, in every environment and
in every state. -/
theorem evaluate_iff_recurse (form : Value) (env : Env) (s t : State) :
    (∀ v, Returns evaluate form env s v t ↔ Returns recurse form env s v t) ∧
    (∀ c, Fails evaluate form env s c t ↔ Fails recurse form env s c t) ∧
    (∀ code, Exits evaluate form env s code t ↔ Exits recurse form env s code t) :=
  ⟨fun _ => ⟨recurse_follows.returns, evaluate_follows.returns⟩,
    fun _ => ⟨recurse_follows.fails, evaluate_follows.fails⟩,
    fun _ => ⟨recurse_follows.exits, evaluate_follows.exits⟩⟩

end Evaluation

end SmallLisp
