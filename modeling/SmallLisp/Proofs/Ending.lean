import SmallLisp.Proofs.Template.Following
import SmallLisp.Proofs.Trampoline

/-!
# How the evaluation of a form ends

With a value, a failure or an exit, or not at all. A turn hands its end on: a form whose turn names
another form ends as that one does, and so does a form whose turn evaluates another one first,
unless that gives a value. Only the trace of a failure grows on the way.
-/

namespace SmallLisp

open Eval Filter

/-- How the evaluation of a form ends with enough fuel, if it ever does. -/
def EndsAs (form : Value) (env : Env) (s : State) : Option (Outcome Value) → Prop
  | some o => o.Ends ∧ ∀ᶠ n in atTop, evaluate n form env s = o
  | none => ∀ n, ¬ (evaluate n form env s).Ends

theorem endsAs_of_ends {n : Nat} {form : Value} {env : Env} {s : State}
    (h : (evaluate n form env s).Ends) : EndsAs form env s (some (evaluate n form env s)) := by
  refine ⟨h, ?_⟩
  filter_upwards [eventually_ge_atTop n] with m hm
  exact evaluate_mono hm h

theorem exists_endsAs (form : Value) (env : Env) (s : State) : ∃ o, EndsAs form env s o := by
  by_cases h : ∃ n, (evaluate n form env s).Ends
  · obtain ⟨n, hn⟩ := h
    exact ⟨_, endsAs_of_ends hn⟩
  · exact ⟨none, not_exists.1 h⟩

/-- The same value, or a halt for the same reason, in the same state. Traces do not count. -/
inductive Outcome.Like : Outcome Value → Outcome Value → Prop
  | ok (v : Value) (s : State) : Like (.ok v s) (.ok v s)
  | failed {f g : Failure} (s : State) : f.cause = g.cause →
      Like (.halt (.failed f) s) (.halt (.failed g) s)
  | exited (code : Nat) (s : State) : Like (.halt (.exited code) s) (.halt (.exited code) s)

/-- The evaluation of the form ends like this, up to the trace of a failure. -/
def EndsLike (form : Value) (env : Env) (s : State) (o : Option (Outcome Value)) : Prop :=
  ∃ o', EndsAs form env s o' ∧ Option.Rel Outcome.Like o o'

theorem Outcome.Like.refl {o : Outcome Value} (h : o.Ends) : o.Like o := by
  cases o with
  | ok v s => exact .ok v s
  | halt c s =>
      cases c with
      | failed f => exact .failed s rfl
      | exited code => exact .exited code s
      | exhausted => exact h.elim

theorem EndsAs.none_of_succ {form : Value} {env : Env} {s : State}
    (h : ∀ᶠ n in atTop, ¬ (evaluate (n + 1) form env s).Ends) : EndsAs form env s none := by
  intro n hn
  obtain ⟨m, hm, hle⟩ := (h.and (eventually_ge_atTop n)).exists
  refine hm ?_
  rw [evaluate_mono (Nat.le_succ_of_le hle) hn]
  exact hn

namespace EndsLike

variable {form form' : Value} {env env' : Env} {s t : State} {o : Option (Outcome Value)}

theorem refl (h : EndsAs form env s o) : EndsLike form env s o := by
  refine ⟨o, h, ?_⟩
  cases o with
  | none => exact .none
  | some o => exact .some (.refl h.1)

theorem value {v : Value} (h : EndsLike form env s (some (.ok v t))) :
    ∀ᶠ n in atTop, evaluate n form env s = .ok v t := by
  obtain ⟨_, ho, hlike⟩ := h
  cases hlike with
  | some hlike =>
      cases hlike
      exact ho.2

/-- A turn that is done. -/
theorem of_done {v : Value}
    (h : ∀ᶠ n in atTop, (Engine.ofFuel n).step form env s = .ok (.done v) t) :
    EndsLike form env s (some (.ok v t)) := by
  refine .refl ⟨trivial, eventually_of_succ ?_⟩
  filter_upwards [h] with n hn
  have htraced : ((Engine.ofFuel n).step form env).onFailure (Engine.traced form) s =
      .ok (.done v) t := by rw [onFailure, hn]
  rw [Simulation.evaluate_succ, bind_of_ok htraced]
  rfl

/-- A turn that names what comes next. -/
theorem of_next (h : ∀ᶠ n in atTop, (Engine.ofFuel n).step form env s = .ok (.next form' env') t)
    (h' : EndsLike form' env' t o) : EndsLike form env s o := by
  have hturn : ∀ᶠ n in atTop, evaluate (n + 1) form env s = evaluate n form' env' t := by
    filter_upwards [h] with n hn
    have htraced : ((Engine.ofFuel n).step form env).onFailure (Engine.traced form) s =
        .ok (.next form' env') t := by rw [onFailure, hn]
    rw [Simulation.evaluate_succ, bind_of_ok htraced]
    rfl
  obtain ⟨o', ho', hlike⟩ := h'
  refine ⟨o', ?_, hlike⟩
  cases o' with
  | none =>
      refine .none_of_succ ?_
      filter_upwards [hturn] with n hn
      rw [hn]
      exact ho' n
  | some o' =>
      refine ⟨ho'.1, eventually_of_succ ?_⟩
      filter_upwards [hturn, ho'.2] with n hn hn'
      rw [hn, hn']

/-- A turn that evaluates another form first ends like that form, unless that gives a value. -/
theorem of_nested {k : Nat → Value → Eval Step}
    (h : ∀ᶠ n in atTop, (Engine.ofFuel n).step form env s = (evaluate n form' env' >>= k n) t)
    (h' : EndsLike form' env' t o) (ho : ∀ v u, o ≠ some (.ok v u)) : EndsLike form env s o := by
  obtain ⟨o', ho', hlike⟩ := h'
  cases hlike with
  | none =>
      refine ⟨none, .none_of_succ ?_, .none⟩
      filter_upwards [h] with n hn hends
      have hnot := ho' n
      rw [Simulation.evaluate_succ, bind_apply, onFailure, hn, bind_apply] at hends
      cases hform : evaluate n form' env' t with
      | ok v u =>
          rw [hform] at hnot
          exact hnot trivial
      | halt c u =>
          rw [hform] at hnot hends
          cases c <;> first | exact hnot trivial | exact hends
  | some hlike =>
      obtain ⟨hends, hform⟩ := ho'
      have hturn : ∀ {c : Halt} {u : State}, (∀ᶠ n in atTop, evaluate n form' env' t = .halt c u) →
          ∀ᶠ n in atTop, (Engine.ofFuel n).step form env s = .halt c u := by
        intro c u hc
        filter_upwards [h, hc] with n hn hc
        rw [hn, bind_of_halt hc]
      cases hlike with
      | ok v u => exact absurd rfl (ho v u)
      | @failed f g u hcause =>
          refine ⟨some (.halt (.failed (Engine.traced form u g)) u), ⟨trivial, ?_⟩,
            .some (.failed u ?_)⟩
          · refine eventually_of_succ ?_
            filter_upwards [hturn hform] with n hn
            rw [Simulation.evaluate_succ]
            exact bind_of_halt (by rw [onFailure, hn])
          · rw [Engine.cause_traced, hcause]
      | exited code u =>
          refine ⟨some (.halt (.exited code) u), ⟨trivial, ?_⟩, .some (.exited code u)⟩
          refine eventually_of_succ ?_
          filter_upwards [hturn hform] with n hn
          rw [Simulation.evaluate_succ]
          exact bind_of_halt (by rw [onFailure, hn])

end EndsLike

end SmallLisp
