import Mathlib
import SmallLisp.Proofs.Soundness.Asking

/-!
# Promises are kept

A promise is evaluated until a call for it comes to a value, and has that value from then on. The
expression of a promise may ask for the same promise again, or fail half way, so a call cannot be
looked at in isolation: the statements here are about all states of a run, and about all calls that
arise in a call, at any depth. A call that does not succeed leaves its promise alone, by induction
on the fuel: whatever the machine does between two calls keeps promises as they are, and only the
call for a promise, where it succeeds, delivers that promise.
-/

namespace SmallLisp

/-! ## Promises along a run -/

namespace Run

variable {s t u : State} {r : Ref .promise}

theorem size_promises (h : Run s t u) : t.store.promises.size ≤ u.store.promises.size := by
  induction h with
  | done => exact Nat.le_refl _
  | step _ hop ih => exact ih.trans hop.size_promises
  | deliver n _ _ _ _ _ ih => simpa [State.mapStore, Store.setPromise] using ih

/-- A promise that is delivered stays delivered, with the same value. -/
theorem delivered {v : Value} (h : Run s t u) (hr : t.store.promise r = .delivered v) :
    u.store.promise r = .delivered v := by
  induction h with
  | done => exact hr
  | step _ hop ih =>
      have hu := ih hr
      rw [hop.promise (Store.lt_of_delivered hu), hu]
  | @deliver t b u q form w env n _ _ _ hp _ ih =>
      have hu := ih hr
      have hne : r ≠ q := by
        intro hrq
        rw [hrq, hp] at hu
        cases hu
      exact (Store.promise_setPromise_of_ne _ hne).trans hu

end Run

/-! ## Calls that succeed -/

namespace Engine

variable {s t : State} {r : Ref .promise} {v : Value}

/-- A call that succeeds leaves the promise delivered with its value. -/
theorem delivered_of_deliver {n : Nat} (hs : s.Flat) (hsize : r.index < s.store.promises.size)
    (h : (ofFuel n).deliver r s = .ok v t) : t.store.promise r = .delivered v := by
  have hrun : Run s s t := by
    have htracked := tracked_force n (.promise r) s s hs .done
    rw [show (ofFuel n).force (.promise r) s = .ok v t from h] at htracked
    exact htracked
  exact delivers_ofFuel n (Nat.lt_of_lt_of_le hsize hrun.size_promises) h

end Engine

/-! ## Calls that do not succeed -/

/-- The promise is there, and is still to be evaluated: this form in this environment. -/
structure State.Pending (s : State) (r : Ref .promise) (form : Value) (env : Env) : Prop where
  size : r.index < s.store.promises.size
  pending : s.store.promise r = .pending form env

/-- A promise stays pending as the machine goes on and as others are delivered. -/
theorem State.lasting_pending (r : Ref .promise) (form : Value) (env : Env) :
    Lasting (· ≠ r) (·.Pending r form env) where
  leads hlead h := ⟨Nat.lt_of_lt_of_le h.size hlead.size, (hlead.promise r h.size).trans h.pending⟩
  deliver v hq h := by
    refine ⟨by simpa [mapStore, Store.setPromise] using h.size, ?_⟩
    exact (Store.promise_setPromise_of_ne (.delivered v) (Ne.symm hq)).trans h.pending

namespace Engine

variable {n : Nat} {s : State} {r : Ref .promise} {form : Value} {env : Env}

/-- The turn of a call for the promise itself asks for what its pursuit asks for, and delivers it
only by succeeding. -/
theorem pending_of_deliverTurn (hs : s.Pending r form env)
    (hcalls : ∀ b u, (ofFuel n).Reaches (·.deliverTurn r) s b u → u.Pending r form env →
      ((ofFuel n).perform b u).state.Pending r form env)
    (hfails : ∀ v t, (ofFuel n).deliverTurn r s ≠ .ok v t) :
    ((ofFuel n).deliverTurn r s).state.Pending r form env := by
  have hturn : ∀ E : Engine, E.deliverTurn r s = (E.pursue form env >>= settle r) s :=
    fun E => deliverTurn_pending hs.pending
  have hasks : ∀ b u, (ofFuel n).Asks (fun E => E.pursue form env s) b u →
      (ofFuel n).Reaches (·.deliverTurn r) s b u :=
    fun b u h E' code t hagree hexit =>
      (hturn E').trans (Eval.bind_of_halt (h E' code t hagree hexit))
  have hpursue : ((ofFuel n).pursue form env s).state.Pending r form env :=
    Dialogue.kept (Manner.Runs.pursue (M := .delivering (· ≠ r) n False) form env s _
      (State.lasting_pending r form env) hs) rfl fun b u h => hcalls b u (hasks b u h)
  rw [hturn, Eval.bind_apply] at hfails ⊢
  cases hp : (ofFuel n).pursue form env s with
  | ok v t =>
      rw [hp] at hpursue hfails
      exact absurd (settle_pending hpursue.pending) (hfails _ _)
  | halt h t =>
      rw [hp] at hpursue
      exact hpursue

/-- A promise stays pending as it is over a call, if no call for it that arises there succeeds. -/
theorem pending_of_perform {b : Call} (hs : s.Pending r form env)
    (hnone : ∀ a, Arises n (·.perform b) s a → a.call = .deliver r → ∀ v t, a.outcome ≠ .ok v t) :
    ((ofFuel n).perform b s).state.Pending r form env := by
  induction n generalizing b s with
  | zero => cases b <;> exact hs
  | succ n ih =>
      have hcalls : ∀ b' u, (ofFuel n).Reaches (·.attend b) s b' u → u.Pending r form env →
          ((ofFuel n).perform b' u).state.Pending r form env :=
        fun b' u hreach hu => ih hu fun a ha => hnone a (ha.through hreach).perform
      rw [perform_succ]
      by_cases hb : b = .deliver r
      · subst hb
        refine pending_of_deliverTurn hs hcalls fun v t hok => ?_
        refine hnone ⟨n + 1, .deliver r, s⟩ (.asked (.self _ _ s)) rfl v t ?_
        exact (congrFun (perform_succ n (.deliver r)) s).trans hok
      · refine kept_attend (State.lasting_pending r form env) (fun q hq hqr => hb ?_) hs hcalls
        rw [hq, hqr]

end Engine

/-! ## Memoization -/

namespace Interpreter

theorem flat_blank (config : Config) (console : LineSource) (sink : Sink) (folder : Folder) :
    (blank config console sink folder).Flat := by
  intro r v hr
  have hlt := Store.lt_of_delivered hr
  simp [blank] at hlt

/-- Promises are memoized. Of any run of an interpreter from its beginning, and of any state `s` of
it, this says that what the interpreter is asked for there goes on with the run; that what is
delivered stays delivered with the same value, which is no promise; that calls for one promise agree
wherever in the run they end, and, whatever the engine, evaluate nothing and change nothing once one
of them has succeeded; and that a call that does not succeed leaves its promise as it was, if no
call for it that arises inside succeeds. -/
theorem promises_memoized (config : Config) (console : LineSource) (sink : Sink) (folder : Folder) :
    let s₀ := blank config console sink folder
    (∀ n, Run s₀ s₀ (start (Engine.ofFuel n) config console sink folder).state) ∧
    ∀ s, Run s₀ s₀ s →
      (∀ n α x, Task (Engine.ofFuel n) α x → Run s₀ s (x s).state) ∧
      (∀ r v t, s.store.promise r = .delivered v → Run s₀ s t →
        t.store.promise r = .delivered v) ∧
      (∀ r v, s.store.promise r = .delivered v → v.isPromise = false) ∧
      (∀ n u v t, (Engine.ofFuel n).force u s = .ok v t → v.isPromise = false) ∧
      (∀ n r v t, r.index < s.store.promises.size → (Engine.ofFuel n).deliver r s = .ok v t →
        (∀ n' s' v' t', Run s₀ s₀ s' → r.index < s'.store.promises.size →
          (Engine.ofFuel n').deliver r s' = .ok v' t' → Run s₀ t t' → v' = v) ∧
        ∀ s', Run s₀ t s' → (∀ E : Engine, E.deliverTurn r s' = .ok v s') ∧
          ∀ k, (Engine.ofFuel (k + 1)).deliver r s' = .ok v s') ∧
      ∀ n r form env h t, r.index < s.store.promises.size →
        s.store.promise r = .pending form env →
        (Engine.ofFuel n).deliver r s = .halt h t →
        (∀ a, Arises n (·.deliver r) s a → a.call = .deliver r → ∀ v u, a.outcome ≠ .ok v u) →
        t.store.promise r = .pending form env := by
  intro s₀
  have hs₀ : s₀.Flat := flat_blank config console sink folder
  refine ⟨fun n => tracked_boot n s₀ s₀ hs₀ .done, fun s hrun => ?_⟩
  have hs : s.Flat := hrun.flat hs₀ hs₀
  refine ⟨fun n α x hx => hx.tracked s₀ s hs₀ hrun, fun r v t hr h => h.delivered hr, hs,
    fun n u v t h => Engine.isPromise_of_force hs h, ?agree, ?fail⟩
  case agree =>
    intro n r v t hsize hcall
    have ht := Engine.delivered_of_deliver hs hsize hcall
    refine ⟨fun n' s' v' t' hrun' hsize' hcall' hlater => ?_, fun s' hlater => ?_⟩
    · have hs' : s'.Flat := hrun'.flat hs₀ hs₀
      have ht' := Engine.delivered_of_deliver hs' hsize' hcall'
      rw [hlater.delivered ht] at ht'
      cases ht'
      rfl
    · have hturn : ∀ E : Engine, E.deliverTurn r s' = .ok v s' :=
        fun E => Engine.deliverTurn_delivered (hlater.delivered ht)
      exact ⟨hturn, fun k => (congrFun (Engine.deliver_succ k r) s').trans (hturn _)⟩
  case fail =>
    intro n r form env h t hsize hp hcall hnone
    have hpending := Engine.pending_of_perform (b := .deliver r) ⟨hsize, hp⟩ hnone
    rw [show (Engine.ofFuel n).perform (.deliver r) s = .halt h t from hcall] at hpending
    exact hpending.pending

/-- A machine with two promises, of which the second comes to nothing. -/
def promising : State :=
  (blank {} (.ofText "") {} {}).mapStore fun st =>
    ((st.newPromise (.pending (.int 5) none)).2.newPromise (.pending (.sym Symbol.version) none)).2

/-- All that arises in a call for the second promise is that call and the evaluation of the form. -/
theorem arises_promising {a : Activation} (h : Arises 2 (·.deliver ⟨1⟩) promising a) :
    a = ⟨2, .deliver ⟨1⟩, promising⟩ ∨ a = ⟨1, .eval (.sym Symbol.version) none, promising⟩ := by
  induction h with
  | asked h =>
      have hself := Engine.Reaches.eq_of_perform (b := .deliver ⟨1⟩) h
      cases hself
      exact .inl rfl
  | @inner m a b t u outer h ih =>
      right
      rcases ih with ha | ha <;> cases ha
      · by_contra hne
        have hother : (Call.eval (.sym Symbol.version) none, promising) ≠ (b, u) := by
          rintro ⟨⟩
          exact hne rfl
        -- With any engine that evaluates the form alike, the turn fails as the form does.
        have hpromise : promising.store.promise ⟨1⟩ = .pending (.sym Symbol.version) none := rfl
        obtain ⟨f, hfails⟩ : ∃ f, (Engine.ofFuel 1).perform (.eval (.sym Symbol.version) none)
            promising = .halt (.failed f) promising := ⟨_, rfl⟩
        refine (Engine.reaches_iff.1 h).false_of_const (o := .halt (.failed f) promising)
          fun E' hagree => ?_
        have hform := (hagree.other _ _ hother).trans hfails
        exact (Engine.deliverTurn_pending hpromise).trans
          (Eval.bind_of_halt (Eval.bind_of_halt hform))
      · exact ((Engine.reaches_iff.1 h).false_of_const fun E' hagree => rfl).elim

theorem promises_memoized_sample :
    (∃ t, (Engine.ofFuel 2).deliver ⟨0⟩ promising = .ok (.int 5) t ∧
      ∀ E : Engine, E.deliverTurn ⟨0⟩ t = .ok (.int 5) t) ∧
    ∃ f t, (Engine.ofFuel 2).deliver ⟨1⟩ promising = .halt (.failed f) t ∧
      t.store.promise ⟨1⟩ = .pending (.sym Symbol.version) none := by
  have hrun : Run (blank {} (.ofText "") {} {}) (blank {} (.ofText "") {} {}) promising :=
    (Run.operation (.newPromise (.int 5) none)).step (.newPromise (.sym Symbol.version) none)
  obtain ⟨-, -, -, -, hagree, hfail⟩ :=
    (promises_memoized {} (.ofText "") {} {}).2 promising hrun
  constructor
  · exact ⟨_, rfl, ((hagree 2 ⟨0⟩ (.int 5) _ (by decide) rfl).2 _ .done).1⟩
  · refine ⟨_, _, rfl, hfail 2 ⟨1⟩ _ _ _ _ (by decide) rfl rfl fun a ha hcall v u hok => ?_⟩
    rcases arises_promising ha with rfl | rfl
    · cases hok
    · cases hcall

end Interpreter

end SmallLisp
