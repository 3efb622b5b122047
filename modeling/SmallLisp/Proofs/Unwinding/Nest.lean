import SmallLisp.Proofs.Unwinding.Reaching

/-!
# Unwinding

A failure leaves the evaluations that it arose in, from the innermost to the outermost, until one of
them catches it. An evaluation encloses another if it comes to ask for it: were the inner one to
leave the program, the outer one would. Only two special forms do anything about a failure on its
way: a `catch` takes it if its tag says so, and an `unwind-protect` runs its cleanup forms, once, in
the state that the failure left, and lets it go on, or fails itself if the cleanup does. All others
are abandoned in the state they are in.
-/

namespace SmallLisp

/-- A call begun in a state with some fuel. -/
structure Activation where
  fuel : Nat
  call : Call
  state : State

namespace Activation

/-- How the call ends. -/
def outcome (a : Activation) : Outcome Value := (Engine.ofFuel a.fuel).perform a.call a.state

/-- The call fails for the cause, in the state. -/
def Raises (a : Activation) (c : Cause) (t : State) : Prop :=
  ∃ f, a.outcome = .halt (.failed f) t ∧ f.cause = c

end Activation

/-! ## The forms that do something about a failure -/

/-- Whether a call is the evaluation of one of the forms that do something about a failure. -/
def Call.isGuard (s : State) : Call → Bool
  | .eval (.pair r) _ =>
      (s.store.car r).isSym Symbol.catching || (s.store.car r).isSym Symbol.unwindProtect
  | _ => false

namespace Engine

open Eval

/-- What a `catch` does before its body: the value of its tag, and the forms of its body. -/
def catchTag (E : Engine) (r : Ref .cell) (env : Env) : Eval (Value × Value) := do
  match ← E.cdrCell r with
  | .pair q => do
      let form ← car q
      let tag ← E.eval form env
      let tag ← E.force tag
      let forms ← E.cdrCell q
      pure (tag, forms)
  | _ => malformed .tagAndBody

/-- The body of a `catch`. -/
def catchBody (E : Engine) (tag forms : Value) (env : Env) : Eval Value := do
  match ← attempt (E.sequence forms env) with
  | .ok v => pure v
  | .error f => caught tag f

/-- The cleanup forms of an `unwind-protect`, which follow its body. -/
def cleanup (E : Engine) (q : Ref .cell) (env : Env) : Eval Value := do
  let forms ← E.cdrCell q
  E.sequence forms env

/-- A turn that is done is over. -/
theorem done_onFailure (E : Engine) (x : Eval Value) (change : State → Failure → Failure) :
    ((x >>= fun v => pure (Step.done v)).onFailure change >>= fun step =>
      match step with
      | .done v => pure v
      | .next form env => E.eval form env) = x.onFailure change := by
  funext s
  simp only [bind_apply, onFailure]
  rcases x s with ⟨v, t⟩ | ⟨f | c | _, t⟩ <;> rfl

theorem step_special (E : Engine) {r : Ref .cell} {x : Symbol} {form : Special} {s : State}
    (env : Env) (hhead : s.store.car r = .sym x) (hform : Special.ofSymbol? x = some form) :
    E.step (.pair r) env s =
      (E.cdrCell r >>= fun args => E.special form (.pair r) args env) s := by
  show E.pairStep r env s = _
  rw [Manner.pairStep_apply, hhead]
  refine congrArg (fun k => (E.cdrCell r >>= k) s) (funext fun args => funext fun t => ?_)
  simp only [bind_apply, isKeyword, gets_apply, isKeyword_of_ofSymbol? hform, if_true, hform]

/-- The evaluation of a special form that has a value and no form to go on with. -/
theorem attend_special (E : Engine) {r : Ref .cell} {x : Symbol} {form : Special} {s : State}
    {env : Env} {y : Value → Eval Value} (hhead : s.store.car r = .sym x)
    (hform : Special.ofSymbol? x = some form)
    (hy : ∀ args, E.special form (.pair r) args env = y args >>= fun v => pure (.done v)) :
    E.attend (.eval (.pair r) env) s =
      (E.cdrCell r >>= y).onFailure (traced (.pair r)) s := by
  have hstep : E.step (.pair r) env s =
      ((E.cdrCell r >>= y) >>= fun v => pure (Step.done v)) s := by
    rw [step_special E env hhead hform, funext hy, bind_assoc]
  have hfail : (E.step (.pair r) env).onFailure (traced (.pair r)) s =
      ((E.cdrCell r >>= y) >>= fun v => pure (Step.done v)).onFailure (traced (.pair r)) s := by
    rw [onFailure, onFailure, hstep]
  rw [attend, bind_apply, hfail]
  exact congrFun (done_onFailure E (E.cdrCell r >>= y) (traced (.pair r))) s

theorem attend_catch (E : Engine) {r : Ref .cell} {s : State} (env : Env)
    (hhead : s.store.car r = .sym Symbol.catching) :
    E.attend (.eval (.pair r) env) s =
      (E.catchTag r env >>= fun p => E.catchBody p.1 p.2 env).onFailure (traced (.pair r)) s := by
  rw [attend_special E hhead rfl (y := (E.evalCatch · env)) fun _ => rfl, catchTag, bind_assoc]
  refine congrArg (fun k => (E.cdrCell r >>= k).onFailure (traced (.pair r)) s) ?_
  funext args
  cases args with
  | pair q =>
      simp only [bind_assoc, pure_bind]
      rfl
  | _ => rfl

theorem attend_unwindProtect (E : Engine) {r : Ref .cell} {s : State} (env : Env)
    (hhead : s.store.car r = .sym Symbol.unwindProtect) :
    E.attend (.eval (.pair r) env) s =
      (E.cdrCell r >>= (E.evalUnwindProtect · env)).onFailure (traced (.pair r)) s :=
  attend_special E hhead rfl fun _ => rfl

/-- The body of an `unwind-protect`, the cleanup, and what is left to say. -/
theorem evalUnwindProtect_pair (E : Engine) (q : Ref .cell) (env : Env) (s : State) :
    E.evalUnwindProtect (.pair q) env s = (do
      let result ← attempt (E.eval (s.store.car q) env)
      let _ ← E.cleanup q env
      ofExcept result) s := by
  have hregroup : ∀ result : Except Failure Value,
      (E.cleanup q env >>= fun _ => ofExcept result) =
        (do
          let forms ← E.cdrCell q
          let _ ← E.sequence forms env
          ofExcept result) := fun result => bind_assoc _ _ _
  simp only [hregroup]
  rfl

end Engine

namespace Manner

variable {M : Manner}

theorem eq_of_ofSymbol? {x y : Symbol} {form : Special} (h : Special.ofSymbol? x = some form)
    (hy : Special.ofSymbol? y = some form) : x = y := by
  have hnodup : [Special.quote, .progn, .cond, .setq, .lambda, .expander, .catching,
      .unwindProtect, .delay].Nodup := by decide
  obtain ⟨hlt, -⟩ := List.getElem?_eq_some_iff.1 h
  have hindex : x.index = y.index := (List.getElem?_inj hlt hnodup).1 (h.trans hy.symm)
  obtain ⟨i⟩ := x
  obtain ⟨j⟩ := y
  exact congrArg Ref.mk hindex

/-- A turn relays failures if it is not that of a form that does something about them. -/
theorem RunsFrom.unguarded {form : Value} {env : Env} {s : State}
    (h : (Call.eval form env).isGuard s = false) : M.RunsFrom (fun E => E.step form env) s := by
  refine .step form env s fun _ r x special hr hhead hx => ?_
  subst hr
  simp only [Call.isGuard, hhead, Value.isSym, Bool.or_eq_false_iff, beq_eq_false_iff_ne] at h
  constructor
  · intro hspecial
    subst hspecial
    exact h.1 (eq_of_ofSymbol? hx rfl)
  · intro hspecial
    subst hspecial
    exact h.2 (eq_of_ofSymbol? hx rfl)

theorem Runs.catchTag (r : Ref .cell) (env : Env) : M.Runs fun E => E.catchTag r env := by
  refine .bind (.cdrCell r) fun args => ?_
  cases args with
  | pair q =>
      refine .bind (.car q) fun form => .bind (.eval form env) fun tag => ?_
      exact .bind (.force tag) fun tag => .bind (.cdrCell q) fun forms => .pure _
  | _ => exact .malformed _

theorem Runs.cleanup (q : Ref .cell) (env : Env) : M.Runs fun E => E.cleanup q env :=
  .bind (.cdrCell q) fun forms => .sequence forms env

end Manner

/-- A call that does nothing about failures is abandoned when one that it asks for fails: it fails
for the same cause, in the state that the other left. -/
theorem Engine.Reaches.fails_attend {n : Nat} {call b : Call} {s u t : State} {f : Failure}
    (hreach : (ofFuel n).Reaches (·.attend call) s b u) (h : call.isGuard s = false)
    (hfail : (ofFuel n).perform b u = .halt (.failed f) t) :
    ∃ g, (ofFuel n).attend call s = .halt (.failed g) t ∧ g.cause = f.cause := by
  cases call with
  | apply g args env =>
      exact ⟨f, hreach.relayed (.applyList g args env) hfail, rfl⟩
  | deliver r => exact ⟨f, hreach.relayed (.deliverTurn trivial) hfail, rfl⟩
  | eval form env =>
      have hstep : (Manner.outside n True).RunsFrom (fun E => E.step form env) s := .unguarded h
      rcases hreach.of_bind (M := .outside n True) hstep with hreach | ⟨next, t₁, hnext, hreach⟩
      · refine ⟨traced form t f, ?_, cause_traced form t f⟩
        have hfails : (ofFuel n).step form env s = .halt (.failed f) t :=
          hreach.fails hstep trivial hfail
        rw [Engine.attend, Eval.bind_apply, Eval.onFailure, hfails]
      · cases next with
        | done v => exact (Asks.false_of_const (reaches_iff.1 hreach) fun _ _ => rfl).elim
        | next form' env' =>
            refine ⟨f, ?_, rfl⟩
            rw [Engine.attend, Eval.bind_apply, Eval.onFailure, hnext]
            exact hreach.relayed (.eval form' env') hfail

/-! ## Nests -/

/-- What stands around an evaluation, as far as failures are concerned. -/
inductive Layer where
  /-- Nothing is done about a failure. -/
  | plain
  /-- A `catch` with this tag. -/
  | catcher (tag : Value)
  /-- An `unwind-protect` whose cleanup forms follow the cell, and the fuel for them. -/
  | cleanup (fuel : Nat) (q : Ref .cell) (env : Env)

/-- The first call comes to ask for the second, in which a layer is around it. -/
inductive Encloses : Activation → Layer → Activation → Prop
  /-- Any call but a `catch` or an `unwind-protect`. -/
  | call {n : Nat} {call b : Call} {s u : State} (unguarded : call.isGuard s = false)
      (reach : (Engine.ofFuel n).Reaches (·.attend call) s b u) :
      Encloses ⟨n + 1, call, s⟩ .plain ⟨n, b, u⟩
  /-- The tag of a `catch`. -/
  | tag {n : Nat} {r : Ref .cell} {env : Env} {b : Call} {s u : State}
      (head : s.store.car r = .sym Symbol.catching)
      (reach : (Engine.ofFuel n).Reaches (·.catchTag r env) s b u) :
      Encloses ⟨n + 1, .eval (.pair r) env, s⟩ .plain ⟨n, b, u⟩
  /-- The body of a `catch`. -/
  | body {n : Nat} {r : Ref .cell} {env : Env} {tag forms : Value} {b : Call} {s s₁ u : State}
      (head : s.store.car r = .sym Symbol.catching)
      (start : (Engine.ofFuel n).catchTag r env s = .ok (tag, forms) s₁)
      (reach : (Engine.ofFuel n).Reaches (·.sequence forms env) s₁ b u) :
      Encloses ⟨n + 1, .eval (.pair r) env, s⟩ (.catcher tag) ⟨n, b, u⟩
  /-- What an `unwind-protect` does before its body. -/
  | operands {n : Nat} {r : Ref .cell} {env : Env} {b : Call} {s u : State}
      (head : s.store.car r = .sym Symbol.unwindProtect)
      (reach : (Engine.ofFuel n).Reaches (·.cdrCell r) s b u) :
      Encloses ⟨n + 1, .eval (.pair r) env, s⟩ .plain ⟨n, b, u⟩
  /-- The body of an `unwind-protect`. -/
  | guarded {n : Nat} {r q : Ref .cell} {env : Env} {s s₁ : State}
      (head : s.store.car r = .sym Symbol.unwindProtect)
      (start : (Engine.ofFuel n).cdrCell r s = .ok (.pair q) s₁) :
      Encloses ⟨n + 1, .eval (.pair r) env, s⟩ (.cleanup n q env)
        ⟨n, .eval (s₁.store.car q) env, s₁⟩
  /-- The cleanup forms of an `unwind-protect`, however its body ended. -/
  | cleaning {n : Nat} {r q : Ref .cell} {env : Env} {result : Except Failure Value} {b : Call}
      {s s₁ s₂ u : State} (head : s.store.car r = .sym Symbol.unwindProtect)
      (start : (Engine.ofFuel n).cdrCell r s = .ok (.pair q) s₁)
      (body : Eval.attempt ((Engine.ofFuel n).eval (s₁.store.car q) env) s₁ = .ok result s₂)
      (reach : (Engine.ofFuel n).Reaches (·.cleanup q env) s₂ b u) :
      Encloses ⟨n + 1, .eval (.pair r) env, s⟩ .plain ⟨n, b, u⟩

/-- Whether a `catch` with this tag takes failures for this cause: thrown values by their tag, all
others if the tag is the symbol for them. -/
def Cause.handledBy (tag : Value) : Cause → Bool
  | .thrown target _ _ => target.agrees tag
  | _ => tag.isSym Symbol.error

/-- A failure crosses a layer, from a cause and a state to a cause and a state. -/
inductive Crosses : Layer → Cause → State → Cause → State → Prop
  | plain (c : Cause) (t : State) : Crosses .plain c t c t
  | catcher {tag : Value} {c : Cause} (other : c.handledBy tag = false) (t : State) :
      Crosses (.catcher tag) c t c t
  | cleaned {n : Nat} {q : Ref .cell} {env : Env} {v : Value} {t u : State} (c : Cause)
      (run : (Engine.ofFuel n).cleanup q env t = .ok v u) : Crosses (.cleanup n q env) c t c u
  | replaced {n : Nat} {q : Ref .cell} {env : Env} {f : Failure} {t u : State} (c : Cause)
      (run : (Engine.ofFuel n).cleanup q env t = .halt (.failed f) u) :
      Crosses (.cleanup n q env) c t f.cause u

/-- A nest of calls with the layers between them, the outermost first. -/
inductive Nest : Activation → List Layer → Activation → Prop
  | here (a : Activation) : Nest a [] a
  | around {a b i : Activation} {layer : Layer} {layers : List Layer} (out : Encloses a layer b)
      (inside : Nest b layers i) : Nest a (layer :: layers) i

/-- A failure crosses layers, the innermost of which comes last. -/
inductive Unwinds : List Layer → Cause → State → Cause → State → Prop
  | none (c : Cause) (t : State) : Unwinds [] c t c t
  | across {layer : Layer} {layers : List Layer} {c c₁ c₂ : Cause} {t t₁ t₂ : State}
      (inner : Unwinds layers c t c₁ t₁) (outer : Crosses layer c₁ t₁ c₂ t₂) :
      Unwinds (layer :: layers) c t c₂ t₂

/-! ## Crossing layers -/

open Eval

theorem Activation.Raises.of_traced {n : Nat} {r : Ref .cell} {env : Env} {s t : State}
    {x : Eval Value} {g : Failure}
    (hattend : (Engine.ofFuel n).attend (.eval (.pair r) env) s =
      x.onFailure (Engine.traced (.pair r)) s)
    (hx : x s = .halt (.failed g) t) :
    Activation.Raises ⟨n + 1, .eval (.pair r) env, s⟩ g.cause t := by
  refine ⟨Engine.traced (.pair r) t g, ?_, Engine.cause_traced _ _ g⟩
  rw [Activation.outcome, Engine.perform_succ, hattend, onFailure, hx]

theorem Engine.catchBody_of_failed {E : Engine} {tag forms : Value} {env : Env} {s t : State}
    {g : Failure} (h : E.sequence forms env s = .halt (.failed g) t) :
    E.catchBody tag forms env s = caught tag g t := by
  rw [catchBody, bind_apply, attempt, h]

theorem Engine.caught_of_other {tag : Value} {g : Failure} (h : g.cause.handledBy tag = false)
    (t : State) : caught tag g t = .halt (.failed g) t := by
  unfold caught
  cases hcause : g.cause with
  | thrown target v text =>
      rw [hcause] at h
      simp only [Cause.handledBy] at h
      simp [h, refail]
  | _ =>
      rw [hcause] at h
      simp only [Cause.handledBy] at h
      simp [h, refail]

theorem Engine.caught_of_thrown {tag target v : Value} {text : String} {g : Failure}
    (hcause : g.cause = .thrown target v text) (h : g.cause.handledBy tag = true) (t : State) :
    caught tag g t = .ok v t := by
  rw [hcause, Cause.handledBy] at h
  simp [caught, hcause, h]

theorem Engine.caught_of_error {tag : Value} {g : Failure} (hcause : g.cause.isThrown = false)
    (h : g.cause.handledBy tag = true) (t : State) :
    caught tag g t =
      .ok (t.store.newFailure g).1 { t with store := (t.store.newFailure g).2 } := by
  unfold caught
  cases hc : g.cause with
  | thrown target v text =>
      rw [hc] at hcause
      cases hcause
  | _ =>
      rw [hc, Cause.handledBy] at h
      · simp [h]
      · simp

/-- A failure that leaves a call leaves the one around it, across the layer between them. -/
theorem Encloses.raises {a b : Activation} {layer : Layer} {c c' : Cause} {t t' : State}
    (h : Encloses a layer b) (hb : b.Raises c t) (hcross : Crosses layer c t c' t') :
    a.Raises c' t' := by
  obtain ⟨f, hfail, rfl⟩ := hb
  cases h with
  | call unguarded reach =>
      cases hcross
      obtain ⟨g, hg, hcause⟩ := reach.fails_attend unguarded hfail
      refine ⟨g, ?_, hcause⟩
      rw [Activation.outcome, Engine.perform_succ, hg]
  | tag head reach =>
      cases hcross
      have hg := reach.relayed (.catchTag _ _) hfail
      exact .of_traced (Engine.attend_catch _ _ head) (bind_of_halt hg)
  | body head start reach =>
      cases hcross with
      | catcher other t =>
          have hg := reach.relayed (.sequence _ _) hfail
          refine .of_traced (Engine.attend_catch _ _ head) ?_
          rw [bind_of_ok start, Engine.catchBody_of_failed hg, Engine.caught_of_other other]
  | operands head reach =>
      cases hcross
      have hg := reach.relayed (.cdrCell _) hfail
      exact .of_traced (Engine.attend_unwindProtect _ _ head) (bind_of_halt hg)
  | @guarded n r q env s s₁ head start =>
      have hbody : attempt ((Engine.ofFuel n).eval (s₁.store.car q) env) s₁ = .ok (.error f) t := by
        rw [attempt, show (Engine.ofFuel n).eval (s₁.store.car q) env s₁ = _ from hfail]
      cases hcross with
      | cleaned c run =>
          refine .of_traced (g := f) (Engine.attend_unwindProtect _ _ head) ?_
          rw [bind_of_ok start, Engine.evalUnwindProtect_pair, bind_of_ok hbody, bind_of_ok run]
          rfl
      | replaced c run =>
          refine .of_traced (Engine.attend_unwindProtect _ _ head) ?_
          rw [bind_of_ok start, Engine.evalUnwindProtect_pair, bind_of_ok hbody, bind_of_halt run]
  | cleaning head start body reach =>
      cases hcross
      have hg := reach.relayed (.cleanup _ _) hfail
      refine .of_traced (Engine.attend_unwindProtect _ _ head) ?_
      rw [bind_of_ok start, Engine.evalUnwindProtect_pair, bind_of_ok body, bind_of_halt hg]

/-- A failure that reaches a `catch` which takes it ends there, with the value that was thrown, or
as a value itself. -/
theorem Encloses.caught {a b : Activation} {tag : Value} {c : Cause} {t : State}
    (h : Encloses a (.catcher tag) b) (hb : b.Raises c t) (hc : c.handledBy tag = true) :
    (∀ target v text, c = .thrown target v text → a.outcome = .ok v t) ∧
      (c.isThrown = false → ∃ f : Failure, f.cause = c ∧
        a.outcome = .ok (t.store.newFailure f).1 { t with store := (t.store.newFailure f).2 }) := by
  obtain ⟨f, hfail, rfl⟩ := hb
  cases h with
  | @body n r env _ forms b s s₁ u head start reach =>
      have hg := reach.relayed (.sequence _ _) hfail
      have hcatch : ∀ v u, Engine.caught tag f t = .ok v u →
          Activation.outcome ⟨n + 1, .eval (.pair r) env, s⟩ = .ok v u := by
        intro v u hcaught
        rw [Activation.outcome, Engine.perform_succ, Engine.attend_catch _ _ head, onFailure,
          bind_of_ok start, Engine.catchBody_of_failed hg, hcaught]
      refine ⟨fun target v text hthrown => ?_, fun herror => ⟨f, rfl, ?_⟩⟩
      · exact hcatch v t (Engine.caught_of_thrown hthrown hc t)
      · exact hcatch _ _ (Engine.caught_of_error herror hc t)

/-! ## Unwinding -/

/-- A failure in a nest crosses all layers, or reaches a `catch` that takes it, or a cleanup does
not come to an end. -/
theorem Unwinds.cases (layers : List Layer) (c : Cause) (t : State) :
    (∃ c' t', Unwinds layers c t c' t') ∨
    (∃ outer tag inner c' t', layers = outer ++ .catcher tag :: inner ∧
      Unwinds inner c t c' t' ∧ c'.handledBy tag = true) ∨
    (∃ outer n q env inner c' t' h u, layers = outer ++ .cleanup n q env :: inner ∧
      Unwinds inner c t c' t' ∧ (Engine.ofFuel n).cleanup q env t' = .halt h u ∧
      ∀ f, h ≠ .failed f) := by
  induction layers with
  | nil => exact .inl ⟨c, t, .none c t⟩
  | cons layer layers ih =>
      rcases ih with ⟨c', t', hinner⟩ | ⟨outer, tag, inner, c', t', hlayers, hinner, htag⟩ |
        ⟨outer, n, q, env, inner, c', t', h, u, hlayers, hinner, hrun, hhalt⟩
      · cases layer with
        | plain => exact .inl ⟨c', t', .across hinner (.plain c' t')⟩
        | catcher tag =>
            by_cases htag : c'.handledBy tag = true
            · exact .inr (.inl ⟨[], tag, layers, c', t', rfl, hinner, htag⟩)
            · rw [Bool.not_eq_true] at htag
              exact .inl ⟨c', t', .across hinner (.catcher htag t')⟩
        | cleanup n q env =>
            cases hrun : (Engine.ofFuel n).cleanup q env t' with
            | ok v u => exact .inl ⟨c', u, .across hinner (.cleaned c' hrun)⟩
            | halt h u =>
                by_cases hfailed : ∃ f, h = .failed f
                · obtain ⟨f, rfl⟩ := hfailed
                  exact .inl ⟨f.cause, u, .across hinner (.replaced c' hrun)⟩
                · refine .inr (.inr ⟨[], n, q, env, layers, c', t', h, u, rfl, hinner, hrun, ?_⟩)
                  exact fun f hf => hfailed ⟨f, hf⟩
      · exact .inr (.inl ⟨layer :: outer, tag, inner, c', t', by rw [hlayers]; rfl, hinner, htag⟩)
      · exact .inr (.inr ⟨layer :: outer, n, q, env, inner, c', t', h, u, by rw [hlayers]; rfl,
          hinner, hrun, hhalt⟩)

theorem Nest.raises {a i : Activation} {layers : List Layer} {c c' : Cause} {t t' : State}
    (nest : Nest a layers i) (raised : i.Raises c t) (h : Unwinds layers c t c' t') :
    a.Raises c' t' := by
  induction nest generalizing c' t' with
  | here a =>
      cases h
      exact raised
  | around out inside ih =>
      cases h with
      | across inner outer => exact out.raises (ih raised inner) outer

/-- Unwinding. A failure for some cause leaves every call of a nest around the one it arose in, as
far as it crosses the layers between them: from call to call it keeps its cause and finds the state
as it left it, but that each `unwind-protect` runs its cleanup on the way, whose own failure takes
the place of the one on its way. The first `catch` that takes it ends it: with the value thrown, if
the value was thrown to this tag, or, if the tag is the symbol for all other failures, with a value
that holds the failure. There is no third way, unless a cleanup leaves the program or does not end.
-/
theorem Nest.unwinding {a i : Activation} {layers : List Layer} {c : Cause} {t : State}
    (nest : Nest a layers i) (raised : i.Raises c t) :
    (∀ c' t', Unwinds layers c t c' t' → a.Raises c' t') ∧
    (∀ tag inner c' t', layers = .catcher tag :: inner → Unwinds inner c t c' t' →
      c'.handledBy tag = true →
      (∀ target v text, c' = .thrown target v text → a.outcome = .ok v t') ∧
      (c'.isThrown = false → ∃ f : Failure, f.cause = c' ∧ a.outcome =
        .ok (t'.store.newFailure f).1 { t' with store := (t'.store.newFailure f).2 })) ∧
    ((∃ c' t', Unwinds layers c t c' t') ∨
      (∃ outer tag inner c' t', layers = outer ++ .catcher tag :: inner ∧
        Unwinds inner c t c' t' ∧ c'.handledBy tag = true) ∨
      (∃ outer n q env inner c' t' h u, layers = outer ++ .cleanup n q env :: inner ∧
        Unwinds inner c t c' t' ∧ (Engine.ofFuel n).cleanup q env t' = .halt h u ∧
        ∀ f, h ≠ .failed f)) := by
  refine ⟨fun c' t' h => nest.raises raised h, ?_, Unwinds.cases layers c t⟩
  intro tag inner c' t' hlayers hinner htag
  subst hlayers
  cases nest with
  | around out inside => exact out.caught (inside.raises raised hinner) htag

/-! ## A nest -/

namespace Nest

/-- A store with `(catch 0 (unwind-protect (mapcar f [7]) (setq *version* 1)))`, where the body of
`f` is `(throw 0 x)`. -/
def sample : State where
  store :=
    { capacity := 17
      cells := #[
        -- (throw 0 x), and the body that it is
        ⟨.callable ⟨0⟩, .pair ⟨1⟩⟩, ⟨.int 0, .pair ⟨2⟩⟩, ⟨.address ⟨0, 0, Symbol.t⟩, .nil⟩,
        ⟨.pair ⟨0⟩, .nil⟩,
        -- (mapcar f [7])
        ⟨.callable ⟨1⟩, .pair ⟨5⟩⟩, ⟨.callable ⟨2⟩, .pair ⟨6⟩⟩, ⟨.vector ⟨0⟩, .nil⟩,
        -- the unwind-protect, and its cleanup
        ⟨.sym Symbol.unwindProtect, .pair ⟨8⟩⟩, ⟨.pair ⟨4⟩, .pair ⟨9⟩⟩, ⟨.pair ⟨10⟩, .nil⟩,
        ⟨.sym Symbol.setq, .pair ⟨11⟩⟩, ⟨.sym Symbol.version, .pair ⟨12⟩⟩, ⟨.int 1, .nil⟩,
        -- the catch
        ⟨.sym Symbol.catching, .pair ⟨14⟩⟩, ⟨.int 0, .pair ⟨15⟩⟩, ⟨.pair ⟨7⟩, .nil⟩]
      vectors := #[#[.int 7]]
      callables := #[.native (.control .throwing), .native (.lists .mapcar),
        .closure ⟨1, false⟩ (.pair ⟨3⟩) none] }
  console := { answers := [] }

/-- The state in which the callback is called: its arguments are a new list. -/
def sampleCall : State := sample.mapStore fun st => (st.cons (.int 7) .nil).2

/-- The state in which the value is thrown: the callback has its frame. -/
def sampleThrow : State :=
  { sampleCall with frames := sampleCall.frames.push #[.int 7] none }

theorem raises_sample : ∃ text, Activation.Raises ⟨8, .eval (.pair ⟨0⟩) (some 0), sampleThrow⟩
    (.thrown (.int 0) (.int 7) text) sampleThrow := ⟨_, _, rfl, Engine.cause_traced _ _ _⟩

theorem reaches_sample_body : (Engine.ofFuel 8).Reaches
    (·.attend (.apply (.callable ⟨2⟩) (.pair ⟨16⟩) none)) sampleCall (.eval (.pair ⟨0⟩) (some 0))
    sampleThrow := by
  intro E' code t hagree hexit
  obtain ⟨fuel, ev, ap, dl⟩ := E'
  have hfuel : fuel = 8 := hagree.fuel
  subst hfuel
  exact hexit

theorem reaches_sample_callback : (Engine.ofFuel 9).Reaches (·.attend (.eval (.pair ⟨4⟩) none))
    sample (.apply (.callable ⟨2⟩) (.pair ⟨16⟩) none) sampleCall := by
  intro E' code t hagree hexit
  obtain ⟨fuel, ev, ap, dl⟩ := E'
  have hfuel : fuel = 9 := hagree.fuel
  subst hfuel
  have hmapcar : ev (.callable ⟨1⟩) none sample = .ok (.callable ⟨1⟩) sample :=
    hagree.other (.eval (.callable ⟨1⟩) none) sample (by simp)
  have hf : ev (.callable ⟨2⟩) none sample = .ok (.callable ⟨2⟩) sample :=
    hagree.other (.eval (.callable ⟨2⟩) none) sample (by simp)
  have hv : ev (.vector ⟨0⟩) none sample = .ok (.vector ⟨0⟩) sample :=
    hagree.other (.eval (.vector ⟨0⟩) none) sample (by simp)
  have hframe : Engine.forceFrame ⟨9, ev, ap, dl⟩ (.fixed 2) [.callable ⟨2⟩, .vector ⟨0⟩] none
      sample = .ok [.callable ⟨2⟩, .vector ⟨0⟩] sample := by
    simp only [Engine.forceFrame, Engine.evalSlots, Shape.fixed, bind_apply, hf, hv, Engine.force,
      pure_apply]
    rfl
  have happly : ListNative.applyEach ⟨9, ev, ap, dl⟩ (.callable ⟨2⟩) none [.int 7] [] sample =
      .halt (.exited code) t := by
    have hargs : Eval.list [.int 7] sample = .ok (.pair ⟨16⟩) sampleCall := rfl
    rw [ListNative.applyEach, bind_of_ok hargs]
    exact bind_of_halt hexit
  have hrun : Native.run ⟨9, ev, ap, dl⟩ (.lists .mapcar) [.callable ⟨2⟩, .vector ⟨0⟩] none sample =
      .halt (.exited code) t := bind_of_halt (f := fun reversed => consAll reversed .nil) happly
  have hcall : Native.call ⟨9, ev, ap, dl⟩ (.lists .mapcar) [.callable ⟨2⟩, .vector ⟨0⟩] none
      sample = .halt (.exited code) t := by
    rw [Native.call, onFailure, hrun]
  have hstep : Engine.step ⟨9, ev, ap, dl⟩ (.pair ⟨4⟩) none sample = .halt (.exited code) t := by
    show Engine.callStep ⟨9, ev, ap, dl⟩ (.callable ⟨1⟩) (.pair ⟨5⟩) none sample = _
    rw [Engine.callStep, bind_of_ok hmapcar]
    show (Engine.forceFrame ⟨9, ev, ap, dl⟩ (.fixed 2) [.callable ⟨2⟩, .vector ⟨0⟩] none >>= _)
      sample = _
    rw [bind_of_ok hframe]
    exact bind_of_halt hcall
  simp only [Engine.attend, bind_apply, onFailure, hstep]

theorem reaches_sample_form : (Engine.ofFuel 11).Reaches (·.sequence (.pair ⟨15⟩) none) sample
    (.eval (.pair ⟨7⟩) none) sample := by
  intro E' code t hagree hexit
  obtain ⟨fuel, ev, ap, dl⟩ := E'
  have hfuel : fuel = 11 := hagree.fuel
  subst hfuel
  show (ev (.pair ⟨7⟩) none >>= _) sample = _
  exact bind_of_halt hexit

/-- What is thrown out of a callback of `mapcar` crosses the cleanup around it, which binds a
variable, and is the value of the `catch`. -/
theorem unwinding_sample : evaluate 12 (.pair ⟨13⟩) none sample =
    .ok (.int 7) (sampleThrow.setGlobal Symbol.version (.int 1)) := by
  obtain ⟨text, hraises⟩ := raises_sample
  have hnest : Nest ⟨12, .eval (.pair ⟨13⟩) none, sample⟩
      [.catcher (.int 0), .cleanup 10 ⟨8⟩ none, .plain, .plain]
      ⟨8, .eval (.pair ⟨0⟩) (some 0), sampleThrow⟩ :=
    .around (.body rfl rfl reaches_sample_form) (.around (.guarded rfl rfl)
      (.around (.call rfl reaches_sample_callback) (.around (.call rfl reaches_sample_body)
        (.here _))))
  have hunwinds : Unwinds [.cleanup 10 ⟨8⟩ none, .plain, .plain]
      (.thrown (.int 0) (.int 7) text) sampleThrow (.thrown (.int 0) (.int 7) text)
      (sampleThrow.setGlobal Symbol.version (.int 1)) :=
    .across (.across (.across (.none _ _) (.plain _ _)) (.plain _ _))
      (.cleaned _ (v := .int 1) rfl)
  exact ((hnest.unwinding hraises).2.1 _ _ _ _ rfl hunwinds rfl).1 _ _ _ rfl

end Nest

end SmallLisp
