import SmallLisp.Proofs.Simulation.Natives

/-!
# Simulated evaluation

The main result of the theory: whatever the primitive operations keep, evaluating and applying keep
too. One turn of evaluation is simulated by itself, given engines and handlers that are; by
induction on the fuel the engines of these handlers are, and with the plain handlers those of the
evaluator.
-/

namespace SmallLisp.Simulation

open Eval

variable {G : Guard} (L : Simulation G) {E E' : Engine} {H H' : Handlers} {w : G.World}

/-! ## Calls of natives -/

theorem runNative (hE : L.Engines E E') (n : Native) {args : List Value} {env : Env}
    (ha : G.GoodAll w args) (henv : G.Inside w env)
    (hfree : ∀ place, n.overwrites? = some place → L.Frees place) :
    L.Gives w G.Good (n.run E args env) (n.run E' args env) := by
  cases n with
  | lists n => exact L.lists hE n ha henv hfree
  | tests n => exact L.tests n ha
  | vectors n => exact L.vectors hE n ha hfree
  | streams n => exact L.streams hE n ha
  | numbers n => exact L.numbers hE n ha
  | control n => exact L.control hE n ha henv
  | sequences n => exact L.sequences hE n ha
  | system n => exact L.system hE n ha henv

theorem atBoundary (n : Native) {args : List Value} {s t : State} {f g : Failure}
    (ha : G.GoodAll w args) (hst : L.St w s t) (h : L.Fault w f g) :
    L.Fault w (n.atBoundary args s f) (n.atBoundary args t g) := by
  unfold Native.atBoundary
  rw [(L.fault_cause h).1, (L.sees hst).printAll (L.covers hst) ha]
  cases f.cause with
  | native message => exact L.fault_new trivial
  | _ => exact h

theorem call (hE : L.Engines E E') (n : Native) {args : List Value} {env : Env}
    (ha : G.GoodAll w args) (henv : G.Inside w env)
    (hfree : ∀ place, n.overwrites? = some place → L.Frees place) :
    L.Gives w G.Good (n.call E args env) (n.call E' args env) :=
  L.onFailure (L.runNative hE n ha henv hfree) fun hw hst h =>
    L.atBoundary n (ha.mono hw) hst h

/-- The plain handlers overwrite what they are meant to. -/
theorem handles_plain [L.Free] : L.Handles .plain .plain where
  call hE ha henv := L.call hE _ ha henv fun place _ => Free.frees place
  bind ht hv henv := fun _ _ hst => L.bindVariable hst ht hv henv fun _ _ _ _ => Free.frees _
  parameters hE hv := L.parameters hE hv

/-! ## One turn -/

theorem callStepWith (hH : L.Handles H H') (hE : L.Engines E E') {head args : Value} {env : Env}
    (hh : G.Good w head) (ha : G.Good w args) (henv : G.Inside w env) :
    L.Gives w G.GoodStep (E.callStepWith H head args env) (E'.callStepWith H' head args env) := by
  unfold Engine.callStepWith
  refine L.bind (hE.eval hh henv) fun w₁ h₁ callee hcallee => ?_
  refine L.bind (L.force hE hcallee) fun w₂ h₂ callee hcallee => ?_
  cases callee with
  | callable r =>
      refine L.bind (L.callable hcallee) fun w₃ h₃ f hf => ?_
      have h₃' := (h₁.trans h₂).trans h₃
      have ha := G.good_mono h₃' ha
      have henv := G.inside_mono h₃' henv
      cases f with
      | closure shape body captured =>
          refine L.bind (L.makeFrame hE _ ha) fun w₄ h₄ frame hframe => ?_
          refine L.bind (L.evalFrame hE shape hframe (G.inside_mono h₄ henv))
            fun w₅ h₅ frame hframe => ?_
          refine L.bind (L.extend hframe (G.inside_mono (h₄.trans h₅) hf.2))
            fun w₆ h₆ inner hinner => ?_
          have hbody := G.good_mono ((h₄.trans h₅).trans h₆) hf.1
          refine L.bind (L.body hE hbody hinner) fun w₇ h₇ last hlast => ?_
          exact L.give ⟨hlast, G.inside_mono h₇ hinner⟩
      | expander shape body =>
          refine L.bind (L.expandCall hE _ hf ha) fun w₄ h₄ form hform => ?_
          exact L.give ⟨hform, G.inside_mono h₄ henv⟩
      | native n =>
          refine L.bind (L.makeFrame hE _ ha) fun w₄ h₄ frame hframe => ?_
          have henv := G.inside_mono h₄ henv
          have hcall : ∀ w₅, w₄ ≤ w₅ → ∀ frame, G.GoodAll w₅ frame → L.Gives w₅ G.GoodStep
              (H.call E n frame env >>= fun v => Pure.pure (.done v))
              (H'.call E' n frame env >>= fun v => Pure.pure (.done v)) := by
            intro w₅ h₅ frame hframe
            refine L.bind (hH.call hE hframe (G.inside_mono h₅ henv)) fun w₆ _ v hv => ?_
            exact L.give hv
          dsimp only
          split
          · exact L.bind (L.evalFrame hE n.shape hframe henv) hcall
          · exact L.bind (L.forceFrame hE n.shape hframe henv) hcall
      | template shape body => exact L.failOn (G.good_mono h₃ hcallee) fun _ => trivial
  | _ => exact L.failOn hcallee fun _ => trivial

theorem pairStepWith (hH : L.Handles H H') (hE : L.Engines E E') {r : Ref .cell} {env : Env}
    (hr : G.Good w (.pair r)) (henv : G.Inside w env) :
    L.Gives w G.GoodStep (E.pairStepWith H r env) (E'.pairStepWith H' r env) := by
  unfold Engine.pairStepWith
  refine L.bind (L.car hr) fun w₁ h₁ head hhead => ?_
  refine L.bind (L.cdrCell hE (G.good_mono h₁ hr)) fun w₂ h₂ args hargs => ?_
  have hhead := G.good_mono h₂ hhead
  have henv := G.inside_mono (h₁.trans h₂) henv
  cases head with
  | sym x =>
      refine L.bind (L.isKeyword x) fun w₃ h₃ b _ => ?_
      have hargs := G.good_mono h₃ hargs
      have henv := G.inside_mono h₃ henv
      split
      · cases Special.ofSymbol? x with
        | some form =>
            have hr := G.good_mono ((h₁.trans h₂).trans h₃) hr
            exact L.specialWith hH hE form hr hargs henv
        | none => exact L.bind (L.nameOf x) fun _ _ name _ => L.malformed _
      · exact L.callStepWith hH hE (G.good_mono h₃ hhead) hargs henv
  | _ => exact L.callStepWith hH hE hhead hargs henv

theorem stepWith (hH : L.Handles H H') (hE : L.Engines E E') {form : Value} {env : Env}
    (hf : G.Good w form) (henv : G.Inside w env) :
    L.Gives w G.GoodStep (E.stepWith H form env) (E'.stepWith H' form env) := by
  unfold Engine.stepWith Engine.step
  cases form with
  | sym x =>
      refine L.bind (P := fun w v? => ∀ v, v? = some v → G.Good w v)
        (L.gets (fun _ _ _ => rfl) fun _ hs v hv => (hs.global hv).2) fun w₁ h₁ v? hv? => ?_
      cases v? with
      | some v => exact L.give (hv? v rfl)
      | none =>
          refine L.bind (L.isKeyword x) fun w₂ h₂ b _ => ?_
          split
          · exact L.give (G.good_mono (h₁.trans h₂) hf)
          · exact L.bind (L.nameOf x) fun _ _ name _ => L.fail trivial
  | address a =>
      refine L.bind (L.slot? henv a) fun w₁ h₁ v? hv? => ?_
      cases v? with
      | some v => exact L.give (hv? v rfl)
      | none => exact L.failOn (G.good_mono h₁ hf) fun _ => trivial
  | pair r => exact L.pairStepWith hH hE hf henv
  | callable r =>
      refine L.bind (L.callable hf) fun w₁ h₁ f hgood => ?_
      cases f with
      | template shape body =>
          have hclosure : G.GoodCallable w₁ (.closure shape body env) :=
            ⟨hgood, G.inside_mono h₁ henv⟩
          exact L.bind (L.newCallable hclosure) fun _ _ _ hv => L.give hv
      | _ => exact L.give (G.good_mono h₁ hf)
  | _ => exact L.give hf

theorem applyListWith (hH : L.Handles H H') (hE : L.Engines E E') {f args : Value} {env : Env}
    (hf : G.Good w f) (ha : G.Good w args) (henv : G.Inside w env) :
    L.Gives w G.Good (E.applyListWith H f args env) (E'.applyListWith H' f args env) := by
  unfold Engine.applyListWith
  refine L.bind (L.force hE hf) fun w₁ h₁ f hf => ?_
  cases f with
  | callable r =>
      have hr := hf
      refine L.bind (L.callable hf) fun w₂ h₂ f hf => ?_
      have ha := G.good_mono (h₁.trans h₂) ha
      have henv := G.inside_mono (h₁.trans h₂) henv
      cases f with
      | native n =>
          have hcall : ∀ w₃, w₂ ≤ w₃ → L.Gives w₃ G.Good
              (E.makeFrame (.native n) args >>= fun frame => H.call E n frame env)
              (E'.makeFrame (.native n) args >>= fun frame => H'.call E' n frame env) := by
            intro w₃ h₃
            refine L.bind (L.makeFrame hE _ (G.good_mono h₃ ha)) fun w₄ h₄ frame hframe => ?_
            exact hH.call hE hframe (G.inside_mono (h₃.trans h₄) henv)
          dsimp only
          split
          · exact L.bind (L.forceEach hE ha) fun w₃ h₃ _ _ => hcall w₃ h₃
          · exact hcall w₂ (le_refl w₂)
      | closure shape body captured =>
          refine L.bind (L.makeFrame hE _ ha) fun w₃ h₃ frame hframe => ?_
          refine L.bind (L.extend hframe (G.inside_mono h₃ hf.2)) fun w₄ h₄ inner hinner => ?_
          have hbody := G.good_mono (h₃.trans h₄) hf.1
          refine L.bind (L.body hE hbody hinner) fun w₅ h₅ last hlast => ?_
          exact hE.eval hlast (G.inside_mono h₅ hinner)
      | _ => exact L.failOn (G.good_mono h₂ hr) fun _ => trivial
  | _ => exact L.failOn hf fun _ => trivial

theorem step [L.Free] (hE : L.Engines E E') {form : Value} {env : Env} (hf : G.Good w form)
    (henv : G.Inside w env) :
    L.Gives w G.GoodStep (E.step form env) (E'.step form env) := by
  rw [← Engine.stepWith_plain, ← Engine.stepWith_plain]
  exact L.stepWith L.handles_plain hE hf henv

theorem applyList [L.Free] (hE : L.Engines E E') {f args : Value} {env : Env} (hf : G.Good w f)
    (ha : G.Good w args) (henv : G.Inside w env) :
    L.Gives w G.Good (E.applyList f args env) (E'.applyList f args env) := by
  rw [← Engine.applyListWith_plain, ← Engine.applyListWith_plain]
  exact L.applyListWith L.handles_plain hE hf ha henv

/-! ## Evaluation -/

/-- Whatever the primitive operations and the handlers keep, the evaluator keeps, and more fuel only
lets it go further. -/
theorem handledEngines (hH : L.Handles H H') (hd : ∀ n, L.Drives (Engine.handled H n)) {n m : Nat}
    (hn : n ≤ m) : L.Engines (Engine.handled H n) (Engine.handled H' m) := by
  induction n generalizing m with
  | zero =>
      refine ⟨by simp, hd _, fun _ _ => ?_, fun _ _ _ => ?_, fun _ => ?_⟩
      · exact L.exhausted _
      · exact L.exhausted _
      · exact L.exhausted _
  | succ n ih =>
      obtain ⟨m, rfl, hm⟩ := step_left hn
      have hE := ih hm
      refine ⟨by simpa using hn, hd _, fun {w form env} hf henv => ?_, fun hf ha henv => ?_,
        fun hr => L.deliverTurn hE hr⟩
      · refine L.bind (L.onFailure (L.stepWith hH hE hf henv) fun hw hst h =>
          L.fault_traced hst (G.good_mono hw hf) h) fun w₁ h₁ next hnext => ?_
        cases next with
        | done v => exact L.give hnext
        | next form env => exact hE.eval hnext.1 hnext.2
      · exact L.applyListWith hH hE hf ha henv

/-- Whatever the primitive operations keep, the evaluator keeps. -/
theorem engines [L.Free] {n m : Nat} (hn : n ≤ m) :
    L.Engines (Engine.ofFuel n) (Engine.ofFuel m) := by
  have hd : ∀ k, L.Drives (Engine.handled .plain k) := by
    intro k
    rw [Engine.handled_plain]
    exact L.drives k
  rw [← Engine.handled_plain, ← Engine.handled_plain]
  exact L.handledEngines L.handles_plain hd hn

end SmallLisp.Simulation
