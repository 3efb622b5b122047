import SmallLisp.Engine.Special
import SmallLisp.Proofs.Simulation.Compiler

/-!
# Simulated special forms
-/

namespace SmallLisp

/-- The value or the form to go on with is good. -/
def Guard.GoodStep (G : Guard) (w : G.World) : Step → Prop
  | .done v => G.Good w v
  | .next form env => G.Good w form ∧ G.Inside w env

namespace Simulation

open Eval

variable {G : Guard} (L : Simulation G) {E E' : Engine} {H H' : Handlers} {w : G.World}

theorem operand? (hE : L.Engines E E') {args : Value} (ha : G.Good w args) :
    L.Gives w (fun w v? => ∀ v, v? = some v → G.Good w v) (E.operand? args) (E'.operand? args) := by
  unfold Engine.operand?
  cases args with
  | pair r =>
      refine L.bind (L.cdrCell hE ha) fun w₁ h₁ next _ => ?_
      split
      · refine L.bind (L.car (G.good_mono h₁ ha)) fun w₂ h₂ v hv => L.give fun u hu => ?_
        cases hu
        exact hv
      · exact L.give fun u hu => by cases hu
  | _ => exact L.give fun u hu => by cases hu

theorem condWithin (hE : L.Engines E E') {env : Env} (henv : G.Inside w env) {n m : Nat}
    (hn : n ≤ m) {v : Value} (hv : G.Good w v) :
    L.Gives w G.GoodStep (E.condWithin env n v) (E'.condWithin env m v) := by
  induction n generalizing m v w with
  | zero =>
      cases v with
      | pair r => exact L.exhausted _
      | _ =>
          simp only [Engine.condWithin]
          exact L.give (G.nil w)
  | succ n ih =>
      obtain ⟨m, rfl, hm⟩ := step_left hn
      cases v with
      | pair r =>
          rw [Engine.condWithin, Engine.condWithin]
          refine L.bind (L.car hv) fun w₁ h₁ clause hclause => ?_
          -- The clauses after this one, tried when it is skipped.
          have hskip : ∀ w', w₁ ≤ w' → L.Gives w' G.GoodStep
              (E.cdrCell r >>= E.condWithin env n) (E'.cdrCell r >>= E'.condWithin env m) := by
            intro w' h'
            refine L.bind (L.cdrCell hE (G.good_mono (h₁.trans h') hv)) fun w₂ h₂ next hnext => ?_
            exact ih (G.inside_mono ((h₁.trans h').trans h₂) henv) hm hnext
          have henv := G.inside_mono h₁ henv
          cases clause with
          | nil => exact hskip w₁ (le_refl w₁)
          | pair c =>
              refine L.bind (L.car hclause) fun w₂ h₂ form hform => ?_
              refine L.bind (hE.eval hform (G.inside_mono h₂ henv)) fun w₃ h₃ test htest => ?_
              refine L.bind (L.force hE htest) fun w₄ h₄ test htest => ?_
              have h₄' := (h₂.trans h₃).trans h₄
              split
              · refine L.bind (L.cdrCell hE (G.good_mono h₄' hclause)) fun w₅ h₅ forms hforms => ?_
                split
                · exact L.give (G.good_mono h₅ htest)
                · have henv := G.inside_mono (h₄'.trans h₅) henv
                  refine L.bind (L.body hE hforms henv) fun w₆ h₆ last hlast => ?_
                  exact L.give ⟨hlast, G.inside_mono h₆ henv⟩
              · exact hskip w₄ h₄'
          | _ => exact L.malformedOn hclause _
      | _ => exact L.give (G.nil w)

/-- Binding a variable, where an address must denote a slot that is free to be overwritten. -/
theorem bindVariable {target v : Value} {env : Env} {s t : State} (hst : L.St w s t)
    (ht : G.Good w target) (hv : G.Good w v) (henv : G.Inside w env)
    (hfree : ∀ a frame, target = .address a → s.frames.frameAt? env a.level = some frame →
      L.Frees (.slot frame a.offset)) :
    L.Match w (fun _ x y => y = x ∧ True) (Engine.bindVariable target v env s)
      (Engine.bindVariable target v env t) := by
  have hrefusal : ∀ w', w ≤ w' → L.Gives w' (fun _ (_ : Unit) => True)
      (Eval.failOn target .notVariable) (Eval.failOn target .notVariable) :=
    fun w' hw => L.failOn (G.good_mono hw ht) fun _ => trivial
  unfold Engine.bindVariable
  cases target with
  | sym x =>
      exact L.bindGlobal ht hv (L.bind (L.nameOf x) fun _ _ name _ => L.malformed _) s t hst
  | address a =>
      refine (L.assign a hst henv hv fun frame => hfree a frame rfl).bind ?_
      rintro w₁ h₁ _ b s₁ t₁ - hst₁ rfl
      cases b with
      | true => exact L.here hst₁ ⟨rfl, trivial⟩
      | false => exact hrefusal w₁ h₁ s₁ t₁ hst₁
  | _ => exact hrefusal w (le_refl w) s t hst

theorem setqWith (hH : L.Handles H H') (hE : L.Engines E E') {env : Env} (henv : G.Inside w env)
    {n m : Nat} (hn : n ≤ m) {v last : Value} (hv : G.Good w v) (hlast : G.Good w last) :
    L.Gives w G.Good (E.setqWith H env n v last) (E'.setqWith H' env m v last) := by
  induction n generalizing m v last w with
  | zero =>
      cases v with
      | pair r => exact L.exhausted _
      | _ =>
          simp only [Engine.setqWith]
          exact L.give hlast
  | succ n ih =>
      obtain ⟨m, rfl, hm⟩ := step_left hn
      cases v with
      | pair r =>
          rw [Engine.setqWith, Engine.setqWith]
          refine L.bind (L.car hv) fun w₁ h₁ target htarget => ?_
          refine L.bind (L.cdrCell hE (G.good_mono h₁ hv)) fun w₂ h₂ rest hrest => ?_
          cases rest with
          | pair rhs =>
              refine L.bind (L.car hrest) fun w₃ h₃ form hform => ?_
              have h₃' := (h₁.trans h₂).trans h₃
              refine L.bind (hE.eval hform (G.inside_mono h₃' henv)) fun w₄ h₄ u hu => ?_
              have henv := G.inside_mono (h₃'.trans h₄) henv
              have htarget := G.good_mono ((h₂.trans h₃).trans h₄) htarget
              refine L.bind (hH.bind htarget hu henv) fun w₅ h₅ _ _ => ?_
              have hrest := G.good_mono ((h₃.trans h₄).trans h₅) hrest
              refine L.bind (L.cdrCell hE hrest) fun w₆ h₆ next hnext => ?_
              have h₆' := h₅.trans h₆
              exact ih (G.inside_mono h₆' henv) hm hnext (G.good_mono h₆' hu)
          | _ => exact L.malformed _
      | _ => exact L.give hlast

theorem caught {f g : Failure} (h : L.Fault w f g) (tag : Value) :
    L.Gives w G.Good (Engine.caught tag f) (Engine.caught tag g) := by
  obtain ⟨hcause, hgood⟩ := L.fault_cause h
  unfold Engine.caught
  rw [hcause]
  cases hc : f.cause with
  | thrown thrown v text =>
      rw [hc] at hgood
      dsimp only
      split
      · exact L.give hgood.2
      · exact L.refail h
  | _ =>
      dsimp only
      split
      · exact L.newFailure h
      · exact L.refail h

theorem evalCatch (hE : L.Engines E E') {args : Value} {env : Env} (ha : G.Good w args)
    (henv : G.Inside w env) :
    L.Gives w G.Good (E.evalCatch args env) (E'.evalCatch args env) := by
  unfold Engine.evalCatch
  cases args with
  | pair r =>
      refine L.bind (L.car ha) fun w₁ h₁ form hform => ?_
      refine L.bind (hE.eval hform (G.inside_mono h₁ henv)) fun w₂ h₂ tag htag => ?_
      refine L.bind (L.force hE htag) fun w₃ h₃ tag htag => ?_
      have h₃' := (h₁.trans h₂).trans h₃
      refine L.bind (L.cdrCell hE (G.good_mono h₃' ha)) fun w₄ h₄ forms hforms => ?_
      have henv := G.inside_mono (h₃'.trans h₄) henv
      refine L.bindTwo (L.attempt (L.sequence hE hforms henv)) fun w₅ h₅ a b hab => ?_
      cases a <;> cases b
      · exact L.caught hab tag
      · exact hab.elim
      · exact hab.elim
      · exact L.pure hab
  | _ => exact L.malformed _

theorem caught_mono {α : Type} {R : G.World → α → α → Prop} {w' : G.World} (hw : w ≤ w')
    (hR : ∀ {a b}, R w a b → R w' a b) {a b : Except Failure α} (h : L.Caught R w a b) :
    L.Caught R w' a b := by
  cases a <;> cases b
  · exact L.fault_mono hw h
  · exact h.elim
  · exact h.elim
  · exact hR h

theorem evalUnwindProtect (hE : L.Engines E E') {args : Value} {env : Env}
    (ha : G.Good w args) (henv : G.Inside w env) :
    L.Gives w G.Good (E.evalUnwindProtect args env) (E'.evalUnwindProtect args env) := by
  unfold Engine.evalUnwindProtect
  cases args with
  | pair r =>
      refine L.bind (L.car ha) fun w₁ h₁ form hform => ?_
      have hresult := L.attempt (hE.eval hform (G.inside_mono h₁ henv))
      refine L.bindTwo hresult fun w₂ h₂ a b hab => ?_
      refine L.bind (L.cdrCell hE (G.good_mono (h₁.trans h₂) ha)) fun w₃ h₃ forms hforms => ?_
      have henv := G.inside_mono ((h₁.trans h₂).trans h₃) henv
      refine L.bind (L.sequence hE hforms henv) fun w₄ h₄ _ _ => ?_
      exact L.ofExcept (L.caught_mono (h₃.trans h₄)
        (fun hv => ⟨hv.1, G.good_mono (h₃.trans h₄) hv.2⟩) hab)
  | _ => exact L.malformed _

theorem evalMacroWith (hH : L.Handles H H') (hE : L.Engines E E') {whole args : Value} {env : Env}
    (hw : G.Good w whole) (ha : G.Good w args) :
    L.Gives w G.Good (E.evalMacroWith H whole args env) (E'.evalMacroWith H' whole args env) := by
  unfold Engine.evalMacroWith
  split
  · exact L.malformedOn hw _
  · exact L.bind (L.replaceDummies hE ha) fun _ _ _ hv => L.compileWith hH hE trivial hv

theorem specialWith (hH : L.Handles H H') (hE : L.Engines E E') (form : Special)
    {whole args : Value} {env : Env} (hw : G.Good w whole) (ha : G.Good w args)
    (henv : G.Inside w env) :
    L.Gives w G.GoodStep (E.specialWith H form whole args env)
      (E'.specialWith H' form whole args env) := by
  -- A form that is done gives its value.
  have hdone : ∀ {x y : Eval Value}, L.Gives w G.Good x y →
      L.Gives w G.GoodStep (do let v ← x; Pure.pure (.done v))
        (do let v ← y; Pure.pure (.done v)) :=
    fun hx => L.bind hx fun _ _ _ hv => L.give hv
  unfold Engine.specialWith Engine.special
  cases form with
  | quote =>
      refine L.bind (L.operand? hE ha) fun w₁ h₁ v? hv? => ?_
      cases v? with
      | none => exact L.malformed _
      | some v => exact L.give (hv? v rfl)
  | progn =>
      refine L.bind (L.body hE ha henv) fun w₁ h₁ last hlast => ?_
      exact L.give ⟨hlast, G.inside_mono h₁ henv⟩
  | cond => exact L.condWithin hE henv hE.fuel ha
  | setq => exact hdone (L.setqWith hH hE henv hE.fuel ha (G.nil w))
  | lambda => exact hdone (L.compileWith hH hE henv ha)
  | expander => exact hdone (L.evalMacroWith hH hE hw ha)
  | catching => exact hdone (L.evalCatch hE ha henv)
  | unwindProtect => exact hdone (L.evalUnwindProtect hE ha henv)
  | delay =>
      refine L.bind (L.operand? hE ha) fun w₁ h₁ v? hv? => ?_
      cases v? with
      | none => exact L.malformed _
      | some v =>
          refine L.bind (L.newPromise (hv? v rfl) (G.inside_mono h₁ henv)) fun _ _ _ hp => ?_
          exact L.give hp

end Simulation

end SmallLisp
