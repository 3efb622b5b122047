import SmallLisp.Proofs.Twins.Special

/-!
# Twins go the same way

Evaluation of twin forms goes the same way in two machines that correspond, whatever the fuel. Where
one form is a call of the macro, its machine expands it on its own; where lambdas are met, each
machine makes its closure on its own, and the closures belong together from then on.
-/

namespace SmallLisp

open Eval Code Scope Filter

theorem Engine.step_mono {n m : Nat} (hn : n ≤ m) {form : Value} {env : Env} {s : State}
    (h : ((Engine.ofFuel n).step form env s).Ends) :
    (Engine.ofFuel m).step form env s = (Engine.ofFuel n).step form env s :=
  Simulation.eq_of_match_same
    (Simulation.same.step (w := ()) (Simulation.same.engines hn) trivial trivial s s rfl) h

namespace Setting

open Scene

variable {T : Setting} {n : Nat} {p q : T.Scene} {v w : Value} {env env' : Env}
  {hidden : Nat → Prop} {s t : State} {i j : Nat}

/-! ## One machine on its own -/

/-- A call of the macro is expanded. -/
theorem succeeds_expansion {cs : List Code} {c : Code} (hready : T.Ready hidden s)
    (hhidden : ∀ i, hidden i → i < s.store.cells.size) (hc : T.expansion cs = some c)
    (hv : StandsAll (s.store.veil hidden) cs v) (env : Env) :
    Succeeds (fun n => (Engine.ofFuel n).step v env) s fun turn t =>
      ∃ form, turn = .next form env ∧ s.Grown t ∧ c.Stands (t.store.veil hidden) form := by
  obtain ⟨args, rfl, htakes, hfill⟩ := expansion_eq_some.1 hc
  obtain ⟨body, b, hdefines, hbody, hb⟩ := hready.expander
  obtain ⟨r, _, d, rfl, hr, rfl, hd⟩ := StandsAll.exists_cell hv
  obtain ⟨vs, hchain, -⟩ := chain_of_standsAll hd
  have hcall := takes_expandCall hhidden hready.natives (fun hr => chain_of_veil hr) hbody hb htakes
    hfill
  refine .congr (y := fun n => (Engine.ofFuel n).enter (.expander T.shape body) d env) ?_ ?_
  · exact (hcall.run (.refl s) hd).bind fun form t h => .pure ⟨form, rfl, h⟩
  · filter_upwards [eventually_gt_atTop 0] with n hn k
    exact step_enter (s := s.withRoom k) env hdefines (by simp) hr
      ((chain_of_veil hchain).withRoom k) hn

theorem lt_size_of_left (p : T.Scene) (i : Nat) (h : p.links.Left .cell i) :
    i < p.left.store.cells.size := by
  obtain ⟨j, hij⟩ := h
  exact (p.corresponds.count hij).1

theorem likeCallable (hr : p.links .callable i j) :
    T.LikeCallable p.links p.left p.right (p.left.store.callable ⟨i⟩)
      (p.right.store.callable ⟨j⟩) :=
  p.corresponds.contents hr

/-- What a step leads to is gone on with, whatever is traced if it fails. -/
theorem StepLike.finish (h : T.Runs n) {turn turn' : Step} (hturn : StepLike p turn turn') :
    p.Meets Like ((Engine.ofFuel n).finish turn) fun m => (Engine.ofFuel m).finish turn' := by
  cases hturn with
  | done hv => exact .pure hv
  | next hform henv => exact h.eval hform henv

/-- The turn of a call of callables that act alike. -/
theorem Runs.enter (h : T.Runs n) {f g : Callable}
    (hf : T.LikeCallable p.links p.left p.right f g) (hv : p.Body v w)
    (henv : p.Around env env') :
    p.Meets StepLike ((Engine.ofFuel n).enter f v env)
      fun m => (Engine.ofFuel m).enter g w env' := by
  cases hf with
  | @native native hruns =>
      unfold Engine.enter
      refine ((T.walk_code n).makeFrame rfl rfl hv).bind fun q₁ frame frame' h₁ hframe => ?_
      have hslots : q₁.Meets LikeAll
          (if native.isLazy then (Engine.ofFuel n).evalFrame native.shape frame env
            else (Engine.ofFuel n).forceFrame native.shape frame env)
          fun m => if native.isLazy then (Engine.ofFuel m).evalFrame native.shape frame' env'
            else (Engine.ofFuel m).forceFrame native.shape frame' env' := by
        cases native.isLazy with
        | true => exact h.evalFrame hframe (around_mono h₁ henv)
        | false => exact h.forceFrame hframe (around_mono h₁ henv)
      refine hslots.bind fun q₂ frame frame' h₂ hframe => ?_
      exact meets_done (h.call hruns hframe (around_mono (h₁.trans h₂) henv))
  | closure hbody hcaptured =>
      unfold Engine.enter
      refine ((T.walk_code n).makeFrame rfl rfl hv).bind fun q₁ frame frame' h₁ hframe => ?_
      refine (h.evalFrame hframe (around_mono h₁ henv)).bind fun q₂ frame frame' h₂ hframe => ?_
      refine (meets_extend hframe (around_mono (h₁.trans h₂) hcaptured)).bind
        fun q₃ inner inner' h₃ hinner => ?_
      have h₃' := (h₁.trans h₂).trans h₃
      refine (h.body (hbody.later h₃') hinner).bind fun q₄ last last' h₄ hlast => ?_
      exact .pure (.next hlast (around_mono h₄ hinner))

/-- The turn of a call. -/
theorem Runs.callStep (h : T.Runs n) {head head' : Value} (hhead : p.Form head head')
    (hv : p.Body v w) (henv : p.Around env env') :
    p.Meets StepLike ((Engine.ofFuel n).callStep head v env)
      fun m => (Engine.ofFuel m).callStep head' w env' := by
  unfold Engine.callStep
  refine (h.eval hhead henv).bind fun q₁ callee callee' h₁ hcallee => ?_
  refine (h.force hcallee).bind fun q₂ callee callee' h₂ hcallee => ?_
  have h₂' := h₁.trans h₂
  have hcalled := hcallee
  cases hcallee with
  | @callable r r' hr =>
      have hcontents := likeCallable hr
      refine .read (a := q₂.left.store.callable r) (b := q₂.right.store.callable r')
        (fun k => rfl) (.of_forall fun m k => rfl) ?_
      have henter := h.enter hcontents (hv.later h₂') (around_mono h₂' henv)
      generalize q₂.left.store.callable r = f at hcontents henter ⊢
      generalize q₂.right.store.callable r' = g at hcontents henter ⊢
      cases hcontents with
      | @native native =>
          unfold Engine.enter at henter
          cases hlazy : native.isLazy with
          | true =>
              simp only [hlazy, if_true] at henter ⊢
              exact henter
          | false =>
              simp only [hlazy, Bool.false_eq_true, if_false] at henter ⊢
              exact henter
      | closure => exact henter
  | _ => exact meets_failOn hcalled .notApplicable

/-- Callables that belong together are applied to data. -/
theorem Runs.applyList (h : T.Runs n) {f g : Value} (hf : p.Like f g) (hv : p.Like v w)
    (henv : p.Around env env') :
    p.Meets Like ((Engine.ofFuel n).applyList f v env)
      fun m => (Engine.ofFuel m).applyList g w env' := by
  unfold Engine.applyList
  refine (h.force hf).bind fun q₁ f g h₁ hf => ?_
  have hcalled := hf
  cases hf with
  | @callable r r' hr =>
      have hcontents := likeCallable hr
      refine .read (a := q₁.left.store.callable r) (b := q₁.right.store.callable r')
        (fun k => rfl) (.of_forall fun m k => rfl) ?_
      generalize q₁.left.store.callable r = f at hcontents ⊢
      generalize q₁.right.store.callable r' = g at hcontents ⊢
      have hv := like_mono h₁ hv
      have henv := around_mono h₁ henv
      cases hcontents with
      | @native native hruns =>
          have hcall : ∀ {q : T.Scene}, q₁ ≤ q → q.Meets Like
              ((Engine.ofFuel n).makeFrame (.native native) v >>= fun frame =>
                native.call (Engine.ofFuel n) frame env)
              fun m => (Engine.ofFuel m).makeFrame (.native native) w >>= fun frame =>
                native.call (Engine.ofFuel m) frame env' := by
            intro q hq
            refine (h.data.makeFrame rfl rfl (like_mono hq hv)).bind
              fun q₂ frame frame' h₂ hframe => ?_
            exact h.call hruns hframe.likeAll (around_mono (hq.trans h₂) henv)
          cases hlazy : native.isLazy with
          | true =>
              simp only [hlazy, Bool.not_true, Bool.false_eq_true, if_false]
              exact hcall le_rfl
          | false =>
              simp only [hlazy, Bool.not_false, if_true]
              exact (h.forceItems tendsto_id hv).bind fun q _ _ hq _ => hcall hq
      | closure hbody hcaptured =>
          refine (h.data.makeFrame rfl rfl hv).bind fun q₂ frame frame' h₂ hframe => ?_
          refine (meets_extend hframe.likeAll (around_mono h₂ hcaptured)).bind
            fun q₃ inner inner' h₃ hinner => ?_
          refine (h.body (hbody.later (h₂.trans h₃)) hinner).bind fun q₄ last last' h₄ hlast => ?_
          exact h.eval hlast (around_mono h₄ hinner)
  | _ => exact meets_failOn hcalled .notApplicable

/-- Promises that belong together are delivered. -/
theorem Runs.deliverTurn (h : T.Runs n) {r r' : Ref .promise}
    (hr : p.Like (.promise r) (.promise r')) :
    p.Meets Like ((Engine.ofFuel n).deliverTurn r)
      fun m => (Engine.ofFuel m).deliverTurn r' := by
  have hread : ∀ {q : T.Scene}, p ≤ q → T.LikePromise q.links q.left q.right
      (q.left.store.promise r) (q.right.store.promise r') := by
    intro q hq
    cases like_mono hq hr with
    | promise hr => exact q.corresponds.contents hr
  unfold Engine.deliverTurn
  refine .read (a := p.left.store.promise r) (b := p.right.store.promise r') (fun k => rfl)
    (.of_forall fun m k => rfl) ?_
  have hpromise := hread le_rfl
  generalize p.left.store.promise r = f at hpromise ⊢
  generalize p.right.store.promise r' = g at hpromise ⊢
  cases hpromise with
  | delivered hv => exact .pure hv
  | pending hform henv =>
      refine (h.eval hform henv).bind fun q₁ v w h₁ hv => ?_
      refine (h.force hv).bind fun q₂ v w h₂ hv => ?_
      refine .read (a := q₂.left.store.promise r) (b := q₂.right.store.promise r') (fun k => rfl)
        (.of_forall fun m k => rfl) ?_
      have hpromise := hread (h₁.trans h₂)
      generalize q₂.left.store.promise r = f at hpromise ⊢
      generalize q₂.right.store.promise r' = g at hpromise ⊢
      cases hpromise with
      | delivered hfirst => exact .pure hfirst
      | pending =>
          refine (meets_settle (like_mono (h₁.trans h₂) hr) hv).bind fun q₃ _ _ h₃ _ => ?_
          exact .pure (like_mono h₃ hv)

/-! ## Forms -/

theorem nears_onFailure {α : Type} {x : Eval α} {a : α} {change : State → Failure → Failure}
    (h : Nears x s (.ok a t)) : Nears (x.onFailure change) s (.ok a t) := by
  filter_upwards [h] with k hk hends
  rw [Eval.onFailure, hk (ends_onFailure hends)]
  rfl

/-- A call of the macro in the first machine alone. -/
theorem Runs.left (h : T.Runs n) {cs : List Code} {c d : Code} (hc : T.expansion cs = some c)
    (htwin : T.Twin c d) (hv : StandsAll (p.left.store.veil (p.links.Left .cell)) cs v)
    (hw : d.Stands (p.right.store.veil (p.links.Right .cell)) w) (henv : p.Around env env') :
    p.Meets Like (evaluate (n + 1) v env) fun m => evaluate m w env' := by
  obtain ⟨_, t, hcomes, form, rfl, ht, hform⟩ :=
    succeeds_expansion p.readyLeft (lt_size_of_left p) hc hv env
  have hbecomes : p.Becomes p.links t p.right := becomes_more ht.wider (.refl p.right)
  rw [Simulation.evaluate_succ]
  refine .aheadLeft (q := p.become hbecomes) (nears_onFailure (.of_comes
    (x := fun n => (Engine.ofFuel n).step v env) (fun hn h => Engine.step_mono hn h) hcomes n))
    rfl (le_become hbecomes) rfl ?_
  exact h.eval ⟨c, d, htwin, hform, hw⟩ henv

end Setting

end SmallLisp
