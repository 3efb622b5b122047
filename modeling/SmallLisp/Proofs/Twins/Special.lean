import SmallLisp.Proofs.Twins.Natives

/-!
# Special forms and calls that go the same way

One turn of evaluation on twin forms, and what is applied or delivered, by what evaluation does with
the fuel at hand.
-/

namespace SmallLisp.Setting

open Eval Code Filter Scene

variable {T : Setting} {n : Nat} {p q : T.Scene} {v w : Value} {env env' : Env} {j : Nat → Nat}

/-- Turns of evaluation that lead to the same: a value, or a form to go on with. -/
inductive StepLike (p : T.Scene) : Step → Step → Prop
  | done {v w : Value} : p.Like v w → StepLike p (.done v) (.done w)
  | next {v w : Value} {env env' : Env} : p.Form v w → p.Around env env' →
      StepLike p (.next v env) (.next w env')

/-- A form that is done gives its value. -/
theorem meets_done {x : Eval Value} {y : Nat → Eval Value} (h : p.Meets Like x y) :
    p.Meets StepLike (x >>= fun v => pure (.done v)) fun m => y m >>= fun v => pure (.done v) :=
  h.bind fun _ _ _ _ hv => .pure (.done hv)

/-! ## Special forms -/

/-- The operand of a form that takes one. -/
theorem meets_operand? (hv : p.Body v w) :
    p.Meets (fun q => Option.Rel q.Form) ((Engine.ofFuel n).operand? v)
      fun m => (Engine.ofFuel m).operand? w := by
  unfold Engine.operand?
  rcases pairs_of_body hv with ⟨r, r', rfl, rfl⟩ | ⟨rfl, rfl⟩
  · refine ((T.walk_code n).tail hv).bind fun q₁ next next' h₁ hnext => ?_
    rcases pairs_of_body hnext with ⟨s, s', rfl, rfl⟩ | ⟨rfl, rfl⟩
    · exact .pure .none
    · exact ((T.walk_code n).head (body_mono h₁ hv)).bind fun _ _ _ _ hform => .pure (.some hform)
  · exact .pure .none

theorem meets_delay (hv : p.Body v w) (henv : p.Around env env') :
    p.Meets StepLike
      ((Engine.ofFuel n).operand? v >>= fun
        | some form => alloc (·.newPromise (.pending form env)) >>= fun v => pure (.done v)
        | none => malformed .badDelay)
      fun m => (Engine.ofFuel m).operand? w >>= fun
        | some form => alloc (·.newPromise (.pending form env')) >>= fun v => pure (.done v)
        | none => malformed .badDelay := by
  refine (meets_operand? hv).bind fun q form form' hq hform => ?_
  cases hform with
  | none => exact meets_malformed _
  | some hform => exact meets_done (meets_newPromise hform (around_mono hq henv))

theorem Runs.evalUnwindProtect (h : T.Runs n) (hv : p.Body v w) (henv : p.Around env env') :
    p.Meets Like ((Engine.ofFuel n).evalUnwindProtect v env)
      fun m => (Engine.ofFuel m).evalUnwindProtect w env' := by
  unfold Engine.evalUnwindProtect
  rcases pairs_of_body hv with ⟨r, r', rfl, rfl⟩ | ⟨rfl, rfl⟩
  · refine ((T.walk_code n).head hv).bind fun q₁ form form' h₁ hform => ?_
    refine (h.eval hform (around_mono h₁ henv)).attempt.bind fun q₂ result result' h₂ hresult => ?_
    have h₂' := h₁.trans h₂
    refine ((T.walk_code n).tail (body_mono h₂' hv)).bind fun q₃ forms forms' h₃ hforms => ?_
    refine (h.sequence hforms (around_mono (h₂'.trans h₃) henv)).bind fun q₄ _ _ h₄ _ => ?_
    refine .ofExcept ?_
    have h₄' := h₃.trans h₄
    cases hresult with
    | ok hvw => exact .ok (like_mono h₄' hvw)
    | error hf => exact .error (hf.mono h₄'.links)
  · exact meets_malformed _

/-- What a `catch` does about failures that are alike. -/
theorem meets_caught {f g : Failure} {tag tag' : Value} (hf : p.links.LikeFailure f g)
    (htag : p.Like tag tag') :
    p.Meets Like (Engine.caught tag f) fun _ => Engine.caught tag' g := by
  have hrefail : p.Meets Like (refail f) fun _ => refail g := .fail hf
  have hother : p.Meets Like (if tag.isSym Symbol.error then alloc (·.newFailure f) else refail f)
      fun _ => if tag'.isSym Symbol.error then alloc (·.newFailure g) else refail g := by
    rw [htag.isSym_eq]
    split
    · exact meets_newFailure hf
    · exact hrefail
  obtain ⟨c, trace⟩ := f
  obtain ⟨d, trace'⟩ := g
  have hcause : p.links.LikeCause c d := hf
  unfold Engine.caught
  cases hcause with
  | thrown hthrown hv hm =>
      dsimp only
      rw [hthrown.agrees_eq p.corresponds.oneToOne htag]
      split
      · exact .pure hv
      · exact hrefail
  | _ => exact hother

theorem Runs.evalCatch (h : T.Runs n) (hv : p.Body v w) (henv : p.Around env env') :
    p.Meets Like ((Engine.ofFuel n).evalCatch v env)
      fun m => (Engine.ofFuel m).evalCatch w env' := by
  unfold Engine.evalCatch
  rcases pairs_of_body hv with ⟨r, r', rfl, rfl⟩ | ⟨rfl, rfl⟩
  · refine ((T.walk_code n).head hv).bind fun q₁ form form' h₁ hform => ?_
    refine (h.eval hform (around_mono h₁ henv)).bind fun q₂ tag tag' h₂ htag => ?_
    refine (h.force htag).bind fun q₃ tag tag' h₃ htag => ?_
    have h₃' := (h₁.trans h₂).trans h₃
    refine ((T.walk_code n).tail (body_mono h₃' hv)).bind fun q₄ forms forms' h₄ hforms => ?_
    refine (h.sequence hforms (around_mono (h₃'.trans h₄) henv)).attempt.bind
      fun q₅ result result' h₅ hresult => ?_
    cases hresult with
    | ok hvw => exact .pure hvw
    | error hf => exact meets_caught hf (like_mono (h₄.trans h₅) htag)
  · exact meets_malformed _

/-! ## Assignments -/

/-- The values stand for variables, each with a form to assign to it. -/
def Assignments (p : T.Scene) (v w : Value) : Prop :=
  ∃ cs ds, T.Targets cs ∧ T.Targets ds ∧ T.TwinAll cs ds ∧
    StandsAll (p.left.store.veil (p.links.Left .cell)) cs v ∧
    StandsAll (p.right.store.veil (p.links.Right .cell)) ds w

/-- The values stand for the form that is to be assigned, followed by further assignments. -/
def Assigning (p : T.Scene) (v w : Value) : Prop :=
  ∃ c d cs ds, T.Targets cs ∧ T.Targets ds ∧ T.TwinAll (c :: cs) (d :: ds) ∧
    StandsAll (p.left.store.veil (p.links.Left .cell)) (c :: cs) v ∧
    StandsAll (p.right.store.veil (p.links.Right .cell)) (d :: ds) w

/-- What can be assigned to. -/
def Target (T : Setting) (target : Value) : Prop :=
  (∃ x, target = .sym x ∧ T.Assigns x) ∨ ∃ a, target = .address a

theorem Assigning.body (h : Assigning p v w) : p.Body v w := by
  obtain ⟨c, d, cs, ds, -, -, htwin, hcs, hds⟩ := h
  exact ⟨_, _, htwin, hcs, hds⟩

theorem Assigning.mono (h : Assigning p v w) (hq : p ≤ q) : Assigning q v w := by
  obtain ⟨c, d, cs, ds, hc, hd, htwin, hcs, hds⟩ := h
  exact ⟨c, d, cs, ds, hc, hd, htwin, hq.left.standsAll hcs, hq.right.standsAll hds⟩

/-- Words that are twins are the same. -/
theorem Twin.eq_of_words {u u' : Value} (h : T.Twin (.word u) (.word u')) : u' = u := by
  cases h with
  | closing h => cases h
  | _ => rfl

theorem exists_of_targets {c : Code} {cs : List Code} (h : T.Targets (c :: cs)) :
    ∃ target c' cs', c = .word target ∧ cs = c' :: cs' ∧ Target T target ∧ T.Targets cs' := by
  unfold Targets at h
  split at h
  · rename_i heq
    cases heq
  · rename_i x c' cs' heq
    cases heq
    exact ⟨_, c', cs', rfl, rfl, .inl ⟨x, rfl, h.1⟩, h.2⟩
  · rename_i a c' cs' heq
    cases heq
    exact ⟨_, c', cs', rfl, rfl, .inr ⟨a, rfl⟩, h⟩
  · exact h.elim

/-- Assignments begin with the same variable in both machines. -/
theorem Assignments.cases (h : Assignments p v w) : v = .nil ∧ w = .nil ∨
    ∃ r r' target d d', v = .pair r ∧ w = .pair r' ∧ T.Target target ∧
      p.left.store.cell? r = some ⟨target, d⟩ ∧ p.right.store.cell? r' = some ⟨target, d'⟩ ∧
        Assigning p d d' := by
  obtain ⟨cs, ds, hc, hd, htwin, hcs, hds⟩ := h
  cases htwin with
  | nil => exact .inl ⟨hcs, hds⟩
  | cons htwin htwins =>
      obtain ⟨target, c', cs', rfl, rfl, htarget, hc'⟩ := exists_of_targets hc
      obtain ⟨target', d', ds', rfl, rfl, -, hd'⟩ := exists_of_targets hd
      obtain ⟨r, _, b, rfl, hr, rfl, hb⟩ := StandsAll.exists_cell hcs
      obtain ⟨r', _, b', rfl, hr', rfl, hb'⟩ := StandsAll.exists_cell hds
      rw [htwin.eq_of_words] at hr'
      exact .inr ⟨r, r', _, b, b', rfl, rfl, htarget, hr, hr', c', d', cs', ds', hc', hd', htwins,
        hb, hb'⟩

/-- After the form come the further assignments. -/
theorem Assigning.meets_tail {r r' : Ref .cell} (h : Assigning p (.pair r) (.pair r')) :
    p.Meets Assignments ((Engine.ofFuel n).cdrCell r) fun m => (Engine.ofFuel m).cdrCell r' := by
  obtain ⟨c, d, cs, ds, hc, hd, htwin, hcs, hds⟩ := h
  obtain ⟨r, a, b, ⟨⟩, hr, -, hb⟩ := StandsAll.exists_cell hcs
  obtain ⟨r', a', b', ⟨⟩, hr', -, hb'⟩ := StandsAll.exists_cell hds
  cases htwin with
  | cons _ htwins =>
      exact .step le_rfl (.of_forall fun k => cdrCell_of_standsAll _ hr hb k)
        (.of_forall fun m k => cdrCell_of_standsAll _ hr' hb' k) ⟨cs, ds, hc, hd, htwins, hb, hb'⟩

/-- Variables are bound in turn. -/
theorem Runs.setqWithin (h : T.Runs n) (hj : Tendsto j atTop atTop) {i : Nat} {last last' : Value}
    (hv : Assignments p v w) (henv : p.Around env env') (hlast : p.Like last last') :
    p.Meets Like ((Engine.ofFuel n).setqWithin env i v last)
      fun m => (Engine.ofFuel m).setqWithin env' (j m) w last' := by
  induction i generalizing j p v w last last' with
  | zero =>
      rcases hv.cases with ⟨rfl, rfl⟩ | ⟨r, r', -, -, -, rfl, rfl, -⟩
      · simp only [Engine.setqWithin_nil]
        exact .pure hlast
      · exact .exhausted
  | succ i ih =>
      rcases hv.cases with ⟨rfl, rfl⟩ | ⟨r, r', target, d, d', rfl, rfl, htarget, hr, hr', hd⟩
      · simp only [Engine.setqWithin_nil]
        exact .pure hlast
      · refine .fuel (y := fun m i => (Engine.ofFuel m).setqWithin env' i (.pair r') last') hj ?_
        simp only [Engine.setqWithin]
        obtain ⟨cs, ds, -, hcs, hds⟩ := hd.body
        refine .read (fun k => congrArg (Outcome.ok · _) (Store.car_of_cell? hr))
          (.of_forall fun m k => congrArg (Outcome.ok · _) (Store.car_of_cell? hr')) ?_
        refine .read (fun k => cdrCell_of_standsAll _ hr hcs k)
          (.of_forall fun m k => cdrCell_of_standsAll _ hr' hds k) ?_
        obtain ⟨s, s', rfl, rfl⟩ : ∃ s s', d = .pair s ∧ d' = .pair s' := by
          obtain ⟨_, _, _, _, -, -, -, hcs, hds⟩ := hd
          obtain ⟨s, -, -, rfl, -⟩ := hcs
          obtain ⟨s', -, -, rfl, -⟩ := hds
          exact ⟨s, s', rfl, rfl⟩
        refine ((T.walk_code n).head hd.body).bind fun q₁ form form' h₁ hform => ?_
        refine (h.eval hform (around_mono h₁ henv)).bind fun q₂ a b h₂ hab => ?_
        have henv := around_mono (h₁.trans h₂) henv
        refine (meets_bindVariable htarget henv hab).bind fun q₃ _ _ h₃ _ => ?_
        have h₃' := (h₁.trans h₂).trans h₃
        refine (hd.mono h₃').meets_tail.bind fun q₄ next next' h₄ hnext => ?_
        exact ih (tendsto_pred hj) hnext (around_mono (h₃.trans h₄) henv)
          (like_mono (h₃.trans h₄) hab)

/-! ## Conditions -/

/-- The values stand for lists of clauses that go together. -/
def Choices (p : T.Scene) (v w : Value) : Prop :=
  ∃ cs ds, T.TwinClauses cs ds ∧
    StandsAll (p.left.store.veil (p.links.Left .cell)) cs v ∧
    StandsAll (p.right.store.veil (p.links.Right .cell)) ds w

theorem Choices.mono (h : Choices p v w) (hq : p ≤ q) : Choices q v w := by
  obtain ⟨cs, ds, htwin, hcs, hds⟩ := h
  exact ⟨cs, ds, htwin, hq.left.standsAll hcs, hq.right.standsAll hds⟩

/-- A clause is nil in both machines, or a test with a body; further clauses follow. -/
theorem Choices.cases (h : Choices p v w) : v = .nil ∧ w = .nil ∨
    ∃ r r' a d a' d', v = .pair r ∧ w = .pair r' ∧
      p.left.store.cell? r = some ⟨a, d⟩ ∧ p.right.store.cell? r' = some ⟨a', d'⟩ ∧
        (a = .nil ∧ a' = .nil ∨ ∃ s s', a = .pair s ∧ a' = .pair s' ∧ p.Body a a') := by
  obtain ⟨cs, ds, htwin, hcs, hds⟩ := h
  cases htwin with
  | nil => exact .inl ⟨hcs, hds⟩
  | skip htwins =>
      obtain ⟨r, a, d, rfl, hr, rfl, -⟩ := StandsAll.exists_cell hcs
      obtain ⟨r', a', d', rfl, hr', rfl, -⟩ := StandsAll.exists_cell hds
      exact .inr ⟨r, r', _, d, _, d', rfl, rfl, hr, hr', .inl ⟨rfl, rfl⟩⟩
  | cons htwin htwins =>
      obtain ⟨r, a, d, rfl, hr, ha, -⟩ := StandsAll.exists_cell hcs
      obtain ⟨r', a', d', rfl, hr', ha', -⟩ := StandsAll.exists_cell hds
      have hbody : p.Body a a' := ⟨_, _, .cons htwin htwins, ha, ha'⟩
      obtain ⟨s, -, -, rfl, -⟩ := ha
      obtain ⟨s', -, -, rfl, -⟩ := ha'
      exact .inr ⟨r, r', _, d, _, d', rfl, rfl, hr, hr', .inr ⟨s, s', rfl, rfl, hbody⟩⟩

theorem Choices.meets_tail {r r' : Ref .cell} (h : Choices p (.pair r) (.pair r')) :
    p.Meets Choices ((Engine.ofFuel n).cdrCell r) fun m => (Engine.ofFuel m).cdrCell r' := by
  obtain ⟨cs, ds, htwin, hcs, hds⟩ := h
  have hstep : ∀ {c d : Code} {cs ds : List Code}, T.TwinClauses cs ds →
      StandsAll (p.left.store.veil (p.links.Left .cell)) (c :: cs) (.pair r) →
      StandsAll (p.right.store.veil (p.links.Right .cell)) (d :: ds) (.pair r') →
      p.Meets Choices ((Engine.ofFuel n).cdrCell r) fun m => (Engine.ofFuel m).cdrCell r' := by
    intro c d cs ds htwins hcs hds
    obtain ⟨r, a, b, ⟨⟩, hr, -, hb⟩ := StandsAll.exists_cell hcs
    obtain ⟨r', a', b', ⟨⟩, hr', -, hb'⟩ := StandsAll.exists_cell hds
    exact .step le_rfl (.of_forall fun k => cdrCell_of_standsAll _ hr hb k)
      (.of_forall fun m k => cdrCell_of_standsAll _ hr' hb' k) ⟨cs, ds, htwins, hb, hb'⟩
  cases htwin with
  | nil => cases hcs
  | skip htwins => exact hstep htwins hcs hds
  | cons _ _ htwins => exact hstep htwins hcs hds

/-- The clauses are tried in turn. -/
theorem Runs.condWithin (h : T.Runs n) (hj : Tendsto j atTop atTop) {i : Nat}
    (hv : Choices p v w) (henv : p.Around env env') :
    p.Meets StepLike ((Engine.ofFuel n).condWithin env i v)
      fun m => (Engine.ofFuel m).condWithin env' (j m) w := by
  induction i generalizing j p v w with
  | zero =>
      rcases hv.cases with ⟨rfl, rfl⟩ | ⟨r, r', -, -, -, -, rfl, rfl, -⟩
      · simp only [Engine.condWithin_nil]
        exact .pure (.done .nil)
      · exact .exhausted
  | succ i ih =>
      rcases hv.cases with ⟨rfl, rfl⟩ | ⟨r, r', a, d, a', d', rfl, rfl, hr, hr', hclause⟩
      · simp only [Engine.condWithin_nil]
        exact .pure (.done .nil)
      · refine .fuel (y := fun m i => (Engine.ofFuel m).condWithin env' i (.pair r')) hj ?_
        simp only [Engine.condWithin]
        have hskip : ∀ {q : T.Scene}, p ≤ q → q.Meets StepLike
            ((Engine.ofFuel n).cdrCell r >>= (Engine.ofFuel n).condWithin env i)
            fun m => (Engine.ofFuel m).cdrCell r' >>=
              (Engine.ofFuel m).condWithin env' (j m - 1) := by
          intro q hq
          refine (hv.mono hq).meets_tail.bind fun q₁ next next' h₁ hnext => ?_
          exact ih (tendsto_pred hj) hnext (around_mono (hq.trans h₁) henv)
        refine .read (fun k => congrArg (Outcome.ok · _) (Store.car_of_cell? hr))
          (.of_forall fun m k => congrArg (Outcome.ok · _) (Store.car_of_cell? hr')) ?_
        rcases hclause with ⟨rfl, rfl⟩ | ⟨s, s', rfl, rfl, hclause⟩
        · exact hskip le_rfl
        · refine ((T.walk_code n).head hclause).bind fun q₁ form form' h₁ hform => ?_
          refine (h.eval hform (around_mono h₁ henv)).bind fun q₂ test test' h₂ htest => ?_
          refine (h.force htest).bind fun q₃ test test' h₃ htest => ?_
          have h₃' := (h₁.trans h₂).trans h₃
          cases hnil : test.isNil with
          | true =>
              simp only [Value.truthy, htest.isNil_eq, hnil, Bool.not_true, Bool.false_eq_true,
                if_false]
              exact hskip h₃'
          | false =>
              simp only [Value.truthy, htest.isNil_eq, hnil, Bool.not_false, if_true]
              refine ((T.walk_code n).tail (body_mono h₃' hclause)).bind
                fun q₄ forms forms' h₄ hforms => ?_
              rcases pairs_of_body hforms with ⟨u, u', rfl, rfl⟩ | ⟨rfl, rfl⟩
              · have henv := around_mono (h₃'.trans h₄) henv
                refine (h.body hforms henv).bind fun q₅ last last' h₅ hlast => ?_
                exact .pure (.next hlast (around_mono h₅ henv))
              · exact .pure (.done (like_mono h₄ htest))

/-! ## The turn of a special form -/

/-- A form that a keyword heads is a special form, whatever the room. -/
theorem special_of_stands {hidden : Nat → Prop} {s : State} {k : Symbol} {form : Special}
    {cs : List Code} (hk : Special.ofSymbol? k = some form)
    (hv : StandsAll (s.store.veil hidden) (.word (.sym k) :: cs) v) :
    ∃ r args, v = .pair r ∧ StandsAll (s.store.veil hidden) cs args ∧ ∀ (E : Engine) env room,
      E.step v env (s.withRoom room) = E.special form v args env (s.withRoom room) := by
  obtain ⟨r, _, args, rfl, hr, rfl, hargs⟩ := StandsAll.exists_cell hv
  obtain ⟨vs, hchain, -⟩ := chain_of_standsAll hargs
  exact ⟨r, args, rfl, hargs, fun E env room => Engine.step_special_of_list (s := s.withRoom room)
    hk hr ((chain_of_veil hchain).withRoom room)⟩

/-- The turn of a special form whose operands are twins. -/
theorem Runs.special (h : T.Runs n) {k : Symbol} {form : Special} {cs ds : List Code}
    (hk : Special.ofSymbol? k = some form) (hc : T.Operands form cs) (hd : T.Operands form ds)
    (htwin : T.TwinAll cs ds)
    (hcs : StandsAll (p.left.store.veil (p.links.Left .cell)) (.word (.sym k) :: cs) v)
    (hds : StandsAll (p.right.store.veil (p.links.Right .cell)) (.word (.sym k) :: ds) w)
    (henv : p.Around env env') :
    p.Meets StepLike ((Engine.ofFuel n).step v env) fun m => (Engine.ofFuel m).step w env' := by
  obtain ⟨r, args, rfl, hargs, hleft⟩ := special_of_stands hk hcs
  obtain ⟨r', args', rfl, hargs', hright⟩ := special_of_stands hk hds
  have hbody : p.Body args args' := ⟨cs, ds, htwin, hargs, hargs'⟩
  refine .congr ?_ (hleft _ _) (.of_forall fun m => hright _ _)
  cases form with
  | progn =>
      exact (h.body hbody henv).bind fun q _ _ hq hlast =>
        .pure (.next hlast (around_mono hq henv))
  | setq =>
      exact meets_done (h.setqWithin tendsto_id ⟨cs, ds, hc, hd, htwin, hargs, hargs'⟩ henv .nil)
  | catching => exact meets_done (h.evalCatch hbody henv)
  | unwindProtect => exact meets_done (h.evalUnwindProtect hbody henv)
  | delay => exact meets_delay hbody henv
  | _ => exact hc.elim

/-- The turn of a `cond` whose clauses are twins. -/
theorem Runs.cond (h : T.Runs n) {cs ds : List Code} (htwin : T.TwinClauses cs ds)
    (hcs : StandsAll (p.left.store.veil (p.links.Left .cell))
      (.word (.sym Symbol.cond) :: cs) v)
    (hds : StandsAll (p.right.store.veil (p.links.Right .cell))
      (.word (.sym Symbol.cond) :: ds) w)
    (henv : p.Around env env') :
    p.Meets StepLike ((Engine.ofFuel n).step v env) fun m => (Engine.ofFuel m).step w env' := by
  have hcond : Special.ofSymbol? Symbol.cond = some .cond := rfl
  obtain ⟨r, args, rfl, hargs, hleft⟩ := special_of_stands hcond hcs
  obtain ⟨r', args', rfl, hargs', hright⟩ := special_of_stands hcond hds
  refine .congr ?_ (hleft _ _) (.of_forall fun m => hright _ _)
  exact h.condWithin tendsto_id ⟨cs, ds, htwin, hargs, hargs'⟩ henv

end SmallLisp.Setting
