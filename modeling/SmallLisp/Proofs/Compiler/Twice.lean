import SmallLisp.Proofs.Compiler.Alike
import SmallLisp.Proofs.Compiler.Scanning

/-!
# The same text compiled twice

Each pass of the compiler makes text that is alike of text that is alike, if the macros on the way
do. Parameter lists that are alike have the same parameters.
-/

namespace SmallLisp

open Eval Scope

namespace Engine

variable {K : History} {E : Engine} {s₀ s t : State} {v w : Value}

/-! ## Parameters -/

/-- A form that quotes is no parameter list. -/
theorem parameters_of_quote {r : Ref .cell} (hr : s.store.car r = .sym Symbol.quote)
    (ps : Parameters) (s' : State) : E.parameters (.pair r) s ≠ .ok ps s' := by
  intro h
  change E.parametersWithin E.fuel (.pair r) {} s = .ok ps s' at h
  cases hn : E.fuel with
  | zero => simp [hn, parametersWithin] at h
  | succ n =>
      rw [hn, parametersWithin, bind_of_ok (car_apply r s), hr, bind_eq_ok] at h
      obtain ⟨next, s₁, -, h⟩ := h
      have hrest : (Value.sym Symbol.quote).isSym Symbol.rest = false := rfl
      simp only [hrest, Bool.false_eq_true, if_false, bind_eq_ok] at h
      obtain ⟨⟨p, x⟩, s₂, hp, -⟩ := h
      obtain ⟨-, hlisted, hkey⟩ := parameterOf_eq_ok hrest hp
      cases hlisted
      cases (s₁.symbols.isKeyword_of_special (by decide)).symm.trans (hkey _ rfl)

/-- A parameter list that is read is a proper list. -/
theorem alikeLists_of_parameters {ps : Parameters} {s' : State}
    (h : s₀.Alike s.store t.store v w) (hps : E.parameters v s = .ok ps s') :
    s₀.AlikeLists s.store t.store v w := by
  have refused : ∀ v : Value, (v.isNil || v.isPair) = false → E.parameters v s ≠ .ok ps s' := by
    intro v hv
    simp [parameters, hv, malformedOn, failOn_apply]
  cases h with
  | @word v hv _ =>
      cases v with
      | nil => exact ⟨[], [], rfl, rfl, .nil⟩
      | pair r => cases hv
      | _ => exact absurd hps (refused _ rfl)
  | address x => exact absurd hps (refused _ rfl)
  | quoted hp _ _ => exact absurd hps (parameters_of_quote (Store.car_of_cell? hp) ps s')
  | list hv hw hlen hzip =>
      exact ⟨_, _, hv, hw, List.forall₂_iff_zip.2 ⟨hlen, fun he => hzip _ he⟩⟩
  | template _ _ _ => exact absurd hps (refused _ rfl)

theorem dummySymbol_of_carries (h : s.Carries t) {r : Ref .dummy}
    (hr : s.bounds.Holds (.dummy r)) : t.store.dummySymbol r = s.store.dummySymbol r := by
  have hlt : r.index < s.store.dummies.size := Bounds.holds_of_ref rfl |>.1 hr
  have hs : s.store.dummies[r.index]? = some s.store.dummies[r.index] :=
    Array.getElem?_eq_getElem hlt
  simp [Store.dummySymbol, Array.getD_eq_getD_getElem?, h.dummies _ _ hs, hs]

theorem listed?_of_alike (hs : K.leads s₀ s) (ht : K.leads s₀ t)
    (h : s₀.Alike s.store t.store v w) :
    Parameters.listed? s.store.dummySymbol v = Parameters.listed? t.store.dummySymbol w := by
  cases h with
  | @word v _ hv =>
      cases v with
      | dummy r =>
          simp only [Parameters.listed?, dummySymbol_of_carries (K.carries hs) hv,
            dummySymbol_of_carries (K.carries ht) hv]
      | _ => rfl
  | list hv hw hlen _ =>
      obtain ⟨rfl, rfl⟩ | ⟨p, q, rfl, rfl⟩ := hv.nils_or_pairs hw hlen <;> rfl
  | _ => rfl

/-- Parameter lists that are alike have the same parameters. -/
theorem ofFormals_of_alike (hs : K.leads s₀ s) (ht : K.leads s₀ t) {xs ys : List Value}
    (h : List.Forall₂ (s₀.Alike s.store t.store) xs ys) :
    Parameters.ofFormals s.store.dummySymbol xs = Parameters.ofFormals t.store.dummySymbol ys := by
  have hlisted : xs.filterMap (Parameters.listed? s.store.dummySymbol) =
      ys.filterMap (Parameters.listed? t.store.dummySymbol) := by
    induction h with
    | nil => rfl
    | cons hxy _ ih => simp only [List.filterMap_cons, listed?_of_alike hs ht hxy, ih]
  have hrest : hasRest xs = hasRest ys := by
    clear hlisted
    unfold hasRest
    induction h with
    | nil => rfl
    | cons hxy _ ih => simp only [List.any_cons, hxy.isSym, ih]
  simp only [Parameters.ofFormals, hlisted, hrest]

theorem parameters_parallel (hs : K.leads s₀ s) (ht : K.leads s₀ t)
    (h : s₀.Alike s.store t.store v w) :
    K.Parallel s t (E.parameters v) (E.parameters w) fun s' t' ps qs =>
      s' = s ∧ t' = t ∧ ps = qs := by
  intro ps qs s' t' hps hqs
  obtain ⟨xs, ys, hv, hw, hall⟩ := alikeLists_of_parameters h hps
  obtain ⟨rfl, rfl, -⟩ := E.parameters_eq_ok hv hps
  obtain ⟨rfl, rfl, -⟩ := E.parameters_eq_ok hw hqs
  exact ⟨K.refl _, K.refl _, rfl, rfl, ofFormals_of_alike hs ht hall⟩

/-! ## Passes side by side -/

/-- The cells of two lists that are alike, not empty, and do not quote. -/
theorem alikeLists_pair {p q : Ref .cell} {x y d e : Value}
    (hp : s.store.cell? p = some ⟨x, d⟩) (hq : t.store.cell? q = some ⟨y, e⟩)
    (hxy : s₀.Alike s.store t.store x y) (h : s₀.AlikeLists s.store t.store d e) :
    s₀.AlikeLists s.store t.store (.pair p) (.pair q) := by
  obtain ⟨xs, ys, hd, he, hall⟩ := h
  exact ⟨x :: xs, y :: ys, ⟨p, d, rfl, hp, hd⟩, ⟨q, e, rfl, hq, he⟩, .cons hxy hall⟩

theorem resolve_respects (E : Engine) (ps : Parameters) (n : Nat) :
    K.Respects s₀ (E.resolve ps n) := by
  induction n with
  | zero =>
      intro v w s t _ _ h
      obtain ⟨hv, hw⟩ | ⟨p, q, rfl, rfl, -⟩ := h.cases
      · rw [E.resolve_word ps 0 hv, E.resolve_word ps 0 hw]
        exact .pure (h.scan ps hv)
      · exact .of_not_ok (by simp [resolve])
  | succ n ih =>
      intro v w s t hs ht h
      obtain ⟨hv, hw⟩ | ⟨p, q, rfl, rfl, hcases⟩ := h.cases
      · rw [E.resolve_word ps _ hv, E.resolve_word ps _ hw]
        exact .pure (h.scan ps hv)
      rw [resolve, resolve]
      refine .bind_of_ok (car_apply p s) (car_apply q t) ?_
      obtain ⟨hp, hq⟩ | ⟨x, y, d, e, hp, hq, hx, hxy, hde⟩ := hcases
      · rw [hp, hq]
        exact .pure h
      · rw [Store.car_of_cell? hp, Store.car_of_cell? hq, ← hxy.isSym, hx]
        exact (K.mapList_parallel E ih hs ht (alikeLists_pair hp hq hxy hde)).mono
          fun _ _ _ _ _ _ h => h.alike

/-- The expansions of the macros of a state depend on nothing but their arguments: later on they
give text that is alike for arguments that are alike, and keep what is to be kept. -/
def SteadyMacros (K : History) (E : Engine) (s₀ : State) : Prop :=
  ∀ head f body, s₀.expander? head = some (f, body) → ∀ args args' s t,
    K.leads s₀ s → K.leads s₀ t → s₀.AlikeLists s.store t.store args args' →
    K.Parallel s t (E.expandCall f body args) (E.expandCall f body args')
      fun s t => s₀.Alike s.store t.store

theorem expander?_of_holds (hs : s₀.Carries s) (hv : s₀.bounds.Holds v) :
    s.expander? v = s₀.expander? v := by
  cases v with
  | sym x => exact hs.expander x
  | callable r =>
      have hlt : r.index < s₀.store.callables.size := Bounds.holds_of_ref rfl |>.1 hv
      have hr : s₀.store.callables[r.index]? = some s₀.store.callables[r.index] :=
        Array.getElem?_eq_getElem hlt
      simp [State.expander?, Store.callable, Array.getD_eq_getD_getElem?, hs.callables _ _ hr, hr]
  | _ => rfl

/-- What stands at the head of forms that are alike denotes the same macro as before, or none. -/
theorem expander?_of_alike (hs : s₀.Carries s) (ht : s₀.Carries t)
    (h : s₀.Alike s.store t.store v w) :
    (s.expander? v = none ∧ t.expander? w = none) ∨
    ∃ f body, s₀.expander? v = some (f, body) ∧ s.expander? v = some (f, body) ∧
      t.expander? w = some (f, body) := by
  cases h with
  | word hv hholds =>
      rw [expander?_of_holds hs hholds, expander?_of_holds ht hholds]
      cases hx : s₀.expander? v with
      | none => exact .inl ⟨rfl, rfl⟩
      | some x => exact .inr ⟨x.1, x.2, rfl, rfl, rfl⟩
  | list hv hw hlen _ =>
      obtain ⟨rfl, rfl⟩ | ⟨p, q, rfl, rfl⟩ := hv.nils_or_pairs hw hlen <;> exact .inl ⟨rfl, rfl⟩
  | template hi hj _ =>
      refine .inl ⟨?_, ?_⟩
      · simp [State.expander?, Store.callable, Array.getD_eq_getD_getElem?, hi,
          Callable.expander?]
      · simp [State.expander?, Store.callable, Array.getD_eq_getD_getElem?, hj,
          Callable.expander?]
  | _ => exact .inl ⟨rfl, rfl⟩

theorem expandMacros_respects (hE : SteadyMacros K E s₀) (n allowed : Nat) :
    K.Respects s₀ (E.expandMacros n allowed) := by
  induction n generalizing allowed with
  | zero =>
      intro v w s t _ _ h
      obtain ⟨hv, hw⟩ | ⟨p, q, rfl, rfl, -⟩ := h.cases
      · rw [E.expandMacros_word hv, E.expandMacros_word hw]
        exact .pure h
      · exact .of_not_ok (by simp [expandMacros])
  | succ n ih =>
      intro v w s t hs ht h
      obtain ⟨hv, hw⟩ | ⟨p, q, rfl, rfl, hcases⟩ := h.cases
      · rw [E.expandMacros_word hv, E.expandMacros_word hw]
        exact .pure h
      rw [expandMacros, expandMacros]
      refine .bind_of_ok (car_apply p s) (car_apply q t) ?_
      obtain ⟨hp, hq⟩ | ⟨x, y, d, e, hp, hq, hx, hxy, hde⟩ := hcases
      · rw [hp, hq]
        exact .pure h
      rw [Store.car_of_cell? hp, Store.car_of_cell? hq, ← hxy.isLeftAlone]
      cases isLeftAlone x with
      | true => exact .pure h
      | false =>
          refine .bind_of_ok (expander?_apply x s) (expander?_apply y t) ?_
          obtain ⟨hnone, hnone'⟩ | ⟨f, body, h₀, hsome, hsome'⟩ :=
            expander?_of_alike (K.carries hs) (K.carries ht) hxy
          · rw [hnone, hnone']
            exact (K.mapList_parallel E (ih _) hs ht (alikeLists_pair hp hq hxy hde)).mono
              fun _ _ _ _ _ _ h => h.alike
          · rw [hsome, hsome']
            cases allowed with
            | zero => exact .of_not_ok (by simp [malformedOn, failOn_apply])
            | succ allowed =>
                obtain ⟨xs, ys, hd, he, hall⟩ := hde
                refine .bind_of_ok (E.cdrCell_of_list hp hd) (E.cdrCell_of_list hq he) ?_
                refine .bind (hE x f body h₀ d e s t hs ht ⟨xs, ys, hd, he, hall⟩) ?_
                intro a b s' t' hs' ht' hab
                exact ih allowed (K.trans hs hs') (K.trans ht ht') hab

/-- Nested lambdas that are alike are compiled to templates that are alike. -/
def RespectsLambdas (K : History) (E : Engine) (s₀ : State) (n : Nat) : Prop :=
  ∀ {v w : Value} {s t : State}, K.leads s₀ s → K.leads s₀ t →
    s₀.AlikeLists s.store t.store v w →
    K.Parallel s t (E.compileWithin n .template v) (E.compileWithin n .template w)
      fun s t => s₀.Alike s.store t.store

theorem compileWithin_respects (hE : SteadyMacros K E s₀) {n : Nat}
    (ih : K.Respects s₀ (E.compileInner n)) : RespectsLambdas K E s₀ (n + 1) := by
  rintro v w s t hs ht ⟨xs, ys, hv, hw, hall⟩
  cases hall with
  | nil =>
      cases hv
      exact .of_not_ok (by simp [compileWithin, malformed])
  | @cons x y xs ys hxy hall =>
      obtain ⟨p, d, rfl, hp, hd⟩ := hv
      obtain ⟨q, e, rfl, hq, he⟩ := hw
      rw [compileWithin, compileWithin]
      refine .bind_of_ok (car_apply p s) (car_apply q t) ?_
      rw [Store.car_of_cell? hp, Store.car_of_cell? hq]
      refine .bind (parameters_parallel hs ht hxy) ?_
      rintro ps _ _ _ - - ⟨rfl, rfl, rfl⟩
      refine .bind_of_ok (E.cdrCell_of_list hp hd) (E.cdrCell_of_list hq he) ?_
      have hde : s₀.AlikeLists _ _ d e := ⟨xs, ys, hd, he, hall⟩
      refine .bind (E.resolve_respects ps _ hs ht hde.alike) ?_
      intro a b s₁ t₁ hs₁ ht₁ hab
      have hs := K.trans hs hs₁
      have ht := K.trans ht ht₁
      refine .bind_of_ok (gets_apply _ s₁) (gets_apply _ t₁) ?_
      rw [(K.carries hs).depth, (K.carries ht).depth]
      refine .bind (expandMacros_respects hE _ _ hs ht hab) ?_
      intro a b s₂ t₂ hs₂ ht₂ hab
      refine .bind (ih (K.trans hs hs₂) (K.trans ht ht₂) hab) ?_
      rintro a b s₃ t₃ - - hab _ _ _ _ ⟨⟩ ⟨⟩
      have hs₄ := K.template s₃ ps.shape a
      have ht₄ := K.template t₃ ps.shape b
      have hlast : ∀ (st : Store) (v : Value),
          (st.newCallable (.template ps.shape v)).2.callables[st.callables.size]? =
            some (.template ps.shape v) := fun st v => by simp [Store.newCallable]
      exact ⟨hs₄, ht₄, .template (hlast s₃.store a) (hlast t₃.store b)
        (K.alike_later hs₄ ht₄ hab)⟩

theorem compileInner_respects_succ {n : Nat} (ih : K.Respects s₀ (E.compileInner n))
    (ihw : RespectsLambdas K E s₀ n) : K.Respects s₀ (E.compileInner (n + 1)) := by
  intro v w s t hs ht h
  obtain ⟨hv, hw⟩ | ⟨p, q, rfl, rfl, hcases⟩ := h.cases
  · rw [E.compileInner_word hv, E.compileInner_word hw]
    exact .pure h
  rw [compileInner, compileInner]
  refine .bind_of_ok (car_apply p s) (car_apply q t) ?_
  obtain ⟨hp, hq⟩ | ⟨x, y, d, e, hp, hq, hx, hxy, hde⟩ := hcases
  · rw [hp, hq]
    exact .pure h
  rw [Store.car_of_cell? hp, Store.car_of_cell? hq, ← hxy.isSym, ← hxy.isSym, ← hxy.isSym, hx]
  cases x.isSym Symbol.lambda with
  | true =>
      obtain ⟨xs, ys, hd, he, hall⟩ := hde
      refine .bind_of_ok (E.cdrCell_of_list hp hd) (E.cdrCell_of_list hq he) ?_
      exact ihw hs ht ⟨xs, ys, hd, he, hall⟩
  | false =>
      cases x.isSym Symbol.expander with
      | true => exact .of_not_ok (by simp [malformedOn, failOn_apply])
      | false =>
          exact (K.mapList_parallel E ih hs ht (alikeLists_pair hp hq hxy hde)).mono
            fun _ _ _ _ _ _ h => h.alike

theorem compileInner_and_compileWithin_respect (hE : SteadyMacros K E s₀) (n : Nat) :
    K.Respects s₀ (E.compileInner n) ∧ RespectsLambdas K E s₀ n := by
  induction n with
  | zero =>
      refine ⟨fun {v w s t} hs ht h => ?_, fun _ _ _ => .of_not_ok (by simp [compileWithin])⟩
      obtain ⟨hv, hw⟩ | ⟨p, q, rfl, rfl, -⟩ := h.cases
      · rw [E.compileInner_word hv, E.compileInner_word hw]
        exact .pure h
      · exact .of_not_ok (by simp [compileInner])
  | succ n ih => exact ⟨compileInner_respects_succ ih.1 ih.2, compileWithin_respects hE ih.1⟩

end Engine

end SmallLisp
