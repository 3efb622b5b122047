import SmallLisp.Proofs.Computation

/-!
# Handlers

A program overwrites what is there in two ways: it calls a native that does so, or it binds a
variable. It makes functions in one way, from a parameter list and a body. Here the evaluator takes
calls of natives, bindings and the reading of parameter lists from handlers. With the plain ones it
is the evaluator. With others it tells whether a computation depends on what they do: one that never
comes to call a native goes the same way whatever a call of that native would do.
-/

namespace SmallLisp

open Eval

/-- What calls natives, what binds variables and what reads parameter lists. -/
structure Handlers where
  call : Engine → Native → List Value → Env → Eval Value
  bind : Value → Value → Env → Eval Unit
  parameters : Engine → Value → Eval Parameters

/-- The handlers of the evaluator. -/
def Handlers.plain : Handlers where
  call E n args env := n.call E args env
  bind := Engine.bindVariable
  parameters := Engine.parameters

namespace Engine

variable (H : Handlers)

/-! ## The evaluator with handlers -/

/-- Bind variables in turn, as `setqWithin` does. -/
def setqWith (E : Engine) (env : Env) : Nat → Value → Value → Eval Value
  | 0, .pair _, _ => halt .exhausted
  | fuel + 1, .pair r, _ => do
      let target ← car r
      match ← E.cdrCell r with
      | .pair rhs =>
          let form ← car rhs
          let v ← E.eval form env
          H.bind target v env
          let next ← E.cdrCell rhs
          E.setqWith env fuel next v
      | _ => malformed .rightValue
  | _, _, last => pure last

mutual

/-- Compile `(parameters form ...)`, as `compileWithin` does. -/
def compileWith (E : Engine) : Nat → CallableKind → Value → Eval Value
  | 0, _, _ => halt .exhausted
  | fuel + 1, kind, .pair r => do
      let head ← car r
      let ps ← H.parameters E head
      let forms ← E.cdrCell r
      let forms ← E.resolve ps E.fuel forms
      let allowed ← gets (·.config.maxMacroExpansions)
      let forms ← E.expandMacros E.fuel allowed forms
      let forms ← E.compileInnerWith fuel forms
      alloc (·.newCallable (kind.make ps.shape forms))
  | _ + 1, _, _ => malformed .parametersAndBody

/-- Make templates of the lambdas in a form, as `compileInner` does. -/
def compileInnerWith (E : Engine) : Nat → Value → Eval Value
  | 0, .pair _ => halt .exhausted
  | fuel + 1, .pair r => do
      let head ← car r
      if head.isSym Symbol.quote then pure (.pair r)
      else if head.isSym Symbol.lambda then
        let rest ← E.cdrCell r
        E.compileWith fuel .template rest
      else if head.isSym Symbol.expander then malformedOn (.pair r) .nestedMacro
      else E.mapList (E.compileInnerWith fuel) (.pair r)
  | _, v => pure v

end

theorem compileInnerWith_word (E : Engine) {n : Nat} {v : Value} (hv : v.isPair = false) :
    E.compileInnerWith H n v = pure v := by
  cases v with
  | pair r => cases hv
  | _ => cases n <;> simp [compileInnerWith]

/-- Define a macro, as `evalMacro` does. -/
def evalMacroWith (E : Engine) (whole args : Value) (env : Env) : Eval Value := do
  if env.isSome then malformedOn whole .nestedMacro
  else
    let args ← E.replaceDummies args
    E.compileWith H E.fuel .expander args

/-- One turn of a special form. Only `setq` binds variables, and only two forms compile. -/
def specialWith (E : Engine) (form : Special) (whole args : Value) (env : Env) : Eval Step :=
  match form with
  | .setq => do
      let v ← E.setqWith H env E.fuel args .nil
      pure (.done v)
  | .lambda => do
      let v ← E.compileWith H E.fuel (.closure env) args
      pure (.done v)
  | .expander => do
      let v ← E.evalMacroWith H whole args env
      pure (.done v)
  | form => E.special form whole args env

/-- One turn of a call, as `callStep` takes it. -/
def callStepWith (E : Engine) (head args : Value) (env : Env) : Eval Step := do
  let callee ← E.eval head env
  let callee ← E.force callee
  match callee with
  | .callable r =>
      match ← gets (·.store.callable r) with
      | .closure shape body captured =>
          let frame ← E.makeFrame (.closure shape body captured) args
          let frame ← E.evalFrame shape frame env
          let env ← extend frame captured
          let last ← E.body body env
          pure (.next last env)
      | .expander shape body =>
          let form ← E.expandCall (.expander shape body) body args
          pure (.next form env)
      | .native n =>
          let frame ← E.makeFrame (.native n) args
          let frame ← if n.isLazy then E.evalFrame n.shape frame env
            else E.forceFrame n.shape frame env
          let v ← H.call E n frame env
          pure (.done v)
      | .template .. => failOn callee .notApplicable
  | v => failOn v .notApplicable

/-- One turn of a form that is a pair, as `pairStep` takes it. -/
def pairStepWith (E : Engine) (r : Ref .cell) (env : Env) : Eval Step := do
  let head ← car r
  let args ← E.cdrCell r
  match head with
  | .sym s =>
      if ← isKeyword s then
        match Special.ofSymbol? s with
        | some form => E.specialWith H form (.pair r) args env
        | none =>
            let name ← nameOf s
            malformed (.badKeyword name)
      else E.callStepWith H head args env
  | _ => E.callStepWith H head args env

/-- One turn of evaluation. -/
def stepWith (E : Engine) (form : Value) (env : Env) : Eval Step :=
  match form with
  | .pair r => E.pairStepWith H r env
  | form => E.step form env

/-- Apply a callable to a list of values, as `applyList` does. -/
def applyListWith (E : Engine) (f args : Value) (env : Env) : Eval Value := do
  let f ← E.force f
  match f with
  | .callable r =>
      match ← gets (·.store.callable r) with
      | .native n =>
          if !n.isLazy then E.forceEach args
          let frame ← E.makeFrame (.native n) args
          H.call E n frame env
      | .closure shape body captured =>
          let frame ← E.makeFrame (.closure shape body captured) args
          let env ← extend frame captured
          let last ← E.body body env
          E.eval last env
      | _ => failOn f .notApplicable
  | v => failOn v .notApplicable

/-- The engine of the given fuel that uses the handlers at every depth. -/
def handled : Nat → Engine
  | 0 => ⟨0, fun _ _ => halt .exhausted, fun _ _ _ => halt .exhausted, fun _ => halt .exhausted⟩
  | fuel + 1 =>
      let E := handled fuel
      { fuel := fuel + 1
        eval := fun form env => do
          match ← (E.stepWith H form env).onFailure (traced form) with
          | .done v => pure v
          | .next form env => E.eval form env
        apply := fun f args env => E.applyListWith H f args env
        deliver := fun r => E.deliverTurn r }

@[simp] theorem fuel_handled (n : Nat) : (handled H n).fuel = n := by
  cases n <;> rfl

/-! ## Plain handlers -/

theorem setqWith_plain (E : Engine) (env : Env) (fuel : Nat) (v last : Value) :
    E.setqWith .plain env fuel v last = E.setqWithin env fuel v last := by
  induction fuel generalizing v last with
  | zero => cases v <;> rfl
  | succ fuel ih =>
      cases v with
      | pair r =>
          simp only [setqWith, setqWithin, ih]
          rfl
      | _ => rfl

theorem compileWith_plain (E : Engine) (fuel : Nat) :
    E.compileWith .plain fuel = E.compileWithin fuel ∧
      E.compileInnerWith .plain fuel = E.compileInner fuel := by
  induction fuel with
  | zero =>
      refine ⟨?_, funext fun v => ?_⟩
      · funext kind v
        rw [compileWith, compileWithin]
      · cases v <;> simp only [compileInnerWith, compileInner]
  | succ fuel ih =>
      obtain ⟨ihw, ihi⟩ := ih
      refine ⟨?_, funext fun v => ?_⟩
      · funext kind v
        cases v with
        | pair r =>
            rw [compileWith, compileWithin, ihi]
            rfl
        | _ => simp only [compileWith, compileWithin]
      · cases v with
        | pair r => rw [compileInnerWith, compileInner, ihw, ihi]
        | _ => simp only [compileInnerWith, compileInner]

theorem specialWith_plain (E : Engine) (form : Special) (whole args : Value) (env : Env) :
    E.specialWith .plain form whole args env = E.special form whole args env := by
  cases form with
  | setq => simp only [specialWith, special, setqWith_plain]
  | lambda => simp only [specialWith, special, compile, (compileWith_plain E E.fuel).1]
  | expander =>
      simp only [specialWith, special, evalMacroWith, evalMacro, compile,
        (compileWith_plain E E.fuel).1]
  | _ => rfl

theorem pairStepWith_plain (E : Engine) (r : Ref .cell) (env : Env) :
    E.pairStepWith .plain r env = E.pairStep r env := by
  simp only [pairStepWith, pairStep, specialWith_plain]
  rfl

theorem stepWith_plain (E : Engine) (form : Value) (env : Env) :
    E.stepWith .plain form env = E.step form env := by
  cases form with
  | pair r => exact pairStepWith_plain E r env
  | _ => rfl

theorem applyListWith_plain (E : Engine) (f args : Value) (env : Env) :
    E.applyListWith .plain f args env = E.applyList f args env := rfl

/-- With the plain handlers the evaluator is what it is. -/
theorem handled_plain (n : Nat) : handled .plain n = ofFuel n := by
  induction n with
  | zero =>
      have heval : evaluate 0 = fun _ _ => halt .exhausted := by
        funext form env
        rw [evaluate]
      have happly : applyTo 0 = fun _ _ _ => halt .exhausted := by
        funext f args env
        rw [applyTo]
      have hdeliver : deliverTo 0 = fun _ => halt .exhausted := by
        funext r
        rw [deliverTo]
      rw [ofFuel, handled, heval, happly, hdeliver]
  | succ n ih =>
      have heval : (handled .plain (n + 1)).eval = evaluate (n + 1) := by
        funext form env
        simp only [handled, evaluate, ih, stepWith_plain]
        rfl
      have happly : (handled .plain (n + 1)).apply = applyTo (n + 1) := by
        funext f args env
        simp only [handled, applyTo, ih, applyListWith_plain]
        rfl
      have hdeliver : (handled .plain (n + 1)).deliver = deliverTo (n + 1) := by
        funext r
        simp only [handled, deliverTo, ih]
        rfl
      rw [ofFuel, ← heval, ← happly, ← hdeliver]
      rfl

end Engine

end SmallLisp
