import SmallLisp.Proofs.Computation

/-!
# Evaluation by plain recursion

The evaluator takes turns, so that a loop in tail position does not nest. Here is the evaluator that
one would write without that concern: it calls itself for the last form of a body, for the body of a
chosen clause, for the body of a closure and for the expansion of a macro, and gives the value at
once. It shares with the other what has no tail position: walks along lists, compiling, natives.

A turn followed by whatever it leaves to do is what plain recursion does at once, against any
engine.
-/

namespace SmallLisp

open Eval

namespace Engine

/-- Evaluate the forms of a body through at most `fuel` cells; the value is that of the last. -/
def bodyValueWithin (R : Engine) (env : Env) : Nat → Value → Eval Value
  | 0, .pair _ => halt .exhausted
  | fuel + 1, .pair r => do
      let form ← car r
      let next ← R.cdrCell r
      if next.isNil then R.eval form env
      else
        let _ ← R.eval form env
        R.bodyValueWithin env fuel next
  | _, _ => R.eval .nil env

/-- Evaluate the forms of a body; the value is that of the last. -/
def bodyValue (R : Engine) (forms : Value) (env : Env) : Eval Value :=
  R.bodyValueWithin env R.fuel forms

/-- The value of a `cond` by its clauses, through at most `fuel` cells. -/
def condValueWithin (R : Engine) (env : Env) : Nat → Value → Eval Value
  | 0, .pair _ => halt .exhausted
  | fuel + 1, .pair r => do
      let clause ← car r
      match clause with
      | .nil =>
          let next ← R.cdrCell r
          R.condValueWithin env fuel next
      | .pair c =>
          let form ← car c
          let test ← R.eval form env
          let test ← R.force test
          if test.truthy then
            let forms ← R.cdrCell c
            if forms.isNil then pure test
            else R.bodyValue forms env
          else
            let next ← R.cdrCell r
            R.condValueWithin env fuel next
      | v => malformedOn v .condTest
  | _, _ => pure .nil

/-- The value of a special form. -/
def specialValue (R : Engine) (form : Special) (whole args : Value) (env : Env) :
    Eval Value := do
  match form with
  | .quote =>
      match ← R.operand? args with
      | some v => pure v
      | none => malformed .badQuote
  | .progn => R.bodyValue args env
  | .cond => R.condValueWithin env R.fuel args
  | .setq => R.setqWithin env R.fuel args .nil
  | .lambda => R.compile (.closure env) args
  | .expander => R.evalMacro whole args env
  | .catching => R.evalCatch args env
  | .unwindProtect => R.evalUnwindProtect args env
  | .delay =>
      match ← R.operand? args with
      | some form => alloc (·.newPromise (.pending form env))
      | none => malformed .badDelay

/-- The value of a call, where `head` is still to be evaluated. -/
def callValue (R : Engine) (head args : Value) (env : Env) : Eval Value := do
  let callee ← R.eval head env
  let callee ← R.force callee
  match callee with
  | .callable r =>
      match ← gets (·.store.callable r) with
      | .closure shape body captured =>
          let frame ← R.makeFrame (.closure shape body captured) args
          let frame ← R.evalFrame shape frame env
          let inner ← extend frame captured
          R.bodyValue body inner
      | .expander shape body =>
          let form ← R.expandCall (.expander shape body) body args
          R.eval form env
      | .native n =>
          let frame ← R.makeFrame (.native n) args
          let frame ← if n.isLazy then R.evalFrame n.shape frame env
            else R.forceFrame n.shape frame env
          n.call R frame env
      | .template .. => failOn callee .notApplicable
  | v => failOn v .notApplicable

/-- The value of a form that is a pair. -/
def pairValue (R : Engine) (r : Ref .cell) (env : Env) : Eval Value := do
  let head ← car r
  let args ← R.cdrCell r
  match head with
  | .sym s =>
      if ← isKeyword s then
        match Special.ofSymbol? s with
        | some form => R.specialValue form (.pair r) args env
        | none =>
            let name ← nameOf s
            malformed (.badKeyword name)
      else R.callValue head args env
  | _ => R.callValue head args env

/-- The value of a form. -/
def value (R : Engine) (form : Value) (env : Env) : Eval Value := do
  match form with
  | .sym s =>
      match ← gets (·.global? s) with
      | some v => pure v
      | none =>
          if ← isKeyword s then pure form
          else
            let name ← nameOf s
            fail (.unbound name)
  | .address a =>
      match ← slot? env a with
      | some v => pure v
      | none => failOn form .unbound
  | .pair r => R.pairValue r env
  | .callable r =>
      match ← gets (·.store.callable r) with
      | .template shape body => alloc (·.newCallable (.closure shape body env))
      | _ => pure form
  | v => pure v

end Engine

mutual

/-- Evaluate a form in an environment by plain recursion, with the given fuel. -/
def recurse : Nat → Value → Env → Eval Value
  | 0, _, _ => halt .exhausted
  | fuel + 1, form, env =>
      let R : Engine := ⟨fuel, recurse fuel, recurseApply fuel, recurseDeliver fuel⟩
      (R.value form env).onFailure (Engine.traced form)

/-- Apply a callable to a list of values by plain recursion, with the given fuel. -/
def recurseApply : Nat → Value → Value → Env → Eval Value
  | 0, _, _, _ => halt .exhausted
  | fuel + 1, f, args, env =>
      let R : Engine := ⟨fuel, recurse fuel, recurseApply fuel, recurseDeliver fuel⟩
      R.applyList f args env

/-- Deliver a promise by plain recursion, with the given fuel. -/
def recurseDeliver : Nat → Ref .promise → Eval Value
  | 0, _ => halt .exhausted
  | fuel + 1, r =>
      let R : Engine := ⟨fuel, recurse fuel, recurseApply fuel, recurseDeliver fuel⟩
      R.deliverTurn r

end

/-- The engine that evaluates by plain recursion with the given fuel. -/
def Engine.recursive (fuel : Nat) : Engine :=
  ⟨fuel, recurse fuel, recurseApply fuel, recurseDeliver fuel⟩

/-! ## Turns and values -/

namespace Engine

/-- What is left to do after a turn. -/
def finish (R : Engine) : Step → Eval Value
  | .done v => pure v
  | .next form env => R.eval form env

theorem bodyValueWithin_eq (R : Engine) (env : Env) (n : Nat) (v : Value) :
    R.bodyValueWithin env n v = R.bodyWithin env n v >>= fun last => R.eval last env := by
  induction n generalizing v with
  | zero => cases v <;> rfl
  | succ n ih =>
      cases v with
      | pair r =>
          simp only [bodyValueWithin, bodyWithin, bind_assoc]
          refine bind_congr fun form => bind_congr fun next => ?_
          split
          · rw [pure_bind]
          · rw [bind_assoc]
            exact bind_congr fun _ => ih next
      | _ => rfl

theorem bodyValue_eq (R : Engine) (forms : Value) (env : Env) :
    R.bodyValue forms env = R.body forms env >>= fun last => R.eval last env :=
  R.bodyValueWithin_eq env R.fuel forms

theorem condValueWithin_eq (R : Engine) (env : Env) (n : Nat) (v : Value) :
    R.condValueWithin env n v = R.condWithin env n v >>= R.finish := by
  induction n generalizing v with
  | zero => cases v <;> rfl
  | succ n ih =>
      cases v with
      | pair r =>
          simp only [condValueWithin, condWithin, bind_assoc]
          refine bind_congr fun clause => ?_
          cases clause with
          | nil =>
              simp only [bind_assoc]
              exact bind_congr fun next => ih next
          | pair c =>
              simp only [bind_assoc]
              refine bind_congr fun form => bind_congr fun test => bind_congr fun test => ?_
              split
              · rw [bind_assoc]
                refine bind_congr fun forms => ?_
                split
                · rfl
                · rw [bodyValue_eq, bind_assoc]
                  rfl
              · rw [bind_assoc]
                exact bind_congr fun next => ih next
          | _ => rfl
      | _ => rfl

theorem specialValue_eq (R : Engine) (form : Special) (whole args : Value) (env : Env) :
    R.specialValue form whole args env = R.special form whole args env >>= R.finish := by
  -- A form that is done has its value.
  have hdone : ∀ x : Eval Value, (do let v ← x; pure (Step.done v)) >>= R.finish = x := by
    intro x
    rw [bind_assoc]
    exact bind_pure x
  cases form with
  | quote =>
      simp only [specialValue, special, bind_assoc]
      refine bind_congr fun v? => ?_
      cases v? <;> rfl
  | progn =>
      simp only [specialValue, special, bodyValue_eq, bind_assoc]
      rfl
  | cond => exact R.condValueWithin_eq env R.fuel args
  | setq => exact (hdone _).symm
  | lambda => exact (hdone _).symm
  | expander => exact (hdone _).symm
  | catching => exact (hdone _).symm
  | unwindProtect => exact (hdone _).symm
  | delay =>
      simp only [specialValue, special, bind_assoc]
      refine bind_congr fun v? => ?_
      cases v? <;> rfl

theorem callValue_eq (R : Engine) (head args : Value) (env : Env) :
    R.callValue head args env = R.callStep head args env >>= R.finish := by
  simp only [callValue, callStep, bind_assoc]
  refine bind_congr fun callee => bind_congr fun callee => ?_
  cases callee with
  | callable r =>
      simp only [bind_assoc]
      refine bind_congr fun f => ?_
      cases f with
      | closure shape body captured =>
          simp only [bodyValue_eq, bind_assoc]
          rfl
      | expander shape body =>
          simp only [bind_assoc]
          rfl
      | native n =>
          simp only [bind_assoc]
          refine bind_congr fun frame => ?_
          split <;> rw [bind_assoc] <;> refine bind_congr fun frame => ?_ <;>
            rw [bind_assoc] <;> exact (bind_pure _).symm
      | template shape body => rfl
  | _ => rfl

theorem pairValue_eq (R : Engine) (r : Ref .cell) (env : Env) :
    R.pairValue r env = R.pairStep r env >>= R.finish := by
  simp only [pairValue, pairStep, bind_assoc]
  refine bind_congr fun head => bind_congr fun args => ?_
  cases head with
  | sym x =>
      simp only [bind_assoc]
      refine bind_congr fun b => ?_
      split
      · cases Special.ofSymbol? x with
        | some form => exact R.specialValue_eq form _ args env
        | none => rfl
      · exact R.callValue_eq _ args env
  | _ => exact R.callValue_eq _ args env

/-- A turn followed by what it leaves to do is the value. -/
theorem value_eq (R : Engine) (form : Value) (env : Env) :
    R.value form env = R.step form env >>= R.finish := by
  cases form with
  | sym x =>
      simp only [value, step, bind_assoc]
      refine bind_congr fun v? => ?_
      cases v? with
      | some v => rfl
      | none =>
          simp only [bind_assoc]
          refine bind_congr fun b => ?_
          split <;> rfl
  | address a =>
      simp only [value, step, bind_assoc]
      refine bind_congr fun v? => ?_
      cases v? <;> rfl
  | pair r => exact R.pairValue_eq r env
  | callable r =>
      simp only [value, step, bind_assoc]
      refine bind_congr fun f => ?_
      cases f <;> rfl
  | _ => rfl

end Engine

end SmallLisp
