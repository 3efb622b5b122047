import SmallLisp.Engine.Special
import SmallLisp.Native.System
import SmallLisp.Native.Sequences
import SmallLisp.Native.Atoms

/-!
# The evaluator

`step` is one turn of evaluation against an engine: it gives a value, or the form in tail position
to go on with. `evaluate` takes turns until there is a value, and every turn records its form in a
failure that leaves it. Fuel goes down with every turn and with every nesting; a computation that
ends does so in the same way with any larger fuel.
-/

namespace SmallLisp

open Eval

namespace Native

/-- Run a native on its frame. -/
def run (E : Engine) (n : Native) (args : List Value) (env : Env) : Eval Value :=
  match n with
  | .lists n => n.run E args env
  | .tests n => n.run args
  | .vectors n => n.run E args
  | .streams n => n.run E args
  | .numbers n => n.run E args
  | .control n => n.run E args env
  | .sequences n => n.run E args
  | .system n => n.run E args env

/-- A failure as it leaves a native: a refusal names the call it was part of. -/
def atBoundary (n : Native) (args : List Value) (s : State) (f : Failure) : Failure :=
  match f.cause with
  | .native message =>
      let frame := printAll s.store s.symbols s.config.maxPrintRepeats args
      { cause := .call message (n.signature ++ " " ++ frame) }
  | _ => f

/-- Call a native on its frame. -/
def call (E : Engine) (n : Native) (args : List Value) (env : Env) : Eval Value :=
  (n.run E args env).onFailure (n.atBoundary args)

end Native

namespace Engine

/-- One turn of a call, where `head` is still to be evaluated. -/
def callStep (E : Engine) (head args : Value) (env : Env) : Eval Step := do
  let callee ← E.eval head env
  let callee ← E.force callee
  match callee with
  | .callable r =>
      match ← gets (·.store.callable r) with
      | .closure shape body captured =>
          let frame ← E.makeFrame (.closure shape body captured) args
          let frame ← E.evalFrame shape frame env
          let env ← extend frame captured
          let last ← E.body body env
          pure (.next last env)
      | .expander shape body =>
          let form ← E.expandCall (.expander shape body) body args
          pure (.next form env)
      | .native n =>
          let frame ← E.makeFrame (.native n) args
          let frame ← if n.isLazy then E.evalFrame n.shape frame env
            else E.forceFrame n.shape frame env
          let v ← n.call E frame env
          pure (.done v)
      | .template .. => failOn callee .notApplicable
  | v => failOn v .notApplicable

/-- One turn of a form that is a pair. -/
def pairStep (E : Engine) (r : Ref .cell) (env : Env) : Eval Step := do
  let head ← car r
  let args ← E.cdrCell r
  match head with
  | .sym s =>
      if ← isKeyword s then
        match Special.ofSymbol? s with
        | some form => E.special form (.pair r) args env
        | none =>
            let name ← nameOf s
            malformed (.badKeyword name)
      else E.callStep head args env
  | _ => E.callStep head args env

/-- One turn of evaluation. -/
def step (E : Engine) (form : Value) (env : Env) : Eval Step := do
  match form with
  | .sym s =>
      match ← gets (·.global? s) with
      | some v => pure (.done v)
      | none =>
          if ← isKeyword s then pure (.done form)
          else
            let name ← nameOf s
            fail (.unbound name)
  | .address a =>
      match ← slot? env a with
      | some v => pure (.done v)
      | none => failOn form .unbound
  | .pair r => E.pairStep r env
  | .callable r =>
      match ← gets (·.store.callable r) with
      | .template shape body =>
          let v ← alloc (·.newCallable (.closure shape body env))
          pure (.done v)
      | _ => pure (.done form)
  | v => pure (.done v)

/-- A failure as it leaves the evaluation of a form: the form is added to the trace, while there is
room for it. -/
def traced (form : Value) (s : State) (f : Failure) : Failure :=
  if f.trace.size < s.config.maxTraces then f.pushTrace (textIn s form) s.config.maxTraces else f

/-- Apply a callable to a list of values. -/
def applyList (E : Engine) (f args : Value) (env : Env) : Eval Value := do
  let f ← E.force f
  match f with
  | .callable r =>
      match ← gets (·.store.callable r) with
      | .native n =>
          if !n.isLazy then E.forceEach args
          let frame ← E.makeFrame (.native n) args
          n.call E frame env
      | .closure shape body captured =>
          let frame ← E.makeFrame (.closure shape body captured) args
          let env ← extend frame captured
          let last ← E.body body env
          E.eval last env
      | _ => failOn f .notApplicable
  | v => failOn v .notApplicable

end Engine

mutual

/-- Evaluate a form in an environment with the given fuel. -/
def evaluate : Nat → Value → Env → Eval Value
  | 0, _, _ => halt .exhausted
  | fuel + 1, form, env => do
      let E : Engine := ⟨fuel, evaluate fuel, applyTo fuel, deliverTo fuel⟩
      match ← (E.step form env).onFailure (Engine.traced form) with
      | .done v => pure v
      | .next form env => evaluate fuel form env

/-- Apply a callable to a list of values with the given fuel. -/
def applyTo : Nat → Value → Value → Env → Eval Value
  | 0, _, _, _ => halt .exhausted
  | fuel + 1, f, args, env =>
      let E : Engine := ⟨fuel, evaluate fuel, applyTo fuel, deliverTo fuel⟩
      E.applyList f args env

/-- Deliver a promise with the given fuel. -/
def deliverTo : Nat → Ref .promise → Eval Value
  | 0, _ => halt .exhausted
  | fuel + 1, r =>
      let E : Engine := ⟨fuel, evaluate fuel, applyTo fuel, deliverTo fuel⟩
      E.deliverTurn r

end

/-- The engine of the given fuel. -/
def Engine.ofFuel (fuel : Nat) : Engine :=
  ⟨fuel, evaluate fuel, applyTo fuel, deliverTo fuel⟩

end SmallLisp
