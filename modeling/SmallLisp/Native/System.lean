import SmallLisp.Native.Atoms
import SmallLisp.Script

/-!
# Natives on the machine

The natives that go on with evaluation, that read and write, and that are about the interpreter
itself.
-/

/-!
## Natives that evaluate, apply and throw
-/

namespace SmallLisp.ControlNative

open Eval Native

/-- Throw a value to the catch with this tag. The value is thrown as it is, be it a promise. -/
def throwTo (tag v : Value) : Eval Value := do
  let tagText ← textOf tag
  let text ← textOf v
  fail (.thrown tag v ("(" ++ tagText ++ " " ++ text ++ ")"))

/-- Run one of these natives. What is evaluated is evaluated at top level; what is forced has been
forced as an argument already. -/
def run (E : Engine) (n : ControlNative) (args : List Value) (env : Env) : Eval Value := do
  match n, args with
  | .eval, [form] => E.eval form none
  | .apply, [f, vs] => E.apply f vs env
  | .force, [v] => pure v
  | .throwing, [tag, v] => do
      let tag ← E.force tag
      throwTo tag v
  | n, _ => mismatch n.spec

end SmallLisp.ControlNative

/-!
## Natives that read and write
-/

namespace SmallLisp.StreamNative

open Eval Native

/-- Run one of these natives. -/
def run (E : Engine) (n : StreamNative) (args : List Value) : Eval Value := do
  match n, args with
  | .prin1, [v] => do
      let text ← textOf v
      write text
      pure v
  | .princ, [v] => do
      let text ← rawTextOf v
      write text
      pure v
  | .terpri, [] => do
      write "\n"
      pure (.sym Symbol.t)
  | .read, [] => readInput
  | .load, [v] => do
      let path ← textArg v
      match ← Script.openFile path with
      | .ok source => Script.run E source
      | .error message => refuse (.file message)
  | n, _ => mismatch n.spec

end SmallLisp.StreamNative

/-!
## Natives on the interpreter itself
-/

namespace SmallLisp.SystemNative

open Eval Native

/-- A new vector for each of the arrays, in order; those so far come last first. -/
def vectorsOf : List (Array Value) → List Value → Eval (List Value)
  | [], reversed => pure reversed.reverse
  | a :: as, reversed => do
      let v ← alloc (·.newVector a)
      vectorsOf as (v :: reversed)

/-- The symbols that are bound globally, and the frames of an environment. -/
def dumpFrames (env : Env) : Eval Value := do
  let names ← gets fun s => s.bindings.map fun b => Value.sym b.1
  let names ← alloc (·.newVector names.toArray)
  let frames ← gets fun s => s.frames.contents env
  let frames ← vectorsOf frames []
  let frames ← list frames
  list [names, frames]

/-- The documentation of a value that is a native. -/
def docOf? (store : Store) : Value → Option String
  | .callable r =>
      match store.callable r with
      | .native n => some n.spec.doc
      | _ => none
  | _ => none

/-- The code of a process that is left with an integer: its low eight bits. -/
def exitCode (n : Int64) : Nat := (n.toInt % 256).toNat

/-- Run one of these natives. -/
def run (E : Engine) (n : SystemNative) (args : List Value) (env : Env) : Eval Value := do
  match n, args with
  | .dump, [] => dumpFrames env
  | .help, [v] => do
      match ← gets fun s => docOf? s.store v with
      | some doc =>
          write (doc ++ "\n")
          pure v
      | none => pure v
  | .exit, [vs] => do
      match ← E.items vs with
      | [] => halt (.exited 0)
      | .int n :: _ => halt (.exited (exitCode n))
      | v :: _ => refuseOn v .exitCode
  | n, _ => mismatch n.spec

end SmallLisp.SystemNative
