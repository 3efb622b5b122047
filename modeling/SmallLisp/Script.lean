import SmallLisp.Engine

/-!
# Scripts

A script is a source whose forms are read and evaluated one after the other. Without a receiver the
first failure ends the run. With one, every value and every failure is handed to it in order and
reading goes on; only a failure of input or output still ends the run. The source is closed once, at
the end.
-/

namespace SmallLisp

open Eval

/-- What a script is read from: a source of its own, or the console that programs read from too. In
either case the script has a reader of its own. -/
inductive Feed where
  | own (reader : Reader) (source : LineSource)
  | console (reader : Reader)

/-- Read a form from a source, with the store and the symbols of the machine. -/
def readFrom (reader : Reader) (source : LineSource) :
    Eval (Except Cause Value × Reader × LineSource) := fun s =>
  let store := s.store
  let symbols := s.symbols
  let s := { s with store := { capacity := 0 }, symbols := .new }
  let r := reader.read source store symbols
  let (s, source) := State.note { s with store := r.store, symbols := r.symbols } r.source
  .ok (r.result, r.reader, source) s

/-- Read a form from the console. -/
def readConsole (reader : Reader) : Eval (Except Cause Value × Reader) := do
  let source ← gets (·.console)
  let (result, reader, source) ← readFrom reader source
  modify fun s => { s with console := source }
  pure (result, reader)

/-- Read the next form that a program asks for. -/
def readInput : Eval Value := do
  let reader ← gets (·.reader)
  let (result, reader) ← readConsole reader
  modify fun s => { s with reader }
  match result with
  | .ok v => pure v
  | .error cause => fail cause

namespace Feed

/-- Read the next form of a script. -/
def read : Feed → Eval (Except Cause Value × Feed)
  | .own reader source => do
      let (result, reader, source) ← readFrom reader source
      pure (result, .own reader source)
  | .console reader => do
      let (result, reader) ← readConsole reader
      pure (result, .console reader)

/-- Close the source of a script; how that failed, if it did. -/
def close : Feed → Eval (Option SourceFault)
  | .own _ source => fun s =>
      let (fault, source) := source.close
      let (s, _) := s.note source
      .ok fault s
  | .console _ => fun s =>
      let (fault, source) := s.console.close
      let (s, source) := s.note source
      .ok fault { s with console := source }

end Feed

/-- What is handed the outcome of each form of a script, and keeps a record `σ` of them. -/
structure Receiver (σ : Type) where
  receive : σ → Except Failure Value → Eval σ

namespace Script

/-- What the form just read comes to. -/
def outcome (E : Engine) : Except Cause Value → Eval (Except Failure Value)
  | .ok form => attempt (E.eval form none)
  | .error cause => pure (.error { cause })

/-- Read and evaluate through at most `fuel` forms; `last` is the last value so far. Gives what
ended the run, the feed as it is left, and the receiver's record. -/
def loop {σ : Type} (E : Engine) (receiver : Option (Receiver σ)) :
    Nat → Feed → σ → Value → Eval (Except Failure Value × Feed × σ)
  | 0, _, _, _ => halt .exhausted
  | fuel + 1, feed, record, last => do
      let (result, feed) ← feed.read
      match result with
      | .ok .eof => pure (.ok last, feed, record)
      | result =>
          match ← outcome E result, receiver with
          | .ok v, none => loop E receiver fuel feed record v
          | .ok v, some r =>
              let record ← r.receive record (.ok v)
              loop E receiver fuel feed record v
          | .error f, none => pure (.error f, feed, record)
          | .error f, some r =>
              if f.cause.stopsScript then pure (.error f, feed, record)
              else
                let record ← r.receive record (.error f)
                loop E receiver fuel feed record last

/-- The result of a run, from what ended it and how closing went. -/
def conclude (result : Except Failure Value) (closing : Option SourceFault) :
    Except Failure Value :=
  match result, closing with
  | .error f, _ => .error f
  | .ok _, some fault => .error { cause := .io fault.message }
  | .ok v, none => .ok v

/-- Run a script with a receiver, or without; also the receiver's record. -/
def runWith {σ : Type} (E : Engine) (receiver : Option (Receiver σ)) (feed : Feed) (record : σ) :
    Eval (Except Failure Value × σ) := do
  let (result, feed, record) ← loop E receiver E.fuel feed record .nil
  let closing ← feed.close
  pure (conclude result closing, record)

/-- Run a source as a script, stopping at the first failure. -/
def run (E : Engine) (source : LineSource) : Eval Value := do
  let (result, _) ← runWith E (none : Option (Receiver Unit)) (.own {} source) ()
  ofExcept result

/-- Open the file at a path. -/
def openFile (path : String) : Eval (Except String LineSource) := fun s =>
  .ok (s.folder.source path) { s with opened := path :: s.opened }

/-- Run the file at a path as a script. -/
def load (E : Engine) (path : String) : Eval Value := do
  match ← openFile path with
  | .ok source => run E source
  | .error message => fail (.io message)

end Script

end SmallLisp
