import SmallLisp.Machine.Eval

/-!
# Promises and lists

The parts of the evaluator are written against an `Engine`: whatever evaluates the forms nested in
the one at hand. Here are the parts that know nothing of special forms or calls: forcing promises,
and walking lists whose tails may be promised. A promised tail that is forced on the way is written
back into its cell.
-/

namespace SmallLisp

/-- What evaluates nested forms, applies callables and delivers promises; `fuel` bounds the walks
along lists, which may be cyclic. -/
structure Engine where
  fuel : Nat
  eval : Value → Env → Eval Value
  apply : Value → Value → Env → Eval Value
  deliver : Ref .promise → Eval Value

namespace Engine

open Eval

/-! ## Promises -/

/-- Deliver a value that is a promise; any other is as it is. -/
def force (E : Engine) : Value → Eval Value
  | .promise r => E.deliver r
  | v => pure v

/-- One turn of delivering a promise, which is evaluated at most once. A promise that yields a
promise is delivered through it; if its own evaluation has delivered it already, the first value
stands. -/
def deliverTurn (E : Engine) (r : Ref .promise) : Eval Value := do
  match ← gets (·.store.promise r) with
  | .delivered v => pure v
  | .pending form env =>
      let v ← E.eval form env
      let v ← E.force v
      match ← gets (·.store.promise r) with
      | .delivered first => pure first
      | .pending .. => do
          update (·.setPromise r (.delivered v))
          pure v

/-! ## Lists -/

/-- The next cell of a list, or nil. A promised tail is forced and written back; any other tail is
no list. -/
def cdrCell (E : Engine) (r : Ref .cell) : Eval Value := do
  let tail ← cdr r
  let tail ←
    match tail with
    | .promise p => do
        let v ← E.deliver p
        setCdr r v
        pure v
    | v => pure v
  match tail with
  | .nil => pure .nil
  | .pair next => pure (.pair next)
  | _ => failOn (.pair r) .notProper

/-- The results of `f` on the items of a list, last first, in front of those so far, through at most
`fuel` cells. -/
def mapItems (E : Engine) (f : Value → Eval Value) :
    Nat → Value → List Value → Eval (List Value)
  | _, .nil, reversed => pure reversed
  | 0, .pair _, _ => halt .exhausted
  | fuel + 1, .pair r, reversed => do
      let item ← car r
      let result ← f item
      let next ← E.cdrCell r
      E.mapItems f fuel next (result :: reversed)
  | _, v, _ => failOn v .notProper

/-- A new list of the results of `f` on the items of a list. -/
def mapList (E : Engine) (f : Value → Eval Value) (v : Value) : Eval Value := do
  let reversed ← E.mapItems f E.fuel v []
  consAll reversed .nil

/-- The items of a list. -/
def items (E : Engine) (v : Value) : Eval (List Value) := do
  let reversed ← E.mapItems pure E.fuel v []
  pure reversed.reverse

/-- Force every item of a list in place, through at most `fuel` cells. -/
def forceItems (E : Engine) : Nat → Value → Eval Unit
  | 0, .pair _ => halt .exhausted
  | fuel + 1, .pair r => do
      let item ← car r
      let item ← E.force item
      setCar r item
      let next ← E.cdrCell r
      E.forceItems fuel next
  | _, _ => pure ()

/-- Force every item of a list in place, and its tails too. -/
def forceEach (E : Engine) (v : Value) : Eval Unit := E.forceItems E.fuel v

/-! ## Bodies -/

/-- Evaluate the forms of a body but the last, through at most `fuel` cells; the last is handed back
as it is. -/
def bodyWithin (E : Engine) (env : Env) : Nat → Value → Eval Value
  | 0, .pair _ => halt .exhausted
  | fuel + 1, .pair r => do
      let form ← car r
      let next ← E.cdrCell r
      if next.isNil then pure form
      else
        let _ ← E.eval form env
        E.bodyWithin env fuel next
  | _, _ => pure .nil

/-- Evaluate the forms of a body but the last, which the caller goes on with. -/
def body (E : Engine) (forms : Value) (env : Env) : Eval Value := E.bodyWithin env E.fuel forms

/-- Evaluate forms in order through at most `fuel` cells; `last` is the value so far. -/
def sequenceWithin (E : Engine) (env : Env) : Nat → Value → Value → Eval Value
  | 0, .pair _, _ => halt .exhausted
  | fuel + 1, .pair r, _ => do
      let form ← car r
      let v ← E.eval form env
      let next ← E.cdrCell r
      E.sequenceWithin env fuel next v
  | _, _, last => pure last

/-- Evaluate forms in order; the value is that of the last. -/
def sequence (E : Engine) (forms : Value) (env : Env) : Eval Value :=
  E.sequenceWithin env E.fuel forms .nil

end Engine

end SmallLisp

/-!
## Frames of calls

The arguments of a call are laid out as a frame before anything is evaluated: one slot for each
required argument, and one for the list of the rest. Only then are the slots evaluated, from left to
right, in the caller's environment.
-/

namespace SmallLisp.Engine

open Eval

/-- Take `count` items off a list, in front of those taken so far, last first; none if the list is
shorter. Also what follows them. -/
def takeItems (E : Engine) : Nat → Value → List Value → Eval (Option (List Value × Value))
  | 0, rest, reversed => pure (some (reversed, rest))
  | count + 1, .pair r, reversed => do
      let item ← car r
      let tail ← cdr r
      let rest ← E.force tail
      E.takeItems count rest (item :: reversed)
  | _ + 1, _, _ => pure none

/-- Lay out an argument list as the frame of a callable. -/
def makeFrame (E : Engine) (f : Callable) (args : Value) : Eval (List Value) := do
  match ← E.takeItems f.shape.required args [] with
  | none => fail (.arity f.signature)
  | some (reversed, rest) =>
      if f.shape.hasRest then
        if rest.isNil || rest.isPair then pure (rest :: reversed).reverse
        else fail (.arity f.signature)
      else if rest.isNil then pure reversed.reverse
      else fail (.arity f.signature)

/-- Evaluate the slots of a frame by `f`: `required` slots one by one, and the items of the list in
the slot after them. Results so far come last first. -/
def evalSlots (E : Engine) (f : Value → Eval Value) :
    Nat → List Value → List Value → Eval (List Value)
  | required + 1, form :: forms, reversed => do
      let v ← f form
      E.evalSlots f required forms (v :: reversed)
  | 0, rest :: _, reversed => do
      let v ← E.mapList f rest
      pure (v :: reversed).reverse
  | _, [], reversed => pure reversed.reverse

/-- Evaluate a frame of forms, without forcing the values. -/
def evalFrame (E : Engine) (shape : Shape) (frame : List Value) (env : Env) :
    Eval (List Value) :=
  E.evalSlots (fun form => E.eval form env) shape.required frame []

/-- Evaluate a frame of forms and force each value in turn. -/
def forceFrame (E : Engine) (shape : Shape) (frame : List Value) (env : Env) :
    Eval (List Value) :=
  E.evalSlots (fun form => do E.force (← E.eval form env)) shape.required frame []

/-- Expand a macro call: the forms of the call are the values of the macro's parameters. -/
def expandCall (E : Engine) (f : Callable) (body args : Value) : Eval Value := do
  let frame ← E.makeFrame f args
  let env ← extend frame none
  E.sequence body env

end SmallLisp.Engine
