import SmallLisp.Evaluator
import SmallLisp.Proofs.Simulation.Script

/-!
# Natives on frames of their shape

A native that finds too few or too many slots in its frame says so at once. On a frame of its own
shape no native does. The engine here comes to nothing, so that all failures are the native's own
and not those of what it evaluates or applies.
-/

namespace SmallLisp

open Eval

/-- An engine that comes to nothing. -/
def Engine.idle : Engine where
  fuel := 0
  eval _ _ := halt .exhausted
  apply _ _ _ := halt .exhausted
  deliver _ := halt .exhausted

/-- A failure for want of an argument, or for one too many. -/
def Cause.isArity : Cause → Bool
  | .arity _ => true
  | _ => false

/-- The computation does not fail for want of an argument, or for one too many. -/
def Eval.Accepts {α : Type} (x : Eval α) : Prop :=
  ∀ s f t, x s = .halt (.failed f) t → f.cause.isArity = false

namespace Eval.Accepts

variable {α β : Type}

/-! ## Combinators and primitives -/

theorem of_total {x : Eval α} (h : ∀ s, ∃ a t, x s = .ok a t) : x.Accepts := by
  intro s f t hf
  obtain ⟨a, u, hx⟩ := h s
  rw [hx] at hf
  cases hf

theorem pure (a : α) : (Pure.pure a : Eval α).Accepts := .of_total fun s => ⟨a, s, rfl⟩

theorem gets (f : State → α) : (Eval.gets f).Accepts := .of_total fun s => ⟨f s, s, rfl⟩

theorem alloc (f : Store → α × Store) : (Eval.alloc f).Accepts := .of_total fun _ => ⟨_, _, rfl⟩

theorem halt {h : Halt} (hh : ∀ f, h = .failed f → f.cause.isArity = false) :
    (Eval.halt h : Eval α).Accepts := by
  intro s f t hf
  cases hf
  exact hh f rfl

theorem fail {c : Cause} (h : c.isArity = false) : (Eval.fail c : Eval α).Accepts := by
  refine halt fun f hf => ?_
  cases hf
  exact h

theorem exhausted : (Eval.halt .exhausted : Eval α).Accepts := halt fun f hf => by cases hf

theorem bind_of_ok {x : Eval α} {f : α → Eval β} (hx : x.Accepts)
    (hf : ∀ s a t, x s = .ok a t → (f a).Accepts) : (x >>= f).Accepts := by
  intro s g t hg
  rw [bind_apply] at hg
  cases hxs : x s with
  | ok a u =>
      rw [hxs] at hg
      exact hf s a u hxs u g t hg
  | halt c u =>
      rw [hxs] at hg
      cases hg
      exact hx s g t hxs

theorem bind {x : Eval α} {f : α → Eval β} (hx : x.Accepts) (hf : ∀ a, (f a).Accepts) :
    (x >>= f).Accepts := bind_of_ok hx fun _ a _ _ => hf a

theorem refuse (f : NativeFault) : (Eval.refuse f : Eval α).Accepts := fail rfl

theorem refuseOn (v : Value) (f : String → NativeFault) : (Eval.refuseOn v f : Eval α).Accepts :=
  bind (gets _) fun _ => fail rfl

theorem notProper (v : Value) : (Eval.failOn v .notProper : Eval α).Accepts :=
  bind (gets _) fun _ => fail rfl

theorem allocCells (f : Store → Option Value × Store) : (Eval.allocCells f).Accepts := by
  intro s g t hg
  unfold Eval.allocCells at hg
  dsimp only at hg
  split at hg
  · cases hg
  · cases hg
    rfl

theorem write (text : String) : (Eval.write text).Accepts := by
  intro s g t hg
  unfold Eval.write at hg
  split at hg
  · cases hg
  · cases hg
    rfl

/-! ## Arguments -/

theorem force (v : Value) : (Engine.idle.force v).Accepts := by
  cases v with
  | promise r => exact exhausted
  | _ => exact pure _

theorem reversedItems (v : Value) (reversed : List Value) :
    (Engine.idle.mapItems Pure.pure 0 v reversed).Accepts := by
  cases v with
  | nil => exact pure _
  | pair r => exact exhausted
  | _ => exact notProper _

theorem items (v : Value) : (Engine.idle.items v).Accepts :=
  bind (reversedItems v []) fun _ => pure _

theorem numberArg (v : Value) : (Native.numberArg v).Accepts := by
  refine bind (gets _) fun n => ?_
  cases n with
  | some n => exact pure n
  | none => exact refuseOn v _

theorem indexArg (v : Value) : (Native.indexArg v).Accepts := by
  cases v with
  | int n =>
      simp only [Native.indexArg]
      split
      · exact pure _
      · exact refuseOn _ _
  | _ => exact refuseOn _ _

theorem textArg (v : Value) : (Native.textArg v).Accepts := by
  cases v with
  | text r => exact gets _
  | _ => exact refuseOn _ _

theorem pairArg (v : Value) : (Native.pairArg v).Accepts := by
  cases v with
  | pair r => exact pure r
  | _ => exact refuseOn _ _

theorem sequenceArg (v : Value) : (Native.sequenceArg Engine.idle v).Accepts := by
  cases v with
  | nil => exact pure _
  | pair r => exact items _
  | vector r => exact gets _
  | text r => exact gets _
  | _ => exact refuseOn _ _

theorem consAll (reversed : List Value) (tail : Value) : (Eval.consAll reversed tail).Accepts :=
  allocCells _

theorem list (vs : List Value) : (Eval.list vs).Accepts :=
  allocCells fun store => store.listWithTail vs .nil

theorem update (f : Store → Store) : (Eval.update f).Accepts := alloc _

/-! ## Natives -/

theorem appendAll (lists reversed : List Value) :
    (ListNative.appendAll Engine.idle lists reversed).Accepts := by
  induction lists generalizing reversed with
  | nil => exact pure _
  | cons v vs ih =>
      cases vs with
      | nil => exact consAll reversed v
      | cons u us => exact bind (reversedItems v reversed) fun reversed => ih reversed

theorem applyEach (f : Value) (env : Env) (vs reversed : List Value) :
    (ListNative.applyEach Engine.idle f env vs reversed).Accepts := by
  induction vs generalizing reversed with
  | nil => exact pure _
  | cons v vs ih => exact bind (list [v]) fun _ => bind exhausted fun _ => ih _

theorem lengthOf (v : Value) : (ListNative.lengthOf Engine.idle v).Accepts := by
  cases v with
  | text r => exact gets _
  | vector r => exact gets _
  | _ => exact bind (items _) fun _ => pure _

theorem lists (n : ListNative) {args : List Value} (env : Env)
    (h : args.length = n.spec.shape.arity) : (n.run Engine.idle args env).Accepts := by
  rcases args with _ | ⟨a, _ | ⟨b, _ | ⟨c, args⟩⟩⟩ <;> cases n <;>
    simp [ListNative.spec, Shape.arity, Shape.fixed, Shape.rest] at h
  case cons.nil.car =>
      cases a with
      | nil => exact pure _
      | _ => exact bind (pairArg _) fun _ => gets _
  case cons.nil.cdr =>
      cases a with
      | nil => exact pure _
      | _ => exact bind (pairArg _) fun _ => gets _
  case cons.nil.list => exact pure _
  case cons.nil.append => exact bind (items a) fun lists => appendAll lists []
  case cons.nil.length => exact bind (lengthOf a) fun _ => pure _
  case cons.cons.nil.cons => exact allocCells fun store => store.cons a b
  case cons.cons.nil.rplaca =>
      exact bind (force a) fun _ => bind (pairArg _) fun r =>
        bind (update (·.setCar r b)) fun _ => pure _
  case cons.cons.nil.rplacd =>
      exact bind (force a) fun _ => bind (pairArg _) fun r =>
        bind (update (·.setCdr r b)) fun _ => pure _
  case cons.cons.nil.mapcar =>
      refine bind (sequenceArg b) fun items => ?_
      exact bind (applyEach a env items []) fun reversed => consAll reversed .nil
  case cons.cons.nil.mapc =>
      exact bind (sequenceArg b) fun items => bind (applyEach a env items []) fun _ => pure _

theorem comparedText (v : Value) : (TestNative.comparedText v).Accepts := by
  cases v with
  | nil => exact pure _
  | _ =>
      refine bind (gets _) fun text => ?_
      cases text with
      | some text => exact pure text
      | none => exact refuseOn _ _

theorem tests (n : TestNative) {args : List Value} (h : args.length = n.spec.shape.arity) :
    (n.run args).Accepts := by
  rcases args with _ | ⟨a, _ | ⟨b, _ | ⟨c, args⟩⟩⟩ <;> cases n <;>
    simp [TestNative.spec, Shape.arity, Shape.fixed] at h
  case cons.nil.keywordp => exact gets _
  case cons.cons.nil.eq => exact pure _
  case cons.cons.nil.eql => exact gets _
  case cons.cons.nil.stringEq =>
      exact bind (comparedText a) fun _ => bind (comparedText b) fun _ => pure _
  all_goals exact pure _

theorem vectors (n : VectorNative) {args : List Value} (h : args.length = n.spec.shape.arity) :
    (n.run Engine.idle args).Accepts := by
  rcases args with _ | ⟨a, _ | ⟨b, _ | ⟨c, _ | ⟨d, args⟩⟩⟩⟩ <;> cases n <;>
    simp [VectorNative.spec, Shape.arity, Shape.fixed, Shape.rest] at h
  case cons.nil.vector => exact bind (items a) fun _ => alloc _
  case cons.cons.nil.makeVector =>
      exact bind (force a) fun _ => bind (indexArg _) fun _ => alloc _
  case cons.cons.nil.aref =>
      refine bind (indexArg b) fun i => ?_
      cases a with
      | vector r =>
          refine bind (gets _) fun item => ?_
          cases item with
          | some item => exact pure item
          | none => exact refuse _
      | text r =>
          refine bind (gets _) fun char => ?_
          cases char with
          | some char => exact pure _
          | none => exact refuse _
      | _ => exact refuseOn _ _
  case cons.cons.cons.nil.aset =>
      refine bind (force a) fun target => bind (force b) fun index => bind (indexArg _) fun i => ?_
      cases target with
      | vector r =>
          refine bind (gets _) fun size => ?_
          split
          · exact bind (update (·.setItem r i c)) fun _ => pure _
          · exact refuse _
      | _ => exact refuseOn _ _

theorem checked (result : Except NumFault Num) : (NumberNative.checked result).Accepts := by
  cases result with
  | ok n => exact pure n
  | error fault => exact refuse _

theorem fold (op : Num → Num → Except NumFault Num) (acc : Num) (vs : List Value) :
    (NumberNative.fold op acc vs).Accepts := by
  induction vs generalizing acc with
  | nil => exact pure acc
  | cons v vs ih => exact bind (numberArg v) fun n => bind (checked _) fun acc => ih acc

theorem foldList (op : Num → Num → Except NumFault Num) (first : Num) (vs : Value) :
    (NumberNative.foldList Engine.idle op first vs).Accepts :=
  bind (items vs) fun items => bind (fold op first items) fun _ => alloc _

theorem order (a b : Value) : (NumberNative.order a b).Accepts :=
  bind (numberArg a) fun _ => bind (numberArg b) fun _ => pure _

theorem numbers (n : NumberNative) {args : List Value} (h : args.length = n.spec.shape.arity) :
    (n.run Engine.idle args).Accepts := by
  rcases args with _ | ⟨a, _ | ⟨b, _ | ⟨c, _ | ⟨d, args⟩⟩⟩⟩ <;> cases n <;>
    simp [NumberNative.spec, Shape.arity, Shape.fixed, Shape.rest] at h
  case cons.nil.add => exact foldList _ _ a
  case cons.nil.mul => exact foldList _ _ a
  case cons.nil.float => exact bind (numberArg a) fun _ => pure _
  case cons.nil.truncate =>
      exact bind (numberArg a) fun _ => bind (checked _) fun _ => alloc _
  case cons.cons.nil.sub =>
      refine bind (numberArg a) fun first => ?_
      split
      · exact alloc _
      · exact foldList _ first b
  case cons.cons.nil.rem =>
      refine bind (numberArg a) fun _ => bind (numberArg b) fun _ => ?_
      exact bind (checked _) fun _ => alloc _
  case cons.cons.nil.equal => exact bind (order a b) fun _ => pure _
  case cons.cons.nil.less => exact bind (order a b) fun _ => pure _
  case cons.cons.cons.nil.div =>
      refine bind (numberArg a) fun _ => bind (numberArg b) fun _ => bind (checked _) fun q => ?_
      exact foldList _ q c

theorem control (n : ControlNative) {args : List Value} (env : Env)
    (h : args.length = n.spec.shape.arity) : (n.run Engine.idle args env).Accepts := by
  rcases args with _ | ⟨a, _ | ⟨b, _ | ⟨c, args⟩⟩⟩ <;> cases n <;>
    simp [ControlNative.spec, Shape.arity, Shape.fixed] at h
  case cons.nil.eval => exact exhausted
  case cons.nil.force => exact pure _
  case cons.cons.nil.apply => exact exhausted
  case cons.cons.nil.throwing =>
      exact bind (force a) fun _ => bind (gets _) fun _ => bind (gets _) fun _ => fail rfl

theorem charsOf (vs : List Value) (reversed : List Char) :
    (SequenceNative.charsOf vs reversed).Accepts := by
  induction vs generalizing reversed with
  | nil => exact pure _
  | cons v vs ih =>
      rw [SequenceNative.charsOf]
      split
      · exact ih _
      · exact refuseOn _ _

theorem sequences (n : SequenceNative) {args : List Value}
    (h : args.length = n.spec.shape.arity) : (n.run Engine.idle args).Accepts := by
  rcases args with _ | ⟨a, _ | ⟨b, _ | ⟨c, args⟩⟩⟩ <;> cases n <;>
    simp [SequenceNative.spec, Shape.arity, Shape.fixed] at h
  case cons.nil.stringToChar =>
      refine bind (textArg a) fun text => ?_
      split
      · exact pure _
      · exact pure _
  case cons.nil.numberToString => exact bind (numberArg a) fun _ => alloc _
  case cons.nil.stringToNumber => exact bind (textArg a) fun _ => alloc _
  case cons.nil.sequenceToString =>
      cases a with
      | text r => exact pure _
      | _ => exact bind (sequenceArg _) fun _ => bind (charsOf _ _) fun _ => alloc _
  case cons.nil.sequenceToVector => exact bind (sequenceArg a) fun _ => alloc _
  case cons.nil.sequenceToList =>
      cases a with
      | nil => exact pure _
      | pair r => exact pure _
      | _ => exact bind (sequenceArg _) fun items => list items
  case cons.cons.nil.stringAppend =>
      exact bind (textArg a) fun _ => bind (textArg b) fun _ => alloc _
  case cons.cons.nil.vectorAppend =>
      cases a <;> cases b
      case vector.vector => exact bind (gets _) fun _ => alloc _
      all_goals exact refuse _
  case cons.cons.nil.listAppend =>
      exact bind (reversedItems a []) fun reversed => consAll reversed b

theorem vectorsOf (arrays : List (Array Value)) (reversed : List Value) :
    (SystemNative.vectorsOf arrays reversed).Accepts := by
  induction arrays generalizing reversed with
  | nil => exact pure _
  | cons a arrays ih => exact bind (alloc _) fun _ => ih _

theorem system (n : SystemNative) {args : List Value} (env : Env)
    (h : args.length = n.spec.shape.arity) : (n.run Engine.idle args env).Accepts := by
  rcases args with _ | ⟨a, _ | ⟨b, args⟩⟩ <;> cases n <;>
    simp [SystemNative.spec, Shape.arity, Shape.fixed, Shape.rest] at h
  case nil.dump =>
      refine bind (gets _) fun _ => bind (alloc _) fun names => bind (gets _) fun arrays => ?_
      refine bind (vectorsOf arrays []) fun _ => bind (list _) fun frames => ?_
      exact list [names, frames]
  case cons.nil.help =>
      refine bind (gets _) fun doc => ?_
      cases doc with
      | some doc => exact bind (write _) fun _ => pure _
      | none => exact pure _
  case cons.nil.exit =>
      refine bind (items a) fun items => ?_
      split
      · exact halt fun f hf => by cases hf
      · exact halt fun f hf => by cases hf
      · exact refuseOn _ _

/-- Reading fails for what it was given to read. -/
theorem isArity_readFrom {reader : Reader} {source : LineSource} {s t : State} {c : Cause}
    {q : Reader × LineSource} (h : SmallLisp.readFrom reader source s = .ok (.error c, q) t) :
    c.isArity = false := by
  obtain ⟨result, reader', source', t', hread, -, hinput⟩ := exists_readFrom reader source s
  rw [hread] at h
  cases h
  have hc := hinput c rfl
  cases c with
  | arity name => cases hc
  | _ => rfl

theorem readInput : SmallLisp.readInput.Accepts := by
  refine bind (gets _) fun reader => ?_
  refine bind_of_ok (x := readConsole reader) (.of_total fun s => ⟨_, _, rfl⟩) fun s p t hp => ?_
  obtain ⟨result, reader'⟩ := p
  refine bind (.of_total fun s => ⟨_, _, rfl⟩) fun _ => ?_
  cases result with
  | ok v => exact pure v
  | error c =>
      simp only [readConsole, bind_eq_ok] at hp
      obtain ⟨console, s₁, -, ⟨⟨result, reader', source⟩, s₂, hread, _, s₃, -, hpure⟩⟩ := hp
      cases hpure
      exact fail (isArity_readFrom hread)

theorem streams (n : StreamNative) {args : List Value} (h : args.length = n.spec.shape.arity) :
    (n.run Engine.idle args).Accepts := by
  rcases args with _ | ⟨a, _ | ⟨b, args⟩⟩ <;> cases n <;>
    simp [StreamNative.spec, Shape.arity, Shape.fixed] at h
  case nil.terpri => exact bind (write _) fun _ => pure _
  case nil.read => exact readInput
  case cons.nil.prin1 => exact bind (gets _) fun _ => bind (write _) fun _ => pure _
  case cons.nil.princ => exact bind (gets _) fun _ => bind (write _) fun _ => pure _
  case cons.nil.load =>
      refine bind (textArg a) fun path => bind (.of_total fun _ => ⟨_, _, rfl⟩) fun opened => ?_
      cases opened with
      | ok source => exact exhausted
      | error message => exact refuse _

end Eval.Accepts

/-- A native on a frame of its own shape never fails for the shape of its frame. -/
theorem Native.accepts (n : Native) {args : List Value} (env : Env)
    (h : args.length = n.shape.arity) : (n.run Engine.idle args env).Accepts := by
  cases n with
  | lists n => exact .lists n env h
  | tests n => exact .tests n h
  | vectors n => exact .vectors n h
  | streams n => exact .streams n h
  | numbers n => exact .numbers n h
  | control n => exact .control n env h
  | sequences n => exact .sequences n h
  | system n => exact .system n env h

end SmallLisp
