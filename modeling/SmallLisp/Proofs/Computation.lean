import SmallLisp.Evaluator

/-!
# Running computations

How computations run: each combinator on a state, and what a run that ended says about the runs it
was put together from. Computations form a lawful monad, so they can be regrouped without being
opened.
-/

namespace SmallLisp

/-- Whether a computation gave a value. -/
def Outcome.isOk {α : Type} : Outcome α → Bool
  | .ok .. => true
  | .halt .. => false

theorem Outcome.exists_of_isOk {α : Type} {o : Outcome α} (h : o.isOk = true) :
    ∃ a s, o = .ok a s := by
  cases o with
  | ok a s => exact ⟨a, s, rfl⟩
  | halt c s => simp [isOk] at h

namespace Eval

/-! ## Combinators on a state -/

@[simp] theorem pure_apply {α : Type} (a : α) (s : State) : (pure a : Eval α) s = .ok a s := rfl

theorem bind_apply {α β : Type} (x : Eval α) (f : α → Eval β) (s : State) :
    (x >>= f) s =
      match x s with
      | .ok a s => f a s
      | .halt h s => .halt h s := rfl

theorem bind_of_ok {α β : Type} {x : Eval α} {f : α → Eval β} {s t : State} {a : α}
    (h : x s = .ok a t) : (x >>= f) s = f a t := by
  rw [bind_apply, h]

theorem bind_of_halt {α β : Type} {x : Eval α} {f : α → Eval β} {s t : State} {h : Halt}
    (hx : x s = .halt h t) : (x >>= f) s = .halt h t := by
  rw [bind_apply, hx]

/-- A sequence of two computations ends well exactly if both do. -/
theorem bind_eq_ok {α β : Type} {x : Eval α} {f : α → Eval β} {s t : State} {b : β} :
    (x >>= f) s = .ok b t ↔ ∃ a s₁, x s = .ok a s₁ ∧ f a s₁ = .ok b t := by
  rw [bind_apply]
  constructor
  · intro h
    cases hx : x s with
    | ok a s₁ =>
        rw [hx] at h
        exact ⟨a, s₁, rfl, h⟩
    | halt c s₁ => simp [hx] at h
  · rintro ⟨a, s₁, hx, hf⟩
    rw [hx]
    exact hf

@[simp] theorem gets_apply {α : Type} (f : State → α) (s : State) : gets f s = .ok (f s) s := rfl

@[simp] theorem halt_apply {α : Type} (h : Halt) (s : State) :
    (halt h : Eval α) s = .halt h s := rfl

@[simp] theorem fail_apply {α : Type} (c : Cause) (s : State) :
    (fail c : Eval α) s = .halt (.failed { cause := c }) s := rfl

@[simp] theorem car_apply (r : Ref .cell) (s : State) : car r s = .ok (s.store.car r) s := rfl

@[simp] theorem cdr_apply (r : Ref .cell) (s : State) : cdr r s = .ok (s.store.cdr r) s := rfl

theorem failOn_apply {α : Type} (v : Value) (cause : String → Cause) (s : State) :
    (failOn v cause : Eval α) s = .halt (.failed { cause := cause (textIn s v) }) s := rfl

@[simp] theorem alloc_apply {α : Type} (f : Store → α × Store) (s : State) :
    alloc f s = .ok (f s.store).1 { s with store := (f s.store).2 } := rfl

/-- Building a list is building its pairs one by one, the last first. -/
theorem consAll_cons (v : Value) (reversed : List Value) (tail : Value) :
    consAll (v :: reversed) tail = cons v tail >>= consAll reversed := by
  funext s
  simp only [bind_apply, consAll, cons, allocCells, Store.consAll]
  rcases s.store.cons v tail with ⟨_ | p, store⟩ <;> rfl

/-! ## The monad laws -/

instance : LawfulMonad Eval :=
  LawfulMonad.mk' Eval
    (fun x => by
      funext s
      show (x >>= fun a => pure a) s = x s
      rw [bind_apply]
      cases x s <;> rfl)
    (fun _ _ => rfl)
    (fun x f g => by
      funext s
      simp only [bind_apply]
      cases x s <;> rfl)

end Eval

/-! ## Binding names -/

namespace State

variable (s : State) (x : Symbol) (v : Value)

@[simp] theorem symbols_setGlobal : (s.setGlobal x v).symbols = s.symbols := rfl
@[simp] theorem store_setGlobal : (s.setGlobal x v).store = s.store := rfl
@[simp] theorem config_setGlobal : (s.setGlobal x v).config = s.config := rfl

/-- A binding is of the name bound, and of no other. -/
theorem global?_setGlobal (y : Symbol) :
    (s.setGlobal x v).global? y = if y = x then some v else s.global? y := by
  rw [global?, setGlobal]
  dsimp only
  rw [Array.getElem?_setIfInBounds]
  by_cases hy : y = x
  · subst hy
    have hlt : y.index < (if y.index < s.globals.size then s.globals
        else s.globals ++ Array.replicate (y.index + 1 - s.globals.size) none).size := by
      split
      · assumption
      · rw [Array.size_append, Array.size_replicate]
        omega
    rw [if_pos rfl, if_pos hlt, if_pos rfl]
    rfl
  · have hne : x.index ≠ y.index := fun hindex => hy (by cases x; cases y; cases hindex; rfl)
    rw [if_neg hne, if_neg hy]
    split
    · rfl
    · -- Growing the table binds nothing.
      rw [Array.getElem?_append, global?]
      split
      · rfl
      · rename_i hlt
        rw [Array.getElem?_eq_none (Nat.not_lt.1 hlt), Array.getElem?_replicate]
        split <;> rfl

end State

/-! ## Calls of natives -/

namespace Native

variable {E : Engine} {n : Native} {args : List Value} {env : Env} {s t : State}

/-- A call of a native gives a value exactly if the native does. -/
theorem call_eq_ok {v : Value} :
    n.call E args env s = .ok v t ↔ n.run E args env s = .ok v t := by
  rw [call, Eval.onFailure]
  rcases n.run E args env s with _ | _ | _ <;> simp

/-- What a failing native does at its boundary: a refusal becomes the failure of this call of this
native on this frame, with nothing recorded, and any other failure is left as it is. -/
theorem call_of_failed {f : Failure} (h : n.run E args env s = .halt (.failed f) t) :
    n.call E args env s = .halt (.failed (n.atBoundary args t f)) t := by
  rw [call, Eval.onFailure, h]

end Native

/-!
## States that differ in traces

A program can keep a failure in the store, but it never sees more of it than its cause. Two states
agree if they are the same but for the traces of the failures in their stores.
-/

/-- The state with other failures in its store. -/
def State.withFailures (s : State) (fs : Array Failure) : State :=
  { s with store := { s.store with failures := fs } }

/-- Nothing differs but the traces of the failures in the store. -/
def State.Agrees (s t : State) : Prop :=
  ∃ fs, t = s.withFailures fs ∧ fs.map Failure.cause = s.store.failures.map Failure.cause

namespace State.Agrees

theorem refl (s : State) : s.Agrees s := ⟨s.store.failures, rfl, rfl⟩

theorem trans {s t u : State} (h₁ : s.Agrees t) (h₂ : t.Agrees u) : s.Agrees u := by
  obtain ⟨fs, rfl, hfs⟩ := h₁
  obtain ⟨gs, rfl, hgs⟩ := h₂
  exact ⟨gs, rfl, hgs.trans hfs⟩

end State.Agrees

theorem Engine.cause_traced (form : Value) (s : State) (f : Failure) :
    (Engine.traced form s f).cause = f.cause := by
  unfold Engine.traced Failure.pushTrace
  split <;> rfl

end SmallLisp
