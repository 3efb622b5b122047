import SmallLisp.Proofs.Compiler.Code
import SmallLisp.Proofs.Template.Following

/-!
# Enough fuel and enough room

What a program comes to depends neither on the fuel nor on the capacity of the store, as long as
there is enough of both. Here computations are considered that have it: the fuel and the capacity
are beyond some bound. The result is the same from there on, but for the capacity, which is part of
the state.
-/

namespace SmallLisp

open Eval Filter

/-! ## States up to their capacity -/

/-- The state with another capacity. -/
def State.withRoom (s : State) (k : Nat) : State :=
  { s with store := { s.store with capacity := k } }

/-- The outcome with another capacity. -/
def Outcome.withRoom {α : Type} (k : Nat) : Outcome α → Outcome α
  | .ok a s => .ok a (s.withRoom k)
  | .halt h s => .halt h (s.withRoom k)

/-- With enough fuel and enough room the computation has the outcome. -/
def Eval.Comes {α : Type} (x : Nat → Eval α) (s : State) (o : Outcome α) : Prop :=
  ∀ᶠ p in atTop ×ˢ atTop, x p.1 (s.withRoom p.2) = o.withRoom p.2

/-- Given enough room, the computation has the outcome unless its fuel is too little. -/
def Eval.Nears {α : Type} (x : Eval α) (s : State) (o : Outcome α) : Prop :=
  ∀ᶠ k in atTop, (x (s.withRoom k)).Ends → x (s.withRoom k) = o.withRoom k

/-- Given enough room, the fuel of the computation is too little. -/
def Eval.Starves {α : Type} (x : Eval α) (s : State) : Prop :=
  ∀ᶠ k in atTop, ¬ (x (s.withRoom k)).Ends

namespace Eval

variable {α β : Type} {s t u : State} {a : α} {b : β}

theorem ends_bind {x : Eval α} {f : α → Eval β} (h : ((x >>= f) s).Ends) :
    (x s).Ends ∧ ∀ a t, x s = .ok a t → (f a t).Ends := by
  rw [bind_apply] at h
  cases hx : x s with
  | ok a t =>
      rw [hx] at h
      refine ⟨trivial, ?_⟩
      rintro _ _ ⟨⟩
      exact h
  | halt c t =>
      rw [hx] at h
      refine ⟨?_, nofun⟩
      cases c with
      | exhausted => exact h.elim
      | _ => trivial

theorem ends_attempt {x : Eval α} (h : (attempt x s).Ends) : (x s).Ends := by
  unfold attempt at h
  generalize x s = o at h ⊢
  rcases o with _ | _ | _ | _ <;> exact h

theorem ends_onFailure {x : Eval α} {change : State → Failure → Failure}
    (h : (x.onFailure change s).Ends) : (x s).Ends := by
  unfold onFailure at h
  generalize x s = o at h ⊢
  rcases o with _ | _ | _ | _ <;> exact h

/-! ## Fuel and room in abundance -/

namespace Comes

variable {x y : Nat → Eval α} {f : Nat → α → Eval β} {o : Outcome β}

theorem of_forall {o : Outcome α} (h : ∀ n k, x n (s.withRoom k) = o.withRoom k) : Comes x s o :=
  Eventually.of_forall fun _ => h _ _

/-- The first bounds come from the fuel alone. -/
theorem of_eventually {o : Outcome α}
    (h : ∀ᶠ n in atTop, ∀ k, x n (s.withRoom k) = o.withRoom k) : Comes x s o := by
  filter_upwards [h.prod_inl atTop] with p hp
  exact hp _

theorem pure (a : α) (s : State) : Comes (fun _ => Pure.pure a) s (.ok a s) :=
  of_forall fun _ _ => rfl

theorem congr {o : Outcome α} (hy : Comes y s o)
    (h : ∀ᶠ n in atTop, ∀ k, x n (s.withRoom k) = y n (s.withRoom k)) : Comes x s o := by
  filter_upwards [hy, h.prod_inl atTop] with p hp hxy
  rw [hxy, hp]

theorem bind (hx : Comes x s (.ok a t)) (hf : Comes (fun n => f n a) t o) :
    Comes (fun n => x n >>= f n) s o := by
  filter_upwards [hx, hf] with p hp hq
  rw [bind_of_ok hp]
  exact hq

theorem bind_halt {c : Halt} (hx : Comes x s (.halt c t)) :
    Comes (fun n => x n >>= f n) s (.halt c t) := by
  filter_upwards [hx] with p hp
  rw [bind_of_halt hp]
  rfl

/-- A part of the computation that only looks at the state. -/
theorem read (hx : ∀ᶠ n in atTop, ∀ k, x n (s.withRoom k) = .ok a (s.withRoom k))
    (hf : Comes (fun n => f n a) s o) : Comes (fun n => x n >>= f n) s o := by
  filter_upwards [hf, hx.prod_inl atTop] with p hp hq
  rw [bind_of_ok (hq _)]
  exact hp

/-- One unit of fuel less makes no difference. -/
theorem succ {o : Outcome α} (h : Comes (fun n => x (n + 1)) s o) : Comes x s o := by
  rw [Comes, eventually_prod_iff] at h ⊢
  obtain ⟨P, hP, Q, hQ, h⟩ := h
  refine ⟨fun n => ∃ m, n = m + 1 ∧ P m, ?_, Q, hQ, ?_⟩
  · exact eventually_of_succ (hP.mono fun n hn => ⟨n, rfl, hn⟩)
  · rintro _ ⟨m, rfl, hm⟩ k hk
    exact h hm hk

/-- There is one outcome only, up to its capacity. -/
theorem unique {o o' : Outcome α} (h : Comes x s o) (h' : Comes x s o') :
    ∃ k, o.withRoom k = o'.withRoom k := by
  obtain ⟨p, hp⟩ := (h.and h').exists
  exact ⟨p.2, hp.1.symm.trans hp.2⟩

theorem onFailure {change : State → Failure → Failure} (hx : Comes x s (.ok a t)) :
    Comes (fun n => (x n).onFailure change) s (.ok a t) := by
  filter_upwards [hx] with p hp
  rw [Eval.onFailure, hp]
  rfl

/-! ## Allocation -/

theorem alloc {g : Store → α × Store} {store : Store}
    (h : ∀ k, g { s.store with capacity := k } = (a, { store with capacity := k })) :
    Comes (fun _ => Eval.alloc g) s (.ok a { s with store }) := by
  refine of_forall fun n k => ?_
  rw [alloc_apply]
  show Outcome.ok (g { s.store with capacity := k }).1 _ = _
  rw [show (s.withRoom k).store = { s.store with capacity := k } from rfl, h k]
  rfl

theorem cons (a d : Value) (s : State) : Comes (fun _ => Eval.cons a d) s
    (.ok (.pair ⟨s.store.cells.size⟩)
      { s with store := { s.store with cells := s.store.cells.push ⟨a, d⟩ } }) := by
  filter_upwards [(eventually_gt_atTop s.store.cells.size).prod_inr atTop] with p hp
  exact cons_of_room hp a d

end Comes

/-! ## A given fuel -/

/-- What there is with any fuel from some point on, there is with all fuel that is enough at all. -/
theorem Nears.of_comes {x : Nat → Eval α} {o : Outcome α}
    (hmono : ∀ {n m s}, n ≤ m → (x n s).Ends → x m s = x n s) (h : Comes x s o) (n : Nat) :
    Nears (x n) s o := by
  obtain ⟨P, hP, Q, hQ, h⟩ := eventually_prod_iff.1 h
  obtain ⟨m, hm, hn⟩ := (hP.and (eventually_ge_atTop n)).exists
  filter_upwards [hQ] with k hk hends
  rw [← hmono hn hends]
  exact h hm hk

/-- If what follows lacks fuel, so does the whole. -/
theorem Starves.bind {x : Eval α} {f : α → Eval β} (hx : Nears x s (.ok a t))
    (hf : Starves (f a) t) : Starves (x >>= f) s := by
  filter_upwards [hx, hf] with k hk hk' hends
  have hends' := ends_bind hends
  exact hk' (hends'.2 _ _ (hk hends'.1))

end Eval

end SmallLisp
