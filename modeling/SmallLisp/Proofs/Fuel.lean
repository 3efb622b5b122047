import Mathlib
import SmallLisp.Proofs.Simulation.Evaluator

/-!
# More fuel changes nothing

A computation that ends does so in the same way with any larger fuel. Hence what a form comes to
does not depend on the fuel, which only tells whether it comes to anything.
-/

namespace SmallLisp

/-- The guard that lets every value pass. -/
def Guard.free : Guard where
  World := Unit
  Good _ _ := True
  Final _ _ := True
  Inside _ _ := True
  good_mono _ h := h
  final_mono _ h := h
  inside_mono _ h := h
  good_of_final h := h
  final_of_good h _ := h
  nil _ := trivial
  int _ _ := trivial
  double _ _ := trivial
  eof _ := trivial
  truth _ := trivial
  address := Iff.rfl
  top _ := trivial

theorem Guard.free_covers (w : Guard.free.World) (s : State) : Guard.free.Covers w s where
  car _ := trivial
  cdr _ := trivial
  promise {r} _ := by cases s.store.promise r <;> simp [GoodPromise, free]
  callable {r} _ := by cases s.store.callable r <;> simp [GoodCallable, free]
  vector _ _ _ := trivial
  dummy _ := trivial
  global _ := ⟨trivial, trivial⟩
  slot _ _ := trivial
  frames _ _ _ _ _ := trivial

theorem Guard.free_goodCause (w : Guard.free.World) (c : Cause) : Guard.free.GoodCause w c := by
  cases c <;> simp [GoodCause, free]

namespace Simulation

/-- Two runs that do the very same. -/
def same : Simulation Guard.free where
  St _ s t := t = s
  Fault _ f g := g = f
  Lost _ _ := True
  Drives _ := True
  Frees _ := True
  drives _ := trivial
  lost _ := trivial
  lost_mono _ h := h
  sees h := .of_agrees (h ▸ .refl _)
  covers _ := Guard.free_covers _ _
  fault_mono _ h := h
  fault_cause h := ⟨h ▸ rfl, Guard.free_goodCause _ _⟩
  fault_new _ := rfl
  fault_traced hst _ h := by rw [hst, h]
  step_cons hst _ _ _ := ⟨(), le_refl _, by rw [hst], trivial⟩
  step_setCar hst _ _ _ := ⟨(), le_refl _, by rw [hst], trivial⟩
  step_setCdr hst _ _ _ := ⟨(), le_refl _, by rw [hst], trivial⟩
  step_newText _ hst := ⟨(), le_refl _, by rw [hst], trivial⟩
  step_newNumber _ hst := ⟨(), le_refl _, by rw [hst], trivial⟩
  step_newVector hst _ := ⟨(), le_refl _, by rw [hst], trivial⟩
  step_setItem _ hst _ _ _ := ⟨(), le_refl _, by rw [hst], trivial⟩
  step_newPromise hst _ _ := ⟨(), le_refl _, by rw [hst], trivial⟩
  step_settle _ _ hst _ _ _ _ _ := ⟨(), le_refl _, by rw [hst], trivial⟩
  step_newCallable hst _ := ⟨(), le_refl _, by rw [hst], trivial⟩
  step_newDummy hst _ _ := ⟨(), le_refl _, by rw [hst], trivial⟩
  step_newFailure hst h := ⟨(), le_refl _, by rw [hst, h], trivial⟩
  step_intern _ hst := ⟨(), le_refl _, by rw [hst], trivial⟩
  step_setGlobal hst _ _ _ := ⟨(), le_refl _, by rw [hst], trivial⟩
  step_extend hst _ _ := ⟨(), le_refl _, by rw [hst], trivial⟩
  step_assign _ _ hst _ _ _ := ⟨(), le_refl _, by rw [hst], trivial⟩
  step_outside _ _ _ _ _ hst := ⟨(), le_refl _, by rw [hst], trivial⟩

instance : same.Free := ⟨fun _ => trivial⟩

end Simulation

/-- The computation came to an end before its fuel did. -/
def Outcome.Ends {α : Type} : Outcome α → Prop
  | .halt .exhausted _ => False
  | _ => True

theorem Simulation.eq_of_match_same {α : Type} {w : Guard.free.World}
    {P : Guard.free.World → α → Prop} {o o' : Outcome α}
    (h : Simulation.same.Match w (fun w a b => b = a ∧ P w a) o o') (ho : o.Ends) : o' = o := by
  rcases h.cases with ⟨s, rfl, -⟩ | ⟨a, b, s, t, rfl, rfl, hr⟩ | ⟨f, g, s, t, rfl, rfl, hr⟩ |
    ⟨c, s, t, rfl, rfl, hr⟩
  · exact ho.elim
  · obtain ⟨_, -, hst, hab, -⟩ := hr
    rw [hab, show t = s from hst]
  · obtain ⟨_, -, hst, hfg⟩ := hr
    rw [show g = f from hfg, show t = s from hst]
  · obtain ⟨_, -, hst, -⟩ := hr
    rw [show t = s from hst]

theorem evaluate_mono {n m : Nat} (hn : n ≤ m) {form : Value} {env : Env} {s : State}
    (h : (evaluate n form env s).Ends) : evaluate m form env s = evaluate n form env s :=
  Simulation.eq_of_match_same
    ((Simulation.same.engines hn).eval (w := ()) trivial trivial s s rfl) h

end SmallLisp
