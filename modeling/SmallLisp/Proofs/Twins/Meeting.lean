import SmallLisp.Proofs.Plenty

/-!
# Two machines that meet

Two machines run side by side, each in its own state. Of the first the fuel is given; the second has
as much as it takes, and both have enough room. The computations meet if, unless the first lacks
fuel, both end in the same way, in states that belong together again. Which states do, is said by
worlds, which get later as the machines run.
-/

namespace SmallLisp

open Eval Filter

/-- The states of two machines at each of the worlds, and which failures are alike there. -/
structure Pairing (W : Type) [Preorder W] where
  left : W → State
  right : W → State
  fault : W → Failure → Failure → Prop

namespace Pairing

variable {W : Type} [Preorder W] (K : Pairing W)
  {α β γ δ : Type} {p q : W} {R : W → α → β → Prop} {Q : W → γ → δ → Prop}
  {x : Eval α} {y : Nat → Eval β}

/-- The outcomes are of one kind, at a later world. -/
inductive Matches (p : W) (R : W → α → β → Prop) : Outcome α → Outcome β → Prop
  | ok {q : W} {a : α} {b : β} : p ≤ q → R q a b →
      Matches p R (.ok a (K.left q)) (.ok b (K.right q))
  | failed {q : W} {f g : Failure} : p ≤ q → K.fault q f g →
      Matches p R (.halt (.failed f) (K.left q)) (.halt (.failed g) (K.right q))
  | exited {q : W} (code : Nat) : p ≤ q →
      Matches p R (.halt (.exited code) (K.left q)) (.halt (.exited code) (K.right q))

/-- Unless the first computation lacks fuel, both come to outcomes that match. -/
def Meets (p : W) (R : W → α → β → Prop) (x : Eval α) (y : Nat → Eval β) : Prop :=
  Starves x (K.left p) ∨
    ∃ o o', Nears x (K.left p) o ∧ Comes y (K.right p) o' ∧ K.Matches p R o o'

variable {K}

theorem Matches.mono {R' : W → α → β → Prop} {o : Outcome α} {o' : Outcome β} {p' : W}
    (h : K.Matches p R o o') (hp : p' ≤ p) (hR : ∀ q a b, p ≤ q → R q a b → R' q a b) :
    K.Matches p' R' o o' := by
  cases h with
  | ok hpq hr => exact .ok (hp.trans hpq) (hR _ _ _ hpq hr)
  | failed hpq hf => exact .failed (hp.trans hpq) hf
  | exited code hpq => exact .exited code (hp.trans hpq)

theorem Matches.ends {o : Outcome α} {o' : Outcome β} (h : K.Matches p R o o') :
    o.Ends ∧ o'.Ends := by
  cases h <;> exact ⟨trivial, trivial⟩

namespace Meets

/-! ## Rules -/

theorem weaken {R' : W → α → β → Prop} (h : K.Meets p R x y)
    (hR : ∀ q a b, p ≤ q → R q a b → R' q a b) : K.Meets p R' x y := by
  rcases h with h | ⟨o, o', hx, hy, ho⟩
  · exact .inl h
  · exact .inr ⟨o, o', hx, hy, ho.mono le_rfl hR⟩

/-- A step that both machines take. -/
theorem step {a : α} {b : β} (hpq : p ≤ q)
    (hx : ∀ᶠ k in atTop, x ((K.left p).withRoom k) = .ok a ((K.left q).withRoom k))
    (hy : Comes y (K.right p) (.ok b (K.right q))) (h : R q a b) : K.Meets p R x y :=
  .inr ⟨.ok a (K.left q), .ok b (K.right q), hx.mono fun _ hk _ => hk, hy, .ok hpq h⟩

theorem pure {a : α} {b : β} (h : R p a b) : K.Meets p R (Pure.pure a) fun _ => Pure.pure b :=
  step le_rfl (.of_forall fun _ => rfl) (.pure b _) h

theorem exhausted : K.Meets p R (Eval.halt .exhausted) y := .inl (.of_forall fun _ h => h)

theorem fail {f g : Failure} (h : K.fault p f g) :
    K.Meets p R (Eval.halt (.failed f)) fun _ => Eval.halt (.failed g) :=
  .inr ⟨.halt (.failed f) (K.left p), .halt (.failed g) (K.right p), .of_forall fun _ _ => rfl,
    .of_forall fun _ _ => rfl, .failed le_rfl h⟩

theorem exit (code : Nat) :
    K.Meets p R (Eval.halt (.exited code)) fun _ => Eval.halt (.exited code) :=
  .inr ⟨.halt (.exited code) (K.left p), .halt (.exited code) (K.right p),
    .of_forall fun _ _ => rfl, .of_forall fun _ _ => rfl, .exited code le_rfl⟩

theorem congr {x' : Eval α} {y' : Nat → Eval β} (h : K.Meets p R x' y')
    (hx : ∀ k, x ((K.left p).withRoom k) = x' ((K.left p).withRoom k))
    (hy : ∀ᶠ n in atTop, ∀ k, y n ((K.right p).withRoom k) = y' n ((K.right p).withRoom k)) :
    K.Meets p R x y := by
  rcases h with h | ⟨o, o', hx', hy', ho⟩
  · exact .inl (h.mono fun k hk => by rwa [hx k])
  · exact .inr ⟨o, o', hx'.mono fun k hk => by rwa [hx k], hy'.congr hy, ho⟩

/-- One unit of fuel less makes no difference to the second machine. -/
theorem succ (h : K.Meets p R x fun n => y (n + 1)) : K.Meets p R x y := by
  rcases h with h | ⟨o, o', hx, hy, ho⟩
  · exact .inl h
  · exact .inr ⟨o, o', hx, hy.succ, ho⟩

/-- A walk of the second machine has fuel for one more step. -/
theorem fuel {y : Nat → Nat → Eval β} {j : Nat → Nat} (hj : Tendsto j atTop atTop)
    (h : K.Meets p R x fun n => y n (j n - 1 + 1)) : K.Meets p R x fun n => y n (j n) := by
  refine h.congr (fun _ => rfl) ?_
  filter_upwards [hj.eventually_ge_atTop 1] with n hn k
  rw [Nat.sub_add_cancel hn]

theorem bind {f : α → Eval γ} {g : Nat → β → Eval δ} (h : K.Meets p R x y)
    (hf : ∀ q a b, p ≤ q → R q a b → K.Meets q Q (f a) fun n => g n b) :
    K.Meets p Q (x >>= f) fun n => y n >>= g n := by
  rcases h with h | ⟨o, o', hx, hy, ho⟩
  · exact .inl (h.mono fun k hk hends => hk (ends_bind hends).1)
  cases ho with
  | @ok q a b hpq hr =>
      rcases hf q a b hpq hr with hstarves | ⟨u, u', hu, hu', hm⟩
      · exact .inl (.bind hx hstarves)
      · refine .inr ⟨u, u', ?_, hy.bind hu', hm.mono hpq fun _ _ _ _ h => h⟩
        filter_upwards [hx, hu] with k hk hk' hends
        have hends' := ends_bind hends
        have hxk := hk hends'.1
        rw [bind_of_ok hxk]
        exact hk' (hends'.2 _ _ hxk)
  | @failed q f g hpq hfault =>
      refine .inr ⟨.halt (.failed f) (K.left q), .halt (.failed g) (K.right q), ?_, hy.bind_halt,
        .failed hpq hfault⟩
      filter_upwards [hx] with k hk hends
      exact bind_of_halt (hk (ends_bind hends).1)
  | @exited q code hpq =>
      refine .inr ⟨.halt (.exited code) (K.left q), .halt (.exited code) (K.right q), ?_,
        hy.bind_halt, .exited code hpq⟩
      filter_upwards [hx] with k hk hends
      exact bind_of_halt (hk (ends_bind hends).1)

/-- The first machine only looks at its state. -/
theorem readLeft {f : α → Eval γ} {y : Nat → Eval δ} {a : α}
    (hx : ∀ k, x ((K.left p).withRoom k) = .ok a ((K.left p).withRoom k))
    (h : K.Meets p Q (f a) y) : K.Meets p Q (x >>= f) y :=
  h.congr (fun k => bind_of_ok (hx k)) (.of_forall fun _ _ => rfl)

/-- The second machine only looks at its state. -/
theorem readRight {x : Eval γ} {g : Nat → β → Eval δ} {b : β}
    (hy : ∀ᶠ n in atTop, ∀ k, y n ((K.right p).withRoom k) = .ok b ((K.right p).withRoom k))
    (h : K.Meets p Q x fun n => g n b) : K.Meets p Q x fun n => y n >>= g n :=
  h.congr (fun _ => rfl) (hy.mono fun _ hn k => bind_of_ok (hn k))

/-- Both machines only look at their states. -/
theorem read {f : α → Eval γ} {g : Nat → β → Eval δ} {a : α} {b : β}
    (hx : ∀ k, x ((K.left p).withRoom k) = .ok a ((K.left p).withRoom k))
    (hy : ∀ᶠ n in atTop, ∀ k, y n ((K.right p).withRoom k) = .ok b ((K.right p).withRoom k))
    (h : K.Meets p Q (f a) fun n => g n b) : K.Meets p Q (x >>= f) fun n => y n >>= g n :=
  readLeft hx (readRight hy h)

/-- The first machine runs on its own. -/
theorem aheadLeft {f : α → Eval γ} {y : Nat → Eval δ} {o : Outcome α} {a : α}
    (hx : Nears x (K.left p) o) (ho : o = .ok a (K.left q)) (hpq : p ≤ q)
    (hright : K.right q = K.right p) (h : K.Meets q Q (f a) y) : K.Meets p Q (x >>= f) y := by
  subst ho
  rcases h with hstarves | ⟨u, u', hu, hu', hm⟩
  · exact .inl (.bind hx hstarves)
  · rw [hright] at hu'
    refine .inr ⟨u, u', ?_, hu', hm.mono hpq fun _ _ _ _ h => h⟩
    filter_upwards [hx, hu] with k hk hk' hends
    have hends' := ends_bind hends
    have hxk := hk hends'.1
    rw [bind_of_ok hxk]
    exact hk' (hends'.2 _ _ hxk)

/-- What two attempts give: two results, or two failures that are alike. -/
inductive Attempted (K : Pairing W) (R : W → α → β → Prop) (q : W) :
    Except Failure α → Except Failure β → Prop
  | ok {a : α} {b : β} : R q a b → Attempted K R q (.ok a) (.ok b)
  | error {f g : Failure} : K.fault q f g → Attempted K R q (.error f) (.error g)

theorem attempt (h : K.Meets p R x y) :
    K.Meets p (Attempted K R) (Eval.attempt x) fun n => Eval.attempt (y n) := by
  rcases h with h | ⟨o, o', hx, hy, ho⟩
  · exact .inl (h.mono fun k hk hk' => hk (ends_attempt hk'))
  have hattempt : ∀ {c : Outcome (Except Failure α)} {d : Outcome (Except Failure β)},
      (∀ k, x ((K.left p).withRoom k) = o.withRoom k →
        Eval.attempt x ((K.left p).withRoom k) = c.withRoom k) →
      (∀ n k, y n ((K.right p).withRoom k) = o'.withRoom k →
        Eval.attempt (y n) ((K.right p).withRoom k) = d.withRoom k) →
      K.Matches p (Attempted K R) c d →
      K.Meets p (Attempted K R) (Eval.attempt x) fun n => Eval.attempt (y n) := by
    intro c d hc hd hm
    refine .inr ⟨c, d, hx.mono fun k hk hk' => hc k (hk (ends_attempt hk')), ?_, hm⟩
    exact hy.mono fun n hn => hd n.1 n.2 hn
  cases ho with
  | ok hpq hr =>
      refine hattempt (fun k hk => ?_) (fun n k hk => ?_) (.ok hpq (.ok hr)) <;>
        rw [Eval.attempt, hk] <;> rfl
  | failed hpq hf =>
      refine hattempt (fun k hk => ?_) (fun n k hk => ?_) (.ok hpq (.error hf)) <;>
        rw [Eval.attempt, hk] <;> rfl
  | exited code hpq =>
      refine hattempt (fun k hk => ?_) (fun n k hk => ?_) (.exited code hpq) <;>
        rw [Eval.attempt, hk] <;> rfl

theorem ofExcept {r : Except Failure α} {r' : Except Failure β} (h : Attempted K R p r r') :
    K.Meets p R (Eval.ofExcept r) fun _ => Eval.ofExcept r' := by
  cases h with
  | ok hr => exact .pure hr
  | error hf => exact .fail hf

/-- Failures may be changed on their way out, if they stay alike. The changes may look at the
states, but not at the room. -/
theorem onFailure {change change' : State → Failure → Failure} (h : K.Meets p R x y)
    (hleft : ∀ s k f, change (s.withRoom k) f = change s f)
    (hright : ∀ s k f, change' (s.withRoom k) f = change' s f)
    (hchange : ∀ q f g, p ≤ q → K.fault q f g →
      K.fault q (change (K.left q) f) (change' (K.right q) g)) :
    K.Meets p R (x.onFailure change) fun n => (y n).onFailure change' := by
  rcases h with h | ⟨o, o', hx, hy, ho⟩
  · exact .inl (h.mono fun k hk hk' => hk (ends_onFailure hk'))
  have hrest : ∀ {c : Outcome α} {d : Outcome β},
      (∀ k, x ((K.left p).withRoom k) = o.withRoom k →
        x.onFailure change ((K.left p).withRoom k) = c.withRoom k) →
      (∀ n k, y n ((K.right p).withRoom k) = o'.withRoom k →
        (y n).onFailure change' ((K.right p).withRoom k) = d.withRoom k) →
      K.Matches p R c d → K.Meets p R (x.onFailure change) fun n => (y n).onFailure change' := by
    intro c d hc hd hm
    refine .inr ⟨c, d, hx.mono fun k hk hk' => hc k (hk (ends_onFailure hk')), ?_, hm⟩
    exact hy.mono fun n hn => hd n.1 n.2 hn
  cases ho with
  | ok hpq hr =>
      refine hrest (fun k hk => ?_) (fun n k hk => ?_) (.ok hpq hr) <;>
        rw [Eval.onFailure, hk] <;> rfl
  | failed hpq hf =>
      refine hrest (fun k hk => ?_) (fun n k hk => ?_) (.failed hpq (hchange _ _ _ hpq hf))
      · rw [Eval.onFailure, hk]
        simp only [Outcome.withRoom, hleft]
      · rw [Eval.onFailure, hk]
        simp only [Outcome.withRoom, hright]
  | exited code hpq =>
      refine hrest (fun k hk => ?_) (fun n k hk => ?_) (.exited code hpq) <;>
        rw [Eval.onFailure, hk] <;> rfl

end Meets

end Pairing

end SmallLisp
