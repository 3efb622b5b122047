import SmallLisp.Proofs.Soundness.Frames

/-!
# The layout of frames

A frame is laid out by going along a list of arguments, whose tails may be promises, for as many
cells as the callable requires arguments. Forcing a tail can change anything, so the way along a
list is said here state by state. What counts in the end is only where it leads: a callable with a
rest takes what is left of the list, any other takes nothing but its end.
-/

namespace SmallLisp

open Eval

/-- Whether what follows the required arguments is as the shape wants it. -/
def Shape.Accepts (shape : Shape) (rest : Value) : Prop :=
  rest = .nil ∨ shape.hasRest = true ∧ ∃ r, rest = .pair r

/-- The slots of a frame: the required arguments, and if there is a rest, what follows them. -/
def Shape.slots (shape : Shape) (items : List Value) (rest : Value) : List Value :=
  items ++ if shape.hasRest then [rest] else []

/-- The required arguments have all slots but the one for the rest. -/
theorem Shape.required_eq (shape : Shape) :
    shape.required = if shape.hasRest then shape.arity - 1 else shape.arity := by
  unfold arity
  split <;> simp

theorem Shape.length_slots {shape : Shape} {items : List Value} (rest : Value)
    (h : items.length = shape.required) : (shape.slots items rest).length = shape.arity := by
  unfold slots arity
  split <;> simp [h]

namespace Engine

/-! ## Ways along a list -/

/-- In a state the way along a list from a value goes through cells with these items, and leads to a
value in another state. The tail of each cell is forced before the way goes on. -/
inductive Walks (E : Engine) : List Value → Value → State → Value → State → Prop
  | done (v : Value) (s : State) : E.Walks [] v s v s
  | cell {r : Ref .cell} {v rest : Value} {xs : List Value} {s s₁ t : State} :
      E.force (s.store.cdr r) s = .ok v s₁ → E.Walks xs v s₁ rest t →
      E.Walks (s.store.car r :: xs) (.pair r) s rest t

/-- Wherever the way leads to a cell in fewer steps than `count`, its tail is forced without
fault. -/
def ForcesTails (E : Engine) (count : Nat) (v : Value) (s : State) : Prop :=
  ∀ xs r t, xs.length < count → E.Walks xs v s (.pair r) t →
    ∃ w u, E.force (t.store.cdr r) t = .ok w u

variable {E : Engine} {f : Callable} {count : Nat} {xs done : List Value} {v rest : Value}
  {s t : State}

/-! ## Ways without fault -/

theorem ForcesTails.mono {m n : Nat} (h : E.ForcesTails n v s) (hmn : m ≤ n) :
    E.ForcesTails m v s := fun xs r t hlength => h xs r t (Nat.lt_of_lt_of_le hlength hmn)

/-- Where there is no cell no tail is forced. -/
theorem ForcesTails.of_end (hend : v.isPair = false) (count : Nat) : E.ForcesTails count v s := by
  rintro xs r t - hwalk
  cases hwalk <;> cases hend

theorem ForcesTails.cell {r : Ref .cell} {s₁ : State}
    (hforce : E.force (s.store.cdr r) s = .ok v s₁) (h : E.ForcesTails count v s₁) :
    E.ForcesTails (count + 1) (.pair r) s := by
  intro xs q t hlength hwalk
  cases hwalk with
  | done => exact ⟨v, s₁, hforce⟩
  | cell hforce' hwalk =>
      cases hforce.symm.trans hforce'
      exact h _ q t (Nat.lt_of_succ_lt_succ hlength) hwalk

/-- The way goes through as many cells as it is asked to, or ends before at what is no cell. -/
theorem exists_walks (h : E.ForcesTails count v s) :
    ∃ xs rest t, E.Walks xs v s rest t ∧
      (xs.length = count ∨ xs.length < count ∧ rest.isPair = false) := by
  induction count generalizing v s with
  | zero => exact ⟨[], v, s, .done v s, .inl rfl⟩
  | succ count ih =>
      cases v with
      | pair r =>
          obtain ⟨w, s₁, hforce⟩ := h [] r s (Nat.succ_pos _) (.done _ s)
          obtain ⟨xs, rest, t, hwalk, hend⟩ := ih fun xs q t hxs hwalk =>
            h (s.store.car r :: xs) q t (Nat.succ_lt_succ hxs) (.cell hforce hwalk)
          refine ⟨_, rest, t, .cell hforce hwalk, ?_⟩
          simpa using hend
      | _ => exact ⟨[], _, s, .done _ s, .inr ⟨Nat.succ_pos _, rfl⟩⟩

/-- Taking items goes that way. -/
theorem Walks.takeItems (h : E.Walks xs v s rest t) (done : List Value) :
    E.takeItems xs.length v done s = .ok (some (xs.reverse ++ done, rest)) t := by
  induction h generalizing done with
  | done v s => rfl
  | @cell r v rest xs s s₁ t hforce _ ih =>
      rw [List.length_cons, Engine.takeItems, bind_of_ok (car_apply r s),
        bind_of_ok (cdr_apply r s), bind_of_ok hforce, ih]
      simp

theorem Walks.takeItems_of_end (h : E.Walks xs v s rest t) (hend : rest.isPair = false)
    (hcount : xs.length < count) (done : List Value) :
    E.takeItems count v done s = .ok none t := by
  obtain ⟨count, rfl⟩ : ∃ n, count = n + 1 :=
    Nat.exists_eq_succ_of_ne_zero (Nat.ne_zero_of_lt hcount)
  induction h generalizing count done with
  | done v s => cases v <;> first | rfl | cases hend
  | @cell r v rest xs s s₁ t hforce _ ih =>
      obtain ⟨count, rfl⟩ : ∃ n, count = n + 1 :=
        Nat.exists_eq_succ_of_ne_zero (Nat.ne_zero_of_lt (Nat.lt_of_succ_lt_succ hcount))
      rw [Engine.takeItems, bind_of_ok (car_apply r s), bind_of_ok (cdr_apply r s),
        bind_of_ok hforce]
      exact ih hend _ _ (Nat.lt_of_succ_lt_succ hcount)

/-! ## Frames -/

theorem Walks.makeFrame_of_accepts (h : E.Walks xs v s rest t)
    (hlength : xs.length = f.shape.required) (hrest : f.shape.Accepts rest) :
    E.makeFrame f v s = .ok (f.shape.slots xs rest) t := by
  have htake := h.takeItems []
  rw [hlength] at htake
  rw [makeFrame, bind_of_ok htake]
  dsimp only
  rcases hrest with rfl | ⟨hshape, r, rfl⟩
  · cases hshape : f.shape.hasRest <;> simp [Shape.slots, hshape, Value.isNil]
  · simp [Shape.slots, hshape, Value.isNil, Value.isPair]

theorem Walks.makeFrame_of_not_accepts (h : E.Walks xs v s rest t)
    (hlength : xs.length = f.shape.required) (hrest : ¬ f.shape.Accepts rest) :
    E.makeFrame f v s = .halt (.failed { cause := .arity f.signature }) t := by
  have htake := h.takeItems []
  rw [hlength] at htake
  rw [makeFrame, bind_of_ok htake]
  dsimp only
  have hnil : rest.isNil = false := by
    cases rest <;> first | rfl | exact absurd (.inl rfl) hrest
  cases hshape : f.shape.hasRest with
  | false => simp [hnil]
  | true =>
      have hpair : rest.isPair = false := by
        cases rest <;> first | rfl | exact absurd (.inr ⟨hshape, _, rfl⟩) hrest
      simp [hnil, hpair]

theorem Walks.makeFrame_of_end (h : E.Walks xs v s rest t) (hend : rest.isPair = false)
    (hlength : xs.length < f.shape.required) :
    E.makeFrame f v s = .halt (.failed { cause := .arity f.signature }) t :=
  bind_of_ok (h.takeItems_of_end hend hlength [])

/-- The layout of a frame matches the arity of the callable exactly. Suppose that forcing the tails
on the way goes well. Then there is a frame exactly if the way leads through as many cells as
arguments are required, and what follows them is nil, or a cell if the callable has a rest. The
frame has the items of these cells, in order, and for a rest what follows them, just as it is; these
are as many slots as the arity says. In every other case, which is that the way ends too early, or
that what follows the required cells is not as it should be, the failure names the callable. -/
theorem frame_matches_arity {s : State} {args : Value}
    (h : E.ForcesTails f.shape.required args s) :
    (f.shape.required = if f.shape.hasRest then f.shape.arity - 1 else f.shape.arity) ∧
    ((∃ frame t, E.makeFrame f args s = .ok frame t) ↔ ∃ xs rest t, E.Walks xs args s rest t ∧
      xs.length = f.shape.required ∧ f.shape.Accepts rest) ∧
    (∀ xs rest t, E.Walks xs args s rest t → xs.length = f.shape.required →
      f.shape.Accepts rest → E.makeFrame f args s = .ok (f.shape.slots xs rest) t ∧
        (f.shape.slots xs rest).length = f.shape.arity) ∧
    ((¬ ∃ frame t, E.makeFrame f args s = .ok frame t) → ∃ xs rest t, E.Walks xs args s rest t ∧
      (xs.length < f.shape.required ∧ rest.isPair = false ∨
        xs.length = f.shape.required ∧ ¬ f.shape.Accepts rest) ∧
      E.makeFrame f args s = .halt (.failed { cause := .arity f.signature }) t) := by
  obtain ⟨xs, rest, t, hwalk, hend⟩ := exists_walks h
  refine ⟨f.shape.required_eq, ⟨?reached, ?laid⟩, ?slots, ?refused⟩
  case reached =>
    rintro ⟨frame, u, hframe⟩
    rcases hend with hlength | ⟨hlength, hpair⟩
    · by_cases hrest : f.shape.Accepts rest
      · exact ⟨xs, rest, t, hwalk, hlength, hrest⟩
      · cases hframe.symm.trans (hwalk.makeFrame_of_not_accepts hlength hrest)
    · cases hframe.symm.trans (hwalk.makeFrame_of_end hpair hlength)
  case laid =>
    rintro ⟨ys, rest', u, hwalk', hlength, hrest⟩
    exact ⟨_, u, hwalk'.makeFrame_of_accepts hlength hrest⟩
  case slots =>
    intro ys rest' u hwalk' hlength hrest
    exact ⟨hwalk'.makeFrame_of_accepts hlength hrest, Shape.length_slots rest' hlength⟩
  case refused =>
    intro hnone
    rcases hend with hlength | ⟨hlength, hpair⟩
    · have hrest : ¬ f.shape.Accepts rest := fun hrest =>
        hnone ⟨_, t, hwalk.makeFrame_of_accepts hlength hrest⟩
      exact ⟨xs, rest, t, hwalk, .inr ⟨hlength, hrest⟩,
        hwalk.makeFrame_of_not_accepts hlength hrest⟩
    · exact ⟨xs, rest, t, hwalk, .inl ⟨hlength, hpair⟩, hwalk.makeFrame_of_end hpair hlength⟩

/-- A state with a list of three items, of which the tail of the first is promised: it is the value
of a variable. -/
def promisedTail : State where
  store :=
    { capacity := 3
      cells := #[⟨.int 1, .promise ⟨0⟩⟩, ⟨.int 2, .pair ⟨2⟩⟩, ⟨.int 3, .nil⟩]
      promises := #[.pending (.sym Symbol.t) none] }
  globals := Array.replicate 10 none ++ #[some (.pair ⟨1⟩)]
  console := { answers := [] }

/-- A closure that requires one argument and has a rest gets what the promise yields as its rest. Of
callables without a rest, one that requires three arguments gets the items, and one that requires
two is named in the failure. -/
theorem frame_matches_arity_promised :
    let E := Engine.ofFuel 3
    let args := Value.pair ⟨0⟩
    let forced := promisedTail.mapStore (·.setPromise ⟨0⟩ (.delivered (.pair ⟨1⟩)))
    E.ForcesTails 3 args promisedTail ∧
      E.makeFrame (.closure (.rest 1) .nil none) args promisedTail =
        .ok [.int 1, .pair ⟨1⟩] forced ∧
      E.makeFrame (.expander (.fixed 3) .nil) args promisedTail =
        .ok [.int 1, .int 2, .int 3] forced ∧
      ∃ t, E.makeFrame (.native (.lists .cons)) args promisedTail =
        .halt (.failed { cause := .arity "#<cons:2:l>" }) t := by
  intro E args forced
  have hfirst : E.force (promisedTail.store.cdr ⟨0⟩) promisedTail = .ok (.pair ⟨1⟩) forced := rfl
  have hsecond : E.force (forced.store.cdr ⟨1⟩) forced = .ok (.pair ⟨2⟩) forced := rfl
  have hthird : E.force (forced.store.cdr ⟨2⟩) forced = .ok .nil forced := rfl
  have hforces : E.ForcesTails 3 args promisedTail :=
    .cell hfirst (.cell hsecond (.cell hthird (.of_end rfl 0)))
  have hone : E.Walks [.int 1] args promisedTail (.pair ⟨1⟩) forced := .cell hfirst (.done _ _)
  have hthree : E.Walks [.int 1, .int 2, .int 3] args promisedTail .nil forced :=
    .cell hfirst (.cell hsecond (.cell hthird (.done _ _)))
  obtain ⟨-, -, hrest, -⟩ :=
    frame_matches_arity (f := .closure (.rest 1) .nil none) (hforces.mono (by decide))
  obtain ⟨-, -, hfixed, -⟩ := frame_matches_arity (f := .expander (.fixed 3) .nil) hforces
  obtain ⟨-, -, -, hrefused⟩ :=
    frame_matches_arity (f := .native (.lists .cons)) (hforces.mono (by decide))
  obtain ⟨-, -, t, -, -, hframe⟩ := hrefused (by rintro ⟨frame, t, ⟨⟩⟩)
  exact ⟨hforces, (hrest _ _ _ hone rfl (.inr ⟨rfl, _, rfl⟩)).1,
    (hfixed _ _ _ hthree rfl (.inl rfl)).1, t, hframe⟩

end Engine

end SmallLisp
