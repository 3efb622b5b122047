import SmallLisp.Proofs.Simulation

/-!
# Simulated combinators and primitives

The rules by which computations are shown to end alike: one for each combinator, and one for each
operation of the machine, the latter straight from the fields of a simulation.
-/

namespace SmallLisp

namespace Engine

open Eval

/-! ## Deliveries in parts -/

/-- What a pending promise comes to: the value of its form, or what that promises. -/
def pursue (E : Engine) (form : Value) (env : Env) : Eval Value := do
  let v ← E.eval form env
  E.force v

/-- Deliver a promise with a value, unless it has been delivered; the value it has then. -/
def settle (r : Ref .promise) (v : Value) : Eval Value := do
  match ← gets (·.store.promise r) with
  | .delivered first => pure first
  | .pending .. => do
      update (·.setPromise r (.delivered v))
      pure v

theorem settle_delivered {r : Ref .promise} {v first : Value} {s : State}
    (h : s.store.promise r = .delivered first) : settle r v s = .ok first s := by
  rw [settle, bind_of_ok (gets_apply _ s), h]
  rfl

theorem settle_pending {r : Ref .promise} {v form : Value} {env : Env} {s : State}
    (h : s.store.promise r = .pending form env) :
    settle r v s = .ok v (s.mapStore (·.setPromise r (.delivered v))) := by
  rw [settle, bind_of_ok (gets_apply _ s), h]
  rfl

theorem deliverTurn_delivered {E : Engine} {r : Ref .promise} {v : Value} {s : State}
    (h : s.store.promise r = .delivered v) : E.deliverTurn r s = .ok v s := by
  rw [deliverTurn, bind_of_ok (gets_apply _ s), h]
  rfl

theorem deliverTurn_pending {E : Engine} {r : Ref .promise} {form : Value} {env : Env} {s : State}
    (h : s.store.promise r = .pending form env) :
    E.deliverTurn r s = (E.pursue form env >>= settle r) s := by
  rw [deliverTurn, bind_of_ok (gets_apply _ s), h, pursue, bind_assoc]
  rfl

end Engine

theorem Guard.Reaches.mono {G : Guard} {St : G.World → State → State → Prop} {w w' : G.World}
    {s t : State} {P : G.World → Prop} (hw : w ≤ w') (h : G.Reaches St w' s t P) :
    G.Reaches St w s t P := by
  obtain ⟨w₁, h₁, hst, hP⟩ := h
  exact ⟨w₁, hw.trans h₁, hst, hP⟩

namespace Simulation

open Eval

variable {G : Guard} (L : Simulation G) {α β : Type} {w : G.World}

/-! ## Combinators -/

theorem here {s t : State} {P : G.World → Prop} (h : L.St w s t) (hP : P w) :
    G.Reaches L.St w s t P :=
  ⟨w, le_refl w, h, hP⟩

variable {L} in
/-- How outcomes that match can be: what the rules for combinators go by. -/
theorem Match.cases {R : G.World → α → α → Prop} {o o' : Outcome α} (h : L.Match w R o o') :
    (∃ s, o = .halt .exhausted s ∧ L.Lost w s) ∨
    (∃ a b s t, o = .ok a s ∧ o' = .ok b t ∧ G.Reaches L.St w s t fun w' => R w' a b) ∨
    (∃ f g s t, o = .halt (.failed f) s ∧ o' = .halt (.failed g) t ∧
      G.Reaches L.St w s t fun w' => L.Fault w' f g) ∨
    (∃ c s t, o = .halt (.exited c) s ∧ o' = .halt (.exited c) t ∧
      G.Reaches L.St w s t fun _ => True) := by
  rcases o with ⟨a, s⟩ | ⟨f | c | _, s⟩ <;> rcases o' with ⟨b, t⟩ | ⟨g | d | _, t⟩ <;>
    first
    | exact .inl ⟨s, rfl, h⟩
    | exact .inr (.inl ⟨a, b, s, t, rfl, rfl, h⟩)
    | exact .inr (.inr (.inl ⟨f, g, s, t, rfl, rfl, h⟩))
    | exact .inr (.inr (.inr ⟨c, s, t, rfl, by rw [h.1], h.2⟩))
    | exact h.elim

variable {L} in
theorem Match.mono {w' : G.World} {R : G.World → α → α → Prop} {o o' : Outcome α} (hw : w ≤ w')
    (h : L.Match w' R o o') : L.Match w R o o' := by
  rcases h.cases with ⟨s, rfl, hl⟩ | ⟨a, b, s, t, rfl, rfl, hr⟩ | ⟨f, g, s, t, rfl, rfl, hr⟩ |
    ⟨c, s, t, rfl, rfl, hr⟩
  · exact L.lost_mono hw hl
  · exact Guard.Reaches.mono hw hr
  · exact Guard.Reaches.mono hw hr
  · exact ⟨rfl, Guard.Reaches.mono hw hr⟩

theorem pure {R : G.World → α → α → Prop} {a b : α} (h : R w a b) :
    L.Alike w R (Pure.pure a) (Pure.pure b) :=
  fun _ _ hst => L.here hst h

theorem give {P : G.World → α → Prop} {a : α} (h : P w a) :
    L.Gives w P (Pure.pure a) (Pure.pure a) :=
  L.pure ⟨rfl, h⟩

variable {L} in
/-- Runs one after the other, where the first ones may differ in their results. What follows may use
how the first run went. -/
theorem Match.bind {R : G.World → α → α → Prop} {R' : G.World → β → β → Prop} {x y : Eval α}
    {f g : α → Eval β} {s t : State} (hx : L.Match w R (x s) (y t))
    (hf : ∀ w', w ≤ w' → ∀ a b s₁ t₁, x s = .ok a s₁ → L.St w' s₁ t₁ → R w' a b →
      L.Match w' R' (f a s₁) (g b t₁)) :
    L.Match w R' ((x >>= f) s) ((y >>= g) t) := by
  rw [bind_apply, bind_apply]
  rcases hx.cases with ⟨s₁, hs, h⟩ | ⟨a, b, s₁, t₁, hs, ht, h⟩ |
    ⟨f, g, s₁, t₁, hs, ht, h⟩ | ⟨c, s₁, t₁, hs, ht, h⟩
  · rw [hs]
    exact h
  · rw [hs, ht]
    obtain ⟨w', hw, hst', hR⟩ := h
    exact (hf w' hw a b s₁ t₁ hs hst' hR).mono hw
  · rw [hs, ht]
    exact h
  · rw [hs, ht]
    exact ⟨rfl, h⟩

/-- Computations one after the other, where the first ones may differ in their results. -/
theorem bindTwo {R : G.World → α → α → Prop} {R' : G.World → β → β → Prop} {x y : Eval α}
    {f g : α → Eval β} (hx : L.Alike w R x y)
    (hf : ∀ w', w ≤ w' → ∀ a b, R w' a b → L.Alike w' R' (f a) (g b)) :
    L.Alike w R' (x >>= f) (y >>= g) := by
  intro s t hst
  refine (hx s t hst).bind fun w' hw a b s₁ t₁ _ hst' hR => ?_
  exact hf w' hw a b hR s₁ t₁ hst'

/-- Computations one after the other. -/
theorem bind {P : G.World → α → Prop} {R : G.World → β → β → Prop} {x y : Eval α}
    {f g : α → Eval β} (hx : L.Gives w P x y)
    (hf : ∀ w', w ≤ w' → ∀ a, P w' a → L.Alike w' R (f a) (g a)) :
    L.Alike w R (x >>= f) (y >>= g) := by
  refine L.bindTwo hx fun w' hw a b hab => ?_
  obtain ⟨rfl, ha⟩ := hab
  exact hf w' hw b ha

/-- Less may be told of the result. -/
theorem weaken {P Q : G.World → α → Prop} {x y : Eval α} (h : L.Gives w P x y)
    (hPQ : ∀ {w' a}, P w' a → Q w' a) : L.Gives w Q x y := by
  intro s t hst
  rcases (h s t hst).cases with ⟨s₁, hs, h⟩ | ⟨a, b, s₁, t₁, hs, ht, h⟩ |
    ⟨f, g, s₁, t₁, hs, ht, h⟩ | ⟨c, s₁, t₁, hs, ht, h⟩
  · rw [hs]
    exact h
  · rw [hs, ht]
    obtain ⟨w', hw, hst', hab, hP⟩ := h
    exact ⟨w', hw, hst', hab, hPQ hP⟩
  · rw [hs, ht]
    exact h
  · rw [hs, ht]
    exact ⟨rfl, h⟩

theorem exhausted {R : G.World → α → α → Prop} (y : Eval α) :
    L.Alike w R (halt .exhausted) y := fun _ _ hst => L.lost hst

theorem exit {R : G.World → α → α → Prop} (code : Nat) :
    L.Alike w R (halt (.exited code) : Eval α) (halt (.exited code)) :=
  fun _ _ hst => ⟨rfl, L.here hst trivial⟩

theorem refail {R : G.World → α → α → Prop} {f g : Failure} (h : L.Fault w f g) :
    L.Alike w R (Eval.refail f : Eval α) (Eval.refail g) :=
  fun _ _ hst => L.here hst h

theorem fail {R : G.World → α → α → Prop} {c : Cause} (h : G.GoodCause w c) :
    L.Alike w R (Eval.fail c : Eval α) (Eval.fail c) :=
  L.refail (L.fault_new h)

theorem malformed {R : G.World → α → α → Prop} (f : FormFault) :
    L.Alike w R (Eval.malformed f : Eval α) (Eval.malformed f) :=
  L.fail trivial

theorem refuse {R : G.World → α → α → Prop} (f : NativeFault) :
    L.Alike w R (Eval.refuse f : Eval α) (Eval.refuse f) :=
  L.fail trivial

/-- The results of two attempts: both values or both failures. -/
def Caught (R : G.World → α → α → Prop) (w : G.World) :
    Except Failure α → Except Failure α → Prop
  | .ok a, .ok b => R w a b
  | .error f, .error g => L.Fault w f g
  | _, _ => False

theorem attempt {R : G.World → α → α → Prop} {x y : Eval α} (h : L.Alike w R x y) :
    L.Alike w (L.Caught R) (Eval.attempt x) (Eval.attempt y) := by
  intro s t hst
  simp only [Eval.attempt]
  rcases (h s t hst).cases with ⟨s₁, hs, h⟩ | ⟨a, b, s₁, t₁, hs, ht, h⟩ |
    ⟨f, g, s₁, t₁, hs, ht, h⟩ | ⟨c, s₁, t₁, hs, ht, h⟩
  · rw [hs]
    exact h
  · rw [hs, ht]
    exact h
  · rw [hs, ht]
    exact h
  · rw [hs, ht]
    exact ⟨rfl, h⟩

theorem ofExcept {R : G.World → α → α → Prop} {a b : Except Failure α} (h : L.Caught R w a b) :
    L.Alike w R (Eval.ofExcept a) (Eval.ofExcept b) := by
  cases a <;> cases b
  · exact L.refail h
  · exact h.elim
  · exact h.elim
  · exact L.pure h

/-- Failures may be changed on their way out, if that keeps them related. -/
theorem onFailure {R : G.World → α → α → Prop} {x y : Eval α}
    {change change' : State → Failure → Failure} (h : L.Alike w R x y)
    (hc : ∀ {w' s t f g}, w ≤ w' → L.St w' s t → L.Fault w' f g →
      L.Fault w' (change s f) (change' t g)) :
    L.Alike w R (x.onFailure change) (y.onFailure change') := by
  intro s t hst
  simp only [Eval.onFailure]
  rcases (h s t hst).cases with ⟨s₁, hs, h⟩ | ⟨a, b, s₁, t₁, hs, ht, h⟩ |
    ⟨f, g, s₁, t₁, hs, ht, h⟩ | ⟨c, s₁, t₁, hs, ht, h⟩
  · rw [hs]
    exact h
  · rw [hs, ht]
    exact h
  · rw [hs, ht]
    obtain ⟨w', hw, hst', hf⟩ := h
    exact ⟨w', hw, hst', hc hw hst' hf⟩
  · rw [hs, ht]
    exact ⟨rfl, h⟩

/-! ## Reading -/

/-- A part of the state that both runs see. -/
theorem look {P : G.World → α → Prop} {f : State → α}
    (hf : ∀ s t, G.Covers w s → G.Sees w s t → f t = f s) (hP : ∀ s, G.Covers w s → P w (f s)) :
    L.Gives w P (Eval.gets f) (Eval.gets f) :=
  fun s t hst => L.here hst ⟨hf s t (L.covers hst) (L.sees hst), hP s (L.covers hst)⟩

/-- A part of the state that no trace and no cell goes into. -/
theorem gets {P : G.World → α → Prop} {f : State → α}
    (hf : ∀ s fs cells, f (s.withParts fs cells) = f s) (hP : ∀ s, G.Covers w s → P w (f s)) :
    L.Gives w P (Eval.gets f) (Eval.gets f) := by
  refine L.look (fun s t _ hst => ?_) hP
  obtain ⟨fs, cells, rfl, -⟩ := hst
  exact hf s fs cells

/-- What follows a look at the state may use what was seen there. -/
theorem bindGets {f : State → α} (hf : ∀ s t, G.Sees w s t → f t = f s)
    {R : G.World → β → β → Prop} {x y : α → Eval β}
    (h : ∀ s t, L.St w s t → L.Match w R (x (f s) s) (y (f s) t)) :
    L.Alike w R (Eval.gets f >>= x) (Eval.gets f >>= y) := by
  intro s t hst
  rw [bind_of_ok (gets_apply f s), bind_of_ok (gets_apply f t), hf s t (L.sees hst)]
  exact h s t hst

theorem car {r : Ref .cell} (hr : G.Good w (.pair r)) :
    L.Gives w G.Good (Eval.car r) (Eval.car r) :=
  L.look (fun _ _ _ hst => hst.car hr) fun _ hs => hs.car hr

theorem cdr {r : Ref .cell} (hr : G.Good w (.pair r)) :
    L.Gives w G.Good (Eval.cdr r) (Eval.cdr r) :=
  L.look (fun _ _ _ hst => hst.cdr hr) fun _ hs => hs.cdr hr

theorem callable {r : Ref .callable} (hr : G.Good w (.callable r)) :
    L.Gives w G.GoodCallable (Eval.gets (·.store.callable r)) (Eval.gets (·.store.callable r)) :=
  L.gets (fun _ _ _ => rfl) fun _ hs => hs.callable hr

theorem slot? {env : Env} (henv : G.Inside w env) (a : Address) :
    L.Gives w (fun w v? => ∀ v, v? = some v → G.Good w v) (Eval.slot? env a) (Eval.slot? env a) :=
  L.gets (fun _ _ _ => rfl) fun _ hs _ hv => hs.slot henv hv

theorem isKeyword (x : Symbol) :
    L.Gives w (fun _ _ => True) (Eval.isKeyword x) (Eval.isKeyword x) :=
  L.gets (fun _ _ _ => rfl) fun _ _ => trivial

theorem nameOf (x : Symbol) : L.Gives w (fun _ _ => True) (Eval.nameOf x) (Eval.nameOf x) :=
  L.gets (fun _ _ _ => rfl) fun _ _ => trivial

theorem textOf {v : Value} (hv : G.Good w v) :
    L.Gives w (fun _ _ => True) (Eval.textOf v) (Eval.textOf v) :=
  L.look (fun _ _ hs hst => hst.textIn hs hv) fun _ _ => trivial

theorem rawTextOf {v : Value} (hv : G.Good w v) :
    L.Gives w (fun _ _ => True) (Eval.rawTextOf v) (Eval.rawTextOf v) :=
  L.look (fun _ _ hs hst => hst.print hs hv false) fun _ _ => trivial

theorem failOn {R : G.World → α → α → Prop} {v : Value} (hv : G.Good w v) {cause : String → Cause}
    (h : ∀ text, G.GoodCause w (cause text)) :
    L.Alike w R (Eval.failOn v cause : Eval α) (Eval.failOn v cause) := by
  intro s t hst
  rw [failOn_apply, failOn_apply, (L.sees hst).textIn (L.covers hst) hv]
  exact L.here hst (L.fault_new (h _))

theorem malformedOn {R : G.World → α → α → Prop} {v : Value} (hv : G.Good w v)
    (f : String → FormFault) :
    L.Alike w R (Eval.malformedOn v f : Eval α) (Eval.malformedOn v f) :=
  L.failOn hv fun _ => trivial

theorem refuseOn {R : G.World → α → α → Prop} {v : Value} (hv : G.Good w v)
    (f : String → NativeFault) :
    L.Alike w R (Eval.refuseOn v f : Eval α) (Eval.refuseOn v f) :=
  L.failOn hv fun _ => trivial

/-! ## Allocating and overwriting -/

/-- An allocation whose result does not depend on traces. -/
theorem alloc {f g : Store → Value × Store}
    (h : ∀ s t, L.St w s t → (g t.store).1 = (f s.store).1 ∧
      G.Reaches L.St w (s.mapStore fun st => (f st).2) (t.mapStore fun st => (g st).2)
        fun w' => G.Good w' (f s.store).1) :
    L.Gives w G.Good (Eval.alloc f) (Eval.alloc g) := by
  intro s t hst
  obtain ⟨heq, w', hw, hst', hgood⟩ := h s t hst
  exact ⟨w', hw, hst', heq, hgood⟩

theorem newText (text : String) :
    L.Gives w G.Good (Eval.alloc (·.newText text)) (Eval.alloc (·.newText text)) := by
  refine L.alloc fun s t hst => ⟨?_, L.step_newText text hst⟩
  obtain ⟨fs, cells, rfl, -⟩ := L.sees hst
  rfl

theorem newNumber (n : Num) :
    L.Gives w G.Good (Eval.alloc (·.newNumber n)) (Eval.alloc (·.newNumber n)) := by
  refine L.alloc fun s t hst => ⟨?_, L.step_newNumber n hst⟩
  obtain ⟨fs, cells, rfl, -⟩ := L.sees hst
  simp only [Store.newNumber]
  cases n.normalize <;> rfl

theorem newVector {items : Array Value} (h : G.GoodAll w items.toList) :
    L.Gives w G.Good (Eval.alloc (·.newVector items)) (Eval.alloc (·.newVector items)) := by
  refine L.alloc fun s t hst => ⟨?_, L.step_newVector hst h⟩
  obtain ⟨fs, cells, rfl, -⟩ := L.sees hst
  rfl

theorem newPromise {form : Value} {env : Env} (hf : G.Good w form) (henv : G.Inside w env) :
    L.Gives w G.Good (Eval.alloc (·.newPromise (.pending form env)))
      (Eval.alloc (·.newPromise (.pending form env))) := by
  refine L.alloc fun s t hst => ⟨?_, L.step_newPromise hst hf henv⟩
  obtain ⟨fs, cells, rfl, -⟩ := L.sees hst
  rfl

theorem newCallable {f : Callable} (h : G.GoodCallable w f) :
    L.Gives w G.Good (Eval.alloc (·.newCallable f)) (Eval.alloc (·.newCallable f)) := by
  refine L.alloc fun s t hst => ⟨?_, L.step_newCallable hst h⟩
  obtain ⟨fs, cells, rfl, -⟩ := L.sees hst
  rfl

/-- A stand-in is only ever made for a name that asks for one. -/
theorem newDummy {x : Symbol} {s t : State} (hst : L.St w s t) (h : G.Good w (.sym x))
    (hd : s.symbols.isDummy x = true) :
    L.Match w (fun w' a b => b = a ∧ G.Good w' a) (Eval.alloc (·.newDummy x) s)
      (Eval.alloc (·.newDummy x) t) := by
  obtain ⟨w', hw, hst', hgood⟩ := L.step_newDummy hst h hd
  obtain ⟨fs, cells, rfl, -⟩ := L.sees hst
  exact ⟨w', hw, hst', rfl, hgood⟩

theorem newFailure {f g : Failure} (h : L.Fault w f g) :
    L.Gives w G.Good (Eval.alloc (·.newFailure f)) (Eval.alloc (·.newFailure g)) := by
  refine L.alloc fun s t hst => ⟨?_, L.step_newFailure hst h⟩
  obtain ⟨fs, cells, rfl, hfs, -⟩ := L.sees hst
  have hsize := congrArg Array.size hfs
  simp only [Array.size_map] at hsize
  simp only [Store.newFailure, State.withParts, hsize]

theorem setCar {r : Ref .cell} {v : Value} (hr : G.Good w (.pair r)) (hv : G.Good w v)
    (hfree : L.Frees .head) :
    L.Gives w (fun _ _ => True) (Eval.setCar r v) (Eval.setCar r v) := by
  intro s t hst
  obtain ⟨w', hw, hst', -⟩ := L.step_setCar hst hr hv (.inl hfree)
  exact ⟨w', hw, hst', rfl, trivial⟩

theorem setCdr {r : Ref .cell} {v : Value} (hr : G.Good w (.pair r)) (hv : G.Good w v)
    (hfree : L.Frees .tail) :
    L.Gives w (fun _ _ => True) (Eval.setCdr r v) (Eval.setCdr r v) := by
  intro s t hst
  obtain ⟨w', hw, hst', -⟩ := L.step_setCdr hst hr hv (.inl hfree)
  exact ⟨w', hw, hst', rfl, trivial⟩

theorem setItem {r : Ref .vector} {v : Value} (i : Nat) (hr : G.Good w (.vector r))
    (hv : G.Good w v) (hfree : L.Frees .item) :
    L.Gives w (fun _ _ => True) (Eval.update (·.setItem r i v))
      (Eval.update (·.setItem r i v)) := by
  intro s t hst
  obtain ⟨w', hw, hst', -⟩ := L.step_setItem i hst hr hv hfree
  exact ⟨w', hw, hst', rfl, trivial⟩

/-! ## Building lists -/

theorem cons {a d : Value} (ha : G.Good w a) (hd : G.Good w d) :
    L.Gives w G.Good (Eval.cons a d) (Eval.cons a d) := by
  intro s t hst
  have hstep := fun v => L.step_cons (v := v) hst ha hd
  obtain ⟨fs, cells, rfl, -, hsize, -⟩ := L.sees hst
  by_cases hroom : s.store.cells.size < s.store.capacity
  · have hcons : (s.store.cons a d).1 = some (.pair ⟨s.store.cells.size⟩) := by
      simp [Store.cons, hroom]
    obtain ⟨w', hw, hst', hgood⟩ := hstep _ hcons
    have hs : Eval.cons a d s =
        .ok (.pair ⟨s.store.cells.size⟩) (s.mapStore fun st => (st.cons a d).2) := by
      simp [Eval.cons, allocCells, Store.cons, hroom, State.mapStore]
    have ht : Eval.cons a d (s.withParts fs cells) =
        .ok (.pair ⟨s.store.cells.size⟩)
          ((s.withParts fs cells).mapStore fun st => (st.cons a d).2) := by
      simp [Eval.cons, allocCells, Store.cons, hroom, hsize, State.mapStore, State.withParts]
    rw [hs, ht]
    exact ⟨w', hw, hst', rfl, hgood⟩
  · have hs : Eval.cons a d s =
        .halt (.failed { cause := .storeFull s.store.capacity }) s := by
      simp [Eval.cons, allocCells, Store.cons, hroom]
    have ht : Eval.cons a d (s.withParts fs cells) =
        .halt (.failed { cause := .storeFull s.store.capacity }) (s.withParts fs cells) := by
      simp [Eval.cons, allocCells, Store.cons, hroom, hsize, State.withParts]
    rw [hs, ht]
    exact L.here hst (L.fault_new trivial)

theorem consAll {reversed : List Value} {tail : Value} (hr : G.GoodAll w reversed)
    (ht : G.Good w tail) :
    L.Gives w G.Good (Eval.consAll reversed tail) (Eval.consAll reversed tail) := by
  induction reversed generalizing w tail with
  | nil => exact L.give ht
  | cons v reversed ih =>
      obtain ⟨hv, hr⟩ := Guard.goodAll_cons.1 hr
      rw [consAll_cons]
      exact L.bind (L.cons hv ht) fun w₁ h₁ p hp => ih (hr.mono h₁) hp

theorem list {items : List Value} (h : G.GoodAll w items) :
    L.Gives w G.Good (Eval.list items) (Eval.list items) :=
  L.consAll (Guard.goodAll_reverse.2 h) (G.nil w)

/-! ## Text, frames and globals -/

theorem write (text : String) :
    L.Gives w (fun _ _ => True) (Eval.write text) (Eval.write text) := by
  intro s t hst
  have hout := L.step_outside (s.sink.add text) s.console s.reader s.requests s.opened hst
  obtain ⟨fs, cells, rfl, -⟩ := L.sees hst
  unfold Eval.write
  by_cases hroom : s.sink.accepts text = true
  · rw [if_pos hroom, if_pos (show (s.withParts fs cells).sink.accepts text = true from hroom)]
    obtain ⟨w', hw, hst', -⟩ := hout
    exact ⟨w', hw, hst', rfl, trivial⟩
  · rw [if_neg hroom, if_neg (show ¬ (s.withParts fs cells).sink.accepts text = true from hroom)]
    exact L.here hst (L.fault_new trivial)

theorem extend {slots : List Value} {next : Env} (hs : G.GoodAll w slots)
    (hn : G.Inside w next) :
    L.Gives w G.Inside (Eval.extend slots next) (Eval.extend slots next) := by
  intro s t hst
  obtain ⟨w', hw, hst', hin⟩ := L.step_extend hst hs hn
  obtain ⟨fs, cells, rfl, -⟩ := L.sees hst
  exact ⟨w', hw, hst', rfl, hin⟩

theorem assign {env : Env} {v : Value} (a : Address) {s t : State} (hst : L.St w s t)
    (henv : G.Inside w env) (hv : G.Good w v)
    (hfree : ∀ frame, s.frames.frameAt? env a.level = some frame → L.Frees (.slot frame a.offset)) :
    L.Match w (fun _ x y => y = x) (Eval.assign env a v s) (Eval.assign env a v t) := by
  have hassign := L.step_assign a.level a.offset hst henv hv hfree
  obtain ⟨fs, cells, rfl, -⟩ := L.sees hst
  unfold Eval.assign
  by_cases hslot : (s.frames.lookup? env a.level a.offset).isSome = true
  · rw [if_pos hslot, if_pos (show ((s.withParts fs cells).frames.lookup? env a.level
      a.offset).isSome = true from hslot)]
    obtain ⟨w', hw, hst', -⟩ := hassign
    exact ⟨w', hw, hst', rfl⟩
  · rw [if_neg hslot, if_neg (show ¬ ((s.withParts fs cells).frames.lookup? env a.level
      a.offset).isSome = true from hslot)]
    exact L.here hst rfl

theorem intern (name : String) :
    L.Gives w (fun w x => G.Good w (.sym x)) (Eval.intern name) (Eval.intern name) := by
  intro s t hst
  obtain ⟨w', hw, hst', hx⟩ := L.step_intern name hst
  obtain ⟨fs, cells, rfl, -⟩ := L.sees hst
  exact ⟨w', hw, hst', rfl, hx⟩

/-- Binding a symbol globally, which is refused for a keyword. -/
theorem bindGlobal {x : Symbol} {v : Value} (hx : G.Good w (.sym x)) (hv : G.Good w v)
    {refusal : Eval Unit} (hr : L.Gives w (fun _ _ => True) refusal refusal) :
    L.Gives w (fun _ _ => True)
      (do if ← Eval.isKeyword x then refusal else Eval.modify (·.setGlobal x v))
      (do if ← Eval.isKeyword x then refusal else Eval.modify (·.setGlobal x v)) := by
  intro s t hst
  have hset := L.step_setGlobal hst hx hv
  have hrefuse := hr s t hst
  obtain ⟨fs, cells, rfl, -⟩ := L.sees hst
  rw [bind_of_ok (show Eval.isKeyword x s = .ok (s.symbols.isKeyword x) s from rfl),
    bind_of_ok (show Eval.isKeyword x (s.withParts fs cells) =
      .ok (s.symbols.isKeyword x) (s.withParts fs cells) from rfl)]
  cases hk : s.symbols.isKeyword x with
  | true => exact hrefuse
  | false =>
      obtain ⟨w', hw, hst', -⟩ := hset hk
      exact ⟨w', hw, hst', rfl, trivial⟩

/-- Delivering a promise at the end of a call for it, unless its own evaluation has done so. -/
theorem settle {w₀ : G.World} {s₀ t₀ s t : State} {r : Ref .promise} {v : Value} {E : Engine}
    (hst₀ : L.St w₀ s₀ t₀) (hw₀ : w₀ ≤ w) (hst : L.St w s t)
    (hr : G.Good w (.promise r)) (hv : G.Final w v) (hE : L.Drives E)
    (hcall : E.deliverTurn r s₀ = Engine.settle r v s) :
    L.Match w (fun w' a b => b = a ∧ G.Final w' a) (Engine.settle r v s)
      (Engine.settle r v t) := by
  have hgood := (L.covers hst).promise hr
  have hsame : t.store.promise r = s.store.promise r := by
    obtain ⟨fs, cells, rfl, -⟩ := L.sees hst
    rfl
  cases hp : s.store.promise r with
  | delivered first =>
      rw [hp] at hgood hsame
      rw [Engine.settle_delivered hp, Engine.settle_delivered hsame]
      exact L.here hst ⟨rfl, hgood⟩
  | pending form env =>
      rw [hp] at hsame
      rw [Engine.settle_pending hp] at hcall
      rw [Engine.settle_pending hp, Engine.settle_pending hsame]
      obtain ⟨w', hw, hst', -⟩ := L.step_settle hst₀ hw₀ hst hr hv hp hE hcall
      exact ⟨w', hw, hst', rfl, G.final_mono hw hv⟩

end Simulation

end SmallLisp
