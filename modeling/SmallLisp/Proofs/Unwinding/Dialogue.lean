import SmallLisp.Proofs.Rounds
import SmallLisp.Proofs.Run

/-!
# Dialogues with an engine

A computation against an engine is done, or it asks the engine for a call and goes on by the answer.
Along this dialogue nothing stops an exit, and the computation fails only with what it raises on its
own account, when nothing is recorded in the failure yet, or with the failure of a call that it
asked for. What it does on its own account keeps the configuration and the promises that there are,
so a property of these that the calls keep as well holds throughout. All parts of the evaluator but
the two special forms that catch failures relay these: where a call fails, so does what asked for
it, with the same failure and in the same state.
-/

namespace SmallLisp

/-- A refusal that has not left its native. -/
def Cause.isNative : Cause → Bool
  | .native _ => true
  | _ => false

/-- What an engine can be asked for. -/
inductive Call where
  | eval (form : Value) (env : Env)
  | apply (f args : Value) (env : Env)
  | deliver (r : Ref .promise)

/-- What the engine makes of a call. -/
def Engine.perform (E : Engine) : Call → Eval Value
  | .eval form env => E.eval form env
  | .apply f args env => E.apply f args env
  | .deliver r => E.deliver r

/-- The dialogue of a computation with engines of the fuel `n`, where all states have the property
`K`. It raises its `own` failures, and it has `met` those of the calls that it asked for so far. -/
inductive Dialogue (K : State → Prop) (n : Nat) (relays : Prop) (own : Failure → Prop) {α : Type} :
    (Failure → Prop) → (Engine → Outcome α) → Prop
  | done {met : Failure → Prop} {x : Engine → Outcome α} (o : Outcome α)
      (same : ∀ E, E.fuel = n → x E = o) (kept : K o.state)
      (fails : ∀ f t, o = .halt (.failed f) t → own f ∨ met f) : Dialogue K n relays own met x
  /-- The call is asked for in the state `u`, and `k` goes on with what comes of it. -/
  | ask {met : Failure → Prop} {x : Engine → Outcome α} (b : Call) (u : State)
      (k : Outcome Value → Engine → Outcome α)
      (same : ∀ E, E.fuel = n → x E = k (E.perform b u) E) (kept : K u)
      (goes : ∀ o, K o.state →
        Dialogue K n relays own (fun f => met f ∨ ∃ t, o = .halt (.failed f) t) (k o))
      (stops : ∀ h t E, (∀ f, h ≠ .failed f) → k (.halt h t) E = .halt h t)
      (passes : relays → ∀ f t E, f.cause.isNative = false →
        k (.halt (.failed f) t) E = .halt (.failed f) t) : Dialogue K n relays own met x

/-- Go on from how a computation ended. An exit and lack of fuel are the end of it. -/
def Outcome.resume {α β : Type} (ok : α → State → Outcome β)
    (failed : Failure → State → Outcome β) : Outcome α → Outcome β
  | .ok a t => ok a t
  | .halt (.failed f) t => failed f t
  | .halt (.exited code) t => .halt (.exited code) t
  | .halt .exhausted t => .halt .exhausted t

theorem Outcome.resume_halt {α β : Type} {ok : α → State → Outcome β}
    {failed : Failure → State → Outcome β} {h : Halt} (hh : ∀ f, h ≠ .failed f) (t : State) :
    Outcome.resume ok failed (.halt h t) = .halt h t := by
  cases h with
  | failed f => exact absurd rfl (hh f)
  | exited code => rfl
  | exhausted => rfl

namespace Dialogue

variable {K : State → Prop} {n : Nat} {relays : Prop} {own own' met met' : Failure → Prop}
  {α β : Type}

theorem congr {x y : Engine → Outcome α} (h : Dialogue K n relays own met x)
    (hy : ∀ E, E.fuel = n → y E = x E) : Dialogue K n relays own met y := by
  cases h with
  | done o same kept fails =>
      exact .done o (fun E hE => (hy E hE).trans (same E hE)) kept fails
  | ask b u k same kept goes stops passes =>
      exact .ask b u k (fun E hE => (hy E hE).trans (same E hE)) kept goes stops passes

theorem mono {x : Engine → Outcome α} (h : Dialogue K n relays own met x)
    (hmet : ∀ f, met f → met' f) : Dialogue K n relays own met' x := by
  induction h generalizing met' with
  | done o same kept fails =>
      exact .done o same kept fun f t ho => (fails f t ho).imp_right (hmet f)
  | ask b u k same kept goes stops passes ih =>
      exact .ask b u k same kept (fun o ho => ih o ho fun f hf => hf.imp_left (hmet f)) stops passes

/-- Go on after a computation, also when it failed. -/
theorem resume {x : Engine → Outcome α} (ok : Engine → α → State → Outcome β)
    (failed : Engine → Failure → State → Outcome β) (h : Dialogue K n relays own met x)
    (hok : ∀ a t, K t → Dialogue K n relays own' met (ok · a t))
    (hfailed : ∀ f t (met' : Failure → Prop), (∀ g, met g → met' g) → own f ∨ met' f →
      K t → Dialogue K n relays own' met' (failed · f t))
    (hrelays : relays → ∀ E f t, f.cause.isNative = false → failed E f t = .halt (.failed f) t) :
    Dialogue K n relays own' met fun E => (x E).resume (ok E) (failed E) := by
  induction h with
  | @done met x o same kept fails =>
      have hdone : ∀ h t, o = .halt h t → (∀ f, h ≠ .failed f) →
          Dialogue K n relays own' met fun E => (x E).resume (ok E) (failed E) := by
        intro h t ho hh
        subst ho
        refine .done (.halt h t) (fun E hE => ?_) kept fun f u hf => ?_
        · rw [same E hE, Outcome.resume_halt hh]
        · cases hf
          exact absurd rfl (hh f)
      rcases o with ⟨a, t⟩ | ⟨f | code | _, t⟩
      · exact (hok a t kept).congr fun E hE => by rw [same E hE]; rfl
      · refine (hfailed f t met (fun _ hg => hg) (fails f t rfl) kept).congr fun E hE => ?_
        rw [same E hE]
        rfl
      · exact hdone _ t rfl fun f hf => by cases hf
      · exact hdone _ t rfl fun f hf => by cases hf
  | @ask met x b u k same kept goes stops passes ih =>
      refine .ask b u (fun o E => (k o E).resume (ok E) (failed E)) (fun E hE => ?_) kept
        (fun o ho => ih o ho (fun a t ht => ?_) fun f t met' hmet => ?_) (fun h t E hh => ?_)
        fun hr f t E hf => ?_
      · rw [same E hE]
      · exact (hok a t ht).mono fun f hf => .inl hf
      · exact hfailed f t met' fun g hg => hmet g (.inl hg)
      · rw [stops h t E hh, Outcome.resume_halt hh]
      · rw [passes hr f t E hf]
        exact hrelays hr E f t hf

end Dialogue

/-- From the first state to the second the configuration stays, and so do the promises there are. -/
structure State.Leads (s t : State) : Prop where
  config : t.config = s.config
  size : s.store.promises.size ≤ t.store.promises.size
  promise : ∀ r : Ref .promise, r.index < s.store.promises.size →
    t.store.promise r = s.store.promise r

namespace State.Leads

variable {s t : State}

theorem of_eq (hconfig : t.config = s.config) (h : t.store.promises = s.store.promises) :
    s.Leads t := ⟨hconfig, by rw [h], fun r _ => Store.promise_of_promises_eq h r⟩

theorem of_push {p : Promise} (hconfig : t.config = s.config)
    (h : t.store.promises = s.store.promises.push p) : s.Leads t :=
  ⟨hconfig, by rw [h, Array.size_push]; omega, fun _ hr => Store.promise_push h hr⟩

end State.Leads

/-- The property stays with a state as the machine goes on, and as it delivers these promises. -/
structure State.Lasting (delivers : Ref .promise → Prop) (K : State → Prop) : Prop where
  leads : ∀ {s t : State}, s.Leads t → K s → K t
  deliver : ∀ {s : State} {r : Ref .promise} (v : Value), delivers r → K s →
    K (s.mapStore (·.setPromise r (.delivered v)))

/-- How a computation goes on: the fuel of its engines, whether it relays the failures of calls,
what it raises of its own, the failures it has met before, and the promises that it delivers on its
own account. -/
structure Manner where
  fuel : Nat
  Relays : Prop
  Raises : Failure → Prop
  Met : Failure → Prop
  Delivers : Ref .promise → Prop
  raises : ∀ {f : Failure}, f.trace = #[] → f.cause.isNative = false → Raises f

namespace Manner

open Eval

/-- From the state on, the computation leads its dialogue in this manner. -/
def RunsFrom (M : Manner) {α : Type} (x : Engine → Eval α) (s : State) : Prop :=
  ∀ K : State → Prop, State.Lasting M.Delivers K → K s →
    Dialogue K M.fuel M.Relays M.Raises M.Met fun E => x E s

/-- The computation leads its dialogue in this manner from every state. -/
def Runs (M : Manner) {α : Type} (x : Engine → Eval α) : Prop := ∀ s, M.RunsFrom x s

/-- The manner of a computation that has met these failures. -/
def having (M : Manner) (met : Failure → Prop) : Manner := { M with Met := met }

/-- A failure that a computation may end with. -/
def Allows (M : Manner) (f : Failure) : Prop := M.Raises f ∨ M.Met f

variable {M : Manner} {α β : Type}

/-! ## Sequences -/

theorem Runs.congr {x y : Engine → Eval α} (h : M.Runs x)
    (hy : ∀ E, E.fuel = M.fuel → y E = x E) : M.Runs y :=
  fun s K hK hs => (h s K hK hs).congr fun E hE => by rw [hy E hE]

theorem RunsFrom.congr {x y : Engine → Eval α} {s : State} (h : M.RunsFrom x s)
    (hy : ∀ E, E.fuel = M.fuel → y E s = x E s) : M.RunsFrom y s :=
  fun K hK hs => (h K hK hs).congr hy

/-- Go on from a state that the machine leads to. -/
theorem RunsFrom.after {x y : Engine → Eval α} {s t : State} (h : M.RunsFrom x t)
    (hlead : s.Leads t) (hy : ∀ E, E.fuel = M.fuel → y E s = x E t) : M.RunsFrom y s :=
  fun K hK hs => (h K hK (hK.leads hlead hs)).congr hy

theorem RunsFrom.bind {x : Engine → Eval α} {f : Engine → α → Eval β} {s : State}
    (h : M.RunsFrom x s) (hf : ∀ a, M.Runs (f · a)) :
    M.RunsFrom (fun E => x E >>= f E) s := by
  intro K hK hs
  refine (Dialogue.resume f (fun _ f t => .halt (.failed f) t) (h K hK hs) ?_ ?_ ?_).congr ?_
  · exact fun a t ht => hf a t K hK ht
  · intro f t met' _ hf ht
    exact .done _ (fun _ _ => rfl) ht fun g u hg => by cases hg; exact hf
  · exact fun _ _ _ _ _ => rfl
  · intro E _
    show (x E >>= f E) s = _
    rw [bind_apply]
    rcases x E s with ⟨a, t⟩ | ⟨f | code | _, t⟩ <;> rfl

theorem Runs.bind {x : Engine → Eval α} {f : Engine → α → Eval β} (h : M.Runs x)
    (hf : ∀ a, M.Runs (f · a)) : M.Runs fun E => x E >>= f E := fun s => (h s).bind hf

/-- Go on after a computation, also when it failed. -/
theorem RunsFrom.attempt {x : Engine → Eval α} {k : Engine → Except Failure α → Eval β} {s : State}
    (h : M.RunsFrom x s) (hok : ∀ a, M.Runs (k · (.ok a)))
    (hfailed : ∀ f met, (∀ g, M.Met g → met g) → (M.having met).Allows f →
      (M.having met).Runs (k · (.error f)))
    (hrelays : M.Relays → ∀ E f t, f.cause.isNative = false →
      k E (.error f) t = .halt (.failed f) t) :
    M.RunsFrom (fun E => Eval.attempt (x E) >>= k E) s := by
  intro K hK hs
  refine (Dialogue.resume (fun E a => k E (.ok a)) (fun E f => k E (.error f)) (h K hK hs) ?_ ?_
    hrelays).congr ?_
  · exact fun a t ht => hok a t K hK ht
  · exact fun f t met hmet hf ht => hfailed f met hmet hf t K hK ht
  · intro E _
    show (Eval.attempt (x E) >>= k E) s = _
    rw [bind_apply, Eval.attempt]
    rcases x E s with ⟨a, t⟩ | ⟨f | code | _, t⟩ <;> rfl

theorem Runs.attempt {x : Engine → Eval α} {k : Engine → Except Failure α → Eval β} (h : M.Runs x)
    (hok : ∀ a, M.Runs (k · (.ok a)))
    (hfailed : ∀ f met, (∀ g, M.Met g → met g) → (M.having met).Allows f →
      (M.having met).Runs (k · (.error f)))
    (hrelays : M.Relays → ∀ E f t, f.cause.isNative = false →
      k E (.error f) t = .halt (.failed f) t) :
    M.Runs fun E => Eval.attempt (x E) >>= k E :=
  fun s => (h s).attempt hok hfailed hrelays

/-- After a computation that ends well one may use what its value is known to be. -/
theorem Runs.after {P : α → Prop} {x : Eval α} {f : Engine → α → Eval β}
    (h : ∀ s, ∃ a t, x s = .ok a t ∧ s.Leads t ∧ P a) (hf : ∀ a, P a → M.Runs (f · a)) :
    M.Runs fun E => x >>= f E := by
  intro s
  obtain ⟨a, t, hx, hlead, ha⟩ := h s
  exact (hf a ha t).after hlead fun E _ => bind_of_ok hx

theorem Runs.ite {p : Prop} [Decidable p] {x y : Engine → Eval α} (hx : M.Runs x) (hy : M.Runs y) :
    M.Runs fun E => if p then x E else y E := by
  by_cases hp : p
  · exact hx.congr fun E _ => if_pos hp
  · exact hy.congr fun E _ => if_neg hp

/-! ## What asks for nothing -/

theorem Runs.of_ok {x : Eval α} (h : ∀ s, ∃ a t, x s = .ok a t ∧ s.Leads t) :
    M.Runs fun _ => x := by
  intro s K hK hs
  obtain ⟨a, t, hx, hlead⟩ := h s
  exact .done (.ok a t) (fun _ _ => hx) (hK.leads hlead hs) fun f u hf => by cases hf

theorem Runs.halt {h : Halt} (hh : ∀ f, h = .failed f → M.Allows f) :
    M.Runs fun _ => (Eval.halt h : Eval α) := by
  intro s K _ hs
  refine .done (.halt h s) (fun _ _ => rfl) hs fun f t hf => hh f ?_
  cases hf
  rfl

theorem Runs.pure (a : α) : M.Runs fun _ => (Pure.pure a : Eval α) :=
  .of_ok fun s => ⟨a, s, rfl, .of_eq rfl rfl⟩

theorem Runs.gets (f : State → α) : M.Runs fun _ => Eval.gets f :=
  .of_ok fun s => ⟨f s, s, rfl, .of_eq rfl rfl⟩

theorem Runs.modify {f : State → State} (h : ∀ s : State, s.Leads (f s)) :
    M.Runs fun _ => Eval.modify f := .of_ok fun s => ⟨(), f s, rfl, h s⟩

theorem Runs.alloc {f : Store → α × Store} (h : ∀ st, (f st).2.promises = st.promises) :
    M.Runs fun _ => Eval.alloc f := .of_ok fun s => ⟨_, _, rfl, .of_eq rfl (h s.store)⟩

theorem Runs.update {f : Store → Store} (h : ∀ st, (f st).promises = st.promises) :
    M.Runs fun _ => Eval.update f := .alloc h

theorem Runs.newNumber (n : Num) : M.Runs fun _ => Eval.alloc (·.newNumber n) := by
  refine .alloc fun st => ?_
  unfold Store.newNumber
  cases n.normalize <;> rfl

theorem Runs.newPromise (form : Value) (env : Env) :
    M.Runs fun _ => Eval.alloc (·.newPromise (.pending form env)) :=
  .of_ok fun _ => ⟨_, _, rfl, .of_push rfl rfl⟩

theorem Runs.exhausted : M.Runs fun _ => (Eval.halt .exhausted : Eval α) :=
  .halt fun f hf => by cases hf

theorem Runs.refail {f : Failure} (h : M.Allows f) : M.Runs fun _ => (Eval.refail f : Eval α) :=
  .halt fun g hg => by cases hg; exact h

theorem Runs.fail {c : Cause} (h : M.Raises { cause := c }) :
    M.Runs fun _ => (Eval.fail c : Eval α) := .refail (.inl h)

theorem Runs.failOn (v : Value) {cause : String → Cause}
    (h : ∀ text, M.Raises { cause := cause text }) :
    M.Runs fun _ => (Eval.failOn v cause : Eval α) := .bind (.gets _) fun text => .fail (h text)

theorem Runs.malformed (f : FormFault) : M.Runs fun _ => (Eval.malformed f : Eval α) :=
  .fail (M.raises rfl rfl)

theorem Runs.malformedOn (v : Value) (f : String → FormFault) :
    M.Runs fun _ => (Eval.malformedOn v f : Eval α) := .failOn v fun _ => M.raises rfl rfl

theorem Runs.allocCells {f : Store → Option Value × Store}
    (h : ∀ st, (f st).2.promises = st.promises) : M.Runs fun _ => Eval.allocCells f := by
  intro s K hK hs
  refine .done _ (fun _ _ => rfl) (hK.leads ?_ hs) fun g t hg => ?_
  · unfold Eval.allocCells
    dsimp only
    have hpromises := h s.store
    split <;> rename_i hf <;> rw [hf] at hpromises <;> exact .of_eq rfl hpromises
  · unfold Eval.allocCells at hg
    dsimp only at hg
    split at hg
    · cases hg
    · cases hg
      exact .inl (M.raises rfl rfl)

theorem Runs.consAll (reversed : List Value) (tail : Value) :
    M.Runs fun _ => Eval.consAll reversed tail :=
  .allocCells fun st => st.promises_consAll reversed tail

theorem Runs.cons (a d : Value) : M.Runs fun _ => Eval.cons a d :=
  .allocCells fun st => st.promises_cons a d

theorem Runs.list (items : List Value) : M.Runs fun _ => Eval.list items :=
  .allocCells fun st => st.promises_consAll items.reverse .nil

theorem Runs.car (r : Ref .cell) : M.Runs fun _ => Eval.car r := .gets _

theorem Runs.cdr (r : Ref .cell) : M.Runs fun _ => Eval.cdr r := .gets _

theorem Runs.extend (slots : List Value) (next : Env) : M.Runs fun _ => Eval.extend slots next :=
  .of_ok fun _ => ⟨_, _, rfl, .of_eq rfl rfl⟩

theorem Runs.isKeyword (x : Symbol) : M.Runs fun _ => Eval.isKeyword x := .gets _

theorem Runs.nameOf (x : Symbol) : M.Runs fun _ => Eval.nameOf x := .gets _

theorem Runs.notProper (v : Value) : M.Runs fun _ => (Eval.failOn v .notProper : Eval α) :=
  .failOn v fun _ => M.raises rfl rfl

theorem Runs.notVariable (v : Value) : M.Runs fun _ => (Eval.failOn v .notVariable : Eval α) :=
  .failOn v fun _ => M.raises rfl rfl

theorem Runs.notApplicable (v : Value) : M.Runs fun _ => (Eval.failOn v .notApplicable : Eval α) :=
  .failOn v fun _ => M.raises rfl rfl

/-! ## What asks for a call -/

theorem Runs.perform (b : Call) : M.Runs fun E => E.perform b := by
  intro s K _ hs
  refine .ask b s (fun o _ => o) (fun _ _ => rfl) hs (fun o ho => ?_) (fun _ _ _ _ => rfl)
    fun _ _ _ _ _ => rfl
  exact .done o (fun _ _ => rfl) ho fun f t hf => .inr (.inr ⟨t, hf⟩)

theorem Runs.eval (form : Value) (env : Env) : M.Runs fun E => E.eval form env :=
  .perform (.eval form env)

theorem Runs.apply (f args : Value) (env : Env) : M.Runs fun E => E.apply f args env :=
  .perform (.apply f args env)

/-! ## Promises and lists -/

theorem Runs.deliver (r : Ref .promise) : M.Runs fun E => E.deliver r := .perform (.deliver r)

theorem Runs.force (v : Value) : M.Runs fun E => E.force v := by
  cases v with
  | promise r => exact .deliver r
  | _ => exact .pure _

theorem Runs.pursue (form : Value) (env : Env) : M.Runs fun E => E.pursue form env :=
  .bind (.eval form env) fun v => .force v

theorem Runs.settle {r : Ref .promise} (h : M.Delivers r) (v : Value) :
    M.Runs fun _ => Engine.settle r v := by
  intro s K hK hs
  cases hp : s.store.promise r with
  | delivered first =>
      exact .done (.ok first s) (fun _ _ => Engine.settle_delivered hp) hs fun f t hf => by cases hf
  | pending form env =>
      refine .done _ (fun _ _ => Engine.settle_pending hp) (hK.deliver v h hs) fun f t hf => ?_
      cases hf

theorem Runs.deliverTurn {r : Ref .promise} (h : M.Delivers r) :
    M.Runs fun E => E.deliverTurn r := by
  intro s
  cases hp : s.store.promise r with
  | delivered v => exact (Runs.pure v s).congr fun E _ => Engine.deliverTurn_delivered hp
  | pending form env =>
      refine ((Runs.pursue form env).bind (fun v => .settle h v) s).congr fun E _ => ?_
      exact Engine.deliverTurn_pending hp

/-- What the tail of a cell is taken for once it is forced. -/
theorem Runs.cellOf (r : Ref .cell) (tail : Value) : M.Runs fun _ =>
    (match tail with
      | .nil => Pure.pure .nil
      | .pair next => Pure.pure (.pair next)
      | _ => Eval.failOn (.pair r) .notProper : Eval Value) := by
  cases tail with
  | nil => exact .pure _
  | pair next => exact .pure _
  | _ => exact .notProper _

theorem Runs.cdrCell (r : Ref .cell) : M.Runs fun E => E.cdrCell r := by
  refine .bind (.cdr r) fun tail => ?_
  cases tail with
  | promise p =>
      refine .bind (.deliver p) fun v => .bind (.update fun _ => rfl) fun _ => ?_
      exact .bind (.pure _) fun tail => .cellOf r tail
  | _ => exact .bind (.pure _) fun tail => .cellOf r tail

theorem Runs.mapItems {f : Engine → Value → Eval Value} (hf : ∀ v, M.Runs (f · v)) (k : Nat)
    (v : Value) (reversed : List Value) : M.Runs fun E => E.mapItems (f E) k v reversed := by
  induction k generalizing v reversed with
  | zero =>
      cases v with
      | nil => exact .pure _
      | pair r => exact .exhausted
      | _ => exact .notProper _
  | succ k ih =>
      cases v with
      | nil => exact .pure _
      | pair r =>
          refine .bind (.car r) fun item => .bind (hf item) fun result => ?_
          exact .bind (.cdrCell r) fun next => ih next _
      | _ => exact .notProper _

theorem Runs.mapList {f : Engine → Value → Eval Value} (hf : ∀ v, M.Runs (f · v)) (v : Value) :
    M.Runs fun E => E.mapList (f E) v :=
  (bind (mapItems hf M.fuel v []) fun reversed => .consAll reversed .nil).congr
    fun E hE => by rw [Engine.mapList, hE]

theorem Runs.reversedItems (v : Value) (reversed : List Value) :
    M.Runs fun E => E.mapItems Pure.pure E.fuel v reversed :=
  (mapItems (fun _ => .pure _) M.fuel v reversed).congr fun E hE => by rw [hE]

theorem Runs.items (v : Value) : M.Runs fun E => E.items v :=
  .bind (.reversedItems v []) fun _ => .pure _

theorem Runs.forceItems (k : Nat) (v : Value) : M.Runs fun E => E.forceItems k v := by
  induction k generalizing v with
  | zero =>
      cases v with
      | pair r => exact .exhausted
      | _ => exact .pure _
  | succ k ih =>
      cases v with
      | pair r =>
          refine .bind (.car r) fun item => .bind (.force item) fun item => ?_
          exact .bind (.update fun _ => rfl) fun _ => .bind (.cdrCell r) fun next => ih next
      | _ => exact .pure _

theorem Runs.forceEach (v : Value) : M.Runs fun E => E.forceEach v :=
  (forceItems M.fuel v).congr fun E hE => by rw [Engine.forceEach, hE]

theorem Runs.bodyWithin (env : Env) (k : Nat) (v : Value) :
    M.Runs fun E => E.bodyWithin env k v := by
  induction k generalizing v with
  | zero =>
      cases v with
      | pair r => exact .exhausted
      | _ => exact .pure _
  | succ k ih =>
      cases v with
      | pair r =>
          refine .bind (.car r) fun form => .bind (.cdrCell r) fun next => ?_
          exact .ite (.pure _) (.bind (.eval form env) fun _ => ih next)
      | _ => exact .pure _

theorem Runs.body (forms : Value) (env : Env) : M.Runs fun E => E.body forms env :=
  (bodyWithin env M.fuel forms).congr fun E hE => by rw [Engine.body, hE]

theorem Runs.sequenceWithin (env : Env) (k : Nat) (v last : Value) :
    M.Runs fun E => E.sequenceWithin env k v last := by
  induction k generalizing v last with
  | zero =>
      cases v with
      | pair r => exact .exhausted
      | _ => exact .pure _
  | succ k ih =>
      cases v with
      | pair r =>
          refine .bind (.car r) fun form => .bind (.eval form env) fun v => ?_
          exact .bind (.cdrCell r) fun next => ih next v
      | _ => exact .pure _

theorem Runs.sequence (forms : Value) (env : Env) : M.Runs fun E => E.sequence forms env :=
  (sequenceWithin env M.fuel forms .nil).congr fun E hE => by rw [Engine.sequence, hE]

/-! ## Calls -/

theorem Runs.takeItems (count : Nat) (v : Value) (reversed : List Value) :
    M.Runs fun E => E.takeItems count v reversed := by
  induction count generalizing v reversed with
  | zero => exact .pure _
  | succ count ih =>
      cases v with
      | pair r =>
          refine .bind (.car r) fun item => .bind (.cdr r) fun tail => ?_
          exact .bind (.force tail) fun rest => ih rest _
      | _ => exact .pure _

theorem Runs.makeFrame (f : Callable) (args : Value) : M.Runs fun E => E.makeFrame f args := by
  refine .bind (.takeItems f.shape.required args []) fun taken => ?_
  have harity : M.Runs fun _ => (Eval.fail (.arity f.signature) : Eval (List Value)) :=
    .fail (M.raises rfl rfl)
  rcases taken with _ | ⟨reversed, rest⟩
  · exact harity
  · exact .ite (.ite (.pure _) harity) (.ite (.pure _) harity)

theorem Runs.evalSlots {f : Engine → Value → Eval Value} (hf : ∀ v, M.Runs (f · v))
    (required : Nat) (forms reversed : List Value) :
    M.Runs fun E => E.evalSlots (f E) required forms reversed := by
  induction forms generalizing required reversed with
  | nil => cases required <;> exact .pure _
  | cons form forms ih =>
      cases required with
      | zero => exact .bind (.mapList hf form) fun v => .pure _
      | succ required => exact .bind (hf form) fun v => ih required _

theorem Runs.evalFrame (shape : Shape) (frame : List Value) (env : Env) :
    M.Runs fun E => E.evalFrame shape frame env :=
  .evalSlots (fun form => .eval form env) shape.required frame []

theorem Runs.forceFrame (shape : Shape) (frame : List Value) (env : Env) :
    M.Runs fun E => E.forceFrame shape frame env :=
  .evalSlots (fun form => .bind (.eval form env) fun v => .force v) shape.required frame []

theorem Runs.expandCall (f : Callable) (body args : Value) :
    M.Runs fun E => E.expandCall f body args :=
  .bind (.makeFrame f args) fun frame => .bind (.extend frame none) fun env => .sequence body env

/-! ## Compiling -/

theorem Runs.parameterOf (v : Value) : M.Runs fun _ => Engine.parameterOf v := by
  have named : ∀ x, M.Runs fun _ => Engine.parameterOf.named x := by
    intro x
    refine .bind (.isKeyword x) fun b => ?_
    exact .ite (.bind (.nameOf x) fun name => .malformed _) (.pure _)
  cases v with
  | sym x => exact named x
  | address a => exact named a.symbol
  | dummy r => exact .bind (.gets _) fun x => .pure _
  | _ => exact .notVariable _

theorem Runs.parametersWithin (k : Nat) (v : Value) (ps : Parameters) :
    M.Runs fun E => E.parametersWithin k v ps := by
  induction k generalizing v ps with
  | zero =>
      cases v with
      | pair r => exact .exhausted
      | _ => exact .pure _
  | succ k ih =>
      cases v with
      | pair r =>
          have hbad : ∀ text, M.Runs fun _ => (Eval.fail (.notVariable text) : Eval Parameters) :=
            fun text => .fail (M.raises rfl rfl)
          refine .bind (.car r) fun item => .bind (.cdrCell r) fun next => ?_
          refine .ite (.malformedOn _ _) (.ite ?_ ?_)
          · cases next with
            | pair q =>
                refine .bind (.car q) fun item => .bind (.cdrCell q) fun next => ?_
                exact .ite (hbad _) (.bind (.parameterOf item) fun p => ih next _)
            | _ => exact hbad _
          · exact .bind (.parameterOf item) fun p => ih next _
      | _ => exact .pure _

theorem Runs.parameters (v : Value) : M.Runs fun E => E.parameters v :=
  (ite (parametersWithin M.fuel v {}) (.malformedOn v .parameters)).congr
    fun E hE => by rw [Engine.parameters, hE]

theorem Runs.resolve (ps : Parameters) (k : Nat) (v : Value) :
    M.Runs fun E => E.resolve ps k v := by
  induction k generalizing v with
  | zero =>
      cases v with
      | pair r => exact .exhausted
      | _ => exact .pure _
  | succ k ih =>
      cases v with
      | pair r => exact .bind (.car r) fun head => .ite (.pure _) (.mapList ih (.pair r))
      | _ => exact .pure _

theorem Runs.resolveAll (ps : Parameters) (v : Value) :
    M.Runs fun E => E.resolve ps E.fuel v :=
  (resolve ps M.fuel v).congr fun E hE => by rw [hE]

/-- The macro that a value is, if it is one. -/
theorem Runs.expanderOf (v : Value) : M.Runs fun _ =>
    (match v with
      | .callable r => do
          match ← Eval.gets (·.store.callable r) with
          | .expander shape body => Pure.pure (some (Callable.expander shape body, body))
          | _ => Pure.pure none
      | _ => Pure.pure none : Eval (Option (Callable × Value))) := by
  cases v with
  | callable r =>
      refine .bind (.gets _) fun f => ?_
      cases f <;> exact .pure _
  | _ => exact .pure _

theorem Runs.expander? (head : Value) : M.Runs fun _ => Engine.expander? head := by
  cases head with
  | sym x => exact .bind (.gets _) fun v => .bind (.pure _) fun v => .expanderOf v
  | _ => exact .bind (.pure _) fun v => .expanderOf v

theorem Runs.expandMacros (k allowed : Nat) (v : Value) :
    M.Runs fun E => E.expandMacros k allowed v := by
  induction k generalizing allowed v with
  | zero =>
      cases v with
      | pair r => exact .exhausted
      | _ => exact .pure _
  | succ k ih =>
      cases v with
      | pair r =>
          refine .bind (.car r) fun head => .ite (.pure _) (.bind (.expander? head) fun found => ?_)
          rcases found with _ | ⟨f, body⟩
          · exact .mapList (ih allowed) (.pair r)
          · cases allowed with
            | zero => exact .malformedOn _ _
            | succ allowed =>
                refine .bind (.cdrCell r) fun args => .bind (.expandCall f body args) ?_
                exact fun expanded => ih allowed expanded
      | _ => exact .pure _

theorem Runs.expandAll (allowed : Nat) (v : Value) :
    M.Runs fun E => E.expandMacros E.fuel allowed v :=
  (expandMacros M.fuel allowed v).congr fun E hE => by rw [hE]

theorem Runs.compilers (k : Nat) :
    (∀ kind v, M.Runs fun E => E.compileWithin k kind v) ∧
      ∀ v, M.Runs fun E => E.compileInner k v := by
  induction k with
  | zero =>
      refine ⟨fun kind v => ?_, fun v => ?_⟩
      · simp only [Engine.compileWithin]
        exact .exhausted
      · cases v with
        | pair r =>
            simp only [Engine.compileInner]
            exact .exhausted
        | _ =>
            simp only [Engine.compileInner]
            exact .pure _
  | succ k ih =>
      refine ⟨fun kind v => ?_, fun v => ?_⟩
      · cases v with
        | pair r =>
            simp only [Engine.compileWithin]
            refine .bind (.car r) fun head => .bind (.parameters head) fun ps => ?_
            refine .bind (.cdrCell r) fun forms => .bind (.resolveAll ps forms) fun forms => ?_
            refine .bind (.gets _) fun allowed => .bind (.expandAll allowed forms) fun forms => ?_
            exact .bind (ih.2 forms) fun forms => .alloc fun _ => rfl
        | _ =>
            simp only [Engine.compileWithin]
            exact .malformed _
      · cases v with
        | pair r =>
            simp only [Engine.compileInner]
            refine .bind (.car r) fun head => .ite (.pure _) (.ite ?_ (.ite (.malformedOn _ _) ?_))
            · exact .bind (.cdrCell r) fun rest => ih.1 .template rest
            · exact .mapList ih.2 (.pair r)
        | _ =>
            simp only [Engine.compileInner]
            exact .pure _

theorem Runs.compile (kind : CallableKind) (v : Value) : M.Runs fun E => E.compile kind v :=
  ((compilers M.fuel).1 kind v).congr fun E hE => by rw [Engine.compile, hE]

theorem Runs.dummyFor (x : Symbol) (names : Engine.Dummies) :
    M.Runs fun _ => Engine.dummyFor x names := by
  unfold Engine.dummyFor
  cases names.find? (·.1 == x) with
  | some p => exact .pure _
  | none => exact .bind (.alloc fun _ => rfl) fun v => .pure _

theorem Runs.replacing (k : Nat) :
    (∀ v names, M.Runs fun E => E.replaceWithin k v names) ∧
      ∀ v reversed names, M.Runs fun E => E.replaceItems k v reversed names := by
  have hsym : ∀ k x names, M.Runs fun E => E.replaceWithin k (.sym x) names := by
    intro k x names
    simp only [Engine.replaceWithin]
    exact .bind (.gets _) fun b => .ite (.dummyFor x names) (.pure _)
  induction k with
  | zero =>
      refine ⟨fun v names => ?_, fun v reversed names => ?_⟩
      · cases v with
        | sym x => exact hsym 0 x names
        | pair r =>
            simp only [Engine.replaceWithin]
            exact .exhausted
        | _ =>
            simp only [Engine.replaceWithin]
            exact .pure _
      · cases v with
        | nil =>
            simp only [Engine.replaceItems]
            exact .pure _
        | pair r =>
            simp only [Engine.replaceItems]
            exact .exhausted
        | _ =>
            simp only [Engine.replaceItems]
            exact .notProper _
  | succ k ih =>
      refine ⟨fun v names => ?_, fun v reversed names => ?_⟩
      · cases v with
        | sym x => exact hsym (k + 1) x names
        | pair r =>
            simp only [Engine.replaceWithin]
            exact .bind (ih.2 (.pair r) [] names) fun p => .bind (.consAll _ _) fun v => .pure _
        | _ =>
            simp only [Engine.replaceWithin]
            exact .pure _
      · cases v with
        | nil =>
            simp only [Engine.replaceItems]
            exact .pure _
        | pair r =>
            simp only [Engine.replaceItems]
            refine .bind (.car r) fun item => .bind (ih.1 item names) fun p => ?_
            exact .bind (.cdrCell r) fun next => ih.2 next _ _
        | _ =>
            simp only [Engine.replaceItems]
            exact .notProper _

theorem Runs.replaceDummies (v : Value) : M.Runs fun E => E.replaceDummies v :=
  (bind ((replacing M.fuel).1 v []) fun p => .pure p.1).congr
    fun E hE => by rw [Engine.replaceDummies, hE]

/-! ## Special forms -/

theorem Runs.operand? (args : Value) : M.Runs fun E => E.operand? args := by
  cases args with
  | pair r =>
      refine .bind (.cdrCell r) fun next => ?_
      exact .ite (.bind (.car r) fun v => .pure _) (.pure _)
  | _ => exact .pure _

theorem Runs.condWithin (env : Env) (k : Nat) (v : Value) :
    M.Runs fun E => E.condWithin env k v := by
  induction k generalizing v with
  | zero =>
      cases v with
      | pair r => exact .exhausted
      | _ => exact .pure _
  | succ k ih =>
      cases v with
      | pair r =>
          refine .bind (.car r) fun clause => ?_
          cases clause with
          | nil => exact .bind (.cdrCell r) fun next => ih next
          | pair q =>
              refine .bind (.car q) fun form => .bind (.eval form env) fun test => ?_
              refine .bind (.force test) fun test => ?_
              refine .ite (.bind (.cdrCell q) fun forms => ?_)
                (.bind (.cdrCell r) fun next => ih next)
              exact .ite (.pure _) (.bind (.body forms env) fun last => .pure _)
          | _ => exact .malformedOn _ _
      | _ => exact .pure _

theorem Runs.bindVariable (target v : Value) (env : Env) :
    M.Runs fun _ => Engine.bindVariable target v env := by
  cases target with
  | sym x =>
      refine .bind (.isKeyword x) fun b => ?_
      exact .ite (.bind (.nameOf x) fun name => .malformed _) (.modify fun _ => .of_eq rfl rfl)
  | address a =>
      refine .bind (.of_ok fun s => ?_) fun b => .ite (.pure _) (.notVariable _)
      unfold Eval.assign
      split <;> exact ⟨_, _, rfl, .of_eq rfl rfl⟩
  | _ => exact .notVariable _

theorem Runs.setqWithin (env : Env) (k : Nat) (v last : Value) :
    M.Runs fun E => E.setqWithin env k v last := by
  induction k generalizing v last with
  | zero =>
      cases v with
      | pair r => exact .exhausted
      | _ => exact .pure _
  | succ k ih =>
      cases v with
      | pair r =>
          refine .bind (.car r) fun target => .bind (.cdrCell r) fun rest => ?_
          cases rest with
          | pair rhs =>
              refine .bind (.car rhs) fun form => .bind (.eval form env) fun v => ?_
              refine .bind (.bindVariable target v env) fun _ => ?_
              exact .bind (.cdrCell rhs) fun next => ih next v
          | _ => exact .malformed _
      | _ => exact .pure _

theorem Runs.evalCatch (h : ¬ M.Relays) (args : Value) (env : Env) :
    M.Runs fun E => E.evalCatch args env := by
  cases args with
  | pair r =>
      refine .bind (.car r) fun form => .bind (.eval form env) fun tag => ?_
      refine .bind (.force tag) fun tag => .bind (.cdrCell r) fun forms => ?_
      refine .attempt (.sequence forms env) (fun v => .pure v) (fun f met _ hf => ?_)
        fun hrelays => absurd hrelays h
      show (M.having met).Runs fun _ => Engine.caught tag f
      unfold Engine.caught
      split
      · exact .ite (.pure _) (.refail hf)
      · exact .ite (.alloc fun _ => rfl) (.refail hf)
  | _ => exact .malformed _

theorem Runs.evalUnwindProtect (h : ¬ M.Relays) (args : Value) (env : Env) :
    M.Runs fun E => E.evalUnwindProtect args env := by
  cases args with
  | pair r =>
      refine .bind (.car r) fun form => .attempt (.eval form env) (fun v => ?_)
        (fun f met _ hf => ?_) fun hrelays => absurd hrelays h
      · exact .bind (.cdrCell r) fun forms => .bind (.sequence forms env) fun _ => .pure v
      · exact .bind (.cdrCell r) fun forms => .bind (.sequence forms env) fun _ => .refail hf
  | _ => exact .malformed _

theorem Runs.evalMacro (whole args : Value) (env : Env) :
    M.Runs fun E => E.evalMacro whole args env :=
  .ite (.malformedOn _ _) (.bind (.replaceDummies args) fun args => .compile .expander args)

/-- The special forms relay failures, but for the two that catch them. -/
theorem Runs.special {form : Special}
    (h : M.Relays → form ≠ .catching ∧ form ≠ .unwindProtect) (whole args : Value) (env : Env) :
    M.Runs fun E => E.special form whole args env := by
  cases form with
  | quote =>
      refine .bind (.operand? args) fun v => ?_
      cases v with
      | some v => exact .pure _
      | none => exact .malformed _
  | progn => exact .bind (.body args env) fun last => .pure _
  | cond => exact (condWithin env M.fuel args).congr fun E hE => by rw [Engine.special, hE]
  | setq =>
      refine (bind (setqWithin env M.fuel args .nil) fun v => .pure (.done v)).congr fun E hE => ?_
      rw [Engine.special, hE]
  | lambda => exact .bind (.compile _ args) fun v => .pure _
  | expander => exact .bind (.evalMacro whole args env) fun v => .pure _
  | catching => exact .bind (.evalCatch (fun hr => (h hr).1 rfl) args env) fun v => .pure _
  | unwindProtect =>
      exact .bind (.evalUnwindProtect (fun hr => (h hr).2 rfl) args env) fun v => .pure _
  | delay =>
      refine .bind (.operand? args) fun v => ?_
      cases v with
      | some form => exact .bind (.newPromise form env) fun v => .pure _
      | none => exact .malformed _

end Manner

end SmallLisp
