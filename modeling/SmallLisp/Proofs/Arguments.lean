import SmallLisp.Proofs.Arithmetic.Natives
import SmallLisp.Proofs.Compiler.ExpandedOnce
import SmallLisp.Proofs.Recursive
import SmallLisp.Proofs.Template.Calls
import SmallLisp.Proofs.Trampoline

/-!
# The arguments that a callable gets

There are two ways to the frame of a call. A callable that is applied to a list gets the items,
which are forced in place before they are laid out if it is a native that is not lazy. A callable at
the head of a form gets the values of the operands, which are laid out first, then evaluated slot by
slot and forced there. Both come to the same: the arguments one after another, from left to right,
laid out for the shape of the callable. The first way leaves what it forces in the list, and the
second reads its operands from the form, so both have to be out of reach of what is forced.
-/

namespace SmallLisp

open Eval

/-! ## The two ways to a frame -/

namespace Callable

/-- The callables that are called on values. -/
def takesValues : Callable → Bool
  | .native _ | .closure .. => true
  | _ => false

/-- Whether the arguments are forced: they are for a native that is not lazy. -/
def forces : Callable → Bool
  | .native n => !n.isLazy
  | _ => false

end Callable

/-- The frame is the values, laid out for a shape: one slot for each that is required, and if there
is a rest, a slot for the proper list of the others. -/
def Store.Lays (s : Store) (shape : Shape) (us frame : List Value) : Prop :=
  if shape.hasRest then s.LaidOut shape us frame else us.length = shape.required ∧ frame = us

theorem Store.lays_of_takes {s : Store} {shape : Shape} {us : List Value} {rest : Value}
    (htakes : shape.Takes us.length) (hrest : s.Chain (us.drop shape.required) .nil rest) :
    s.Lays shape us (us.take shape.required ++ if shape.hasRest then [rest] else []) := by
  unfold Shape.Takes at htakes
  unfold Store.Lays
  by_cases hshape : shape.hasRest = true
  · rw [if_pos hshape] at htakes ⊢
    rw [if_pos hshape]
    exact ⟨htakes, rest, hrest, rfl⟩
  · rw [if_neg hshape] at htakes ⊢
    rw [if_neg hshape, ← htakes, List.take_length, List.append_nil]
    exact ⟨rfl, rfl⟩

namespace Engine

/-- What a callable gets for a value. -/
def argument (E : Engine) (f : Callable) (v : Value) : Eval Value :=
  if f.forces then E.force v else pure v

/-- What a callable gets for values, one after another from the left. -/
def arguments (E : Engine) (f : Callable) : List Value → Eval (List Value)
  | [] => pure []
  | v :: vs => do
      let u ← E.argument f v
      let us ← E.arguments f vs
      pure (u :: us)

/-- The frame on which a callable is called when it is applied to a list. -/
def appliedFrame (E : Engine) (f : Callable) (args : Value) : Eval (List Value) := do
  if f.forces then E.forceEach args
  E.makeFrame f args

/-- The frame on which a callable is called in the turn of a form. -/
def calledFrame (E : Engine) (f : Callable) (forms : Value) (env : Env) : Eval (List Value) := do
  let frame ← E.makeFrame f forms
  if f.forces then E.forceFrame f.shape frame env else E.evalFrame f.shape frame env

/-- The turn of a callable that is called on a frame. -/
def turnOn (E : Engine) (f : Callable) (env : Env) (frame : List Value) : Eval Step :=
  match f with
  | .closure _ body captured => do
      let inner ← extend frame captured
      let last ← E.body body inner
      pure (.next last inner)
  | .native n => do
      let v ← n.call E frame env
      pure (.done v)
  | _ => halt .exhausted

theorem argument_of_forces {E : Engine} {f : Callable} (hf : f.forces = true) (v : Value) :
    E.argument f v = E.force v := if_pos hf

theorem argument_of_not_forces {E : Engine} {f : Callable} (hf : f.forces = false) (v : Value) :
    E.argument f v = pure v := by
  rw [argument, hf]
  rfl

/-- Values that are not forced are passed on as they are. -/
theorem arguments_of_not_forces {E : Engine} {f : Callable} (hf : f.forces = false)
    (vs : List Value) (s : State) : E.arguments f vs s = .ok vs s := by
  induction vs with
  | nil => rfl
  | cons v vs ih =>
      rw [arguments, argument_of_not_forces hf, bind_of_ok (pure_apply v s), bind_of_ok ih]
      rfl

theorem length_arguments {E : Engine} {f : Callable} {vs us : List Value} {s t : State}
    (h : E.arguments f vs s = .ok us t) : us.length = vs.length := by
  induction vs generalizing us s with
  | nil =>
      cases h
      rfl
  | cons v vs ih =>
      obtain ⟨u, s₁, -, h⟩ := bind_eq_ok.1 h
      obtain ⟨us', s₂, hus, h⟩ := bind_eq_ok.1 h
      cases h
      rw [List.length_cons, List.length_cons, ih hus]

/-- Applying a callable to a list is its turn on the frame, and what is left to do after that. -/
theorem applyList_eq (E : Engine) {s : State} {r : Ref .callable} {f : Callable} (args : Value)
    (env : Env) (hr : s.store.callable r = f) (hf : f.takesValues = true) :
    E.applyList (.callable r) args env s =
      (E.appliedFrame f args >>= fun frame => E.turnOn f env frame >>= E.finish) s := by
  have hforce : E.force (.callable r) s = .ok (.callable r) s := rfl
  rw [applyList, bind_of_ok hforce]
  dsimp only
  rw [bind_of_ok (gets_apply _ s), hr]
  cases f with
  | native n =>
      simp only [appliedFrame, turnOn, Callable.forces, bind_assoc, pure_bind, finish, bind_pure]
      by_cases hlazy : n.isLazy = true
      · simp only [hlazy]
        rfl
      · simp only [hlazy, Bool.not_false, if_true, bind_assoc]
  | closure shape body captured =>
      simp only [appliedFrame, turnOn, Callable.forces, bind_assoc, pure_bind, finish]
      rfl
  | _ => cases hf

end Engine

/-! ## Quotations -/

/-- The value quotes the other, in cells that belong to someone. -/
def Store.Quotes (s : Store) (own : Ref .cell → Prop) (q v : Value) : Prop :=
  s.Owned own [.sym Symbol.quote, v] q

/-- The value is the list of quotations of the values, in cells that belong to someone. -/
def Store.QuotesAll (s : Store) (own : Ref .cell → Prop) (vs : List Value) (v : Value) : Prop :=
  ∃ qs, s.Owned own qs v ∧ List.Forall₂ (s.Quotes own) qs vs

/-- A form of quotations that begins with a callable is a call of it on the frame of the others. -/
theorem Engine.step_eq {s : State} {own : Ref .cell → Prop} {r : Ref .callable}
    {f : Callable} {vs : List Value} {form : Value} (env : Env) (hr : s.store.callable r = f)
    (hf : f.takesValues = true) (hform : s.store.QuotesAll own (.callable r :: vs) form) :
    ∃ forms, s.store.QuotesAll own vs forms ∧ ∀ n, (Engine.ofFuel (n + 1)).step form env s =
      ((Engine.ofFuel (n + 1)).calledFrame f forms env >>=
        (Engine.ofFuel (n + 1)).turnOn f env) s := by
  obtain ⟨qs, hqs, hall⟩ := hform
  cases hall with
  | @cons q _ qs _ hq hall =>
      obtain ⟨p, forms, rfl, -, hp, hforms⟩ := hqs
      refine ⟨forms, ⟨qs, hforms, hall⟩, fun n => ?_⟩
      have hhead : (Engine.ofFuel (n + 1)).eval q env s = .ok (.callable r) s :=
        Site.evaluate_quote n env hq.chain
      have hforce : (Engine.ofFuel (n + 1)).force (.callable r) s = .ok (.callable r) s := rfl
      obtain ⟨q', -, rfl, -⟩ := hq
      rw [Engine.step, Engine.pairStep, bind_of_ok (car_apply p s), Store.car_of_cell? hp,
        bind_of_ok ((Engine.ofFuel (n + 1)).cdrCell_of_list hp hforms.chain)]
      dsimp only
      rw [Engine.callStep, bind_of_ok hhead, bind_of_ok hforce]
      dsimp only
      rw [bind_of_ok (gets_apply _ s), hr]
      cases f with
      | native m =>
          simp only [calledFrame, Callable.forces, bind_assoc, Callable.shape]
          by_cases hlazy : m.isLazy = true
          · simp only [hlazy]
            rfl
          · simp only [hlazy]
            rfl
      | closure shape body captured =>
          simp only [calledFrame, Callable.forces, bind_assoc, Callable.shape]
          rfl
      | _ => cases hf

/-! ## Applying -/

namespace Store

theorem cell?_setCar_self {s : Store} {r : Ref .cell} {c : Cell} (h : s.cell? r = some c)
    (v : Value) : (s.setCar r v).cell? r = some { c with car := v } := by
  simp only [cell?, setCar, Array.getElem?_modify] at h ⊢
  rw [if_pos trivial, h]
  rfl

theorem cell?_setCar_of_ne {s : Store} {q r : Ref .cell} (h : q ≠ r) (v : Value) :
    (s.setCar r v).cell? q = s.cell? q := by
  have hne : r.index ≠ q.index := fun hi => h (by cases q; cases r; simp_all)
  simp only [cell?, setCar, Array.getElem?_modify, if_neg hne]

end Store

theorem State.Sealed.spares {hidden : Nat → Prop} {s : State} (hs : s.Sealed hidden) :
    s.SparesHidden hidden s := ⟨hs, le_refl _, fun _ _ => rfl⟩

namespace Engine

variable {hidden : Nat → Prop} {n : Nat} {f : Callable} {s s' t : State}

/-- What hidden cells hold makes no difference to what a callable gets. -/
theorem argument_sealed (hs : s.Sealed hidden) (hst : s.AgreesOutside hidden t) {v u : Value}
    (hv : (Guard.outside hidden).Good s.store.cells.size v)
    (h : (ofFuel n).argument f v s = .ok u s') :
    ∃ t', (ofFuel n).argument f v t = .ok u t' ∧ s'.AgreesOutside hidden t' ∧
      s.SparesHidden hidden s' ∧ t.SparesHidden hidden t' := by
  cases hf : f.forces with
  | true =>
      rw [argument_of_forces hf] at h ⊢
      obtain ⟨t', hok, hst', hspare, hspare', -⟩ := hs.force hst hv h
      exact ⟨t', hok, hst', hspare, hspare'⟩
  | false =>
      rw [argument_of_not_forces hf] at h ⊢
      cases h
      exact ⟨t, rfl, hst, hs.spares, (hst.sealed hs).spares⟩

/-- Once the first item of a list is forced, in place, the others are to be forced in the same way.
The cell of the first is none of theirs. -/
theorem forceItems_cons {own : Ref .cell → Prop} {v u : Value} {vs : List Value} {args : Value}
    {t₁ : State} (hf : f.forces = true) (hown : ∀ r, own r → hidden r.index)
    (hargs : t.store.Owned own (v :: vs) args) (hok : (ofFuel n).argument f v t = .ok u t₁)
    (hspare : t.SparesHidden hidden t₁) :
    ∃ r d, args = .pair r ∧ own r ∧
      let t₂ : State := t₁.mapStore (·.setCar r u)
      t₂.store.cell? r = some ⟨u, d⟩ ∧ t₂.store.Owned (fun q => own q ∧ q ≠ r) vs d ∧
      (∀ q, q ≠ r → hidden q.index → t₂.store.cell? q = t.store.cell? q) ∧
      ∀ k, (ofFuel n).forceItems (k + 1) args t = (ofFuel n).forceItems k d t₂ := by
  have hchain := hargs.chain
  obtain ⟨r, d, rfl, hr, hcell, hd⟩ := hargs
  let t₂ : State := t₁.mapStore (·.setCar r u)
  have hcell₁ : t₁.store.cell? r = some ⟨v, d⟩ := (hspare.kept _ (hown r hr)).trans hcell
  have hcell₂ : t₂.store.cell? r = some ⟨u, d⟩ := Store.cell?_setCar_self hcell₁ u
  have hother : ∀ q, q ≠ r → hidden q.index → t₂.store.cell? q = t.store.cell? q :=
    fun q hne hq => (Store.cell?_setCar_of_ne hne u).trans (hspare.kept _ hq)
  have hd₂ : t₂.store.Owned (fun q => own q ∧ q ≠ r) vs d :=
    (hd.ne_of_longer hchain (Nat.lt_succ_self _)).keeps fun q hq => hother q hq.2 (hown q hq.1)
  refine ⟨r, d, rfl, hr, hcell₂, hd₂, hother, fun k => ?_⟩
  rw [argument_of_forces hf] at hok
  rw [forceItems, bind_of_ok (car_apply r t), Store.car_of_cell? hcell, bind_of_ok hok,
    bind_of_ok (show setCar r u t₁ = .ok () t₂ from rfl),
    bind_of_ok ((ofFuel n).cdrCell_of_list hcell₂ hd₂.chain)]

/-- Forcing the items of a list in place, in cells that are out of reach of what is forced, is to
force them one after another. -/
theorem forceItems_alike {own : Ref .cell → Prop} {vs : List Value} {args : Value} {k : Nat}
    (hf : f.forces = true) (hk : vs.length ≤ k) (hs : s.Sealed hidden)
    (hst : s.AgreesOutside hidden t) (hown : ∀ r, own r → hidden r.index)
    (hargs : t.store.Owned own vs args)
    (hvs : ∀ v ∈ vs, (Guard.outside hidden).Good s.store.cells.size v) :
    (∀ us s', (ofFuel n).arguments f vs s = .ok us s' →
      ∃ t', (ofFuel n).forceItems k args t = .ok () t' ∧ s'.AgreesOutside hidden t' ∧
        t'.store.Owned own us args ∧
        ∀ r, hidden r.index → ¬ own r → t'.store.cell? r = t.store.cell? r) ∧
    ∀ t', (ofFuel n).forceItems k args t = .ok () t' →
      ∃ us s', (ofFuel n).arguments f vs s = .ok us s' := by
  induction vs generalizing k args s t own with
  | nil =>
      cases hargs
      have hdone : (ofFuel n).forceItems k .nil t = .ok () t := by cases k <;> rfl
      refine ⟨fun us s' h => ?_, fun _ _ => ⟨[], s, rfl⟩⟩
      cases h
      exact ⟨t, hdone, hst, rfl, fun _ _ _ => rfl⟩
  | cons v vs ih =>
      obtain ⟨k, rfl⟩ : ∃ j, k = j + 1 := Nat.exists_eq_succ_of_ne_zero (Nat.ne_zero_of_lt hk)
      have hv := hvs v List.mem_cons_self
      cases hforce : (ofFuel n).argument f v s with
      | halt c s₁ =>
          refine ⟨fun us s' h => ?_, fun t' h => ?_⟩
          · rw [arguments, bind_of_halt hforce] at h
            cases h
          · -- Had it been forced where the list is, it would have been here.
            obtain ⟨r, d, rfl, -, hcell, -⟩ := hargs
            rw [forceItems, bind_of_ok (car_apply r t), Store.car_of_cell? hcell] at h
            obtain ⟨u, t₁, hok, -⟩ := bind_eq_ok.1 h
            rw [← argument_of_forces hf] at hok
            obtain ⟨s₁', hok', -⟩ := argument_sealed (hst.sealed hs) hst.symm (hst.size_eq ▸ hv) hok
            rw [hforce] at hok'
            cases hok'
      | ok u s₁ =>
          obtain ⟨t₁, hok, hst₁, hspare, hspare'⟩ := argument_sealed hs hst hv hforce
          obtain ⟨r, d, rfl, hr, hcell, hd, hother, hstep⟩ :=
            forceItems_cons hf hown hargs hok hspare'
          obtain ⟨hforward, hback⟩ := ih (Nat.le_of_succ_le_succ hk) hspare.sealed
            (hst₁.modifyHidden (hown r hr) _) (fun q hq => hown q hq.1) hd
            fun w hw => (Guard.outside hidden).good_mono hspare.size_le
              (hvs w (List.mem_cons_of_mem _ hw))
          rw [arguments, hstep]
          refine ⟨fun us s' h => ?_, fun t' h => ?_⟩
          · rw [bind_of_ok hforce] at h
            obtain ⟨us, s₂, hus, h⟩ := bind_eq_ok.1 h
            cases h
            obtain ⟨t', hok', hst', hlist, hkept⟩ := hforward us s' hus
            have hr' : t'.store.cell? r = some ⟨u, d⟩ :=
              (hkept r (hown r hr) fun hq => hq.2 rfl).trans hcell
            refine ⟨t', hok', hst', ⟨r, d, rfl, hr, hr', hlist.mono fun q hq => hq.1⟩, ?_⟩
            intro q hq hnot
            have hne : q ≠ r := fun heq => hnot (heq ▸ hr)
            exact (hkept q hq fun hq' => hnot hq'.1).trans (hother q hne hq)
          · obtain ⟨us, s', hus⟩ := hback t' h
            exact ⟨u :: us, s', by rw [bind_of_ok hforce, bind_of_ok hus]; rfl⟩

/-- The frame on which a callable is applied has what it gets for the items. -/
theorem appliedFrame_alike {own : Ref .cell → Prop} {vs : List Value} {args : Value}
    (hn : vs.length ≤ n) (hs : s.Sealed hidden) (hown : ∀ r, own r → hidden r.index)
    (hargs : s.store.Owned own vs args)
    (hvs : ∀ v ∈ vs, (Guard.outside hidden).Good s.store.cells.size v) :
    (∀ us w, f.shape.Takes vs.length → (ofFuel n).arguments f vs s = .ok us w →
      ∃ frame t, (ofFuel n).appliedFrame f args s = .ok frame t ∧ w.AgreesOutside hidden t ∧
        t.store.Lays f.shape us frame) ∧
    ∀ frame t, (ofFuel n).appliedFrame f args s = .ok frame t →
      f.shape.Takes vs.length ∧ ∃ us w, (ofFuel n).arguments f vs s = .ok us w := by
  have hlaid : ∀ {us t}, us.length = vs.length → t.store.Owned own us args →
      f.shape.Takes vs.length → ∃ frame, (ofFuel n).makeFrame f args t = .ok frame t ∧
        t.store.Lays f.shape us frame := by
    intro us t hlength hlist htakes
    rw [← hlength] at htakes
    obtain ⟨rest, hrest, hmake⟩ := makeFrame_of_takes (E := ofFuel n) hlist htakes
    exact ⟨_, hmake, Store.lays_of_takes htakes hrest.chain⟩
  have htaken : ∀ {us frame t t'}, us.length = vs.length → t.store.Owned own us args →
      (ofFuel n).makeFrame f args t = .ok frame t' → f.shape.Takes vs.length := by
    intro us frame t t' hlength hlist hmake
    by_contra htakes
    rw [← hlength] at htakes
    rw [makeFrame_of_not_takes hlist.chain htakes] at hmake
    cases hmake
  cases hf : f.forces with
  | false =>
      have happlied : (ofFuel n).appliedFrame f args = (ofFuel n).makeFrame f args := by
        rw [appliedFrame, hf]
        rfl
      rw [happlied, arguments_of_not_forces hf]
      refine ⟨fun us w htakes h => ?_, fun frame t h => ⟨htaken rfl hargs h, vs, s, rfl⟩⟩
      cases h
      obtain ⟨frame, hmake, hlays⟩ := hlaid rfl hargs htakes
      exact ⟨frame, s, hmake, .refl hidden s, hlays⟩
  | true =>
      have happlied : (ofFuel n).appliedFrame f args =
          (ofFuel n).forceItems n args >>= fun _ => (ofFuel n).makeFrame f args := by
        rw [appliedFrame, hf]
        rfl
      obtain ⟨hforward, hback⟩ := forceItems_alike (n := n) hf hn hs (.refl hidden s) hown hargs hvs
      rw [happlied]
      refine ⟨fun us w htakes h => ?_, fun frame t h => ?_⟩
      · obtain ⟨t, hforced, hagrees, hlist, -⟩ := hforward us w h
        obtain ⟨frame, hmake, hlays⟩ := hlaid (length_arguments h) hlist htakes
        exact ⟨frame, t, by rw [bind_of_ok hforced, hmake], hagrees, hlays⟩
      · obtain ⟨⟨⟩, t₁, hforced, hmake⟩ := bind_eq_ok.1 h
        obtain ⟨us, w, hus⟩ := hback t₁ hforced
        obtain ⟨t₂, hforced', -, hlist, -⟩ := hforward us w hus
        cases hforced.symm.trans hforced'
        exact ⟨htaken (length_arguments hus) hlist hmake, us, w, hus⟩

end Engine

/-! ## Calling -/

/-- Lay values out for a shape: the required ones, and a new list of the others if there is a
rest. -/
def Shape.layOut (shape : Shape) (us : List Value) : Eval (List Value) :=
  if shape.hasRest then do
    let rest ← consAll (us.drop shape.required).reverse .nil
    pure (us.take shape.required ++ [rest])
  else pure us

theorem Eval.bind_eq_of_ok {α β : Type} {x : Eval α} {g h : α → Eval β} {s : State}
    (heq : ∀ a t, x s = .ok a t → g a t = h a t) : (x >>= g) s = (x >>= h) s := by
  cases hx : x s with
  | ok a t => rw [bind_of_ok hx, bind_of_ok hx, heq a t hx]
  | halt c t => rw [bind_of_halt hx, bind_of_halt hx]

namespace Engine

variable {hidden : Nat → Prop} {n : Nat} {f : Callable} {s t : State} {env : Env}
  {vs qs : List Value}

/-- Evaluate an operand to what a callable gets for it. -/
def operand (E : Engine) (f : Callable) (env : Env) (form : Value) : Eval Value := do
  E.argument f (← E.eval form env)

theorem arguments_append {E : Engine} (vs ws : List Value) :
    E.arguments f (vs ++ ws) = (do
      let us ← E.arguments f vs
      let us' ← E.arguments f ws
      pure (us ++ us')) := by
  induction vs with
  | nil =>
      simp only [arguments, List.nil_append, pure_bind, bind_pure]
  | cons v vs ih =>
      simp only [arguments, List.cons_append, ih, bind_assoc, pure_bind]

theorem operand_of_quotes {q v : Value} {own : Ref .cell → Prop} (hq : s.store.Quotes own q v) :
    (ofFuel (n + 1)).operand f env q s = (ofFuel (n + 1)).argument f v s :=
  bind_of_ok (Site.evaluate_quote n env hq.chain)

theorem calledFrame_eq_bind {E : Engine} {forms : Value} : E.calledFrame f forms env =
    E.makeFrame f forms >>= fun frame =>
      E.evalSlots (E.operand f env) f.shape.required frame [] := by
  cases hf : f.forces with
  | true =>
      have hoperand : E.operand f env = fun form => E.eval form env >>= E.force := by
        funext form
        simp only [operand, argument_of_forces hf]
      rw [calledFrame, hf, hoperand]
      rfl
  | false =>
      have hoperand : E.operand f env = fun form => E.eval form env := by
        funext form
        simp only [operand, argument_of_not_forces hf, bind_pure]
      rw [calledFrame, hf, hoperand]
      rfl

/-- Quotations in hidden cells stay what they are while what is out of reach of them runs. -/
theorem quotes_of_spares (h : s.SparesHidden hidden t)
    (hall : List.Forall₂ (s.store.Quotes fun r => hidden r.index) qs vs) :
    List.Forall₂ (t.store.Quotes fun r => hidden r.index) qs vs :=
  hall.imp fun _ _ hq => hq.keeps fun _ hr => h.kept _ hr

/-- The required slots of a frame of quotations come to what the callable gets for the values. -/
theorem evalSlots_of_quotes (hs : s.Sealed hidden)
    (hall : List.Forall₂ (s.store.Quotes fun r => hidden r.index) qs vs)
    (hvs : ∀ v ∈ vs, (Guard.outside hidden).Good s.store.cells.size v) (slots done : List Value) :
    (ofFuel (n + 1)).evalSlots ((ofFuel (n + 1)).operand f env) qs.length (qs ++ slots) done s =
      ((ofFuel (n + 1)).arguments f vs >>= fun us =>
        (ofFuel (n + 1)).evalSlots ((ofFuel (n + 1)).operand f env) 0 slots
          (us.reverse ++ done)) s := by
  induction vs generalizing s qs done with
  | nil =>
      cases hall
      rfl
  | cons v vs ih =>
      obtain ⟨q, qs, hq, hqs, rfl⟩ := List.forall₂_cons_right_iff.1 hall
      have hsame : (ofFuel (n + 1)).operand f env q s = (ofFuel (n + 1)).argument f v s :=
        operand_of_quotes hq
      simp only [List.length_cons, List.cons_append, evalSlots, arguments, bind_assoc, pure_bind]
      rw [bind_apply, hsame, ← bind_apply]
      refine bind_eq_of_ok fun u s₁ hu => ?_
      obtain ⟨-, -, -, hspare, -⟩ :=
        argument_sealed hs (.refl hidden s) (hvs v List.mem_cons_self) hu
      rw [ih hspare.sealed (quotes_of_spares hspare hqs) (fun w hw =>
        (Guard.outside hidden).good_mono hspare.size_le (hvs w (List.mem_cons_of_mem _ hw)))]
      simp only [List.reverse_cons, List.append_assoc, List.singleton_append]

/-- So do the operands of a list of quotations. -/
theorem mapItems_of_quotes {rest : Value} {k : Nat} (hk : qs.length ≤ k) (hs : s.Sealed hidden)
    (hrest : s.store.Owned (fun r => hidden r.index) qs rest)
    (hall : List.Forall₂ (s.store.Quotes fun r => hidden r.index) qs vs)
    (hvs : ∀ v ∈ vs, (Guard.outside hidden).Good s.store.cells.size v) (done : List Value) :
    (ofFuel (n + 1)).mapItems ((ofFuel (n + 1)).operand f env) k rest done s =
      ((ofFuel (n + 1)).arguments f vs >>= fun us => pure (us.reverse ++ done)) s := by
  induction vs generalizing s qs rest k done with
  | nil =>
      cases hall
      cases hrest
      cases k <;> rfl
  | cons v vs ih =>
      obtain ⟨q, qs, hq, hqs, rfl⟩ := List.forall₂_cons_right_iff.1 hall
      obtain ⟨k, rfl⟩ : ∃ j, k = j + 1 := Nat.exists_eq_succ_of_ne_zero (Nat.ne_zero_of_lt hk)
      obtain ⟨r, d, rfl, hr, hcell, hd⟩ := hrest
      have hsame : (ofFuel (n + 1)).operand f env q s = (ofFuel (n + 1)).argument f v s :=
        operand_of_quotes hq
      rw [mapItems, bind_of_ok (car_apply r s), Store.car_of_cell? hcell]
      simp only [arguments, bind_assoc, pure_bind]
      rw [bind_apply, hsame, ← bind_apply]
      refine bind_eq_of_ok fun u s₁ hu => ?_
      obtain ⟨-, -, -, hspare, -⟩ :=
        argument_sealed hs (.refl hidden s) (hvs v List.mem_cons_self) hu
      have hcell₁ : s₁.store.cell? r = some ⟨q, d⟩ := (hspare.kept _ hr).trans hcell
      have hd₁ := hd.keeps fun r' hr' => hspare.kept _ hr'
      rw [bind_of_ok ((ofFuel (n + 1)).cdrCell_of_list hcell₁ hd₁.chain),
        ih (Nat.le_of_succ_le_succ hk) hspare.sealed hd₁ (quotes_of_spares hspare hqs) (fun w hw =>
          (Guard.outside hidden).good_mono hspare.size_le (hvs w (List.mem_cons_of_mem _ hw)))]
      simp only [List.reverse_cons, List.append_assoc, List.singleton_append]

/-- The slot after the required ones comes to a new list of what the callable gets. -/
theorem evalSlots_rest_of_quotes {rest : Value} (hn : qs.length ≤ n + 1) (hs : s.Sealed hidden)
    (hrest : s.store.Owned (fun r => hidden r.index) qs rest)
    (hall : List.Forall₂ (s.store.Quotes fun r => hidden r.index) qs vs)
    (hvs : ∀ v ∈ vs, (Guard.outside hidden).Good s.store.cells.size v) (done : List Value) :
    (ofFuel (n + 1)).evalSlots ((ofFuel (n + 1)).operand f env) 0 [rest] done s =
      ((ofFuel (n + 1)).arguments f vs >>= fun us =>
        consAll us.reverse .nil >>= fun v => pure (done.reverse ++ [v])) s := by
  have hitems : (ofFuel (n + 1)).mapItems ((ofFuel (n + 1)).operand f env) (ofFuel (n + 1)).fuel
      rest [] s = ((ofFuel (n + 1)).arguments f vs >>= fun us => pure (us.reverse ++ [])) s :=
    mapItems_of_quotes hn hs hrest hall hvs []
  rw [evalSlots, mapList, bind_assoc, bind_apply, hitems, ← bind_apply, bind_assoc]
  simp only [pure_bind, List.append_nil, List.reverse_cons]

/-- What is out of reach of the values stays as it is. -/
theorem arguments_spares {us : List Value} {w : State} (hs : s.Sealed hidden)
    (hvs : ∀ v ∈ vs, (Guard.outside hidden).Good s.store.cells.size v)
    (h : (ofFuel n).arguments f vs s = .ok us w) : s.SparesHidden hidden w := by
  induction vs generalizing s us with
  | nil =>
      cases h
      exact hs.spares
  | cons v vs ih =>
      obtain ⟨u, s₁, hu, h⟩ := bind_eq_ok.1 h
      obtain ⟨us', s₂, hus, h⟩ := bind_eq_ok.1 h
      cases h
      obtain ⟨-, -, -, hspare, -⟩ :=
        argument_sealed hs (.refl hidden s) (hvs v List.mem_cons_self) hu
      exact hspare.trans (ih hspare.sealed (fun w hw => (Guard.outside hidden).good_mono
        hspare.size_le (hvs w (List.mem_cons_of_mem _ hw))) hus)

variable (f env) in
/-- The frame on which a callable is called in the turn of a form of quotations is what it gets for
the values, laid out. -/
theorem calledFrame_of_quotes {forms : Value} (hn : vs.length ≤ n) (hs : s.Sealed hidden)
    (hforms : s.store.QuotesAll (fun r => hidden r.index) vs forms)
    (hvs : ∀ v ∈ vs, (Guard.outside hidden).Good s.store.cells.size v) :
    (f.shape.Takes vs.length → (ofFuel (n + 1)).calledFrame f forms env s =
      ((ofFuel (n + 1)).arguments f vs >>= f.shape.layOut) s) ∧
    (¬ f.shape.Takes vs.length → (ofFuel (n + 1)).calledFrame f forms env s =
      .halt (.failed { cause := .arity f.signature }) s) := by
  obtain ⟨qs, hlist, hall⟩ := hforms
  have hlength := hall.length_eq
  rw [calledFrame_eq_bind]
  set E := ofFuel (n + 1)
  set F := E.operand f env
  refine ⟨fun htakes => ?_, fun htakes => ?_⟩
  · rw [← hlength] at htakes
    obtain ⟨rest, hrest, hmake⟩ := makeFrame_of_takes (E := ofFuel (n + 1)) hlist htakes
    have hcount : (qs.take f.shape.required).length = f.shape.required :=
      List.length_take_of_le htakes.required_le
    have hslots : ∀ slots, E.evalSlots F (qs.take f.shape.required).length
        (qs.take f.shape.required ++ slots) [] s =
          (E.arguments f (vs.take f.shape.required) >>= fun us =>
            E.evalSlots F 0 slots (us.reverse ++ [])) s :=
      fun slots => evalSlots_of_quotes hs (List.forall₂_take f.shape.required hall)
        (fun v hv => hvs v (List.mem_of_mem_take hv)) slots []
    rw [hcount] at hslots
    rw [bind_of_ok hmake, hslots]
    conv_rhs => rw [← List.take_append_drop f.shape.required vs, arguments_append]
    simp only [bind_assoc, pure_bind, List.append_nil]
    refine bind_eq_of_ok fun us s₁ hus => ?_
    have hspare := arguments_spares hs (fun v hv => hvs v (List.mem_of_mem_take hv)) hus
    have hrequired : us.length = f.shape.required := by
      rw [length_arguments hus, List.length_take_of_le (hlength ▸ htakes.required_le)]
    by_cases hshape : f.shape.hasRest = true
    · have hfuel : (qs.drop f.shape.required).length ≤ n + 1 := by
        rw [List.length_drop]
        omega
      have hslot : E.evalSlots F 0 [rest] us.reverse s₁ =
          (E.arguments f (vs.drop f.shape.required) >>= fun us' =>
            consAll us'.reverse .nil >>= fun v => pure (us.reverse.reverse ++ [v])) s₁ :=
        evalSlots_rest_of_quotes hfuel hspare.sealed (hrest.keeps fun _ hr => hspare.kept _ hr)
          (quotes_of_spares hspare (List.forall₂_drop f.shape.required hall)) (fun v hv =>
            (Guard.outside hidden).good_mono hspare.size_le (hvs v (List.mem_of_mem_drop hv))) _
      rw [if_pos hshape, hslot]
      simp only [Shape.layOut, if_pos hshape, List.reverse_reverse, ← hrequired, List.drop_left,
        List.take_left]
    · have hall' : vs.drop f.shape.required = [] := by
        rw [Shape.Takes, if_neg hshape] at htakes
        rw [← htakes, hlength, List.drop_length]
      rw [if_neg hshape, hall', arguments, pure_bind, List.append_nil, Shape.layOut, if_neg hshape,
        evalSlots, List.reverse_reverse]
  · rw [← hlength] at htakes
    exact bind_of_halt (makeFrame_of_not_takes hlist.chain htakes)

end Engine

/-! ## More fuel -/

namespace Engine

variable {n m : Nat} {f : Callable} {s t : State} {env : Env} {vs us frame : List Value}
  {args forms : Value}

/-- A computation that gives a value gives the same with an engine that matches. -/
theorem eq_ok_of_gives {α : Type} {P : Guard.free.World → α → Prop} {x y : Eval α} {a : α}
    (h : Simulation.same.Gives () P x y) (hx : x s = .ok a t) : y s = .ok a t := by
  rw [← hx]
  exact Simulation.eq_of_match_same (h s s rfl) (by rw [hx]; trivial)

theorem arguments_mono (hn : n ≤ m) (h : (ofFuel n).arguments f vs s = .ok us t) :
    (ofFuel m).arguments f vs s = .ok us t := by
  have hE := Simulation.same.engines hn
  induction vs generalizing s us with
  | nil => exact h
  | cons v vs ih =>
      obtain ⟨u, s₁, hu, h⟩ := bind_eq_ok.1 h
      obtain ⟨us', s₂, hus, h⟩ := bind_eq_ok.1 h
      cases h
      have hu' : (ofFuel m).argument f v s = .ok u s₁ := by
        refine eq_ok_of_gives (P := fun _ _ => True) ?_ hu
        unfold argument
        split
        · exact Simulation.same.weaken (Simulation.same.force hE trivial) fun _ => trivial
        · exact Simulation.same.give trivial
      rw [arguments, bind_of_ok hu', bind_of_ok (ih hus)]
      rfl

theorem appliedFrame_mono (hn : n ≤ m) (h : (ofFuel n).appliedFrame f args s = .ok frame t) :
    (ofFuel m).appliedFrame f args s = .ok frame t := by
  have hE := Simulation.same.engines hn
  have hmake : ∀ w, Simulation.same.Gives w Guard.free.GoodAll ((ofFuel n).makeFrame f args)
      ((ofFuel m).makeFrame f args) := fun _ => Simulation.same.makeFrame hE f trivial
  refine eq_ok_of_gives (P := Guard.free.GoodAll) ?_ h
  unfold appliedFrame
  split
  · exact Simulation.same.bind (Simulation.same.forceEach hE trivial) fun w _ _ _ => hmake w
  · exact hmake ()

theorem calledFrame_mono (hn : n ≤ m) (h : (ofFuel n).calledFrame f forms env s = .ok frame t) :
    (ofFuel m).calledFrame f forms env s = .ok frame t := by
  have hE := Simulation.same.engines hn
  refine eq_ok_of_gives (P := Guard.free.GoodAll) ?_ h
  refine Simulation.same.bind (Simulation.same.makeFrame hE f trivial) fun w _ slots hslots => ?_
  split
  · exact Simulation.same.forceFrame hE f.shape hslots trivial
  · exact Simulation.same.evalFrame hE f.shape hslots trivial

end Engine

/-! ## The same arguments -/

namespace Engine

variable {n : Nat} {f : Callable} {s t : State} {vs us : List Value}

/-- What is forced is no promise. -/
theorem isPromise_of_arguments (hs : s.Flat) (hf : f.forces = true)
    (h : (ofFuel n).arguments f vs s = .ok us t) : ∀ u ∈ us, u.isPromise = false := by
  induction vs generalizing s us with
  | nil =>
      cases h
      simp
  | cons v vs ih =>
      obtain ⟨u, s₁, hu, h⟩ := bind_eq_ok.1 h
      obtain ⟨us', s₂, hus, h⟩ := bind_eq_ok.1 h
      cases h
      rw [argument_of_forces hf] at hu
      have hrun := tracked_force n v s s hs .done
      rw [hu] at hrun
      exact List.forall_mem_cons.2 ⟨isPromise_of_force hs hu, ih (hrun.flat hs hs) hus⟩

/-- Values for which there is room are laid out. -/
theorem layOut_of_room {shape : Shape} (htakes : shape.Takes us.length)
    (hroom : us.length ≤ s.store.room) :
    ∃ frame t, shape.layOut us s = .ok frame t ∧ t.store.Lays shape us frame ∧
      s.store.AddsCells t.store ∧ t = { s with store := t.store } := by
  unfold Shape.layOut
  by_cases hshape : shape.hasRest = true
  · have hlength : (us.drop shape.required).reverse.length ≤ s.store.room := by
      rw [List.length_reverse, List.length_drop]
      omega
    obtain ⟨rest, t, hok, -⟩ := consAll_of_room _ .nil hlength
    obtain ⟨hadds, ht, hchain⟩ := consAll_eq_ok hok
    rw [List.reverse_reverse] at hchain
    have hlays := Store.lays_of_takes htakes hchain
    rw [if_pos hshape] at hlays
    refine ⟨us.take shape.required ++ [rest], t, ?_, hlays, hadds, ht⟩
    rw [if_pos hshape, bind_of_ok hok]
    rfl
  · have hall : us.length = shape.required := by
      rw [Shape.Takes, if_neg hshape] at htakes
      exact htakes
    refine ⟨us, s, by rw [if_neg hshape]; rfl, ?_, .refl s.store, rfl⟩
    rw [Store.Lays, if_neg hshape]
    exact ⟨hall, rfl⟩

/-- With fuel to walk the form, a call of quoted values has a frame exactly if the callable takes as
many, there is something to get for them and it can be laid out. -/
theorem calledFrame_eq_ok {hidden : Nat → Prop} {env : Env} {forms : Value} {frame : List Value}
    (hn : vs.length ≤ n) (hs : s.Sealed hidden)
    (hforms : s.store.QuotesAll (fun q => hidden q.index) vs forms)
    (hvs : ∀ v ∈ vs, (Guard.outside hidden).Good s.store.cells.size v) :
    (ofFuel (n + 1)).calledFrame f forms env s = .ok frame t ↔ f.shape.Takes vs.length ∧
      ∃ us w, (ofFuel (n + 1)).arguments f vs s = .ok us w ∧ f.shape.layOut us w = .ok frame t := by
  obtain ⟨htaken, hmismatch⟩ := calledFrame_of_quotes f env hn hs hforms hvs
  by_cases htakes : f.shape.Takes vs.length
  · rw [htaken htakes, bind_eq_ok]
    exact ⟨fun h => ⟨htakes, h⟩, And.right⟩
  · rw [hmismatch htakes]
    exact ⟨fun h => (by cases h), fun h => absurd h.1 htakes⟩

/-- Applying a callable and calling it hand it the same arguments. Let a native or a closure be
applied to a fresh list of values, and let a form call it, quoted, on the quoted values; nothing
else refers to the cells of the list and the form, and there is room for one more list as long.

Applying is the callable's turn on one frame, and the turn of the form is its turn on another.
There is a frame to apply it on exactly if there is one to call it on. Then both are what the
callable gets for the values one after another from the left, laid out: each value forced if the
callable is a native that is not lazy, and else each as it is. What is left in the machine is what
getting these leaves, but for the cells of the list in the one case and the new cells of the rest in
the other. -/
theorem apply_and_call_alike {hidden : Nat → Prop} {r : Ref .callable} {args form : Value}
    (env : Env) (hs : s.Sealed hidden) (hflat : s.Flat) (hr : s.store.callable r = f)
    (hf : f.takesValues = true)
    (hvs : ∀ v ∈ vs, (Guard.outside hidden).Good s.store.cells.size v)
    (hargs : s.store.Owned (fun q => hidden q.index) vs args)
    (hform : s.store.QuotesAll (fun q => hidden q.index) (.callable r :: vs) form)
    (hroom : ∀ n us w, (ofFuel n).arguments f vs s = .ok us w → vs.length ≤ w.store.room) :
    ∃ forms, s.store.QuotesAll (fun q => hidden q.index) vs forms ∧
      (∀ n, applyTo (n + 1) (.callable r) args env s =
        ((ofFuel n).appliedFrame f args >>= fun frame =>
          (ofFuel n).turnOn f env frame >>= (ofFuel n).finish) s) ∧
      (∀ n, evaluate (n + 2) form env s =
        (((ofFuel (n + 1)).calledFrame f forms env >>=
          (ofFuel (n + 1)).turnOn f env).onFailure (traced form) >>= (ofFuel (n + 1)).finish) s) ∧
      ((∃ n frame t, (ofFuel n).appliedFrame f args s = .ok frame t) ↔
        ∃ n frame t, (ofFuel n).calledFrame f forms env s = .ok frame t) ∧
      ∀ n n' frame frame' t t', (ofFuel n).appliedFrame f args s = .ok frame t →
        (ofFuel n').calledFrame f forms env s = .ok frame' t' →
        ∃ m us w, (ofFuel m).arguments f vs s = .ok us w ∧
          t.store.Lays f.shape us frame ∧ t'.store.Lays f.shape us frame' ∧
          w.AgreesOutside hidden t ∧
          w.store.AddsCells t'.store ∧ t' = { w with store := t'.store } ∧
          (f.forces = true → ∀ u ∈ us, u.isPromise = false) ∧
          (f.forces = false → us = vs ∧ w = s) := by
  obtain ⟨forms, hforms, hstep⟩ := step_eq env hr hf hform
  refine ⟨forms, hforms, fun n => applyList_eq (ofFuel n) args env hr hf, fun n => ?_, ⟨?_, ?_⟩, ?_⟩
  · rw [Simulation.evaluate_succ, bind_apply, bind_apply]
    simp only [Eval.onFailure, hstep n]
  · rintro ⟨n, frame, t, h⟩
    have h := appliedFrame_mono (Nat.le_max_left n vs.length) h
    obtain ⟨htakes, us, w, hus⟩ :=
      (appliedFrame_alike (Nat.le_max_right n vs.length) hs (fun _ hq => hq) hargs hvs).2 frame t h
    have hus := arguments_mono (Nat.le_succ _) hus
    have hlength := length_arguments hus
    obtain ⟨frame', t', hlaid, -⟩ :=
      layOut_of_room (hlength ▸ htakes) (hlength ▸ hroom _ us w hus)
    exact ⟨_, frame', t', (calledFrame_eq_ok (Nat.le_max_right n vs.length) hs hforms hvs).2
      ⟨htakes, us, w, hus, hlaid⟩⟩
  · rintro ⟨n, frame, t, h⟩
    have h := calledFrame_mono (Nat.le_succ_of_le (Nat.le_max_left n vs.length)) h
    obtain ⟨htakes, us, w, hus, -⟩ :=
      (calledFrame_eq_ok (Nat.le_max_right n vs.length) hs hforms hvs).1 h
    obtain ⟨frame', t', happlied, -⟩ :=
      (appliedFrame_alike (Nat.le_succ_of_le (Nat.le_max_right n vs.length)) hs (fun _ hq => hq)
        hargs hvs).1 us w htakes hus
    exact ⟨_, frame', t', happlied⟩
  · intro n n' frame frame' t t' happlied hcalled
    -- Both frames are those of one fuel that is enough for either.
    let m := max (max n n') vs.length
    have hm : vs.length ≤ m := Nat.le_max_right _ _
    have happlied := appliedFrame_mono (m := m + 1) (by omega) happlied
    have hcalled := calledFrame_mono (m := m + 1) (by omega) hcalled
    obtain ⟨htakes, us, w, hus, hlaid⟩ := (calledFrame_eq_ok hm hs hforms hvs).1 hcalled
    have hlength := length_arguments hus
    obtain ⟨frame₁, t₁, happlied₁, hagrees, hlays⟩ :=
      (appliedFrame_alike (Nat.le_succ_of_le hm) hs (fun _ hq => hq) hargs hvs).1 us w htakes hus
    cases happlied.symm.trans happlied₁
    obtain ⟨frame₂, t₂, hlaid₂, hlays', hadds, ht'⟩ :=
      layOut_of_room (hlength ▸ htakes) (hlength ▸ hroom _ us w hus)
    cases hlaid.symm.trans hlaid₂
    refine ⟨m + 1, us, w, hus, hlays, hlays', hagrees, hadds, ht', ?_, fun hlazy => ?_⟩
    · exact fun heager => isPromise_of_arguments hflat heager hus
    · rw [arguments_of_not_forces hlazy] at hus
      cases hus
      exact ⟨rfl, rfl⟩

/-- A machine with the native `+`, a promise of five, the list of the promise and two, and the form
that calls `+`, quoted, on the two of them quoted. -/
def summing : State where
  store :=
    { capacity := 20
      callables := #[.native (.numbers .add)]
      promises := #[.pending (.int 5) none]
      cells := #[⟨.int 2, .nil⟩, ⟨.promise ⟨0⟩, .pair ⟨0⟩⟩,
        ⟨.callable ⟨0⟩, .nil⟩, ⟨.sym Symbol.quote, .pair ⟨2⟩⟩,
        ⟨.promise ⟨0⟩, .nil⟩, ⟨.sym Symbol.quote, .pair ⟨4⟩⟩,
        ⟨.int 2, .nil⟩, ⟨.sym Symbol.quote, .pair ⟨6⟩⟩,
        ⟨.pair ⟨7⟩, .nil⟩, ⟨.pair ⟨5⟩, .pair ⟨8⟩⟩, ⟨.pair ⟨3⟩, .pair ⟨9⟩⟩] }
  console := { answers := [] }

theorem sealed_summing : summing.Sealed fun i => i < 11 := by
  have hbase : ({ summing with store := { summing.store with cells := #[] } } : State).Sealed
      fun _ => False := State.sealed_of_closed (by decide +kernel) SymbolTable.sound_new
  have hadds : ({ summing.store with cells := #[] } : Store).AddsCells summing.store :=
    ⟨fun r c h => by simp [Store.cell?] at h, rfl, Nat.zero_le _⟩
  refine hbase.grow hadds (fun i hi => hi) (fun _ h => h.elim) (fun i hi _ => ?_)
    fun i c _ hc hi => ?_
  · exact absurd hi (Nat.not_lt_zero i)
  · exact absurd (Array.getElem?_eq_some_iff.1 hc).1 hi

theorem flat_summing : summing.Flat := by
  rintro ⟨_ | i⟩ v h
  · cases h
  · cases h

/-- The sum of a promise and a number: both frames have the list of five and two. -/
theorem apply_and_call_alike_sum : ∃ forms n frame t frame' t',
    (ofFuel 3).appliedFrame (.native (.numbers .add)) (.pair ⟨1⟩) summing = .ok frame t ∧
      (ofFuel n).calledFrame (.native (.numbers .add)) forms none summing = .ok frame' t' ∧
      t.store.Lays (.rest 0) [.int 5, .int 2] frame ∧
      t'.store.Lays (.rest 0) [.int 5, .int 2] frame' := by
  have hvs : ∀ v ∈ [Value.promise ⟨0⟩, .int 2],
      (Guard.outside fun i => i < 11).Good summing.store.cells.size v := by
    simp
  have harguments : ∀ n us w, (ofFuel n).arguments (.native (.numbers .add))
      [.promise ⟨0⟩, .int 2] summing = .ok us w → us = [.int 5, .int 2] ∧
        w = summing.mapStore (·.setPromise ⟨0⟩ (.delivered (.int 5))) := by
    intro n us w h
    have hthree : (ofFuel 3).arguments (.native (.numbers .add)) [.promise ⟨0⟩, .int 2] summing =
        .ok [.int 5, .int 2] (summing.mapStore (·.setPromise ⟨0⟩ (.delivered (.int 5)))) := rfl
    have hmax := arguments_mono (Nat.le_max_left n 3) h
    rw [arguments_mono (Nat.le_max_right n 3) hthree] at hmax
    cases hmax
    exact ⟨rfl, rfl⟩
  have hargs : summing.store.Owned (fun q => q.index < 11) [.promise ⟨0⟩, .int 2] (.pair ⟨1⟩) :=
    ⟨⟨1⟩, _, rfl, by decide, rfl, ⟨0⟩, _, rfl, by decide, rfl, rfl⟩
  have hform : summing.store.QuotesAll (fun q => q.index < 11)
      [.callable ⟨0⟩, .promise ⟨0⟩, .int 2] (.pair ⟨10⟩) := by
    refine ⟨[.pair ⟨3⟩, .pair ⟨5⟩, .pair ⟨7⟩], ?_, .cons ?_ (.cons ?_ (.cons ?_ .nil))⟩
    · exact ⟨⟨10⟩, _, rfl, by decide, rfl, ⟨9⟩, _, rfl, by decide, rfl, ⟨8⟩, _, rfl, by decide, rfl,
        rfl⟩
    · exact ⟨⟨3⟩, _, rfl, by decide, rfl, ⟨2⟩, _, rfl, by decide, rfl, rfl⟩
    · exact ⟨⟨5⟩, _, rfl, by decide, rfl, ⟨4⟩, _, rfl, by decide, rfl, rfl⟩
    · exact ⟨⟨7⟩, _, rfl, by decide, rfl, ⟨6⟩, _, rfl, by decide, rfl, rfl⟩
  obtain ⟨forms, -, -, -, hiff, halike⟩ := apply_and_call_alike (f := .native (.numbers .add))
    (r := ⟨0⟩) none sealed_summing flat_summing rfl rfl hvs hargs hform fun n us w h => by
      obtain ⟨-, rfl⟩ := harguments n us w h
      decide
  have happlied : ∃ frame t, (ofFuel 3).appliedFrame (.native (.numbers .add)) (.pair ⟨1⟩) summing =
      .ok frame t := ⟨_, _, rfl⟩
  obtain ⟨n, frame', t', hcalled⟩ := hiff.1 ⟨3, happlied⟩
  obtain ⟨frame, t, happlied⟩ := happlied
  obtain ⟨m, us, w, hus, hlays, hlays', -⟩ := halike 3 n frame frame' t t' happlied hcalled
  obtain ⟨rfl, -⟩ := harguments m us w hus
  exact ⟨forms, n, frame, t, frame', t', happlied, hcalled, hlays, hlays'⟩

end Engine

end SmallLisp
