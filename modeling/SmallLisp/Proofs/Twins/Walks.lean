import SmallLisp.Engine.Special
import SmallLisp.Proofs.Twins.Primitives

/-!
# Walks that go the same way

Forcing promises, walking along lists and laying out frames, on the data of two machines and on
their code. Of evaluation it is given that it goes the same way with the fuel at hand.
-/

namespace SmallLisp

open Eval Code Filter

/-! ## Ends of lists -/

namespace Engine

variable (E : Engine)

theorem mapItems_nil (f : Value → Eval Value) (i : Nat) (done : List Value) :
    E.mapItems f i .nil done = pure done := by
  cases i <;> rfl

theorem mapItems_atom (f : Value → Eval Value) (i : Nat) {v : Value} (done : List Value)
    (hnil : v.isNil = false) (hpair : v.isPair = false) :
    E.mapItems f i v done = failOn v .notProper := by
  cases v with
  | nil => cases hnil
  | pair => cases hpair
  | _ => cases i <;> rfl

theorem takeItems_atom (count : Nat) {v : Value} {done : List Value} (hpair : v.isPair = false) :
    E.takeItems (count + 1) v done = pure none := by
  cases v with
  | pair => cases hpair
  | _ => rfl

theorem forceItems_atom (i : Nat) {v : Value} (hpair : v.isPair = false) :
    E.forceItems i v = pure () := by
  cases v with
  | pair => cases hpair
  | _ => cases i <;> rfl

theorem bodyWithin_nil (env : Env) (i : Nat) : E.bodyWithin env i .nil = pure .nil := by
  cases i <;> rfl

theorem sequenceWithin_nil (env : Env) (i : Nat) (last : Value) :
    E.sequenceWithin env i .nil last = pure last := by
  cases i <;> rfl

theorem setqWithin_nil (env : Env) (i : Nat) (last : Value) :
    E.setqWithin env i .nil last = pure last := by
  cases i <;> rfl

theorem condWithin_nil (env : Env) (i : Nat) : E.condWithin env i .nil = pure (.done .nil) := by
  cases i <;> rfl

end Engine

namespace Setting

open Scene

variable {T : Setting} {n : Nat} {p q : T.Scene} {v w : Value} {env env' : Env} {j : Nat → Nat}

variable (T) in
/-- With this fuel evaluation goes the same way in both machines: on twin forms, and on things that
belong together. -/
structure Runs (n : Nat) : Prop where
  eval : ∀ {p : T.Scene} {v w : Value} {env env' : Env}, p.Form v w → p.Around env env' →
    p.Meets Like (evaluate n v env) fun m => evaluate m w env'
  apply : ∀ {p : T.Scene} {f g v w : Value} {env env' : Env}, p.Like f g → p.Like v w →
    p.Around env env' → p.Meets Like (applyTo n f v env) fun m => applyTo m g w env'
  deliver : ∀ {p : T.Scene} {r r' : Ref .promise}, p.Like (.promise r) (.promise r') →
    p.Meets Like (deliverTo n r) fun m => deliverTo m r'

/-! ## Promises -/

theorem Runs.force (h : T.Runs n) (hv : p.Like v w) :
    p.Meets Like ((Engine.ofFuel n).force v) fun m => (Engine.ofFuel m).force w := by
  have hvw := hv
  cases hv with
  | promise => exact h.deliver hvw
  | _ => exact .pure hvw

/-- What the tail of a cell is taken for once it is forced. -/
theorem meets_cellOf {r r' : Ref .cell} (hr : p.Like (.pair r) (.pair r'))
    (next next' : Value) : p.Like next next' → p.Meets Like
      (match next with
        | .nil => pure .nil
        | .pair q => pure (.pair q)
        | _ => failOn (.pair r) .notProper)
      (fun _ =>
        match next' with
        | .nil => pure .nil
        | .pair q => pure (.pair q)
        | _ => failOn (.pair r') .notProper) := by
  intro hnext
  cases hnext with
  | nil => exact .pure .nil
  | pair hnext => exact .pure (.pair hnext)
  | _ => exact meets_failOn hr .notProper

/-- The next cell of a list of data; a promised tail is written back in both machines. -/
theorem Runs.cdrCell (h : T.Runs n) {r r' : Ref .cell} (hr : p.Like (.pair r) (.pair r')) :
    p.Meets Like ((Engine.ofFuel n).cdrCell r) fun m => (Engine.ofFuel m).cdrCell r' := by
  unfold Engine.cdrCell
  refine (meets_cdr hr).bind fun q₁ tail tail' h₁ htail => ?_
  have htails := htail
  cases htail with
  | promise =>
      refine (h.deliver htails).bind fun q₂ v w h₂ hv => ?_
      refine (meets_setCdr (like_mono (h₁.trans h₂) hr) hv).bind fun q₃ _ _ h₃ _ => ?_
      exact meets_cellOf (like_mono ((h₁.trans h₂).trans h₃) hr) _ _ (like_mono h₃ hv)
  | _ => exact meets_cellOf (like_mono h₁ hr) _ _ htails

/-! ## Lists -/

variable (T n) in
/-- Lists of one kind, with items of another, that both machines walk along in the same way. -/
structure Walk (I W : T.Scene → Value → Value → Prop) : Prop where
  mono_item : ∀ {p q : T.Scene} {v w : Value}, p ≤ q → I p v w → I q v w
  mono : ∀ {p q : T.Scene} {v w : Value}, p ≤ q → W p v w → W q v w
  head : ∀ {p : T.Scene} {r r' : Ref .cell}, W p (.pair r) (.pair r') →
    p.Meets I (Eval.car r) fun _ => Eval.car r'
  tail : ∀ {p : T.Scene} {r r' : Ref .cell}, W p (.pair r) (.pair r') →
    p.Meets W ((Engine.ofFuel n).cdrCell r) fun m => (Engine.ofFuel m).cdrCell r'
  /-- The tail is forced, but not written back. -/
  forced : ∀ {p : T.Scene} {r r' : Ref .cell}, W p (.pair r) (.pair r') →
    p.Meets W (Eval.cdr r >>= (Engine.ofFuel n).force)
      fun m => Eval.cdr r' >>= (Engine.ofFuel m).force
  cases : ∀ {p : T.Scene} {v w : Value}, W p v w →
    (∃ r r', v = .pair r ∧ w = .pair r') ∨ v.isPair = false ∧ p.Like v w

/-- Lists of data. -/
theorem Runs.data (h : T.Runs n) : T.Walk n Like Like where
  mono_item := like_mono
  mono := like_mono
  head := meets_car
  tail := h.cdrCell
  forced hr := (meets_cdr hr).bind fun _ _ _ _ htail => h.force htail
  cases {p v w} hv := by
    have hvw := hv
    cases hv with
    | pair => exact .inl ⟨_, _, rfl, rfl⟩
    | _ => exact .inr ⟨rfl, hvw⟩

/-- The heads and the tails of lists of twin code. -/
theorem exists_of_body {r r' : Ref .cell} (h : p.Body (.pair r) (.pair r')) : ∃ a d a' d',
    p.left.store.cell? r = some ⟨a, d⟩ ∧ p.right.store.cell? r' = some ⟨a', d'⟩ ∧
      p.Form a a' ∧ p.Body d d' := by
  obtain ⟨cs, ds, htwin, hcs, hds⟩ := h
  cases htwin with
  | nil => cases hcs
  | cons htwin htwins =>
      obtain ⟨r, a, d, ⟨⟩, hr, ha, hd⟩ := StandsAll.exists_cell hcs
      obtain ⟨r', a', d', ⟨⟩, hr', ha', hd'⟩ := StandsAll.exists_cell hds
      exact ⟨a, d, a', d', hr, hr', ⟨_, _, htwin, ha, ha'⟩, _, _, htwins, hd, hd'⟩

theorem pairs_of_body (h : p.Body v w) :
    (∃ r r', v = .pair r ∧ w = .pair r') ∨ v = .nil ∧ w = .nil := by
  obtain ⟨cs, ds, htwin, hcs, hds⟩ := h
  cases htwin with
  | nil => exact .inr ⟨hcs, hds⟩
  | cons =>
      obtain ⟨r, -, -, rfl, -⟩ := hcs
      obtain ⟨r', -, -, rfl, -⟩ := hds
      exact .inl ⟨r, r', rfl, rfl⟩

/-- Lists of twin code. -/
theorem walk_code (T : Setting) (n : Nat) : T.Walk n Scene.Form Scene.Body where
  mono_item := form_mono
  mono := body_mono
  head {p r r'} h := by
    obtain ⟨a, d, a', d', hr, hr', ha, -⟩ := exists_of_body h
    exact meets_gets (fun _ => Store.car_of_cell? hr) (fun _ => Store.car_of_cell? hr') ha
  tail {p r r'} h := by
    obtain ⟨a, d, a', d', hr, hr', -, hd⟩ := exists_of_body h
    have hbody := hd
    obtain ⟨cs, ds, -, hcs, hds⟩ := hd
    exact .step le_rfl (.of_forall fun k => cdrCell_of_standsAll _ hr hcs k)
      (.of_forall fun m k => cdrCell_of_standsAll _ hr' hds k) hbody
  forced {p r r'} h := by
    obtain ⟨a, d, a', d', hr, hr', -, hd⟩ := exists_of_body h
    refine .read (fun k => congrArg (Outcome.ok · _) (Store.cdr_of_cell? hr))
      (.of_forall fun m k => congrArg (Outcome.ok · _) (Store.cdr_of_cell? hr')) ?_
    rcases pairs_of_body hd with ⟨q, q', rfl, rfl⟩ | ⟨rfl, rfl⟩
    · exact .pure hd
    · exact .pure hd
  cases h := by
    rcases pairs_of_body h with hpairs | ⟨rfl, rfl⟩
    · exact .inl hpairs
    · exact .inr ⟨rfl, .nil⟩

section Walk

variable {I W : T.Scene → Value → Value → Prop} {i : Nat}

theorem meets_mapItems_atom {f : Value → Eval Value} {f' : Nat → Value → Eval Value}
    {done done' : List Value} (hpair : v.isPair = false) (hv : p.Like v w)
    (hdone : p.LikeAll done done') :
    p.Meets LikeAll ((Engine.ofFuel n).mapItems f i v done)
      fun m => (Engine.ofFuel m).mapItems (f' m) (j m) w done' := by
  have hpair' : w.isPair = false := hv.isPair_eq.trans hpair
  by_cases hnil : v.isNil = true
  · cases hv with
    | nil =>
        simp only [Engine.mapItems_nil]
        exact .pure hdone
    | _ => cases hnil
  · have hnil : v.isNil = false := Bool.eq_false_of_not_eq_true hnil
    have hnil' : w.isNil = false := hv.isNil_eq.trans hnil
    simp only [Engine.mapItems_atom _ _ _ _ hnil hpair, Engine.mapItems_atom _ _ _ _ hnil' hpair']
    exact meets_failOn hv .notProper

/-- Mapping over a list, where what is done with the items goes the same way. -/
theorem Walk.mapItems (h : T.Walk n I W) (hj : Tendsto j atTop atTop) {f : Value → Eval Value}
    {f' : Nat → Value → Eval Value} {done done' : List Value} (hv : W p v w)
    (hdone : p.LikeAll done done')
    (hf : ∀ {q : T.Scene} {a b : Value}, p ≤ q → I q a b → q.Meets Like (f a) fun m => f' m b) :
    p.Meets LikeAll ((Engine.ofFuel n).mapItems f i v done)
      fun m => (Engine.ofFuel m).mapItems (f' m) (j m) w done' := by
  induction i generalizing j p v w done done' with
  | zero =>
      rcases h.cases hv with ⟨r, r', rfl, rfl⟩ | ⟨hpair, hvw⟩
      · exact .exhausted
      · exact meets_mapItems_atom hpair hvw hdone
  | succ i ih =>
      rcases h.cases hv with ⟨r, r', rfl, rfl⟩ | ⟨hpair, hvw⟩
      · refine .fuel (y := fun m i => (Engine.ofFuel m).mapItems (f' m) i (.pair r') done') hj ?_
        simp only [Engine.mapItems]
        refine (h.head hv).bind fun q₁ item item' h₁ hitem => ?_
        refine (hf h₁ hitem).bind fun q₂ a b h₂ hab => ?_
        refine (h.tail (h.mono (h₁.trans h₂) hv)).bind fun q₃ next next' h₃ hnext => ?_
        have h₃' := (h₁.trans h₂).trans h₃
        exact ih (tendsto_pred hj) hnext (.cons (like_mono h₃ hab) (likeAll_mono h₃' hdone))
          fun hq => hf (h₃'.trans hq)
      · exact meets_mapItems_atom hpair hvw hdone

theorem Walk.mapList (h : T.Walk n I W) {f : Value → Eval Value} {f' : Nat → Value → Eval Value}
    (hv : W p v w)
    (hf : ∀ {q : T.Scene} {a b : Value}, p ≤ q → I q a b → q.Meets Like (f a) fun m => f' m b) :
    p.Meets Like ((Engine.ofFuel n).mapList f v) fun m => (Engine.ofFuel m).mapList (f' m) w :=
  (h.mapItems tendsto_id hv .nil hf).bind fun _ _ _ _ hout => meets_consAll hout .nil

/-! ## Frames -/

/-- Frames of a shape, with the required items and maybe a list of the rest. -/
inductive Slots (I W : Value → Value → Prop) : Nat → Bool → List Value → List Value → Prop
  | nil : Slots I W 0 false [] []
  | rest {v w : Value} : W v w → Slots I W 0 true [v] [w]
  | cons {v w : Value} {count : Nat} {hasRest : Bool} {vs ws : List Value} : I v w →
      Slots I W count hasRest vs ws → Slots I W (count + 1) hasRest (v :: vs) (w :: ws)

theorem slots_of_forall₂ {I W : Value → Value → Prop} {vs ws : List Value}
    (h : List.Forall₂ I vs ws) : Slots I W vs.length false vs ws := by
  induction h with
  | nil => exact .nil
  | cons hv _ ih => exact .cons hv ih

theorem slots_append_rest {I W : Value → Value → Prop} {vs ws : List Value} {v w : Value}
    (h : List.Forall₂ I vs ws) (hv : W v w) :
    Slots I W vs.length true (vs ++ [v]) (ws ++ [w]) := by
  induction h with
  | nil => exact .rest hv
  | cons hv _ ih => exact .cons hv ih

/-- Frames of data are alike slot by slot. -/
theorem Slots.likeAll {count : Nat} {hasRest : Bool} {vs ws : List Value}
    (h : Slots p.Like p.Like count hasRest vs ws) : p.LikeAll vs ws := by
  induction h with
  | nil => exact .nil
  | rest hv => exact .cons hv .nil
  | cons hv _ ih => exact .cons hv ih

/-- Items are taken off both lists, or there are too few of them in both. -/
theorem Walk.takeItems (h : T.Walk n I W) {count : Nat} {done done' : List Value} (hv : W p v w)
    (hdone : List.Forall₂ (I p) done done') :
    p.Meets (fun q => Option.Rel fun a b => a.1.length = count + done.length ∧
        List.Forall₂ (I q) a.1 b.1 ∧ W q a.2 b.2)
      ((Engine.ofFuel n).takeItems count v done)
      fun m => (Engine.ofFuel m).takeItems count w done' := by
  induction count generalizing p v w done done' with
  | zero => exact .pure (.some ⟨(Nat.zero_add _).symm, hdone, hv⟩)
  | succ count ih =>
      rcases h.cases hv with ⟨r, r', rfl, rfl⟩ | ⟨hpair, hvw⟩
      · simp only [Engine.takeItems]
        refine (h.head hv).bind fun q₁ item item' h₁ hitem => ?_
        simp only [← bind_assoc (Eval.cdr _)]
        refine (h.forced (h.mono h₁ hv)).bind fun q₂ rest rest' h₂ hrest => ?_
        have hdone := hdone.imp fun _ _ => h.mono_item (h₁.trans h₂)
        refine (ih hrest (.cons (h.mono_item h₂ hitem) hdone)).weaken fun q x y _ hxy => ?_
        cases hxy with
        | none => exact .none
        | some hxy => exact .some ⟨by rw [hxy.1, List.length_cons]; omega, hxy.2⟩
      · simp only [Engine.takeItems_atom _ _ hpair,
          Engine.takeItems_atom _ _ (hvw.isPair_eq.trans hpair)]
        exact .pure .none

/-- Argument lists are laid out as frames, if the callables take them. -/
theorem Walk.makeFrame (h : T.Walk n I W) {f g : Callable} (hshape : g.shape = f.shape)
    (hsignature : g.signature = f.signature) (hv : W p v w) :
    p.Meets (fun q => Slots (I q) (W q) f.shape.required f.shape.hasRest)
      ((Engine.ofFuel n).makeFrame f v) fun m => (Engine.ofFuel m).makeFrame g w := by
  simp only [Engine.makeFrame, hshape, hsignature]
  refine (h.takeItems hv .nil).bind fun q x y hq hxy => ?_
  cases hxy with
  | none => exact meets_fail (.arity _)
  | @some a b hab =>
      obtain ⟨hlength, hitems, hrest⟩ := hab
      obtain ⟨reversed, rest⟩ := a
      obtain ⟨reversed', rest'⟩ := b
      have hends : rest'.isNil = rest.isNil ∧ rest'.isPair = rest.isPair := by
        rcases h.cases hrest with ⟨r, r', rfl, rfl⟩ | ⟨-, hrest⟩
        · exact ⟨rfl, rfl⟩
        · exact ⟨hrest.isNil_eq, hrest.isPair_eq⟩
      have hframe := List.rel_reverse hitems
      have hrequired : reversed.reverse.length = f.shape.required := by
        rw [List.length_reverse]
        exact hlength
      dsimp only
      rw [hends.1, hends.2, ← hrequired]
      by_cases hhasRest : f.shape.hasRest = true
      · simp only [hhasRest, if_true]
        split
        · rw [List.reverse_cons, List.reverse_cons]
          exact .pure (slots_append_rest hframe hrest)
        · exact meets_fail (.arity _)
      · simp only [Bool.eq_false_of_not_eq_true hhasRest, Bool.false_eq_true, if_false]
        split
        · exact .pure (slots_of_forall₂ hframe)
        · exact meets_fail (.arity _)

end Walk

/-- The items of a list of data, last first, in front of those so far. -/
theorem Runs.reversedItems (h : T.Runs n) {done done' : List Value} (hv : p.Like v w)
    (hdone : p.LikeAll done done') :
    p.Meets LikeAll ((Engine.ofFuel n).mapItems pure (Engine.ofFuel n).fuel v done)
      fun m => (Engine.ofFuel m).mapItems pure (Engine.ofFuel m).fuel w done' :=
  h.data.mapItems tendsto_id hv hdone fun _ hab => .pure hab

theorem Runs.items (h : T.Runs n) (hv : p.Like v w) :
    p.Meets LikeAll ((Engine.ofFuel n).items v) fun m => (Engine.ofFuel m).items w :=
  (h.reversedItems hv .nil).bind fun _ _ _ _ hout => .pure (List.rel_reverse hout)

/-- Every item of a list of data is forced in place. -/
theorem Runs.forceItems (h : T.Runs n) (hj : Tendsto j atTop atTop) {i : Nat} (hv : p.Like v w) :
    p.Meets Same ((Engine.ofFuel n).forceItems i v)
      fun m => (Engine.ofFuel m).forceItems (j m) w := by
  have hatom : ∀ {p : T.Scene} {v w : Value} {i : Nat} {j : Nat → Nat}, v.isPair = false →
      p.Like v w → p.Meets Same ((Engine.ofFuel n).forceItems i v)
        fun m => (Engine.ofFuel m).forceItems (j m) w := by
    intro p v w i j hpair hv
    simp only [Engine.forceItems_atom _ _ hpair,
      Engine.forceItems_atom _ _ (hv.isPair_eq.trans hpair)]
    exact .pure rfl
  induction i generalizing j p v w with
  | zero =>
      rcases h.data.cases hv with ⟨r, r', rfl, rfl⟩ | ⟨hpair, -⟩
      · exact .exhausted
      · exact hatom hpair hv
  | succ i ih =>
      rcases h.data.cases hv with ⟨r, r', rfl, rfl⟩ | ⟨hpair, -⟩
      · refine .fuel (y := fun m i => (Engine.ofFuel m).forceItems i (.pair r')) hj ?_
        simp only [Engine.forceItems]
        refine (meets_car hv).bind fun q₁ item item' h₁ hitem => ?_
        refine (h.force hitem).bind fun q₂ item item' h₂ hitem => ?_
        have hv := like_mono (h₁.trans h₂) hv
        refine (meets_setCar hv hitem).bind fun q₃ _ _ h₃ _ => ?_
        refine (h.cdrCell (like_mono h₃ hv)).bind fun q₄ next next' h₄ hnext => ?_
        exact ih (tendsto_pred hj) hnext
      · exact hatom hpair hv

theorem Slots.mono {count : Nat} {hasRest : Bool} {vs ws : List Value} (hq : p ≤ q)
    (h : Slots p.Form p.Body count hasRest vs ws) : Slots q.Form q.Body count hasRest vs ws := by
  induction h with
  | nil => exact .nil
  | rest hv => exact .rest (body_mono hq hv)
  | cons hv _ ih => exact .cons (form_mono hq hv) ih

/-- The slots of a frame of twin forms are evaluated in turn. -/
theorem meets_evalSlots {f : Value → Eval Value} {f' : Nat → Value → Eval Value} {count : Nat}
    {hasRest : Bool} {vs ws done done' : List Value}
    (hframe : Slots p.Form p.Body count hasRest vs ws) (hdone : p.LikeAll done done')
    (hf : ∀ {q : T.Scene} {a b : Value}, p ≤ q → q.Form a b → q.Meets Like (f a) fun m => f' m b) :
    p.Meets LikeAll ((Engine.ofFuel n).evalSlots f count vs done)
      fun m => (Engine.ofFuel m).evalSlots (f' m) count ws done' := by
  induction vs generalizing p count done done' ws with
  | nil =>
      cases hframe
      exact .pure (List.rel_reverse hdone)
  | cons v vs ih =>
      cases hframe with
      | rest hrest =>
          simp only [Engine.evalSlots]
          refine ((T.walk_code n).mapList hrest hf).bind fun q v w hq hvw => ?_
          exact .pure (List.rel_reverse (.cons hvw (likeAll_mono hq hdone)))
      | cons hform hslots =>
          simp only [Engine.evalSlots]
          refine (hf le_rfl hform).bind fun q v w hq hvw => ?_
          exact ih (hslots.mono hq) (.cons hvw (likeAll_mono hq hdone)) fun h => hf (hq.trans h)

theorem Runs.evalFrame (h : T.Runs n) {shape : Shape} {vs ws : List Value}
    (hframe : Slots p.Form p.Body shape.required shape.hasRest vs ws) (henv : p.Around env env') :
    p.Meets LikeAll ((Engine.ofFuel n).evalFrame shape vs env)
      fun m => (Engine.ofFuel m).evalFrame shape ws env' :=
  meets_evalSlots hframe .nil fun hq hform => h.eval hform (around_mono hq henv)

theorem Runs.forceFrame (h : T.Runs n) {shape : Shape} {vs ws : List Value}
    (hframe : Slots p.Form p.Body shape.required shape.hasRest vs ws) (henv : p.Around env env') :
    p.Meets LikeAll ((Engine.ofFuel n).forceFrame shape vs env)
      fun m => (Engine.ofFuel m).forceFrame shape ws env' :=
  meets_evalSlots hframe .nil fun hq hform =>
    (h.eval hform (around_mono hq henv)).bind fun _ _ _ _ hv => h.force hv

/-! ## Bodies -/

theorem form_nil (p : T.Scene) : p.Form .nil .nil := ⟨_, _, .literal T.literal_nil, rfl, rfl⟩

/-- The forms of a body but the last are evaluated, and the last is gone on with. -/
theorem Runs.body (h : T.Runs n) (hv : p.Body v w) (henv : p.Around env env') :
    p.Meets Scene.Form ((Engine.ofFuel n).body v env) fun m => (Engine.ofFuel m).body w env' := by
  suffices hwithin : ∀ {i : Nat} {j : Nat → Nat}, Tendsto j atTop atTop →
      p.Meets Scene.Form ((Engine.ofFuel n).bodyWithin env i v)
        fun m => (Engine.ofFuel m).bodyWithin env' (j m) w from hwithin tendsto_id
  intro i
  induction i generalizing p v w with
  | zero =>
      intro j hj
      rcases pairs_of_body hv with ⟨r, r', rfl, rfl⟩ | ⟨rfl, rfl⟩
      · exact .exhausted
      · simp only [Engine.bodyWithin_nil]
        exact .pure (form_nil p)
  | succ i ih =>
      intro j hj
      rcases pairs_of_body hv with ⟨r, r', rfl, rfl⟩ | ⟨rfl, rfl⟩
      · refine .fuel (y := fun m i => (Engine.ofFuel m).bodyWithin env' i (.pair r')) hj ?_
        simp only [Engine.bodyWithin]
        refine ((T.walk_code n).head hv).bind fun q₁ form form' h₁ hform => ?_
        refine ((T.walk_code n).tail (body_mono h₁ hv)).bind fun q₂ next next' h₂ hnext => ?_
        have hform := form_mono h₂ hform
        rcases pairs_of_body hnext with ⟨s, s', rfl, rfl⟩ | ⟨rfl, rfl⟩
        · simp only [Value.isNil, Bool.false_eq_true, if_false]
          have henv := around_mono (h₁.trans h₂) henv
          refine (h.eval hform henv).bind fun q₃ _ _ h₃ _ => ?_
          exact ih (body_mono h₃ hnext) (around_mono h₃ henv) (tendsto_pred hj)
        · exact .pure hform
      · simp only [Engine.bodyWithin_nil]
        exact .pure (form_nil p)

/-- Forms are evaluated in order; the value is that of the last. -/
theorem Runs.sequence (h : T.Runs n) (hv : p.Body v w) (henv : p.Around env env') :
    p.Meets Like ((Engine.ofFuel n).sequence v env) fun m => (Engine.ofFuel m).sequence w env' := by
  suffices hwithin : ∀ {i : Nat} {j : Nat → Nat} {last last' : Value}, Tendsto j atTop atTop →
      p.Like last last' → p.Meets Like ((Engine.ofFuel n).sequenceWithin env i v last)
        fun m => (Engine.ofFuel m).sequenceWithin env' (j m) w last' from hwithin tendsto_id .nil
  intro i
  induction i generalizing p v w with
  | zero =>
      intro j last last' hj hlast
      rcases pairs_of_body hv with ⟨r, r', rfl, rfl⟩ | ⟨rfl, rfl⟩
      · exact .exhausted
      · simp only [Engine.sequenceWithin_nil]
        exact .pure hlast
  | succ i ih =>
      intro j last last' hj hlast
      rcases pairs_of_body hv with ⟨r, r', rfl, rfl⟩ | ⟨rfl, rfl⟩
      · refine .fuel (y := fun m i => (Engine.ofFuel m).sequenceWithin env' i (.pair r') last')
          hj ?_
        simp only [Engine.sequenceWithin]
        refine ((T.walk_code n).head hv).bind fun q₁ form form' h₁ hform => ?_
        refine (h.eval hform (around_mono h₁ henv)).bind fun q₂ a b h₂ hab => ?_
        have h₂' := h₁.trans h₂
        refine ((T.walk_code n).tail (body_mono h₂' hv)).bind fun q₃ next next' h₃ hnext => ?_
        exact ih hnext (around_mono (h₂'.trans h₃) henv) (tendsto_pred hj) (like_mono h₃ hab)
      · simp only [Engine.sequenceWithin_nil]
        exact .pure hlast

end Setting

end SmallLisp
