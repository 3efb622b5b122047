import SmallLisp.Proofs.Conservation.State
import SmallLisp.Proofs.Twins.Scene

/-!
# What corresponding machines do alike

The operations of the machine on things that belong together: what is read is alike, what is made
belongs together from then on, and what is overwritten is overwritten in both machines.
-/

namespace SmallLisp

open Eval Code Filter

/-! ## More of each kind -/

theorem getElem?_push_of_lt {α : Type} {a : Array α} {i : Nat} (h : i < a.size) (x : α) :
    (a.push x)[i]? = a[i]? :=
  (Array.getElem?_push_lt h).trans (Array.getElem?_eq_getElem h).symm

namespace State.Wider

variable (s : State)

theorem pushCell (c : Cell) :
    s.Wider { s with store := { s.store with cells := s.store.cells.push c } } := by
  refine ⟨⟨fun k i hi => ?_, rfl⟩, rfl⟩
  cases k <;> first | rfl | exact getElem?_push_of_lt hi _

theorem newText (text : String) : s.Wider (s.mapStore fun store => (store.newText text).2) := by
  refine ⟨⟨fun k i hi => ?_, rfl⟩, rfl⟩
  cases k <;> first | rfl | exact getElem?_push_of_lt hi _

theorem newBignum (n : Int) : s.Wider (s.mapStore fun store => (store.newBignum n).2) := by
  refine ⟨⟨fun k i hi => ?_, rfl⟩, rfl⟩
  cases k <;> first | rfl | exact getElem?_push_of_lt hi _

theorem newVector (vs : Array Value) :
    s.Wider (s.mapStore fun store => (store.newVector vs).2) := by
  refine ⟨⟨fun k i hi => ?_, rfl⟩, rfl⟩
  cases k <;> first | rfl | exact getElem?_push_of_lt hi _

theorem newPromise (p : Promise) : s.Wider (s.mapStore fun store => (store.newPromise p).2) := by
  refine ⟨⟨fun k i hi => ?_, rfl⟩, rfl⟩
  cases k <;> first | rfl | exact getElem?_push_of_lt hi _

theorem newCallable (f : Callable) :
    s.Wider (s.mapStore fun store => (store.newCallable f).2) := by
  refine ⟨⟨fun k i hi => ?_, rfl⟩, rfl⟩
  cases k <;> first | rfl | exact getElem?_push_of_lt hi _

theorem newFailure (f : Failure) : s.Wider (s.mapStore fun store => (store.newFailure f).2) := by
  refine ⟨⟨fun k i hi => ?_, rfl⟩, rfl⟩
  cases k <;> first | rfl | exact getElem?_push_of_lt hi _

theorem pushFrame (slots : Array Value) (next : Env) :
    s.Wider { s with frames := s.frames.push slots next } := by
  refine ⟨⟨fun k i hi => ?_, rfl⟩, rfl⟩
  cases k <;> first | rfl | exact getElem?_push_of_lt hi _

end State.Wider

/-! ## What is overwritten -/

theorem getElem?_modify_of_ne {α : Type} {a : Array α} {f : α → α} {i j : Nat} (h : j ≠ i) :
    (a.modify i f)[j]? = a[j]? := by
  rw [Array.getElem?_modify, if_neg (Ne.symm h)]

namespace State.Overwritten

variable (s : State) (v : Value)

theorem setCar (r : Ref .cell) : s.Overwritten (s.mapStore (·.setCar r v)) .cell r.index := by
  refine ⟨fun k i hi => ?_, fun k => ?_, rfl⟩
  · cases k <;> first | rfl | exact getElem?_modify_of_ne (hi rfl)
  · cases k <;> first | rfl | exact Array.size_modify

theorem setCdr (r : Ref .cell) : s.Overwritten (s.mapStore (·.setCdr r v)) .cell r.index := by
  refine ⟨fun k i hi => ?_, fun k => ?_, rfl⟩
  · cases k <;> first | rfl | exact getElem?_modify_of_ne (hi rfl)
  · cases k <;> first | rfl | exact Array.size_modify

theorem setItem (r : Ref .vector) (i : Nat) :
    s.Overwritten (s.mapStore (·.setItem r i v)) .vector r.index := by
  refine ⟨fun k i hi => ?_, fun k => ?_, rfl⟩
  · cases k <;> first | rfl | exact getElem?_modify_of_ne (hi rfl)
  · cases k <;> first | rfl | exact Array.size_modify

theorem setPromise (r : Ref .promise) (p : Promise) :
    s.Overwritten (s.mapStore (·.setPromise r p)) .promise r.index := by
  refine ⟨fun k i hi => ?_, fun k => ?_, rfl⟩
  · cases k <;> first | rfl | exact Array.getElem?_setIfInBounds_ne (Ne.symm (hi rfl))
  · cases k <;> first | rfl | exact Array.size_setIfInBounds

theorem assign (offset : Nat) {env : Env} {level frame : Nat}
    (h : s.frames.frameAt? env level = some frame) :
    s.Overwritten { s with frames := s.frames.assign env level offset v } .frame frame := by
  rw [Frames.assign, h]
  refine ⟨fun k i hi => ?_, fun k => ?_, rfl⟩
  · cases k <;> first | rfl | exact getElem?_modify_of_ne (hi rfl)
  · cases k <;> first | rfl | exact Array.size_modify

end State.Overwritten

namespace Setting.Scene

variable {T : Setting} {p q : T.Scene} {α β : Type}

/-! ## What is alike in a scene -/

/-- The values are alike in the scene. -/
abbrev Like (p : T.Scene) : Value → Value → Prop := p.links.Like

/-- The lists of values are alike in the scene. -/
abbrev LikeAll (p : T.Scene) : List Value → List Value → Prop := p.links.LikeAll

/-- The environments belong together in the scene. -/
abbrev Around (p : T.Scene) : Env → Env → Prop := p.links.Around

/-- The values stand for twin code in the scene. -/
abbrev Form (p : T.Scene) : Value → Value → Prop := T.Form p.links p.left p.right

/-- The values stand for lists of twin code in the scene. -/
abbrev Body (p : T.Scene) : Value → Value → Prop := T.Body p.links p.left p.right

/-- The results are the same. -/
abbrev Same (_ : T.Scene) (a b : α) : Prop := b = a

/-- Unless the first computation lacks fuel, both come to outcomes that match. -/
abbrev Meets (p : T.Scene) (R : T.Scene → α → β → Prop) (x : Eval α) (y : Nat → Eval β) : Prop :=
  T.pairing.Meets p R x y

theorem like_mono {v w : Value} (h : p ≤ q) (hv : p.Like v w) : q.Like v w := hv.mono h.links

theorem likeAll_mono {vs ws : List Value} (h : p ≤ q) (hv : p.LikeAll vs ws) : q.LikeAll vs ws :=
  hv.mono h.links

theorem around_mono {env env' : Env} (h : p ≤ q) (henv : p.Around env env') : q.Around env env' :=
  henv.mono h.links

theorem form_mono {v w : Value} (h : p ≤ q) (hv : p.Form v w) : q.Form v w := hv.later h

theorem body_mono {v w : Value} (h : p ≤ q) (hv : p.Body v w) : q.Body v w := hv.later h

/-- What belongs together shows the same. -/
theorem shows (p : T.Scene) : p.links.Shows p.left.store p.right.store where
  oneToOne := p.corresponds.oneToOne
  cells h := p.corresponds.contents h
  texts h := p.corresponds.contents h
  bignums h := p.corresponds.contents h
  vectors h := p.corresponds.contents h
  failures h := p.corresponds.contents h
  promises {r q} h := by
    have hr : T.LikePromise _ _ _ (p.left.store.promise r) (p.right.store.promise q) :=
      p.corresponds.contents h
    generalize p.left.store.promise r = a at hr ⊢
    generalize p.right.store.promise q = b at hr ⊢
    cases hr with
    | pending => exact .inr ⟨_, _, _, _, rfl, rfl⟩
    | delivered hv => exact .inl ⟨_, _, rfl, rfl, hv⟩
  callables {r q} h := by
    have hr : T.LikeCallable _ _ _ (p.left.store.callable r) (p.right.store.callable q) :=
      p.corresponds.contents h
    generalize p.left.store.callable r = a at hr ⊢
    generalize p.right.store.callable q = b at hr ⊢
    cases hr with
    | native => exact .inl ⟨_, rfl, rfl⟩
    | closure => exact .inr ⟨_, _, _, _, _, rfl, rfl⟩

/-! ## Reading -/

/-- Both machines look at a part of their states. -/
theorem meets_gets {R : T.Scene → α → β → Prop} {f : State → α} {g : State → β} {a : α} {b : β}
    (hf : ∀ k, f (p.left.withRoom k) = a) (hg : ∀ k, g (p.right.withRoom k) = b) (h : R p a b) :
    p.Meets R (Eval.gets f) fun _ => Eval.gets g := by
  refine .step le_rfl (.of_forall fun k => ?_) (.of_forall fun n k => ?_) h
  · rw [gets_apply]
    exact congrArg (Outcome.ok · _) (hf k)
  · rw [gets_apply]
    exact congrArg (Outcome.ok · _) (hg k)

theorem car_like {r r' : Ref .cell} (h : p.Like (.pair r) (.pair r')) :
    p.Like (p.left.store.car r) (p.right.store.car r') := by
  cases h with
  | pair h => exact (p.shows.cells h).1

theorem cdr_like {r r' : Ref .cell} (h : p.Like (.pair r) (.pair r')) :
    p.Like (p.left.store.cdr r) (p.right.store.cdr r') := by
  cases h with
  | pair h => exact (p.shows.cells h).2

theorem meets_car {r r' : Ref .cell} (h : p.Like (.pair r) (.pair r')) :
    p.Meets Like (Eval.car r) fun _ => Eval.car r' :=
  meets_gets (fun _ => rfl) (fun _ => rfl) (car_like h)

theorem meets_cdr {r r' : Ref .cell} (h : p.Like (.pair r) (.pair r')) :
    p.Meets Like (Eval.cdr r) fun _ => Eval.cdr r' :=
  meets_gets (fun _ => rfl) (fun _ => rfl) (cdr_like h)

theorem print_like (escape : Bool) {v w : Value} (h : p.Like v w) :
    Alike (print p.left.store p.left.symbols escape p.left.config.maxPrintRepeats v)
      (print p.right.store p.right.symbols escape p.right.config.maxPrintRepeats w) := by
  rw [p.corresponds.left.symbols, p.corresponds.left.config, p.corresponds.right.symbols,
    p.corresponds.right.config]
  exact Printer.print_alike p.shows T.symbols escape T.config.maxPrintRepeats h

theorem textIn_withRoom (s : State) (k : Nat) (v : Value) :
    textIn (s.withRoom k) v = textIn s v :=
  Printer.print_withCapacity s.store k s.symbols true s.config.maxPrintRepeats v

theorem meets_textOf {v w : Value} (h : p.Like v w) :
    p.Meets (fun _ => Alike) (textOf v) fun _ => textOf w :=
  meets_gets (fun k => textIn_withRoom p.left k v) (fun k => textIn_withRoom p.right k w)
    (print_like true h)

theorem meets_rawTextOf {v w : Value} (h : p.Like v w) :
    p.Meets (fun _ => Alike) (rawTextOf v) fun _ => rawTextOf w :=
  meets_gets
    (fun k => Printer.print_withCapacity p.left.store k p.left.symbols false
      p.left.config.maxPrintRepeats v)
    (fun k => Printer.print_withCapacity p.right.store k p.right.symbols false
      p.right.config.maxPrintRepeats w)
    (print_like false h)

section Failing

variable {R : T.Scene → α → β → Prop}

theorem meets_fail {c d : Cause} (h : p.links.LikeCause c d) :
    p.Meets R (Eval.fail c) fun _ => Eval.fail d :=
  .fail h

theorem meets_malformed (f : FormFault) :
    p.Meets R (Eval.malformed f) fun _ => Eval.malformed f :=
  meets_fail (.malformed (.refl _))

theorem meets_refuse (f : NativeFault) : p.Meets R (Eval.refuse f) fun _ => Eval.refuse f :=
  meets_fail (.native (.refl _))

theorem meets_failOn {v w : Value} (h : p.Like v w) {cause : String → Cause}
    (hcause : ∀ {q : T.Scene} {a b : String}, Alike a b → q.links.LikeCause (cause a) (cause b)) :
    p.Meets R (Eval.failOn v cause) fun _ => Eval.failOn w cause :=
  (meets_textOf h).bind fun _ _ _ _ hab => meets_fail (hcause hab)

theorem meets_refuseOn {v w : Value} (h : p.Like v w) {f : String → NativeFault}
    (hf : ∀ {a b : String}, Alike a b → Alike (f a).message (f b).message) :
    p.Meets R (Eval.refuseOn v f) fun _ => Eval.refuseOn w f :=
  meets_failOn h fun hab => .native (hf hab)

end Failing

/-! ## Allocating -/

/-- Both machines make something of one kind, which belongs together then. -/
theorem meets_new {k : Kind} {f g : Store → Value × Store} {v w : Value}
    (hf : ∀ c, f { p.left.store with capacity := c } =
      (v, { (f p.left.store).2 with capacity := c }))
    (hg : ∀ c, g { p.right.store with capacity := c } =
      (w, { (g p.right.store).2 with capacity := c }))
    (hs : p.left.Wider (p.left.mapStore fun store => (f store).2))
    (ht : p.right.Wider (p.right.mapStore fun store => (g store).2))
    (hi : (p.left.mapStore fun store => (f store).2).count k = p.left.count k + 1)
    (hj : (p.right.mapStore fun store => (g store).2).count k = p.right.count k + 1)
    (hcontents : p.links ≤ p.links.add k (p.left.count k) (p.right.count k) →
      Later p.links (p.links.add k (p.left.count k) (p.right.count k)) p.left p.right
        (p.left.mapStore fun store => (f store).2) (p.right.mapStore fun store => (g store).2) →
      T.LikeAt (p.links.add k (p.left.count k) (p.right.count k))
        (p.left.mapStore fun store => (f store).2) (p.right.mapStore fun store => (g store).2) k
        (p.left.count k) (p.right.count k))
    (hvw : ∀ {L : Links}, L k (p.left.count k) (p.right.count k) → L.Like v w) :
    p.Meets Like (Eval.alloc f) fun _ => Eval.alloc g := by
  have hbecomes := becomes_add hs ht le_rfl (hi ▸ Nat.lt_succ_self _) le_rfl
    (hj ▸ Nat.lt_succ_self _) fun hlater => hcontents hlater.links hlater
  refine .step (le_become hbecomes) (.of_forall fun c => ?_) (.alloc hg)
    (hvw (Links.add_self _ _ _ _))
  show Outcome.ok (f { p.left.store with capacity := c }).1 _ = _
  rw [show ((T.pairing.left p).withRoom c).store = { p.left.store with capacity := c } from rfl,
    hf c]
  rfl

theorem meets_newText (text : String) :
    p.Meets Like (Eval.alloc (·.newText text)) fun _ => Eval.alloc (·.newText text) :=
  meets_new (k := .text) (fun _ => rfl) (fun _ => rfl) (.newText _ text) (.newText _ text)
    (Array.size_push _) (Array.size_push _)
    (fun _ _ => by simp [LikeAt, Store.text, Store.newText, State.mapStore, State.count]) .text

theorem meets_newBignum (n : Int) :
    p.Meets Like (Eval.alloc (·.newBignum n)) fun _ => Eval.alloc (·.newBignum n) :=
  meets_new (k := .bignum) (fun _ => rfl) (fun _ => rfl) (.newBignum _ n) (.newBignum _ n)
    (Array.size_push _) (Array.size_push _)
    (fun _ _ => by simp [LikeAt, Store.bignum, Store.newBignum, State.mapStore, State.count]) .big

theorem meets_newNumber (n : Num) :
    p.Meets Like (Eval.alloc (·.newNumber n)) fun _ => Eval.alloc (·.newNumber n) := by
  have hpure : ∀ {v : Value}, p.Like v v → (∀ s : Store, s.newNumber n = (v, s)) →
      p.Meets Like (Eval.alloc (·.newNumber n)) fun _ => Eval.alloc (·.newNumber n) := by
    intro v hv hn
    have halloc : Eval.alloc (·.newNumber n) = Pure.pure v := by
      funext s
      rw [alloc_apply, hn]
      rfl
    rw [halloc]
    exact .pure hv
  cases hn : n.normalize with
  | small m => exact hpure (.int m) fun s => by simp only [Store.newNumber, hn]
  | double x => exact hpure (.double x) fun s => by simp only [Store.newNumber, hn]
  | big m =>
      have hbig : (fun s : Store => s.newNumber n) = fun s => s.newBignum m := by
        funext s
        simp only [Store.newNumber, hn]
      rw [hbig]
      exact meets_newBignum m

theorem meets_newVector {vs ws : Array Value} (h : p.LikeAll vs.toList ws.toList) :
    p.Meets Like (Eval.alloc (·.newVector vs)) fun _ => Eval.alloc (·.newVector ws) :=
  meets_new (k := .vector) (fun _ => rfl) (fun _ => rfl) (.newVector _ vs) (.newVector _ ws)
    (Array.size_push _) (Array.size_push _)
    (fun hL _ => by
      simpa [LikeAt, Store.vector, Store.newVector, State.mapStore, State.count] using h.mono hL)
    .vector

theorem meets_newPromise {form form' : Value} {env env' : Env} (h : p.Form form form')
    (henv : p.Around env env') :
    p.Meets Like (Eval.alloc (·.newPromise (.pending form env)))
      fun _ => Eval.alloc (·.newPromise (.pending form' env')) :=
  meets_new (k := .promise) (fun _ => rfl) (fun _ => rfl) (.newPromise _ _) (.newPromise _ _)
    (Array.size_push _) (Array.size_push _)
    (fun hL hlater => by
      simpa [LikeAt, Store.promise, Store.newPromise, State.mapStore, State.count] using
        LikePromise.pending (h.later hlater) (henv.mono hL))
    .promise

theorem meets_newFailure {f g : Failure} (h : p.links.LikeFailure f g) :
    p.Meets Like (Eval.alloc (·.newFailure f)) fun _ => Eval.alloc (·.newFailure g) :=
  meets_new (k := .failure) (fun _ => rfl) (fun _ => rfl) (.newFailure _ f) (.newFailure _ g)
    (Array.size_push _) (Array.size_push _)
    (fun hL _ => by
      simpa [LikeAt, Store.failure, Store.newFailure, State.mapStore, State.count] using
        h.mono hL)
    .failure

theorem meets_cons {a b a' b' : Value} (ha : p.Like a a') (hb : p.Like b b') :
    p.Meets Like (Eval.cons a b) fun _ => Eval.cons a' b' := by
  have hbecomes := becomes_add (p := p) (k := .cell) (.pushCell p.left ⟨a, b⟩)
    (.pushCell p.right ⟨a', b'⟩) le_rfl (Nat.lt_of_lt_of_eq (Nat.lt_succ_self _)
      (Array.size_push _).symm) le_rfl (Nat.lt_of_lt_of_eq (Nat.lt_succ_self _)
      (Array.size_push _).symm) fun hlater => by
    simpa [LikeAt, Store.car, Store.cdr, State.mapStore, State.count] using
      And.intro (ha.mono hlater.links) (hb.mono hlater.links)
  refine .step (le_become hbecomes) ?_ (.cons a' b' p.right) (.pair (Links.add_self _ _ _ _))
  filter_upwards [eventually_gt_atTop p.left.store.cells.size] with k hk
  exact cons_of_room hk a b

theorem meets_consAll {vs ws : List Value} {tail tail' : Value} (h : p.LikeAll vs ws)
    (htail : p.Like tail tail') :
    p.Meets Like (Eval.consAll vs tail) fun _ => Eval.consAll ws tail' := by
  induction vs generalizing p ws tail tail' with
  | nil =>
      cases h
      exact .pure htail
  | cons v vs ih =>
      cases h with
      | cons hv hvs =>
          simp only [consAll_cons]
          exact (meets_cons hv htail).bind fun q a b hq hab => ih (likeAll_mono hq hvs) hab

theorem meets_list {vs ws : List Value} (h : p.LikeAll vs ws) :
    p.Meets Like (Eval.list vs) fun _ => Eval.list ws :=
  meets_consAll (List.rel_reverse h) .nil

theorem meets_extend {vs ws : List Value} {env env' : Env} (h : p.LikeAll vs ws)
    (henv : p.Around env env') :
    p.Meets Around (Eval.extend vs env) fun _ => Eval.extend ws env' := by
  have hbecomes := becomes_add (p := p) (k := .frame) (.pushFrame p.left vs.toArray env)
    (.pushFrame p.right ws.toArray env') le_rfl (Nat.lt_of_lt_of_eq (Nat.lt_succ_self _)
      (Array.size_push _).symm) le_rfl (Nat.lt_of_lt_of_eq (Nat.lt_succ_self _)
      (Array.size_push _).symm) fun hlater => by
    refine ⟨⟨vs.toArray, env⟩, ⟨ws.toArray, env'⟩, ?_, ?_, ?_, henv.mono hlater.links⟩
    · simp [State.count, Frames.push]
    · simp [State.count, Frames.push]
    · simpa using h.mono hlater.links
  exact .step (le_become hbecomes) (.of_forall fun _ => rfl) (.of_forall fun _ _ => rfl)
    (.some (Links.add_self _ _ _ _))

/-! ## Overwriting -/

/-- Both machines overwrite things that belong together. -/
theorem meets_update {k : Kind} {i j : Nat} {f g : Store → Store} (hij : p.links k i j)
    (hk : k ≠ .callable)
    (hf : ∀ c, f { p.left.store with capacity := c } = { f p.left.store with capacity := c })
    (hg : ∀ c, g { p.right.store with capacity := c } = { g p.right.store with capacity := c })
    (hs : p.left.Overwritten (p.left.mapStore f) k i)
    (ht : p.right.Overwritten (p.right.mapStore g) k j)
    (hcontents : T.LikeAt p.links (p.left.mapStore f) (p.right.mapStore g) k i j) :
    p.Meets Same (Eval.update f) fun _ => Eval.update g := by
  have hbecomes := becomes_overwritten hij hk hs ht hcontents
  refine .step (le_become hbecomes) (.of_forall fun c => ?_)
    (.alloc fun c => congrArg (Prod.mk ()) (hg c)) rfl
  show Outcome.ok () { (p.left.withRoom c) with store := f { p.left.store with capacity := c } } = _
  rw [hf c]
  rfl

theorem meets_setCar {r r' : Ref .cell} {v w : Value} (h : p.Like (.pair r) (.pair r'))
    (hv : p.Like v w) : p.Meets Same (Eval.setCar r v) fun _ => Eval.setCar r' w := by
  cases h with
  | pair h =>
      have hlt := p.corresponds.count h
      refine meets_update h (by simp) (fun _ => rfl) (fun _ => rfl) (.setCar _ v r)
        (.setCar _ w r') ⟨?_, ?_⟩
      · rw [State.mapStore, State.mapStore, Store.car_setCar_self _ _ hlt.1,
          Store.car_setCar_self _ _ hlt.2]
        exact hv
      · rw [State.mapStore, State.mapStore, Store.cdr_setCar, Store.cdr_setCar]
        exact (p.shows.cells h).2

theorem meets_setCdr {r r' : Ref .cell} {v w : Value} (h : p.Like (.pair r) (.pair r'))
    (hv : p.Like v w) : p.Meets Same (Eval.setCdr r v) fun _ => Eval.setCdr r' w := by
  cases h with
  | pair h =>
      have hlt := p.corresponds.count h
      refine meets_update h (by simp) (fun _ => rfl) (fun _ => rfl) (.setCdr _ v r)
        (.setCdr _ w r') ⟨?_, ?_⟩
      · rw [State.mapStore, State.mapStore, Store.car_setCdr, Store.car_setCdr]
        exact (p.shows.cells h).1
      · rw [State.mapStore, State.mapStore, Store.cdr_setCdr_self _ _ hlt.1,
          Store.cdr_setCdr_self _ _ hlt.2]
        exact hv

theorem forall₂_setIfInBounds {α β : Type} {R : α → β → Prop} {as : Array α} {bs : Array β}
    (h : List.Forall₂ R as.toList bs.toList) (i : Nat) {a : α} {b : β} (hab : R a b) :
    List.Forall₂ R (as.setIfInBounds i a).toList (bs.setIfInBounds i b).toList := by
  rw [Array.toList_setIfInBounds, Array.toList_setIfInBounds]
  generalize as.toList = as at h ⊢
  generalize bs.toList = bs at h ⊢
  induction h generalizing i with
  | nil => exact .nil
  | cons h hs ih =>
      cases i with
      | zero => exact .cons hab hs
      | succ i => exact .cons h (ih i)

theorem meets_setItem {r r' : Ref .vector} {v w : Value} (i : Nat)
    (h : p.Like (.vector r) (.vector r')) (hv : p.Like v w) :
    p.Meets Same (Eval.update (·.setItem r i v)) fun _ => Eval.update (·.setItem r' i w) := by
  cases h with
  | vector h =>
      have hlt := p.corresponds.count h
      refine meets_update h (by simp) (fun _ => rfl) (fun _ => rfl) (.setItem _ v r i)
        (.setItem _ w r' i) ?_
      have hself : ∀ (s : Store) (r : Ref .vector) (v : Value), r.index < s.vectors.size →
          (s.setItem r i v).vector r = (s.vector r).setIfInBounds i v := by
        intro s r v hr
        simp [Store.setItem, Store.vector, Array.getD_eq_getD_getElem?, Array.getElem_modify, hr]
      simp only [LikeAt, State.mapStore, hself _ _ _ hlt.1, hself _ _ _ hlt.2]
      exact forall₂_setIfInBounds (p.shows.vectors h) i hv

theorem meets_settle {r r' : Ref .promise} {v w : Value} (h : p.Like (.promise r) (.promise r'))
    (hv : p.Like v w) :
    p.Meets Same (Eval.update (·.setPromise r (.delivered v)))
      fun _ => Eval.update (·.setPromise r' (.delivered w)) := by
  cases h with
  | promise h =>
      have hlt := p.corresponds.count h
      refine meets_update h (by simp) (fun _ => rfl) (fun _ => rfl) (.setPromise _ r _)
        (.setPromise _ r' _) ?_
      simp only [LikeAt, State.mapStore]
      rw [Store.promise_setPromise_self _ hlt.1, Store.promise_setPromise_self _ hlt.2]
      exact .delivered hv

/-! ## Frames -/

theorem frameAt?_like {env env' : Env} (h : p.Around env env') (level : Nat) :
    Option.Rel (p.links .frame) (p.left.frames.frameAt? env level)
      (p.right.frames.frameAt? env' level) := by
  induction level generalizing env env' with
  | zero =>
      cases h with
      | none => exact .none
      | @some i j h =>
          have hlt : i < p.left.frames.table.size ∧ j < p.right.frames.table.size :=
            p.corresponds.count h
          rw [Frames.frameAt?, Frames.frameAt?, if_pos hlt.1, if_pos hlt.2]
          exact .some h
  | succ level ih =>
      cases h with
      | none => exact .none
      | some h =>
          obtain ⟨frame, frame', hframe, hframe', -, hnext⟩ := p.corresponds.contents h
          rw [Frames.frameAt?, Frames.frameAt?, hframe, hframe']
          exact ih hnext

theorem likeAll_getElem? {vs ws : Array Value} (h : p.LikeAll vs.toList ws.toList) (i : Nat) :
    p.links.LikeOption vs[i]? ws[i]? := by
  rw [← Array.getElem?_toList, ← Array.getElem?_toList]
  generalize vs.toList = vs at h ⊢
  generalize ws.toList = ws at h ⊢
  induction h generalizing i with
  | nil => exact .none
  | cons hv _ ih =>
      cases i with
      | zero => exact .some hv
      | succ i => exact ih i

theorem lookup?_like {env env' : Env} (h : p.Around env env') (level offset : Nat) :
    p.links.LikeOption (p.left.frames.lookup? env level offset)
      (p.right.frames.lookup? env' level offset) := by
  have hat := frameAt?_like h level
  rw [Frames.lookup?, Frames.lookup?]
  generalize p.left.frames.frameAt? env level = i at hat ⊢
  generalize p.right.frames.frameAt? env' level = j at hat ⊢
  cases hat with
  | none => exact .none
  | some hij =>
      obtain ⟨frame, frame', hframe, hframe', hslots, -⟩ := p.corresponds.contents hij
      simp only [hframe, hframe', Option.bind_some]
      exact likeAll_getElem? hslots offset

/-- A slot that is there is one of linked frames. -/
theorem exists_frames {env env' : Env} (h : p.Around env env') {level offset : Nat} {v : Value}
    (hv : p.left.frames.lookup? env level offset = some v) :
    ∃ i j, p.left.frames.frameAt? env level = some i ∧
      p.right.frames.frameAt? env' level = some j ∧ p.links .frame i j := by
  have hat := frameAt?_like h level
  cases hi : p.left.frames.frameAt? env level with
  | none => rw [Frames.lookup?, hi] at hv; cases hv
  | some i =>
      rw [hi] at hat
      generalize p.right.frames.frameAt? env' level = j at hat
      cases hat with
      | some hij => exact ⟨i, _, rfl, rfl, hij⟩

theorem meets_assign {env env' : Env} {v w : Value} (h : p.Around env env') (a : Address)
    (hv : p.Like v w) :
    p.Meets Same (Eval.assign env a v) fun _ => Eval.assign env' a w := by
  have hlookup := lookup?_like h a.level a.offset
  have hassign : ∀ (s : State) (env : Env) (v : Value) (k : Nat),
      Eval.assign env a v (s.withRoom k) =
        if (s.frames.lookup? env a.level a.offset).isSome then
          .ok true (State.withRoom
            { s with frames := s.frames.assign env a.level a.offset v } k)
        else .ok false (s.withRoom k) := fun _ _ _ _ => rfl
  generalize hl : p.left.frames.lookup? env a.level a.offset = l at hlookup
  generalize hr : p.right.frames.lookup? env' a.level a.offset = r at hlookup
  cases hlookup with
  | none =>
      refine .step le_rfl (.of_forall fun k => ?_) (.of_forall fun n k => ?_) (rfl : false = false)
      · exact (hassign p.left env v k).trans (by rw [hl]; rfl)
      · exact (hassign p.right env' w k).trans (by rw [hr]; rfl)
  | some =>
      obtain ⟨i, j, hi, hj, hij⟩ := exists_frames h hl
      obtain ⟨frame, frame', hframe, hframe', hslots, hnext⟩ := p.corresponds.contents hij
      have hbecomes := becomes_overwritten hij (by simp)
        (.assign p.left v a.offset hi) (.assign p.right w a.offset hj) (by
          refine ⟨{ frame with slots := frame.slots.setIfInBounds a.offset v },
            { frame' with slots := frame'.slots.setIfInBounds a.offset w }, ?_, ?_,
            forall₂_setIfInBounds hslots a.offset hv, hnext⟩
          · simp [Frames.assign, hi, Array.getElem?_modify, hframe]
          · simp [Frames.assign, hj, Array.getElem?_modify, hframe'])
      refine .step (le_become hbecomes) (.of_forall fun k => ?_) (.of_forall fun n k => ?_)
        (rfl : true = true)
      · exact (hassign p.left env v k).trans (by rw [hl]; rfl)
      · exact (hassign p.right env' w k).trans (by rw [hr]; rfl)

/-! ## Binding and printing -/

theorem meets_setGlobal {x : Symbol} {v w : Value} (hx : T.Assigns x) (hv : p.Like v w) :
    p.Meets Same (Eval.modify (·.setGlobal x v)) fun _ => Eval.modify (·.setGlobal x w) :=
  .step (le_become (becomes_setGlobal hx hv)) (.of_forall fun _ => rfl) (.of_forall fun _ _ => rfl)
    rfl

theorem meets_write {a b : String} (hab : Alike a b) :
    p.Meets Same (Eval.write a) fun _ => Eval.write b := by
  have haccepts : ∀ {s : State} {text : String} {k : Nat}, s.sink.room = none →
      Eval.write text (s.withRoom k) =
        .ok () (State.withRoom { s with sink := s.sink.add text } k) := by
    intro s text k hroom
    refine if_pos ?_
    rw [show (s.withRoom k).sink = s.sink from rfl, Sink.accepts, hroom]
  exact .step (le_become (becomes_write hab))
    (.of_forall fun _ => haccepts p.corresponds.left.room)
    (.of_forall fun _ _ => haccepts p.corresponds.right.room) rfl

/-- Addresses are shown the same, although they are no values of programs. -/
theorem meets_failOn_address {R : T.Scene → α → β → Prop} (a : Address) (cause : String → Cause)
    (hcause : ∀ {q : T.Scene} (text : String), q.links.LikeCause (cause text) (cause text)) :
    p.Meets R (Eval.failOn (.address a) cause) fun _ => Eval.failOn (.address a) cause := by
  have htext : ∀ s : State, textIn s (.address a) = "#" ++ Nat.repr a.level ++ ":" ++
      Nat.repr a.offset ++ ":" ++ s.symbols.name a.symbol := by
    intro s
    rw [textIn, print, Printer.render, Printer.value]
  refine .bind (R := Same) (meets_gets (fun k => textIn_withRoom p.left k _)
    (fun k => textIn_withRoom p.right k _) ?_) fun q m n _ hmn => ?_
  · rw [Same, htext, htext, p.corresponds.left.symbols, p.corresponds.right.symbols]
  · cases hmn
    exact meets_fail (hcause _)

/-- Both machines bind a variable. -/
theorem meets_bindVariable {target v w : Value} {env env' : Env}
    (htarget : (∃ x, target = .sym x ∧ T.Assigns x) ∨ ∃ a, target = .address a)
    (henv : p.Around env env') (hv : p.Like v w) :
    p.Meets Same (Engine.bindVariable target v env) fun _ => Engine.bindVariable target w env' := by
  rcases htarget with ⟨x, rfl, hx⟩ | ⟨a, rfl⟩
  · have hkey : ∀ {s : State} {k : Nat}, T.Suits s →
        Eval.isKeyword x (s.withRoom k) = .ok false (s.withRoom k) := by
      intro s k hs
      rw [Eval.isKeyword, gets_apply]
      show Outcome.ok (s.symbols.isKeyword x) _ = _
      rw [hs.symbols, hx.2.1]
    refine .read (fun k => hkey p.corresponds.left)
      (.of_forall fun n k => hkey p.corresponds.right) ?_
    exact meets_setGlobal hx hv
  · refine (meets_assign henv a hv).bind fun q b b' _ hb => ?_
    cases hb
    cases b with
    | true => exact .pure rfl
    | false => exact meets_failOn_address a _ fun _ => .notVariable (.refl _)

end Setting.Scene

end SmallLisp
