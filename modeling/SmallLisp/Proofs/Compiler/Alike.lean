import SmallLisp.Proofs.Compiler.Passes
import SmallLisp.Proofs.Soundness.State

/-!
# The same text in two states

Compiling makes new cells and templates, so a form that is compiled twice does not give the same
value twice. Values of two states are alike if they are the same text but for which cells and
templates it is made of. What both states have in common is an earlier state that both come after.

Two computations run side by side are compared only where both give a value. Such a comparison goes
through sequences and through lists item by item.
-/

namespace SmallLisp

open Eval

/-! ## What later states keep -/

/-- A macro with its body. -/
def Callable.expander? : Callable → Option (Callable × Value)
  | .expander shape body => some (.expander shape body, body)
  | _ => none

/-- The macro that a value denotes at the head of a form, if it does. -/
def State.expander? (s : State) : Value → Option (Callable × Value)
  | .sym x =>
      match s.global? x with
      | some (.callable r) => (s.store.callable r).expander?
      | _ => none
  | .callable r => (s.store.callable r).expander?
  | _ => none

theorem Engine.expander?_apply (v : Value) (s : State) :
    Engine.expander? v s = .ok (s.expander? v) s := by
  have callee : ∀ r : Ref .callable, Engine.expander? (.callable r) s =
      .ok (s.store.callable r).expander? s := by
    intro r
    cases hf : s.store.callable r <;>
      simp [Engine.expander?, bind_apply, hf, Callable.expander?]
  cases v with
  | sym x =>
      cases hg : s.global? x with
      | none => simp [Engine.expander?, bind_apply, hg, State.expander?]
      | some u =>
          cases u with
          | callable r =>
              simp only [State.expander?, hg, ← callee r]
              simp [Engine.expander?, bind_apply, hg]
          | _ => simp [Engine.expander?, bind_apply, hg, State.expander?]
  | callable r => exact callee r
  | _ => rfl

theorem State.expander?_eq_none {s : State} {v : Value} :
    s.expander? v = none ↔ ¬ s.Expands v := by
  have callee : ∀ f : Callable, f.expander? = none ↔ ¬ ∃ shape body, f = .expander shape body := by
    intro f
    cases f <;> simp [Callable.expander?]
  cases v with
  | sym x =>
      cases hg : s.global? x with
      | none => simp [State.expander?, State.Expands, hg]
      | some u =>
          cases u with
          | callable r => simp [State.expander?, State.Expands, hg, callee]
          | _ => simp [State.expander?, State.Expands, hg]
  | callable r => exact callee _
  | _ => simp [State.expander?, State.Expands]

/-- The later state still has the text, the callables and the private variables of the earlier one,
and the same names denote the same macros. -/
structure State.Carries (s t : State) : Prop where
  cells : s.store.KeepsCells t.store
  callables : s.store.KeepsCallables t.store
  dummies : ∀ (i : Nat) x, s.store.dummies[i]? = some x → t.store.dummies[i]? = some x
  expander : ∀ x, t.expander? (.sym x) = s.expander? (.sym x)
  depth : t.config.maxMacroExpansions = s.config.maxMacroExpansions

/-- What is taken to stay as it is between a state and a later one: at least what `State.Carries`
says. The compiler itself only adds cells and templates. -/
structure History where
  leads : State → State → Prop
  refl (s : State) : leads s s
  trans {s t u : State} : leads s t → leads t u → leads s u
  carries {s t : State} : leads s t → s.Carries t
  cells {s t : State} : s.store.AddsCells t.store → t = { s with store := t.store } → leads s t
  template (s : State) (shape : Shape) (body : Value) :
    leads s { s with store := (s.store.newCallable (.template shape body)).2 }

theorem State.Carries.refl (s : State) : s.Carries s :=
  ⟨fun _ _ h => h, fun _ _ h => h, fun _ _ h => h, fun _ => rfl, rfl⟩

theorem State.Carries.trans {s t u : State} (h : s.Carries t) (h' : t.Carries u) : s.Carries u :=
  ⟨h.cells.trans h'.cells, fun _ _ hf => h'.callables _ _ (h.callables _ _ hf),
    fun _ _ hx => h'.dummies _ _ (h.dummies _ _ hx), fun x => (h'.expander x).trans (h.expander x),
    h'.depth.trans h.depth⟩

/-- The history in which nothing stays but what has to. -/
def History.least : History where
  leads := State.Carries
  refl := State.Carries.refl
  trans := State.Carries.trans
  carries h := h
  cells := by
    intro s t hadd ht
    have hrest : t.store = { s.store with cells := t.store.cells } := hadd.rest
    have hglobal : ∀ x, t.global? x = s.global? x := fun x => by rw [ht]; rfl
    have hcallable : ∀ r, t.store.callable r = s.store.callable r := fun r => by rw [hrest]; rfl
    refine ⟨hadd.keeps, fun i f hf => ?_, fun i x hx => ?_, fun x => ?_, by rw [ht]⟩
    · rw [hrest]
      exact hf
    · rw [hrest]
      exact hx
    · simp only [State.expander?, hglobal, hcallable]
  template s shape body := by
    have hnew := State.Extends.newTemplate s shape body
    have hcallee : ∀ r, ((s.store.newCallable (.template shape body)).2.callable r).expander? =
        (s.store.callable r).expander? := by
      intro r
      simp only [Store.newCallable, Store.callable, Array.getD_eq_getD_getElem?,
        Array.getElem?_push]
      split
      · rename_i hr
        rw [hr, Array.getElem?_eq_none (Nat.le_refl _)]
        rfl
      · rfl
    refine ⟨hnew.cells, hnew.callables, fun i x hx => hx, fun x => ?_, rfl⟩
    have hglobal : ∀ x, State.global? { s with
      store := (s.store.newCallable (.template shape body)).2 } x = s.global? x := fun _ => rfl
    simp only [State.expander?, hglobal, hcallee]

/-! ## Alike values -/

/-- Lists of the same length are both empty or both pairs. -/
theorem Store.Chain.nils_or_pairs {a b : Store} {xs ys : List Value} {v w : Value}
    (hv : a.Chain xs .nil v) (hw : b.Chain ys .nil w) (hlen : xs.length = ys.length) :
    (v = .nil ∧ w = .nil) ∨ ∃ p q, v = .pair p ∧ w = .pair q := by
  cases xs with
  | nil =>
      cases ys with
      | nil => exact .inl ⟨hv, hw⟩
      | cons y ys => cases hlen
  | cons x xs =>
      cases ys with
      | nil => cases hlen
      | cons y ys =>
          obtain ⟨p, _, rfl, -⟩ := hv
          obtain ⟨q, _, rfl, -⟩ := hw
          exact .inr ⟨p, q, rfl, rfl⟩

namespace State

/-- The same data but for the cells that it is made of. The first state is the earlier one. -/
inductive Similar (s : State) (a b : Store) : Value → Value → Prop
  | same {v : Value} : s.bounds.Holds v → Similar s a b v v
  | address (x : Address) : Similar s a b (.address x) (.address x)
  | pair {p q : Ref .cell} {x y d e : Value} : a.cell? p = some ⟨x, d⟩ → b.cell? q = some ⟨y, e⟩ →
      Similar s a b x y → Similar s a b d e → Similar s a b (.pair p) (.pair q)

/-- The same text but for the cells and templates that it is made of: words of the earlier state,
quoted data, proper lists of text, and compiled lambdas. -/
inductive Alike (s : State) (a b : Store) : Value → Value → Prop
  | word {v : Value} : v.isPair = false → s.bounds.Holds v → Alike s a b v v
  | address (x : Address) : Alike s a b (.address x) (.address x)
  | quoted {p q : Ref .cell} {d e : Value} : a.cell? p = some ⟨.sym Symbol.quote, d⟩ →
      b.cell? q = some ⟨.sym Symbol.quote, e⟩ → s.Similar a b d e →
      Alike s a b (.pair p) (.pair q)
  | list {xs ys : List Value} {v w : Value} : a.Chain xs .nil v → b.Chain ys .nil w →
      xs.length = ys.length → (∀ e ∈ xs.zip ys, Alike s a b e.1 e.2) → Alike s a b v w
  | template {i j : Ref .callable} {shape : Shape} {v w : Value} :
      a.callables[i.index]? = some (.template shape v) →
      b.callables[j.index]? = some (.template shape w) → Alike s a b v w →
      Alike s a b (.callable i) (.callable j)

/-- Proper lists of text that is alike item by item. -/
def AlikeLists (s : State) (a b : Store) (v w : Value) : Prop :=
  ∃ xs ys, a.Chain xs .nil v ∧ b.Chain ys .nil w ∧ List.Forall₂ (s.Alike a b) xs ys

/-- The value is text: words, quoted data and proper lists, none of it promised or in a cycle. -/
def IsText (s : State) (v : Value) : Prop := s.Alike s.store s.store v v

variable {s : State} {a b a' b' : Store} {v w : Value}

theorem Similar.keeps (ha : a.KeepsCells a') (hb : b.KeepsCells b') (h : s.Similar a b v w) :
    s.Similar a' b' v w := by
  induction h with
  | same hv => exact .same hv
  | address x => exact .address x
  | pair hp hq _ _ ihx ihd => exact .pair (ha _ _ hp) (hb _ _ hq) ihx ihd

theorem Alike.keeps (ha : a.KeepsCells a') (hb : b.KeepsCells b') (ha' : a.KeepsCallables a')
    (hb' : b.KeepsCallables b') (h : s.Alike a b v w) : s.Alike a' b' v w := by
  induction h with
  | word hv hs => exact .word hv hs
  | address x => exact .address x
  | quoted hp hq hd => exact .quoted (ha _ _ hp) (hb _ _ hq) (hd.keeps ha hb)
  | list hv hw hlen _ ih => exact .list (hv.keeps ha) (hw.keeps hb) hlen ih
  | template hi hj _ ih => exact .template (ha' _ _ hi) (hb' _ _ hj) ih

theorem AlikeLists.alike (h : s.AlikeLists a b v w) : s.Alike a b v w := by
  obtain ⟨xs, ys, hv, hw, hall⟩ := h
  refine .list hv hw hall.length_eq fun e he => ?_
  exact (List.forall₂_iff_zip.1 hall).2 he

/-- No symbol is alike to anything else. -/
theorem Alike.isSym (h : s.Alike a b v w) (x : Symbol) : v.isSym x = w.isSym x := by
  cases h with
  | list hv hw hlen _ =>
      obtain ⟨rfl, rfl⟩ | ⟨p, q, rfl, rfl⟩ := hv.nils_or_pairs hw hlen <;> rfl
  | _ => rfl

theorem Alike.isLeftAlone (h : s.Alike a b v w) : Engine.isLeftAlone v = Engine.isLeftAlone w := by
  simp only [Engine.isLeftAlone, h.isSym]

/-- Text that is alike is two words or two pairs; of the pairs either both quote, or both are lists
of text that is alike. -/
theorem Alike.cases (h : s.Alike a b v w) :
    (v.isPair = false ∧ w.isPair = false) ∨
    ∃ p q, v = .pair p ∧ w = .pair q ∧
      (a.car p = .sym Symbol.quote ∧ b.car q = .sym Symbol.quote ∨
      ∃ x y d e, a.cell? p = some ⟨x, d⟩ ∧ b.cell? q = some ⟨y, e⟩ ∧
        x.isSym Symbol.quote = false ∧ s.Alike a b x y ∧ s.AlikeLists a b d e) := by
  cases h with
  | word hv _ => exact .inl ⟨hv, hv⟩
  | address x => exact .inl ⟨rfl, rfl⟩
  | quoted hp hq _ =>
      exact .inr ⟨_, _, rfl, rfl, .inl ⟨Store.car_of_cell? hp, Store.car_of_cell? hq⟩⟩
  | template _ _ _ => exact .inl ⟨rfl, rfl⟩
  | @list xs ys _ _ hv hw hlen hzip =>
      have hall : List.Forall₂ (s.Alike a b) xs ys :=
        List.forall₂_iff_zip.2 ⟨hlen, fun he => hzip _ he⟩
      cases hall with
      | nil =>
          cases hv
          cases hw
          exact .inl ⟨rfl, rfl⟩
      | @cons x y xs ys hxy hall =>
          obtain ⟨p, d, rfl, hp, hd⟩ := hv
          obtain ⟨q, e, rfl, hq, he⟩ := hw
          refine .inr ⟨p, q, rfl, rfl, ?_⟩
          have hsym := hxy.isSym Symbol.quote
          cases hx : x.isSym Symbol.quote with
          | false => exact .inr ⟨x, y, d, e, hp, hq, hx, hxy, xs, ys, hd, he, hall⟩
          | true =>
              rw [hx] at hsym
              rw [Store.car_of_cell? hp, Store.car_of_cell? hq]
              exact .inl ⟨Value.isSym_iff.1 hx, Value.isSym_iff.1 hsym.symm⟩

/-- A scan makes the same of words that are alike. -/
theorem Alike.scan (ps : Parameters) (h : s.Alike a b v w) (hv : v.isPair = false) :
    s.Alike a b (ps.scan v) (ps.scan w) := by
  cases h with
  | @word v _ hs =>
      rcases ps.scan_cases v with hv' | ⟨x, hv'⟩
      · rw [hv']
        exact .word hv hs
      · rw [hv']
        exact .address x
  | address x => exact .address _
  | quoted => cases hv
  | template hi hj hvw => exact .template hi hj hvw
  | list hv' hw' hlen hzip =>
      obtain ⟨rfl, rfl⟩ | ⟨p, q, rfl, rfl⟩ := hv'.nils_or_pairs hw' hlen
      · exact .list hv' hw' hlen hzip
      · cases hv

end State

/-! ## Computations side by side -/

namespace History

variable {K : History} {α β γ δ : Type}

/-- Wherever both computations give a value, the states they are left in come later, and `R` says
what the two values have to do with each other. -/
def Parallel (K : History) (s t : State) (x : Eval α) (y : Eval β)
    (R : State → State → α → β → Prop) : Prop :=
  ∀ a b s' t', x s = .ok a s' → y t = .ok b t' → K.leads s s' ∧ K.leads t t' ∧ R s' t' a b

namespace Parallel

variable {s t : State} {x : Eval α} {y : Eval β} {f : α → Eval γ} {g : β → Eval δ}
  {R R' : State → State → α → β → Prop} {Q : State → State → γ → δ → Prop}

theorem pure {a : α} {b : β} (h : R s t a b) : K.Parallel s t (Pure.pure a) (Pure.pure b) R := by
  rintro _ _ _ _ ⟨⟩ ⟨⟩
  exact ⟨K.refl s, K.refl t, h⟩

theorem of_not_ok (h : ∀ a s', x s ≠ .ok a s') : K.Parallel s t x y R :=
  fun a _ s' _ hx _ => absurd hx (h a s')

theorem mono (h : K.Parallel s t x y R)
    (hR : ∀ s' t' a b, K.leads s s' → K.leads t t' → R s' t' a b → R' s' t' a b) :
    K.Parallel s t x y R' := by
  intro a b s' t' hx hy
  obtain ⟨hs, ht, hab⟩ := h a b s' t' hx hy
  exact ⟨hs, ht, hR s' t' a b hs ht hab⟩

theorem bind (h : K.Parallel s t x y R)
    (hf : ∀ a b s' t', K.leads s s' → K.leads t t' → R s' t' a b →
      K.Parallel s' t' (f a) (g b) Q) :
    K.Parallel s t (x >>= f) (y >>= g) Q := by
  intro c d s'' t'' hx hy
  obtain ⟨a, s', ha, hc⟩ := bind_eq_ok.1 hx
  obtain ⟨b, t', hb, hd⟩ := bind_eq_ok.1 hy
  obtain ⟨hs, ht, hab⟩ := h a b s' t' ha hb
  obtain ⟨hs', ht', hcd⟩ := hf a b s' t' hs ht hab c d s'' t'' hc hd
  exact ⟨K.trans hs hs', K.trans ht ht', hcd⟩

/-- What is only looked up on both sides. -/
theorem bind_of_ok {a : α} {b : β} (hx : x s = .ok a s) (hy : y t = .ok b t)
    (hf : K.Parallel s t (f a) (g b) Q) : K.Parallel s t (x >>= f) (y >>= g) Q := by
  intro c d s' t' hc hd
  rw [Eval.bind_of_ok hx] at hc
  rw [Eval.bind_of_ok hy] at hd
  exact hf c d s' t' hc hd

end Parallel

variable {s₀ s t s' t' : State} {v w : Value}

theorem alike_later (hs : K.leads s s') (ht : K.leads t t')
    (h : s₀.Alike s.store t.store v w) : s₀.Alike s'.store t'.store v w :=
  h.keeps (K.carries hs).cells (K.carries ht).cells (K.carries hs).callables
    (K.carries ht).callables

/-- A pass over text makes text that is alike of text that is alike, in whichever later states. -/
def Respects (K : History) (s₀ : State) (f : Value → Eval Value) : Prop :=
  ∀ {v w : Value} {s t : State}, K.leads s₀ s → K.leads s₀ t → s₀.Alike s.store t.store v w →
    K.Parallel s t (f v) (f w) fun s t => s₀.Alike s.store t.store

theorem mapItems_parallel (E : Engine) {f : Value → Eval Value} (hf : K.Respects s₀ f) {n : Nat}
    {xs ys done done' : List Value} (hs : K.leads s₀ s) (ht : K.leads s₀ t)
    (hv : s.store.Chain xs .nil v) (hw : t.store.Chain ys .nil w)
    (hall : List.Forall₂ (s₀.Alike s.store t.store) xs ys)
    (hdone : List.Forall₂ (s₀.Alike s.store t.store) done done') :
    K.Parallel s t (E.mapItems f n v done) (E.mapItems f n w done') fun s t =>
      List.Forall₂ (s₀.Alike s.store t.store) := by
  induction n generalizing xs ys done done' v w s t with
  | zero =>
      cases hall with
      | nil =>
          cases hv
          cases hw
          exact .pure hdone
      | cons _ _ =>
          obtain ⟨r, d, rfl, -⟩ := hv
          exact .of_not_ok (by simp [Engine.mapItems])
  | succ n ih =>
      cases hall with
      | nil =>
          cases hv
          cases hw
          exact .pure hdone
      | @cons x y xs ys hxy hall =>
          obtain ⟨p, d, rfl, hp, hd⟩ := hv
          obtain ⟨q, e, rfl, hq, he⟩ := hw
          rw [Engine.mapItems, Engine.mapItems]
          refine .bind_of_ok (car_apply p s) (car_apply q t) ?_
          rw [Store.car_of_cell? hp, Store.car_of_cell? hq]
          refine .bind (hf hs ht hxy) fun a b s' t' hs' ht' hab => ?_
          have keep : ∀ {v w}, s₀.Alike s.store t.store v w → s₀.Alike s'.store t'.store v w :=
            K.alike_later hs' ht'
          have hd' := hd.keeps (K.carries hs').cells
          have he' := he.keeps (K.carries ht').cells
          refine .bind_of_ok (E.cdrCell_of_list ((K.carries hs').cells _ _ hp) hd')
            (E.cdrCell_of_list ((K.carries ht').cells _ _ hq) he') ?_
          exact ih (K.trans hs hs') (K.trans ht ht') hd' he' (hall.imp fun _ _ h => keep h)
            (.cons hab (hdone.imp fun _ _ h => keep h))

theorem mapList_parallel (E : Engine) {f : Value → Eval Value} (hf : K.Respects s₀ f)
    (hs : K.leads s₀ s) (ht : K.leads s₀ t) (h : s₀.AlikeLists s.store t.store v w) :
    K.Parallel s t (E.mapList f v) (E.mapList f w) fun s t => s₀.AlikeLists s.store t.store := by
  obtain ⟨xs, ys, hv, hw, hall⟩ := h
  refine .bind (K.mapItems_parallel E hf hs ht hv hw hall .nil) ?_
  intro vs ws s₁ t₁ _ _ hall v w s₂ t₂ hv hw
  obtain ⟨hadd, hs, hchain⟩ := consAll_eq_ok hv
  obtain ⟨hadd', ht, hchain'⟩ := consAll_eq_ok hw
  have hs₂ := K.cells hadd hs
  have ht₂ := K.cells hadd' ht
  refine ⟨hs₂, ht₂, _, _, hchain, hchain', ?_⟩
  exact (List.rel_reverse hall).imp fun _ _ h => K.alike_later hs₂ ht₂ h

/-! ## Item by item -/

/-- Somewhere on the way from the first state to the second, the pass makes `y` of `x`. -/
def Makes (K : History) (f : Value → Eval Value) (s t : State) (x y : Value) : Prop :=
  ∃ s' t', K.leads s s' ∧ f x s' = .ok y t' ∧ K.leads t' t

/-- It does so on any longer way. -/
theorem Makes.widen {f : Value → Eval Value} {x y : Value} (h : K.Makes f s t x y)
    (hs : K.leads s' s) (ht : K.leads t t') : K.Makes f s' t' x y := by
  obtain ⟨u, u', hu, hy, hu'⟩ := h
  exact ⟨u, u', K.trans hs hu, hy, K.trans hu' ht⟩

theorem Makes.of_pure {f : Value → Eval Value} {x y z : Value} (h : K.Makes f s t x y)
    (hf : f x = Pure.pure z) : y = z := by
  obtain ⟨s', t', -, hy, -⟩ := h
  rw [hf] at hy
  cases hy
  rfl

theorem Makes.alike {f : Value → Eval Value} (hf : K.Respects s₀ f) {x x' y y' : Value}
    (hs : K.leads s₀ s) (ht : K.leads s₀ t) (h : K.Makes f s s' x y) (h' : K.Makes f t t' x' y')
    (hx : s₀.Alike s.store t.store x x') : s₀.Alike s'.store t'.store y y' := by
  obtain ⟨s₁, s₂, hs₁, hy, hs₂⟩ := h
  obtain ⟨t₁, t₂, ht₁, hy', ht₂⟩ := h'
  obtain ⟨-, -, halike⟩ := hf (K.trans hs hs₁) (K.trans ht ht₁) (K.alike_later hs₁ ht₁ hx)
    y y' s₂ t₂ hy hy'
  exact K.alike_later hs₂ ht₂ halike

theorem Makes.leads {f : Value → Eval Value} (hf : K.Respects s₀ f) {x y : Value}
    (hs : K.leads s₀ s) (h : K.Makes f s t x y) (hx : s₀.Alike s.store s.store x x) :
    K.leads s t := by
  obtain ⟨s₁, s₂, hs₁, hy, hs₂⟩ := h
  obtain ⟨hs₁₂, -⟩ := hf (K.trans hs hs₁) (K.trans hs hs₁) (K.alike_later hs₁ hs₁ hx)
    y y s₂ s₂ hy hy
  exact K.trans hs₁ (K.trans hs₁₂ hs₂)

theorem alike_of_makes {f : Value → Eval Value} (hf : K.Respects s₀ f) (hs : K.leads s₀ s)
    {xs ys : List Value} (hxs : ∀ x ∈ xs, s₀.Alike s.store s.store x x)
    (h : List.Forall₂ (K.Makes f s t) xs ys) : ∀ y ∈ ys, s₀.Alike t.store t.store y y := by
  induction h with
  | nil => simp
  | cons hxy _ ih =>
      intro z hz
      rcases List.mem_cons.1 hz with rfl | hz
      · exact hxy.alike hf hs hs hxy (hxs _ (by simp))
      · exact ih (fun x hx => hxs x (by simp [hx])) z hz

theorem mapItems_makes (E : Engine) {f : Value → Eval Value} (hf : K.Respects s₀ f) {n : Nat}
    {xs done out : List Value} (hs : K.leads s₀ s) (hv : s.store.Chain xs .nil v)
    (hxs : ∀ x ∈ xs, s₀.Alike s.store s.store x x) (h : E.mapItems f n v done s = .ok out t) :
    K.leads s t ∧ ∃ ys, out = ys.reverse ++ done ∧ List.Forall₂ (K.Makes f s t) xs ys := by
  induction xs generalizing n v done s with
  | nil =>
      cases hv
      rw [Engine.mapItems] at h
      cases h
      exact ⟨K.refl _, [], rfl, .nil⟩
  | cons x xs ih =>
      obtain ⟨r, d, rfl, hr, hd⟩ := hv
      cases n with
      | zero => simp [Engine.mapItems] at h
      | succ n =>
          rw [Engine.mapItems, bind_of_ok (car_apply r s), Store.car_of_cell? hr, bind_eq_ok] at h
          obtain ⟨y, s₁, hy, h⟩ := h
          have hmakes : K.Makes f s s₁ x y := ⟨s, s₁, K.refl s, hy, K.refl s₁⟩
          have hs₁ := hmakes.leads hf hs (hxs x (by simp))
          have hd₁ := hd.keeps (K.carries hs₁).cells
          rw [bind_of_ok (E.cdrCell_of_list ((K.carries hs₁).cells _ _ hr) hd₁)] at h
          obtain ⟨ht, ys, rfl, hall⟩ := ih (K.trans hs hs₁) hd₁
            (fun z hz => K.alike_later hs₁ hs₁ (hxs z (by simp [hz]))) h
          refine ⟨K.trans hs₁ ht, y :: ys, by simp, .cons ⟨s, s₁, K.refl s, hy, ht⟩ ?_⟩
          exact hall.imp fun _ _ h => h.widen hs₁ (K.refl t)

theorem mapList_makes (E : Engine) {f : Value → Eval Value} (hf : K.Respects s₀ f)
    {xs : List Value} (hs : K.leads s₀ s) (hv : s.store.Chain xs .nil v)
    (hxs : ∀ x ∈ xs, s₀.Alike s.store s.store x x) (h : E.mapList f v s = .ok w t) :
    K.leads s t ∧ ∃ ys, t.store.Chain ys .nil w ∧ List.Forall₂ (K.Makes f s t) xs ys := by
  rw [Engine.mapList, bind_eq_ok] at h
  obtain ⟨out, s₁, hout, hcons⟩ := h
  obtain ⟨hs₁, ys, rfl, hall⟩ := K.mapItems_makes E hf hs hv hxs hout
  obtain ⟨hadd, ht, hchain⟩ := consAll_eq_ok hcons
  have ht₁ := K.cells hadd ht
  refine ⟨K.trans hs₁ ht₁, ys, by simpa using hchain, ?_⟩
  exact hall.imp fun _ _ h => h.widen (K.refl s) ht₁

end History

end SmallLisp
