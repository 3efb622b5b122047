import SmallLisp.Proofs.Compiler.Sparing

/-!
# Macro calls in compiled code

Expansion looks at the word at the head of a form, and expands a form whose head denotes a macro
until it does not any more. Then it goes on to the items, the head among them. So no list that it
makes has a word at its head that denotes a macro, unless it is made of a list that had a form
there: a head is not looked at again once it was expanded itself.

Compiling expands the forms of each lambda and makes templates of the lambdas within, which leaves
no call of a macro outside quoted data either, in the body and in the templates that it holds. Lists
are told apart by their cells, so it is always this very list that is made of one with a form at its
head, wherever else the same word may stand.
-/

namespace SmallLisp

open Eval

/-- How far the compiler has come with a text. -/
inductive Stage where
  | expanded
  | compiled
deriving DecidableEq

/-! ## The forms that a pass comes to -/

namespace Pass

/-- The walk of a list in the pass comes to the item `x` in the state `u`. Promised tails are forced
on the way. -/
inductive Walks (p : Pass) (x : Value) (u : State) : Value → State → Prop
  | here {r : Ref .cell} : u.store.car r = x → Walks p x u (.pair r) u
  | next {r : Ref .cell} {y rest : Value} {s t t' : State} {n : Nat} :
      p.Gives (s.store.car r) s y t → (Engine.ofFuel n).cdrCell r t = .ok rest t' →
      Walks p x u rest t' → Walks p x u (.pair r) s

/-- In its course the pass comes to the form `x` with the pass `q` in the state `u`. Every step is
taken in the state that the steps before it have left. -/
inductive Comes (q : Pass) (x : Value) (u : State) : Pass → Value → State → Prop
  | here : Comes q x u q x u
  | again {r : Ref .cell} {f : Callable} {body args e : Value} {s s' t : State} {allowed n : Nat} :
      Engine.isLeftAlone (s.store.car r) = false →
      s.expander? (s.store.car r) = some (f, body) →
      (Engine.ofFuel n).cdrCell r s = .ok args s' →
      (Engine.ofFuel n).expandCall f body args s' = .ok e t →
      Comes q x u (.expand allowed) e t → Comes q x u (.expand (allowed + 1)) (.pair r) s
  | item {r : Ref .cell} {y : Value} {s t : State} {allowed : Nat} :
      Engine.isLeftAlone (s.store.car r) = false → s.expander? (s.store.car r) = none →
      Walks (.expand allowed) y t (.pair r) s → Comes q x u (.expand allowed) y t →
      Comes q x u (.expand allowed) (.pair r) s
  | lambda {r : Ref .cell} {rest : Value} {s t : State} {n : Nat} :
      s.store.car r = .sym Symbol.lambda → (Engine.ofFuel n).cdrCell r s = .ok rest t →
      Comes q x u (.compile .template) rest t → Comes q x u .inner (.pair r) s
  | innerItem {r : Ref .cell} {y : Value} {s t : State} :
      Engine.isLeftAlone (s.store.car r) = false → Walks .inner y t (.pair r) s →
      Comes q x u .inner y t → Comes q x u .inner (.pair r) s
  | body {v forms : Value} {s t : State} {kind : CallableKind} : Prepared v s forms t →
      Comes q x u (.expand t.config.maxMacroExpansions) forms t → Comes q x u (.compile kind) v s
  | nested {v forms expanded : Value} {s t t' : State} {kind : CallableKind} :
      Prepared v s forms t →
      Gives (.expand t.config.maxMacroExpansions) forms t expanded t' →
      Comes q x u .inner expanded t' → Comes q x u (.compile kind) v s

/-- In the course of the pass a form at the head of a list is expanded to `x`. -/
def ExpandsHead (p : Pass) (v : Value) (s : State) (x : Value) : Prop :=
  ∃ allowed r q u t, Comes (.expand allowed) (.pair r) u p v s ∧ u.store.car r = .pair q ∧
    Gives (.expand allowed) (.pair q) u x t

/-- In the course of the pass a list with a form at its head is expanded to the list `w`, and the
form to `x`, which is then the head of `w`. -/
def LeavesHead (p : Pass) (v : Value) (s : State) (w x : Value) : Prop :=
  ∃ allowed r q u t t', Comes (.expand allowed) (.pair r) u p v s ∧ u.store.car r = .pair q ∧
    Gives (.expand allowed) (.pair q) u x t ∧ Gives (.expand allowed) (.pair r) u w t'

/-- The lists and their heads that come of lists with a form at their head: those that these are
expanded to, and those that are made of these where templates are made. -/
def Excepts (p : Pass) (v : Value) (s : State) : Stage → Value → Value → Prop
  | .expanded, w, x => p.LeavesHead v s w x
  | .compiled, w, x => ∃ w₀ u t, p.LeavesHead v s w₀ x ∧ Comes .inner w₀ u p v s ∧
      Gives .inner w₀ u w t

/-- In the course of the pass `x` is met as a form of the text. -/
def Finds (p : Pass) (v : Value) (s : State) (x : Value) : Prop :=
  ∃ allowed u, Comes (.expand allowed) x u p v s

/-- The lists that come of lists with a form at their head are `Excepted`, and all forms that
are met are `Found`. -/
structure Accounts (Excepted : Stage → Value → Value → Prop) (Found : Value → Prop) (p : Pass)
    (v : Value) (s : State) : Prop where
  head : ∀ w x, p.LeavesHead v s w x → Excepted .expanded w x
  inner : ∀ w₀ u w t x, Comes .inner w₀ u p v s → Gives .inner w₀ u w t → Excepted .expanded w₀ x →
    Excepted .compiled w x
  found : ∀ x, p.Finds v s x → Found x

/-- A pass accounts for itself. -/
theorem Accounts.self (p : Pass) (v : Value) (s : State) :
    Accounts (p.Excepts v s) (p.Finds v s) p v s where
  head _ _ h := h
  inner w₀ u _ t _ hcomes hgives hexcept := ⟨w₀, u, t, hexcept, hcomes, hgives⟩
  found _ h := h

/-- Whatever a pass comes to is accounted for with the pass. -/
theorem Accounts.later {Excepted : Stage → Value → Value → Prop} {Found : Value → Prop}
    {p p' : Pass} {v v' : Value} {s s' : State} (h : Accounts Excepted Found p v s)
    (hcomes : ∀ {q x u}, Comes q x u p' v' s' → Comes q x u p v s) :
    Accounts Excepted Found p' v' s' where
  head := by
    rintro w x ⟨allowed, r, q, u, t, t', hx, hcar, hhead, hgives⟩
    exact h.head w x ⟨allowed, r, q, u, t, t', hcomes hx, hcar, hhead, hgives⟩
  inner w₀ u w t x hw₀ := h.inner w₀ u w t x (hcomes hw₀)
  found := by
    rintro x ⟨allowed, u, hx⟩
    exact h.found x ⟨allowed, u, hcomes hx⟩

end Pass

/-! ## Text without calls of macros -/

/-- The forms with this head were not entered. -/
def Stage.leaves : Stage → Value → Bool
  | .expanded, v => Engine.isLeftAlone v
  | .compiled, v => v.isSym Symbol.quote

/-- No list in the text has something at its head that denotes a macro in the state `s`, but for
those lists that are `Excepted` with their heads. Of compiled text this holds within its templates
too; those are left out that were `Found` in the text. -/
inductive Store.Expanded (store : Store) (s : State) (stage : Stage)
    (Excepted : Stage → Value → Value → Prop) (Found : Value → Prop) : Value → Prop
  | word {v : Value} : v.isPair = false → (∀ r, v = .callable r → Found v) →
      Expanded store s stage Excepted Found v
  | template {r : Ref .callable} {shape : Shape} {body : Value} : stage = .compiled →
      store.callables[r.index]? = some (.template shape body) →
      Expanded store s stage Excepted Found body →
      Expanded store s stage Excepted Found (.callable r)
  | aside {r : Ref .cell} {x d : Value} : store.cell? r = some ⟨x, d⟩ → stage.leaves x = true →
      Expanded store s stage Excepted Found (.pair r)
  | list {x v : Value} {xs : List Value} : store.Chain (x :: xs) .nil v →
      (s.Expands x → Excepted stage v x) →
      (∀ y ∈ x :: xs, Expanded store s stage Excepted Found y) →
      Expanded store s stage Excepted Found v

theorem Store.Expanded.keeps {a b : Store} {s : State} {stage : Stage}
    {Excepted : Stage → Value → Value → Prop} {Found : Value → Prop} {v : Value}
    (hk : a.KeepsText b) (h : a.Expanded s stage Excepted Found v) :
    b.Expanded s stage Excepted Found v := by
  induction h with
  | word hv hfound => exact .word hv hfound
  | template hstage hr _ ih => exact .template hstage (hk.callables _ _ hr) ih
  | aside hr hx =>
      obtain ⟨d, hd, -⟩ := hk.cells _ _ hr
      exact .aside hd hx
  | list hv hx _ ih => exact .list (hk.chain hv) hx ih

/-! ## Passes with the engine that insists on sparing the text -/

theorem Manner.Runs.prepare {M : Manner} (r : Ref .cell) : M.Runs fun E => E.prepare r := by
  refine .bind (.car r) fun head => .bind (.parameters head) fun ps => ?_
  exact .bind (.cdrCell r) fun forms => .bind (.resolveAll ps forms) fun forms => .pure _

namespace Engine

variable {n k allowed : Nat} {kind : CallableKind} {r : Ref .cell} {s t : State} {v w : Value}

theorem gives_expand (h : (sparing n).expandMacros k allowed v s = .ok w t) :
    Pass.Gives (.expand allowed) v s w t :=
  ⟨n, k, ok_of_sparing (x := fun E => E.expandMacros k allowed v) (.expandMacros k allowed v) h⟩

theorem gives_inner (h : (sparing n).compileInner k v s = .ok w t) : Pass.Gives .inner v s w t :=
  ⟨n, k, ok_of_sparing (x := fun E => E.compileInner k v) ((Manner.Runs.compilers k).2 v) h⟩

theorem prepared_of_sparing {ps : Parameters} (h : (sparing n).prepare r s = .ok (ps, w) t) :
    Prepared (.pair r) s w t :=
  ⟨n, r, ps, rfl, ok_of_sparing (x := fun E => E.prepare r) (.prepare r) h⟩

theorem cdrCell_of_sparing (h : (sparing n).cdrCell r s = .ok w t) :
    (ofFuel n).cdrCell r s = .ok w t :=
  ok_of_sparing (x := fun E => E.cdrCell r) (.cdrCell r) h

theorem expandCall_of_sparing {f : Callable} {body args : Value}
    (h : (sparing n).expandCall f body args s = .ok w t) :
    (ofFuel n).expandCall f body args s = .ok w t :=
  ok_of_sparing (x := fun E => E.expandCall f body args) (.expandCall f body args) h

/-- The results of a walk are results of items that it came to, the first of them that of the first
item in the state in which the walk began. -/
structure Results (p : Pass) (f : Value → Eval Value) (v : Value) (s : State) (ys : List Value)
    (t : State) : Prop where
  item : ∀ y ∈ ys, ∃ x u u', p.Walks x u v s ∧ s.Spares u ∧ f x u = .ok y u' ∧ u'.Spares t ∧
    ∀ xs, s.store.Chain xs .nil v → x ∈ xs
  first : ∀ r, v = .pair r → ∃ y zs u', ys = y :: zs ∧ f (s.store.car r) s = .ok y u' ∧ u'.Spares t

theorem Results.spares {p : Pass} {f : Value → Eval Value} {ys : List Value} {u : State}
    (h : Results p f v s ys t) (htu : t.Spares u) : Results p f v s ys u where
  item y hy := by
    obtain ⟨x, u₁, u₂, hwalks, hu₁, hx, hu₂, hmem⟩ := h.item y hy
    exact ⟨x, u₁, u₂, hwalks, hu₁, hx, hu₂.trans htu, hmem⟩
  first r hr := by
    obtain ⟨y, zs, u', hys, hy, hu'⟩ := h.first r hr
    exact ⟨y, zs, u', hys, hy, hu'.trans htu⟩

theorem mapItems_results {p : Pass} {f : Value → Eval Value} (hf : ∀ x, (f x).Sparing)
    (hgives : ∀ x u y u', f x u = .ok y u' → p.Gives x u y u') {done out : List Value}
    (h : (sparing n).mapItems f k v done s = .ok out t) :
    ∃ ys, out = ys.reverse ++ done ∧ Results p f v s ys t := by
  induction k generalizing v done s with
  | zero =>
      cases v with
      | nil =>
          cases h
          exact ⟨[], rfl, by simp, by simp⟩
      | pair r => cases h
      | _ => simp [mapItems, failOn_apply] at h
  | succ k ih =>
      cases v with
      | nil =>
          cases h
          exact ⟨[], rfl, by simp, by simp⟩
      | pair r =>
          rw [mapItems, bind_of_ok (car_apply r s), bind_eq_ok] at h
          obtain ⟨y, s₁, hy, h⟩ := h
          obtain ⟨rest, s₂, hrest, h⟩ := bind_eq_ok.1 h
          have hs₁ := hf _ s y s₁ hy
          have hs₂ := Eval.Sparing.cdrCell (sparing_sparing n) r s₁ rest s₂ hrest
          obtain ⟨ys, rfl, hys⟩ := ih h
          have ht := Eval.Sparing.mapItems (sparing_sparing n) hf k rest (y :: done) s₂ _ t h
          refine ⟨y :: ys, by simp, fun z hz => ?_, ?_⟩
          · rcases List.mem_cons.1 hz with rfl | hz
            · refine ⟨s.store.car r, s, s₁, .here rfl, .refl s, hy, hs₂.trans ht, fun xs hxs => ?_⟩
              cases xs with
              | nil => cases hxs
              | cons x xs =>
                  obtain ⟨_, d, hq, hr, -⟩ := hxs
                  cases hq
                  rw [Store.car_of_cell? hr]
                  exact List.mem_cons_self
            · obtain ⟨x, u, u', hwalks, hu, hx, hu', hmem⟩ := hys.item z hz
              refine ⟨x, u, u', .next (hgives _ _ _ _ hy) (cdrCell_of_sparing hrest) hwalks,
                (hs₁.trans hs₂).trans hu, hx, hu', fun xs hxs => ?_⟩
              cases xs with
              | nil => cases hxs
              | cons a xs =>
                  obtain ⟨_, d, hq, hr, hd⟩ := hxs
                  cases hq
                  -- the tail is not promised, so it is the one that the walk went on with
                  obtain ⟨e, hr₁, he⟩ := hs₁.text.cells r _ hr
                  obtain rfl := he (hd.isPromise rfl)
                  have hd₁ := hs₁.text.chain hd
                  rw [(sparing n).cdrCell_of_list hr₁ hd₁] at hrest
                  cases hrest
                  exact List.mem_cons_of_mem a (hmem xs hd₁)
          · rintro q hq
            cases hq
            exact ⟨y, ys, s₁, rfl, hy, hs₂.trans ht⟩
      | _ => simp [mapItems, failOn_apply] at h

theorem mapList_results {p : Pass} {f : Value → Eval Value} (hf : ∀ x, (f x).Sparing)
    (hgives : ∀ x u y u', f x u = .ok y u' → p.Gives x u y u')
    (h : (sparing n).mapList f v s = .ok w t) :
    ∃ ys, t.store.Chain ys .nil w ∧ Results p f v s ys t := by
  rw [mapList, bind_eq_ok] at h
  obtain ⟨out, u, hout, hcons⟩ := h
  obtain ⟨ys, rfl, hys⟩ := mapItems_results hf hgives hout
  obtain ⟨hadd, ht, hchain⟩ := consAll_eq_ok hcons
  exact ⟨ys, by simpa using hchain, hys.spares (.of_addsCells hadd ht)⟩

/-! ## Expansion -/

/-- There is a cell where a keyword is found. -/
theorem cell?_of_isLeftAlone {store : Store} (h : isLeftAlone (store.car r) = true) :
    ∃ d, store.cell? r = some ⟨store.car r, d⟩ := by
  cases hr : store.cell? r with
  | some c => exact ⟨c.cdr, by rw [Store.car_of_cell? hr]⟩
  | none =>
      rw [Store.cell?] at hr
      rw [Store.car, Array.getD_eq_getD_getElem?, hr] at h
      cases h

variable {s₀ : State} {Excepted : Stage → Value → Value → Prop} {Found : Value → Prop}

theorem expandMacros_word_expanded
    (haccounts : Pass.Accounts Excepted Found (.expand allowed) v s) (hv : v.isPair = false)
    (h : (sparing n).expandMacros k allowed v s = .ok w t) :
    t.store.Expanded s₀ .expanded Excepted Found w := by
  rw [expandMacros_word _ hv] at h
  cases h
  exact .word hv fun _ _ => haccounts.found v ⟨allowed, s, .here⟩

/-- What comes of the first item of a list denotes a macro only if the item was a form, and then the
list is excepted. -/
theorem head_of_expandMacros {x : Value} {u : State} (hs : s₀.Spares s)
    (haccounts : Pass.Accounts Excepted Found (.expand allowed) (.pair r) s)
    (hm : s.expander? (s.store.car r) = none)
    (h : (sparing n).expandMacros k allowed (s.store.car r) s = .ok x t)
    (hlist : (sparing n).expandMacros (k + 1) allowed (.pair r) s = .ok w u)
    (hexpands : s₀.Expands x) : Excepted .expanded w x := by
  cases hx : s.store.car r with
  | pair q =>
      rw [hx] at h
      exact haccounts.head w x
        ⟨allowed, r, q, s, t, u, .here, hx, gives_expand h, gives_expand hlist⟩
  | _ =>
      have hword : (s.store.car r).isPair = false := by rw [hx]; rfl
      rw [expandMacros_word _ hword] at h
      cases h
      rw [State.expander?_eq_none, hs.expands_iff] at hm
      exact absurd hexpands hm

/-- Expansion makes text without calls of macros. -/
theorem expandMacros_expanded (hs : s₀.Spares s)
    (haccounts : Pass.Accounts Excepted Found (.expand allowed) v s)
    (h : (sparing n).expandMacros k allowed v s = .ok w t) :
    t.store.Expanded s₀ .expanded Excepted Found w := by
  induction k generalizing allowed v w s t with
  | zero =>
      cases v with
      | pair r => simp [expandMacros] at h
      | _ => exact expandMacros_word_expanded haccounts rfl h
  | succ k ih =>
      cases v with
      | pair r =>
          have hlist := h
          rw [expandMacros, bind_of_ok (car_apply r s)] at h
          cases hleft : isLeftAlone (s.store.car r) with
          | true =>
              rw [hleft] at h
              cases h
              obtain ⟨d, hd⟩ := cell?_of_isLeftAlone hleft
              exact .aside hd hleft
          | false =>
              simp only [hleft, Bool.false_eq_true, if_false] at h
              rw [bind_of_ok (expander?_apply _ s)] at h
              cases hm : s.expander? (s.store.car r) with
              | some found =>
                  obtain ⟨f, body⟩ := found
                  rw [hm] at h
                  cases allowed with
                  | zero => simp [malformedOn, failOn_apply] at h
                  | succ allowed =>
                      obtain ⟨args, s₁, hargs, h⟩ := bind_eq_ok.1 h
                      obtain ⟨e, s₂, he, h⟩ := bind_eq_ok.1 h
                      have hs₁ := Eval.Sparing.cdrCell (sparing_sparing n) r s args s₁ hargs
                      have hs₂ := Eval.Sparing.expandCall (sparing_sparing n) f body args s₁ e s₂ he
                      refine ih ((hs.trans hs₁).trans hs₂) (haccounts.later fun hx => ?_) h
                      exact .again hleft hm (cdrCell_of_sparing hargs) (expandCall_of_sparing he) hx
              | none =>
                  rw [hm] at h
                  obtain ⟨ys, hchain, hys⟩ := mapList_results
                    (.expandMacros (sparing_sparing n) k allowed)
                    (fun _ _ _ _ => gives_expand) h
                  obtain ⟨y, zs, u', rfl, hy, -⟩ := hys.first r rfl
                  refine .list hchain (head_of_expandMacros hs haccounts hm hy hlist) fun z hz => ?_
                  obtain ⟨x, u, u', hwalks, hu, hx, hu', -⟩ := hys.item z hz
                  have hz := ih (hs.trans hu) (haccounts.later (.item hleft hm hwalks)) hx
                  exact hz.keeps hu'.text
      | _ => exact expandMacros_word_expanded haccounts rfl h

/-! ## Templates -/

theorem compileWithin_eq_ok {E : Engine} (h : E.compileWithin k kind v s = .ok w t) :
    ∃ r shape body, w = .callable r ∧
      t.store.callables[r.index]? = some (kind.make shape body) := by
  cases k with
  | zero => simp [compileWithin] at h
  | succ k =>
      cases v with
      | pair r =>
          rw [compileWithin_pair] at h
          obtain ⟨p, s₁, -, h⟩ := bind_eq_ok.1 h
          obtain ⟨allowed, s₂, -, h⟩ := bind_eq_ok.1 h
          obtain ⟨forms, s₃, -, h⟩ := bind_eq_ok.1 h
          obtain ⟨body, s₄, -, h⟩ := bind_eq_ok.1 h
          cases h
          exact ⟨_, p.1.shape, body, rfl, by simp⟩
      | _ => simp [compileWithin, malformed] at h

/-- What comes of a form in which templates are made is no macro. -/
theorem not_expands_of_compileInner {E : Engine} (h : E.compileInner k (.pair r) s = .ok w t) :
    ¬ t.Expands w := by
  cases k with
  | zero => simp [compileInner] at h
  | succ k =>
      rw [compileInner, bind_of_ok (car_apply r s)] at h
      split at h
      · cases h
        exact id
      · split at h
        · obtain ⟨rest, s₁, -, h⟩ := bind_eq_ok.1 h
          obtain ⟨q, shape, body, rfl, hq⟩ := compileWithin_eq_ok h
          rintro ⟨shape', body', hr⟩
          simp [Store.callable, Array.getD_eq_getD_getElem?, hq, CallableKind.make] at hr
        · split at h
          · simp [malformedOn, failOn_apply] at h
          · rw [mapList, bind_eq_ok] at h
            obtain ⟨out, s₁, -, h⟩ := h
            obtain ⟨-, -, hchain⟩ := consAll_eq_ok h
            rcases hchain.nil_or_pair with rfl | ⟨q, rfl⟩ <;> exact id

/-- The callable is made of text without calls of macros. -/
def Holds (s₀ : State) (Excepted : Stage → Value → Value → Prop) (Found : Value → Prop)
    (kind : CallableKind) (w : Value) (t : State) : Prop :=
  ∃ r shape body, w = .callable r ∧
    t.store.callables[r.index]? = some (kind.make shape body) ∧
    t.store.Expanded s₀ .compiled Excepted Found body

/-- Making templates of the lambdas in expanded text leaves text without calls of macros. -/
def MakesTemplates (n k : Nat) (s₀ : State) (Excepted : Stage → Value → Value → Prop)
    (Found : Value → Prop) : Prop :=
  ∀ {v w : Value} {s t : State}, s₀.Spares s → Pass.Accounts Excepted Found .inner v s →
    s.store.Expanded s₀ .expanded Excepted Found v → (sparing n).compileInner k v s = .ok w t →
    t.store.Expanded s₀ .compiled Excepted Found w

/-- Compiling a lambda gives a callable that is made of text without calls of macros. -/
def MakesCallables (n k : Nat) (s₀ : State) (Excepted : Stage → Value → Value → Prop)
    (Found : Value → Prop) : Prop :=
  ∀ {kind : CallableKind} {v w : Value} {s t : State}, s₀.Spares s →
    Pass.Accounts Excepted Found (.compile kind) v s →
    (sparing n).compileWithin k kind v s = .ok w t → Holds s₀ Excepted Found kind w t

theorem makesCallables_succ (ih : MakesTemplates n k s₀ Excepted Found) :
    MakesCallables n (k + 1) s₀ Excepted Found := by
  intro kind v w s t hs haccounts h
  cases v with
  | pair r =>
      rw [compileWithin_pair] at h
      obtain ⟨⟨ps, forms⟩, s₁, hprepare, h⟩ := bind_eq_ok.1 h
      have hs₁ := hs.trans (Eval.Sparing.prepare (sparing_sparing n) r s _ s₁ hprepare)
      have hprepared := prepared_of_sparing hprepare
      rw [complete, bind_of_ok (gets_apply _ s₁)] at h
      obtain ⟨expanded, s₂, hexpand, h⟩ := bind_eq_ok.1 h
      have hs₂ := hs₁.trans
        (Eval.Sparing.expandMacros (sparing_sparing n) n _ forms s₁ expanded s₂ hexpand)
      have hexpanded := expandMacros_expanded hs₁ (haccounts.later (.body hprepared)) hexpand
      obtain ⟨body, s₃, hinner, h⟩ := bind_eq_ok.1 h
      have hbody := ih hs₂ (haccounts.later (.nested hprepared (gives_expand hexpand))) hexpanded
        hinner
      cases h
      refine ⟨_, ps.shape, body, rfl, by simp, hbody.keeps ?_⟩
      exact .of_keeps (.refl _) (Store.keepsCallables_newCallable _ _)
  | _ => simp [compileWithin, malformed] at h

theorem compileInner_word_expanded (hv : v.isPair = false)
    (hexpanded : s.store.Expanded s₀ .expanded Excepted Found v)
    (h : (sparing n).compileInner k v s = .ok w t) :
    t.store.Expanded s₀ .compiled Excepted Found w := by
  rw [compileInner_word _ hv] at h
  cases h
  cases hexpanded with
  | word _ hfound => exact .word hv hfound
  | template hstage _ _ => cases hstage
  | aside _ _ => cases hv
  | list hchain _ _ =>
      obtain ⟨_, _, rfl, -⟩ := hchain
      cases hv

/-- What comes of the first item of a list denotes a macro only if the item did, and then it is the
item: a form gives none, and a word stays as it is. -/
theorem head_of_compileInner (hs : s₀.Spares s) (h : (sparing n).compileInner k v s = .ok w t)
    (hexpands : s₀.Expands w) : w = v := by
  cases v with
  | pair q =>
      have ht := (Eval.Sparing.compilers (sparing_sparing n) k).2 _ s w t h
      rw [← (hs.trans ht).expands_iff] at hexpands
      exact absurd hexpands (not_expands_of_compileInner h)
  | _ =>
      rw [compileInner_word _ rfl] at h
      cases h
      rfl

theorem compileInner_items_expanded (ih : MakesTemplates n k s₀ Excepted Found) (hs : s₀.Spares s)
    (haccounts : Pass.Accounts Excepted Found .inner (.pair r) s)
    (hexpanded : s.store.Expanded s₀ .expanded Excepted Found (.pair r))
    (hleft : isLeftAlone (s.store.car r) = false)
    (hlist : (sparing n).compileInner (k + 1) (.pair r) s = .ok w t)
    (h : (sparing n).mapList ((sparing n).compileInner k) (.pair r) s = .ok w t) :
    t.store.Expanded s₀ .compiled Excepted Found w := by
  obtain ⟨ys, hchain, hys⟩ := mapList_results
    (fun v => (Eval.Sparing.compilers (sparing_sparing n) k).2 v) (fun _ _ _ _ => gives_inner) h
  obtain ⟨y, zs, u', rfl, hy, -⟩ := hys.first r rfl
  cases hexpanded with
  | word hv _ => cases hv
  | aside hr hx =>
      rw [Store.car_of_cell? hr] at hleft
      exact absurd hx (by simp [Stage.leaves, hleft])
  | @list x _ xs hv hhead hitems =>
      have hcar : s.store.car r = x := by
        obtain ⟨_, _, hq, hr, -⟩ := hv
        cases hq
        exact Store.car_of_cell? hr
      rw [hcar] at hy
      refine .list hchain (fun hexpands => ?_) fun z hz => ?_
      · obtain rfl := head_of_compileInner hs hy hexpands
        exact haccounts.inner _ s w t y .here (gives_inner hlist) (hhead hexpands)
      obtain ⟨x', u, u', hwalks, hu, hx', hu', hmem⟩ := hys.item z hz
      have hz := ih (hs.trans hu) (haccounts.later (.innerItem hleft hwalks))
        ((hitems x' (hmem _ hv)).keeps hu.text) hx'
      exact hz.keeps hu'.text

theorem compileInner_pair_expanded (ihw : MakesCallables n k s₀ Excepted Found)
    (ih : MakesTemplates n k s₀ Excepted Found) (hs : s₀.Spares s)
    (haccounts : Pass.Accounts Excepted Found .inner (.pair r) s)
    (hexpanded : s.store.Expanded s₀ .expanded Excepted Found (.pair r))
    (h : (sparing n).compileInner (k + 1) (.pair r) s = .ok w t) :
    t.store.Expanded s₀ .compiled Excepted Found w := by
  have hlist := h
  rw [compileInner, bind_of_ok (car_apply r s)] at h
  cases hquote : (s.store.car r).isSym Symbol.quote with
  | true =>
      rw [hquote] at h
      cases h
      have hleft : isLeftAlone (s.store.car r) = true := by simp [isLeftAlone, hquote]
      obtain ⟨d, hd⟩ := cell?_of_isLeftAlone hleft
      exact .aside hd hquote
  | false =>
      rw [hquote] at h
      cases hlambda : (s.store.car r).isSym Symbol.lambda with
      | true =>
          rw [hlambda] at h
          obtain ⟨rest, s₁, hrest, h⟩ := bind_eq_ok.1 h
          have hs₁ := hs.trans (Eval.Sparing.cdrCell (sparing_sparing n) r s rest s₁ hrest)
          obtain ⟨q, shape, body, rfl, hq, hbody⟩ := ihw hs₁
            (haccounts.later (.lambda (Value.isSym_iff.1 hlambda) (cdrCell_of_sparing hrest))) h
          exact .template rfl hq hbody
      | false =>
          rw [hlambda] at h
          cases hexpander : (s.store.car r).isSym Symbol.expander with
          | true => simp [hexpander, malformedOn, failOn_apply] at h
          | false =>
              rw [hexpander] at h
              have hleft : isLeftAlone (s.store.car r) = false := by
                simp [isLeftAlone, hquote, hlambda, hexpander]
              exact compileInner_items_expanded ih hs haccounts hexpanded hleft hlist h

theorem makesTemplates_succ (ihw : MakesCallables n k s₀ Excepted Found)
    (ih : MakesTemplates n k s₀ Excepted Found) : MakesTemplates n (k + 1) s₀ Excepted Found := by
  intro v w s t hs haccounts hexpanded h
  cases v with
  | pair r => exact compileInner_pair_expanded ihw ih hs haccounts hexpanded h
  | _ => exact compileInner_word_expanded rfl hexpanded h

theorem makesTemplates_and_makesCallables (n k : Nat) (s₀ : State)
    (Excepted : Stage → Value → Value → Prop) (Found : Value → Prop) :
    MakesTemplates n k s₀ Excepted Found ∧ MakesCallables n k s₀ Excepted Found := by
  induction k with
  | zero =>
      refine ⟨fun {v w s t} _ _ hexpanded h => ?_, fun {_ _ _ _ _} _ _ h => ?_⟩
      · cases v with
        | pair r => simp [compileInner] at h
        | _ => exact compileInner_word_expanded rfl hexpanded h
      · simp [compileWithin] at h
  | succ k ih => exact ⟨makesTemplates_succ ih.2 ih.1, makesCallables_succ ih.1⟩

end Engine

end SmallLisp
