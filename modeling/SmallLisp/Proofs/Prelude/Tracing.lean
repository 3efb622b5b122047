import SmallLisp.Proofs.Prelude.Trees
import SmallLisp.Proofs.Compiler.Scanning
import SmallLisp.Proofs.Conservation.State
import SmallLisp.Proofs.Prelude.Running

/-!
# Machines that follow trees

What is computed on trees is what the machine does with the values that stand for them, if it comes
to a value at all. A description of a state by a lexicon is all that this takes.
-/

namespace SmallLisp

open Eval Code

/-! ## States that accrue -/

/-- The second state has more cells, callables and frames than the first; all else is as it was. -/
structure State.Accrues (s t : State) : Prop where
  code : s.store.KeepsCode t.store
  frames : ∀ (i : Nat) frame, s.frames.table[i]? = some frame → t.frames.table[i]? = some frame
  rest : t = { s with
    store := { s.store with cells := t.store.cells, callables := t.store.callables }
    frames := t.frames }

namespace State.Accrues

variable {s t u : State}

theorem refl (s : State) : s.Accrues s := ⟨.refl _, fun _ _ h => h, rfl⟩

theorem trans (h : s.Accrues t) (h' : t.Accrues u) : s.Accrues u := by
  refine ⟨h.code.trans h'.code, fun i f hf => h'.frames i f (h.frames i f hf), ?_⟩
  have hu := h'.rest
  rw [h.rest] at hu
  exact hu

theorem of_gains (h : s.Gains t) : s.Accrues t := by
  refine ⟨.of_addsCells h.cells, h.frames, ?_⟩
  have ht := h.rest
  rw [h.store] at ht
  rw [ht]

theorem newCallable (s : State) (f : Callable) :
    s.Accrues { s with store := (s.store.newCallable f).2 } :=
  ⟨.newCallable s.store f, fun _ _ h => h, rfl⟩

theorem globals (h : s.Accrues t) : t.globals = s.globals := by rw [h.rest]

theorem symbols (h : s.Accrues t) : t.symbols = s.symbols := by rw [h.rest]

theorem dummies (h : s.Accrues t) : t.store.dummies = s.store.dummies := by rw [h.rest]

end State.Accrues

namespace Code

/-- The value stands for the tree, and is no promise. -/
def Shows (c : Code) (s : State) (v : Value) : Prop := c.Stands s.store v ∧ v.isPromise = false

variable {s t : State} {c d : Code} {cs ds : List Code} {v : Value} {b : Bool}

theorem Shows.accrues (h : c.Shows s v) (hst : s.Accrues t) : c.Shows t v :=
  ⟨hst.code.stands h.1, h.2⟩

theorem shows_list (h : StandsAll s.store cs v) : (Code.list cs).Shows s v := by
  refine ⟨h, ?_⟩
  obtain ⟨vs, hchain, -⟩ := chain_of_standsAll h
  rcases hchain.nil_or_pair with rfl | ⟨r, rfl⟩ <;> rfl

theorem shows_ofItems (h : StandsAll s.store cs v) : (ofItems cs).Shows s v :=
  ⟨stands_ofItems.2 h, (shows_list h).2⟩

theorem shows_of_isData (hc : c.isData = true) (h : c.Stands s.store v) : c.Shows s v := by
  cases c with
  | word w =>
      cases h
      exact ⟨rfl, by simpa [isData] using hc⟩
  | list cs => exact shows_list h
  | _ => cases hc

theorem forall₂_shows {vs : List Value} (hcs : ∀ c ∈ cs, c.isData = true)
    (h : List.Forall₂ (Stands s.store) cs vs) : List.Forall₂ (Shows · s ·) cs vs := by
  induction h with
  | nil => exact .nil
  | cons hc _ ih =>
      rw [List.forall_mem_cons] at hcs
      exact .cons (shows_of_isData hcs.1 hc) (ih hcs.2)

theorem truthy_of_truth? {store : Store} (hc : c.truth? = some b) (h : c.Stands store v) :
    v.truthy = b := by
  cases c with
  | word w =>
      cases h
      exact Option.some.inj hc
  | list cs =>
      cases cs with
      | nil => cases hc
      | cons c cs =>
          cases hc
          obtain ⟨r, a, d, rfl, -⟩ := h
          rfl
  | _ => cases hc

theorem standsAll_of_items? {store : Store} (hc : c.items? = some cs) :
    c.Stands store v ↔ StandsAll store cs v := by
  cases c with
  | word w =>
      cases w <;> cases hc
      exact Iff.rfl
  | list cs =>
      cases hc
      exact Iff.rfl
  | _ => cases hc

theorem mapM_cons_eq_some {α β : Type} {f : α → Option β} {a : α} {l : List α} {bs : List β} :
    (a :: l).mapM f = some bs ↔ ∃ b bs', f a = some b ∧ l.mapM f = some bs' ∧ bs = b :: bs' := by
  rw [List.mapM_cons]
  cases f a <;> cases l.mapM f <;> simp [eq_comm]

theorem chain_of_words? {store : Store} {vs : List Value} (hc : c.words? = some vs)
    (h : c.Stands store v) : store.Chain vs .nil v := by
  obtain ⟨cs, hitems, hwords⟩ := Option.bind_eq_some_iff.1 hc
  replace h := (standsAll_of_items? hitems).1 h
  clear hitems hc
  induction cs generalizing vs v with
  | nil =>
      cases hwords
      exact h
  | cons c cs ih =>
      obtain ⟨w, ws, hw, hws, rfl⟩ := mapM_cons_eq_some.1 hwords
      obtain ⟨r, a, d, rfl, hr, ha, hd⟩ := h
      cases c with
      | word u =>
          cases hw
          cases ha
          exact ⟨r, d, rfl, hr, ih hws hd⟩
      | _ => cases hw

theorem lastOf_singleton {f : Code → Option Code} : lastOf f [c] = f c := by
  rw [lastOf, List.mapM_cons, List.mapM_nil]
  cases f c <;> rfl

theorem lastOf_cons_eq_some {f : Code → Option Code} {c' : Code}
    (h : lastOf f (c :: c' :: cs) = some d) :
    ∃ a, f c = some a ∧ lastOf f (c' :: cs) = some d := by
  obtain ⟨ds, hds, hlast⟩ := Option.bind_eq_some_iff.1 h
  obtain ⟨a, ds', ha, hds', rfl⟩ := mapM_cons_eq_some.1 hds
  refine ⟨a, ha, ?_⟩
  rw [lastOf, hds']
  obtain ⟨b, bs, hb, hbs, rfl⟩ := mapM_cons_eq_some.1 hds'
  rw [List.getLast?_cons_cons] at hlast
  exact hlast

theorem picked?_cons_eq_some {f : Code → Option Code} (h : picked? f (c :: cs) = some d) :
    ∃ test body e b, c = .list (test :: body) ∧ f test = some e ∧ e.truth? = some b ∧
      (if b then if body.isEmpty then some e else lastOf f body else picked? f cs) = some d := by
  unfold picked? at h
  split at h
  · rename_i heq
    cases heq
  · rename_i test body cls heq
    cases heq
    obtain ⟨e, he, h⟩ := Option.bind_eq_some_iff.1 h
    obtain ⟨b, hb, h⟩ := Option.bind_eq_some_iff.1 h
    exact ⟨test, body, e, b, rfl, he, hb, h⟩
  · cases h

end Code

/-! ## Computations that follow a function on trees -/

/-- From the state on, what the computation makes of a value that stands for a tree shows what the
function makes of the tree; nothing there was is changed. -/
def Traces (s₀ : State) (φ : Value → Eval Value) (f : Code → Option Code) : Prop :=
  ∀ {c d : Code} {v w : Value} {s t : State}, s₀.Accrues s → f c = some d → c.Stands s.store v →
    φ v s = .ok w t → s.Accrues t ∧ d.Shows t w

namespace Traces

variable {s₀ s t : State} {φ : Value → Eval Value} {f : Code → Option Code} {E : Engine} {env : Env}
  {cs ds : List Code} {d : Code} {v w : Value} {n : Nat}

theorem mapItems (hf : Traces s₀ φ f) (hcs : cs.mapM f = some ds) (hs : s₀.Accrues s)
    (hv : StandsAll s.store cs v) {done out : List Value}
    (h : E.mapItems φ n v done s = .ok out t) :
    s.Accrues t ∧ ∃ ws, out = ws.reverse ++ done ∧ List.Forall₂ (Shows · t ·) ds ws := by
  induction cs generalizing n v done s ds with
  | nil =>
      cases hcs
      cases hv
      rw [Engine.mapItems] at h
      cases h
      exact ⟨.refl _, [], rfl, .nil⟩
  | cons c cs ih =>
      obtain ⟨d, ds, hd, hds, rfl⟩ := mapM_cons_eq_some.1 hcs
      obtain ⟨r, a, rest, rfl, hr, ha, hrest⟩ := hv
      cases n with
      | zero => simp [Engine.mapItems] at h
      | succ n =>
          rw [Engine.mapItems, bind_of_ok (car_apply r s), Store.car_of_cell? hr, bind_eq_ok] at h
          obtain ⟨w, s₁, hw, h⟩ := h
          obtain ⟨hs₁, hshows⟩ := hf hs hd ha hw
          have hrest₁ := hs₁.code.standsAll hrest
          obtain ⟨vs, hchain, -⟩ := chain_of_standsAll hrest₁
          rw [bind_of_ok (E.cdrCell_of_list (hs₁.code.cells r _ hr) hchain)] at h
          obtain ⟨ht, ws, rfl, hws⟩ := ih hds (hs.trans hs₁) hrest₁ h
          exact ⟨hs₁.trans ht, w :: ws, by simp, .cons (hshows.accrues ht) hws⟩

/-- A list is mapped to the list of what the items are mapped to. -/
theorem mapList (hf : Traces s₀ φ f) (hcs : cs.mapM f = some ds) (hs : s₀.Accrues s)
    (hv : StandsAll s.store cs v) (h : E.mapList φ v s = .ok w t) :
    s.Accrues t ∧ StandsAll t.store ds w := by
  rw [Engine.mapList, bind_eq_ok] at h
  obtain ⟨out, s₁, hout, hcons⟩ := h
  obtain ⟨hs₁, ws, rfl, hws⟩ := hf.mapItems hcs hs hv hout
  obtain ⟨hadd, ht, hchain⟩ := consAll_eq_ok hcons
  have hst : s₁.Accrues t := .of_gains (.of_addsCells hadd ht)
  refine ⟨hs₁.trans hst, standsAll_of_chain (hws.imp fun d w hw => (hw.accrues hst).1) ?_⟩
  simpa using hchain

/-- The slots of a frame with nothing but required operands. -/
theorem evalSlots (hf : Traces s₀ φ f) (hcs : cs.mapM f = some ds) (hs : s₀.Accrues s)
    {vs : List Value} (hvs : List.Forall₂ (Stands s.store) cs vs) {done out : List Value}
    (h : E.evalSlots φ vs.length vs done s = .ok out t) :
    s.Accrues t ∧ ∃ ws, out = done.reverse ++ ws ∧ List.Forall₂ (Shows · t ·) ds ws := by
  induction cs generalizing vs done s ds with
  | nil =>
      cases hcs
      cases hvs
      cases h
      exact ⟨.refl _, [], by simp, .nil⟩
  | cons c cs ih =>
      obtain ⟨d, ds, hd, hds, rfl⟩ := mapM_cons_eq_some.1 hcs
      cases hvs with
      | @cons _ v _ vs hc hvs =>
          rw [List.length_cons, Engine.evalSlots, bind_eq_ok] at h
          obtain ⟨w, s₁, hw, h⟩ := h
          obtain ⟨hs₁, hshows⟩ := hf hs hd hc hw
          obtain ⟨ht, ws, rfl, hws⟩ :=
            ih hds (hs.trans hs₁) (hvs.imp fun _ _ => hs₁.code.stands) h
          exact ⟨hs₁.trans ht, w :: ws, by simp, .cons (hshows.accrues ht) hws⟩

/-- Forcing what is no promise changes nothing. -/
theorem force (hf : Traces s₀ (E.eval · env) f) :
    Traces s₀ (fun v => E.eval v env >>= E.force) f := by
  intro c d v w s t hs hc hv h
  obtain ⟨a, s₁, ha, hforce⟩ := bind_eq_ok.1 h
  obtain ⟨hs₁, hshows⟩ := hf hs hc hv ha
  have hforced : E.force a s₁ = .ok a s₁ := by
    cases a <;> first | rfl | cases hshows.2
  cases hforced.symm.trans hforce
  exact ⟨hs₁, hshows⟩

/-! ## Bodies -/

theorem body (hf : Traces s₀ (E.eval · env) f) (hcs : lastOf f cs = some d) (hs : s₀.Accrues s)
    (hv : StandsAll s.store cs v)
    (h : (E.bodyWithin env n v >>= fun last => E.eval last env) s = .ok w t) :
    s.Accrues t ∧ d.Shows t w := by
  induction cs generalizing n v s with
  | nil => cases hcs
  | cons c cs ih =>
      obtain ⟨r, form, rest, rfl, hr, hform, hrest⟩ := hv
      obtain ⟨vs, hchain, -⟩ := chain_of_standsAll hrest
      cases n with
      | zero => simp [Engine.bodyWithin, bind_apply] at h
      | succ n =>
          rw [Engine.bodyWithin, bind_assoc, bind_of_ok (car_apply r s), Store.car_of_cell? hr,
            bind_assoc, bind_of_ok (E.cdrCell_of_list hr hchain)] at h
          cases cs with
          | nil =>
              cases hrest
              rw [lastOf_singleton] at hcs
              exact hf hs hcs hform h
          | cons c' cs =>
              obtain ⟨a, ha, hlast⟩ := lastOf_cons_eq_some hcs
              obtain ⟨q, -, -, rfl, -⟩ := id hrest
              simp only [Value.isNil, Bool.false_eq_true, if_false] at h
              rw [bind_assoc, bind_eq_ok] at h
              obtain ⟨b, s₁, hb, h⟩ := h
              obtain ⟨hs₁, -⟩ := hf hs ha hform hb
              obtain ⟨ht, hd⟩ := ih hlast (hs.trans hs₁) (hs₁.code.standsAll hrest) h
              exact ⟨hs₁.trans ht, hd⟩

theorem sequence (hf : Traces s₀ (E.eval · env) f) (hcs : lastOf f cs = some d)
    (hs : s₀.Accrues s) (hv : StandsAll s.store cs v) {last : Value}
    (h : E.sequenceWithin env n v last s = .ok w t) : s.Accrues t ∧ d.Shows t w := by
  induction cs generalizing n v last s with
  | nil => cases hcs
  | cons c cs ih =>
      obtain ⟨r, form, rest, rfl, hr, hform, hrest⟩ := hv
      cases n with
      | zero => simp [Engine.sequenceWithin] at h
      | succ n =>
          rw [Engine.sequenceWithin, bind_of_ok (car_apply r s), Store.car_of_cell? hr,
            bind_eq_ok] at h
          obtain ⟨b, s₁, hb, h⟩ := h
          have hnext : ∀ {a}, f c = some a → s.Accrues s₁ ∧ a.Shows s₁ b ∧
              E.sequenceWithin env n rest b s₁ = .ok w t := by
            intro a ha
            obtain ⟨hs₁, hshows⟩ := hf hs ha hform hb
            obtain ⟨vs, hchain, -⟩ := chain_of_standsAll (hs₁.code.standsAll hrest)
            rw [bind_of_ok (E.cdrCell_of_list (hs₁.code.cells r _ hr) hchain)] at h
            exact ⟨hs₁, hshows, h⟩
          cases cs with
          | nil =>
              rw [lastOf_singleton] at hcs
              obtain ⟨hs₁, hshows, h⟩ := hnext hcs
              cases hrest
              cases n <;> (cases h; exact ⟨hs₁, hshows⟩)
          | cons c' cs =>
              obtain ⟨a, ha, hlast⟩ := lastOf_cons_eq_some hcs
              obtain ⟨hs₁, -, h⟩ := hnext ha
              obtain ⟨ht, hd⟩ := ih hlast (hs.trans hs₁) (hs₁.code.standsAll hrest) h
              exact ⟨hs₁.trans ht, hd⟩

/-- The clauses of a `cond`. -/
theorem cond (hf : Traces s₀ (E.eval · env) f) (hcs : picked? f cs = some d) (hs : s₀.Accrues s)
    (hv : StandsAll s.store cs v)
    (h : (E.condWithin env n v >>= E.finish) s = .ok w t) : s.Accrues t ∧ d.Shows t w := by
  induction cs generalizing n v s with
  | nil =>
      cases hcs
      cases hv
      have hnil : E.condWithin env n .nil = pure (.done .nil) := by cases n <;> rfl
      rw [hnil] at h
      cases h
      exact ⟨.refl _, rfl, rfl⟩
  | cons clause cls ih =>
      obtain ⟨r, a, rest, rfl, hr, ha, hrest⟩ := hv
      cases n with
      | zero => simp [Engine.condWithin, bind_apply] at h
      | succ n =>
          obtain ⟨test, body, dt, b, rfl, hdt, hb, hcs⟩ := picked?_cons_eq_some hcs
          obtain ⟨q, form, forms, rfl, hq, hform, hforms⟩ := ha
          rw [bind_apply, condWithin_clause hr hq, ← bind_apply, ← bind_assoc, bind_assoc,
            bind_eq_ok] at h
          obtain ⟨x, s₁, hx, h⟩ := h
          obtain ⟨hs₁, hshows⟩ := hf.force hs hdt hform hx
          have htruthy := truthy_of_truth? hb hshows.1
          have hr₁ := hs₁.code.cells r _ hr
          have hq₁ := hs₁.code.cells q _ hq
          have hforms₁ := hs₁.code.standsAll hforms
          rw [bind_apply] at h
          cases b with
          | false =>
              obtain rfl : x = .nil := by cases x <;> first | rfl | cases htruthy
              obtain ⟨vs, hchain, -⟩ := chain_of_standsAll (hs₁.code.standsAll hrest)
              rw [tested_else hr₁ hchain, ← bind_apply] at h
              obtain ⟨ht, hd⟩ := ih hcs (hs.trans hs₁) (hs₁.code.standsAll hrest) h
              exact ⟨hs₁.trans ht, hd⟩
          | true =>
              cases body with
              | nil =>
                  cases hforms
                  rw [tested_done hq₁ htruthy] at h
                  cases hcs
                  cases h
                  exact ⟨hs₁, hshows⟩
              | cons c' body =>
                  obtain ⟨vs, hchain, -⟩ := chain_of_standsAll hforms₁
                  obtain ⟨p, -, -, rfl, -⟩ := id hforms
                  rw [tested_body hq₁ hchain htruthy, ← bind_apply, bind_assoc] at h
                  obtain ⟨ht, hd⟩ := hf.body hcs (hs.trans hs₁) hforms₁ h
                  exact ⟨hs₁.trans ht, hd⟩

end Traces

/-! ## Turns -/

namespace Engine

variable {s t : State} {env : Env} {v w : Value} {n : Nat} {x : Symbol} {cs : List Code}

/-- A form that has a value has it by a turn. -/
theorem turn_of_evaluate (h : evaluate n v env s = .ok w t) :
    ∃ m, n = m + 1 ∧ ((ofFuel m).step v env >>= (ofFuel m).finish) s = .ok w t := by
  cases n with
  | zero => cases h
  | succ m =>
      refine ⟨m, rfl, ?_⟩
      rw [Simulation.evaluate_succ, bind_eq_ok] at h
      obtain ⟨next, s₁, hturn, h⟩ := h
      refine bind_eq_ok.2 ⟨next, s₁, ?_, h⟩
      unfold onFailure at hturn
      split at hturn
      · rename_i hok
        cases hturn
        exact hok
      · cases hturn
      · cases hturn

/-- A special form that has a value. -/
theorem special_of_evaluate {k : Special} (hx : Special.ofSymbol? x = some k)
    (hv : StandsAll s.store (.word (.sym x) :: cs) v)
    (h : evaluate n v env s = .ok w t) :
    ∃ m args, StandsAll s.store cs args ∧
      ((ofFuel m).special k v args env >>= (ofFuel m).finish) s = .ok w t := by
  obtain ⟨m, rfl, hturn⟩ := turn_of_evaluate h
  clear h
  obtain ⟨r, _, args, rfl, hr, rfl, hargs⟩ := hv
  obtain ⟨vs, hchain, -⟩ := chain_of_standsAll hargs
  refine ⟨m, args, hargs, ?_⟩
  rw [bind_apply, step_special_of_list hx hr hchain, ← bind_apply] at hturn
  exact hturn

/-- A quotation that has a value. -/
theorem quote_of_evaluate (hv : StandsAll s.store (.word (.sym Symbol.quote) :: cs) v)
    (h : evaluate n v env s = .ok w t) : t = s ∧ ∃ c, cs = [c] ∧ c.Stands s.store w := by
  obtain ⟨m, args, hargs, h⟩ := special_of_evaluate (k := .quote) rfl hv h
  rw [special] at h
  cases cs with
  | nil =>
      cases hargs
      cases h
  | cons c cs =>
      obtain ⟨q, u, tail, rfl, hq, hu, htail⟩ := hargs
      obtain ⟨vs, hchain, -⟩ := chain_of_standsAll htail
      rw [operand?] at h
      simp only [bind_assoc] at h
      rw [bind_of_ok ((ofFuel m).cdrCell_of_list hq hchain)] at h
      cases hnil : tail.isNil with
      | true =>
          rw [hnil, if_pos rfl, bind_assoc, bind_of_ok (car_apply q s), Store.car_of_cell? hq] at h
          cases h
          cases cs with
          | nil => exact ⟨rfl, c, rfl, hu⟩
          | cons c' cs =>
              obtain ⟨p, -, -, rfl, -⟩ := htail
              cases hnil
      | false =>
          rw [hnil] at h
          cases h

/-- A keyword that begins no special form cannot be called. -/
theorem isKeyword_eq_false_of_evaluate (hx : ¬ x.index < Symbol.specialCount)
    (hv : StandsAll s.store (.word (.sym x) :: cs) v) (h : evaluate n v env s = .ok w t) :
    s.symbols.isKeyword x = false := by
  obtain ⟨m, rfl, hturn⟩ := turn_of_evaluate h
  obtain ⟨next, s₁, hstep, -⟩ := bind_eq_ok.1 hturn
  obtain ⟨p, _, args, rfl, hp, rfl, hargs⟩ := hv
  obtain ⟨vs, hchain, -⟩ := chain_of_standsAll hargs
  have hspecial : Special.ofSymbol? x = none := List.getElem?_eq_none (Nat.not_lt.1 hx)
  rw [step, pairStep, bind_of_ok (car_apply p s), Store.car_of_cell? hp,
    bind_of_ok ((ofFuel m).cdrCell_of_list hp hchain)] at hstep
  dsimp only at hstep
  rw [Eval.isKeyword, bind_of_ok (gets_apply _ s), hspecial] at hstep
  by_contra hkey
  rw [if_pos ((Bool.not_eq_false _).mp hkey)] at hstep
  cases hstep

/-- A call that has a value, by the callable that its head denotes. -/
theorem enter_of_evaluate {f : Callable} {r : Ref .callable} (hx : ¬ x.index < Symbol.specialCount)
    (hglobal : s.global? x = some (.callable r)) (hr : s.store.callables[r.index]? = some f)
    (hf : ∀ shape body, f ≠ .template shape body)
    (hv : StandsAll s.store (.word (.sym x) :: cs) v) (h : evaluate n v env s = .ok w t) :
    ∃ m args, StandsAll s.store cs args ∧
      ((ofFuel m).enter f args env >>= (ofFuel m).finish) s = .ok w t := by
  have hdefines : s.Defines x f :=
    ⟨isKeyword_eq_false_of_evaluate hx hv h, r, hglobal, getD_of_getElem? hr default⟩
  obtain ⟨p, _, args, rfl, hp, rfl, hargs⟩ := hv
  obtain ⟨vs, hchain, -⟩ := chain_of_standsAll hargs
  -- More fuel leads to the same value, and with enough of it the head can be looked up.
  obtain ⟨m, hstep, hle⟩ :=
    ((step_of_defines env hdefines hf hp hchain).and (Filter.eventually_ge_atTop n)).exists
  have hmore : evaluate (m + 1) (.pair p) env s = .ok w t :=
    (evaluate_mono (hle.trans (Nat.le_succ m)) (by rw [h]; trivial)).trans h
  obtain ⟨_, heq, hturn⟩ := turn_of_evaluate hmore
  cases heq
  rw [bind_apply, hstep, ← bind_apply] at hturn
  exact ⟨m, args, hargs, hturn⟩

/-- A word that is done in a turn. -/
theorem eq_of_evaluate {u : Value} (hstep : ∀ m, (ofFuel m).step v env s = .ok (.done u) s)
    (h : evaluate n v env s = .ok w t) : w = u ∧ t = s := by
  obtain ⟨m, rfl, hturn⟩ := turn_of_evaluate h
  rw [bind_of_ok (hstep m)] at hturn
  cases hturn
  exact ⟨rfl, rfl⟩

end Engine

/-! ## Natives -/

namespace Traces

variable {s₀ s t : State} {f : Code → Option Code} {E : Engine} {env : Env} {cs ds : List Code}
  {d e : Code} {args w : Value} {m : Native}

theorem length_of_mapM {α β : Type} {f : α → Option β} {l : List α} {bs : List β}
    (h : l.mapM f = some bs) : bs.length = l.length := by
  induction l generalizing bs with
  | nil =>
      cases h
      rfl
  | cons a l ih =>
      obtain ⟨b, bs', -, hbs, rfl⟩ := mapM_cons_eq_some.1 h
      rw [List.length_cons, List.length_cons, ih hbs]

/-- A native that takes exactly the operands at hand is called on what they come to. -/
theorem call_of_fixed (hf : Traces s₀ (E.eval · env) f) (hcs : cs.mapM f = some ds)
    (hshape : m.shape = .fixed ds.length) (hs : s₀.Accrues s) (hargs : StandsAll s.store cs args)
    (h : (E.enter (.native m) args env >>= E.finish) s = .ok w t) :
    ∃ ws u, s.Accrues u ∧ List.Forall₂ (Shows · u ·) ds ws ∧ m.run E ws env u = .ok w t := by
  obtain ⟨vs, hchain, hvs⟩ := chain_of_standsAll hargs
  have hlength : vs.length = ds.length := by rw [length_of_mapM hcs, hvs.length_eq]
  have hframe : E.makeFrame (.native m) args s = .ok vs s :=
    Engine.makeFrame_of_fixed (hshape.trans (by rw [hlength])) hchain
  have hrequired : m.shape.required = vs.length := by rw [hshape, hlength]; rfl
  rw [Engine.enter, bind_assoc, bind_of_ok hframe, bind_assoc, bind_eq_ok] at h
  obtain ⟨ws, u, hws, h⟩ := h
  rw [bind_assoc, bind_eq_ok] at h
  obtain ⟨x, u', hcall, h⟩ := h
  cases h
  have hall : s.Accrues u ∧ ∃ ws', ws = [].reverse ++ ws' ∧ List.Forall₂ (Shows · u ·) ds ws' := by
    split at hws
    · rw [Engine.evalFrame, hrequired] at hws
      exact hf.evalSlots hcs hs hvs hws
    · rw [Engine.forceFrame, hrequired] at hws
      have hforced : Traces s₀ _ f := hf.force
      exact hforced.evalSlots hcs hs hvs hws
  obtain ⟨hsu, _, rfl, hall⟩ := hall
  exact ⟨_, u, hsu, hall, Native.call_eq_ok.1 hcall⟩

theorem list (hf : Traces s₀ (E.eval · env) f) (hcs : cs.mapM f = some ds) (hs : s₀.Accrues s)
    (hargs : StandsAll s.store cs args)
    (h : (E.enter (.native (.lists .list)) args env >>= E.finish) s = .ok w t) :
    s.Accrues t ∧ (ofItems ds).Shows t w := by
  obtain ⟨vs, hchain, -⟩ := chain_of_standsAll hargs
  have hframe : E.makeFrame (.native (.lists .list)) args s = .ok [args] s :=
    Site.makeFrame_rest E (b := .list) rfl hchain
  have hlazy : (Native.lists .list).isLazy = true := rfl
  have hrequired : (Native.lists .list).shape.required = 0 := rfl
  rw [Engine.enter, bind_assoc, bind_of_ok hframe, if_pos hlazy, bind_assoc, bind_eq_ok] at h
  obtain ⟨ws, u, hws, h⟩ := h
  rw [Engine.evalFrame, hrequired, Engine.evalSlots, bind_eq_ok] at hws
  obtain ⟨x, u', hx, hws⟩ := hws
  cases hws
  obtain ⟨hsu, hstands⟩ := hf.mapList hcs hs hargs hx
  cases h
  exact ⟨hsu, shows_ofItems hstands⟩

theorem cons {items : List Code} (hf : Traces s₀ (E.eval · env) f)
    (hcs : cs.mapM f = some [d, e]) (hitems : e.items? = some items) (hs : s₀.Accrues s)
    (hargs : StandsAll s.store cs args)
    (h : (E.enter (.native (.lists .cons)) args env >>= E.finish) s = .ok w t) :
    s.Accrues t ∧ (Code.list (d :: items)).Shows t w := by
  obtain ⟨ws, u, hsu, hws, hrun⟩ := hf.call_of_fixed hcs rfl hs hargs h
  obtain ⟨a, _, ha, hrest, rfl⟩ := List.forall₂_cons_left_iff.1 hws
  obtain ⟨b, _, hb, hnil, rfl⟩ := List.forall₂_cons_left_iff.1 hrest
  cases hnil
  have hcons : Eval.cons a b u = .ok w t := hrun
  obtain ⟨hcell, ht⟩ := allocCells_eq_ok hcons
  obtain ⟨rfl, hstore⟩ := Store.cons_eq_some hcell
  have hadd : u.store.AddsCells t.store := hstore ▸ Store.AddsCells.push u.store ⟨a, b⟩
  have hut : u.Accrues t := .of_gains (.of_addsCells hadd ht)
  refine ⟨hsu.trans hut, shows_list ⟨_, a, b, rfl, ?_, (ha.accrues hut).1, ?_⟩⟩
  · rw [hstore]
    exact Store.cell?_push_size _ _
  · exact (standsAll_of_items? hitems).1 (hb.accrues hut).1

theorem eq_nil {b : Bool} (hf : Traces s₀ (E.eval · env) f)
    (hcs : cs.mapM f = some [d, .word .nil]) (hb : d.truth? = some b) (hs : s₀.Accrues s)
    (hargs : StandsAll s.store cs args)
    (h : (E.enter (.native (.tests .eq)) args env >>= E.finish) s = .ok w t) :
    s.Accrues t ∧ (Code.word (.ofBool !b)).Shows t w := by
  obtain ⟨ws, u, hsu, hws, hrun⟩ := hf.call_of_fixed hcs rfl hs hargs h
  obtain ⟨a, _, ha, hrest, rfl⟩ := List.forall₂_cons_left_iff.1 hws
  obtain ⟨_, _, ⟨rfl, -⟩, hnil, rfl⟩ := List.forall₂_cons_left_iff.1 hrest
  cases hnil
  have hsame : a.same .nil = !b := by
    rw [← truthy_of_truth? hb ha.1]
    cases a <;> rfl
  cases hrun
  rw [hsame]
  cases b <;> exact ⟨hsu, rfl, rfl⟩

/-- A call of a native that makes something of data. -/
theorem native (hf : Traces s₀ (E.eval · env) f) (hcs : cs.mapM f = some ds)
    (hd : Lexicon.built? m ds = some d) (hs : s₀.Accrues s) (hargs : StandsAll s.store cs args)
    (h : (E.enter (.native m) args env >>= E.finish) s = .ok w t) :
    s.Accrues t ∧ d.Shows t w := by
  unfold Lexicon.built? at hd
  split at hd
  · cases hd
    exact hf.list hcs hs hargs h
  · obtain ⟨items, hitems, rfl⟩ := Option.map_eq_some_iff.1 hd
    exact hf.cons hcs hitems hs hargs h
  · obtain ⟨b, hb, rfl⟩ := Option.map_eq_some_iff.1 hd
    exact hf.eq_nil hcs hb hs hargs h
  · cases hd

end Traces

end SmallLisp
