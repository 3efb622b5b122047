import SmallLisp.Engine
import SmallLisp.Proofs.Simulation.Primitives

/-!
# Simulated walks and frames

What works along lists and lays out frames is simulated by itself, whatever engines evaluate the
forms that are met on the way.
-/

namespace SmallLisp.Simulation

open Eval

variable {G : Guard} (L : Simulation G) {E E' : Engine} {w : G.World}

/-- With more fuel there is a step left wherever there was one. -/
theorem step_left {n m : Nat} (h : n + 1 ≤ m) : ∃ k, m = k + 1 ∧ n ≤ k :=
  ⟨m - 1, by omega, by omega⟩

/-! ## Promises -/

theorem forceFinal (hE : L.Engines E E') {v : Value} (hv : G.Good w v) :
    L.Gives w G.Final (E.force v) (E'.force v) := by
  cases v with
  | promise r => exact hE.deliver hv
  | _ => exact L.give (G.final_of_good hv rfl)

theorem deliver (hE : L.Engines E E') {r : Ref .promise} (hr : G.Good w (.promise r)) :
    L.Gives w G.Good (E.deliver r) (E'.deliver r) :=
  L.weaken (hE.deliver hr) fun h => G.good_of_final h

theorem force (hE : L.Engines E E') {v : Value} (hv : G.Good w v) :
    L.Gives w G.Good (E.force v) (E'.force v) :=
  L.weaken (L.forceFinal hE hv) fun h => G.good_of_final h

theorem deliverTurn (hE : L.Engines E E') {r : Ref .promise} (hr : G.Good w (.promise r)) :
    L.Gives w G.Final (E.deliverTurn r) (E'.deliverTurn r) := by
  intro s t hst
  have hgood := (L.covers hst).promise hr
  have hsame : t.store.promise r = s.store.promise r := by
    obtain ⟨fs, cells, rfl, -⟩ := L.sees hst
    rfl
  cases hp : s.store.promise r with
  | delivered v =>
      rw [hp] at hgood hsame
      rw [Engine.deliverTurn_delivered hp, Engine.deliverTurn_delivered hsame]
      exact L.here hst ⟨rfl, hgood⟩
  | pending form env =>
      rw [hp] at hgood hsame
      have hpursue : L.Gives w G.Final (E.pursue form env) (E'.pursue form env) :=
        L.bind (hE.eval hgood.1 hgood.2) fun w₁ h₁ v hv => L.forceFinal hE hv
      -- Once the promise is pursued, the turn as a whole comes to its settlement.
      have hcall := Engine.deliverTurn_pending (E := E) hp
      rw [Engine.deliverTurn_pending hsame]
      rw [bind_apply] at hcall ⊢
      rcases (hpursue s t hst).cases with ⟨s₁, hs, h⟩ | ⟨v, v', s₁, t₁, hs, ht, h⟩ |
        ⟨f, g, s₁, t₁, hs, ht, h⟩ | ⟨c, s₁, t₁, hs, ht, h⟩
      · rw [hcall, hs]
        exact h
      · rw [hs] at hcall
        rw [hcall, ht]
        obtain ⟨w₁, h₁, hst₁, rfl, hv⟩ := h
        exact (L.settle hst h₁ hst₁ (G.good_mono h₁ hr) hv hE.drives hcall).mono h₁
      · rw [hcall, hs, ht]
        exact h
      · rw [hcall, hs, ht]
        exact ⟨rfl, h⟩

/-! ## Lists -/

/-- What the tail of a cell is taken for once it is forced. -/
theorem cellOf {r : Ref .cell} (hr : G.Good w (.pair r)) (next : Value) :
    G.Good w next → L.Gives w G.Good
    (match next with
      | .nil => Pure.pure .nil
      | .pair q => Pure.pure (.pair q)
      | _ => Eval.failOn (.pair r) .notProper)
    (match next with
      | .nil => Pure.pure .nil
      | .pair q => Pure.pure (.pair q)
      | _ => Eval.failOn (.pair r) .notProper) := by
  intro hnext
  cases next with
  | nil => exact L.give hnext
  | pair q => exact L.give hnext
  | _ => exact L.failOn hr fun _ => trivial

theorem cdrCell (hE : L.Engines E E') {r : Ref .cell} (hr : G.Good w (.pair r)) :
    L.Gives w G.Good (E.cdrCell r) (E'.cdrCell r) := by
  unfold Engine.cdrCell
  refine L.bindGets (f := fun s => s.store.cdr r) (fun _ _ hst => hst.cdr hr) fun s t hst => ?_
  have htail := (L.covers hst).cdr hr
  cases hc : s.store.cdr r with
  | promise p =>
      rw [hc] at htail
      refine (L.deliver hE htail s t hst).bind fun w₁ h₁ v v' s₁ t₁ hs hst₁ hv => ?_
      obtain ⟨rfl, hv⟩ := hv
      -- The value takes the place of the promise that was found there.
      have hforced : E.force (s.store.cdr r) s = .ok v' s₁ := by
        rw [hc]
        exact hs
      obtain ⟨w₂, h₂, hst₂, -⟩ := L.step_setCdr hst₁ (G.good_mono h₁ hr) hv
        (.inr ⟨w, s, t, E, hE.drives, hst, h₁, hr, hforced⟩)
      exact Match.mono h₂ (L.cellOf (G.good_mono (h₁.trans h₂) hr) _ (G.good_mono h₂ hv) _ _ hst₂)
  | _ =>
      rw [hc] at htail
      exact L.bind (L.give htail) (fun _ h _ hnext => L.cellOf (G.good_mono h hr) _ hnext) s t hst

theorem mapItems (hE : L.Engines E E') {f f' : Value → Eval Value} {n m : Nat} (hn : n ≤ m)
    {v : Value} {reversed : List Value} (hv : G.Good w v) (hr : G.GoodAll w reversed)
    (hf : ∀ {w' v}, w ≤ w' → G.Good w' v → L.Gives w' G.Good (f v) (f' v)) :
    L.Gives w G.GoodAll (E.mapItems f n v reversed) (E'.mapItems f' m v reversed) := by
  induction n generalizing m v reversed w with
  | zero =>
      cases v with
      | nil =>
          rw [Engine.mapItems, Engine.mapItems]
          exact L.give hr
      | pair r => exact L.exhausted _
      | _ =>
          simp only [Engine.mapItems]
          exact L.failOn hv fun _ => trivial
  | succ n ih =>
      obtain ⟨m, rfl, hm⟩ := step_left hn
      cases v with
      | nil => exact L.give hr
      | pair r =>
          rw [Engine.mapItems, Engine.mapItems]
          refine L.bind (L.car hv) fun w₁ h₁ item hitem => ?_
          refine L.bind (hf h₁ hitem) fun w₂ h₂ result hresult => ?_
          have h₂' := h₁.trans h₂
          refine L.bind (L.cdrCell hE (G.good_mono h₂' hv)) fun w₃ h₃ next hnext => ?_
          refine ih hm hnext ?_ fun h => hf ((h₂'.trans h₃).trans h)
          exact Guard.goodAll_cons.2 ⟨G.good_mono h₃ hresult, hr.mono (h₂'.trans h₃)⟩
      | _ => exact L.failOn hv fun _ => trivial

theorem mapList (hE : L.Engines E E') {f f' : Value → Eval Value} {v : Value} (hv : G.Good w v)
    (hf : ∀ {w' v}, w ≤ w' → G.Good w' v → L.Gives w' G.Good (f v) (f' v)) :
    L.Gives w G.Good (E.mapList f v) (E'.mapList f' v) :=
  L.bind (L.mapItems hE hE.fuel hv (Guard.goodAll_nil w) hf) fun w₁ _ _ hr =>
    L.consAll hr (G.nil w₁)

theorem reversedItems (hE : L.Engines E E') {v : Value} {reversed : List Value}
    (hv : G.Good w v) (hr : G.GoodAll w reversed) :
    L.Gives w G.GoodAll (E.mapItems Pure.pure E.fuel v reversed)
      (E'.mapItems Pure.pure E'.fuel v reversed) :=
  L.mapItems hE hE.fuel hv hr fun _ hv => L.give hv

theorem items (hE : L.Engines E E') {v : Value} (hv : G.Good w v) :
    L.Gives w G.GoodAll (E.items v) (E'.items v) :=
  L.bind (L.reversedItems hE hv (Guard.goodAll_nil w)) fun _ _ _ hr =>
    L.give (Guard.goodAll_reverse.2 hr)

theorem forceItems (hE : L.Engines E E') {n m : Nat} (hn : n ≤ m) {v : Value}
    (hv : G.Good w v) :
    L.Gives w (fun _ _ => True) (E.forceItems n v) (E'.forceItems m v) := by
  induction n generalizing m v w with
  | zero =>
      cases v with
      | pair r => exact L.exhausted _
      | _ =>
          simp only [Engine.forceItems]
          exact L.give trivial
  | succ n ih =>
      obtain ⟨m, rfl, hm⟩ := step_left hn
      cases v with
      | pair r =>
          rw [Engine.forceItems, Engine.forceItems]
          refine L.bindGets (f := fun s => s.store.car r) (fun _ _ hst => hst.car hv)
            fun s t hst => ?_
          have hforce := L.force hE ((L.covers hst).car hv) s t hst
          refine hforce.bind fun w₁ h₁ item item' s₁ t₁ hs hst₁ hitem => ?_
          obtain ⟨rfl, hitem⟩ := hitem
          -- The item is written back where it was found.
          obtain ⟨w₂, h₂, hst₂, -⟩ := L.step_setCar hst₁ (G.good_mono h₁ hv) hitem
            (.inr ⟨w, s, t, E, hE.drives, hst, h₁, hv, hs⟩)
          refine Match.mono h₂ (L.bind (L.cdrCell hE (G.good_mono (h₁.trans h₂) hv))
            (fun w₃ _ next hnext => ih hm hnext) _ _ hst₂)
      | _ => exact L.give trivial

theorem forceEach (hE : L.Engines E E') {v : Value} (hv : G.Good w v) :
    L.Gives w (fun _ _ => True) (E.forceEach v) (E'.forceEach v) :=
  L.forceItems hE hE.fuel hv

/-! ## Bodies -/

theorem bodyWithin (hE : L.Engines E E') {env : Env} (henv : G.Inside w env) {n m : Nat}
    (hn : n ≤ m) {v : Value} (hv : G.Good w v) :
    L.Gives w G.Good (E.bodyWithin env n v) (E'.bodyWithin env m v) := by
  induction n generalizing m v w with
  | zero =>
      cases v with
      | pair r => exact L.exhausted _
      | _ =>
          simp only [Engine.bodyWithin]
          exact L.give (G.nil w)
  | succ n ih =>
      obtain ⟨m, rfl, hm⟩ := step_left hn
      cases v with
      | pair r =>
          rw [Engine.bodyWithin, Engine.bodyWithin]
          refine L.bind (L.car hv) fun w₁ h₁ form hform => ?_
          refine L.bind (L.cdrCell hE (G.good_mono h₁ hv)) fun w₂ h₂ next hnext => ?_
          have hform := G.good_mono h₂ hform
          have henv := G.inside_mono (h₁.trans h₂) henv
          split
          · exact L.give hform
          · refine L.bind (hE.eval hform henv) fun w₃ h₃ _ _ => ?_
            exact ih (G.inside_mono h₃ henv) hm (G.good_mono h₃ hnext)
      | _ => exact L.give (G.nil w)

theorem body (hE : L.Engines E E') {forms : Value} {env : Env} (hf : G.Good w forms)
    (henv : G.Inside w env) : L.Gives w G.Good (E.body forms env) (E'.body forms env) :=
  L.bodyWithin hE henv hE.fuel hf

theorem sequenceWithin (hE : L.Engines E E') {env : Env} (henv : G.Inside w env) {n m : Nat}
    (hn : n ≤ m) {v last : Value} (hv : G.Good w v) (hlast : G.Good w last) :
    L.Gives w G.Good (E.sequenceWithin env n v last) (E'.sequenceWithin env m v last) := by
  induction n generalizing m v last w with
  | zero =>
      cases v with
      | pair r => exact L.exhausted _
      | _ =>
          simp only [Engine.sequenceWithin]
          exact L.give hlast
  | succ n ih =>
      obtain ⟨m, rfl, hm⟩ := step_left hn
      cases v with
      | pair r =>
          rw [Engine.sequenceWithin, Engine.sequenceWithin]
          refine L.bind (L.car hv) fun w₁ h₁ form hform => ?_
          refine L.bind (hE.eval hform (G.inside_mono h₁ henv)) fun w₂ h₂ u hu => ?_
          have h₂' := h₁.trans h₂
          refine L.bind (L.cdrCell hE (G.good_mono h₂' hv)) fun w₃ h₃ next hnext => ?_
          exact ih (G.inside_mono (h₂'.trans h₃) henv) hm hnext (G.good_mono h₃ hu)
      | _ => exact L.give hlast

theorem sequence (hE : L.Engines E E') {forms : Value} {env : Env} (hf : G.Good w forms)
    (henv : G.Inside w env) : L.Gives w G.Good (E.sequence forms env) (E'.sequence forms env) :=
  L.sequenceWithin hE henv hE.fuel hf (G.nil w)

/-! ## Frames of calls -/

/-- The items taken off a list and what follows them are good. -/
def GoodTaken (w : G.World) (taken : Option (List Value × Value)) : Prop :=
  ∀ p, taken = some p → G.GoodAll w p.1 ∧ G.Good w p.2

theorem takeItems (hE : L.Engines E E') {count : Nat} {v : Value} {reversed : List Value}
    (hv : G.Good w v) (hr : G.GoodAll w reversed) :
    L.Gives w GoodTaken (E.takeItems count v reversed) (E'.takeItems count v reversed) := by
  induction count generalizing v reversed w with
  | zero =>
      rw [Engine.takeItems, Engine.takeItems]
      refine L.give fun p hp => ?_
      cases hp
      exact ⟨hr, hv⟩
  | succ count ih =>
      cases v with
      | pair r =>
          rw [Engine.takeItems, Engine.takeItems]
          refine L.bind (L.car hv) fun w₁ h₁ item hitem => ?_
          refine L.bind (L.cdr (G.good_mono h₁ hv)) fun w₂ h₂ tail htail => ?_
          refine L.bind (L.force hE htail) fun w₃ h₃ rest hrest => ?_
          refine ih hrest (Guard.goodAll_cons.2 ⟨G.good_mono (h₂.trans h₃) hitem, ?_⟩)
          exact hr.mono ((h₁.trans h₂).trans h₃)
      | _ => exact L.give fun p hp => by cases hp

theorem makeFrame (hE : L.Engines E E') (f : Callable) {args : Value} (ha : G.Good w args) :
    L.Gives w G.GoodAll (E.makeFrame f args) (E'.makeFrame f args) := by
  unfold Engine.makeFrame
  refine L.bind (L.takeItems hE ha (Guard.goodAll_nil w)) fun w₁ h₁ taken htaken => ?_
  cases taken with
  | none => exact L.fail trivial
  | some p =>
      obtain ⟨hr, hrest⟩ := htaken p rfl
      obtain ⟨reversed, rest⟩ := p
      dsimp only at hr hrest ⊢
      split
      · split
        · exact L.give (Guard.goodAll_reverse.2 (Guard.goodAll_cons.2 ⟨hrest, hr⟩))
        · exact L.fail trivial
      · split
        · exact L.give (Guard.goodAll_reverse.2 hr)
        · exact L.fail trivial

theorem evalSlots (hE : L.Engines E E') {f f' : Value → Eval Value} {required : Nat}
    {forms reversed : List Value} (hforms : G.GoodAll w forms) (hr : G.GoodAll w reversed)
    (hf : ∀ {w' v}, w ≤ w' → G.Good w' v → L.Gives w' G.Good (f v) (f' v)) :
    L.Gives w G.GoodAll (E.evalSlots f required forms reversed)
      (E'.evalSlots f' required forms reversed) := by
  induction forms generalizing required reversed w with
  | nil =>
      cases required with
      | zero => exact L.give (Guard.goodAll_reverse.2 hr)
      | succ required => exact L.give (Guard.goodAll_reverse.2 hr)
  | cons form forms ih =>
      obtain ⟨hform, hforms⟩ := Guard.goodAll_cons.1 hforms
      cases required with
      | zero =>
          rw [Engine.evalSlots, Engine.evalSlots]
          refine L.bind (L.mapList hE hform hf) fun w₁ h₁ v hv => ?_
          exact L.give (Guard.goodAll_reverse.2 (Guard.goodAll_cons.2 ⟨hv, hr.mono h₁⟩))
      | succ required =>
          rw [Engine.evalSlots, Engine.evalSlots]
          refine L.bind (hf (le_refl w) hform) fun w₁ h₁ v hv => ?_
          refine ih (hforms.mono h₁) ?_ fun h => hf (h₁.trans h)
          exact Guard.goodAll_cons.2 ⟨hv, hr.mono h₁⟩

theorem evalFrame (hE : L.Engines E E') (shape : Shape) {frame : List Value} {env : Env}
    (hf : G.GoodAll w frame) (henv : G.Inside w env) :
    L.Gives w G.GoodAll (E.evalFrame shape frame env) (E'.evalFrame shape frame env) :=
  L.evalSlots hE hf (Guard.goodAll_nil w) fun h hv => hE.eval hv (G.inside_mono h henv)

theorem forceFrame (hE : L.Engines E E') (shape : Shape) {frame : List Value} {env : Env}
    (hf : G.GoodAll w frame) (henv : G.Inside w env) :
    L.Gives w G.GoodAll (E.forceFrame shape frame env) (E'.forceFrame shape frame env) :=
  L.evalSlots hE hf (Guard.goodAll_nil w) fun h hv =>
    L.bind (hE.eval hv (G.inside_mono h henv)) fun _ _ _ hu => L.force hE hu

theorem expandCall (hE : L.Engines E E') (f : Callable) {body args : Value}
    (hb : G.Good w body) (ha : G.Good w args) :
    L.Gives w G.Good (E.expandCall f body args) (E'.expandCall f body args) := by
  unfold Engine.expandCall
  refine L.bind (L.makeFrame hE f ha) fun w₁ h₁ frame hframe => ?_
  refine L.bind (L.extend hframe (G.top w₁)) fun w₂ h₂ env henv => ?_
  exact L.sequence hE (G.good_mono (h₁.trans h₂) hb) henv

end SmallLisp.Simulation
