import SmallLisp.Proofs.Compiler.Inserting
import SmallLisp.Proofs.Plenty

/-!
# Computations on code that succeed

With enough fuel and enough room a pass over code gives code, in a state that has more cells,
templates and frames than before. Of the cells of the store some are out of sight: they belong to
the data of programs, which change them. Code, and what is made of it, has none of them.
-/

namespace SmallLisp

open Eval Code Scope Filter

/-! ## Cells out of sight -/

/-- A cell that is part of no code. -/
def Cell.blank : Cell := ⟨.eof, .eof⟩

namespace Store

open Classical in
/-- The store with some of its cells out of sight. -/
noncomputable def veil (hidden : Nat → Prop) (s : Store) : Store :=
  { s with cells := s.cells.mapIdx fun i c => if hidden i then .blank else c }

variable {hidden hidden' : Nat → Prop} {s t : Store} {r : Ref .cell} {c : Cell}

open Classical in
theorem cell?_veil (hidden : Nat → Prop) (s : Store) (r : Ref .cell) :
    (s.veil hidden).cell? r =
      (s.cell? r).map fun c => if hidden r.index then .blank else c := by
  simp only [cell?, veil, Array.getElem?_mapIdx]

theorem cell?_of_veil (h : (s.veil hidden).cell? r = some c) (hc : c.cdr ≠ .eof) :
    s.cell? r = some c := by
  rw [cell?_veil, Option.map_eq_some_iff] at h
  obtain ⟨c', hcell, hsame⟩ := h
  split at hsame
  · rw [← hsame] at hc
    exact absurd rfl hc
  · rw [← hsame]
    exact hcell

theorem veil_of_cell? (h : s.cell? r = some c) (hr : ¬ hidden r.index) :
    (s.veil hidden).cell? r = some c := by
  rw [cell?_veil, h, Option.map_some, if_neg hr]

/-- What is in sight stays so if it is kept, and what comes out of sight was not there before. -/
theorem KeepsCode.veil (hcells : ∀ r c, s.cell? r = some c → ¬ hidden r.index → t.cell? r = some c)
    (hsize : ∀ r c, s.cell? r = some c → ∃ c', t.cell? r = some c')
    (hcallables : s.KeepsCallables t)
    (hhidden : ∀ r c, s.cell? r = some c → (hidden' r.index ↔ hidden r.index)) :
    (s.veil hidden).KeepsCode (t.veil hidden') where
  cells r c h := by
    rw [cell?_veil, Option.map_eq_some_iff] at h
    obtain ⟨c', hcell, hc⟩ := h
    by_cases hr : hidden r.index
    · obtain ⟨d, hd⟩ := hsize r c' hcell
      rw [if_pos hr] at hc
      rw [cell?_veil, hd, Option.map_some, if_pos ((hhidden r c' hcell).2 hr), hc]
    · rw [if_neg hr] at hc
      subst hc
      exact veil_of_cell? (hcells r c' hcell hr) fun h => hr ((hhidden r c' hcell).1 h)
  callables := hcallables

end Store

namespace Code

variable {hidden : Nat → Prop} {s : Store}

theorem StandsAll.ne_eof {cs : List Code} {v : Value} (h : StandsAll s cs v) : v ≠ .eof := by
  rintro rfl
  cases cs with
  | nil => cases h
  | cons c cs =>
      obtain ⟨r, a, d, hv, -⟩ := h
      cases hv

theorem chain_of_veil {vs : List Value} {v : Value} (h : (s.veil hidden).Chain vs .nil v) :
    s.Chain vs .nil v := by
  induction vs generalizing v with
  | nil => exact h
  | cons x xs ih =>
      obtain ⟨r, d, rfl, hr, hd⟩ := h
      refine ⟨r, d, rfl, Store.cell?_of_veil hr ?_, ih hd⟩
      rcases hd.nil_or_pair with rfl | ⟨q, rfl⟩ <;> exact fun h => by cases h

end Code

theorem Store.Chain.withRoom {s : State} {vs : List Value} {tail v : Value}
    (h : s.store.Chain vs tail v) (k : Nat) : (s.withRoom k).store.Chain vs tail v :=
  h.keeps (show s.store.KeepsCells (s.withRoom k).store from fun _ _ h => h)

/-- The next cell of code is found without touching anything. -/
theorem Code.cdrCell_of_standsAll (E : Engine) {hidden : Nat → Prop} {s : State} {r : Ref .cell}
    {a d : Value} {cs : List Code} (hr : s.store.cell? r = some ⟨a, d⟩)
    (hd : StandsAll (s.store.veil hidden) cs d) (k : Nat) :
    E.cdrCell r (s.withRoom k) = .ok d (s.withRoom k) := by
  obtain ⟨vs, hchain, -⟩ := chain_of_standsAll hd
  exact E.cdrCell_of_list (s := s.withRoom k) hr ((chain_of_veil hchain).withRoom k)

/-! ## States that grow by code -/

/-- The second state has more code and more frames than the first. -/
structure State.Grown (s t : State) : Prop where
  code : s.store.KeepsCode t.store
  expanders : ∀ r shape body, t.store.callable r = .expander shape body →
    s.store.callable r = .expander shape body
  frames : ∀ (i : Nat) frame, s.frames.table[i]? = some frame → t.frames.table[i]? = some frame
  rest : t = { s with
    store := { s.store with cells := t.store.cells, callables := t.store.callables }
    frames := t.frames }

namespace State.Grown

variable {s t u : State}

theorem refl (s : State) : s.Grown s := ⟨.refl _, fun _ _ _ h => h, fun _ _ h => h, rfl⟩

theorem trans (h : s.Grown t) (h' : t.Grown u) : s.Grown u := by
  refine ⟨h.code.trans h'.code,
    fun r shape body hr => h.expanders r shape body (h'.expanders r shape body hr),
    fun i frame hi => h'.frames i frame (h.frames i frame hi), ?_⟩
  have hu := h'.rest
  rw [h.rest] at hu
  exact hu

theorem of_extends (h : s.Extends t) : s.Grown t := by
  have hframes : t.frames = s.frames := by rw [h.rest]
  refine ⟨⟨h.cells, h.callables⟩, h.expanders, fun i frame hi => hframes ▸ hi, ?_⟩
  rw [hframes]
  exact h.rest

theorem pushFrame (s : State) (slots : Array Value) (next : Env) :
    s.Grown { s with frames := s.frames.push slots next } := by
  refine ⟨.refl _, fun _ _ _ h => h, fun i frame hi => ?_, rfl⟩
  have hlt := (Array.getElem?_eq_some_iff.1 hi).1
  rw [Frames.push, Array.getElem?_push_lt hlt, ← Array.getElem?_eq_getElem hlt]
  exact hi

theorem symbols (h : s.Grown t) : t.symbols = s.symbols := by rw [h.rest]

theorem config (h : s.Grown t) : t.config = s.config := by rw [h.rest]

theorem global? (h : s.Grown t) (x : Symbol) : t.global? x = s.global? x := by rw [h.rest]; rfl

theorem dummySymbol (h : s.Grown t) : t.store.dummySymbol = s.store.dummySymbol := by
  funext r
  rw [h.rest]
  rfl

theorem lt_size (h : s.Grown t) {i : Nat} (hi : i < s.store.cells.size) :
    i < t.store.cells.size :=
  (Array.getElem?_eq_some_iff.1 (h.code.cells ⟨i⟩ _ (Array.getElem?_eq_getElem hi))).1

/-- A word that is no macro does not become one. -/
theorem not_expands (h : s.Grown t) {v : Value} (hv : ¬ s.Expands v) : ¬ t.Expands v := by
  refine fun ht => hv ?_
  cases v with
  | sym x =>
      obtain ⟨r, shape, body, hg, hr⟩ := ht
      exact ⟨r, shape, body, (h.global? x).symm.trans hg, h.expanders _ _ _ hr⟩
  | callable r =>
      obtain ⟨shape, body, hr⟩ := ht
      exact ⟨shape, body, h.expanders _ _ _ hr⟩
  | _ => exact ht.elim

theorem veil (h : s.Grown t) (hidden : Nat → Prop) :
    (s.store.veil hidden).KeepsCode (t.store.veil hidden) :=
  .veil (fun r c hr _ => h.code.cells r c hr) (fun r c hr => ⟨c, h.code.cells r c hr⟩)
    h.code.callables fun _ _ _ => Iff.rfl

end State.Grown

/-! ## Computations that succeed -/

/-- With enough fuel and enough room the computation gives a value and leaves a state that are as
told. -/
def Eval.Succeeds {α : Type} (x : Nat → Eval α) (s : State) (P : α → State → Prop) : Prop :=
  ∃ a t, Comes x s (.ok a t) ∧ P a t

namespace Eval.Succeeds

variable {α β : Type} {x y : Nat → Eval α} {f : Nat → α → Eval β} {s t : State} {a : α}
  {P : α → State → Prop} {Q : β → State → Prop}

theorem pure (h : P a s) : Succeeds (fun _ => Pure.pure a) s P := ⟨a, s, .pure a s, h⟩

theorem bind (hx : Succeeds x s P) (hf : ∀ a t, P a t → Succeeds (fun n => f n a) t Q) :
    Succeeds (fun n => x n >>= f n) s Q := by
  obtain ⟨a, t, hcomes, ha⟩ := hx
  obtain ⟨b, u, hcomes', hb⟩ := hf a t ha
  exact ⟨b, u, hcomes.bind hcomes', hb⟩

/-- A part of the computation that only looks at the state. -/
theorem read (hx : ∀ᶠ n in atTop, ∀ k, x n (s.withRoom k) = .ok a (s.withRoom k))
    (hf : Succeeds (fun n => f n a) s Q) : Succeeds (fun n => x n >>= f n) s Q := by
  obtain ⟨b, u, hcomes, hb⟩ := hf
  exact ⟨b, u, hcomes.read hx, hb⟩

theorem congr (hy : Succeeds y s P)
    (h : ∀ᶠ n in atTop, ∀ k, x n (s.withRoom k) = y n (s.withRoom k)) : Succeeds x s P := by
  obtain ⟨a, t, hcomes, ha⟩ := hy
  exact ⟨a, t, hcomes.congr h, ha⟩

theorem mono {P' : α → State → Prop} (h : Succeeds x s P) (hP : ∀ a t, P a t → P' a t) :
    Succeeds x s P' := by
  obtain ⟨a, t, hcomes, ha⟩ := h
  exact ⟨a, t, hcomes, hP a t ha⟩

end Eval.Succeeds

/-- The text of a list of new cells, none of which is out of sight. -/
theorem Eval.Succeeds.consAll {hidden : Nat → Prop} {reversed : List Value} {tail : Value}
    {cs ds : List Code} {s : State} (hhidden : ∀ i, hidden i → i < s.store.cells.size)
    (hitems : List.Forall₂ (Stands (s.store.veil hidden)) cs reversed)
    (htail : StandsAll (s.store.veil hidden) ds tail) :
    Succeeds (fun _ => Eval.consAll reversed tail) s fun w t =>
      s.Grown t ∧ StandsAll (t.store.veil hidden) (cs.reverse ++ ds) w := by
  induction reversed generalizing cs tail ds s with
  | nil =>
      cases hitems
      exact .pure ⟨.refl s, htail⟩
  | cons v vs ih =>
      obtain ⟨c, cs, hv, hvs, rfl⟩ := List.forall₂_cons_right_iff.1 hitems
      simp only [consAll_cons]
      refine .bind (P := fun w t => s.Grown t ∧ StandsAll (t.store.veil hidden) (c :: ds) w)
        ⟨_, _, .cons v tail s, ?_⟩ ?_
      · have hgrown : s.Grown
            { s with store := { s.store with cells := s.store.cells.push ⟨v, tail⟩ } } :=
          .of_extends (.of_addsCells (.push s.store ⟨v, tail⟩) rfl)
        have hfresh : ¬ hidden s.store.cells.size := fun h => Nat.lt_irrefl _ (hhidden _ h)
        refine ⟨hgrown, _, v, tail, rfl, ?_, (hgrown.veil hidden).stands hv,
          (hgrown.veil hidden).standsAll htail⟩
        exact Store.veil_of_cell? (Store.cell?_push_size s.store ⟨v, tail⟩) hfresh
      · rintro w t ⟨hgrown, hw⟩
        refine (ih (fun i hi => hgrown.lt_size (hhidden i hi))
          (hvs.imp fun _ _ => (hgrown.veil hidden).stands) hw).mono fun w' t' h => ?_
        refine ⟨hgrown.trans h.1, ?_⟩
        rw [List.reverse_cons, List.append_assoc]
        exact h.2

/-! ## Passes -/

/-- The computation takes one piece of code to another. The states met are all grown from a first
one. -/
structure Code.Takes (hidden : Nat → Prop) (s₀ : State) (f : Nat → Value → Eval Value)
    (c d : Code) : Prop where
  run : ∀ {v s}, s₀.Grown s → c.Stands (s.store.veil hidden) v →
    Succeeds (fun n => f n v) s fun w t => s.Grown t ∧ d.Stands (t.store.veil hidden) w

namespace Code

variable {hidden : Nat → Prop} {s₀ : State} {f : Nat → Value → Eval Value} {j : Nat → Nat}

theorem Takes.congr {f' : Nat → Value → Eval Value} {c d : Code}
    (h : Takes hidden s₀ f' c d) (hf : ∀ {v : Value} {s : State}, s₀.Grown s →
      c.Stands (s.store.veil hidden) v →
      ∀ᶠ n in atTop, ∀ k, f n v (s.withRoom k) = f' n v (s.withRoom k)) :
    Takes hidden s₀ f c d :=
  ⟨fun hs hv => (h.run hs hv).congr (hf hs hv)⟩

/-- What gives each word back takes it to itself. -/
theorem takes_self {c : Code} (h : ∀ {v : Value} {s : State}, s₀.Grown s →
    c.Stands (s.store.veil hidden) v →
    ∀ᶠ n in atTop, ∀ k, f n v (s.withRoom k) = .ok v (s.withRoom k)) : Takes hidden s₀ f c c :=
  ⟨fun {v s} hs hv => ⟨v, s, .of_eventually (h hs hv), .refl s, hv⟩⟩

/-- Mapping over a list takes each item to its own. -/
theorem takes_mapItems (hj : Tendsto j atTop atTop) {cs ds : List Code}
    (hf : List.Forall₂ (Takes hidden s₀ f) cs ds) {v : Value} {done : List Value}
    {es : List Code} {s : State} (hs : s₀.Grown s)
    (hv : StandsAll (s.store.veil hidden) cs v)
    (hdone : List.Forall₂ (Stands (s.store.veil hidden)) es done) :
    Succeeds (fun n => (Engine.ofFuel n).mapItems (f n) (j n) v done) s fun out t =>
      s.Grown t ∧ List.Forall₂ (Stands (t.store.veil hidden)) (ds.reverse ++ es) out := by
  induction hf generalizing j v done es s with
  | nil =>
      cases hv
      refine .congr (.pure ⟨.refl s, hdone⟩) (.of_forall fun n k => ?_)
      rw [Engine.mapItems]
  | @cons c d cs ds hcd _ ih =>
      obtain ⟨r, a, b, rfl, hr, ha, hb⟩ := hv
      have hcell : s.store.cell? r = some ⟨a, b⟩ := Store.cell?_of_veil hr hb.ne_eof
      have hj' : Tendsto (fun n => j n - 1) atTop atTop :=
        (tendsto_sub_atTop_nat 1).comp hj
      refine .congr (y := fun n => f n a >>= fun w => (Engine.ofFuel n).cdrCell r >>=
        fun next => (Engine.ofFuel n).mapItems (f n) (j n - 1) next (w :: done)) ?_ ?_
      · refine .bind (hcd.run hs ha) fun w t h => ?_
        obtain ⟨ht, hw⟩ := h
        have hb' := (ht.veil hidden).standsAll hb
        refine .read (.of_forall fun n k =>
          cdrCell_of_standsAll _ (ht.code.cells r _ hcell) hb' k) ?_
        have hdone' : List.Forall₂ (Stands (t.store.veil hidden)) (d :: es) (w :: done) :=
          .cons hw (hdone.imp fun _ _ => (ht.veil hidden).stands)
        refine (ih hj' (hs.trans ht) hb' hdone').mono fun out u h => ⟨ht.trans h.1, ?_⟩
        rw [List.reverse_cons, List.append_assoc]
        exact h.2
      · filter_upwards [hj.eventually_ge_atTop 1] with n hn k
        obtain ⟨m, hm⟩ : ∃ m, j n = m + 1 := ⟨j n - 1, by omega⟩
        rw [hm, Engine.mapItems, bind_of_ok (car_apply r _), Nat.add_sub_cancel,
          show (s.withRoom k).store.car r = a from Store.car_of_cell? hcell]

/-- Mapping over a list makes a new list of what the items are taken to. -/
theorem takes_mapList (hhidden : ∀ i, hidden i → i < s₀.store.cells.size) {cs ds : List Code}
    (hf : List.Forall₂ (Takes hidden s₀ f) cs ds) :
    Takes hidden s₀ (fun n => (Engine.ofFuel n).mapList (f n)) (.list cs) (.list ds) := by
  refine ⟨fun {v s} hs hv => ?_⟩
  refine .bind (takes_mapItems tendsto_id hf hs hv .nil) fun out t ⟨ht, hout⟩ => ?_
  rw [List.append_nil] at hout
  have hnil : StandsAll (t.store.veil hidden) [] .nil := rfl
  refine (Succeeds.consAll (fun i hi => (hs.trans ht).lt_size (hhidden i hi)) hout hnil).mono
    fun w u h => ⟨ht.trans h.1, ?_⟩
  rw [List.reverse_reverse, List.append_nil] at h
  exact h.2

end Code

end SmallLisp
