import SmallLisp.Proofs.Compiler.Termination
import SmallLisp.Proofs.Template.Meaning

/-!
# Private variables

The definition of a macro is read with stand-ins for its private variables. On data in which every
list is proper this is a renaming: a new copy of the datum, with the names that start with a dollar
sign, and nothing else, replaced one to one by new stand-ins. It takes a cell for each pair and
evaluates nothing. A list that ends in anything but nil is refused, even where it is quoted.
-/

namespace SmallLisp

namespace Datum

/-- The pairs of a datum. -/
def pairs : Datum → Nat
  | .value _ => 0
  | .pair a d => pairs a + pairs d + 1

/-- The symbols of a datum, each as often as it stands there. -/
def symbols : Datum → List Symbol
  | .value (.sym x) => [x]
  | .value _ => []
  | .pair a d => symbols a ++ symbols d

/-- Whether a list may go on, or end, with the datum. -/
def IsTail : Datum → Prop
  | .value v => v = .nil
  | .pair _ _ => True

/-- Every list in the datum ends in nil, and no pair is left out of it. -/
def IsProper : Datum → Prop
  | .value v => v.isPair = false
  | .pair a d => a.IsProper ∧ d.IsProper ∧ d.IsTail

/-- No pair is left out of the datum, and no promise ends a list. -/
def IsPlain : Datum → Prop
  | .value v => v.isPair = false
  | .pair a d => a.IsPlain ∧ d.IsPlain ∧ d.isPromise = false

/-- The items of a list. -/
def items : Datum → List Datum
  | .value _ => []
  | .pair a d => a :: items d

/-- The datum with stand-ins in place of the symbols that have one. -/
def rename (standIn : Symbol → Option (Ref .dummy)) : Datum → Datum
  | .value (.sym x) => .value (((standIn x).map .dummy).getD (.sym x))
  | .value v => .value v
  | .pair a d => .pair (rename standIn a) (rename standIn d)

variable {standIn standIn' : Symbol → Option (Ref .dummy)}

theorem rename_congr {d : Datum} (h : ∀ x ∈ d.symbols, standIn x = standIn' x) :
    d.rename standIn = d.rename standIn' := by
  induction d with
  | value v =>
      cases v with
      | sym x => rw [rename, rename, h x (by simp [symbols])]
      | _ => rfl
  | pair a d iha ihd =>
      rw [rename, rename, iha fun x hx => h x (List.mem_append_left _ hx),
        ihd fun x hx => h x (List.mem_append_right _ hx)]

/-- Without stand-ins the datum stays as it is. -/
theorem rename_eq_self {d : Datum} (h : ∀ x ∈ d.symbols, standIn x = none) :
    d.rename standIn = d := by
  induction d with
  | value v =>
      cases v with
      | sym x => simp [rename, h x (by simp [symbols])]
      | _ => rfl
  | pair a d iha ihd =>
      rw [rename, iha fun x hx => h x (List.mem_append_left _ hx),
        ihd fun x hx => h x (List.mem_append_right _ hx)]

/-- A proper list is renamed item by item. -/
theorem rename_eq_list {d : Datum} (h : d.IsProper) (htail : d.IsTail) :
    d.rename standIn = list (d.items.map (rename standIn)) := by
  induction d with
  | value v =>
      cases htail
      rfl
  | pair a d _ ihd =>
      rw [rename, ihd h.2.1 h.2.2]
      rfl

end Datum

namespace Store

theorem Unfolds.keeps {s t : Store} (hk : s.KeepsCells t) {cells : Nat → Prop} {w : Value}
    {d : Datum} (h : s.Unfolds cells w d) : t.Unfolds cells w d := by
  induction d generalizing w with
  | value v => exact h
  | pair a d iha ihd =>
      obtain ⟨r, x, y, rfl, hr, hc, hx, hy⟩ := h
      exact ⟨r, x, y, rfl, hr, hk r _ hc, iha hx, ihd hy⟩

theorem Unfolds.isPromise_eq {s : Store} {cells : Nat → Prop} {w : Value} {d : Datum}
    (h : s.Unfolds cells w d) (hw : w.isPair = false) : d.isPromise = w.isPromise := by
  cases d with
  | value v =>
      cases h
      cases w <;> rfl
  | pair a d =>
      obtain ⟨r, _, _, rfl, -⟩ := h
      cases hw

end Store

/-! ## New cells and new stand-ins -/

/-- Cells and stand-ins were added, and nothing else has changed. -/
structure State.Supplies (s t : State) : Prop where
  cells : s.store.KeepsCells t.store
  dummies : ∀ (i : Nat) (x : Symbol), s.store.dummies[i]? = some x → t.store.dummies[i]? = some x
  rest : t = { s with store := { s.store with cells := t.store.cells, dummies := t.store.dummies } }

namespace State.Supplies

variable {s t u : State}

theorem refl (s : State) : s.Supplies s := ⟨.refl _, fun _ _ h => h, rfl⟩

theorem trans (h : s.Supplies t) (h' : t.Supplies u) : s.Supplies u where
  cells := h.cells.trans h'.cells
  dummies i x hx := h'.dummies i x (h.dummies i x hx)
  rest := by
    have hrest := h'.rest
    rw [h.rest] at hrest
    exact hrest

theorem of_addsCells (h : s.store.AddsCells t.store) (hrest : t = { s with store := t.store }) :
    s.Supplies t where
  cells := h.keeps
  dummies i x hx := by
    rw [h.rest]
    exact hx
  rest := by
    have hdummies : t.store.dummies = s.store.dummies := by rw [h.rest]
    rw [hdummies, ← h.rest]
    exact hrest

theorem symbols_eq (h : s.Supplies t) : t.symbols = s.symbols := by rw [h.rest]

theorem dummies_size_le (h : s.Supplies t) : s.store.dummies.size ≤ t.store.dummies.size := by
  by_contra hlt
  have hindex : t.store.dummies.size < s.store.dummies.size := by omega
  have hname := h.dummies _ _ (Array.getElem?_eq_getElem hindex)
  simp at hname

theorem capacity_eq (h : s.Supplies t) : t.store.capacity = s.store.capacity := by rw [h.rest]

end State.Supplies

/-- A list for which there is room is built from new cells. -/
theorem Eval.consAll_unfolds {c : Nat} {reversed : List Value} {ds : List Datum} {tail : Value}
    {d : Datum} {s : State} (hroom : s.store.cells.size + reversed.length ≤ s.store.capacity)
    (hc : c ≤ s.store.cells.size) (hitems : List.Forall₂ (s.store.Unfolds (c ≤ ·)) reversed ds)
    (htail : s.store.Unfolds (c ≤ ·) tail d) :
    ∃ w t, consAll reversed tail s = .ok w t ∧ s.Supplies t ∧
      t.store.cells.size = s.store.cells.size + reversed.length ∧
      t.store.dummies = s.store.dummies ∧
      t.store.Unfolds (c ≤ ·) w (Datum.listWithTail ds.reverse d) := by
  induction reversed generalizing ds s tail d with
  | nil =>
      cases hitems
      exact ⟨tail, s, rfl, .refl s, rfl, rfl, htail⟩
  | cons v reversed ih =>
      obtain ⟨dv, ds, hv, hvs, rfl⟩ := List.forall₂_cons_left_iff.1 hitems
      rw [List.length_cons] at hroom
      let s₁ : State := { s with store := { s.store with cells := s.store.cells.push ⟨v, tail⟩ } }
      have hcons : cons v tail s = .ok (.pair ⟨s.store.cells.size⟩) s₁ :=
        cons_of_room (by omega) v tail
      have hsize : s₁.store.cells.size = s.store.cells.size + 1 := Array.size_push _
      have hadd : s.store.AddsCells s₁.store := .push s.store ⟨v, tail⟩
      have hpair : s₁.store.Unfolds (c ≤ ·) (.pair ⟨s.store.cells.size⟩) (.pair dv d) :=
        ⟨_, v, tail, rfl, hc, Store.cell?_push_size _ _, hv.keeps hadd.keeps,
          htail.keeps hadd.keeps⟩
      obtain ⟨w, t, hok, hst, hcells, hdummies, hw⟩ := ih (s := s₁)
        (by rw [hsize]; exact Nat.le_trans (by omega) hroom) (by omega)
        (hvs.imp fun _ _ => .keeps hadd.keeps) hpair
      refine ⟨w, t, ?_, (State.Supplies.of_addsCells hadd rfl).trans hst, ?_, hdummies, ?_⟩
      · rw [consAll_cons, bind_of_ok hcons, hok]
      · rw [hcells, hsize, List.length_cons]
        omega
      · simpa [Datum.listWithTail] using hw

/-! ## The names with stand-ins -/

namespace Engine

open Eval

/-- The stand-in of a name, if it has one. -/
def standIn (names : Dummies) (x : Symbol) : Option (Ref .dummy) :=
  match names.find? (·.1 == x) with
  | some (_, .dummy r) => some r
  | _ => none

/-- All that is in the list are names of private variables with their stand-ins, which were made
from `base` on and record the name. -/
def StandIns (base : Nat) (s : State) (names : Dummies) : Prop :=
  ∀ e ∈ names, s.symbols.isDummy e.1 = true ∧
    ∃ r, e.2 = .dummy r ∧ base ≤ r.index ∧ s.store.dummies[r.index]? = some e.1

theorem StandIns.supplies {base : Nat} {s t : State} {names : Dummies} (h : StandIns base s names)
    (hst : s.Supplies t) : StandIns base t names := by
  intro e he
  obtain ⟨hx, r, hr, hbase, hname⟩ := h e he
  exact ⟨by rw [hst.symbols_eq, hx], r, hr, hbase, hst.dummies _ _ hname⟩

/-- A name that is found has its stand-in. -/
theorem StandIns.of_find? {base : Nat} {s : State} {names : Dummies} (h : StandIns base s names)
    {x : Symbol} {e : Symbol × Value} (he : names.find? (·.1 == x) = some e) :
    e.1 = x ∧ ∃ r, e.2 = .dummy r ∧ standIn names x = some r := by
  obtain ⟨y, v⟩ := e
  have hx : y = x := by simpa using List.find?_some he
  obtain ⟨-, r, rfl, -⟩ := h _ (List.mem_of_find?_eq_some he)
  exact ⟨hx, r, rfl, by simp [standIn, he]⟩

theorem StandIns.of_standIn {base : Nat} {s : State} {names : Dummies} (h : StandIns base s names)
    {x : Symbol} {r : Ref .dummy} (hr : standIn names x = some r) :
    s.symbols.isDummy x = true ∧ base ≤ r.index ∧ s.store.dummies[r.index]? = some x := by
  cases he : names.find? (·.1 == x) with
  | none => simp [standIn, he] at hr
  | some e =>
      obtain ⟨rfl, q, hq, hq'⟩ := h.of_find? he
      cases hr.symm.trans hq'
      obtain ⟨hx, q, hq'', hbase, hname⟩ := h e (List.mem_of_find?_eq_some he)
      cases hq.symm.trans hq''
      exact ⟨hx, hbase, hname⟩

/-- From some names on, stand-ins were given to the private variables among `xs`, and to no
others. -/
structure Named (base : Nat) (xs : List Symbol) (names : Dummies) (s : State) (names' : Dummies)
    (t : State) : Prop where
  supplies : s.Supplies t
  standIns : StandIns base t names'
  kept : ∀ x r, standIn names x = some r → standIn names' x = some r
  isSome_iff : ∀ x, (standIn names' x).isSome = true ↔
    (standIn names x).isSome = true ∨ x ∈ xs ∧ s.symbols.isDummy x = true

namespace Named

variable {base : Nat} {xs ys : List Symbol} {names names₁ names₂ : Dummies} {s s₁ s₂ : State}

theorem of_supplies (h : StandIns base s names) (hs : s.Supplies s₁)
    (hxs : ∀ x ∈ xs, s.symbols.isDummy x = true → (standIn names x).isSome = true) :
    Named base xs names s names s₁ :=
  ⟨hs, h.supplies hs, fun _ _ h => h, fun x => ⟨.inl, fun h => h.elim id fun h => hxs x h.1 h.2⟩⟩

theorem trans (h : Named base xs names s names₁ s₁) (h' : Named base ys names₁ s₁ names₂ s₂) :
    Named base (xs ++ ys) names s names₂ s₂ where
  supplies := h.supplies.trans h'.supplies
  standIns := h'.standIns
  kept x r hr := h'.kept x r (h.kept x r hr)
  isSome_iff x := by
    rw [h'.isSome_iff, h.isSome_iff, h.supplies.symbols_eq, List.mem_append]
    tauto

/-- A datum all of whose private variables have stand-ins keeps them. -/
theorem rename_eq (h : Named base ys names₁ s₁ names₂ s₂) {d : Datum}
    (hd : ∀ x ∈ d.symbols, s₁.symbols.isDummy x = true → (standIn names₁ x).isSome = true) :
    d.rename (standIn names₂) = d.rename (standIn names₁) := by
  refine Datum.rename_congr fun x hx => ?_
  cases h₁ : standIn names₁ x with
  | some r => exact h.kept x r h₁
  | none =>
      cases h₂ : standIn names₂ x with
      | none => rfl
      | some r =>
          -- only private variables have stand-ins, and this one would have had its before
          have hx₂ := (h.standIns.of_standIn h₂).1
          rw [h.supplies.symbols_eq] at hx₂
          have := hd x hx hx₂
          rw [h₁] at this
          cases this

end Named

/-- A private variable has a stand-in once it was met. -/
theorem dummyFor_named {base : Nat} {names : Dummies} {s : State} {x : Symbol}
    (h : StandIns base s names) (hbase : base ≤ s.store.dummies.size)
    (hx : s.symbols.isDummy x = true) :
    ∃ r names' t, dummyFor x names s = .ok (.dummy r, names') t ∧ Named base [x] names s names' t ∧
      standIn names' x = some r ∧ t.store.cells = s.store.cells := by
  cases he : names.find? (·.1 == x) with
  | some e =>
      obtain ⟨-, r, hr, hstands⟩ := h.of_find? he
      refine ⟨r, names, s, ?_, .of_supplies h (.refl s) ?_, hstands, rfl⟩
      · simp only [dummyFor, he, hr]
        rfl
      · simp [hstands]
  | none =>
      let t : State := { s with store := (s.store.newDummy x).2 }
      let r : Ref .dummy := ⟨s.store.dummies.size⟩
      have hnone : standIn names x = none := by simp [standIn, he]
      have hst : s.Supplies t :=
        ⟨.refl _, fun i y hy => Store.getElem?_push_of_some hy, rfl⟩
      have hself : standIn ((x, .dummy r) :: names) x = some r := by simp [standIn]
      have hother (y : Symbol) (hy : y ≠ x) :
          standIn ((x, .dummy r) :: names) y = standIn names y := by
        simp [standIn, hy.symm]
      refine ⟨r, (x, .dummy r) :: names, t, ?_, ⟨hst, ?_, ?_, ?_⟩, hself, rfl⟩
      · simp only [dummyFor, he]
        rfl
      · intro e hmem
        rcases List.mem_cons.1 hmem with rfl | hmem
        · exact ⟨hx, r, rfl, hbase, Array.getElem?_push_size⟩
        · exact h.supplies hst e hmem
      · intro y q hq
        rw [hother y (by rintro rfl; cases hnone.symm.trans hq), hq]
      · intro y
        by_cases hy : y = x
        · subst hy
          simp [hself, hx]
        · simp [hother y hy, hy]

/-! ## Data -/

/-- The value of the datum is replaced by a renamed copy in new cells, by every engine with enough
fuel, in a cell for each pair. -/
def Renames (c base : Nat) (d : Datum) (v : Value) (names : Dummies) (s : State) : Prop :=
  ∃ w names' t,
    (∀ (E : Engine) (fuel : Nat), 2 * d.pairs ≤ fuel →
      E.replaceWithin fuel v names s = .ok (w, names') t) ∧
    Named base d.symbols names s names' t ∧
    t.store.cells.size = s.store.cells.size + d.pairs ∧
    t.store.Unfolds (c ≤ ·) w (d.rename (standIn names'))

/-- The same for the items of a list, which are kept without the cells of the list. -/
def RenamesItems (c base : Nat) (d : Datum) (v : Value) (names : Dummies) (s : State) : Prop :=
  ∃ ws names' t,
    (∀ (E : Engine) (fuel : Nat) (reversed : List Value), 2 * d.pairs ≤ fuel + 1 →
      E.replaceItems fuel v reversed names s = .ok (ws.reverse ++ reversed, names') t) ∧
    Named base d.symbols names s names' t ∧
    t.store.cells.size + d.items.length = s.store.cells.size + d.pairs ∧
    List.Forall₂ (t.store.Unfolds (c ≤ ·)) ws (d.items.map (Datum.rename (standIn names')))

variable {c base : Nat} {cells : Nat → Prop} {d a : Datum} {v : Value} {names : Dummies} {s : State}

theorem replaceWithin_sym (E : Engine) (fuel : Nat) (x : Symbol) (names : Dummies) (s : State) :
    E.replaceWithin fuel (.sym x) names s =
      if s.symbols.isDummy x then dummyFor x names s else .ok (.sym x, names) s := by
  have hstep : E.replaceWithin fuel (.sym x) names s =
      (if s.symbols.isDummy x then dummyFor x names else pure (.sym x, names)) s := by
    cases fuel <;> rfl
  rw [hstep]
  split <;> rfl

theorem renames_leaf (hv : v.isPair = false) (hs : StandIns base s names)
    (hbase : base ≤ s.store.dummies.size) : Renames c base (.value v) v names s := by
  cases v with
  | pair r => cases hv
  | sym x =>
      cases hx : s.symbols.isDummy x with
      | true =>
          obtain ⟨r, names', t, hok, hnamed, hr, hcells⟩ := dummyFor_named hs hbase hx
          refine ⟨.dummy r, names', t, fun E fuel _ => ?_, hnamed, ?_, ?_⟩
          · rw [replaceWithin_sym, if_pos hx, hok]
          · rw [hcells]
            rfl
          · simp [Store.Unfolds, Datum.rename, hr]
      | false =>
          have hnone : standIn names x = none := by
            by_contra hsome
            obtain ⟨r, hr⟩ := Option.ne_none_iff_exists'.1 hsome
            exact Bool.false_ne_true (hx.symm.trans (hs.of_standIn hr).1)
          refine ⟨.sym x, names, s, fun E fuel _ => ?_, .of_supplies hs (.refl s) ?_, rfl, ?_⟩
          · rw [replaceWithin_sym, hx, if_neg Bool.false_ne_true]
          · simp [Datum.symbols, hx]
          · simp [Store.Unfolds, Datum.rename, hnone]
  | _ =>
      refine ⟨_, names, s, fun E fuel _ => ?_, .of_supplies hs (.refl s) ?_, rfl, rfl⟩
      · cases fuel <;> rfl
      · simp [Datum.symbols]

/-- The first item of a list, and then the others. -/
theorem renamesItems_pair {r : Ref .cell} {x y : Value} (hr : s.store.cell? r = some ⟨x, y⟩)
    (hy : y.isPair = true ∨ y = .nil) (hx : Renames c base a x names s)
    (hrest : ∀ names' t, Named base a.symbols names s names' t →
      t.store.cells.size = s.store.cells.size + a.pairs → RenamesItems c base d y names' t) :
    RenamesItems c base (.pair a d) (.pair r) names s := by
  obtain ⟨w, names₁, s₁, hok₁, hnamed₁, hsize₁, hw⟩ := hx
  obtain ⟨ws, names₂, s₂, hok₂, hnamed₂, hsize₂, hws⟩ := hrest names₁ s₁ hnamed₁ hsize₁
  refine ⟨w :: ws, names₂, s₂, fun E fuel reversed hfuel => ?_, hnamed₁.trans hnamed₂, ?_, ?_⟩
  · simp only [Datum.pairs] at hfuel
    obtain ⟨k, rfl⟩ : ∃ k, fuel = k + 1 := ⟨fuel - 1, by omega⟩
    rw [replaceItems, bind_of_ok (car_apply r s), Store.car_of_cell? hr,
      bind_of_ok (hok₁ E k (by omega))]
    dsimp only
    rw [bind_of_ok (E.cdrCell_of_tail (hnamed₁.supplies.cells r _ hr) hy),
      hok₂ E k (w :: reversed) (by omega)]
    simp
  · simp only [Datum.pairs, Datum.items, List.length_cons]
    omega
  · rw [Datum.items, List.map_cons, hnamed₂.rename_eq fun x hx hdummy => ?_]
    · exact .cons (hw.keeps hnamed₂.supplies.cells) hws
    · rw [hnamed₁.supplies.symbols_eq] at hdummy
      exact (hnamed₁.isSome_iff x).2 (.inr ⟨hx, hdummy⟩)

/-- Replacing is renaming on data in which every list is proper. -/
theorem renames (d : Datum) (hd : d.IsProper) : ∀ {v names s}, s.store.Unfolds cells v d →
    StandIns base s names → base ≤ s.store.dummies.size → c ≤ s.store.cells.size →
    s.store.cells.size + d.pairs ≤ s.store.capacity →
    Renames c base d v names s ∧ (d.IsTail → RenamesItems c base d v names s) := by
  induction d with
  | value u =>
      rintro v names s rfl hs hbase - -
      refine ⟨renames_leaf hd hs hbase, fun hnil => ?_⟩
      cases hnil
      refine ⟨[], names, s, fun E fuel reversed _ => ?_, .of_supplies hs (.refl s) ?_, rfl, .nil⟩
      · cases fuel <;> rfl
      · simp [Datum.symbols]
  | pair a d iha ihd =>
      rintro v names s ⟨r, x, y, rfl, -, hr, hx, hy⟩ hs hbase hc hroom
      obtain ⟨ha, hd, htail⟩ := hd
      simp only [Datum.pairs] at hroom
      have hy' : y.isPair = true ∨ y = .nil := by
        cases d with
        | value u => exact .inr (hy.trans htail)
        | pair a' d' =>
            obtain ⟨q, _, _, rfl, -⟩ := hy
            exact .inl rfl
      have hitems : RenamesItems c base (.pair a d) (.pair r) names s := by
        refine renamesItems_pair hr hy' (iha ha hx hs hbase hc (by omega)).1 ?_
        intro names' t hnamed hsize
        have hcapacity := hnamed.supplies.capacity_eq
        have hdummies := hnamed.supplies.dummies_size_le
        exact (ihd hd (hy.keeps hnamed.supplies.cells) hnamed.standIns (by omega)
          (by omega) (by omega)).2 htail
      refine ⟨?_, fun _ => hitems⟩
      obtain ⟨ws, names', t, hok, hnamed, hsize, hws⟩ := hitems
      have hlength := hws.length_eq
      rw [List.length_map] at hlength
      have hcapacity := hnamed.supplies.capacity_eq
      obtain ⟨w, u, hlist, hsupplies, hsize', hdummies, hw⟩ :=
        Eval.consAll_unfolds
          (by simp only [Datum.pairs] at hsize; rw [List.length_reverse]; omega)
          (by have := hnamed.supplies.cells.size_le; omega) (List.forall₂_reverse_iff.2 hws)
          (show t.store.Unfolds (c ≤ ·) .nil .nil from rfl)
      have hadd : Named base [] names' t names' u :=
        .of_supplies hnamed.standIns hsupplies (by simp)
      refine ⟨w, names', u, fun E fuel hfuel => ?_, ?_, ?_, ?_⟩
      · obtain ⟨k, rfl⟩ : ∃ k, fuel = k + 1 :=
          ⟨fuel - 1, by simp only [Datum.pairs] at hfuel; omega⟩
        rw [replaceWithin, bind_of_ok (hok E k [] hfuel)]
        dsimp only
        rw [List.append_nil, bind_of_ok hlist]
        rfl
      · simpa using hnamed.trans hadd
      · rw [hsize', List.length_reverse]
        omega
      · rw [Datum.rename_eq_list (d := .pair a d) ⟨ha, hd, htail⟩ trivial]
        simpa [Datum.list] using hw

/-- Putting stand-ins in place of private variables is a renaming of data in which every list is
proper. With room for a copy and enough fuel there always is one, made of new cells, and nothing is
evaluated or changed on the way. Just the symbols of the datum whose names start with a dollar sign
have a stand-in: one that was made now, records the name, and is of no other name. A datum without
such symbols comes back as it is. -/
theorem replaceDummies_renames (hv : s.store.Unfolds cells v d) (hd : d.IsProper)
    (hroom : s.store.cells.size + d.pairs ≤ s.store.capacity) :
    ∃ w t standIn,
      (∀ E : Engine, 2 * d.pairs ≤ E.fuel → E.replaceDummies v s = .ok w t) ∧
      s.Supplies t ∧
      t.store.Unfolds (s.store.cells.size ≤ ·) w (d.rename standIn) ∧
      (∀ x, (standIn x).isSome = true ↔ x ∈ d.symbols ∧ s.symbols.isDummy x = true) ∧
      (∀ x r, standIn x = some r →
        s.store.dummies.size ≤ r.index ∧ t.store.dummies[r.index]? = some x) ∧
      (∀ x y r, standIn x = some r → standIn y = some r → x = y) ∧
      ((∀ x ∈ d.symbols, s.symbols.isDummy x = false) → d.rename standIn = d) := by
  have hempty : StandIns s.store.dummies.size s [] := fun e he => absurd he List.not_mem_nil
  obtain ⟨w, names, t, hok, hnamed, -, hw⟩ := (renames d hd hv hempty le_rfl le_rfl hroom).1
  have hsome (x : Symbol) : (standIn names x).isSome = true ↔
      x ∈ d.symbols ∧ s.symbols.isDummy x = true := by
    rw [hnamed.isSome_iff]
    simp [standIn]
  refine ⟨w, t, standIn names, fun E hE => ?_, hnamed.supplies, hw, hsome, ?_, ?_, ?_⟩
  · rw [replaceDummies, bind_of_ok (hok E E.fuel hE)]
    rfl
  · exact fun x r hr => (hnamed.standIns.of_standIn hr).2
  · intro x y r hx hy
    have hx' := (hnamed.standIns.of_standIn hx).2.2
    exact Option.some.inj (hx'.symm.trans (hnamed.standIns.of_standIn hy).2.2)
  · intro hnone
    refine Datum.rename_eq_self fun x hx => ?_
    rw [← Option.not_isSome_iff_eq_none, hsome, hnone x hx]
    exact fun h => Bool.false_ne_true h.2

/-- A state with symbols `$x`, `$y` and `z`, in which cell 2 is the list `($x ($y z) $x)`. -/
def privateNames : State where
  console := { answers := [] }
  symbols := .ofNames ["$x", "$y", "z"]
  store := {
    capacity := 10
    dummies := #[⟨17⟩]
    cells := #[⟨.sym ⟨18⟩, .pair ⟨1⟩⟩, ⟨.sym ⟨19⟩, .nil⟩, ⟨.sym ⟨17⟩, .pair ⟨3⟩⟩,
      ⟨.pair ⟨0⟩, .pair ⟨4⟩⟩, ⟨.sym ⟨17⟩, .nil⟩] }

/-- Two names get two stand-ins, also when one of them had been given one before. -/
theorem replaceDummies_privateNames :
    ∃ w t x y, x ≠ y ∧ 1 ≤ x.index ∧ 1 ≤ y.index ∧
      (∀ E : Engine, 10 ≤ E.fuel → E.replaceDummies (.pair ⟨2⟩) privateNames = .ok w t) ∧
      t.store.Unfolds (5 ≤ ·) w (.list [.value (.dummy x),
        .list [.value (.dummy y), .value (.sym ⟨19⟩)], .value (.dummy x)]) := by
  let d : Datum := .list [.value (.sym ⟨17⟩), .list [.value (.sym ⟨18⟩), .value (.sym ⟨19⟩)],
    .value (.sym ⟨17⟩)]
  have hv : privateNames.store.Unfolds (fun _ => True) (.pair ⟨2⟩) d :=
    ⟨_, _, _, rfl, trivial, rfl, rfl, _, _, _, rfl, trivial, rfl,
      ⟨_, _, _, rfl, trivial, rfl, rfl, _, _, _, rfl, trivial, rfl, rfl, rfl⟩,
      _, _, _, rfl, trivial, rfl, rfl, rfl⟩
  obtain ⟨w, t, standIn, hok, -, hw, hsome, hnew, hdistinct, -⟩ :=
    replaceDummies_renames hv (by simp [d, Datum.list, Datum.listWithTail, Datum.nil,
      Datum.IsProper, Datum.IsTail, Value.isPair]) (by decide)
  obtain ⟨x, hx⟩ := Option.isSome_iff_exists.1 ((hsome ⟨17⟩).2 (by decide))
  obtain ⟨y, hy⟩ := Option.isSome_iff_exists.1 ((hsome ⟨18⟩).2 (by decide))
  have hz : standIn ⟨19⟩ = none := by
    rw [← Option.not_isSome_iff_eq_none, hsome]
    decide
  refine ⟨w, t, x, y, ?_, (hnew _ x hx).1, (hnew _ y hy).1, hok, ?_⟩
  · rintro rfl
    cases hdistinct _ _ _ hx hy
  · have hcopy : t.store.Unfolds (5 ≤ ·) w (d.rename standIn) := hw
    simpa [d, Datum.list, Datum.listWithTail, Datum.nil, Datum.rename, hx, hy, hz] using hcopy

/-! ## Lists that are not proper -/

theorem dummyFor_keepsCells {x : Symbol} {names : Dummies} {p : Value × Dummies} {s t : State}
    (h : dummyFor x names s = .ok p t) : s.store.KeepsCells t.store := by
  cases he : names.find? (·.1 == x) with
  | some e =>
      simp only [dummyFor, he] at h
      cases h
      exact .refl _
  | none =>
      simp only [dummyFor, he] at h
      cases h
      exact .refl _

theorem replaceItems_atom (E : Engine) {v : Value} (hpair : v.isPair = false) (hnil : v ≠ .nil)
    (fuel : Nat) (reversed : List Value) (names : Dummies) (s : State) :
    (E.replaceItems fuel v reversed names s).isOk = false := by
  cases v with
  | nil => exact absurd rfl hnil
  | pair r => cases hpair
  | _ => cases fuel <;> rfl

theorem replaceWithin_keepsCells {E : Engine} {fuel : Nat} {p : Value × Dummies} {t : State}
    (hv : v.isPair = false) (h : E.replaceWithin fuel v names s = .ok p t) :
    s.store.KeepsCells t.store := by
  cases v with
  | sym x =>
      rw [replaceWithin_sym] at h
      split at h
      · exact dummyFor_keepsCells h
      · cases h
        exact .refl _
  | pair r => cases hv
  | _ => cases fuel <;> (cases h; exact .refl _)

/-- Stand-ins can be put in place in the datum only if every list in it is proper. -/
def RefusesDotted (E : Engine) (cells : Nat → Prop) (d : Datum) : Prop :=
  ∀ {v names s fuel p t}, s.store.Unfolds cells v d → E.replaceWithin fuel v names s = .ok p t →
    d.IsProper ∧ s.store.KeepsCells t.store

/-- The same of the items of a list that the datum ends. -/
def RefusesDottedItems (E : Engine) (cells : Nat → Prop) (d : Datum) : Prop :=
  ∀ {v names s fuel reversed p t}, s.store.Unfolds cells v d →
    E.replaceItems fuel v reversed names s = .ok p t →
    d.IsProper ∧ d.IsTail ∧ s.store.KeepsCells t.store

theorem refusesDottedItems_pair {E : Engine} (ha : RefusesDotted E cells a)
    (hd : RefusesDottedItems E cells d) (hpromise : d.isPromise = false) :
    RefusesDottedItems E cells (.pair a d) := by
  rintro v names s fuel reversed p t ⟨r, x, y, rfl, -, hr, hx, hy⟩ h
  cases fuel with
  | zero => cases h
  | succ fuel =>
      rw [replaceItems, bind_of_ok (car_apply r s), Store.car_of_cell? hr] at h
      obtain ⟨⟨w, names₁⟩, s₁, hitem, h⟩ := bind_eq_ok.1 h
      obtain ⟨hpa, hk₁⟩ := ha hx hitem
      obtain ⟨next, s₂, hnext, h⟩ := bind_eq_ok.1 h
      have hr₁ := hk₁ r _ hr
      have hlist : y.isPair = true ∨ y = .nil := by
        by_contra hatom
        obtain ⟨hpair, hnil⟩ := not_or.1 hatom
        rw [Bool.not_eq_true] at hpair
        have hfail := E.cdrCell_of_atom hr₁ hpair hnil (hy.isPromise_eq hpair ▸ hpromise)
        cases hfail.symm.trans hnext
      cases (E.cdrCell_of_tail hr₁ hlist).symm.trans hnext
      obtain ⟨hpd, htail, hk₂⟩ := hd (hy.keeps hk₁) h
      exact ⟨⟨hpa, hpd, htail⟩, trivial, hk₁.trans hk₂⟩

/-- Where stand-ins could be put in place, every list was proper, unless a promise ends one: that
would be forced. -/
theorem refusesDotted (E : Engine) (d : Datum) (hd : d.IsPlain) :
    RefusesDotted E cells d ∧ (d.isPromise = false → RefusesDottedItems E cells d) := by
  induction d with
  | value u =>
      constructor
      · rintro v names s fuel p t rfl h
        exact ⟨hd, replaceWithin_keepsCells hd h⟩
      · rintro - v names s fuel reversed p t rfl h
        by_cases hnil : v = .nil
        · subst hnil
          cases fuel <;> (cases h; exact ⟨rfl, rfl, .refl _⟩)
        · have hfail := E.replaceItems_atom hd hnil fuel reversed names s
          rw [h] at hfail
          cases hfail
  | pair a d iha ihd =>
      obtain ⟨ha, hd, hpromise⟩ := hd
      have hitems : RefusesDottedItems E cells (.pair a d) :=
        refusesDottedItems_pair (iha ha).1 ((ihd hd).2 hpromise) hpromise
      refine ⟨fun {v names s fuel p t} hv h => ?_, fun _ => hitems⟩
      obtain ⟨r, -, -, rfl, -⟩ := id hv
      cases fuel with
      | zero => cases h
      | succ fuel =>
          rw [replaceWithin] at h
          obtain ⟨⟨reversed, names₁⟩, s₁, hok, h⟩ := bind_eq_ok.1 h
          obtain ⟨hproper, -, hk₁⟩ := hitems hv hok
          obtain ⟨w, s₂, hlist, h⟩ := bind_eq_ok.1 h
          cases h
          exact ⟨hproper, hk₁.trans (consAll_eq_ok hlist).1.keeps⟩

/-- A definition with a list that is not proper is refused, whatever the fuel and even if the list
is quoted. -/
theorem isProper_of_replaceDummies (E : Engine) {w : Value} {t : State}
    (hv : s.store.Unfolds cells v d) (hd : d.IsPlain) (h : E.replaceDummies v s = .ok w t) :
    d.IsProper := by
  obtain ⟨⟨w', names⟩, s₁, hok, -⟩ := bind_eq_ok.1 h
  exact ((refusesDotted E d hd).1 hv hok).1

/-- A state with symbols `a` and `b`, in which cell 4 is the text `(() '(a . b))` of a definition.
-/
def dottedConstant : State where
  console := { answers := [] }
  symbols := .ofNames ["a", "b"]
  store := {
    capacity := 100
    cells := #[⟨.sym ⟨17⟩, .sym ⟨18⟩⟩, ⟨.pair ⟨0⟩, .nil⟩, ⟨.sym Symbol.quote, .pair ⟨1⟩⟩,
      ⟨.pair ⟨2⟩, .nil⟩, ⟨.nil, .pair ⟨3⟩⟩] }

/-- The text of a lambda that holds a quoted dotted pair is no text of a macro: as a lambda it
compiles, but no stand-ins can be put in place in it, although no name in it is private. -/
theorem replaceDummies_refuses_dotted :
    let d : Datum := .list [.nil, .list [.value (.sym Symbol.quote),
      .pair (.value (.sym ⟨17⟩)) (.value (.sym ⟨18⟩))]]
    dottedConstant.store.Unfolds (fun _ => True) (.pair ⟨4⟩) d ∧
    (∀ x ∈ d.symbols, dottedConstant.symbols.isDummy x = false) ∧
    dottedConstant.store.cells.size + d.pairs ≤ dottedConstant.store.capacity ∧
    ((ofFuel 20).compile .template (.pair ⟨4⟩) dottedConstant).isOk = true ∧
    ((ofFuel 20).replaceDummies (.pair ⟨4⟩) dottedConstant).refusal? =
      some "proper list expected: (a . b)" ∧
    ∀ E : Engine, (E.replaceDummies (.pair ⟨4⟩) dottedConstant).isOk = false := by
  intro d
  have hv : dottedConstant.store.Unfolds (fun _ => True) (.pair ⟨4⟩) d :=
    ⟨_, _, _, rfl, trivial, rfl, rfl, _, _, _, rfl, trivial, rfl,
      ⟨_, _, _, rfl, trivial, rfl, rfl, _, _, _, rfl, trivial, rfl,
        ⟨_, _, _, rfl, trivial, rfl, rfl, rfl⟩, rfl⟩, rfl⟩
  refine ⟨hv, by decide, by decide, by decide +kernel, by decide +kernel, fun E => ?_⟩
  cases h : E.replaceDummies (.pair ⟨4⟩) dottedConstant with
  | halt c t => rfl
  | ok w t =>
      have hproper := isProper_of_replaceDummies E hv (by simp [d, Datum.list, Datum.listWithTail,
        Datum.nil, Datum.IsPlain, Datum.isPromise, Value.isPair]) h
      simp [d, Datum.list, Datum.listWithTail, Datum.nil, Datum.IsProper, Datum.IsTail] at hproper

end Engine

end SmallLisp
