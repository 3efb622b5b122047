import Mathlib.Data.List.Forall2
import SmallLisp.Proofs.Chain

/-!
# The text of bodies as trees

What the compiler works on is data in the store. `Code` is the tree such data stands for, before,
between and after the passes of the compiler; `Stands` says that a value stands for a tree. The
passes only ever add cells and templates, which `State.Extends` records, and a value goes on
standing for its tree. One lemma about mapping over a list serves all three passes.
-/

namespace SmallLisp

/-- A form `(quote ...)`: the one in a cell, or any that quotes the word. What is quoted counts as
data, so that a list that is quoted is known by its cell. -/
inductive Quotation where
  | cell (r : Ref .cell)
  | word (v : Value)

/-- A body or a part of it. Words are whatever is no pair: symbols, constants, addresses. -/
inductive Code where
  | word (v : Value)
  | quoted (q : Quotation)
  /-- A call, a special form, or any other list. -/
  | list (items : List Code)
  | lambda (formals : List Value) (body : List Code)
  /-- A form `(macro ...)`. -/
  | expander (items : List Code)
  /-- A nested lambda after it is compiled. -/
  | template (shape : Shape) (body : List Code)

namespace Quotation

/-- The value is the form. -/
def Stands (store : Store) : Quotation → Value → Prop
  | .cell r, v => v = .pair r ∧ ∃ d, store.cell? r = some ⟨.sym Symbol.quote, d⟩
  | .word w, v => store.Chain [.sym Symbol.quote, w] .nil v

variable {store : Store} {q : Quotation} {v : Value}

theorem Stands.exists_cell (h : q.Stands store v) :
    ∃ r d, v = .pair r ∧ store.cell? r = some ⟨.sym Symbol.quote, d⟩ := by
  cases q with
  | cell r =>
      obtain ⟨rfl, d, hd⟩ := h
      exact ⟨r, d, rfl, hd⟩
  | word w =>
      obtain ⟨r, d, rfl, hr, -⟩ := h
      exact ⟨r, d, rfl, hr⟩

theorem Stands.keeps {t : Store} (hk : store.KeepsCells t) (h : q.Stands store v) :
    q.Stands t v := by
  cases q with
  | cell r =>
      obtain ⟨rfl, d, hd⟩ := h
      exact ⟨rfl, d, hk r _ hd⟩
  | word w => exact Store.Chain.keeps hk h

end Quotation

namespace Code

mutual

/-- The value stands for the code. -/
def Stands (store : Store) : Code → Value → Prop
  | .word w, v => v = w
  | .quoted q, v => q.Stands store v
  | .list items, v => StandsAll store items v
  | .lambda formals body, v =>
      ∃ r next f b, v = .pair r ∧ store.cell? r = some ⟨.sym Symbol.lambda, .pair next⟩ ∧
        store.cell? next = some ⟨f, b⟩ ∧ store.Chain formals .nil f ∧ StandsAll store body b
  | .expander items, v =>
      ∃ r d, v = .pair r ∧ store.cell? r = some ⟨.sym Symbol.expander, d⟩ ∧
        StandsAll store items d
  | .template shape body, v =>
      ∃ r b, v = .callable r ∧ store.callables[r.index]? = some (.template shape b) ∧
        StandsAll store body b

/-- The value is the list of what stands for the items. -/
def StandsAll (store : Store) : List Code → Value → Prop
  | [], v => v = .nil
  | c :: cs, v =>
      ∃ r a d, v = .pair r ∧ store.cell? r = some ⟨a, d⟩ ∧ Stands store c a ∧
        StandsAll store cs d

end

mutual

/-- Put another word in place of each, in parameter lists too. -/
def mapWords (f : Value → Value) : Code → Code
  | .word v => .word (f v)
  | .quoted q => .quoted q
  | .list items => .list (mapAll f items)
  | .lambda formals body => .lambda (formals.map f) (mapAll f body)
  | .expander items => .expander (mapAll f items)
  | .template shape body => .template shape body

/-- Put another word in place of each word of the items. -/
def mapAll (f : Value → Value) : List Code → List Code
  | [] => []
  | c :: cs => mapWords f c :: mapAll f cs

end

mutual

/-- Uncompiled code all of whose words satisfy `p`, parameters included. -/
def Each (p : Value → Prop) : Code → Prop
  | .word v => p v
  | .quoted _ => True
  | .list items => items ≠ [] ∧ EachAll p items
  | .lambda formals body => (∀ v ∈ formals, p v) ∧ EachAll p body
  | .expander items => EachAll p items
  | .template _ _ => False

/-- Items all of whose words satisfy `p`. -/
def EachAll (p : Value → Prop) : List Code → Prop
  | [] => True
  | c :: cs => Each p c ∧ EachAll p cs

end

mutual

theorem mapWords_eq_self {f : Value → Value} (hf : ∀ v, f v = v) :
    ∀ c : Code, c.mapWords f = c
  | .word v => by rw [mapWords, hf]
  | .quoted _ => rfl
  | .list items => by rw [mapWords, mapAll_eq_self hf items]
  | .lambda formals body => by
      rw [mapWords, mapAll_eq_self hf body, List.map_congr_left fun v _ => hf v, List.map_id']
  | .expander items => by rw [mapWords, mapAll_eq_self hf items]
  | .template _ _ => rfl

theorem mapAll_eq_self {f : Value → Value} (hf : ∀ v, f v = v) :
    ∀ cs : List Code, mapAll f cs = cs
  | [] => rfl
  | c :: cs => by rw [mapAll, mapWords_eq_self hf c, mapAll_eq_self hf cs]

end

/-- A list of items as one piece of code; the empty list is nil. -/
def ofItems : List Code → Code
  | [] => .word .nil
  | c :: cs => .list (c :: cs)

/-! ## Lists of code -/

theorem mapAll_eq_map (f : Value → Value) (cs : List Code) :
    mapAll f cs = cs.map (mapWords f) := by
  induction cs with
  | nil => rfl
  | cons c cs ih => rw [mapAll, ih, List.map_cons]

theorem eachAll_iff {p : Value → Prop} {cs : List Code} :
    EachAll p cs ↔ ∀ c ∈ cs, Each p c := by
  induction cs with
  | nil => simp [EachAll]
  | cons c cs ih => simp [EachAll, ih]

theorem standsAll_of_chain {store : Store} {cs : List Code} {vs : List Value} {v : Value}
    (hc : List.Forall₂ (Stands store) cs vs) (hv : store.Chain vs .nil v) :
    StandsAll store cs v := by
  induction hc generalizing v with
  | nil => exact hv
  | cons hcv _ ih =>
      obtain ⟨r, d, rfl, hr, hd⟩ := hv
      exact ⟨r, _, d, rfl, hr, hcv, ih hd⟩

theorem chain_of_standsAll {store : Store} {cs : List Code} {v : Value}
    (h : StandsAll store cs v) :
    ∃ vs, store.Chain vs .nil v ∧ List.Forall₂ (Stands store) cs vs := by
  induction cs generalizing v with
  | nil => exact ⟨[], h, .nil⟩
  | cons c cs ih =>
      obtain ⟨r, a, d, rfl, hr, ha, hd⟩ := h
      obtain ⟨vs, hchain, hall⟩ := ih hd
      exact ⟨a :: vs, ⟨r, d, rfl, hr, hchain⟩, .cons ha hall⟩

theorem standsAll_words {store : Store} {vs : List Value} {v : Value} :
    StandsAll store (vs.map .word) v ↔ store.Chain vs .nil v := by
  induction vs generalizing v with
  | nil => rfl
  | cons x xs ih =>
      constructor
      · rintro ⟨r, a, d, rfl, hr, rfl, hd⟩
        exact ⟨r, d, rfl, hr, ih.1 hd⟩
      · rintro ⟨r, d, rfl, hr, hd⟩
        exact ⟨r, x, d, rfl, hr, rfl, ih.2 hd⟩

theorem stands_ofItems {store : Store} {cs : List Code} {v : Value} :
    Stands store (ofItems cs) v ↔ StandsAll store cs v := by
  cases cs <;> rfl

theorem mapWords_ofItems {f : Value → Value} (hf : f .nil = .nil) (cs : List Code) :
    mapWords f (ofItems cs) = ofItems (mapAll f cs) := by
  cases cs with
  | nil => rw [ofItems, mapWords, hf, mapAll, ofItems]
  | cons c cs => rfl

theorem mapAll_words (f : Value → Value) (vs : List Value) :
    mapAll f (vs.map .word) = (vs.map f).map .word := by
  simp [mapAll_eq_map, mapWords]

theorem each_ofItems {p : Value → Prop} (hp : p .nil) {cs : List Code} (h : EachAll p cs) :
    Each p (ofItems cs) := by
  cases cs with
  | nil => exact hp
  | cons c cs => exact ⟨by simp, h⟩

/-- A lambda is the list of its keyword, its parameter list and the forms of its body. -/
theorem stands_lambda {store : Store} {formals : List Value} {body : List Code} {v : Value} :
    Stands store (.lambda formals body) v ↔
      StandsAll store
        (.word (.sym Symbol.lambda) :: ofItems (formals.map .word) :: body) v := by
  constructor
  · rintro ⟨r, next, f, b, rfl, hr, hn, hf, hb⟩
    exact ⟨r, _, _, rfl, hr, rfl, next, f, b, rfl, hn,
      stands_ofItems.2 (standsAll_words.2 hf), hb⟩
  · rintro ⟨r, a, d, rfl, hr, rfl, next, f, b, rfl, hn, hf, hb⟩
    exact ⟨r, next, f, b, rfl, hr, hn, standsAll_words.1 (stands_ofItems.1 hf), hb⟩

theorem stands_expander {store : Store} {items : List Code} {v : Value} :
    Stands store (.expander items) v ↔
      StandsAll store (.word (.sym Symbol.expander) :: items) v := by
  constructor
  · rintro ⟨r, d, rfl, hr, hd⟩
    exact ⟨r, _, d, rfl, hr, rfl, hd⟩
  · rintro ⟨r, a, d, rfl, hr, rfl, hd⟩
    exact ⟨r, d, rfl, hr, hd⟩

end Code

/-- Every callable of the first store is in the second, unchanged. -/
def Store.KeepsCallables (s t : Store) : Prop :=
  ∀ (i : Nat) f, s.callables[i]? = some f → t.callables[i]? = some f

theorem Store.keepsCallables_newCallable (s : Store) (f : Callable) :
    s.KeepsCallables (s.newCallable f).2 := by
  intro i g hg
  have hlt := (Array.getElem?_eq_some_iff.1 hg).1
  simp only [Store.newCallable]
  rw [Array.getElem?_push_lt hlt, ← Array.getElem?_eq_getElem hlt]
  exact hg

mutual

theorem Code.Stands.keeps {s t : Store} (hx : s.KeepsCells t) (hy : s.KeepsCallables t) :
    ∀ (c : Code) {v : Value}, c.Stands s v → c.Stands t v
  | .word _, _, h => h
  | .quoted _, _, h => Quotation.Stands.keeps hx h
  | .list items, _, h => Code.StandsAll.keeps hx hy items h
  | .lambda _ body, _, ⟨r, next, f, b, hv, hr, hn, hf, hb⟩ =>
      ⟨r, next, f, b, hv, hx r _ hr, hx next _ hn, hf.keeps hx,
        Code.StandsAll.keeps hx hy body hb⟩
  | .expander items, _, ⟨r, d, hv, hr, hd⟩ =>
      ⟨r, d, hv, hx r _ hr, Code.StandsAll.keeps hx hy items hd⟩
  | .template _ body, _, ⟨r, b, hv, hr, hb⟩ =>
      ⟨r, b, hv, hy _ _ hr, Code.StandsAll.keeps hx hy body hb⟩

theorem Code.StandsAll.keeps {s t : Store} (hx : s.KeepsCells t) (hy : s.KeepsCallables t) :
    ∀ (cs : List Code) {v : Value}, Code.StandsAll s cs v → Code.StandsAll t cs v
  | [], _, h => h
  | c :: cs, _, ⟨r, a, d, hv, hr, ha, hd⟩ =>
      ⟨r, a, d, hv, hx r _ hr, Code.Stands.keeps hx hy c ha, Code.StandsAll.keeps hx hy cs hd⟩

end

/-- What stood for code still does. -/
structure Store.KeepsCode (s t : Store) : Prop where
  cells : s.KeepsCells t
  callables : s.KeepsCallables t

namespace Store.KeepsCode

variable {s t u : Store}

theorem refl (s : Store) : s.KeepsCode s := ⟨.refl s, fun _ _ h => h⟩

theorem trans (h : s.KeepsCode t) (h' : t.KeepsCode u) : s.KeepsCode u :=
  ⟨h.cells.trans h'.cells, fun i f hf => h'.callables i f (h.callables i f hf)⟩

theorem of_addsCells (h : s.AddsCells t) : s.KeepsCode t := by
  refine ⟨h.keeps, fun i f hf => ?_⟩
  rw [h.rest]
  exact hf

theorem newCallable (s : Store) (f : Callable) : s.KeepsCode (s.newCallable f).2 :=
  ⟨fun _ _ h => h, s.keepsCallables_newCallable f⟩

theorem stands (h : s.KeepsCode t) {c : Code} {v : Value} (hv : c.Stands s v) : c.Stands t v :=
  Code.Stands.keeps h.cells h.callables c hv

theorem standsAll (h : s.KeepsCode t) {cs : List Code} {v : Value} (hv : Code.StandsAll s cs v) :
    Code.StandsAll t cs v := Code.StandsAll.keeps h.cells h.callables cs hv

end Store.KeepsCode

/-! ## What the passes leave alone -/

/-- The first state with more cells and templates, everything else as it was. -/
structure State.Extends (s t : State) : Prop where
  cells : s.store.KeepsCells t.store
  callables : s.store.KeepsCallables t.store
  expanders : ∀ r shape body, t.store.callable r = .expander shape body →
    s.store.callable r = .expander shape body
  rest : t = { s with store :=
    { s.store with cells := t.store.cells, callables := t.store.callables } }

theorem State.Extends.refl (s : State) : s.Extends s :=
  ⟨.refl _, fun _ _ h => h, fun _ _ _ h => h, rfl⟩

theorem State.Extends.trans {s t u : State} (h₁ : s.Extends t) (h₂ : t.Extends u) :
    s.Extends u := by
  refine ⟨h₁.cells.trans h₂.cells, fun i f h => h₂.callables i f (h₁.callables i f h),
    fun r shape body h => h₁.expanders r shape body (h₂.expanders r shape body h), ?_⟩
  have h := h₂.rest
  rw [h₁.rest] at h
  exact h

theorem State.Extends.globals {s t : State} (h : s.Extends t) : t.globals = s.globals := by
  rw [h.rest]

theorem State.Extends.of_addsCells {s t : State} (h : s.store.AddsCells t.store)
    (ht : t = { s with store := t.store }) : s.Extends t := by
  have hcalls : t.store.callables = s.store.callables := by rw [h.rest]
  refine ⟨h.keeps, ?_, ?_, ?_⟩
  · intro i f hf
    rw [hcalls]
    exact hf
  · intro r shape body hr
    simpa only [Store.callable, hcalls] using hr
  · rw [hcalls, ← h.rest]
    exact ht

/-- A new template leaves everything there was as it was. -/
theorem State.Extends.newTemplate (s : State) (shape : Shape) (body : Value) :
    s.Extends { s with store := (s.store.newCallable (.template shape body)).2 } := by
  refine ⟨fun r c h => h, s.store.keepsCallables_newCallable _, ?_, rfl⟩
  intro r sh b hr
  simp only [Store.callable, Store.newCallable, Array.getD_eq_getD_getElem?] at hr ⊢
  rw [Array.getElem?_push] at hr
  split at hr
  · simp at hr
  · exact hr

theorem Code.Stands.extends {s t : State} (hx : s.Extends t) (c : Code) {v : Value}
    (h : c.Stands s.store v) : c.Stands t.store v :=
  Code.Stands.keeps hx.cells hx.callables c h

theorem Code.StandsAll.extends {s t : State} (hx : s.Extends t) (cs : List Code) {v : Value}
    (h : Code.StandsAll s.store cs v) : Code.StandsAll t.store cs v :=
  Code.StandsAll.keeps hx.cells hx.callables cs h

/-! ## Mapping over lists of code -/

namespace Engine

open Eval Code

/-- If `f` takes what stands for an item before a pass to what stands for it afterwards, mapping `f`
over a list does so item by item. The states met are all extensions of the first. -/
theorem mapItems_stands (E : Engine) {f : Value → Eval Value} (before after : Code → Code)
    {s₀ : State} {items : List Code}
    (hf : ∀ c ∈ items, ∀ {v w : Value} {s t : State}, s₀.Extends s →
      (before c).Stands s.store v → f v s = .ok w t → s.Extends t ∧ (after c).Stands t.store w)
    {n : Nat} {v : Value} {done out : List Value} {cs : List Code} {s t : State}
    (hs : s₀.Extends s) (hv : StandsAll s.store (items.map before) v)
    (hdone : List.Forall₂ (Stands s.store) cs done)
    (h : E.mapItems f n v done s = .ok out t) :
    s.Extends t ∧ List.Forall₂ (Stands t.store) ((items.map after).reverse ++ cs) out := by
  induction items generalizing n v done cs s with
  | nil =>
      cases hv
      rw [mapItems] at h
      cases h
      exact ⟨.refl _, hdone⟩
  | cons c items ih =>
      obtain ⟨r, a, d, rfl, hr, ha, hd⟩ := hv
      cases n with
      | zero => simp [mapItems] at h
      | succ n =>
          rw [mapItems, bind_of_ok (car_apply r s), Store.car_of_cell? hr, bind_eq_ok] at h
          obtain ⟨w, s₁, hw, h⟩ := h
          obtain ⟨hx, hafter⟩ := hf c (by simp) hs ha hw
          have hd₁ := Code.StandsAll.extends hx (items.map before) hd
          obtain ⟨vs, hchain, -⟩ := chain_of_standsAll hd₁
          rw [bind_of_ok (E.cdrCell_of_list (hx.cells r _ hr) hchain)] at h
          have hdone₁ : List.Forall₂ (Stands s₁.store) (after c :: cs) (w :: done) :=
            .cons hafter (hdone.imp fun c' _ hc' => Code.Stands.extends hx c' hc')
          obtain ⟨hx₁, hall⟩ := ih (fun c' hc' => hf c' (by simp [hc'])) (hs.trans hx) hd₁ hdone₁ h
          refine ⟨hx.trans hx₁, ?_⟩
          simpa using hall

theorem mapList_stands (E : Engine) {f : Value → Eval Value} (before after : Code → Code)
    {s₀ : State} {items : List Code}
    (hf : ∀ c ∈ items, ∀ {v w : Value} {s t : State}, s₀.Extends s →
      (before c).Stands s.store v → f v s = .ok w t → s.Extends t ∧ (after c).Stands t.store w)
    {v w : Value} {s t : State} (hs : s₀.Extends s)
    (hv : StandsAll s.store (items.map before) v) (h : E.mapList f v s = .ok w t) :
    s.Extends t ∧ StandsAll t.store (items.map after) w := by
  rw [mapList, bind_eq_ok] at h
  obtain ⟨out, s₁, hout, hcons⟩ := h
  obtain ⟨hx, hall⟩ := E.mapItems_stands before after hf hs hv .nil hout
  obtain ⟨hadd, ht, hchain⟩ := consAll_eq_ok hcons
  have hx₁ := State.Extends.of_addsCells hadd ht
  refine ⟨hx.trans hx₁, standsAll_of_chain ?_ hchain⟩
  have hrev := List.rel_reverse (hall.imp fun c' _ hc' => Code.Stands.extends hx₁ c' hc')
  simpa using hrev

end Engine

end SmallLisp
