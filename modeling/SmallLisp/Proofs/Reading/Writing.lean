import SmallLisp.Printer
import SmallLisp.Proofs.Reading.Layout

/-!
# The text of a form

`Form.written` is the text of a form, by recursion on the form alone. A value that was laid out in
the store for a form prints as that text, whatever allowance for repeated nodes there is: the
printer meets every cell and every vector of such a value once, so it never takes one for a node
that it has printed before.
-/

namespace SmallLisp

/-- The text of an atom. -/
def Atom.written : Atom → List Char
  | .nil => "nil".toList
  | .number n => n.format.toList
  | .text x => (Printer.escapeString x).toList
  | .sym name => name.toList

namespace Form

/-- Whether the form is the head of quote forms. -/
def isQuoteHead : Form → Bool
  | .atom (.sym name) => name == "quote"
  | _ => false

mutual

/-- The text of a form; a quote form is abbreviated. -/
def written : Form → List Char
  | .atom a => a.written
  | .pair a (.pair f (.atom .nil)) =>
      if a.isQuoteHead then '\'' :: written f
      else '(' :: (written a ++ (' ' :: (written f ++ [')'])))
  | .pair a b => '(' :: (written a ++ (writtenTail b ++ [')']))
  | .vector items => '[' :: (writtenItems items ++ [']'])
  | .unquote f => ',' :: written f
  | .splice f => ',' :: '@' :: written f

/-- The text of what comes after the first item of a list. -/
def writtenTail : Form → List Char
  | .atom .nil => []
  | .pair a b => ' ' :: (written a ++ writtenTail b)
  | .atom a => ' ' :: '.' :: ' ' :: a.written
  | .vector items => ' ' :: '.' :: ' ' :: '[' :: (writtenItems items ++ [']'])
  | .unquote f => ' ' :: '.' :: ' ' :: ',' :: written f
  | .splice f => ' ' :: '.' :: ' ' :: ',' :: '@' :: written f

/-- The text of the items of a vector. -/
def writtenItems : List Form → List Char
  | [] => []
  | [f] => written f
  | f :: fs => written f ++ (' ' :: writtenItems fs)

end

/-- Whether a list goes on, or ends, with the form: all but pairs and nil come after a dot. -/
def goesOn : Form → Bool
  | .pair _ _ => true
  | .atom .nil => true
  | _ => false

theorem eq_nil_of_goesOn {a : Atom} (h : (atom a).goesOn) : a = .nil := by
  cases a with
  | nil => rfl
  | _ => simp [goesOn] at h

@[simp] theorem goesOn_pair (a b : Form) : (pair a b).goesOn = true := rfl

mutual

/-- How many levels a form nests: the items of a list or a vector are one level below it, and so
is a tail after a dot. -/
def nesting : Form → Nat
  | .atom _ => 0
  | .pair a b => max (nesting a + 1) (if b.goesOn then nesting b else nesting b + 1)
  | .vector items => nestingItems items
  | .unquote f => nesting f + 1
  | .splice f => nesting f + 1

def nestingItems : List Form → Nat
  | [] => 0
  | f :: fs => max (nesting f + 1) (nestingItems fs)

end

theorem written_quote {a f : Form} (h : a.isQuoteHead) :
    written (.pair a (.pair f nil)) = '\'' :: written f := by
  simp [nil, written, h]

/-- A pair that is no quote form is written as a list. -/
theorem written_list {a b : Form} (h : ∀ f, a.isQuoteHead → b ≠ .pair f nil) :
    written (.pair a b) = '(' :: (written a ++ (writtenTail b ++ [')'])) := by
  rw [written.eq_def]
  split
  · simp_all
  · rename_i a' f heq
    cases heq
    have ha : ¬ a.isQuoteHead = true := fun hq => h f hq rfl
    simp [ha, writtenTail]
  · rename_i heq
    cases heq
    rfl
  · simp_all
  · simp_all
  · simp_all

theorem writtenTail_dotted {b : Form} (h : b.goesOn = false) :
    writtenTail b = ' ' :: '.' :: ' ' :: written b := by
  cases b with
  | atom a =>
      cases a with
      | nil => simp [goesOn] at h
      | number n => rfl
      | text x => rfl
      | sym name => rfl
  | pair a b => simp [goesOn] at h
  | vector items => simp [writtenTail, written]
  | unquote f => simp [writtenTail, written]
  | splice f => simp [writtenTail, written]

end Form

/-! ## What the printer has seen -/

open Store

namespace PrintMemo

/-- Nothing between the two extents has been printed. -/
structure Clear (memo : PrintMemo) (e e' : Extent) : Prop where
  pairs : ∀ i, e.cells ≤ i → i < e'.cells → memo.pairs.contains i = false
  vectors : ∀ i, e.vectors ≤ i → i < e'.vectors → memo.vectors.contains i = false

/-- Nothing but what is between the two extents was printed since. -/
structure Within (memo memo' : PrintMemo) (e e' : Extent) : Prop where
  pairs : ∀ i, i < e.cells ∨ e'.cells ≤ i → memo.pairs.contains i = false →
    memo'.pairs.contains i = false
  vectors : ∀ i, i < e.vectors ∨ e'.vectors ≤ i → memo.vectors.contains i = false →
    memo'.vectors.contains i = false

theorem Within.refl (memo : PrintMemo) (e e' : Extent) : memo.Within memo e e' :=
  ⟨fun _ _ h => h, fun _ _ h => h⟩

theorem Within.trans {memo memo₁ memo₂ : PrintMemo} {e e' : Extent} (h : memo.Within memo₁ e e')
    (h' : memo₁.Within memo₂ e e') : memo.Within memo₂ e e' :=
  ⟨fun i hi hn => h'.pairs i hi (h.pairs i hi hn),
    fun i hi hn => h'.vectors i hi (h.vectors i hi hn)⟩

theorem Within.widen {memo memo' : PrintMemo} {a b e e' : Extent} (h : memo.Within memo' a b)
    (hcells : e.cells ≤ a.cells ∧ b.cells ≤ e'.cells)
    (hvectors : e.vectors ≤ a.vectors ∧ b.vectors ≤ e'.vectors) : memo.Within memo' e e' :=
  ⟨fun i hi hn => h.pairs i (by omega) hn, fun i hi hn => h.vectors i (by omega) hn⟩

theorem Clear.narrow {memo : PrintMemo} {a b e e' : Extent} (h : memo.Clear e e')
    (hcells : e.cells ≤ a.cells ∧ b.cells ≤ e'.cells)
    (hvectors : e.vectors ≤ a.vectors ∧ b.vectors ≤ e'.vectors) : memo.Clear a b :=
  ⟨fun i hi hi' => h.pairs i (by omega) (by omega),
    fun i hi hi' => h.vectors i (by omega) (by omega)⟩

/-- What was not printed before is still not if it lies before all that was printed since. -/
theorem Clear.before {memo memo' : PrintMemo} {a b e e' : Extent} (h : memo.Clear a b)
    (hw : memo.Within memo' e e') (hcells : b.cells ≤ e.cells) (hvectors : b.vectors ≤ e.vectors) :
    memo'.Clear a b :=
  ⟨fun i hi hi' => hw.pairs i (by omega) (h.pairs i hi hi'),
    fun i hi hi' => hw.vectors i (by omega) (h.vectors i hi hi')⟩

/-- What was not printed before is still not if it lies after all that was printed since. -/
theorem Clear.after {memo memo' : PrintMemo} {a b e e' : Extent} (h : memo.Clear a b)
    (hw : memo.Within memo' e e') (hcells : e'.cells ≤ a.cells)
    (hvectors : e'.vectors ≤ a.vectors) : memo'.Clear a b :=
  ⟨fun i hi hi' => hw.pairs i (by omega) (h.pairs i hi hi'),
    fun i hi hi' => hw.vectors i (by omega) (h.vectors i hi hi')⟩

end PrintMemo

theorem contains_insert_of_ne {xs : Std.TreeSet Nat} {i j : Nat} (hne : i ≠ j)
    (h : xs.contains i = false) : (xs.insert j).contains i = false := by
  rw [Std.TreeSet.contains_insert, h]
  simp only [Bool.or_false, beq_eq_false_iff_ne, ne_eq]
  intro heq
  exact hne (Nat.compare_eq_eq.1 heq).symm

namespace PrintMemo

theorem within_insert_pair (memo : PrintMemo) {i : Nat} {e e' : Extent} (hle : e.cells ≤ i)
    (hlt : i < e'.cells) : memo.Within { memo with pairs := memo.pairs.insert i } e e' :=
  ⟨fun j hj hn => contains_insert_of_ne (by omega) hn, fun _ _ hn => hn⟩

theorem within_insert_vector (memo : PrintMemo) {i : Nat} {e e' : Extent} (hle : e.vectors ≤ i)
    (hlt : i < e'.vectors) : memo.Within { memo with vectors := memo.vectors.insert i } e e' :=
  ⟨fun _ _ hn => hn, fun j hj hn => contains_insert_of_ne (by omega) hn⟩

end PrintMemo

namespace Store

variable {s : Store} {t : SymbolTable}

/-! ## The shape of a value and of its form -/

theorem Spells.isNil {f : Form} {v : Value} (h : s.Spells t f v) : v.isNil = f.isNil := by
  cases f with
  | atom a =>
      simp only [Spells] at h
      cases v with
      | nil => cases h; rfl
      | int n => cases h; rfl
      | double x => cases h; rfl
      | big r => obtain ⟨n, -, rfl⟩ := Option.map_eq_some_iff.1 h; rfl
      | text r => obtain ⟨x, -, rfl⟩ := Option.map_eq_some_iff.1 h; rfl
      | sym r => obtain ⟨x, -, rfl⟩ := Option.map_eq_some_iff.1 h; rfl
      | _ => cases h
  | pair a b => obtain ⟨r, car, cdr, rfl, -⟩ := h; rfl
  | vector items => obtain ⟨r, vs, rfl, -⟩ := h; rfl
  | unquote f => exact h.elim
  | splice f => exact h.elim

theorem Spells.isSym_quote (ht : t.Sound) {f : Form} {v : Value} (h : s.Spells t f v) :
    v.isSym Symbol.quote = f.isQuoteHead := by
  cases f with
  | atom a =>
      simp only [Spells] at h
      cases v with
      | nil => cases h; rfl
      | int n => cases h; rfl
      | double x => cases h; rfl
      | big r => obtain ⟨n, -, rfl⟩ := Option.map_eq_some_iff.1 h; rfl
      | text r => obtain ⟨x, -, rfl⟩ := Option.map_eq_some_iff.1 h; rfl
      | sym r =>
          obtain ⟨name, hr, rfl⟩ := Option.map_eq_some_iff.1 h
          rw [Bool.eq_iff_iff]
          simpa [Value.isSym, Form.isQuoteHead] using ht.eq_quote_iff hr
      | _ => cases h
  | pair a b => obtain ⟨r, car, cdr, rfl, -⟩ := h; rfl
  | vector items => obtain ⟨r, vs, rfl, -⟩ := h; rfl
  | unquote f => exact h.elim
  | splice f => exact h.elim

/-- A pair spells a pair. -/
theorem Spells.pair_inv {f : Form} {r : Ref .cell} (h : s.Spells t f (.pair r)) :
    ∃ a b car cdr, f = .pair a b ∧ s.cell? r = some ⟨car, cdr⟩ ∧ s.Spells t a car ∧
      s.Spells t b cdr := by
  cases f with
  | atom a => cases h
  | pair a b =>
      obtain ⟨_, car, cdr, heq, hc, ha, hb⟩ := h
      cases heq
      exact ⟨a, b, car, cdr, rfl, hc, ha, hb⟩
  | vector items => obtain ⟨_, _, heq, -⟩ := h; cases heq
  | unquote f => exact h.elim
  | splice f => exact h.elim

/-- A vector spells a vector. -/
theorem Spells.vector_inv {f : Form} {r : Ref .vector} (h : s.Spells t f (.vector r)) :
    ∃ items vs, f = .vector items ∧ s.vectors[r.index]? = some vs ∧
      s.SpellsAll t items vs.toList := by
  cases f with
  | atom a => cases h
  | pair a b => obtain ⟨_, _, _, heq, -⟩ := h; cases heq
  | vector items =>
      obtain ⟨_, vs, heq, hvs, hitems⟩ := h
      cases heq
      exact ⟨items, vs, rfl, hvs, hitems⟩
  | unquote f => exact h.elim
  | splice f => exact h.elim

mutual

/-- A value spells one form only. -/
theorem Spells.unique : ∀ {f g : Form} {v : Value}, s.Spells t f v → s.Spells t g v → f = g
  | .atom a, g, v, hf, hg => by
      cases g with
      | atom b => exact congrArg Form.atom (Option.some.inj (hf.symm.trans hg))
      | pair b c =>
          obtain ⟨r, _, _, rfl, -⟩ := hg
          cases hf
      | vector items =>
          obtain ⟨r, _, rfl, -⟩ := hg
          cases hf
      | unquote g => exact hg.elim
      | splice g => exact hg.elim
  | .pair a b, g, v, ⟨r, car, cdr, hv, hc, ha, hb⟩, hg => by
      subst hv
      obtain ⟨a', b', car', cdr', rfl, hc', ha', hb'⟩ := hg.pair_inv
      cases hc.symm.trans hc'
      rw [Spells.unique ha ha', Spells.unique hb hb']
  | .vector items, g, v, ⟨r, vs, hv, hvs, hitems⟩, hg => by
      subst hv
      obtain ⟨items', vs', rfl, hvs', hitems'⟩ := hg.vector_inv
      cases hvs.symm.trans hvs'
      rw [SpellsAll.unique hitems hitems']

theorem SpellsAll.unique : ∀ {fs gs : List Form} {vs : List Value},
    s.SpellsAll t fs vs → s.SpellsAll t gs vs → fs = gs
  | [], gs, vs, hf, hg => by
      cases hf
      cases gs with
      | nil => rfl
      | cons g gs =>
          obtain ⟨_, _, heq, -⟩ := hg
          cases heq
  | f :: fs, gs, vs, ⟨v, vs', hvs, hf, hfs⟩, hg => by
      subst hvs
      cases gs with
      | nil => cases hg
      | cons g gs =>
          obtain ⟨_, _, heq, hg, hgs⟩ := hg
          cases heq
          rw [Spells.unique hf hg, SpellsAll.unique hfs hgs]

end

end Store

/-! ## Printing -/

namespace Printer

variable {s : Store} {t : SymbolTable}

theorem quotedValue?_quote (ht : t.Sound) {r r' : Ref .cell} {a : Form} {car x : Value}
    (hr : s.cell? r = some ⟨car, .pair r'⟩) (hr' : s.cell? r' = some ⟨x, .nil⟩)
    (ha : s.Spells t a car) (hq : a.isQuoteHead) : quotedValue? s r = some x := by
  have hcar : (s.car r).isSym Symbol.quote = true := by
    rw [car_of_cell? hr, ha.isSym_quote ht, hq]
  simp [quotedValue?, hcar, cdr_of_cell? hr, cdr_of_cell? hr', car_of_cell? hr', Value.isNil]

theorem quotedValue?_list (ht : t.Sound) {r : Ref .cell} {a b : Form} {car cdr : Value}
    (hr : s.cell? r = some ⟨car, cdr⟩) (ha : s.Spells t a car) (hb : s.Spells t b cdr)
    (hq : ∀ f, a.isQuoteHead → b ≠ .pair f .nil) : quotedValue? s r = none := by
  have hcar : (s.car r).isSym Symbol.quote = a.isQuoteHead := by
    rw [car_of_cell? hr, ha.isSym_quote ht]
  unfold quotedValue?
  rw [hcar, cdr_of_cell? hr]
  by_cases h : a.isQuoteHead
  · rw [if_pos h]
    cases cdr with
    | pair r' =>
        -- the second cell does not end the list, or else this were a quote form
        obtain ⟨f, c, x, d, rfl, hr', -, hc⟩ := hb.pair_inv
        have hnil : ¬ c.isNil = true := by
          rw [Form.isNil_iff]
          rintro rfl
          exact hq f h rfl
        simp [cdr_of_cell? hr', hc.isNil, hnil]
    | _ => rfl
  · rw [if_neg h]

theorem value_atom {a : Atom} {v : Value} (h : s.atom? t v = some a) (item : Item)
    (memo : PrintMemo) : value ⟨s, t, true⟩ item v memo = (String.ofList a.written, memo) := by
  cases v with
  | nil =>
      cases h
      simp [value, Atom.written]
  | int n =>
      cases h
      simp [value, Atom.written, Num.format]
  | double x =>
      cases h
      simp [value, Atom.written, Num.format]
  | big r =>
      obtain ⟨n, hr, rfl⟩ := Option.map_eq_some_iff.1 h
      simp [value, Atom.written, Num.format, bignum, hr]
  | text r =>
      obtain ⟨x, hr, rfl⟩ := Option.map_eq_some_iff.1 h
      simp [value, Atom.written, text, hr]
  | sym r =>
      obtain ⟨name, hr, rfl⟩ := Option.map_eq_some_iff.1 h
      simp [value, Atom.written, NameTables.name, hr]
  | _ => cases h

/-! A node that is met for the first time is entered, and remembered from then on. -/

theorem pair_of_quoted {ctx : PrintContext} {item : Item} {r : Ref .cell} {memo : PrintMemo}
    {x : Value} (hnew : memo.pairs.contains r.index = false)
    (hq : quotedValue? ctx.store r = some x) :
    pair ctx item r memo =
      let (text, memo) := item x { memo with pairs := memo.pairs.insert r.index }
      ("'" ++ text, memo) := by
  simp [pair, hnew, enter?, hq, leave]

theorem pair_of_list {ctx : PrintContext} {item : Item} {r : Ref .cell} {memo : PrintMemo}
    (hnew : memo.pairs.contains r.index = false) (hq : quotedValue? ctx.store r = none) :
    pair ctx item r memo =
      let (first, memo) := item (ctx.store.car r) { memo with pairs := memo.pairs.insert r.index }
      let (text, memo) := tail ctx item (cellFuel ctx) (ctx.store.cdr r) ("(" ++ first) memo
      (text ++ ")", memo) := by
  simp [pair, hnew, enter?, hq, leave]

theorem vector_of_new {ctx : PrintContext} {item : Item} {r : Ref .vector} {memo : PrintMemo}
    (hnew : memo.vectors.contains r.index = false) :
    vector ctx item r memo =
      let (text, memo) := items item (ctx.store.vector r).toList "["
        { memo with vectors := memo.vectors.insert r.index }
      (text ++ "]", memo) := by
  simp [vector, hnew, enter?, leave]

theorem tail_of_dotted {ctx : PrintContext} {item : Item} {b : Form} {v : Value}
    (h : s.Spells t b v) (hb : b.goesOn = false) (fuel : Nat) (text : String) (memo : PrintMemo) :
    tail ctx item (fuel + 1) v text memo =
      let (last, memo) := item v memo
      (text ++ " . " ++ last, memo) := by
  cases v with
  | nil =>
      have hn := h.isNil
      rw [show Value.nil.isNil = true from rfl, eq_comm, Form.isNil_iff] at hn
      subst hn
      simp [Form.goesOn, Form.nil] at hb
  | pair r =>
      obtain ⟨_, _, _, _, rfl, -⟩ := h.pair_inv
      simp [Form.goesOn] at hb
  | _ => rfl

/-- The item prints the value as the form, and touches nothing of the memo but what the value is
made of. -/
def Prints (item : Item) (f : Form) (v : Value) (e e' : Extent) : Prop :=
  ∀ memo : PrintMemo, memo.Clear e e' →
    ∃ memo', item v memo = (String.ofList f.written, memo') ∧ memo.Within memo' e e'

theorem pair_laid (ht : t.Sound) {item : Item} {a b : Form} {car cdr : Value} {e e₁ e₂ : Extent}
    (ha : s.Laid t a car e₁ e₂) (hb : s.Laid t b cdr e e₁)
    (hc : s.cell? ⟨e₂.cells⟩ = some ⟨car, cdr⟩) (hq : ∀ f, a.isQuoteHead → b ≠ .pair f .nil)
    (hfirst : Prints item a car e₁ e₂)
    (hrest : ∀ (text : String) (memo : PrintMemo), memo.Clear e e₁ →
      ∃ memo', tail ⟨s, t, true⟩ item (cellFuel ⟨s, t, true⟩) cdr text memo =
        (text ++ String.ofList b.writtenTail, memo') ∧ memo.Within memo' e e₁) :
    Prints (value ⟨s, t, true⟩ item) (.pair a b) (.pair ⟨e₂.cells⟩) e
      { e₂ with cells := e₂.cells + 1 } := by
  intro memo hclear
  have hle₁ := hb.le
  have hle₂ := ha.le
  have hnew : memo.pairs.contains e₂.cells = false := hclear.pairs _ (by omega) (by simp)
  have hnone := quotedValue?_list ht hc ha.spells hb.spells hq
  -- the pair itself comes first, then its first item, then the rest
  have hw₀ : memo.Within { memo with pairs := memo.pairs.insert e₂.cells } e₂
      { e₂ with cells := e₂.cells + 1 } := memo.within_insert_pair (by omega) (by simp)
  have hclear₀ : { memo with pairs := memo.pairs.insert e₂.cells }.Clear e e₂ :=
    (hclear.narrow (by simp) (by simp)).before hw₀ (by omega) (by omega)
  obtain ⟨memo₁, hitem, hw₁⟩ := hfirst _ (hclear₀.narrow (by omega) (by omega))
  have hclear₁ : memo₁.Clear e e₁ :=
    (hclear₀.narrow (by omega) (by omega)).before hw₁ (by omega) (by omega)
  obtain ⟨memo₂, htail, hw₂⟩ := hrest ("(" ++ String.ofList a.written) memo₁ hclear₁
  refine ⟨memo₂, ?_, ?_⟩
  · rw [value, pair_of_list hnew hnone, car_of_cell? hc, cdr_of_cell? hc]
    simp only [hitem, htail, Form.written_list hq]
    rw [Prod.mk.injEq, ← String.toList_inj]
    simp
  · refine ((hw₀.widen ?_ ?_).trans (hw₁.widen ?_ ?_)).trans (hw₂.widen ?_ ?_)
    all_goals
      simp only
      omega

theorem pair_quote_laid (ht : t.Sound) {item : Item} {a f : Form} {car x : Value}
    {e e₁ e₂ : Extent} (ha : s.Laid t a car { e₁ with cells := e₁.cells + 1 } e₂)
    (hf : s.Laid t f x e e₁) (hc : s.cell? ⟨e₂.cells⟩ = some ⟨car, .pair ⟨e₁.cells⟩⟩)
    (hx : s.cell? ⟨e₁.cells⟩ = some ⟨x, .nil⟩) (hq : a.isQuoteHead) (hitem : Prints item f x e e₁) :
    Prints (value ⟨s, t, true⟩ item) (.pair a (.pair f .nil)) (.pair ⟨e₂.cells⟩) e
      { e₂ with cells := e₂.cells + 1 } := by
  intro memo hclear
  have hle₁ := hf.le
  have hle₂ := ha.le
  simp only at hle₂
  have hnew : memo.pairs.contains e₂.cells = false := hclear.pairs _ (by omega) (by simp)
  have hsome := quotedValue?_quote ht hc hx ha.spells hq
  have hw₀ : memo.Within { memo with pairs := memo.pairs.insert e₂.cells } e₂
      { e₂ with cells := e₂.cells + 1 } := memo.within_insert_pair (by omega) (by simp)
  have hclear₀ : { memo with pairs := memo.pairs.insert e₂.cells }.Clear e e₂ :=
    (hclear.narrow (by simp) (by simp)).before hw₀ (by omega) (by omega)
  obtain ⟨memo₁, hprint, hw₁⟩ := hitem _ (hclear₀.narrow (by omega) (by omega))
  refine ⟨memo₁, ?_, ?_⟩
  · rw [value, pair_of_quoted hnew hsome]
    simp only [hprint, Form.written_quote hq]
    rw [Prod.mk.injEq, ← String.toList_inj]
    simp
  · refine (hw₀.widen ?_ ?_).trans (hw₁.widen ?_ ?_)
    all_goals
      simp only
      omega

theorem vector_laid {item : Item} {fs : List Form} {vs : Array Value} {e e₁ : Extent}
    (hfs : s.LaidAll t fs vs.toList e e₁) (hc : s.vectors[e₁.vectors]? = some vs)
    (hitems : ∀ (text : String) (memo : PrintMemo), memo.Clear e e₁ →
      ∃ memo', items item vs.toList text memo =
        (text ++ String.ofList (Form.writtenItems fs), memo') ∧ memo.Within memo' e e₁) :
    Prints (value ⟨s, t, true⟩ item) (.vector fs) (.vector ⟨e₁.vectors⟩) e
      { e₁ with vectors := e₁.vectors + 1 } := by
  intro memo hclear
  have hle := hfs.le
  have hnew : memo.vectors.contains e₁.vectors = false := hclear.vectors _ (by omega) (by simp)
  have hvs : s.vector ⟨e₁.vectors⟩ = vs := by simp [Store.vector, hc]
  have hw₀ : memo.Within { memo with vectors := memo.vectors.insert e₁.vectors } e₁
      { e₁ with vectors := e₁.vectors + 1 } := memo.within_insert_vector (by omega) (by simp)
  have hclear₀ : { memo with vectors := memo.vectors.insert e₁.vectors }.Clear e e₁ :=
    (hclear.narrow (by simp) (by simp)).before hw₀ (by omega) (by omega)
  obtain ⟨memo₁, hprint, hw₁⟩ := hitems "[" _ hclear₀
  refine ⟨memo₁, ?_, ?_⟩
  · rw [value, vector_of_new hnew, hvs]
    simp only [hprint, Form.written]
    rw [Prod.mk.injEq, ← String.toList_inj]
    simp
  · refine (hw₀.widen ?_ ?_).trans (hw₁.widen ?_ ?_)
    all_goals
      simp only
      omega

theorem tail_dotted_laid {b : Form} {v : Value} {e e' : Extent} {depth fuel : Nat}
    (h : s.Laid t b v e e') (hb : b.goesOn = false) (hd : b.nesting + 1 ≤ depth)
    (hfuel : e'.cells - e.cells < fuel)
    (hitem : ∀ depth, b.nesting ≤ depth → Prints (render ⟨s, t, true⟩ (depth + 1)) b v e e')
    (text : String) (memo : PrintMemo) (hclear : memo.Clear e e') :
    ∃ memo', tail ⟨s, t, true⟩ (render ⟨s, t, true⟩ depth) fuel v text memo =
      (text ++ String.ofList b.writtenTail, memo') ∧ memo.Within memo' e e' := by
  cases depth with
  | zero => omega
  | succ depth =>
      cases fuel with
      | zero => omega
      | succ fuel =>
          obtain ⟨memo₁, hprint, hw⟩ := hitem depth (Nat.le_of_succ_le_succ hd) memo hclear
          refine ⟨memo₁, ?_, hw⟩
          rw [tail_of_dotted h.spells hb, hprint, Form.writtenTail_dotted hb]
          simp only
          rw [Prod.mk.injEq, ← String.toList_inj]
          simp

mutual

/-- A value that was laid out for a form prints as the form. -/
theorem render_laid (ht : t.Sound) : ∀ {f : Form} {v : Value} {e e' : Extent} (depth : Nat),
    s.Laid t f v e e' → f.nesting ≤ depth → Prints (render ⟨s, t, true⟩ (depth + 1)) f v e e'
  | .atom a, v, e, e', depth, ⟨ha, he⟩, _ => by
      intro memo _
      subst he
      exact ⟨memo, by rw [render, value_atom ha, Form.written], .refl _ _ _⟩
  | .pair a b, v, e, e', depth, ⟨car, cdr, e₁, e₂, hb, ha, hv, hc, he⟩, hd => by
      subst hv he
      simp only [Form.nesting] at hd
      cases depth with
      | zero => omega
      | succ depth =>
          by_cases hq : ∃ f, a.isQuoteHead ∧ b = .pair f .nil
          · obtain ⟨f, hq, rfl⟩ := hq
            obtain ⟨x, d, e₃, e₄, ⟨hd', he₃⟩, hf, rfl, hx, rfl⟩ := hb
            subst he₃
            cases nil_of_atom? hd'
            simp only [Form.goesOn_pair, if_true, Form.nesting] at hd
            exact pair_quote_laid ht ha hf hc hx hq (render_laid ht depth hf (by omega))
          · have hq' : ∀ f, a.isQuoteHead → b ≠ .pair f .nil := fun f h h' => hq ⟨f, h, h'⟩
            have hlt : e₂.cells < s.cells.size := lt_of_cell? (r := ⟨e₂.cells⟩) hc
            have hle := ha.le
            refine pair_laid ht ha hb hc hq' (render_laid ht depth ha (by omega)) ?_
            intro text memo hclear
            refine tail_laid ht (depth + 1) _ hb (by omega) ?_ text memo hclear
            simp only [cellFuel]
            omega
  | .vector fs, v, e, e', depth, ⟨vs, e₁, hfs, hv, hc, he⟩, hd => by
      subst hv he
      exact vector_laid hfs hc (items_laid ht depth hfs hd)
termination_by f => (sizeOf f, 0)

theorem tail_laid (ht : t.Sound) : ∀ {b : Form} {v : Value} {e e' : Extent} (depth fuel : Nat),
    s.Laid t b v e e' → (if b.goesOn then b.nesting else b.nesting + 1) ≤ depth →
    e'.cells - e.cells < fuel → ∀ (text : String) (memo : PrintMemo), memo.Clear e e' →
    ∃ memo', tail ⟨s, t, true⟩ (render ⟨s, t, true⟩ depth) fuel v text memo =
      (text ++ String.ofList b.writtenTail, memo') ∧ memo.Within memo' e e'
  | .atom a, v, e, e', depth, fuel, h, hd, hfuel, text, memo, hclear => by
      by_cases hg : (Form.atom a).goesOn
      · cases Form.eq_nil_of_goesOn hg
        obtain ⟨hv, he⟩ := h
        subst he
        cases nil_of_atom? hv
        exact ⟨memo, by simp [tail, Form.writtenTail], .refl _ _ _⟩
      · rw [if_neg hg] at hd
        exact tail_dotted_laid h (by simpa using hg) hd hfuel
          (fun depth hd => render_laid ht depth h hd) text memo hclear
  | .pair a b, v, e, e', depth, fuel, ⟨car, cdr, e₁, e₂, hb, ha, hv, hc, he⟩, hd, hfuel, text,
      memo, hclear => by
      subst hv he
      have hle₁ := hb.le
      have hle₂ := ha.le
      have hnew : memo.pairs.contains e₂.cells = false := hclear.pairs _ (by omega) (by simp)
      have hw₀ : memo.Within { memo with pairs := memo.pairs.insert e₂.cells } e₂
          { e₂ with cells := e₂.cells + 1 } := memo.within_insert_pair (by omega) (by simp)
      have hclear₀ : { memo with pairs := memo.pairs.insert e₂.cells }.Clear e e₂ :=
        (hclear.narrow (by simp) (by simp)).before hw₀ (by omega) (by omega)
      simp only [Form.goesOn_pair, if_true, Form.nesting] at hd hfuel
      cases depth with
      | zero => omega
      | succ depth =>
          cases fuel with
          | zero => omega
          | succ fuel =>
              obtain ⟨memo₁, hitem, hw₁⟩ :=
                render_laid ht depth ha (by omega) _ (hclear₀.narrow (by omega) (by omega))
              have hclear₁ : memo₁.Clear e e₁ :=
                (hclear₀.narrow (by omega) (by omega)).before hw₁ (by omega) (by omega)
              obtain ⟨memo₂, htail, hw₂⟩ := tail_laid ht (depth + 1) fuel hb
                (by omega) (by omega) (text ++ " " ++ String.ofList a.written) memo₁ hclear₁
              refine ⟨memo₂, ?_, ?_⟩
              · simp only [tail, hnew, Bool.false_eq_true, if_false,
                  car_of_cell? (r := ⟨e₂.cells⟩) hc, cdr_of_cell? (r := ⟨e₂.cells⟩) hc, hitem,
                  htail, Form.writtenTail]
                rw [Prod.mk.injEq, ← String.toList_inj]
                simp
              · refine ((hw₀.widen ?_ ?_).trans (hw₁.widen ?_ ?_)).trans (hw₂.widen ?_ ?_)
                all_goals
                  simp only
                  omega
  | .vector fs, v, e, e', depth, fuel, h, hd, hfuel, text, memo, hclear =>
      tail_dotted_laid h rfl hd hfuel (fun depth hd => render_laid ht depth h hd) text memo hclear
termination_by b => (sizeOf b, 1)

theorem items_laid (ht : t.Sound) : ∀ {fs : List Form} {vs : List Value} {e e' : Extent}
    (depth : Nat), s.LaidAll t fs vs e e' → Form.nestingItems fs ≤ depth →
    ∀ (text : String) (memo : PrintMemo), memo.Clear e e' →
    ∃ memo', items (render ⟨s, t, true⟩ depth) vs text memo =
      (text ++ String.ofList (Form.writtenItems fs), memo') ∧ memo.Within memo' e e'
  | [], vs, e, e', depth, ⟨hvs, he⟩, _, text, memo, _ => by
      subst hvs he
      refine ⟨memo, ?_, .refl _ _ _⟩
      simp [items, Form.writtenItems]
  | f :: fs, vs, e, e', depth, ⟨v, vs', e₁, hvs, hf, hfs⟩, hd, text, memo, hclear => by
      subst hvs
      simp only [Form.nestingItems] at hd
      have hle₁ := hf.le
      have hle₂ := hfs.le
      cases depth with
      | zero => omega
      | succ depth =>
          obtain ⟨memo₁, hitem, hw₁⟩ := render_laid ht depth hf (by omega) memo
            (hclear.narrow (by omega) (by omega))
          cases fs with
          | nil =>
              obtain ⟨rfl, rfl⟩ := hfs
              exact ⟨memo₁, by simp [items, hitem, Form.writtenItems], hw₁⟩
          | cons f' fs =>
              have hclear₁ : memo₁.Clear e₁ e' :=
                (hclear.narrow (by omega) (by omega)).after hw₁ (by omega) (by omega)
              obtain ⟨memo₂, hrest, hw₂⟩ := items_laid ht (depth + 1) hfs (by omega)
                (text ++ String.ofList f.written ++ " ") memo₁ hclear₁
              obtain ⟨v', vs'', _, rfl, -⟩ := hfs
              refine ⟨memo₂, ?_, (hw₁.widen (by omega) (by omega)).trans
                (hw₂.widen (by omega) (by omega))⟩
              simp only [items, hitem, hrest, Form.writtenItems]
              rw [Prod.mk.injEq, ← String.toList_inj]
              simp
termination_by fs => (sizeOf fs, 0)

end

end Printer

/-- A value that was laid out for a form prints as the form, whatever the allowance. -/
theorem print_laid {s : Store} {t : SymbolTable} (ht : t.Sound) {f : Form} {v : Value}
    {e e' : Store.Extent} (h : s.Laid t f v e e') (hd : f.nesting ≤ Printer.maxDepth)
    (repeats : Nat) : print s t true repeats v = String.ofList f.written := by
  obtain ⟨memo', hprint, -⟩ := Printer.render_laid ht Printer.maxDepth h hd { repeats }
    ⟨fun _ _ _ => by simp, fun _ _ _ => by simp⟩
  rw [print, hprint]

end SmallLisp
