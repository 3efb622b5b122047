import SmallLisp.Reader
import SmallLisp.Proofs.Chain

/-!
# Forms in the store

A value spells a form if following its references gives that form back. Putting a form into the
store makes such a value out of new cells and new vectors only: what a part of the form takes up is
an interval of either table, and the intervals of different parts do not meet. `Laid` keeps those
intervals, since a printer that remembers what it has seen depends on them.
-/

namespace SmallLisp

namespace Form

mutual

/-- The atoms of a form, from left to right. -/
def atoms : Form → List Atom
  | .atom a => [a]
  | .pair a b => atoms a ++ atoms b
  | .vector items => atomsAll items
  | .unquote f => atoms f
  | .splice f => atoms f

def atomsAll : List Form → List Atom
  | [] => []
  | f :: fs => atoms f ++ atomsAll fs

end

mutual

/-- No mark is left in the form. -/
def Unmarked : Form → Prop
  | .atom _ => True
  | .pair a b => Unmarked a ∧ Unmarked b
  | .vector items => UnmarkedAll items
  | .unquote _ => False
  | .splice _ => False

def UnmarkedAll : List Form → Prop
  | [] => True
  | f :: fs => Unmarked f ∧ UnmarkedAll fs

end

mutual

/-- The number of pairs in a form. -/
def pairs : Form → Nat
  | .atom _ => 0
  | .pair a b => pairs b + pairs a + 1
  | .vector items => pairsAll items
  | .unquote f => pairs f
  | .splice f => pairs f

def pairsAll : List Form → Nat
  | [] => 0
  | f :: fs => pairs f + pairsAll fs

end

end Form

/-- An integer that fits in a word is in one. -/
def Atom.Narrow : Atom → Prop
  | .number n => n.normalize = n
  | _ => True

namespace Store

variable {s s' s₁ : Store} {t t' t₁ : SymbolTable}

/-! ## Spelling -/

/-- The atom that a value is. -/
def atom? (s : Store) (t : SymbolTable) : Value → Option Atom
  | .nil => some .nil
  | .int n => some (.number (.small n))
  | .double x => some (.number (.double x))
  | .big r => s.bignums[r.index]?.map fun n => .number (.big n)
  | .text r => s.texts[r.index]?.map .text
  | .sym r => t.names[r.index]?.map .sym
  | _ => none

mutual

/-- The value, with all that it refers to, is the form. -/
def Spells (s : Store) (t : SymbolTable) : Form → Value → Prop
  | .atom a, v => s.atom? t v = some a
  | .pair a b, v =>
      ∃ r car cdr, v = .pair r ∧ s.cells[r.index]? = some ⟨car, cdr⟩ ∧
        Spells s t a car ∧ Spells s t b cdr
  | .vector items, v =>
      ∃ r vs, v = .vector r ∧ s.vectors[r.index]? = some vs ∧ SpellsAll s t items vs.toList
  | .unquote _, _ => False
  | .splice _, _ => False

def SpellsAll (s : Store) (t : SymbolTable) : List Form → List Value → Prop
  | [], vs => vs = []
  | f :: fs, vs => ∃ v vs', vs = v :: vs' ∧ Spells s t f v ∧ SpellsAll s t fs vs'

end

/-! ## Layout -/

/-- How far the tables of cells and vectors go. -/
structure Extent where
  cells : Nat
  vectors : Nat

def extent (s : Store) : Extent := ⟨s.cells.size, s.vectors.size⟩

mutual

/-- The value spells the form out of the cells and vectors from the first extent to the second,
each used once. -/
def Laid (s : Store) (t : SymbolTable) : Form → Value → Extent → Extent → Prop
  | .atom a, v, e, e' => s.atom? t v = some a ∧ e' = e
  | .pair a b, v, e, e' =>
      ∃ car cdr e₁ e₂, Laid s t b cdr e e₁ ∧ Laid s t a car e₁ e₂ ∧ v = .pair ⟨e₂.cells⟩ ∧
        s.cells[e₂.cells]? = some ⟨car, cdr⟩ ∧ e' = { e₂ with cells := e₂.cells + 1 }
  | .vector items, v, e, e' =>
      ∃ vs e₁, LaidAll s t items vs.toList e e₁ ∧ v = .vector ⟨e₁.vectors⟩ ∧
        s.vectors[e₁.vectors]? = some vs ∧ e' = { e₁ with vectors := e₁.vectors + 1 }
  | .unquote _, _, _, _ => False
  | .splice _, _, _, _ => False

def LaidAll (s : Store) (t : SymbolTable) : List Form → List Value → Extent → Extent → Prop
  | [], vs, e, e' => vs = [] ∧ e' = e
  | f :: fs, vs, e, e' =>
      ∃ v vs' e₁, vs = v :: vs' ∧ Laid s t f v e e₁ ∧ LaidAll s t fs vs' e₁ e'

end

mutual

theorem Laid.spells : ∀ {f : Form} {v : Value} {e e' : Extent},
    s.Laid t f v e e' → s.Spells t f v
  | .atom _, _, _, _, h => h.1
  | .pair _ _, _, _, _, ⟨car, cdr, _, e₂, hb, ha, hv, hc, _⟩ =>
      ⟨⟨e₂.cells⟩, car, cdr, hv, hc, Laid.spells ha, Laid.spells hb⟩
  | .vector _, _, _, _, ⟨vs, e₁, hvs, hv, hc, _⟩ =>
      ⟨⟨e₁.vectors⟩, vs, hv, hc, LaidAll.spellsAll hvs⟩

theorem LaidAll.spellsAll : ∀ {fs : List Form} {vs : List Value} {e e' : Extent},
    s.LaidAll t fs vs e e' → s.SpellsAll t fs vs
  | [], _, _, _, h => h.1
  | _ :: _, _, _, _, ⟨v, vs', _, hvs, hf, hfs⟩ =>
      ⟨v, vs', hvs, Laid.spells hf, LaidAll.spellsAll hfs⟩

end

mutual

theorem Laid.unmarked : ∀ {f : Form} {v : Value} {e e' : Extent},
    s.Laid t f v e e' → f.Unmarked
  | .atom _, _, _, _, _ => trivial
  | .pair _ _, _, _, _, ⟨_, _, _, _, hb, ha, _⟩ => ⟨Laid.unmarked ha, Laid.unmarked hb⟩
  | .vector _, _, _, _, ⟨_, _, hvs, _⟩ => LaidAll.unmarkedAll hvs

theorem LaidAll.unmarkedAll : ∀ {fs : List Form} {vs : List Value} {e e' : Extent},
    s.LaidAll t fs vs e e' → Form.UnmarkedAll fs
  | [], _, _, _, _ => trivial
  | _ :: _, _, _, _, ⟨_, _, _, _, hf, hfs⟩ => ⟨Laid.unmarked hf, LaidAll.unmarkedAll hfs⟩

end

mutual

theorem Laid.le : ∀ {f : Form} {v : Value} {e e' : Extent}, s.Laid t f v e e' →
    e.cells ≤ e'.cells ∧ e.vectors ≤ e'.vectors
  | .atom _, _, _, _, ⟨_, he⟩ => by
      subst he
      exact ⟨Nat.le_refl _, Nat.le_refl _⟩
  | .pair _ _, _, _, _, ⟨_, _, _, _, hb, ha, _, _, he⟩ => by
      subst he
      have hle₁ := Laid.le hb
      have hle₂ := Laid.le ha
      simp only
      omega
  | .vector _, _, _, _, ⟨_, _, hvs, _, _, he⟩ => by
      subst he
      have hle := LaidAll.le hvs
      simp only
      omega

theorem LaidAll.le : ∀ {fs : List Form} {vs : List Value} {e e' : Extent},
    s.LaidAll t fs vs e e' → e.cells ≤ e'.cells ∧ e.vectors ≤ e'.vectors
  | [], _, _, _, ⟨_, he⟩ => by
      subst he
      exact ⟨Nat.le_refl _, Nat.le_refl _⟩
  | _ :: _, _, _, _, ⟨_, _, _, _, hf, hfs⟩ => by
      have hle₁ := Laid.le hf
      have hle₂ := LaidAll.le hfs
      omega

end

/-! ## Growing tables -/

/-- Whatever the first tables hold is in the second at the same place. -/
structure Kept (s : Store) (t : SymbolTable) (s' : Store) (t' : SymbolTable) : Prop where
  cells : ∀ (i : Nat) c, s.cells[i]? = some c → s'.cells[i]? = some c
  vectors : ∀ (i : Nat) vs, s.vectors[i]? = some vs → s'.vectors[i]? = some vs
  texts : ∀ (i : Nat) x, s.texts[i]? = some x → s'.texts[i]? = some x
  bignums : ∀ (i : Nat) n, s.bignums[i]? = some n → s'.bignums[i]? = some n
  names : ∀ (i : Nat) x, t.names[i]? = some x → t'.names[i]? = some x

theorem Kept.refl (s : Store) (t : SymbolTable) : s.Kept t s t :=
  ⟨fun _ _ h => h, fun _ _ h => h, fun _ _ h => h, fun _ _ h => h, fun _ _ h => h⟩

theorem Kept.trans (h : s.Kept t s₁ t₁) (h' : s₁.Kept t₁ s' t') : s.Kept t s' t' where
  cells i c hc := h'.cells i c (h.cells i c hc)
  vectors i vs hv := h'.vectors i vs (h.vectors i vs hv)
  texts i x hx := h'.texts i x (h.texts i x hx)
  bignums i n hn := h'.bignums i n (h.bignums i n hn)
  names i x hx := h'.names i x (h.names i x hx)

theorem getElem?_push_of_some {α : Type} {xs : Array α} {x y : α} {i : Nat}
    (h : xs[i]? = some x) : (xs.push y)[i]? = some x := by
  have hi : i < xs.size := (Array.getElem?_eq_some_iff.1 h).1
  rw [Array.getElem?_push, if_neg (by omega)]
  exact h

theorem Kept.push_cell (s : Store) (t : SymbolTable) (c : Cell) :
    s.Kept t { s with cells := s.cells.push c } t :=
  { Kept.refl s t with cells := fun _ _ h => getElem?_push_of_some h }

theorem Kept.push_vector (s : Store) (t : SymbolTable) (vs : Array Value) :
    s.Kept t (s.newVector vs).2 t :=
  { Kept.refl s t with vectors := fun _ _ h => getElem?_push_of_some h }

theorem Kept.push_text (s : Store) (t : SymbolTable) (x : String) :
    s.Kept t (s.newText x).2 t :=
  { Kept.refl s t with texts := fun _ _ h => getElem?_push_of_some h }

theorem Kept.push_bignum (s : Store) (t : SymbolTable) (n : Int) :
    s.Kept t (s.newBignum n).2 t :=
  { Kept.refl s t with bignums := fun _ _ h => getElem?_push_of_some h }

theorem atom?_kept (hk : s.Kept t s' t') {a : Atom} {v : Value} (h : s.atom? t v = some a) :
    s'.atom? t' v = some a := by
  cases v with
  | big r =>
      simp only [atom?, Option.map_eq_some_iff] at h ⊢
      obtain ⟨n, hn, ha⟩ := h
      exact ⟨n, hk.bignums _ _ hn, ha⟩
  | text r =>
      simp only [atom?, Option.map_eq_some_iff] at h ⊢
      obtain ⟨x, hx, ha⟩ := h
      exact ⟨x, hk.texts _ _ hx, ha⟩
  | sym r =>
      simp only [atom?, Option.map_eq_some_iff] at h ⊢
      obtain ⟨x, hx, ha⟩ := h
      exact ⟨x, hk.names _ _ hx, ha⟩
  | _ => exact h

mutual

theorem Laid.kept (hk : s.Kept t s' t') : ∀ {f : Form} {v : Value} {e e' : Extent},
    s.Laid t f v e e' → s'.Laid t' f v e e'
  | .atom _, _, _, _, ⟨ha, he⟩ => ⟨atom?_kept hk ha, he⟩
  | .pair _ _, _, _, _, ⟨car, cdr, e₁, e₂, hb, ha, hv, hc, he⟩ =>
      ⟨car, cdr, e₁, e₂, Laid.kept hk hb, Laid.kept hk ha, hv, hk.cells _ _ hc, he⟩
  | .vector _, _, _, _, ⟨vs, e₁, hvs, hv, hc, he⟩ =>
      ⟨vs, e₁, LaidAll.kept hk hvs, hv, hk.vectors _ _ hc, he⟩

theorem LaidAll.kept (hk : s.Kept t s' t') : ∀ {fs : List Form} {vs : List Value} {e e' : Extent},
    s.LaidAll t fs vs e e' → s'.LaidAll t' fs vs e e'
  | [], _, _, _, h => h
  | _ :: _, _, _, _, ⟨v, vs', e₁, hvs, hf, hfs⟩ =>
      ⟨v, vs', e₁, hvs, Laid.kept hk hf, LaidAll.kept hk hfs⟩

end

theorem nil_of_atom? {v : Value} (h : s.atom? t v = some .nil) : v = .nil := by
  cases v with
  | nil => rfl
  | big r => simp [atom?] at h
  | text r => simp [atom?] at h
  | sym r => simp [atom?] at h
  | _ => cases h

theorem sym_of_atom? {name : String} {v : Value} (h : s.atom? t v = some (.sym name)) :
    ∃ r, v = .sym r ∧ t.names[r.index]? = some name := by
  cases v with
  | sym r =>
      simp only [atom?, Option.map_eq_some_iff, Atom.sym.injEq] at h
      obtain ⟨_, hr, rfl⟩ := h
      exact ⟨r, rfl, hr⟩
  | big r => simp [atom?] at h
  | text r => simp [atom?] at h
  | _ => simp [atom?] at h

mutual

/-- Every symbol of a form that is in the store has its name in the table. -/
theorem Laid.mem_names {name : String} : ∀ {f : Form} {v : Value} {e e' : Extent},
    s.Laid t f v e e' → .sym name ∈ f.atoms → name ∈ t.names.toList
  | .atom a, _, _, _, ⟨ha, _⟩, hmem => by
      simp only [Form.atoms, List.mem_singleton] at hmem
      subst hmem
      obtain ⟨r, -, hr⟩ := sym_of_atom? ha
      rw [Array.mem_toList_iff]
      exact Array.mem_of_getElem? hr
  | .pair _ _, _, _, _, ⟨_, _, _, _, hb, ha, _⟩, hmem => by
      simp only [Form.atoms, List.mem_append] at hmem
      cases hmem with
      | inl hmem => exact Laid.mem_names ha hmem
      | inr hmem => exact Laid.mem_names hb hmem
  | .vector _, _, _, _, ⟨_, _, hvs, _⟩, hmem => LaidAll.mem_names hvs hmem

theorem LaidAll.mem_names {name : String} : ∀ {fs : List Form} {vs : List Value} {e e' : Extent},
    s.LaidAll t fs vs e e' → .sym name ∈ Form.atomsAll fs → name ∈ t.names.toList
  | _ :: _, _, _, _, ⟨_, _, _, _, hf, hfs⟩, hmem => by
      simp only [Form.atomsAll, List.mem_append] at hmem
      cases hmem with
      | inl hmem => exact Laid.mem_names hf hmem
      | inr hmem => exact LaidAll.mem_names hfs hmem

end

end Store

/-! ## Symbol tables -/

namespace SymbolTable

/-- The table as interning makes it: no name twice, and the well-known ones first. -/
structure Sound (t : SymbolTable) : Prop where
  nodup : t.names.toList.Nodup
  known : Symbol.wellKnown <+: t.names.toList

/-- Every table is sound, as its tables belong together. -/
theorem sound (t : SymbolTable) : t.Sound where
  nodup := by
    refine List.pairwise_iff_getElem.2 fun i j hi hj hij heq => ?_
    have hsymbol : ∀ k (hk : k < t.names.toList.length),
        t.lookup? t.names.toList[k] = some ⟨k⟩ := by
      intro k hk
      rw [lookup?_eq_some_iff, ← Array.getElem?_toList]
      exact List.getElem?_eq_getElem hk
    have hsame := (hsymbol i hi).symm.trans ((congrArg t.lookup? heq).trans (hsymbol j hj))
    cases hsame
    exact Nat.lt_irrefl _ hij
  known := t.coherent.known

theorem sound_new : new.Sound := new.sound

/-- Interning a name gives the symbol that has it. -/
theorem name?_intern (t : SymbolTable) (name : String) :
    (t.intern name).2.names[(t.intern name).1.index]? = some name := by
  cases hname : t.lookup? name with
  | some r =>
      rw [intern_of_lookup?_eq_some hname]
      exact lookup?_eq_some_iff.1 hname
  | none =>
      obtain ⟨hsymbol, hnames⟩ := intern_of_lookup?_eq_none hname
      rw [hsymbol, hnames]
      exact Array.getElem?_push_size

theorem names_kept_intern (t : SymbolTable) (name : String) {i : Nat} {x : String}
    (h : t.names[i]? = some x) : (t.intern name).2.names[i]? = some x := by
  cases hname : t.lookup? name with
  | some r => rwa [intern_of_lookup?_eq_some hname]
  | none =>
      rw [(intern_of_lookup?_eq_none hname).2]
      exact Store.getElem?_push_of_some h

/-- Interning a name that has a symbol changes nothing. -/
theorem intern_of_mem {t : SymbolTable} {name : String} (h : name ∈ t.names.toList) :
    (t.intern name).2 = t := by
  cases hname : t.lookup? name with
  | some r => rw [intern_of_lookup?_eq_some hname]
  | none => exact absurd h (lookup?_eq_none_iff.1 hname)

/-- A sound table has one symbol for each name. -/
theorem Sound.eq_of_name? {t : SymbolTable} (h : t.Sound) {r r' : Symbol} {name : String}
    (hr : t.names[r.index]? = some name) (hr' : t.names[r'.index]? = some name) : r = r' := by
  rw [← Array.getElem?_toList] at hr hr'
  have hlt : r.index < t.names.toList.length := (List.getElem?_eq_some_iff.1 hr).1
  have hi : r.index = r'.index := (List.getElem?_inj hlt h.nodup).1 (hr.trans hr'.symm)
  cases r
  cases r'
  simp_all

/-- A well-known name has its place in every sound table. -/
theorem Sound.name?_known {t : SymbolTable} (h : t.Sound) {i : Nat}
    (hi : i < Symbol.wellKnown.length) : t.names[i]? = some (Symbol.wellKnown.get ⟨i, hi⟩) := by
  rw [← Array.getElem?_toList]
  exact List.prefix_iff_getElem?.1 h.known i hi

/-- The head of a quote form is the symbol with that name. -/
theorem Sound.eq_quote_iff {t : SymbolTable} (h : t.Sound) {r : Symbol} {name : String}
    (hr : t.names[r.index]? = some name) : r = Symbol.quote ↔ name = "quote" := by
  have hquote : t.names[Symbol.quote.index]? = some "quote" := h.name?_known (i := 0) (by decide)
  constructor
  · rintro rfl
    exact Option.some.inj (hr.symm.trans hquote)
  · rintro rfl
    exact h.eq_of_name? hr hquote

end SymbolTable

/-! ## Lowering -/

namespace Form

open Store

variable {s s' : Store} {t t' : SymbolTable}

mutual

/-- A form that was put into the store is spelled by its value, in new cells and vectors. -/
theorem lower_eq_ok : ∀ {f : Form} {s s' : Store} {t t' : SymbolTable} {v : Value},
    f.lower s t = (.ok v, s', t') →
    s.Kept t s' t' ∧ s'.Laid t' f v s.extent s'.extent ∧ (t.Sound → t'.Sound)
  | .atom .nil, _, _, _, _, _, h => by
      cases h
      exact ⟨.refl _ _, ⟨rfl, rfl⟩, id⟩
  | .atom (.number (.small n)), _, _, _, _, _, h => by
      cases h
      exact ⟨.refl _ _, ⟨rfl, rfl⟩, id⟩
  | .atom (.number (.double x)), _, _, _, _, _, h => by
      cases h
      exact ⟨.refl _ _, ⟨rfl, rfl⟩, id⟩
  | .atom (.number (.big n)), s, _, t, _, _, h => by
      cases h
      exact ⟨.push_bignum s t n, ⟨by simp [atom?], rfl⟩, id⟩
  | .atom (.text x), s, _, t, _, _, h => by
      cases h
      exact ⟨.push_text s t x, ⟨by simp [atom?], rfl⟩, id⟩
  | .atom (.sym name), s, _, t, _, _, h => by
      cases h
      have hk : s.Kept t s (t.intern name).2 :=
        { Kept.refl s t with names := fun _ _ h => t.names_kept_intern name h }
      have hsym : s.atom? (t.intern name).2 (.sym (t.intern name).1) = some (.sym name) := by
        rw [atom?, t.name?_intern name]
        rfl
      exact ⟨hk, ⟨hsym, rfl⟩, fun _ => (t.intern name).2.sound⟩
  | .pair a b, s, s', t, t', v, h => by
      rw [lower] at h
      split at h
      · rename_i cdr s₁ t₁ hb
        obtain ⟨hk₁, hl₁, hs₁⟩ := lower_eq_ok hb
        split at h
        · rename_i car s₂ t₂ ha
          obtain ⟨hk₂, hl₂, hs₂⟩ := lower_eq_ok ha
          split at h
          · rename_i w s₃ hc
            cases h
            obtain ⟨rfl, rfl⟩ := cons_eq_some hc
            have hk₃ := Kept.push_cell s₂ t' ⟨car, cdr⟩
            refine ⟨(hk₁.trans hk₂).trans hk₃, ?_, hs₂ ∘ hs₁⟩
            refine ⟨car, cdr, s₁.extent, s₂.extent, hl₁.kept (hk₂.trans hk₃), hl₂.kept hk₃, rfl,
              ?_, ?_⟩
            · simp [extent]
            · simp [extent]
          · simp at h
        · simp at h
      · simp at h
  | .vector items, s, s', t, t', v, h => by
      rw [lower] at h
      split at h
      · rename_i values s₁ t₁ hvs
        obtain ⟨hk₁, ⟨vs, hvals, hl₁⟩, hs₁⟩ := lowerAll_eq_ok hvs
        cases h
        have hk₂ := Kept.push_vector s₁ t' values
        refine ⟨hk₁.trans hk₂, ⟨values, s₁.extent, ?_, rfl, ?_, ?_⟩, hs₁⟩
        · rw [hvals]
          exact hl₁.kept hk₂
        · simp [extent]
        · simp [extent]
      · simp at h

theorem lowerAll_eq_ok : ∀ {fs : List Form} {s s' : Store} {t t' : SymbolTable}
    {values values' : Array Value},
    lowerAll s t fs values = (.ok values', s', t') →
    s.Kept t s' t' ∧ (∃ vs, values'.toList = values.toList ++ vs ∧
      s'.LaidAll t' fs vs s.extent s'.extent) ∧ (t.Sound → t'.Sound)
  | [], _, _, _, _, values, _, h => by
      cases h
      exact ⟨.refl _ _, ⟨[], by simp, rfl, rfl⟩, id⟩
  | f :: fs, s, s', t, t', values, values', h => by
      rw [lowerAll] at h
      split at h
      · rename_i v s₁ t₁ hf
        obtain ⟨hk₁, hl₁, hs₁⟩ := lower_eq_ok hf
        obtain ⟨hk₂, ⟨vs, hvals, hl₂⟩, hs₂⟩ := lowerAll_eq_ok h
        refine ⟨hk₁.trans hk₂, ⟨v :: vs, ?_, v, vs, s₁.extent, rfl, hl₁.kept hk₂, hl₂⟩,
          hs₂ ∘ hs₁⟩
        rw [hvals]
        simp
      · simp at h

end

mutual

/-- A form without marks can be put into any store with a cell for each pair, and if its symbols
have their names in the table already, then the table stays as it is. -/
theorem lower_total : ∀ {f : Form} {s : Store} {t : SymbolTable},
    f.Unmarked → (∀ name, .sym name ∈ f.atoms → name ∈ t.names.toList) →
    s.cells.size + f.pairs ≤ s.capacity →
    ∃ v s', f.lower s t = (.ok v, s', t) ∧ s'.capacity = s.capacity ∧
      s'.cells.size = s.cells.size + f.pairs
  | .atom .nil, s, _, _, _, _ => ⟨_, s, rfl, rfl, rfl⟩
  | .atom (.number (.small _)), s, _, _, _, _ => ⟨_, s, rfl, rfl, rfl⟩
  | .atom (.number (.double _)), s, _, _, _, _ => ⟨_, s, rfl, rfl, rfl⟩
  | .atom (.number (.big _)), _, _, _, _, _ => ⟨_, _, rfl, rfl, rfl⟩
  | .atom (.text x), s, t, _, _, _ => ⟨_, _, rfl, rfl, rfl⟩
  | .atom (.sym name), s, t, _, hname, _ => by
      have ht : (t.intern name).2 = t := SymbolTable.intern_of_mem (hname name (by simp [atoms]))
      refine ⟨.sym (t.intern name).1, s, ?_, rfl, rfl⟩
      rw [lower]
      simp [ht]
  | .pair a b, s, t, ⟨ha, hb⟩, hname, hroom => by
      have hna : ∀ name, .sym name ∈ a.atoms → name ∈ t.names.toList :=
        fun name h => hname name (by simp [atoms, h])
      have hnb : ∀ name, .sym name ∈ b.atoms → name ∈ t.names.toList :=
        fun name h => hname name (by simp [atoms, h])
      simp only [pairs] at hroom
      obtain ⟨cdr, s₁, hl₁, hcap₁, hsize₁⟩ := lower_total (s := s) hb hnb (by omega)
      obtain ⟨car, s₂, hl₂, hcap₂, hsize₂⟩ := lower_total (s := s₁) ha hna (by omega)
      have hlt : s₂.cells.size < s₂.capacity := by omega
      refine ⟨.pair ⟨s₂.cells.size⟩, { s₂ with cells := s₂.cells.push ⟨car, cdr⟩ }, ?_, ?_, ?_⟩
      · simp [lower, hl₁, hl₂, Store.cons, hlt]
      · simp [hcap₂, hcap₁]
      · simp only [Array.size_push, pairs]
        omega
  | .vector items, s, t, hu, hname, hroom => by
      obtain ⟨values, s₁, hl, hcap, hsize⟩ := @lowerAll_total items s t #[] hu hname hroom
      exact ⟨(s₁.newVector values).1, (s₁.newVector values).2, by simp [lower, hl], hcap, hsize⟩

theorem lowerAll_total : ∀ {fs : List Form} {s : Store} {t : SymbolTable} {values : Array Value},
    UnmarkedAll fs → (∀ name, .sym name ∈ atomsAll fs → name ∈ t.names.toList) →
    s.cells.size + pairsAll fs ≤ s.capacity →
    ∃ values' s', lowerAll s t fs values = (.ok values', s', t) ∧ s'.capacity = s.capacity ∧
      s'.cells.size = s.cells.size + pairsAll fs
  | [], s, _, values, _, _, _ => ⟨values, s, rfl, rfl, rfl⟩
  | f :: fs, s, t, values, ⟨hf, hfs⟩, hname, hroom => by
      have hnf : ∀ name, .sym name ∈ f.atoms → name ∈ t.names.toList :=
        fun name h => hname name (by simp [atomsAll, h])
      have hnfs : ∀ name, .sym name ∈ atomsAll fs → name ∈ t.names.toList :=
        fun name h => hname name (by simp [atomsAll, h])
      simp only [pairsAll] at hroom
      obtain ⟨v, s₁, hl₁, hcap₁, hsize₁⟩ := lower_total (s := s) hf hnf (by omega)
      obtain ⟨values', s₂, hl₂, hcap₂, hsize₂⟩ :=
        @lowerAll_total fs s₁ t (values.push v) hfs hnfs (by omega)
      refine ⟨values', s₂, ?_, by omega, ?_⟩
      · simp [lowerAll, hl₁, hl₂]
      · simp only [pairsAll]
        omega

end

end Form

end SmallLisp
