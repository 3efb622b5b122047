/-!
# References and symbols

What stands for a thing that is kept in a table, and the first of these tables, that of names.
-/

/-!
## References

Everything larger than a word lives in a table and is named by its index there; `Ref` keeps the
indices of different tables apart.
-/

namespace SmallLisp

/-- The tables a reference can point into. -/
inductive Table where
  | symbol
  | cell
  | text
  | bignum
  | vector
  | promise
  | callable
  | dummy
  | failure
deriving DecidableEq, Repr

/-- An index into one of the tables. -/
structure Ref (t : Table) where
  index : Nat
deriving DecidableEq, Repr

/-!
## Symbols

Symbols are interned: each name has one index, given in order of first sight, so that comparing
indices compares names. The names that the language itself knows come first.
-/

/-- The name of a symbol by its index. -/
abbrev Symbol := Ref .symbol

namespace Symbol

/-- The names every table starts with, in order. The first `specialCount` of them head special
forms. -/
def wellKnown : List String :=
  ["quote", "progn", "cond", "setq", "lambda", "macro", "catch", "unwind-protect", "delay",
    "&rest", "t", "*error*", "*version*", "*eof*", "list", "cons", "append"]

/-- How many of the well-known names head special forms. -/
def specialCount : Nat := 9

def quote : Symbol := ⟨0⟩
def progn : Symbol := ⟨1⟩
def cond : Symbol := ⟨2⟩
def setq : Symbol := ⟨3⟩
def lambda : Symbol := ⟨4⟩
def expander : Symbol := ⟨5⟩
def catching : Symbol := ⟨6⟩
def unwindProtect : Symbol := ⟨7⟩
def delay : Symbol := ⟨8⟩
def rest : Symbol := ⟨9⟩
def t : Symbol := ⟨10⟩
def error : Symbol := ⟨11⟩
def version : Symbol := ⟨12⟩
def eof : Symbol := ⟨13⟩

end Symbol

/-- Names that evaluate to themselves by their spelling: a colon and something after it. -/
def SymbolTable.isColonName (name : String) : Bool :=
  match name.toList with
  | ':' :: _ :: _ => true
  | _ => false

/-- Names that stand for a variable private to one macro definition. -/
def SymbolTable.isDummyName (name : String) : Bool :=
  match name.toList with
  | '$' :: _ => true
  | _ => false

/-! ## The tables -/

/-- What is known of names and symbols: the symbol of each name, and for each symbol, at its index,
its name and whether it is a keyword. Keywords are the heads of special forms and the colon names;
none can be a variable. -/
structure NameTables where
  /-- The symbol of each name; of two entries for a name the one in front counts. -/
  ids : List (String × Symbol)
  names : Array String
  keywords : Array Bool

namespace NameTables

/-- No names. -/
def empty : NameTables := ⟨[], #[], #[]⟩

/-- The number of names that have a symbol. -/
def size (t : NameTables) : Nat := t.names.size

/-- The symbol of a name, if it was interned before. -/
def lookup? (t : NameTables) (name : String) : Option Symbol := t.ids.lookup name

/-- The name of a symbol. -/
def name (t : NameTables) (s : Symbol) : String := t.names.getD s.index ""

/-- Whether a symbol is flagged as a keyword. -/
def isKeyword (t : NameTables) (s : Symbol) : Bool := t.keywords.getD s.index false

/-- Whether a symbol stands for a variable private to one macro definition. -/
def isDummy (t : NameTables) (s : Symbol) : Bool := SymbolTable.isDummyName (t.name s)

/-- Give a name the next symbol, which is a keyword if the name is spelled as one. -/
def push (t : NameTables) (name : String) : Symbol × NameTables :=
  (⟨t.size⟩,
    { ids := (name, ⟨t.size⟩) :: t.ids
      names := t.names.push name
      keywords := t.keywords.push (SymbolTable.isColonName name) })

/-- Flag a symbol as a keyword. -/
def setKeyword (t : NameTables) (s : Symbol) : NameTables :=
  { t with keywords := t.keywords.setIfInBounds s.index true }

/-- Add the well-known name that stands at the place `i`, a keyword if it heads a special form. -/
def pushKnown (t : NameTables) (known : String × Nat) : NameTables :=
  let (s, t) := t.push known.1
  if known.2 < Symbol.specialCount then t.setKeyword s else t

/-- The tables with the well-known names only. -/
def new : NameTables := Symbol.wellKnown.zipIdx.foldl pushKnown empty

/-- The symbol of a name, given to it now if it has none. -/
def intern (t : NameTables) (name : String) : Symbol × NameTables :=
  match t.lookup? name with
  | some s => (s, t)
  | none => t.push name

/-! ## Tables that belong together -/

/-- The tables belong together: the symbol of a name is the one place at which the name stands, each
symbol has its flag, and the flags are those of the special forms and of the colon names. -/
structure Coherent (t : NameTables) : Prop where
  /-- The table from names to symbols and the one from symbols to names are inverse. -/
  lookup?_eq_some_iff : ∀ name s, t.lookup? name = some s ↔ t.names[s.index]? = some name
  /-- There is a flag for each symbol. -/
  size_keywords : t.keywords.size = t.size
  /-- The flags are right. -/
  isKeyword_eq : ∀ s, t.isKeyword s =
    (decide (s.index < Symbol.specialCount) || SymbolTable.isColonName (t.name s))
  /-- The names that the language knows come first. -/
  known : Symbol.wellKnown <+: t.names.toList

theorem coherent_new : new.Coherent where
  lookup?_eq_some_iff name s := by
    have hid : ∀ e ∈ new.ids, new.names[e.2.index]? = some e.1 := by decide
    have hname : ∀ i : Fin new.names.size, new.lookup? new.names[i] = some ⟨i⟩ := by decide
    constructor
    · intro h
      obtain ⟨before, after, hids, -⟩ := List.lookup_eq_some_iff.1 h
      exact hid (name, s) (hids ▸ List.mem_append_right before List.mem_cons_self)
    · intro h
      obtain ⟨hlt, rfl⟩ := Array.getElem?_eq_some_iff.1 h
      exact hname ⟨s.index, hlt⟩
  size_keywords := by decide
  isKeyword_eq s := by
    have hflag : ∀ i : Fin new.names.size, new.isKeyword ⟨i⟩ =
        (decide (i < Symbol.specialCount) || SymbolTable.isColonName (new.name ⟨i⟩)) := by decide
    by_cases hlt : s.index < new.names.size
    · exact hflag ⟨s.index, hlt⟩
    · have hsize : new.keywords.size = new.names.size := by decide
      have hspecial : ¬ s.index < Symbol.specialCount := fun h => hlt (Nat.lt_trans h (by decide))
      have hcolon : SymbolTable.isColonName "" = false := by decide
      simp [isKeyword, name, Array.getD, hlt, hsize, hspecial, hcolon]
  known := by decide

variable {t : NameTables} {a : String}

/-- The name that was added has the symbol that was given to it, the others the one they had. -/
theorem lookup?_push (t : NameTables) (a b : String) :
    (t.push a).2.lookup? b = if b = a then some ⟨t.size⟩ else t.lookup? b := by
  by_cases hb : b = a
  · simp [push, lookup?, hb]
  · simp [push, lookup?, List.lookup_cons, beq_false_of_ne hb, hb]

theorem getElem?_names_push (t : NameTables) (a : String) (i : Nat) :
    (t.push a).2.names[i]? = if i = t.size then some a else t.names[i]? := by
  rw [push, Array.getElem?_push]
  rfl

theorem name_push (t : NameTables) (a : String) (s : Symbol) :
    (t.push a).2.name s = if s.index = t.size then a else t.name s := by
  rw [name, name, Array.getD_eq_getD_getElem?, getElem?_names_push, Array.getD_eq_getD_getElem?]
  split <;> rfl

/-- A name that has no symbol can be given the next one. -/
theorem Coherent.push (h : t.Coherent) (ha : t.lookup? a = none) : (t.push a).2.Coherent where
  lookup?_eq_some_iff b s := by
    rw [lookup?_push, getElem?_names_push]
    have hold := h.lookup?_eq_some_iff b s
    by_cases hb : b = a <;> by_cases hs : s.index = t.size
    · simp [hb, ← hs]
    · have hne : (⟨t.size⟩ : Symbol) ≠ s := fun heq => hs (heq ▸ rfl)
      rw [hb, ha] at hold
      simpa [hb, hs, hne] using hold
    · have hpast : t.names[s.index]? = none := Array.getElem?_eq_none (Nat.le_of_eq hs.symm)
      rw [hpast] at hold
      rw [if_neg hb, if_pos hs, hold]
      simp [Ne.symm hb]
    · simpa [hb, hs] using hold
  size_keywords := by simp [NameTables.push, size, h.size_keywords]
  isKeyword_eq s := by
    have hlong : Symbol.specialCount < t.size := Nat.lt_of_lt_of_le (by decide) h.known.length_le
    have hflags : (t.push a).2.isKeyword s =
        if s.index = t.size then SymbolTable.isColonName a else t.isKeyword s := by
      rw [isKeyword, isKeyword, NameTables.push, Array.getD_eq_getD_getElem?, Array.getElem?_push,
        h.size_keywords, Array.getD_eq_getD_getElem?]
      split <;> rfl
    rw [hflags, name_push]
    by_cases hs : s.index = t.size
    · have hspecial : ¬ s.index < Symbol.specialCount := by omega
      rw [if_pos hs, if_pos hs, decide_eq_false hspecial, Bool.false_or]
    · rw [if_neg hs, if_neg hs, h.isKeyword_eq]
  known := by
    have hnames : (t.push a).2.names.toList = t.names.toList ++ [a] := Array.toList_push
    exact hnames ▸ h.known.trans (List.prefix_append _ _)

/-- Whatever is interned, the tables belong together. -/
theorem Coherent.intern (h : t.Coherent) (a : String) : (t.intern a).2.Coherent := by
  unfold NameTables.intern
  cases ha : t.lookup? a with
  | some s => exact h
  | none => exact h.push ha

end NameTables

/-! ## The table of a run -/

/-- The interned names, in tables that belong together. -/
structure SymbolTable extends NameTables where
  coherent : toNameTables.Coherent

namespace SymbolTable

/-- The table with the well-known names only. -/
def new : SymbolTable := ⟨.new, NameTables.coherent_new⟩

/-- The symbol of a name, given to it now if it has none. -/
def intern (t : SymbolTable) (name : String) : Symbol × SymbolTable :=
  ((t.toNameTables.intern name).1, ⟨(t.toNameTables.intern name).2, t.coherent.intern name⟩)

/-- The table in which names were interned, one after the other. -/
def ofNames (names : List String) : SymbolTable := names.foldl (fun t name => (t.intern name).2) new

variable {t : SymbolTable} {a : String} {s : Symbol}

theorem intern_of_lookup?_eq_some (h : t.lookup? a = some s) : t.intern a = (s, t) := by
  have htables : t.toNameTables.intern a = (s, t.toNameTables) := by rw [NameTables.intern, h]
  simp only [intern, htables]

theorem intern_of_lookup?_eq_none (h : t.lookup? a = none) :
    (t.intern a).1 = ⟨t.size⟩ ∧ (t.intern a).2.names = t.names.push a := by
  have htables : t.toNameTables.intern a = t.push a := by rw [NameTables.intern, h]
  simp only [intern, htables, NameTables.push, and_self]

theorem isKeyword_eq (t : SymbolTable) (s : Symbol) :
    t.isKeyword s = (decide (s.index < Symbol.specialCount) || isColonName (t.name s)) :=
  t.coherent.isKeyword_eq s

/-- The heads of special forms are keywords in every table. -/
theorem isKeyword_of_special (t : SymbolTable) (h : s.index < Symbol.specialCount) :
    t.isKeyword s = true := by
  rw [isKeyword_eq, decide_eq_true h, Bool.true_or]

theorem lookup?_eq_some_iff : t.lookup? a = some s ↔ t.names[s.index]? = some a :=
  t.coherent.lookup?_eq_some_iff a s

theorem lookup?_eq_none_iff : t.lookup? a = none ↔ a ∉ t.names.toList := by
  rw [Option.eq_none_iff_forall_ne_some, Array.mem_toList_iff, Array.mem_iff_getElem?,
    not_exists]
  exact ⟨fun h i hi => h ⟨i⟩ (lookup?_eq_some_iff.2 hi), fun h s hs => h s.index
    (lookup?_eq_some_iff.1 hs)⟩

end SymbolTable

end SmallLisp
