import SmallLisp.Proofs.Conservation.State

/-!
# Interning

Symbols stand for names, so that comparing symbols compares names; for that no name may have two
symbols and no symbol two names, whatever was interned and looked up before. The symbols by name,
the names by symbol and the flags are three tables, of which interning changes all or none. What it
keeps is that they belong together. The rest follows from what the table of names is after any
operations: the names that were interned, behind those that the language knows, each once and in the
order of first sight.
-/

namespace SmallLisp

/-! ## Operations -/

/-- An operation on the tables of names. -/
inductive NameOp where
  | intern (name : String)
  | lookup (name : String)
deriving DecidableEq

namespace NameOp

/-- Run an operation: the symbol that it gives, if any, and the tables after it. -/
def run (t : NameTables) : NameOp → Option Symbol × NameTables
  | .intern name => (some (t.intern name).1, (t.intern name).2)
  | .lookup name => (t.lookup? name, t)

/-- Run operations in order: what each of them gives, and the tables after all. -/
def runAll (t : NameTables) : List NameOp → List (Option Symbol) × NameTables
  | [] => ([], t)
  | op :: ops =>
      let after := runAll (op.run t).2 ops
      ((op.run t).1 :: after.1, after.2)

/-- The name that an operation interns, if it does. -/
def interned? : NameOp → Option String
  | .intern name => some name
  | .lookup _ => none

/-- The names that there are after operations on new tables, in the order of first sight. -/
def order (ops : List NameOp) : List String :=
  (Symbol.wellKnown ++ ops.filterMap interned?).eraseDups

end NameOp

/-! ## One operation -/

namespace SymbolTable

variable {t : SymbolTable} {x : Symbol} {a : String}

/-- A symbol is the place of its name. -/
theorem eq_idxOf (hx : t.names[x.index]? = some a) : x = ⟨t.names.toList.idxOf a⟩ := by
  have hmem : a ∈ t.names.toList := Array.mem_toList_iff.2 (Array.mem_of_getElem? hx)
  have hplace : t.names[t.names.toList.idxOf a]? = some a := by
    rw [← Array.getElem?_toList]
    exact List.getElem?_eq_some_iff.2
      ⟨List.idxOf_lt_length_iff.2 hmem, List.getElem_idxOf (List.idxOf_lt_length_iff.2 hmem)⟩
  exact t.sound.eq_of_name? hx hplace

/-- A name that the table does not have is added at its end. -/
theorem names_intern (t : SymbolTable) (a : String) :
    (t.intern a).2.names.toList = t.names.toList ++ [a].removeAll t.names.toList := by
  by_cases ha : a ∈ t.names.toList
  · rw [intern_of_mem ha]
    simp [List.cons_removeAll, ha]
  · rw [(intern_of_lookup?_eq_none (lookup?_eq_none_iff.2 ha)).2]
    simp [List.cons_removeAll, ha]

/-- There is something after a colon in front if the name takes more than the one byte of it. -/
theorem isColonName_iff :
    isColonName a = true ↔ 1 < a.utf8ByteSize ∧ a.toList.head? = some ':' := by
  obtain ⟨cs, rfl⟩ : ∃ cs, a = String.ofList cs := ⟨a.toList, String.ofList_toList.symm⟩
  rw [isColonName, String.toList_ofList]
  match cs with
  | [] => simp
  | [c] =>
      have hcolon : ':'.utf8Size = 1 := rfl
      suffices h : ¬ (1 < c.utf8Size ∧ c = ':') by simpa using h
      rintro ⟨hsize, rfl⟩
      omega
  | c :: d :: cs =>
      have hc := c.utf8Size_pos
      have hd := d.utf8Size_pos
      have hsize : 1 < (String.ofList (c :: d :: cs)).utf8ByteSize := by
        simp only [String.ofList_cons, String.utf8ByteSize_append, String.utf8ByteSize_singleton]
        omega
      simp only [hsize, true_and, List.head?_cons, Option.some.injEq]
      split <;> simp_all

end SymbolTable

/-! ## Any operations -/

namespace NameOp

variable {t : NameTables} {ops : List NameOp} {op : NameOp} {i : Nat}

/-- The tables belong together after an operation if they did so before. -/
theorem coherent_run (ht : t.Coherent) (op : NameOp) : (op.run t).2.Coherent := by
  cases op with
  | intern a => exact ht.intern a
  | lookup a => exact ht

/-- The tables belong together after any operations. -/
theorem coherent_runAll (ht : t.Coherent) (ops : List NameOp) : (runAll t ops).2.Coherent := by
  induction ops generalizing t with
  | nil => exact ht
  | cons op ops ih => exact ih (coherent_run ht op)

theorem coherent_runAll_new (ops : List NameOp) : (runAll .new ops).2.Coherent :=
  coherent_runAll NameTables.coherent_new ops

/-- The table of a run that went through these operations. -/
abbrev table (ops : List NameOp) : SymbolTable := ⟨(runAll .new ops).2, coherent_runAll_new ops⟩

theorem runAll_append (t : NameTables) (ops ops' : List NameOp) :
    runAll t (ops ++ ops') =
      ((runAll t ops).1 ++ (runAll (runAll t ops).2 ops').1, (runAll (runAll t ops).2 ops').2) := by
  induction ops generalizing t with
  | nil => rfl
  | cons op ops ih => simp [runAll, ih]

/-- What an operation gives depends on those before it only. -/
theorem getElem?_runAll (t : NameTables) (ops : List NameOp) (i : Nat) :
    (runAll t ops).1[i]? = (ops[i]?).map fun op => (op.run (runAll t (ops.take i)).2).1 := by
  induction ops generalizing t i with
  | nil => rfl
  | cons op ops ih =>
      cases i with
      | zero => rfl
      | succ i => simp [runAll, ih]

theorem isPrefix_run (ht : t.Coherent) (op : NameOp) :
    t.names.toList <+: (op.run t).2.names.toList := by
  cases op with
  | intern a => exact SymbolTable.isPrefix_intern ⟨t, ht⟩ a
  | lookup a => exact List.prefix_rfl

/-- Names are only ever added. -/
theorem isPrefix_runAll (ht : t.Coherent) (ops : List NameOp) :
    t.names.toList <+: (runAll t ops).2.names.toList := by
  induction ops generalizing t with
  | nil => exact List.prefix_rfl
  | cons op ops ih => exact (isPrefix_run ht op).trans (ih (coherent_run ht op))

theorem isPrefix_runAll_take (ops : List NameOp) (i : Nat) :
    (runAll .new (ops.take i)).2.names.toList <+: (runAll .new ops).2.names.toList := by
  conv_rhs => rw [← ops.take_append_drop i, runAll_append]
  exact isPrefix_runAll (coherent_runAll_new _) _

theorem names_run {names : List String} (ht : t.Coherent) (h : t.names.toList = names.eraseDups)
    (op : NameOp) :
    (op.run t).2.names.toList = (names ++ op.interned?.toList).eraseDups := by
  cases op with
  | intern a =>
      have hnew : [a].removeAll names.eraseDups = ([a].removeAll names).eraseDups := by
        by_cases ha : a ∈ names <;>
          simp [List.cons_removeAll, List.mem_eraseDups, List.eraseDups_cons, ha]
      have hnames : (t.intern a).2.names.toList = (names ++ [a]).eraseDups := by
        rw [show (t.intern a).2.names.toList = t.names.toList ++ [a].removeAll t.names.toList from
          SymbolTable.names_intern ⟨t, ht⟩ a, h, hnew, List.eraseDups_append]
      exact hnames
  | lookup a => simpa [run, interned?] using h

/-- The names that were interned are added in the order of first sight. -/
theorem names_runAll {names : List String} (ht : t.Coherent)
    (h : t.names.toList = names.eraseDups) (ops : List NameOp) :
    (runAll t ops).2.names.toList = (names ++ ops.filterMap interned?).eraseDups := by
  induction ops generalizing t names with
  | nil =>
      rw [List.filterMap_nil, List.append_nil]
      exact h
  | cons op ops ih =>
      have hrest := ih (coherent_run ht op) (names_run ht h op)
      rw [List.append_assoc] at hrest
      rw [List.filterMap_cons]
      cases hop : op.interned? <;> simpa [hop, runAll] using hrest

theorem names_runAll_new (ops : List NameOp) : (runAll .new ops).2.names.toList = order ops :=
  names_runAll NameTables.coherent_new (by decide) ops

/-- What interning any names and looking any names up comes to. The symbols that the operations give
are `answers`, and `t` has the tables after them. -/
structure Interns (ops : List NameOp) (answers : List (Option Symbol)) (t : NameTables) : Prop where
  /-- At every point the table of symbols by name and the table of names by symbol are inverse. -/
  inverse : ∀ (k : Nat) (a : String) (x : Symbol),
    (runAll .new (ops.take k)).2.lookup? a = some x ↔
      (runAll .new (ops.take k)).2.names[x.index]? = some a
  /-- At every point there is a flag for each symbol. -/
  flags : ∀ k, (runAll .new (ops.take k)).2.keywords.size = (runAll .new (ops.take k)).2.names.size
  /-- The symbols have no gaps, and are in the order in which their names were seen first. -/
  names : t.names.toList = order ops
  /-- Interning a name gives the symbol at its place in that order. -/
  intern : ∀ (i : Nat) (a : String), ops[i]? = some (.intern a) →
    answers[i]? = some (some ⟨(order ops).idxOf a⟩)
  /-- The symbol that interning a name gives has that name for good. -/
  name_intern : ∀ (i : Nat) (a : String) (x : Symbol), ops[i]? = some (.intern a) →
    answers[i]? = some (some x) → ∀ k, i < k → (runAll .new (ops.take k)).2.name x = a
  /-- Two names have one symbol exactly if they are the same name. -/
  intern_eq_iff : ∀ (i j : Nat) (a b : String), ops[i]? = some (.intern a) →
    ops[j]? = some (.intern b) → (answers[i]? = answers[j]? ↔ a = b)
  /-- Looking a name up finds the symbol that interning it gives, and that exactly if it was
  interned before or the language knows it. -/
  lookup : ∀ (i : Nat) (a : String), ops[i]? = some (.lookup a) → answers[i]? =
    some (if a ∈ Symbol.wellKnown ∨ .intern a ∈ ops.take i then some ⟨(order ops).idxOf a⟩
      else none)
  /-- Looking a name up changes nothing. -/
  table_lookup : ∀ (i : Nat) (a : String), ops[i]? = some (.lookup a) →
    (runAll .new (ops.take (i + 1))).2 = (runAll .new (ops.take i)).2
  /-- A symbol keeps its name, and whether it is a keyword. -/
  kept : ∀ (k : Nat) (x : Symbol), x.index < (runAll .new (ops.take k)).2.size →
    t.name x = (runAll .new (ops.take k)).2.name x ∧
      t.isKeyword x = (runAll .new (ops.take k)).2.isKeyword x
  /-- The keywords are the names of the special forms, and those that start with a colon and take
  more than one byte. -/
  isKeyword : ∀ x : Symbol, x.index < t.size → (t.isKeyword x = true ↔
    t.name x ∈ Symbol.wellKnown.take Symbol.specialCount ∨
      1 < (t.name x).utf8ByteSize ∧ (t.name x).toList.head? = some ':')

/-- A name that has a symbol at some point has the one at its place in the order of all names. -/
theorem eq_place {x : Symbol} {a : String}
    (hx : (runAll .new (ops.take i)).2.names[x.index]? = some a) : x = ⟨(order ops).idxOf a⟩ := by
  have hlater := getElem?_of_isPrefix (isPrefix_runAll_take ops i) hx
  rw [← names_runAll_new]
  exact SymbolTable.eq_idxOf (t := table ops) hlater

theorem take_succ_of_getElem? (h : ops[i]? = some op) :
    (runAll t (ops.take (i + 1))).2 = (op.run (runAll t (ops.take i)).2).2 := by
  rw [List.take_add_one, h, runAll_append]
  rfl

/-- What interning gives, and that it is in the table from then on. -/
theorem getElem?_runAll_intern {a : String} (h : ops[i]? = some (.intern a)) :
    (runAll .new ops).1[i]? = some (some ⟨(order ops).idxOf a⟩) ∧
      (runAll .new (ops.take (i + 1))).2.names[(order ops).idxOf a]? = some a := by
  have hafter := take_succ_of_getElem? (t := .new) h
  have hname : (runAll .new (ops.take (i + 1))).2.names[
      ((runAll .new (ops.take i)).2.intern a).1.index]? = some a := by
    rw [hafter]
    exact (table (ops.take i)).name?_intern a
  have hplace := eq_place hname
  refine ⟨?_, ?_⟩
  · rw [getElem?_runAll, h, Option.map_some, run, hplace]
  · rw [hplace] at hname
    exact hname

theorem mem_names_runAll_take {a : String} :
    a ∈ (runAll .new (ops.take i)).2.names.toList ↔
      a ∈ Symbol.wellKnown ∨ .intern a ∈ ops.take i := by
  rw [names_runAll_new, order, List.mem_eraseDups, List.mem_append, List.mem_filterMap]
  refine or_congr_right ⟨?_, fun h => ⟨_, h, rfl⟩⟩
  rintro ⟨op, hop, ha⟩
  cases op with
  | intern b =>
      cases ha
      exact hop
  | lookup b => cases ha

/-- What looking a name up gives. -/
theorem getElem?_runAll_lookup {a : String} (h : ops[i]? = some (.lookup a)) :
    (runAll .new ops).1[i]? = some (if a ∈ Symbol.wellKnown ∨ .intern a ∈ ops.take i
      then some ⟨(order ops).idxOf a⟩ else none) := by
  rw [getElem?_runAll, h, Option.map_some, run]
  cases hx : (runAll .new (ops.take i)).2.lookup? a with
  | none =>
      have hunseen := (SymbolTable.lookup?_eq_none_iff (t := table (ops.take i))).1 hx
      rw [if_neg (mem_names_runAll_take.not.1 hunseen)]
  | some x =>
      have hname := (SymbolTable.lookup?_eq_some_iff (t := table (ops.take i))).1 hx
      have hmem := Array.mem_toList_iff.2 (Array.mem_of_getElem? hname)
      rw [if_pos (mem_names_runAll_take.1 hmem), eq_place hname]

/-- Interning is a stable bijection. Whatever names are interned and looked up on new tables, in
whatever order, the tables stay inverse to each other, so names and symbols belong to each other one
to one; symbols are numbered in the order in which their names were seen first, keep their names,
and are found again by them; and the symbols flagged as keywords are those of the special forms and
of the names that start with a colon and go on. -/
theorem interning_is_stable_bijection (ops : List NameOp) :
    Interns ops (runAll .new ops).1 (runAll .new ops).2 where
  inverse k := (coherent_runAll_new (ops.take k)).lookup?_eq_some_iff
  flags k := (coherent_runAll_new (ops.take k)).size_keywords
  names := names_runAll_new ops
  intern i a h := (getElem?_runAll_intern h).1
  name_intern i a x h hx k hk := by
    obtain ⟨hanswer, hname⟩ := getElem?_runAll_intern h
    rw [hanswer] at hx
    cases hx
    have hkept := isPrefix_runAll_take (ops.take k) (i + 1)
    rw [List.take_take, Nat.min_eq_left hk] at hkept
    exact getD_of_getElem? (getElem?_of_isPrefix hkept hname) ""
  intern_eq_iff i j a b ha hb := by
    have hmem : a ∈ order ops := by
      have hplace := (getElem?_runAll_intern ha).2
      have hlater := getElem?_of_isPrefix (isPrefix_runAll_take ops (i + 1)) hplace
      rw [← names_runAll_new]
      exact Array.mem_toList_iff.2 (Array.mem_of_getElem? hlater)
    rw [(getElem?_runAll_intern ha).1, (getElem?_runAll_intern hb).1]
    simp [List.idxOf_inj hmem]
  lookup i a h := getElem?_runAll_lookup h
  table_lookup i a h := take_succ_of_getElem? h
  kept k x hx := by
    have hprefix := isPrefix_runAll_take ops k
    exact ⟨@SymbolTable.name_of_isPrefix (table (ops.take k)) (table ops) x hprefix hx,
      @SymbolTable.isKeyword_of_isPrefix (table (ops.take k)) (table ops) x hprefix hx⟩
  isKeyword x hx := by
    rw [← SymbolTable.isColonName_iff]
    exact (table ops).sound.isKeyword_iff hx

/-- A name is not found before it is interned, and has one symbol from then on. -/
example : (runAll .new
    [.intern "size", .lookup ":size", .intern ":size", .intern "size", .lookup "quote"]).1 =
    [some ⟨17⟩, none, some ⟨18⟩, some ⟨17⟩, some Symbol.quote] := by cbv

end NameOp

end SmallLisp
