import SmallLisp.Proofs.Promises
import SmallLisp.Proofs.Reading.Layout
import SmallLisp.Proofs.Soundness.Regime

/-!
# Tidy states, and what is kept of them

A tidy state is a sound one in which each thing has one form: a promise is never delivered with a
promise, an integer that fits in a word is never kept in the table of wide ones, no name has two
symbols, and what must not be a variable is not bound.

Of a tidy state most is kept for good: texts, wide integers, callables, stand-ins, failures and
names only get more. What can be overwritten is kept as far as it is in a place that is left alone,
except that a promise in a cell may give way to its value.
-/

namespace SmallLisp

/-! ## Tables that grow -/

theorem getElem?_of_isPrefix {α : Type} {xs ys : Array α} (h : xs.toList <+: ys.toList) {i : Nat}
    {x : α} (hx : xs[i]? = some x) : ys[i]? = some x := by
  rw [← Array.getElem?_toList] at hx ⊢
  obtain ⟨hlt, rfl⟩ := List.getElem?_eq_some_iff.1 hx
  exact List.prefix_iff_getElem?.1 h i hlt

theorem getD_of_isPrefix {α : Type} {xs ys : Array α} (h : xs.toList <+: ys.toList) {i : Nat}
    (hi : i < xs.size) (d : α) : ys.getD i d = xs.getD i d := by
  have hx : xs[i]? = some (xs.getD i d) := getElem?_of_lt hi d
  exact getD_of_getElem? (getElem?_of_isPrefix h hx) d

namespace SymbolTable

variable {t t' : SymbolTable} {x : Symbol}

theorem isPrefix_intern (t : SymbolTable) (name : String) :
    t.names.toList <+: (t.intern name).2.names.toList := by
  cases hname : t.lookup? name with
  | some x => rw [intern_of_lookup?_eq_some hname]
  | none =>
      rw [(intern_of_lookup?_eq_none hname).2]
      exact isPrefix_push _ _

theorem name_of_isPrefix (h : t.names.toList <+: t'.names.toList) (hx : x.index < t.size) :
    t'.name x = t.name x := getD_of_isPrefix h hx ""

theorem isKeyword_of_isPrefix (h : t.names.toList <+: t'.names.toList) (hx : x.index < t.size) :
    t'.isKeyword x = t.isKeyword x := by
  rw [isKeyword_eq, isKeyword_eq, name_of_isPrefix h hx]

/-- A symbol that has no name stands for no variable at all. -/
theorem lt_of_isDummy (h : t.isDummy x = true) : x.index < t.size := by
  by_contra hx
  have hname : t.name x = "" := by
    rw [NameTables.name, Array.getD_eq_getD_getElem?, Array.getElem?_eq_none (Nat.le_of_not_lt hx),
      Option.getD_none]
  rw [NameTables.isDummy, hname] at h
  cases h

theorem isDummy_of_isPrefix (h : t.names.toList <+: t'.names.toList) (hx : t.isDummy x = true) :
    t'.isDummy x = true := by
  rw [NameTables.isDummy, name_of_isPrefix h (lt_of_isDummy hx)]
  exact hx

/-- A name that the language knows is a keyword only if it heads a special form. -/
theorem Sound.isKeyword_known (ht : t.Sound) (hx : Symbol.specialCount ≤ x.index)
    (hlt : x.index < Symbol.wellKnown.length) : t.isKeyword x = false := by
  have hcolon : ∀ i (h : i < Symbol.wellKnown.length),
      isColonName (Symbol.wellKnown.get ⟨i, h⟩) = false := by decide
  have hname : t.name x = Symbol.wellKnown.get ⟨x.index, hlt⟩ :=
    getD_of_getElem? (ht.name?_known hlt) ""
  rw [isKeyword_eq, hname, hcolon, Bool.or_false, decide_eq_false_iff_not]
  exact Nat.not_lt.2 hx

/-- In a sound table the keywords are those of the special forms' names and the colon names. -/
theorem Sound.isKeyword_iff (ht : t.Sound) (hx : x.index < t.size) :
    t.isKeyword x = true ↔ t.name x ∈ Symbol.wellKnown.take Symbol.specialCount ∨
      isColonName (t.name x) = true := by
  have hname : t.names[x.index]? = some (t.name x) := getElem?_of_lt hx ""
  have hspecial : x.index < Symbol.specialCount ↔
      t.name x ∈ Symbol.wellKnown.take Symbol.specialCount := by
    constructor
    · intro hlt
      have hknown := ht.name?_known (Nat.lt_of_lt_of_le hlt (by decide))
      rw [Option.some.inj (hname.symm.trans hknown)]
      exact List.mem_take_iff_getElem.2 ⟨_, lt_min hlt (Nat.lt_of_lt_of_le hlt (by decide)), rfl⟩
    · intro hmem
      obtain ⟨i, hi, heq⟩ := List.mem_take_iff_getElem.1 hmem
      have hknown := ht.name?_known (lt_min_iff.1 hi).2
      have hxi : x = ⟨i⟩ := ht.eq_of_name? hname (hknown.trans (congrArg some heq))
      rw [hxi]
      exact (lt_min_iff.1 hi).1
  rw [isKeyword_eq, Bool.or_eq_true, decide_eq_true_iff, hspecial]

/-- No native has the name of a keyword. -/
theorem isKeyword_native (t : SymbolTable) {n : Native} (hn : n ∈ Native.all) :
    (t.intern n.name).2.isKeyword (t.intern n.name).1 = false := by
  have hnames : ∀ n ∈ Native.all, isColonName n.name = false ∧
      n.name ∉ Symbol.wellKnown.take Symbol.specialCount := by decide +kernel
  obtain ⟨hcolon, hspecial⟩ := hnames n hn
  have hname : (t.intern n.name).2.name (t.intern n.name).1 = n.name :=
    getD_of_getElem? (name?_intern t n.name) ""
  rw [← Bool.not_eq_true, (sound _).isKeyword_iff (intern_lt t n.name), hname]
  rintro (hmem | hname)
  · exact hspecial hmem
  · cases hname.symm.trans hcolon

end SymbolTable

/-! ## Tidy states -/

/-- A sound state in which each thing has one form, and nothing is bound that must not be. -/
structure State.Tidy (s : State) : Prop where
  sound : s.Sound
  flat : s.Flat
  wide : ∀ (i : Nat) k, s.store.bignums[i]? = some k → Num.fits k = false
  symbols : s.symbols.Sound
  unbound : ∀ {x v}, s.global? x = some v → s.symbols.isKeyword x = false
  named : ∀ (i : Nat) x, s.store.dummies[i]? = some x → s.symbols.isDummy x = true

/-! ## What is kept -/

/-- The second value is the first, or the first is a promise that was delivered with it. -/
def Store.Settles (s : Store) (v v' : Value) : Prop :=
  v' = v ∨ ∃ p, v = .promise p ∧ s.promise p = .delivered v'

namespace Store.Settles

variable {s t : Store} {u v v' : Value}

theorem trans (hflat : ∀ r w, s.promise r = .delivered w → w.isPromise = false)
    (hst : ∀ r w, s.promise r = .delivered w → t.promise r = .delivered w)
    (h : s.Settles u v) (h' : t.Settles v v') : t.Settles u v' := by
  rcases h with rfl | ⟨p, rfl, hp⟩
  · exact h'
  · rcases h' with rfl | ⟨q, rfl, -⟩
    · exact .inr ⟨p, rfl, hst _ _ hp⟩
    · -- What was delivered is no promise, so nothing gives way twice.
      exact absurd (hflat _ _ hp) (by simp [Value.isPromise])

/-- What forcing gives settles what the value has settled to by then. -/
theorem of_forces (h : s.Settles u v) (hf : s.Forces u v') : s.Settles v v' := by
  rcases h with rfl | ⟨p, rfl, hp⟩
  · cases v with
    | promise p => exact .inr ⟨p, rfl, hf⟩
    | _ => exact .inl hf
  · -- The promise found first has been delivered meanwhile, and that is what forcing gave.
    cases hp.symm.trans hf
    exact .inl rfl

end Store.Settles

/-- What is kept of a state, whatever is done, if only the places named are left alone. -/
structure State.Kept (places : List Place) (s t : State) : Prop where
  texts : s.store.texts.toList <+: t.store.texts.toList
  bignums : s.store.bignums.toList <+: t.store.bignums.toList
  callables : s.store.callables.toList <+: t.store.callables.toList
  dummies : s.store.dummies.toList <+: t.store.dummies.toList
  failures : s.store.failures.toList <+: t.store.failures.toList
  symbols : s.symbols.names.toList <+: t.symbols.names.toList
  sizes : s.bounds ≤ t.bounds
  delivered : ∀ r v, s.store.promise r = .delivered v → t.store.promise r = .delivered v
  items : .item ∈ places → s.store.vectors.toList <+: t.store.vectors.toList
  heads : .head ∈ places → ∀ r, s.bounds.Holds (.pair r) →
    t.store.Settles (s.store.car r) (t.store.car r)
  tails : .tail ∈ places → ∀ r, s.bounds.Holds (.pair r) →
    t.store.Settles (s.store.cdr r) (t.store.cdr r)
  frames : ∀ (i : Nat) frame, s.frames.table[i]? = some frame →
    ∃ frame', t.frames.table[i]? = some frame' ∧ frame'.next = frame.next ∧
      frame'.slots.size = frame.slots.size ∧
      ∀ j, .slot i j ∈ places → frame'.slots[j]? = frame.slots[j]?

namespace State.Kept

variable {places : List Place} {s t u : State}

theorem refl (s : State) : s.Kept places s where
  texts := List.prefix_rfl
  bignums := List.prefix_rfl
  callables := List.prefix_rfl
  dummies := List.prefix_rfl
  failures := List.prefix_rfl
  symbols := List.prefix_rfl
  sizes := le_refl _
  delivered _ _ h := h
  items _ := List.prefix_rfl
  heads _ _ _ := .inl rfl
  tails _ _ _ := .inl rfl
  frames _ frame h := ⟨frame, h, rfl, rfl, fun _ _ => rfl⟩

theorem trans (ht : t.Flat) (h : s.Kept places t) (h' : t.Kept places u) : s.Kept places u where
  texts := h.texts.trans h'.texts
  bignums := h.bignums.trans h'.bignums
  callables := h.callables.trans h'.callables
  dummies := h.dummies.trans h'.dummies
  failures := h.failures.trans h'.failures
  symbols := h.symbols.trans h'.symbols
  sizes := h.sizes.trans h'.sizes
  delivered r v hv := h'.delivered r v (h.delivered r v hv)
  items hp := (h.items hp).trans (h'.items hp)
  heads hp r hr := (h.heads hp r hr).trans ht h'.delivered (h'.heads hp r (hr.mono h.sizes))
  tails hp r hr := (h.tails hp r hr).trans ht h'.delivered (h'.tails hp r (hr.mono h.sizes))
  frames i frame hi := by
    obtain ⟨frame₁, h₁, hnext₁, hsize₁, hslots₁⟩ := h.frames i frame hi
    obtain ⟨frame₂, h₂, hnext₂, hsize₂, hslots₂⟩ := h'.frames i frame₁ h₁
    refine ⟨frame₂, h₂, hnext₂.trans hnext₁, hsize₂.trans hsize₁, fun j hj => ?_⟩
    exact (hslots₂ j hj).trans (hslots₁ j hj)

end State.Kept

/-! ## What is overwritten -/

namespace Store

variable (s : Store) {q r : Ref .cell} (v : Value)

theorem car_setCar_self (h : r.index < s.cells.size) : (s.setCar r v).car r = v := by
  simp [car, setCar, Array.getD_eq_getD_getElem?, Array.getElem_modify, h]

theorem car_setCar_of_ne (h : q ≠ r) : (s.setCar r v).car q = s.car q := by
  have hne : r.index ≠ q.index := fun hi => h (by cases q; cases r; simp_all)
  simp [car, setCar, Array.getD_eq_getD_getElem?, Array.getElem?_modify, hne]

theorem cdr_setCar : (s.setCar r v).cdr q = s.cdr q := by
  simp only [cdr, setCar, Array.getD_eq_getD_getElem?, Array.getElem?_modify]
  split
  · cases s.cells[q.index]? <;> rfl
  · rfl

theorem cdr_setCdr_self (h : r.index < s.cells.size) : (s.setCdr r v).cdr r = v := by
  simp [cdr, setCdr, Array.getD_eq_getD_getElem?, Array.getElem_modify, h]

theorem cdr_setCdr_of_ne (h : q ≠ r) : (s.setCdr r v).cdr q = s.cdr q := by
  have hne : r.index ≠ q.index := fun hi => h (by cases q; cases r; simp_all)
  simp [cdr, setCdr, Array.getD_eq_getD_getElem?, Array.getElem?_modify, hne]

theorem car_setCdr : (s.setCdr r v).car q = s.car q := by
  simp only [car, setCdr, Array.getD_eq_getD_getElem?, Array.getElem?_modify]
  split
  · cases s.cells[q.index]? <;> rfl
  · rfl

end Store

/-- An assignment leaves every frame its place in the chain and its number of slots, and every slot
but one as it is. -/
theorem Frames.kept_assign {fs : Frames} {env : Env} {i j k : Nat} {v : Value} {frame : Frame}
    (h : fs.table[k]? = some frame) : ∃ frame', (fs.assign env i j v).table[k]? = some frame' ∧
      frame'.next = frame.next ∧ frame'.slots.size = frame.slots.size ∧
      ∀ l, (fs.frameAt? env i = some k → l ≠ j) → frame'.slots[l]? = frame.slots[l]? := by
  unfold assign
  split
  · rename_i i' hi'
    rw [Array.getElem?_modify]
    split
    · rename_i hik
      subst hik
      refine ⟨{ frame with slots := frame.slots.setIfInBounds j v }, by rw [h]; rfl, rfl,
        Array.size_setIfInBounds, fun l hl => ?_⟩
      exact Array.getElem?_setIfInBounds_ne (Ne.symm (hl hi'))
    · exact ⟨frame, h, rfl, rfl, fun _ _ => rfl⟩
  · exact ⟨frame, h, rfl, rfl, fun _ _ => rfl⟩

/-! ## What operations keep -/

section Operations

variable {places : List Place} {s t : State}

theorem State.GrowsInto.names (h : s.GrowsInto t) :
    s.symbols.names.toList <+: t.symbols.names.toList := by
  rcases h.symbols with heq | ⟨name, heq⟩
  · rw [heq]
  · rw [heq]
    exact s.symbols.isPrefix_intern name

theorem State.GrowsInto.kept (h : s.GrowsInto t) (hb : s.bounds ≤ t.bounds) : s.Kept places t where
  texts := h.texts
  bignums := h.bignums
  callables := h.callables
  dummies := h.dummies
  failures := h.failures
  symbols := h.names
  sizes := hb
  delivered r v hv := by
    rw [← hv]
    exact getD_of_isPrefix h.promises (Store.lt_of_delivered hv) _
  items _ := h.vectors
  heads _ r hr := .inl (congrArg Cell.car
    (getD_of_isPrefix h.cells ((Bounds.holds_of_ref rfl).1 hr) default))
  tails _ r hr := .inl (congrArg Cell.cdr
    (getD_of_isPrefix h.cells ((Bounds.holds_of_ref rfl).1 hr) default))
  frames i frame hi := ⟨frame, getElem?_of_isPrefix h.frames hi, rfl, rfl, fun _ _ => rfl⟩

theorem State.lt_of_global? (hs : s.Sound) {x : Symbol} {v : Value} (h : s.global? x = some v) :
    x.index < s.symbols.size := by
  rw [State.global?, Option.join_eq_some_iff] at h
  exact (Bounds.holds_of_ref rfl).1 (hs.points.globals _ _ h).1

theorem State.GrowsInto.tidy (h : s.GrowsInto t) (ha : Admissible s t) (hs : s.Tidy) : t.Tidy where
  sound := ha.sound hs.sound
  flat := by
    intro r v hr
    have hp : t.store.promises[r.index]? = some (t.store.promise r) :=
      getElem?_of_lt (Store.lt_of_delivered hr) default
    rcases h.pending _ _ hp with hold | ⟨form, env, heq⟩
    · exact hs.flat r v ((getD_of_getElem? hold default).trans hr)
    · cases hr.symm.trans heq
  wide i k hk := (h.wide i k hk).elim (hs.wide i k) id
  symbols := by
    rcases h.symbols with heq | ⟨name, heq⟩
    · exact heq ▸ hs.symbols
    · exact SymbolTable.sound _
  unbound := by
    intro x v hx
    have hold : s.global? x = some v := by
      rw [← hx, State.global?, State.global?, h.globals]
    rw [SymbolTable.isKeyword_of_isPrefix h.names (State.lt_of_global? hs.sound hold)]
    exact hs.unbound hold
  named i x hx := by
    refine SymbolTable.isDummy_of_isPrefix h.names ?_
    exact (h.named i x hx).elim (hs.named i x) id

namespace State.Tidy

variable {v : Value}

/-- The car of a cell gives way to anything, where it is not meant to stay, and else only to what it
is once forced. -/
theorem setCar (hs : s.Tidy) {r : Ref .cell} (hr : s.bounds.Holds (.pair r))
    (hv : s.bounds.Holds v)
    (hfree : .head ∉ places ∨ ∃ s₀ : State, s₀.Tidy ∧ s₀.Kept places s ∧
      s₀.bounds.Holds (.pair r) ∧ s.store.Forces (s₀.store.car r) v) :
    (s.mapStore (·.setCar r v)).Tidy ∧ s.Kept places (s.mapStore (·.setCar r v)) := by
  have ha : Admissible s (s.mapStore (·.setCar r v)) := .setCar hr hv
  refine ⟨{ hs with sound := ha.sound hs.sound }, ?_⟩
  refine { State.Kept.refl s with sizes := ha.bounds_le, heads := fun hp q hq => ?_, tails := ?_ }
  · by_cases hqr : q = r
    · subst hqr
      rcases hfree with hnot | ⟨s₀, -, hkept, hr₀, hforces⟩
      · exact absurd hp hnot
      · have hself := s.store.car_setCar_self v ((Bounds.holds_of_ref rfl).1 hq)
        rw [State.mapStore, hself]
        exact (hkept.heads hp q hr₀).of_forces hforces
    · exact .inl (s.store.car_setCar_of_ne v hqr)
  · exact fun _ q _ => .inl (s.store.cdr_setCar v)

/-- The cdr of a cell likewise. -/
theorem setCdr (hs : s.Tidy) {r : Ref .cell} (hr : s.bounds.Holds (.pair r))
    (hv : s.bounds.Holds v)
    (hfree : .tail ∉ places ∨ ∃ s₀ : State, s₀.Tidy ∧ s₀.Kept places s ∧
      s₀.bounds.Holds (.pair r) ∧ s.store.Forces (s₀.store.cdr r) v) :
    (s.mapStore (·.setCdr r v)).Tidy ∧ s.Kept places (s.mapStore (·.setCdr r v)) := by
  have ha : Admissible s (s.mapStore (·.setCdr r v)) := .setCdr hr hv
  refine ⟨{ hs with sound := ha.sound hs.sound }, ?_⟩
  refine { State.Kept.refl s with sizes := ha.bounds_le, heads := ?_, tails := fun hp q hq => ?_ }
  · exact fun _ q _ => .inl (s.store.car_setCdr v)
  · by_cases hqr : q = r
    · subst hqr
      rcases hfree with hnot | ⟨s₀, -, hkept, hr₀, hforces⟩
      · exact absurd hp hnot
      · have hself := s.store.cdr_setCdr_self v ((Bounds.holds_of_ref rfl).1 hq)
        rw [State.mapStore, hself]
        exact (hkept.tails hp q hr₀).of_forces hforces
    · exact .inl (s.store.cdr_setCdr_of_ne v hqr)

theorem setItem (hs : s.Tidy) {r : Ref .vector} (i : Nat) (hr : s.bounds.Holds (.vector r))
    (hv : s.bounds.Holds v) (hfree : .item ∉ places) :
    (s.mapStore (·.setItem r i v)).Tidy ∧ s.Kept places (s.mapStore (·.setItem r i v)) := by
  have ha : Admissible s (s.mapStore (·.setItem r i v)) := .setItem i hr hv
  refine ⟨{ hs with sound := ha.sound hs.sound }, ?_⟩
  exact { State.Kept.refl s with sizes := ha.bounds_le, items := fun hp => absurd hp hfree }

/-- A promise is delivered once, with what is no promise. -/
theorem deliver (hs : s.Tidy) {r : Ref .promise} (hr : s.bounds.Holds (.promise r))
    (hv : s.bounds.Holds v) (hflat : v.isPromise = false) {form : Value} {env : Env}
    (hp : s.store.promise r = .pending form env) :
    (s.mapStore (·.setPromise r (.delivered v))).Tidy ∧
      s.Kept places (s.mapStore (·.setPromise r (.delivered v))) := by
  have ha : Admissible s (s.mapStore (·.setPromise r (.delivered v))) := .deliver hr hv
  refine ⟨{ hs with sound := ha.sound hs.sound, flat := hs.flat.setPromise r hflat }, ?_⟩
  refine { State.Kept.refl s with
    sizes := ha.bounds_le
    delivered := fun q u hq => ?_
    heads := fun _ _ _ => .inl rfl
    tails := fun _ _ _ => .inl rfl }
  have hne : q ≠ r := by
    rintro rfl
    cases hp.symm.trans hq
  exact (Store.promise_setPromise_of_ne (.delivered v) hne).trans hq

theorem setGlobal (hs : s.Tidy) {x : Symbol} (hx : s.bounds.Holds (.sym x))
    (hv : s.bounds.Holds v) (hk : s.symbols.isKeyword x = false) :
    (s.setGlobal x v).Tidy ∧ s.Kept places (s.setGlobal x v) := by
  have ha : Admissible s (s.setGlobal x v) := .setGlobal hx hv
  refine ⟨{ hs with sound := ha.sound hs.sound, unbound := fun {y u} hy => ?_ },
    { State.Kept.refl s with sizes := ha.bounds_le }⟩
  rw [State.global?, Option.join_eq_some_iff] at hy
  rcases State.of_setGlobal hy with ⟨rfl, -⟩ | hold
  · exact hk
  · exact hs.unbound (Option.join_eq_some_iff.2 hold)

theorem assign (hs : s.Tidy) {env : Env} (i j : Nat) (henv : s.bounds.HoldsEnv env)
    (hv : s.bounds.Holds v)
    (hfree : ∀ frame, s.frames.frameAt? env i = some frame → .slot frame j ∉ places) :
    ({ s with frames := s.frames.assign env i j v } : State).Tidy ∧
      s.Kept places { s with frames := s.frames.assign env i j v } := by
  have ha : Admissible s { s with frames := s.frames.assign env i j v } := .assign i j henv hv
  refine ⟨{ hs with sound := ha.sound hs.sound }, ?_⟩
  refine { State.Kept.refl s with sizes := ha.bounds_le, frames := fun k frame hk => ?_ }
  obtain ⟨frame', hk', hnext, hsize, hslots⟩ := Frames.kept_assign hk
  refine ⟨frame', hk', hnext, hsize, fun l hl => hslots l fun hframe => ?_⟩
  rintro rfl
  exact hfree k hframe hl

end State.Tidy

end Operations

/-! ## The regime -/

/-- The regime of tidy states, in which the places named are left alone. -/
abbrev Regime.conserving (places : List Place) : Regime where
  Inv := State.Tidy
  Rel := State.Kept places
  Frees place := place ∉ places
  Binds symbols x := symbols.isKeyword x = false
  Delivers v := v.isPromise = false
  sound hs := hs.sound
  refl {s} _ := State.Kept.refl s
  trans ht h h' := h.trans ht.flat h'
  bounds_le h := h.sizes
  binds h := h
  binds_known hs hx hlt := hs.symbols.isKeyword_known hx hlt
  binds_native _ hn := SymbolTable.isKeyword_native _ hn
  delivers hs h := hs.flat _ _ h
  delivers_value h := h
  grow hs ha h := ⟨h.tidy ha hs, h.kept ha.bounds_le⟩
  setCar hs hr hv hfree := hs.setCar hr hv hfree
  setCdr hs hr hv hfree := hs.setCdr hr hv hfree
  setItem i hs hr hv hfree := hs.setItem i hr hv hfree
  deliver hs hr hv hflat hp := hs.deliver hr hv hflat hp
  setGlobal hs hx hv hk := hs.setGlobal hx hv hk
  assign i j hs henv hv hfree := hs.assign i j henv hv hfree

instance : (Regime.conserving []).watching.Free := ⟨fun _ => List.not_mem_nil⟩

end SmallLisp
