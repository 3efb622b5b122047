import SmallLisp.Proofs.Compiler.Templates

/-!
# Programs and their twins

A lambda that calls a macro is compiled to one body if the macro is known by then, and to another if
it is not. The two are twins: they go the same way, with a call of the macro in the place of its
expansion, and lambdas compiled before they are met or when they are. `Setting.Program` says of
which text this is proved, and `Setting.Twin` how the bodies go together.
-/

namespace SmallLisp

open Code Scope

/-- What stays as it is while two machines run the same program: the symbols and the limits, the
names that programs use, the constants that stand in their text, the natives that they come upon,
and one macro, by its name and what it puts its arguments into. -/
structure Setting where
  symbols : SymbolTable
  config : Config
  dummies : Array Symbol
  /-- The global variables of the programs, and the heads of their special forms. -/
  names : Symbol → Prop
  literal : Value → Prop
  constant : Ref .cell → Prop
  runs : Native → Prop
  word : Symbol
  shape : Shape
  pattern : Pattern
  isKeyword_word : symbols.isKeyword word = false
  not_names : ¬ names word
  isLeftAlone_of_names : ∀ {x}, names x → Engine.isLeftAlone (.sym x) = false
  literal_nil : literal .nil
  isLiteral_of_literal : ∀ {v}, literal v → v.isLiteral = true
  /-- Of what a program makes of its data, nothing is run as a program. -/
  not_runs : ¬ runs (.control .eval) ∧ ¬ runs (.streams .read) ∧ ¬ runs (.streams .load) ∧
    ¬ runs (.system .dump)

instance (shape : Shape) (n : Nat) : Decidable (shape.Takes n) :=
  inferInstanceAs (Decidable (if shape.hasRest then shape.required ≤ n else n = shape.required))

namespace Setting

variable (T : Setting)

/-- The name that a stand-in stands for. -/
def name (r : Ref .dummy) : Symbol := T.dummies.getD r.index ⟨0⟩

/-- What the macro makes of a call, given the items of the call. -/
def expansion : List Code → Option Code
  | .word (.sym x) :: args =>
      if x = T.word ∧ T.shape.Takes args.length then
        match T.pattern.fill (Pattern.places T.shape args) with
        | [c] => some c
        | _ => none
      else none
  | _ => none

variable {T}

theorem expansion_eq_some {cs : List Code} {c : Code} :
    T.expansion cs = some c ↔ ∃ args, cs = .word (.sym T.word) :: args ∧
      T.shape.Takes args.length ∧ T.pattern.fill (Pattern.places T.shape args) = [c] := by
  constructor
  · intro h
    unfold expansion at h
    split at h
    · rename_i x args
      split at h
      · rename_i hx
        obtain ⟨rfl, htakes⟩ := hx
        split at h
        · rename_i c' hfill
          cases h
          exact ⟨args, rfl, htakes, hfill⟩
        · cases h
      · cases h
    · cases h
  · rintro ⟨args, rfl, htakes, hfill⟩
    simp only [expansion, htakes, and_self, if_true, hfill]

variable (T)

/-- The names that the text of a program may have; early text may have the macro's too. -/
def words (early : Bool) (x : Symbol) : Prop := T.names x ∨ early = true ∧ x = T.word

/-- The symbol can be assigned: it is a variable, and no native that expansions need. -/
def Assigns (x : Symbol) : Prop :=
  T.names x ∧ T.symbols.isKeyword x = false ∧ ∀ b : Builder, x ≠ b.symbol

/-- Variables, each with a form to assign to it. -/
def Targets : List Code → Prop
  | [] => True
  | .word (.sym x) :: _ :: cs => T.Assigns x ∧ Targets cs
  | .word (.address _) :: _ :: cs => Targets cs
  | _ => False

/-- The special form takes such operands, all of which are forms. -/
def Operands : Special → List Code → Prop
  | .progn, _ => True
  | .catching, _ => True
  | .unwindProtect, _ => True
  | .delay, _ => True
  | .setq, cs => T.Targets cs
  | _, _ => False

/-- The value can be quoted in what the macro makes: it is the same value in every list. -/
def IsData (v : Value) : Prop := T.literal v ∨ ∃ x, v = .sym x

/-- The code makes no special form of the list that it is the head of. -/
def Head (c : Code) : Prop := ∀ x, c = .word (.sym x) → T.symbols.isKeyword x = false

/-- The code makes no special form of the list that it is the head of, expanded or not. -/
def Heads (c : Code) : Prop :=
  T.Head c ∧ ∀ cs d, c = .list cs → T.expansion cs = some d → T.Head d

/-! ## Programs -/

mutual

/-- The text of a program, resolved so far. If it is early, it may have calls of the macro, with
arguments that have none; and where an argument is put inside lambdas, these bind nothing that is
free in a lambda of the argument. -/
inductive Program : Bool → Code → Prop
  | global {early : Bool} {x : Symbol} : T.names x → Program early (.word (.sym x))
  | slot {early : Bool} (a : Address) : Program early (.word (.address a))
  | literal {early : Bool} {v : Value} : T.literal v → Program early (.word v)
  | constant {early : Bool} {r : Ref .cell} : T.constant r →
      Program early (.quoted (.cell r))
  | quoted {early : Bool} {v : Value} : T.IsData v → Program early (.quoted (.word v))
  | lambda {early : Bool} {formals : List Value} {body : List Code} : Listed T.symbols formals →
      TidyAll T.symbols (T.words early) body →
      Programs early (mapAll (Parameters.ofFormals T.name formals).scan body) →
      Program early (.lambda formals body)
  | special {early : Bool} {k : Symbol} {form : Special} {cs : List Code} :
      Special.ofSymbol? k = some form → T.names k → T.Operands form cs → Programs early cs →
      Program early (.list (.word (.sym k) :: cs))
  | cond {early : Bool} {cs : List Code} : T.names Symbol.cond → Clauses early cs →
      Program early (.list (.word (.sym Symbol.cond) :: cs))
  | call {early : Bool} {c : Code} {cs : List Code} : T.Heads c → Program early c →
      Programs early cs → Program early (.list (c :: cs))
  | expands {args : List Code} {c : Code} :
      T.expansion (.word (.sym T.word) :: args) = some c → c.Tidy T.symbols T.names →
      T.pattern.Undisturbed T.name (Pattern.places T.shape args) id → Program false c →
      Program true (.list (.word (.sym T.word) :: args))

/-- The text of several programs. -/
inductive Programs : Bool → List Code → Prop
  | nil {early : Bool} : Programs early []
  | cons {early : Bool} {c : Code} {cs : List Code} : Program early c → Programs early cs →
      Programs early (c :: cs)

/-- The text of clauses. -/
inductive Clauses : Bool → List Code → Prop
  | nil {early : Bool} : Clauses early []
  | skip {early : Bool} {cs : List Code} : Clauses early cs → Clauses early (.word .nil :: cs)
  | cons {early : Bool} {c : Code} {ds cs : List Code} : Program early c → Programs early ds →
      Clauses early cs → Clauses early (.list (c :: ds) :: cs)

end

/-! ## Twins -/

/-- The code is a lambda, and the body of the closure that it comes to: a lambda is compiled, or it
is still to be. -/
inductive Closes : Code → Shape → List Code → Prop
  | template (shape : Shape) (body : List Code) : Closes (.template shape body) shape body
  | lambda {formals : List Value} {body : List Code} : Listed T.symbols formals →
      TidyAll T.symbols T.names body →
      Closes (.lambda formals body) (Parameters.ofFormals T.name formals).shape
        (scannedAll T.name (Parameters.ofFormals T.name formals).scan body)

mutual

/-- Two pieces of code that go the same way. Where one has a call of the macro, the other may have
what the macro makes of it; and lambdas go together if what they come to does. -/
inductive Twin : Code → Code → Prop
  | global {x : Symbol} : T.names x → Twin (.word (.sym x)) (.word (.sym x))
  | slot (a : Address) : Twin (.word (.address a)) (.word (.address a))
  | literal {v : Value} : T.literal v → Twin (.word v) (.word v)
  | constant {r : Ref .cell} : T.constant r → Twin (.quoted (.cell r)) (.quoted (.cell r))
  | quoted {v : Value} : T.IsData v → Twin (.quoted (.word v)) (.quoted (.word v))
  | closing {d d' : Code} {shape : Shape} {b b' : List Code} : T.Closes d shape b →
      T.Closes d' shape b' → TwinAll b b' → Twin d d'
  | special {k : Symbol} {form : Special} {cs ds : List Code} : Special.ofSymbol? k = some form →
      T.Operands form cs → T.Operands form ds → TwinAll cs ds →
      Twin (.list (.word (.sym k) :: cs)) (.list (.word (.sym k) :: ds))
  | cond {cs ds : List Code} : TwinClauses cs ds →
      Twin (.list (.word (.sym Symbol.cond) :: cs)) (.list (.word (.sym Symbol.cond) :: ds))
  | call {c d : Code} {cs ds : List Code} : T.Head c → T.Head d → Twin c d → TwinAll cs ds →
      Twin (.list (c :: cs)) (.list (d :: ds))
  | left {cs : List Code} {c d : Code} : T.expansion cs = some c → Twin c d → Twin (.list cs) d
  | right {c d : Code} {ds : List Code} : T.expansion ds = some d → Twin c d → Twin c (.list ds)

/-- The pieces of code go together one by one. -/
inductive TwinAll : List Code → List Code → Prop
  | nil : TwinAll [] []
  | cons {c d : Code} {cs ds : List Code} : Twin c d → TwinAll cs ds → TwinAll (c :: cs) (d :: ds)

/-- The clauses go together one by one. -/
inductive TwinClauses : List Code → List Code → Prop
  | nil : TwinClauses [] []
  | skip {cs ds : List Code} : TwinClauses cs ds →
      TwinClauses (.word .nil :: cs) (.word .nil :: ds)
  | cons {c d : Code} {cs ds cs' ds' : List Code} : Twin c d → TwinAll cs ds →
      TwinClauses cs' ds' → TwinClauses (.list (c :: cs) :: cs') (.list (d :: ds) :: ds')

end

variable {T}

mutual

theorem Twin.symm : ∀ {c d : Code}, T.Twin c d → T.Twin d c
  | _, _, .global hx => .global hx
  | _, _, .slot a => .slot a
  | _, _, .literal hv => .literal hv
  | _, _, .constant hr => .constant hr
  | _, _, .quoted hv => .quoted hv
  | _, _, .closing hc hd h => .closing hd hc h.symm
  | _, _, .special hk hc hd h => .special hk hd hc h.symm
  | _, _, .cond h => .cond h.symm
  | _, _, .call hc hd h hs => .call hd hc h.symm hs.symm
  | _, _, .left hc h => .right hc h.symm
  | _, _, .right hd h => .left hd h.symm

theorem TwinAll.symm : ∀ {cs ds : List Code}, T.TwinAll cs ds → T.TwinAll ds cs
  | _, _, .nil => .nil
  | _, _, .cons h hs => .cons h.symm hs.symm

theorem TwinClauses.symm : ∀ {cs ds : List Code}, T.TwinClauses cs ds → T.TwinClauses ds cs
  | _, _, .nil => .nil
  | _, _, .skip hs => .skip hs.symm
  | _, _, .cons h hs hs' => .cons h.symm hs.symm hs'.symm

end

/-! ## Text with some of its lambdas compiled -/

theorem targets_of_words {cs ds : List Code}
    (h : List.Forall₂ (fun c d => ∀ v, c = .word v → d = .word v) cs ds) (hcs : T.Targets cs) :
    T.Targets ds := by
  induction cs using Targets.induct generalizing ds with
  | case1 =>
      cases h
      trivial
  | case2 x c cs ih =>
      cases h with
      | cons hd h =>
          cases hd _ rfl
          cases h with
          | cons _ h => exact ⟨hcs.1, ih h hcs.2⟩
  | case3 a c cs ih =>
      cases h with
      | cons hd h =>
          cases hd _ rfl
          cases h with
          | cons _ h =>
              have htargets := ih h hcs
              exact htargets
  | case4 cs h₁ h₂ h₃ =>
      unfold Targets at hcs
      split at hcs
      · exact (h₁ rfl).elim
      · exact (h₂ _ _ _ rfl).elim
      · exact (h₃ _ _ _ rfl).elim
      · exact hcs.elim

/-- Operands may become others, as long as words stay as they are. -/
theorem operands_of_words {form : Special} {cs ds : List Code}
    (h : List.Forall₂ (fun c d => ∀ v, c = .word v → d = .word v) cs ds)
    (hcs : T.Operands form cs) : T.Operands form ds := by
  cases form with
  | setq => exact targets_of_words h hcs
  | progn => trivial
  | catching => trivial
  | unwindProtect => trivial
  | delay => trivial
  | _ => exact hcs.elim

theorem operands_of_partly {form : Special} {cs ds : List Code} (h : PartlyAll T.name cs ds)
    (hcs : T.Operands form cs) : T.Operands form ds := by
  refine operands_of_words ?_ hcs
  clear hcs
  induction cs generalizing ds with
  | nil =>
      cases h
      exact .nil
  | cons c cs ih =>
      cases h with
      | cons hc hcs =>
          refine .cons ?_ (ih hcs)
          rintro v rfl
          cases hc
          rfl

theorem head_of_partly {c d : Code} (h : Partly T.name c d) (hc : T.Head c) : T.Head d := by
  rintro x rfl
  cases h with
  | word => exact hc x rfl

theorem exists_of_partlyAll_cons {c : Code} {cs ds : List Code}
    (h : PartlyAll T.name (c :: cs) ds) :
    ∃ e es, ds = e :: es ∧ Partly T.name c e ∧ PartlyAll T.name cs es := by
  cases h with
  | cons hc hcs => exact ⟨_, _, rfl, hc, hcs⟩

theorem exists_of_partly_list {c d : Code} {cs : List Code}
    (h : Partly T.name (.list (c :: cs)) d) :
    ∃ e es, d = .list (e :: es) ∧ Partly T.name c e ∧ PartlyAll T.name cs es := by
  cases h with
  | list h =>
      obtain ⟨e, es, rfl, hc, hcs⟩ := exists_of_partlyAll_cons h
      exact ⟨e, es, rfl, hc, hcs⟩

theorem exists_of_partly_word {v : Value} {d : Code} {cs : List Code}
    (h : Partly T.name (.list (.word v :: cs)) d) :
    ∃ es, d = .list (.word v :: es) ∧ PartlyAll T.name cs es := by
  obtain ⟨e, es, rfl, he, hes⟩ := exists_of_partly_list h
  cases he
  exact ⟨es, rfl, hes⟩

/-- A lambda, compiled or not, comes to the same body. -/
theorem closes_of_partly {formals : List Value} {body : List Code} {d : Code}
    (h : Partly T.name (.lambda formals body) d) (hformals : Listed T.symbols formals)
    (hd : d.Tidy T.symbols T.names) :
    T.Closes d (Parameters.ofFormals T.name formals).shape
      (scannedAll T.name (Parameters.ofFormals T.name formals).scan body) := by
  cases h with
  | lambda hbody =>
      rw [← hbody]
      exact .lambda hformals hd.2
  | compiled =>
      rw [scanned, List.map_id]
      exact .template _ _

mutual

/-- Early or late, text whose lambdas are partly compiled goes the same way. -/
theorem twin_of_partly : ∀ {early : Bool} {c : Code}, T.Program early c → early = false →
    ∀ {d d' : Code}, Partly T.name c d → Partly T.name c d' → d.Tidy T.symbols T.names →
    d'.Tidy T.symbols T.names → T.Twin d d'
  | _, _, .global hx, _, _, _, hd, hd', _, _ => by
      cases hd
      cases hd'
      exact .global hx
  | _, _, .slot a, _, _, _, hd, hd', _, _ => by
      cases hd
      cases hd'
      exact .slot a
  | _, _, .literal hv, _, _, _, hd, hd', _, _ => by
      cases hd
      cases hd'
      exact .literal hv
  | _, _, .constant hr, _, _, _, hd, hd', _, _ => by
      cases hd
      cases hd'
      exact .constant hr
  | _, _, .quoted hv, _, _, _, hd, hd', _, _ => by
      cases hd
      cases hd'
      exact .quoted hv
  | _, .lambda formals body, .lambda hformals hbody h, hearly, _, _, hd, hd', htidy, htidy' => by
      have hscan : Scans T.names (Parameters.ofFormals T.name formals).scan :=
        (Scans.id T.names).scan T.name hformals
      have htidy₁ : TidyAll T.symbols T.names
          (scannedAll T.name id (mapAll (Parameters.ofFormals T.name formals).scan body)) :=
        TidyAll.scannedAll _
          (TidyAll.mapAll hscan _ (TidyAll.mono (by simp [words, hearly]) body hbody))
      have hpartly := partlyAll_scannedAll T.name
        (mapAll (Parameters.ofFormals T.name formals).scan body)
      have htwin := twinAll_of_partly h hearly hpartly hpartly htidy₁ htidy₁
      rw [scannedAll_mapAll, Function.id_comp] at htwin
      exact .closing (closes_of_partly hd hformals htidy) (closes_of_partly hd' hformals htidy')
        htwin
  | _, _, .special hk _ hop hs, hearly, _, _, hd, hd', htidy, htidy' => by
      obtain ⟨ds, rfl, hds⟩ := exists_of_partly_word hd
      obtain ⟨ds', rfl, hds'⟩ := exists_of_partly_word hd'
      exact .special hk (operands_of_partly hds hop) (operands_of_partly hds' hop)
        (twinAll_of_partly hs hearly hds hds' htidy.2.2 htidy'.2.2)
  | _, _, .cond _ hs, hearly, _, _, hd, hd', htidy, htidy' => by
      obtain ⟨ds, rfl, hds⟩ := exists_of_partly_word hd
      obtain ⟨ds', rfl, hds'⟩ := exists_of_partly_word hd'
      exact .cond (twinClauses_of_partly hs hearly hds hds' htidy.2.2 htidy'.2.2)
  | _, _, .call hc h hs, hearly, _, _, hd, hd', htidy, htidy' => by
      obtain ⟨d, ds, rfl, hd, hds⟩ := exists_of_partly_list hd
      obtain ⟨d', ds', rfl, hd', hds'⟩ := exists_of_partly_list hd'
      exact .call (head_of_partly hd hc.1) (head_of_partly hd' hc.1)
        (twin_of_partly h hearly hd hd' htidy.2.1 htidy'.2.1)
        (twinAll_of_partly hs hearly hds hds' htidy.2.2 htidy'.2.2)

theorem twinAll_of_partly : ∀ {early : Bool} {cs : List Code}, T.Programs early cs →
    early = false → ∀ {ds ds' : List Code}, PartlyAll T.name cs ds → PartlyAll T.name cs ds' →
    TidyAll T.symbols T.names ds → TidyAll T.symbols T.names ds' → T.TwinAll ds ds'
  | _, _, .nil, _, _, _, hd, hd', _, _ => by
      cases hd
      cases hd'
      exact .nil
  | _, _, .cons h hs, hearly, _, _, hd, hd', htidy, htidy' => by
      obtain ⟨d, ds, rfl, hd, hds⟩ := exists_of_partlyAll_cons hd
      obtain ⟨d', ds', rfl, hd', hds'⟩ := exists_of_partlyAll_cons hd'
      exact .cons (twin_of_partly h hearly hd hd' htidy.1 htidy'.1)
        (twinAll_of_partly hs hearly hds hds' htidy.2 htidy'.2)

theorem twinClauses_of_partly : ∀ {early : Bool} {cs : List Code}, T.Clauses early cs →
    early = false → ∀ {ds ds' : List Code}, PartlyAll T.name cs ds → PartlyAll T.name cs ds' →
    TidyAll T.symbols T.names ds → TidyAll T.symbols T.names ds' → T.TwinClauses ds ds'
  | _, _, .nil, _, _, _, hd, hd', _, _ => by
      cases hd
      cases hd'
      exact .nil
  | _, _, .skip hs, hearly, _, _, hd, hd', htidy, htidy' => by
      obtain ⟨d, ds, rfl, hd, hds⟩ := exists_of_partlyAll_cons hd
      obtain ⟨d', ds', rfl, hd', hds'⟩ := exists_of_partlyAll_cons hd'
      cases hd
      cases hd'
      exact .skip (twinClauses_of_partly hs hearly hds hds' htidy.2 htidy'.2)
  | _, _, .cons h hs hs', hearly, _, _, hd, hd', htidy, htidy' => by
      obtain ⟨d, ds, rfl, hd, hds⟩ := exists_of_partlyAll_cons hd
      obtain ⟨d', ds', rfl, hd', hds'⟩ := exists_of_partlyAll_cons hd'
      obtain ⟨d, es, rfl, hd, hes⟩ := exists_of_partly_list hd
      obtain ⟨d', es', rfl, hd', hes'⟩ := exists_of_partly_list hd'
      exact .cons (twin_of_partly h hearly hd hd' htidy.1.2.1 htidy'.1.2.1)
        (twinAll_of_partly hs hearly hes hes' htidy.1.2.2 htidy'.1.2.2)
        (twinClauses_of_partly hs' hearly hds hds' htidy.2 htidy'.2)

end

end Setting

/-! ## What a late call is expanded to -/

namespace Pattern

variable {name : Ref .dummy → Symbol} {σ : Nat → List Code} {symbols : SymbolTable}
  {free : Symbol → Prop}

mutual

theorem length_fill_scanned : ∀ p : Pattern,
    (p.fill fun i => scannedAll name id (σ i)).length = (p.fill σ).length
  | .place i => by simp only [fill, scannedAll_eq_map, List.length_map]
  | .word _ => rfl
  | .quoted _ => rfl
  | .list _ => rfl
  | .lambda _ _ => rfl

theorem length_fillAll_scanned : ∀ ps : List Pattern,
    (fillAll (fun i => scannedAll name id (σ i)) ps).length = (fillAll σ ps).length
  | [] => rfl
  | p :: ps => by
      rw [fillAll, fillAll, List.length_append, List.length_append, length_fill_scanned p,
        length_fillAll_scanned ps]

end

mutual

/-- A pattern that is filled with tidy text goes on being tidy when this is compiled. -/
theorem tidyAll_fill_scanned : ∀ p : Pattern, TidyAll symbols free (p.fill σ) →
    TidyAll symbols free (p.fill fun i => scannedAll name id (σ i))
  | .place i, h => TidyAll.scannedAll (σ i) h
  | .word _, h => h
  | .quoted _, h => h
  | .list ps, h => by
      refine ⟨⟨fun hnil => h.1.1 ?_, tidyAll_fillAll_scanned ps h.1.2⟩, trivial⟩
      rw [← List.length_eq_zero_iff, length_fillAll_scanned, List.length_eq_zero_iff] at hnil
      exact hnil
  | .lambda _ ps, h => ⟨⟨h.1.1, tidyAll_fillAll_scanned ps h.1.2⟩, trivial⟩

theorem tidyAll_fillAll_scanned : ∀ ps : List Pattern, TidyAll symbols free (fillAll σ ps) →
    TidyAll symbols free (fillAll (fun i => scannedAll name id (σ i)) ps)
  | [], _ => trivial
  | p :: ps, h => by
      rw [fillAll, tidyAll_append] at h ⊢
      exact ⟨tidyAll_fill_scanned p h.1, tidyAll_fillAll_scanned ps h.2⟩

end

theorem places_scannedAll (shape : Shape) (args : List Code) :
    places shape (scannedAll name id args) = fun i => scannedAll name id (places shape args i) := by
  funext i
  unfold places
  split
  · cases h : args[i]? <;> simp [scannedAll_eq_map, h]
  · rw [scannedAll_eq_map, scannedAll_eq_map, List.map_drop]

end Pattern

namespace Setting

variable {T : Setting}

/-- A call with compiled arguments is expanded to a twin of what the text of the call is expanded
to. -/
theorem twin_of_expands {args : List Code} {c : Code}
    (hexpansion : T.expansion (.word (.sym T.word) :: args) = some c)
    (htidy : c.Tidy T.symbols T.names)
    (hundisturbed : T.pattern.Undisturbed T.name (Pattern.places T.shape args) id)
    (h : T.Program false c) :
    T.Twin (c.scanned T.name id) (.list (.word (.sym T.word) :: scannedAll T.name id args)) := by
  obtain ⟨args', hargs, htakes, hfill⟩ := expansion_eq_some.1 hexpansion
  cases hargs
  have hpartly := Pattern.partlyAll_fill T.pattern hundisturbed
  have hfilled : TidyAll T.symbols T.names (T.pattern.fill (Pattern.places T.shape args)) := by
    rw [hfill]
    exact ⟨htidy, trivial⟩
  have htidy' : TidyAll T.symbols T.names
      (T.pattern.fill fun i => scannedAll T.name id (Pattern.places T.shape args i)) :=
    Pattern.tidyAll_fill_scanned T.pattern hfilled
  rw [hfill] at hpartly
  obtain ⟨c', cs, hc', hpartly, hnil⟩ := exists_of_partlyAll_cons hpartly
  cases hnil
  rw [hc'] at htidy'
  refine .right (d := c') (expansion_eq_some.2 ⟨_, rfl, ?_, ?_⟩) ?_
  · rwa [scannedAll_eq_map, List.length_map]
  · rw [Pattern.places_scannedAll, hc']
  · exact twin_of_partly h rfl (partly_scanned T.name c) hpartly (Tidy.scanned c htidy) htidy'.1

/-! ## Text compiled early and late -/

theorem fitting_of_names {x : Symbol} (h : T.names x) : Fitting T.names (.sym x) :=
  ⟨⟨rfl, T.isLeftAlone_of_names h⟩, fun _ hx => by cases hx; exact h, nofun⟩

theorem fitting_of_literal {v : Value} (h : T.literal v) : Fitting T.names v := by
  have hliteral := T.isLiteral_of_literal h
  cases v with
  | sym x => cases hliteral
  | pair r => cases hliteral
  | callable r => cases hliteral
  | _ => exact ⟨⟨rfl, rfl⟩, nofun, nofun⟩

/-- A name that programs use is not the macro's. -/
theorem expansion_of_names {x : Symbol} {cs : List Code} (h : T.names x) :
    T.expansion (.word (.sym x) :: cs) = none := by
  rw [Option.eq_none_iff_forall_ne_some]
  intro c hc
  obtain ⟨args, hargs, -⟩ := expansion_eq_some.1 hc
  cases hargs
  exact T.not_names h

theorem expansion_of_program {early : Bool} {c : Code} {cs : List Code} (h : T.Program early c) :
    T.expansion (c :: cs) = none := by
  rw [Option.eq_none_iff_forall_ne_some]
  intro d hd
  obtain ⟨args, hargs, -⟩ := expansion_eq_some.1 hd
  cases hargs
  cases h with
  | global h => exact T.not_names h
  | literal h => cases T.isLiteral_of_literal h

theorem expansion_of_programs {early : Bool} {cs : List Code} (h : T.Programs early cs) :
    T.expansion cs = none := by
  cases h with
  | nil => rfl
  | cons h _ => exact expansion_of_program h

theorem operands_of_compiles {form : Special} {cs ds : List Code}
    (h : CompilesAll T.symbols T.name T.names T.expansion cs ds) (hcs : T.Operands form cs) :
    T.Operands form ds := by
  refine operands_of_words ?_ hcs
  clear hcs
  induction cs generalizing ds with
  | nil =>
      cases h
      exact .nil
  | cons c cs ih =>
      cases h with
      | cons hc hcs =>
          refine .cons ?_ (ih hcs)
          rintro v rfl
          cases hc
          rfl

/-- What compiling makes the head of a special form, was one or is the expansion of a call. -/
theorem head_of_compiles {c d : Code} (h : Compiles T.symbols T.name T.names T.expansion c d)
    (hc : T.Heads c) : T.Head d := by
  rintro x rfl
  generalize hd : Code.word (.sym x) = d at h
  cases h with
  | word => exact hc.1 x hd.symm
  | @call cs e he _ =>
      cases e with
      | word v =>
          rw [scanned] at hd
          exact hc.2 cs _ rfl he x hd.symm
      | _ => cases hd
  | _ => cases hd

mutual

/-- Text compiled with the macro known has a twin in the same text compiled without. -/
theorem exists_compiles : ∀ {early : Bool} {c : Code}, T.Program early c →
    ∃ d, Compiles T.symbols T.name T.names T.expansion c d ∧ T.Twin d (c.scanned T.name id)
  | _, _, .global hx => ⟨_, .word (fitting_of_names hx), .global hx⟩
  | _, _, .slot a => ⟨_, .word ⟨⟨rfl, rfl⟩, nofun, nofun⟩, .slot a⟩
  | _, _, .literal hv => ⟨_, .word (fitting_of_literal hv), .literal hv⟩
  | _, _, .constant hr => ⟨_, .quoted _, .constant hr⟩
  | _, _, .quoted hv => ⟨_, .quoted _, .quoted hv⟩
  | _, .lambda formals body, .lambda hformals hbody h => by
      obtain ⟨ds, hds, htwin⟩ := exists_compilesAll h
      rw [scannedAll_mapAll, Function.id_comp] at htwin
      refine ⟨_, .lambda hformals hbody (compiles_ofItems (expansion_of_programs h) hds), ?_⟩
      rw [scanned, List.map_id]
      exact .closing (.template _ _) (.template _ _) htwin
  | _, _, .special hk hname hop hs => by
      obtain ⟨ds, hds, htwin⟩ := exists_compilesAll hs
      refine ⟨_, .list (List.cons_ne_nil _ _) (expansion_of_names hname)
        (.cons (.word (fitting_of_names hname)) hds), ?_⟩
      exact .special hk (operands_of_compiles hds hop)
        (operands_of_partly (partlyAll_scannedAll T.name _) hop) htwin
  | _, _, .cond hname hs => by
      obtain ⟨ds, hds, htwin⟩ := exists_compilesClauses hs
      exact ⟨_, .list (List.cons_ne_nil _ _) (expansion_of_names hname)
        (.cons (.word (fitting_of_names hname)) hds), .cond htwin⟩
  | _, _, .call (c := c) hc h hs => by
      obtain ⟨d, hd, htwin⟩ := exists_compiles h
      obtain ⟨ds, hds, htwins⟩ := exists_compilesAll hs
      refine ⟨_, .list (List.cons_ne_nil _ _) (expansion_of_program h) (.cons hd hds), ?_⟩
      exact .call (head_of_compiles hd hc) (head_of_partly (partly_scanned T.name c) hc.1) htwin
        htwins
  | _, _, .expands hexpansion htidy hundisturbed h =>
      ⟨_, .call hexpansion htidy, twin_of_expands hexpansion htidy hundisturbed h⟩

theorem exists_compilesAll : ∀ {early : Bool} {cs : List Code}, T.Programs early cs →
    ∃ ds, CompilesAll T.symbols T.name T.names T.expansion cs ds ∧
      T.TwinAll ds (scannedAll T.name id cs)
  | _, _, .nil => ⟨[], .nil, .nil⟩
  | _, _, .cons h hs => by
      obtain ⟨d, hd, htwin⟩ := exists_compiles h
      obtain ⟨ds, hds, htwins⟩ := exists_compilesAll hs
      exact ⟨d :: ds, .cons hd hds, .cons htwin htwins⟩

theorem exists_compilesClauses : ∀ {early : Bool} {cs : List Code}, T.Clauses early cs →
    ∃ ds, CompilesAll T.symbols T.name T.names T.expansion cs ds ∧
      T.TwinClauses ds (scannedAll T.name id cs)
  | _, _, .nil => ⟨[], .nil, .nil⟩
  | _, _, .skip hs => by
      obtain ⟨ds, hds, htwins⟩ := exists_compilesClauses hs
      exact ⟨_, .cons (.word (.nil _)) hds, .skip htwins⟩
  | _, _, .cons h hs hs' => by
      obtain ⟨d, hd, htwin⟩ := exists_compiles h
      obtain ⟨ds, hds, htwins⟩ := exists_compilesAll hs
      obtain ⟨es, hes, htwins'⟩ := exists_compilesClauses hs'
      exact ⟨_, .cons (.list (List.cons_ne_nil _ _) (expansion_of_program h) (.cons hd hds)) hes,
        .cons htwin htwins htwins'⟩

end

end Setting

end SmallLisp
