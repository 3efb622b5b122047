import SmallLisp.Proofs.Compiler.Scanning

/-!
# Private variables of macros

A private variable has an identity of its own beside its printed name, so that a macro does not
capture the variables of its user, nor they the macro's. `Code.identified` resolves every variable
by identity: to the innermost lambda that lists the same symbol or the same private variable.

The scans resolve by identity too, but an address only keeps a name. Once a lambda has resolved a
variable, the lambdas inside know no more of it than its name, and take it for any parameter of
theirs that goes by that name. So scans resolve by identity exactly as long as no lambda confuses
its parameters with the variables it holds; where one does, a variable is captured.
-/

namespace SmallLisp

open Eval Code

/-! ## Resolution by identity -/

namespace Scope

/-- The variable that a word is. -/
def var? : Value → Option Parameter
  | .sym x => some (.sym x)
  | .dummy r => some (.dummy r)
  | _ => none

/-- The parameters of a parameter list in the order of their slots, by identity. -/
def parameters (formals : List Value) : List Parameter :=
  (formals.filterMap var?).filter (· ≠ .sym Symbol.rest)

/-- The printed name of a variable. -/
def printed (name : Ref .dummy → Symbol) : Parameter → Symbol
  | .sym x => x
  | .dummy r => name r

/-- The slot of a parameter, the last one if it is listed several times. -/
def slot? (ps : List Parameter) (p : Parameter) : Option Nat :=
  (ps.zipIdx.reverse.find? (·.1 == p)).map (·.2)

/-- The innermost of the parameter lists that lists a variable, and its slot there. -/
def bound? : List (List Value) → Parameter → Option (Nat × Nat)
  | [], _ => none
  | formals :: scopes, p =>
      match slot? (parameters formals) p with
      | some i => some (0, i)
      | none => (bound? scopes p).map fun a => (a.1 + 1, a.2)

/-- A word with the parameter lists around it known: a variable is the address of the innermost
parameter that it is. -/
def identified (name : Ref .dummy → Symbol) (scopes : List (List Value)) (v : Value) : Value :=
  match var? v with
  | none => v
  | some p =>
      match bound? scopes p with
      | none => v
      | some (level, offset) => .address ⟨level, offset, printed name p⟩

/-- What is left of a variable after the scans of the lambdas around: its name, if one of them binds
it. -/
def known (name : Ref .dummy → Symbol) (scopes : List (List Value)) (p : Parameter) : Parameter :=
  if (bound? scopes p).isSome then .sym (printed name p) else p

/-- The word is no variable that is taken for another among the parameters. -/
def Distinct (name : Ref .dummy → Symbol) (scopes : List (List Value)) (formals : List Value)
    (v : Value) : Prop :=
  ∀ p, var? v = some p → ∀ q ∈ parameters formals,
    known name scopes q = known name scopes p → q = p

end Scope

open Scope

namespace Code

mutual

/-- Resolve every variable by identity, and make templates of nested lambdas. -/
def identified (name : Ref .dummy → Symbol) (scopes : List (List Value)) : Code → Code
  | .word v => .word (Scope.identified name scopes v)
  | .quoted q => .quoted q
  | .list items => .list (identifiedAll name scopes items)
  | .lambda formals body =>
      .template (Parameters.ofFormals name formals).shape
        (identifiedAll name (formals :: scopes) body)
  | .expander items => .expander (identifiedAll name scopes items)
  | .template shape body => .template shape body

def identifiedAll (name : Ref .dummy → Symbol) (scopes : List (List Value)) :
    List Code → List Code
  | [] => []
  | c :: cs => identified name scopes c :: identifiedAll name scopes cs

end

mutual

/-- No nested lambda takes a variable that it holds for another among its parameters. -/
def Hygienic (name : Ref .dummy → Symbol) (scopes : List (List Value)) : Code → Prop
  | .word _ => True
  | .quoted _ => True
  | .list items => HygienicAll name scopes items
  | .lambda formals body =>
      EachAll (Distinct name scopes formals) body ∧ HygienicAll name (formals :: scopes) body
  | .expander items => HygienicAll name scopes items
  | .template _ _ => True

def HygienicAll (name : Ref .dummy → Symbol) (scopes : List (List Value)) : List Code → Prop
  | [] => True
  | c :: cs => Hygienic name scopes c ∧ HygienicAll name scopes cs

end

end Code

/-! ## One scan -/

namespace Scope

variable (name : Ref .dummy → Symbol) (scopes : List (List Value))

theorem slot?_eq_none {ps : List Parameter} {p : Parameter} : slot? ps p = none ↔ p ∉ ps := by
  simp only [slot?, Option.map_eq_none_iff, List.find?_eq_none, List.mem_reverse, beq_iff_eq]
  constructor
  · intro h hp
    obtain ⟨i, hi, rfl⟩ := List.mem_iff_getElem.1 hp
    exact h (ps[i], i) (by simp [List.mem_zipIdx_iff_getElem?]) rfl
  · rintro h ⟨q, i⟩ he rfl
    exact h (List.fst_mem_of_mem_zipIdx he)

/-- The mark of a rest parameter is no parameter itself. -/
theorem bound?_rest : bound? scopes (.sym Symbol.rest) = none := by
  induction scopes with
  | nil => rfl
  | cons formals scopes ih =>
      have hrest : Parameter.sym Symbol.rest ∉ parameters formals := by simp [parameters]
      rw [bound?, slot?_eq_none.2 hrest, ih]
      rfl

theorem identified_sym_rest :
    identified name scopes (.sym Symbol.rest) = .sym Symbol.rest := by
  simp [identified, var?, bound?_rest]

/-- Resolving leaves a word alone or makes an address of it. -/
theorem identified_cases (v : Value) :
    identified name scopes v = v ∨ ∃ a, identified name scopes v = .address a := by
  unfold identified
  split
  · exact .inl rfl
  · split
    · exact .inl rfl
    · exact .inr ⟨_, rfl⟩

theorem isSym_rest_identified (v : Value) :
    (identified name scopes v).isSym Symbol.rest = v.isSym Symbol.rest := by
  by_cases hv : v = .sym Symbol.rest
  · rw [hv, identified_sym_rest]
  · have hfalse : v.isSym Symbol.rest = false := by
      cases v with
      | sym x => simpa [Value.isSym] using hv
      | _ => rfl
    rcases identified_cases name scopes v with h | ⟨a, h⟩
    · rw [h]
    · rw [h, hfalse]
      rfl

/-- A parameter that the lambdas around have scanned is listed as what is left of it. -/
theorem listed?_identified {v : Value} (hv : ∀ a, v ≠ .address a) :
    Parameters.listed? name (identified name scopes v) =
      ((var? v).filter (· ≠ .sym Symbol.rest)).map
        fun q => (known name scopes q, printed name q) := by
  cases v with
  | sym x =>
      by_cases hx : x = Symbol.rest
      · subst hx
        simp [identified_sym_rest, Parameters.listed?, var?, Option.filter]
      · cases hb : bound? scopes (.sym x) with
        | none =>
            simp [identified, var?, hb, Parameters.listed?, known, hx, printed, Option.filter]
        | some a =>
            simp [identified, var?, hb, Parameters.listed?, known, hx, printed, Option.filter]
  | dummy r =>
      cases hb : bound? scopes (.dummy r) with
      | none => simp [identified, var?, hb, Parameters.listed?, known, printed, Option.filter]
      | some a => simp [identified, var?, hb, Parameters.listed?, known, printed, Option.filter]
  | address a => exact absurd rfl (hv a)
  | _ => rfl

theorem ofFormals_identified {formals : List Value} (hf : ∀ v ∈ formals, ∀ a, v ≠ .address a) :
    Parameters.ofFormals name (formals.map (identified name scopes)) =
      .ofList ((parameters formals).map fun q => (known name scopes q, printed name q))
        (hasRest formals) := by
  have hlisted : (formals.map (identified name scopes)).filterMap (Parameters.listed? name) =
      (parameters formals).map fun q => (known name scopes q, printed name q) := by
    rw [List.filterMap_map, parameters, List.filter_filterMap, List.map_filterMap]
    refine List.filterMap_congr fun v hv => ?_
    rw [Function.comp, listed?_identified name scopes (hf v hv)]
  have hrest : hasRest (formals.map (identified name scopes)) = hasRest formals := by
    simp only [hasRest, List.any_map]
    congr 1
    funext v
    exact isSym_rest_identified name scopes v
  rw [Parameters.ofFormals, hlisted, hrest]

theorem find?_congr {α : Type} {p q : α → Bool} {xs : List α} (h : ∀ x ∈ xs, p x = q x) :
    xs.find? p = xs.find? q := by
  induction xs with
  | nil => rfl
  | cons x xs ih =>
      rw [List.find?_cons, List.find?_cons, h x (by simp), ih fun y hy => h y (by simp [hy])]

/-- What is left of a variable is found in the slot of the variable, if it is not left of another
parameter too. -/
theorem find?_known {ps : List Parameter} (hasRest : Bool) {p : Parameter}
    (h : ∀ q ∈ ps, known name scopes q = known name scopes p → q = p) :
    (Parameters.ofList (ps.map fun q => (known name scopes q, printed name q)) hasRest).find?
        (known name scopes p) =
      (slot? ps p).map fun i => ⟨0, i, printed name p⟩ := by
  simp only [Parameters.find?, Parameters.ofList, slot?, List.zipIdx_map, List.map_map,
    ← List.map_reverse, List.find?_map, Option.map_map]
  have hsame : ps.zipIdx.reverse.find? (fun e => known name scopes e.1 == known name scopes p) =
      ps.zipIdx.reverse.find? (·.1 == p) := by
    refine find?_congr fun e he => ?_
    have hmem := List.fst_mem_of_mem_zipIdx (List.mem_reverse.1 he)
    by_cases heq : e.1 = p
    · simp [heq]
    · have hne : known name scopes e.1 ≠ known name scopes p := fun hk => heq (h e.1 hmem hk)
      simp [heq, hne]
  have hcomp : ((fun e : Parameter × Address => e.1 == known name scopes p) ∘
      (fun e : (Parameter × Symbol) × Nat => (e.1.1, (⟨0, e.2, e.1.2⟩ : Address))) ∘
      Prod.map (fun q => (known name scopes q, printed name q)) id) =
      fun e : Parameter × Nat => known name scopes e.1 == known name scopes p := rfl
  rw [hcomp, hsame]
  cases hfind : ps.zipIdx.reverse.find? (·.1 == p) with
  | none => rfl
  | some e =>
      have he : e.1 = p := by simpa using List.find?_some hfind
      simp [he]

/-- The step of the invariant: where nothing is confused, a scan of text that is resolved by
identity is resolution by identity with one parameter list more. -/
theorem scan_identified {formals : List Value} (hf : ∀ u ∈ formals, ∀ a, u ≠ .address a)
    {v : Value} (hv : ∀ a, v ≠ .address a) (hd : Distinct name scopes formals v) :
    (Parameters.ofFormals name (formals.map (identified name scopes))).scan
        (identified name scopes v) = identified name (formals :: scopes) v := by
  rw [ofFormals_identified name scopes hf]
  cases hp : var? v with
  | none =>
      cases v with
      | sym x => cases hp
      | dummy r => cases hp
      | address a => exact absurd rfl (hv a)
      | _ => rfl
  | some p =>
      have hfind := find?_known name scopes (hasRest formals) fun q hq hk => hd p hp q hq hk
      cases hb : bound? scopes p with
      | none =>
          have hknown : known name scopes p = p := by simp [known, hb]
          rw [hknown] at hfind
          have hword : identified name scopes v = v := by simp [identified, hp, hb]
          have hscan : ∀ ps : Parameters,
              ps.scan v = ((ps.find? p).map .address).getD v := by
            intro ps
            cases v <;> cases hp <;> rfl
          rw [hword, hscan, hfind]
          cases hs : slot? (parameters formals) p with
          | none => simp [identified, hp, bound?, hs, hb]
          | some i => simp [identified, hp, bound?, hs]
      | some a =>
          have hknown : known name scopes p = .sym (printed name p) := by simp [known, hb]
          rw [hknown] at hfind
          have hword : identified name scopes v = .address ⟨a.1, a.2, printed name p⟩ := by
            simp [identified, hp, hb]
          rw [hword, Parameters.scan, hfind]
          cases hs : slot? (parameters formals) p with
          | none => simp [identified, hp, bound?, hs, hb]
          | some i => simp [identified, hp, bound?, hs]

end Scope

/-! ## All scans -/

/-- A word of source text in which macros may have left private variables. -/
def Source (s : State) (v : Value) : Prop := Fit s v ∧ ∀ a, v ≠ .address a

namespace Code

mutual

theorem Each.and {p q : Value → Prop} :
    ∀ {c : Code}, c.Each p → c.Each q → c.Each fun v => p v ∧ q v
  | .word _, hp, hq => ⟨hp, hq⟩
  | .quoted _, _, _ => trivial
  | .list _, ⟨hne, hp⟩, ⟨_, hq⟩ => ⟨hne, EachAll.and hp hq⟩
  | .lambda _ _, ⟨hf, hp⟩, ⟨hf', hq⟩ =>
      ⟨fun v hv => ⟨hf v hv, hf' v hv⟩, EachAll.and hp hq⟩
  | .expander _, hp, hq => EachAll.and hp hq
  | .template _ _, hp, _ => hp.elim

theorem EachAll.and {p q : Value → Prop} :
    ∀ {cs : List Code}, EachAll p cs → EachAll q cs → EachAll (fun v => p v ∧ q v) cs
  | [], _, _ => trivial
  | _ :: _, ⟨hp, hps⟩, ⟨hq, hqs⟩ => ⟨Each.and hp hq, EachAll.and hps hqs⟩

end

/-- The shape of a parameter list is the same before and after the scans of the lambdas around. -/
theorem shape_identified (name : Ref .dummy → Symbol) (scopes : List (List Value))
    {formals : List Value} (hf : ∀ v ∈ formals, ∀ a, v ≠ .address a) :
    (Parameters.ofFormals name (formals.map (Scope.identified name scopes))).shape =
      (Parameters.ofFormals name formals).shape := by
  have hnone : Scope.identified name [] = id := by
    funext v
    cases v <;> rfl
  have hraw := ofFormals_identified name [] hf
  rw [hnone, List.map_id] at hraw
  rw [ofFormals_identified name scopes hf, hraw]
  simp [Parameters.shape, Parameters.ofList]

mutual

/-- Where nothing is confused, scanning comes to resolution by identity. -/
theorem scanned_identified (name : Ref .dummy → Symbol) {s : State} {scopes : List (List Value)} :
    ∀ c : Code, c.Each (Source s) → c.Hygienic name scopes →
      c.scanned name (Scope.identified name scopes) = c.identified name scopes
  | .word _, _, _ => rfl
  | .quoted _, _, _ => rfl
  | .list items, ⟨_, hc⟩, hh => by
      rw [scanned, identified, scannedAll_identified name items hc hh]
  | .lambda formals body, ⟨hf, hb⟩, ⟨hd, hh⟩ => by
      have hformals : ∀ v ∈ formals, ∀ a, v ≠ .address a := fun v hv => (hf v hv).2
      have hscan : ∀ v, Source s v ∧ Distinct name scopes formals v →
          ((Parameters.ofFormals name (formals.map (Scope.identified name scopes))).scan ∘
            Scope.identified name scopes) v = Scope.identified name (formals :: scopes) v :=
        fun v hv => scan_identified name scopes hformals hv.1.2 hv.2
      rw [scanned, identified, shape_identified name scopes hformals,
        scannedAll_congr name hscan body (EachAll.and hb hd), scannedAll_identified name body hb hh]
  | .expander items, hc, hh => by
      rw [scanned, identified, scannedAll_identified name items hc hh]
  | .template _ _, hc, _ => hc.elim

theorem scannedAll_identified (name : Ref .dummy → Symbol) {s : State}
    {scopes : List (List Value)} :
    ∀ cs : List Code, EachAll (Source s) cs → HygienicAll name scopes cs →
      scannedAll name (Scope.identified name scopes) cs = identifiedAll name scopes cs
  | [], _, _ => rfl
  | c :: cs, ⟨hc, hcs⟩, ⟨hh, hhs⟩ => by
      rw [scannedAll, identifiedAll, scanned_identified name c hc hh,
        scannedAll_identified name cs hcs hhs]

end

end Code

/-! ## Compiling -/

namespace Engine

/-- The outermost lambda confuses nothing, since there is none around it. -/
theorem scan_outermost (name : Ref .dummy → Symbol) {formals : List Value} {v : Value}
    (hf : ∀ u ∈ formals, ∀ a, u ≠ .address a) (hv : ∀ a, v ≠ .address a) :
    (Parameters.ofFormals name formals).scan v = Scope.identified name [formals] v := by
  have hnone : Scope.identified name [] = id := by
    funext v
    cases v <;> rfl
  have hd : Distinct name [] formals v := fun p _ q _ hk => hk
  have hscan := scan_identified name [] hf hv hd
  rw [hnone, List.map_id] at hscan
  exact hscan

/-- Compiling resolves every variable by identity, as long as no nested lambda takes a variable that
it holds for another among its parameters. -/
theorem compile_identified (E : Engine) {kind : CallableKind} {formals : List Value}
    {body : List Code} {r : Ref .cell} {f b w : Value} {s t : State}
    (hr : s.store.cell? r = some ⟨f, b⟩) (hf : s.store.Chain formals .nil f)
    (hb : StandsAll s.store body b) (hformals : ∀ v ∈ formals, Source s v)
    (hbody : EachAll (Source s) body)
    (hclear : HygienicAll s.store.dummySymbol [formals] body)
    (h : E.compile kind (.pair r) s = .ok w t) :
    ∃ i b', w = .callable i ∧
      t.store.callables[i.index]? =
        some (kind.make (Parameters.ofFormals s.store.dummySymbol formals).shape b') ∧
      StandsAll t.store (identifiedAll s.store.dummySymbol [formals] body) b' := by
  have hfit : EachAll (Fit s) body :=
    eachAll_iff.2 fun c hc => (eachAll_iff.1 hbody c hc).imp fun _ hv => hv.1
  obtain ⟨i, b', hw, hi, hb', -⟩ := E.compile_scanned hr hf hb hfit h
  have hscan : ∀ v, Source s v →
      (Parameters.ofFormals s.store.dummySymbol formals).scan v =
        Scope.identified s.store.dummySymbol [formals] v :=
    fun v hv => scan_outermost _ (fun u hu => (hformals u hu).2) hv.2
  rw [scannedAll_congr _ hscan body hbody, scannedAll_identified _ body hbody hclear] at hb'
  exact ⟨i, b', hw, hi, hb'⟩

/-- A state in which `$x` is the symbol 17 and also the name of a private variable. -/
def privateText (cells : Array Cell) : State where
  console := { answers := [] }
  symbols := .ofNames ["$x"]
  store := { capacity := 100, dummies := #[⟨17⟩], cells }

theorem source_sym_privateText (cells : Array Cell) : Source (privateText cells) (.sym ⟨17⟩) := by
  refine ⟨⟨⟨rfl, rfl⟩, ?_⟩, nofun⟩
  rintro ⟨r, shape, body, hg, -⟩
  simp [State.global?, privateText] at hg

theorem source_dummy_privateText (cells : Array Cell) :
    Source (privateText cells) (.dummy ⟨0⟩) :=
  ⟨⟨⟨rfl, rfl⟩, nofun⟩, nofun⟩

/-- A lambda of the symbol around one of the private variable keeps them apart. -/
theorem compile_identified_apart :
    let s := privateText #[
      -- ((private) ($x private))
      ⟨.dummy ⟨0⟩, .nil⟩, ⟨.dummy ⟨0⟩, .nil⟩, ⟨.sym ⟨17⟩, .pair ⟨1⟩⟩, ⟨.pair ⟨2⟩, .nil⟩,
      ⟨.pair ⟨0⟩, .pair ⟨3⟩⟩,
      -- (($x) (lambda (private) ($x private)))
      ⟨.sym Symbol.lambda, .pair ⟨4⟩⟩, ⟨.pair ⟨5⟩, .nil⟩, ⟨.sym ⟨17⟩, .nil⟩, ⟨.pair ⟨7⟩, .pair ⟨6⟩⟩]
    ∃ t i b, (Engine.ofFuel 8).compile .template (.pair ⟨8⟩) s = .ok (.callable i) t ∧
      t.store.callables[i.index]? = some (.template ⟨1, false⟩ b) ∧
      StandsAll t.store [.template ⟨1, false⟩
        [.list [.word (.address ⟨1, 0, ⟨17⟩⟩), .word (.address ⟨0, 0, ⟨17⟩⟩)]]] b := by
  intro s
  have hok : ((Engine.ofFuel 8).compile .template (.pair ⟨8⟩) s).isOk = true := by decide +kernel
  obtain ⟨w, t, h⟩ := Outcome.exists_of_isOk hok
  have hformals : s.store.Chain [.sym ⟨17⟩] .nil (.pair ⟨7⟩) := ⟨_, _, rfl, rfl, rfl⟩
  have hbody : StandsAll s.store
      [.lambda [.dummy ⟨0⟩] [.list [.word (.sym ⟨17⟩), .word (.dummy ⟨0⟩)]]] (.pair ⟨6⟩) :=
    ⟨_, _, _, rfl, rfl, ⟨_, _, _, _, rfl, rfl, rfl, ⟨_, _, rfl, rfl, rfl⟩,
      _, _, _, rfl, rfl, ⟨_, _, _, rfl, rfl, rfl, _, _, _, rfl, rfl, rfl, rfl⟩, rfl⟩, rfl⟩
  have hsym : Source s (.sym ⟨17⟩) := source_sym_privateText _
  have hdummy : Source s (.dummy ⟨0⟩) := source_dummy_privateText _
  have hdistinct : ∀ v, Distinct s.store.dummySymbol [[.sym ⟨17⟩]] [.dummy ⟨0⟩] v := by
    intro v p hv q hq hk
    cases List.mem_singleton.1 hq
    cases p with
    | sym x =>
        have hne : known s.store.dummySymbol [[.sym ⟨17⟩]] (.sym x) = .sym x := by
          simp [known, printed]
        rw [hne] at hk
        cases hk
    | dummy r =>
        have hnone : bound? [[.sym ⟨17⟩]] (.dummy r) = none := by
          rw [bound?, slot?_eq_none.2 (by simp [Scope.parameters, var?])]
          rfl
        have hr : known s.store.dummySymbol [[.sym ⟨17⟩]] (.dummy r) = .dummy r := by
          simp [known, hnone]
        rw [hr] at hk
        exact hk
  obtain ⟨i, b, rfl, hi, hb⟩ := compile_identified (Engine.ofFuel 8) rfl hformals hbody
    (by simpa using hsym) (by simpa [EachAll, Each] using ⟨hdummy, hsym, hdummy⟩)
    (by simp [HygienicAll, Hygienic, EachAll, Each, hdistinct]) h
  exact ⟨t, i, b, h, hi, hb⟩

/-- Identity is lost in general: inside a lambda of the private variable, one of the symbol takes it
for its own parameter. -/
theorem compile_captures :
    ¬ ∀ (E : Engine) (kind : CallableKind) (formals : List Value) (body : List Code)
      (r : Ref .cell) (f b w : Value) (s t : State), s.store.cell? r = some ⟨f, b⟩ →
      s.store.Chain formals .nil f → StandsAll s.store body b → (∀ v ∈ formals, Source s v) →
      EachAll (Source s) body → E.compile kind (.pair r) s = .ok w t →
      ∃ i b', w = .callable i ∧
        t.store.callables[i.index]? =
          some (kind.make (Parameters.ofFormals s.store.dummySymbol formals).shape b') ∧
        StandsAll t.store (identifiedAll s.store.dummySymbol [formals] body) b' := by
  intro hall
  let s := privateText #[
    -- (($x) private)
    ⟨.sym ⟨17⟩, .nil⟩, ⟨.dummy ⟨0⟩, .nil⟩, ⟨.pair ⟨0⟩, .pair ⟨1⟩⟩,
    -- ((private) (lambda ($x) private))
    ⟨.sym Symbol.lambda, .pair ⟨2⟩⟩, ⟨.pair ⟨3⟩, .nil⟩, ⟨.dummy ⟨0⟩, .nil⟩, ⟨.pair ⟨5⟩, .pair ⟨4⟩⟩]
  have hok : ((Engine.ofFuel 8).compile .template (.pair ⟨6⟩) s).isOk = true := by decide +kernel
  obtain ⟨w, t, h⟩ := Outcome.exists_of_isOk hok
  have hformals : s.store.Chain [.dummy ⟨0⟩] .nil (.pair ⟨5⟩) := ⟨_, _, rfl, rfl, rfl⟩
  have hbody : StandsAll s.store [.lambda [.sym ⟨17⟩] [.word (.dummy ⟨0⟩)]] (.pair ⟨4⟩) :=
    ⟨_, _, _, rfl, rfl, ⟨_, _, _, _, rfl, rfl, rfl, ⟨_, _, rfl, rfl, rfl⟩,
      _, _, _, rfl, rfl, rfl, rfl⟩, rfl⟩
  have hsym : Source s (.sym ⟨17⟩) := source_sym_privateText _
  have hdummy : Source s (.dummy ⟨0⟩) := source_dummy_privateText _
  have hwords : EachAll (Source s) [.lambda [.sym ⟨17⟩] [.word (.dummy ⟨0⟩)]] := by
    simpa [EachAll, Each] using ⟨hsym, hdummy⟩
  have hfit : EachAll (Fit s) [.lambda [.sym ⟨17⟩] [.word (.dummy ⟨0⟩)]] :=
    eachAll_iff.2 fun c hc => (eachAll_iff.1 hwords c hc).imp fun _ hv => hv.1
  obtain ⟨i, b, hw, hi, hb⟩ := hall (Engine.ofFuel 8) .template [.dummy ⟨0⟩]
    [.lambda [.sym ⟨17⟩] [.word (.dummy ⟨0⟩)]] ⟨6⟩ _ _ w s t rfl hformals hbody
    (by simpa using hdummy) hwords h
  obtain ⟨j, b', hw', hj, hb', -⟩ := compile_scanned (Engine.ofFuel 8) rfl hformals hbody hfit h
  cases hw
  cases hw'
  cases hi.symm.trans hj
  -- by identity the variable belongs to the outer lambda, but the scans gave it to the inner one
  obtain ⟨r, a, d, rfl, hr, ⟨g, c, rfl, hg, q, x, e, rfl, hq, hx, -⟩, -⟩ := hb
  obtain ⟨_, _, _, hrr, hr', ⟨_, _, rfl, hg', _, _, _, rfl, hq', hx', -⟩, -⟩ := hb'
  cases hrr
  cases hr.symm.trans hr'
  cases hg.symm.trans hg'
  cases hq.symm.trans hq'
  cases hx.symm.trans hx'

end Engine

end SmallLisp
