import SmallLisp.Proofs.Compiler.Code

/-!
# Lexical addressing

The compiler never computes how far out a variable is bound: every enclosing lambda rewrites the
whole text inside it, and each later one shadows the addresses it finds or moves them one level
out. `Code.addressed` is the resolver that goes over the text once and knows the parameters of all
enclosing lambdas. The main result is that both give the same body.

Between the scans the text is partly resolved: each symbol is where the lambdas scanned so far put
it. That is the invariant: a scan with one more parameter list is the same as having resolved with
one more scope.
-/

namespace SmallLisp

/-! ## One-pass resolution -/

namespace Scope

/-- The position of the last parameter of a name. -/
def lastIndex? (names : List Symbol) (x : Symbol) : Option Nat :=
  (names.zipIdx.reverse.find? (·.1 == x)).map (·.2)

/-- Where a name is bound, given the parameters of the enclosing lambdas, innermost first: the
number of lambdas in between, and the slot in the innermost lambda that has the name. -/
def locate (scopes : List (List Symbol)) (x : Symbol) : Option Address :=
  (scopes.findIdx? (·.contains x)).bind fun level =>
    (lastIndex? (scopes.getD level []) x).map fun offset => ⟨level, offset, x⟩

/-- A word with its scopes known: a bound symbol is its address, all else stays as it is. -/
def located (scopes : List (List Symbol)) : Value → Value
  | .sym x => ((locate scopes x).map .address).getD (.sym x)
  | v => v

/-- The parameter that an item of a parameter list is. An address is a name that was resolved by a
lambda around. -/
def formal? : Value → Option Symbol
  | .sym x => if x = Symbol.rest then none else some x
  | .address a => some a.symbol
  | _ => none

/-- The parameters of a parameter list in the order of their slots. -/
def names (formals : List Value) : List Symbol := formals.filterMap formal?

/-- Whether a parameter list has a parameter for the rest. -/
def hasRest (formals : List Value) : Bool := formals.any (·.isSym Symbol.rest)

/-- The shape of a parameter list. -/
def shape (formals : List Value) : Shape :=
  ⟨if hasRest formals then (names formals).length - 1 else (names formals).length,
    hasRest formals⟩

end Scope

open Scope

namespace Code

mutual

/-- Resolve every symbol against the enclosing scopes, and make templates of nested lambdas. -/
def addressed (scopes : List (List Symbol)) : Code → Code
  | .word v => .word (located scopes v)
  | .quoted q => .quoted q
  | .list items => .list (addressedAll scopes items)
  | .lambda formals body =>
      .template (Scope.shape formals) (addressedAll (names formals :: scopes) body)
  | .expander items => .expander (addressedAll scopes items)
  | .template shape body => .template shape body

/-- Resolve every item. -/
def addressedAll (scopes : List (List Symbol)) : List Code → List Code
  | [] => []
  | c :: cs => addressed scopes c :: addressedAll scopes cs

end

mutual

theorem Each.mapWords {p q : Value → Prop} {f : Value → Value} (h : ∀ v, p v → q (f v)) :
    ∀ c : Code, c.Each p → (c.mapWords f).Each q
  | .word v, hc => h v hc
  | .quoted _, _ => trivial
  | .list items, ⟨hne, hc⟩ => by
      refine ⟨?_, EachAll.mapAll h items hc⟩
      cases items with
      | nil => exact absurd rfl hne
      | cons c cs => simp [mapAll]
  | .lambda formals body, ⟨hf, hb⟩ => by
      refine ⟨?_, EachAll.mapAll h body hb⟩
      intro v hv
      obtain ⟨u, hu, rfl⟩ := List.mem_map.1 hv
      exact h u (hf u hu)
  | .expander items, hc => EachAll.mapAll h items hc
  | .template _ _, hc => hc.elim

theorem EachAll.mapAll {p q : Value → Prop} {f : Value → Value} (h : ∀ v, p v → q (f v)) :
    ∀ cs : List Code, EachAll p cs → EachAll q (mapAll f cs)
  | [], _ => trivial
  | c :: cs, ⟨hc, hcs⟩ => ⟨Each.mapWords h c hc, EachAll.mapAll h cs hcs⟩

end

theorem Each.imp {p q : Value → Prop} (h : ∀ v, p v → q v) {c : Code} (hc : c.Each p) :
    c.Each q := by
  have hmap := Each.mapWords (f := id) h c hc
  rwa [mapWords_eq_self (f := id) fun _ => rfl] at hmap

mutual

/-- Two rounds of replacing words are one, if they are so for each word. -/
theorem mapWords_mapWords {p : Value → Prop} {f g k : Value → Value}
    (h : ∀ v, p v → g (f v) = k v) :
    ∀ c : Code, c.Each p → (c.mapWords f).mapWords g = c.mapWords k
  | .word v, hc => by simp only [mapWords, h v hc]
  | .quoted _, _ => rfl
  | .list items, ⟨_, hc⟩ => by simp only [mapWords, mapAll_mapAll h items hc]
  | .lambda formals body, ⟨hf, hb⟩ => by
      have hformals : (formals.map f).map g = formals.map k := by
        rw [List.map_map]
        exact List.map_congr_left fun v hv => h v (hf v hv)
      simp only [mapWords, mapAll_mapAll h body hb, hformals]
  | .expander items, hc => by simp only [mapWords, mapAll_mapAll h items hc]
  | .template _ _, hc => hc.elim

theorem mapAll_mapAll {p : Value → Prop} {f g k : Value → Value}
    (h : ∀ v, p v → g (f v) = k v) :
    ∀ cs : List Code, EachAll p cs → mapAll g (mapAll f cs) = mapAll k cs
  | [], _ => rfl
  | c :: cs, ⟨hc, hcs⟩ => by
      simp only [mapAll, mapWords_mapWords h c hc, mapAll_mapAll h cs hcs]

end

end Code

/-! ## Parameter lists -/

namespace Parameters

/-- The parameters of the given names, one slot each. -/
def ofNames (names : List Symbol) (hasRest : Bool) : Parameters where
  entries := (names.zipIdx.map fun e => (.sym e.1, ⟨0, e.2, e.1⟩)).reverse
  count := names.length
  hasRest := hasRest

/-- A parameter is found in the slot of the last one of its name. -/
theorem find?_ofNames (names : List Symbol) (hasRest : Bool) (x : Symbol) :
    (ofNames names hasRest).find? (.sym x) =
      (lastIndex? names x).map fun i => ⟨0, i, x⟩ := by
  simp only [find?, ofNames, lastIndex?, ← List.map_reverse, List.find?_map, Option.map_map]
  have hp : ((fun e : Parameter × Address => e.1 == .sym x) ∘
      fun e : Symbol × Nat => (Parameter.sym e.1, (⟨0, e.2, e.1⟩ : Address))) =
      fun e => e.1 == x := by
    funext e
    simp [Function.comp, beq_eq_decide]
  rw [hp]
  cases hf : List.find? (fun e : Symbol × Nat => e.1 == x) names.zipIdx.reverse with
  | none => rfl
  | some e =>
      have he : e.1 = x := by simpa using List.find?_some hf
      simp [he]

/-- What a scan with the parameters puts in place of a word. -/
def scan (ps : Parameters) : Value → Value
  | .sym x => ((ps.find? (.sym x)).map .address).getD (.sym x)
  | .dummy r => ((ps.find? (.dummy r)).map .address).getD (.dummy r)
  | .address a => .address ((ps.find? (.sym a.symbol)).getD { a with level := a.level + 1 })
  | v => v

/-- A scan leaves a word alone or makes an address of it. -/
theorem scan_cases (ps : Parameters) (v : Value) : ps.scan v = v ∨ ∃ a, ps.scan v = .address a := by
  cases v with
  | sym x =>
      cases hf : ps.find? (.sym x) with
      | none => exact .inl (by simp [scan, hf])
      | some a => exact .inr ⟨a, by simp [scan, hf]⟩
  | dummy r =>
      cases hf : ps.find? (.dummy r) with
      | none => exact .inl (by simp [scan, hf])
      | some a => exact .inr ⟨a, by simp [scan, hf]⟩
  | address a => exact .inr ⟨_, rfl⟩
  | _ => exact .inl rfl

/-- What an item of a parameter list is listed as, with the symbol its address is to carry. A
private variable is listed as itself until a lambda around has resolved it; then only its name is
left. -/
def listed? (name : Ref .dummy → Symbol) : Value → Option (Parameter × Symbol)
  | .sym x => if x = Symbol.rest then none else some (.sym x, x)
  | .address a => some (.sym a.symbol, a.symbol)
  | .dummy r => some (.dummy r, name r)
  | _ => none

/-- The parameters with their symbols, one slot each. -/
def ofList (listed : List (Parameter × Symbol)) (hasRest : Bool) : Parameters where
  entries := (listed.zipIdx.map fun e => (e.1.1, ⟨0, e.2, e.1.2⟩)).reverse
  count := listed.length
  hasRest := hasRest

/-- The parameters of a parameter list. -/
def ofFormals (name : Ref .dummy → Symbol) (formals : List Value) : Parameters :=
  ofList (formals.filterMap (listed? name)) (Scope.hasRest formals)

theorem ofList_add (listed : List (Parameter × Symbol)) (hasRest : Bool) (p : Parameter)
    (x : Symbol) : (ofList listed hasRest).add p x = ofList (listed ++ [(p, x)]) hasRest := by
  simp [add, ofList, List.zipIdx_append]

theorem exists_of_mem_ofList {listed : List (Parameter × Symbol)} {hasRest : Bool}
    {e : Parameter × Address} (h : e ∈ (ofList listed hasRest).entries) :
    ∃ x, (e.1, x) ∈ listed := by
  simp only [ofList, List.mem_reverse, List.mem_map] at h
  obtain ⟨⟨⟨p, x⟩, i⟩, hm, rfl⟩ := h
  exact ⟨x, List.fst_mem_of_mem_zipIdx hm⟩

/-- Without private variables, the parameters are those of the names. -/
theorem ofFormals_eq_ofNames (name : Ref .dummy → Symbol) {formals : List Value}
    (h : ∀ v ∈ formals, ∀ r, v ≠ .dummy r) :
    ofFormals name formals = ofNames (Scope.names formals) (Scope.hasRest formals) := by
  have hlisted : formals.filterMap (listed? name) =
      (Scope.names formals).map fun x => (.sym x, x) := by
    rw [Scope.names, List.map_filterMap]
    refine List.filterMap_congr fun v hv => ?_
    cases v with
    | sym x => by_cases hx : x = Symbol.rest <;> simp [listed?, Scope.formal?, hx]
    | dummy r => exact absurd rfl (h _ hv r)
    | _ => rfl
  simp [ofFormals, hlisted, ofList, ofNames, List.zipIdx_map, Function.comp_def]

end Parameters

/-! ## Scan by scan -/

namespace Code

mutual

/-- The code after all scans, where `g` is what the lambdas around have made of each word. A lambda
takes its parameters as it finds them in that text, and scans its body with them. -/
def scanned (name : Ref .dummy → Symbol) (g : Value → Value) : Code → Code
  | .word v => .word (g v)
  | .quoted q => .quoted q
  | .list items => .list (scannedAll name g items)
  | .lambda formals body =>
      .template (Parameters.ofFormals name (formals.map g)).shape
        (scannedAll name ((Parameters.ofFormals name (formals.map g)).scan ∘ g) body)
  | .expander items => .expander (scannedAll name g items)
  | .template shape body => .template shape body

/-- Scan every item. -/
def scannedAll (name : Ref .dummy → Symbol) (g : Value → Value) : List Code → List Code
  | [] => []
  | c :: cs => scanned name g c :: scannedAll name g cs

end

theorem scannedAll_eq_map (name : Ref .dummy → Symbol) (g : Value → Value) (cs : List Code) :
    scannedAll name g cs = cs.map (scanned name g) := by
  induction cs with
  | nil => rfl
  | cons c cs ih => rw [scannedAll, ih, List.map_cons]

theorem scanned_ofItems (name : Ref .dummy → Symbol) {g : Value → Value} (hg : g .nil = .nil)
    (cs : List Code) : scanned name g (ofItems cs) = ofItems (scannedAll name g cs) := by
  cases cs with
  | nil => rw [ofItems, scanned, hg, scannedAll, ofItems]
  | cons c cs => rfl

end Code

theorem Scope.lastIndex?_eq_none {names : List Symbol} {x : Symbol} :
    lastIndex? names x = none ↔ x ∉ names := by
  simp only [lastIndex?, Option.map_eq_none_iff, List.find?_eq_none, List.mem_reverse, beq_iff_eq]
  constructor
  · intro h hx
    obtain ⟨i, hi, rfl⟩ := List.mem_iff_getElem.1 hx
    exact h (names[i], i) (by simp [List.mem_zipIdx_iff_getElem?]) rfl
  · rintro h ⟨y, i⟩ he rfl
    exact h (List.fst_mem_of_mem_zipIdx he)

/-- One more lambda around a word either binds it itself or is one more in between. -/
theorem Scope.locate_cons (names : List Symbol) (scopes : List (List Symbol)) (x : Symbol) :
    locate (names :: scopes) x =
      ((lastIndex? names x).map fun i => ⟨0, i, x⟩).or
        ((locate scopes x).map fun a => { a with level := a.level + 1 }) := by
  unfold locate
  rw [List.findIdx?_cons]
  by_cases hx : x ∈ names
  · have hi : lastIndex? names x ≠ none := fun h => lastIndex?_eq_none.1 h hx
    obtain ⟨i, hi⟩ := Option.ne_none_iff_exists'.1 hi
    simp [hx, hi]
  · rw [lastIndex?_eq_none.2 hx]
    cases hf : scopes.findIdx? (·.contains x) with
    | none => simp [hx]
    | some k =>
        cases hl : lastIndex? (scopes[k]?.getD []) x with
        | none => simp [hx, hl]
        | some i => simp [hx, hl]

theorem Scope.symbol_of_locate {scopes : List (List Symbol)} {x : Symbol} {a : Address}
    (h : locate scopes x = some a) : a.symbol = x := by
  simp only [locate, Option.bind_eq_some_iff, Option.map_eq_some_iff] at h
  obtain ⟨_, _, _, _, rfl⟩ := h
  rfl

/-- The step of the invariant: a scan of partly resolved text is resolution with one more scope. -/
theorem Scope.scan_located (names : List Symbol) (hasRest : Bool) (scopes : List (List Symbol))
    {v : Value} (ha : ∀ a, v ≠ .address a) (hd : ∀ r, v ≠ .dummy r) :
    (Parameters.ofNames names hasRest).scan (located scopes v) = located (names :: scopes) v := by
  cases v with
  | sym x =>
      simp only [located, locate_cons]
      cases hl : locate scopes x with
      | none =>
          simp only [Option.map_none, Option.getD_none, Parameters.scan, Parameters.find?_ofNames,
            Option.or_none]
      | some a =>
          have hx := symbol_of_locate hl
          simp only [Option.map_some, Option.getD_some, Parameters.scan,
            Parameters.find?_ofNames, hx]
          cases lastIndex? names x <;> rfl
  | address a => exact absurd rfl (ha a)
  | dummy r => exact absurd rfl (hd r)
  | _ => rfl

end SmallLisp
