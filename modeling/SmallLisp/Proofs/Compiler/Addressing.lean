import SmallLisp.Proofs.Compiler.Scanning

/-!
# Lexical addressing

The compiler never computes how far out a variable is bound: every enclosing lambda rewrites the
whole text inside it, parameter lists included, and each later one shadows the addresses it finds or
moves them one level out. The main result is that the body it ends with is the one that
`Code.addressed` gives, which goes over the text once and knows all enclosing parameter lists.

The invariant is about text between two scans: it is the source with every word resolved against
the scopes scanned so far. A scan takes such text one scope further.
-/

namespace SmallLisp

open Eval Code Scope

/-! ## Partly resolved text -/

theorem Scope.mem_of_locate {scopes : List (List Symbol)} {x : Symbol} {a : Address}
    (h : locate scopes x = some a) : ∃ names ∈ scopes, x ∈ names := by
  simp only [locate, Option.bind_eq_some_iff] at h
  obtain ⟨level, hl, -⟩ := h
  have hany : scopes.any (·.contains x) = true := by
    rw [← List.findIdx?_isSome, hl]
    rfl
  obtain ⟨names, hm, hx⟩ := List.any_eq_true.1 hany
  exact ⟨names, hm, by simpa using hx⟩

/-- Resolving leaves a word alone or makes an address of it. -/
theorem Scope.located_cases (scopes : List (List Symbol)) (v : Value) :
    located scopes v = v ∨
      ∃ x a, v = .sym x ∧ locate scopes x = some a ∧ located scopes v = .address a := by
  cases v with
  | sym x =>
      cases hl : locate scopes x with
      | none => exact .inl (by simp [located, hl])
      | some a => exact .inr ⟨x, a, rfl, hl, by simp [located, hl]⟩
  | _ => exact .inl rfl

theorem Plain.located_ne_dummy {s : State} {v : Value} (h : Plain s v)
    (scopes : List (List Symbol)) (r : Ref .dummy) : located scopes v ≠ .dummy r := by
  rcases located_cases scopes v with hv | ⟨x, a, -, -, hv⟩
  · rw [hv]
    exact h.dummy r
  · rw [hv]
    nofun

section Scopes

variable {scopes : List (List Symbol)} (hrest : ∀ names ∈ scopes, Symbol.rest ∉ names)
include hrest

/-- A parameter is still the same parameter after the lambdas around have resolved its name. -/
theorem Scope.formal?_located (v : Value) : formal? (located scopes v) = formal? v := by
  rcases located_cases scopes v with hv | ⟨x, a, rfl, hl, hv⟩
  · rw [hv]
  · obtain ⟨names, hm, hx⟩ := mem_of_locate hl
    have hne : x ≠ Symbol.rest := fun h => hrest names hm (h ▸ hx)
    rw [hv]
    simp [formal?, hne, symbol_of_locate hl]

theorem Scope.isSym_rest_located (v : Value) :
    (located scopes v).isSym Symbol.rest = v.isSym Symbol.rest := by
  rcases located_cases scopes v with hv | ⟨x, a, rfl, hl, hv⟩
  · rw [hv]
  · obtain ⟨names, hm, hx⟩ := mem_of_locate hl
    have hne : x ≠ Symbol.rest := fun h => hrest names hm (h ▸ hx)
    rw [hv]
    simp [Value.isSym, hne]

theorem Scope.names_located (formals : List Value) :
    names (formals.map (located scopes)) = names formals := by
  simp only [names, List.filterMap_map]
  congr 1
  funext v
  exact formal?_located hrest v

theorem Scope.hasRest_located (formals : List Value) :
    hasRest (formals.map (located scopes)) = hasRest formals := by
  simp only [hasRest, List.any_map]
  congr 1
  funext v
  exact isSym_rest_located hrest v

end Scopes

theorem Scope.rest_notMem_names {formals : List Value}
    (h : ∀ v ∈ formals, ∀ a, v ≠ .address a) : Symbol.rest ∉ names formals := by
  intro hm
  obtain ⟨v, hv, hf⟩ := List.mem_filterMap.1 hm
  cases v with
  | sym x =>
      simp only [formal?] at hf
      split at hf
      · cases hf
      · rename_i hx
        cases hf
        exact hx rfl
  | address a => exact h _ hv a rfl
  | _ => cases hf

/-! ## Compiling -/

/-- The parameters read from a parameter list that is partly resolved are those of its names. -/
theorem Scope.ofFormals_located (name : Ref .dummy → Symbol) {scopes : List (List Symbol)}
    (hrest : ∀ names ∈ scopes, Symbol.rest ∉ names) {s : State} {formals : List Value}
    (h : ∀ v ∈ formals, Plain s v) :
    Parameters.ofFormals name (formals.map (located scopes)) =
      .ofNames (names formals) (hasRest formals) := by
  have hdummy : ∀ w ∈ formals.map (located scopes), ∀ r, w ≠ .dummy r := by
    intro w hw
    obtain ⟨v, hv, rfl⟩ := List.mem_map.1 hw
    exact (h v hv).located_ne_dummy scopes
  rw [Parameters.ofFormals_eq_ofNames name hdummy, names_located hrest, hasRest_located hrest]

namespace Code

mutual

/-- Scan by scan and in one go, the source comes to the same. -/
theorem scanned_located (name : Ref .dummy → Symbol) {s : State} {scopes : List (List Symbol)}
    (hrest : ∀ names ∈ scopes, Symbol.rest ∉ names) :
    ∀ c : Code, c.Each (Plain s) → c.scanned name (located scopes) = c.addressed scopes
  | .word _, _ => rfl
  | .quoted _, _ => rfl
  | .list items, ⟨_, hc⟩ => by
      rw [scanned, addressed, scannedAll_located name hrest items hc]
  | .lambda formals body, ⟨hf, hb⟩ => by
      have hrest' : ∀ ns ∈ names formals :: scopes, Symbol.rest ∉ ns := by
        intro ns hns
        rcases List.mem_cons.1 hns with rfl | hns
        · exact rest_notMem_names fun v hv => (hf v hv).address
        · exact hrest ns hns
      have hscan : ∀ v, Plain s v →
          ((Parameters.ofNames (names formals) (hasRest formals)).scan ∘ located scopes) v =
            located (names formals :: scopes) v :=
        fun v hv => scan_located (names formals) (hasRest formals) scopes hv.address hv.dummy
      rw [scanned, addressed, ofFormals_located name hrest hf, scannedAll_congr name hscan body hb,
        scannedAll_located name hrest' body hb]
      rfl
  | .expander items, hc => by
      rw [scanned, addressed, scannedAll_located name hrest items hc]
  | .template _ _, hc => hc.elim

theorem scannedAll_located (name : Ref .dummy → Symbol) {s : State} {scopes : List (List Symbol)}
    (hrest : ∀ names ∈ scopes, Symbol.rest ∉ names) :
    ∀ cs : List Code, EachAll (Plain s) cs →
      scannedAll name (located scopes) cs = addressedAll scopes cs
  | [], _ => rfl
  | c :: cs, ⟨hc, hcs⟩ => by
      rw [scannedAll, addressedAll, scanned_located name hrest c hc,
        scannedAll_located name hrest cs hcs]

end

end Code

namespace Engine

/-- A compiled lambda has the shape of its parameter list, and its body is the source with every
symbol outside quoted data resolved in one go against the lambdas around it. Nothing but new cells
and templates is added. -/
theorem compile_addressed (E : Engine) {kind : CallableKind} {formals : List Value}
    {body : List Code} {r : Ref .cell} {f b w : Value} {s t : State}
    (hr : s.store.cell? r = some ⟨f, b⟩) (hf : s.store.Chain formals .nil f)
    (hb : StandsAll s.store body b) (hformals : ∀ v ∈ formals, Plain s v)
    (hbody : EachAll (Plain s) body) (h : E.compile kind (.pair r) s = .ok w t) :
    ∃ i b', w = .callable i ∧
      t.store.callables[i.index]? = some (kind.make (Scope.shape formals) b') ∧
      StandsAll t.store (addressedAll [names formals] body) b' ∧
      s.store.KeepsCells t.store ∧
      t = { s with store :=
        { s.store with cells := t.store.cells, callables := t.store.callables } } := by
  -- The lambda itself is scanned as if it stood in no other.
  have hword : ∀ v, located [] v = v := fun v => by cases v <;> rfl
  have hnone : ∀ names ∈ ([] : List (List Symbol)), Symbol.rest ∉ names := by simp
  have hps := ofFormals_located s.store.dummySymbol hnone hformals
  rw [List.map_congr_left fun v _ => hword v, List.map_id'] at hps
  have hrest : ∀ ns ∈ [names formals], Symbol.rest ∉ ns := by
    intro ns hns
    cases List.mem_singleton.1 hns
    exact rest_notMem_names fun v hv => (hformals v hv).address
  have hscan : ∀ v, Plain s v →
      (Parameters.ofNames (names formals) (hasRest formals)).scan v =
        located [names formals] v := by
    intro v hv
    rw [← scan_located (names formals) (hasRest formals) [] hv.address hv.dummy, hword]
  have hfit : EachAll (Fit s) body :=
    eachAll_iff.2 fun c hc => (eachAll_iff.1 hbody c hc).imp fun _ hv => hv.fit
  obtain ⟨i, b', hw, hi, hb', hrest'⟩ := E.compile_scanned hr hf hb hfit h
  rw [hps] at hi hb'
  rw [scannedAll_congr _ hscan body hbody, scannedAll_located _ hrest body hbody] at hb'
  exact ⟨i, b', hw, hi, hb', hrest'⟩

/-- A state whose last cell is `((x &rest y) (lambda (y) (x y (quote x) z)))`. -/
def shadowingText : State where
  console := { answers := [] }
  symbols := .ofNames ["x", "y", "z"]
  store := {
    capacity := 100
    cells := #[
      -- (y)
      ⟨.sym ⟨18⟩, .nil⟩,
      -- (quote x)
      ⟨.sym Symbol.quote, .pair ⟨2⟩⟩, ⟨.sym ⟨17⟩, .nil⟩,
      -- (x y (quote x) z)
      ⟨.sym ⟨19⟩, .nil⟩, ⟨.pair ⟨1⟩, .pair ⟨3⟩⟩, ⟨.sym ⟨18⟩, .pair ⟨4⟩⟩, ⟨.sym ⟨17⟩, .pair ⟨5⟩⟩,
      -- ((lambda (y) (x y (quote x) z)))
      ⟨.pair ⟨6⟩, .nil⟩, ⟨.pair ⟨0⟩, .pair ⟨7⟩⟩, ⟨.sym Symbol.lambda, .pair ⟨8⟩⟩, ⟨.pair ⟨9⟩, .nil⟩,
      -- (x &rest y)
      ⟨.sym ⟨18⟩, .nil⟩, ⟨.sym Symbol.rest, .pair ⟨11⟩⟩, ⟨.sym ⟨17⟩, .pair ⟨12⟩⟩,
      ⟨.pair ⟨13⟩, .pair ⟨10⟩⟩] }

theorem plain_shadowingText {x : Symbol} (hx : isLeftAlone (.sym x) = false) :
    Plain shadowingText (.sym x) := by
  refine ⟨⟨⟨rfl, hx⟩, nofun⟩, nofun, ?_⟩
  rintro ⟨r, shape, body, hg, -⟩
  simp [State.global?, shadowingText] at hg

/-- The inner `y` shadows the outer one, and the outer `x` is one lambda away. -/
theorem compile_addressed_shadowing :
    ∃ t i b, (Engine.ofFuel 8).compile .template (.pair ⟨14⟩) shadowingText =
        .ok (.callable i) t ∧
      t.store.callables[i.index]? = some (.template ⟨1, true⟩ b) ∧
      StandsAll t.store
        [.template ⟨1, false⟩ [.list [.word (.address ⟨1, 0, ⟨17⟩⟩),
          .word (.address ⟨0, 0, ⟨18⟩⟩), .quoted (.cell ⟨1⟩), .word (.sym ⟨19⟩)]]] b := by
  have hok : ((Engine.ofFuel 8).compile .template (.pair ⟨14⟩) shadowingText).isOk = true := by
    decide +kernel
  obtain ⟨w, t, h⟩ := Outcome.exists_of_isOk hok
  have hformals : shadowingText.store.Chain
      [.sym ⟨17⟩, .sym Symbol.rest, .sym ⟨18⟩] .nil (.pair ⟨13⟩) :=
    ⟨_, _, rfl, rfl, _, _, rfl, rfl, _, _, rfl, rfl, rfl⟩
  have hbody : StandsAll shadowingText.store
      [.lambda [.sym ⟨18⟩]
        [.list [.word (.sym ⟨17⟩), .word (.sym ⟨18⟩), .quoted (.cell ⟨1⟩), .word (.sym ⟨19⟩)]]]
      (.pair ⟨10⟩) :=
    ⟨_, _, _, rfl, rfl, ⟨_, _, _, _, rfl, rfl, rfl, ⟨_, _, rfl, rfl, rfl⟩,
      _, _, _, rfl, rfl, ⟨_, _, _, rfl, rfl, rfl, _, _, _, rfl, rfl, rfl,
        _, _, _, rfl, rfl, ⟨rfl, _, rfl⟩, _, _, _, rfl, rfl, rfl, rfl⟩, rfl⟩, rfl⟩
  have hx := plain_shadowingText (x := ⟨17⟩) rfl
  have hy := plain_shadowingText (x := ⟨18⟩) rfl
  have hz := plain_shadowingText (x := ⟨19⟩) rfl
  have hrest := plain_shadowingText (x := Symbol.rest) rfl
  obtain ⟨i, b, rfl, hi, hb, -⟩ := compile_addressed (Engine.ofFuel 8) rfl hformals hbody
    (by simp [hx, hy, hrest]) (by simp [EachAll, Each, hx, hy, hz]) h
  exact ⟨t, i, b, h, hi, hb⟩

end Engine

end SmallLisp
