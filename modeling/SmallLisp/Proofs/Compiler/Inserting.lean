import SmallLisp.Proofs.Compiler.Scanning

/-!
# Patterns and what is inserted into them

A macro that only puts its arguments into a pattern can be expanded before the lambdas of the
arguments are compiled, or after that. In the first case the lambdas that the pattern puts around an
argument scan its text; in the second case they find templates there, which a scan does not enter.

As long as the lambdas around an argument leave alone the variables that are free in the lambdas of
the argument, both come to the same code.
-/

namespace SmallLisp

open Code Scope

/-! ## Free variables -/

namespace Code

mutual

/-- All words that are not bound in the code satisfy `p`. The names in `bound` are bound around
it. -/
def Free (p : Value → Prop) (bound : List Symbol) : Code → Prop
  | .word v => p v ∨ ∃ x ∈ bound, formal? v = some x
  | .quoted _ => True
  | .list items => FreeAll p bound items
  | .lambda formals body =>
      (∀ v ∈ formals, p v ∨ (formal? v).isSome) ∧ FreeAll p (names formals ++ bound) body
  | .expander items => FreeAll p bound items
  | .template _ _ => True

def FreeAll (p : Value → Prop) (bound : List Symbol) : List Code → Prop
  | [] => True
  | c :: cs => Free p bound c ∧ FreeAll p bound cs

end

mutual

/-- All words that are free in a lambda of the code satisfy `p`. -/
def InLambdas (p : Value → Prop) : Code → Prop
  | .word _ => True
  | .quoted _ => True
  | .list items => InLambdasAll p items
  | .lambda formals body => (Code.lambda formals body).Free p []
  | .expander items => InLambdasAll p items
  | .template _ _ => True

def InLambdasAll (p : Value → Prop) : List Code → Prop
  | [] => True
  | c :: cs => InLambdas p c ∧ InLambdasAll p cs

end

end Code

/-! ## Bound variables -/

theorem Scope.formal?_eq_some {v : Value} {x : Symbol} :
    formal? v = some x ↔ v = .sym x ∧ x ≠ Symbol.rest ∨ ∃ a, v = .address a ∧ a.symbol = x := by
  cases v with
  | sym y =>
      by_cases hy : y = Symbol.rest
      · simp [formal?, hy, eq_comm]
      · simp only [formal?, hy, if_false, Option.some.injEq, Value.sym.injEq]
        constructor
        · rintro rfl
          exact .inl ⟨rfl, hy⟩
        · rintro (⟨hyx, -⟩ | ⟨a, ha, -⟩)
          · exact hyx
          · cases ha
  | address a => simp [formal?]
  | _ => simp [formal?]

/-- A change of words that scans can come to: names go on being the same names. -/
structure Scope.ScanLike (g : Value → Value) : Prop where
  formal? : ∀ {v x}, formal? v = some x → formal? (g v) = some x

namespace Parameters

variable {name : Ref .dummy → Symbol} {formals : List Value} {x : Symbol} {a : Address}

theorem listed?_of_formal? {v : Value} (h : formal? v = some x) :
    listed? name v = some (.sym x, x) := by
  rcases formal?_eq_some.1 h with ⟨rfl, hx⟩ | ⟨a, rfl, rfl⟩
  · rw [listed?, if_neg hx]
  · rfl

/-- The address of a name carries the name. -/
theorem symbol_of_find? (h : (ofFormals name formals).find? (.sym x) = some a) : a.symbol = x := by
  simp only [find?, Option.map_eq_some_iff] at h
  obtain ⟨⟨p, b⟩, hfind, rfl⟩ := h
  have hp : p = .sym x := by simpa using List.find?_some hfind
  have hm := List.mem_of_find?_eq_some hfind
  simp only [ofFormals, ofList, List.mem_reverse, List.mem_map] at hm
  obtain ⟨⟨⟨q, y⟩, i⟩, hm, heq⟩ := hm
  cases heq
  obtain ⟨v, -, hv⟩ := List.mem_filterMap.1 (List.fst_mem_of_mem_zipIdx hm)
  subst hp
  cases v with
  | sym z =>
      by_cases hz : z = Symbol.rest
      · simp [listed?, hz] at hv
      · rw [listed?, if_neg hz] at hv
        cases hv
        rfl
  | address b =>
      cases hv
      rfl
  | _ => cases hv

/-- A name that is listed has an address. -/
theorem exists_find? (h : x ∈ names formals) :
    ∃ a, (ofFormals name formals).find? (.sym x) = some a := by
  obtain ⟨v, hv, hx⟩ := List.mem_filterMap.1 h
  have hlisted : (.sym x, x) ∈ formals.filterMap (listed? name) :=
    List.mem_filterMap.2 ⟨v, hv, listed?_of_formal? hx⟩
  obtain ⟨i, hi⟩ := List.getElem?_of_mem hlisted
  have hentry : (.sym x, ⟨0, i, x⟩) ∈ (ofFormals name formals).entries := by
    simp only [ofFormals, ofList, List.mem_reverse, List.mem_map]
    exact ⟨((.sym x, x), i), by simpa [List.mem_zipIdx_iff_getElem?] using hi, rfl⟩
  have hsome : ((ofFormals name formals).entries.find? fun e => e.1 == .sym x).isSome := by
    rw [List.find?_isSome]
    exact ⟨_, hentry, by simp⟩
  obtain ⟨e, he⟩ := Option.isSome_iff_exists.1 hsome
  exact ⟨e.2, by rw [find?, he, Option.map_some]⟩

theorem scan_of_find? {ps : Parameters} {v : Value} (hv : formal? v = some x)
    (ha : ps.find? (.sym x) = some a) : ps.scan v = .address a := by
  rcases formal?_eq_some.1 hv with ⟨rfl, -⟩ | ⟨b, rfl, rfl⟩
  · simp [scan, ha]
  · simp [scan, ha]

/-- Of a name in a parameter list only the symbol matters, not how far it is resolved. -/
theorem ofFormals_map_congr {g g' : Value → Value}
    (h : ∀ v ∈ formals, g v = g' v ∨ ∃ x, formal? (g v) = some x ∧ formal? (g' v) = some x) :
    ofFormals name (formals.map g) = ofFormals name (formals.map g') := by
  have hrest : ∀ {v : Value} {x : Symbol}, formal? v = some x → v.isSym Symbol.rest = false := by
    intro v x hv
    rcases formal?_eq_some.1 hv with ⟨rfl, hx⟩ | ⟨a, rfl, -⟩
    · simpa [Value.isSym] using hx
    · rfl
  have hlisted : (formals.map g).filterMap (listed? name) =
      (formals.map g').filterMap (listed? name) := by
    rw [List.filterMap_map, List.filterMap_map]
    refine List.filterMap_congr fun v hv => ?_
    rcases h v hv with hv | ⟨x, hx, hx'⟩
    · rw [Function.comp, hv, Function.comp]
    · rw [Function.comp, listed?_of_formal? hx, Function.comp, listed?_of_formal? hx']
  have hmarks : (formals.map g).map (·.isSym Symbol.rest) =
      (formals.map g').map (·.isSym Symbol.rest) := by
    rw [List.map_map, List.map_map]
    refine List.map_congr_left fun v hv => ?_
    rcases h v hv with hv | ⟨x, hx, hx'⟩
    · rw [Function.comp, hv, Function.comp]
    · rw [Function.comp, hrest hx, Function.comp, hrest hx']
  have hsame : Scope.hasRest (formals.map g) = Scope.hasRest (formals.map g') := by
    have hany : ∀ vs : List Value,
        Scope.hasRest vs = (vs.map (·.isSym Symbol.rest)).any fun b => b := by
      intro vs
      simp [Scope.hasRest, Function.comp_def]
    rw [hany, hmarks, hany]
  rw [ofFormals, hlisted, hsame, ofFormals]

end Parameters

namespace Scope.ScanLike

theorem id : ScanLike id := ⟨fun h => h⟩

theorem scan {name : Ref .dummy → Symbol} {g : Value → Value} (hg : ScanLike g)
    (formals : List Value) : ScanLike ((Parameters.ofFormals name formals).scan ∘ g) where
  formal? := by
    intro v x hv
    have hgv := hg.formal? hv
    rw [Function.comp]
    cases hfind : (Parameters.ofFormals name formals).find? (.sym x) with
    | some a =>
        rw [Parameters.scan_of_find? hgv hfind, SmallLisp.Scope.formal?,
          Parameters.symbol_of_find? hfind]
    | none =>
        rcases formal?_eq_some.1 hgv with ⟨hsym, -⟩ | ⟨a, haddress, rfl⟩
        · rw [hsym] at hgv ⊢
          simpa [Parameters.scan, hfind] using hgv
        · rw [haddress]
          simp [Parameters.scan, hfind, SmallLisp.Scope.formal?]

end Scope.ScanLike

namespace Code

variable {store : Store} {name : Ref .dummy → Symbol}

mutual

/-- What is made of the free words decides what is made of the code. -/
theorem scanned_eq_of_free {p : Value → Prop} {g g' : Value → Value} (hg : ScanLike g)
    (hg' : ScanLike g') (h : ∀ v, p v → g v = g' v) {bound : List Symbol}
    (hbound : ∀ v, ∀ x ∈ bound, formal? v = some x → g v = g' v) :
    ∀ c : Code, c.Free p bound → c.scanned name g = c.scanned name g'
  | .word v, hc => by
      rcases hc with hv | ⟨x, hx, hv⟩
      · rw [scanned, scanned, h v hv]
      · rw [scanned, scanned, hbound v x hx hv]
  | .quoted _, _ => rfl
  | .list items, hc => by
      rw [scanned, scanned, scannedAll_eq_of_free hg hg' h hbound items hc]
  | .lambda formals body, ⟨hf, hb⟩ => by
      have hformals : Parameters.ofFormals name (formals.map g) =
          Parameters.ofFormals name (formals.map g') := by
        refine Parameters.ofFormals_map_congr fun v hv => ?_
        rcases hf v hv with hp | hsome
        · exact .inl (h v hp)
        · obtain ⟨x, hx⟩ := Option.isSome_iff_exists.1 hsome
          exact .inr ⟨x, hg.formal? hx, hg'.formal? hx⟩
      -- a name that the lambda binds is found under its symbol, however far it was resolved
      have hbound' : ∀ v, ∀ x ∈ names formals ++ bound, formal? v = some x →
          ((Parameters.ofFormals name (formals.map g')).scan ∘ g) v =
            ((Parameters.ofFormals name (formals.map g')).scan ∘ g') v := by
        intro v x hx hv
        rcases List.mem_append.1 hx with hx | hx
        · obtain ⟨u, hu, hux⟩ := List.mem_filterMap.1 hx
          have hlisted : x ∈ names (formals.map g') :=
            List.mem_filterMap.2 ⟨g' u, List.mem_map_of_mem hu, hg'.formal? hux⟩
          obtain ⟨a, ha⟩ : ∃ a, (Parameters.ofFormals name (formals.map g')).find? (.sym x) =
              some a := Parameters.exists_find? hlisted
          rw [Function.comp, Parameters.scan_of_find? (hg.formal? hv) ha, Function.comp,
            Parameters.scan_of_find? (hg'.formal? hv) ha]
        · exact congrArg _ (hbound v x hx hv)
      rw [scanned, scanned, hformals, scannedAll_eq_of_free (hg.scan _) (hg'.scan _)
        (fun v hv => congrArg _ (h v hv)) hbound' body hb]
  | .expander items, hc => by
      rw [scanned, scanned, scannedAll_eq_of_free hg hg' h hbound items hc]
  | .template _ _, _ => rfl

theorem scannedAll_eq_of_free {p : Value → Prop} {g g' : Value → Value} (hg : ScanLike g)
    (hg' : ScanLike g') (h : ∀ v, p v → g v = g' v) {bound : List Symbol}
    (hbound : ∀ v, ∀ x ∈ bound, formal? v = some x → g v = g' v) :
    ∀ cs : List Code, FreeAll p bound cs → scannedAll name g cs = scannedAll name g' cs
  | [], _ => rfl
  | c :: cs, ⟨hc, hcs⟩ => by
      rw [scannedAll, scannedAll, scanned_eq_of_free hg hg' h hbound c hc,
        scannedAll_eq_of_free hg hg' h hbound cs hcs]

end

/-! ## Scans one after the other -/

theorem scannedAll_append (g : Value → Value) (cs ds : List Code) :
    scannedAll name g (cs ++ ds) = scannedAll name g cs ++ scannedAll name g ds := by
  simp only [scannedAll_eq_map, List.map_append]

mutual

/-- Words may be replaced before the scans. -/
theorem scanned_mapWords (f g : Value → Value) :
    ∀ c : Code, (c.mapWords f).scanned name g = c.scanned name (g ∘ f)
  | .word _ => rfl
  | .quoted _ => rfl
  | .list items => by rw [mapWords, scanned, scanned, scannedAll_mapAll f g items]
  | .lambda formals body => by
      rw [mapWords, scanned, scanned, List.map_map, scannedAll_mapAll f _ body]
      rfl
  | .expander items => by rw [mapWords, scanned, scanned, scannedAll_mapAll f g items]
  | .template _ _ => rfl

theorem scannedAll_mapAll (f g : Value → Value) :
    ∀ cs : List Code, scannedAll name g (mapAll f cs) = scannedAll name (g ∘ f) cs
  | [] => rfl
  | c :: cs => by
      rw [mapAll, scannedAll, scannedAll, scanned_mapWords f g c, scannedAll_mapAll f g cs]

end

mutual

/-- Scans that change no word of the lambdas in some text may as well come after these are
compiled. -/
theorem scanned_scanned {g : Value → Value} (hg : ScanLike g) :
    ∀ c : Code, c.InLambdas (fun u => g u = u) →
      (c.scanned name id).scanned name g = c.scanned name g
  | .word _, _ => rfl
  | .quoted _, _ => rfl
  | .list items, h => by
      rw [scanned, scanned, scanned, scannedAll_scannedAll hg items h]
  | .lambda formals body, h => by
      have hid : ∀ u, g u = u → g u = id u := fun _ hu => hu
      rw [scanned_eq_of_free hg .id hid (by simp) (.lambda formals body) h]
      rfl
  | .expander items, h => by
      rw [scanned, scanned, scanned, scannedAll_scannedAll hg items h]
  | .template _ _, _ => rfl

theorem scannedAll_scannedAll {g : Value → Value} (hg : ScanLike g) :
    ∀ cs : List Code, InLambdasAll (fun u => g u = u) cs →
      scannedAll name g (scannedAll name id cs) = scannedAll name g cs
  | [], _ => rfl
  | c :: cs, h => by
      rw [scannedAll, scannedAll, scannedAll, scanned_scanned hg c h.1,
        scannedAll_scannedAll hg cs h.2]

end

/-! ## Code of which some lambdas are compiled -/

mutual

/-- The second code is the first with some of its lambdas compiled. In a lambda that is not, lambdas
further in may be, as long as compiling the one around comes to the same. -/
inductive Partly (name : Ref .dummy → Symbol) : Code → Code → Prop
  | word (v : Value) : Partly name (.word v) (.word v)
  | quoted (q : Quotation) : Partly name (.quoted q) (.quoted q)
  | list {cs ds : List Code} : PartlyAll name cs ds → Partly name (.list cs) (.list ds)
  | lambda {formals : List Value} {body body' : List Code} :
      scannedAll name (Parameters.ofFormals name formals).scan body' =
        scannedAll name (Parameters.ofFormals name formals).scan body →
      Partly name (.lambda formals body) (.lambda formals body')
  | compiled (formals : List Value) (body : List Code) :
      Partly name (.lambda formals body) ((Code.lambda formals body).scanned name id)
  | expander {cs ds : List Code} : PartlyAll name cs ds → Partly name (.expander cs) (.expander ds)
  | template (shape : Shape) (body : List Code) :
      Partly name (.template shape body) (.template shape body)

inductive PartlyAll (name : Ref .dummy → Symbol) : List Code → List Code → Prop
  | nil : PartlyAll name [] []
  | cons {c d : Code} {cs ds : List Code} : Partly name c d → PartlyAll name cs ds →
      PartlyAll name (c :: cs) (d :: ds)

end

mutual

theorem Partly.refl (name : Ref .dummy → Symbol) : ∀ c : Code, Partly name c c
  | .word v => .word v
  | .quoted q => .quoted q
  | .list items => .list (PartlyAll.refl name items)
  | .lambda _ _ => .lambda rfl
  | .expander items => .expander (PartlyAll.refl name items)
  | .template shape body => .template shape body

theorem PartlyAll.refl (name : Ref .dummy → Symbol) : ∀ cs : List Code, PartlyAll name cs cs
  | [] => .nil
  | c :: cs => .cons (Partly.refl name c) (PartlyAll.refl name cs)

end

mutual

theorem partly_scanned (name : Ref .dummy → Symbol) : ∀ c : Code, Partly name c (c.scanned name id)
  | .word v => .word v
  | .quoted q => .quoted q
  | .list items => .list (partlyAll_scannedAll name items)
  | .lambda formals body => .compiled formals body
  | .expander items => .expander (partlyAll_scannedAll name items)
  | .template shape body => .template shape body

theorem partlyAll_scannedAll (name : Ref .dummy → Symbol) :
    ∀ cs : List Code, PartlyAll name cs (scannedAll name id cs)
  | [] => .nil
  | c :: cs => .cons (partly_scanned name c) (partlyAll_scannedAll name cs)

end

theorem PartlyAll.append {cs ds cs' ds' : List Code} (h : PartlyAll name cs ds)
    (h' : PartlyAll name cs' ds') : PartlyAll name (cs ++ cs') (ds ++ ds') := by
  induction cs generalizing ds with
  | nil =>
      cases h
      exact h'
  | cons c cs ih =>
      cases h with
      | cons hc hcs => exact .cons hc (ih hcs)

end Code

/-! ## Patterns -/

/-- What a macro puts its arguments into. A place takes the code of one argument, or in a list that
of several. What is quoted is a word: a list would be another one in each expansion. -/
inductive Pattern where
  | place (i : Nat)
  | word (v : Value)
  | quoted (v : Value)
  | list (items : List Pattern)
  | lambda (formals : List Value) (body : List Pattern)

namespace Pattern

mutual

/-- What the pattern contributes to the list it stands in, with the given code in its places. -/
def fill (σ : Nat → List Code) : Pattern → List Code
  | .place i => σ i
  | .word v => [.word v]
  | .quoted v => [.quoted (.word v)]
  | .list items => [.list (fillAll σ items)]
  | .lambda formals body => [.lambda formals (fillAll σ body)]

def fillAll (σ : Nat → List Code) : List Pattern → List Code
  | [] => []
  | p :: ps => fill σ p ++ fillAll σ ps

end

mutual

/-- The lambdas around the places leave alone what is free in the lambdas of the code that is put
there. The scans so far come to `g`. -/
def Undisturbed (name : Ref .dummy → Symbol) (σ : Nat → List Code) (g : Value → Value) :
    Pattern → Prop
  | .place i => InLambdasAll (fun u => g u = u) (σ i)
  | .word _ => True
  | .quoted _ => True
  | .list items => UndisturbedAll name σ g items
  | .lambda formals body =>
      UndisturbedAll name σ ((Parameters.ofFormals name (formals.map g)).scan ∘ g) body

def UndisturbedAll (name : Ref .dummy → Symbol) (σ : Nat → List Code) (g : Value → Value) :
    List Pattern → Prop
  | [] => True
  | p :: ps => Undisturbed name σ g p ∧ UndisturbedAll name σ g ps

end

variable {name : Ref .dummy → Symbol} {σ : Nat → List Code}

mutual

/-- A pattern that is filled with compiled code comes to the same as one that is filled with the
text, once all is compiled. -/
theorem scannedAll_fill {g : Value → Value} (hg : ScanLike g) :
    ∀ p : Pattern, p.Undisturbed name σ g →
      scannedAll name g (p.fill fun i => scannedAll name id (σ i)) =
        scannedAll name g (p.fill σ)
  | .place i, h => scannedAll_scannedAll hg (σ i) h
  | .word _, _ => rfl
  | .quoted _, _ => rfl
  | .list items, h => by
      simp only [fill, scannedAll, scanned]
      rw [scannedAll_fillAll hg items h]
  | .lambda formals body, h => by
      simp only [fill, scannedAll, scanned]
      rw [scannedAll_fillAll (hg.scan _) body h]

theorem scannedAll_fillAll {g : Value → Value} (hg : ScanLike g) :
    ∀ ps : List Pattern, UndisturbedAll name σ g ps →
      scannedAll name g (fillAll (fun i => scannedAll name id (σ i)) ps) =
        scannedAll name g (fillAll σ ps)
  | [], _ => rfl
  | p :: ps, h => by
      rw [fillAll, fillAll, scannedAll_append, scannedAll_append, scannedAll_fill hg p h.1,
        scannedAll_fillAll hg ps h.2]

end

mutual

/-- A pattern that is filled with compiled code is the one that is filled with the text, partly
compiled. -/
theorem partlyAll_fill : ∀ p : Pattern, p.Undisturbed name σ id →
    PartlyAll name (p.fill σ) (p.fill fun i => scannedAll name id (σ i))
  | .place i, _ => partlyAll_scannedAll name (σ i)
  | .word v, _ => .cons (.word v) .nil
  | .quoted v, _ => .cons (.quoted _) .nil
  | .list items, h => .cons (.list (partlyAll_fillAll items h)) .nil
  | .lambda formals body, h => by
      rw [Undisturbed, List.map_id] at h
      exact .cons (.lambda (scannedAll_fillAll (ScanLike.id.scan formals) body h)) .nil

theorem partlyAll_fillAll : ∀ ps : List Pattern, UndisturbedAll name σ id ps →
    PartlyAll name (fillAll σ ps) (fillAll (fun i => scannedAll name id (σ i)) ps)
  | [], _ => .nil
  | p :: ps, h => (partlyAll_fill p h.1).append (partlyAll_fillAll ps h.2)

end

end Pattern

end SmallLisp
