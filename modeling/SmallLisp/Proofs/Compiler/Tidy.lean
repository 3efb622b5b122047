import SmallLisp.Proofs.Compiler.Succeeding

/-!
# Tidy text is compiled

Text is tidy if nothing in it stands in the wrong place: parameter lists are in order, and no
keyword is where the passes would take it for the head of a form. With enough fuel and enough room
tidy text is compiled, and `Code.Compiles` says to what. Calls of one macro are expanded on the way;
what the expansion of a call is, is left to a function on the items of the call.
-/

namespace SmallLisp

open Eval Code Scope Filter

/-! ## Parameter lists -/

/-- The word is a name that can be a parameter. A name that is resolved already can be one too. -/
structure Scope.Names (symbols : SymbolTable) (v : Value) (x : Symbol) : Prop where
  formal? : formal? v = some x
  keyword : symbols.isKeyword x = false
  rest : x ≠ Symbol.rest

/-- Parameter lists in order: names, and maybe one of them for the rest. -/
inductive Scope.Listed (symbols : SymbolTable) : List Value → Prop
  | nil : Listed symbols []
  | rest {v : Value} {x : Symbol} : Names symbols v x → Listed symbols [.sym Symbol.rest, v]
  | cons {v : Value} {x : Symbol} {vs : List Value} : Names symbols v x → Listed symbols vs →
      Listed symbols (v :: vs)

theorem Scope.isSym_rest_of_formal? {v : Value} {x : Symbol} (h : formal? v = some x) :
    v.isSym Symbol.rest = false := by
  rcases formal?_eq_some.1 h with ⟨rfl, hx⟩ | ⟨a, rfl, -⟩
  · simpa [Value.isSym] using hx
  · rfl

theorem Scope.Names.ordinary {symbols : SymbolTable} {v : Value} {x : Symbol}
    (h : Names symbols v x) : Ordinary v := by
  rcases formal?_eq_some.1 h.formal? with ⟨rfl, -⟩ | ⟨a, rfl, -⟩
  · exact .sym h.keyword
  · exact ⟨rfl, rfl⟩

theorem Scope.Names.map {symbols : SymbolTable} {g : Value → Value} {v : Value} {x : Symbol}
    (h : Names symbols v x) (hg : ScanLike g) : Names symbols (g v) x :=
  ⟨hg.formal? h.formal?, h.keyword, h.rest⟩

namespace Scope.Listed

variable {symbols : SymbolTable} {formals : List Value}

theorem ordinary (h : Listed symbols formals) : ∀ v ∈ formals, Ordinary v := by
  induction h with
  | nil => simp
  | rest hv =>
      intro u hu
      rcases List.mem_pair.1 hu with rfl | rfl
      · exact ⟨rfl, by decide⟩
      · exact hv.ordinary
  | cons hv _ ih =>
      intro u hu
      rcases List.mem_cons.1 hu with rfl | hu
      · exact hv.ordinary
      · exact ih u hu

theorem map {g : Value → Value} (h : Listed symbols formals) (hg : ScanLike g)
    (hrest : g (.sym Symbol.rest) = .sym Symbol.rest) : Listed symbols (formals.map g) := by
  induction h with
  | nil => exact .nil
  | rest hv =>
      rw [List.map_cons, List.map_cons, hrest]
      exact .rest (hv.map hg)
  | cons hv _ ih => exact .cons (hv.map hg) ih

end Scope.Listed

namespace Engine

variable {s : State} {formals : List Value}

theorem parameterOf_of_names {v : Value} {x : Symbol} (h : Names s.symbols v x) :
    parameterOf v s = .ok (.sym x, x) s := by
  have hnamed : parameterOf.named x s = .ok (.sym x, x) s := by
    unfold parameterOf.named
    rw [bind_of_ok (show isKeyword x s = .ok (s.symbols.isKeyword x) s from rfl), h.keyword]
    rfl
  rcases formal?_eq_some.1 h.formal? with ⟨rfl, -⟩ | ⟨a, rfl, rfl⟩
  · exact hnamed
  · exact hnamed

/-- A parameter list in order is accepted. -/
theorem parametersWithin_of_listed (E : Engine) (h : Listed s.symbols formals) :
    ∀ (acc : List (Parameter × Symbol)) {n : Nat} {v : Value}, formals.length ≤ n →
      s.store.Chain formals .nil v →
      E.parametersWithin n v (.ofList acc false) s = .ok (.ofList
        (acc ++ formals.filterMap (Parameters.listed? s.store.dummySymbol)) (hasRest formals)) s
      := by
  induction h with
  | nil =>
      rintro acc n _ - rfl
      rw [List.filterMap_nil, List.append_nil]
      cases n <;> (rw [parametersWithin]; rfl; all_goals simp)
  | @rest v x hv =>
      rintro acc n _ hn ⟨r, _, rfl, hr, q, _, rfl, hq, rfl⟩
      obtain ⟨m, rfl⟩ : ∃ m, n = m + 1 := ⟨n - 1, by simp at hn; omega⟩
      rw [parametersWithin, bind_of_ok (car_apply r s), Store.car_of_cell? hr,
        bind_of_ok (E.cdrCell_of_list hr
          (show s.store.Chain [v] .nil (.pair q) from ⟨q, .nil, rfl, hq, rfl⟩))]
      simp only [show (Parameters.ofList acc false).hasRest = false from rfl, Bool.false_eq_true,
        if_false, show (Value.sym Symbol.rest).isSym Symbol.rest = true from rfl, if_true]
      rw [bind_of_ok (car_apply q s), Store.car_of_cell? hq,
        bind_of_ok (E.cdrCell_of_list hq (show s.store.Chain [] .nil .nil from rfl)),
        isSym_rest_of_formal? hv.formal?]
      simp only [Bool.false_eq_true, if_false]
      rw [bind_of_ok (parameterOf_of_names hv)]
      have hlisted : [Value.sym Symbol.rest, v].filterMap
          (Parameters.listed? s.store.dummySymbol) = [(.sym x, x)] := by
        rw [List.filterMap_cons_none rfl,
          List.filterMap_cons_some (Parameters.listed?_of_formal? hv.formal?)]
        rfl
      rw [Parameters.ofList_add, hlisted]
      cases m <;> (rw [parametersWithin]; rfl; all_goals simp)
  | @cons v x vs hv hvs ih =>
      rintro acc n _ hn ⟨r, d, rfl, hr, hd⟩
      obtain ⟨m, rfl⟩ : ∃ m, n = m + 1 := ⟨n - 1, by simp at hn; omega⟩
      rw [parametersWithin, bind_of_ok (car_apply r s), Store.car_of_cell? hr,
        bind_of_ok (E.cdrCell_of_list hr hd), isSym_rest_of_formal? hv.formal?]
      simp only [show (Parameters.ofList acc false).hasRest = false from rfl, Bool.false_eq_true,
        if_false]
      rw [bind_of_ok (parameterOf_of_names hv), Parameters.ofList_add]
      refine (ih (acc ++ [(.sym x, x)]) (by simpa using hn) hd).trans ?_
      rw [List.filterMap_cons_some (Parameters.listed?_of_formal? hv.formal?), List.append_assoc,
        List.singleton_append]
      simp [hasRest, isSym_rest_of_formal? hv.formal?]

theorem parameters_of_listed (E : Engine) (h : Listed s.symbols formals) {v : Value}
    (hn : formals.length ≤ E.fuel) (hv : s.store.Chain formals .nil v) :
    E.parameters v s = .ok (.ofFormals s.store.dummySymbol formals) s := by
  have hlist : (v.isNil || v.isPair) = true := by
    rcases hv.nil_or_pair with rfl | ⟨r, rfl⟩ <;> rfl
  rw [parameters, if_pos hlist]
  exact E.parametersWithin_of_listed h [] hn hv

end Engine

/-! ## Tidy text -/

/-- A word of text that can stand anywhere; a symbol is one of the free ones. -/
structure Fitting (free : Symbol → Prop) (v : Value) : Prop extends Ordinary v where
  sym : ∀ x, v = .sym x → free x
  callable : ∀ r, v ≠ .callable r

namespace Code

mutual

/-- Text in which nothing stands in the wrong place. Some of it may be compiled. -/
def Tidy (symbols : SymbolTable) (free : Symbol → Prop) : Code → Prop
  | .word v => Fitting free v
  | .quoted _ => True
  | .list items => items ≠ [] ∧ TidyAll symbols free items
  | .lambda formals body => Listed symbols formals ∧ TidyAll symbols free body
  | .expander _ => False
  | .template _ _ => True

def TidyAll (symbols : SymbolTable) (free : Symbol → Prop) : List Code → Prop
  | [] => True
  | c :: cs => Tidy symbols free c ∧ TidyAll symbols free cs

end

end Code

theorem Fitting.nil (free : Symbol → Prop) : Fitting free .nil :=
  ⟨⟨rfl, rfl⟩, nofun, nofun⟩

theorem Fitting.scan {free : Symbol → Prop} {v : Value} (h : Fitting free v) (ps : Parameters) :
    Fitting free (ps.scan v) := by
  rcases ps.scan_cases v with hv | ⟨a, hv⟩
  · rw [hv]
    exact h
  · rw [hv]
    exact ⟨⟨rfl, rfl⟩, nofun, nofun⟩

theorem Fitting.mono {free free' : Symbol → Prop} {v : Value} (h : Fitting free v)
    (hfree : ∀ x, free x → free' x) : Fitting free' v :=
  ⟨h.toOrdinary, fun x hx => hfree x (h.sym x hx), h.callable⟩

/-- A change of words that keeps text tidy. -/
structure Scope.Scans (free : Symbol → Prop) (g : Value → Value) : Prop extends ScanLike g where
  nil : g .nil = .nil
  rest : g (.sym Symbol.rest) = .sym Symbol.rest
  fitting : ∀ {v}, Fitting free v → Fitting free (g v)

namespace Scope.Scans

variable {free : Symbol → Prop} {g : Value → Value}

theorem id (free : Symbol → Prop) : Scans free id := ⟨.id, rfl, rfl, fun h => h⟩

/-- The marker of the rest is no parameter. -/
theorem scan_rest (name : Ref .dummy → Symbol) {symbols : SymbolTable} {formals : List Value}
    (h : Listed symbols formals) :
    (Parameters.ofFormals name formals).scan (.sym Symbol.rest) = .sym Symbol.rest := by
  have hlisted : ∀ e ∈ formals.filterMap (Parameters.listed? name), e.1 ≠ .sym Symbol.rest := by
    have hname : ∀ {v x}, Names symbols v x →
        Parameters.listed? name v = some (.sym x, x) ∧ Parameter.sym x ≠ .sym Symbol.rest :=
      fun hv => ⟨Parameters.listed?_of_formal? hv.formal?, by simpa using hv.rest⟩
    induction h with
    | nil => simp
    | rest hv =>
        intro e he
        rw [List.filterMap_cons_none rfl, List.filterMap_cons_some (hname hv).1] at he
        cases List.mem_singleton.1 he
        exact (hname hv).2
    | cons hv _ ih =>
        intro e he
        rw [List.filterMap_cons_some (hname hv).1] at he
        rcases List.mem_cons.1 he with rfl | he
        · exact (hname hv).2
        · exact ih e he
  have hnone : (Parameters.ofFormals name formals).find? (.sym Symbol.rest) = none := by
    simp only [Parameters.find?, Option.map_eq_none_iff, List.find?_eq_none, beq_iff_eq]
    intro e he hrest
    obtain ⟨y, hy⟩ := Parameters.exists_of_mem_ofList he
    exact hlisted _ hy hrest
  simp [Parameters.scan, hnone]

theorem scan (hg : Scans free g) (name : Ref .dummy → Symbol) {symbols : SymbolTable}
    {formals : List Value} (h : Listed symbols formals) :
    Scans free ((Parameters.ofFormals name formals).scan ∘ g) where
  toScanLike := hg.toScanLike.scan formals
  nil := by
    rw [Function.comp, hg.nil]
    rfl
  rest := by rw [Function.comp, hg.rest, scan_rest name h]
  fitting hv := (hg.fitting hv).scan _

end Scope.Scans

namespace Code

variable {symbols : SymbolTable} {free : Symbol → Prop} {name : Ref .dummy → Symbol}

mutual

theorem Tidy.mapWords {g : Value → Value} (hg : Scans free g) :
    ∀ c : Code, c.Tidy symbols free → (c.mapWords g).Tidy symbols free
  | .word _, hc => hg.fitting hc
  | .quoted _, _ => trivial
  | .list (_ :: _), hc => ⟨List.cons_ne_nil _ _, TidyAll.mapAll hg _ hc.2⟩
  | .list [], hc => absurd rfl hc.1
  | .lambda _ body, hc =>
      ⟨hc.1.map hg.toScanLike hg.rest, TidyAll.mapAll hg body hc.2⟩
  | .expander _, hc => hc.elim
  | .template _ _, _ => trivial

theorem TidyAll.mapAll {g : Value → Value} (hg : Scans free g) :
    ∀ cs : List Code, TidyAll symbols free cs → TidyAll symbols free (mapAll g cs)
  | [], _ => trivial
  | c :: cs, hc => ⟨Tidy.mapWords hg c hc.1, TidyAll.mapAll hg cs hc.2⟩

end

mutual

theorem Tidy.mono {free' : Symbol → Prop} (hfree : ∀ x, free x → free' x) :
    ∀ c : Code, c.Tidy symbols free → c.Tidy symbols free'
  | .word _, hc => Fitting.mono hc hfree
  | .quoted _, _ => trivial
  | .list items, hc => ⟨hc.1, TidyAll.mono hfree items hc.2⟩
  | .lambda _ body, hc => ⟨hc.1, TidyAll.mono hfree body hc.2⟩
  | .expander _, hc => hc.elim
  | .template _ _, _ => trivial

theorem TidyAll.mono {free' : Symbol → Prop} (hfree : ∀ x, free x → free' x) :
    ∀ cs : List Code, TidyAll symbols free cs → TidyAll symbols free' cs
  | [], _ => trivial
  | c :: cs, hc => ⟨Tidy.mono hfree c hc.1, TidyAll.mono hfree cs hc.2⟩

end

mutual

/-- Tidy text is tidy with its lambdas compiled. -/
theorem Tidy.scanned : ∀ c : Code, c.Tidy symbols free → (c.scanned name id).Tidy symbols free
  | .word _, hc => hc
  | .quoted _, _ => trivial
  | .list (_ :: _), hc => ⟨List.cons_ne_nil _ _, TidyAll.scannedAll _ hc.2⟩
  | .list [], hc => absurd rfl hc.1
  | .lambda _ _, _ => trivial
  | .expander _, hc => hc.elim
  | .template _ _, _ => trivial

theorem TidyAll.scannedAll : ∀ cs : List Code, TidyAll symbols free cs →
    TidyAll symbols free (scannedAll name id cs)
  | [], _ => trivial
  | c :: cs, hc => ⟨Tidy.scanned c hc.1, TidyAll.scannedAll cs hc.2⟩

end

theorem tidyAll_append {cs ds : List Code} :
    TidyAll symbols free (cs ++ ds) ↔ TidyAll symbols free cs ∧ TidyAll symbols free ds := by
  induction cs with
  | nil => simp [TidyAll]
  | cons c cs ih => simp only [List.cons_append, TidyAll, ih, and_assoc]

theorem tidy_ofItems {cs : List Code} (h : TidyAll symbols free cs) :
    (ofItems cs).Tidy symbols free := by
  cases cs with
  | nil => exact .nil free
  | cons c cs => exact ⟨by simp, h⟩

/-- What stands at the head of a list is none of the keywords that the passes stop at. -/
theorem Tidy.head {store : Store} : ∀ {c : Code} {v : Value}, c.Tidy symbols free →
    c.Stands store v → Engine.isLeftAlone v = false
  | .word _, _, hc, hv => by
      cases hv
      exact (show Fitting free _ from hc).head
  | .quoted _, _, _, hv => by
      obtain ⟨r, _, rfl, -⟩ := Quotation.Stands.exists_cell hv
      rfl
  | .list (_ :: _), _, _, ⟨_, _, _, hv, _⟩ => by
      cases hv
      rfl
  | .list [], _, hc, _ => absurd rfl hc.1
  | .lambda _ _, _, _, ⟨_, _, _, _, hv, _⟩ => by
      cases hv
      rfl
  | .expander _, _, hc, _ => hc.elim
  | .template _ _, _, _, ⟨_, _, hv, _⟩ => by
      cases hv
      rfl

end Code

end SmallLisp
