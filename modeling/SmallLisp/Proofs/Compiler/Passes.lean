import SmallLisp.Proofs.Compiler.Scope

/-!
# The passes of the compiler

What the single passes do to the tree that their text stands for: reading the parameters finds their
names, a scan replaces words, and expansion changes nothing where no macro is called.
-/

namespace SmallLisp

open Eval Code Scope

/-- The value is, or is globally bound to, a macro. -/
def State.Expands (s : State) : Value → Prop
  | .sym x => ∃ r shape body, s.global? x = some (.callable r) ∧
      s.store.callable r = .expander shape body
  | .callable r => ∃ shape body, s.store.callable r = .expander shape body
  | _ => False

theorem State.Expands.of_extends {s t : State} (h : s.Extends t) {v : Value}
    (hv : t.Expands v) : s.Expands v := by
  cases v with
  | sym x =>
      obtain ⟨r, shape, body, hg, hr⟩ := hv
      refine ⟨r, shape, body, ?_, h.expanders _ _ _ hr⟩
      simpa only [State.global?, h.globals] using hg
  | callable r =>
      obtain ⟨shape, body, hr⟩ := hv
      exact ⟨shape, body, h.expanders _ _ _ hr⟩
  | _ => exact hv.elim

/-- A word that can stand anywhere: no pair, and no keyword that only stands at the head of a
form. -/
structure Ordinary (v : Value) : Prop where
  atom : v.isPair = false
  head : Engine.isLeftAlone v = false

theorem Engine.isKeyword_of_isLeftAlone {x : Symbol} (h : isLeftAlone (.sym x) = true)
    (symbols : SymbolTable) : symbols.isKeyword x = true := by
  simp only [isLeftAlone, Value.isSym, Bool.or_eq_true, beq_iff_eq] at h
  refine symbols.isKeyword_of_special ?_
  rcases h with (rfl | rfl) | rfl <;> decide

/-- A symbol that is no keyword can stand anywhere. -/
theorem Ordinary.sym {symbols : SymbolTable} {x : Symbol} (h : symbols.isKeyword x = false) :
    Ordinary (.sym x) := by
  refine ⟨rfl, Bool.eq_false_iff.2 fun hleft => ?_⟩
  rw [Engine.isKeyword_of_isLeftAlone hleft symbols] at h
  cases h

/-- A word of the text between passes: one that can stand anywhere, and no macro. -/
def Fit (s : State) (v : Value) : Prop := Ordinary v ∧ ¬ s.Expands v

/-- A word of partly resolved text that is no private variable of a macro. -/
structure Settled (v : Value) : Prop extends Ordinary v where
  dummy : ∀ r, v ≠ .dummy r

/-- A word of source text: a symbol or a constant, and no macro. -/
structure Plain (s : State) (v : Value) : Prop extends Settled v where
  address : ∀ a, v ≠ .address a
  expands : ¬ s.Expands v

theorem Plain.fit {s : State} {v : Value} (h : Plain s v) : Fit s v :=
  ⟨h.toOrdinary, h.expands⟩

/-- What stands for uncompiled code is a word if the code is, and else a pair. -/
theorem Code.pair_of_each {store : Store} {p : Value → Prop} :
    ∀ {c : Code} {v : Value}, c.Each p → c.Stands store v →
      (∃ u, c = .word u ∧ p u) ∨ ∃ r, v = .pair r
  | .word u, _, hc, _ => .inl ⟨u, rfl, hc⟩
  | .quoted _, _, _, hv =>
      let ⟨r, _, hr, _⟩ := hv.exists_cell
      .inr ⟨r, hr⟩
  | .list (_ :: _), _, _, ⟨r, _, _, hv, _⟩ => .inr ⟨r, hv⟩
  | .list [], _, hc, _ => absurd rfl hc.1
  | .lambda _ _, _, _, ⟨r, _, _, _, hv, _⟩ => .inr ⟨r, hv⟩
  | .expander _, _, _, ⟨r, _, hv, _⟩ => .inr ⟨r, hv⟩
  | .template _ _, _, hc, _ => hc.elim

/-- At the head of a list stands none of the keywords that the passes stop at: a word that can
stand anywhere, or a pair. -/
theorem Code.head_of_list {store : Store} {p : Value → Prop} (hp : ∀ v, p v → Ordinary v)
    {cs : List Code} {r : Ref .cell} (hc : (Code.list cs).Each p)
    (hv : StandsAll store cs (.pair r)) :
    Engine.isLeftAlone (store.car r) = false ∧
      (p (store.car r) ∨ (store.car r).isPair = true) := by
  cases cs with
  | nil => exact absurd rfl hc.1
  | cons c cs =>
      obtain ⟨q, a, d, hq, hcell, ha, -⟩ := hv
      cases hq
      rw [Store.car_of_cell? hcell]
      rcases pair_of_each hc.2.1 ha with ⟨u, rfl, hu⟩ | ⟨q, rfl⟩
      · cases ha
        exact ⟨(hp _ hu).head, .inl hu⟩
      · exact ⟨rfl, .inr rfl⟩

theorem Code.each_lambda_items {formals : List Value} {body : List Code}
    (h : (Code.lambda formals body).Each Ordinary) :
    EachAll Ordinary (ofItems (formals.map .word) :: body) := by
  refine ⟨each_ofItems ⟨rfl, rfl⟩ (eachAll_iff.2 ?_), h.2⟩
  intro c hc
  obtain ⟨v, hv, rfl⟩ := List.mem_map.1 hc
  exact h.1 v hv

/-- A value that is the symbol `x` or not. -/
theorem Value.isSym_iff {v : Value} {x : Symbol} : v.isSym x = true ↔ v = .sym x := by
  cases v <;> simp [Value.isSym]

theorem isSym_quote_of_isLeftAlone {v : Value} (h : Engine.isLeftAlone v = false) :
    v.isSym Symbol.quote = false := by
  simp only [Engine.isLeftAlone, Bool.or_eq_false_iff] at h
  exact h.1.1

theorem isPair_of_isLeftAlone {v : Value} (h : Engine.isLeftAlone v = true) :
    v.isPair = false := by
  cases v <;> first | rfl | simp [Engine.isLeftAlone, Value.isSym] at h

namespace Engine

/-! ## Parameter lists -/

theorem parameterOf_eq_ok {v : Value} {p : Parameter} {x : Symbol} {s t : State}
    (hr : v.isSym Symbol.rest = false) (h : parameterOf v s = .ok (p, x) t) :
    t = s ∧ Parameters.listed? s.store.dummySymbol v = some (p, x) ∧
      ∀ y, p = .sym y → s.symbols.isKeyword y = false := by
  have named : ∀ y, parameterOf.named y s = .ok (p, x) t →
      t = s ∧ p = .sym y ∧ x = y ∧ s.symbols.isKeyword y = false := by
    intro y hy
    unfold parameterOf.named at hy
    rw [bind_of_ok (show isKeyword y s = .ok (s.symbols.isKeyword y) s from rfl)] at hy
    cases hk : s.symbols.isKeyword y with
    | true => simp [hk, bind_apply, nameOf, malformed] at hy
    | false =>
        simp only [hk] at hy
        cases hy
        exact ⟨rfl, rfl, rfl, rfl⟩
  cases v with
  | sym y =>
      obtain ⟨ht, rfl, rfl, hk⟩ := named y h
      have hy : x ≠ Symbol.rest := by simpa [Value.isSym] using hr
      refine ⟨ht, by simp [Parameters.listed?, hy], ?_⟩
      rintro _ ⟨⟩
      exact hk
  | address a =>
      obtain ⟨ht, rfl, rfl, hk⟩ := named a.symbol h
      refine ⟨ht, rfl, ?_⟩
      rintro _ ⟨⟩
      exact hk
  | dummy r =>
      cases h
      refine ⟨rfl, rfl, ?_⟩
      rintro _ ⟨⟩
  | _ => simp [parameterOf, failOn_apply] at h

/-- After the parameter for the rest the list must be at its end. -/
theorem parametersWithin_of_hasRest (E : Engine) {n : Nat} {v : Value} {formals : List Value}
    {ps qs : Parameters} {s t : State} (hr : ps.hasRest = true)
    (hv : s.store.Chain formals .nil v) (h : E.parametersWithin n v ps s = .ok qs t) :
    t = s ∧ qs = ps ∧ formals = [] := by
  cases formals with
  | nil =>
      cases hv
      cases n <;> (rw [parametersWithin] at h; cases h; exact ⟨rfl, rfl, rfl⟩) <;> simp
  | cons x xs =>
      obtain ⟨r, d, rfl, hc, hd⟩ := hv
      cases n with
      | zero => simp [parametersWithin] at h
      | succ n =>
          rw [parametersWithin, bind_of_ok (car_apply r s),
            bind_of_ok (E.cdrCell_of_list hc hd)] at h
          simp [hr, malformedOn, failOn_apply] at h

/-- None of the parameters is a keyword. -/
def NoKeyword (symbols : SymbolTable) (listed : List (Parameter × Symbol)) : Prop :=
  ∀ e ∈ listed, ∀ y, e.1 = .sym y → symbols.isKeyword y = false

theorem NoKeyword.append_one {symbols : SymbolTable} {listed : List (Parameter × Symbol)}
    {p : Parameter} {x : Symbol} (h : NoKeyword symbols listed)
    (hp : ∀ y, p = .sym y → symbols.isKeyword y = false) :
    NoKeyword symbols (listed ++ [(p, x)]) := by
  intro e he
  rcases List.mem_append.1 he with he | he
  · exact h e he
  · cases List.mem_singleton.1 he
    exact hp

/-- The keywords that the passes stop at are no parameters, so a scan leaves them alone. -/
theorem NoKeyword.scan_leftAlone {symbols : SymbolTable} {listed : List (Parameter × Symbol)}
    (h : NoKeyword symbols listed) (hasRest : Bool) {k : Value} (hk : isLeftAlone k = true) :
    (Parameters.ofList listed hasRest).scan k = k := by
  cases k with
  | sym x =>
      have hkey : symbols.isKeyword x = true := isKeyword_of_isLeftAlone hk symbols
      have hnone : (Parameters.ofList listed hasRest).find? (.sym x) = none := by
        simp only [Parameters.find?, Option.map_eq_none_iff, List.find?_eq_none, beq_iff_eq]
        intro e he hex
        obtain ⟨y, hy⟩ := Parameters.exists_of_mem_ofList he
        rw [h _ hy x hex] at hkey
        cases hkey
      simp [Parameters.scan, hnone]
  | _ => simp [isLeftAlone, Value.isSym] at hk

/-- Reading a parameter list that is accepted gives what it lists in order, none of it a keyword. -/
theorem parametersWithin_eq_ok (E : Engine) (acc : List (Parameter × Symbol)) {n : Nat} {v : Value}
    {formals : List Value} {ps : Parameters} {s t : State} (hacc : NoKeyword s.symbols acc)
    (hv : s.store.Chain formals .nil v)
    (h : E.parametersWithin n v (.ofList acc false) s = .ok ps t) :
    t = s ∧
      ps = .ofList (acc ++ formals.filterMap (Parameters.listed? s.store.dummySymbol))
        (hasRest formals) ∧
      NoKeyword s.symbols (acc ++ formals.filterMap (Parameters.listed? s.store.dummySymbol)) := by
  induction n generalizing v formals acc with
  | zero =>
      cases formals with
      | nil =>
          cases hv
          rw [parametersWithin] at h
          · cases h
            simpa [hasRest] using hacc
          · simp
          · simp
      | cons x xs =>
          obtain ⟨r, d, rfl, -, -⟩ := hv
          simp [parametersWithin] at h
  | succ n ih =>
      cases formals with
      | nil =>
          cases hv
          rw [parametersWithin] at h
          · cases h
            simpa [hasRest] using hacc
          · simp
          · simp
      | cons x xs =>
          obtain ⟨r, d, rfl, hc, hd⟩ := hv
          rw [parametersWithin, bind_of_ok (car_apply r s), Store.car_of_cell? hc,
            bind_of_ok (E.cdrCell_of_list hc hd)] at h
          simp only [show (Parameters.ofList acc false).hasRest = false from rfl] at h
          cases hx : x.isSym Symbol.rest with
          | true =>
              simp only [hx] at h
              cases xs with
              | nil =>
                  cases hd
                  simp at h
              | cons y ys =>
                  obtain ⟨r', d', rfl, hc', hd'⟩ := hd
                  simp only [Bool.false_eq_true, if_false, if_true] at h
                  rw [bind_of_ok (car_apply r' s), Store.car_of_cell? hc',
                    bind_of_ok (E.cdrCell_of_list hc' hd')] at h
                  cases hy : y.isSym Symbol.rest with
                  | true => simp [hy] at h
                  | false =>
                      simp only [hy, Bool.false_eq_true, if_false, bind_eq_ok] at h
                      obtain ⟨⟨p, z⟩, s₁, hp, h⟩ := h
                      obtain ⟨rfl, hz, hk⟩ := parameterOf_eq_ok hy hp
                      obtain ⟨rfl, rfl, rfl⟩ := E.parametersWithin_of_hasRest rfl hd' h
                      have hxn : Parameters.listed? t.store.dummySymbol x = none := by
                        cases x <;> simp_all [Value.isSym, Parameters.listed?]
                      rw [List.filterMap_cons_none hxn, List.filterMap_cons_some hz,
                        List.filterMap_nil]
                      refine ⟨rfl, ?_, hacc.append_one hk⟩
                      rw [Parameters.ofList_add]
                      simp [Parameters.ofList, hasRest, hx]
          | false =>
              simp only [hx, Bool.false_eq_true, if_false, bind_eq_ok] at h
              obtain ⟨⟨p, z⟩, s₁, hp, h⟩ := h
              obtain ⟨rfl, hz, hk⟩ := parameterOf_eq_ok hx hp
              rw [Parameters.ofList_add] at h
              obtain ⟨rfl, rfl, hks⟩ := ih (acc ++ [(p, z)]) (hacc.append_one hk) hd h
              rw [List.filterMap_cons_some hz]
              refine ⟨rfl, ?_, by simpa using hks⟩
              simp [hasRest, hx]

theorem parameters_eq_ok (E : Engine) {v : Value} {formals : List Value} {ps : Parameters}
    {s t : State} (hv : s.store.Chain formals .nil v) (h : E.parameters v s = .ok ps t) :
    t = s ∧ ps = .ofFormals s.store.dummySymbol formals ∧
      ∀ k, isLeftAlone k = true → ps.scan k = k := by
  have hlist : (v.isNil || v.isPair) = true := by
    rcases hv.nil_or_pair with rfl | ⟨r, rfl⟩ <;> rfl
  rw [parameters, if_pos hlist] at h
  obtain ⟨ht, rfl, hk⟩ := E.parametersWithin_eq_ok [] nofun hv h
  exact ⟨ht, rfl, fun k hleft => hk.scan_leftAlone _ hleft⟩

/-! ## Scanning -/

theorem resolve_word (E : Engine) (ps : Parameters) (n : Nat) {v : Value}
    (hv : v.isPair = false) : E.resolve ps n v = pure (ps.scan v) := by
  cases v <;> first | (cases n <;> rfl) | simp [Value.isPair] at hv

/-- A scan does to every word outside quoted data what it does to one. -/
theorem resolve_stands (E : Engine) {ps : Parameters}
    (hk : ∀ k, isLeftAlone k = true → ps.scan k = k) {n : Nat} {c : Code} {v w : Value}
    {s t : State} (hc : c.Each Ordinary) (hv : c.Stands s.store v)
    (h : E.resolve ps n v s = .ok w t) :
    s.Extends t ∧ (c.mapWords ps.scan).Stands t.store w := by
  induction n generalizing c v w s t with
  | zero =>
      rcases pair_of_each hc hv with ⟨u, rfl, hu⟩ | ⟨r, rfl⟩
      · cases hv
        rw [E.resolve_word ps 0 hu.atom] at h
        cases h
        exact ⟨.refl _, rfl⟩
      · simp [resolve] at h
  | succ n ih =>
      -- A keyword at the head of a list is no word of the text, but a scan leaves it as it is.
      have hitems : ∀ {cs : List Code} {v w : Value} {s t : State},
          (∀ c ∈ cs, c.Each Ordinary ∨ ∃ k, c = .word k ∧ isLeftAlone k = true) →
          StandsAll s.store cs v → E.mapList (E.resolve ps n) v s = .ok w t →
          s.Extends t ∧ StandsAll t.store (mapAll ps.scan cs) w := by
        intro cs v w s t hcs hv h
        rw [mapAll_eq_map]
        rw [← List.map_id cs] at hv
        refine E.mapList_stands id (mapWords ps.scan) ?_ (.refl s) hv h
        intro c hc v w s t _ hv h
        rcases hcs c hc with hc | ⟨k, rfl, hleft⟩
        · exact ih hc hv h
        · cases hv
          rw [E.resolve_word ps n (isPair_of_isLeftAlone hleft)] at h
          cases h
          exact ⟨.refl _, rfl⟩
      rcases pair_of_each hc hv with ⟨u, rfl, hu⟩ | ⟨r, rfl⟩
      · cases hv
        rw [E.resolve_word ps (n + 1) hu.atom] at h
        cases h
        exact ⟨.refl _, rfl⟩
      rw [resolve, bind_of_ok (car_apply r s)] at h
      cases c with
      | word u =>
          cases hv
          exact absurd hc.atom (by simp [Value.isPair])
      | quoted q =>
          obtain ⟨_, d, hq, hd⟩ := Quotation.Stands.exists_cell hv
          cases hq
          rw [Store.car_of_cell? hd] at h
          cases h
          exact ⟨.refl _, hv⟩
      | list cs =>
          have hhead := isSym_quote_of_isLeftAlone (head_of_list (fun _ hv => hv) hc hv).1
          rw [hhead] at h
          exact hitems (fun c hm => .inl (eachAll_iff.1 hc.2 c hm)) hv h
      | lambda formals body =>
          obtain ⟨r', next, f, b, hr', hcell, -⟩ := id hv
          cases hr'
          rw [Store.car_of_cell? hcell] at h
          have hcs : ∀ c ∈ word (.sym Symbol.lambda) :: ofItems (formals.map word) :: body,
              c.Each Ordinary ∨ ∃ k, c = .word k ∧ isLeftAlone k = true := by
            intro c hm
            rcases List.mem_cons.1 hm with rfl | hm
            · exact .inr ⟨_, rfl, rfl⟩
            · exact .inl (eachAll_iff.1 (each_lambda_items hc) c hm)
          obtain ⟨hx, hw⟩ := hitems hcs (stands_lambda.1 hv) h
          rw [mapAll, mapAll, mapWords, hk _ rfl, mapWords_ofItems rfl, mapAll_words] at hw
          exact ⟨hx, stands_lambda.2 hw⟩
      | expander cs =>
          obtain ⟨r', d, hr', hcell, -⟩ := id hv
          cases hr'
          rw [Store.car_of_cell? hcell] at h
          have hcs : ∀ c ∈ word (.sym Symbol.expander) :: cs,
              c.Each Ordinary ∨ ∃ k, c = .word k ∧ isLeftAlone k = true := by
            intro c hm
            rcases List.mem_cons.1 hm with rfl | hm
            · exact .inr ⟨_, rfl, rfl⟩
            · exact .inl (eachAll_iff.1 hc c hm)
          obtain ⟨hx, hw⟩ := hitems hcs (stands_expander.1 hv) h
          rw [mapAll, mapWords, hk _ rfl] at hw
          exact ⟨hx, stands_expander.2 hw⟩
      | template shape body => exact hc.elim

/-! ## Expansion -/

theorem expander?_eq_none {s : State} {v : Value} (hv : ¬ s.Expands v) :
    expander? v s = .ok none s := by
  cases v with
  | sym x =>
      unfold expander?
      cases hg : s.global? x with
      | none => simp [bind_apply, hg]
      | some u =>
          cases u with
          | callable r =>
              cases hf : s.store.callable r with
              | expander shape body => exact absurd ⟨r, shape, body, hg, hf⟩ hv
              | _ => simp [bind_apply, hg, hf]
          | _ => simp [bind_apply, hg]
  | callable r =>
      cases hf : s.store.callable r with
      | expander shape body => exact absurd ⟨shape, body, hf⟩ hv
      | _ => simp [expander?, bind_apply, hf]
  | _ => rfl

theorem expandMacros_word (E : Engine) {n allowed : Nat} {v : Value} (hv : v.isPair = false) :
    E.expandMacros n allowed v = pure v := by
  cases v <;> first | (cases n <;> rfl) | simp [Value.isPair] at hv

/-- Where no macro is called, expansion makes copies of lists and changes nothing. -/
theorem expandMacros_stands (E : Engine) {s₀ : State} {n allowed : Nat} {c : Code} {v w : Value}
    {s t : State} (hc : c.Each (Fit s₀)) (hs : s₀.Extends s)
    (hv : c.Stands s.store v) (h : E.expandMacros n allowed v s = .ok w t) :
    s.Extends t ∧ c.Stands t.store w := by
  induction n generalizing c v w s t with
  | zero =>
      rcases pair_of_each hc hv with ⟨u, rfl, hu⟩ | ⟨r, rfl⟩
      · cases hv
        rw [E.expandMacros_word hu.1.atom] at h
        cases h
        exact ⟨.refl _, rfl⟩
      · simp [expandMacros] at h
  | succ n ih =>
      rcases pair_of_each hc hv with ⟨u, rfl, hu⟩ | ⟨r, rfl⟩
      · cases hv
        rw [E.expandMacros_word hu.1.atom] at h
        cases h
        exact ⟨.refl _, rfl⟩
      rw [expandMacros, bind_of_ok (car_apply r s)] at h
      cases c with
      | word u =>
          cases hv
          exact absurd hc.1.atom (by simp [Value.isPair])
      | quoted q =>
          obtain ⟨_, d, hq, hd⟩ := Quotation.Stands.exists_cell hv
          cases hq
          rw [Store.car_of_cell? hd] at h
          cases h
          exact ⟨.refl _, hv⟩
      | list cs =>
          obtain ⟨hleft, hhead⟩ := head_of_list (fun _ hv => hv.1) hc hv
          have hmacro : ¬ s.Expands (s.store.car r) := by
            rcases hhead with hhead | hhead
            · exact fun hx => hhead.2 (hx.of_extends hs)
            · cases hcar : s.store.car r <;> simp_all [Value.isPair, State.Expands]
          rw [hleft] at h
          simp only [Bool.false_eq_true, if_false] at h
          rw [bind_of_ok (expander?_eq_none hmacro)] at h
          have hitem : ∀ c ∈ cs, ∀ {v w : Value} {s t : State}, s₀.Extends s →
              (id c).Stands s.store v → E.expandMacros n allowed v s = .ok w t →
              s.Extends t ∧ (id c).Stands t.store w := by
            intro c hm v w s t hs hv h
            exact ih (eachAll_iff.1 hc.2 c hm) hs hv h
          have hall : StandsAll s.store (cs.map id) (.pair r) := by
            rw [List.map_id]
            exact hv
          have hmap := E.mapList_stands id id hitem hs hall h
          rw [List.map_id] at hmap
          exact hmap
      | lambda formals body =>
          obtain ⟨r', next, f, b, hr', hcell, -⟩ := id hv
          cases hr'
          rw [Store.car_of_cell? hcell] at h
          cases h
          exact ⟨.refl _, hv⟩
      | expander cs =>
          obtain ⟨r', d, hr', hcell, -⟩ := id hv
          cases hr'
          rw [Store.car_of_cell? hcell] at h
          cases h
          exact ⟨.refl _, hv⟩
      | template shape body => exact hc.elim

end Engine

end SmallLisp
