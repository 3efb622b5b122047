import SmallLisp.Proofs.Compiler.Tidy

/-!
# What tidy text is compiled to

The three passes over tidy text, each with enough fuel and enough room: a scan replaces words,
expansion puts the expansions of the calls of one macro in their places, and nested lambdas become
templates. `Code.Compiles` is what they come to together.
-/

namespace SmallLisp

open Eval Code Scope Filter

namespace Code

variable {hidden : Nat → Prop} {s₀ : State} {j : Nat → Nat} {ps : Parameters}
  {symbols : SymbolTable} {free : Symbol → Prop} {name : Ref .dummy → Symbol}

theorem tendsto_pred (hj : Tendsto j atTop atTop) : Tendsto (fun n => j n - 1) atTop atTop :=
  (tendsto_sub_atTop_nat 1).comp hj

/-! ## Lists and quotations -/

/-- A pass that goes through a list takes each item to its own. -/
theorem takes_list {f : Engine → Nat → Value → Eval Value} (hj : Tendsto j atTop atTop)
    (hhidden : ∀ i, hidden i → i < s₀.store.cells.size) {cs ds : List Code}
    (hpass : ∀ {v s}, s₀.Grown s → (Code.list cs).Stands (s.store.veil hidden) v → ∀ n m k,
      f (Engine.ofFuel n) (m + 1) v (s.withRoom k) =
        (Engine.ofFuel n).mapList (f (Engine.ofFuel n) m) v (s.withRoom k))
    (hf : List.Forall₂ (Takes hidden s₀ fun n => f (Engine.ofFuel n) (j n - 1)) cs ds) :
    Takes hidden s₀ (fun n => f (Engine.ofFuel n) (j n)) (.list cs) (.list ds) := by
  refine (takes_mapList hhidden hf).congr fun {v s} hs hv => ?_
  filter_upwards [hj.eventually_ge_atTop 1] with n hn k
  have hsucc : j n - 1 + 1 = j n := Nat.sub_add_cancel hn
  rw [← hpass hs hv n (j n - 1) k, hsucc]

/-- A pass that gives a quotation back takes it to itself. -/
theorem takes_quoted {f : Engine → Nat → Value → Eval Value} (hj : Tendsto j atTop atTop)
    (q : Quotation)
    (hpass : ∀ {r : Ref .cell} {s : State}, s.store.car r = .sym Symbol.quote → ∀ n m,
      f (Engine.ofFuel n) (m + 1) (.pair r) s = .ok (.pair r) s) :
    Takes hidden s₀ (fun n => f (Engine.ofFuel n) (j n)) (.quoted q) (.quoted q) := by
  refine takes_self fun {v s} hs hv => ?_
  obtain ⟨r, d, rfl, hd⟩ := Quotation.Stands.exists_cell hv
  have hcar : s.store.car r = .sym Symbol.quote := by
    rw [Store.cell?_veil, Option.map_eq_some_iff] at hd
    obtain ⟨c, hc, hblank⟩ := hd
    split at hblank
    · cases hblank
    · rw [Store.car_of_cell? hc, hblank]
  filter_upwards [hj.eventually_ge_atTop 1] with n hn k
  have hsucc : j n - 1 + 1 = j n := Nat.sub_add_cancel hn
  have hk : (s.withRoom k).store.car r = .sym Symbol.quote := hcar
  rw [← hpass hk n (j n - 1), hsucc]

/-- What stands for a list that is not empty is a pair. -/
theorem StandsAll.exists_cell {store : Store} {c : Code} {cs : List Code} {v : Value}
    (h : StandsAll (store.veil hidden) (c :: cs) v) :
    ∃ r a d, v = .pair r ∧ store.cell? r = some ⟨a, d⟩ ∧ c.Stands (store.veil hidden) a ∧
      StandsAll (store.veil hidden) cs d := by
  obtain ⟨r, a, d, rfl, hr, ha, hd⟩ := h
  exact ⟨r, a, d, rfl, Store.cell?_of_veil hr hd.ne_eof, ha, hd⟩

/-! ## Scanning -/

theorem takes_resolve_word (ps : Parameters) {v : Value} (hv : v.isPair = false) :
    Takes hidden s₀ (fun n => (Engine.ofFuel n).resolve ps (j n)) (.word v)
      (.word (ps.scan v)) := by
  refine ⟨?_⟩
  rintro _ s hs rfl
  refine .congr (.pure ⟨.refl s, rfl⟩) (.of_forall fun n k => ?_)
  show (Engine.ofFuel n).resolve ps (j n) _ _ = _
  rw [(Engine.ofFuel n).resolve_word ps _ hv]

/-- A list that is no quotation is scanned item by item. -/
theorem takes_resolve_list (hj : Tendsto j atTop atTop)
    (hhidden : ∀ i, hidden i → i < s₀.store.cells.size) {c : Code} {cs ds : List Code}
    (hhead : ∀ {v s}, s₀.Grown s → c.Stands (s.store.veil hidden) v →
      v.isSym Symbol.quote = false)
    (hf : List.Forall₂
      (Takes hidden s₀ fun n => (Engine.ofFuel n).resolve ps (j n - 1)) (c :: cs) ds) :
    Takes hidden s₀ (fun n => (Engine.ofFuel n).resolve ps (j n)) (.list (c :: cs))
      (.list ds) := by
  refine takes_list (f := fun E => E.resolve ps) hj hhidden (fun {v s} hs hv n m k => ?_) hf
  obtain ⟨r, a, d, rfl, hr, ha, -⟩ := StandsAll.exists_cell hv
  have hquote := hhead hs ha
  rw [Engine.resolve, bind_of_ok (car_apply r _),
    show (s.withRoom k).store.car r = a from Store.car_of_cell? hr, hquote]
  rfl

mutual

/-- A scan of tidy text succeeds, and replaces every word outside quoted data. -/
theorem takes_resolve (hk : ∀ k, Engine.isLeftAlone k = true → ps.scan k = k)
    (hhidden : ∀ i, hidden i → i < s₀.store.cells.size) :
    ∀ (c : Code) {j : Nat → Nat}, Tendsto j atTop atTop → c.Tidy symbols free →
      Takes hidden s₀ (fun n => (Engine.ofFuel n).resolve ps (j n)) c (c.mapWords ps.scan)
  | .word _, _, _, hc => takes_resolve_word ps (show Fitting free _ from hc).atom
  | .quoted q, _, hj, _ => takes_quoted (f := fun E => E.resolve ps) hj q fun {r s} hcar n m => by
      rw [Engine.resolve, bind_of_ok (car_apply r _), hcar]
      rfl
  | .list (c :: cs), _, hj, hc =>
      takes_resolve_list hj hhidden
        (fun _ hv => isSym_quote_of_isLeftAlone (Tidy.head hc.2.1 hv))
        (takesAll_resolve hk hhidden (c :: cs) (tendsto_pred hj) hc.2)
  | .list [], _, _, hc => absurd rfl hc.1
  | .lambda formals body, j, hj, hc => by
      have hj' := tendsto_pred hj
      have hkeyword : Takes hidden s₀ (fun n => (Engine.ofFuel n).resolve ps (j n - 1))
          (.word (.sym Symbol.lambda)) (.word (.sym Symbol.lambda)) := by
        have h : Takes hidden s₀ (fun n => (Engine.ofFuel n).resolve ps (j n - 1))
            (.word (.sym Symbol.lambda)) (.word (ps.scan (.sym Symbol.lambda))) :=
          takes_resolve_word ps rfl
        rwa [hk _ rfl] at h
      have hformals : Takes hidden s₀ (fun n => (Engine.ofFuel n).resolve ps (j n - 1))
          (ofItems (formals.map .word)) (ofItems ((formals.map ps.scan).map .word)) := by
        have hord := hc.1.ordinary
        cases formals with
        | nil => exact takes_resolve_word ps rfl
        | cons x xs =>
            refine takes_resolve_list hj' hhidden (fun {v s} _ hv => ?_) ?_
            · cases hv
              exact isSym_quote_of_isLeftAlone (hord x List.mem_cons_self).head
            · simp only [List.map_map, List.forall₂_cons]
              refine ⟨takes_resolve_word ps (hord x List.mem_cons_self).atom, ?_⟩
              rw [List.forall₂_map_left_iff, List.forall₂_map_right_iff]
              exact List.forall₂_same.2 fun u hu =>
                takes_resolve_word ps (hord u (List.mem_cons_of_mem _ hu)).atom
      have hitems := takes_resolve_list hj hhidden
        (fun {v s} _ hv => by
          cases hv
          rfl)
        (.cons hkeyword (.cons hformals (takesAll_resolve hk hhidden body hj' hc.2)))
      refine ⟨fun {v s} hs hv => ?_⟩
      refine (hitems.run hs (stands_lambda.1 hv)).mono fun w t h => ⟨h.1, ?_⟩
      exact stands_lambda.2 h.2
  | .expander _, _, _, hc => hc.elim
  | .template _ _, _, _, _ => by
      refine takes_self fun {v s} _ hv => ?_
      obtain ⟨q, b, rfl, -⟩ := hv
      exact .of_forall fun n k => by rw [(Engine.ofFuel n).resolve_word ps _ rfl]; rfl

theorem takesAll_resolve (hk : ∀ k, Engine.isLeftAlone k = true → ps.scan k = k)
    (hhidden : ∀ i, hidden i → i < s₀.store.cells.size) :
    ∀ (cs : List Code) {j : Nat → Nat}, Tendsto j atTop atTop → TidyAll symbols free cs →
      List.Forall₂ (Takes hidden s₀ fun n => (Engine.ofFuel n).resolve ps (j n)) cs
        (mapAll ps.scan cs)
  | [], _, _, _ => .nil
  | c :: cs, _, hj, hc =>
      .cons (takes_resolve hk hhidden c hj hc.1) (takesAll_resolve hk hhidden cs hj hc.2)

end

/-! ## What compiling gives -/

mutual

/-- What a piece of text, resolved so far, becomes when calls of one macro are expanded and all
lambdas are compiled; `expansion` gives the expansions. Expansions call no macro. -/
inductive Compiles (symbols : SymbolTable) (name : Ref .dummy → Symbol) (free : Symbol → Prop)
    (expansion : List Code → Option Code) : Code → Code → Prop
  | word {v : Value} : Fitting free v → Compiles symbols name free expansion (.word v) (.word v)
  | quoted (q : Quotation) : Compiles symbols name free expansion (.quoted q) (.quoted q)
  | list {cs ds : List Code} : cs ≠ [] → expansion cs = none →
      CompilesAll symbols name free expansion cs ds →
      Compiles symbols name free expansion (.list cs) (.list ds)
  | call {cs : List Code} {c : Code} : expansion cs = some c → c.Tidy symbols free →
      Compiles symbols name free expansion (.list cs) (c.scanned name id)
  | lambda {formals : List Value} {body ds : List Code} {free' : Symbol → Prop} :
      Listed symbols formals → TidyAll symbols free' body →
      Compiles symbols name free expansion
        (ofItems (mapAll (Parameters.ofFormals name formals).scan body)) (ofItems ds) →
      Compiles symbols name free expansion (.lambda formals body)
        (.template (Parameters.ofFormals name formals).shape ds)
  | template (shape : Shape) (body : List Code) :
      Compiles symbols name free expansion (.template shape body) (.template shape body)

inductive CompilesAll (symbols : SymbolTable) (name : Ref .dummy → Symbol) (free : Symbol → Prop)
    (expansion : List Code → Option Code) : List Code → List Code → Prop
  | nil : CompilesAll symbols name free expansion [] []
  | cons {c d : Code} {cs ds : List Code} : Compiles symbols name free expansion c d →
      CompilesAll symbols name free expansion cs ds →
      CompilesAll symbols name free expansion (c :: cs) (d :: ds)

end

mutual

theorem mapWords_comp (f g : Value → Value) :
    ∀ c : Code, (c.mapWords f).mapWords g = c.mapWords (g ∘ f)
  | .word _ => rfl
  | .quoted _ => rfl
  | .list items => by rw [mapWords, mapWords, mapWords, mapAll_comp f g items]
  | .lambda formals body => by
      rw [mapWords, mapWords, mapWords, mapAll_comp f g body, List.map_map]
  | .expander items => by rw [mapWords, mapWords, mapWords, mapAll_comp f g items]
  | .template _ _ => rfl

theorem mapAll_comp (f g : Value → Value) :
    ∀ cs : List Code, mapAll g (mapAll f cs) = mapAll (g ∘ f) cs
  | [] => rfl
  | c :: cs => by rw [mapAll, mapAll, mapAll, mapWords_comp f g c, mapAll_comp f g cs]

end

theorem compiles_ofItems {expansion : List Code → Option Code} {cs ds : List Code}
    (hcs : expansion cs = none) (h : CompilesAll symbols name free expansion cs ds) :
    Compiles symbols name free expansion (ofItems cs) (ofItems ds) := by
  cases h with
  | nil => exact .word (.nil free)
  | cons hc hcs' => exact .list (by simp) hcs (.cons hc hcs')

mutual

/-- Tidy text, of which `g` says how far it is resolved, is compiled by scanning it. -/
theorem compiles_of_tidy {g : Value → Value} (hg : Scans free g) : ∀ c : Code,
    c.Tidy symbols free →
      Compiles symbols name free (fun _ => none) (c.mapWords g) (c.scanned name g)
  | .word _, hc => .word (hg.fitting hc)
  | .quoted q, _ => .quoted q
  | .list (c :: cs), hc =>
      .list (List.cons_ne_nil _ _) rfl (compilesAll_of_tidy hg (c :: cs) hc.2)
  | .list [], hc => absurd rfl hc.1
  | .lambda formals body, hc => by
      have hformals := hc.1.map hg.toScanLike hg.rest
      have hbody := compilesAll_of_tidy (hg.scan name hformals) body hc.2
      rw [← mapAll_comp] at hbody
      exact .lambda hformals (TidyAll.mapAll hg body hc.2) (compiles_ofItems rfl hbody)
  | .expander _, hc => hc.elim
  | .template shape body, _ => .template shape body

theorem compilesAll_of_tidy {g : Value → Value} (hg : Scans free g) : ∀ cs : List Code,
    TidyAll symbols free cs →
      CompilesAll symbols name free (fun _ => none) (mapAll g cs) (scannedAll name g cs)
  | [], _ => .nil
  | c :: cs, hc => .cons (compiles_of_tidy hg c hc.1) (compilesAll_of_tidy hg cs hc.2)

end

/-! ## Expansion and nested lambdas -/

/-- Expansion, with a number of expansions allowed, and compiling nested lambdas after it take one
piece of code to another. -/
def Passes (hidden : Nat → Prop) (s₀ : State) (allowed : Nat) (c d : Code) : Prop :=
  ∃ m : Code,
    (∀ {j : Nat → Nat}, Tendsto j atTop atTop →
      Takes hidden s₀ (fun n => (Engine.ofFuel n).expandMacros (j n) allowed) c m) ∧
    (∀ {j : Nat → Nat}, Tendsto j atTop atTop →
      Takes hidden s₀ (fun n => (Engine.ofFuel n).compileInner (j n)) m d) ∧
    ∀ {v s}, s₀.Grown s → m.Stands (s.store.veil hidden) v → Engine.isLeftAlone v = false

variable {expansion : List Code → Option Code} {allowed : Nat}

/-- What is compiled neither is a macro nor a keyword that the passes stop at. -/
theorem Compiles.head {c d : Code} {v : Value} {s : State}
    (hfree : ∀ x, free x → ¬ s₀.Expands (.sym x)) (hs : s₀.Grown s)
    (h : Compiles symbols name free expansion c d) (hv : c.Stands (s.store.veil hidden) v) :
    Engine.isLeftAlone v = false ∧ ¬ s.Expands v := by
  have hlist : ∀ {cs : List Code}, StandsAll (s.store.veil hidden) cs v →
      Engine.isLeftAlone v = false ∧ ¬ s.Expands v := by
    intro cs hv
    obtain ⟨vs, hchain, -⟩ := chain_of_standsAll hv
    rcases hchain.nil_or_pair with rfl | ⟨r, rfl⟩ <;> exact ⟨rfl, fun h => h.elim⟩
  cases h with
  | @word u hu =>
      obtain rfl : v = u := hv
      refine ⟨hu.head, hs.not_expands ?_⟩
      cases v with
      | sym x => exact hfree x (hu.sym x rfl)
      | callable r => exact absurd rfl (hu.callable r)
      | _ => exact fun h => h.elim
  | quoted q =>
      obtain ⟨r, d, rfl, -⟩ := Quotation.Stands.exists_cell hv
      exact ⟨rfl, fun h => h.elim⟩
  | list => exact hlist hv
  | call => exact hlist hv
  | lambda =>
      obtain ⟨r, -, -, -, rfl, -⟩ := hv
      exact ⟨rfl, fun h => h.elim⟩
  | template shape body =>
      obtain ⟨q, b, rfl, hq, -⟩ := hv
      refine ⟨rfl, fun ⟨shape', body', hexpander⟩ => ?_⟩
      have hq' : s.store.callables[q.index]? = some (.template shape b) := hq
      simp [Store.callable, Array.getD_eq_getD_getElem?, hq'] at hexpander

/-- Expansion goes through a list that is no call of a macro. -/
theorem takes_expandMacros_list (hj : Tendsto j atTop atTop)
    (hhidden : ∀ i, hidden i → i < s₀.store.cells.size) {cs ms : List Code} (hne : cs ≠ [])
    (hhead : ∀ {v s}, s₀.Grown s → (Code.list cs).Stands (s.store.veil hidden) (.pair v) →
      Engine.isLeftAlone (s.store.car v) = false ∧ ¬ s.Expands (s.store.car v))
    (hf : List.Forall₂
      (Takes hidden s₀ fun n => (Engine.ofFuel n).expandMacros (j n - 1) allowed) cs ms) :
    Takes hidden s₀ (fun n => (Engine.ofFuel n).expandMacros (j n) allowed) (.list cs)
      (.list ms) := by
  refine takes_list (f := fun E m => E.expandMacros m allowed) hj hhidden
    (fun {v s} hs hv n m k => ?_) hf
  cases cs with
  | nil => exact absurd rfl hne
  | cons c cs =>
      obtain ⟨r, a, d, rfl, -⟩ := StandsAll.exists_cell hv
      obtain ⟨hleft, hexpands⟩ := hhead hs hv
      have hnone : Engine.expander? (s.store.car r) (s.withRoom k) = .ok none (s.withRoom k) :=
        Engine.expander?_eq_none (s := s.withRoom k) hexpands
      rw [Engine.expandMacros, bind_of_ok (car_apply r _),
        show (s.withRoom k).store.car r = s.store.car r from rfl, hleft]
      simp only [Bool.false_eq_true, if_false]
      rw [bind_of_ok hnone]

/-- Compiling nested lambdas goes through a list that is none. -/
theorem takes_compileInner_list (hj : Tendsto j atTop atTop)
    (hhidden : ∀ i, hidden i → i < s₀.store.cells.size) {ms ds : List Code} (hne : ms ≠ [])
    (hhead : ∀ {v s}, s₀.Grown s → (Code.list ms).Stands (s.store.veil hidden) (.pair v) →
      Engine.isLeftAlone (s.store.car v) = false)
    (hf : List.Forall₂
      (Takes hidden s₀ fun n => (Engine.ofFuel n).compileInner (j n - 1)) ms ds) :
    Takes hidden s₀ (fun n => (Engine.ofFuel n).compileInner (j n)) (.list ms) (.list ds) := by
  refine takes_list (f := fun E m => E.compileInner m) hj hhidden
    (fun {v s} hs hv n m k => ?_) hf
  cases ms with
  | nil => exact absurd rfl hne
  | cons c cs =>
      obtain ⟨r, a, d, rfl, -⟩ := StandsAll.exists_cell hv
      have hleft := hhead hs hv
      simp only [Engine.isLeftAlone, Bool.or_eq_false_iff] at hleft
      rw [Engine.compileInner, bind_of_ok (car_apply r _),
        show (s.withRoom k).store.car r = s.store.car r from rfl, hleft.1.1, hleft.1.2, hleft.2]
      rfl

/-- A parameter list and a body are compiled, if the scanned body passes the passes. The callable is
made last. -/
theorem succeeds_compileWithin (hj : Tendsto j atTop atTop)
    (hhidden : ∀ i, hidden i → i < s₀.store.cells.size) {kind : CallableKind}
    {formals : List Value} {body ds : List Code}
    (hformals : Listed s₀.symbols formals) (hbody : TidyAll s₀.symbols free body)
    (hpasses : Passes hidden s₀ s₀.config.maxMacroExpansions
      (ofItems (mapAll (Parameters.ofFormals s₀.store.dummySymbol formals).scan body))
      (ofItems ds))
    {s : State} {r : Ref .cell} {f b : Value} (hs : s₀.Grown s)
    (hr : s.store.cell? r = some ⟨f, b⟩) (hf : s.store.Chain formals .nil f)
    (hb : StandsAll (s.store.veil hidden) body b) :
    Succeeds (fun n => (Engine.ofFuel n).compileWithin (j n) kind (.pair r)) s fun w t =>
      ∃ b' s₁, s.Grown s₁ ∧ StandsAll (s₁.store.veil hidden) ds b' ∧
        w = .callable ⟨s₁.store.callables.size⟩ ∧
        t = { s₁ with store := (s₁.store.newCallable (kind.make
          (Parameters.ofFormals s₀.store.dummySymbol formals).shape b')).2 } := by
  obtain ⟨m, hexpand, hinner, -⟩ := hpasses
  let ps := Parameters.ofFormals s₀.store.dummySymbol formals
  have hparameters : ∀ {n k}, formals.length ≤ n →
      (Engine.ofFuel n).parameters f (s.withRoom k) = .ok ps (s.withRoom k) := by
    intro n k hn
    have h := (Engine.ofFuel n).parameters_of_listed (s := s.withRoom k)
      (by rwa [show (s.withRoom k).symbols = s₀.symbols from hs.symbols]) hn (hf.withRoom k)
    rwa [show (s.withRoom k).store.dummySymbol = s₀.store.dummySymbol from hs.dummySymbol] at h
  have hkeys : ∀ x, Engine.isLeftAlone x = true → ps.scan x = x :=
    ((Engine.ofFuel formals.length).parameters_eq_ok (hf.withRoom 0)
      (hparameters (Nat.le_refl _))).2.2
  refine .congr (y := fun n => (Engine.ofFuel n).resolve ps n b >>= fun forms =>
    gets (·.config.maxMacroExpansions) >>= fun allowed =>
      (Engine.ofFuel n).expandMacros n allowed forms >>= fun forms =>
        (Engine.ofFuel n).compileInner (j n - 1) forms >>= fun forms =>
          alloc (·.newCallable (kind.make ps.shape forms))) ?_ ?_
  · have hsource : (ofItems body).Stands (s.store.veil hidden) b := stands_ofItems.2 hb
    have hresolve := (takes_resolve (j := fun n => n) hkeys hhidden (ofItems body) tendsto_id
      (tidy_ofItems hbody)).run hs hsource
    rw [mapWords_ofItems rfl] at hresolve
    refine .bind hresolve fun v₁ s₁ ⟨hs₁, hv₁⟩ => ?_
    refine .read (a := s₀.config.maxMacroExpansions) (.of_forall fun n k => ?_) ?_
    · rw [gets_apply]
      show Outcome.ok s₁.config.maxMacroExpansions _ = _
      rw [(hs.trans hs₁).config]
    · refine .bind ((hexpand tendsto_id).run (hs.trans hs₁) hv₁) fun v₂ s₂ ⟨hs₂, hv₂⟩ => ?_
      refine .bind ((hinner (tendsto_pred hj)).run ((hs.trans hs₁).trans hs₂) hv₂)
        fun v₃ s₃ ⟨hs₃, hv₃⟩ => ?_
      have halloc : Comes (fun _ => alloc (·.newCallable (kind.make ps.shape v₃))) s₃
          (.ok (.callable ⟨s₃.store.callables.size⟩)
            { s₃ with store := (s₃.store.newCallable (kind.make ps.shape v₃)).2 }) :=
        .alloc fun k => rfl
      exact ⟨_, _, halloc, v₃, s₃, (hs₁.trans hs₂).trans hs₃, stands_ofItems.1 hv₃, rfl, rfl⟩
  · filter_upwards [hj.eventually_ge_atTop 1, eventually_ge_atTop formals.length] with n hn hn' k
    have hsucc : j n = j n - 1 + 1 := (Nat.sub_add_cancel hn).symm
    rw [hsucc, Engine.compileWithin, bind_of_ok (car_apply r _),
      show (s.withRoom k).store.car r = f from Store.car_of_cell? hr,
      bind_of_ok (hparameters hn'), bind_of_ok (cdrCell_of_standsAll _ hr hb k),
      Nat.add_sub_cancel]
    rfl

/-- What one round of the passes comes to, item by item. -/
theorem Passes.items {cs ds : List Code} (h : List.Forall₂ (Passes hidden s₀ allowed) cs ds) :
    ∃ ms : List Code,
      (∀ {j : Nat → Nat}, Tendsto j atTop atTop → List.Forall₂
        (Takes hidden s₀ fun n => (Engine.ofFuel n).expandMacros (j n) allowed) cs ms) ∧
      (∀ {j : Nat → Nat}, Tendsto j atTop atTop → List.Forall₂
        (Takes hidden s₀ fun n => (Engine.ofFuel n).compileInner (j n)) ms ds) ∧
      ∀ m ∈ ms, ∀ {v s}, s₀.Grown s → m.Stands (s.store.veil hidden) v →
        Engine.isLeftAlone v = false := by
  induction h with
  | nil => exact ⟨[], fun _ => .nil, fun _ => .nil, by simp⟩
  | cons hc _ ih =>
      obtain ⟨m, hexpand, hinner, hhead⟩ := hc
      obtain ⟨ms, hexpands, hinners, hheads⟩ := ih
      refine ⟨m :: ms, fun hj => .cons (hexpand hj) (hexpands hj),
        fun hj => .cons (hinner hj) (hinners hj), ?_⟩
      intro m' hm'
      rcases List.mem_cons.1 hm' with rfl | hm'
      · exact hhead
      · exact hheads m' hm'

theorem Passes.word {v : Value} (hv : v.isPair = false) (hhead : Engine.isLeftAlone v = false) :
    Passes hidden s₀ allowed (.word v) (.word v) := by
  refine ⟨.word v, fun _ => takes_self ?_, fun _ => takes_self ?_, ?_⟩
  · rintro _ s - rfl
    exact .of_forall fun n k => by rw [(Engine.ofFuel n).expandMacros_word hv]; rfl
  · rintro _ s - rfl
    exact .of_forall fun n k => by rw [(Engine.ofFuel n).compileInner_word hv]; rfl
  · rintro _ s - rfl
    exact hhead

theorem Passes.quoted (q : Quotation) : Passes hidden s₀ allowed (.quoted q) (.quoted q) := by
  refine ⟨.quoted q, fun hj => takes_quoted (f := fun E m => E.expandMacros m allowed) hj q ?_,
    fun hj => takes_quoted (f := fun E m => E.compileInner m) hj q ?_, ?_⟩
  · intro r s hcar n m
    rw [Engine.expandMacros, bind_of_ok (car_apply r _), hcar]
    rfl
  · intro r s hcar n m
    rw [Engine.compileInner, bind_of_ok (car_apply r _), hcar]
    rfl
  · intro v s _ hv
    obtain ⟨r, _, rfl, -⟩ := Quotation.Stands.exists_cell hv
    rfl

theorem Passes.template (shape : Shape) (body : List Code) :
    Passes hidden s₀ allowed (.template shape body) (.template shape body) := by
  refine ⟨.template shape body, fun _ => takes_self ?_, fun _ => takes_self ?_, ?_⟩
  · rintro _ s - ⟨q, b, rfl, -⟩
    exact .of_forall fun n k => by rw [(Engine.ofFuel n).expandMacros_word rfl]; rfl
  · rintro _ s - ⟨q, b, rfl, -⟩
    exact .of_forall fun n k => by rw [(Engine.ofFuel n).compileInner_word rfl]; rfl
  · rintro _ s - ⟨q, b, rfl, -⟩
    rfl

/-- A list passes the passes if its items do, and it is no call of a macro. -/
theorem Passes.list (hhidden : ∀ i, hidden i → i < s₀.store.cells.size) {cs ds : List Code}
    (hne : cs ≠ [])
    (hhead : ∀ c ∈ cs.head?, ∀ {v s}, s₀.Grown s → c.Stands (s.store.veil hidden) v →
      Engine.isLeftAlone v = false ∧ ¬ s.Expands v)
    (h : List.Forall₂ (Passes hidden s₀ allowed) cs ds) :
    Passes hidden s₀ allowed (.list cs) (.list ds) := by
  obtain ⟨ms, hexpands, hinners, hheads⟩ := Passes.items h
  have hne' : ms ≠ [] := by
    rintro rfl
    exact hne (List.forall₂_nil_right_iff.1 (hexpands tendsto_id))
  refine ⟨.list ms, fun hj => takes_expandMacros_list hj hhidden hne (fun {v s} hs hv => ?_)
    (hexpands (tendsto_pred hj)), fun hj => takes_compileInner_list hj hhidden hne'
      (fun {v s} hs hv => ?_) (hinners (tendsto_pred hj)), fun {v s} _ hv => ?_⟩
  · cases cs with
    | nil => exact absurd rfl hne
    | cons c cs =>
        obtain ⟨r, a, d, hr, hcell, ha, -⟩ := StandsAll.exists_cell hv
        cases hr
        rw [Store.car_of_cell? hcell]
        exact hhead c rfl hs ha
  · cases ms with
    | nil => exact absurd rfl hne'
    | cons m ms =>
        obtain ⟨r, a, d, hr, hcell, ha, -⟩ := StandsAll.exists_cell hv
        cases hr
        rw [Store.car_of_cell? hcell]
        exact hheads m List.mem_cons_self hs ha
  · cases ms with
    | nil => exact absurd rfl hne'
    | cons m ms =>
        obtain ⟨r, -, -, rfl, -⟩ := hv
        rfl

/-- A lambda becomes a template. -/
theorem Passes.lambda (hhidden : ∀ i, hidden i → i < s₀.store.cells.size) {formals : List Value}
    {body ds : List Code} (hformals : Listed s₀.symbols formals)
    (hbody : TidyAll s₀.symbols free body)
    (hpasses : Passes hidden s₀ s₀.config.maxMacroExpansions
      (ofItems (mapAll (Parameters.ofFormals s₀.store.dummySymbol formals).scan body))
      (ofItems ds)) :
    Passes hidden s₀ allowed (.lambda formals body)
      (.template (Parameters.ofFormals s₀.store.dummySymbol formals).shape ds) := by
  refine ⟨.lambda formals body, fun {j} hj => takes_self ?_, fun {j} hj => ⟨?_⟩, ?_⟩
  · rintro _ s - ⟨r, next, f, b, rfl, hr, -⟩
    have hcell := Store.cell?_of_veil hr (by simp)
    filter_upwards [hj.eventually_ge_atTop 1] with n hn k
    have hsucc : j n = j n - 1 + 1 := (Nat.sub_add_cancel hn).symm
    rw [hsucc, Engine.expandMacros, bind_of_ok (car_apply r _),
      show (s.withRoom k).store.car r = .sym Symbol.lambda from Store.car_of_cell? hcell]
    rfl
  · rintro _ s hs ⟨r, next, f, b, rfl, hr, hn, hf, hb⟩
    have hcell := Store.cell?_of_veil hr (by simp)
    have hcell' := Store.cell?_of_veil hn hb.ne_eof
    obtain ⟨vs, hchain, -⟩ := chain_of_standsAll hb
    have hcdr : ∀ n k, (Engine.ofFuel n).cdrCell r (s.withRoom k) =
        .ok (.pair next) (s.withRoom k) := by
      intro n k
      have hrest : (s.withRoom k).store.Chain (f :: vs) .nil (.pair next) :=
        ⟨next, b, rfl, hcell', (chain_of_veil hchain).withRoom k⟩
      exact (Engine.ofFuel n).cdrCell_of_list (s := s.withRoom k) hcell hrest
    refine .congr (y := fun n => (Engine.ofFuel n).compileWithin (j n - 1) .template (.pair next))
      ?_ ?_
    · refine (succeeds_compileWithin (tendsto_pred hj) hhidden hformals hbody hpasses hs hcell'
        (chain_of_veil hf) hb).mono ?_
      rintro _ _ ⟨b', s₁, hs₁, hb', rfl, rfl⟩
      have hnew := State.Grown.of_extends (State.Extends.newTemplate s₁
        (Parameters.ofFormals s₀.store.dummySymbol formals).shape b')
      refine ⟨hs₁.trans hnew, _, b', rfl, ?_, (hnew.veil hidden).standsAll hb'⟩
      simp [Store.veil, Store.newCallable, CallableKind.make]
    · filter_upwards [hj.eventually_ge_atTop 1] with n hn k
      have hsucc : j n = j n - 1 + 1 := (Nat.sub_add_cancel hn).symm
      rw [hsucc, Engine.compileInner, bind_of_ok (car_apply r _),
        show (s.withRoom k).store.car r = .sym Symbol.lambda from Store.car_of_cell? hcell]
      simp only [show (Value.sym Symbol.lambda).isSym Symbol.quote = false from rfl,
        show (Value.sym Symbol.lambda).isSym Symbol.lambda = true from rfl,
        Bool.false_eq_true, if_false, if_true]
      rw [bind_of_ok (hcdr n k), Nat.add_sub_cancel]
  · rintro _ s - ⟨r, -, -, -, rfl, -⟩
    rfl

variable {B : Nat → Prop}

mutual

/-- What text is compiled to is what the passes come to, provided that calls of the macro pass. -/
theorem passes_of_compiles (hhidden : ∀ i, hidden i → i < s₀.store.cells.size)
    (hfree : ∀ x, free x → ¬ s₀.Expands (.sym x)) (hmax : B s₀.config.maxMacroExpansions)
    (hcalls : ∀ {cs c allowed}, expansion cs = some c → c.Tidy s₀.symbols free → B allowed →
      Passes hidden s₀ allowed (.list cs) (c.scanned s₀.store.dummySymbol id)) :
    ∀ {c d : Code} {allowed : Nat}, B allowed →
      Compiles s₀.symbols s₀.store.dummySymbol free expansion c d → Passes hidden s₀ allowed c d
  | _, _, _, _, .word hv => .word hv.atom hv.head
  | _, _, _, _, .quoted q => .quoted q
  | .list cs, _, _, hbudget, .list hne _ hitems => by
      refine .list hhidden hne (fun c hc {v s} hs hv => ?_)
        (passesAll_of_compilesAll hhidden hfree hmax hcalls hbudget hitems)
      cases hitems with
      | nil => cases hc
      | cons hfirst _ =>
          cases hc
          exact hfirst.head hfree hs hv
  | _, _, _, hbudget, .call hcs htidy => hcalls hcs htidy hbudget
  | _, _, _, _, .lambda hformals hbody hpasses =>
      .lambda hhidden hformals hbody
        (passes_of_compiles hhidden hfree hmax hcalls hmax hpasses)
  | _, _, _, _, .template shape body => .template shape body

theorem passesAll_of_compilesAll (hhidden : ∀ i, hidden i → i < s₀.store.cells.size)
    (hfree : ∀ x, free x → ¬ s₀.Expands (.sym x)) (hmax : B s₀.config.maxMacroExpansions)
    (hcalls : ∀ {cs c allowed}, expansion cs = some c → c.Tidy s₀.symbols free → B allowed →
      Passes hidden s₀ allowed (.list cs) (c.scanned s₀.store.dummySymbol id)) :
    ∀ {cs ds : List Code} {allowed : Nat}, B allowed →
      CompilesAll s₀.symbols s₀.store.dummySymbol free expansion cs ds →
      List.Forall₂ (Passes hidden s₀ allowed) cs ds
  | _, _, _, _, .nil => .nil
  | _, _, _, hbudget, .cons hc hcs =>
      .cons (passes_of_compiles hhidden hfree hmax hcalls hbudget hc)
        (passesAll_of_compilesAll hhidden hfree hmax hcalls hbudget hcs)

end

/-- Where no call is expanded, the passes take code to what it compiles to. -/
theorem Compiles.passes (hhidden : ∀ i, hidden i → i < s₀.store.cells.size)
    (hfree : ∀ x, free x → ¬ s₀.Expands (.sym x)) {c d : Code}
    (h : Compiles s₀.symbols s₀.store.dummySymbol free (fun _ => none) c d) :
    Passes hidden s₀ allowed c d :=
  passes_of_compiles (B := fun _ => True) hhidden hfree trivial (fun h => by cases h) trivial h

end Code

end SmallLisp
