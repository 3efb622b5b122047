import SmallLisp.Proofs.Prelude.Describing

/-!
# Compiling where a lexicon describes the state

Each pass of the compiler makes of a value that stands for a tree one that stands for what the pass
makes of the tree, and so what is compiled has the shape and the body that the lexicon tells.
-/

namespace SmallLisp

open Eval Code

variable {L : Lexicon} {s₀ s t : State}

/-! ## Heads and words -/

namespace Code

variable {c d : Code} {cs : List Code} {v a : Value}

/-- What stands for a word of a tree is the word, and no pair. -/
theorem eq_of_ofWord? (hd : ofWord? v = some d) :
    d = .word v ∧ v.isPair = false ∧ v.isPromise = false := by
  unfold ofWord? at hd
  split at hd
  · cases hd
  · rename_i hv
    rw [Bool.or_eq_true, not_or, Bool.not_eq_true, Bool.not_eq_true] at hv
    cases hd
    exact ⟨rfl, hv⟩

theorem isSym_iff_symbol? {store : Store} (h : c.Stands store a) (x : Symbol) :
    a.isSym x = true ↔ c.symbol? = some x := by
  cases c with
  | word w =>
      cases h
      cases a <;> simp [Value.isSym, symbol?]
  | quoted q =>
      obtain ⟨r, _, rfl, -⟩ := Quotation.Stands.exists_cell h
      simp [Value.isSym, symbol?]
  | list cs =>
      cases cs with
      | nil =>
          cases h
          simp [Value.isSym, symbol?]
      | cons c cs =>
          obtain ⟨r, a, d, rfl, -⟩ := h
          simp [Value.isSym, symbol?]
  | lambda formals body =>
      obtain ⟨r, _, _, _, rfl, -⟩ := h
      simp [Value.isSym, symbol?]
  | expander items =>
      obtain ⟨r, _, rfl, -⟩ := h
      simp [Value.isSym, symbol?]
  | template shape body =>
      obtain ⟨r, _, rfl, -⟩ := h
      simp [Value.isSym, symbol?]

/-- A head that is neither a symbol nor a callable denotes no macro. -/
theorem not_expands_of_stands (h : c.Stands s.store a) (hsymbol : c.symbol? = none)
    (hc : ∀ r, c ≠ .word (.callable r)) : ¬ s.Expands a := by
  have hsym : ∀ x, a ≠ .sym x := by
    rintro x rfl
    rw [(isSym_iff_symbol? h x).1 (by simp [Value.isSym])] at hsymbol
    cases hsymbol
  cases a with
  | sym x => exact absurd rfl (hsym x)
  | callable r =>
      rintro ⟨shape, body, hr⟩
      cases c with
      | word w => exact hc r (congrArg _ h.symm)
      | quoted q =>
          obtain ⟨_, _, hv, -⟩ := Quotation.Stands.exists_cell h
          cases hv
      | list cs =>
          obtain ⟨vs, hchain, -⟩ := chain_of_standsAll h
          rcases hchain.nil_or_pair with hv | ⟨_, hv⟩ <;> cases hv
      | lambda formals body =>
          obtain ⟨_, _, _, _, hv, -⟩ := h
          cases hv
      | expander items =>
          obtain ⟨_, _, hv, -⟩ := h
          cases hv
      | template shape' body' =>
          obtain ⟨r', b, hr', hcallable, -⟩ := h
          cases hr'
          rw [Store.callable, getD_of_getElem? hcallable] at hr
          cases hr
  | _ => exact id

end Code

/-! ## The passes -/

namespace Traces

variable {E : Engine} {cs ds : List Code} {d : Code} {φ : Value → Eval Value}
  {f : Code → Option Code} {v w : Value}

/-- A list that is mapped item by item. -/
theorem mapped (hf : Traces s₀ φ f) (hd : (cs.mapM f).map Code.list = some d) (hs : s₀.Accrues s)
    (hv : StandsAll s.store cs v) (h : E.mapList φ v s = .ok w t) :
    s.Accrues t ∧ d.Shows t w := by
  obtain ⟨ds, hds, rfl⟩ := Option.map_eq_some_iff.1 hd
  obtain ⟨ht, hstands⟩ := hf.mapList hds hs hv h
  exact ⟨ht, shows_list hstands⟩

/-- A scan for parameters. -/
theorem resolve (E : Engine) (ps : Parameters) (k : Nat) :
    ∀ n, Traces s₀ (E.resolve ps n) (Lexicon.resolved? ps k) := by
  induction k with
  | zero =>
      intro n c d v w s t _ hd
      cases hd
  | succ k ih =>
      intro n c d v w s t hs hd hv h
      unfold Lexicon.resolved? at hd
      split at hd
      · rename_i u
        obtain ⟨_, hu, rfl⟩ := Option.map_eq_some_iff.1 hd
        obtain ⟨-, hpair, hpromise⟩ := eq_of_ofWord? hu
        obtain rfl : v = u := hv
        rw [E.resolve_word ps n hpair] at h
        cases h
        refine ⟨.refl _, rfl, ?_⟩
        rcases ps.scan_cases v with hscan | ⟨a, hscan⟩
        · rw [hscan]
          exact hpromise
        · rw [hscan]
          rfl
      · rename_i head cs
        obtain ⟨r, a, rest, rfl, hr, ha, hrest⟩ := id hv
        cases n with
        | zero => simp [Engine.resolve] at h
        | succ n =>
            rw [Engine.resolve, bind_of_ok (car_apply r s), Store.car_of_cell? hr] at h
            dsimp only at h
            split at hd
            · rename_i hquote
              cases hd
              rw [(isSym_iff_symbol? ha _).2 hquote, if_pos rfl] at h
              cases h
              exact ⟨.refl _, shows_list hv⟩
            · rename_i hquote
              rw [← isSym_iff_symbol? ha] at hquote
              rw [if_neg hquote] at h
              have hmap : Traces s₀ _ _ := ih n
              exact hmap.mapped hd hs hv h
      · cases hd

end Traces

namespace Lexicon.Describes

variable {c d : Code} {cs ds : List Code} {v w : Value}

/-- What a head that a macro has been defined for denotes. -/
theorem expander?_eq_some (h : L.Describes s) {x : Symbol} {shape : Shape} {bs : List Code}
    (hx : L.meaning? x = some (.expander shape bs)) :
    ∃ b, Engine.expander? (.sym x) s = .ok (some (.expander shape b, b)) s ∧
      StandsAll s.store bs b := by
  obtain ⟨r, f, hglobal, hr, b, rfl, hb⟩ := h.meanings hx
  refine ⟨b, ?_, hb⟩
  have hcallable : s.store.callable r = .expander shape b := getD_of_getElem? hr default
  simp [Engine.expander?, bind_apply, hglobal, hcallable]

theorem expander?_eq_none (h : L.Describes s) {x : Symbol}
    (hx : ∀ shape bs, L.meaning? x ≠ some (.expander shape bs)) :
    Engine.expander? (.sym x) s = .ok none s := by
  refine Engine.expander?_eq_none fun hexpands => ?_
  obtain ⟨shape, bs, hmeaning⟩ := h.expanders hexpands
  exact hx shape bs hmeaning

/-- A call of a macro is expanded, and what it expands to is. -/
theorem expandMacros_call (h₀ : L.Describes s₀) {m k n allowed : Nat} {x : Symbol}
    {shape : Shape} {bs : List Code} {r : Ref .cell} {rest : Value}
    (ih : ∀ allowed, Traces s₀ ((Engine.ofFuel m).expandMacros n allowed) (L.expanded? k))
    (hs : s₀.Accrues s) (hx : L.meaning? x = some (.expander shape bs))
    (hd : (L.expansion? k shape bs cs).bind (L.expanded? k) = some d)
    (hr : s.store.cell? r = some ⟨.sym x, rest⟩) (hrest : StandsAll s.store cs rest)
    (hleft : ¬ Engine.isLeftAlone (.sym x) = true)
    (h : (Engine.ofFuel m).expandMacros (n + 1) allowed (.pair r) s = .ok w t) :
    s.Accrues t ∧ d.Shows t w := by
  have hL := h₀.accrues hs
  obtain ⟨b, hexpander, hb⟩ := hL.expander?_eq_some hx
  obtain ⟨e, he, hd⟩ := Option.bind_eq_some_iff.1 hd
  obtain ⟨vs, hchain, -⟩ := chain_of_standsAll hrest
  rw [Engine.expandMacros, bind_of_ok (car_apply r s), Store.car_of_cell? hr, if_neg hleft,
    bind_of_ok hexpander] at h
  cases allowed with
  | zero => simp [malformedOn, failOn_apply] at h
  | succ allowed =>
      dsimp only at h
      rw [bind_of_ok ((Engine.ofFuel m).cdrCell_of_list hr hchain), bind_eq_ok] at h
      obtain ⟨u, s₁, hu, h⟩ := h
      obtain ⟨hs₁, hshows⟩ := hL.expandCall hb hrest he hu
      obtain ⟨ht, hd⟩ := ih allowed (hs.trans hs₁) hd hshows.1 h
      exact ⟨hs₁.trans ht, hd⟩

/-- A list whose head neither is left alone nor denotes a macro is expanded item by item. -/
theorem expandMacros_items {m k n allowed : Nat} {a rest : Value} {r : Ref .cell}
    (ih : Traces s₀ ((Engine.ofFuel m).expandMacros n allowed) (L.expanded? k))
    (hs : s₀.Accrues s) (hd : (cs.mapM (L.expanded? k)).map Code.list = some d)
    (hr : s.store.cell? r = some ⟨a, rest⟩) (hv : StandsAll s.store cs (.pair r))
    (hleft : ¬ Engine.isLeftAlone a = true) (hhead : Engine.expander? a s = .ok none s)
    (h : (Engine.ofFuel m).expandMacros (n + 1) allowed (.pair r) s = .ok w t) :
    s.Accrues t ∧ d.Shows t w := by
  rw [Engine.expandMacros, bind_of_ok (car_apply r s), Store.car_of_cell? hr, if_neg hleft,
    bind_of_ok hhead] at h
  exact ih.mapped hd hs hv h

/-- Expansion with the macros of the lexicon. -/
theorem expandMacros (h₀ : L.Describes s₀) (m k : Nat) : ∀ n allowed,
    Traces s₀ ((Engine.ofFuel m).expandMacros n allowed) (L.expanded? k) := by
  induction k with
  | zero =>
      intro n allowed c d v w s t _ hd
      cases hd
  | succ k ih =>
      intro n allowed c d v w s t hs hd hv h
      have hL := h₀.accrues hs
      unfold Lexicon.expanded? at hd
      split at hd
      · rename_i u
        obtain ⟨rfl, hpair, hpromise⟩ := eq_of_ofWord? hd
        obtain rfl : v = u := hv
        rw [Engine.expandMacros_word _ hpair] at h
        cases h
        exact ⟨.refl _, rfl, hpromise⟩
      · cases hd
      · rename_i x cs
        obtain ⟨r, a, rest, rfl, hr, ha, hrest⟩ := id hv
        obtain rfl : a = .sym x := ha
        cases n with
        | zero => simp [Engine.expandMacros] at h
        | succ n =>
            split at hd
            · rename_i hleft
              rw [Engine.expandMacros, bind_of_ok (car_apply r s), Store.car_of_cell? hr,
                if_pos hleft] at h
              cases hd
              cases h
              exact ⟨.refl _, shows_list hv⟩
            rename_i hleft
            split at hd
            · rename_i shape bs hx
              exact h₀.expandMacros_call (ih n) hs hx hd hr hrest hleft h
            · rename_i hx
              exact expandMacros_items (ih n allowed) hs hd hr hv hleft
                (hL.expander?_eq_none hx) h
      · rename_i head cs hcallable hsym
        obtain ⟨r, a, rest, rfl, hr, ha, hrest⟩ := id hv
        have hsymbol : head.symbol? = none := by
          cases head with
          | word u => cases u <;> first | rfl | exact (hsym _ rfl).elim
          | _ => rfl
        have hleft : ¬ Engine.isLeftAlone a = true := by
          simp [Engine.isLeftAlone, isSym_iff_symbol? ha, hsymbol]
        have hhead : ¬ s.Expands a :=
          not_expands_of_stands ha hsymbol fun r hr => hcallable r hr
        cases n with
        | zero => simp [Engine.expandMacros] at h
        | succ n =>
            exact expandMacros_items (ih n allowed) hs hd hr hv hleft
              (Engine.expander?_eq_none hhead) h
      · cases hd

end Lexicon.Describes

namespace Lexicon

variable {k n m : Nat} {c d : Code} {cs : List Code} {p : Shape × List Code} {v w : Value}

/-- From the state on, what is compiled of a lambda has the shape and the body that the lexicon
tells. The callable is made last. -/
def Compiles (L : Lexicon) (s₀ : State) (m k : Nat) : Prop :=
  ∀ {n kind cs p v w s t}, s₀.Accrues s → L.compiled? k cs = some p → StandsAll s.store cs v →
    (Engine.ofFuel m).compileWithin n kind v s = .ok w t →
    ∃ s₁ b, s.Accrues s₁ ∧ StandsAll s₁.store p.2 b ∧
      alloc (·.newCallable (kind.make p.1 b)) s₁ = .ok w t

theorem Describes.compiles_succ (h₀ : L.Describes s₀)
    (ih : ∀ n, Traces s₀ ((Engine.ofFuel m).compileInner n) (L.inner? k)) :
    L.Compiles s₀ m (k + 1) := by
  intro n kind cs p v w s t hs hp hv h
  have hL := h₀.accrues hs
  cases cs with
  | nil => cases hp
  | cons formals forms =>
      obtain ⟨words, hwords, hp⟩ := Option.bind_eq_some_iff.1 hp
      obtain ⟨c₁, hresolved, hp⟩ := Option.bind_eq_some_iff.1 hp
      obtain ⟨c₂, hexpanded, hp⟩ := Option.bind_eq_some_iff.1 hp
      obtain ⟨c₃, hinner, hp⟩ := Option.bind_eq_some_iff.1 hp
      obtain ⟨body, hbody, hp⟩ := Option.bind_eq_some_iff.1 hp
      cases hp
      obtain ⟨r, f, rest, rfl, hr, hf, hrest⟩ := hv
      cases n with
      | zero => simp [Engine.compileWithin] at h
      | succ n =>
          rw [Engine.compileWithin, bind_of_ok (car_apply r s), Store.car_of_cell? hr,
            bind_eq_ok] at h
          obtain ⟨ps, s₁, hps, h⟩ := h
          obtain ⟨hs₁, hread, -⟩ := Engine.parameters_eq_ok _ (chain_of_words? hwords hf) hps
          rw [hL.dummySymbol] at hread
          subst hs₁ hread
          obtain ⟨vs, hchain, -⟩ := chain_of_standsAll hrest
          rw [bind_of_ok ((Engine.ofFuel m).cdrCell_of_list hr hchain), bind_eq_ok] at h
          obtain ⟨v₁, t₁, hv₁, h⟩ := h
          obtain ⟨ht₁, hshows₁⟩ :=
            Traces.resolve _ _ k _ hs hresolved (stands_ofItems.2 hrest) hv₁
          rw [bind_of_ok (gets_apply _ t₁), bind_eq_ok] at h
          obtain ⟨v₂, t₂, hv₂, h⟩ := h
          obtain ⟨ht₂, hshows₂⟩ :=
            h₀.expandMacros m k _ _ (hs.trans ht₁) hexpanded hshows₁.1 hv₂
          rw [bind_eq_ok] at h
          obtain ⟨v₃, t₃, hv₃, h⟩ := h
          obtain ⟨ht₃, hshows₃⟩ := ih n ((hs.trans ht₁).trans ht₂) hinner hshows₂.1 hv₃
          exact ⟨t₃, v₃, (ht₁.trans ht₂).trans ht₃, (standsAll_of_items? hbody).1 hshows₃.1, h⟩

theorem inner_succ (ih : ∀ n, Traces s₀ ((Engine.ofFuel m).compileInner n) (L.inner? k))
    (ihw : L.Compiles s₀ m k) (n : Nat) :
    Traces s₀ ((Engine.ofFuel m).compileInner n) (L.inner? (k + 1)) := by
  intro c d v w s t hs hd hv h
  unfold inner? at hd
  split at hd
  · rename_i u
    obtain ⟨rfl, hpair, hpromise⟩ := eq_of_ofWord? hd
    obtain rfl : v = u := hv
    rw [Engine.compileInner_word _ hpair] at h
    cases h
    exact ⟨.refl _, rfl, hpromise⟩
  · rename_i head cs
    obtain ⟨r, a, rest, rfl, hr, ha, hrest⟩ := id hv
    cases n with
    | zero => simp [Engine.compileInner] at h
    | succ n =>
        rw [Engine.compileInner, bind_of_ok (car_apply r s), Store.car_of_cell? hr] at h
        simp only [isSym_iff_symbol? ha] at h
        split at hd
        · rename_i hquote
          rw [if_pos hquote] at h
          cases hd
          cases h
          exact ⟨.refl _, shows_list hv⟩
        rename_i hquote
        rw [if_neg hquote] at h
        split at hd
        · rename_i hlambda
          obtain ⟨p, hp, rfl⟩ := Option.map_eq_some_iff.1 hd
          obtain ⟨vs, hchain, -⟩ := chain_of_standsAll hrest
          rw [if_pos hlambda, bind_of_ok ((Engine.ofFuel m).cdrCell_of_list hr hchain)] at h
          obtain ⟨s₁, b, hs₁, hb, halloc⟩ := ihw hs hp hrest h
          cases halloc
          have ht := State.Accrues.newCallable s₁ (.template p.1 b)
          exact ⟨hs₁.trans ht, ⟨_, b, rfl, by simp [CallableKind.make], ht.code.standsAll hb⟩, rfl⟩
        rename_i hlambda
        rw [if_neg hlambda] at h
        split at hd
        · cases hd
        rename_i hexpander
        rw [if_neg hexpander] at h
        have hmap : Traces s₀ _ _ := ih n
        exact hmap.mapped hd hs hv h
  · cases hd

/-- Compiling with the macros of the lexicon. -/
theorem Describes.compiles (h₀ : L.Describes s₀) (m k : Nat) :
    (∀ n, Traces s₀ ((Engine.ofFuel m).compileInner n) (L.inner? k)) ∧ L.Compiles s₀ m k := by
  induction k with
  | zero =>
      constructor
      · intro n c d v w s t _ hd
        cases hd
      · intro n kind cs p v w s t _ hp
        cases hp
  | succ k ih => exact ⟨inner_succ ih.1 ih.2, h₀.compiles_succ ih.1⟩

end Lexicon

end SmallLisp
