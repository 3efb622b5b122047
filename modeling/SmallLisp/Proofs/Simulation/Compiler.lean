import SmallLisp.Proofs.Compiler.Addressing
import SmallLisp.Proofs.Handlers
import SmallLisp.Proofs.Simulation.Engine

/-!
# Simulated compilation

The passes of the compiler are simulated by themselves.
-/

namespace SmallLisp

/-- The names that the addresses of the parameters carry are good. -/
def Guard.GoodParameters (G : Guard) (w : G.World) (ps : Parameters) : Prop :=
  ∀ e ∈ ps.entries, G.Good w (.sym e.2.symbol)

/-- The environment that a closure is to get is good. -/
def Guard.GoodKind (G : Guard) (w : G.World) : CallableKind → Prop
  | .closure env => G.Inside w env
  | _ => True

namespace Guard

variable {G : Guard} {w w' : G.World}

theorem GoodParameters.mono {ps : Parameters} (hw : w ≤ w') (h : G.GoodParameters w ps) :
    G.GoodParameters w' ps := fun e he => G.good_mono hw (h e he)

theorem GoodParameters.find? {ps : Parameters} (h : G.GoodParameters w ps) {p : Parameter}
    {a : Address} (ha : ps.find? p = some a) : G.Good w (.address a) := by
  obtain ⟨e, he, rfl⟩ := Option.map_eq_some_iff.1 ha
  exact G.address.2 (h e (List.mem_of_find?_eq_some he))

/-- What a scan puts in place of a good word is good. -/
theorem GoodParameters.scan {ps : Parameters} (h : G.GoodParameters w ps) {v : Value}
    (hv : G.Good w v) : G.Good w (ps.scan v) := by
  cases v with
  | sym x =>
      simp only [Parameters.scan]
      cases hf : ps.find? (.sym x) with
      | none => exact hv
      | some a => exact h.find? hf
  | dummy r =>
      simp only [Parameters.scan]
      cases hf : ps.find? (.dummy r) with
      | none => exact hv
      | some a => exact h.find? hf
  | address a =>
      have hx := G.address.1 hv
      simp only [Parameters.scan]
      cases hf : ps.find? (.sym a.symbol) with
      | none => exact G.address.2 hx
      | some b => exact h.find? hf
  | _ => exact hv

theorem GoodKind.mono {kind : CallableKind} (hw : w ≤ w') (h : G.GoodKind w kind) :
    G.GoodKind w' kind := by
  cases kind with
  | closure env => exact G.inside_mono hw h
  | _ => trivial

theorem GoodKind.make {kind : CallableKind} (h : G.GoodKind w kind) (shape : Shape)
    {body : Value} (hb : G.Good w body) : G.GoodCallable w (kind.make shape body) := by
  cases kind with
  | closure env => exact ⟨hb, h⟩
  | _ => exact hb

end Guard

namespace Simulation

open Eval

/-- What relates the handlers of two runs. -/
structure Handles {G : Guard} (L : Simulation G) (H H' : Handlers) : Prop where
  call : ∀ {w E E' n args env}, L.Engines E E' → G.GoodAll w args → G.Inside w env →
    L.Gives w G.Good (H.call E n args env) (H'.call E' n args env)
  bind : ∀ {w target v env}, G.Good w target → G.Good w v → G.Inside w env →
    L.Gives w (fun _ _ => True) (H.bind target v env) (H'.bind target v env)
  parameters : ∀ {w E E' v}, L.Engines E E' → G.Good w v →
    L.Gives w G.GoodParameters (H.parameters E v) (H'.parameters E' v)

variable {G : Guard} (L : Simulation G) {E E' : Engine} {H H' : Handlers} {w : G.World}

/-! ## Parameter lists -/

theorem parameterOf {v : Value} (hv : G.Good w v) :
    L.Gives w (fun w p => G.Good w (.sym p.2)) (Engine.parameterOf v) (Engine.parameterOf v) := by
  have named : ∀ x, G.Good w (.sym x) → L.Gives w (fun w p => G.Good w (.sym p.2))
      (Engine.parameterOf.named x) (Engine.parameterOf.named x) := by
    intro x hx
    unfold Engine.parameterOf.named
    refine L.bind (L.isKeyword x) fun w₁ h₁ b _ => ?_
    split
    · exact L.bind (L.nameOf x) fun _ _ name _ => L.malformed _
    · exact L.give (G.good_mono h₁ hx)
  cases v with
  | sym x => exact named x hv
  | address a => exact named a.symbol (G.address.1 hv)
  | dummy r =>
      exact L.bind (P := fun w x => G.Good w (.sym x))
        (L.gets (fun _ _ _ => rfl) fun _ hs => hs.dummy hv) fun _ _ _ hx => L.give hx
  | _ => exact L.failOn hv fun _ => trivial

/-- What is known of each parameter by itself is known of all that are read. -/
theorem parametersWithin {Q : G.World → Parameter × Symbol → Prop}
    (hmono : ∀ w w' p, w ≤ w' → Q w p → Q w' p)
    (hQ : ∀ w v, G.Good w v → L.Gives w Q (Engine.parameterOf v) (Engine.parameterOf v))
    (hE : L.Engines E E') {n m : Nat} (hn : n ≤ m) {v : Value} {ps : Parameters}
    (hv : G.Good w v) (hps : ∀ e ∈ ps.entries, Q w (e.1, e.2.symbol)) :
    L.Gives w (fun w ps => ∀ e ∈ ps.entries, Q w (e.1, e.2.symbol)) (E.parametersWithin n v ps)
      (E'.parametersWithin m v ps) := by
  have hadd : ∀ {w : G.World} {ps : Parameters} {p : Parameter × Symbol},
      (∀ e ∈ ps.entries, Q w (e.1, e.2.symbol)) → Q w p →
      ∀ e ∈ (ps.add p.1 p.2).entries, Q w (e.1, e.2.symbol) := by
    intro w ps p hps hp e he
    rcases List.mem_cons.1 he with rfl | he
    · exact hp
    · exact hps e he
  induction n generalizing m v ps w with
  | zero =>
      cases v with
      | pair r => exact L.exhausted _
      | _ =>
          simp only [Engine.parametersWithin]
          exact L.give hps
  | succ n ih =>
      obtain ⟨m, rfl, hm⟩ := step_left hn
      cases v with
      | pair r =>
          rw [Engine.parametersWithin, Engine.parametersWithin]
          refine L.bind (L.car hv) fun w₁ h₁ item hitem => ?_
          refine L.bind (L.cdrCell hE (G.good_mono h₁ hv)) fun w₂ h₂ next hnext => ?_
          have hitem := G.good_mono h₂ hitem
          split
          · exact L.malformedOn hitem _
          · split
            · cases next with
              | pair q =>
                  refine L.bind (L.car hnext) fun w₃ h₃ item hitem => ?_
                  refine L.bind (L.cdrCell hE (G.good_mono h₃ hnext)) fun w₄ h₄ next hnext => ?_
                  split
                  · exact L.fail trivial
                  · refine L.bind (hQ _ _ (G.good_mono h₄ hitem)) fun w₅ h₅ p hp => ?_
                    refine ih hm (G.good_mono h₅ hnext) (hadd (fun e he => ?_) hp)
                    exact hmono _ _ _ ((((h₁.trans h₂).trans h₃).trans h₄).trans h₅) (hps e he)
              | _ => exact L.fail trivial
            · refine L.bind (hQ _ _ hitem) fun w₃ h₃ p hp => ?_
              refine ih hm (G.good_mono h₃ hnext) (hadd (fun e he => ?_) hp)
              exact hmono _ _ _ ((h₁.trans h₂).trans h₃) (hps e he)
      | _ => exact L.give hps

theorem parametersOf {Q : G.World → Parameter × Symbol → Prop}
    (hmono : ∀ w w' p, w ≤ w' → Q w p → Q w' p)
    (hQ : ∀ w v, G.Good w v → L.Gives w Q (Engine.parameterOf v) (Engine.parameterOf v))
    (hE : L.Engines E E') {v : Value} (hv : G.Good w v) :
    L.Gives w (fun w ps => ∀ e ∈ ps.entries, Q w (e.1, e.2.symbol)) (E.parameters v)
      (E'.parameters v) := by
  unfold Engine.parameters
  split
  · exact L.parametersWithin hmono hQ hE hE.fuel hv fun e he => by simp at he
  · exact L.malformedOn hv _

theorem parameters (hE : L.Engines E E') {v : Value} (hv : G.Good w v) :
    L.Gives w G.GoodParameters (E.parameters v) (E'.parameters v) :=
  L.parametersOf (Q := fun w p => G.Good w (.sym p.2)) (fun _ _ _ => G.good_mono)
    (fun _ _ => L.parameterOf) hE hv

/-! ## Passes -/

theorem resolve (hE : L.Engines E E') {ps : Parameters} (hps : G.GoodParameters w ps)
    {n m : Nat} (hn : n ≤ m) {v : Value} (hv : G.Good w v) :
    L.Gives w G.Good (E.resolve ps n v) (E'.resolve ps m v) := by
  induction n generalizing m v w with
  | zero =>
      cases hp : v.isPair with
      | false =>
          rw [E.resolve_word ps 0 hp, E'.resolve_word ps m hp]
          exact L.give (hps.scan hv)
      | true =>
          cases v <;> simp [Value.isPair] at hp
          exact L.exhausted _
  | succ n ih =>
      obtain ⟨m, rfl, hm⟩ := step_left hn
      cases hp : v.isPair with
      | false =>
          rw [E.resolve_word ps (n + 1) hp, E'.resolve_word ps (m + 1) hp]
          exact L.give (hps.scan hv)
      | true =>
          cases v <;> simp [Value.isPair] at hp
          rw [Engine.resolve, Engine.resolve]
          refine L.bind (L.car hv) fun w₁ h₁ head _ => ?_
          have hv := G.good_mono h₁ hv
          split
          · exact L.give hv
          · exact L.mapList hE hv fun h hu => ih (hps.mono (h₁.trans h)) hm hu

/-- What is known of the macro that a head denotes. -/
def GoodExpander (w : G.World) (f? : Option (Callable × Value)) : Prop :=
  ∀ p, f? = some p → G.Good w p.2

/-- What the value of a head is taken for. -/
theorem expanderOf (v : Value) : G.Good w v → L.Gives w GoodExpander
    (match v with
      | .callable r => do
          match ← Eval.gets (·.store.callable r) with
          | .expander shape body => Pure.pure (some (Callable.expander shape body, body))
          | _ => Pure.pure none
      | _ => Pure.pure none)
    (match v with
      | .callable r => do
          match ← Eval.gets (·.store.callable r) with
          | .expander shape body => Pure.pure (some (Callable.expander shape body, body))
          | _ => Pure.pure none
      | _ => Pure.pure none) := by
  intro hv
  have hnone : ∀ {w : G.World}, L.Gives w GoodExpander
      (Pure.pure none : Eval (Option (Callable × Value))) (Pure.pure none) :=
    L.give fun p hp => by cases hp
  cases v with
  | callable r =>
      refine L.bind (L.callable hv) fun w₁ h₁ f hf => ?_
      cases f with
      | expander shape body =>
          refine L.give fun p hp => ?_
          cases hp
          exact hf
      | _ => exact hnone
  | _ => exact hnone

theorem expander? {head : Value} (hh : G.Good w head) :
    L.Gives w GoodExpander (Engine.expander? head) (Engine.expander? head) := by
  unfold Engine.expander?
  cases head with
  | sym x =>
      refine L.bind (P := fun w v? => ∀ v, v? = some v → G.Good w v)
        (L.gets (fun _ _ _ => rfl) fun _ hs v hv => (hs.global hv).2) fun w₁ h₁ v? hv? => ?_
      cases v? with
      | none => exact L.bind (L.give (G.good_mono h₁ hh)) fun _ _ _ hv => L.expanderOf _ hv
      | some v => exact L.bind (L.give (hv? v rfl)) fun _ _ _ hv => L.expanderOf _ hv
  | _ => exact L.bind (L.give hh) fun _ _ _ hv => L.expanderOf _ hv

theorem expandMacros (hE : L.Engines E E') {n m allowed : Nat} (hn : n ≤ m) {v : Value}
    (hv : G.Good w v) :
    L.Gives w G.Good (E.expandMacros n allowed v) (E'.expandMacros m allowed v) := by
  induction n generalizing m allowed v w with
  | zero =>
      cases hp : v.isPair with
      | false =>
          rw [E.expandMacros_word hp, E'.expandMacros_word hp]
          exact L.give hv
      | true =>
          cases v <;> simp [Value.isPair] at hp
          exact L.exhausted _
  | succ n ih =>
      obtain ⟨m, rfl, hm⟩ := step_left hn
      cases hp : v.isPair with
      | false =>
          rw [E.expandMacros_word hp, E'.expandMacros_word hp]
          exact L.give hv
      | true =>
          cases v <;> simp [Value.isPair] at hp
          rw [Engine.expandMacros, Engine.expandMacros]
          refine L.bind (L.car hv) fun w₁ h₁ head hhead => ?_
          have hv := G.good_mono h₁ hv
          split
          · exact L.give hv
          · refine L.bind (L.expander? hhead) fun w₂ h₂ f? hf? => ?_
            have hv := G.good_mono h₂ hv
            cases f? with
            | none => exact L.mapList hE hv fun _ hu => ih hm hu
            | some p =>
                cases allowed with
                | zero => exact L.malformedOn hv _
                | succ allowed =>
                    refine L.bind (L.cdrCell hE hv) fun w₃ h₃ args hargs => ?_
                    have hbody := G.good_mono h₃ (hf? p rfl)
                    refine L.bind (L.expandCall hE p.1 hbody hargs) fun w₄ h₄ form hform => ?_
                    exact ih hm hform

/-! ## Compiling -/

theorem compileWith_compileInnerWith (hH : L.Handles H H') (hE : L.Engines E E') {n m : Nat}
    (hn : n ≤ m) :
    (∀ {w : G.World} {kind : CallableKind} {v : Value}, G.GoodKind w kind → G.Good w v →
      L.Gives w G.Good (E.compileWith H n kind v) (E'.compileWith H' m kind v)) ∧
    (∀ {w : G.World} {v : Value}, G.Good w v →
      L.Gives w G.Good (E.compileInnerWith H n v) (E'.compileInnerWith H' m v)) := by
  induction n generalizing m with
  | zero =>
      constructor
      · intro w kind v _ _
        rw [Engine.compileWith]
        exact L.exhausted _
      · intro w v hv
        cases hp : v.isPair with
        | false =>
            rw [E.compileInnerWith_word H hp, E'.compileInnerWith_word H' hp]
            exact L.give hv
        | true =>
            cases v <;> simp [Value.isPair] at hp
            rw [Engine.compileInnerWith]
            exact L.exhausted _
  | succ n ih =>
      obtain ⟨m, rfl, hm⟩ := step_left hn
      obtain ⟨ihw, ihi⟩ := ih hm
      constructor
      · intro w kind v hk hv
        cases v with
        | pair r =>
            rw [Engine.compileWith, Engine.compileWith]
            refine L.bind (L.car hv) fun w₁ h₁ head hhead => ?_
            refine L.bind (hH.parameters hE hhead) fun w₂ h₂ ps hps => ?_
            have hv := G.good_mono (h₁.trans h₂) hv
            refine L.bind (L.cdrCell hE hv) fun w₃ h₃ forms hforms => ?_
            refine L.bind (L.resolve hE (hps.mono h₃) hE.fuel hforms) fun w₄ h₄ forms hforms => ?_
            refine L.bind (P := fun _ _ => True) (L.gets (fun _ _ _ => rfl) fun _ _ => trivial)
              fun w₅ h₅ allowed _ => ?_
            refine L.bind (L.expandMacros hE hE.fuel (G.good_mono h₅ hforms))
              fun w₆ h₆ forms hforms => ?_
            refine L.bind (ihi hforms) fun w₇ h₇ forms hforms => ?_
            refine L.newCallable (Guard.GoodKind.make ?_ ps.shape hforms)
            exact hk.mono (h₁.trans (h₂.trans (h₃.trans (h₄.trans (h₅.trans (h₆.trans h₇))))))
        | _ =>
            simp only [Engine.compileWith]
            exact L.malformed _
      · intro w v hv
        cases hp : v.isPair with
        | false =>
            rw [E.compileInnerWith_word H hp, E'.compileInnerWith_word H' hp]
            exact L.give hv
        | true =>
            cases v <;> simp [Value.isPair] at hp
            rw [Engine.compileInnerWith, Engine.compileInnerWith]
            refine L.bind (L.car hv) fun w₁ h₁ head _ => ?_
            have hv := G.good_mono h₁ hv
            split
            · exact L.give hv
            · split
              · exact L.bind (L.cdrCell hE hv) fun w₂ _ rest hrest => ihw trivial hrest
              · split
                · exact L.malformedOn hv _
                · exact L.mapList hE hv fun _ hu => ihi hu

theorem compileWith (hH : L.Handles H H') (hE : L.Engines E E') {kind : CallableKind} {v : Value}
    (hk : G.GoodKind w kind) (hv : G.Good w v) :
    L.Gives w G.Good (E.compileWith H E.fuel kind v) (E'.compileWith H' E'.fuel kind v) :=
  (L.compileWith_compileInnerWith hH hE hE.fuel).1 hk hv

/-! ## Private variables of macros -/

/-- A value and the stand-ins given so far are good. -/
def GoodReplaced (w : G.World) (p : Value × Engine.Dummies) : Prop :=
  G.Good w p.1 ∧ ∀ e ∈ p.2, G.Good w e.2

theorem dummyFor {x : Symbol} {names : Engine.Dummies} {s t : State} (hst : L.St w s t)
    (hx : G.Good w (.sym x)) (hd : s.symbols.isDummy x = true) (hn : ∀ e ∈ names, G.Good w e.2) :
    L.Match w (fun w' a b => b = a ∧ GoodReplaced w' a) (Engine.dummyFor x names s)
      (Engine.dummyFor x names t) := by
  unfold Engine.dummyFor
  cases hf : names.find? (·.1 == x) with
  | some e => exact L.here hst ⟨rfl, hn e (List.mem_of_find?_eq_some hf), hn⟩
  | none =>
      refine (L.newDummy hst hx hd).bind fun w₁ h₁ v v' s₁ t₁ _ hst₁ hv => ?_
      obtain ⟨rfl, hv⟩ := hv
      refine L.here hst₁ ⟨rfl, hv, fun e he => ?_⟩
      rcases List.mem_cons.1 he with rfl | he
      · exact hv
      · exact G.good_mono h₁ (hn e he)

theorem replaceSymbol {x : Symbol} {names : Engine.Dummies} {n m : Nat} (hx : G.Good w (.sym x))
    (hn : ∀ e ∈ names, G.Good w e.2) :
    L.Gives w GoodReplaced (E.replaceWithin n (.sym x) names)
      (E'.replaceWithin m (.sym x) names) := by
  simp only [Engine.replaceWithin]
  have hsame : ∀ s t, G.Sees w s t → t.symbols.isDummy x = s.symbols.isDummy x := by
    rintro s _ ⟨fs, cells, rfl, -⟩
    rfl
  refine L.bindGets (f := fun s => s.symbols.isDummy x) hsame fun s t hst => ?_
  cases hd : s.symbols.isDummy x with
  | true => exact L.dummyFor hst hx hd hn
  | false => exact L.here hst ⟨rfl, hx, hn⟩

theorem replaceWithin_replaceItems (hE : L.Engines E E') {n m : Nat} (hn : n ≤ m) :
    (∀ {w : G.World} {v : Value} {names : Engine.Dummies}, G.Good w v →
      (∀ e ∈ names, G.Good w e.2) →
      L.Gives w GoodReplaced (E.replaceWithin n v names) (E'.replaceWithin m v names)) ∧
    (∀ {w : G.World} {v : Value} {reversed : List Value} {names : Engine.Dummies}, G.Good w v →
      G.GoodAll w reversed → (∀ e ∈ names, G.Good w e.2) →
      L.Gives w (fun w p => G.GoodAll w p.1 ∧ ∀ e ∈ p.2, G.Good w e.2)
        (E.replaceItems n v reversed names) (E'.replaceItems m v reversed names)) := by
  induction n generalizing m with
  | zero =>
      constructor
      · intro w v names hv hnames
        cases v with
        | sym x => exact L.replaceSymbol hv hnames
        | pair r =>
            rw [Engine.replaceWithin]
            exact L.exhausted _
        | _ =>
            simp only [Engine.replaceWithin]
            exact L.give ⟨hv, hnames⟩
      · intro w v reversed names hv hr hnames
        cases v with
        | nil =>
            rw [Engine.replaceItems, Engine.replaceItems]
            exact L.give ⟨hr, hnames⟩
        | pair r =>
            rw [Engine.replaceItems]
            exact L.exhausted _
        | _ =>
            simp only [Engine.replaceItems]
            exact L.failOn hv fun _ => trivial
  | succ n ih =>
      obtain ⟨m, rfl, hm⟩ := step_left hn
      obtain ⟨ihw, ihi⟩ := ih hm
      constructor
      · intro w v names hv hnames
        cases v with
        | sym x => exact L.replaceSymbol hv hnames
        | pair r =>
            rw [Engine.replaceWithin, Engine.replaceWithin]
            refine L.bind (ihi hv (Guard.goodAll_nil w) hnames) fun w₁ h₁ p hp => ?_
            refine L.bind (L.consAll hp.1 (G.nil w₁)) fun w₂ h₂ u hu => ?_
            exact L.give ⟨hu, fun e he => G.good_mono h₂ (hp.2 e he)⟩
        | _ =>
            simp only [Engine.replaceWithin]
            exact L.give ⟨hv, hnames⟩
      · intro w v reversed names hv hr hnames
        cases v with
        | nil =>
            rw [Engine.replaceItems, Engine.replaceItems]
            exact L.give ⟨hr, hnames⟩
        | pair r =>
            rw [Engine.replaceItems, Engine.replaceItems]
            refine L.bind (L.car hv) fun w₁ h₁ item hitem => ?_
            refine L.bind (ihw hitem fun e he => G.good_mono h₁ (hnames e he)) fun w₂ h₂ p hp => ?_
            have h₂' := h₁.trans h₂
            refine L.bind (L.cdrCell hE (G.good_mono h₂' hv)) fun w₃ h₃ next hnext => ?_
            refine ihi hnext ?_ fun e he => G.good_mono h₃ (hp.2 e he)
            exact Guard.goodAll_cons.2 ⟨G.good_mono h₃ hp.1, hr.mono (h₂'.trans h₃)⟩
        | _ =>
            simp only [Engine.replaceItems]
            exact L.failOn hv fun _ => trivial

theorem replaceDummies (hE : L.Engines E E') {v : Value} (hv : G.Good w v) :
    L.Gives w G.Good (E.replaceDummies v) (E'.replaceDummies v) :=
  L.bind ((L.replaceWithin_replaceItems hE hE.fuel).1 hv fun e he => by simp at he)
    fun _ _ _ hp => L.give hp.1

end Simulation

end SmallLisp
