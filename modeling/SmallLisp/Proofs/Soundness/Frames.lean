import SmallLisp.Proofs.Soundness.Regime

/-!
# Frames fit their shapes

A frame has one slot for each parameter of the callable it was laid out for, and evaluating its
slots leaves as many. What is in the slots is in range. So the evaluator would not notice if every
frame were looked at, and the state with it, before its slots are evaluated, before a native runs on
it, and before it is put in front of an environment.
-/

namespace SmallLisp

open Eval

/-! ## The length of a frame -/

theorem Shape.one_le_arity {shape : Shape} (h : shape.hasRest = true) : 1 ≤ shape.arity := by
  simp [arity, h]

namespace Engine

variable {E : Engine} {s t : State}

theorem length_takeItems {count : Nat} {v rest : Value} {reversed items : List Value}
    (h : E.takeItems count v reversed s = .ok (some (items, rest)) t) :
    items.length = count + reversed.length := by
  induction count generalizing v reversed s with
  | zero =>
      rw [takeItems] at h
      cases h
      omega
  | succ count ih =>
      cases v with
      | pair r =>
          rw [takeItems, bind_eq_ok] at h
          obtain ⟨item, s₁, -, h⟩ := h
          rw [bind_eq_ok] at h
          obtain ⟨tail, s₂, -, h⟩ := h
          rw [bind_eq_ok] at h
          obtain ⟨next, s₃, -, h⟩ := h
          have hlen := ih h
          rw [List.length_cons] at hlen
          omega
      | _ => cases h

/-- A frame has one slot for each required argument, and one for the rest. -/
theorem length_makeFrame {f : Callable} {args : Value} {frame : List Value}
    (h : E.makeFrame f args s = .ok frame t) : frame.length = f.shape.arity := by
  rw [makeFrame, bind_eq_ok] at h
  obtain ⟨taken, s₁, htaken, h⟩ := h
  cases taken with
  | none => cases h
  | some p =>
      obtain ⟨reversed, rest⟩ := p
      have hlen := length_takeItems htaken
      rw [List.length_nil] at hlen
      dsimp only at h
      by_cases hrest : f.shape.hasRest = true
      · rw [if_pos hrest] at h
        split at h
        · cases h
          simp [Shape.arity, hrest, hlen]
        · cases h
      · rw [if_neg hrest] at h
        split at h
        · cases h
          simp [Shape.arity, hrest, hlen]
        · cases h

theorem length_evalSlots {f : Value → Eval Value} {required : Nat}
    {forms reversed frame : List Value} (hforms : forms.length ≤ required + 1)
    (h : E.evalSlots f required forms reversed s = .ok frame t) :
    frame.length = forms.length + reversed.length := by
  induction forms generalizing required reversed s with
  | nil =>
      cases required <;>
        · rw [evalSlots] at h
          cases h
          simp
  | cons form forms ih =>
      cases required with
      | zero =>
          rw [evalSlots, bind_eq_ok] at h
          obtain ⟨v, s₁, -, h⟩ := h
          cases h
          have hnone : forms.length = 0 := by simpa using hforms
          simp [hnone]
          omega
      | succ required =>
          rw [evalSlots, bind_eq_ok] at h
          obtain ⟨v, s₁, -, h⟩ := h
          have hlen := ih (by simpa using hforms) h
          rw [hlen, List.length_cons, List.length_cons]
          omega

theorem length_of_arity {shape : Shape} {f : Value → Eval Value} {frame frame' : List Value}
    (hframe : frame.length = shape.arity)
    (h : E.evalSlots f shape.required frame [] s = .ok frame' t) : frame'.length = shape.arity := by
  have hforms : frame.length ≤ shape.required + 1 := by
    rw [hframe, Shape.arity]
    split <;> omega
  rw [length_evalSlots hforms h, hframe, List.length_nil, Nat.add_zero]

end Engine

/-! ## Measuring frames -/

/-- A frame of the shape in a sound state: it has a slot for each parameter, and what is in them is
in range. -/
structure Shape.Fits (shape : Shape) (frame : List Value) (s : State) : Prop where
  sound : s.Sound
  length : frame.length = shape.arity
  slots : ∀ v ∈ frame, s.bounds.Holds v

namespace Engine

open Classical in
/-- Go on with a frame if it fits, and stop otherwise. -/
noncomputable def measured {α : Type} (stop : Halt) (shape : Shape) (frame : List Value)
    (x : Eval α) : Eval α := fun s => if shape.Fits frame s then x s else .halt stop s

theorem measured_of_fits {α : Type} {stop : Halt} {shape : Shape} {frame : List Value} {s : State}
    (h : shape.Fits frame s) (x : Eval α) : measured stop shape frame x s = x s := if_pos h

/-- Expanding a macro call, with its frame measured. -/
noncomputable def measuredExpand (stop : Halt) (E : Engine) (f : Callable) (body args : Value) :
    Eval Value := do
  let frame ← E.makeFrame f args
  measured stop f.shape frame do
    let env ← extend frame none
    E.sequence body env

/-- One turn of a call, with its frames measured. -/
noncomputable def measuredCall (stop : Halt) (E : Engine) (head args : Value) (env : Env) :
    Eval Step := do
  let callee ← E.eval head env
  let callee ← E.force callee
  match callee with
  | .callable r =>
      match ← gets (·.store.callable r) with
      | .closure shape body captured =>
          let frame ← E.makeFrame (.closure shape body captured) args
          measured stop shape frame do
            let frame ← E.evalFrame shape frame env
            measured stop shape frame do
              let env ← extend frame captured
              let last ← E.body body env
              pure (.next last env)
      | .expander shape body =>
          let form ← E.measuredExpand stop (.expander shape body) body args
          pure (.next form env)
      | .native n =>
          let frame ← E.makeFrame (.native n) args
          measured stop n.shape frame do
            let frame ← if n.isLazy then E.evalFrame n.shape frame env
              else E.forceFrame n.shape frame env
            measured stop n.shape frame do
              let v ← n.call E frame env
              pure (.done v)
      | .template .. => failOn callee .notApplicable
  | v => failOn v .notApplicable

/-- Applying a callable, with its frame measured. -/
noncomputable def measuredApply (stop : Halt) (E : Engine) (f args : Value) (env : Env) :
    Eval Value := do
  let f ← E.force f
  match f with
  | .callable r =>
      match ← gets (·.store.callable r) with
      | .native n =>
          if !n.isLazy then E.forceEach args
          let frame ← E.makeFrame (.native n) args
          measured stop n.shape frame (n.call E frame env)
      | .closure shape body captured =>
          let frame ← E.makeFrame (.closure shape body captured) args
          measured stop shape frame do
            let env ← extend frame captured
            let last ← E.body body env
            E.eval last env
      | _ => failOn f .notApplicable
  | v => failOn v .notApplicable

end Engine

namespace Simulation

variable {E : Engine} {w : Guard.inRange.World} {stop : Halt}

/-- Two ways to go on may differ where the computation does not come to. -/
theorem bind_eq {α β : Type} {P : Guard.inRange.World → α → Prop} {x : Eval α} {f g : α → Eval β}
    (hx : secure.Gives w P x x)
    (h : ∀ a w', Advances w.1 w'.1 → x w.1 = .ok a w'.1 → P w' a → f a w'.1 = g a w'.1) :
    (x >>= f) w.1 = (x >>= g) w.1 := by
  rw [bind_apply, bind_apply]
  cases hxs : x w.1 with
  | halt c t => rfl
  | ok a t =>
      have hmatch := hx w.1 w.1 ⟨rfl, rfl⟩
      rw [hxs] at hmatch
      obtain ⟨w', hw, ⟨rfl, -⟩, -, hP⟩ := hmatch
      exact h a w' hw hxs hP

theorem makeFrame_measured (hE : secure.Engines E E) {α : Type} (f : Callable) {args : Value}
    (ha : w.1.bounds.Holds args) (x : List Value → Eval α) :
    (E.makeFrame f args >>= fun frame => Engine.measured stop f.shape frame (x frame)) w.1 =
      (E.makeFrame f args >>= x) w.1 := by
  refine bind_eq (secure.makeFrame hE f ha) fun frame w₁ _ hok hframe => ?_
  exact Engine.measured_of_fits ⟨w₁.2, Engine.length_makeFrame hok, hframe⟩ _

/-- The same for a frame whose slots are evaluated before it is used. -/
theorem evalSlots_measured (hE : secure.Engines E E) {α : Type} (f : Callable) {args : Value}
    (ha : w.1.bounds.Holds args) {g : Value → Eval Value}
    (hg : ∀ {w' v}, Advances w.1 w'.1 → w'.1.bounds.Holds v →
      secure.Gives w' Guard.inRange.Good (g v) (g v))
    (x : List Value → Eval α) :
    (E.makeFrame f args >>= fun frame => Engine.measured stop f.shape frame
      (E.evalSlots g f.shape.required frame [] >>= fun frame =>
        Engine.measured stop f.shape frame (x frame))) w.1 =
      (E.makeFrame f args >>= fun frame => E.evalSlots g f.shape.required frame [] >>= x) w.1 := by
  refine bind_eq (secure.makeFrame hE f ha) fun frame w₁ h₁ hok hframe => ?_
  have hlen := Engine.length_makeFrame hok
  rw [Engine.measured_of_fits ⟨w₁.2, hlen, hframe⟩]
  have hslots : secure.Gives w₁ Guard.inRange.GoodAll
      (E.evalSlots g f.shape.required frame []) (E.evalSlots g f.shape.required frame []) :=
    secure.evalSlots hE hframe (Guard.goodAll_nil w₁) fun h hv => hg (h₁.trans h) hv
  refine bind_eq hslots fun frame' w₂ _ hok' hframe' => ?_
  exact Engine.measured_of_fits ⟨w₂.2, Engine.length_of_arity hlen hok', hframe'⟩ _

theorem measuredExpand_eq (hE : secure.Engines E E) (f : Callable) (body : Value) {args : Value}
    (ha : w.1.bounds.Holds args) :
    E.measuredExpand stop f body args w.1 = E.expandCall f body args w.1 :=
  makeFrame_measured hE f ha _

theorem measuredCall_eq (hE : secure.Engines E E) {head args : Value} {env : Env}
    (hh : w.1.bounds.Holds head) (ha : w.1.bounds.Holds args) (henv : w.1.bounds.HoldsEnv env) :
    E.measuredCall stop head args env w.1 = E.callStep head args env w.1 := by
  unfold Engine.measuredCall Engine.callStep
  refine bind_eq (hE.eval hh henv) fun callee w₁ h₁ _ hcallee => ?_
  refine bind_eq (secure.force hE hcallee) fun callee w₂ h₂ _ hcallee => ?_
  cases callee with
  | callable r =>
      refine bind_eq (secure.callable hcallee) fun f w₃ h₃ _ hf => ?_
      have hle := Advances.bounds_le ((h₁.trans h₂).trans h₃)
      have ha := ha.mono hle
      have henv := henv.mono hle
      cases f with
      | closure shape body captured =>
          refine evalSlots_measured hE (.closure shape body captured) ha ?_ _
          intro w' v hw hv
          exact hE.eval hv (henv.mono hw.bounds_le)
      | expander shape body =>
          dsimp only
          rw [bind_apply, bind_apply, measuredExpand_eq hE _ body ha]
      | native n =>
          by_cases hlazy : n.isLazy = true
          · simp only [hlazy, if_true]
            refine evalSlots_measured hE (.native n) ha ?_ _
            intro w' v hw hv
            exact hE.eval hv (henv.mono hw.bounds_le)
          · simp only [hlazy]
            refine evalSlots_measured hE (.native n) ha ?_ _
            intro w' v hw hv
            refine secure.bind (hE.eval hv (henv.mono hw.bounds_le)) ?_
            intro w'' _ u hu
            exact secure.force hE hu
      | template shape body => rfl
  | _ => rfl

theorem measuredApply_eq (hE : secure.Engines E E) {f args : Value} {env : Env}
    (hf : w.1.bounds.Holds f) (ha : w.1.bounds.Holds args) :
    E.measuredApply stop f args env w.1 = E.applyList f args env w.1 := by
  unfold Engine.measuredApply Engine.applyList
  refine bind_eq (secure.force hE hf) fun f w₁ h₁ _ hf => ?_
  cases f with
  | callable r =>
      refine bind_eq (secure.callable hf) fun f w₂ h₂ _ hf => ?_
      have ha := ha.mono (Advances.bounds_le (h₁.trans h₂))
      cases f with
      | native n =>
          dsimp only
          split
          · refine bind_eq (secure.forceEach hE ha) fun _ w₃ h₃ _ _ => ?_
            exact makeFrame_measured hE (.native n) (ha.mono h₃.bounds_le) _
          · exact makeFrame_measured hE (.native n) ha _
      | closure shape body captured =>
          exact makeFrame_measured hE (.closure shape body captured) ha _
      | _ => rfl
  | _ => rfl

end Simulation

namespace Engine

variable {E : Engine} {s t : State}

/-! ## The shapes of parameter lists -/

/-- Of parameters with a rest there is at least one. -/
theorem count_parametersWithin {n : Nat} {v : Value} {ps qs : Parameters}
    (hps : ps.hasRest = true → 1 ≤ ps.count) (h : E.parametersWithin n v ps s = .ok qs t) :
    qs.hasRest = true → 1 ≤ qs.count := by
  induction n generalizing v ps s with
  | zero =>
      cases v with
      | pair r => cases h
      | _ =>
          rw [parametersWithin] at h
          · cases h
            exact hps
          all_goals simp
  | succ n ih =>
      cases v with
      | pair r =>
          rw [parametersWithin, bind_eq_ok] at h
          obtain ⟨item, s₁, -, h⟩ := h
          rw [bind_eq_ok] at h
          obtain ⟨next, s₂, -, h⟩ := h
          split at h
          · cases h
          split at h
          · split at h
            · rw [bind_eq_ok] at h
              obtain ⟨item, s₃, -, h⟩ := h
              rw [bind_eq_ok] at h
              obtain ⟨next, s₄, -, h⟩ := h
              split at h
              · cases h
              · rw [bind_eq_ok] at h
                obtain ⟨p, s₅, -, h⟩ := h
                exact ih (by simp [Parameters.add]) h
            · cases h
          · rw [bind_eq_ok] at h
            obtain ⟨p, s₃, -, h⟩ := h
            exact ih (by simp [Parameters.add]) h
      | _ =>
          cases h
          exact hps

/-- The frames of what is compiled have a slot for each parameter. -/
theorem arity_parameters {v : Value} {ps : Parameters} (h : E.parameters v s = .ok ps t) :
    ps.shape.arity = ps.count := by
  unfold parameters at h
  split at h
  · have hcount := count_parametersWithin (by simp) h
    by_cases hrest : ps.hasRest = true
    · have hone := hcount hrest
      simp only [Parameters.shape, Shape.arity, hrest, if_true]
      omega
    · simp [Parameters.shape, Shape.arity, hrest]
  · cases h

end Engine

end SmallLisp
