import SmallLisp.Proofs.Unwinding.Turn

/-!
# What a computation comes to ask for

A computation comes to ask for a call if it would leave the program were that call to. Along its
dialogue this is the same as finding the call there: an engine that differs in one call makes a
difference only if the call is asked for, every failure is one of the computation's own or that of a
call that it came to ask for, and a computation that relays failures fails as such a call does.
-/

namespace SmallLisp

namespace Engine

/-- One turn of a call, with an engine for what it asks for in turn. -/
def attend (E : Engine) : Call → Eval Value
  | .eval form env => do
      match ← (E.step form env).onFailure (traced form) with
      | .done v => pure v
      | .next form env => E.eval form env
  | .apply f args env => E.applyList f args env
  | .deliver r => E.deliverTurn r

theorem perform_succ (n : Nat) (call : Call) :
    (ofFuel (n + 1)).perform call = (ofFuel n).attend call := by
  cases call with
  | eval form env =>
      show evaluate (n + 1) form env = _
      rw [evaluate]
      rfl
  | apply f args env =>
      show applyTo (n + 1) f args env = _
      rw [applyTo]
      rfl
  | deliver r => exact deliver_succ n r

/-- The engines differ at most in what they make of one call in one state. -/
structure AgreesBut (E E' : Engine) (b : Call) (u : State) : Prop where
  fuel : E'.fuel = E.fuel
  other : ∀ call s, (call, s) ≠ (b, u) → E'.perform call s = E.perform call s

/-- Begun in the state `s`, the computation comes to ask for the call `b` in the state `u`: if that
call left the program, then so would the computation. -/
def Reaches {α : Type} (E : Engine) (x : Engine → Eval α) (s : State) (b : Call) (u : State) :
    Prop :=
  ∀ E' code t, E.AgreesBut E' b u → E'.perform b u = .halt (.exited code) t →
    x E' s = .halt (.exited code) t

open Classical in
/-- The engine with its answer to one call in one state replaced. -/
noncomputable def replying (E : Engine) (b : Call) (u : State) (o : Outcome Value) : Engine where
  fuel := E.fuel
  eval form env s := if (Call.eval form env, s) = (b, u) then o else E.eval form env s
  apply f args env s := if (Call.apply f args env, s) = (b, u) then o else E.apply f args env s
  deliver r s := if (Call.deliver r, s) = (b, u) then o else E.deliver r s

theorem perform_replying_self (E : Engine) (b : Call) (u : State) (o : Outcome Value) :
    (E.replying b u o).perform b u = o := by
  cases b <;> simp [perform, replying]

theorem perform_replying_other (E : Engine) {b call : Call} {u s : State} (o : Outcome Value)
    (h : (call, s) ≠ (b, u)) : (E.replying b u o).perform call s = E.perform call s := by
  cases call <;> simp [perform, replying, h]

theorem agreesBut_replying (E : Engine) (b : Call) (u : State) (o : Outcome Value) :
    E.AgreesBut (E.replying b u o) b u :=
  ⟨rfl, fun _ _ h => E.perform_replying_other o h⟩

/-- A computation that has begun comes to ask for the call. -/
def Asks {α : Type} (E : Engine) (x : Engine → Outcome α) (b : Call) (u : State) : Prop :=
  ∀ E' code t, E.AgreesBut E' b u → E'.perform b u = .halt (.exited code) t →
    x E' = .halt (.exited code) t

theorem reaches_iff {α : Type} {E : Engine} {x : Engine → Eval α} {s u : State} {b : Call} :
    E.Reaches x s b u ↔ E.Asks (fun E' => x E' s) b u := Iff.rfl

/-- What does not depend on the answer to a call does not ask for it: leaving the program with one
code is not leaving it with another. -/
theorem Asks.false_of_const {α : Type} {E : Engine} {x : Engine → Outcome α} {b : Call} {u : State}
    {o : Outcome α} (h : E.Asks x b u) (hx : ∀ E', E.AgreesBut E' b u → x E' = o) : False := by
  have hleaves : ∀ code, o = .halt (.exited code) u := by
    intro code
    have hagree := E.agreesBut_replying b u (.halt (.exited code) u)
    rw [← hx _ hagree]
    exact h _ code u hagree (E.perform_replying_self b u _)
  have hcodes := (hleaves 0).symm.trans (hleaves 1)
  cases hcodes

end Engine

/-! ## Along a dialogue -/

namespace Dialogue

open Engine

variable {K : State → Prop} {n : Nat} {relays : Prop} {own met : Failure → Prop} {α : Type}
  {E : Engine} {x : Engine → Outcome α}

section Ask

variable {b b' : Call} {u u' : State} {k : Outcome Value → Engine → Outcome α}

theorem asks_here (hE : E.fuel = n) (same : ∀ E, E.fuel = n → x E = k (E.perform b u) E)
    (stops : ∀ h t E, (∀ f, h ≠ .failed f) → k (.halt h t) E = .halt h t) : E.Asks x b u := by
  intro E' code t hagree hexit
  rw [same E' (hagree.fuel.trans hE), hexit]
  exact stops _ t E' fun f hf => by cases hf

/-- Whatever is asked for after a call is asked for by the computation. -/
theorem asks_later (hE : E.fuel = n) (same : ∀ E, E.fuel = n → x E = k (E.perform b u) E)
    (stops : ∀ h t E, (∀ f, h ≠ .failed f) → k (.halt h t) E = .halt h t)
    (h : E.Asks (k (E.perform b u)) b' u') : E.Asks x b' u' := by
  by_cases hcall : (b, u) = (b', u')
  · cases hcall
    exact asks_here hE same stops
  · intro E' code t hagree hexit
    rw [same E' (hagree.fuel.trans hE), hagree.other b u hcall]
    exact h E' code t hagree hexit

/-- What is asked for is the next call, or it is asked for after that. -/
theorem asks_cases (hE : E.fuel = n) (same : ∀ E, E.fuel = n → x E = k (E.perform b u) E)
    (h : E.Asks x b' u') : (b, u) = (b', u') ∨ E.Asks (k (E.perform b u)) b' u' := by
  by_cases hcall : (b, u) = (b', u')
  · exact .inl hcall
  · refine .inr fun E' code t hagree hexit => ?_
    rw [← h E' code t hagree hexit, same E' (hagree.fuel.trans hE), hagree.other b u hcall]

end Ask

/-- What the calls that are asked for keep, the computation keeps. -/
theorem kept (h : Dialogue K n relays own met x) (hE : E.fuel = n)
    (hcalls : ∀ b u, E.Asks x b u → K u → K (E.perform b u).state) : K (x E).state := by
  induction h with
  | done o same kept fails =>
      rw [same E hE]
      exact kept
  | @ask met x b u k same kept goes stops passes ih =>
      rw [same E hE]
      refine ih _ (hcalls b u (asks_here hE same stops) kept) fun b' u' hasks => ?_
      exact hcalls b' u' (asks_later hE same stops hasks)

/-- Where a failure comes from. -/
theorem source (h : Dialogue K n relays own met x) (hE : E.fuel = n)
    (hkeeps : ∀ b u, K u → K (E.perform b u).state) {f : Failure} {t : State}
    (hx : x E = .halt (.failed f) t) :
    own f ∨ met f ∨ ∃ b u t', E.Asks x b u ∧ K u ∧ E.perform b u = .halt (.failed f) t' := by
  induction h with
  | done o same kept fails =>
      rw [same E hE] at hx
      exact (fails f t hx).imp_right .inl
  | @ask met x b u k same kept goes stops passes ih =>
      rw [same E hE] at hx
      rcases ih _ (hkeeps b u kept) hx with
        hown | (hmet | ⟨t', hfail⟩) | ⟨b', u', t', hasks, hkept, hfail⟩
      · exact .inl hown
      · exact .inr (.inl hmet)
      · exact .inr (.inr ⟨b, u, t', asks_here hE same stops, kept, hfail⟩)
      · exact .inr (.inr ⟨b', u', t', asks_later hE same stops hasks, hkept, hfail⟩)

/-! What any state may be asked in, no call can spoil. -/

theorem eq_or_asks (h : Dialogue (fun _ => True) n relays own met x) (hE : E.fuel = n)
    {E' : Engine} {b : Call} {u : State} (hagree : E.AgreesBut E' b u) :
    x E' = x E ∨ E.Asks x b u := by
  induction h with
  | done o same _ fails =>
      left
      rw [same E hE, same E' (hagree.fuel.trans hE)]
  | @ask met x b' u' k same _ goes stops passes ih =>
      by_cases hcall : (b', u') = (b, u)
      · cases hcall
        exact .inr (asks_here hE same stops)
      · rcases ih _ trivial with heq | hasks
        · left
          rw [same E hE, same E' (hagree.fuel.trans hE), hagree.other b' u' hcall, heq]
        · exact .inr (asks_later hE same stops hasks)

/-- A failure of a call that is asked for is relayed as it is. -/
theorem fails (h : Dialogue (fun _ => True) n relays own met x) (hrelays : relays)
    (hE : E.fuel = n) {b : Call} {u t : State} {f : Failure} (hasks : E.Asks x b u)
    (hnative : f.cause.isNative = false) (hfail : E.perform b u = .halt (.failed f) t) :
    x E = .halt (.failed f) t := by
  induction h with
  | done o same _ fails =>
      exact (hasks.false_of_const fun E' hagree => same E' (hagree.fuel.trans hE)).elim
  | @ask met x b' u' k same _ goes stops passes ih =>
      rw [same E hE]
      rcases asks_cases hE same hasks with hcall | hlater
      · cases hcall
        rw [hfail]
        exact passes hrelays f t E hnative
      · exact ih _ trivial hlater

end Dialogue

/-! ## The evaluator's engines -/

/-- The manner of what is no native's own, where nothing has failed yet, while these promises may
be delivered. -/
abbrev Manner.delivering (delivers : Ref .promise → Prop) (n : Nat) (relays : Prop) : Manner where
  fuel := n
  Relays := relays
  Raises f := f.trace = #[] ∧ f.cause.isNative = false
  Met _ := False
  Delivers := delivers
  raises := .intro

/-- The manner of what is no native's own, where nothing has failed yet. -/
abbrev Manner.outside : Nat → Prop → Manner := .delivering fun _ => True

theorem State.lasting_true (delivers : Ref .promise → Prop) : Lasting delivers fun _ => True :=
  ⟨fun _ _ => trivial, fun _ _ _ => trivial⟩

theorem State.lasting_config (delivers : Ref .promise → Prop) (c : Config) :
    Lasting delivers (·.config = c) := ⟨fun hlead h => hlead.config.trans h, fun _ _ h => h⟩

namespace Manner

open Engine

variable {M : Manner} {α : Type} {x : Engine → Eval α} {s u : State} {b : Call}

theorem RunsFrom.eq_or_reaches (h : M.RunsFrom x s) {E' : Engine}
    (hagree : (ofFuel M.fuel).AgreesBut E' b u) :
    x E' s = x (ofFuel M.fuel) s ∨ (ofFuel M.fuel).Reaches x s b u :=
  Dialogue.eq_or_asks (h _ (State.lasting_true _) trivial) rfl hagree

end Manner

namespace Engine

open Eval

/-- What the turn of an evaluation asks for, the evaluation does. -/
theorem Reaches.attend {E : Engine} {form : Value} {env : Env} {b : Call} {s u : State}
    (h : E.Reaches (·.step form env) s b u) : E.Reaches (·.attend (.eval form env)) s b u := by
  intro E' code t hagree hexit
  have hstep : E'.step form env s = .halt (.exited code) t := h E' code t hagree hexit
  show E'.attend (.eval form env) s = _
  rw [Engine.attend, bind_apply, onFailure, hstep]

/-- An evaluation asks for the form that it goes on with. -/
theorem Reaches.next {n : Nat} {form form' : Value} {env env' : Env} {s u : State}
    (hstep : (ofFuel n).step form env s = .ok (.next form' env') u) :
    (ofFuel n).Reaches (·.attend (.eval form env)) s (.eval form' env') u := by
  have hrun : (Manner.outside n False).RunsFrom (fun E => E.step form env) s :=
    .step form env s fun h => h.elim
  by_cases hfirst : (ofFuel n).Reaches (·.step form env) s (.eval form' env') u
  · exact hfirst.attend
  intro E' code t hagree hexit
  have hsame : E'.step form env s = .ok (.next form' env') u :=
    ((hrun.eq_or_reaches hagree).resolve_right hfirst).trans hstep
  show E'.attend (.eval form env) s = _
  rw [Engine.attend, bind_apply, onFailure, hsame]
  exact hexit

/-- What lasts and is kept by the calls that arise in it, a turn of a call keeps, if it lasts while
the promise that is called for is delivered. -/
theorem kept_attend {n : Nat} {delivers : Ref .promise → Prop} {K : State → Prop}
    (hK : State.Lasting delivers K) {b : Call} (hb : ∀ r, b = .deliver r → delivers r) {s : State}
    (hs : K s) (hcalls : ∀ b' u, (ofFuel n).Reaches (·.attend b) s b' u → K u →
      K ((ofFuel n).perform b' u).state) : K ((ofFuel n).attend b s).state := by
  have hkept : ∀ {α : Type} {x : Engine → Eval α},
      (Manner.delivering delivers n False).RunsFrom x s →
      (∀ b' u, (ofFuel n).Reaches x s b' u → (ofFuel n).Reaches (·.attend b) s b' u) →
      K (x (ofFuel n) s).state := fun hx hreach =>
    Dialogue.kept (hx K hK hs) rfl fun b' u hasks hu => hcalls b' u (hreach b' u hasks) hu
  cases b with
  | apply f args env => exact hkept (Manner.Runs.applyList f args env s) fun _ _ h => h
  | deliver r => exact hkept (Manner.Runs.deliverTurn (hb r rfl) s) fun _ _ h => h
  | eval form env =>
      have hstep : K ((ofFuel n).step form env s).state :=
        hkept (.step form env s fun h => h.elim) fun _ _ h => h.attend
      have hnext : ∀ form' env' u, (ofFuel n).step form env s = .ok (.next form' env') u →
          K u → K ((ofFuel n).eval form' env' u).state :=
        fun form' env' u hu => hcalls (.eval form' env') u (.next hu)
      rw [attend, bind_apply, onFailure]
      rcases hs : (ofFuel n).step form env s with ⟨next, t⟩ | ⟨f | code | _, t⟩ <;>
        rw [hs] at hstep
      · cases next with
        | done v => exact hstep
        | next form env => exact hnext form env t hs hstep
      · exact hstep
      · exact hstep
      · exact hstep

theorem keepsConfig_ofFuel (n : Nat) (c : Config) (b : Call) (u : State) (hu : u.config = c) :
    ((ofFuel n).perform b u).state.config = c := by
  induction n generalizing b u with
  | zero => cases b <;> exact hu
  | succ n ih =>
      rw [perform_succ]
      exact kept_attend (K := (·.config = c)) (State.lasting_config (fun _ => True) c)
        (fun _ _ => trivial) hu fun b' u' _ => ih b' u'

end Engine

namespace Manner

open Engine

variable {M : Manner} {α : Type} {x : Engine → Eval α} {s t u : State} {b : Call} {f : Failure}

theorem RunsFrom.config_eq (h : M.RunsFrom x s) :
    (x (ofFuel M.fuel) s).state.config = s.config :=
  Dialogue.kept (h _ (State.lasting_config _ s.config) rfl) rfl
    fun b u _ => keepsConfig_ofFuel _ _ b u

theorem RunsFrom.source (h : M.RunsFrom x s) (hx : x (ofFuel M.fuel) s = .halt (.failed f) t) :
    M.Allows f ∨ ∃ b u t', (ofFuel M.fuel).Reaches x s b u ∧ u.config = s.config ∧
      (ofFuel M.fuel).perform b u = .halt (.failed f) t' :=
  or_assoc.2 (Dialogue.source (h _ (State.lasting_config _ s.config) rfl) rfl
    (keepsConfig_ofFuel _ _) hx)

end Manner

/-- An evaluation fails because its turn does, or because the form that it goes on with does. -/
theorem Engine.attend_eval_failed {E : Engine} {form : Value} {env : Env} {s t : State}
    {f : Failure} (h : E.attend (.eval form env) s = .halt (.failed f) t) :
    (∃ g, E.step form env s = .halt (.failed g) t ∧ f = traced form t g) ∨
      ∃ form' env' u, E.step form env s = .ok (.next form' env') u ∧
        E.perform (.eval form' env') u = .halt (.failed f) t := by
  rw [attend, Eval.bind_apply, Eval.onFailure] at h
  rcases hs : E.step form env s with ⟨next, u⟩ | ⟨g | code | _, u⟩ <;> rw [hs] at h
  · cases next with
    | done v => cases h
    | next form' env' => exact .inr ⟨form', env', u, rfl, h⟩
  · cases h
    exact .inl ⟨g, rfl, rfl⟩
  · cases h
  · cases h

/-- No evaluation ends with a refusal that has not left its native. -/
theorem Engine.isNative_of_perform {n : Nat} {b : Call} {s t : State} {f : Failure}
    (h : (ofFuel n).perform b s = .halt (.failed f) t) : f.cause.isNative = false := by
  induction n generalizing b s t f with
  | zero => cases b <;> cases h
  | succ n ih =>
      rw [perform_succ] at h
      cases b with
      | apply g args env =>
          rcases (Manner.Runs.applyList (M := .outside n False) g args env s).source h with
            (hown | hmet) | ⟨b, u, t', -, -, hfail⟩
          · exact hown.2
          · exact hmet.elim
          · exact ih hfail
      | deliver r =>
          rcases (Manner.Runs.deliverTurn (M := .outside n False) trivial s).source h with
            (hown | hmet) | ⟨b, u, t', -, -, hfail⟩
          · exact hown.2
          · exact hmet.elim
          · exact ih hfail
      | eval form env =>
          rcases attend_eval_failed h with ⟨g, hstep, rfl⟩ | ⟨form', env', u, -, hfail⟩
          · rw [cause_traced]
            rcases (Manner.RunsFrom.step (M := .outside n False) form env s
              fun h => h.elim).source hstep with (hown | hmet) | ⟨b, u, t', -, -, hfail⟩
            · exact hown.2
            · exact hmet.elim
            · exact ih hfail
          · exact ih hfail

/-- A computation that relays failures is abandoned when a call it asks for fails: it fails as the
call does, in the state that the call left. -/
theorem Engine.Reaches.fails {M : Manner} {α : Type} {x : Engine → Eval α} {s u t : State}
    {b : Call} {f : Failure} (hreach : (ofFuel M.fuel).Reaches x s b u) (hx : M.RunsFrom x s)
    (hrelays : M.Relays) (h : (ofFuel M.fuel).perform b u = .halt (.failed f) t) :
    x (ofFuel M.fuel) s = .halt (.failed f) t :=
  Dialogue.fails (hx _ (State.lasting_true _) trivial) hrelays rfl hreach (isNative_of_perform h) h

theorem Engine.Reaches.relayed {n : Nat} {α : Type} {x : Engine → Eval α} {s u t : State} {b : Call}
    {f : Failure} (hreach : (ofFuel n).Reaches x s b u) (hx : (Manner.outside n True).Runs x)
    (h : (ofFuel n).perform b u = .halt (.failed f) t) : x (ofFuel n) s = .halt (.failed f) t :=
  hreach.fails (hx s) trivial h

/-- What is asked for by a sequence is asked for by its first part, or by the rest once the first
part has ended. Changes to failures on their way out make no difference. -/
theorem Engine.Reaches.of_bind {M : Manner} {α β : Type} {x : Engine → Eval α}
    {f : Engine → α → Eval β} {change : State → Failure → Failure} {s u : State} {b : Call}
    (hreach : (ofFuel M.fuel).Reaches (fun E => (x E).onFailure change >>= f E) s b u)
    (hx : M.RunsFrom x s) :
    (ofFuel M.fuel).Reaches x s b u ∨ ∃ a t, x (ofFuel M.fuel) s = .ok a t ∧
      (ofFuel M.fuel).Reaches (f · a) t b u := by
  by_cases hfirst : (ofFuel M.fuel).Reaches x s b u
  · exact .inl hfirst
  have hsame : ∀ E', (ofFuel M.fuel).AgreesBut E' b u → x E' s = x (ofFuel M.fuel) s :=
    fun E' hagree => (hx.eq_or_reaches hagree).resolve_right hfirst
  -- What the whole comes to, for any engine that differs in the call alone.
  have hwhole : ∀ E', (ofFuel M.fuel).AgreesBut E' b u →
      ((x E').onFailure change >>= f E') s =
        (x (ofFuel M.fuel) s).resume (f E') fun g t => .halt (.failed (change t g)) t := by
    intro E' hagree
    rw [Eval.bind_apply, Eval.onFailure, hsame E' hagree]
    rcases x (ofFuel M.fuel) s with ⟨a, t⟩ | ⟨g | code | _, t⟩ <;> rfl
  right
  generalize x (ofFuel M.fuel) s = o at hwhole
  rcases o with ⟨a, t⟩ | ⟨g | code | _, t⟩
  · refine ⟨a, t, rfl, fun E' code v hagree hexit => ?_⟩
    exact (hwhole E' hagree).symm.trans (hreach E' code v hagree hexit)
  · exact (Asks.false_of_const (reaches_iff.1 hreach) hwhole).elim
  · exact (Asks.false_of_const (reaches_iff.1 hreach) hwhole).elim
  · exact (Asks.false_of_const (reaches_iff.1 hreach) hwhole).elim

end SmallLisp
