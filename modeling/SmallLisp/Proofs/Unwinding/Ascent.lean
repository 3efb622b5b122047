import SmallLisp.Proofs.Soundness.Asking

/-!
# What a failure records on its way

A failure records the evaluations that it leaves, from the innermost to the outermost, as long as
there is room for them. They form an ascent: each of them arose in the turn of every later one, and
failed for the cause of the failure. A failure arises with nothing recorded, and whatever it passes
that is no evaluation leaves it as it is, natives included; only the refusal of a native becomes the
failure of a call at the boundary of that native, before anything is recorded in it.
-/

namespace SmallLisp

open Eval

/-! ## Evaluations that fail -/

/-- An evaluation that a failure has left. The turn of the form that it had come to was begun in one
state and failed in another. -/
structure Abandoned where
  fuel : Nat
  form : Value
  env : Env
  start : State
  left : State

namespace Abandoned

/-- The turn as a call. -/
def activation (e : Abandoned) : Activation := ⟨e.fuel + 1, .eval e.form e.env, e.start⟩

/-- The turn fails for this cause. -/
def FailsFor (e : Abandoned) (c : Cause) : Prop :=
  ∃ f, (Engine.ofFuel e.fuel).step e.form e.env e.start = .halt (.failed f) e.left ∧ f.cause = c

/-- The form as it is recorded. -/
def text (e : Abandoned) : String := textIn e.left e.form

/-- One evaluation arises in the turn of another. -/
def InTurnOf (inner outer : Abandoned) : Prop :=
  Arises outer.fuel (·.step outer.form outer.env) outer.start inner.activation

end Abandoned

/-- The evaluations that a failure has left on its way out of a computation, the innermost first.
What is recorded of them is the first part that there is room for. -/
structure Ascent {α : Type} (n : Nat) (x : Engine → Eval α) (s : State) (f : Failure)
    (path : List Abandoned) : Prop where
  arises : ∀ e ∈ path, Arises n x s e.activation
  fails : ∀ e ∈ path, e.FailsFor f.cause
  nested : path.Pairwise Abandoned.InTurnOf
  recorded : f.trace.toList = (path.map Abandoned.text).take s.config.maxTraces

/-! ## Ascents -/

/-- One more form is recorded if there is room for it. -/
theorem Engine.trace_traced (form : Value) (s : State) (f : Failure) :
    (traced form s f).trace.toList =
      if f.trace.size < s.config.maxTraces then f.trace.toList ++ [textIn s form]
      else f.trace.toList := by
  unfold traced Failure.pushTrace
  split <;> simp

namespace Ascent

variable {α β : Type} {n m : Nat} {x : Engine → Eval α} {y : Engine → Eval β} {s u : State}
  {f : Failure} {path : List Abandoned}

/-- Recording as long as there is room is recording all and keeping the first of them. -/
theorem take_snoc {γ : Type} (k : Nat) (xs : List γ) (x : γ) :
    (xs ++ [x]).take k = if (xs.take k).length < k then xs.take k ++ [x] else xs.take k := by
  rw [List.length_take]
  split
  · rw [List.take_append, List.take_of_length_le (l := [x])]
    simp only [List.length_singleton]
    omega
  · rw [List.take_append_of_le_length (by omega)]

/-- Nothing is recorded in a failure that has just arisen. -/
theorem nil (n : Nat) (x : Engine → Eval α) (s : State) (h : f.trace = #[]) :
    Ascent n x s f [] where
  arises e he := by cases he
  fails e he := by cases he
  nested := .nil
  recorded := by simp [h]

/-- What is no evaluation leaves an ascent as it is. -/
theorem lift (h : Ascent n x s f path) (harises : ∀ a, Arises n x s a → Arises m y u a)
    (hconfig : s.config = u.config) : Ascent m y u f path where
  arises e he := harises _ (h.arises e he)
  fails := h.fails
  nested := h.nested
  recorded := by rw [← hconfig]; exact h.recorded

/-- An evaluation whose turn fails is the next in the ascent. -/
theorem snoc {form : Value} {env : Env} {t : State} (h : Ascent n (·.step form env) s f path)
    (hstep : (Engine.ofFuel n).step form env s = .halt (.failed f) t)
    (hconfig : t.config = s.config) :
    Ascent (n + 1) (·.perform (.eval form env)) s (Engine.traced form t f)
      (path ++ [⟨n, form, env, s, t⟩]) where
  arises e he := by
    rcases List.mem_append.1 he with he | he
    · exact (h.arises e he).attend.perform
    · rw [List.mem_singleton.1 he]
      exact .asked (.self _ _ s)
  fails e he := by
    rw [Engine.cause_traced]
    rcases List.mem_append.1 he with he | he
    · exact h.fails e he
    · rw [List.mem_singleton.1 he]
      exact ⟨f, hstep, rfl⟩
  nested := by
    refine List.pairwise_append.2 ⟨h.nested, List.pairwise_singleton _ _, ?_⟩
    intro inner hinner e he
    rw [List.mem_singleton.1 he]
    exact h.arises inner hinner
  recorded := by
    rw [Engine.trace_traced, List.map_append, List.map_singleton, take_snoc, ← h.recorded, hconfig,
      Array.length_toList]
    rfl

end Ascent

namespace Manner

variable {M : Manner} {α : Type} {x : Engine → Eval α} {s t : State} {f : Failure}

/-- A failure of a computation has an ascent, if those of the calls that it asks for have one. -/
theorem RunsFrom.exists_ascent (h : M.RunsFrom x s) (hfresh : ∀ g, M.Allows g → g.trace = #[])
    (hcalls : ∀ b u t, (Engine.ofFuel M.fuel).perform b u = .halt (.failed f) t →
      ∃ path, Ascent M.fuel (·.perform b) u f path)
    (hx : x (Engine.ofFuel M.fuel) s = .halt (.failed f) t) : ∃ path, Ascent M.fuel x s f path := by
  rcases h.source hx with hallows | ⟨b, u, t', hreach, hconfig, hfail⟩
  · exact ⟨[], .nil _ x s (hfresh f hallows)⟩
  · obtain ⟨path, hpath⟩ := hcalls b u t' hfail
    exact ⟨path, hpath.lift (fun a ha => ha.through hreach) hconfig⟩

theorem trace_of_allows {n : Nat} {relays : Prop} {g : Failure} (h : (outside n relays).Allows g) :
    g.trace = #[] := h.elim And.left False.elim

end Manner

/-- Every failure of a call has an ascent: by induction on the fuel, which every turn takes some of.
-/
theorem Engine.exists_ascent {n : Nat} {b : Call} {s t : State} {f : Failure}
    (h : (ofFuel n).perform b s = .halt (.failed f) t) :
    ∃ path, Ascent n (·.perform b) s f path := by
  induction n generalizing b s t f with
  | zero => cases b <;> cases h
  | succ n ih =>
      have hcalls : ∀ f b u t, (ofFuel n).perform b u = .halt (.failed f) t →
          ∃ path, Ascent n (·.perform b) u f path := fun _ _ _ _ => ih
      rw [perform_succ] at h
      cases b with
      | apply g args env =>
          have hrun := Manner.Runs.applyList (M := .outside n False) g args env s
          obtain ⟨path, hpath⟩ :=
            hrun.exists_ascent (fun _ => Manner.trace_of_allows) (hcalls f) h
          exact ⟨path, hpath.lift (fun a ha => Arises.perform ha) rfl⟩
      | deliver r =>
          have hrun := Manner.Runs.deliverTurn (M := .outside n False) (r := r) trivial s
          obtain ⟨path, hpath⟩ :=
            hrun.exists_ascent (fun _ => Manner.trace_of_allows) (hcalls f) h
          exact ⟨path, hpath.lift (fun a ha => Arises.perform ha) rfl⟩
      | eval form env =>
          have hrun : (Manner.outside n False).RunsFrom (fun E => E.step form env) s :=
            .step form env s fun h => h.elim
          rcases attend_eval_failed h with ⟨g, hstep, rfl⟩ | ⟨form', env', u, hstep, hfail⟩
          · obtain ⟨path, hpath⟩ :=
              hrun.exists_ascent (fun _ => Manner.trace_of_allows) (hcalls g) hstep
            have hconfig : ((ofFuel n).step form env s).state.config = s.config := hrun.config_eq
            rw [hstep] at hconfig
            exact ⟨_, hpath.snoc hstep hconfig⟩
          · obtain ⟨path, hpath⟩ := hcalls f _ u t hfail
            have hconfig : ((ofFuel n).step form env s).state.config = s.config := hrun.config_eq
            rw [hstep] at hconfig
            exact ⟨path, hpath.lift (fun a ha => (ha.through (.next hstep)).perform) hconfig⟩

/-! ## Whatever an interpreter is asked for -/

namespace Manner

open Interpreter

variable {M : Manner}

theorem Runs.collector (record : Array (Except Failure String)) (o : Except Failure Value) :
    M.Runs fun _ => collector.receive record o := by
  cases o with
  | ok v => exact .bind (.gets _) fun _ => .pure _
  | error f => exact .pure _

theorem Runs.echo (record : Unit) (o : Except Failure Value) :
    M.Runs fun _ => echo.receive record o := by
  cases o with
  | ok v => exact .bind (.gets _) fun _ => .write _
  | error f => exact .write _

theorem Runs.heard {σ : Type} {receiver : Receiver σ} (h : ¬ M.Relays)
    (hr : ∀ (M : Manner) record o, M.Runs fun _ => receiver.receive record o) (feed : Feed)
    (record : σ) :
    M.Runs fun E => Script.runWith E (some receiver) feed record >>= fun p => ofExcept p.1 := by
  have hscript := script (some receiver) (fun r hmem => by cases hmem; exact hr) M.fuel feed record
    .nil fun hrelays => absurd hrelays h
  exact hscript.congr fun E hE => by rw [← hE, runWith_ending]

theorem Runs.answer (h : ¬ M.Relays) (ask : Ask) : M.Runs fun E => ask.answer E := by
  cases ask with
  | run source => exact .run source fun hrelays => absurd hrelays h
  | collect source => exact .heard h (fun M => .collector) (.own {} source) #[]
  | converse => exact .heard h (fun M => .echo) (.console {}) ()
  | load path =>
      refine .after (exists_openFile path) fun opened _ => ?_
      cases opened with
      | ok source => exact .run source fun hrelays => absurd hrelays h
      | error message => exact .fail (M.raises rfl rfl)
  | eval form env => exact .eval form env
  | apply f args env => exact .apply f args env
  | force v => exact .force v
  | forceEach v => exact .bind (.forceEach v) fun _ => .pure v

end Manner

namespace Interpreter

/-- What an interpreter answers with is never a refusal that has not left its native. -/
theorem Ask.isNative_of_answer {n : Nat} {ask : Ask} {s t : State} {f : Failure}
    (h : ask.answer (Engine.ofFuel n) s = .halt (.failed f) t) : f.cause.isNative = false := by
  rcases (Manner.Runs.answer (M := .outside n False) not_false ask s).source h with
    (hown | hmet) | ⟨b, u, t', -, -, hfail⟩
  · exact hown.2
  · exact hmet.elim
  · exact Engine.isNative_of_perform hfail

theorem Ask.exists_ascent {n : Nat} {ask : Ask} {s t : State} {f : Failure}
    (h : ask.answer (Engine.ofFuel n) s = .halt (.failed f) t) :
    ∃ path, Ascent n ask.answer s f path := by
  have hrun := Manner.Runs.answer (M := .outside n False) not_false ask s
  exact hrun.exists_ascent (fun _ => Manner.trace_of_allows) (fun _ _ _ => Engine.exists_ascent) h

end Interpreter

/-! ## Failures -/

/-- Failures. Whatever an interpreter is asked for, a failure in which it ends is no refusal that
has not left its native, and it records no more forms than the configuration allows. What it records
are the innermost evaluations of its ascent: each of them failed for this cause, and arose in the
turn of every one that comes after it. A refusal becomes, at the boundary of its native and of no
other, the failure of the call of this native on the frame that it had, with nothing recorded. Any
other failure leaves a native with its cause and with what is recorded in it, and so does the
failure of a call that the native has come to ask for, be it to evaluate, to apply or to deliver a
promise, also where it was to run a script. -/
theorem Interpreter.failures_in_order (n : Nat) (s : State) :
    (∀ ask f t, Ask.answer (Engine.ofFuel n) ask s = .halt (.failed f) t →
      f.cause.isNative = false ∧ f.trace.size ≤ s.config.maxTraces ∧
      ∃ path, Ascent n ask.answer s f path) ∧
    (∀ (native : Native) args env f t,
      native.run (Engine.ofFuel n) args env s = .halt (.failed f) t →
      (∀ message, f.cause = .native message → native.call (Engine.ofFuel n) args env s =
        .halt (.failed { cause := .call message (native.signature ++ " " ++
          printAll t.store t.symbols t.config.maxPrintRepeats args), trace := #[] }) t) ∧
      (f.cause.isNative = false →
        native.call (Engine.ofFuel n) args env s = .halt (.failed f) t)) ∧
    (∀ (native : Native) args env b u f t,
      (Engine.ofFuel n).Reaches (fun E => native.run E args env) s b u →
      (Engine.ofFuel n).perform b u = .halt (.failed f) t →
      native.call (Engine.ofFuel n) args env s = .halt (.failed f) t) := by
  refine ⟨fun ask f t h => ?_,
    fun native args env f t h => ⟨fun message hcause => ?_, fun hother => ?_⟩,
    fun native args env b u f t hreach hfail => ?_⟩
  · obtain ⟨path, hpath⟩ := Ask.exists_ascent h
    refine ⟨Ask.isNative_of_answer h, ?_, path, hpath⟩
    rw [← Array.length_toList, hpath.recorded]
    exact List.length_take_le _ _
  · rw [Native.call_of_failed h, native.atBoundary_of_native args t hcause]
  · rw [Native.call_of_failed h, native.atBoundary_of_other args t hother]
  · have hnative := Manner.Runs.runNative (M := .outside n True) native args env s
    have hrun : native.run (Engine.ofFuel n) args env s = .halt (.failed f) t :=
      hreach.fails hnative trivial hfail
    rw [Native.call_of_failed hrun, native.atBoundary_of_other args t
      (Engine.isNative_of_perform hfail)]

namespace Ascent

/-- A store with `(car (car 1))`, where failures have room for one form. -/
def sample : State where
  store :=
    { capacity := 4
      cells := #[⟨.callable ⟨0⟩, .pair ⟨1⟩⟩, ⟨.int 1, .nil⟩, ⟨.callable ⟨0⟩, .pair ⟨3⟩⟩,
        ⟨.pair ⟨0⟩, .nil⟩]
      callables := #[.native (.lists .car)] }
  console := { answers := [] }
  config := { maxTraces := 1 }

end Ascent

/-- In `(car (car 1))` it is the inner call that fails, and only that one is recorded. -/
theorem Interpreter.failures_in_order_capped :
    (∃ f t, Ask.answer (Engine.ofFuel 6) (.eval (.pair ⟨2⟩) none) Ascent.sample =
        .halt (.failed f) t ∧
      f.cause = .call "pair expected: 1" "#<car:1> [1]" ∧ f.trace = #["(#<car:1> 1)"] ∧
      f.cause.isNative = false ∧ f.trace.size ≤ 1 ∧
      ∃ path, Ascent 6 (Ask.answer · (.eval (.pair ⟨2⟩) none)) Ascent.sample f path) ∧
    Native.call (Engine.ofFuel 6) (.lists .car) [.int 1] none Ascent.sample =
      .halt (.failed { cause := .call "pair expected: 1" "#<car:1> [1]" }) Ascent.sample ∧
    ∃ f t, Native.call (Engine.ofFuel 6) (.control .eval) [.pair ⟨2⟩] none Ascent.sample =
      .halt (.failed f) t ∧ f.trace = #["(#<car:1> 1)"] := by
  obtain ⟨hask, hnative, hcalled⟩ := failures_in_order 6 Ascent.sample
  obtain ⟨f, t, hrun, hcause, htrace⟩ : ∃ f t,
      (Engine.ofFuel 6).perform (.eval (.pair ⟨2⟩) none) Ascent.sample = .halt (.failed f) t ∧
        f.cause = .call "pair expected: 1" "#<car:1> [1]" ∧ f.trace = #["(#<car:1> 1)"] :=
    ⟨_, _, rfl, rfl, rfl⟩
  refine ⟨⟨f, t, hrun, hcause, htrace, hask _ f t hrun⟩, ?_, f, t, ?_, htrace⟩
  · exact (hnative (.lists .car) [.int 1] none _ _ rfl).1 "pair expected: 1" rfl
  · exact hcalled (.control .eval) [.pair ⟨2⟩] none (.eval (.pair ⟨2⟩) none) Ascent.sample f t
      (fun _ _ _ _ hexit => hexit) hrun

end SmallLisp
