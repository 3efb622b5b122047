import SmallLisp.Proofs.Reading.Progress
import SmallLisp.Proofs.Simulation.Script

/-!
# The rounds of a script

A run is made of rounds: a form is read, it is evaluated, and what it came to is handed to the
receiver. The rounds go on until the source is at its end or an outcome forbids it; then the source
is closed, once. Every round takes text from the source, so only a form that does not come to an
end, an exit or the receiver itself can keep a run from returning.
-/

namespace SmallLisp

/-- An attempt halts as the computation does, and not with a failure. -/
theorem Eval.eq_halt_of_attempt {α : Type} {x : Eval α} {s t : State} {h : Halt}
    (hx : attempt x s = .halt h t) : x s = .halt h t ∧ ∀ f, h ≠ .failed f := by
  unfold attempt at hx
  split at hx
  · cases hx
  · cases hx
  · rename_i c u hne hxs
    cases hx
    refine ⟨hxs, fun f hf => ?_⟩
    subst hf
    exact hne f rfl

/-! ## Requests -/

/-- From the first source to the second, lines were asked for and nothing else was done. -/
structure LineSource.Asked (src : LineSource) (prompts : List Bool) (src' : LineSource) : Prop where
  requests : src'.requests = (prompts.map Request.line).reverse ++ src.requests
  closing : src'.closing = src.closing
  recorded : src'.recorded = src.recorded

namespace LineSource.Asked

theorem refl (src : LineSource) : src.Asked [] src := ⟨rfl, rfl, rfl⟩

theorem trans {src src₁ src₂ : LineSource} {ps qs : List Bool} (h₁ : src.Asked ps src₁)
    (h₂ : src₁.Asked qs src₂) : src.Asked (ps ++ qs) src₂ := by
  constructor
  · rw [h₂.requests, h₁.requests]
    simp
  · rw [h₂.closing, h₁.closing]
  · rw [h₂.recorded, h₁.recorded]

theorem asked (src : LineSource) (prompt : Bool) (answers : List Answer) :
    src.Asked [prompt] (src.asked prompt answers) := ⟨rfl, rfl, rfl⟩

end LineSource.Asked

namespace Scanner

theorem exists_asked_fetch (answers : List Answer) (sc : Scanner) (src : LineSource) :
    ∃ prompts, src.Asked prompts (sc.fetch src answers).2.2 := by
  induction answers generalizing sc src with
  | nil => exact ⟨_, .asked src sc.prompt []⟩
  | cons a answers ih =>
      cases a with
      | fault f => exact ⟨_, .asked src sc.prompt answers⟩
      | line text =>
          simp only [fetch]
          split
          · exact ⟨_, .asked src sc.prompt answers⟩
          · obtain ⟨prompts, h⟩ := ih (sc.take text).skipLine (src.asked sc.prompt answers)
            exact ⟨_, .trans (.asked src sc.prompt answers) h⟩

theorem exists_asked_seek (sc : Scanner) (src : LineSource) :
    ∃ prompts, src.Asked prompts (sc.seek src).2.2 := by
  unfold seek
  split
  · exact ⟨[], .refl src⟩
  · dsimp only
    split
    · exact ⟨[], .refl src⟩
    · exact exists_asked_fetch src.answers sc.skipLine src

theorem exists_asked_next {sc sc' : Scanner} {src src' : LineSource}
    {x : Except Cause (Option Token)} (h : sc.next src = (x, sc', src')) :
    ∃ prompts, src.Asked prompts src' := by
  have hseek := exists_asked_seek sc src
  unfold next at h
  rcases hs : sc.seek src with ⟨_ | _ | _, sc₁, src₁⟩
  · simp only [hs] at h hseek
    split at h <;>
    · cases h
      exact hseek
  · simp only [hs] at h hseek
    cases h
    exact hseek
  · simp only [hs] at h hseek
    cases h
    exact hseek

end Scanner

namespace Reader

theorem exists_asked_readForm (stack : List Pending) (sc : Scanner) (src : LineSource) :
    ∃ prompts, src.Asked prompts (readForm stack sc src).2.2 := by
  fun_induction readForm stack sc src with
  | case1 stack sc src cause sc₁ src₁ hnext => exact Scanner.exists_asked_next hnext
  | case2 stack sc src sc₁ src₁ hnext => exact Scanner.exists_asked_next hnext
  | case3 stack sc src sc₁ src₁ hnext => exact Scanner.exists_asked_next hnext
  | case4 stack sc src t sc₁ src₁ hnext => exact Scanner.exists_asked_next hnext
  | case5 stack sc src t sc₁ src₁ hnext => exact Scanner.exists_asked_next hnext
  | case6 stack sc src t sc₁ src₁ hnext stack' hfeed ih =>
      obtain ⟨ps, hps⟩ := Scanner.exists_asked_next hnext
      obtain ⟨qs, hqs⟩ := ih
      exact ⟨ps ++ qs, hps.trans hqs⟩

theorem exists_asked_read (r : Reader) (src : LineSource) (store : Store)
    (symbols : SymbolTable) : ∃ prompts, src.Asked prompts (r.read src store symbols).source := by
  have hask := exists_asked_readForm [] r.prepared src
  unfold read
  split
  · rename_i hread
    rw [hread] at hask
    exact hask
  · rename_i hread
    rw [hread] at hask
    split <;> exact hask
  · rename_i hread
    rw [hread] at hask
    exact hask

end Reader

/-! ## Feeds -/

namespace Feed

def reader : Feed → Reader
  | .own reader _ => reader
  | .console reader => reader

/-- The source that a script is read from. -/
def source (s : State) : Feed → LineSource
  | .own _ source => source
  | .console _ => s.console

/-- The feed is read, and its source is asked for lines only. -/
structure Reads (feed : Feed) (s : State) (prompts : List Bool) (result : Except Cause Value)
    (feed' : Feed) (s' : State) : Prop where
  read : feed.read s = .ok (result, feed') s'
  asked : (feed.source s).Asked prompts
    (feed.reader.read (feed.source s) s.store s.symbols).source

/-- The feed is closed by one request to its source. -/
structure Closes (feed : Feed) (s : State) (fault : Option SourceFault) (s' : State) : Prop where
  close : feed.close s = .ok fault s'
  fault : fault = (feed.source s).closing
  asked : (feed.source s).close.2.requests = .close :: (feed.source s).requests

theorem exists_reads (feed : Feed) (s : State) :
    ∃ prompts result feed' s', feed.Reads s prompts result feed' s' := by
  obtain ⟨prompts, hasked⟩ :=
    feed.reader.exists_asked_read (feed.source s) s.store s.symbols
  cases feed with
  | own reader source => exact ⟨prompts, _, _, _, rfl, hasked⟩
  | console reader => exact ⟨prompts, _, _, _, rfl, hasked⟩

theorem exists_closes (feed : Feed) (s : State) : ∃ fault s', feed.Closes s fault s' := by
  cases feed with
  | own reader source => exact ⟨_, _, rfl, rfl, rfl⟩
  | console reader => exact ⟨_, _, rfl, rfl, rfl⟩

/-- A source of its own stays one, and a reading that the script goes on after makes it shorter. -/
theorem Reads.own {reader : Reader} {source : LineSource} {s s' : State} {prompts : List Bool}
    {result : Except Cause Value} {feed' : Feed}
    (h : (Feed.own reader source).Reads s prompts result feed' s') :
    ∃ reader' source', feed' = .own reader' source' ∧ source'.closing = source.closing ∧
      source'.recorded = source.recorded ∧
      (result ≠ .ok .eof →
        reader'.prepared.remaining source' < reader.prepared.remaining source) := by
  have hread := h.read
  simp only [Feed.read, Eval.bind_apply, readFrom, State.note_eq] at hread
  cases hread
  exact ⟨_, _, rfl, h.asked.closing, h.asked.recorded, fun hend =>
    Nat.lt_of_le_of_lt (Reader.remaining_prepared_le _ _)
      (Reader.remaining_read (Reading.isAtEnd_eq_false hend))⟩

end Feed

/-! ## Rounds -/

namespace Script

open Eval

variable {σ : Type} {E : Engine} {receiver : Option (Receiver σ)}

/-- Whether a script goes on after an outcome, with a receiver or without. -/
def goesOn (heard : Bool) : Except Failure Value → Bool
  | .ok _ => true
  | .error f => heard && !f.cause.stopsScript

/-- Hand an outcome to the receiver, if there is one. -/
def hand : Option (Receiver σ) → σ → Except Failure Value → Eval σ
  | none, record, _ => pure record
  | some r, record, o => r.receive record o

/-- A round of a script: the lines that were asked for, and what the form came to. -/
structure Round where
  prompts : List Bool
  outcome : Except Failure Value

/-- The value of the last round that had one, or the one before. -/
def lastValue (last : Value) (rounds : List Round) : Value :=
  (rounds.filterMap fun round => round.outcome.toOption).getLastD last

@[simp] theorem lastValue_nil (last : Value) : lastValue last [] = last := rfl

theorem lastValue_cons (last : Value) (round : Round) (rounds : List Round) :
    lastValue last (round :: rounds) = lastValue (lastValue last [round]) rounds := by
  obtain ⟨prompts, f | v⟩ := round
  · rfl
  · exact List.getLastD_cons

/-- Rounds of a script that it goes on after. In each of them a form is read, it is evaluated, and
its outcome is handed over once. -/
inductive Rounds (E : Engine) (receiver : Option (Receiver σ)) :
    Feed → σ → State → List Round → Feed → σ → State → Prop
  | none (feed : Feed) (record : σ) (s : State) : Rounds E receiver feed record s [] feed record s
  | more {feed feed₁ feed' : Feed} {record record₁ record' : σ} {s s₁ s₂ s₃ s' : State}
      {prompts : List Bool} {result : Except Cause Value} {o : Except Failure Value}
      {rounds : List Round} (read : feed.Reads s prompts result feed₁ s₁)
      (form : result ≠ .ok .eof) (eval : outcome E result s₁ = .ok o s₂)
      (on : goesOn receiver.isSome o = true) (hand : hand receiver record o s₂ = .ok record₁ s₃)
      (rest : Rounds E receiver feed₁ record₁ s₃ rounds feed' record' s') :
      Rounds E receiver feed record s (⟨prompts, o⟩ :: rounds) feed' record' s'

/-- The rounds come to an end: the source does, or an outcome does not let the script go on. Such an
outcome is not handed over. -/
inductive Ends (E : Engine) (heard : Bool) (last : Value) (feed : Feed) (s : State) :
    Except Failure Value → Feed → State → Prop
  | eof {feed' : Feed} {s' : State} {prompts : List Bool}
      (read : feed.Reads s prompts (.ok .eof) feed' s') :
      Ends E heard last feed s (.ok last) feed' s'
  | failed {feed' : Feed} {s₁ s' : State} {prompts : List Bool} {result : Except Cause Value}
      {f : Failure} (read : feed.Reads s prompts result feed' s₁) (form : result ≠ .ok .eof)
      (eval : outcome E result s₁ = .ok (.error f) s')
      (stop : heard = false ∨ f.cause.stopsScript = true) :
      Ends E heard last feed s (.error f) feed' s'

/-- The rounds break off: evaluating a form does not end, or ends the program, or the receiver does
not return. -/
inductive Breaks (E : Engine) (receiver : Option (Receiver σ)) (feed : Feed) (record : σ)
    (s : State) : Halt → State → Prop
  | eval {feed' : Feed} {s₁ s' : State} {prompts : List Bool} {v : Value} {h : Halt}
      (read : feed.Reads s prompts (.ok v) feed' s₁) (form : v ≠ .eof)
      (eval : E.eval v none s₁ = .halt h s') (uncaught : ∀ f, h ≠ .failed f) :
      Breaks E receiver feed record s h s'
  | receiver {feed' : Feed} {s₁ s₂ s' : State} {prompts : List Bool}
      {result : Except Cause Value} {o : Except Failure Value} {h : Halt}
      (read : feed.Reads s prompts result feed' s₁) (form : result ≠ .ok .eof)
      (eval : outcome E result s₁ = .ok o s₂) (on : goesOn receiver.isSome o = true)
      (hand : hand receiver record o s₂ = .halt h s') : Breaks E receiver feed record s h s'

/-- Each round takes text from the source, and none of them changes how closing it will go. -/
theorem Rounds.own {reader : Reader} {source : LineSource} {record record' : σ} {s s' : State}
    {rounds : List Round} {feed feed' : Feed} (hfeed : feed = .own reader source)
    (h : Rounds E receiver feed record s rounds feed' record' s') :
    ∃ reader' source', feed' = .own reader' source' ∧ source'.closing = source.closing ∧
      rounds.length + reader'.prepared.remaining source' ≤ reader.prepared.remaining source := by
  induction h generalizing reader source with
  | none feed record s => exact ⟨reader, source, hfeed, rfl, by simp⟩
  | @more feed feed₁ feed' record record₁ record' s s₁ s₂ s₃ s' prompts result o rounds read form
      eval on hand rest ih =>
      subst hfeed
      obtain ⟨reader₁, source₁, hfeed₁, hclosing₁, -, hlt⟩ := read.own
      obtain ⟨reader', source', hfeed', hclosing', hle⟩ := ih hfeed₁
      refine ⟨reader', source', hfeed', hclosing'.trans hclosing₁, ?_⟩
      have := hlt form
      simp only [List.length_cons]
      omega

theorem Ends.closing {heard : Bool} {last : Value} {reader : Reader} {source : LineSource}
    {s s' : State} {ending : Except Failure Value} {feed' : Feed}
    (h : Ends E heard last (.own reader source) s ending feed' s') :
    (feed'.source s').closing = source.closing := by
  cases h with
  | eof read =>
      obtain ⟨reader', source', rfl, hclosing, -, -⟩ := read.own
      exact hclosing
  | failed read form eval stop =>
      obtain ⟨reader', source', rfl, hclosing, -, -⟩ := read.own
      exact hclosing

/-! ## Runs -/

theorem loop_of_eof {feed feed' : Feed} {s s' : State} (h : feed.read s = .ok (.ok .eof, feed') s')
    (fuel : Nat) (record : σ) (last : Value) :
    loop E receiver (fuel + 1) feed record last s = .ok (.ok last, feed', record) s' := by
  rw [loop, bind_of_ok h]
  rfl

/-- What is done about the outcome of a form: the receiver is handed it, and the script goes on. -/
theorem round_eq (E : Engine) (receiver : Option (Receiver σ)) (fuel : Nat) (feed : Feed)
    (record : σ) (last : Value) (o : Except Failure Value) :
    (match o, receiver with
      | .ok v, none => loop E receiver fuel feed record v
      | .ok v, some r => do
          let record ← r.receive record (.ok v)
          loop E receiver fuel feed record v
      | .error f, none => pure (.error f, feed, record)
      | .error f, some r =>
          if f.cause.stopsScript then pure (.error f, feed, record)
          else do
            let record ← r.receive record (.error f)
            loop E receiver fuel feed record last) =
    if goesOn receiver.isSome o then do
      let record ← hand receiver record o
      loop E receiver fuel feed record (lastValue last [⟨[], o⟩])
    else pure (o, feed, record) := by
  rcases o with f | v <;> rcases receiver with _ | r
  · rfl
  · by_cases hstop : f.cause.stopsScript = true
    · simp [goesOn, hstop]
    · simp [goesOn, hand, lastValue, Except.toOption, hstop]
  · rfl
  · rfl

/-- A round of a run, once its form is read. -/
theorem loop_of_form {feed feed' : Feed} {s s₁ : State} {result : Except Cause Value}
    (h : feed.read s = .ok (result, feed') s₁) (hform : result ≠ .ok .eof) (fuel : Nat)
    (record : σ) (last : Value) :
    loop E receiver (fuel + 1) feed record last s = (do
      let o ← outcome E result
      if goesOn receiver.isSome o then
        let record ← hand receiver record o
        loop E receiver fuel feed' record (lastValue last [⟨[], o⟩])
      else pure (o, feed', record)) s₁ := by
  rw [loop, bind_of_ok h]
  have hround := funext (round_eq E receiver fuel feed' record last)
  rcases result with c | v
  · exact congrFun (congrArg (outcome E (.error c) >>= ·) hround) s₁
  · cases v with
    | eof => exact absurd rfl hform
    | _ => exact congrFun (congrArg (outcome E (.ok _) >>= ·) hround) s₁

/-- A run of the rounds ends, breaks off, or there are too many of them. -/
theorem loop_cases (E : Engine) (receiver : Option (Receiver σ)) (fuel : Nat) (feed : Feed)
    (record : σ) (last : Value) (s : State) :
    (∃ rounds feed₁ record' s₁ ending feed' s',
      Rounds E receiver feed record s rounds feed₁ record' s₁ ∧
      Ends E receiver.isSome (lastValue last rounds) feed₁ s₁ ending feed' s' ∧
      loop E receiver fuel feed record last s = .ok (ending, feed', record') s') ∨
    (∃ rounds feed₁ record₁ s₁ h s',
      Rounds E receiver feed record s rounds feed₁ record₁ s₁ ∧
      Breaks E receiver feed₁ record₁ s₁ h s' ∧
      loop E receiver fuel feed record last s = .halt h s') ∨
    (∃ rounds feed₁ record₁ s₁, Rounds E receiver feed record s rounds feed₁ record₁ s₁ ∧
      rounds.length = fuel ∧ loop E receiver fuel feed record last s = .halt .exhausted s₁) := by
  induction fuel generalizing feed record last s with
  | zero => exact .inr (.inr ⟨[], feed, record, s, .none feed record s, rfl, rfl⟩)
  | succ fuel ih =>
      obtain ⟨prompts, result, feed₁, s₁, hreads⟩ := feed.exists_reads s
      by_cases hform : result = .ok .eof
      · subst hform
        exact .inl ⟨[], feed, record, s, .ok last, feed₁, s₁, .none feed record s, .eof hreads,
          loop_of_eof hreads.read fuel record last⟩
      rw [loop_of_form hreads.read hform fuel record last]
      cases houtcome : outcome E result s₁ with
      | halt h s₂ =>
          rw [bind_of_halt houtcome]
          rcases result with c | v
          · cases houtcome
          obtain ⟨heval, huncaught⟩ := eq_halt_of_attempt houtcome
          refine .inr (.inl ⟨[], feed, record, s, h, s₂, .none feed record s, ?_, rfl⟩)
          exact .eval hreads (fun hv => hform (by rw [hv])) heval huncaught
      | ok o s₂ =>
          rw [bind_of_ok houtcome]
          by_cases hon : goesOn receiver.isSome o = true
          · rw [if_pos hon]
            cases hhand : hand receiver record o s₂ with
            | halt h s₃ =>
                rw [bind_of_halt hhand]
                refine .inr (.inl ⟨[], feed, record, s, h, s₃, .none feed record s, ?_, rfl⟩)
                exact .receiver hreads hform houtcome hon hhand
            | ok record₁ s₃ =>
                rw [bind_of_ok hhand]
                have more {rounds feed' record' s'}
                    (h : Rounds E receiver feed₁ record₁ s₃ rounds feed' record' s') :=
                  Rounds.more hreads hform houtcome hon hhand h
                rcases ih feed₁ record₁ (lastValue last [⟨prompts, o⟩]) s₃ with
                  ⟨rounds, feed₂, record', s₄, ending, feed', s', hrounds, hends, hloop⟩ |
                  ⟨rounds, feed₂, record', s₄, h, s', hrounds, hbreaks, hloop⟩ |
                  ⟨rounds, feed₂, record', s₄, hrounds, hfuel, hloop⟩
                · rw [← lastValue_cons] at hends
                  exact .inl ⟨_, feed₂, record', s₄, ending, feed', s', more hrounds, hends, hloop⟩
                · exact .inr (.inl ⟨_, feed₂, record', s₄, h, s', more hrounds, hbreaks, hloop⟩)
                · refine .inr (.inr ⟨_, feed₂, record', s₄, more hrounds, ?_, hloop⟩)
                  simp [hfuel]
          · rw [if_neg hon]
            rcases o with f | v
            · have hstop : receiver.isSome = false ∨ f.cause.stopsScript = true := by
                simpa [goesOn, imp_iff_not_or] using hon
              exact .inl ⟨[], feed, record, s, .error f, feed₁, s₂, .none feed record s,
                .failed hreads hform houtcome hstop, rfl⟩
            · exact absurd rfl hon

/-- The protocol of scripts. In each round a form is read, evaluated and handed to the receiver, if
there is one, and reading goes on. The run ends with the source, or with an outcome that is a
failure and either there is no receiver or it is one of input or output. Then the source is closed,
by one request after all others. The result is the failure that ended the run, or else the failure
to close, or else the value of the last round that had one. If the source has less text than the
engine has fuel, the run returns, unless evaluating a form does not or the receiver does not. -/
theorem runWith_protocol (E : Engine) (receiver : Option (Receiver σ)) (reader : Reader)
    (source : LineSource) (record : σ) (s : State) :
    (∃ rounds feed₁ record' s₁ ending feed' s' closing t result,
      Rounds E receiver (.own reader source) record s rounds feed₁ record' s₁ ∧
      Ends E receiver.isSome (lastValue .nil rounds) feed₁ s₁ ending feed' s' ∧
      feed'.Closes s' closing t ∧ closing = source.closing ∧
      (∀ f, ending = .error f → result = .error f) ∧
      (∀ v fault, ending = .ok v → closing = some fault →
        result = .error { cause := .io fault.message }) ∧
      (∀ v, ending = .ok v → closing = none → result = .ok v) ∧
      runWith E receiver (.own reader source) record s = .ok (result, record') t) ∨
    (∃ rounds feed₁ record₁ s₁ h t,
      Rounds E receiver (.own reader source) record s rounds feed₁ record₁ s₁ ∧
      Breaks E receiver feed₁ record₁ s₁ h t ∧
      runWith E receiver (.own reader source) record s = .halt h t) ∨
    (E.fuel ≤ reader.prepared.remaining source ∧
      ∃ t, runWith E receiver (.own reader source) record s = .halt .exhausted t) := by
  unfold runWith
  rcases loop_cases E receiver E.fuel (.own reader source) record .nil s with
    ⟨rounds, feed₁, record', s₁, ending, feed', s', hrounds, hends, hloop⟩ |
    ⟨rounds, feed₁, record₁, s₁, h, t, hrounds, hbreaks, hloop⟩ |
    ⟨rounds, feed₁, record₁, s₁, hrounds, hfuel, hloop⟩
  · left
    obtain ⟨closing, t, hcloses⟩ := feed'.exists_closes s'
    obtain ⟨reader₁, source₁, rfl, hclosing₁, -⟩ := hrounds.own rfl
    have hclosing : closing = source.closing := by
      rw [hcloses.fault, ← hclosing₁]
      exact hends.closing
    refine ⟨rounds, _, record', s₁, ending, feed', s', closing, t, conclude ending closing, hrounds,
      hends, hcloses, hclosing, ?_, ?_, ?_, ?_⟩
    · intro f hf
      subst hf
      rfl
    · intro v fault hv hfault
      subst hv hfault
      rfl
    · intro v hv hnone
      subst hv hnone
      rfl
    · rw [bind_of_ok hloop]
      exact bind_of_ok hcloses.close
  · right; left
    refine ⟨rounds, feed₁, record₁, s₁, h, t, hrounds, hbreaks, ?_⟩
    rw [bind_of_halt hloop]
  · right; right
    obtain ⟨reader', source', -, -, hle⟩ := hrounds.own rfl
    refine ⟨by omega, s₁, ?_⟩
    rw [bind_of_halt hloop]

end Script

end SmallLisp
