import SmallLisp.Proofs.Unwinding.Dialogue

/-!
# The dialogue of a turn

The natives, the scripts that they load and one turn of evaluation. Within a native anything may be
raised; at its boundary a refusal becomes the failure of a call, and every other failure passes. A
script that is loaded catches the failure of its form for as long as it takes to close the source,
which a program cannot tell.
-/

namespace SmallLisp

/-! ## The boundary of a native -/

theorem Native.atBoundary_of_native (n : Native) (args : List Value) (s : State) {f : Failure}
    {message : String} (h : f.cause = .native message) :
    n.atBoundary args s f = { cause := .call message (n.signature ++ " " ++
      printAll s.store s.symbols s.config.maxPrintRepeats args) } := by
  simp only [atBoundary, h]

theorem Native.atBoundary_of_other (n : Native) (args : List Value) (s : State) {f : Failure}
    (h : f.cause.isNative = false) : n.atBoundary args s f = f := by
  unfold atBoundary
  split
  · rename_i hcause
    rw [hcause] at h
    cases h
  · rfl

theorem Cause.eq_native {c : Cause} (h : c.isNative = true) : ∃ message, c = .native message := by
  cases c with
  | native message => exact ⟨message, rfl⟩
  | _ => cases h

namespace Manner

open Eval

variable {M : Manner} {α : Type}

/-- The manner within a native, which may raise refusals too. -/
def within (M : Manner) : Manner :=
  { M with
    Raises := fun f => f.trace = #[]
    raises := fun h _ => h }

/-! ## Arguments -/

theorem Runs.refuse (f : NativeFault) : M.within.Runs fun _ => (Eval.refuse f : Eval α) := .fail rfl

theorem Runs.refuseOn (v : Value) (f : String → NativeFault) :
    M.within.Runs fun _ => (Eval.refuseOn v f : Eval α) := .failOn v fun _ => rfl

theorem Runs.mismatch (spec : NativeSpec) : M.within.Runs fun _ => Native.mismatch spec := .fail rfl

theorem Runs.numberArg (v : Value) : M.within.Runs fun _ => Native.numberArg v := by
  refine .bind (.gets _) fun n => ?_
  cases n with
  | some n => exact .pure n
  | none => exact .refuseOn _ _

theorem Runs.indexArg (v : Value) : M.within.Runs fun _ => Native.indexArg v := by
  cases v with
  | int n => exact .ite (.pure _) (.refuseOn _ _)
  | _ => exact .refuseOn _ _

theorem Runs.textArg (v : Value) : M.within.Runs fun _ => Native.textArg v := by
  cases v with
  | text r => exact .gets _
  | _ => exact .refuseOn _ _

theorem Runs.pairArg (v : Value) : M.within.Runs fun _ => Native.pairArg v := by
  cases v with
  | pair r => exact .pure r
  | _ => exact .refuseOn _ _

theorem Runs.sequenceArg (v : Value) : M.within.Runs fun E => Native.sequenceArg E v := by
  cases v with
  | nil => exact .pure _
  | pair r => exact .items (.pair r)
  | vector r => exact .gets _
  | text r => exact .gets _
  | _ => exact .refuseOn _ _

theorem Runs.write (text : String) : M.Runs fun _ => Eval.write text := by
  intro s K hK hs
  refine .done _ (fun _ _ => rfl) (hK.leads ?_ hs) fun f t hf => ?_
  · unfold Eval.write
    split <;> exact .of_eq rfl rfl
  · unfold Eval.write at hf
    split at hf
    · cases hf
    · cases hf
      exact .inl (M.raises rfl rfl)

/-! ## Natives -/

theorem Runs.appendAll (lists reversed : List Value) :
    M.within.Runs fun E => ListNative.appendAll E lists reversed := by
  induction lists generalizing reversed with
  | nil => exact .pure _
  | cons v vs ih =>
      cases vs with
      | nil => exact .consAll _ _
      | cons u us => exact .bind (.reversedItems v reversed) fun reversed => ih reversed

theorem Runs.applyEach (f : Value) (env : Env) (vs reversed : List Value) :
    M.within.Runs fun E => ListNative.applyEach E f env vs reversed := by
  induction vs generalizing reversed with
  | nil => exact .pure _
  | cons v vs ih =>
      refine .bind (.list _) fun args => .bind (.apply f args env) fun result => ?_
      exact ih (result :: reversed)

theorem Runs.lengthOf (v : Value) : M.within.Runs fun E => ListNative.lengthOf E v := by
  cases v with
  | text r => exact .gets _
  | vector r => exact .gets _
  | _ => exact .bind (.items _) fun _ => .pure _

theorem Runs.lists (n : ListNative) (args : List Value) (env : Env) :
    M.within.Runs fun E => n.run E args env := by
  rcases args with _ | ⟨a, _ | ⟨b, _ | ⟨c, args⟩⟩⟩ <;> cases n
  case cons.nil.car =>
      cases a with
      | nil => exact .pure _
      | _ => exact .bind (.pairArg _) fun r => .car r
  case cons.nil.cdr =>
      cases a with
      | nil => exact .pure _
      | _ => exact .bind (.pairArg _) fun r => .cdr r
  case cons.nil.list => exact .pure _
  case cons.nil.append => exact .bind (.items a) fun lists => .appendAll lists []
  case cons.nil.length => exact .bind (.lengthOf a) fun _ => .pure _
  case cons.cons.nil.cons => exact .cons _ _
  case cons.cons.nil.rplaca =>
      refine .bind (.force a) fun target => .bind (.pairArg target) fun r => ?_
      exact .bind (.update fun _ => rfl) fun _ => .pure _
  case cons.cons.nil.rplacd =>
      refine .bind (.force a) fun target => .bind (.pairArg target) fun r => ?_
      exact .bind (.update fun _ => rfl) fun _ => .pure _
  case cons.cons.nil.mapcar =>
      refine .bind (.sequenceArg b) fun items => ?_
      exact .bind (.applyEach a env items []) fun reversed => .consAll _ _
  case cons.cons.nil.mapc =>
      refine .bind (.sequenceArg b) fun items => .bind (.applyEach a env items []) fun _ => ?_
      exact .pure _
  all_goals first | exact .mismatch _ | (cases a <;> exact .mismatch _)

theorem Runs.comparedText (v : Value) : M.within.Runs fun _ => TestNative.comparedText v := by
  cases v with
  | nil => exact .pure _
  | _ =>
      refine .bind (.gets _) fun text => ?_
      cases text with
      | some text => exact .pure _
      | none => exact .refuseOn _ _

theorem Runs.tests (n : TestNative) (args : List Value) : M.within.Runs fun _ => n.run args := by
  rcases args with _ | ⟨a, _ | ⟨b, _ | ⟨c, args⟩⟩⟩ <;> cases n
  case cons.nil.keywordp => exact .gets _
  case cons.cons.nil.eq => exact .pure _
  case cons.cons.nil.eql => exact .gets _
  case cons.cons.nil.stringEq =>
      exact .bind (.comparedText a) fun x => .bind (.comparedText b) fun y => .pure _
  all_goals first | exact .mismatch _ | exact .pure _

theorem Runs.vectors (n : VectorNative) (args : List Value) :
    M.within.Runs fun E => n.run E args := by
  rcases args with _ | ⟨a, _ | ⟨b, _ | ⟨c, _ | ⟨d, args⟩⟩⟩⟩ <;> cases n
  case cons.nil.vector => exact .bind (.items a) fun _ => .alloc fun _ => rfl
  case cons.cons.nil.makeVector =>
      exact .bind (.force a) fun count => .bind (.indexArg count) fun _ => .alloc fun _ => rfl
  case cons.cons.nil.aref =>
      refine .bind (.indexArg b) fun i => ?_
      cases a
      case vector | text =>
        refine .bind (.gets _) fun item => ?_
        cases item with
        | some item => exact .pure item
        | none => exact .refuse _
      all_goals exact .refuseOn _ _
  case cons.cons.cons.nil.aset =>
      refine .bind (.force a) fun target => .bind (.force b) fun index => ?_
      refine .bind (.indexArg index) fun i => ?_
      cases target with
      | vector r =>
          refine .bind (.gets _) fun size => ?_
          exact .ite (.bind (.update fun _ => rfl) fun _ => .pure _) (.refuse _)
      | _ => exact .refuseOn _ _
  all_goals exact .mismatch _

theorem Runs.checked (result : Except NumFault Num) :
    M.within.Runs fun _ => NumberNative.checked result := by
  cases result with
  | ok n => exact .pure n
  | error fault => exact .refuse _

theorem Runs.fold (op : Num → Num → Except NumFault Num) (acc : Num) (vs : List Value) :
    M.within.Runs fun _ => NumberNative.fold op acc vs := by
  induction vs generalizing acc with
  | nil => exact .pure _
  | cons v vs ih => exact .bind (.numberArg v) fun n => .bind (.checked _) fun acc => ih acc

theorem Runs.foldList (op : Num → Num → Except NumFault Num) (first : Num) (vs : Value) :
    M.within.Runs fun E => NumberNative.foldList E op first vs :=
  .bind (.items vs) fun items => .bind (.fold op first items) fun _ => .newNumber _

theorem Runs.order (a b : Value) : M.within.Runs fun _ => NumberNative.order a b :=
  .bind (.numberArg a) fun _ => .bind (.numberArg b) fun _ => .pure _

theorem Runs.numbers (n : NumberNative) (args : List Value) :
    M.within.Runs fun E => n.run E args := by
  rcases args with _ | ⟨a, _ | ⟨b, _ | ⟨c, _ | ⟨d, args⟩⟩⟩⟩ <;> cases n
  case cons.nil.add => exact .foldList _ _ _
  case cons.nil.mul => exact .foldList _ _ _
  case cons.nil.float => exact .bind (.numberArg a) fun _ => .pure _
  case cons.nil.truncate =>
      exact .bind (.numberArg a) fun _ => .bind (.checked _) fun _ => .newNumber _
  case cons.cons.nil.sub =>
      exact .bind (.numberArg a) fun _ => .ite (.newNumber _) (.foldList _ _ _)
  case cons.cons.nil.rem =>
      refine .bind (.numberArg a) fun _ => .bind (.numberArg b) fun _ => ?_
      exact .bind (.checked _) fun _ => .newNumber _
  case cons.cons.nil.equal => exact .bind (.order a b) fun _ => .pure _
  case cons.cons.nil.less => exact .bind (.order a b) fun _ => .pure _
  case cons.cons.cons.nil.div =>
      refine .bind (.numberArg a) fun _ => .bind (.numberArg b) fun _ => ?_
      exact .bind (.checked _) fun _ => .foldList _ _ _
  all_goals exact .mismatch _

theorem Runs.control (n : ControlNative) (args : List Value) (env : Env) :
    M.within.Runs fun E => n.run E args env := by
  rcases args with _ | ⟨a, _ | ⟨b, _ | ⟨c, args⟩⟩⟩ <;> cases n
  case cons.nil.eval => exact .eval a none
  case cons.nil.force => exact .pure _
  case cons.cons.nil.apply => exact .apply a b env
  case cons.cons.nil.throwing =>
      exact .bind (.force a) fun _ => .bind (.gets _) fun _ => .bind (.gets _) fun _ => .fail rfl
  all_goals exact .mismatch _

theorem Runs.charsOf (vs : List Value) (reversed : List Char) :
    M.within.Runs fun _ => SequenceNative.charsOf vs reversed := by
  induction vs generalizing reversed with
  | nil => exact .pure _
  | cons v vs ih =>
      unfold SequenceNative.charsOf
      cases SequenceNative.charOf? v with
      | some c => exact ih _
      | none => exact .refuseOn _ _

theorem Runs.sequences (n : SequenceNative) (args : List Value) :
    M.within.Runs fun E => n.run E args := by
  rcases args with _ | ⟨a, _ | ⟨b, _ | ⟨c, args⟩⟩⟩ <;> cases n
  case cons.nil.stringToChar =>
      refine .bind (.textArg a) fun text => ?_
      split <;> exact .pure _
  case cons.nil.numberToString => exact .bind (.numberArg a) fun _ => .alloc fun _ => rfl
  case cons.nil.stringToNumber => exact .bind (.textArg a) fun _ => .newNumber _
  case cons.nil.sequenceToString =>
      have chars : M.within.Runs fun E => (do
          let items ← Native.sequenceArg E a
          let chars ← SequenceNative.charsOf items []
          Eval.alloc (·.newText (String.ofList chars))) :=
        .bind (.sequenceArg a) fun items => .bind (.charsOf items []) fun _ => .alloc fun _ => rfl
      cases a with
      | text r => exact .pure _
      | _ => exact chars
  case cons.nil.sequenceToVector => exact .bind (.sequenceArg a) fun _ => .alloc fun _ => rfl
  case cons.nil.sequenceToList =>
      have list : M.within.Runs fun E => (Native.sequenceArg E a >>= Eval.list) :=
        .bind (.sequenceArg a) fun _ => .list _
      cases a with
      | nil => exact .pure _
      | pair r => exact .pure _
      | _ => exact list
  case cons.cons.nil.stringAppend =>
      exact .bind (.textArg a) fun _ => .bind (.textArg b) fun _ => .alloc fun _ => rfl
  case cons.cons.nil.vectorAppend =>
      cases a with
      | vector r =>
          cases b with
          | vector q => exact .bind (.gets _) fun _ => .alloc fun _ => rfl
          | _ => exact .refuse _
      | _ => exact .refuse _
  case cons.cons.nil.listAppend => exact .bind (.reversedItems a []) fun _ => .consAll _ _
  all_goals
    first
    | exact .mismatch _
    | (cases a <;> first | exact .mismatch _ | (cases b <;> exact .mismatch _))

theorem Runs.vectorsOf (arrays : List (Array Value)) (reversed : List Value) :
    M.Runs fun _ => SystemNative.vectorsOf arrays reversed := by
  induction arrays generalizing reversed with
  | nil => exact .pure _
  | cons a arrays ih => exact .bind (.alloc fun _ => rfl) fun v => ih _

theorem Runs.dumpFrames (env : Env) : M.Runs fun _ => SystemNative.dumpFrames env := by
  refine .bind (.gets _) fun names => .bind (.alloc fun _ => rfl) fun names => ?_
  refine .bind (.gets _) fun frames => ?_
  exact .bind (.vectorsOf frames []) fun frames => .bind (.list _) fun _ => .list _

theorem Runs.system (n : SystemNative) (args : List Value) (env : Env) :
    M.within.Runs fun E => n.run E args env := by
  rcases args with _ | ⟨a, _ | ⟨b, args⟩⟩ <;> cases n
  case nil.dump => exact .dumpFrames env
  case cons.nil.help =>
      refine .bind (.gets _) fun doc => ?_
      cases doc with
      | some doc => exact .bind (.write _) fun _ => .pure _
      | none => exact .pure _
  case cons.nil.exit =>
      have exits : ∀ code, M.within.Runs fun _ => (Eval.halt (.exited code) : Eval Value) :=
        fun code => .halt fun f hf => by cases hf
      refine .bind (.items a) fun items => ?_
      split
      · exact exits 0
      · exact exits _
      · exact .refuseOn _ _
  all_goals exact .mismatch _

/-! ## Scripts -/

/-- A source whose requests are of no interest is closed without a trace. -/
theorem close_unrecorded (reader : Reader) {source : LineSource} (h : source.recorded = false)
    (s : State) : (Feed.own reader source).close s = .ok source.closing s := by
  simp [Feed.close, LineSource.close, State.note, h]

theorem exists_read (feed : Feed) (s : State) :
    ∃ result feed' t, feed.read s = .ok (result, feed') t ∧ s.Leads t ∧
      ∀ c, result = .error c → c.isInput = true := by
  cases feed with
  | own reader source =>
      obtain ⟨result, reader', source', t, hread, ⟨hconfig, hpromises⟩, hinput⟩ :=
        exists_readFrom reader source s
      refine ⟨result, .own reader' source', t, ?_, .of_eq hconfig hpromises, hinput⟩
      rw [Feed.read, bind_of_ok hread]
      rfl
  | console reader =>
      obtain ⟨result, reader', source', t, hread, ⟨hconfig, hpromises⟩, hinput⟩ :=
        exists_readFrom reader s.console s
      refine ⟨result, .console reader', { t with console := source' }, ?_,
        .of_eq hconfig hpromises, hinput⟩
      simp only [Feed.read, readConsole, bind_assoc]
      rw [bind_apply, Eval.gets_apply]
      exact bind_of_ok hread

theorem exists_close (feed : Feed) (s : State) :
    ∃ fault t, feed.close s = .ok fault t ∧ s.Leads t := by
  cases feed with
  | own reader source =>
      simp only [Feed.close, State.note_eq]
      exact ⟨_, _, rfl, .of_eq rfl rfl⟩
  | console reader =>
      simp only [Feed.close, State.note_eq]
      exact ⟨_, _, rfl, .of_eq rfl rfl⟩

theorem isNative_of_isInput {c : Cause} (h : c.isInput = true) : c.isNative = false := by
  cases c with
  | native message => cases h
  | _ => rfl

theorem Runs.readInput : M.Runs fun _ => SmallLisp.readInput := by
  refine .bind (.gets _) fun reader => .after (P := fun p => ∀ c, p.1 = .error c → c.isInput = true)
    (fun s => ?_) fun p hp => .bind (.modify fun _ => .of_eq rfl rfl) fun _ => ?_
  · obtain ⟨result, reader', source', t, hread, ⟨hconfig, hpromises⟩, hinput⟩ :=
      exists_readFrom reader s.console s
    refine ⟨(result, reader'), { t with console := source' }, ?_, .of_eq hconfig hpromises, hinput⟩
    rw [readConsole, bind_apply, Eval.gets_apply]
    exact bind_of_ok hread
  · obtain ⟨c | v, reader'⟩ := p
    · exact .fail (M.raises rfl (isNative_of_isInput (hp c rfl)))
    · exact .pure v

/-- The end of a script: its source is closed, and what ended it is its result. -/
def ending {σ : Type} (p : Except Failure Value × Feed × σ) : Eval Value := do
  let closing ← p.2.1.close
  ofExcept (Script.conclude p.1 closing)

theorem Runs.ending {σ : Type} {result : Except Failure Value}
    (h : ∀ f, result = .error f → M.Allows f) (feed : Feed) (record : σ) :
    M.Runs fun _ => Manner.ending (result, feed, record) := by
  refine .bind (.of_ok (exists_close feed)) fun closing => ?_
  rcases result with f | v
  · exact .refail (h f rfl)
  · cases closing with
    | some fault => exact .refail (.inl (M.raises rfl rfl))
    | none => exact .pure v

theorem Runs.hand {σ : Type} {receiver : Option (Receiver σ)}
    (hr : ∀ r ∈ receiver, ∀ record o, M.Runs fun _ => r.receive record o) (record : σ)
    (o : Except Failure Value) : M.Runs fun _ => Script.hand receiver record o := by
  cases receiver with
  | none => exact .pure record
  | some r => exact hr r rfl record o

/-- What follows a form that came to `o`: the receiver is handed it and the script goes on, or this
ends it. -/
def afterForm {σ : Type} (E : Engine) (receiver : Option (Receiver σ)) (k : Nat) (feed : Feed)
    (record : σ) (last : Value) (o : Except Failure Value) : Eval Value :=
  if Script.goesOn receiver.isSome o then do
    let record ← Script.hand receiver record o
    Script.loop E receiver k feed record (Script.lastValue last [⟨[], o⟩]) >>= ending
  else ending (o, feed, record)

theorem loop_ending {σ : Type} {E : Engine} {receiver : Option (Receiver σ)} {feed feed' : Feed}
    {s t : State} {result : Except Cause Value} (h : feed.read s = .ok (result, feed') t)
    (hform : result ≠ .ok .eof) (k : Nat) (record : σ) (last : Value) :
    (Script.loop E receiver (k + 1) feed record last >>= ending) s =
      (Script.outcome E result >>= afterForm E receiver k feed' record last) t := by
  rw [bind_apply, Script.loop_of_form h hform, ← bind_apply, bind_assoc]
  refine congrArg (fun f => (Script.outcome E result >>= f) t) (funext fun o => ?_)
  unfold afterForm
  split
  · rw [bind_assoc]
  · rw [pure_bind]

/-- A script relays failures if it has no receiver and a source whose requests are of no interest.
-/
theorem Runs.script {σ : Type} (receiver : Option (Receiver σ))
    (hr : ∀ r ∈ receiver, ∀ (M : Manner) record o, M.Runs fun _ => r.receive record o) (k : Nat)
    (feed : Feed) (record : σ) (last : Value)
    (h : M.Relays → receiver = none ∧
      ∃ reader source, feed = .own reader source ∧ source.recorded = false) :
    M.Runs fun E => Script.loop E receiver k feed record last >>= Manner.ending := by
  induction k generalizing M feed record last with
  | zero => exact .congr .exhausted fun E _ => rfl
  | succ k ih =>
      intro s
      obtain ⟨prompts, result, feed₁, s₁, hreads⟩ := feed.exists_reads s
      have hread := hreads.read
      obtain ⟨result', feed', s', hread', hlead, hinput⟩ := exists_read feed s
      rw [hread] at hread'
      cases hread'
      have h₁ : M.Relays → receiver = none ∧
          ∃ reader source, feed₁ = .own reader source ∧ source.recorded = false := by
        intro hrelays
        obtain ⟨hnone, reader, source, rfl, hsource⟩ := h hrelays
        obtain ⟨reader₁, source₁, hfeed, -, hrecorded, -⟩ := hreads.own
        exact ⟨hnone, reader₁, source₁, hfeed, hrecorded.trans hsource⟩
      have hafter : ∀ met o, (∀ f, o = .error f → (M.having met).Allows f) →
          (M.having met).Runs fun E => afterForm E receiver k feed₁ record last o := by
        intro met o ho
        refine .ite (.bind (.hand (fun r hmem => hr r hmem _) record o) fun record => ?_)
          (.ending ho feed₁ record)
        exact ih feed₁ record _ h₁
      by_cases hform : result = .ok .eof
      · subst hform
        have hlast : ∀ f, Except.ok last = .error f → M.Allows f := fun f hf => by cases hf
        exact (Runs.ending hlast feed₁ record s₁).after hlead
          fun E _ => bind_of_ok (Script.loop_of_eof hread k record last)
      have hrest : M.Runs fun E =>
          Script.outcome E result >>= afterForm E receiver k feed₁ record last := by
        rcases result with c | v
        · refine hafter M.Met (.error { cause := c }) fun f hf => ?_
          cases hf
          exact .inl (M.raises rfl (isNative_of_isInput (hinput c rfl)))
        · refine .attempt (.eval v none) (fun v => hafter M.Met (.ok v) fun f hf => by cases hf)
            (fun f met _ hf => hafter met (.error f) fun g hg => ?_) fun hrelays E f t _ => ?_
          · cases hg
            exact hf
          · obtain ⟨rfl, reader₁, source₁, rfl, hsource⟩ := h₁ hrelays
            exact bind_of_ok (close_unrecorded reader₁ hsource t)
      exact (hrest s₁).after hlead fun E _ => loop_ending hread hform k record last

theorem runWith_ending {σ : Type} (E : Engine) (receiver : Option (Receiver σ)) (feed : Feed)
    (record : σ) :
    (Script.runWith E receiver feed record >>= fun p => ofExcept p.1) =
      Script.loop E receiver E.fuel feed record .nil >>= ending := by
  rw [Script.runWith, bind_assoc]
  refine congrArg (Script.loop E receiver E.fuel feed record .nil >>= ·) (funext fun p => ?_)
  obtain ⟨result, feed, record⟩ := p
  simp only [ending, bind_assoc, pure_bind]

theorem Runs.run (source : LineSource) (h : M.Relays → source.recorded = false) :
    M.Runs fun E => Script.run E source := by
  refine (script (none : Option (Receiver Unit)) (fun r hr => by cases hr) M.fuel (.own {} source)
    () .nil fun hr => ⟨rfl, _, _, rfl, h hr⟩).congr fun E hE => ?_
  rw [← hE, ← runWith_ending]
  rfl

theorem recorded_of_folder {folder : Folder} {path : String} {source : LineSource}
    (h : folder.source path = .ok source) : source.recorded = false := by
  unfold Folder.source at h
  split at h <;> cases h <;> rfl

theorem exists_openFile (path : String) (s : State) :
    ∃ opened t, Script.openFile path s = .ok opened t ∧ s.Leads t ∧
      ∀ source, opened = .ok source → source.recorded = false :=
  ⟨_, _, rfl, .of_eq rfl rfl, fun _ h => recorded_of_folder h⟩

theorem Runs.streams (n : StreamNative) (args : List Value) :
    M.within.Runs fun E => n.run E args := by
  rcases args with _ | ⟨a, _ | ⟨b, args⟩⟩ <;> cases n
  case nil.terpri => exact .bind (.write _) fun _ => .pure _
  case nil.read => exact .readInput
  case cons.nil.prin1 => exact .bind (.gets _) fun _ => .bind (.write _) fun _ => .pure _
  case cons.nil.princ => exact .bind (.gets _) fun _ => .bind (.write _) fun _ => .pure _
  case cons.nil.load =>
      refine .bind (.textArg a) fun path => .after (exists_openFile path) fun opened hopened => ?_
      cases opened with
      | ok source => exact .run source fun _ => hopened source rfl
      | error message => exact .refuse _
  all_goals exact .mismatch _

/-! ## One turn -/

theorem Runs.runNative (n : Native) (args : List Value) (env : Env) :
    M.within.Runs fun E => n.run E args env := by
  cases n with
  | lists n => exact .lists n args env
  | tests n => exact .tests n args
  | vectors n => exact .vectors n args
  | streams n => exact .streams n args
  | numbers n => exact .numbers n args
  | control n => exact .control n args env
  | sequences n => exact .sequences n args
  | system n => exact .system n args env

/-- A native lets every failure pass but a refusal, and none of these. -/
theorem Runs.call (n : Native) (args : List Value) (env : Env) :
    M.Runs fun E => n.call E args env := by
  intro s K hK hs
  refine (Dialogue.resume (fun _ => Outcome.ok)
    (fun _ f t => .halt (.failed (n.atBoundary args t f)) t)
    (runNative (M := M) n args env s K hK hs) ?_ ?_ ?_).congr fun E _ => ?_
  · intro a t ht
    exact .done _ (fun _ _ => rfl) ht fun f u hf => by cases hf
  · intro f t met _ hf ht
    refine .done _ (fun _ _ => rfl) ht fun g u hg => ?_
    cases hg
    cases hnative : f.cause.isNative with
    | true =>
        obtain ⟨message, hcause⟩ := Cause.eq_native hnative
        rw [n.atBoundary_of_native args t hcause]
        exact .inl (M.raises rfl rfl)
    | false =>
        rw [n.atBoundary_of_other args t hnative]
        exact hf.imp_left fun hfresh => M.raises hfresh hnative
  · intro _ E f t hf
    rw [n.atBoundary_of_other args t hf]
  · show n.call E args env s = Outcome.resume _ _ (n.run E args env s)
    unfold Native.call Eval.onFailure
    rcases n.run E args env s with ⟨a, t⟩ | ⟨f | code | _, t⟩ <;> rfl

theorem Runs.callStep (head args : Value) (env : Env) :
    M.Runs fun E => E.callStep head args env := by
  refine .bind (.eval head env) fun callee => .bind (.force callee) fun callee => ?_
  cases callee with
  | callable r =>
      refine .bind (.gets _) fun f => ?_
      cases f with
      | closure shape body captured =>
          refine .bind (.makeFrame _ args) fun frame => .bind (.evalFrame shape frame env) ?_
          refine fun frame => .bind (.extend frame captured) fun env => ?_
          exact .bind (.body body env) fun last => .pure _
      | expander shape body => exact .bind (.expandCall _ body args) fun form => .pure _
      | native n =>
          refine .bind (.makeFrame _ args) fun frame => ?_
          have hcall : ∀ frame, M.Runs fun E =>
              n.call E frame env >>= fun v => Pure.pure (Step.done v) :=
            fun frame => .bind (.call n frame env) fun _ => .pure _
          exact .ite (.bind (.evalFrame n.shape frame env) hcall)
            (.bind (.forceFrame n.shape frame env) hcall)
      | template shape body => exact .notApplicable _
  | _ => exact .notApplicable _

theorem Runs.applyList (f args : Value) (env : Env) : M.Runs fun E => E.applyList f args env := by
  refine .bind (.force f) fun f => ?_
  cases f with
  | callable r =>
      refine .bind (.gets _) fun f => ?_
      cases f with
      | native n =>
          have hcall : M.Runs fun E =>
              E.makeFrame (.native n) args >>= fun frame => n.call E frame env :=
            .bind (.makeFrame _ args) fun frame => .call n frame env
          exact .ite (.bind (.forceEach args) fun _ => hcall) hcall
      | closure shape body captured =>
          refine .bind (.makeFrame _ args) fun frame => .bind (.extend frame captured) fun env => ?_
          exact .bind (.body body env) fun last => .eval last env
      | _ => exact .notApplicable _
  | _ => exact .notApplicable _

/-- What precedes the choice between special forms and calls reads the head and the arguments. -/
theorem pairStep_apply (E : Engine) (r : Ref .cell) (env : Env) (s : State) :
    E.pairStep r env s = (do
      let args ← E.cdrCell r
      match s.store.car r with
      | .sym x =>
          if ← Eval.isKeyword x then
            match Special.ofSymbol? x with
            | some form => E.special form (.pair r) args env
            | none =>
                let name ← Eval.nameOf x
                Eval.malformed (.badKeyword name)
          else E.callStep (s.store.car r) args env
      | _ => E.callStep (s.store.car r) args env) s := rfl

/-- A turn of a pair relays failures, unless it is one of the special forms that catch them. -/
theorem RunsFrom.pairStep (r : Ref .cell) (env : Env) (s : State)
    (h : M.Relays → ∀ x form, s.store.car r = .sym x → Special.ofSymbol? x = some form →
      form ≠ .catching ∧ form ≠ .unwindProtect) :
    M.RunsFrom (fun E => E.pairStep r env) s := by
  refine RunsFrom.congr (RunsFrom.bind (Runs.cdrCell r s) fun args => ?_)
    fun E _ => pairStep_apply E r env s
  cases hhead : s.store.car r with
  | sym x =>
      refine .bind (.isKeyword x) fun b => .ite ?_ (.callStep _ args env)
      cases hform : Special.ofSymbol? x with
      | some form => exact .special (fun hr => h hr x form hhead hform) (.pair r) args env
      | none => exact .bind (.nameOf x) fun name => .malformed _
  | _ => exact .callStep _ args env

theorem RunsFrom.step (form : Value) (env : Env) (s : State)
    (h : M.Relays → ∀ r x special, form = .pair r → s.store.car r = .sym x →
      Special.ofSymbol? x = some special → special ≠ .catching ∧ special ≠ .unwindProtect) :
    M.RunsFrom (fun E => E.step form env) s := by
  cases form with
  | sym x =>
      refine Runs.bind (.gets _) (fun v => ?_) s
      cases v with
      | some v => exact .pure _
      | none =>
          refine .bind (.isKeyword x) fun b => .ite (.pure _) ?_
          exact .bind (.nameOf x) fun name => .fail (M.raises rfl rfl)
  | address a =>
      refine Runs.bind (.gets _) (fun v => ?_) s
      cases v with
      | some v => exact .pure _
      | none => exact .failOn _ fun _ => M.raises rfl rfl
  | pair r => exact .pairStep r env s fun hr x special => h hr r x special rfl
  | callable r =>
      refine Runs.bind (.gets _) (fun f => ?_) s
      cases f with
      | template shape body => exact .bind (.alloc fun _ => rfl) fun v => .pure _
      | _ => exact .pure _
  | _ => exact Runs.pure _ s

end Manner

end SmallLisp
