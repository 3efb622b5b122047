import SmallLisp.Proofs.Reading.Scanned
import SmallLisp.Proofs.Simulation.Special

/-!
# Simulated reading and scripts

A form is put into the store by the operations that programs use too, so reading is simulated by
itself, and with it the run of a script.
-/

namespace SmallLisp

/-! ## Putting forms into the store -/

namespace Eval

/-- Putting a form into the store, as a computation. -/
def lower (f : Form) : Eval (Except ReadFault Value) := fun s =>
  let r := f.lower s.store s.symbols
  .ok r.1 { s with store := r.2.1, symbols := r.2.2 }

/-- Putting forms into the store in order, as a computation. -/
def lowerAll (fs : List Form) (values : Array Value) : Eval (Except ReadFault (Array Value)) :=
  fun s =>
    let r := Form.lowerAll s.store s.symbols fs values
    .ok r.1 { s with store := r.2.1, symbols := r.2.2 }

/-- A new pair, or the fault that there is no room for it. -/
def newPair (a d : Value) : Eval (Except ReadFault Value) := fun s =>
  match s.store.cons a d with
  | (some v, store) => .ok (.ok v) { s with store }
  | (none, store) => .ok (.error (.storeFull store.capacity)) { s with store }

/-- A new pair is an attempt to make one. -/
theorem newPair_eq (a d : Value) :
    newPair a d = (do
      match ← attempt (cons a d) with
      | .ok v => pure (.ok v)
      | .error _ => do
          let capacity ← gets (·.store.capacity)
          pure (.error (.storeFull capacity))) := by
  funext s
  simp only [bind_apply, newPair, attempt, cons, allocCells]
  rcases s.store.cons a d with ⟨_ | v, store⟩ <;> rfl

/-- A number that was read is narrow, so keeping it as it is is keeping it narrowed. -/
theorem lower_number {n : Num} (hn : n.normalize = n) :
    lower (.atom (.number n)) = (do
      let v ← alloc (·.newNumber n)
      pure (.ok v)) := by
  funext s
  cases n with
  | big k => simp only [bind_apply, alloc_apply, lower, Form.lower, Store.newNumber, hn, pure_apply]
  | _ => rfl

theorem lower_pair (a b : Form) :
    lower (.pair a b) = (do
      match ← lower b with
      | .error f => pure (.error f)
      | .ok d =>
          match ← lower a with
          | .error f => pure (.error f)
          | .ok c => newPair c d) := by
  funext s
  simp only [bind_apply, lower, Form.lower]
  rcases Form.lower s.store s.symbols b with ⟨_ | d, store, symbols⟩
  · rfl
  · simp only [bind_apply, lower]
    rcases Form.lower store symbols a with ⟨_ | c, store, symbols⟩
    · rfl
    · simp only [newPair]
      rcases store.cons c d with ⟨_ | v, store⟩ <;> rfl

theorem lower_vector (items : List Form) :
    lower (.vector items) = (do
      match ← lowerAll items #[] with
      | .error f => pure (.error f)
      | .ok values => do
          let v ← alloc (·.newVector values)
          pure (.ok v)) := by
  funext s
  simp only [bind_apply, lower, lowerAll, Form.lower]
  rcases Form.lowerAll s.store s.symbols items #[] with ⟨_ | values, store, symbols⟩ <;> rfl

theorem lowerAll_cons (f : Form) (fs : List Form) (values : Array Value) :
    lowerAll (f :: fs) values = (do
      match ← lower f with
      | .error f => pure (.error f)
      | .ok v => lowerAll fs (values.push v)) := by
  funext s
  simp only [bind_apply, lower, lowerAll, Form.lowerAll]
  rcases Form.lower s.store s.symbols f with ⟨_ | v, store, symbols⟩ <;> rfl

end Eval

namespace Simulation

open Eval

variable {G : Guard} (L : Simulation G) {E E' : Engine} {w : G.World}

/-- What was built, if anything, is good. -/
def GoodBuilt (w : G.World) (r : Except ReadFault Value) : Prop := ∀ v, r = .ok v → G.Good w v

theorem newPair {a d : Value} (ha : G.Good w a) (hd : G.Good w d) :
    L.Gives w GoodBuilt (Eval.newPair a d) (Eval.newPair a d) := by
  rw [newPair_eq]
  refine L.bindTwo (L.attempt (L.cons ha hd)) fun w₁ h₁ p q hpq => ?_
  cases p <;> cases q
  · refine L.bind (P := fun _ _ => True) (L.gets (fun _ _ _ => rfl) fun _ _ => trivial)
      fun w₂ h₂ capacity _ => ?_
    exact L.give fun v hv => by cases hv
  · exact hpq.elim
  · exact hpq.elim
  · obtain ⟨rfl, hv⟩ := hpq
    refine L.give fun u hu => ?_
    cases hu
    exact hv

mutual

theorem lower : ∀ {f : Form} {w : G.World}, (∀ a ∈ f.atoms, a.Narrow) →
    L.Gives w GoodBuilt (Eval.lower f) (Eval.lower f)
  | .atom .nil, w, _ => by
      refine L.give (P := GoodBuilt) fun v hv => ?_
      cases hv
      exact G.nil w
  | .atom (.number n), w, hn => by
      rw [lower_number (hn (.number n) (by simp [Form.atoms]))]
      refine L.bind (L.newNumber n) fun w₁ _ v hv => L.give fun u hu => ?_
      cases hu
      exact hv
  | .atom (.text s), w, _ => L.bind (L.newText s) fun w₁ _ v hv =>
      L.give (P := GoodBuilt) fun u hu => by cases hu; exact hv
  | .atom (.sym name), w, _ => by
      have heq : Eval.lower (.atom (.sym name)) =
          Eval.intern name >>= fun x => Pure.pure (.ok (.sym x)) := rfl
      rw [heq]
      refine L.bind (L.intern name) fun w₁ _ x hx => L.give fun u hu => ?_
      cases hu
      exact hx
  | .pair a b, w, hn => by
      rw [lower_pair]
      refine L.bind (lower fun x hx => hn x (by simp [Form.atoms, hx])) fun w₁ h₁ d hd => ?_
      cases d with
      | error f => exact L.give fun v hv => by cases hv
      | ok d =>
          refine L.bind (lower fun x hx => hn x (by simp [Form.atoms, hx])) fun w₂ h₂ c hc => ?_
          cases c with
          | error f => exact L.give fun v hv => by cases hv
          | ok c => exact L.newPair (hc c rfl) (G.good_mono h₂ (hd d rfl))
  | .vector items, w, hn => by
      rw [lower_vector]
      refine L.bind (lowerAll hn (Guard.goodAll_nil w)) fun w₁ h₁ values hvalues => ?_
      cases values with
      | error f => exact L.give fun v hv => by cases hv
      | ok values =>
          refine L.bind (L.newVector (hvalues values rfl)) fun w₂ h₂ v hv => ?_
          exact L.give fun u hu => by cases hu; exact hv
  | .unquote f, w, _ => L.give (P := GoodBuilt) fun v hv => by cases hv
  | .splice f, w, _ => L.give (P := GoodBuilt) fun v hv => by cases hv

theorem lowerAll : ∀ {fs : List Form} {w : G.World} {values : Array Value},
    (∀ a ∈ Form.atomsAll fs, a.Narrow) → G.GoodAll w values.toList →
    L.Gives w (fun w r => ∀ vs, r = .ok vs → G.GoodAll w vs.toList)
      (Eval.lowerAll fs values) (Eval.lowerAll fs values)
  | [], w, values, _, hvalues => by
      refine L.give fun vs hvs => ?_
      cases hvs
      exact hvalues
  | f :: fs, w, values, hn, hvalues => by
      rw [lowerAll_cons]
      refine L.bind (lower fun x hx => hn x (by simp [Form.atomsAll, hx])) fun w₁ h₁ v hv => ?_
      cases v with
      | error f => exact L.give fun v hv => by cases hv
      | ok v =>
          refine lowerAll (fun x hx => hn x (by simp [Form.atomsAll, hx])) ?_
          simp only [Array.toList_push, Guard.GoodAll, List.mem_append, List.mem_singleton]
          rintro u (hu | rfl)
          · exact G.good_mono h₁ (hvalues u hu)
          · exact hv u rfl

end

end Simulation

/-! ## Reading -/

/-- The requests noted, with those made of a source added if they are of interest. -/
def LineSource.addedTo (source : LineSource) (requests : Array Request) : Array Request :=
  if source.recorded then requests ++ source.requests.reverse.toArray else requests

theorem State.note_eq (s : State) (source : LineSource) :
    s.note source =
      ({ s with requests := source.addedTo s.requests }, { source with requests := [] }) := by
  unfold State.note LineSource.addedTo
  split <;> rfl

namespace Eval

/-- What a reading leaves behind, once its form is built: the requests it made are noted. -/
def noted (result : Except Cause Value) (reader : Reader) (source : LineSource) :
    Eval (Except Cause Value × Reader × LineSource) := fun s =>
  let r := s.note source
  .ok (result, reader, r.2) r.1

/-- Reading is finding a form in the text and then building it. -/
theorem readFrom_eq (reader : Reader) (source : LineSource) :
    readFrom reader source =
      match Reader.readForm [] reader.prepared source with
      | (.ok none, scanner, source) => noted (.ok .eof) ⟨scanner, false⟩ source
      | (.ok (some f), scanner, source) => do
          match ← lower f with
          | .ok v => noted (.ok v) ⟨scanner, false⟩ source
          | .error f => noted (.error (scanner.fault f)) ⟨scanner, true⟩ source
      | (.error c, scanner, source) => noted (.error c) ⟨scanner, !c.stopsScript⟩ source := by
  funext s
  unfold readFrom Reader.read
  rcases Reader.readForm [] reader.prepared source with ⟨c | _ | f, scanner, source⟩
  · rfl
  · rfl
  · simp only [bind_apply, lower]
    rcases f.lower s.store s.symbols with ⟨_ | v, store, symbols⟩ <;> rfl

end Eval

/-- What reading can fail for. -/
def Cause.isInput : Cause → Bool
  | .unreadable .. | .io _ => true
  | _ => false

theorem Scanner.isInput_next {sc sc' : Scanner} {src src' : LineSource} {c : Cause}
    (h : sc.next src = (.error c, sc', src')) : c.isInput = true := by
  unfold Scanner.next at h
  split at h
  · split at h
    · simp at h
    · simp only [Prod.mk.injEq, Except.error.injEq] at h
      rw [← h.1]
      rfl
  · simp at h
  · simp only [Prod.mk.injEq, Except.error.injEq] at h
    rw [← h.1]
    rfl

theorem Reader.isInput_readForm {stack : List Pending} {sc sc' : Scanner}
    {src src' : LineSource} {c : Cause} (h : readForm stack sc src = (.error c, sc', src')) :
    c.isInput = true := by
  fun_induction readForm stack sc src with
  | case1 stack sc src cause sc₁ src₁ hnext =>
      cases h
      exact Scanner.isInput_next hnext
  | case2 => simp at h
  | case3 =>
      cases h
      rfl
  | case4 => simp at h
  | case5 =>
      cases h
      rfl
  | case6 stack sc src t sc₁ src₁ hnext stack' hfeed ih => exact ih h

namespace Store

theorem promises_cons (s : Store) (a d : Value) : (s.cons a d).2.promises = s.promises := by
  unfold cons
  split <;> rfl

theorem promises_consAll (s : Store) (reversed : List Value) (tail : Value) :
    (s.consAll reversed tail).2.promises = s.promises := by
  induction reversed generalizing s tail with
  | nil => rfl
  | cons v reversed ih =>
      have hcons := s.promises_cons v tail
      rw [consAll]
      rcases hc : s.cons v tail with ⟨_ | pair, t⟩ <;> rw [hc] at hcons
      · exact hcons
      · exact (ih t pair).trans hcons

end Store

namespace Form

mutual

/-- Building a form makes no promise and delivers none. -/
theorem promises_lower : ∀ (f : Form) (store : Store) (symbols : SymbolTable),
    (f.lower store symbols).2.1.promises = store.promises
  | .atom .nil, _, _ => by rw [lower]
  | .atom (.number (.small n)), _, _ => by rw [lower]
  | .atom (.number (.double x)), _, _ => by rw [lower]
  | .atom (.number (.big n)), _, _ => by rw [lower]; rfl
  | .atom (.text s), _, _ => by rw [lower]; rfl
  | .atom (.sym name), _, _ => by rw [lower]
  | .pair a b, store, symbols => by
      have hcdr := promises_lower b store symbols
      rw [lower]
      rcases hb : b.lower store symbols with ⟨fault | d, store₁, symbols₁⟩ <;> rw [hb] at hcdr
      · exact hcdr
      have hcar := (promises_lower a store₁ symbols₁).trans hcdr
      dsimp only
      rcases ha : a.lower store₁ symbols₁ with ⟨fault | c, store₂, symbols₂⟩ <;> rw [ha] at hcar
      · exact hcar
      have hpair := (store₂.promises_cons c d).trans hcar
      dsimp only
      rcases hc : store₂.cons c d with ⟨_ | v, store₃⟩ <;> rw [hc] at hpair <;> exact hpair
  | .vector items, store, symbols => by
      have hitems := promises_lowerAll items store symbols #[]
      rw [lower]
      rcases hall : lowerAll store symbols items #[] with ⟨fault | values, store₁, symbols₁⟩ <;>
        rw [hall] at hitems <;> exact hitems
  | .unquote _, _, _ => by rw [lower]
  | .splice _, _, _ => by rw [lower]

theorem promises_lowerAll : ∀ (fs : List Form) (store : Store) (symbols : SymbolTable)
    (values : Array Value), (lowerAll store symbols fs values).2.1.promises = store.promises
  | [], _, _, _ => by rw [lowerAll]
  | f :: fs, store, symbols, values => by
      have hfirst := promises_lower f store symbols
      rw [lowerAll]
      rcases hf : f.lower store symbols with ⟨fault | v, store₁, symbols₁⟩ <;> rw [hf] at hfirst
      · exact hfirst
      · exact (promises_lowerAll fs store₁ symbols₁ (values.push v)).trans hfirst

end

end Form

/-- Reading ends well, and does nothing about promises. What it reads, if that is no form, it takes
for a fault of the input. -/
theorem Eval.exists_readFrom (reader : Reader) (source : LineSource) (s : State) :
    ∃ result reader' source' t, SmallLisp.readFrom reader source s =
        .ok (result, reader', source') t ∧
      (t.config = s.config ∧ t.store.promises = s.store.promises) ∧
      ∀ c, result = .error c → c.isInput = true := by
  rw [readFrom_eq]
  rcases hf : Reader.readForm [] reader.prepared source with ⟨c | _ | f, scanner, source'⟩
  · refine ⟨.error c, _, _, _, rfl, by simp [State.note_eq], fun c' hc => ?_⟩
    cases hc
    exact Reader.isInput_readForm hf
  · exact ⟨.ok .eof, _, _, _, rfl, by simp [State.note_eq], fun c' hc => by cases hc⟩
  · have hpromises := f.promises_lower s.store s.symbols
    simp only [bind_apply, lower]
    rcases hl : f.lower s.store s.symbols with ⟨fault | v, store, symbols⟩ <;>
      rw [hl] at hpromises
    · refine ⟨_, _, _, _, rfl, by simpa [State.note_eq] using hpromises, fun c' hc => ?_⟩
      cases hc
      rfl
    · exact ⟨_, _, _, _, rfl, by simpa [State.note_eq] using hpromises, fun c' hc => by cases hc⟩

namespace Simulation

open Eval

variable {G : Guard} (L : Simulation G) {E E' : Engine} {w : G.World}

theorem goodCause_of_isInput {c : Cause} (h : c.isInput = true) : G.GoodCause w c := by
  cases c with
  | thrown tag v text => simp [Cause.isInput] at h
  | _ => trivial

/-- What was read is good. -/
def GoodRead (w : G.World) : Except Cause Value → Prop
  | .ok v => G.Good w v
  | .error c => G.GoodCause w c

theorem GoodRead.mono {w' : G.World} {result : Except Cause Value} (hw : w ≤ w')
    (h : GoodRead w result) : GoodRead w' result := by
  cases result with
  | ok v => exact G.good_mono hw h
  | error c =>
      cases c with
      | thrown tag v text => exact ⟨G.good_mono hw h.1, G.good_mono hw h.2⟩
      | _ => trivial

theorem setConsole (console : LineSource) :
    L.Gives w (fun _ _ => True) (Eval.modify fun s => { s with console })
      (Eval.modify fun s => { s with console }) := by
  intro s t hst
  obtain ⟨w', hw, hst', -⟩ :=
    L.step_outside s.sink console s.reader s.requests s.opened hst
  obtain ⟨fs, cells, rfl, -⟩ := L.sees hst
  exact ⟨w', hw, hst', rfl, trivial⟩

theorem setReader (reader : Reader) :
    L.Gives w (fun _ _ => True) (Eval.modify fun s => { s with reader })
      (Eval.modify fun s => { s with reader }) := by
  intro s t hst
  obtain ⟨w', hw, hst', -⟩ :=
    L.step_outside s.sink s.console reader s.requests s.opened hst
  obtain ⟨fs, cells, rfl, -⟩ := L.sees hst
  exact ⟨w', hw, hst', rfl, trivial⟩

theorem noted (result : Except Cause Value) (h : GoodRead w result) (reader : Reader)
    (source : LineSource) :
    L.Gives w (fun w p => GoodRead w p.1) (Eval.noted result reader source)
      (Eval.noted result reader source) := by
  intro s t hst
  obtain ⟨w', hw, hst', -⟩ :=
    L.step_outside s.sink s.console s.reader (source.addedTo s.requests) s.opened hst
  obtain ⟨fs, cells, rfl, -⟩ := L.sees hst
  unfold Eval.noted
  rw [State.note_eq, State.note_eq]
  exact ⟨w', hw, hst', rfl, GoodRead.mono hw h⟩

theorem readFrom (reader : Reader) (source : LineSource) :
    L.Gives w (fun w p => GoodRead w p.1) (SmallLisp.readFrom reader source)
      (SmallLisp.readFrom reader source) := by
  rw [readFrom_eq]
  rcases hf : Reader.readForm [] reader.prepared source with ⟨c | _ | f, scanner, source⟩
  · exact L.noted (.error c) (goodCause_of_isInput (Reader.isInput_readForm hf)) _ _
  · exact L.noted (.ok .eof) (G.eof w) _ _
  · have hscanned := Reader.scanned_readForm Parser.scanned_nil hf
    refine L.bind (L.lower fun a ha => (hscanned a ha).narrow) fun w₁ h₁ r hr => ?_
    cases r with
    | error f => exact L.noted (.error (scanner.fault f)) trivial _ _
    | ok v => exact L.noted (.ok v) (hr v rfl) _ _

theorem readConsole (reader : Reader) :
    L.Gives w (fun w p => GoodRead w p.1) (SmallLisp.readConsole reader)
      (SmallLisp.readConsole reader) := by
  unfold SmallLisp.readConsole
  refine L.bind (P := fun _ _ => True) (L.gets (fun _ _ _ => rfl) fun _ _ => trivial)
    fun w₁ h₁ source _ => ?_
  refine L.bind (L.readFrom reader source) fun w₂ h₂ p hp => ?_
  refine L.bind (L.setConsole p.2.2) fun w₃ h₃ _ _ => ?_
  exact L.give (GoodRead.mono h₃ hp)

theorem readInput : L.Gives w G.Good SmallLisp.readInput SmallLisp.readInput := by
  unfold SmallLisp.readInput
  refine L.bind (P := fun _ _ => True) (L.gets (fun _ _ _ => rfl) fun _ _ => trivial)
    fun w₁ h₁ reader _ => ?_
  refine L.bind (L.readConsole reader) fun w₂ h₂ p hp => ?_
  refine L.bind (L.setReader p.2) fun w₃ h₃ _ _ => ?_
  obtain ⟨result, reader⟩ := p
  cases result with
  | ok v => exact L.give (G.good_mono h₃ hp)
  | error c => exact L.fail (GoodRead.mono h₃ hp)

/-! ## Scripts -/

theorem read (feed : Feed) :
    L.Gives w (fun w p => GoodRead w p.1) feed.read feed.read := by
  cases feed with
  | own reader source =>
      exact L.bind (L.readFrom reader source) fun _ _ _ hp => L.give hp
  | console reader =>
      exact L.bind (L.readConsole reader) fun _ _ _ hp => L.give hp

theorem close (feed : Feed) : L.Gives w (fun _ _ => True) feed.close feed.close := by
  intro s t hst
  cases feed with
  | own reader source =>
      obtain ⟨w', hw, hst', -⟩ := L.step_outside s.sink s.console s.reader
        (source.close.2.addedTo s.requests) s.opened hst
      obtain ⟨fs, cells, rfl, -⟩ := L.sees hst
      unfold Feed.close
      dsimp only
      rw [State.note_eq, State.note_eq]
      exact ⟨w', hw, hst', rfl, trivial⟩
  | console reader =>
      obtain ⟨w', hw, hst', -⟩ := L.step_outside s.sink
        { s.console.close.2 with requests := [] } s.reader
        (s.console.close.2.addedTo s.requests) s.opened hst
      obtain ⟨fs, cells, rfl, -⟩ := L.sees hst
      unfold Feed.close
      dsimp only
      rw [State.note_eq, State.note_eq]
      exact ⟨w', hw, hst', rfl, trivial⟩

/-- What ended a form of a script in the two runs. -/
abbrev Outcomes (w : G.World) (a b : Except Failure Value) : Prop :=
  L.Caught (fun w a b => b = a ∧ G.Good w a) w a b

theorem outcome (hE : L.Engines E E') {result : Except Cause Value} (h : GoodRead w result) :
    L.Alike w L.Outcomes (Script.outcome E result) (Script.outcome E' result) := by
  cases result with
  | ok form => exact L.attempt (hE.eval h (G.top w))
  | error c => exact L.pure (L.fault_new h)

/-- The receiver keeps the same record in both runs. -/
def Listens {σ : Type} (receiver : Option (Receiver σ)) : Prop :=
  ∀ r ∈ receiver, ∀ w record a b, L.Outcomes w a b →
    L.Gives w (fun _ _ => True) (r.receive record a) (r.receive record b)

/-- How the runs of two scripts compare. -/
def Ended {σ : Type} (w : G.World) (a b : Except Failure Value × Feed × σ) : Prop :=
  L.Outcomes w a.1 b.1 ∧ b.2 = a.2

theorem loop {σ : Type} {receiver : Option (Receiver σ)} (hE : L.Engines E E')
    (hr : L.Listens receiver) {n m : Nat} (hn : n ≤ m) (feed : Feed) (record : σ)
    {last : Value} (hlast : G.Good w last) :
    L.Alike w L.Ended (Script.loop E receiver n feed record last)
      (Script.loop E' receiver m feed record last) := by
  induction n generalizing m feed record last w with
  | zero => exact L.exhausted _
  | succ n ih =>
      obtain ⟨m, rfl, hm⟩ := step_left hn
      rw [Script.loop, Script.loop]
      refine L.bind (L.read feed) fun w₁ h₁ p hp => ?_
      obtain ⟨result, feed⟩ := p
      by_cases heof : result = .ok .eof
      · subst heof
        exact L.pure ⟨⟨rfl, G.good_mono h₁ hlast⟩, rfl⟩
      · have houtcome := L.outcome hE hp
        rcases result with c | v
        on_goal 2 => cases v
        case neg.ok.eof => exact absurd rfl heof
        all_goals
          refine L.bindTwo houtcome fun w₂ h₂ a b hab => ?_
          have hlast := G.good_mono (h₁.trans h₂) hlast
          rcases receiver with _ | r
          · cases a <;> cases b
            · exact L.pure ⟨hab, rfl⟩
            · exact hab.elim
            · exact hab.elim
            · obtain ⟨rfl, hv⟩ := hab
              exact ih hm feed record hv
          · have hreceive := hr r rfl w₂ record a b hab
            cases a <;> cases b
            · dsimp only
              rw [(L.fault_cause hab).1]
              split
              · exact L.pure ⟨hab, rfl⟩
              · exact L.bind hreceive fun w₃ h₃ record _ => ih hm feed record (G.good_mono h₃ hlast)
            · exact hab.elim
            · exact hab.elim
            · obtain ⟨rfl, hv⟩ := hab
              exact L.bind hreceive fun w₃ h₃ record _ => ih hm feed record (G.good_mono h₃ hv)

theorem conclude {a b : Except Failure Value} (closing : Option SourceFault)
    (h : L.Outcomes w a b) :
    L.Outcomes w (Script.conclude a closing) (Script.conclude b closing) := by
  cases a <;> cases b
  · exact h
  · exact h.elim
  · exact h.elim
  · cases closing with
    | none => exact h
    | some fault => exact L.fault_new trivial

theorem runWith {σ : Type} {receiver : Option (Receiver σ)} (hE : L.Engines E E')
    (hr : L.Listens receiver) (feed : Feed) (record : σ) :
    L.Alike w (fun w a b => L.Outcomes w a.1 b.1)
      (Script.runWith E receiver feed record) (Script.runWith E' receiver feed record) := by
  unfold Script.runWith
  refine L.bindTwo (L.loop hE hr hE.fuel feed record (G.nil w)) fun w₁ h₁ a b hab => ?_
  obtain ⟨a, _⟩ := a
  obtain ⟨b, rest⟩ := b
  obtain ⟨hcaught, rfl⟩ := hab
  refine L.bind (L.close rest.1) fun w₂ h₂ closing _ => L.pure (L.conclude closing ?_)
  exact L.caught_mono h₂ (fun hv => ⟨hv.1, G.good_mono h₂ hv.2⟩) hcaught

theorem run (hE : L.Engines E E') (source : LineSource) :
    L.Gives w G.Good (Script.run E source) (Script.run E' source) := by
  unfold Script.run
  have hnone : L.Listens (none : Option (Receiver Unit)) := fun r hr => by cases hr
  refine L.bindTwo (L.runWith hE hnone (.own {} source) ()) fun w₁ h₁ a b hab => ?_
  exact L.ofExcept hab

theorem openFile (path : String) :
    L.Gives w (fun _ _ => True) (Script.openFile path) (Script.openFile path) := by
  intro s t hst
  obtain ⟨w', hw, hst', -⟩ :=
    L.step_outside s.sink s.console s.reader s.requests (path :: s.opened) hst
  obtain ⟨fs, cells, rfl, -⟩ := L.sees hst
  exact ⟨w', hw, hst', rfl, trivial⟩

end Simulation

end SmallLisp
