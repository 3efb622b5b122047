import SmallLisp.Proofs.Compiler.Termination
import SmallLisp.Proofs.Compiler.Alike
import SmallLisp.Proofs.Unwinding.Reaching

/-!
# Evaluations that spare the text

The compiler asks for evaluations when it expands a macro call or meets a promised tail. Such an
evaluation spares the text if it leaves alone the cells and callables that there are, and with them
what denotes a macro. Where all evaluations that are asked for do so, the pass that asked for them
does so too, but for the promised tails that it has forced.

To have this at every step of a pass, the pass is run with an engine that leaves the program rather
than give the value of an evaluation that does not spare the text. Nothing in the compiler stops an
exit, so a pass that gives a value with this engine gives it with the evaluator's own.
-/

namespace SmallLisp

open Eval

/-! ## Later states -/

/-- The later store still has the cells of the earlier one, but for tails that were promised, and
its callables. -/
structure Store.KeepsText (a b : Store) : Prop where
  cells : ∀ r c, a.cell? r = some c →
    ∃ d, b.cell? r = some ⟨c.car, d⟩ ∧ (c.cdr.isPromise = false → d = c.cdr)
  callables : a.KeepsCallables b

namespace Store.KeepsText

variable {a b c : Store}

theorem of_keeps (hcells : a.KeepsCells b) (hcallables : a.KeepsCallables b) : a.KeepsText b :=
  ⟨fun r c hr => ⟨c.cdr, hcells r c hr, fun _ => rfl⟩, hcallables⟩

theorem trans (h : a.KeepsText b) (h' : b.KeepsText c) : a.KeepsText c where
  cells r x hr := by
    obtain ⟨d, hb, hd⟩ := h.cells r x hr
    obtain ⟨e, hc, he⟩ := h'.cells r _ hb
    refine ⟨e, hc, fun hx => ?_⟩
    obtain rfl := hd hx
    exact he hx
  callables i f hi := h'.callables i f (h.callables i f hi)

/-- A list whose tails are not promised stays one. -/
theorem chain (h : a.KeepsText b) {xs : List Value} {v : Value} (hv : a.Chain xs .nil v) :
    b.Chain xs .nil v := by
  induction xs generalizing v with
  | nil => exact hv
  | cons x xs ih =>
      obtain ⟨r, d, rfl, hr, hd⟩ := hv
      obtain ⟨e, hb, he⟩ := h.cells r _ hr
      obtain rfl := he (hd.isPromise rfl)
      exact ⟨r, e, rfl, hb, ih hd⟩

/-- A tail may be overwritten if it was promised. -/
theorem setCdr (h : a.KeepsText b) {r : Ref .cell} {v : Value} (hr : (a.cdr r).isPromise = true) :
    a.KeepsText (b.setCdr r v) where
  cells q c hq := by
    obtain ⟨d, hb, hd⟩ := h.cells q c hq
    by_cases hrq : r = q
    · subst hrq
      rw [cdr_of_cell? hq] at hr
      refine ⟨v, ?_, fun hc => by rw [hr] at hc; cases hc⟩
      rw [cell?] at hb
      simp only [cell?, Store.setCdr, Array.getElem?_modify, hb]
      rfl
    · have hindex : r.index ≠ q.index := fun heq => hrq (by cases r; cases q; simp_all)
      refine ⟨d, ?_, hd⟩
      rw [cell?] at hb
      simp only [cell?, Store.setCdr, Array.getElem?_modify, hindex, if_false, hb]
  callables := h.callables

end Store.KeepsText

/-- The same values denote the same macros if the globals are the same and so are the macros among
the callables. -/
theorem State.expander?_congr {s t : State} (hglobals : t.globals = s.globals)
    (h : ∀ r, (t.store.callable r).expander? = (s.store.callable r).expander?) (x : Value) :
    t.expander? x = s.expander? x := by
  cases x with
  | sym x =>
      simp only [State.expander?, State.global?, hglobals]
      split
      · exact h _
      · rfl
  | callable r => exact h r
  | _ => rfl

/-- The later state still has the text of the earlier one, and the same values denote the same
macros. -/
structure State.Spares (s t : State) : Prop where
  text : s.store.KeepsText t.store
  macros : ∀ x, t.expander? x = s.expander? x

namespace State.Spares

variable {s t u : State}

/-- What changes neither cells nor callables nor globals changes nothing of the text. -/
theorem of_same (hcells : t.store.cells = s.store.cells)
    (hcallables : t.store.callables = s.store.callables) (hglobals : t.globals = s.globals) :
    s.Spares t where
  text := .of_keeps (fun r c h => by rwa [Store.cell?, hcells]) fun i f h => by rwa [hcallables]
  macros := State.expander?_congr hglobals fun r => by rw [Store.callable, hcallables]; rfl

theorem refl (s : State) : s.Spares s := .of_same rfl rfl rfl

theorem trans (h : s.Spares t) (h' : t.Spares u) : s.Spares u :=
  ⟨h.text.trans h'.text, fun x => (h'.macros x).trans (h.macros x)⟩

/-- A new callable does no harm, unless it is a macro. -/
theorem newCallable (s : State) {f : Callable} (hf : f.expander? = none) :
    s.Spares { s with store := (s.store.newCallable f).2 } where
  text := .of_keeps (.refl _) (s.store.keepsCallables_newCallable f)
  macros := State.expander?_congr rfl fun r => by
    simp only [Store.newCallable, Store.callable, Array.getD_eq_getD_getElem?, Array.getElem?_push]
    split
    · rename_i hr
      rw [hr, Array.getElem?_eq_none (Nat.le_refl _)]
      exact hf
    · rfl

theorem of_addsCells (h : s.store.AddsCells t.store) (ht : t = { s with store := t.store }) :
    s.Spares t where
  text := .of_keeps h.keeps (by rw [h.rest]; exact fun _ _ h => h)
  macros := State.expander?_congr (by rw [ht]) fun r => by rw [h.rest]; rfl

theorem setCdr (h : s.Spares t) {r : Ref .cell} {v : Value}
    (hr : (s.store.cdr r).isPromise = true) :
    s.Spares { t with store := t.store.setCdr r v } where
  text := h.text.setCdr hr
  macros x := by
    rw [← h.macros x]
    cases x <;> rfl

theorem expands_iff (h : s.Spares t) (x : Value) : t.Expands x ↔ s.Expands x := by
  rw [← not_iff_not, ← State.expander?_eq_none, h.macros, State.expander?_eq_none]

end State.Spares

/-! ## Computations that spare the text -/

/-- The computation spares the text wherever it gives a value. -/
def Eval.Sparing {α : Type} (x : Eval α) : Prop := ∀ s a t, x s = .ok a t → s.Spares t

/-- So does every evaluation that the engine answers. -/
def Engine.Sparing (E : Engine) : Prop := ∀ b, (E.perform b).Sparing

namespace Eval.Sparing

variable {α β : Type} {E : Engine}

theorem of_same {x : Eval α} (h : ∀ s a t, x s = .ok a t → t = s) : x.Sparing := by
  intro s a t hx
  rw [h s a t hx]
  exact .refl s

theorem pure (a : α) : (Pure.pure a : Eval α).Sparing := .of_same fun s _ _ h => by cases h; rfl

theorem gets (f : State → α) : (Eval.gets f).Sparing := .of_same fun s _ _ h => by cases h; rfl

theorem of_not_ok {x : Eval α} (h : ∀ s a t, x s ≠ .ok a t) : x.Sparing :=
  fun s a t hx => absurd hx (h s a t)

theorem halt (h : Halt) : (Eval.halt h : Eval α).Sparing := .of_not_ok (by simp)

theorem failOn (v : Value) (cause : String → Cause) : (Eval.failOn v cause : Eval α).Sparing :=
  .of_not_ok (by simp [failOn_apply])

theorem bind {x : Eval α} {f : α → Eval β} (hx : x.Sparing) (hf : ∀ a, (f a).Sparing) :
    (x >>= f).Sparing := by
  intro s b u h
  obtain ⟨a, t, hxa, hfa⟩ := bind_eq_ok.1 h
  exact (hx s a t hxa).trans (hf a t b u hfa)

theorem ite {p : Prop} [Decidable p] {x y : Eval α} (hx : x.Sparing) (hy : y.Sparing) :
    (if p then x else y).Sparing := by
  split
  · exact hx
  · exact hy

theorem consAll (reversed : List Value) (tail : Value) : (Eval.consAll reversed tail).Sparing := by
  intro s v t h
  obtain ⟨hadd, ht, -⟩ := consAll_eq_ok h
  exact .of_addsCells hadd ht

theorem extend (slots : List Value) (next : Env) : (Eval.extend slots next).Sparing := by
  intro s env t h
  cases h
  exact .of_same rfl rfl rfl

theorem car (r : Ref .cell) : (Eval.car r).Sparing := .gets _

theorem cdr (r : Ref .cell) : (Eval.cdr r).Sparing := .gets _

/-! ### Promises and lists -/

theorem force (hE : E.Sparing) (v : Value) : (E.force v).Sparing := by
  cases v with
  | promise r => exact hE (.deliver r)
  | _ => exact .pure _

/-- A tail is overwritten only if it was promised. -/
theorem cdrCell (hE : E.Sparing) (r : Ref .cell) : (E.cdrCell r).Sparing := by
  intro s w t h
  unfold Engine.cdrCell at h
  rw [bind_of_ok (cdr_apply r s)] at h
  cases htail : s.store.cdr r with
  | promise p =>
      rw [htail] at h
      obtain ⟨v, u, hdeliver, h⟩ := bind_eq_ok.1 h
      obtain ⟨_, u', hset, h⟩ := bind_eq_ok.1 h
      have hu := (hE (.deliver p) s v u hdeliver).setCdr (v := v) (by rw [htail]; rfl)
      cases hset
      cases v with
      | nil => cases h; exact hu
      | pair q => cases h; exact hu
      | _ => simp [failOn_apply] at h
  | nil => rw [htail] at h; cases h; exact .refl s
  | pair q => rw [htail] at h; cases h; exact .refl s
  | _ => simp [htail, failOn_apply] at h

theorem mapItems (hE : E.Sparing) {f : Value → Eval Value} (hf : ∀ v, (f v).Sparing) (k : Nat)
    (v : Value) (reversed : List Value) : (E.mapItems f k v reversed).Sparing := by
  induction k generalizing v reversed with
  | zero =>
      cases v with
      | nil => exact .pure _
      | pair r => exact .halt _
      | _ => exact .failOn _ _
  | succ k ih =>
      cases v with
      | nil => exact .pure _
      | pair r =>
          refine .bind (.car r) fun item => .bind (hf item) fun v => ?_
          exact .bind (.cdrCell hE r) fun next => ih next _
      | _ => exact .failOn _ _

theorem mapList (hE : E.Sparing) {f : Value → Eval Value} (hf : ∀ v, (f v).Sparing) (v : Value) :
    (E.mapList f v).Sparing :=
  .bind (.mapItems hE hf E.fuel v []) fun reversed => .consAll reversed .nil

/-! ### Calls of macros -/

theorem sequenceWithin (hE : E.Sparing) (env : Env) (k : Nat) (v last : Value) :
    (E.sequenceWithin env k v last).Sparing := by
  induction k generalizing v last with
  | zero =>
      cases v with
      | pair r => exact .halt _
      | _ => exact .pure _
  | succ k ih =>
      cases v with
      | pair r =>
          refine .bind (.car r) fun form => .bind (hE (.eval form env)) fun v => ?_
          exact .bind (.cdrCell hE r) fun next => ih next v
      | _ => exact .pure _

theorem takeItems (hE : E.Sparing) (count : Nat) (v : Value) (reversed : List Value) :
    (E.takeItems count v reversed).Sparing := by
  induction count generalizing v reversed with
  | zero => exact .pure _
  | succ count ih =>
      cases v with
      | pair r =>
          refine .bind (.car r) fun item => .bind (.cdr r) fun tail => ?_
          exact .bind (.force hE tail) fun rest => ih rest _
      | _ => exact .pure _

theorem makeFrame (hE : E.Sparing) (f : Callable) (args : Value) :
    (E.makeFrame f args).Sparing := by
  refine .bind (.takeItems hE f.shape.required args []) fun taken => ?_
  rcases taken with _ | ⟨reversed, rest⟩
  · exact .halt _
  · exact .ite (.ite (.pure _) (.halt _)) (.ite (.pure _) (.halt _))

theorem expandCall (hE : E.Sparing) (f : Callable) (body args : Value) :
    (E.expandCall f body args).Sparing :=
  .bind (.makeFrame hE f args) fun frame => .bind (.extend frame none) fun env =>
    .sequenceWithin hE env E.fuel body .nil

/-! ### Parameters and addresses -/

theorem parameterOf (v : Value) : (Engine.parameterOf v).Sparing := by
  refine .of_same fun s p t h => ?_
  rcases Engine.parameterOf_cases v s with ⟨q, hq⟩ | ⟨f, hf⟩
  · rw [hq] at h
    cases h
    rfl
  · rw [hf] at h
    cases h

theorem parametersWithin (hE : E.Sparing) (k : Nat) (v : Value) (ps : Parameters) :
    (E.parametersWithin k v ps).Sparing := by
  induction k generalizing v ps with
  | zero =>
      cases v with
      | pair r => exact .halt _
      | _ => exact .pure _
  | succ k ih =>
      cases v with
      | pair r =>
          refine .bind (.car r) fun item => .bind (.cdrCell hE r) fun next => ?_
          refine .ite (.failOn _ _) (.ite ?_ ?_)
          · cases next with
            | pair q =>
                refine .bind (.car q) fun item => .bind (.cdrCell hE q) fun next => ?_
                exact .ite (.halt _) (.bind (.parameterOf item) fun p => ih next _)
            | _ => exact .halt _
          · exact .bind (.parameterOf item) fun p => ih next _
      | _ => exact .pure _

theorem resolve (hE : E.Sparing) (ps : Parameters) (k : Nat) (v : Value) :
    (E.resolve ps k v).Sparing := by
  induction k generalizing v with
  | zero =>
      cases v with
      | pair r => exact .halt _
      | _ => exact .pure _
  | succ k ih =>
      cases v with
      | pair r => exact .bind (.car r) fun head => .ite (.pure _) (.mapList hE ih (.pair r))
      | _ => exact .pure _

/-! ### The passes -/

theorem prepare (hE : E.Sparing) (r : Ref .cell) : (E.prepare r).Sparing := by
  refine .bind (.car r) fun head => .bind ?_ fun ps => .bind (.cdrCell hE r) fun forms => ?_
  · exact .ite (.parametersWithin hE E.fuel head {}) (.failOn _ _)
  · exact .bind (.resolve hE ps E.fuel forms) fun forms => .pure _

theorem expandMacros (hE : E.Sparing) (k allowed : Nat) (v : Value) :
    (E.expandMacros k allowed v).Sparing := by
  induction k generalizing allowed v with
  | zero =>
      cases v with
      | pair r => exact .halt _
      | _ => exact .pure _
  | succ k ih =>
      cases v with
      | pair r =>
          refine .bind (.car r) fun head => .ite (.pure _) (.bind (fun s a t h => ?_) ?_)
          · rw [Engine.expander?_apply] at h
            cases h
            exact .refl s
          rintro (_ | ⟨f, body⟩)
          · exact .mapList hE (ih allowed) (.pair r)
          · cases allowed with
            | zero => exact .failOn _ _
            | succ allowed =>
                refine .bind (.cdrCell hE r) fun args => .bind (.expandCall hE f body args) ?_
                exact fun expanded => ih allowed expanded
      | _ => exact .pure _

/-- Compiling spares the text, but for macros: these it makes. -/
theorem compilers (hE : E.Sparing) (k : Nat) :
    (∀ kind, kind ≠ .expander → ∀ v, (E.compileWithin k kind v).Sparing) ∧
      ∀ v, (E.compileInner k v).Sparing := by
  induction k with
  | zero =>
      refine ⟨fun kind _ v => ?_, fun v => ?_⟩
      · rw [Engine.compileWithin]
        exact .halt _
      · cases v with
        | pair r =>
            rw [Engine.compileInner]
            exact .halt _
        | _ => exact .pure _
  | succ k ih =>
      refine ⟨fun kind hkind v => ?_, fun v => ?_⟩
      · cases v with
        | pair r =>
            rw [Engine.compileWithin_pair]
            refine .bind (.prepare hE r) fun p => .bind (.gets _) fun allowed => ?_
            refine .bind (.expandMacros hE E.fuel allowed p.2) fun forms => ?_
            refine .bind (ih.2 forms) fun forms s v t h => ?_
            cases h
            refine .newCallable s ?_
            cases kind <;> first | rfl | exact absurd rfl hkind
        | _ => exact .halt _
      · cases v with
        | pair r =>
            rw [Engine.compileInner]
            refine .bind (.car r) fun head => .ite (.pure _) (.ite ?_ (.ite (.failOn _ _) ?_))
            · exact .bind (.cdrCell hE r) fun rest => ih.1 .template (by simp) rest
            · exact .mapList hE ih.2 (.pair r)
        | _ => exact .pure _

end Eval.Sparing

/-! ## The engine that insists on it -/

namespace Dialogue

open Engine

variable {n : Nat} {relays : Prop} {own met : Failure → Prop} {α : Type} {E E' : Engine}
  {x : Engine → Outcome α}

/-- With another engine the computation comes to the same, or it asks for a call of which the
engines make different things. -/
theorem eq_or_asks_other (h : Dialogue (fun _ => True) n relays own met x) (hE : E.fuel = n)
    (hE' : E'.fuel = n) : x E' = x E ∨ ∃ b u, E'.perform b u ≠ E.perform b u ∧ E.Asks x b u := by
  induction h with
  | done o same _ fails =>
      left
      rw [same E hE, same E' hE']
  | @ask met x b u k same _ goes stops passes ih =>
      by_cases hcall : E'.perform b u = E.perform b u
      · rcases ih _ trivial with heq | ⟨b', u', hother, hasks⟩
        · left
          rw [same E hE, same E' hE', hcall, heq]
        · exact .inr ⟨b', u', hother, asks_later hE same stops hasks⟩
      · exact .inr ⟨b, u, hcall, asks_here hE same stops⟩

/-- A computation that gives a value with an engine that leaves the program at other calls comes to
ask for none of these. -/
theorem ok_of_leaving (h : Dialogue (fun _ => True) n relays own met x) (hE : E.fuel = n)
    (hE' : E'.fuel = n)
    (hcalls : ∀ b u, E'.perform b u = E.perform b u ∨
      ∃ code t, E'.perform b u = .halt (.exited code) t)
    {a : α} {t : State} (hx : x E' = .ok a t) :
    x E = .ok a t ∧ ∀ b u, E.Asks x b u → E'.perform b u = E.perform b u := by
  induction h with
  | done o same _ fails =>
      refine ⟨by rw [same E hE, ← same E' hE', hx], fun b u hasks => ?_⟩
      exact (hasks.false_of_const fun E' hagree => same E' (hagree.fuel.trans hE)).elim
  | @ask met x b u k same _ goes stops passes ih =>
      rcases hcalls b u with hcall | ⟨code, t', hexit⟩
      · rw [same E' hE', hcall] at hx
        obtain ⟨hvalue, hasked⟩ := ih _ trivial hx
        refine ⟨by rw [same E hE, hvalue], fun b' u' hasks => ?_⟩
        rcases asks_cases hE same hasks with hhere | hlater
        · cases hhere
          exact hcall
        · exact hasked b' u' hlater
      · rw [same E' hE', hexit, stops _ t' E' fun f hf => by cases hf] at hx
        cases hx

end Dialogue

namespace Engine

variable {α : Type} {n : Nat} {x : Engine → Eval α} {s t : State} {a : α}

/-- Every evaluation that the computation asks for spares the text. -/
def Gentle (n : Nat) (x : Engine → Eval α) (s : State) : Prop :=
  ∀ b u w t, (ofFuel n).Reaches x s b u → (ofFuel n).perform b u = .ok w t → u.Spares t

open Classical in
/-- The evaluator's engine, but for evaluations that do not spare the text: there it leaves the
program. -/
noncomputable def sparing (n : Nat) : Engine where
  fuel := n
  eval form env s :=
    if ∀ w t, evaluate n form env s = .ok w t → s.Spares t then evaluate n form env s
    else .halt (.exited 0) s
  apply f args env s :=
    if ∀ w t, applyTo n f args env s = .ok w t → s.Spares t then applyTo n f args env s
    else .halt (.exited 0) s
  deliver r s :=
    if ∀ w t, deliverTo n r s = .ok w t → s.Spares t then deliverTo n r s
    else .halt (.exited 0) s

theorem perform_sparing (n : Nat) (b : Call) (s : State) :
    ((sparing n).perform b s = (ofFuel n).perform b s ∧
      ∀ w t, (ofFuel n).perform b s = .ok w t → s.Spares t) ∨
    ((sparing n).perform b s = .halt (.exited 0) s ∧
      ¬ ∀ w t, (ofFuel n).perform b s = .ok w t → s.Spares t) := by
  by_cases h : ∀ w t, (ofFuel n).perform b s = .ok w t → s.Spares t
  · exact .inl ⟨by cases b <;> exact if_pos h, h⟩
  · exact .inr ⟨by cases b <;> exact if_neg h, h⟩

theorem sparing_sparing (n : Nat) : (sparing n).Sparing := by
  intro b s w t h
  rcases perform_sparing n b s with ⟨hsame, hspares⟩ | ⟨hexit, -⟩
  · exact hspares w t (hsame ▸ h)
  · rw [hexit] at h
    cases h

/-- A gentle computation makes no difference between the two engines. -/
theorem Gentle.eq (hx : (Manner.outside n True).Runs x) (h : Gentle n x s) :
    x (sparing n) s = x (ofFuel n) s := by
  have hleads := hx s _ (State.lasting_true _) trivial
  refine (Dialogue.eq_or_asks_other hleads rfl rfl).resolve_right ?_
  rintro ⟨b, u, hother, hasks⟩
  rcases perform_sparing n b u with ⟨hsame, -⟩ | ⟨-, hspares⟩
  · exact hother hsame
  · exact hspares fun w t hw => h b u w t hasks hw

/-- A value that is given by the engine that insists on sparing the text is the evaluator's. -/
theorem ok_of_sparing (hx : (Manner.outside n True).Runs x) (h : x (sparing n) s = .ok a t) :
    x (ofFuel n) s = .ok a t := by
  have hleads := hx s _ (State.lasting_true _) trivial
  refine (Dialogue.ok_of_leaving hleads rfl rfl (fun b u => ?_) h).1
  rcases perform_sparing n b u with ⟨hsame, -⟩ | ⟨hexit, -⟩
  · exact .inl hsame
  · exact .inr ⟨0, u, hexit⟩

/-- A computation is gentle if it gives a value with an engine that answers nothing but calls that
spare the text. -/
theorem Gentle.of_ok (hx : (Manner.outside n True).Runs x) {E : Engine} (hfuel : E.fuel = n)
    (hE : ∀ b u, (E.perform b u = (ofFuel n).perform b u ∧
        ∀ w t, E.perform b u = .ok w t → u.Spares t) ∨
      ∃ code t, E.perform b u = .halt (.exited code) t)
    (h : x E s = .ok a t) : Gentle n x s := by
  intro b u w t' hasks hw
  have hcalls : ∀ b u, E.perform b u = (ofFuel n).perform b u ∨
      ∃ code t, E.perform b u = .halt (.exited code) t := fun b u => (hE b u).imp_left And.left
  have hleads := hx s _ (State.lasting_true _) trivial
  have hsame := (Dialogue.ok_of_leaving hleads rfl hfuel hcalls h).2 b u hasks
  rw [← hsame] at hw
  rcases hE b u with ⟨-, hspares⟩ | ⟨code, t'', hexit⟩
  · exact hspares w t' hw
  · rw [hexit] at hw
    cases hw

end Engine

end SmallLisp
