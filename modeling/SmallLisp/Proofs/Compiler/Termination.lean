import SmallLisp.Proofs.Compiler.Scanning
import SmallLisp.Proofs.Run
import SmallLisp.Proofs.Settling

/-!
# Compiling comes to an end

Expansion counts how often an expansion was expanded again, and stops when that is too often. The
count is anew for each lambda, since a nested lambda is compiled after the one around it, but every
lambda that holds a form takes up cells. So compiling acyclic code comes to an end whenever the
expansions on the way do, with the number of cells still free and the expansions still allowed as
measure.

A macro whose expansions call it again fails to compile, because the expansions get too deep, as
long as these calls stand outside nested lambdas. Within nested lambdas only the cells come to an
end.
-/

namespace SmallLisp

open Eval Filter

/-! ## Code -/

/-- Code without cycles: words, quoted data and lists of code. -/
inductive Store.Acyclic (s : Store) : Value → Prop
  | word {v : Value} : v.isPair = false → s.Acyclic v
  | quoted {r : Ref .cell} {d : Value} : s.cell? r = some ⟨.sym Symbol.quote, d⟩ →
      d.isPromise = false → s.Acyclic (.pair r)
  | list {xs : List Value} {tail v : Value} : s.Chain xs tail v → tail.isPair = false →
      tail.isPromise = false → (∀ x ∈ xs, s.Acyclic x) → s.Acyclic v

theorem Store.Acyclic.keeps {s t : Store} (hk : s.KeepsCells t) {v : Value} (h : s.Acyclic v) :
    t.Acyclic v := by
  induction h with
  | word hv => exact .word hv
  | quoted hr hd => exact .quoted (hk _ _ hr) hd
  | list hv hpair hpromise _ ih => exact .list (hv.keeps hk) hpair hpromise ih

theorem Store.Acyclic.retains {s t : State} {v : Value} (ht : s.Retains t)
    (h : s.store.Acyclic v) : t.store.Acyclic v := h.keeps ht.cells

/-! ## The expansions on the way -/

/-- A macro call that is about to be expanded. -/
structure Expansion where
  state : State
  head : Value
  callee : Callable
  body : Value
  args : Value

/-- The passes in which macro calls can be met. -/
inductive Pass where
  | expand (allowed : Nat)
  | inner
  | compile (kind : CallableKind)

namespace Engine

/-- Read the parameters of `(parameters form ...)`, and put their addresses in the forms. -/
def prepare (E : Engine) (r : Ref .cell) : Eval (Parameters × Value) := do
  let head ← car r
  let ps ← E.parameters head
  let forms ← E.cdrCell r
  let forms ← E.resolve ps E.fuel forms
  pure (ps, forms)

/-- Expand the macro calls in prepared forms, make templates of their lambdas, and make the callable
of it all. -/
def complete (E : Engine) (k : Nat) (kind : CallableKind) (p : Parameters × Value) :
    Eval Value := do
  let allowed ← gets (·.config.maxMacroExpansions)
  let forms ← E.expandMacros E.fuel allowed p.2
  let forms ← E.compileInner k forms
  alloc (·.newCallable (kind.make p.1.shape forms))

theorem compileWithin_pair (E : Engine) (k : Nat) (kind : CallableKind) (r : Ref .cell) :
    E.compileWithin (k + 1) kind (.pair r) = E.prepare r >>= E.complete k kind := by
  rw [compileWithin, prepare]
  simp only [bind_assoc]
  rfl

/-- A pass on a form, with fuel for the engine and for the depth of the form. -/
def pass (n k : Nat) : Pass → Value → Eval Value
  | .expand allowed, v => (ofFuel n).expandMacros k allowed v
  | .inner, v => (ofFuel n).compileInner k v
  | .compile kind, v => (ofFuel n).compileWithin k kind v

end Engine

/-- With some fuel the forms behind the parameters come out of their scan like this. -/
def Prepared (v : Value) (s : State) (forms : Value) (t : State) : Prop :=
  ∃ n r ps, v = .pair r ∧ (Engine.ofFuel n).prepare r s = .ok (ps, forms) t

/-- With some fuel the pass gives this value. -/
def Pass.Gives (p : Pass) (v : Value) (s : State) (w : Value) (t : State) : Prop :=
  ∃ n k, Engine.pass n k p v s = .ok w t

namespace Expansion

def expand (e : Expansion) (n : Nat) : Eval Value :=
  (Engine.ofFuel n).expandCall e.callee e.body e.args

/-- The call stands in this cell. -/
structure At (e : Expansion) (r : Ref .cell) : Prop where
  cell : e.state.store.cell? r = some ⟨e.head, e.args⟩
  exposed : Engine.isLeftAlone e.head = false
  denotes : Engine.expander? e.head e.state = .ok (some (e.callee, e.body)) e.state
  list : e.args.isPair = true ∨ e.args = .nil

/-- A pass over a form meets the macro call. Every step is taken in the state that the steps before
it have left. -/
inductive Met (e : Expansion) : Pass → Value → State → Prop
  | here {r : Ref .cell} {allowed : Nat} :
      e.At r → Met e (.expand (allowed + 1)) (.pair r) e.state
  | again {first : Expansion} {r : Ref .cell} {w : Value} {t : State} {allowed n : Nat} :
      first.At r → first.expand n first.state = .ok w t → Met e (.expand allowed) w t →
      Met e (.expand (allowed + 1)) (.pair r) first.state
  | item {r : Ref .cell} {head d x : Value} {s t : State} {allowed : Nat} :
      s.store.cell? r = some ⟨head, d⟩ → Engine.isLeftAlone head = false → ¬ s.Expands head →
      Engine.Visits (Pass.Gives (.expand allowed)) (.pair r) s x t →
      Met e (.expand allowed) x t → Met e (.expand allowed) (.pair r) s
  | lambda {r : Ref .cell} {rest : Value} {s : State} :
      s.store.cell? r = some ⟨.sym Symbol.lambda, rest⟩ → Met e (.compile .template) rest s →
      Met e .inner (.pair r) s
  | innerItem {r : Ref .cell} {head d x : Value} {s t : State} :
      s.store.cell? r = some ⟨head, d⟩ → Engine.isLeftAlone head = false →
      Engine.Visits (Pass.Gives .inner) (.pair r) s x t → Met e .inner x t →
      Met e .inner (.pair r) s
  | body {v forms : Value} {s t : State} {kind : CallableKind} : Prepared v s forms t →
      Met e (.expand t.config.maxMacroExpansions) forms t → Met e (.compile kind) v s
  | nested {v forms expanded : Value} {s t u : State} {kind : CallableKind} :
      Prepared v s forms t →
      Pass.Gives (.expand t.config.maxMacroExpansions) forms t expanded u →
      Met e .inner expanded u → Met e (.compile kind) v s

/-- How a macro call is met in a form that is expanded. -/
theorem Met.expand_cases {e : Expansion} {allowed : Nat} {v : Value} {s : State}
    (h : e.Met (.expand allowed) v s) : ∃ r, v = .pair r ∧
      ((e.At r ∧ e.state = s ∧ ∃ k, allowed = k + 1) ∨
      (∃ first : Expansion, ∃ n w t k, first.At r ∧ first.state = s ∧ allowed = k + 1 ∧
        first.expand n s = .ok w t ∧ e.Met (.expand k) w t) ∨
      ∃ head d x t, s.store.cell? r = some ⟨head, d⟩ ∧ Engine.isLeftAlone head = false ∧
        ¬ s.Expands head ∧ Engine.Visits (Pass.Gives (.expand allowed)) (.pair r) s x t ∧
        e.Met (.expand allowed) x t) := by
  cases h with
  | here hat => exact ⟨_, rfl, .inl ⟨hat, rfl, _, rfl⟩⟩
  | again hat hn hmet => exact ⟨_, rfl, .inr (.inl ⟨_, _, _, _, _, hat, rfl, rfl, hn, hmet⟩)⟩
  | item hr hx hm hvisit hmet =>
      exact ⟨_, rfl, .inr (.inr ⟨_, _, _, _, hr, hx, hm, hvisit, hmet⟩)⟩

/-- What denotes no macro is not expanded. -/
theorem At.expands {e : Expansion} {r : Ref .cell} (hat : e.At r) : e.state.Expands e.head := by
  by_contra hnone
  have h := (Engine.expander?_eq_none hnone).symm.trans hat.denotes
  cases h

/-- The expansion comes to an end, and what it gives is acyclic code again. It leaves the cells that
there were as they are. -/
def Settles (F : Halt → Prop) (e : Expansion) : Prop :=
  Eval.Settles F e.state e.expand fun w t =>
    t.store.Acyclic w ∧ e.state.store.KeepsCells t.store

end Expansion

/-- How a pass itself can fail. -/
inductive CutOff : Halt → Prop
  | tooDeep (text : String) :
      CutOff (.failed { cause := .malformed (FormFault.expansionTooDeep text).message })
  | storeFull (capacity : Nat) : CutOff (.failed { cause := .storeFull capacity })
  | notProper (text : String) : CutOff (.failed { cause := .notProper text })

theorem CutOff.isEnd (h : Halt) (hh : CutOff h) : h.IsEnd := by
  cases hh <;> simp [Halt.IsEnd]

/-! ## Words, quoted data and lists -/

theorem Store.Chain.isPromise {s : Store} {xs : List Value} {tail v : Value}
    (hv : s.Chain xs tail v) (ht : tail.isPromise = false) : v.isPromise = false := by
  cases xs with
  | nil =>
      cases hv
      exact ht
  | cons x xs =>
      obtain ⟨r, d, rfl, -⟩ := hv
      rfl

/-- The items of a chain are all in one that goes on to the end of the list. -/
theorem Store.Chain.mem {s : Store} {xs ys : List Value} {tail tail' v : Value}
    (hx : s.Chain xs tail v) (hy : s.Chain ys tail' v) (hpair : tail'.isPair = false) :
    ∀ x ∈ xs, x ∈ ys := by
  induction xs generalizing ys v with
  | nil => simp
  | cons x xs ih =>
      obtain ⟨r, d, rfl, hr, hd⟩ := hx
      cases ys with
      | nil =>
          cases hy
          cases hpair
      | cons y ys =>
          obtain ⟨_, _, hq, hr', hd'⟩ := hy
          cases hq
          cases hr.symm.trans hr'
          intro z hz
          rcases List.mem_cons.1 hz with rfl | hz
          · simp
          · exact List.mem_cons_of_mem _ (ih hd hd' z hz)

/-- No pass enters the form. -/
def Store.Inert (s : Store) (v : Value) : Prop :=
  v.isPair = false ∨ ∃ r d, v = .pair r ∧ s.cell? r = some ⟨.sym Symbol.quote, d⟩ ∧
    d.isPromise = false

/-- The cell begins a list of `x` and `xs` that ends with `tail`, and `x` does not quote the rest.
-/
structure Store.Lists (s : Store) (r : Ref .cell) (x d : Value) (xs : List Value)
    (tail : Value) : Prop where
  cell : s.cell? r = some ⟨x, d⟩
  rest : s.Chain xs tail d
  pair : tail.isPair = false
  promise : tail.isPromise = false
  head : x ≠ .sym Symbol.quote

namespace Store

variable {s : Store} {v : Value}

theorem Lists.chain {r : Ref .cell} {x d tail : Value} {xs : List Value}
    (h : s.Lists r x d xs tail) : s.Chain (x :: xs) tail (.pair r) :=
  ⟨r, d, rfl, h.cell, h.rest⟩

theorem Lists.acyclic {r : Ref .cell} {x d tail : Value} {xs : List Value}
    (h : s.Lists r x d xs tail) (hxs : ∀ y ∈ x :: xs, s.Acyclic y) : s.Acyclic (.pair r) :=
  .list h.chain h.pair h.promise hxs

theorem Lists.rest_acyclic {r : Ref .cell} {x d tail : Value} {xs : List Value}
    (h : s.Lists r x d xs tail) (hxs : ∀ y ∈ x :: xs, s.Acyclic y) : s.Acyclic d :=
  .list h.rest h.pair h.promise fun y hy => hxs y (List.mem_cons_of_mem x hy)

theorem Lists.retains {s t : State} {r : Ref .cell} {x d tail : Value} {xs : List Value}
    (ht : s.Retains t) (h : s.store.Lists r x d xs tail) : t.store.Lists r x d xs tail :=
  ⟨ht.cells r _ h.cell, h.rest.keeps ht.cells, h.pair, h.promise, h.head⟩

theorem Inert.acyclic (h : s.Inert v) : s.Acyclic v := by
  rcases h with hv | ⟨r, d, rfl, hr, hd⟩
  · exact .word hv
  · exact .quoted hr hd

theorem Inert.retains {s t : State} (ht : s.Retains t) (h : s.store.Inert v) :
    t.store.Inert v := by
  rcases h with hv | ⟨r, d, rfl, hr, hd⟩
  · exact .inl hv
  · exact .inr ⟨r, d, rfl, ht.cells r _ hr, hd⟩

/-- Acyclic code is inert, or a list of acyclic code. -/
@[elab_as_elim]
theorem Acyclic.induct {motive : (v : Value) → s.Acyclic v → Prop}
    (inert : ∀ v (h : s.Inert v), motive v h.acyclic)
    (list : ∀ r x d xs tail (h : s.Lists r x d xs tail) (hxs : ∀ y ∈ x :: xs, s.Acyclic y),
      (∀ y hy, motive y (hxs y hy)) → motive (.pair r) (h.acyclic hxs))
    (hv : s.Acyclic v) : motive v hv := by
  induction hv with
  | word hv => exact inert _ (.inl hv)
  | quoted hr hd => exact inert _ (.inr ⟨_, _, rfl, hr, hd⟩)
  | @list xs tail v hv hpair hpromise hxs ih =>
      cases xs with
      | nil =>
          cases hv
          exact inert _ (.inl hpair)
      | cons x xs =>
          obtain ⟨r, d, rfl, hr, hd⟩ := hv
          by_cases hx : x = .sym Symbol.quote
          · subst hx
            exact inert _ (.inr ⟨r, d, rfl, hr, hd.isPromise hpromise⟩)
          · exact list r x d xs tail ⟨hr, hd, hpair, hpromise, hx⟩ hxs ih

end Store

theorem Parameters.isPair_scan (ps : Parameters) {v : Value} (hv : v.isPair = false) :
    (ps.scan v).isPair = false := by
  cases v with
  | sym x =>
      rw [scan]
      cases ps.find? (.sym x) <;> rfl
  | dummy r =>
      rw [scan]
      cases ps.find? (.dummy r) <;> rfl
  | _ => exact hv

namespace Engine

variable {F : Halt → Prop} {K : State → State → Prop} {s t : State} {k : Nat → Nat}

/-! ## Parameters -/

/-- A parameter is read or refused on the spot. -/
theorem parameterOf_cases (v : Value) (s : State) :
    (∃ p, parameterOf v s = .ok p s) ∨ ∃ f, parameterOf v s = .halt (.failed f) s := by
  have named : ∀ x, (∃ p, parameterOf.named x s = .ok p s) ∨
      ∃ f, parameterOf.named x s = .halt (.failed f) s := by
    intro x
    unfold parameterOf.named
    rw [bind_of_ok (show isKeyword x s = .ok (s.symbols.isKeyword x) s from rfl)]
    cases s.symbols.isKeyword x with
    | true => exact .inr ⟨_, rfl⟩
    | false => exact .inl ⟨_, rfl⟩
  cases v with
  | sym x => exact named x
  | address a => exact named a.symbol
  | dummy r => exact .inl ⟨_, rfl⟩
  | _ => exact .inr ⟨_, rfl⟩

theorem parameterOf_keyword {x : Symbol} (hx : s.symbols.isKeyword x = true) :
    ∃ f, parameterOf (.sym x) s = .halt (.failed f) s := by
  have hkey : isKeyword x s = .ok true s := by rw [isKeyword, gets_apply, hx]
  rw [parameterOf, parameterOf.named, bind_of_ok hkey]
  exact ⟨_, rfl⟩

theorem parameterOf_settles (v : Value) (s : State) :
    Settles Halt.IsEnd s (fun _ => parameterOf v) fun _ t => t = s := by
  rcases parameterOf_cases v s with ⟨p, hp⟩ | ⟨f, hf⟩
  · exact .of_ok (.of_forall fun _ => hp) rfl
  · exact .of_halt (.of_forall fun _ => hf) (by simp [Halt.IsEnd])

/-- The cell after one of a list that is not promised. -/
theorem cdrCell_settles (hF : ∀ text, F (.failed { cause := .notProper text })) {r : Ref .cell}
    {a d : Value} (hr : s.store.cell? r = some ⟨a, d⟩) (hd : d.isPromise = false) :
    Settles F s (fun n => (ofFuel n).cdrCell r) fun w t =>
      t = s ∧ w = d ∧ (d.isPair = true ∨ d = .nil) := by
  by_cases hlist : d.isPair = true ∨ d = .nil
  · exact .of_ok (.of_forall fun n => (ofFuel n).cdrCell_of_tail hr hlist) ⟨rfl, rfl, hlist⟩
  · have hpair : d.isPair = false := by simpa using fun h => hlist (.inl h)
    have hnil : d ≠ .nil := fun h => hlist (.inr h)
    exact .of_halt (.of_forall fun n => (ofFuel n).cdrCell_of_atom hr hpair hnil hd) (hF _)

theorem parametersWithin_settles {xs : List Value} {tail v : Value} {ps : Parameters}
    (hv : s.store.Chain xs tail v) (hpair : tail.isPair = false)
    (hpromise : tail.isPromise = false) (hk : Tendsto k atTop atTop) :
    Settles Halt.IsEnd s (fun n => (ofFuel n).parametersWithin (k n) v ps) fun _ t => t = s := by
  have hend : ∀ f, Halt.IsEnd (.failed f) := by simp [Halt.IsEnd]
  induction hlen : xs.length using Nat.strong_induction_on generalizing xs v ps k with
  | _ len ih =>
      subst hlen
      cases xs with
      | nil =>
          cases hv
          refine .of_ok (a := ps) (.of_forall fun n => ?_) rfl
          cases tail <;> first | (cases k n <;> rfl) | simp [Value.isPair] at hpair
      | cons x xs =>
          obtain ⟨r, d, rfl, hr, hd⟩ := hv
          have htail := hd.isPromise hpromise
          by_cases hlist : d.isPair = true ∨ d = .nil
          case neg =>
            have hatom : d.isPair = false := by simpa using fun h => hlist (.inl h)
            have hnil : d ≠ .nil := fun h => hlist (.inr h)
            refine .of_halt (t := s) ?_ (hend { cause := .notProper (textIn s (.pair r)) })
            filter_upwards [eventually_succ hk] with n hn
            rw [hn, parametersWithin, bind_of_ok (car_apply r s),
              bind_of_halt ((ofFuel n).cdrCell_of_atom hr hatom hnil htail)]
          have hopen : ∀ n, (ofFuel n).cdrCell r s = .ok d s :=
            fun n => (ofFuel n).cdrCell_of_tail hr hlist
          by_cases hfull : ps.hasRest = true
          case pos =>
            have hsecond := hend ⟨.malformed (FormFault.secondRest (textIn s x)).message, #[]⟩
            refine .of_halt (t := s) ?_ hsecond
            filter_upwards [eventually_succ hk] with n hn
            rw [hn, parametersWithin, bind_of_ok (car_apply r s), Store.car_of_cell? hr,
              bind_of_ok (hopen n), if_pos hfull]
            rfl
          by_cases hx : x.isSym Symbol.rest = true
          case neg =>
            refine .of_eq (.bind (parameterOf_settles x s) ?_)
              (y := fun n => parameterOf x >>= fun p =>
                (ofFuel n).parametersWithin (k n - 1) d (ps.add p.1 p.2)) ?_
            · rintro p _ rfl
              exact ih xs.length (by simp) hd (tendsto_pred hk) rfl
            · filter_upwards [eventually_succ hk] with n hn
              rw [hn, parametersWithin, bind_of_ok (car_apply r s), Store.car_of_cell? hr,
                bind_of_ok (hopen n), if_neg hfull, if_neg hx]
              rfl
          cases xs with
          | nil =>
              cases hd
              have hnil : tail = .nil := by simpa [hpair] using hlist
              subst hnil
              refine .of_halt (t := s) ?_ (hend { cause := .notVariable "nil" })
              filter_upwards [eventually_succ hk] with n hn
              rw [hn, parametersWithin, bind_of_ok (car_apply r s), Store.car_of_cell? hr,
                bind_of_ok (hopen n), if_neg hfull, if_pos hx]
              rfl
          | cons y ys =>
              obtain ⟨q, e, rfl, hq, he⟩ := hd
              have hnext := cdrCell_settles (F := Halt.IsEnd) (fun _ => hend _) hq
                (he.isPromise hpromise)
              by_cases hy : y.isSym Symbol.rest = true
              · refine .of_eq (.bind hnext ?_)
                  (y := fun n => (ofFuel n).cdrCell q >>= fun _ => fail (.notVariable "&rest")) ?_
                · rintro _ _ ⟨rfl, -⟩
                  exact .of_halt (.of_forall fun _ => rfl) (hend _)
                · filter_upwards [eventually_succ hk] with n hn
                  rw [hn, parametersWithin, bind_of_ok (car_apply r s), Store.car_of_cell? hr,
                    bind_of_ok (hopen n), if_neg hfull, if_pos hx]
                  show (car q >>= fun item => _) s = _
                  rw [bind_of_ok (car_apply q s), Store.car_of_cell? hq]
                  simp only [hy, if_true]
              · refine .of_eq (.bind hnext ?_)
                  (y := fun n => (ofFuel n).cdrCell q >>= fun next => parameterOf y >>= fun p =>
                    (ofFuel n).parametersWithin (k n - 1) next
                      { ps.add p.1 p.2 with hasRest := true }) ?_
                · rintro _ u ⟨rfl, rfl, -⟩
                  refine .bind (parameterOf_settles y u) ?_
                  rintro p _ rfl
                  exact ih ys.length (by simp) he (tendsto_pred hk) rfl
                · filter_upwards [eventually_succ hk] with n hn
                  rw [hn, parametersWithin, bind_of_ok (car_apply r s), Store.car_of_cell? hr,
                    bind_of_ok (hopen n), if_neg hfull, if_pos hx]
                  show (car q >>= fun item => _) s = _
                  rw [bind_of_ok (car_apply q s), Store.car_of_cell? hq]
                  simp only [hy]
                  rfl

theorem parameters_settles {v : Value} (hv : s.store.Acyclic v) :
    Settles Halt.IsEnd s (fun n => (ofFuel n).parameters v) fun _ t => t = s := by
  have hend : ∀ f, Halt.IsEnd (.failed f) := by simp [Halt.IsEnd]
  by_cases hlist : (v.isNil || v.isPair) = true
  case neg =>
    have hbad := hend ⟨.malformed (FormFault.parameters (textIn s v)).message, #[]⟩
    refine .of_halt (t := s) (.of_forall fun n => ?_) hbad
    rw [parameters, if_neg hlist]
    rfl
  have hopen : ∀ n, (ofFuel n).parameters v = (ofFuel n).parametersWithin n v {} := by
    intro n
    rw [parameters, if_pos hlist]
    rfl
  simp only [hopen]
  cases hv with
  | word hv => exact parametersWithin_settles (show s.store.Chain [] v v from rfl) hv (by
      cases v <;> first | rfl | simp [Value.isNil, Value.isPair] at hlist) tendsto_id
  | @quoted r d hr hd =>
      -- A keyword is no parameter, so what is quoted does not matter.
      refine .of_eq (.bind (cdrCell_settles (fun _ => hend _) hr hd) ?_)
        (y := fun n => (ofFuel n).cdrCell r >>= fun next => parameterOf (.sym Symbol.quote) >>=
          fun p => (ofFuel n).parametersWithin (n - 1) next (Parameters.add {} p.1 p.2)) ?_
      · rintro _ u ⟨rfl, -⟩
        obtain ⟨f, hf⟩ := parameterOf_keyword (x := Symbol.quote)
          (u.symbols.isKeyword_of_special (by decide))
        exact .of_halt (.of_forall fun _ => bind_of_halt hf) (hend _)
      · filter_upwards [eventually_succ tendsto_id] with n hn
        rw [show n = n - 1 + 1 from hn, parametersWithin, bind_of_ok (car_apply r s),
          Store.car_of_cell? hr]
        rfl
  | list hv hpair hpromise _ => exact parametersWithin_settles hv hpair hpromise tendsto_id

/-! ## Addresses -/

/-- Mapping over a list of code gives a new list of code. -/
theorem mapList_acyclic (hK : Keeping K) (hF : ∀ h, CutOff h → F h)
    {f : Nat → Value → Eval Value} {step : Value → State → Value → State → Prop}
    {N : Value → Prop} (hstep : ∀ n x t y u, f n x t = .ok y u → step x t y u)
    {r : Ref .cell} {x d tail : Value} {xs : List Value} (hlist : t.store.Lists r x d xs tail)
    (hf : ∀ y ∈ x :: xs, ∀ u, K t u → Visits step (.pair r) t y u →
      Settles F u (fun n => f n y) fun w u' => K u u' ∧ u'.store.Acyclic w ∧ N y) :
    Settles F t (fun n => (ofFuel n).mapList (f n) (.pair r)) fun w u => K t u ∧
      u.store.Acyclic w ∧ u.store.room < t.store.room ∧ ∀ y ∈ x :: xs, N y := by
  have hmap := mapList_settles (P := fun u y => u.store.Acyclic y) hK
    (fun _ => hF _ (.notProper _)) (fun _ => hF _ (.storeFull _)) hstep
    (fun _ _ _ hu hy => hy.retains (hK.retains hu)) hlist.chain hlist.pair hlist.promise hf
  refine hmap.mono ?_
  rintro w u ⟨hu, hroom, hN, ys, hchain, hys⟩
  exact ⟨hu, .list hchain rfl rfl hys, hroom (by simp), hN⟩

/-- A scan comes to an end. It makes a new list, unless there is nothing to scan. -/
theorem resolve_settles (hF : ∀ h, CutOff h → F h) (ps : Parameters) {v : Value}
    (hv : s.store.Acyclic v) (ht : s.Retains t) (hk : Tendsto k atTop atTop) :
    Settles F t (fun n => (ofFuel n).resolve ps (k n) v) fun w u =>
      t.Retains u ∧ u.store.Acyclic w ∧ (u.store.Inert w ∨ u.store.room < t.store.room) := by
  induction hv using Store.Acyclic.induct generalizing t k with
  | inert v hv =>
      rcases hv.retains ht with hv | ⟨r, d, rfl, hr, hd⟩
      · have hscan := ps.isPair_scan hv
        refine .of_ok (a := ps.scan v) (t := t) (.of_forall fun n => ?_)
          ⟨.refl t, .word hscan, .inl (.inl hscan)⟩
        rw [resolve_word _ ps _ hv]
        rfl
      · have hinert : t.store.Inert (.pair r) := .inr ⟨r, d, rfl, hr, hd⟩
        refine .of_ok (a := .pair r) (t := t) ?_ ⟨.refl t, hinert.acyclic, .inl hinert⟩
        filter_upwards [eventually_succ hk] with n hn
        rw [hn, resolve, bind_of_ok (car_apply r t), Store.car_of_cell? hr]
        rfl
  | list r x d xs tail hlist _ ih =>
      have hlist := hlist.retains ht
      have hx : ¬ x.isSym Symbol.quote = true := fun h => hlist.head (Value.isSym_iff.1 h)
      have hgives : ∀ n y u w u', (ofFuel n).resolve ps (k n - 1) y u = .ok w u' → True :=
        fun _ _ _ _ _ _ => trivial
      have hmap := mapList_acyclic (N := fun _ => True) State.Retains.keeping hF hgives hlist
        fun y hy u hu _ =>
          (ih y hy (ht.trans hu) (tendsto_pred hk)).mono fun w u' h => ⟨h.1, h.2.1, trivial⟩
      refine (hmap.mono fun w u h => ⟨h.1, h.2.1, .inr h.2.2.1⟩).of_eq ?_
      filter_upwards [eventually_succ hk] with n hn
      rw [hn, resolve, bind_of_ok (car_apply r t), Store.car_of_cell? hlist.cell, if_neg hx]
      rfl

/-! ## Expansion -/

theorem expander?_of_expands {v : Value} (hv : s.Expands v) :
    ∃ f body, expander? v s = .ok (some (f, body)) s := by
  cases v with
  | sym x =>
      obtain ⟨r, shape, body, hg, hr⟩ := hv
      exact ⟨.expander shape body, body, by simp [expander?, bind_apply, hg, hr]⟩
  | callable r =>
      obtain ⟨shape, body, hr⟩ := hv
      exact ⟨.expander shape body, body, by simp [expander?, bind_apply, hr]⟩
  | _ => exact hv.elim

theorem isLeftAlone_eq_false {v : Value} (hq : v ≠ .sym Symbol.quote)
    (hl : v ≠ .sym Symbol.lambda) (he : v ≠ .sym Symbol.expander) : isLeftAlone v = false := by
  by_contra h
  rw [Bool.not_eq_false, isLeftAlone, Bool.or_eq_true, Bool.or_eq_true] at h
  simp only [Value.isSym_iff] at h
  rcases h with (h | h) | h
  · exact hq h
  · exact hl h
  · exact he h

/-- Forms that expansion leaves alone are given back. -/
theorem expandMacros_leftAlone (hk : Tendsto k atTop atTop) (allowed : Nat) {r : Ref .cell}
    {x d : Value} (hr : t.store.cell? r = some ⟨x, d⟩) (hx : isLeftAlone x = true) :
    ∀ᶠ n in atTop, (ofFuel n).expandMacros (k n) allowed (.pair r) t = .ok (.pair r) t := by
  filter_upwards [eventually_succ hk] with n hn
  rw [hn, expandMacros, bind_of_ok (car_apply r t), Store.car_of_cell? hr, if_pos hx]
  rfl

theorem expandMacros_inert (hk : Tendsto k atTop atTop) (allowed : Nat) {v : Value}
    (hv : t.store.Inert v) :
    ∀ᶠ n in atTop, (ofFuel n).expandMacros (k n) allowed v t = .ok v t := by
  rcases hv with hv | ⟨r, d, rfl, hr, -⟩
  · refine .of_forall fun n => ?_
    rw [expandMacros_word _ hv]
    rfl
  · exact expandMacros_leftAlone hk allowed hr rfl

/-- A call of no macro is expanded item by item. -/
theorem expandMacros_list (hk : Tendsto k atTop atTop) (allowed : Nat) {r : Ref .cell}
    {x d : Value} (hr : t.store.cell? r = some ⟨x, d⟩) (hx : isLeftAlone x = false)
    (hm : ¬ t.Expands x) :
    ∀ᶠ n in atTop, (ofFuel n).expandMacros (k n) allowed (.pair r) t =
      (ofFuel n).mapList ((ofFuel n).expandMacros (k n - 1) allowed) (.pair r) t := by
  filter_upwards [eventually_succ hk] with n hn
  rw [hn, expandMacros, bind_of_ok (car_apply r t), Store.car_of_cell? hr, hx]
  simp only [Bool.false_eq_true, if_false]
  rw [bind_of_ok (expander?_eq_none hm)]
  rfl

/-- Once too many expansions were expanded again, a macro call fails. -/
theorem expandMacros_tooDeep (hk : Tendsto k atTop atTop) {r : Ref .cell} {x d : Value}
    (hr : t.store.cell? r = some ⟨x, d⟩) (hx : isLeftAlone x = false) (hm : t.Expands x) :
    ∀ᶠ n in atTop, (ofFuel n).expandMacros (k n) 0 (.pair r) t =
      .halt (.failed ⟨.malformed (FormFault.expansionTooDeep (textIn t (.pair r))).message, #[]⟩)
        t := by
  obtain ⟨f, body, hf⟩ := expander?_of_expands hm
  filter_upwards [eventually_succ hk] with n hn
  rw [hn, expandMacros, bind_of_ok (car_apply r t), Store.car_of_cell? hr, hx]
  simp only [Bool.false_eq_true, if_false]
  rw [bind_of_ok hf]
  rfl

/-- A macro call is expanded, and what comes of it with one expansion less allowed. -/
theorem expandMacros_call (hk : Tendsto k atTop atTop) (allowed : Nat) {e : Expansion}
    {r : Ref .cell} (hr : e.At r) :
    ∀ᶠ n in atTop, (ofFuel n).expandMacros (k n) (allowed + 1) (.pair r) e.state =
      (e.expand n >>= (ofFuel n).expandMacros (k n - 1) allowed) e.state := by
  filter_upwards [eventually_succ hk] with n hn
  rw [hn, expandMacros, bind_of_ok (car_apply r e.state), Store.car_of_cell? hr.cell, hr.exposed]
  simp only [Bool.false_eq_true, if_false]
  rw [bind_of_ok hr.denotes]
  show ((ofFuel n).cdrCell r >>= fun args => _) e.state = _
  rw [bind_of_ok ((ofFuel n).cdrCell_of_tail hr.cell hr.list)]
  rfl

/-- The arguments of a macro call must be a list. -/
theorem expandMacros_notProper (hk : Tendsto k atTop atTop) (allowed : Nat) {r : Ref .cell}
    {x d : Value} (hr : t.store.cell? r = some ⟨x, d⟩) (hx : isLeftAlone x = false)
    (hm : t.Expands x) (hpair : d.isPair = false) (hnil : d ≠ .nil) (hd : d.isPromise = false) :
    ∀ᶠ n in atTop, (ofFuel n).expandMacros (k n) (allowed + 1) (.pair r) t =
      .halt (.failed { cause := .notProper (textIn t (.pair r)) }) t := by
  obtain ⟨f, body, hf⟩ := expander?_of_expands hm
  filter_upwards [eventually_succ hk] with n hn
  rw [hn, expandMacros, bind_of_ok (car_apply r t), Store.car_of_cell? hr, hx]
  simp only [Bool.false_eq_true, if_false]
  rw [bind_of_ok hf]
  exact bind_of_halt ((ofFuel n).cdrCell_of_atom hr hpair hnil hd)

/-- A property of forms that is kept, and that expansion can only get rid of by expanding a macro
call that has it. -/
structure Lasting (K : State → State → Prop) (Live : State → Value → Prop) : Prop where
  keeping : Keeping K
  mono : ∀ {s t : State} {v : Value}, K s t → Live s v → Live t v
  pair : ∀ {s : State} {v : Value}, Live s v → v.isPair = true
  exposed : ∀ {s : State} {r : Ref .cell} {x d : Value}, Live s (.pair r) →
    s.store.cell? r = some ⟨x, d⟩ → isLeftAlone x = false
  item : ∀ {s : State} {r : Ref .cell} {x d tail : Value} {xs : List Value}, Live s (.pair r) →
    s.store.Lists r x d xs tail → ¬ s.Expands x → ∃ y ∈ x :: xs, Live s y

theorem Lasting.not_inert {Live : State → Value → Prop} (hL : Lasting K Live) {v : Value}
    (hv : s.store.Inert v) : ¬ Live s v := by
  intro hlive
  rcases hv with hv | ⟨r, d, rfl, hr, -⟩
  · have hpair := hL.pair hlive
    simp [hv] at hpair
  · have hexposed := hL.exposed hlive hr
    simp [isLeftAlone, Value.isSym] at hexposed

/-- Expansion comes to an end if every expansion on the way does. It does not come to a value as
long as a property lasts. -/
theorem expandMacros_settles {Live : State → Value → Prop} (hL : Lasting K Live)
    (hF : ∀ h, CutOff h → F h) {allowed : Nat} {v : Value} (hv : s.store.Acyclic v)
    (ht : s.Retains t)
    (he : ∀ e : Expansion, e.Met (.expand allowed) v t →
      Settles F e.state e.expand fun w u => K e.state u ∧ u.store.Acyclic w ∧
        ∀ r, e.At r → Live e.state (.pair r) → Live u w)
    (hk : Tendsto k atTop atTop) :
    Settles F t (fun n => (ofFuel n).expandMacros (k n) allowed v) fun w u =>
      K t u ∧ u.store.Acyclic w ∧ ¬ Live t v := by
  have hK := hL.keeping
  induction allowed using Nat.strong_induction_on generalizing s t v k with
  | _ allowed again =>
      induction hv using Store.Acyclic.induct generalizing t k with
      | inert v hv =>
          have hinert := hv.retains ht
          exact .of_ok (expandMacros_inert hk allowed hinert)
            ⟨hK.refl t, hinert.acyclic, hL.not_inert hinert⟩
      | list r x d xs tail hlist hxs ih =>
          have hlist := hlist.retains ht
          have hcode := hlist.acyclic fun y hy => (hxs y hy).retains ht
          cases hx : isLeftAlone x with
          | true =>
              refine .of_ok (expandMacros_leftAlone hk allowed hlist.cell hx)
                ⟨hK.refl t, hcode, fun hlive => ?_⟩
              have hexposed := hL.exposed hlive hlist.cell
              simp [hx] at hexposed
          | false =>
              by_cases hm : t.Expands x
              · -- A macro call: fewer expansions are allowed for what comes of it.
                cases allowed with
                | zero =>
                    exact .of_halt (expandMacros_tooDeep hk hlist.cell hx hm) (hF _ (.tooDeep _))
                | succ allowed =>
                    by_cases hargs : d.isPair = true ∨ d = .nil
                    · obtain ⟨f, body, hf⟩ := expander?_of_expands hm
                      let e : Expansion := ⟨t, x, f, body, d⟩
                      have hat : e.At r := ⟨hlist.cell, hx, hf, hargs⟩
                      refine .of_eq (.bind (he e (.here hat)).with_gives ?_)
                        (expandMacros_call hk allowed hat)
                      rintro w u ⟨⟨n, hn⟩, hu, hw, hlive⟩
                      refine (again allowed (by omega) hw (.refl u) ?_ (tendsto_pred hk)).mono ?_
                      · exact fun e' he' => he e' (.again hat hn he')
                      · rintro w' u' ⟨hu', hw', hdead⟩
                        exact ⟨hK.trans hu hu', hw', fun h => hdead (hlive r hat h)⟩
                    · have hpair : d.isPair = false := by simpa using fun h => hargs (.inl h)
                      have hnil : d ≠ .nil := fun h => hargs (.inr h)
                      exact .of_halt (expandMacros_notProper hk allowed hlist.cell hx hm hpair hnil
                        (hlist.rest.isPromise hlist.promise)) (hF _ (.notProper _))
              · have hgives : ∀ n y u w u',
                    (ofFuel n).expandMacros (k n - 1) allowed y u = .ok w u' →
                    Pass.Gives (.expand allowed) y u w u' := fun n _ _ _ _ h => ⟨n, k n - 1, h⟩
                have hitem : ∀ y ∈ x :: xs, ∀ u, K t u →
                    Visits (Pass.Gives (.expand allowed)) (.pair r) t y u →
                    Settles F u (fun n => (ofFuel n).expandMacros (k n - 1) allowed y)
                      fun w u' => K u u' ∧ u'.store.Acyclic w ∧ ¬ Live t y := by
                  intro y hy u hu hvisit
                  have hsettles := ih y hy (ht.trans (hK.retains hu))
                    (fun e hmet => he e (.item hlist.cell hx hm hvisit hmet)) (tendsto_pred hk)
                  exact hsettles.mono fun w u' h => ⟨h.1, h.2.1, fun hl => h.2.2 (hL.mono hu hl)⟩
                have hmap := mapList_acyclic hK hF hgives hlist hitem
                refine (hmap.mono ?_).of_eq (expandMacros_list hk allowed hlist.cell hx hm)
                rintro w u ⟨hu, hw, -, hdead⟩
                refine ⟨hu, hw, fun hlive => ?_⟩
                obtain ⟨y, hy, hyl⟩ := hL.item hlive hlist hm
                exact hdead y hy hyl

/-- No property of forms. -/
theorem lasting_false : Lasting State.Retains fun _ _ => False where
  keeping := State.Retains.keeping
  mono _ h := h
  pair h := h.elim
  exposed h := h.elim
  item h := h.elim

theorem expandMacros_settles_of_expansions {allowed : Nat} {v : Value} (hv : t.store.Acyclic v)
    (he : ∀ e : Expansion, e.Met (.expand allowed) v t → e.Settles Halt.IsEnd)
    (hk : Tendsto k atTop atTop) :
    Settles Halt.IsEnd t (fun n => (ofFuel n).expandMacros (k n) allowed v) fun w u =>
      t.Retains u ∧ u.store.Acyclic w := by
  refine (expandMacros_settles lasting_false CutOff.isEnd hv (.refl t) ?_ hk).mono
    fun w u h => ⟨h.1, h.2.1⟩
  intro e hmet
  refine (he e hmet).with_gives.mono ?_
  rintro w u ⟨⟨n, hn⟩, hw, hcells⟩
  exact ⟨⟨hcells, capacity_expandCall hn⟩, hw, fun _ _ h => h.elim⟩

/-! ## Nested lambdas -/

/-- Compiling comes to an end if every expansion on the way does. -/
def CompileSettles (kind : CallableKind) (v : Value) (s : State) : Prop :=
  (∀ e : Expansion, e.Met (.compile kind) v s → e.Settles Halt.IsEnd) →
    ∀ k, Tendsto k atTop atTop →
      Settles Halt.IsEnd s (fun n => (ofFuel n).compileWithin (k n) kind v) fun w t =>
        s.Retains t ∧ t.store.Acyclic w

theorem compileInner_inert (hk : Tendsto k atTop atTop) {v : Value} (hv : t.store.Inert v) :
    ∀ᶠ n in atTop, (ofFuel n).compileInner (k n) v t = .ok v t := by
  rcases hv with hv | ⟨r, d, rfl, hr, -⟩
  · refine .of_forall fun n => ?_
    rw [compileInner_word _ hv]
    rfl
  · filter_upwards [eventually_succ hk] with n hn
    rw [hn, compileInner, bind_of_ok (car_apply r t), Store.car_of_cell? hr]
    rfl

/-- Making templates comes to an end if compiling the lambdas does. -/
theorem compileInner_settles {room : Nat}
    (hcompile : ∀ v t, t.store.Acyclic v → t.store.room < room → CompileSettles .template v t)
    {v : Value} (hv : s.store.Acyclic v) (ht : s.Retains t) (hroom : t.store.room < room)
    (he : ∀ e : Expansion, e.Met .inner v t → e.Settles Halt.IsEnd)
    (hk : Tendsto k atTop atTop) :
    Settles Halt.IsEnd t (fun n => (ofFuel n).compileInner (k n) v) fun w u =>
      t.Retains u ∧ u.store.Acyclic w := by
  have hend : ∀ f, Halt.IsEnd (.failed f) := by simp [Halt.IsEnd]
  induction hv using Store.Acyclic.induct generalizing t k with
  | inert v hv =>
      have hinert := hv.retains ht
      exact .of_ok (compileInner_inert hk hinert) ⟨.refl t, hinert.acyclic⟩
  | list r x d xs tail hlist hxs ih =>
      have hlist := hlist.retains ht
      have hxs := fun y hy => (hxs y hy).retains ht
      have hq : ¬ x.isSym Symbol.quote = true := fun h => hlist.head (Value.isSym_iff.1 h)
      by_cases hl : x = .sym Symbol.lambda
      · subst hl
        have hrest := hlist.rest_acyclic hxs
        refine .of_eq (y := fun n => (ofFuel n).cdrCell r >>= (ofFuel n).compileWithin (k n - 1)
          .template) (.bind (cdrCell_settles (fun _ => hend _) hlist.cell
            (hlist.rest.isPromise hlist.promise)) ?_) ?_
        · rintro rest u ⟨rfl, rfl, -⟩
          exact hcompile rest u hrest hroom (fun e hmet => he e (.lambda hlist.cell hmet)) _
            (tendsto_pred hk)
        · filter_upwards [eventually_succ hk] with n hn
          rw [hn, compileInner, bind_of_ok (car_apply r t), Store.car_of_cell? hlist.cell]
          rfl
      by_cases hm : x = .sym Symbol.expander
      · subst hm
        have hnested := hend ⟨.malformed (FormFault.nestedMacro (textIn t (.pair r))).message, #[]⟩
        refine .of_halt (t := t) ?_ hnested
        filter_upwards [eventually_succ hk] with n hn
        rw [hn, compileInner, bind_of_ok (car_apply r t), Store.car_of_cell? hlist.cell]
        rfl
      have hx := isLeftAlone_eq_false hlist.head hl hm
      have hgives : ∀ n y u w u', (ofFuel n).compileInner (k n - 1) y u = .ok w u' →
          Pass.Gives .inner y u w u' := fun n _ _ _ _ h => ⟨n, k n - 1, h⟩
      have hmap := mapList_acyclic (N := fun _ => True) State.Retains.keeping CutOff.isEnd hgives
        hlist fun y hy u hu hvisit => (ih y hy (ht.trans hu) (Nat.lt_of_le_of_lt hu.room_le hroom)
          (fun e hmet => he e (.innerItem hlist.cell hx hvisit hmet)) (tendsto_pred hk)).mono
            fun w u' h => ⟨h.1, h.2, trivial⟩
      refine (hmap.mono fun w u h => ⟨h.1, h.2.1⟩).of_eq ?_
      filter_upwards [eventually_succ hk] with n hn
      have hl' : ¬ x.isSym Symbol.lambda = true := fun h => hl (Value.isSym_iff.1 h)
      have hm' : ¬ x.isSym Symbol.expander = true := fun h => hm (Value.isSym_iff.1 h)
      rw [hn, compileInner, bind_of_ok (car_apply r t), Store.car_of_cell? hlist.cell, if_neg hq,
        if_neg hl', if_neg hm']
      rfl

/-! ## Compiling -/

theorem prepare_settles {r : Ref .cell} {x d tail : Value} {xs : List Value}
    (hlist : s.store.Lists r x d xs tail) (hxs : ∀ y ∈ x :: xs, s.store.Acyclic y) :
    Settles Halt.IsEnd s (fun n => (ofFuel n).prepare r) fun p t => s.Retains t ∧
      t.store.Acyclic p.2 ∧ (t.store.Inert p.2 ∨ t.store.room < s.store.room) := by
  have hend : ∀ f, Halt.IsEnd (.failed f) := by simp [Halt.IsEnd]
  have hopen : ∀ n, (ofFuel n).prepare r s = ((ofFuel n).parameters x >>= fun ps =>
      (ofFuel n).cdrCell r >>= fun forms => (ofFuel n).resolve ps n forms >>= fun forms =>
        pure (ps, forms)) s := by
    intro n
    rw [prepare, bind_of_ok (car_apply r s), Store.car_of_cell? hlist.cell]
    rfl
  have hrest := hlist.rest_acyclic hxs
  refine .of_eq (.bind (parameters_settles (hxs x (by simp))) ?_) (.of_forall hopen)
  rintro ps u rfl
  refine .bind (cdrCell_settles (fun _ => hend _) hlist.cell
    (hlist.rest.isPromise hlist.promise)) ?_
  rintro _ u ⟨rfl, rfl, -⟩
  refine .bind (resolve_settles CutOff.isEnd ps hrest (.refl u) tendsto_id) ?_
  intro forms t h
  exact .of_ok (.of_forall fun _ => rfl) h

theorem complete_settles {room : Nat}
    (hcompile : ∀ v t, t.store.Acyclic v → t.store.room < room → CompileSettles .template v t)
    {forms : Value} (hforms : t.store.Acyclic forms)
    (hroom : t.store.Inert forms ∨ t.store.room < room)
    (hbody : ∀ e : Expansion, e.Met (.expand t.config.maxMacroExpansions) forms t →
      e.Settles Halt.IsEnd)
    (hnested : ∀ (e : Expansion) w u,
      Pass.Gives (.expand t.config.maxMacroExpansions) forms t w u → e.Met .inner w u →
      e.Settles Halt.IsEnd)
    (kind : CallableKind) (ps : Parameters) (hk : Tendsto k atTop atTop) :
    Settles Halt.IsEnd t (fun n => (ofFuel n).complete (k n) kind (ps, forms)) fun w u =>
      t.Retains u ∧ u.store.Acyclic w := by
  have hmake : ∀ (u : State) (shape : Shape) (body : Value), t.Retains u →
      Settles Halt.IsEnd u (fun _ => alloc (·.newCallable (kind.make shape body))) fun w u' =>
        t.Retains u' ∧ u'.store.Acyclic w := by
    intro u shape body hu
    refine .of_ok (.of_forall fun _ => alloc_apply _ u) ⟨hu.trans ⟨?_, rfl⟩, .word rfl⟩
    exact fun r c h => h
  rcases hroom with hinert | hroom
  · -- Nothing is expanded or compiled, so no room is needed.
    refine .of_eq (hmake t ps.shape forms (.refl t)) ?_
    filter_upwards [expandMacros_inert tendsto_id t.config.maxMacroExpansions hinert,
      compileInner_inert hk hinert] with n hexpand hinner
    rw [complete, bind_of_ok (gets_apply _ t)]
    exact (bind_of_ok hexpand).trans (bind_of_ok hinner)
  · have hexpand := expandMacros_settles_of_expansions hforms hbody tendsto_id
    refine .of_eq (.bind hexpand.with_gives ?_) (.of_forall fun n => rfl)
    rintro w u ⟨⟨n, hn⟩, hu, hw⟩
    refine .bind (compileInner_settles hcompile hw (.refl u)
      (Nat.lt_of_le_of_lt hu.room_le hroom) (fun e hmet => hnested e w u ⟨n, n, hn⟩ hmet) hk) ?_
    rintro body u' ⟨hu', -⟩
    exact hmake u' ps.shape body (hu.trans hu')

theorem compile_settles {v : Value} (hv : s.store.Acyclic v) (kind : CallableKind) :
    CompileSettles kind v s := by
  have hend : ∀ f, Halt.IsEnd (.failed f) := by simp [Halt.IsEnd]
  induction hroom : s.store.room using Nat.strong_induction_on generalizing s v kind with
  | _ room ih =>
      subst hroom
      intro he k hk
      cases hv using Store.Acyclic.induct with
      | inert v hv =>
          rcases hv with hv | ⟨r, d, rfl, hr, -⟩
          · refine .of_halt (t := s) ?_ (hend ⟨.malformed FormFault.parametersAndBody.message, #[]⟩)
            filter_upwards [eventually_succ hk] with n hn
            rw [hn]
            cases v <;> first | rfl | simp [Value.isPair] at hv
          · -- The parameter list would be a keyword.
            refine .of_halt (t := s) ?_ (hend ⟨.malformed
              (FormFault.parameters (textIn s (.sym Symbol.quote))).message, #[]⟩)
            filter_upwards [eventually_succ hk] with n hn
            rw [hn, compileWithin, bind_of_ok (car_apply r s), Store.car_of_cell? hr]
            rfl
      | list r x d xs tail hlist hxs _ =>
          refine .of_eq (.bind (prepare_settles hlist hxs).with_gives ?_)
            (y := fun n => (ofFuel n).prepare r >>= (ofFuel n).complete (k n - 1) kind) ?_
          · rintro p t ⟨⟨n, hn⟩, ht, hforms, hsmall⟩
            have hprepared : Prepared (.pair r) s p.2 t := ⟨n, r, p.1, rfl, hn⟩
            have hbelow : ∀ v u, u.store.Acyclic v → u.store.room < s.store.room →
                CompileSettles .template v u := fun v u hu hlt => ih _ hlt hu .template rfl
            have hcomplete := complete_settles hbelow hforms hsmall
              (fun e hmet => he e (.body hprepared hmet))
              (fun e w u hw hmet => he e (.nested hprepared hw hmet)) kind p.1 (tendsto_pred hk)
            exact hcomplete.mono fun w u h => ⟨ht.trans h.1, h.2⟩
          · filter_upwards [eventually_succ hk] with n hn
            rw [hn, compileWithin_pair]
            rfl

end Engine

/-! ## Macros that expand to calls of themselves -/

/-- The form calls the macro where expansion comes to it: not within quoted data, lambdas and macro
definitions, nor in the arguments of another macro. -/
inductive State.Calls (s : State) (m : Symbol) : Value → Prop
  | here {r : Ref .cell} {d : Value} : s.store.cell? r = some ⟨.sym m, d⟩ →
      Engine.isLeftAlone (.sym m) = false → s.Expands (.sym m) → s.Calls m (.pair r)
  | within {r : Ref .cell} {x y tail : Value} {xs : List Value} :
      s.store.Chain (x :: xs) tail (.pair r) → Engine.isLeftAlone x = false →
      (∀ f, x ≠ .callable f) → ¬ s.Expands x → y ∈ x :: xs → s.Calls m y → s.Calls m (.pair r)

/-- The same names denote macros. -/
def State.SameMacros (s t : State) : Prop := ∀ x : Symbol, t.Expands (.sym x) ↔ s.Expands (.sym x)

/-- The call is expanded to code, which leaves the cells and the names of macros as they are. If it
is a call of `m`, its expansion calls `m` again. -/
def Expansion.Reproduces (m : Symbol) (e : Expansion) : Prop :=
  Eval.Settles (fun _ => False) e.state e.expand fun w t => t.store.Acyclic w ∧
    e.state.store.KeepsCells t.store ∧ e.state.SameMacros t ∧ (e.head = .sym m → t.Calls m w)

namespace Engine

/-- Cells and names of macros are kept. -/
structure Steady (s t : State) : Prop where
  retains : s.Retains t
  macros : s.SameMacros t

theorem Steady.keeping : Keeping Steady where
  refl s := ⟨.refl s, fun _ => Iff.rfl⟩
  trans h h' := ⟨h.retains.trans h'.retains, fun x => (h'.macros x).trans (h.macros x)⟩
  retains h := h.retains
  adds := by
    intro s t hadd ht
    refine ⟨.of_addsCells hadd, fun x => ?_⟩
    have hglobals : t.globals = s.globals := by rw [ht]
    have hcallables : t.store.callables = s.store.callables := by rw [hadd.rest]
    simp only [State.Expands, State.global?, Store.callable, hglobals, hcallables]

theorem Steady.not_expands {s t : State} (h : Steady s t) {x : Value} (hx : ∀ f, x ≠ .callable f)
    (hs : ¬ s.Expands x) : ¬ t.Expands x := by
  cases x with
  | sym x => exact fun ht => hs ((h.macros x).1 ht)
  | callable f => exact absurd rfl (hx f)
  | _ => exact hs

theorem lasting_calls (m : Symbol) : Lasting Steady (·.Calls m) where
  keeping := Steady.keeping
  mono := by
    intro s t v hst hv
    induction hv with
    | here hr hm hx => exact .here (hst.retains.cells _ _ hr) hm ((hst.macros m).2 hx)
    | within hchain hx hf hm hy _ ih =>
        exact .within (hchain.keeps hst.retains.cells) hx hf (hst.not_expands hf hm) hy ih
  pair := by
    intro s v hv
    cases hv <;> rfl
  exposed := by
    intro s r x d hv hr
    cases hv with
    | here hr' hm _ =>
        cases hr.symm.trans hr'
        exact hm
    | within hchain hx _ _ _ _ =>
        obtain ⟨_, _, hq, hr', -⟩ := hchain
        cases hq
        cases hr.symm.trans hr'
        exact hx
  item := by
    intro s r x d tail xs hv hlist hx
    cases hv with
    | here hr _ hm =>
        cases hlist.cell.symm.trans hr
        exact absurd hm hx
    | @within _ _ y _ _ hchain _ _ _ hy hcalls =>
        exact ⟨y, hchain.mem hlist.chain hlist.pair y hy, hcalls⟩

/-- A macro call that calls `m` is a call of `m` itself. -/
theorem head_of_calls {e : Expansion} {m : Symbol} {r : Ref .cell} (hat : e.At r)
    (h : e.state.Calls m (.pair r)) : e.head = .sym m := by
  obtain ⟨t, head, f, body, args⟩ := e
  cases h with
  | here hr _ _ =>
      cases hat.cell.symm.trans hr
      rfl
  | within hchain _ _ hx _ _ =>
      obtain ⟨_, _, hq, hr, -⟩ := hchain
      cases hq
      cases hat.cell.symm.trans hr
      exact absurd hat.expands hx

/-- Where a macro is called whose expansions all call it again, expansion is cut off. -/
theorem expandMacros_settles_of_calls {m : Symbol} {allowed : Nat} {v : Value}
    (hv : t.store.Acyclic v) (hcalls : t.Calls m v)
    (he : ∀ e : Expansion, e.Met (.expand allowed) v t → e.Reproduces m)
    (hk : Tendsto k atTop atTop) :
    Settles CutOff t (fun n => (ofFuel n).expandMacros (k n) allowed v) fun _ _ => False := by
  refine (expandMacros_settles (lasting_calls m) (fun _ h => h) hv (.refl t) ?_ hk).mono
    fun w u h => h.2.2 hcalls
  intro e hmet
  refine ((he e hmet).with_gives.mono ?_).mono_halt fun _ h => h.elim
  rintro w u ⟨⟨n, hn⟩, hw, hcells, hmacros, hself⟩
  refine ⟨⟨⟨hcells, capacity_expandCall hn⟩, hmacros⟩, hw, fun r hat hcall => hself ?_⟩
  exact head_of_calls hat hcall

/-- With more fuel the forms come out the same. -/
theorem prepare_mono {n m : Nat} (hn : n ≤ m) {r : Ref .cell} {p : Parameters × Value}
    (h : (ofFuel n).prepare r s = .ok p t) : (ofFuel m).prepare r s = .ok p t := by
  let L := Simulation.same
  have hE : L.Engines (ofFuel n) (ofFuel m) := Simulation.same.engines hn
  have hgood : ∀ v, Guard.free.Good () v := fun _ => trivial
  have hprepare : L.Gives () (fun _ _ => True) ((ofFuel n).prepare r) ((ofFuel m).prepare r) := by
    refine L.bind (L.car (hgood (.pair r))) fun _ _ head hhead => ?_
    refine L.bind (L.parameters hE hhead) fun _ _ ps hps => ?_
    refine L.bind (L.cdrCell hE (hgood (.pair r))) fun _ _ forms hforms => ?_
    refine L.bind (L.resolve hE hps hE.fuel hforms) fun _ _ forms hforms => ?_
    exact L.give trivial
  have hmatch := hprepare s s rfl
  rw [h] at hmatch
  exact Simulation.eq_of_match_same hmatch trivial

/-- Prepared forms are acyclic code, and what the compiler goes on with. -/
theorem prepared_acyclic {v forms : Value} (hv : s.store.Acyclic v) (h : Prepared v s forms t)
    (kind : CallableKind) :
    t.store.Acyclic forms ∧ ∃ ps, ∀ᶠ n in atTop,
      (ofFuel n).compile kind v s = (ofFuel n).complete (n - 1) kind (ps, forms) t := by
  obtain ⟨n₀, r, ps, rfl, hn₀⟩ := h
  have heventually : ∀ᶠ n in atTop, (ofFuel n).prepare r s = .ok (ps, forms) t := by
    filter_upwards [eventually_ge_atTop n₀] with n hn
    exact prepare_mono hn hn₀
  constructor
  · cases hv using Store.Acyclic.induct with
    | inert _ hv =>
        rcases hv with hv | ⟨q, d, hq, hr, -⟩
        · cases hv
        · cases hq
          rw [prepare, bind_of_ok (car_apply r s), Store.car_of_cell? hr] at hn₀
          cases hn₀
    | list _ x d xs tail hlist hxs _ =>
        obtain ⟨o, ho, hsettles⟩ := prepare_settles hlist hxs
        obtain ⟨n, hn, hn'⟩ := (heventually.and hsettles).exists
        cases hn.symm.trans hn'
        exact ho.2.1
  · refine ⟨ps, ?_⟩
    filter_upwards [heventually, eventually_succ tendsto_id] with n hn hsucc
    rw [compile, show (ofFuel n).fuel = n - 1 + 1 from hsucc, compileWithin_pair, bind_of_ok hn]

/-- Compiling acyclic code comes to an end whenever the expansions on the way do. If the body calls
a macro whose expansions all call it again, compiling fails: the expansions get too deep, unless
before that the cells run out or a list is not proper. -/
theorem compile_cut_off {v : Value} {s : State} (hv : s.store.Acyclic v) (kind : CallableKind)
    (he : ∀ e : Expansion, e.Met (.compile kind) v s → e.Settles Halt.IsEnd) :
    (∃ o, o.Ends ∧ ∀ᶠ n in atTop, (ofFuel n).compile kind v s = o) ∧
    ∀ m forms t, Prepared v s forms t → t.Calls m forms →
      (∀ e : Expansion, e.Met (.expand t.config.maxMacroExpansions) forms t → e.Reproduces m) →
      ∃ h u, CutOff h ∧ ∀ᶠ n in atTop, (ofFuel n).compile kind v s = .halt h u := by
  constructor
  · obtain ⟨o, ho, hsettles⟩ := compile_settles hv kind he id tendsto_id
    exact ⟨o, ho.ends, hsettles⟩
  · intro m forms t hprepared hcalls hagain
    obtain ⟨hforms, ps, hcompile⟩ := prepared_acyclic hv hprepared kind
    obtain ⟨o, ho, hn⟩ := expandMacros_settles_of_calls hforms hcalls hagain tendsto_id
    cases o with
    | ok w u => exact ho.elim
    | halt h u =>
        refine ⟨h, u, ho, ?_⟩
        filter_upwards [hcompile, hn] with n hcompile hn
        rw [hcompile, complete, bind_of_ok (gets_apply _ t)]
        exact bind_of_halt hn

/-- A macro without parameters whose body is one quoted form expands to that form. -/
theorem expandCall_quoted {b q : Ref .cell} {c : Value}
    (hb : t.store.Chain [.pair q] .nil (.pair b))
    (hq : t.store.Chain [.sym Symbol.quote, c] .nil (.pair q)) (n : Nat) :
    (ofFuel (n + 1)).expandCall (.expander ⟨0, false⟩ (.pair b)) (.pair b) .nil t =
      .ok c { t with frames := t.frames.push #[] none } := by
  obtain ⟨_, _, hb', hbody, rfl⟩ := hb
  cases hb'
  obtain ⟨_, _, hq', hquote, _, _, rfl, hform, rfl⟩ := hq
  cases hq'
  have hspecial : Special.ofSymbol? Symbol.quote = some .quote := rfl
  have hkey := isKeyword_of_ofSymbol? hspecial t.symbols
  simp [-bind_pure_comp, expandCall, makeFrame, takeItems, Callable.shape, extend, Value.isNil,
    sequence, sequenceWithin, ofFuel, bind_apply, Store.car_of_cell? hbody,
    Store.cdr_of_cell? hbody, cdrCell, evaluate, step, pairStep, Eval.onFailure,
    Store.car_of_cell? hquote, Store.cdr_of_cell? hquote, Eval.isKeyword, hkey, hspecial, special,
    operand?, Store.cdr_of_cell? hform, Store.car_of_cell? hform]

/-- A state in which `m`, the symbol 17, is the macro `(macro () '(m))`. The cell 4 is `(nil (m))`,
and further cells are as given. -/
def selfCalling (cells : Array Cell) (frames : Frames) : State where
  console := { answers := [] }
  symbols := .ofNames ["m"]
  config := { maxMacroExpansions := 1 }
  globals := Array.replicate 17 none ++ #[some (.callable ⟨0⟩)]
  frames
  store := {
    capacity := 100
    callables := #[.expander ⟨0, false⟩ (.pair ⟨3⟩)]
    cells := #[⟨.sym ⟨17⟩, .nil⟩, ⟨.pair ⟨0⟩, .nil⟩, ⟨.sym Symbol.quote, .pair ⟨1⟩⟩,
      ⟨.pair ⟨2⟩, .nil⟩, ⟨.nil, .pair ⟨1⟩⟩] ++ cells }

/-- The state after the parameters of `(nil (m))` are read and its forms are scanned. -/
def selfCallingPrepared : State := selfCalling #[⟨.sym ⟨17⟩, .nil⟩, ⟨.pair ⟨5⟩, .nil⟩] {}

/-- The call of `m` in the scanned forms. -/
def selfCall : Expansion :=
  ⟨selfCallingPrepared, .sym ⟨17⟩, .expander ⟨0, false⟩ (.pair ⟨3⟩), .pair ⟨3⟩, .nil⟩

theorem prepare_selfCalling :
    (ofFuel 4).prepare ⟨4⟩ (selfCalling #[] {}) = .ok ({}, .pair ⟨6⟩) selfCallingPrepared := by
  rfl

theorem expands_selfCalling (cells : Array Cell) (frames : Frames) :
    (selfCalling cells frames).Expands (.sym ⟨17⟩) :=
  ⟨⟨0⟩, ⟨0, false⟩, .pair ⟨3⟩, rfl, rfl⟩

theorem expand_selfCall (n : Nat) : selfCall.expand (n + 1) selfCallingPrepared =
    .ok (.pair ⟨0⟩) { selfCallingPrepared with frames := Frames.push {} #[] none } :=
  expandCall_quoted ⟨_, _, rfl, rfl, rfl⟩ ⟨_, _, rfl, rfl, _, _, rfl, rfl, rfl⟩ n

theorem eq_selfCall {e : Expansion} (hat : e.At ⟨5⟩) (hs : e.state = selfCallingPrepared) :
    e = selfCall := by
  obtain ⟨t, head, f, body, args⟩ := e
  subst hs
  cases hat.cell
  cases hat.denotes
  rfl

/-- The only macro call that is met in the scanned forms is the one in them: of what it expands to
no expansion is allowed. -/
theorem eq_selfCall_of_met {e : Expansion}
    (h : e.Met (.expand 1) (.pair ⟨6⟩) selfCallingPrepared) : e = selfCall := by
  have houter : ∀ e' : Expansion, e'.At ⟨6⟩ → e'.state = selfCallingPrepared → False := by
    intro e' hat hs
    obtain ⟨t, head, f, body, args⟩ := e'
    subst hs
    have hexpands := hat.expands
    cases hat.cell
    exact hexpands
  obtain ⟨r, hr, hcases⟩ := h.expand_cases
  cases hr
  rcases hcases with ⟨hat, hs, -⟩ | ⟨first, n, w, u, k, hat, hs, -⟩ |
    ⟨head, d, x, u, -, -, -, hvisit, hmet⟩
  · exact (houter e hat hs).elim
  · exact (houter first hat hs).elim
  cases hvisit with
  | next hcell _ _ hlater =>
      cases hcell
      cases hlater
  | here hcell =>
      cases hcell
      obtain ⟨r, hr, hcases⟩ := hmet.expand_cases
      cases hr
      rcases hcases with ⟨hat, hs, -⟩ | ⟨first, n, w, u, k, hat, hs, hk, hn, hmet⟩ |
        ⟨head, d, x, u, hcell, -, hnone, -⟩
      · exact eq_selfCall hat hs
      · cases hk
        rw [eq_selfCall hat hs] at hn
        cases n with
        | zero => cases hn
        | succ n =>
            cases (expand_selfCall n).symm.trans hn
            obtain ⟨r, hr, hcases⟩ := hmet.expand_cases
            cases hr
            rcases hcases with ⟨-, -, k, hk⟩ | ⟨_, _, _, _, k, -, -, hk, -⟩ |
              ⟨head, d, x, u, hcell, -, hnone, -⟩
            · cases hk
            · cases hk
            · cases hcell
              exact absurd (expands_selfCalling _ _) hnone
      · cases hcell
        exact absurd (expands_selfCalling _ _) hnone

theorem acyclic_call {store : Store} {r : Ref .cell} {x : Symbol}
    (hr : store.cell? r = some ⟨.sym x, .nil⟩) : store.Acyclic (.pair r) := by
  have hchain : store.Chain [.sym x] .nil (.pair r) := ⟨r, .nil, rfl, hr, rfl⟩
  refine .list hchain rfl rfl fun y hy => ?_
  cases List.mem_singleton.1 hy
  exact .word rfl

theorem selfCall_reproduces : selfCall.Reproduces ⟨17⟩ := by
  refine .of_ok (a := .pair ⟨0⟩)
    (t := { selfCallingPrepared with frames := Frames.push {} #[] none }) ?_ ?_
  · filter_upwards [eventually_succ tendsto_id] with n hn
    rw [show n = n - 1 + 1 from hn]
    exact expand_selfCall (n - 1)
  · refine ⟨?_, .refl _, fun _ => Iff.rfl, fun _ => ?_⟩
    · exact acyclic_call rfl
    · exact .here rfl rfl (expands_selfCalling _ _)

theorem expandMacros_mono {n m k j allowed : Nat} (hn : n ≤ m) (hk : k ≤ j) {v w : Value}
    (h : (ofFuel n).expandMacros k allowed v s = .ok w t) :
    (ofFuel m).expandMacros j allowed v s = .ok w t := by
  have hgood : Guard.free.Good () v := trivial
  have hmatch : Simulation.same.Match () _ ((ofFuel n).expandMacros k allowed v s)
      ((ofFuel m).expandMacros j allowed v s) :=
    Simulation.same.expandMacros (Simulation.same.engines hn) hk hgood s s rfl
  rw [h] at hmatch
  exact Simulation.eq_of_match_same hmatch trivial

/-- Compiling `(nil (m))` is cut off. -/
theorem compile_cut_off_selfCalling : ∃ h u, CutOff h ∧ ∀ᶠ n in atTop,
    (ofFuel n).compile .template (.pair ⟨4⟩) (selfCalling #[] {}) = .halt h u := by
  have hv : (selfCalling #[] {}).store.Acyclic (.pair ⟨4⟩) := by
    have hchain : (selfCalling #[] {}).store.Chain [.nil, .pair ⟨0⟩] .nil (.pair ⟨4⟩) :=
      ⟨_, _, rfl, rfl, _, _, rfl, rfl, rfl⟩
    refine .list hchain rfl rfl fun x hx => ?_
    rcases List.mem_cons.1 hx with rfl | hx
    · exact .word rfl
    · cases List.mem_singleton.1 hx
      exact acyclic_call rfl
  have houter : selfCallingPrepared.store.Chain [.pair ⟨5⟩] .nil (.pair ⟨6⟩) :=
    ⟨_, _, rfl, rfl, rfl⟩
  have hforms : selfCallingPrepared.store.Acyclic (.pair ⟨6⟩) := by
    refine .list houter rfl rfl fun x hx => ?_
    cases List.mem_singleton.1 hx
    exact acyclic_call rfl
  have hcall : selfCallingPrepared.Calls ⟨17⟩ (.pair ⟨5⟩) :=
    .here rfl rfl (expands_selfCalling _ _)
  have hcalls : selfCallingPrepared.Calls ⟨17⟩ (.pair ⟨6⟩) :=
    .within houter rfl nofun (fun h => h) (by simp) hcall
  have hbody : ∀ e : Expansion, e.Met (.expand 1) (.pair ⟨6⟩) selfCallingPrepared →
      e.Reproduces ⟨17⟩ := by
    intro e h
    rw [eq_selfCall_of_met h]
    exact selfCall_reproduces
  have hunique : ∀ forms t, Prepared (.pair ⟨4⟩) (selfCalling #[] {}) forms t →
      forms = .pair ⟨6⟩ ∧ t = selfCallingPrepared := by
    rintro forms t ⟨n, r, ps, hr, hn⟩
    cases hr
    have hlarge := prepare_mono (Nat.le_add_right n 4) hn
    cases (prepare_mono (Nat.le_add_left 4 n) prepare_selfCalling).symm.trans hlarge
    exact ⟨rfl, rfl⟩
  -- Expansion gives no value, so no nested lambda is ever reached.
  have hmet : ∀ e : Expansion, e.Met (.compile .template) (.pair ⟨4⟩) (selfCalling #[] {}) →
      e.Settles Halt.IsEnd := by
    intro e h
    cases h with
    | body hprepared hmet =>
        obtain ⟨rfl, rfl⟩ := hunique _ _ hprepared
        refine ((hbody e hmet).mono ?_).mono_halt fun _ h => h.elim
        exact fun w t h => ⟨h.1, h.2.1⟩
    | nested hprepared hgives _ =>
        obtain ⟨rfl, rfl⟩ := hunique _ _ hprepared
        obtain ⟨n, k, hn⟩ := hgives
        obtain ⟨o, ho, hsettles⟩ :=
          expandMacros_settles_of_calls hforms hcalls hbody tendsto_id
        obtain ⟨m, hm, hlarge⟩ :=
          (hsettles.and (eventually_ge_atTop (n + k))).exists
        have hok := expandMacros_mono (j := m) (show n ≤ m by omega) (by omega) hn
        cases hok.symm.trans hm
        exact ho.elim
  exact (compile_cut_off hv .template hmet).2 ⟨17⟩ _ _ ⟨4, ⟨4⟩, {}, rfl, prepare_selfCalling⟩
    hcalls hbody

end Engine

/-! ## Calls in nested lambdas -/

/-- The message of a failure. -/
def Outcome.refusal? {α : Type} : Outcome α → Option String
  | .halt (.failed f) _ => some f.message
  | _ => none

namespace Engine

open Code

/-- A state in which `m`, the symbol 17, is the macro `(macro () '(lambda () (m)))`, with one
expansion of an expansion allowed and room for a few more cells. -/
def nestedCalling : State where
  console := { answers := [] }
  symbols := .ofNames ["m"]
  config := { maxMacroExpansions := 1 }
  globals := Array.replicate 17 none ++ #[some (.callable ⟨0⟩)]
  store := {
    capacity := 20
    callables := #[.expander ⟨0, false⟩ (.pair ⟨6⟩)]
    cells := #[⟨.sym ⟨17⟩, .nil⟩, ⟨.pair ⟨0⟩, .nil⟩, ⟨.nil, .pair ⟨1⟩⟩,
      ⟨.sym Symbol.lambda, .pair ⟨2⟩⟩, ⟨.pair ⟨3⟩, .nil⟩, ⟨.sym Symbol.quote, .pair ⟨4⟩⟩,
      ⟨.pair ⟨5⟩, .nil⟩] }

/-- The expansions of a macro that calls itself in a nested lambda do not get too deep: compiling
goes on until the store is full. -/
theorem compile_runs_out_of_cells :
    (∀ n, (ofFuel (n + 1)).expandCall (.expander ⟨0, false⟩ (.pair ⟨6⟩)) (.pair ⟨6⟩) .nil
      nestedCalling = .ok (.pair ⟨3⟩)
        { nestedCalling with frames := nestedCalling.frames.push #[] none }) ∧
    Stands nestedCalling.store (.lambda [] [.list [.word (.sym ⟨17⟩)]]) (.pair ⟨3⟩) ∧
    ((ofFuel 40).compile .template (.pair ⟨2⟩) nestedCalling).refusal? =
      some "heap capacity of 20 cells exceeded" := by
  refine ⟨?_, ?_, by decide +kernel⟩
  · exact expandCall_quoted ⟨_, _, rfl, rfl, rfl⟩ ⟨_, _, rfl, rfl, _, _, rfl, rfl, rfl⟩
  · exact ⟨_, _, _, _, rfl, rfl, rfl, rfl, _, _, _, rfl, rfl, ⟨_, _, _, rfl, rfl, rfl, rfl⟩, rfl⟩

end Engine

end SmallLisp
