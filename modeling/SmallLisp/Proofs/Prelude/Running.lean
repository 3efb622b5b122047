import SmallLisp.Proofs.Arithmetic.Natives
import SmallLisp.Proofs.Compiler.Code
import SmallLisp.Proofs.Template.Calls
import SmallLisp.Proofs.Trampoline

/-!
# Code that runs to a value

What it takes for a piece of code to run to a value when nothing on the way fails and nothing that
was there is changed: only cells and frames are added. There is a rule for each kind of form, so the
run of a definition is put together along its text. The number is the fuel, of which there is enough
from some point on.
-/

namespace SmallLisp

open Eval Filter

/-! ## States that gain cells and frames -/

/-- The second state has more cells and frames than the first; all else is as it was. -/
structure State.Gains (s t : State) : Prop where
  cells : s.store.AddsCells t.store
  frames : ∀ (i : Nat) frame, s.frames.table[i]? = some frame → t.frames.table[i]? = some frame
  rest : t = { s with store := t.store, frames := t.frames }

namespace State.Gains

variable {s t u : State}

theorem refl (s : State) : s.Gains s := ⟨.refl _, fun _ _ h => h, rfl⟩

theorem trans (h : s.Gains t) (h' : t.Gains u) : s.Gains u := by
  refine ⟨h.cells.trans h'.cells, fun i frame hi => h'.frames i frame (h.frames i frame hi), ?_⟩
  have hu := h'.rest
  rw [h.rest] at hu
  exact hu

theorem of_addsCells (h : s.store.AddsCells t.store) (ht : t = { s with store := t.store }) :
    s.Gains t := by
  have hframes : t.frames = s.frames := by rw [ht]
  refine ⟨h, fun i frame hi => hframes ▸ hi, ?_⟩
  rw [hframes]
  exact ht

/-- A new frame. -/
theorem push (s : State) (slots : Array Value) (next : Env) :
    s.Gains { s with frames := s.frames.push slots next } := by
  refine ⟨.refl _, fun i frame hi => ?_, rfl⟩
  have hlt := (Array.getElem?_eq_some_iff.1 hi).1
  rw [Frames.push, Array.getElem?_push_lt hlt, ← Array.getElem?_eq_getElem hlt]
  exact hi

theorem symbols (h : s.Gains t) : t.symbols = s.symbols := by rw [h.rest]

theorem global? (h : s.Gains t) (x : Symbol) : t.global? x = s.global? x := by rw [h.rest]; rfl

theorem store (h : s.Gains t) : t.store = { s.store with cells := t.store.cells } := h.cells.rest

theorem callable (h : s.Gains t) (r : Ref .callable) : t.store.callable r = s.store.callable r := by
  rw [h.store]; rfl

theorem stands (h : s.Gains t) {c : Code} {v : Value} (hv : c.Stands s.store v) :
    c.Stands t.store v := by
  refine Code.Stands.keeps h.cells.keeps (fun i f hf => ?_) c hv
  rw [h.store]
  exact hf

theorem standsAll (h : s.Gains t) {cs : List Code} {v : Value} (hv : Code.StandsAll s.store cs v) :
    Code.StandsAll t.store cs v := by
  refine Code.StandsAll.keeps h.cells.keeps (fun i f hf => ?_) cs hv
  rw [h.store]
  exact hf

end State.Gains

theorem State.Grows.gains {s t : State} (h : s.Grows t) : s.Gains t := .of_addsCells h.cells h.rest

/-! ## Results -/

/-- With enough fuel the computation gives the value and leaves the state. -/
def Eval.Results {α : Type} (x : Nat → Eval α) (s : State) (a : α) (t : State) : Prop :=
  ∀ᶠ n in atTop, x n s = .ok a t

namespace Eval.Results

variable {α β : Type} {s t u : State}

theorem of_eq {x : Nat → Eval α} {a : α} (h : ∀ n, x n s = .ok a t) : Results x s a t :=
  .of_forall h

theorem congr {x y : Nat → Eval α} {a : α} (hy : Results y s a t)
    (hxy : ∀ᶠ n in atTop, x n s = y n s) : Results x s a t := by
  filter_upwards [hy, hxy] with n hn hxyn
  rw [hxyn, hn]

theorem «exists» {x : Nat → Eval α} {a : α} (h : Results x s a t) : ∃ n, x n s = .ok a t :=
  Filter.Eventually.exists h

end Eval.Results

/-- What a form evaluates to does not depend on the fuel. -/
theorem evaluate_unique {n m : Nat} {form v w : Value} {env : Env} {s t u : State}
    (hv : evaluate n form env s = .ok v t) (hw : evaluate m form env s = .ok w u) :
    v = w ∧ t = u := by
  have hmax := evaluate_mono (Nat.le_max_left n m) (by rw [hv]; trivial)
  rw [evaluate_mono (Nat.le_max_right n m) (by rw [hw]; trivial), hv, hw] at hmax
  cases hmax
  exact ⟨rfl, rfl⟩
/-- A form whose turn leads to a value has that value. -/
theorem Eval.Results.turn {v w : Value} {env : Env} {s t : State}
    (h : Results (fun n => (Engine.ofFuel n).step v env >>= (Engine.ofFuel n).finish) s w t) :
    Results (fun n => evaluate n v env) s w t := by
  refine eventually_of_succ ?_
  filter_upwards [h] with n hn
  obtain ⟨st, s₁, hstep, hfinish⟩ := bind_eq_ok.1 hn
  have htraced : ((Engine.ofFuel n).step v env).onFailure (Engine.traced v) s = .ok st s₁ := by
    rw [onFailure, hstep]
  rw [evaluate]
  refine (bind_of_ok htraced).trans ?_
  cases st <;> exact hfinish

/-- What a clause of a `cond` does once its test has a value: the cells are those of the clause
among the others and of the test in the clause. -/
def Engine.tested (E : Engine) (env : Env) (fuel : Nat) (r q : Ref .cell) (test : Value) :
    Eval Step := do
  if test.truthy then
    let forms ← E.cdrCell q
    if forms.isNil then pure (.done test)
    else
      let last ← E.body forms env
      pure (.next last env)
  else
    let next ← E.cdrCell r
    E.condWithin env fuel next

/-! ## Running -/

namespace Code

/-- Wherever the code stands, it evaluates to the value, and nothing but cells and frames is added
on the way. -/
structure Runs (c : Code) (env : Env) (s : State) (w : Value) (t : State) : Prop where
  result : ∀ {v}, c.Stands s.store v → Results (fun n => evaluate n v env) s w t
  gains : s.Gains t

/-- The code runs piece by piece, from left to right. -/
inductive RunsAll (env : Env) : List Code → State → List Value → State → Prop
  | nil {s : State} : RunsAll env [] s [] s
  | cons {c : Code} {cs : List Code} {w : Value} {ws : List Value} {s t u : State} :
      c.Runs env s w t → RunsAll env cs t ws u → RunsAll env (c :: cs) s (w :: ws) u

variable {c : Code} {cs : List Code} {env : Env} {s t u : State} {v w : Value} {ws : List Value}

theorem RunsAll.gains (h : RunsAll env cs s ws t) : s.Gains t := by
  induction h with
  | nil => exact .refl _
  | cons hc _ ih => exact hc.gains.trans ih

/-! ## Words -/

theorem Runs.literal (hw : w.isLiteral = true) : (word w).Runs env s w s where
  result := by
    rintro _ rfl
    exact Site.evaluate_literal hw env s
  gains := .refl s

theorem Runs.global {x : Symbol} (hx : s.global? x = some w) :
    (word (.sym x)).Runs env s w s where
  result := by
    rintro _ rfl
    exact Site.evaluate_global hx env
  gains := .refl s

theorem Runs.slot {a : Address} (ha : s.frames.lookup? env a.level a.offset = some w) :
    (word (.address a)).Runs env s w s where
  result := by
    rintro _ rfl
    refine eventually_of_succ (.of_forall fun n => ?_)
    simp [evaluate, Engine.step, bind_apply, onFailure, slot?, ha]
  gains := .refl s

/-! ## Special forms -/

theorem Runs.quote : (list [word (.sym Symbol.quote), word w]).Runs env s w s where
  result := by
    rintro _ ⟨r, _, args, rfl, hr, rfl, q, x, d, rfl, hq, hx, hd⟩
    cases hx
    cases hd
    exact eventually_of_succ (.of_forall fun n =>
      Site.evaluate_quote n env ⟨r, _, rfl, hr, q, _, rfl, hq, rfl⟩)
  gains := .refl s

/-- The forms of a body run, and this is the value of the last. -/
def RunsLast (env : Env) (cs : List Code) (s : State) (w : Value) (t : State) : Prop :=
  ∃ ws, RunsAll env cs s ws t ∧ ws.getLast? = some w

theorem RunsLast.single (h : c.Runs env s w t) : RunsLast env [c] s w t :=
  ⟨[w], .cons h .nil, rfl⟩

theorem RunsLast.body (h : RunsLast env cs s w t) (hv : StandsAll s.store cs v) :
    ∀ᶠ n in atTop, ∀ j, cs.length ≤ j → ((Engine.ofFuel n).bodyWithin env j v >>=
      fun last => evaluate n last env) s = .ok w t := by
  obtain ⟨ws, hws, hlast⟩ := h
  induction hws generalizing v with
  | nil => cases hlast
  | @cons c cs a ws s s₁ t hc hcs ih =>
      obtain ⟨r, form, d, rfl, hr, hform, hd⟩ := hv
      obtain ⟨vs, hchain, -⟩ := chain_of_standsAll hd
      cases hcs with
      | nil =>
          cases hlast
          cases hd
          filter_upwards [hc.result hform] with n hn j hj
          obtain ⟨j, rfl⟩ : ∃ i, j = i + 1 := Nat.exists_eq_succ_of_ne_zero (Nat.ne_zero_of_lt hj)
          rw [Engine.bodyWithin, bind_assoc, bind_of_ok (car_apply r s), Store.car_of_cell? hr,
            bind_assoc, bind_of_ok ((Engine.ofFuel n).cdrCell_of_list hr hchain)]
          exact hn
      | @cons c' cs b ws _ s₂ _ hc' hcs =>
          have hd' := hc.gains.standsAll hd
          obtain ⟨q, -, -, rfl, -⟩ := hd
          filter_upwards [hc.result hform, ih hd' hlast] with n hn hrest j hj
          obtain ⟨j, rfl⟩ : ∃ i, j = i + 1 := Nat.exists_eq_succ_of_ne_zero (Nat.ne_zero_of_lt hj)
          rw [Engine.bodyWithin, bind_assoc, bind_of_ok (car_apply r s), Store.car_of_cell? hr,
            bind_assoc, bind_of_ok ((Engine.ofFuel n).cdrCell_of_list hr hchain)]
          simp only [Value.isNil, Bool.false_eq_true, if_false]
          rw [bind_assoc, bind_of_ok (show (Engine.ofFuel n).eval form env s = .ok a s₁ from hn)]
          exact hrest j (Nat.le_of_succ_le_succ hj)

/-- The clauses of a `cond` lead to the value. -/
structure Picks (env : Env) (cls : List Code) (s : State) (w : Value) (t : State) : Prop where
  result : ∀ {v}, StandsAll s.store cls v → ∀ᶠ n in atTop, ∀ j, cls.length ≤ j →
    ((Engine.ofFuel n).condWithin env j v >>= (Engine.ofFuel n).finish) s = .ok w t
  gains : s.Gains t

theorem Picks.nil : Picks env [] s .nil s where
  result := by
    rintro _ rfl
    refine .of_forall fun n j _ => ?_
    cases j <;> rfl
  gains := .refl s

/-- The clauses of a `cond` are tried in turn. -/
theorem condWithin_clause {E : Engine} {j : Nat} {r q : Ref .cell} {form rest body : Value}
    (hr : s.store.cell? r = some ⟨.pair q, rest⟩) (hq : s.store.cell? q = some ⟨form, body⟩) :
    E.condWithin env (j + 1) (.pair r) s =
      (E.eval form env >>= fun v => E.force v >>= E.tested env j r q) s := by
  rw [Engine.condWithin, bind_of_ok (car_apply r s), Store.car_of_cell? hr]
  dsimp only
  rw [bind_of_ok (car_apply q s), Store.car_of_cell? hq]
  rfl

/-- A clause without a body gives the value of its test. -/
theorem tested_done {E : Engine} {j : Nat} {r q : Ref .cell} {form : Value}
    (hq : s.store.cell? q = some ⟨form, .nil⟩) (htrue : w.truthy = true) :
    E.tested env j r q w s = .ok (.done w) s := by
  have hcdr : E.cdrCell q s = .ok .nil s :=
    E.cdrCell_of_list hq (show s.store.Chain [] .nil .nil from rfl)
  rw [Engine.tested, if_pos htrue, bind_of_ok hcdr]
  rfl

/-- A clause whose test is true goes on with its body. -/
theorem tested_body {E : Engine} {j : Nat} {r q p : Ref .cell} {form : Value} {vs : List Value}
    (hq : s.store.cell? q = some ⟨form, .pair p⟩) (hbody : s.store.Chain vs .nil (.pair p))
    (htrue : w.truthy = true) :
    E.tested env j r q w s = (E.body (.pair p) env >>= fun last => pure (.next last env)) s := by
  have hpair : (Value.pair p).isNil = false := rfl
  rw [Engine.tested, if_pos htrue, bind_of_ok (E.cdrCell_of_list hq hbody), hpair,
    if_neg Bool.false_ne_true]

/-- After a clause whose test is nil come the others. -/
theorem tested_else {E : Engine} {j : Nat} {r q : Ref .cell} {clause rest : Value} {vs : List Value}
    (hr : s.store.cell? r = some ⟨clause, rest⟩) (hrest : s.store.Chain vs .nil rest) :
    E.tested env j r q .nil s = E.condWithin env j rest s := by
  have hfalse : Value.nil.truthy = false := rfl
  rw [Engine.tested, hfalse, if_neg Bool.false_ne_true, bind_of_ok (E.cdrCell_of_list hr hrest)]

/-- Where a clause stands whose test runs, the rest of the turn depends on its value. -/
theorem condWithin_test {a : Value} {bs cls : List Code} (hc : c.Runs env s a t)
    (ha : a.isPromise = false) (hv : StandsAll s.store (list (c :: bs) :: cls) v) :
    ∃ r q form body rest, t.store.cell? r = some ⟨.pair q, rest⟩ ∧
      t.store.cell? q = some ⟨form, body⟩ ∧ StandsAll t.store cls rest ∧
      StandsAll t.store bs body ∧ ∀ᶠ n in atTop, ∀ j,
        (Engine.ofFuel n).condWithin env (j + 1) v s = (Engine.ofFuel n).tested env j r q a t := by
  obtain ⟨r, _, rest, rfl, hr, ⟨q, form, body, rfl, hq, hform, hbody⟩, hrest⟩ := hv
  have hkeep := hc.gains.cells.keeps
  refine ⟨r, q, form, body, rest, hkeep r _ hr, hkeep q _ hq, hc.gains.standsAll hrest,
    hc.gains.standsAll hbody, ?_⟩
  filter_upwards [hc.result hform] with n hn j
  have hforce : (Engine.ofFuel n).force a t = .ok a t := by
    cases a <;> first | rfl | simp [Value.isPromise] at ha
  rw [condWithin_clause hr hq,
    bind_of_ok (show (Engine.ofFuel n).eval form env s = .ok a t from hn), bind_of_ok hforce]

theorem Picks.hit {a : Value} {b : Code} {bs cls : List Code} (hc : c.Runs env s a t)
    (ha : a.isPromise = false) (htrue : a.truthy = true) (hbody : RunsLast env (b :: bs) t w u) :
    Picks env (list (c :: b :: bs) :: cls) s w u where
  result := by
    intro v hv
    obtain ⟨r, q, form, body, rest, -, hq, -, hbs, hn⟩ := condWithin_test hc ha hv
    have hlast := hbody.body hbs
    obtain ⟨vs, hchain, -⟩ := chain_of_standsAll hbs
    obtain ⟨p, _, _, rfl, -⟩ := hbs
    filter_upwards [hn, hlast, eventually_ge_atTop (b :: bs).length] with n hn hb hlen j hj
    obtain ⟨j, rfl⟩ : ∃ i, j = i + 1 := Nat.exists_eq_succ_of_ne_zero (Nat.ne_zero_of_lt hj)
    rw [bind_apply, hn j, tested_body hq hchain htrue, ← bind_apply, bind_assoc]
    exact hb n hlen
  gains := by
    obtain ⟨ws, hws, -⟩ := hbody
    exact hc.gains.trans hws.gains

theorem Picks.miss {bs cls : List Code} (hc : c.Runs env s .nil t) (hcls : Picks env cls t w u) :
    Picks env (list (c :: bs) :: cls) s w u where
  result := by
    intro v hv
    obtain ⟨r, q, form, body, rest, hr, -, hrest, -, hn⟩ := condWithin_test hc rfl hv
    obtain ⟨vs, hchain, -⟩ := chain_of_standsAll hrest
    filter_upwards [hn, hcls.result hrest] with n hn hcls j hj
    obtain ⟨j, rfl⟩ : ∃ i, j = i + 1 := Nat.exists_eq_succ_of_ne_zero (Nat.ne_zero_of_lt hj)
    rw [bind_apply, hn j, tested_else hr hchain, ← bind_apply]
    exact hcls j (Nat.le_of_succ_le_succ hj)
  gains := hc.gains.trans hcls.gains

theorem Runs.cond {cls : List Code} (h : Picks env cls s w t) :
    (list (word (.sym Symbol.cond) :: cls)).Runs env s w t where
  result := by
    rintro _ ⟨r, _, args, rfl, hr, rfl, hargs⟩
    obtain ⟨vs, hchain, -⟩ := chain_of_standsAll hargs
    refine .turn ?_
    filter_upwards [h.result hargs, eventually_ge_atTop cls.length] with n hn hlen
    rw [bind_apply, Engine.step_special_of_list (k := .cond) rfl hr hchain]
    exact hn n hlen
  gains := h.gains

/-! ## Calls -/

end Code

/-- The turn of a call whose head denotes the callable; a template cannot be called. -/
def Engine.enter (E : Engine) (f : Callable) (args : Value) (env : Env) : Eval Step := do
  match f with
  | .closure shape body captured =>
      let frame ← E.makeFrame f args
      let frame ← E.evalFrame shape frame env
      let env ← extend frame captured
      let last ← E.body body env
      pure (.next last env)
  | .expander _ body =>
      let form ← E.expandCall f body args
      pure (.next form env)
  | .native m =>
      let frame ← E.makeFrame f args
      let frame ← (if m.isLazy then E.evalFrame m.shape frame env
        else E.forceFrame m.shape frame env)
      let v ← m.call E frame env
      pure (.done v)
  | .template .. => halt .exhausted

/-- The symbol is no keyword and denotes the callable. -/
def State.Defines (s : State) (x : Symbol) (f : Callable) : Prop :=
  s.symbols.isKeyword x = false ∧ ∃ r, s.global? x = some (.callable r) ∧ s.store.callable r = f

theorem State.Gains.defines {s t : State} (h : s.Gains t) {x : Symbol} {f : Callable}
    (hx : s.Defines x f) : t.Defines x f := by
  obtain ⟨hkey, r, hglobal, hf⟩ := hx
  exact ⟨h.symbols ▸ hkey, r, (h.global? x).trans hglobal, (h.callable r).trans hf⟩

namespace Code

variable {c : Code} {cs : List Code} {env : Env} {s t u : State} {v w : Value} {ws : List Value}

/-- The turn of a call, once its head is known. -/
theorem step_enter (env : Env) {x : Symbol} {f : Callable} {r : Ref .cell} {args : Value}
    {vs : List Value} {n : Nat} (hx : s.Defines x f)
    (hf' : ∀ shape body, f ≠ .template shape body)
    (hr : s.store.cell? r = some ⟨.sym x, args⟩) (hchain : s.store.Chain vs .nil args)
    (hn : 0 < n) :
    (Engine.ofFuel n).step (.pair r) env s = (Engine.ofFuel n).enter f args env s := by
  obtain ⟨hkey, g, hglobal, hf⟩ := hx
  have hhead : (Engine.ofFuel n).eval (.sym x) env s = .ok (.callable g) s := by
    obtain ⟨m, rfl⟩ : ∃ m, n = m + 1 := Nat.exists_eq_succ_of_ne_zero (Nat.ne_zero_of_lt hn)
    simp [Engine.ofFuel, evaluate, Engine.step, bind_apply, Eval.onFailure, hglobal]
  have hforce : (Engine.ofFuel n).force (.callable g) s = .ok (.callable g) s := rfl
  have hkeyword : Eval.isKeyword x s = .ok false s := by rw [Eval.isKeyword, gets_apply, hkey]
  have hcallable : gets (fun s => s.store.callable g) s = .ok f s := by rw [gets_apply, hf]
  rw [Engine.step, Engine.pairStep, bind_of_ok (car_apply r s), Store.car_of_cell? hr,
    bind_of_ok ((Engine.ofFuel n).cdrCell_of_list hr hchain)]
  dsimp only
  rw [bind_of_ok hkeyword, if_neg Bool.false_ne_true, Engine.callStep, bind_of_ok hhead,
    bind_of_ok hforce]
  dsimp only
  rw [bind_of_ok hcallable]
  cases f with
  | template shape body => exact absurd rfl (hf' shape body)
  | native m => cases hlazy : m.isLazy <;> simp [Engine.enter, hlazy]
  | _ => rfl

theorem step_of_defines (env : Env) {x : Symbol} {f : Callable} {r : Ref .cell} {args : Value}
    {vs : List Value} (hx : s.Defines x f) (hf' : ∀ shape body, f ≠ .template shape body)
    (hr : s.store.cell? r = some ⟨.sym x, args⟩) (hchain : s.store.Chain vs .nil args) :
    ∀ᶠ n in atTop,
      (Engine.ofFuel n).step (.pair r) env s = (Engine.ofFuel n).enter f args env s := by
  filter_upwards [eventually_gt_atTop 0] with n hn
  exact step_enter env hx hf' hr hchain hn

/-- The values of operands that run, each taken on by `k`. -/
theorem RunsAll.evalSlots {k : Nat → Value → Eval Value} (h : RunsAll env cs s ws t)
    (hk : ∀ w ∈ ws, ∀ n s, k n w s = .ok w s) {vs : List Value}
    (hv : List.Forall₂ (Stands s.store) cs vs) (done : List Value) :
    Results (fun n => (Engine.ofFuel n).evalSlots (fun form => evaluate n form env >>= k n)
      vs.length vs done) s (done.reverse ++ ws) t := by
  induction h generalizing vs done with
  | nil =>
      cases hv
      exact .of_eq fun n => by rw [Engine.evalSlots, List.append_nil]; rfl
  | @cons c cs w ws s s₁ t hc _ ih =>
      cases hv with
      | @cons _ form _ forms hform hforms =>
          have hrest := ih (fun w' hw' => hk w' (List.mem_cons_of_mem _ hw'))
            (hforms.imp fun _ _ => hc.gains.stands) (w :: done)
          filter_upwards [hc.result hform, hrest] with n hn hrest
          rw [List.length_cons, Engine.evalSlots, bind_assoc, bind_of_ok hn,
            bind_of_ok (hk w List.mem_cons_self n s₁), hrest, List.reverse_cons, List.append_assoc]
          rfl

/-- A call of a native that takes exactly the operands at hand. -/
theorem Runs.native {x : Symbol} {m : Native} (hx : s.Defines x (.native m))
    (hshape : m.shape = .fixed cs.length) (hargs : RunsAll env cs s ws t)
    (hforced : m.isLazy = true ∨ ∀ w ∈ ws, w.isPromise = false)
    (hcall : Results (fun n => m.call (Engine.ofFuel n) ws env) t w u) (hu : t.Gains u) :
    (list (word (.sym x) :: cs)).Runs env s w u where
  result := by
    rintro _ ⟨r, _, args, rfl, hr, rfl, hstands⟩
    obtain ⟨vs, hchain, hall⟩ := chain_of_standsAll hstands
    have hstep := step_of_defines env hx (by simp) hr hchain
    have hlength : cs.length = vs.length := hall.length_eq
    have hframe : ∀ E : Engine, E.makeFrame (.native m) args s = .ok vs s := fun E =>
      Engine.makeFrame_of_fixed (hshape.trans (by rw [hlength])) hchain
    have hvalues : Results (fun n =>
        if m.isLazy then (Engine.ofFuel n).evalFrame m.shape vs env
        else (Engine.ofFuel n).forceFrame m.shape vs env) s ws t := by
      have hrequired : m.shape.required = vs.length := by rw [hshape, hlength]; rfl
      by_cases hlazy : m.isLazy = true
      · have heval := hargs.evalSlots (k := fun _ => pure) (fun _ _ _ _ => rfl) hall []
        refine heval.congr (.of_forall fun n => ?_)
        rw [if_pos hlazy, Engine.evalFrame, hrequired]
        simp only [bind_pure]
        rfl
      · have hw := hforced.resolve_left hlazy
        have hforce := hargs.evalSlots (k := fun n => (Engine.ofFuel n).force)
          (fun w hmem n s => by
            have hfalse := hw w hmem
            cases w <;> first | rfl | cases hfalse) hall []
        refine hforce.congr (.of_forall fun n => ?_)
        rw [if_neg hlazy, Engine.forceFrame, hrequired]
        rfl
    refine .turn ?_
    filter_upwards [hstep, hvalues, hcall] with n hn hvs hm
    rw [bind_apply, hn, Engine.enter, bind_of_ok (hframe _), bind_of_ok hvs, bind_of_ok hm]
    rfl
  gains := hargs.gains.trans hu

/-- A call of a closure that takes exactly the operands at hand. -/
theorem Runs.closure {x : Symbol} {bs : List Code} {body : Value} {captured : Env}
    (hx : s.Defines x (.closure (.fixed cs.length) body captured))
    (hbody : StandsAll s.store bs body) (hargs : RunsAll env cs s ws t)
    (hbs : RunsLast (some t.frames.size) bs
      { t with frames := t.frames.push ws.toArray captured } w u) :
    (list (word (.sym x) :: cs)).Runs env s w u where
  result := by
    rintro _ ⟨r, _, args, rfl, hr, rfl, hstands⟩
    obtain ⟨vs, hchain, hall⟩ := chain_of_standsAll hstands
    have hstep := step_of_defines env hx (by simp) hr hchain
    have hlength : cs.length = vs.length := hall.length_eq
    have hframe : ∀ E : Engine, E.makeFrame (.closure (.fixed cs.length) body captured) args s =
        .ok vs s := fun E => Engine.makeFrame_of_fixed (by rw [hlength]; rfl) hchain
    have hvalues : Results (fun n => (Engine.ofFuel n).evalFrame (.fixed cs.length) vs env)
        s ws t := by
      have heval := hargs.evalSlots (k := fun _ => pure) (fun _ _ _ _ => rfl) hall []
      refine heval.congr (.of_forall fun n => ?_)
      rw [Engine.evalFrame, hlength]
      simp only [bind_pure]
      rfl
    have hpush := State.Gains.push t ws.toArray captured
    have hlast := hbs.body ((hargs.gains.trans hpush).standsAll hbody)
    refine .turn ?_
    filter_upwards [hstep, hvalues, hlast, eventually_ge_atTop bs.length] with n hn hvs hlast hlen
    have hextend : extend ws captured t = .ok (some t.frames.size)
        { t with frames := t.frames.push ws.toArray captured } := rfl
    rw [bind_apply, hn, Engine.enter, bind_of_ok (hframe _), bind_of_ok hvs, bind_of_ok hextend,
      ← bind_apply, bind_assoc]
    exact hlast n hlen
  gains := by
    obtain ⟨_, hall, -⟩ := hbs
    exact (hargs.gains.trans (.push t ws.toArray captured)).trans hall.gains

/-- The values of a list of operands that run, last first. -/
theorem RunsAll.mapItems (h : RunsAll env cs s ws t) {v : Value} (hv : StandsAll s.store cs v)
    (done : List Value) : ∀ᶠ n in atTop, ∀ j, cs.length ≤ j →
      (Engine.ofFuel n).mapItems (fun form => evaluate n form env) j v done s =
        .ok (ws.reverse ++ done) t := by
  induction h generalizing v done with
  | nil =>
      cases hv
      refine .of_forall fun n j _ => ?_
      cases j <;> rfl
  | @cons c cs w ws s s₁ t hc _ ih =>
      obtain ⟨r, form, d, rfl, hr, hform, hd⟩ := hv
      have hd' := hc.gains.standsAll hd
      obtain ⟨vs, hchain, -⟩ := chain_of_standsAll hd'
      filter_upwards [hc.result hform, ih hd' (w :: done)] with n hn hrest j hj
      obtain ⟨j, rfl⟩ : ∃ i, j = i + 1 := Nat.exists_eq_succ_of_ne_zero (Nat.ne_zero_of_lt hj)
      rw [Engine.mapItems, bind_of_ok (car_apply r s), Store.car_of_cell? hr, bind_of_ok hn,
        bind_of_ok ((Engine.ofFuel n).cdrCell_of_list (hc.gains.cells.keeps r _ hr) hchain),
        hrest j (Nat.le_of_succ_le_succ hj), List.reverse_cons, List.append_assoc]
      rfl

/-- A call of `list` allocates the list of its operands. -/
theorem Runs.listing {x : Symbol} (hx : s.Defines x (.native (.lists .list)))
    (hargs : RunsAll env cs s ws t) (hlist : consAll ws.reverse .nil t = .ok w u) :
    (list (word (.sym x) :: cs)).Runs env s w u where
  result := by
    rintro _ ⟨r, _, args, rfl, hr, rfl, hstands⟩
    obtain ⟨vs, hchain, hall⟩ := chain_of_standsAll hstands
    have hstep := step_of_defines env hx (by simp) hr hchain
    refine .turn ?_
    filter_upwards [hstep, hargs.mapItems hstands [], eventually_ge_atTop cs.length]
      with n hn hitems hlen
    have hframe : (Engine.ofFuel n).makeFrame (.native (.lists .list)) args s = .ok [args] s :=
      Site.makeFrame_rest (Engine.ofFuel n) (b := .list) rfl hchain
    have hmap : (Engine.ofFuel n).mapList (fun form => evaluate n form env) args s = .ok w u := by
      rw [Engine.mapList]
      refine (bind_of_ok (hitems n hlen)).trans ?_
      rw [List.append_nil]
      exact hlist
    have hvalues : (Engine.ofFuel n).evalFrame (Native.lists .list).shape [args] env s =
        .ok [w] u := bind_of_ok hmap
    have hlazy : (Native.lists .list).isLazy = true := rfl
    rw [bind_apply, hn, Engine.enter, bind_of_ok hframe, if_pos hlazy, bind_of_ok hvalues]
    rfl
  gains := by
    obtain ⟨hadd, hrest, -⟩ := consAll_eq_ok hlist
    exact hargs.gains.trans (.of_addsCells hadd hrest)

/-- The first turn of a call of a macro that takes one operand and any number of others. -/
theorem step_of_expander {x : Symbol} {b : Code} {body : Value} {r q : Ref .cell}
    {e rest : Value} {vs : List Value} (hx : s.Defines x (.expander (.rest 1) body))
    (hbody : StandsAll s.store [b] body) (hr : s.store.cell? r = some ⟨.sym x, .pair q⟩)
    (hq : s.store.cell? q = some ⟨e, rest⟩) (hrest : s.store.Chain vs .nil rest)
    (hb : b.Runs (some s.frames.size)
      { s with frames := s.frames.push #[e, rest] none } w t) :
    ∀ᶠ n in atTop, (Engine.ofFuel n).step (.pair r) env s = .ok (.next w env) t := by
  obtain ⟨p, code, _, rfl, hp, hcode, rfl⟩ := hbody
  have hchain : s.store.Chain (e :: vs) .nil (.pair q) := ⟨q, rest, rfl, hq, hrest⟩
  filter_upwards [step_of_defines env hx (by simp) hr hchain, hb.result hcode,
    eventually_ge_atTop 1] with n hn hrun hpos
  have hlist : rest.isNil = true ∨ rest.isPair = true := by
    rcases hrest.nil_or_pair with rfl | ⟨p, rfl⟩
    · exact .inl rfl
    · exact .inr rfl
  have hforce : (Engine.ofFuel n).force rest s = .ok rest s := by
    rcases hrest.nil_or_pair with rfl | ⟨p, rfl⟩ <;> rfl
  have hframe : (Engine.ofFuel n).makeFrame (.expander (.rest 1) (.pair p)) (.pair q) s =
      .ok [e, rest] s := by
    simp [-bind_pure_comp, Engine.makeFrame, Callable.shape, Shape.rest, Engine.takeItems,
      bind_apply, Store.car_of_cell? hq, Store.cdr_of_cell? hq, hforce, hlist]
  have hbody : (Engine.ofFuel n).sequence (.pair p) (some s.frames.size)
      { s with frames := s.frames.push #[e, rest] none } = .ok w t := by
    obtain ⟨n, rfl⟩ : ∃ m, n = m + 1 := Nat.exists_eq_succ_of_ne_zero (Nat.ne_zero_of_lt hpos)
    have hcar : ({ s with frames := s.frames.push #[e, rest] none } : State).store.car p = code :=
      Store.car_of_cell? hp
    have heval : (Engine.ofFuel (n + 1)).eval code (some s.frames.size)
        { s with frames := s.frames.push #[e, rest] none } = .ok w t := hrun
    have hcdr : (Engine.ofFuel (n + 1)).cdrCell p t = .ok .nil t :=
      (Engine.ofFuel (n + 1)).cdrCell_of_list (hb.gains.cells.keeps p _ hp)
        (show t.store.Chain [] .nil .nil from rfl)
    have hfuel : (Engine.ofFuel (n + 1)).fuel = n + 1 := rfl
    rw [Engine.sequence, hfuel, Engine.sequenceWithin, bind_of_ok (car_apply p _), hcar,
      bind_of_ok heval, bind_of_ok hcdr]
    cases n <;> rfl
  have hextend : extend [e, rest] none s = .ok (some s.frames.size)
      { s with frames := s.frames.push #[e, rest] none } := rfl
  rw [hn, Engine.enter, Engine.expandCall]
  simp only [bind_assoc]
  rw [bind_of_ok hframe, bind_of_ok hextend, bind_of_ok hbody]
  rfl

end Code

end SmallLisp
