import SmallLisp.Proofs.Compiler.Renaming
import SmallLisp.Proofs.Ending
import SmallLisp.Proofs.Prelude.Definitions
import SmallLisp.Proofs.Template.Following

/-!
# Conjunction and disjunction

A call of `and` or `or` takes one turn to give way to a `cond` with the first operand in it and a
call on the others, which is built in cells that nothing else refers to. So the operands are
evaluated one after the other, each in the state that the one before has left but for such cells,
until one decides the result or the last is reached.
-/

namespace SmallLisp

open Eval Filter

/-! ## Building data -/

namespace Code

/-- Wherever it stands, after cells were added to `base`, the code builds the datum from `count`
cells that `base` does not have. -/
def Builds (base : State) (env : Env) (c : Code) (d : Datum) (count : Nat) : Prop :=
  ∀ s, base.Grows s → s.store.cells.size + count ≤ s.store.capacity →
    ∃ w t, c.Runs env s w t ∧ s.Grows t ∧ t.store.cells.size = s.store.cells.size + count ∧
      t.store.Unfolds (base.store.cells.size ≤ ·) w d

/-- The pieces of code build the data one after the other. -/
inductive BuildsAll (base : State) (env : Env) : List Code → List Datum → Nat → Prop
  | nil : BuildsAll base env [] [] 0
  | cons {c : Code} {cs : List Code} {d : Datum} {ds : List Datum} {m n : Nat} :
      c.Builds base env d m → BuildsAll base env cs ds n →
      BuildsAll base env (c :: cs) (d :: ds) (m + n)

variable {base s : State} {env : Env} {c c' : Code} {cs : List Code} {d d' : Datum}
  {ds : List Datum} {m n : Nat}

theorem BuildsAll.run (h : BuildsAll base env cs ds n) (hs : base.Grows s)
    (hroom : s.store.cells.size + n ≤ s.store.capacity) :
    ∃ ws t, RunsAll env cs s ws t ∧ s.Grows t ∧ t.store.cells.size = s.store.cells.size + n ∧
      List.Forall₂ (t.store.Unfolds (base.store.cells.size ≤ ·)) ws ds := by
  induction h generalizing s with
  | nil => exact ⟨[], s, .nil, .refl s, rfl, .nil⟩
  | @cons c cs d ds m n hc _ ih =>
      obtain ⟨w, t, hrun, hst, hsize, hw⟩ := hc s hs (by omega)
      have hcapacity : t.store.capacity = s.store.capacity := by rw [hst.cells.rest]
      obtain ⟨ws, u, hruns, htu, hsizes, hws⟩ := ih (hs.trans hst) (by omega)
      exact ⟨w :: ws, u, .cons hrun hruns, hst.trans htu, by omega,
        .cons (hw.keeps htu.cells.keeps) hws⟩

theorem Builds.value {w : Value} (h : ∀ s, base.Grows s → c.Runs env s w s) :
    c.Builds base env (.value w) 0 := fun s hs _ =>
  ⟨w, s, h s hs, .refl s, rfl, rfl⟩

/-- A call of `list`. -/
theorem Builds.list {x : Symbol} (hx : base.Defines x (.native (.lists .list)))
    (h : BuildsAll base env cs ds n) :
    (Code.list (word (.sym x) :: cs)).Builds base env (.list ds) (n + ds.length) := by
  intro s hs hroom
  obtain ⟨ws, t, hruns, hst, hsize, hws⟩ := h.run hs (by omega)
  have hcapacity : t.store.capacity = s.store.capacity := by rw [hst.cells.rest]
  have hle : base.store.cells.size ≤ t.store.cells.size := (hs.trans hst).cells.size_le
  have hlength : ws.reverse.length = ds.length := by rw [List.length_reverse, hws.length_eq]
  obtain ⟨w, u, hlist, -, hcells, -, hw⟩ := consAll_unfolds (s := t) (by omega) hle
    (List.rel_reverse hws) (show t.store.Unfolds _ .nil .nil from rfl)
  obtain ⟨hadd, hrest, -⟩ := consAll_eq_ok hlist
  refine ⟨w, u, .listing (hs.gains.defines hx) hruns hlist, hst.trans ⟨hadd, hrest⟩,
    by omega, ?_⟩
  rw [List.reverse_reverse] at hw
  exact hw

/-- A call of `cons`. -/
theorem Builds.cons {x : Symbol} (hx : base.Defines x (.native (.lists .cons)))
    (hc : c.Builds base env d m) (hc' : c'.Builds base env d' n) :
    (Code.list [word (.sym x), c, c']).Builds base env (.pair d d') (m + n + 1) := by
  intro s hs hroom
  have hboth : BuildsAll base env [c, c'] [d, d'] (m + (n + 0)) := .cons hc (.cons hc' .nil)
  obtain ⟨ws, t, hruns, hst, hsize, hws⟩ := hboth.run hs (by omega)
  obtain ⟨v, _, hv, hvs, rfl⟩ := List.forall₂_cons_right_iff.1 hws
  obtain ⟨w, _, hw, hnil, rfl⟩ := List.forall₂_cons_right_iff.1 hvs
  cases hnil
  have hcapacity : t.store.capacity = s.store.capacity := by rw [hst.cells.rest]
  have hle : base.store.cells.size ≤ t.store.cells.size := (hs.trans hst).cells.size_le
  have hadd := Store.AddsCells.push t.store ⟨v, w⟩
  let u : State := { t with store := { t.store with cells := t.store.cells.push ⟨v, w⟩ } }
  have hpush : t.Grows u := ⟨hadd, rfl⟩
  have hcall : ∀ k, (Native.lists .cons).call (Engine.ofFuel k) [v, w] env t =
      .ok (.pair ⟨t.store.cells.size⟩) u := by
    intro k
    have hlt : t.store.cells.size < t.store.capacity := by omega
    exact Native.call_eq_ok.2 (Eval.cons_of_room hlt v w)
  refine ⟨_, u, .native (hs.gains.defines hx) rfl hruns (.inl rfl) (.of_eq hcall)
    hpush.gains, hst.trans hpush, ?_, ?_⟩
  · simp only [u, Array.size_push]
    omega
  · exact ⟨_, v, w, rfl, hle, Store.cell?_push_size _ _, hv.keeps hadd.keeps, hw.keeps hadd.keeps⟩

end Code

namespace Prelude

open Code

/-! ## The expansion of a call -/

/-- One of the two macros. -/
inductive Connective where
  | and
  | or

namespace Connective

def definition : Connective → Definition
  | .and => conjunction
  | .or => disjunction

/-- The symbol that heads the calls. -/
def symbol (σ : String → Symbol) (k : Connective) : Symbol := σ k.definition.name

/-- Whether a value of an operand decides the result. -/
def stops : Connective → Value → Bool
  | .and, v => v.isNil
  | .or, v => v.truthy

/-- How many cells the expansion of a call takes, unless there is one operand only. -/
def cost : Connective → Nat
  | .and => 5
  | .or => 6

/-- The expansion of a call with the operand `e` and the list `rest` of others. -/
def expansion (σ : String → Symbol) (k : Connective) (e rest : Value) : Datum :=
  let call := Datum.pair (.value (.sym (k.symbol σ))) (.value rest)
  match k with
  | .and => .list [.value (.sym Symbol.cond), .list [.value e, call]]
  | .or => .list [.value (.sym Symbol.cond), .list [.value e], .list [call]]

/-- The code that builds the expansion. -/
def builder (σ : String → Symbol) : Connective → Code
  | .and => call σ "list" [quotation (.sym Symbol.cond), call σ "list" [parameter σ 0 "x",
      call σ "cons" [quotation (.sym (σ "and")), parameter σ 1 "y"]]]
  | .or => call σ "list" [quotation (.sym Symbol.cond), call σ "list" [parameter σ 0 "x"],
      call σ "list" [call σ "cons" [quotation (.sym (σ "or")), parameter σ 1 "y"]]]

theorem body_eq (σ : String → Symbol) (k : Connective) :
    k.definition.body σ = [unlessSingle σ (k.builder σ)] := by
  cases k <;> rfl

theorem null_mem (k : Connective) : null ∈ k.definition.callees := by
  cases k <;> simp [Definition.callees, definitions, definition, conjunction, disjunction, null]

theorem definition_mem (k : Connective) : k.definition ∈ k.definition.callees := by
  cases k <;> simp [Definition.callees, definitions, definition, conjunction, disjunction]

variable {σ : String → Symbol} {s : State} {i : Nat} {e rest : Value} {next : Env}

theorem builds (k : Connective) (h : Loaded σ k.definition s)
    (hi : s.frames.table[i]? = some ⟨#[e, rest], next⟩) :
    (k.builder σ).Builds s (some i) (k.expansion σ e rest) k.cost := by
  have hlist : s.Defines (σ "list") (.native (.lists .list)) :=
    h.native (m := .lists .list) (by cases k <;> decide)
  have hcons : s.Defines (σ "cons") (.native (.lists .cons)) :=
    h.native (m := .lists .cons) (by cases k <;> decide)
  have hx : (parameter σ 0 "x").Builds s (some i) (.value e) 0 :=
    .value fun t ht => runs_parameter (ht.gains.frames i _ hi) rfl
  have hy : (parameter σ 1 "y").Builds s (some i) (.value rest) 0 :=
    .value fun t ht => runs_parameter (ht.gains.frames i _ hi) rfl
  have hquoted : ∀ v, (quotation v).Builds s (some i) (.value v) 0 := fun v =>
    .value fun t _ => .quote
  cases k with
  | and =>
      exact .list hlist (.cons (hquoted _)
        (.cons (.list hlist (.cons hx (.cons (.cons hcons (hquoted _) hy) .nil))) .nil))
  | or =>
      exact .list hlist (.cons (hquoted _) (.cons (.list hlist (.cons hx .nil))
        (.cons (.list hlist (.cons (.cons hcons (hquoted _) hy) .nil)) .nil)))

end Connective

/-- The state once a call of a connective on the operand `e` and the others `es` has given way to
its expansion: there are two new frames, and cells for the expansion unless the operand is the only
one. -/
structure Opened (k : Connective) (e : Value) (es : List Value) (s t : State) : Prop where
  gains : s.Gains t
  size : t.store.cells.size = s.store.cells.size + if es = [] then 0 else k.cost
  frames : ∃ rest, s.store.Chain es .nil rest ∧
    t.frames = (s.frames.push #[e, rest] none).push #[rest] none

variable {σ : String → Symbol} {k : Connective} {s t : State} {r q : Ref .cell} {e rest v w : Value}
  {args : Value} {es : List Value} {env : Env} {i : Nat}

/-- `null` tells nil from everything else. -/
theorem Loaded.runs_null (h : Loaded σ k.definition s) {c : Code} (hc : c.Runs env s v s)
    (hv : v.isPromise = false) :
    (call σ "null" [c]).Runs env s (.ofBool v.isNil)
      { s with frames := s.frames.push #[v] none } := by
  obtain ⟨body, hdefines, hbody⟩ := h.callee k.null_mem
  set s' : State := { s with frames := s.frames.push #[v] none } with hs'
  have hpush : s.Gains s' := .push s #[v] none
  have hi : s'.frames.table[s.frames.size]? = some ⟨#[v], none⟩ := by
    simp [hs', Frames.push, Frames.size]
  have hargs : RunsAll (some s.frames.size) [parameter σ 0 "x", word .nil] s' [v, .nil] s' :=
    .cons (runs_parameter hi rfl) (.cons (.literal rfl) .nil)
  have heq : (call σ "eq" [parameter σ 0 "x", word .nil]).Runs (some s.frames.size) s'
      (.ofBool (v.same .nil)) s' := by
    refine (h.gains hpush).runs_native (m := .tests .eq) (by cases k <;> decide) rfl hargs ?_
      (fun n => rfl) (.refl s')
    intro w hw
    rcases List.mem_pair.1 hw with rfl | rfl
    · exact hv
    · rfl
  have hsame : v.same .nil = v.isNil := by cases v <;> rfl
  rw [hsame] at heq
  exact .closure hdefines hbody (.cons hc .nil) (.single heq)

/-- The first turn of a call: the only operand itself is next, or the expansion, in new cells. -/
theorem opens (env : Env) (h : Loaded σ k.definition s)
    (hr : s.store.cell? r = some ⟨.sym (k.symbol σ), .pair q⟩)
    (hq : s.store.cell? q = some ⟨e, rest⟩) (hrest : s.store.Chain es .nil rest)
    (hroom : es ≠ [] → k.cost ≤ s.store.room) :
    ∃ w t, (∀ᶠ n in atTop, (Engine.ofFuel n).step (.pair r) env s = .ok (.next w env) t) ∧
      Opened k e es s t ∧ t.frames = (s.frames.push #[e, rest] none).push #[rest] none ∧
      (es = [] → w = e) ∧
      (es ≠ [] → t.store.Unfolds (s.store.cells.size ≤ ·) w (k.expansion σ e rest)) := by
  obtain ⟨body, hdefines, hbody⟩ :
      ∃ body, s.Defines (k.symbol σ) (.expander (.rest 1) body) ∧
        StandsAll s.store [unlessSingle σ (k.builder σ)] body := by
    obtain ⟨body, hdefines, hbody⟩ := h.callee k.definition_mem
    rw [k.body_eq] at hbody
    cases k <;> exact ⟨body, hdefines, hbody⟩
  -- The body runs in a frame with the operands, and the call of `null` in it in another.
  set s₁ : State := { s with frames := s.frames.push #[e, rest] none } with hs₁
  set s₂ : State := { s₁ with frames := s₁.frames.push #[rest] none } with hs₂
  have hpush₁ : s.Gains s₁ := .push s #[e, rest] none
  have hpush₂ : s₁.Gains s₂ := .push s₁ #[rest] none
  have hi : s₁.frames.table[s.frames.size]? = some ⟨#[e, rest], none⟩ := by
    simp [hs₁, Frames.push, Frames.size]
  have hpromise : rest.isPromise = false := by
    rcases hrest.nil_or_pair with rfl | ⟨p, rfl⟩ <;> rfl
  have hnull : (call σ "null" [parameter σ 1 "y"]).Runs (some s.frames.size) s₁
      (.ofBool rest.isNil) s₂ :=
    (h.gains hpush₁).runs_null (runs_parameter hi rfl) hpromise
  have hloaded := (h.gains hpush₁).gains hpush₂
  have hi₂ := hpush₂.frames _ _ hi
  cases es with
  | nil =>
      cases hrest
      have hcode : (unlessSingle σ (k.builder σ)).Runs (some s.frames.size) s₁ e s₂ :=
        .cond (.hit hnull rfl rfl (.single (runs_parameter hi₂ rfl)))
      exact ⟨e, s₂, step_of_expander hdefines hbody hr hq
          (show s.store.Chain [] .nil .nil from rfl) hcode,
        ⟨hpush₁.trans hpush₂, rfl, .nil, rfl, rfl⟩, rfl, fun _ => rfl, fun hne => absurd rfl hne⟩
  | cons e' es =>
      have hnil : rest.isNil = false := by
        obtain ⟨p, d, rfl, -⟩ := hrest
        rfl
      rw [hnil] at hnull
      have hcost := hroom (by simp)
      have hsize : s₂.store.cells.size + k.cost ≤ s₂.store.capacity := by
        have hsame : s₂.store = s.store := rfl
        rw [hsame]
        unfold Store.room at hcost
        have hpos : 0 < k.cost := by cases k <;> decide
        omega
      obtain ⟨w, t, hbuild, hgrows, hcells, hw⟩ := k.builds hloaded hi₂ s₂ (.refl s₂) hsize
      have hcode : (unlessSingle σ (k.builder σ)).Runs (some s.frames.size) s₁ w t :=
        .cond (.miss hnull (.hit (.global hloaded.truth) rfl rfl
          ⟨[.nil, w], .cons (.literal rfl) (.cons hbuild .nil), rfl⟩))
      have hframes : t.frames = s₂.frames := by rw [hgrows.rest]
      exact ⟨w, t, step_of_expander hdefines hbody hr hq hrest hcode,
        ⟨(hpush₁.trans hpush₂).trans hgrows.gains, by simpa using hcells, rest, hrest, hframes⟩,
        hframes, by simp, fun _ => hw⟩

/-! ## The turn of the expansion -/

/-- The cells that the first state has from number `n` on are the same in the second. -/
def KeepsFrom (n : Nat) (s t : State) : Prop :=
  ∀ i, n ≤ i → i < s.store.cells.size → t.store.cells[i]? = s.store.cells[i]?

theorem KeepsFrom.refl (n : Nat) (s : State) : KeepsFrom n s s := fun _ _ _ => rfl

theorem KeepsFrom.cell {n : Nat} (h : KeepsFrom n s t) {c : Cell} (hn : n ≤ r.index)
    (hr : s.store.cell? r = some c) : t.store.cell? r = some c :=
  (h r.index hn (Array.getElem?_eq_some_iff.1 hr).1).trans hr

/-- What is left of the turn of a `cond` once the test of a clause has been evaluated: the cells are
those of the clause among the others and of the test in the clause. -/
def afterTest (E : Engine) (env : Env) (fuel : Nat) (p q : Ref .cell) (v : Value) : Eval Step :=
  E.force v >>= E.tested env fuel p q

section Turn

variable {p p' q' b m : Ref .cell} {args body : Value} {vs : List Value} {n : Nat}

theorem step_of_cond (env : Env) (hr : s.store.cell? r = some ⟨.sym Symbol.cond, .pair p⟩)
    (hp : s.store.cell? p = some ⟨.pair q, args⟩) (hargs : s.store.Chain vs .nil args)
    (hq : s.store.cell? q = some ⟨e, body⟩) :
    ∀ᶠ n in atTop, (Engine.ofFuel n).step (.pair r) env s =
      (evaluate n e env >>= afterTest (Engine.ofFuel n) env (n - 1) p q) s := by
  have hchain : s.store.Chain (.pair q :: vs) .nil (.pair p) := ⟨p, args, rfl, hp, hargs⟩
  refine eventually_of_succ (.of_forall fun n => ?_)
  rw [Engine.step_special_of_list (k := .cond) rfl hr hchain]
  exact condWithin_clause hp hq

theorem afterTest_eq (hv : v.isPromise = false) (E : Engine) (fuel : Nat) :
    afterTest E env fuel p q v s = E.tested env fuel p q v s := by
  have hforce : E.force v s = .ok v s := by
    cases v <;> first | rfl | simp [Value.isPromise] at hv
  exact bind_of_ok hforce

/-- A clause without a body whose value is not nil, or the last clause, if its value is nil. -/
theorem afterTest_done (hv : v.isPromise = false) (hq : s.store.cell? q = some ⟨e, body⟩)
    (hp : s.store.cell? p = some ⟨.pair q, args⟩)
    (hend : if v.truthy then body = .nil else args = .nil) (E : Engine) (fuel : Nat) :
    afterTest E env fuel p q v s = .ok (.done v) s := by
  rw [afterTest_eq hv]
  cases htrue : v.truthy with
  | true =>
      rw [htrue] at hend
      cases (show body = .nil from hend)
      exact tested_done hq htrue
  | false =>
      rw [htrue] at hend
      cases (show args = .nil from hend)
      obtain rfl : v = .nil := by
        cases v <;> first | rfl | cases htrue
      rw [tested_else hp (show s.store.Chain [] .nil .nil from rfl)]
      cases fuel <;> rfl

/-- The cells of the expansion of a call of `and`. -/
structure AndCells (σ : String → Symbol) (e rest : Value) (r p q b m : Ref .cell) (s : State) :
    Prop where
  head : s.store.cell? r = some ⟨.sym Symbol.cond, .pair p⟩
  clauses : s.store.cell? p = some ⟨.pair q, .nil⟩
  test : s.store.cell? q = some ⟨e, .pair b⟩
  body : s.store.cell? b = some ⟨.pair m, .nil⟩
  call : s.store.cell? m = some ⟨.sym (σ "and"), rest⟩

/-- The cells of the expansion of a call of `or`. -/
structure OrCells (σ : String → Symbol) (e rest : Value) (r p q p' q' m : Ref .cell) (s : State) :
    Prop where
  head : s.store.cell? r = some ⟨.sym Symbol.cond, .pair p⟩
  first : s.store.cell? p = some ⟨.pair q, .pair p'⟩
  test : s.store.cell? q = some ⟨e, .nil⟩
  second : s.store.cell? p' = some ⟨.pair q', .nil⟩
  other : s.store.cell? q' = some ⟨.pair m, .nil⟩
  call : s.store.cell? m = some ⟨.sym (σ "or"), rest⟩

theorem exists_andCells (hw : s.store.Unfolds (n ≤ ·) w (Connective.and.expansion σ e rest)) :
    ∃ r p q b m, w = .pair r ∧ n ≤ m.index ∧
      ∀ t, KeepsFrom n s t → AndCells σ e rest r p q b m t := by
  obtain ⟨r, _, _, rfl, hr, hhead, rfl, p, _, _, rfl, hp, hclauses,
    ⟨q, _, _, rfl, hq, htest, rfl, b, _, _, rfl, hb, hbody, ⟨m, _, _, rfl, hm, hcall, rfl, rfl⟩,
      rfl⟩, rfl⟩ := hw
  exact ⟨r, p, q, b, m, rfl, hm, fun t h =>
    ⟨h.cell hr hhead, h.cell hp hclauses, h.cell hq htest, h.cell hb hbody, h.cell hm hcall⟩⟩

theorem exists_orCells (hw : s.store.Unfolds (n ≤ ·) w (Connective.or.expansion σ e rest)) :
    ∃ r p q p' q' m, w = .pair r ∧ n ≤ m.index ∧
      ∀ t, KeepsFrom n s t → OrCells σ e rest r p q p' q' m t := by
  obtain ⟨r, _, _, rfl, hr, hhead, rfl, p, _, _, rfl, hp, hfirst,
    ⟨q, _, _, rfl, hq, htest, rfl, rfl⟩, p', _, _, rfl, hp', hsecond,
    ⟨q', _, _, rfl, hq', hother, ⟨m, _, _, rfl, hm, hcall, rfl, rfl⟩, rfl⟩, rfl⟩ := hw
  exact ⟨r, p, q, p', q', m, rfl, hm, fun t h =>
    ⟨h.cell hr hhead, h.cell hp hfirst, h.cell hq htest, h.cell hp' hsecond, h.cell hq' hother,
      h.cell hm hcall⟩⟩

/-- The first operand decides the result of the expansion, or leaves it to the call on the others.
-/
structure Branches (σ : String → Symbol) (k : Connective) (env : Env) (n : Nat) (w e rest : Value)
    (m : Ref .cell) (s : State) : Prop where
  fresh : n ≤ m.index
  call : ∀ t, KeepsFrom n s t → t.store.cell? m = some ⟨.sym (k.symbol σ), rest⟩
  halts : ∀ o, EndsAs e env s o → (∀ v t, o ≠ some (.ok v t)) → EndsLike w env s o
  decides : ∀ v t, EndsAs e env s (some (.ok v t)) → v.isPromise = false → KeepsFrom n s t →
    k.stops v = true → EndsLike w env s (some (.ok v t))
  leaves : ∀ v t, EndsAs e env s (some (.ok v t)) → v.isPromise = false → KeepsFrom n s t →
    k.stops v = false → ∀ o, EndsLike (.pair m) env t o →
      (∀ w' u, o = some (.ok w' u) → w'.isPromise = false ∧ KeepsFrom n s u) → EndsLike w env s o

theorem branches_and (hw : s.store.Unfolds (n ≤ ·) w (Connective.and.expansion σ e rest)) :
    ∃ m, Branches σ .and env n w e rest m s := by
  obtain ⟨r, p, q, b, m, rfl, hm, hcells⟩ := exists_andCells hw
  obtain ⟨hhead, hclauses, htest, -, -⟩ := hcells s (.refl n s)
  have hturn := step_of_cond env hhead hclauses
    (show s.store.Chain [] .nil .nil from rfl) htest
  refine ⟨m, hm, fun t ht => (hcells t ht).call, fun o ho hno => .of_nested hturn (.refl ho) hno,
    fun v t hv hpromise ht hstop => ?_, fun v t hv hpromise ht hgo o ho _ => ?_⟩
  · obtain ⟨-, hclauses, htest, -, -⟩ := hcells t ht
    have hnil : v.truthy = false := by rw [Value.truthy, show v.isNil = true from hstop]; rfl
    refine .of_done ?_
    filter_upwards [hturn, hv.2] with n hn hvn
    rw [hn, bind_of_ok hvn]
    exact afterTest_done hpromise htest hclauses (by rw [hnil]; rfl) _ _
  · obtain ⟨-, -, htest, hbody, -⟩ := hcells t ht
    have htrue : v.truthy = true := by rw [Value.truthy, show v.isNil = false from hgo]; rfl
    have hchain : t.store.Chain [.pair m] .nil (.pair b) := ⟨b, .nil, rfl, hbody, rfl⟩
    refine .of_next ?_ ho
    filter_upwards [hturn, hv.2, eventually_gt_atTop 0] with n hn hvn hpos
    obtain ⟨n, rfl⟩ : ∃ j, n = j + 1 := Nat.exists_eq_succ_of_ne_zero (Nat.ne_of_gt hpos)
    have hcdr : (Engine.ofFuel (n + 1)).cdrCell b t = .ok .nil t :=
      (Engine.ofFuel (n + 1)).cdrCell_of_list hbody (show t.store.Chain [] .nil .nil from rfl)
    have hlast : (Engine.ofFuel (n + 1)).body (.pair b) env t = .ok (.pair m) t := by
      rw [Engine.body, show (Engine.ofFuel (n + 1)).fuel = n + 1 from rfl, Engine.bodyWithin,
        bind_of_ok (car_apply b t), Store.car_of_cell? hbody, bind_of_ok hcdr]
      rfl
    rw [hn, bind_of_ok hvn, afterTest_eq hpromise, tested_body htest hchain htrue,
      bind_of_ok hlast]
    rfl

theorem branches_or (hw : s.store.Unfolds (n ≤ ·) w (Connective.or.expansion σ e rest)) :
    ∃ m, Branches σ .or env n w e rest m s := by
  obtain ⟨r, p, q, p', q', m, rfl, hm, hcells⟩ := exists_orCells hw
  obtain ⟨hhead, hfirst, htest, hsecond, -, -⟩ := hcells s (.refl n s)
  have hturn := step_of_cond env hhead hfirst
    (show s.store.Chain [.pair q'] .nil (.pair p') from ⟨p', .nil, rfl, hsecond, rfl⟩) htest
  refine ⟨m, hm, fun t ht => (hcells t ht).call, fun o ho hno => .of_nested hturn (.refl ho) hno,
    fun v t hv hpromise ht hstop => ?_, fun v t hv hpromise ht hgo o ho hvalue => ?_⟩
  · obtain ⟨-, hfirst, htest, -, -, -⟩ := hcells t ht
    have htrue : v.truthy = true := hstop
    refine .of_done ?_
    filter_upwards [hturn, hv.2] with n hn hvn
    rw [hn, bind_of_ok hvn]
    exact afterTest_done hpromise htest hfirst (by rw [htrue]; rfl) _ _
  · obtain ⟨-, hfirst, -, hsecond, hother, -⟩ := hcells t ht
    obtain rfl : v = .nil := by
      cases v <;> first | rfl | cases hgo
    have hchain : t.store.Chain [.pair q'] .nil (.pair p') := ⟨p', .nil, rfl, hsecond, rfl⟩
    -- The call on the other operands is the test of the second clause.
    have hagain : ∀ᶠ n in atTop, (Engine.ofFuel n).step (.pair r) env s =
        (evaluate n (.pair m) env >>= afterTest (Engine.ofFuel n) env (n - 2) p' q') t := by
      filter_upwards [hturn, hv.2, eventually_ge_atTop 2] with n hn hvn hle
      obtain ⟨n, rfl⟩ : ∃ j, n = j + 2 := ⟨n - 2, by omega⟩
      rw [hn, bind_of_ok hvn, afterTest_eq hpromise, tested_else hfirst hchain]
      exact condWithin_clause hsecond hother
    by_cases hends : ∃ v u, o = some (.ok v u)
    · obtain ⟨v, u, rfl⟩ := hends
      obtain ⟨hpromise', hu⟩ := hvalue v u rfl
      obtain ⟨-, -, -, hsecond, hother, -⟩ := hcells u hu
      refine .of_done ?_
      filter_upwards [hagain, ho.value] with n hn hvn
      rw [hn, bind_of_ok hvn]
      exact afterTest_done hpromise' hother hsecond (by split <;> rfl) _ _
    · exact .of_nested hagain ho (by simpa using hends)

/-- The expansion of a call on more than one operand. -/
theorem branches (env : Env) (k : Connective)
    (hw : s.store.Unfolds (n ≤ ·) w (k.expansion σ e rest)) :
    ∃ m, Branches σ k env n w e rest m s := by
  cases k with
  | and => exact branches_and hw
  | or => exact branches_or hw

end Turn

/-! ## One operand after the other -/

/-- What evaluating the operands comes to, from left to right until one of them decides. Each is
evaluated once, in the state that the one before has left but for what the call has added. -/
inductive Connective.ComesTo (k : Connective) (env : Env) :
    List Value → State → Option (Outcome Value) → Prop
  | last {e : Value} {s t : State} {o : Option (Outcome Value)} :
      Opened k e [] s t → EndsAs e env t o → ComesTo k env [e] s o
  | halted {e : Value} {es : List Value} {s t : State} {o : Option (Outcome Value)} :
      es ≠ [] → Opened k e es s t → EndsAs e env t o → (∀ v u, o ≠ some (.ok v u)) →
      ComesTo k env (e :: es) s o
  | decided {e v : Value} {es : List Value} {s t u : State} :
      es ≠ [] → Opened k e es s t → EndsAs e env t (some (.ok v u)) → k.stops v = true →
      ComesTo k env (e :: es) s (some (.ok v u))
  | undecided {e v : Value} {es : List Value} {s t u : State} {o : Option (Outcome Value)} :
      es ≠ [] → Opened k e es s t → EndsAs e env t (some (.ok v u)) → k.stops v = false →
      ComesTo k env es u o → ComesTo k env (e :: es) s o

/-- When the turn of an operand comes, it is the first of the list `args`, what the macro uses is
loaded, and there is room for the expansion. Its value is no promise, and if that does not decide
the result the same goes for the other operands, in the state that it leaves. -/
def Connective.Orderly (σ : String → Symbol) (k : Connective) (env : Env) :
    List Value → Value → State → Prop
  | [], _, _ => True
  | e :: es, args, s =>
      Loaded σ k.definition s ∧ (es ≠ [] → k.cost ≤ s.store.room) ∧
      ∃ q rest, args = .pair q ∧ s.store.cell? q = some ⟨e, rest⟩ ∧ s.store.Chain es .nil rest ∧
        ∀ t n v u, Opened k e es s t → evaluate n e env t = .ok v u → v.isPromise = false ∧
          (es ≠ [] → k.stops v = false → k.Orderly σ env es rest u)

/-- The cells that are hidden, or that the second state has and the first has not. -/
def orNew (hidden : Nat → Prop) (s t : State) (i : Nat) : Prop :=
  hidden i ∨ s.store.cells.size ≤ i ∧ i < t.store.cells.size

/-- The cells of the expansion are hidden from the operands. -/
theorem Opened.sealed {hidden : Nat → Prop} (h : Opened k e es s t) (hs : s.Sealed hidden)
    (hq : (Guard.outside hidden).Good s.store.cells.size (.pair q))
    (hcell : s.store.cell? q = some ⟨e, rest⟩)
    (hframes : t.frames = (s.frames.push #[e, rest] none).push #[rest] none) :
    t.Sealed (orNew hidden s t) := by
  have he := hs.covers.car hq
  have hrest := hs.covers.cdr hq
  rw [Store.car_of_cell? hcell] at he
  rw [Store.cdr_of_cell? hcell] at hrest
  have hslots := (hs.extend #[e, rest] none (by simpa using ⟨he, hrest⟩)).extend
    #[rest] none (by simpa using hrest)
  have hadd := h.gains.cells
  have hgrown : State.Sealed (orNew hidden s t) { s with
      store := t.store, frames := (s.frames.push #[e, rest] none).push #[rest] none } := by
    refine hslots.grow hadd (fun i hi => ?_) (fun i hi => .inl hi) (fun i hlt hi => ?_)
      (fun i c hle hc hi => ?_)
    · exact hi.elim (fun hi => Nat.lt_of_lt_of_le (hs.bound i hi) hadd.size_le) And.right
    · exact hi.resolve_right fun hnew => Nat.not_lt_of_le hnew.1 hlt
    · exact absurd (.inr ⟨hle, (Array.getElem?_eq_some_iff.1 hc).1⟩) hi
  rw [← hframes, ← h.gains.rest] at hgrown
  exact hgrown

theorem good_orNew {hidden : Nat → Prop} {n : Nat} (hle : s.store.cells.size ≤ n)
    (h : (Guard.outside hidden).Good s.store.cells.size v) :
    (Guard.outside (orNew hidden s t)).Good n v := by
  intro r hr
  obtain ⟨hlt, hn⟩ := h r hr
  exact ⟨Nat.lt_of_lt_of_le hlt hle,
    fun hi => hi.elim hn fun hnew => Nat.not_lt_of_le hnew.1 hlt⟩

/-- The induction over the operands. What is hidden grows by the cells of each expansion, so that
the operands leave the rest of the call alone. -/
theorem exists_comesTo : ∀ (es : List Value) {hidden : Nat → Prop} {s : State} {r : Ref .cell}
    {args : Value}, s.Sealed hidden → (Guard.outside hidden).Good s.store.cells.size args →
    s.store.cell? r = some ⟨.sym (k.symbol σ), args⟩ → es ≠ [] → k.Orderly σ env es args s →
    ∃ o, k.ComesTo env es s o ∧ EndsLike (.pair r) env s o ∧ ∀ v t, o = some (.ok v t) →
      v.isPromise = false ∧ ∀ i, hidden i → t.store.cells[i]? = s.store.cells[i]? := by
  intro es
  induction es with
  | nil => exact fun _ _ _ hne => absurd rfl hne
  | cons e es ih =>
      intro hidden s r args hs hargs hr _ ho
      obtain ⟨hloaded, hroom, q, rest, rfl, hq, hrest, hvalues⟩ := ho
      obtain ⟨w, t, hstep, hopen, hframes, hlast, hw⟩ := opens env hloaded hr hq hrest hroom
      have hsize := hopen.gains.cells.size_le
      have hgood := hs.covers.car hargs
      have hgoods := hs.covers.cdr hargs
      rw [Store.car_of_cell? hq] at hgood
      rw [Store.cdr_of_cell? hq] at hgoods
      have hsealed := hopen.sealed hs hargs hq hframes
      have hevaluated := fun n v u (hn : evaluate n e env t = .ok v u) =>
        hsealed.evaluate (good_orNew (t := t) hsize hgood) hn
      have hopened : ∀ i, hidden i → t.store.cells[i]? = s.store.cells[i]? := fun i hi => by
        have hlt := hs.bound i hi
        rw [Array.getElem?_eq_getElem hlt]
        exact hopen.gains.cells.keeps ⟨i⟩ _ (Array.getElem?_eq_getElem hlt)
      obtain ⟨o, hends⟩ := exists_endsAs e env t
      by_cases hvalue : ∃ v u, o = some (.ok v u)
      · obtain ⟨v, u, rfl⟩ := hvalue
        obtain ⟨n, hn⟩ := hends.2.exists
        obtain ⟨hpromise, hothers⟩ := hvalues t n v u hopen hn
        obtain ⟨⟨husealed, hle, hkept⟩, -⟩ := hevaluated n v u hn
        have hfrom : KeepsFrom s.store.cells.size t u := fun i hi hlt => hkept i (.inr ⟨hi, hlt⟩)
        have hwhole : ∀ i, hidden i → u.store.cells[i]? = s.store.cells[i]? := fun i hi =>
          (hkept i (.inl hi)).trans (hopened i hi)
        by_cases hes : es = []
        · subst hes
          obtain rfl := hlast rfl
          refine ⟨_, .last hopen hends, .of_next hstep (.refl hends), ?_⟩
          rintro _ _ ⟨⟩
          exact ⟨hpromise, hwhole⟩
        · obtain ⟨m, hbranches⟩ := branches env k (hw hes)
          cases hstop : k.stops v with
          | true =>
              refine ⟨_, .decided hes hopen hends hstop,
                .of_next hstep (hbranches.decides v u hends hpromise hfrom hstop), ?_⟩
              rintro _ _ ⟨⟩
              exact ⟨hpromise, hwhole⟩
          | false =>
              obtain ⟨o, hcomes, hcall, ho⟩ := ih husealed
                (good_orNew (Nat.le_trans hsize hle) hgoods) (hbranches.call u hfrom) hes
                (hothers hes hstop)
              refine ⟨o, .undecided hes hopen hends hstop hcomes, .of_next hstep
                (hbranches.leaves v u hends hpromise hfrom hstop o hcall fun w' u' hw' => ?_),
                fun w' u' hw' => ?_⟩
              · obtain ⟨hpromise', hkept'⟩ := ho w' u' hw'
                exact ⟨hpromise', fun i hi hlt =>
                  (hkept' i (.inr ⟨hi, hlt⟩)).trans (hfrom i hi hlt)⟩
              · obtain ⟨hpromise', hkept'⟩ := ho w' u' hw'
                exact ⟨hpromise', fun i hi => (hkept' i (.inl hi)).trans (hwhole i hi)⟩
      · have hno : ∀ v u, o ≠ some (.ok v u) := by simpa using hvalue
        refine ⟨o, ?_, .of_next hstep ?_, fun v u ho => absurd ho (hno v u)⟩
        · by_cases hes : es = []
          · subst hes
            exact .last hopen hends
          · exact .halted hes hopen hends hno
        · by_cases hes : es = []
          · rw [hlast hes]
            exact .refl hends
          · obtain ⟨m, hbranches⟩ := branches env k (hw hes)
            exact hbranches.halts o hends hno

/-! ## Literal operands -/

/-- Operands that are literals do nothing. -/
theorem orderly_literals (env : Env) (hes : ∀ e ∈ es, e.isLiteral = true)
    (h : Loaded σ k.definition s) (hargs : s.store.Chain es .nil args)
    (hroom : es.length * k.cost ≤ s.store.room) : k.Orderly σ env es args s := by
  induction es generalizing args s with
  | nil => trivial
  | cons e es ih =>
      obtain ⟨q, rest, rfl, hq, hrest⟩ := hargs
      rw [List.length_cons, Nat.add_one_mul] at hroom
      refine ⟨h, fun _ => by omega, q, rest, rfl, hq, hrest, fun t n v u ht hn => ?_⟩
      have he := hes e List.mem_cons_self
      obtain ⟨m, hm⟩ := (Site.evaluate_literal he env t).exists
      obtain ⟨rfl, rfl⟩ := evaluate_unique hm hn
      refine ⟨?_, fun _ _ => ?_⟩
      · cases e <;> first | rfl | cases he
      · have hcapacity : t.store.capacity = s.store.capacity := by rw [ht.gains.store]
        have hsize := ht.size
        have hle : (if es = [] then 0 else k.cost) ≤ k.cost := by split <;> omega
        refine ih (fun e' he' => hes e' (List.mem_cons_of_mem _ he')) (h.gains ht.gains)
          (hrest.keeps ht.gains.cells.keeps) ?_
        unfold Store.room at hroom ⊢
        omega

/-- The literal that decides, or else the last. -/
def Connective.pick (k : Connective) : List Value → Value
  | [] => .nil
  | [e] => e
  | e :: es => if k.stops e then e else k.pick es

theorem endsAs_literal {o : Option (Outcome Value)} (h : EndsAs e env s o)
    (he : e.isLiteral = true) : o = some (.ok e s) := by
  have hliteral := Site.evaluate_literal he env s
  cases o with
  | none =>
      obtain ⟨n, hn⟩ := hliteral.exists
      exact absurd (by rw [hn]; trivial) (h n)
  | some o =>
      obtain ⟨n, hn, hn'⟩ := (h.2.and hliteral).exists
      rw [← hn, hn']

theorem Connective.ComesTo.of_literals {o : Option (Outcome Value)} (h : k.ComesTo env es s o)
    (hes : ∀ e ∈ es, e.isLiteral = true) : ∃ t, o = some (.ok (k.pick es) t) := by
  induction h with
  | last _ hends => exact ⟨_, endsAs_literal hends (hes _ List.mem_cons_self)⟩
  | halted _ _ hends hno =>
      exact absurd (endsAs_literal hends (hes _ List.mem_cons_self)) (hno _ _)
  | @decided e v es s t u hne _ hends hstop =>
      cases endsAs_literal hends (hes _ List.mem_cons_self)
      obtain ⟨e', es, rfl⟩ := List.exists_cons_of_ne_nil hne
      rw [Connective.pick, if_pos hstop]
      · exact ⟨_, rfl⟩
      · simp
  | @undecided e v es s t u o hne _ hends hstop _ ih =>
      cases endsAs_literal hends (hes _ List.mem_cons_self)
      obtain ⟨e', es, rfl⟩ := List.exists_cons_of_ne_nil hne
      rw [Connective.pick, if_neg (by simp [hstop])]
      · exact ih fun e he => hes e (List.mem_cons_of_mem _ he)
      · simp

/-! ## Short circuits -/

/-- With the definitions loaded, a call of `and` or `or` evaluates its operands from left to right,
each at most once, until one decides the result, and ends as they do: with the value of the operand
that decides or of the last, or with the failure or the exit that an operand comes to, and in the
state that the operands leave. -/
theorem connectives_short_circuit (σ : String → Symbol) (k : Connective) (env : Env) {s : State}
    {r : Ref .cell} {args : Value} {es : List Value} (hs : s.Sealed fun _ => False)
    (hr : s.store.cell? r = some ⟨.sym (k.symbol σ), args⟩) (hes : es ≠ [])
    (ho : k.Orderly σ env es args s) :
    ∃ o, k.ComesTo env es s o ∧ EndsLike (.pair r) env s o := by
  have hgood := hs.covers.cdr (r := r) fun q hq => by
    cases hq
    exact ⟨Store.lt_of_cell? hr, id⟩
  rw [Store.cdr_of_cell? hr] at hgood
  obtain ⟨o, hcomes, hends, -⟩ := exists_comesTo es hs hgood hr hes ho
  exact ⟨o, hcomes, hends⟩

/-- `(and 1 nil 2)` is nil. -/
theorem connectives_short_circuit_and :
    let s := Machine.holding 15
      [call Machine.symbol "and" [.word (.int 1), .word .nil, .word (.int 2)]]
    let es : List Value := [.int 1, .nil, .int 2]
    ∃ r args, s.Sealed (fun _ => False) ∧
      s.store.cell? r = some ⟨.sym (Machine.symbol "and"), args⟩ ∧ es ≠ [] ∧
      Connective.and.Orderly Machine.symbol none es args s ∧
      ∃ n t, evaluate n (.pair r) none s = .ok .nil t := by
  intro s es
  have hloaded : Loaded Machine.symbol conjunction s := loaded_of_check (by decide +kernel) _
  have hsealed : s.Sealed fun _ => False :=
    State.sealed_of_closed (by decide +kernel) hloaded.symbols
  obtain ⟨v, hv⟩ : ∃ v, StandsAll s.store
      [call Machine.symbol "and" [.word (.int 1), .word .nil, .word (.int 2)]] v :=
    ⟨.pair ⟨s.store.cells.size - 1⟩, standsAll_of_areAt (by decide +kernel)⟩
  obtain ⟨_, _, _, -, -, ⟨r, _, args, rfl, hr, rfl, q, _, _, rfl, hq, rfl, q', _, _, rfl, hq', rfl,
    q'', _, _, rfl, hq'', rfl, rfl⟩, -⟩ := hv
  have hargs : s.store.Chain es .nil (.pair q) :=
    ⟨q, _, rfl, hq, q', _, rfl, hq', q'', _, rfl, hq'', rfl⟩
  have hliteral : ∀ e ∈ es, e.isLiteral = true := by simp [es, Value.isLiteral]
  have ho : Connective.and.Orderly Machine.symbol none es (.pair q) s :=
    orderly_literals none hliteral hloaded hargs (by decide +kernel)
  obtain ⟨o, hcomes, hends⟩ :=
    connectives_short_circuit Machine.symbol .and none hsealed hr (by simp [es]) ho
  obtain ⟨t, rfl⟩ := hcomes.of_literals hliteral
  obtain ⟨n, hn⟩ := hends.value.exists
  exact ⟨r, .pair q, hsealed, hr, by simp [es], ho, n, t, hn⟩

/-! ## What a call depends on -/

/-- Whether the outcome is a failure for want of cells. -/
def isStoreFull : Outcome Value → Bool
  | .halt (.failed f) _ =>
      match f.cause with
      | .storeFull _ => true
      | _ => false
  | _ => false

theorem exists_full (n : Nat) (v : Value) (env : Env) (s : State)
    (h : isStoreFull (evaluate n v env s) = true) :
    ∃ o, EndsAs v env s (some o) ∧ o.IsFull := by
  have hends : (evaluate n v env s).Ends ∧ (evaluate n v env s).IsFull := by
    generalize evaluate n v env s = o at h
    unfold isStoreFull at h
    split at h
    · rename_i f t
      cases hcause : f.cause <;> rw [hcause] at h <;>
        first | exact ⟨trivial, _, hcause⟩ | cases h
    · cases h
  exact ⟨_, endsAs_of_ends hends.1, hends.2⟩

/-- Whether the outcome is the value. -/
def isValue (w : Value) : Outcome Value → Bool
  | .ok v _ => v.same w
  | .halt .. => false

theorem exists_value (n : Nat) (w : Value) (env : Env) (s : State) (hw : ∀ x, v ≠ .double x)
    (h : isValue v (evaluate n w env s) = true) : ∃ t, EndsAs w env s (some (.ok v t)) := by
  obtain ⟨t, ht⟩ : ∃ t, evaluate n w env s = .ok v t := by
    generalize evaluate n w env s = o at h
    cases o with
    | ok u t =>
        have hsame : u = v := by
          cases v <;> cases u <;> simp_all [isValue, Value.same, Value.agrees]
        exact ⟨t, by rw [hsame]⟩
    | halt c t => cases h
  have hends : EndsAs w env s (some (evaluate n w env s)) := endsAs_of_ends (by rw [ht]; trivial)
  rw [ht] at hends
  exact ⟨t, hends⟩

/-- A call on two literals. -/
def plain : Code := call Machine.symbol "and" [.word (.int 1), .word (.int 2)]

/-- A machine that holds it and is full. -/
def fullMachine : State := Machine.holding 0 [plain]

/-- A call whose first operand puts 7 in the place of the second. -/
def rewriting : Code :=
  call Machine.symbol "and"
    [.list [.word (.callable ⟨15⟩), quotation (.pair ⟨127⟩), .word (.int 7)], .word (.int 2)]

/-- A machine that holds it and has `rplaca` for one more callable. -/
def rewritingMachine : State :=
  let s := Machine.holding 5 [rewriting]
  { s with
    store := { s.store with callables := s.store.callables.push (.native (.lists .rplaca)) } }

/-- Without room for the expansion `(and 1 2)` fails, and where the first operand replaces the
second, it is the new operand that is evaluated. -/
theorem connectives_full_or_rewritten :
    (∃ s r args o, Loaded Machine.symbol conjunction s ∧
      s.store.cell? r = some ⟨.sym (Machine.symbol "and"), args⟩ ∧
      s.store.Chain [.int 1, .int 2] .nil args ∧ EndsAs (.pair r) none s (some o) ∧ o.IsFull) ∧
    ∃ s r args e t, Loaded Machine.symbol conjunction s ∧
      s.store.cell? r = some ⟨.sym (Machine.symbol "and"), args⟩ ∧
      s.store.Chain [e, .int 2] .nil args ∧ EndsAs (.pair r) none s (some (.ok (.int 7) t)) := by
  constructor
  · have hloaded : Loaded Machine.symbol conjunction fullMachine :=
      loaded_of_check (by decide +kernel) _
    obtain ⟨o, hends, hfull⟩ :=
      exists_full 9 (.pair ⟨124⟩) none fullMachine (by decide +kernel)
    have hstands : plain.Stands fullMachine.store (.pair ⟨124⟩) :=
      stands_of_isAt (by decide +kernel)
    obtain ⟨r, _, args, hform, hr, rfl, q, _, _, rfl, hq, rfl, q', _, _, rfl, hq', rfl, rfl⟩ :=
      hstands
    rw [hform] at hends
    exact ⟨_, r, .pair q, o, hloaded, hr, ⟨q, _, rfl, hq, q', _, rfl, hq', rfl⟩, hends, hfull⟩
  · have hloaded : Loaded Machine.symbol conjunction rewritingMachine :=
      loaded_of_check (by decide +kernel) _
    obtain ⟨t, hends⟩ :=
      exists_value (v := .int 7) 9 (.pair ⟨129⟩) none rewritingMachine (by simp) (by decide +kernel)
    have hstands : rewriting.Stands rewritingMachine.store (.pair ⟨129⟩) :=
      stands_of_isAt (by decide +kernel)
    obtain ⟨r, _, args, hform, hr, rfl, q, e, _, rfl, hq, -, q', _, _, rfl, hq', rfl, rfl⟩ :=
      hstands
    rw [hform] at hends
    exact ⟨_, r, .pair q, e, t, hloaded, hr, ⟨q, _, rfl, hq, q', _, rfl, hq', rfl⟩, hends⟩

end Prelude

end SmallLisp
