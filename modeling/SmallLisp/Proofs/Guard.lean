import Mathlib.Order.Basic
import SmallLisp.Proofs.Computation

/-!
# What is known of the values of a run

A guard says what the values that a run deals with are known to be. Two states may differ in cells
that nothing known to be good refers to, and in the traces of failures: whatever is good is printed
alike in both.
-/

namespace SmallLisp

/-- The state with other failures and other cells in its store. -/
def State.withParts (s : State) (fs : Array Failure) (cells : Array Cell) : State :=
  { s with store := { s.store with failures := fs, cells } }

def Value.isPromise : Value → Bool
  | .promise _ => true
  | _ => false

/-- What the values and the environments of a run are known to be; of the value of a delivered
promise more may be known than of others. -/
structure Guard where
  World : Type
  [order : Preorder World]
  Good : World → Value → Prop
  Final : World → Value → Prop
  Inside : World → Env → Prop
  good_mono : ∀ {w w' : World} {v : Value}, w ≤ w' → Good w v → Good w' v
  final_mono : ∀ {w w' : World} {v : Value}, w ≤ w' → Final w v → Final w' v
  inside_mono : ∀ {w w' : World} {env : Env}, w ≤ w' → Inside w env → Inside w' env
  good_of_final : ∀ {w : World} {v : Value}, Final w v → Good w v
  final_of_good : ∀ {w : World} {v : Value}, Good w v → v.isPromise = false → Final w v
  nil : ∀ w, Good w .nil
  int : ∀ w n, Good w (.int n)
  double : ∀ w x, Good w (.double x)
  eof : ∀ w, Good w .eof
  truth : ∀ w, Good w (.sym Symbol.t)
  address : ∀ {w : World} {a : Address}, Good w (.address a) ↔ Good w (.sym a.symbol)
  top : ∀ w, Inside w none

attribute [instance] Guard.order

namespace Guard

variable (G : Guard)

/-- All of the values are good. -/
def GoodAll (w : G.World) (vs : List Value) : Prop := ∀ v ∈ vs, G.Good w v

/-- What a promise holds is good. -/
def GoodPromise (w : G.World) : Promise → Prop
  | .pending form env => G.Good w form ∧ G.Inside w env
  | .delivered v => G.Final w v

/-- What a callable holds is good. -/
def GoodCallable (w : G.World) : Callable → Prop
  | .native _ => True
  | .template _ body => G.Good w body
  | .closure _ body env => G.Good w body ∧ G.Inside w env
  | .expander _ body => G.Good w body

/-- The values that a cause carries are good. -/
def GoodCause (w : G.World) : Cause → Prop
  | .thrown tag v _ => G.Good w tag ∧ G.Good w v
  | _ => True

/-- Whatever a state holds is good, where it is reached from what is good. -/
structure Covers (w : G.World) (s : State) : Prop where
  car : ∀ {r}, G.Good w (.pair r) → G.Good w (s.store.car r)
  cdr : ∀ {r}, G.Good w (.pair r) → G.Good w (s.store.cdr r)
  promise : ∀ {r}, G.Good w (.promise r) → G.GoodPromise w (s.store.promise r)
  callable : ∀ {r}, G.Good w (.callable r) → G.GoodCallable w (s.store.callable r)
  vector : ∀ {r}, G.Good w (.vector r) → G.GoodAll w (s.store.vector r).toList
  dummy : ∀ {r}, G.Good w (.dummy r) → G.Good w (.sym (s.store.dummySymbol r))
  global : ∀ {x v}, s.global? x = some v → G.Good w (.sym x) ∧ G.Good w v
  slot : ∀ {env i j v}, G.Inside w env → s.frames.lookup? env i j = some v → G.Good w v
  frames : ∀ {env}, G.Inside w env → ∀ slots ∈ s.frames.contents env, G.GoodAll w slots.toList

/-- The second state is the first but for the traces of the failures in the store and for cells that
nothing good refers to. -/
def Sees (w : G.World) (s t : State) : Prop :=
  ∃ fs cells, t = s.withParts fs cells ∧
    fs.map Failure.cause = s.store.failures.map Failure.cause ∧
    cells.size = s.store.cells.size ∧
    ∀ r : Ref .cell, G.Good w (.pair r) → cells[r.index]? = s.store.cells[r.index]?

/-- The states are related in a world from here on, of which `P` holds. -/
def Reaches (St : G.World → State → State → Prop) (w : G.World) (s t : State)
    (P : G.World → Prop) : Prop :=
  ∃ w', w ≤ w' ∧ St w' s t ∧ P w'

theorem ofBool (w : G.World) (b : Bool) : G.Good w (.ofBool b) := by
  cases b with
  | true => exact G.truth w
  | false => exact G.nil w

variable {G}

theorem GoodAll.mono {w w' : G.World} {vs : List Value} (hw : w ≤ w') (h : G.GoodAll w vs) :
    G.GoodAll w' vs := fun v hv => G.good_mono hw (h v hv)

theorem goodAll_nil (w : G.World) : G.GoodAll w [] := by
  simp [GoodAll]

theorem goodAll_cons {w : G.World} {v : Value} {vs : List Value} :
    G.GoodAll w (v :: vs) ↔ G.Good w v ∧ G.GoodAll w vs := by
  simp [GoodAll]

theorem goodAll_reverse {w : G.World} {vs : List Value} :
    G.GoodAll w vs.reverse ↔ G.GoodAll w vs := by
  simp [GoodAll]

end Guard

/-! ## Printing -/

namespace Guard.Sees

open Printer

variable {G : Guard} {w : G.World} {s t : State} {symbols : SymbolTable} {escape : Bool}

theorem of_agrees (h : s.Agrees t) : G.Sees w s t := by
  obtain ⟨fs, rfl, hfs⟩ := h
  exact ⟨fs, s.store.cells, rfl, hfs, rfl, fun _ _ => rfl⟩

theorem car (h : G.Sees w s t) {r : Ref .cell} (hr : G.Good w (.pair r)) :
    t.store.car r = s.store.car r := by
  obtain ⟨fs, cells, rfl, -, -, hcells⟩ := h
  simp only [Store.car, State.withParts, Array.getD_eq_getD_getElem?, hcells r hr]

theorem cdr (h : G.Sees w s t) {r : Ref .cell} (hr : G.Good w (.pair r)) :
    t.store.cdr r = s.store.cdr r := by
  obtain ⟨fs, cells, rfl, -, -, hcells⟩ := h
  simp only [Store.cdr, State.withParts, Array.getD_eq_getD_getElem?, hcells r hr]

theorem message (h : G.Sees w s t) (r : Ref .failure) :
    (t.store.failure r).message = (s.store.failure r).message := by
  obtain ⟨fs, cells, rfl, hfs, -⟩ := h
  have h := congrArg (fun causes => causes[r.index]?) hfs
  simp only [Array.getElem?_map] at h
  simp only [Store.failure, Failure.message, State.withParts, Array.getD_eq_getD_getElem?]
  cases hf : fs[r.index]? <;> cases hg : s.store.failures[r.index]? <;> simp_all

theorem cellFuel (h : G.Sees w s t) :
    Printer.cellFuel ⟨t.store, symbols, escape⟩ = Printer.cellFuel ⟨s.store, symbols, escape⟩ := by
  obtain ⟨fs, cells, rfl, -, hsize, -⟩ := h
  simp only [Printer.cellFuel, State.withParts, hsize]

variable (hs : G.Covers w s) (h : G.Sees w s t) {item item' : Item}
  (hitem : ∀ v memo, G.Good w v → item' v memo = item v memo)
include hs h hitem

theorem tail (n : Nat) {v : Value} (hv : G.Good w v) (text : String) (memo : PrintMemo) :
    Printer.tail ⟨t.store, symbols, escape⟩ item' n v text memo =
      Printer.tail ⟨s.store, symbols, escape⟩ item n v text memo := by
  induction n generalizing v text memo with
  | zero => cases v <;> rfl
  | succ n ih =>
      cases v with
      | nil => rfl
      | pair r =>
          simp only [Printer.tail, h.car hv, h.cdr hv, hitem _ _ hv, hitem _ _ (hs.car hv),
            ih (hs.cdr hv)]
      | _ => simp only [Printer.tail, hitem _ _ hv]

theorem pair {r : Ref .cell} (hr : G.Good w (.pair r)) (memo : PrintMemo) :
    Printer.pair ⟨t.store, symbols, escape⟩ item' r memo =
      Printer.pair ⟨s.store, symbols, escape⟩ item r memo := by
  have hquoted : quotedValue? t.store r = quotedValue? s.store r ∧
      ∀ v, quotedValue? s.store r = some v → G.Good w v := by
    have hcdr := hs.cdr hr
    simp only [quotedValue?, h.car hr, h.cdr hr]
    cases hnext : s.store.cdr r with
    | pair next =>
        rw [hnext] at hcdr
        simp only [h.car hcdr, h.cdr hcdr, true_and]
        intro v hv
        split at hv
        · split at hv
          · cases hv
            exact hs.car hcdr
          · cases hv
        · cases hv
    | _ => simp
  simp only [Printer.pair, hquoted.1, h.car hr, h.cdr hr, h.cellFuel, hitem _ _ (hs.car hr),
    tail hs h hitem _ (hs.cdr hr)]
  cases hv : quotedValue? s.store r with
  | none => rfl
  | some v => simp only [hitem _ _ (hquoted.2 v hv)]

omit hs h in
theorem items {vs : List Value} (hvs : G.GoodAll w vs) (text : String) (memo : PrintMemo) :
    Printer.items item' vs text memo = Printer.items item vs text memo := by
  induction vs generalizing text memo with
  | nil => rfl
  | cons v vs ih =>
      obtain ⟨hv, hvs⟩ := Guard.goodAll_cons.1 hvs
      cases vs with
      | nil => simp only [Printer.items, hitem _ _ hv]
      | cons v' vs => simp only [Printer.items, hitem _ _ hv, ih hvs]

theorem callable {f : Callable} (hf : G.GoodCallable w f) (memo : PrintMemo) :
    Printer.callable ⟨t.store, symbols, escape⟩ item' f memo =
      Printer.callable ⟨s.store, symbols, escape⟩ item f memo := by
  cases f with
  | native m => rfl
  | template shape b => simp only [Printer.callable, body, h.cellFuel, tail hs h hitem _ hf]
  | closure shape b env => simp only [Printer.callable, body, h.cellFuel, tail hs h hitem _ hf.1]
  | expander shape b => simp only [Printer.callable, body, h.cellFuel, tail hs h hitem _ hf]

omit hitem in
theorem render (depth : Nat) : ∀ (v : Value) (memo : PrintMemo), G.Good w v →
    Printer.render ⟨t.store, symbols, escape⟩ depth v memo =
      Printer.render ⟨s.store, symbols, escape⟩ depth v memo := by
  induction depth with
  | zero => exact fun _ _ _ => rfl
  | succ depth ih =>
      intro v memo hv
      simp only [Printer.render]
      cases v with
      | pair r => exact pair hs h ih hv memo
      | callable r =>
          have hsame : t.store.callable r = s.store.callable r := by
            obtain ⟨fs, cells, rfl, -⟩ := h
            rfl
          simp only [value, hsame]
          exact callable hs h ih (hs.callable hv) memo
      | vector r =>
          have hitems := items ih (hs.vector hv)
          obtain ⟨fs, cells, rfl, -⟩ := h
          have hsame : (s.withParts fs cells).store.vector r = s.store.vector r := rfl
          simp only [value, vector, hsame, hitems]
      | promise r =>
          have hpromise := hs.promise hv
          have hsame : t.store.promise r = s.store.promise r := by
            obtain ⟨fs, cells, rfl, -⟩ := h
            rfl
          simp only [value, hsame]
          cases hp : s.store.promise r with
          | pending form env => rfl
          | delivered v =>
              rw [hp] at hpromise
              exact ih v memo (G.good_of_final hpromise)
      | failure r => simp only [value, h.message]
      | _ =>
          obtain ⟨fs, cells, rfl, -⟩ := h
          rfl

omit hitem in
/-- What is good is printed alike in both states. -/
theorem print {v : Value} (hv : G.Good w v) (escape : Bool) :
    SmallLisp.print t.store t.symbols escape t.config.maxPrintRepeats v =
      SmallLisp.print s.store s.symbols escape s.config.maxPrintRepeats v := by
  have hrender : Printer.render ⟨t.store, s.symbols, escape⟩ (maxDepth + 1) v
      { repeats := s.config.maxPrintRepeats } = Printer.render ⟨s.store, s.symbols, escape⟩
        (maxDepth + 1) v { repeats := s.config.maxPrintRepeats } :=
    render hs h (maxDepth + 1) v _ hv
  obtain ⟨fs, cells, rfl, -⟩ := h
  exact congrArg Prod.fst hrender

omit hitem in
theorem textIn {v : Value} (hv : G.Good w v) : Eval.textIn t v = Eval.textIn s v :=
  print hs h hv true

omit hitem in
theorem printAll {vs : List Value} (hvs : G.GoodAll w vs) :
    SmallLisp.printAll t.store t.symbols t.config.maxPrintRepeats vs =
      SmallLisp.printAll s.store s.symbols s.config.maxPrintRepeats vs := by
  simp only [SmallLisp.printAll]
  rw [List.map_congr_left fun v hv => print hs h (hvs v hv) true]

end Guard.Sees

end SmallLisp
