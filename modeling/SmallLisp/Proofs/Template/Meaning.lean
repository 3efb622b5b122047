import Mathlib.Data.List.Forall2
import SmallLisp.Evaluator
import SmallLisp.Form
import SmallLisp.Proofs.Reading.Layout

/-!
# What a template means

A backquoted template stands for data: its atoms for themselves, an unquote for the value of its
expression, a splice for the elements of its value, and a list for the concatenation of what its
items contribute, one after the other. `Site.fill` says so without mentioning the expansion. As the
expressions are programs, the meaning is a course of events: they are evaluated from left to right,
each once, and the data are put together list by list.

A course can also go wrong: an expression fails or does not end, its value is a promise, it tampers
with the code at hand, or a list that is to be concatenated is not proper. What is shown about a
template holds for as long as nothing goes wrong.
-/

namespace SmallLisp

/-! ## Data -/

/-- What a template stands for: a tree of new pairs over values of the machine. -/
inductive Datum where
  | value (v : Value)
  | pair (car cdr : Datum)

namespace Datum

def nil : Datum := .value .nil

/-- The items in front of a tail. -/
def listWithTail (items : List Datum) (tail : Datum) : Datum := items.foldr .pair tail

/-- A proper list. -/
def list (items : List Datum) : Datum := listWithTail items nil

def isPromise : Datum → Bool
  | .value (.promise _) => true
  | _ => false

/-- The datum is a proper list of the items. -/
def Lists (s : Store) : Datum → List Datum → Prop
  | .value v, items => ∃ xs, s.Chain xs .nil v ∧ items = xs.map .value
  | .pair a d, items => ∃ rest, items = a :: rest ∧ d.Lists s rest

/-- The datum is the concatenation: the items of all lists but the last, in front of the last. -/
def Joins (s : Store) : List Datum → Datum → Prop
  | [], d => d = nil
  | [last], d => d = last
  | x :: y :: rest, d => ∃ items tail, x.Lists s items ∧ Joins s (y :: rest) tail ∧
      d = listWithTail items tail

end Datum

/-- The value, with the cells that it is made of, is the datum. All of those cells are among the
given ones. -/
def Store.Unfolds (s : Store) (cells : Nat → Prop) : Value → Datum → Prop
  | w, .value v => w = v
  | w, .pair a d => ∃ r x y, w = .pair r ∧ cells r.index ∧ s.cell? r = some ⟨x, y⟩ ∧
      s.Unfolds cells x a ∧ s.Unfolds cells y d

/-! ## Courses of events -/

/-- How far the events have come: the state, and the expressions evaluated so far. -/
structure Trail where
  state : State
  seen : List Form

/-- A course of events: when it goes wrong, and else what it can come to. -/
@[ext] structure Course (α : Type) where
  wrong : Trail → Prop
  ends : Trail → α → Trail → Prop

namespace Course

variable {α β : Type}

protected def pure (a : α) : Course α := ⟨fun _ => False, fun p b q => b = a ∧ q = p⟩

protected def bind (x : Course α) (f : α → Course β) : Course β where
  wrong p := x.wrong p ∨ ∃ a q, x.ends p a q ∧ (f a).wrong q
  ends p b r := ∃ a q, x.ends p a q ∧ (f a).ends q b r

instance : Monad Course where
  pure := Course.pure
  bind := Course.bind

@[simp] theorem wrong_pure (a : α) (p : Trail) : (pure a : Course α).wrong p ↔ False := Iff.rfl

@[simp] theorem ends_pure {a b : α} {p q : Trail} :
    (pure a : Course α).ends p b q ↔ b = a ∧ q = p := Iff.rfl

theorem wrong_bind {x : Course α} {f : α → Course β} {p : Trail} :
    (x >>= f).wrong p ↔ x.wrong p ∨ ∃ a q, x.ends p a q ∧ (f a).wrong q := Iff.rfl

theorem ends_bind {x : Course α} {f : α → Course β} {p r : Trail} {b : β} :
    (x >>= f).ends p b r ↔ ∃ a q, x.ends p a q ∧ (f a).ends q b r := Iff.rfl

instance : LawfulMonad Course :=
  LawfulMonad.mk' Course
    (fun x => by
      show (x >>= fun a => pure a) = x
      ext p
      · simp [wrong_bind]
      · simp only [ends_bind, ends_pure]
        grind)
    (fun a f => by
      ext p
      · simp only [wrong_bind, wrong_pure, ends_pure]
        grind
      · simp only [ends_bind, ends_pure]
        grind)
    (fun x f g => by
      ext p
      · simp only [wrong_bind, ends_bind]
        grind
      · simp only [ends_bind]
        grind)

/-- Nothing happens if the condition holds; else the course goes wrong. -/
def require (c : Prop) : Course Unit := ⟨fun _ => ¬ c, fun p _ q => c ∧ q = p⟩

/-- Put lists together as they are now. -/
def joined (ds : List Datum) : Course Datum where
  wrong p := ¬ ∃ d, Datum.Joins p.state.store ds d
  ends p d q := Datum.Joins p.state.store ds d ∧ q = p

/-- Let the courses run in order and keep all results. -/
def each : List (Course α) → Course (List α)
  | [] => pure []
  | x :: xs => do
      let a ← x
      let as ← each xs
      pure (a :: as)

end Course

/-! ## The code at hand -/

/-- Nothing but new cells tells the second state from the first. -/
structure State.Grows (s t : State) : Prop where
  cells : s.store.AddsCells t.store
  rest : t = { s with store := t.store }

/-- The natives that an expansion calls. -/
inductive Builder where
  | list
  | cons
  | append

namespace Builder

def native : Builder → ListNative
  | .list => .list
  | .cons => .cons
  | .append => .append

/-- The name by which an expansion calls the native. -/
def name (b : Builder) : String := b.native.spec.name

/-- The symbol of the name, which is the same in every table. -/
def symbol : Builder → Symbol
  | .list => ⟨14⟩
  | .cons => ⟨15⟩
  | .append => ⟨16⟩

end Builder

/-- The natives that an expansion calls are well known. -/
theorem SymbolTable.Sound.name?_builder {t : SymbolTable} (h : t.Sound) (b : Builder) :
    t.names[b.symbol.index]? = some b.name := by
  cases b with
  | list => exact h.name?_known (i := 14) (by decide)
  | cons => exact h.name?_known (i := 15) (by decide)
  | append => exact h.name?_known (i := 16) (by decide)

/-- Values that evaluate to themselves at once. -/
def Value.isLiteral : Value → Bool
  | .sym _ | .pair _ | .address _ | .callable _ | .promise _ => false
  | _ => true

/-- A piece of code in a state and in an environment: which cells are its own, and which values are
the code of which form. Calls of `list`, `cons` and `append` and quoted atoms are as they were read;
for the rest, the code can be a form as read or what a compiler has made of it. -/
structure Site where
  env : Env
  start : State
  own : Ref .cell → Prop
  code : Form → Value → Prop
  inRange : ∀ {r}, own r → r.index < start.store.cells.size
  pair : ∀ {f r}, code f (.pair r) → own r
  call : ∀ {b : Builder} {args v}, code (.call b.name args) v →
    ∃ vs, start.store.Owned own (.sym b.symbol :: vs) v ∧ List.Forall₂ code args vs
  quoted : ∀ {f v}, (∀ a b, f ≠ .pair a b) → code f.quoted v →
    ∃ x, start.store.Spells start.symbols f x ∧
      (v = x ∧ x.isLiteral ∨ start.store.Owned own [.sym Symbol.quote, x] v)

namespace Site

variable (T : Site)

/-- The code is as it was, and its calls are calls of the natives. -/
structure Stays (s : State) : Prop where
  cells : ∀ r, T.own r → s.store.cell? r = T.start.store.cell? r
  natives : ∀ b : Builder, ∃ r, s.global? b.symbol = some (.callable r) ∧
    s.store.callable r = .native (.lists b.native)

/-- Evaluating the code in the state gives the value and leaves the second state. -/
def Returns (c : Value) (s : State) (v : Value) (t : State) : Prop :=
  ∃ n, evaluate n c T.env s = .ok v t

/-- The store is too small to evaluate the code in the state. -/
def Overflows (c : Value) (s : State) : Prop :=
  ∃ n f t capacity, evaluate n c T.env s = .halt (.failed f) t ∧ f.cause = .storeFull capacity

/-! ## The meaning -/

/-- An atom or a vector stands for itself. -/
def constant (f : Form) : Course Datum where
  wrong _ := False
  ends p d q := ∃ x, T.start.store.Spells T.start.symbols f x ∧ d = .value x ∧ q = p

/-- Evaluate an expression, in a state that may have come by new cells. -/
def evaluated (f : Form) : Course Datum where
  wrong p := ∃ c s, T.code f c ∧ p.state.Grows s ∧ ¬ T.Overflows c s ∧
    ¬ ∃ v t, T.Returns c s v t ∧ T.Stays t
  ends p d q := ∃ c s v t, T.code f c ∧ p.state.Grows s ∧ T.Returns c s v t ∧ T.Stays t ∧
    d = .value v ∧ q = ⟨t, p.seen ++ [f]⟩

/-- An unquoted expression. A literal nil is not evaluated. -/
def mark (f : Form) : Course Datum :=
  if f.isNil then T.constant f
  else do
    let d ← T.evaluated f
    Course.require (d.isPromise = false)
    pure d

/-- A spliced expression, or one in the place of a tail. Of a call of `list` the operands are
evaluated, and it stands for the list of their values. -/
def spliced (f : Form) : Course Datum :=
  match f.args? "list" with
  | some args => do
      let ds ← Course.each (args.map T.evaluated)
      pure (.list ds)
  | none => T.mark f

/-- What an item contributes to its list: a list of one element, or the list that is spliced.
`filled` is the meaning of the item itself. -/
def contribution (item : Form) (filled : Course Datum) : Course Datum :=
  match item with
  | .unquote f => do
      let d ← T.mark f
      pure (.list [d])
  | .splice f => T.spliced f
  | _ => do
      let d ← filled
      pure (.list [d])

end Site

/-- Nothing follows: what is left of the list is nil, or splices of nil in front of it. -/
def Form.ends : Form → Bool
  | .atom .nil => true
  | .unquote f => f.isNil
  | .pair (.splice f) b => f.isNil && b.ends
  | _ => false

namespace Site

variable (T : Site)

/-- A list in front of others. In front of nothing it is the last, and becomes the tail. -/
def inFront (head : Course Datum) (ends : Bool) (rest : Course (List Datum)) :
    Course (List Datum) := do
  let d ← head
  if ends then pure [d]
  else do
    let ds ← rest
    pure (d :: ds)

mutual

/-- The meaning of a template. -/
def fill : Form → Course Datum
  | .pair a b => do
      let ds ← inFront (T.contribution a (fill a)) b.ends (segments b)
      Course.joined ds
  | .unquote f => T.mark f
  | f => T.constant f

/-- The lists that the items of a template and its tail contribute, in order. -/
def segments : Form → Course (List Datum)
  | .pair a b => inFront (T.contribution a (fill a)) b.ends (segments b)
  | .unquote f => do
      let d ← T.spliced f
      pure [d]
  | f => do
      let d ← T.constant f
      pure [d]

end

end Site

/-! ## The expressions of a template -/

namespace Form

/-- The expression of an unquote, if it is evaluated. -/
def markExprs (f : Form) : List Form := if f.isNil then [] else [f]

/-- What is evaluated of a spliced expression. -/
def spliceExprs (f : Form) : List Form :=
  match f.args? "list" with
  | some args => args
  | none => f.markExprs

/-- What is evaluated of an item; `within` are the expressions inside it. -/
def itemExprs (item : Form) (within : List Form) : List Form :=
  match item with
  | .unquote f => f.markExprs
  | .splice f => f.spliceExprs
  | _ => within

mutual

/-- The expressions that a template has evaluated, from left to right. -/
def exprs : Form → List Form
  | .pair a b => itemExprs a (exprs a) ++ tailExprs b
  | .unquote f => f.markExprs
  | _ => []

def tailExprs : Form → List Form
  | .pair a b => itemExprs a (exprs a) ++ tailExprs b
  | .unquote f => f.spliceExprs
  | _ => []

end

end Form

/-! ## What is evaluated -/

/-- The course evaluates the expressions in order, each once. -/
def Course.Sees {α : Type} (K : Course α) (es : List Form) : Prop :=
  ∀ ⦃p a q⦄, K.ends p a q → q.seen = p.seen ++ es

namespace Course.Sees

variable {α β : Type}

theorem pure (a : α) : (pure a : Course α).Sees [] := by
  rintro p _ q ⟨rfl, rfl⟩
  simp

theorem bind {K : Course α} {f : α → Course β} {es fs : List Form} (hK : K.Sees es)
    (hf : ∀ a, (f a).Sees fs) : (K >>= f).Sees (es ++ fs) := by
  rintro p b r ⟨a, q, ha, hb⟩
  rw [hf a hb, hK ha, List.append_assoc]

/-- Steps that evaluate nothing may follow. -/
theorem bind_nil {K : Course α} {f : α → Course β} {es : List Form} (hK : K.Sees es)
    (hf : ∀ a, (f a).Sees []) : (K >>= f).Sees es := by
  have h := hK.bind hf
  rwa [List.append_nil] at h

theorem joined (ds : List Datum) : (Course.joined ds).Sees [] := by
  rintro p d q ⟨-, rfl⟩
  simp

end Course.Sees

namespace Site

variable (T : Site)

theorem sees_constant (f : Form) : (T.constant f).Sees [] := by
  rintro p d q ⟨x, -, -, rfl⟩
  simp

theorem sees_evaluated (f : Form) : (T.evaluated f).Sees [f] := by
  rintro p d q ⟨c, s, v, t, -, -, -, -, -, rfl⟩
  rfl

theorem sees_mark (f : Form) : (T.mark f).Sees f.markExprs := by
  unfold mark Form.markExprs
  split
  · exact T.sees_constant f
  · refine (T.sees_evaluated f).bind_nil fun d => .bind_nil ?_ fun _ => .pure d
    rintro p _ q ⟨-, rfl⟩
    simp

theorem sees_each (fs : List Form) : (Course.each (fs.map T.evaluated)).Sees fs := by
  induction fs with
  | nil => exact .pure []
  | cons f fs ih => exact (T.sees_evaluated f).bind fun a => ih.bind_nil fun as => .pure (a :: as)

theorem sees_spliced (f : Form) : (T.spliced f).Sees f.spliceExprs := by
  unfold spliced Form.spliceExprs
  cases f.args? "list" with
  | some args => exact (T.sees_each args).bind_nil fun ds => .pure (Datum.list ds)
  | none => exact T.sees_mark f

theorem sees_contribution {item : Form} {K : Course Datum} {es : List Form} (h : K.Sees es) :
    (T.contribution item K).Sees (item.itemExprs es) := by
  cases item with
  | unquote f => exact (T.sees_mark f).bind_nil fun d => .pure (Datum.list [d])
  | splice f => exact T.sees_spliced f
  | _ => exact h.bind_nil fun d => .pure (Datum.list [d])

theorem tailExprs_of_ends : ∀ {b : Form}, b.ends = true → b.tailExprs = []
  | .atom _, _ => by simp [Form.tailExprs]
  | .unquote f, h => by
      obtain rfl := Form.isNil_iff.1 h
      rfl
  | .pair (.splice f) b, h => by
      rw [Form.ends, Bool.and_eq_true] at h
      obtain rfl := Form.isNil_iff.1 h.1
      rw [Form.tailExprs, tailExprs_of_ends h.2]
      rfl

theorem sees_inFront {H : Course Datum} {S : Course (List Datum)} {es : List Form} {b : Form}
    (hH : H.Sees es) (hS : S.Sees b.tailExprs) :
    (inFront H b.ends S).Sees (es ++ b.tailExprs) := by
  refine hH.bind fun d => ?_
  cases hends : b.ends with
  | true =>
      rw [tailExprs_of_ends hends]
      exact .pure [d]
  | false => exact hS.bind_nil fun ds => .pure (d :: ds)

mutual

/-- The meaning of a template evaluates its expressions from left to right, each once. -/
theorem sees_fill : ∀ t : Form, (T.fill t).Sees t.exprs
  | .atom a => T.sees_constant _
  | .pair a b => by
      rw [fill, Form.exprs]
      exact (sees_inFront (T.sees_contribution (sees_fill a)) (sees_segments b)).bind_nil .joined
  | .vector items => T.sees_constant _
  | .unquote f => T.sees_mark f
  | .splice f => T.sees_constant _

theorem sees_segments : ∀ b : Form, (T.segments b).Sees b.tailExprs
  | .atom a => (T.sees_constant _).bind_nil fun d => .pure [d]
  | .pair a b => by
      rw [segments, Form.tailExprs]
      exact sees_inFront (T.sees_contribution (sees_fill a)) (sees_segments b)
  | .vector items => (T.sees_constant _).bind_nil fun d => .pure [d]
  | .unquote f => (T.sees_spliced f).bind_nil fun d => .pure [d]
  | .splice f => (T.sees_constant _).bind_nil fun d => .pure [d]

end

end Site

end SmallLisp
