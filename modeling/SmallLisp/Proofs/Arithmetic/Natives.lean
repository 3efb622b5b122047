import SmallLisp.Proofs.Arithmetic.Numbers
import SmallLisp.Proofs.Chain
import Mathlib.Algebra.BigOperators.Group.List.Basic

/-!
# Natives of arithmetic on lists of integers

The natives fold an operation along a list of arguments. On integers each step is exact, whichever
of the integers so far and the arguments are words, so the last one is as well. Nothing but the
table of wide integers changes on the way.
-/

namespace SmallLisp

open Eval

/-- The integer that a value denotes; none for a double and for what is no number. -/
def Store.integer? (s : Store) (v : Value) : Option Int := (s.number? v).bind Num.int?

/-- The values are the integers, in order. -/
def Store.Integers (s : Store) (vs : List Value) (ks : List Int) : Prop :=
  List.Forall₂ (fun v k => s.integer? v = some k) vs ks

/-- The frame is the values, laid out for a shape with a rest: those that are required one by one,
and a list of the others. -/
def Store.LaidOut (s : Store) (shape : Shape) (xs frame : List Value) : Prop :=
  shape.required ≤ xs.length ∧ ∃ rest, s.Chain (xs.drop shape.required) .nil rest ∧
    frame = xs.take shape.required ++ [rest]

/-- What the natives of arithmetic are to make of a list of integers: the sum, the product, the
successive difference and the successive quotient, where one integer alone is negated. None if
there are too few of them, or if a divisor is zero. -/
def NumberNative.result? : NumberNative → List Int → Option Int
  | .add, ks => some ks.sum
  | .mul, ks => some ks.prod
  | .sub, [k] => some (-k)
  | .sub, k :: l :: ks => some ((l :: ks).foldl (· - ·) k)
  | .div, k :: l :: ks => if 0 ∈ l :: ks then none else some ((l :: ks).foldl Int.tdiv k)
  | _, _ => none

/-- The outcome is an integer, and a word exactly if the integer fits in one. -/
def Outcome.GivesInteger (o : Outcome Value) (k : Int) : Prop :=
  ∃ v t, o = .ok v t ∧ t.store.integer? v = some k ∧ ((∃ n, v = .int n) ↔ Num.fits k = true)

namespace Store

variable {s : Store} {v : Value} {k : Int}

/-- An integer is a word or wide. -/
theorem integer?_cases (h : s.integer? v = some k) :
    (∃ n, v = .int n ∧ k = n.toInt) ∨ ∃ r, v = .big r ∧ k = s.bignum r := by
  cases v with
  | int n => exact .inl ⟨n, rfl, (Option.some.inj h).symm⟩
  | big r => exact .inr ⟨r, rfl, (Option.some.inj h).symm⟩
  | _ => cases h

theorem exists_number?_of_integer? (h : s.integer? v = some k) :
    ∃ a, s.number? v = some a ∧ a.int? = some k := Option.bind_eq_some_iff.1 h

/-- Overwriting the first half of a pair with what it is changes nothing. -/
theorem setCar_self {r : Ref .cell} {a d : Value} (h : s.cell? r = some ⟨a, d⟩) :
    s.setCar r a = s := by
  have hcells : s.cells.modify r.index (fun c => { c with car := a }) = s.cells := by
    obtain ⟨hlt, hcell⟩ := Array.getElem?_eq_some_iff.1 h
    refine Array.ext (by simp) fun i _ _ => ?_
    rw [Array.getElem_modify]
    split
    case isTrue hi =>
      subst hi
      rw [hcell]
    case isFalse => rfl
  simp only [setCar, hcells]

/-- What a number comes out as depends only on the integer it is. -/
theorem newNumber_of_int {a : Num} (ha : a.int? = some k) :
    s.newNumber a = s.newNumber (.ofInt k) := by
  simp only [newNumber, Num.normalize_of_int ha, Num.normalize_of_int (Num.int?_ofInt k)]

end Store

/-- What allocates the number for an integer gives that integer. -/
theorem Outcome.givesInteger_of_eq {o : Outcome Value} {s : State} {k : Int}
    (h : o = alloc (·.newNumber (.ofInt k)) s) : o.GivesInteger k := by
  subst h
  have hnormal : (Num.ofInt k).normalize = .ofInt k := Num.normalize_of_int (Num.int?_ofInt k)
  refine ⟨_, _, rfl, ?_⟩
  simp only [hnormal]
  obtain ⟨hint, hword⟩ := Num.is_ofInt k
  cases hk : Num.ofInt k with
  | small n =>
      rw [hk] at hint hword
      exact ⟨hint, iff_of_true ⟨n, rfl⟩ (hword.1 ⟨n, rfl⟩)⟩
  | big n =>
      rw [hk] at hint hword
      cases hint
      refine ⟨by simp [Store.integer?, Store.newBignum, Store.number?, Store.bignum, Num.int?], ?_⟩
      refine iff_of_false (by rintro ⟨m, ⟨⟩⟩) fun hfits => ?_
      obtain ⟨m, ⟨⟩⟩ := hword.2 hfits
  | double x =>
      rw [hk] at hint
      cases hint

/-! ## Walks along a list of settled items -/

namespace Engine

variable {E : Engine} {s : State} {xs : List Value} {v : Value}

/-- Forcing items that are no promises changes nothing. -/
theorem forceItems_of_chain {n : Nat} (hv : s.store.Chain xs .nil v)
    (hx : ∀ x ∈ xs, E.force x s = .ok x s) (hn : xs.length ≤ n) :
    E.forceItems n v s = .ok () s := by
  induction xs generalizing n v with
  | nil =>
      cases hv
      cases n <;> rfl
  | cons x xs ih =>
      obtain ⟨r, d, rfl, hr, hd⟩ := hv
      obtain ⟨n, rfl⟩ : ∃ m, n = m + 1 := Nat.exists_eq_succ_of_ne_zero (Nat.ne_zero_of_lt hn)
      have hset : setCar r x s = .ok () s := by
        simp only [setCar, update, alloc_apply, Store.setCar_self hr]
      rw [forceItems, bind_of_ok (car_apply r s), Store.car_of_cell? hr,
        bind_of_ok (hx x List.mem_cons_self), bind_of_ok hset,
        bind_of_ok (E.cdrCell_of_list hr hd)]
      exact ih hd (fun y hy => hx y (List.mem_cons_of_mem _ hy)) (Nat.le_of_succ_le_succ hn)

end Engine

/-! ## Folding an operation along integers -/

namespace NumberNative

variable {E : Engine} {s : State} {xs : List Value} {ks : List Int} {v : Value} {k : Int}

theorem numberArg_of_integer (hv : s.store.integer? v = some k) :
    ∃ a, Native.numberArg v s = .ok a s ∧ a.int? = some k := by
  obtain ⟨a, ha, hk⟩ := Store.exists_number?_of_integer? hv
  refine ⟨a, ?_, hk⟩
  rw [Native.numberArg, bind_of_ok (gets_apply _ s), ha]
  rfl

/-- Folding an operation that is exact on the integers at hand gives the exact result. -/
theorem fold_of_integers {op : Num → Num → Except NumFault Num} {f : Int → Int → Int}
    {P : Int → Prop}
    (hop : ∀ {a b m n}, a.int? = some m → b.int? = some n → P n → op a b = .ok (.ofInt (f m n)))
    {acc : Num} (hacc : acc.int? = some k) (hx : s.store.Integers xs ks) (hP : ∀ n ∈ ks, P n) :
    ∃ a, fold op acc xs s = .ok a s ∧ a.int? = some (ks.foldl f k) := by
  induction hx generalizing acc k with
  | nil => exact ⟨acc, rfl, hacc⟩
  | @cons x n xs ks hxn _ ih =>
      obtain ⟨b, hb, hn⟩ := numberArg_of_integer hxn
      obtain ⟨a, ha, hk⟩ := ih (Num.int?_ofInt (f k n)) fun m hm => hP m (List.mem_cons_of_mem _ hm)
      refine ⟨a, ?_, hk⟩
      rw [fold, bind_of_ok hb, hop hacc hn (hP n List.mem_cons_self)]
      exact ha

/-- Successive division by integers of which one is zero is refused. -/
theorem fold_div_of_zero {acc : Num} (hacc : acc.int? = some k) (hx : s.store.Integers xs ks)
    (hzero : 0 ∈ ks) :
    fold Num.div acc xs s = refuse (.arithmetic .divisionByZero) s := by
  induction hx generalizing acc k with
  | nil => cases hzero
  | @cons x n xs ks hxn _ ih =>
      obtain ⟨b, hb, hn⟩ := numberArg_of_integer hxn
      rw [fold, bind_of_ok hb]
      by_cases h : n = 0
      · subst h
        rw [Num.div_of_zero hacc hn]
        rfl
      · rw [Num.div_of_int hacc hn h]
        exact ih (Num.int?_ofInt _) ((List.mem_cons.1 hzero).resolve_left (Ne.symm h))

theorem foldList_of_integers {op : Num → Num → Except NumFault Num} {f : Int → Int → Int}
    {P : Int → Prop}
    (hop : ∀ {a b m n}, a.int? = some m → b.int? = some n → P n → op a b = .ok (.ofInt (f m n)))
    {first : Num} (hfirst : first.int? = some k) (hv : s.store.Chain xs .nil v)
    (hx : s.store.Integers xs ks) (hP : ∀ n ∈ ks, P n) (hn : xs.length ≤ E.fuel) :
    foldList E op first v s = alloc (·.newNumber (.ofInt (ks.foldl f k))) s := by
  obtain ⟨a, ha, hk⟩ := fold_of_integers hop hfirst hx hP
  rw [foldList, bind_of_ok (Engine.items_of_chain hv hn), bind_of_ok ha, alloc_apply, alloc_apply,
    Store.newNumber_of_int hk]

/-! ## The natives -/

variable {env : Env}

/-- A native that ends in an allocation does so for its caller. -/
theorem call_of_alloc {n : NumberNative} {args : List Value} {f : Store → Value × Store}
    (h : n.run E args s = alloc f s) : (Native.numbers n).call E args env s = alloc f s :=
  Native.call_eq_ok.2 h

section Sums

variable (hv : s.store.Chain xs .nil v) (hx : s.store.Integers xs ks) (hn : xs.length ≤ E.fuel)

include hv hx hn

theorem call_add : (Native.numbers .add).call E [v] env s =
    alloc (·.newNumber (.ofInt ks.sum)) s := by
  refine call_of_alloc (?_ : foldList E _ _ v s = _)
  rw [List.sum_eq_foldl]
  exact foldList_of_integers (P := fun _ => True)
    (fun ha hb _ => congrArg Except.ok (Num.add_of_int ha hb)) rfl hv hx (by simp) hn

theorem call_mul : (Native.numbers .mul).call E [v] env s =
    alloc (·.newNumber (.ofInt ks.prod)) s := by
  refine call_of_alloc (?_ : foldList E _ _ v s = _)
  rw [List.prod_eq_foldl]
  exact foldList_of_integers (P := fun _ => True)
    (fun ha hb _ => congrArg Except.ok (Num.mul_of_int ha hb)) rfl hv hx (by simp) hn

theorem call_sub {x : Value} (hk : s.store.integer? x = some k) :
    (Native.numbers .sub).call E [x, v] env s =
      alloc (·.newNumber (.ofInt (if ks = [] then -k else ks.foldl (· - ·) k))) s := by
  obtain ⟨a, ha, hak⟩ := numberArg_of_integer hk
  refine call_of_alloc (?_ : (Native.numberArg x >>= _) s = _)
  rw [bind_of_ok ha]
  by_cases hks : ks = []
  · subst hks
    cases hx
    cases hv
    have hnil : Value.nil.isNil = true := rfl
    rw [if_pos hnil, if_pos rfl, Num.neg_of_int hak]
  · have hnil : v.isNil = false := by
      cases hx with
      | nil => exact absurd rfl hks
      | cons _ _ =>
          obtain ⟨r, d, rfl, -⟩ := hv
          rfl
    rw [hnil, if_neg Bool.false_ne_true, if_neg hks]
    exact foldList_of_integers (P := fun _ => True)
      (fun ha hb _ => congrArg Except.ok (Num.sub_of_int ha hb)) hak hv hx (by simp) hn

theorem call_div {x y : Value} {l : Int} (hk : s.store.integer? x = some k)
    (hl : s.store.integer? y = some l) (hzero : 0 ∉ l :: ks) :
    (Native.numbers .div).call E [x, y, v] env s =
      alloc (·.newNumber (.ofInt ((l :: ks).foldl Int.tdiv k))) s := by
  obtain ⟨a, ha, hak⟩ := numberArg_of_integer hk
  obtain ⟨b, hb, hbl⟩ := numberArg_of_integer hl
  obtain ⟨hlzero, hkszero⟩ := not_or.1 (mt List.mem_cons.2 hzero)
  refine call_of_alloc (?_ : (Native.numberArg x >>= _) s = _)
  rw [bind_of_ok ha, bind_of_ok hb, Num.div_of_int hak hbl (Ne.symm hlzero), List.foldl_cons]
  exact foldList_of_integers (P := (· ≠ 0)) Num.div_of_int (Num.int?_ofInt _) hv hx
    (fun n hn => ne_of_mem_of_not_mem hn hkszero) hn

theorem call_div_of_zero {x y : Value} {l : Int} (hk : s.store.integer? x = some k)
    (hl : s.store.integer? y = some l) (hzero : 0 ∈ l :: ks) :
    (Native.numbers .div).call E [x, y, v] env s =
      .halt (.failed ⟨.call "division by zero" ((Native.numbers .div).signature ++ " " ++
        printAll s.store s.symbols s.config.maxPrintRepeats [x, y, v]), #[]⟩) s := by
  obtain ⟨a, ha, hak⟩ := numberArg_of_integer hk
  obtain ⟨b, hb, hbl⟩ := numberArg_of_integer hl
  have hrun : (Native.numbers .div).run E [x, y, v] env s =
      refuse (.arithmetic .divisionByZero) s := by
    show (Native.numberArg x >>= _) s = _
    rw [bind_of_ok ha, bind_of_ok hb]
    by_cases h : l = 0
    · subst h
      rw [Num.div_of_zero hak hbl]
      rfl
    · have hrest := fold_div_of_zero (Num.int?_ofInt (k.tdiv l)) hx
        ((List.mem_cons.1 hzero).resolve_left (Ne.symm h))
      rw [Num.div_of_int hak hbl h]
      show foldList E Num.div _ v s = _
      rw [foldList, bind_of_ok (Engine.items_of_chain hv hn)]
      exact bind_of_halt hrest
  simp only [Native.call, onFailure, hrun]
  rfl

end Sums

/-- Called on a frame of integers, a native gives the exact result. -/
theorem call_givesInteger {n : NumberNative} {frame : List Value} (hx : s.store.Integers xs ks)
    (hk : n.result? ks = some k) (hframe : s.store.LaidOut n.spec.shape xs frame)
    (hn : xs.length ≤ E.fuel) : ((Native.numbers n).call E frame env s).GivesInteger k := by
  obtain ⟨-, rest, hrest, rfl⟩ := hframe
  cases n with
  | add =>
      cases hk
      exact Outcome.givesInteger_of_eq (call_add hrest hx hn)
  | mul =>
      cases hk
      exact Outcome.givesInteger_of_eq (call_mul hrest hx hn)
  | sub =>
      cases hx with
      | nil => cases hk
      | @cons x m xs ks hxm hxs =>
          have hsub : (Native.numbers .sub).call E [x, rest] env s = _ :=
            call_sub hrest hxs (Nat.le_of_succ_le hn) hxm
          have hcall := Outcome.givesInteger_of_eq hsub
          cases ks <;>
            · cases hk
              exact hcall
  | div =>
      cases hx with
      | nil => cases hk
      | @cons x m xs ks hxm hxs =>
          cases hxs with
          | nil => cases hk
          | @cons y l xs ks hyl hxs =>
              obtain ⟨hzero, ⟨⟩⟩ := Option.ite_none_left_eq_some.1 hk
              exact Outcome.givesInteger_of_eq
                (call_div hrest hxs (Nat.le_of_succ_le (Nat.le_of_succ_le hn)) hxm hyl hzero)
  | _ => cases hk

/-- Called on a frame of integers of which one after the first is zero, division is refused. -/
theorem call_div_laidOut {frame : List Value} (hx : s.store.Integers xs ks) (hzero : 0 ∈ ks.tail)
    (hframe : s.store.LaidOut (NumberNative.spec .div).shape xs frame) (hn : xs.length ≤ E.fuel) :
    (Native.numbers .div).call E frame env s =
      .halt (.failed ⟨.call "division by zero" ((Native.numbers .div).signature ++ " " ++
        printAll s.store s.symbols s.config.maxPrintRepeats frame), #[]⟩) s := by
  obtain ⟨-, rest, hrest, rfl⟩ := hframe
  cases hx with
  | nil => cases hzero
  | @cons x m xs ks hxm hxs =>
      cases hxs with
      | nil => cases hzero
      | @cons y l xs ks hyl hxs =>
          exact call_div_of_zero hrest hxs (Nat.le_of_succ_le (Nat.le_of_succ_le hn)) hxm hyl hzero

/-- The order of the integers does not matter for a sum or a product. -/
theorem call_perm {n : NumberNative} {ys : List Value} {ls : List Int} {frame frame' : List Value}
    (hadd : n = .add ∨ n = .mul) (hx : s.store.Integers xs ks) (hy : s.store.Integers ys ls)
    (hperm : ks.Perm ls) (hframe : s.store.LaidOut n.spec.shape xs frame)
    (hframe' : s.store.LaidOut n.spec.shape ys frame') (hn : xs.length ≤ E.fuel) :
    (Native.numbers n).call E frame env s = (Native.numbers n).call E frame' env s := by
  obtain ⟨-, rest, hrest, rfl⟩ := hframe
  obtain ⟨-, rest', hrest', rfl⟩ := hframe'
  have hn' : ys.length ≤ E.fuel := by
    rw [hy.length_eq, ← hperm.length_eq, ← hx.length_eq]
    exact hn
  rcases hadd with rfl | rfl
  · refine (call_add hrest hx hn).trans (.trans ?_ (call_add hrest' hy hn').symm)
    rw [hperm.sum_eq]
  · refine (call_mul hrest hx hn).trans (.trans ?_ (call_mul hrest' hy hn').symm)
    rw [hperm.prod_eq]

/-- Arguments that are integers are no promises, so forcing them changes nothing. -/
theorem force_of_integers (hx : s.store.Integers xs ks) : ∀ x ∈ xs, E.force x s = .ok x s := by
  induction hx with
  | nil => simp
  | @cons x k xs ks hxk _ ih =>
      intro y hy
      rcases List.mem_cons.1 hy with rfl | hy
      · rcases Store.integer?_cases hxk with ⟨n, rfl, -⟩ | ⟨r, rfl, -⟩ <;> rfl
      · exact ih y hy

/-- Applying a native of numbers to a list is calling it on the frame of the list, or a failure to
match its arity. -/
theorem applyTo_of_chain {n : NumberNative} {fuel : Nat} {r : Ref .callable}
    (hr : s.store.callable r = .native (.numbers n)) (hshape : n.spec.shape.hasRest = true)
    (hv : s.store.Chain xs .nil v) (hx : s.store.Integers xs ks) (hn : xs.length ≤ fuel) :
    (xs.length < n.spec.shape.required → applyTo (fuel + 1) (.callable r) v env s =
      .halt (.failed { cause := .arity (Native.numbers n).signature }) s) ∧
    (n.spec.shape.required ≤ xs.length → ∃ frame, s.store.LaidOut n.spec.shape xs frame ∧
      applyTo (fuel + 1) (.callable r) v env s =
        (Native.numbers n).call (Engine.ofFuel fuel) frame env s) := by
  have happly : applyTo (fuel + 1) (.callable r) v env s =
      ((Engine.ofFuel fuel).makeFrame (.native (.numbers n)) v >>= fun frame =>
        (Native.numbers n).call (Engine.ofFuel fuel) frame env) s := by
    have hlazy : (Native.numbers n).isLazy = false := by cases n <;> rfl
    have heach : (Engine.ofFuel fuel).forceEach v s = .ok () s :=
      Engine.forceItems_of_chain hv (force_of_integers hx) hn
    have hforce : (Engine.ofFuel fuel).force (.callable r) s = .ok (.callable r) s := rfl
    show (Engine.ofFuel fuel).applyList (.callable r) v env s = _
    rw [Engine.applyList, bind_of_ok hforce]
    dsimp only
    rw [bind_of_ok (gets_apply _ s), hr]
    dsimp only
    rw [hlazy]
    exact bind_of_ok heach
  rw [happly]
  refine ⟨fun hshort => ?_, fun hlength => ?_⟩
  · have htake : (Engine.ofFuel fuel).takeItems n.spec.shape.required v [] s = .ok none s :=
      Engine.takeItems_of_short hv hshort
    exact bind_of_halt (bind_of_ok htake)
  · obtain ⟨rest, hrest, hmake⟩ := Engine.makeFrame_of_rest (E := Engine.ofFuel fuel)
      (f := .native (.numbers n)) hshape hv.owned hlength
    exact ⟨_, ⟨hlength, rest, hrest.chain, rfl⟩, bind_of_ok hmake⟩

end NumberNative

/-! ## Exactness -/

/-- Integer arithmetic is exact and narrowed. Sum, difference, product and negation of integers, of
whatever form, are those of the integers, and are words exactly if they fit. Quotient and remainder
are at fault exactly if the divisor is zero, and else are those of the division that rounds toward
zero. The order is that of the integers, and equality is theirs.

So on every list of integers that a native takes, it gives the exact sum, product, successive
difference or successive quotient, narrowed, unless a divisor is zero, which is refused. The order
of the integers does not matter for the sum and the product. That is so for every call on a frame
laid out from the list; applying the native to the list is such a call, or a failure to match its
arity if the list is too short. -/
theorem integer_arithmetic_exact :
    (∀ {a b : Num} {m n : Int}, a.int? = some m → b.int? = some n →
      (a.add b).Is (m + n) ∧ (a.sub b).Is (m - n) ∧ (a.mul b).Is (m * n) ∧ a.neg.Is (-m) ∧
      (a.div b = .error .divisionByZero ↔ n = 0) ∧ (a.rem b = .error .divisionByZero ↔ n = 0) ∧
      (n ≠ 0 → ∃ c d q r, a.div b = .ok c ∧ a.rem b = .ok d ∧ c.Is q ∧ d.Is r ∧
        Num.IsQuotient m n q r) ∧
      a.compare b = some (compare m n) ∧ a.eql b = decide (m = n)) ∧
    NumFault.divisionByZero.message = "division by zero" ∧
    ∀ (s : State) (xs : List Value) (ks : List Int), s.store.Integers xs ks →
      (∀ n k frame, n.result? ks = some k → s.store.LaidOut n.spec.shape xs frame →
        ∀ E env, xs.length ≤ E.fuel → ((Native.numbers n).call E frame env s).GivesInteger k) ∧
      (∀ frame, 0 ∈ ks.tail → s.store.LaidOut (NumberNative.spec .div).shape xs frame →
        ∀ E env, xs.length ≤ E.fuel → (Native.numbers .div).call E frame env s =
          .halt (.failed ⟨.call "division by zero" ((Native.numbers .div).signature ++ " " ++
            printAll s.store s.symbols s.config.maxPrintRepeats frame), #[]⟩) s) ∧
      (∀ n ys ls frame frame', n = .add ∨ n = .mul → s.store.Integers ys ls → ks.Perm ls →
        s.store.LaidOut n.spec.shape xs frame → s.store.LaidOut n.spec.shape ys frame' →
        ∀ E env, xs.length ≤ E.fuel →
          (Native.numbers n).call E frame env s = (Native.numbers n).call E frame' env s) ∧
      ∀ n r args env fuel, s.store.callable r = .native (.numbers n) →
        n.spec.shape.hasRest = true → s.store.Chain xs .nil args → xs.length ≤ fuel →
        (xs.length < n.spec.shape.required → applyTo (fuel + 1) (.callable r) args env s =
          .halt (.failed { cause := .arity (Native.numbers n).signature }) s) ∧
        (n.spec.shape.required ≤ xs.length → ∃ frame, s.store.LaidOut n.spec.shape xs frame ∧
          applyTo (fuel + 1) (.callable r) args env s =
            (Native.numbers n).call (Engine.ofFuel fuel) frame env s) := by
  refine ⟨fun {a b m n} ha hb => ?operations, rfl, fun s xs ks hx =>
    ⟨?exact, ?refused, ?order, ?applied⟩⟩
  case operations =>
    have hdiv := Num.div_of_int ha hb
    have hrem := Num.rem_of_int ha hb
    refine ⟨?_, ?_, ?_, ?_, ⟨fun h => ?_, ?_⟩, ⟨fun h => ?_, ?_⟩, fun hn => ?_,
      Num.compare_of_int ha hb, Num.eql_of_int ha hb⟩
    · rw [Num.add_of_int ha hb]
      exact Num.is_ofInt _
    · rw [Num.sub_of_int ha hb]
      exact Num.is_ofInt _
    · rw [Num.mul_of_int ha hb]
      exact Num.is_ofInt _
    · rw [Num.neg_of_int ha]
      exact Num.is_ofInt _
    · by_contra hn
      rw [hdiv hn] at h
      cases h
    · rintro rfl
      exact Num.div_of_zero ha hb
    · by_contra hn
      rw [hrem hn] at h
      cases h
    · rintro rfl
      exact Num.rem_of_zero ha hb
    · exact ⟨_, _, _, _, hdiv hn, hrem hn, Num.is_ofInt _, Num.is_ofInt _,
        Num.isQuotient_tdiv m hn⟩
  case exact =>
    intro n k frame hk hframe E env hfuel
    exact NumberNative.call_givesInteger hx hk hframe hfuel
  case refused =>
    intro frame hzero hframe E env hfuel
    exact NumberNative.call_div_laidOut hx hzero hframe hfuel
  case order =>
    intro n ys ls frame frame' hn hy hperm hframe hframe' E env hfuel
    exact NumberNative.call_perm hn hx hy hperm hframe hframe' hfuel
  case applied =>
    intro n r args env fuel hr hshape hargs hfuel
    exact NumberNative.applyTo_of_chain hr hshape hargs hx hfuel

/-- A state with the natives of arithmetic, a wide integer, and three lists: one of it, the least
word and minus one, one of the same integers in another order, and one of seven and zero. -/
def arithmetic : State where
  store :=
    { capacity := 8
      bignums := #[2 ^ 63]
      cells := #[⟨.int (-1), .nil⟩, ⟨.int Int64.minValue, .pair ⟨0⟩⟩, ⟨.big ⟨0⟩, .pair ⟨1⟩⟩,
        ⟨.big ⟨0⟩, .nil⟩, ⟨.int (-1), .pair ⟨3⟩⟩, ⟨.int Int64.minValue, .pair ⟨4⟩⟩,
        ⟨.int 0, .nil⟩, ⟨.int 7, .pair ⟨6⟩⟩]
      callables := #[.native (.numbers .div), .native (.numbers .sub)] }
  console := { answers := [] }

/-- The least word divided by minus one is wide, and leaves no remainder. Of a wide integer, the
least word and minus one, the sum, the product, the successive difference and the successive
quotient are exact, two of them narrow again. Seven divided by zero is refused. -/
theorem integer_arithmetic_exact_extremes :
    let least := Num.small Int64.minValue
    let minusOne := Num.small (-1)
    let xs := [Value.big ⟨0⟩, .int Int64.minValue, .int (-1)]
    (∃ c d q r, least.div minusOne = .ok c ∧ least.rem minusOne = .ok d ∧ c.Is q ∧ d.Is r ∧
      Num.IsQuotient (-2 ^ 63) (-1) q r) ∧
    arithmetic.store.Chain xs .nil (.pair ⟨2⟩) ∧
    ((Native.numbers .add).call (Engine.ofFuel 3) [.pair ⟨2⟩] none arithmetic).GivesInteger (-1) ∧
    ((Native.numbers .mul).call (Engine.ofFuel 3) [.pair ⟨2⟩] none arithmetic).GivesInteger
      (2 ^ 126) ∧
    (Native.numbers .add).call (Engine.ofFuel 3) [.pair ⟨2⟩] none arithmetic =
      (Native.numbers .add).call (Engine.ofFuel 3) [.pair ⟨5⟩] none arithmetic ∧
    (applyTo 4 (.callable ⟨1⟩) (.pair ⟨2⟩) none arithmetic).GivesInteger (2 ^ 64 + 1) ∧
    (applyTo 4 (.callable ⟨0⟩) (.pair ⟨2⟩) none arithmetic).GivesInteger 1 ∧
    (∃ text, (Native.numbers .div).call (Engine.ofFuel 2) [.int 7, .int 0, .nil] none arithmetic =
      .halt (.failed ⟨.call "division by zero" text, #[]⟩) arithmetic) ∧
    ∃ text, applyTo 3 (.callable ⟨0⟩) (.pair ⟨0⟩) none arithmetic =
      .halt (.failed ⟨.arity text, #[]⟩) arithmetic := by
  intro least minusOne xs
  obtain ⟨hoperations, -, hnatives⟩ := integer_arithmetic_exact
  have hleast : least.int? = some (-2 ^ 63) := by decide
  have hminusOne : minusOne.int? = some (-1) := by decide
  have hx : arithmetic.store.Integers xs [2 ^ 63, -2 ^ 63, -1] :=
    .cons (by decide) (.cons (by decide) (.cons (by decide) .nil))
  have hy : arithmetic.store.Integers [.int Int64.minValue, .int (-1), .big ⟨0⟩]
      [-2 ^ 63, -1, 2 ^ 63] :=
    .cons (by decide) (.cons (by decide) (.cons (by decide) .nil))
  have hz : arithmetic.store.Integers [.int 7, .int 0] [7, 0] :=
    .cons (by decide) (.cons (by decide) .nil)
  have hone : arithmetic.store.Integers [.int (-1)] [-1] := .cons (by decide) .nil
  have hlist : arithmetic.store.Chain xs .nil (.pair ⟨2⟩) :=
    ⟨_, _, rfl, rfl, _, _, rfl, rfl, _, _, rfl, rfl, rfl⟩
  have hlist' : arithmetic.store.Chain [.int Int64.minValue, .int (-1), .big ⟨0⟩] .nil
      (.pair ⟨5⟩) := ⟨_, _, rfl, rfl, _, _, rfl, rfl, _, _, rfl, rfl, rfl⟩
  have hperm : [2 ^ 63, -2 ^ 63, -1].Perm [-2 ^ 63, -1, (2 ^ 63 : Int)] := by decide
  obtain ⟨hexact, -, horder, happlied⟩ := hnatives arithmetic xs _ hx
  obtain ⟨-, hrefused, -, -⟩ := hnatives arithmetic _ _ hz
  obtain ⟨-, -, -, hshort⟩ := hnatives arithmetic _ _ hone
  have hframe : arithmetic.store.LaidOut (.rest 0) xs [.pair ⟨2⟩] :=
    ⟨by decide, _, hlist, rfl⟩
  refine ⟨(hoperations hleast hminusOne).2.2.2.2.2.2.1 (by decide), hlist,
    hexact .add _ _ (by decide) hframe _ _ (by decide),
    hexact .mul _ _ (by decide) hframe _ _ (by decide),
    horder .add _ _ _ _ (.inl rfl) hy hperm hframe ⟨by decide, _, hlist', rfl⟩ _ _ (by decide),
    ?difference, ?quotient, ⟨_, hrefused _ (by decide) ⟨by decide, _, rfl, rfl⟩ _ _ (by decide)⟩,
    _, (hshort .div ⟨0⟩ (.pair ⟨0⟩) none 2 rfl rfl ⟨_, _, rfl, rfl, rfl⟩ (by decide)).1
      (by decide)⟩
  case difference =>
    obtain ⟨frame, hlaid, heq⟩ :=
      (happlied .sub ⟨1⟩ _ none 3 rfl rfl hlist (by decide)).2 (by decide)
    rw [heq]
    exact hexact .sub _ _ (by decide) hlaid _ _ (by decide)
  case quotient =>
    obtain ⟨frame, hlaid, heq⟩ :=
      (happlied .div ⟨0⟩ _ none 3 rfl rfl hlist (by decide)).2 (by decide)
    rw [heq]
    exact hexact .div _ _ (by decide) hlaid _ _ (by decide)

end SmallLisp
