import SmallLisp.Proofs.Compiler.ExpandedOnce
import SmallLisp.Proofs.Conservation.Integers
import SmallLisp.Proofs.Prelude.Definitions

/-!
# Structural equality

A value without cycles unfolds to a tree: integers by value, texts by their characters, pairs and
vectors by what they hold, and everything else by identity. `equal` of two such values ends, and is
true exactly if their trees are the same. A vector is compared as the list of its items, so each
vector in the trees takes as many cells as it has items.
-/

namespace SmallLisp

open Eval

/-! ## Trees -/

/-- What a value unfolds to. -/
inductive Tree where
  | integer (k : Int)
  | text (t : String)
  /-- A value that is told apart by its identity. -/
  | atom (v : Value)
  | pair (a d : Tree)
  | vector (items : List Tree)

/-- Atoms that are equal only to themselves; a double and a promise are neither. -/
def Value.isIdentity : Value → Bool
  | .nil | .sym _ | .callable _ | .address _ | .dummy _ | .failure _ | .eof => true
  | _ => false

namespace Tree

mutual

/-- The value unfolds to the tree. -/
def Is (store : Store) : Tree → Value → Prop
  | .integer k, v => store.integer? v = some k
  | .text t, v => ∃ r, v = .text r ∧ store.text r = t
  | .atom a, v => v = a ∧ a.isIdentity = true
  | .pair a d, v => ∃ r x y, v = .pair r ∧ store.cell? r = some ⟨x, y⟩ ∧ a.Is store x ∧ d.Is store y
  | .vector ts, v => ∃ r, v = .vector r ∧ AreAll store ts (store.vector r).toList

/-- The values unfold to the trees. -/
def AreAll (store : Store) : List Tree → List Value → Prop
  | [], vs => vs = []
  | t :: ts, vs => ∃ x xs, vs = x :: xs ∧ t.Is store x ∧ AreAll store ts xs

end

/-- The list of the items, as a tree. -/
def listed : List Tree → Tree
  | [] => .atom .nil
  | t :: ts => .pair t (listed ts)

mutual

/-- How often a comparison can go on: a vector is compared as the list of its items. -/
def size : Tree → Nat
  | .pair a d => a.size + d.size + 1
  | .vector ts => sizes ts + 1
  | _ => 1

def sizes : List Tree → Nat
  | [] => 1
  | t :: ts => t.size + sizes ts + 1

end

mutual

/-- The number of items in all vectors of the tree. -/
def weight : Tree → Nat
  | .pair a d => a.weight + d.weight
  | .vector ts => weights ts
  | _ => 0

def weights : List Tree → Nat
  | [] => 0
  | t :: ts => t.weight + weights ts + 1

end

theorem size_pos (X : Tree) : 0 < X.size := by cases X <;> simp [size]

theorem size_listed (ts : List Tree) : (listed ts).size = sizes ts := by
  induction ts with
  | nil => rfl
  | cons t ts ih => rw [listed, size, sizes, ih]

theorem weights_eq (ts : List Tree) : weights ts = ts.length + (listed ts).weight := by
  induction ts with
  | nil => rfl
  | cons t ts ih =>
      rw [weights, listed, weight, ih, List.length_cons]
      omega

theorem listed_inj {ts us : List Tree} : listed ts = listed us ↔ ts = us := by
  induction ts generalizing us with
  | nil => cases us <;> simp [listed]
  | cons t ts ih => cases us <;> simp [listed, ih]

variable {s t : Store} {X : Tree} {v : Value}

theorem AreAll.length_eq {ts : List Tree} {vs : List Value} (h : AreAll s ts vs) :
    vs.length = ts.length := by
  induction ts generalizing vs with
  | nil => rw [h]; rfl
  | cons t ts ih =>
      obtain ⟨x, xs, rfl, -, hxs⟩ := h
      rw [List.length_cons, List.length_cons, ih hxs]

mutual

/-- New cells change no tree. -/
theorem Is.adds (h : s.AddsCells t) : ∀ {X : Tree} {v : Value}, X.Is s v → X.Is t v
  | .integer k, v, hv => by
      rw [Is] at hv ⊢
      rw [← hv, h.rest]
      cases v <;> rfl
  | .text _, _, ⟨r, hr, ht⟩ => ⟨r, hr, by rw [h.rest]; exact ht⟩
  | .atom _, _, hv => hv
  | .pair _ _, _, ⟨r, x, y, hr, hc, ha, hd⟩ =>
      ⟨r, x, y, hr, h.keeps r _ hc, Is.adds h ha, Is.adds h hd⟩
  | .vector _, _, ⟨r, hr, hitems⟩ => by
      have hsame : t.vector r = s.vector r := by rw [h.rest]; rfl
      exact ⟨r, hr, hsame ▸ AreAll.adds h hitems⟩

theorem AreAll.adds (h : s.AddsCells t) : ∀ {ts : List Tree} {vs : List Value},
    AreAll s ts vs → AreAll t ts vs
  | [], _, hv => hv
  | _ :: _, _, ⟨x, xs, hv, hx, hxs⟩ => ⟨x, xs, hv, Is.adds h hx, AreAll.adds h hxs⟩

end

/-- A list of values that unfold is the list of their trees. -/
theorem is_listed {ts : List Tree} {vs : List Value} (h : AreAll s ts vs)
    (hv : s.Chain vs .nil v) : (listed ts).Is s v := by
  induction ts generalizing vs v with
  | nil =>
      cases h
      exact ⟨hv, rfl⟩
  | cons t ts ih =>
      obtain ⟨x, xs, rfl, hx, hxs⟩ := h
      obtain ⟨r, d, rfl, hc, hd⟩ := hv
      exact ⟨r, x, d, rfl, hc, hx, ih hxs hd⟩

/-! ## What the natives tell of trees -/

def isPair : Tree → Bool
  | .pair .. => true
  | _ => false

def isVector : Tree → Bool
  | .vector _ => true
  | _ => false

def isText : Tree → Bool
  | .text _ => true
  | _ => false

def isInteger : Tree → Bool
  | .integer _ => true
  | _ => false

/-- A value is of the kind that its tree is, and no promise. -/
structure Kind (s : Store) (X : Tree) (v : Value) : Prop where
  promise : v.isPromise = false
  atom : TestNative.atom.holds v = !X.isPair
  vector : TestNative.vectorp.holds v = X.isVector
  text : TestNative.stringp.holds v = X.isText
  number : (s.number? v).isSome = X.isInteger

theorem Is.kind (h : X.Is s v) : X.Kind s v := by
  cases X with
  | integer k =>
      rcases Store.integer?_cases h with ⟨n, rfl, -⟩ | ⟨r, rfl, -⟩ <;>
        exact ⟨rfl, rfl, rfl, rfl, rfl⟩
  | text t =>
      obtain ⟨r, rfl, -⟩ := h
      exact ⟨rfl, rfl, rfl, rfl, rfl⟩
  | atom a =>
      obtain ⟨rfl, ha⟩ := h
      cases v <;> first | exact ⟨rfl, rfl, rfl, rfl, rfl⟩ | cases ha
  | pair a d =>
      obtain ⟨r, x, y, rfl, -⟩ := h
      exact ⟨rfl, rfl, rfl, rfl, rfl⟩
  | vector ts =>
      obtain ⟨r, rfl, -⟩ := h
      exact ⟨rfl, rfl, rfl, rfl, rfl⟩

mutual

/-- A value unfolds to one tree at most. -/
theorem Is.unique {s : Store} : ∀ {X Y : Tree} {v : Value}, X.Is s v → Y.Is s v → X = Y
  | .integer k, Y, v, hX, hY => by
      have hnumber := hX.kind.number.symm.trans hY.kind.number
      cases Y with
      | integer l => rw [Option.some.inj (hX.symm.trans hY)]
      | _ => cases hnumber
  | .text _, Y, _, ⟨r, rfl, ht⟩, hY => by
      have htext := hY.kind.text
      cases Y with
      | text u =>
          obtain ⟨_, ⟨⟩, hu⟩ := hY
          rw [← ht, hu]
      | _ => cases htext
  | .atom _, Y, v, ⟨rfl, ha⟩, hY => by
      cases Y with
      | integer l =>
          rcases Store.integer?_cases hY with ⟨n, rfl, -⟩ | ⟨r, rfl, -⟩ <;> cases ha
      | text t => obtain ⟨r, rfl, -⟩ := hY; cases ha
      | atom b => rw [hY.1]
      | pair a d => obtain ⟨r, x, y, rfl, -⟩ := hY; cases ha
      | vector ts => obtain ⟨r, rfl, -⟩ := hY; cases ha
  | .pair _ _, Y, _, ⟨r, x, y, rfl, hr, ha, hd⟩, hY => by
      have hpair := hY.kind.atom
      cases Y with
      | pair b e =>
          obtain ⟨_, x', y', ⟨⟩, hr', hb, he⟩ := hY
          cases hr.symm.trans hr'
          rw [Is.unique ha hb, Is.unique hd he]
      | _ => cases hpair
  | .vector _, Y, _, ⟨r, rfl, hts⟩, hY => by
      have hvector := hY.kind.vector
      cases Y with
      | vector us =>
          obtain ⟨_, ⟨⟩, hus⟩ := hY
          rw [AreAll.unique hts hus]
      | _ => cases hvector

theorem AreAll.unique {s : Store} : ∀ {ts us : List Tree} {vs : List Value},
    AreAll s ts vs → AreAll s us vs → ts = us
  | [], [], _, _, _ => rfl
  | [], _ :: _, _, rfl, ⟨_, _, h, _⟩ => by cases h
  | _ :: _, [], _, ⟨_, _, h, _⟩, rfl => by cases h
  | _ :: _, _ :: _, _, ⟨x, xs, rfl, hx, hxs⟩, ⟨_, _, hvs, hy, hys⟩ => by
      cases hvs
      rw [Is.unique hx hy, AreAll.unique hxs hys]

end

/-- Atoms that are neither texts nor vectors are compared by `eql`. -/
theorem Is.eqlIn {Y : Tree} {w : Value} (hv : X.Is s v) (hw : Y.Is s w) (hpair : X.isPair = false)
    (hvector : X.isVector = false) (htext : X.isText = false) :
    TestNative.eqlIn s v w = true ↔ X = Y := by
  have hdouble : ∀ x, v ≠ .double x := by
    rintro x rfl
    have hnumber := hv.kind.number
    cases X with
    | integer k => cases hv
    | _ => cases hnumber
  have hself : v = w → X = Y := by
    rintro rfl
    exact hv.unique hw
  cases X with
  | integer k =>
      cases hY : Y.isInteger with
      | true =>
          cases Y with
          | integer l => rw [Store.eqlIn_integers hv hw, decide_eq_true_iff, integer.injEq]
          | _ => cases hY
      | false =>
          have hnone : s.number? w = none := by
            rw [← Option.not_isSome_iff_eq_none, hw.kind.number, hY]
            exact Bool.false_ne_true
          have heql : TestNative.eqlIn s v w = v.same w := by
            rw [TestNative.eqlIn, hnone]
            cases s.number? v <;> exact Bool.or_false _
          rw [heql, Value.same_iff hdouble]
          refine ⟨hself, ?_⟩
          rintro rfl
          cases hY
  | atom a =>
      have hnone : s.number? v = none := by
        rw [← Option.not_isSome_iff_eq_none, hv.kind.number]
        exact Bool.false_ne_true
      have heql : TestNative.eqlIn s v w = v.same w := by
        rw [TestNative.eqlIn, hnone, Bool.or_false]
      rw [heql, Value.same_iff hdouble]
      refine ⟨hself, ?_⟩
      rintro rfl
      exact hv.1.trans hw.1.symm
  | text t => cases htext
  | pair a d => cases hpair
  | vector ts => cases hvector

end Tree

namespace Prelude

open Code

variable {σ : String → Symbol} {env : Env} {i : Nat} {s t u : State} {c d : Code} {x y v w : Value}
  {ws : List Value} {X Y : Tree}

/-! ## Calls of the natives -/

/-- A test of one value. -/
theorem Loaded.runs_test (h : Loaded σ equality s) {m : TestNative}
    (hm : .tests m ∈ equality.natives)
    (hshape : (Native.tests m).shape = .fixed 1)
    (hrun : m.run [v] = pure (.ofBool (m.holds v))) (hc : c.Runs env s v s)
    (hv : v.isPromise = false) :
    (call σ (Native.tests m).name [c]).Runs env s (.ofBool (m.holds v)) s := by
  refine h.runs_native hm hshape (.cons hc .nil) (by simpa using hv) (fun n => ?_) (.refl s)
  rw [Native.call, Native.run, hrun]
  rfl

/-- A call of `car` or `cdr` on a pair. -/
theorem Loaded.runs_half (h : Loaded σ equality s) {m : ListNative}
    (hm : .lists m ∈ equality.natives)
    (hshape : (Native.lists m).shape = .fixed 1) {r : Ref .cell}
    (hrun : ∀ E, m.run E [.pair r] env s = .ok w s) (hc : c.Runs env s (.pair r) s) :
    (call σ (Native.lists m).name [c]).Runs env s w s := by
  refine h.runs_native hm hshape (.cons hc .nil) (by simp [Value.isPromise]) (fun n => ?_) (.refl s)
  exact Native.call_eq_ok.2 (hrun _)

/-- A vector is copied to a list, in as many cells as it has items. -/
theorem Loaded.runs_toList (h : Loaded σ equality s) {r : Ref .vector} {ts : List Tree}
    (hc : c.Runs env s (.vector r) s) (hts : Tree.AreAll s.store ts (s.store.vector r).toList)
    (hroom : ts.length ≤ s.store.room) :
    ∃ w t, (call σ "_sequence-to-list" [c]).Runs env s w t ∧ (Tree.listed ts).Is t.store w ∧
      s.store.room ≤ t.store.room + ts.length := by
  have hlength : (s.store.vector r).toList.reverse.length = ts.length := by
    rw [List.length_reverse, hts.length_eq]
  obtain ⟨w, t, hcons, hadd, hchain⟩ := consAll_of_room (s := s)
    (s.store.vector r).toList.reverse .nil (by omega)
  rw [List.reverse_reverse] at hchain
  have hgains := State.Gains.of_addsCells hadd.store hadd.rest
  refine ⟨w, t, ?_, Tree.is_listed (hts.adds hadd.store) hchain, hlength ▸ hadd.room⟩
  refine h.runs_native (m := .sequences .sequenceToList) (by decide) rfl (.cons hc .nil)
    (by simp [Value.isPromise]) (fun n => ?_) hgains
  exact Native.call_eq_ok.2 hcons

/-! ## The comparison -/

/-- A call of `equal` on operands with these values gives their equality. -/
def Decides (σ : String → Symbol) (X Y : Tree) : Prop :=
  ∀ {env : Env} {c d : Code} {s t : State} {x y : Value}, Loaded σ equality s →
    RunsAll env [c, d] s [x, y] t → X.Is t.store x → Y.Is t.store y →
    X.weight + Y.weight ≤ t.store.room →
    ∃ (b : Bool) (u : State), (b = true ↔ X = Y) ∧
      (call σ "equal" [c, d]).Runs env s (.ofBool b) u ∧
      t.store.room ≤ u.store.room + X.weight + Y.weight

section Body

variable {next : Env} (h : Loaded σ equality s) (hi : s.frames.table[i]? = some ⟨#[x, y], next⟩)
  (hX : X.Is s.store x) (hY : Y.Is s.store y)

include h hi hX hY

/-- Two vectors are compared as lists. -/
theorem runs_vectors {ts us : List Tree} (hXv : X = .vector ts) (hYv : Y = .vector us)
    (hroom : X.weight + Y.weight ≤ s.store.room)
    (hrec : Decides σ (Tree.listed ts) (Tree.listed us)) :
    ∃ (b : Bool) (u : State), (b = true ↔ X = Y) ∧
      (call σ "equal" [call σ "_sequence-to-list" [parameter σ 0 "x"],
        call σ "_sequence-to-list" [parameter σ 1 "y"]]).Runs (some i) s (.ofBool b) u ∧
      s.store.room ≤ u.store.room + X.weight + Y.weight := by
  subst hXv hYv
  obtain ⟨p, rfl, hts⟩ := hX
  obtain ⟨q, rfl, hus⟩ := hY
  rw [Tree.weight, Tree.weight, Tree.weights_eq, Tree.weights_eq] at hroom ⊢
  have hx : (parameter σ 0 "x").Runs (some i) s (.vector p) s := runs_parameter hi rfl
  obtain ⟨v, t, hv, hvs, hvroom⟩ := h.runs_toList hx hts (by omega)
  have hts' := hv.gains
  have hy : (parameter σ 1 "y").Runs (some i) t (.vector q) t :=
    runs_parameter (hts'.frames i _ hi) rfl
  have hvector : t.store.vector q = s.store.vector q := by rw [hts'.store]; rfl
  obtain ⟨w, u, hw, hws, hwroom⟩ := (h.gains hts').runs_toList hy
    (hvector ▸ hus.adds hts'.cells) (by omega)
  obtain ⟨b, u', hb, hruns, hroom'⟩ := hrec h (.cons hv (.cons hw .nil))
    (hvs.adds hw.gains.cells) hws (by omega)
  refine ⟨b, u', hb.trans ?_, hruns, by omega⟩
  rw [Tree.listed_inj, Tree.vector.injEq]

omit hX hY in
/-- A test of one of the parameters. -/
theorem runs_test_x {m : TestNative} (hm : .tests m ∈ equality.natives)
    (hshape : (Native.tests m).shape = .fixed 1)
    (hrun : m.run [x] = pure (.ofBool (m.holds x))) (hx : x.isPromise = false) {b : Bool}
    (hb : m.holds x = b) :
    (call σ (Native.tests m).name [parameter σ 0 "x"]).Runs (some i) s (.ofBool b) s :=
  hb ▸ h.runs_test hm hshape hrun (runs_parameter hi rfl) hx

omit hX hY in
theorem runs_test_y {m : TestNative} (hm : .tests m ∈ equality.natives)
    (hshape : (Native.tests m).shape = .fixed 1)
    (hrun : m.run [y] = pure (.ofBool (m.holds y))) (hy : y.isPromise = false) {b : Bool}
    (hb : m.holds y = b) :
    (call σ (Native.tests m).name [parameter σ 1 "y"]).Runs (some i) s (.ofBool b) s :=
  hb ▸ h.runs_test hm hshape hrun (runs_parameter hi rfl) hy

/-- What is no pair is compared as a vector, as a text or by `eql`. -/
theorem runs_atoms (hatom : X.isPair = false) (hroom : X.weight + Y.weight ≤ s.store.room)
    (hrec : ∀ ts us, X = .vector ts → Decides σ (Tree.listed ts) (Tree.listed us)) :
    ∃ (b : Bool) (u : State), (b = true ↔ X = Y) ∧
      (atomsEqual σ).Runs (some i) s (.ofBool b) u ∧
      s.store.room ≤ u.store.room + X.weight + Y.weight := by
  have hx := hX.kind
  have hy := hY.kind
  have hvectorx : (call σ "vectorp" [parameter σ 0 "x"]).Runs (some i) s (.ofBool X.isVector) s :=
    runs_test_x h hi (m := .vectorp) (by decide) rfl rfl hx.promise hx.vector
  have hvectory : (call σ "vectorp" [parameter σ 1 "y"]).Runs (some i) s (.ofBool Y.isVector) s :=
    runs_test_y h hi (m := .vectorp) (by decide) rfl rfl hy.promise hy.vector
  have htextx : (call σ "stringp" [parameter σ 0 "x"]).Runs (some i) s (.ofBool X.isText) s :=
    runs_test_x h hi (m := .stringp) (by decide) rfl rfl hx.promise hx.text
  have htexty : (call σ "stringp" [parameter σ 1 "y"]).Runs (some i) s (.ofBool Y.isText) s :=
    runs_test_y h hi (m := .stringp) (by decide) rfl rfl hy.promise hy.text
  have hargs : RunsAll (some i) [parameter σ 0 "x", parameter σ 1 "y"] s [x, y] s :=
    .cons (runs_parameter hi rfl) (.cons (runs_parameter hi rfl) .nil)
  have hpromises : ∀ w ∈ [x, y], w.isPromise = false := by simp [hx.promise, hy.promise]
  cases hXv : X.isVector with
  | true =>
      obtain ⟨ts, rfl⟩ : ∃ ts, X = .vector ts := by
        cases X with
        | vector ts => exact ⟨ts, rfl⟩
        | _ => cases hXv
      cases hYv : Y.isVector with
      | true =>
          obtain ⟨us, rfl⟩ : ∃ us, Y = .vector us := by
            cases Y with
            | vector us => exact ⟨us, rfl⟩
            | _ => cases hYv
          obtain ⟨b, u, hb, hequal, hroom'⟩ :=
            runs_vectors h hi hX hY rfl rfl hroom (hrec ts us rfl)
          refine ⟨b, u, hb, ?_, hroom'⟩
          exact .cond (.hit hvectorx rfl rfl
            (.single (.cond (.hit hvectory rfl rfl (.single hequal)))))
      | false =>
          rw [hYv] at hvectory
          refine ⟨false, s, iff_of_false Bool.false_ne_true ?_, ?_, by omega⟩
          · rintro rfl
            cases hYv
          · exact .cond (.hit hvectorx rfl rfl (.single (.cond (.miss hvectory .nil))))
  | false =>
      rw [hXv] at hvectorx
      cases hXt : X.isText with
      | true =>
          rw [hXt] at htextx
          obtain ⟨t, rfl⟩ : ∃ t, X = .text t := by
            cases X with
            | text t => exact ⟨t, rfl⟩
            | _ => cases hXt
          cases hYt : Y.isText with
          | true =>
              rw [hYt] at htexty
              obtain ⟨t', rfl⟩ : ∃ t', Y = .text t' := by
                cases Y with
                | text t' => exact ⟨t', rfl⟩
                | _ => cases hYt
              obtain ⟨p, rfl, hp⟩ := hX
              obtain ⟨q, rfl, hq⟩ := hY
              have hequal :
                  (call σ "string=" [parameter σ 0 "x", parameter σ 1 "y"]).Runs (some i) s
                  (.ofBool (s.store.text p == s.store.text q)) s :=
                h.runs_native (m := .tests .stringEq) (by decide) rfl hargs hpromises
                  (fun n => rfl) (.refl s)
              refine ⟨s.store.text p == s.store.text q, s, ?_, ?_, by omega⟩
              · rw [beq_iff_eq, hp, hq, Tree.text.injEq]
              · exact .cond (.miss hvectorx (.hit htextx rfl rfl
                  (.single (.cond (.hit htexty rfl rfl (.single hequal))))))
          | false =>
              rw [hYt] at htexty
              refine ⟨false, s, iff_of_false Bool.false_ne_true ?_, ?_, by omega⟩
              · rintro rfl
                cases hYt
              · exact .cond (.miss hvectorx
                  (.hit htextx rfl rfl (.single (.cond (.miss htexty .nil)))))
      | false =>
          rw [hXt] at htextx
          have hequal : (call σ "eql" [parameter σ 0 "x", parameter σ 1 "y"]).Runs (some i) s
              (.ofBool (TestNative.eqlIn s.store x y)) s :=
            h.runs_native (m := .tests .eql) (by decide) rfl hargs hpromises (fun n => rfl)
              (.refl s)
          refine ⟨TestNative.eqlIn s.store x y, s, hX.eqlIn hY hatom hXv hXt, ?_, by omega⟩
          exact .cond (.miss hvectorx (.miss htextx
            (.hit (.global h.truth) rfl rfl (.single hequal))))

omit h hX hY in
/-- The halves of both parameters, if these are pairs. -/
theorem runs_halves (h : Loaded σ equality s) {m : ListNative} (hm : .lists m ∈ equality.natives)
    (hshape : (Native.lists m).shape = .fixed 1) {p q : Ref .cell} (hx : x = .pair p)
    (hy : y = .pair q) (hv : ∀ E, m.run E [x] (some i) s = .ok v s)
    (hw : ∀ E, m.run E [y] (some i) s = .ok w s) :
    RunsAll (some i) [call σ (Native.lists m).name [parameter σ 0 "x"],
      call σ (Native.lists m).name [parameter σ 1 "y"]] s [v, w] s := by
  subst hx hy
  exact .cons (h.runs_half hm hshape hv (runs_parameter hi rfl))
    (.cons (h.runs_half hm hshape hw (runs_parameter hi rfl)) .nil)

/-- Pairs are compared half by half, and a pair is equal to nothing else. -/
theorem runs_pairs {a d : Tree} (hXp : X = .pair a d)
    (hroom : X.weight + Y.weight ≤ s.store.room)
    (ha : ∀ a', Decides σ a a') (hd : ∀ d', Decides σ d d') :
    ∃ (b : Bool) (u : State), (b = true ↔ X = Y) ∧
      RunsLast (some i) (equality.body σ) s (.ofBool b) u ∧
      s.store.room ≤ u.store.room + X.weight + Y.weight := by
  have hx := hX.kind
  have hy := hY.kind
  have hatomx : (call σ "atom" [parameter σ 0 "x"]).Runs (some i) s (.ofBool (!X.isPair)) s :=
    runs_test_x h hi (m := .atom) (by decide) rfl rfl hx.promise hx.atom
  have hatomy : (call σ "atom" [parameter σ 1 "y"]).Runs (some i) s (.ofBool (!Y.isPair)) s :=
    runs_test_y h hi (m := .atom) (by decide) rfl rfl hy.promise hy.atom
  subst hXp
  cases Y with
  | pair a' d' =>
      obtain ⟨p, x₁, x₂, rfl, hp, hx₁, hx₂⟩ := hX
      obtain ⟨q, y₁, y₂, rfl, hq, hy₁, hy₂⟩ := hY
      rw [Tree.weight, Tree.weight] at hroom ⊢
      have hcars : RunsAll (some i) [call σ "car" [parameter σ 0 "x"],
          call σ "car" [parameter σ 1 "y"]] s [x₁, y₁] s :=
        runs_halves hi h (m := .car) (by decide) rfl rfl rfl
          (fun _ => congrArg (Outcome.ok · s) (Store.car_of_cell? hp))
          (fun _ => congrArg (Outcome.ok · s) (Store.car_of_cell? hq))
      obtain ⟨b, t, hb, hcar, htroom⟩ := ha a' h hcars hx₁ hy₁ (by omega)
      have ht := hcar.gains
      cases b with
      | false =>
          refine ⟨false, t, iff_of_false Bool.false_ne_true ?_, ?_, by omega⟩
          · rw [Tree.pair.injEq]
            exact fun heq => Bool.false_ne_true (hb.2 heq.1)
          · exact .single (.cond (.miss hatomx (.miss hatomy (.miss hcar .nil))))
      | true =>
          have hcdrs : RunsAll (some i) [call σ "cdr" [parameter σ 0 "x"],
              call σ "cdr" [parameter σ 1 "y"]] t [x₂, y₂] t :=
            runs_halves (ht.frames i _ hi) (h.gains ht) (m := .cdr) (by decide) rfl rfl rfl
              (fun _ => congrArg (Outcome.ok · t) (Store.cdr_of_cell? (ht.cells.keeps p _ hp)))
              (fun _ => congrArg (Outcome.ok · t) (Store.cdr_of_cell? (ht.cells.keeps q _ hq)))
          obtain ⟨b, u, hb', hcdr, huroom⟩ := hd d' (h.gains ht) hcdrs (hx₂.adds ht.cells)
            (hy₂.adds ht.cells) (by omega)
          refine ⟨b, u, ?_, ?_, by omega⟩
          · rw [hb', Tree.pair.injEq, and_iff_right (hb.1 rfl)]
          · exact .single (.cond (.miss hatomx (.miss hatomy (.hit hcar rfl rfl (.single hcdr)))))
  | _ =>
      refine ⟨false, s, iff_of_false Bool.false_ne_true (by simp), ?_, by omega⟩
      exact .single (.cond (.miss hatomx (.hit hatomy rfl rfl (.single (.literal rfl)))))

end Body

/-- A call of `equal` on values that unfold to trees gives whether the trees are the same. -/
theorem decides (σ : String → Symbol) : ∀ (n : Nat) (X Y : Tree), X.size ≤ n → Decides σ X Y := by
  intro n
  induction n with
  | zero =>
      intro X Y hsize
      have hpos := X.size_pos
      omega
  | succ n ih =>
      intro X Y hsize env c d s t x y h hargs hX hY hroom
      obtain ⟨body, hdefines, hbody⟩ :=
        h.callee (f := equality) (by simp [Definition.callees, definitions, equality])
      -- The body runs in a new frame with both values.
      set t' : State := { t with frames := t.frames.push #[x, y] none } with ht'
      have hpush : t.Gains t' := .push t #[x, y] none
      have hloaded := (h.gains hargs.gains).gains hpush
      have hi : t'.frames.table[t.frames.size]? = some ⟨#[x, y], none⟩ := by
        simp [ht', Frames.push, Frames.size]
      have hrun : ∃ (b : Bool) (u : State), (b = true ↔ X = Y) ∧
          RunsLast (some t.frames.size) (equality.body σ) t' (.ofBool b) u ∧
          t'.store.room ≤ u.store.room + X.weight + Y.weight := by
        cases hpair : X.isPair with
        | true =>
            obtain ⟨a, d, rfl⟩ : ∃ a d, X = .pair a d := by
              cases X with
              | pair a d => exact ⟨a, d, rfl⟩
              | _ => cases hpair
            rw [Tree.size] at hsize
            exact runs_pairs hloaded hi hX hY rfl hroom (fun a' => ih a a' (by omega))
              fun d' => ih d d' (by omega)
        | false =>
            have hatom : (call σ "atom" [parameter σ 0 "x"]).Runs (some t.frames.size) t'
                (.ofBool (!X.isPair)) t' :=
              runs_test_x hloaded hi (m := .atom) (by decide) rfl rfl hX.kind.promise hX.kind.atom
            rw [hpair] at hatom
            obtain ⟨b, u, hb, hatoms, hroom'⟩ :=
              runs_atoms hloaded hi hX hY hpair hroom fun ts us hXv => by
                subst hXv
                rw [Tree.size, ← Tree.size_listed] at hsize
                exact ih _ _ (by omega)
            exact ⟨b, u, hb, .single (.cond (.hit hatom rfl rfl (.single hatoms))), hroom'⟩
      obtain ⟨b, u, hb, hlast, hroom'⟩ := hrun
      exact ⟨b, u, hb, .closure hdefines hbody hargs hlast, hroom'⟩

/-- The form is a call of `equal` on two quoted values that unfold to these trees, and there is room
for the items of the vectors in them. -/
structure Comparison (σ : String → Symbol) (s : State) (form x y : Value) (X Y : Tree) : Prop where
  loaded : Loaded σ equality s
  form : (call σ "equal" [quotation x, quotation y]).Stands s.store form
  left : X.Is s.store x
  right : Y.Is s.store y
  room : X.weight + Y.weight ≤ s.store.room

theorem Comparison.result {form : Value} (h : Comparison σ s form x y X Y) (env : Env) :
    ∃ (b : Bool) (n : Nat) (t : State), (b = true ↔ X = Y) ∧
      evaluate n form env s = .ok (.ofBool b) t ∧ s.Gains t := by
  obtain ⟨b, t, hb, hruns, -⟩ := decides σ X.size X Y (Nat.le_refl _) h.loaded
    (.cons .quote (.cons .quote .nil)) h.left h.right h.room
  obtain ⟨n, hn⟩ := (hruns.result h.form).exists
  exact ⟨b, n, t, hb, hn, hruns.gains⟩

/-- What a comparison says of the trees. -/
theorem Comparison.iff {form : Value} (h : Comparison σ s form x y X Y) (env : Env) :
    (∃ n t, evaluate n form env s = .ok (.sym Symbol.t) t) ↔ X = Y := by
  obtain ⟨b, n, t, hb, hn, -⟩ := h.result env
  rw [← hb]
  constructor
  · rintro ⟨m, u, hm⟩
    have hsame := (evaluate_unique hn hm).1
    cases b with
    | true => rfl
    | false => cases hsame
  · rintro rfl
    exact ⟨n, t, hn⟩

/-- Structural equality. With the definitions loaded, and with room for the items of the vectors,
`equal` of two values without cycles, doubles and promises ends: with `t` if they unfold to the same
tree, and otherwise with nil. Nothing is changed by it. So it is reflexive, symmetric and
transitive, and a vector is equal to no list. -/
theorem equal_same_tree (σ : String → Symbol) (env : Env) (s : State) :
    (∀ form x y X Y, Comparison σ s form x y X Y → ∃ n t, s.Gains t ∧
      (X = Y → evaluate n form env s = .ok (.sym Symbol.t) t) ∧
      (X ≠ Y → evaluate n form env s = .ok .nil t)) ∧
    (∀ form x X X', Comparison σ s form x x X X' →
      ∃ n t, evaluate n form env s = .ok (.sym Symbol.t) t) ∧
    (∀ form form' x y X Y, Comparison σ s form x y X Y → Comparison σ s form' y x Y X →
      (∃ n t, evaluate n form env s = .ok (.sym Symbol.t) t) →
      ∃ n t, evaluate n form' env s = .ok (.sym Symbol.t) t) ∧
    (∀ form form' form'' x y z X Y Z, Comparison σ s form x y X Y →
      Comparison σ s form' y z Y Z → Comparison σ s form'' x z X Z →
      (∃ n t, evaluate n form env s = .ok (.sym Symbol.t) t) →
      (∃ n t, evaluate n form' env s = .ok (.sym Symbol.t) t) →
      ∃ n t, evaluate n form'' env s = .ok (.sym Symbol.t) t) ∧
    ∀ form x y ts Y, Y.isVector = false →
      Comparison σ s form x y (.vector ts) Y ∨ Comparison σ s form x y Y (.vector ts) →
      ∃ n t, evaluate n form env s = .ok .nil t := by
  have hresult : ∀ form x y X Y, Comparison σ s form x y X Y → ∃ n t, s.Gains t ∧
      (X = Y → evaluate n form env s = .ok (.sym Symbol.t) t) ∧
      (X ≠ Y → evaluate n form env s = .ok .nil t) := by
    intro form x y X Y h
    obtain ⟨b, n, t, hb, hn, hgains⟩ := h.result env
    refine ⟨n, t, hgains, fun heq => ?_, fun hne => ?_⟩
    · rw [hn, hb.2 heq]
      rfl
    · rw [hn, Bool.eq_false_iff.2 (mt hb.1 hne)]
      rfl
  refine ⟨hresult, ?reflexive, ?symmetric, ?transitive, ?vectors⟩
  case reflexive =>
    intro form x X X' h
    exact (h.iff env).2 (h.left.unique h.right)
  case symmetric =>
    intro form form' x y X Y h h' heq
    exact (h'.iff env).2 ((h.iff env).1 heq).symm
  case transitive =>
    intro form form' form'' x y z X Y Z h h' h'' heq heq'
    exact (h''.iff env).2 (((h.iff env).1 heq).trans ((h'.iff env).1 heq'))
  case vectors =>
    intro form x y ts Y hY h
    rcases h with h | h
    · obtain ⟨n, t, -, -, hnil⟩ := hresult _ _ _ _ _ h
      refine ⟨n, t, hnil ?_⟩
      rintro rfl
      cases hY
    · obtain ⟨n, t, -, -, hnil⟩ := hresult _ _ _ _ _ h
      refine ⟨n, t, hnil ?_⟩
      rintro rfl
      cases hY

/-- Comparisons of two vectors of the same items, in both orders, and of a vector with nil. -/
def comparisons : List Code :=
  [(.vector ⟨0⟩, .vector ⟨1⟩), (.vector ⟨1⟩, .vector ⟨0⟩), (.vector ⟨0⟩, .vector ⟨0⟩),
    (.vector ⟨0⟩, .nil)].map fun e =>
      call Machine.symbol "equal" [quotation e.1, quotation e.2]

/-- Two vectors of the same items are equal, in both orders, and the first is equal to itself and
not to nil. -/
theorem equal_same_tree_vectors :
    let s := Machine.holding 8 comparisons
    let σ := Machine.symbol
    let X := Tree.vector [.integer 1, .text "a"]
    let x := Value.vector ⟨0⟩
    let y := Value.vector ⟨1⟩
    ∃ f g h k, Comparison σ s f x y X X ∧ Comparison σ s g y x X X ∧ Comparison σ s h x x X X ∧
      Comparison σ s k x .nil X (.atom .nil) ∧
      (∃ n t, evaluate n f none s = .ok (.sym Symbol.t) t) ∧
      (∃ n t, evaluate n g none s = .ok (.sym Symbol.t) t) ∧
      (∃ n t, evaluate n h none s = .ok (.sym Symbol.t) t) ∧
      ∃ n t, evaluate n k none s = .ok .nil t := by
  intro s σ X x y
  have hloaded : Loaded σ equality s := loaded_of_check (by decide +kernel) equality
  have hroom : s.store.room = 8 := by decide +kernel
  obtain ⟨v, hv⟩ : ∃ v, StandsAll s.store comparisons v :=
    ⟨.pair ⟨s.store.cells.size - 1⟩, standsAll_of_areAt (by decide +kernel)⟩
  obtain ⟨_, f, _, -, -, hf, _, g, _, -, -, hg, _, h, _, -, -, hh, _, k, _, -, -, hk, -⟩ := hv
  have hitems : ∀ r, s.store.text r = "a" →
      Tree.AreAll s.store [.integer 1, .text "a"] [.int 1, .text r] := fun r hr =>
    ⟨_, _, rfl, rfl, _, _, rfl, ⟨r, rfl, hr⟩, rfl⟩
  have hx : X.Is s.store x := ⟨⟨0⟩, rfl, hitems ⟨0⟩ rfl⟩
  have hy : X.Is s.store y := ⟨⟨1⟩, rfl, hitems ⟨1⟩ rfl⟩
  have hnil : (Tree.atom .nil).Is s.store .nil := ⟨rfl, rfl⟩
  have hweight : X.weight + X.weight ≤ s.store.room := by rw [hroom]; decide
  have hcf : Comparison σ s f x y X X := ⟨hloaded, hf, hx, hy, hweight⟩
  have hcg : Comparison σ s g y x X X := ⟨hloaded, hg, hy, hx, hweight⟩
  have hch : Comparison σ s h x x X X := ⟨hloaded, hh, hx, hx, hweight⟩
  have hck : Comparison σ s k x .nil X (.atom .nil) :=
    ⟨hloaded, hk, hx, hnil, by rw [hroom]; decide⟩
  obtain ⟨hresult, hreflexive, hsymmetric, htransitive, hvectors⟩ := equal_same_tree σ none s
  obtain ⟨n, t, -, heq, -⟩ := hresult _ _ _ _ _ hcf
  have hfg := hsymmetric _ _ _ _ _ _ hcf hcg ⟨n, t, heq rfl⟩
  exact ⟨f, g, h, k, hcf, hcg, hch, hck, ⟨n, t, heq rfl⟩, hfg,
    htransitive _ _ _ _ _ _ _ _ _ hcf hcg hch ⟨n, t, heq rfl⟩ hfg,
    hvectors _ _ _ _ _ rfl (.inl hck)⟩

end Prelude

end SmallLisp
