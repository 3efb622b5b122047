import Mathlib.Data.Finset.Card
import SmallLisp.Printer

/-!
# The course of printing

The printer follows a bound on the levels that are left and another on the cells of a list. Here its
work is told without either: a value shows as a word, as a node that is entered, as what a promise
delivered or as a function, and a course goes from part to part by the rules for each. A course that
follows the rules comes to an end for every value of every store, and there is only one.

An allowance says how often nodes may be entered that were seen before. What a course records are
the chains of nested entries: whenever a node is entered, the entries that are still open there,
this one last.
-/

namespace SmallLisp

namespace Printer

/-- What is entered while printing. -/
inductive Node where
  | cell (r : Ref .cell)
  | vector (r : Ref .vector)
deriving DecidableEq

/-- How a value shows: as a word that has nothing nested in it, or by what is nested in it. -/
inductive Shown where
  | word (text : String)
  | node (n : Node)
  | delivered (v : Value)
  | function (label : String) (shape : Shape) (body : Value)

/-- The text of a value that has nothing nested in it. -/
def plain (ctx : PrintContext) (v : Value) : String :=
  (value ctx (fun _ memo => ("", memo)) v { repeats := 0 }).1

/-- How a value shows. -/
def shown (ctx : PrintContext) : Value → Shown
  | .pair r => .node (.cell r)
  | .vector r => .node (.vector r)
  | .promise r =>
      match ctx.store.promise r with
      | .delivered v => .delivered v
      | .pending .. => .word (plain ctx (.promise r))
  | .callable r =>
      match ctx.store.callable r with
      | .native _ => .word (plain ctx (.callable r))
      | .template shape b => .function "#<lambda>" shape b
      | .closure shape b _ => .function "#<closure>" shape b
      | .expander shape b => .function "#<macro>" shape b
  | v => .word (plain ctx v)

/-- A value is printed as it shows. -/
theorem value_eq (ctx : PrintContext) (item : Item) (v : Value) (memo : PrintMemo) :
    value ctx item v memo =
      match shown ctx v with
      | .word text => (text, memo)
      | .node (.cell r) => pair ctx item r memo
      | .node (.vector r) => vector ctx item r memo
      | .delivered w => item w memo
      | .function label shape b => body ctx item label shape b memo := by
  cases v with
  | promise r => cases h : ctx.store.promise r <;> simp [shown, plain, value, h]
  | callable r => cases h : ctx.store.callable r <;> simp [shown, plain, value, callable, h]
  | _ => rfl

end Printer

namespace PrintMemo

open Printer

/-- Whether a node was seen. -/
def seen (memo : PrintMemo) : Node → Bool
  | .cell r => memo.pairs.contains r.index
  | .vector r => memo.vectors.contains r.index

/-- The memo with one more node that was seen. -/
def mark (memo : PrintMemo) : Node → PrintMemo
  | .cell r => { memo with pairs := memo.pairs.insert r.index }
  | .vector r => { memo with vectors := memo.vectors.insert r.index }

@[simp] theorem repeats_mark (memo : PrintMemo) (n : Node) :
    (memo.mark n).repeats = memo.repeats := by
  cases n <;> rfl

theorem seen_mark (memo : PrintMemo) (m n : Node) :
    (memo.mark m).seen n = (m == n || memo.seen n) := by
  rcases m with ⟨⟨i⟩⟩ | ⟨⟨i⟩⟩ <;> rcases n with ⟨⟨j⟩⟩ | ⟨⟨j⟩⟩ <;>
    simp only [seen, mark, Std.TreeSet.contains_insert] <;> rw [Bool.eq_iff_iff] <;> simp

@[simp] theorem seen_mark_self (memo : PrintMemo) (n : Node) : (memo.mark n).seen n = true := by
  simp [seen_mark]

end PrintMemo

namespace Printer

@[simp] theorem seen_leave (again : Bool) (memo : PrintMemo) (n : Node) :
    (leave again memo).seen n = memo.seen n := by
  cases again <;> cases n <;> rfl

theorem seen_of_enter? {again : Bool} {memo memo' : PrintMemo}
    (h : enter? again memo = some memo') (n : Node) : memo'.seen n = memo.seen n := by
  unfold enter? at h
  split at h
  · cases h
    rfl
  · split at h
    · cases h
    · cases h
      cases n <;> rfl

/-- Leaving a node gives back what entering it took. -/
theorem repeats_leave {again : Bool} {memo memo₁ memo₂ : PrintMemo}
    (h : enter? again memo = some memo₁) (hr : memo₂.repeats = memo₁.repeats) :
    (leave again memo₂).repeats = memo.repeats := by
  unfold enter? at h
  cases again with
  | false =>
      cases h
      exact hr
  | true =>
      split at h
      · contradiction
      · split at h
        · cases h
        · rename_i repeats hrepeats
          cases h
          simp [leave, hr, hrepeats]

/-- A node that was seen costs one repeat. -/
theorem repeats_enter? {again : Bool} {memo memo' : PrintMemo}
    (h : enter? again memo = some memo') : memo'.repeats + again.toNat = memo.repeats := by
  unfold enter? at h
  cases again with
  | false =>
      cases h
      rfl
  | true =>
      split at h
      · contradiction
      · split at h
        · cases h
        · rename_i repeats hrepeats
          cases h
          simp [hrepeats]

/-- What is printed at one time: a value, the way it shows, the contents of a node that was entered,
what follows in a list, or the items of a vector. -/
inductive Part where
  | value (v : Value)
  | shown (x : Shown)
  | inside (n : Node)
  | rest (v : Value)
  | items (vs : List Value)

/-- A node that was entered, and whether it had been seen before. -/
structure Entry where
  node : Node
  again : Bool

theorem countP_again_cons (n : Node) (again : Bool) (chain : List Entry) :
    (⟨n, again⟩ :: chain).countP Entry.again = chain.countP Entry.again + again.toNat := by
  rw [List.countP_cons]
  cases again <;> rfl

/-- Whether a list goes on, or ends, with the value, so that no dot comes before it. -/
def GoesOn (memo : PrintMemo) : Value → Prop
  | .nil => True
  | .pair r => memo.seen (.cell r) = false
  | _ => False

/-- Printing a part at a depth takes one memo to another and writes a text; the last argument has
the chains of entries. -/
inductive Course (ctx : PrintContext) :
    Nat → Part → PrintMemo → String → PrintMemo → List (List Entry) → Prop where
  | tooDeep {depth v memo} : maxDepth < depth → Course ctx depth (.value v) memo "..." memo []
  | value {depth v memo text memo' chains} : depth ≤ maxDepth →
      Course ctx depth (.shown (shown ctx v)) memo text memo' chains →
      Course ctx depth (.value v) memo text memo' chains
  | word {depth text memo} : Course ctx depth (.shown (.word text)) memo text memo []
  | refused {depth n memo} : enter? (memo.seen n) memo = none →
      Course ctx depth (.shown (.node n)) memo "..." memo []
  | entered {depth n memo memo₁ text memo₂ chains} : enter? (memo.seen n) memo = some memo₁ →
      Course ctx depth (.inside n) (memo₁.mark n) text memo₂ chains →
      Course ctx depth (.shown (.node n)) memo text (leave (memo.seen n) memo₂)
        ([⟨n, memo.seen n⟩] :: chains.map (⟨n, memo.seen n⟩ :: ·))
  | delivered {depth v memo text memo' chains} :
      Course ctx (depth + 1) (.value v) memo text memo' chains →
      Course ctx depth (.shown (.delivered v)) memo text memo' chains
  | function {depth label shape b memo text memo' chains} :
      Course ctx depth (.rest b) memo text memo' chains →
      Course ctx depth (.shown (.function label shape b)) memo
        ("(" ++ label ++ " " ++ shape.format ++ text ++ ")") memo' chains
  | quoted {depth r v memo text memo' chains} : quotedValue? ctx.store r = some v →
      Course ctx (depth + 1) (.value v) memo text memo' chains →
      Course ctx depth (.inside (.cell r)) memo ("'" ++ text) memo' chains
  | list {depth r memo first memo₁ chains₁ others memo₂ chains₂} :
      quotedValue? ctx.store r = none →
      Course ctx (depth + 1) (.value (ctx.store.car r)) memo first memo₁ chains₁ →
      Course ctx depth (.rest (ctx.store.cdr r)) memo₁ others memo₂ chains₂ →
      Course ctx depth (.inside (.cell r)) memo ("(" ++ first ++ others ++ ")") memo₂
        (chains₁ ++ chains₂)
  | vector {depth r memo text memo' chains} :
      Course ctx depth (.items (ctx.store.vector r).toList) memo text memo' chains →
      Course ctx depth (.inside (.vector r)) memo ("[" ++ text ++ "]") memo' chains
  | stop {depth memo} : Course ctx depth (.rest .nil) memo "" memo []
  | next {depth r memo text memo₁ chains₁ others memo₂ chains₂} :
      memo.seen (.cell r) = false →
      Course ctx (depth + 1) (.value (ctx.store.car r)) (memo.mark (.cell r)) text memo₁ chains₁ →
      Course ctx depth (.rest (ctx.store.cdr r)) memo₁ others memo₂ chains₂ →
      Course ctx depth (.rest (.pair r)) memo (" " ++ text ++ others) memo₂ (chains₁ ++ chains₂)
  | dotted {depth v memo text memo' chains} : ¬ GoesOn memo v →
      Course ctx (depth + 1) (.value v) memo text memo' chains →
      Course ctx depth (.rest v) memo (" . " ++ text) memo' chains
  | none {depth memo} : Course ctx depth (.items []) memo "" memo []
  | last {depth v memo text memo' chains} :
      Course ctx (depth + 1) (.value v) memo text memo' chains →
      Course ctx depth (.items [v]) memo text memo' chains
  | item {depth v w vs memo text memo₁ chains₁ others memo₂ chains₂} :
      Course ctx (depth + 1) (.value v) memo text memo₁ chains₁ →
      Course ctx depth (.items (w :: vs)) memo₁ others memo₂ chains₂ →
      Course ctx depth (.items (v :: w :: vs)) memo (text ++ " " ++ others) memo₂
        (chains₁ ++ chains₂)

namespace Course

variable {ctx : PrintContext} {depth : Nat} {part : Part} {memo memo' : PrintMemo} {text : String}
  {chains : List (List Entry)}

/-- What was seen stays seen. -/
theorem seen (h : Course ctx depth part memo text memo' chains) {n : Node}
    (hn : memo.seen n = true) : memo'.seen n = true := by
  induction h with
  | tooDeep | word | refused | stop | none => exact hn
  | entered he _ ih =>
      rw [seen_leave]
      refine ih ?_
      rw [PrintMemo.seen_mark, seen_of_enter? he, hn, Bool.or_true]
  | next _ _ _ ih₁ ih₂ =>
      refine ih₂ (ih₁ ?_)
      rw [PrintMemo.seen_mark, hn, Bool.or_true]
  | list _ _ _ ih₁ ih₂ | item _ _ ih₁ ih₂ => exact ih₂ (ih₁ hn)
  | value _ _ ih | delivered _ ih | function _ ih | quoted _ _ ih | vector _ ih | dotted _ _ ih
  | last _ ih => exact ih hn

/-- Whatever is printed, the allowance is in the end what it was before. -/
theorem repeats_eq (h : Course ctx depth part memo text memo' chains) :
    memo'.repeats = memo.repeats := by
  induction h with
  | tooDeep | word | refused | stop | none => rfl
  | entered he _ ih => exact repeats_leave he (by rw [ih, PrintMemo.repeats_mark])
  | next _ _ _ ih₁ ih₂ => rw [ih₂, ih₁, PrintMemo.repeats_mark]
  | list _ _ _ ih₁ ih₂ | item _ _ ih₁ ih₂ => exact ih₂.trans ih₁
  | value _ _ ih | delivered _ ih | function _ ih | quoted _ _ ih | vector _ ih | dotted _ _ ih
  | last _ ih => exact ih

/-- No chain of entries has more that were made again than the allowance says. -/
theorem count_again_le (h : Course ctx depth part memo text memo' chains) :
    ∀ chain ∈ chains, chain.countP Entry.again ≤ memo.repeats := by
  induction h with
  | tooDeep | word | refused | stop | none => simp
  | @entered _ n memo _ _ _ _ he _ ih =>
      rw [PrintMemo.repeats_mark] at ih
      have hcost := repeats_enter? he
      intro chain hchain
      -- the entry itself costs a repeat if it is made again, and what is inside has the others
      rcases List.mem_cons.1 hchain with rfl | hchain
      · rw [countP_again_cons, List.countP_nil]
        omega
      · obtain ⟨inner, hinner, rfl⟩ := List.mem_map.1 hchain
        have := ih inner hinner
        rw [countP_again_cons]
        omega
  | next _ h₁ _ ih₁ ih₂ =>
      rw [h₁.repeats_eq, PrintMemo.repeats_mark] at ih₂
      rw [PrintMemo.repeats_mark] at ih₁
      exact fun chain hchain => (List.mem_append.1 hchain).elim (ih₁ chain) (ih₂ chain)
  | list _ h₁ _ ih₁ ih₂ | item h₁ _ ih₁ ih₂ =>
      rw [h₁.repeats_eq] at ih₂
      exact fun chain hchain => (List.mem_append.1 hchain).elim (ih₁ chain) (ih₂ chain)
  | value _ _ ih | delivered _ ih | function _ ih | quoted _ _ ih | vector _ ih | dotted _ _ ih
  | last _ ih => exact ih

/-- There is one course only. -/
theorem unique {text' : String} {memo'' : PrintMemo} {chains' : List (List Entry)}
    (h : Course ctx depth part memo text memo' chains)
    (h' : Course ctx depth part memo text' memo'' chains') :
    text = text' ∧ memo' = memo'' ∧ chains = chains' := by
  induction h generalizing text' memo'' chains' with
  | tooDeep hd =>
      cases h' with
      | tooDeep => exact ⟨rfl, rfl, rfl⟩
      | value hd' => omega
  | value hd _ ih =>
      cases h' with
      | tooDeep hd' => omega
      | value _ h' => exact ih h'
  | word =>
      cases h'
      exact ⟨rfl, rfl, rfl⟩
  | refused he =>
      cases h' with
      | refused => exact ⟨rfl, rfl, rfl⟩
      | entered he' => cases he.symm.trans he'
  | entered he _ ih =>
      cases h' with
      | refused he' => cases he.symm.trans he'
      | entered he' h' =>
          cases he.symm.trans he'
          obtain ⟨rfl, rfl, rfl⟩ := ih h'
          exact ⟨rfl, rfl, rfl⟩
  | delivered _ ih =>
      cases h' with
      | delivered h' => exact ih h'
  | function _ ih =>
      cases h' with
      | function h' =>
          obtain ⟨rfl, rfl, rfl⟩ := ih h'
          exact ⟨rfl, rfl, rfl⟩
  | quoted hq _ ih =>
      cases h' with
      | quoted hq' h' =>
          cases hq.symm.trans hq'
          obtain ⟨rfl, rfl, rfl⟩ := ih h'
          exact ⟨rfl, rfl, rfl⟩
      | list hq' => cases hq.symm.trans hq'
  | list hq _ _ ih₁ ih₂ =>
      cases h' with
      | quoted hq' => cases hq.symm.trans hq'
      | list _ h₁ h₂ =>
          obtain ⟨rfl, rfl, rfl⟩ := ih₁ h₁
          obtain ⟨rfl, rfl, rfl⟩ := ih₂ h₂
          exact ⟨rfl, rfl, rfl⟩
  | vector _ ih =>
      cases h' with
      | vector h' =>
          obtain ⟨rfl, rfl, rfl⟩ := ih h'
          exact ⟨rfl, rfl, rfl⟩
  | stop =>
      cases h' with
      | stop => exact ⟨rfl, rfl, rfl⟩
      | dotted hg => exact absurd trivial hg
  | next hn _ _ ih₁ ih₂ =>
      cases h' with
      | next _ h₁ h₂ =>
          obtain ⟨rfl, rfl, rfl⟩ := ih₁ h₁
          obtain ⟨rfl, rfl, rfl⟩ := ih₂ h₂
          exact ⟨rfl, rfl, rfl⟩
      | dotted hg => exact absurd hn hg
  | dotted hg _ ih =>
      cases h' with
      | stop => exact absurd trivial hg
      | next hn => exact absurd hn hg
      | dotted _ h' =>
          obtain ⟨rfl, rfl, rfl⟩ := ih h'
          exact ⟨rfl, rfl, rfl⟩
  | none =>
      cases h'
      exact ⟨rfl, rfl, rfl⟩
  | last _ ih =>
      cases h' with
      | last h' => exact ih h'
  | item _ _ ih₁ ih₂ =>
      cases h' with
      | item h₁ h₂ =>
          obtain ⟨rfl, rfl, rfl⟩ := ih₁ h₁
          obtain ⟨rfl, rfl, rfl⟩ := ih₂ h₂
          exact ⟨rfl, rfl, rfl⟩

end Course

/-! ## The printer follows its course -/

/-- What prints a nested value follows the course from a depth on. -/
def Follows (ctx : PrintContext) (depth : Nat) (item : Item) : Prop :=
  ∀ v memo, ∃ chains, Course ctx depth (.value v) memo (item v memo).1 (item v memo).2 chains

/-- The cells of the store that were not seen yet. -/
def unseen (ctx : PrintContext) (memo : PrintMemo) : Finset Nat :=
  (Finset.range ctx.store.cells.size).filter fun i => memo.seen (.cell ⟨i⟩) = false

theorem card_unseen_lt_cellFuel (ctx : PrintContext) (memo : PrintMemo) :
    (unseen ctx memo).card < cellFuel ctx := by
  have h := Finset.card_filter_le (Finset.range ctx.store.cells.size)
    fun i => memo.seen (.cell ⟨i⟩) = false
  rw [Finset.card_range] at h
  exact Nat.lt_succ_of_le h

/-- Fewer cells are unseen once a new one was seen. -/
theorem card_unseen_lt {ctx : PrintContext} {memo memo' : PrintMemo} {r : Ref .cell}
    (hr : r.index < ctx.store.cells.size) (hnew : memo.seen (.cell r) = false)
    (hold : memo'.seen (.cell r) = true)
    (hgrows : ∀ n, memo.seen n = true → memo'.seen n = true) :
    (unseen ctx memo').card < (unseen ctx memo).card := by
  refine Finset.card_lt_card ((Finset.ssubset_iff_of_subset ?_).2 ⟨r.index, ?_, ?_⟩)
  · intro i hi
    simp only [unseen, Finset.mem_filter] at hi ⊢
    refine ⟨hi.1, ?_⟩
    by_contra hseen
    have := hgrows (.cell ⟨i⟩) (by simpa using hseen)
    simp_all
  · simpa [unseen, hr] using hnew
  · simp [unseen, hold]

/-- A cell outside the store ends a list. -/
theorem cdr_of_size_le {ctx : PrintContext} {r : Ref .cell} (hr : ctx.store.cells.size ≤ r.index) :
    ctx.store.cdr r = .nil := by
  simp [Store.cdr, Array.getD, Nat.not_lt.2 hr]
  rfl

theorem tail_nil (ctx : PrintContext) (item : Item) (fuel : Nat) (text : String)
    (memo : PrintMemo) : tail ctx item fuel .nil text memo = (text, memo) := by
  cases fuel <;> rfl

theorem tail_dotted {ctx : PrintContext} {item : Item} {v : Value} {memo : PrintMemo}
    (h : ¬ GoesOn memo v) (fuel : Nat) (text : String) :
    tail ctx item (fuel + 1) v text memo = (text ++ " . " ++ (item v memo).1, (item v memo).2) := by
  cases v with
  | nil => exact absurd trivial h
  | pair r =>
      have hseen : memo.pairs.contains r.index = true := by simpa [GoesOn, PrintMemo.seen] using h
      rw [tail, if_pos hseen]
  | _ => rfl

variable {ctx : PrintContext} {depth : Nat} {item : Item}

theorem Follows.items (h : Follows ctx (depth + 1) item) : ∀ (vs : List Value) (text : String)
    (memo : PrintMemo), ∃ chains more, (Printer.items item vs text memo).1 = text ++ more ∧
      Course ctx depth (.items vs) memo more (Printer.items item vs text memo).2 chains
  | [], text, memo => ⟨[], "", by simp [Printer.items], .none⟩
  | [v], text, memo => by
      obtain ⟨chains, hv⟩ := h v memo
      exact ⟨chains, _, rfl, .last hv⟩
  | v :: w :: vs, text, memo => by
      obtain ⟨chains₁, hv⟩ := h v memo
      obtain ⟨chains₂, more, htext, hvs⟩ :=
        Follows.items h (w :: vs) (text ++ (item v memo).1 ++ " ") (item v memo).2
      refine ⟨_, _, ?_, .item hv hvs⟩
      rw [Printer.items]
      simpa [String.append_assoc] using htext
      simp

/-- The fuel for a list is never used up: each cell on the way is one that was not seen before. -/
theorem Follows.tail (h : Follows ctx (depth + 1) item) : ∀ (fuel : Nat) (v : Value) (text : String)
    (memo : PrintMemo), (unseen ctx memo).card < fuel →
    ∃ chains more, (Printer.tail ctx item fuel v text memo).1 = text ++ more ∧
      Course ctx depth (.rest v) memo more (Printer.tail ctx item fuel v text memo).2 chains := by
  intro fuel
  induction fuel with
  | zero => exact fun _ _ _ hfuel => absurd hfuel (Nat.not_lt_zero _)
  | succ fuel ih =>
      intro v text memo hfuel
      by_cases hg : GoesOn memo v
      · cases v with
        | nil => exact ⟨[], "", by simp [tail_nil], by simpa [tail_nil] using .stop⟩
        | pair r =>
            obtain ⟨chains₁, hcar⟩ := h (ctx.store.car r) (memo.mark (.cell r))
            have hstep : Printer.tail ctx item (fuel + 1) (.pair r) text memo =
                Printer.tail ctx item fuel (ctx.store.cdr r)
                  (text ++ " " ++ (item (ctx.store.car r) (memo.mark (.cell r))).1)
                  (item (ctx.store.car r) (memo.mark (.cell r))).2 := by
              have hnew : memo.pairs.contains r.index = false := hg
              rw [Printer.tail, hnew, if_neg Bool.false_ne_true]
              rfl
            by_cases hr : r.index < ctx.store.cells.size
            · have hless := card_unseen_lt hr hg (hcar.seen (memo.seen_mark_self _))
                fun n hn => hcar.seen (by rw [PrintMemo.seen_mark, hn, Bool.or_true])
              obtain ⟨chains₂, more, htext, hrest⟩ := ih (ctx.store.cdr r)
                (text ++ " " ++ (item (ctx.store.car r) (memo.mark (.cell r))).1)
                (item (ctx.store.car r) (memo.mark (.cell r))).2 (by omega)
              rw [hstep]
              exact ⟨_, _, by simpa [String.append_assoc] using htext, .next hg hcar hrest⟩
            · have hnil := cdr_of_size_le (Nat.not_lt.1 hr)
              rw [hstep, hnil, tail_nil]
              refine ⟨_, _, ?_, .next hg hcar (by rw [hnil]; exact .stop)⟩
              simp [String.append_assoc]
        | _ => exact hg.elim
      · obtain ⟨chains, hv⟩ := h v memo
        rw [tail_dotted hg]
        exact ⟨chains, _, by simp [String.append_assoc], .dotted hg hv⟩

theorem Follows.pair (h : Follows ctx (depth + 1) item) (r : Ref .cell) (memo : PrintMemo) :
    ∃ chains, Course ctx depth (.shown (.node (.cell r))) memo (Printer.pair ctx item r memo).1
      (Printer.pair ctx item r memo).2 chains := by
  cases he : enter? (memo.pairs.contains r.index) memo with
  | none =>
      simp only [Printer.pair, he]
      exact ⟨[], .refused (n := .cell r) he⟩
  | some memo₁ =>
      cases hq : quotedValue? ctx.store r with
      | some v =>
          obtain ⟨chains, hv⟩ := h v (memo₁.mark (.cell r))
          simp only [Printer.pair, he, hq]
          exact ⟨_, .entered (n := .cell r) he (.quoted hq hv)⟩
      | none =>
          obtain ⟨chains₁, hcar⟩ := h (ctx.store.car r) (memo₁.mark (.cell r))
          generalize hfirst : item (ctx.store.car r) (memo₁.mark (.cell r)) = first at hcar
          obtain ⟨chains₂, others, htext, hrest⟩ := h.tail (cellFuel ctx) (ctx.store.cdr r)
            ("(" ++ first.1) first.2 (card_unseen_lt_cellFuel ctx _)
          have hcourse := Course.entered (n := .cell r) he (.list hq hcar hrest)
          simp only [PrintMemo.mark] at hfirst
          simp only [Printer.pair, he, hq, hfirst, htext]
          exact ⟨_, hcourse⟩

theorem Follows.vector (h : Follows ctx (depth + 1) item) (r : Ref .vector) (memo : PrintMemo) :
    ∃ chains, Course ctx depth (.shown (.node (.vector r))) memo
      (Printer.vector ctx item r memo).1 (Printer.vector ctx item r memo).2 chains := by
  cases he : enter? (memo.vectors.contains r.index) memo with
  | none =>
      simp only [Printer.vector, he]
      exact ⟨[], .refused (n := .vector r) he⟩
  | some memo₁ =>
      obtain ⟨chains, more, htext, hitems⟩ :=
        h.items (ctx.store.vector r).toList "[" (memo₁.mark (.vector r))
      simp only [PrintMemo.mark] at htext hitems
      simp only [Printer.vector, he, htext]
      exact ⟨_, .entered (n := .vector r) he (.vector hitems)⟩

theorem Follows.shown (h : Follows ctx (depth + 1) item) (v : Value) (memo : PrintMemo) :
    ∃ chains, Course ctx depth (.shown (shown ctx v)) memo (Printer.value ctx item v memo).1
      (Printer.value ctx item v memo).2 chains := by
  rw [value_eq]
  cases Printer.shown ctx v with
  | word text => exact ⟨[], .word⟩
  | node n =>
      cases n with
      | cell r => exact h.pair r memo
      | vector r => exact h.vector r memo
  | delivered w =>
      obtain ⟨chains, hw⟩ := h w memo
      exact ⟨chains, .delivered hw⟩
  | function label shape b =>
      obtain ⟨chains, more, htext, hrest⟩ := h.tail (cellFuel ctx) b
        ("(" ++ label ++ " " ++ shape.format) memo (card_unseen_lt_cellFuel ctx memo)
      refine ⟨chains, ?_⟩
      simp only [body, htext]
      exact .function hrest

/-- Printing with a number of levels left follows the course from the depth on at which that many
are left. -/
theorem follows_render (ctx : PrintContext) : ∀ levels depth, depth + levels = maxDepth + 1 →
    Follows ctx depth (render ctx levels) := by
  intro levels
  induction levels with
  | zero => exact fun depth hd v memo => ⟨[], .tooDeep (by omega)⟩
  | succ levels ih =>
      intro depth hd v memo
      obtain ⟨chains, h⟩ := (ih (depth + 1) (by omega)).shown v memo
      exact ⟨chains, .value (by omega) h⟩

/-- The text of a value is written by the course from the outermost level on. -/
theorem course_print (store : Store) (symbols : SymbolTable) (escape : Bool) (repeats : Nat)
    (v : Value) : ∃ memo' chains, Course ⟨store, symbols, escape⟩ 0 (.value v) { repeats }
      (print store symbols escape repeats v) memo' chains := by
  obtain ⟨chains, h⟩ := follows_render ⟨store, symbols, escape⟩ (maxDepth + 1) 0 (by omega) v
    { repeats }
  exact ⟨_, chains, h⟩

/-- Printing ends for every value of every store, whatever cycles there are, every allowance and
either way to write strings: a course from part to part comes to an end, with the text that is
printed, and every other course comes to the same end. Whenever a node is entered, no more of the
entries that are open there were made again than the allowance says; and whatever part a course is
of, it leaves the allowance that it found. -/
theorem printing_ends (store : Store) (symbols : SymbolTable) (escape : Bool) (repeats : Nat)
    (v : Value) :
    (∃ memo' chains,
      Course ⟨store, symbols, escape⟩ 0 (.value v) { repeats }
        (print store symbols escape repeats v) memo' chains ∧
      (∀ text memo'' chains',
        Course ⟨store, symbols, escape⟩ 0 (.value v) { repeats } text memo'' chains' →
        text = print store symbols escape repeats v ∧ memo'' = memo' ∧ chains' = chains) ∧
      ∀ chain ∈ chains, chain.countP Entry.again ≤ repeats) ∧
    ∀ depth part memo text memo' chains,
      Course ⟨store, symbols, escape⟩ depth part memo text memo' chains →
      memo'.repeats = memo.repeats ∧ ∀ chain ∈ chains, chain.countP Entry.again ≤ memo.repeats := by
  obtain ⟨memo', chains, h⟩ := course_print store symbols escape repeats v
  refine ⟨⟨memo', chains, h, ?_, h.count_again_le⟩, ?_⟩
  · exact fun _ _ _ h' => h'.unique h
  · exact fun _ _ _ _ _ _ h' => ⟨h'.repeats_eq, h'.count_again_le⟩

end Printer

end SmallLisp
