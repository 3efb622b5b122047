import SmallLisp.Proofs.Printing.Course

/-!
# Printing and sharing

A part of a value that has no cycles unfolds into a finite tree, in which a node that is reached in
several ways stands several times. The tree has a text of its own, that says nothing of what was
seen before, and so have all values with the same tree but for the names of the nodes: among them is
the copy in which no node is shared.

The printer does write that text, as long as it comes to no cell along a list that it has seen
before, and as long as no more shared nodes are nested in one another than its allowance says.
-/

namespace SmallLisp

namespace Printer

/-- A part taken as a tree, with the names `ν` for nodes: the contents of a node stand wherever it
is reached. -/
inductive Tree (ν : Type) where
  | word (text : String)
  | node (n : ν) (contents : Tree ν)
  | delivered (x : Tree ν)
  | function (label : String) (shape : Shape) (rest : Tree ν)
  | quoted (x : Tree ν)
  | list (first rest : Tree ν)
  | vector (items : Tree ν)
  | stop
  | next (n : ν) (first rest : Tree ν)
  | dotted (x : Tree ν)
  | none
  | last (x : Tree ν)
  | item (x rest : Tree ν)
deriving DecidableEq

/-- A node that is reached, and whether as a cell along a list or a function body. -/
structure Visit where
  node : Node
  along : Bool
deriving DecidableEq

namespace Tree

variable {ν μ : Type}

/-- The tree with other names for its nodes. -/
def map (f : ν → μ) : Tree ν → Tree μ
  | word text => word text
  | node n x => node (f n) (map f x)
  | delivered x => delivered (map f x)
  | function label shape x => function label shape (map f x)
  | quoted x => quoted (map f x)
  | list a b => list (map f a) (map f b)
  | vector x => vector (map f x)
  | stop => stop
  | next n a b => next (f n) (map f a) (map f b)
  | dotted x => dotted (map f x)
  | none => none
  | last x => last (map f x)
  | item a b => item (map f a) (map f b)

/-- The tree without the names of its nodes. -/
def bare (x : Tree ν) : Tree Unit := x.map fun _ => ()

/-- The text of a tree, everything written in full. -/
def text : Tree ν → String
  | word text => text
  | node _ x => text x
  | delivered x => text x
  | function label shape x => "(" ++ label ++ " " ++ shape.format ++ text x ++ ")"
  | quoted x => "'" ++ text x
  | list a b => "(" ++ text a ++ text b ++ ")"
  | vector x => "[" ++ text x ++ "]"
  | stop => ""
  | next _ a b => " " ++ text a ++ text b
  | dotted x => " . " ++ text x
  | none => ""
  | last x => text x
  | item a b => text a ++ " " ++ text b

/-- How many levels are nested in the tree: the items of lists and vectors, what is quoted, what
comes after a dot and what a promise delivered are one level deeper. -/
def nesting : Tree ν → Nat
  | word _ | stop | none => 0
  | node _ x | function _ _ x | vector x => nesting x
  | delivered x | quoted x | dotted x | last x => nesting x + 1
  | list a b | next _ a b | item a b => max (nesting a + 1) (nesting b)

/-- The nodes that are reached, in the order of the text. -/
def visits : Tree Node → List Visit
  | word _ | stop | none => []
  | node n x => ⟨n, false⟩ :: visits x
  | delivered x | function _ _ x | quoted x | vector x | dotted x | last x => visits x
  | list a b | item a b => visits a ++ visits b
  | next n a b => ⟨n, true⟩ :: (visits a ++ visits b)

/-- The nodes of a tree, each as often as it is reached. -/
def nodes (x : Tree Node) : List Node := x.visits.map Visit.node

/-- How many of the nodes in a set are entered inside one another at most. -/
def deepest (p : Node → Prop) [DecidablePred p] : Tree Node → Nat
  | word _ | stop | none => 0
  | node n x => deepest p x + if p n then 1 else 0
  | delivered x | function _ _ x | quoted x | vector x | dotted x | last x => deepest p x
  | list a b | next _ a b | item a b => max (deepest p a) (deepest p b)

@[simp] theorem nodes_node (n : Node) (x : Tree Node) : (node n x).nodes = n :: x.nodes := rfl

@[simp] theorem nodes_next (n : Node) (a b : Tree Node) :
    (next n a b).nodes = n :: (a.nodes ++ b.nodes) := by
  simp [nodes, visits]

@[simp] theorem nodes_item (a b : Tree Node) : (item a b).nodes = a.nodes ++ b.nodes := by
  simp [nodes, visits]

@[simp] theorem text_map (f : ν → μ) (x : Tree ν) : (x.map f).text = x.text := by
  induction x <;> simp_all [map, text]

@[simp] theorem nesting_map (f : ν → μ) (x : Tree ν) : (x.map f).nesting = x.nesting := by
  induction x <;> simp_all [map, nesting]

/-- The text does not depend on the names of the nodes. -/
theorem text_eq_of_bare_eq {x : Tree ν} {y : Tree μ} (h : x.bare = y.bare) : x.text = y.text := by
  rw [← text_map (fun _ => ()) x, ← text_map (fun _ => ()) y]
  exact congrArg text h

theorem nesting_eq_of_bare_eq {x : Tree ν} {y : Tree μ} (h : x.bare = y.bare) :
    x.nesting = y.nesting := by
  rw [← nesting_map (fun _ => ()) x, ← nesting_map (fun _ => ()) y]
  exact congrArg nesting h

theorem deepest_eq_zero {p : Node → Prop} [DecidablePred p] (hp : ∀ n, ¬ p n) (x : Tree Node) :
    x.deepest p = 0 := by
  induction x <;> simp_all [deepest]

end Tree

/-- The tree that a part unfolds into. -/
inductive Unfolds (ctx : PrintContext) : Part → Tree Node → Prop where
  | value {v x} : Unfolds ctx (.shown (shown ctx v)) x → Unfolds ctx (.value v) x
  | word {text} : Unfolds ctx (.shown (.word text)) (.word text)
  | node {n x} : Unfolds ctx (.inside n) x → Unfolds ctx (.shown (.node n)) (.node n x)
  | delivered {v x} : Unfolds ctx (.value v) x →
      Unfolds ctx (.shown (.delivered v)) (.delivered x)
  | function {label shape b x} : Unfolds ctx (.rest b) x →
      Unfolds ctx (.shown (.function label shape b)) (.function label shape x)
  | quoted {r v x} : quotedValue? ctx.store r = some v → Unfolds ctx (.value v) x →
      Unfolds ctx (.inside (.cell r)) (.quoted x)
  | list {r a b} : quotedValue? ctx.store r = none → Unfolds ctx (.value (ctx.store.car r)) a →
      Unfolds ctx (.rest (ctx.store.cdr r)) b → Unfolds ctx (.inside (.cell r)) (.list a b)
  | vector {r x} : Unfolds ctx (.items (ctx.store.vector r).toList) x →
      Unfolds ctx (.inside (.vector r)) (.vector x)
  | stop : Unfolds ctx (.rest .nil) .stop
  | next {r a b} : Unfolds ctx (.value (ctx.store.car r)) a →
      Unfolds ctx (.rest (ctx.store.cdr r)) b → Unfolds ctx (.rest (.pair r)) (.next (.cell r) a b)
  | dotted {v x} : v ≠ .nil → (∀ r, v ≠ .pair r) → Unfolds ctx (.value v) x →
      Unfolds ctx (.rest v) (.dotted x)
  | none : Unfolds ctx (.items []) .none
  | last {v x} : Unfolds ctx (.value v) x → Unfolds ctx (.items [v]) (.last x)
  | item {v w vs a b} : Unfolds ctx (.value v) a → Unfolds ctx (.items (w :: vs)) b →
      Unfolds ctx (.items (v :: w :: vs)) (.item a b)

/-- The tree that a part unfolds into, if `fuel` is more than the parts that are inside one another.
-/
def treeOf? (ctx : PrintContext) : Nat → Part → Option (Tree Node)
  | 0, _ => none
  | fuel + 1, .value v => treeOf? ctx fuel (.shown (shown ctx v))
  | _ + 1, .shown (.word text) => some (.word text)
  | fuel + 1, .shown (.node n) => (treeOf? ctx fuel (.inside n)).map (.node n)
  | fuel + 1, .shown (.delivered v) => (treeOf? ctx fuel (.value v)).map .delivered
  | fuel + 1, .shown (.function label shape b) =>
      (treeOf? ctx fuel (.rest b)).map (.function label shape)
  | fuel + 1, .inside (.cell r) =>
      match quotedValue? ctx.store r with
      | some v => (treeOf? ctx fuel (.value v)).map .quoted
      | none => do
          let first ← treeOf? ctx fuel (.value (ctx.store.car r))
          let rest ← treeOf? ctx fuel (.rest (ctx.store.cdr r))
          return .list first rest
  | fuel + 1, .inside (.vector r) =>
      (treeOf? ctx fuel (.items (ctx.store.vector r).toList)).map .vector
  | _ + 1, .rest .nil => some .stop
  | fuel + 1, .rest (.pair r) => do
      let first ← treeOf? ctx fuel (.value (ctx.store.car r))
      let rest ← treeOf? ctx fuel (.rest (ctx.store.cdr r))
      return .next (.cell r) first rest
  | fuel + 1, .rest v => (treeOf? ctx fuel (.value v)).map .dotted
  | _ + 1, .items [] => some .none
  | fuel + 1, .items [v] => (treeOf? ctx fuel (.value v)).map .last
  | fuel + 1, .items (v :: w :: vs) => do
      let first ← treeOf? ctx fuel (.value v)
      let rest ← treeOf? ctx fuel (.items (w :: vs))
      return .item first rest

theorem unfolds_of_treeOf? {ctx : PrintContext} {fuel : Nat} {part : Part} {x : Tree Node}
    (h : treeOf? ctx fuel part = some x) : Unfolds ctx part x := by
  fun_induction treeOf? ctx fuel part generalizing x with
  | case1 => cases h
  | case2 _ _ ih => exact .value (ih h)
  | case3 =>
      cases h
      exact .word
  | case4 _ _ ih =>
      obtain ⟨y, hy, rfl⟩ := Option.map_eq_some_iff.1 h
      exact .node (ih hy)
  | case5 _ _ ih =>
      obtain ⟨y, hy, rfl⟩ := Option.map_eq_some_iff.1 h
      exact .delivered (ih hy)
  | case6 _ _ _ _ ih =>
      obtain ⟨y, hy, rfl⟩ := Option.map_eq_some_iff.1 h
      exact .function (ih hy)
  | case7 _ _ _ hq ih =>
      obtain ⟨y, hy, rfl⟩ := Option.map_eq_some_iff.1 h
      exact .quoted hq (ih hy)
  | case8 _ _ hq ih₁ ih₂ =>
      obtain ⟨a, ha, h⟩ := Option.bind_eq_some_iff.1 h
      obtain ⟨b, hb, h⟩ := Option.bind_eq_some_iff.1 h
      cases h
      exact .list hq (ih₁ ha) (ih₂ hb)
  | case9 _ _ ih =>
      obtain ⟨y, hy, rfl⟩ := Option.map_eq_some_iff.1 h
      exact .vector (ih hy)
  | case10 =>
      cases h
      exact .stop
  | case11 _ _ ih₁ ih₂ =>
      obtain ⟨a, ha, h⟩ := Option.bind_eq_some_iff.1 h
      obtain ⟨b, hb, h⟩ := Option.bind_eq_some_iff.1 h
      cases h
      exact .next (ih₁ ha) (ih₂ hb)
  | case12 _ _ hnil hpair ih =>
      obtain ⟨y, hy, rfl⟩ := Option.map_eq_some_iff.1 h
      exact .dotted hnil hpair (ih hy)
  | case13 =>
      cases h
      exact .none
  | case14 _ _ ih =>
      obtain ⟨y, hy, rfl⟩ := Option.map_eq_some_iff.1 h
      exact .last (ih hy)
  | case15 _ _ _ _ ih₁ ih₂ =>
      obtain ⟨a, ha, h⟩ := Option.bind_eq_some_iff.1 h
      obtain ⟨b, hb, h⟩ := Option.bind_eq_some_iff.1 h
      cases h
      exact .item (ih₁ ha) (ih₂ hb)

/-- The tree of a value, where it is within reach. -/
def unfolded (ctx : PrintContext) (fuel : Nat) (v : Value) : Tree Node :=
  (treeOf? ctx fuel (.value v)).getD .none

theorem unfolds_unfolded {ctx : PrintContext} {fuel : Nat} {v : Value}
    (h : (treeOf? ctx fuel (.value v)).isSome) :
    Unfolds ctx (.value v) (unfolded ctx fuel v) := by
  obtain ⟨x, hx⟩ := Option.isSome_iff_exists.1 h
  rw [unfolded, hx]
  exact unfolds_of_treeOf? hx

/-- Nothing stands in the way of printing a tree in full from a depth and a memo on, where the nodes
with `p` are those that may be entered again. -/
structure Clear (p : Node → Prop) [DecidablePred p] (depth : Nat) (memo : PrintMemo)
    (x : Tree Node) : Prop where
  /-- What is reached and was seen before may be entered again. -/
  seen : ∀ n ∈ x.nodes, memo.seen n = true → p n
  /-- What is reached more than once may be entered again. -/
  shared : ∀ n, 2 ≤ x.nodes.count n → p n
  /-- A cell along a list was not reached before, neither in the tree nor earlier. -/
  along : x.visits.Pairwise fun a b => b.along = true → b.node ≠ a.node
  new : ∀ visit ∈ x.visits, visit.along = true → memo.seen visit.node = false
  /-- There are enough repeats for what is nested. -/
  repeats : x.deepest p ≤ memo.repeats
  /-- The levels end above the bound. -/
  depth : depth + x.nesting ≤ maxDepth

namespace Clear

variable {p : Node → Prop} [DecidablePred p] {depth : Nat} {memo memo' : PrintMemo}
  {n : Node} {x y a b : Tree Node}

/-- A tree that reaches the same nodes as another one and nests no deeper. -/
theorem of_visits_eq (h : Clear p depth memo x) (y : Tree Node) (d : Nat)
    (hvisits : y.visits = x.visits) (hdeepest : y.deepest p = x.deepest p)
    (hd : d + y.nesting ≤ depth + x.nesting) : Clear p d memo y where
  seen := by simpa [Tree.nodes, hvisits] using h.seen
  shared := by simpa [Tree.nodes, hvisits] using h.shared
  along := hvisits ▸ h.along
  new := hvisits ▸ h.new
  repeats := hdeepest ▸ h.repeats
  depth := hd.trans h.depth

/-- The tree within one that is a level deeper and has no nodes of its own. -/
theorem within (h : Clear p depth memo x) (y : Tree Node) (hvisits : y.visits = x.visits)
    (hdeepest : y.deepest p = x.deepest p) (hnesting : y.nesting + 1 = x.nesting) :
    Clear p (depth + 1) memo y :=
  h.of_visits_eq y (depth + 1) hvisits hdeepest (by omega)

/-- What a tree reaches after its first node, once that was seen. -/
theorem of_visits_cons (h : Clear p depth memo x) {again : Bool}
    (hvisits : x.visits = ⟨n, again⟩ :: y.visits)
    (hseen : ∀ m, memo'.seen m = (n == m || memo.seen m)) (hrepeats : y.deepest p ≤ memo'.repeats)
    (hdepth : depth + y.nesting ≤ maxDepth) : Clear p depth memo' y := by
  have hnodes : x.nodes = n :: y.nodes := by simp [Tree.nodes, hvisits]
  have hpairwise := h.along
  rw [hvisits] at hpairwise
  obtain ⟨hfirst, halong⟩ := List.pairwise_cons.1 hpairwise
  refine ⟨?_, ?_, halong, ?_, hrepeats, hdepth⟩
  · intro m hm hs
    rw [hseen, Bool.or_eq_true, beq_iff_eq] at hs
    rcases hs with rfl | hs
    · -- the node is reached again, so it is shared
      refine h.shared n ?_
      have hpos : 0 < y.nodes.count n := List.count_pos_iff.2 hm
      rw [hnodes, List.count_cons_self]
      omega
    · exact h.seen m (hnodes ▸ List.mem_cons_of_mem n hm) hs
  · intro m hm
    refine h.shared m (hm.trans ?_)
    rw [hnodes]
    exact (List.sublist_cons_self n _).count_le m
  · intro visit hvisit hcell
    have hne : n ≠ visit.node := fun heq => hfirst visit hvisit hcell heq.symm
    rw [hseen, beq_false_of_ne hne, Bool.false_or]
    exact h.new visit (hvisits ▸ List.mem_cons_of_mem _ hvisit) hcell

/-- A node may be entered, and nothing stands in the way of its contents. -/
theorem entered (h : Clear p depth memo (.node n x)) :
    ∃ memo₁, enter? (memo.seen n) memo = some memo₁ ∧ Clear p depth (memo₁.mark n) x := by
  -- entering takes a repeat only from a node that is counted among those with `p`
  have hcost : x.deepest p + (memo.seen n).toNat ≤ memo.repeats := by
    refine le_trans ?_ h.repeats
    cases hn : memo.seen n with
    | false => exact Nat.le_add_right _ _
    | true =>
        have hp : p n := h.seen n List.mem_cons_self hn
        simp [Tree.deepest, hp]
  obtain ⟨memo₁, he⟩ : ∃ memo₁, enter? (memo.seen n) memo = some memo₁ := by
    cases hn : memo.seen n with
    | false => exact ⟨memo, rfl⟩
    | true =>
        rw [hn, Bool.toNat_true] at hcost
        obtain ⟨k, hk⟩ : ∃ k, memo.repeats = k + 1 := ⟨memo.repeats - 1, by omega⟩
        exact ⟨{ memo with repeats := k }, by simp [enter?, hk]⟩
  refine ⟨memo₁, he, h.of_visits_cons rfl (fun m => ?_) ?_ h.depth⟩
  · rw [PrintMemo.seen_mark, seen_of_enter? he]
  · have := repeats_enter? he
    rw [PrintMemo.repeats_mark]
    omega

/-- A cell that a list goes on with is new, and what follows is as with two parts in turn. -/
theorem next (h : Clear p depth memo (.next n a b)) :
    memo.seen n = false ∧ Clear p depth (memo.mark n) (.item a b) :=
  ⟨h.new ⟨n, true⟩ List.mem_cons_self rfl,
    h.of_visits_cons rfl (memo.seen_mark n) (memo.repeats_mark n ▸ h.repeats) h.depth⟩

/-- The first of two parts. -/
theorem first (h : Clear p depth memo (.item a b)) : Clear p (depth + 1) memo a where
  seen n hn := h.seen n (by simp_all)
  shared n hn := h.shared n (by simp_all; omega)
  along := (List.pairwise_append.1 h.along).1
  new visit hvisit := h.new visit (List.mem_append_left _ hvisit)
  repeats := (le_max_left _ _).trans h.repeats
  depth := by
    have := h.depth
    simp only [Tree.nesting] at this
    omega

/-- The second of two parts, when just the nodes of the first were seen in addition. -/
theorem second (h : Clear p depth memo (.item a b)) (hr : memo'.repeats = memo.repeats)
    (hseen : ∀ n, memo'.seen n = true ↔ memo.seen n = true ∨ n ∈ a.nodes) :
    Clear p depth memo' b where
  seen n hn hs := by
    obtain hs | ha := (hseen n).1 hs
    · exact h.seen n (by simp [hn]) hs
    · refine h.shared n ?_
      have hposa : 0 < a.nodes.count n := List.count_pos_iff.2 ha
      have hposb : 0 < b.nodes.count n := List.count_pos_iff.2 hn
      rw [Tree.nodes_item, List.count_append]
      omega
  shared n hn := h.shared n (by rw [Tree.nodes_item, List.count_append]; omega)
  along := (List.pairwise_append.1 h.along).2.1
  new visit hvisit hcell := by
    rw [← Bool.not_eq_true, hseen, not_or, h.new visit (List.mem_append_right _ hvisit) hcell]
    refine ⟨Bool.false_ne_true, fun hmem => ?_⟩
    obtain ⟨earlier, hearlier, heq⟩ := List.mem_map.1 hmem
    exact (List.pairwise_append.1 h.along).2.2 earlier hearlier visit hvisit hcell heq.symm
  repeats := hr ▸ (le_max_right _ _).trans h.repeats
  depth := by
    have := h.depth
    simp only [Tree.nesting] at this
    omega

end Clear

/-- A part with nothing in the way is printed as its tree, and just the nodes of the tree are seen
in addition. -/
theorem Unfolds.course {ctx : PrintContext} {p : Node → Prop} [DecidablePred p] {part : Part}
    {x : Tree Node} (h : Unfolds ctx part x) : ∀ {depth memo}, Clear p depth memo x →
    ∃ memo' chains, Course ctx depth part memo x.text memo' chains ∧
      ∀ n, memo'.seen n = true ↔ memo.seen n = true ∨ n ∈ x.nodes := by
  induction h with
  | value _ ih =>
      intro depth memo hc
      obtain ⟨memo', chains, hcourse, hseen⟩ := ih hc
      exact ⟨memo', chains, .value (Nat.le_of_add_right_le hc.depth) hcourse, hseen⟩
  | word => exact fun {_ memo} _ => ⟨memo, [], .word, by simp [Tree.nodes, Tree.visits]⟩
  | @node n x _ ih =>
      intro depth memo hc
      obtain ⟨memo₁, he, hinside⟩ := hc.entered
      obtain ⟨memo₂, chains, hcourse, hseen⟩ := ih hinside
      refine ⟨_, _, .entered he hcourse, fun m => ?_⟩
      rw [seen_leave, hseen, PrintMemo.seen_mark, seen_of_enter? he]
      simp only [Bool.or_eq_true, beq_iff_eq, Tree.nodes_node, List.mem_cons]
      grind
  | @delivered v x _ ih =>
      intro depth memo hc
      obtain ⟨memo', chains, hcourse, hseen⟩ := ih (hc.within x rfl rfl rfl)
      exact ⟨memo', chains, .delivered hcourse, hseen⟩
  | @function label shape b x _ ih =>
      intro depth memo hc
      obtain ⟨memo', chains, hcourse, hseen⟩ := ih (hc.of_visits_eq x _ rfl rfl le_rfl)
      exact ⟨memo', chains, .function hcourse, hseen⟩
  | @quoted r v x hq _ ih =>
      intro depth memo hc
      obtain ⟨memo', chains, hcourse, hseen⟩ := ih (hc.within x rfl rfl rfl)
      exact ⟨memo', chains, .quoted hq hcourse, hseen⟩
  | @list r a b hq _ _ iha ihb =>
      intro depth memo hc
      have hc : Clear p depth memo (.item a b) := hc.of_visits_eq (.item a b) _ rfl rfl le_rfl
      obtain ⟨memo₁, chains₁, hcar, hseen₁⟩ := iha hc.first
      obtain ⟨memo₂, chains₂, hrest, hseen₂⟩ := ihb (hc.second hcar.repeats_eq hseen₁)
      refine ⟨memo₂, _, .list hq hcar hrest, fun n => ?_⟩
      rw [hseen₂, hseen₁, or_assoc, ← List.mem_append, ← Tree.nodes_item]
      rfl
  | @vector r x _ ih =>
      intro depth memo hc
      obtain ⟨memo', chains, hcourse, hseen⟩ := ih (hc.of_visits_eq x _ rfl rfl le_rfl)
      exact ⟨memo', chains, .vector hcourse, hseen⟩
  | stop => exact fun {_ memo} _ => ⟨memo, [], .stop, by simp [Tree.nodes, Tree.visits]⟩
  | @next r a b _ _ iha ihb =>
      intro depth memo hc
      obtain ⟨hnew, hc⟩ := hc.next
      obtain ⟨memo₁, chains₁, hcar, hseen₁⟩ := iha hc.first
      obtain ⟨memo₂, chains₂, hrest, hseen₂⟩ := ihb (hc.second hcar.repeats_eq hseen₁)
      refine ⟨memo₂, _, .next hnew hcar hrest, fun n => ?_⟩
      rw [hseen₂, hseen₁, PrintMemo.seen_mark]
      simp only [Bool.or_eq_true, beq_iff_eq, Tree.nodes_next, List.mem_cons, List.mem_append]
      grind
  | @dotted v x hnil hpair _ ih =>
      intro depth memo hc
      obtain ⟨memo', chains, hcourse, hseen⟩ := ih (hc.within x rfl rfl rfl)
      refine ⟨memo', chains, .dotted (fun hg => ?_) hcourse, hseen⟩
      cases v with
      | nil => exact hnil rfl
      | pair r => exact hpair r rfl
      | _ => exact hg
  | none => exact fun {_ memo} _ => ⟨memo, [], .none, by simp [Tree.nodes, Tree.visits]⟩
  | @last v x _ ih =>
      intro depth memo hc
      obtain ⟨memo', chains, hcourse, hseen⟩ := ih (hc.within x rfl rfl rfl)
      exact ⟨memo', chains, .last hcourse, hseen⟩
  | @item v w vs a b _ _ iha ihb =>
      intro depth memo hc
      obtain ⟨memo₁, chains₁, hv, hseen₁⟩ := iha hc.first
      obtain ⟨memo₂, chains₂, hvs, hseen₂⟩ := ihb (hc.second hv.repeats_eq hseen₁)
      refine ⟨memo₂, _, .item hv hvs, fun n => ?_⟩
      rw [hseen₂, hseen₁, or_assoc, ← List.mem_append, ← Tree.nodes_item]

/-- Nothing stands in the way at first, if the nodes that may be entered again are the shared ones
and there are enough repeats for them. -/
theorem clear_start {x : Tree Node} {repeats : Nat} (hdepth : x.nesting ≤ maxDepth)
    (halong : x.visits.Pairwise fun a b => b.along = true → b.node ≠ a.node)
    (hnested : x.deepest (2 ≤ x.nodes.count ·) ≤ repeats) :
    Clear (2 ≤ x.nodes.count ·) 0 { repeats } x where
  seen n _ hs := by cases n <;> simp [PrintMemo.seen] at hs
  shared _ h := h
  along := halong
  new visit _ _ := by cases visit.node <;> simp [PrintMemo.seen]
  repeats := hnested
  depth := by rwa [Nat.zero_add]

/-- A value in which no cell along a list was reached before, and in which no more shared nodes are
nested in one another than may be entered again, is printed as its tree. -/
theorem print_eq_text {store : Store} {symbols : SymbolTable} {escape : Bool} {repeats : Nat}
    {v : Value} {x : Tree Node} (h : Unfolds ⟨store, symbols, escape⟩ (.value v) x)
    (hdepth : x.nesting ≤ maxDepth)
    (halong : x.visits.Pairwise fun a b => b.along = true → b.node ≠ a.node)
    (hnested : x.deepest (2 ≤ x.nodes.count ·) ≤ repeats) :
    print store symbols escape repeats v = x.text := by
  obtain ⟨_, _, hcourse, -⟩ := h.course (clear_start hdepth halong hnested)
  obtain ⟨_, _, hprint⟩ := course_print store symbols escape repeats v
  exact (hprint.unique hcourse).1

/-- A value without shared nodes is printed as its tree with any allowance. -/
theorem print_eq_text_of_nodup {store : Store} {symbols : SymbolTable} {escape : Bool}
    {repeats : Nat} {v : Value} {x : Tree Node}
    (h : Unfolds ⟨store, symbols, escape⟩ (.value v) x) (hdepth : x.nesting ≤ maxDepth)
    (hnodup : x.nodes.Nodup) : print store symbols escape repeats v = x.text := by
  refine print_eq_text h hdepth ?_ ?_
  · refine (List.pairwise_map.1 hnodup).imp ?_
    exact fun hne _ heq => hne heq.symm
  · rw [Tree.deepest_eq_zero fun n hn => ?_]
    · exact Nat.zero_le _
    · have := List.nodup_iff_count_le_one.1 hnodup n
      omega

/-- Printing does not reveal sharing while lists share nothing but their items and the allowance
suffices. A value that nests at most to the bound is printed like every copy without shared nodes,
and that is its text in full with nothing cut off, if no cell that goes on a list or a function body
was reached before, and if of the nodes that are reached more than once no more are entered inside
one another than the allowance says. -/
theorem print_eq_print_copy {store store' : Store} {symbols : SymbolTable} {escape : Bool}
    {repeats : Nat} {v w : Value} {x y : Tree Node}
    (hv : Unfolds ⟨store, symbols, escape⟩ (.value v) x)
    (hw : Unfolds ⟨store', symbols, escape⟩ (.value w) y) (hcopy : x.bare = y.bare)
    (hunshared : y.nodes.Nodup) (hdepth : x.nesting ≤ maxDepth)
    (halong : x.visits.Pairwise fun a b => b.along = true → b.node ≠ a.node)
    (hnested : x.deepest (2 ≤ x.nodes.count ·) ≤ repeats) :
    print store symbols escape repeats v = x.text ∧
      print store symbols escape repeats v = print store' symbols escape repeats w := by
  have hx := print_eq_text hv hdepth halong hnested
  have hy : print store' symbols escape repeats w = y.text :=
    print_eq_text_of_nodup hw (Tree.nesting_eq_of_bare_eq hcopy ▸ hdepth) hunshared
  refine ⟨hx, ?_⟩
  rw [hx, hy, Tree.text_eq_of_bare_eq hcopy]

/-- A value inside lists of one item each, in cells from `base` on. -/
def tower (base height : Nat) : List Cell :=
  (List.range height).map (fun i => ⟨.pair ⟨base + i + 1⟩, .nil⟩) ++ [⟨.int 1, .nil⟩]

/-- A store with two towers, a list of the first one twice and a list of both. -/
def towers (height : Nat) : Store :=
  let n := height + 1
  let lists : List Cell := [⟨.pair ⟨0⟩, .pair ⟨2 * n + 1⟩⟩, ⟨.pair ⟨0⟩, .nil⟩,
    ⟨.pair ⟨0⟩, .pair ⟨2 * n + 3⟩⟩, ⟨.pair ⟨n⟩, .nil⟩]
  { capacity := 100, cells := (tower 0 height ++ tower n height ++ lists).toArray }

/-- Ten nested nodes are printed in full a second time with ten repeats. -/
theorem print_towers : print (towers 9) .new true 10 (.pair ⟨20⟩) =
    print (towers 9) .new true 10 (.pair ⟨22⟩) := by
  have hv : Unfolds ⟨towers 9, .new, true⟩ (.value (.pair ⟨20⟩))
      (unfolded ⟨towers 9, .new, true⟩ 50 (.pair ⟨20⟩)) := unfolds_unfolded (by decide +kernel)
  have hw : Unfolds ⟨towers 9, .new, true⟩ (.value (.pair ⟨22⟩))
      (unfolded ⟨towers 9, .new, true⟩ 50 (.pair ⟨22⟩)) := unfolds_unfolded (by decide +kernel)
  exact (print_eq_print_copy hv hw (by decide +kernel) (by decide +kernel) (by decide +kernel)
    (by decide +kernel) (by decide +kernel)).2

/-- A value and a copy of it without shared nodes, nested to the bound at most. -/
def Unshared (ctx : PrintContext) (v w : Value) : Prop :=
  ∃ x y, Unfolds ctx (.value v) x ∧ Unfolds ctx (.value w) y ∧ x.bare = y.bare ∧ y.nodes.Nodup ∧
    x.nesting ≤ maxDepth

/-- A list of two numbers, another one like it, a list of the first one twice and a list of both. -/
def pairTwice : Store where
  capacity := 100
  cells := #[⟨.int 1, .pair ⟨1⟩⟩, ⟨.int 2, .nil⟩, ⟨.int 1, .pair ⟨3⟩⟩, ⟨.int 2, .nil⟩,
    ⟨.pair ⟨0⟩, .pair ⟨5⟩⟩, ⟨.pair ⟨0⟩, .nil⟩, ⟨.pair ⟨0⟩, .pair ⟨7⟩⟩, ⟨.pair ⟨2⟩, .nil⟩]

/-- Printing does reveal some sharing: a list of two items is dotted the second time, and eleven
nested nodes are cut off the second time with ten repeats. -/
theorem sharing_shows :
    (Unshared ⟨pairTwice, .new, true⟩ (.pair ⟨4⟩) (.pair ⟨6⟩) ∧
      print pairTwice .new true 10 (.pair ⟨4⟩) = "((1 2) (1 . (2)))" ∧
      print pairTwice .new true 10 (.pair ⟨6⟩) = "((1 2) (1 2))") ∧
    Unshared ⟨towers 10, .new, true⟩ (.pair ⟨22⟩) (.pair ⟨24⟩) ∧
      print (towers 10) .new true 10 (.pair ⟨22⟩) =
        "((((((((((((1))))))))))) ((((((((((...)))))))))))" ∧
      print (towers 10) .new true 10 (.pair ⟨24⟩) =
        "((((((((((((1))))))))))) (((((((((((1))))))))))))" := by
  refine ⟨⟨⟨unfolded _ 50 _, unfolded _ 50 _, unfolds_unfolded ?_, unfolds_unfolded ?_, ?_⟩, ?_⟩,
    ⟨unfolded _ 50 _, unfolded _ 50 _, unfolds_unfolded ?_, unfolds_unfolded ?_, ?_⟩, ?_⟩
  · decide +kernel
  · decide +kernel
  · decide +kernel
  · decide +kernel
  · decide +kernel
  · decide +kernel
  · decide +kernel
  · decide +kernel

end Printer

end SmallLisp
