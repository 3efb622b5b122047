import SmallLisp.Proofs.Compiler.Compiles
import SmallLisp.Proofs.Prelude.Running

/-!
# Macros that fill a pattern

The body of a macro that only puts its arguments into a pattern is made of calls of `list`, `cons`
and `append`, of quoted words and of its parameters. Expanding a call of it always succeeds, and
gives the pattern filled with the code of the arguments.
-/

namespace SmallLisp

open Eval Code Scope Filter

/-! ## Bodies that make patterns -/

namespace Pattern

/-- The words as a list of patterns; no words are nil. -/
def ofWords : List Value → Pattern
  | [] => .word .nil
  | v :: vs => .list ((v :: vs).map .word)

/-- The items of a pattern that is a list. -/
def items? : Pattern → Option (List Pattern)
  | .list ps => some ps
  | .quoted v => some [.word (.sym Symbol.quote), .word v]
  | .lambda formals body => some (.word (.sym Symbol.lambda) :: ofWords formals :: body)
  | _ => none

theorem fillAll_words (σ : Nat → List Code) (vs : List Value) :
    fillAll σ (vs.map .word) = vs.map .word := by
  induction vs with
  | nil => rfl
  | cons v vs ih => rw [List.map_cons, fillAll, ih]; rfl

theorem fill_ofWords (σ : Nat → List Code) (vs : List Value) :
    fill σ (ofWords vs) = [ofItems (vs.map .word)] := by
  cases vs with
  | nil => rfl
  | cons v vs => rw [ofWords, fill, fillAll_words]; rfl

/-- A pattern that is a list is filled with the list of what its items are filled with. -/
theorem exists_fill {p : Pattern} {ps : List Pattern} (σ : Nat → List Code)
    (h : p.items? = some ps) : ∃ c, fill σ p = [c] ∧ ∀ store v,
      (Code.list (fillAll σ ps)).Stands store v → c.Stands store v := by
  cases p with
  | list qs =>
      cases h
      exact ⟨_, rfl, fun _ _ hv => hv⟩
  | lambda formals body =>
      cases h
      refine ⟨_, rfl, fun store v hv => stands_lambda.2 ?_⟩
      rw [fillAll, fillAll, fill_ofWords] at hv
      exact hv
  | quoted v =>
      cases h
      exact ⟨_, rfl, fun _ _ hv => standsAll_words.1 hv⟩
  | place i => cases h
  | word v => cases h

theorem fillAll_append (σ : Nat → List Code) (ps qs : List Pattern) :
    fillAll σ (ps ++ qs) = fillAll σ ps ++ fillAll σ qs := by
  induction ps with
  | nil => rfl
  | cons p ps ih => rw [List.cons_append, fillAll, fillAll, ih, List.append_assoc]

/-- How the words of a macro's body are read: which of them are the arguments, which is the list of
the rest, and which code quotes a symbol. -/
structure Reading where
  argument : Nat → Value → Prop
  rest : Nat → Value → Prop
  quotes : Code → Symbol → Prop

/-- In a body that is compiled, arguments are in their slots, and quotations are as they stand in
the store. -/
def Reading.compiled (quotes : Ref .cell → Value → Prop) (shape : Shape) : Reading where
  argument i v := i < shape.required ∧ ∃ x, v = .address ⟨0, i, x⟩
  rest i v := shape.hasRest = true ∧ i = shape.required ∧ ∃ x, v = .address ⟨0, i, x⟩
  quotes c x := ∃ r, c = .quoted (.cell r) ∧ quotes r (.sym x)

mutual

/-- The body of a macro makes one item out of its arguments: what the pattern is filled with. -/
inductive One (R : Reading) : Code → Pattern → Prop
  | argument {i : Nat} {v : Value} : R.argument i v → One R (.word v) (.place i)
  | literal {v : Value} : v.isLiteral = true → (∀ r, v ≠ .dummy r) → One R (.word v) (.word v)
  | symbol {c : Code} {x : Symbol} : R.quotes c x → One R c (.word (.sym x))
  | items {b : Code} {p : Pattern} {ps : List Pattern} : p.items? = some ps →
      Several R b ps → One R b p

/-- The body of a macro makes a list out of its arguments. -/
inductive Several (R : Reading) : Code → List Pattern → Prop
  | rest {i : Nat} {v : Value} : R.rest i v → Several R (.word v) [.place i]
  | nil : Several R (.word .nil) []
  | list {bs : List Code} {ps : List Pattern} : OneEach R bs ps →
      Several R (.list (.word (.sym Builder.list.symbol) :: bs)) ps
  | cons {b b' : Code} {p : Pattern} {ps : List Pattern} : One R b p → Several R b' ps →
      Several R (.list [.word (.sym Builder.cons.symbol), b, b']) (p :: ps)
  | append {bs : List Code} {ps : List Pattern} : SeveralEach R bs ps →
      Several R (.list (.word (.sym Builder.append.symbol) :: bs)) ps

/-- The codes make one item each. -/
inductive OneEach (R : Reading) : List Code → List Pattern → Prop
  | nil : OneEach R [] []
  | cons {b : Code} {bs : List Code} {p : Pattern} {ps : List Pattern} : One R b p →
      OneEach R bs ps → OneEach R (b :: bs) (p :: ps)

/-- The codes make lists, which follow each other. -/
inductive SeveralEach (R : Reading) : List Code → List Pattern → Prop
  | nil : SeveralEach R [] []
  | cons {b : Code} {bs : List Code} {ps qs : List Pattern} : Several R b ps →
      SeveralEach R bs qs → SeveralEach R (b :: bs) (ps ++ qs)

end

/-- Whatever the one reading tells, the other does too. -/
structure Reading.Within (R R' : Reading) : Prop where
  argument : ∀ {i v}, R.argument i v → R'.argument i v
  rest : ∀ {i v}, R.rest i v → R'.rest i v
  quotes : ∀ {c x}, R.quotes c x → R'.quotes c x

theorem Reading.compiled_within {quotes quotes' : Ref .cell → Value → Prop} (shape : Shape)
    (h : ∀ r v, quotes r v → quotes' r v) :
    (compiled quotes shape).Within (compiled quotes' shape) :=
  ⟨id, id, fun ⟨r, hc, hr⟩ => ⟨r, hc, h _ _ hr⟩⟩

variable {R R' : Reading}

mutual

theorem One.mono (h : R.Within R') : ∀ {b : Code} {p : Pattern}, One R b p → One R' b p
  | _, _, .argument hv => .argument (h.argument hv)
  | _, _, .literal hv hdummy => .literal hv hdummy
  | _, _, .symbol hc => .symbol (h.quotes hc)
  | _, _, .items hps hb => .items hps (hb.mono h)

theorem Several.mono (h : R.Within R') : ∀ {b : Code} {ps : List Pattern},
    Several R b ps → Several R' b ps
  | _, _, .rest hv => .rest (h.rest hv)
  | _, _, .nil => .nil
  | _, _, .list hbs => .list (hbs.mono h)
  | _, _, .cons hb hb' => .cons (hb.mono h) (hb'.mono h)
  | _, _, .append hbs => .append (hbs.mono h)

theorem OneEach.mono (h : R.Within R') : ∀ {bs : List Code} {ps : List Pattern},
    OneEach R bs ps → OneEach R' bs ps
  | _, _, .nil => .nil
  | _, _, .cons hb hbs => .cons (hb.mono h) (hbs.mono h)

theorem SeveralEach.mono (h : R.Within R') : ∀ {bs : List Code} {ps : List Pattern},
    SeveralEach R bs ps → SeveralEach R' bs ps
  | _, _, .nil => .nil
  | _, _, .cons hb hbs => .cons (hb.mono h) (hbs.mono h)

end

/-- What goes into the places: one argument each, and in the last place the arguments that are left
over. -/
def places (shape : Shape) (args : List Code) (i : Nat) : List Code :=
  if i < shape.required then args[i]?.toList else args.drop shape.required

end Pattern

/-! ## Evaluating bodies -/

/-- What a symbol denotes stays so, if its binding and the callables are kept. -/
theorem State.Defines.keeps {s t : State} {x : Symbol} {f : Callable} (hx : s.Defines x f)
    (hf : ∀ shape body, f ≠ .template shape body) (hsymbols : t.symbols = s.symbols)
    (hglobal : t.global? x = s.global? x) (hcallables : s.store.KeepsCallables t.store) :
    t.Defines x f := by
  obtain ⟨hkey, r, hr, hcallable⟩ := hx
  refine ⟨hsymbols ▸ hkey, r, hglobal.trans hr, ?_⟩
  rw [Store.callable, Array.getD_eq_getD_getElem?] at hcallable ⊢
  cases hget : s.store.callables[r.index]? with
  | none =>
      rw [hget] at hcallable
      exact absurd hcallable.symm (hf _ _)
  | some g =>
      rw [hget] at hcallable
      rw [hcallables _ _ hget]
      exact hcallable

theorem State.Grown.defines {s t : State} (h : s.Grown t) {x : Symbol} {f : Callable}
    (hf : ∀ shape body, f ≠ .template shape body) (hx : s.Defines x f) : t.Defines x f :=
  hx.keeps hf h.symbols (h.global? x) h.code.callables

/-- A frame goes on being there. -/
theorem State.Grown.lookup? {s t : State} (h : s.Grown t) {i offset : Nat} {v : Value}
    (hv : s.frames.lookup? (some i) 0 offset = some v) :
    t.frames.lookup? (some i) 0 offset = some v := by
  have hlookup : ∀ fs : Frames, fs.lookup? (some i) 0 offset =
      (fs.table[i]?).bind fun frame => frame.slots[offset]? := by
    intro fs
    unfold Frames.lookup? Frames.frameAt?
    by_cases hi : i < fs.table.size
    · simp [hi]
    · simp [hi]
  rw [hlookup] at hv ⊢
  obtain ⟨frame, hframe, hslot⟩ := Option.bind_eq_some_iff.1 hv
  rw [h.frames i frame hframe]
  exact hslot

namespace Eval

/-- A form whose turn leads to a value has that value. -/
theorem Succeeds.turn {v : Value} {env : Env} {s : State} {P : Value → State → Prop}
    (h : Succeeds (fun n => (Engine.ofFuel n).step v env >>= (Engine.ofFuel n).finish) s P) :
    Succeeds (fun n => evaluate n v env) s P := by
  obtain ⟨w, t, hcomes, hw⟩ := h
  refine ⟨w, t, .succ ?_, hw⟩
  filter_upwards [hcomes] with p hp
  obtain ⟨st, s₁, hstep, hfinish⟩ := bind_eq_ok.1 hp
  have htraced : ((Engine.ofFuel p.1).step v env).onFailure (Engine.traced v) (s.withRoom p.2) =
      .ok st s₁ := by
    rw [onFailure, hstep]
  rw [evaluate]
  refine (bind_of_ok htraced).trans ?_
  cases st <;> exact hfinish

end Eval

namespace Code

variable {hidden : Nat → Prop} {s₀ : State} {env : Env}

/-- What evaluation takes one piece of code to. -/
abbrev Evaluates (hidden : Nat → Prop) (s₀ : State) (env : Env) : Code → Code → Prop :=
  Takes hidden s₀ fun n v => evaluate n v env

/-- The turn of a call of something that is defined. -/
theorem evaluates_call {x : Symbol} {f : Callable} {cs : List Code} {d : Code}
    (hx : s₀.Defines x f) (hf : ∀ shape body, f ≠ .template shape body)
    (h : Takes hidden s₀ (fun n args =>
      (Engine.ofFuel n).enter f args env >>= (Engine.ofFuel n).finish) (.list cs) d) :
    Evaluates hidden s₀ env (.list (.word (.sym x) :: cs)) d := by
  refine ⟨?_⟩
  rintro _ s hs ⟨r, _, args, rfl, hr, rfl, hargs⟩
  obtain ⟨vs, hchain, -⟩ := chain_of_standsAll hargs
  have hcell := Store.cell?_of_veil hr hargs.ne_eof
  refine .turn (.congr (h.run hs hargs) ?_)
  filter_upwards [eventually_gt_atTop 0] with n hn k
  rw [bind_apply, step_enter (s := s.withRoom k) env (hs.defines hf hx) hf hcell
    ((chain_of_veil hchain).withRoom k) hn, ← bind_apply]

/-- A native is run on its frame, evaluated as it wants it. -/
theorem enter_native (E : Engine) {m : Native} {args : Value} {frame : List Value} {s : State}
    (hframe : E.makeFrame (.native m) args s = .ok frame s) :
    (E.enter (.native m) args env >>= E.finish) s =
      ((if m.isLazy then E.evalFrame m.shape frame env else E.forceFrame m.shape frame env) >>=
        fun frame => m.call E frame env) s := by
  have hfinish : ∀ x : Eval Value, (x >>= fun v => pure (Step.done v) >>= E.finish) = x :=
    fun x => bind_pure x
  rw [Engine.enter, bind_assoc, bind_of_ok hframe]
  simp only [bind_assoc, hfinish]

/-- The frame of a native that takes any number of operands is their list. -/
theorem makeFrame_builder (E : Engine) {b : Builder} (hb : b.native.spec.shape = .rest 0)
    {s : State} {cs : List Code} {args : Value} (hargs : StandsAll (s.store.veil hidden) cs args)
    (k : Nat) :
    E.makeFrame (.native (.lists b.native)) args (s.withRoom k) = .ok [args] (s.withRoom k) := by
  obtain ⟨vs, hchain, -⟩ := chain_of_standsAll hargs
  exact Site.makeFrame_rest E hb ((chain_of_veil hchain).withRoom k)

/-- A call of `list` makes a list of what its operands come to. -/
theorem evaluates_list (hhidden : ∀ i, hidden i → i < s₀.store.cells.size)
    (hlist : s₀.Defines Builder.list.symbol (.native (.lists .list))) {bs cs : List Code}
    (h : List.Forall₂ (Evaluates hidden s₀ env) bs cs) :
    Evaluates hidden s₀ env (.list (.word (.sym Builder.list.symbol) :: bs)) (.list cs) := by
  refine evaluates_call hlist (by simp) ((takes_mapList hhidden h).congr fun {v s} _ hv => ?_)
  refine .of_forall fun n k => ?_
  have hframe : (Engine.ofFuel n).makeFrame (.native (.lists .list)) v (s.withRoom k) =
      .ok [v] (s.withRoom k) := makeFrame_builder (b := .list) (Engine.ofFuel n) rfl hv k
  rw [enter_native _ hframe]
  have hslots : (Engine.ofFuel n).evalFrame (Native.lists .list).shape [v] env =
      (Engine.ofFuel n).mapList (fun form => evaluate n form env) v >>= fun w => pure [w] := rfl
  have hlazy : (Native.lists .list).isLazy = true := rfl
  rw [if_pos hlazy, hslots, bind_assoc]
  exact congrFun (bind_pure ((Engine.ofFuel n).mapList (fun form => evaluate n form env) v)) _

/-- A call of `cons` puts an item in front of a list. -/
theorem evaluates_cons (hhidden : ∀ i, hidden i → i < s₀.store.cells.size)
    (hcons : s₀.Defines Builder.cons.symbol (.native (.lists .cons))) {b b' c : Code}
    {cs : List Code} (hb : Evaluates hidden s₀ env b c)
    (hb' : Evaluates hidden s₀ env b' (.list cs)) :
    Evaluates hidden s₀ env (.list [.word (.sym Builder.cons.symbol), b, b'])
      (.list (c :: cs)) := by
  refine evaluates_call hcons (by simp) ⟨fun {args s} hs hv => ?_⟩
  obtain ⟨r, x, d, rfl, hr, hx, hd⟩ := StandsAll.exists_cell hv
  obtain ⟨q, y, e, rfl, hq, hy, rfl⟩ := StandsAll.exists_cell hd
  have hframe : ∀ n k, (Engine.ofFuel n).makeFrame (.native (.lists .cons)) (.pair r)
      (s.withRoom k) = .ok [x, y] (s.withRoom k) := by
    intro n k
    have hchain : (s.withRoom k).store.Chain [x, y] .nil (.pair r) :=
      ⟨r, _, rfl, hr, q, _, rfl, hq, rfl⟩
    exact Engine.makeFrame_of_fixed rfl hchain
  refine .congr (y := fun n => evaluate n x env >>= fun v => evaluate n y env >>= fun w =>
    (Eval.cons v w).onFailure (Native.atBoundary (.lists .cons) [v, w])) ?_
      (.of_forall fun n k => ?_)
  · refine .bind (hb.run hs hx) fun v t ⟨ht, hv⟩ => ?_
    refine .bind (hb'.run (hs.trans ht) ((ht.veil hidden).stands hy)) fun w u ⟨hu, hw⟩ => ?_
    have hgrown := hs.trans (ht.trans hu)
    have hcons : Succeeds (fun _ => Eval.consAll [v] w) u fun p u' =>
        u.Grown u' ∧ StandsAll (u'.store.veil hidden) ([c].reverse ++ cs) p :=
      .consAll (fun i hi => hgrown.lt_size (hhidden i hi))
        (.cons ((hu.veil hidden).stands hv) .nil) hw
    obtain ⟨p, u', hcomes, hu', hp⟩ := hcons
    rw [consAll_cons] at hcomes
    refine ⟨p, u', ?_, (ht.trans hu).trans hu', hp⟩
    refine Comes.onFailure (hcomes.congr (.of_forall fun _ k => ?_))
    rw [bind_apply]
    cases Eval.cons v w (u.withRoom k) <;> rfl
  · have hlazy : (Native.lists .cons).isLazy = true := rfl
    rw [enter_native _ (hframe n k), if_pos hlazy]
    show ((evaluate n x env >>= fun v => evaluate n y env >>= fun w => pure [v, w]) >>= _ :
      Eval Value) _ = _
    simp only [bind_assoc]
    rfl

/-- The lists but the last are copied in front of the last. -/
theorem succeeds_appendAll (hhidden : ∀ i, hidden i → i < s₀.store.cells.size)
    {lists : List (List Code)} {vs done : List Value} {es : List Code} {s : State}
    (hs : s₀.Grown s) (hvs : List.Forall₂ (StandsAll (s.store.veil hidden)) lists vs)
    (hne : lists ≠ []) (hdone : List.Forall₂ (Stands (s.store.veil hidden)) es done) :
    Succeeds (fun n => ListNative.appendAll (Engine.ofFuel n) vs done) s fun w t =>
      s.Grown t ∧ StandsAll (t.store.veil hidden) (es.reverse ++ lists.flatten) w := by
  induction hvs generalizing done es with
  | nil => exact absurd rfl hne
  | @cons cs v lists vs hv hvs ih =>
      cases hvs with
      | nil =>
          have hcons := Succeeds.consAll (fun i hi => hs.lt_size (hhidden i hi)) hdone hv
          exact hcons.mono fun w t h => ⟨h.1, by simpa using h.2⟩
      | @cons cs' v' lists vs hv' hvs =>
          obtain ⟨xs, hchain, hxs⟩ := chain_of_standsAll hv
          refine .read (a := xs.reverse ++ done) ?_ ?_
          · filter_upwards [eventually_ge_atTop xs.length] with n hn k
            exact Engine.mapItems_pure_of_chain ((chain_of_veil hchain).withRoom k) hn
          · have hdone' := List.rel_append (List.rel_reverse hxs) hdone
            refine (ih (by simp) hdone').mono fun w t h => ⟨h.1, ?_⟩
            simpa using h.2

/-- A call of `append` makes one list of several. -/
theorem evaluates_append (hhidden : ∀ i, hidden i → i < s₀.store.cells.size)
    (happend : s₀.Defines Builder.append.symbol (.native (.lists .append))) {bs : List Code}
    {lists : List (List Code)}
    (h : List.Forall₂ (fun b cs => Evaluates hidden s₀ env b (.list cs)) bs lists) :
    Evaluates hidden s₀ env (.list (.word (.sym Builder.append.symbol) :: bs))
      (.list lists.flatten) := by
  refine evaluates_call happend (by simp) ⟨fun {args s} hs hv => ?_⟩
  have hforced : List.Forall₂ (Takes hidden s₀ fun n v => evaluate n v env >>=
      (Engine.ofFuel n).force) bs (lists.map .list) := by
    refine List.forall₂_map_right_iff.2 (h.imp fun b cs hb => ⟨fun {v s} hs hv => ?_⟩)
    refine .bind (hb.run hs hv) fun w t ⟨ht, hw⟩ => .congr (.pure ⟨ht, hw⟩) ?_
    obtain ⟨xs, hchain, -⟩ := chain_of_standsAll hw
    refine .of_forall fun n k => ?_
    rcases hchain.nil_or_pair with rfl | ⟨r, rfl⟩ <;> rfl
  refine .congr (y := fun n => (Engine.ofFuel n).mapList (fun v => evaluate n v env >>=
    (Engine.ofFuel n).force) args >>= fun w => ((Engine.ofFuel n).items w >>= fun vs =>
      ListNative.appendAll (Engine.ofFuel n) vs []).onFailure
        (Native.atBoundary (.lists .append) [w])) ?_ (.of_forall fun n k => ?_)
  · refine .bind ((takes_mapList hhidden hforced).run hs hv) fun w t ⟨ht, hw⟩ => ?_
    obtain ⟨xs, hchain, hxs⟩ := chain_of_standsAll hw
    have hitems : List.Forall₂ (fun cs => (Code.list cs).Stands (t.store.veil hidden)) lists xs :=
      List.forall₂_map_left_iff.1 hxs
    have hlists : List.Forall₂ (StandsAll (t.store.veil hidden)) lists xs := hitems
    have hjoined : Succeeds (fun n => ListNative.appendAll (Engine.ofFuel n) xs []) t
        fun w u => t.Grown u ∧ StandsAll (u.store.veil hidden) lists.flatten w := by
      cases hlists with
      | nil => exact .pure ⟨.refl t, rfl⟩
      | cons hx hrest =>
          exact succeeds_appendAll hhidden (hs.trans ht) (.cons hx hrest) (by simp) .nil
    obtain ⟨a, u, hcomes, hu, ha⟩ := hjoined
    refine ⟨a, u, Comes.onFailure (.read ?_ hcomes), ht.trans hu, ha⟩
    filter_upwards [eventually_ge_atTop xs.length] with n hn k
    exact Engine.items_of_chain ((chain_of_veil hchain).withRoom k) hn
  · have hframe : (Engine.ofFuel n).makeFrame (.native (.lists .append)) args (s.withRoom k) =
        .ok [args] (s.withRoom k) := makeFrame_builder (b := .append) (Engine.ofFuel n) rfl hv k
    rw [enter_native _ hframe]
    have hlazy : ¬ (Native.lists .append).isLazy = true := by decide
    have hslots : (Engine.ofFuel n).forceFrame (Native.lists .append).shape [args] env =
        (Engine.ofFuel n).mapList (fun form => evaluate n form env >>=
          (Engine.ofFuel n).force) args >>= fun w => pure [w] := rfl
    rw [if_neg hlazy, hslots, bind_assoc]
    rfl

/-! ## Expanding calls -/

/-- The frame of a macro call and what its body needs: the natives, the arguments in the slots, and
the quotations. -/
structure Filled (hidden : Nat → Prop) (s₀ : State) (i : Nat) (quotes : Ref .cell → Value → Prop)
    (shape : Shape) (args : List Code) : Prop where
  natives : ∀ b : Builder, s₀.Defines b.symbol (.native (.lists b.native))
  slot : ∀ j < shape.required, ∃ c v, args[j]? = some c ∧
    s₀.frames.lookup? (some i) 0 j = some v ∧ c.Stands (s₀.store.veil hidden) v
  rest : shape.hasRest = true → ∃ v, s₀.frames.lookup? (some i) 0 shape.required = some v ∧
    StandsAll (s₀.store.veil hidden) (args.drop shape.required) v
  quoted : ∀ {r v}, quotes r v → s₀.store.Chain [.sym Symbol.quote, v] .nil (.pair r)

variable {quotes : Ref .cell → Value → Prop} {shape : Shape} {args : List Code} {i : Nat}

/-- What gives a word, does so wherever it is evaluated. -/
theorem evaluates_word {c : Code} {w : Value} (h : ∀ {v : Value} {s : State}, s₀.Grown s →
    c.Stands (s.store.veil hidden) v → ∀ᶠ n in atTop, ∀ k,
      evaluate n v env (s.withRoom k) = .ok w (s.withRoom k)) :
    Evaluates hidden s₀ env c (.word w) :=
  ⟨fun {_ s} hs hv => ⟨w, s, .of_eventually (h hs hv), .refl s, rfl⟩⟩

/-- A parameter gives what is in its slot. -/
theorem evaluates_slot {j : Nat} {x : Symbol} {v : Value} {c : Code}
    (hv : s₀.frames.lookup? (some i) 0 j = some v) (hc : c.Stands (s₀.store.veil hidden) v) :
    Evaluates hidden s₀ (some i) (.word (.address ⟨0, j, x⟩)) c := by
  refine ⟨?_⟩
  rintro _ s hs rfl
  refine ⟨v, s, .of_eventually (eventually_of_succ (.of_forall fun n k => ?_)), .refl s,
    (hs.veil hidden).stands hc⟩
  have hlookup : (s.withRoom k).frames.lookup? (some i) 0 j = some v := hs.lookup? hv
  simp [evaluate, Engine.step, bind_apply, onFailure, Eval.slot?, hlookup]
  rfl

mutual

/-- A piece of the body that makes one item comes to what its pattern is filled with. -/
theorem evaluates_one (hhidden : ∀ i, hidden i → i < s₀.store.cells.size)
    (h : Filled hidden s₀ i quotes shape args) : ∀ {b : Code} {p : Pattern},
    Pattern.One (.compiled quotes shape) b p → ∃ c, p.fill (Pattern.places shape args) = [c] ∧
      Evaluates hidden s₀ (some i) b c
  | _, _, .argument ⟨hj, x, hword⟩ => by
      subst hword
      obtain ⟨c, v, hargs, hv, hc⟩ := h.slot _ hj
      refine ⟨c, ?_, evaluates_slot hv hc⟩
      rw [Pattern.fill, Pattern.places, if_pos hj, hargs]
      rfl
  | _, _, .literal hv _ => by
      refine ⟨_, rfl, evaluates_word ?_⟩
      rintro v s - rfl
      refine eventually_of_succ (.of_forall fun n k => ?_)
      cases v <;> simp [Value.isLiteral] at hv <;> rfl
  | _, _, .symbol ⟨r, hquoted, hr⟩ => by
      subst hquoted
      refine ⟨_, rfl, evaluates_word ?_⟩
      rintro v s hs ⟨rfl, -⟩
      refine eventually_of_succ (.of_forall fun n k => ?_)
      exact Site.evaluate_quote n _ (((h.quoted hr).keeps hs.code.cells).withRoom k)
  | _, _, .items hitems hb => by
      obtain ⟨c, hfill, hc⟩ := Pattern.exists_fill (Pattern.places shape args) hitems
      refine ⟨c, hfill, ⟨fun {v s} hs hv => ?_⟩⟩
      exact ((evaluates_several hhidden h hb).run hs hv).mono fun w t hw =>
        ⟨hw.1, hc _ _ hw.2⟩

/-- A piece of the body that makes a list comes to what its patterns are filled with. -/
theorem evaluates_several (hhidden : ∀ i, hidden i → i < s₀.store.cells.size)
    (h : Filled hidden s₀ i quotes shape args) : ∀ {b : Code} {ps : List Pattern},
    Pattern.Several (.compiled quotes shape) b ps → Evaluates hidden s₀ (some i) b
      (.list (Pattern.fillAll (Pattern.places shape args) ps))
  | _, _, .rest ⟨hrest, hi, x, hword⟩ => by
      subst hi hword
      obtain ⟨v, hv, hstands⟩ := h.rest hrest
      refine evaluates_slot hv ?_
      rw [Pattern.fillAll, Pattern.fill, Pattern.places, if_neg (Nat.lt_irrefl _),
        Pattern.fillAll, List.append_nil]
      exact hstands
  | _, _, .nil => by
      refine ⟨?_⟩
      rintro _ s hs rfl
      exact ⟨.nil, s, .of_eventually (eventually_of_succ (.of_forall fun _ _ => rfl)), .refl s,
        rfl⟩
  | _, _, .list hbs => by
      obtain ⟨cs, hfill, hcs⟩ := evaluates_oneEach hhidden h hbs
      rw [hfill]
      exact evaluates_list hhidden (h.natives .list) hcs
  | _, _, .cons hb hb' => by
      obtain ⟨c, hfill, hc⟩ := evaluates_one hhidden h hb
      rw [Pattern.fillAll, hfill]
      exact evaluates_cons hhidden (h.natives .cons) hc (evaluates_several hhidden h hb')
  | _, _, .append hbs => by
      obtain ⟨lists, hfill, hlists⟩ := evaluates_severalEach hhidden h hbs
      rw [hfill]
      exact evaluates_append hhidden (h.natives .append) hlists

theorem evaluates_oneEach (hhidden : ∀ i, hidden i → i < s₀.store.cells.size)
    (h : Filled hidden s₀ i quotes shape args) : ∀ {bs : List Code} {ps : List Pattern},
    Pattern.OneEach (.compiled quotes shape) bs ps → ∃ cs,
      Pattern.fillAll (Pattern.places shape args) ps = cs ∧
        List.Forall₂ (Evaluates hidden s₀ (some i)) bs cs
  | _, _, .nil => ⟨[], rfl, .nil⟩
  | _, _, .cons hb hbs => by
      obtain ⟨c, hfill, hc⟩ := evaluates_one hhidden h hb
      obtain ⟨cs, hfills, hcs⟩ := evaluates_oneEach hhidden h hbs
      refine ⟨c :: cs, ?_, .cons hc hcs⟩
      rw [Pattern.fillAll, hfill, hfills]
      rfl

theorem evaluates_severalEach (hhidden : ∀ i, hidden i → i < s₀.store.cells.size)
    (h : Filled hidden s₀ i quotes shape args) : ∀ {bs : List Code} {ps : List Pattern},
    Pattern.SeveralEach (.compiled quotes shape) bs ps → ∃ lists : List (List Code),
      Pattern.fillAll (Pattern.places shape args) ps = lists.flatten ∧
        List.Forall₂ (fun b cs => Evaluates hidden s₀ (some i) b (.list cs)) bs lists
  | _, _, .nil => ⟨[], rfl, .nil⟩
  | _, _, .cons hb hbs => by
      obtain ⟨lists, hfills, hlists⟩ := evaluates_severalEach hhidden h hbs
      refine ⟨_ :: lists, ?_, .cons (evaluates_several hhidden h hb) hlists⟩
      rw [Pattern.fillAll_append, hfills, List.flatten_cons]

end

/-- The code of the first arguments, and what follows them. -/
theorem takeItems_of_standsAll {s : State} : ∀ {count : Nat} {v : Value} {args : List Code},
    StandsAll (s.store.veil hidden) args v → count ≤ args.length →
    ∃ vs rest, List.Forall₂ (Stands (s.store.veil hidden)) (args.take count) vs ∧
      StandsAll (s.store.veil hidden) (args.drop count) rest ∧
      ∀ (E : Engine) k done, E.takeItems count v done (s.withRoom k) =
        .ok (some (vs.reverse ++ done, rest)) (s.withRoom k)
  | 0, v, _, hv, _ => ⟨[], v, .nil, hv, fun _ _ _ => rfl⟩
  | _ + 1, _, [], _, hcount => absurd hcount (by simp)
  | count + 1, _, c :: args, hv, hcount => by
      obtain ⟨r, a, d, rfl, hr, ha, hd⟩ := StandsAll.exists_cell hv
      obtain ⟨vs, rest, hvs, hrest, htake⟩ :=
        takeItems_of_standsAll hd (Nat.le_of_succ_le_succ hcount)
      refine ⟨a :: vs, rest, .cons ha hvs, hrest, fun E k done => ?_⟩
      obtain ⟨ws, hchain, -⟩ := chain_of_standsAll hd
      have hforce : E.force d (s.withRoom k) = .ok d (s.withRoom k) := by
        rcases hchain.nil_or_pair with rfl | ⟨q, rfl⟩ <;> rfl
      rw [Engine.takeItems, bind_of_ok (car_apply r _), bind_of_ok (cdr_apply r _),
        show (s.withRoom k).store.car r = a from Store.car_of_cell? hr,
        show (s.withRoom k).store.cdr r = d from Store.cdr_of_cell? hr, bind_of_ok hforce,
        htake E k (a :: done), List.reverse_cons, List.append_assoc]
      rfl

/-- Code that a callable takes is laid out as its frame. -/
theorem makeFrame_of_standsAll {s : State} {v : Value} {f : Callable}
    (hv : StandsAll (s.store.veil hidden) args v) (htakes : f.shape.Takes args.length) :
    ∃ vs rest, List.Forall₂ (Stands (s.store.veil hidden)) (args.take f.shape.required) vs ∧
      StandsAll (s.store.veil hidden) (args.drop f.shape.required) rest ∧
      ∀ (E : Engine) k, E.makeFrame f v (s.withRoom k) =
        .ok (vs ++ if f.shape.hasRest then [rest] else []) (s.withRoom k) := by
  obtain ⟨vs, rest, hvs, hrest, htake⟩ := takeItems_of_standsAll hv htakes.required_le
  refine ⟨vs, rest, hvs, hrest, fun E k => ?_⟩
  rw [Engine.makeFrame, bind_of_ok (htake E k []), List.append_nil]
  unfold Shape.Takes at htakes
  dsimp only
  by_cases hshape : f.shape.hasRest = true
  · obtain ⟨ws, hchain, -⟩ := chain_of_standsAll hrest
    have hlist : (rest.isNil || rest.isPair) = true := by
      rcases hchain.nil_or_pair with rfl | ⟨q, rfl⟩ <;> rfl
    rw [if_pos hshape, if_pos hlist, if_pos hshape]
    simp
  · rw [if_neg hshape] at htakes
    rw [← htakes, List.drop_length] at hrest
    cases hrest
    rw [if_neg hshape, if_neg hshape]
    simp [Value.isNil]

/-- The arguments are in the slots of a new frame that they are laid out as. -/
theorem filled_push {s : State} {vs : List Value} {rest : Value}
    (hnatives : ∀ b : Builder, s.Defines b.symbol (.native (.lists b.native)))
    (hquoted : ∀ {r v}, quotes r v → s.store.Chain [.sym Symbol.quote, v] .nil (.pair r))
    (htakes : shape.Takes args.length)
    (hvs : List.Forall₂ (Stands (s.store.veil hidden)) (args.take shape.required) vs)
    (hrest : StandsAll (s.store.veil hidden) (args.drop shape.required) rest) :
    Filled hidden { s with
      frames := s.frames.push (vs ++ if shape.hasRest then [rest] else []).toArray none }
      s.frames.size quotes shape args := by
  have hlookup : ∀ {slots : List Value} {j w}, slots[j]? = some w →
      (s.frames.push slots.toArray none).lookup? (some s.frames.size) 0 j = some w := by
    intro slots j w hw
    simp [Frames.lookup?, Frames.frameAt?, Frames.push, Frames.size, hw]
  have hlength : vs.length = shape.required := by
    have htake : (args.take shape.required).length = vs.length := hvs.length_eq
    rw [List.length_take, Nat.min_eq_left htakes.required_le] at htake
    exact htake.symm
  refine ⟨hnatives, fun j hj => ?_, fun hshape => ⟨rest, hlookup ?_, hrest⟩, hquoted⟩
  · have hargs : j < args.length := Nat.lt_of_lt_of_le hj htakes.required_le
    have hj' : j < vs.length := hlength ▸ hj
    refine ⟨args[j], vs[j], List.getElem?_eq_getElem hargs, hlookup ?_, ?_⟩
    · rw [List.getElem?_append_left hj', List.getElem?_eq_getElem hj']
    · have hstands := hvs.get (i := j) (by simpa using ⟨hj, hargs⟩) hj'
      simpa using hstands
  · rw [if_pos hshape, ← hlength]
    simp

/-- A body of one form comes to what the form does. -/
theorem Evaluates.sequence {b c : Code} (h : Evaluates hidden s₀ env b c) {v : Value} {s : State}
    (hs : s₀.Grown s) (hv : StandsAll (s.store.veil hidden) [b] v) :
    Succeeds (fun n => (Engine.ofFuel n).sequence v env) s fun w t =>
      s.Grown t ∧ c.Stands (t.store.veil hidden) w := by
  obtain ⟨r, a, _, rfl, hr, ha, rfl⟩ := StandsAll.exists_cell hv
  obtain ⟨w, t, hcomes, ht, hw⟩ := h.run hs ha
  refine ⟨w, t, ?_, ht, hw⟩
  filter_upwards [hcomes, (eventually_gt_atTop 0).prod_inl atTop] with q hq hn
  obtain ⟨m, hm⟩ : ∃ m, q.1 = m + 1 := Nat.exists_eq_succ_of_ne_zero (Nat.ne_zero_of_lt hn)
  have heval : (Engine.ofFuel q.1).eval a env (s.withRoom q.2) = .ok w (t.withRoom q.2) := hq
  have hnil : StandsAll (t.store.veil hidden) [] .nil := rfl
  have hfuel : (Engine.ofFuel q.1).fuel = m + 1 := hm
  rw [Engine.sequence, hfuel, Engine.sequenceWithin, bind_of_ok (car_apply r _),
    show (s.withRoom q.2).store.car r = a from Store.car_of_cell? hr, bind_of_ok heval,
    bind_of_ok (cdrCell_of_standsAll _ (ht.code.cells r _ hr) hnil q.2)]
  cases m <;> rfl

/-- Expanding a call fills the pattern with the code of the arguments. -/
theorem takes_expandCall (hhidden : ∀ i, hidden i → i < s₀.store.cells.size)
    (hnatives : ∀ b : Builder, s₀.Defines b.symbol (.native (.lists b.native)))
    (hquoted : ∀ {r v}, quotes r v → s₀.store.Chain [.sym Symbol.quote, v] .nil (.pair r))
    {b c : Code} {body : Value} {p : Pattern} (hbody : StandsAll (s₀.store.veil hidden) [b] body)
    (hb : Pattern.One (.compiled quotes shape) b p) (htakes : shape.Takes args.length)
    (hc : p.fill (Pattern.places shape args) = [c]) :
    Takes hidden s₀ (fun n v => (Engine.ofFuel n).expandCall (.expander shape body) body v)
      (.list args) c := by
  refine ⟨fun {v s} hs hv => ?_⟩
  obtain ⟨vs, rest, hvs, hrest, hframe⟩ :=
    makeFrame_of_standsAll (f := .expander shape body) hv htakes
  let slots := vs ++ if shape.hasRest then [rest] else []
  have hlaid : ∀ (E : Engine) k, E.makeFrame (.expander shape body) v (s.withRoom k) =
      .ok slots (s.withRoom k) := hframe
  let t : State := { s with frames := s.frames.push slots.toArray none }
  have hst : s.Grown t := .pushFrame s slots.toArray none
  have hfilled : Filled hidden t s.frames.size quotes shape args :=
    filled_push (fun b => hs.defines (by simp) (hnatives b))
      (fun hr => (hquoted hr).keeps hs.code.cells) htakes hvs hrest
  obtain ⟨c', hfill, hc'⟩ := evaluates_one (fun i hi => (hs.trans hst).lt_size (hhidden i hi))
    hfilled hb
  rw [hc, List.singleton_inj] at hfill
  subst hfill
  obtain ⟨w, u, hcomes, hu, hw⟩ :=
    hc'.sequence (.refl t) (((hs.trans hst).veil hidden).standsAll hbody)
  refine ⟨w, u, ?_, hst.trans hu, hw⟩
  filter_upwards [hcomes] with q hq
  have hextend : extend slots none (s.withRoom q.2) =
      .ok (some s.frames.size) (t.withRoom q.2) := rfl
  rw [Engine.expandCall, bind_of_ok (hlaid (Engine.ofFuel q.1) q.2), bind_of_ok hextend]
  exact hq

end Code

end SmallLisp
