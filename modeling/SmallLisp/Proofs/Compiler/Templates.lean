import SmallLisp.Proofs.Compiler.Filling

/-!
# Defining lambdas and macros

Evaluating a lambda succeeds if the passes do, and makes a closure of what they come to. Evaluating
a macro whose body only fills a pattern always succeeds: the text is copied, its parameters are
resolved, and nothing else in it changes.
-/

namespace SmallLisp

open Eval Code Scope Filter

variable {hidden : Nat → Prop} {s₀ : State} {s t : State} {v w : Value}

/-- What is made is a new callable with the code as its body; otherwise the state has only grown. -/
def State.Makes (hidden : Nat → Prop) (s : State) (kind : CallableKind) (shape : Shape)
    (ds : List Code) (w : Value) (t : State) : Prop :=
  ∃ b s₁, s.Grown s₁ ∧ StandsAll (s₁.store.veil hidden) ds b ∧
    w = .callable ⟨s₁.store.callables.size⟩ ∧
    t = s₁.mapStore fun store => (store.newCallable (kind.make shape b)).2

/-! ## Lambdas -/

namespace Code

mutual

/-- Text of words and lists in which no name is private to a macro. -/
def Plain (symbols : SymbolTable) : Code → Prop
  | .word v => v.isPair = false ∧ ∀ x, v = .sym x → symbols.isDummy x = false
  | .list items => PlainAll symbols items
  | _ => False

def PlainAll (symbols : SymbolTable) : List Code → Prop
  | [] => True
  | c :: cs => Plain symbols c ∧ PlainAll symbols cs

end

mutual

/-- Text without private names is copied as it is. -/
theorem succeeds_replaceWithin (hhidden : ∀ i, hidden i → i < s₀.store.cells.size) :
    ∀ (c : Code) {j : Nat → Nat}, Tendsto j atTop atTop → c.Plain s₀.symbols →
      ∀ {v : Value} {s : State}, s₀.Grown s → c.Stands (s.store.veil hidden) v →
        Succeeds (fun n => (Engine.ofFuel n).replaceWithin (j n) v []) s fun out t =>
          out.2 = [] ∧ s.Grown t ∧ c.Stands (t.store.veil hidden) out.1
  | .word u, j, _, hc, _, s, hs, hv => by
      cases hv
      refine .congr (.pure (a := (u, [])) ⟨rfl, .refl s, rfl⟩) (.of_forall fun n k => ?_)
      cases u with
      | sym x =>
          have hdummy : gets (fun s => s.symbols.isDummy x) (s.withRoom k) =
              .ok false (s.withRoom k) := by
            rw [gets_apply]
            show Outcome.ok (s.symbols.isDummy x) _ = _
            rw [hs.symbols, hc.2 x rfl]
          have hunfold : (Engine.ofFuel n).replaceWithin (j n) (.sym x) [] =
              gets (fun s => s.symbols.isDummy x) >>= fun b =>
                if b then Engine.dummyFor x [] else pure (.sym x, []) := by
            cases j n <;> rfl
          rw [hunfold, bind_of_ok hdummy]
          rfl
      | pair r => cases hc.1
      | _ => cases j n <;> rfl
  | .list [], j, _, _, _, s, _, hv => by
      cases hv
      exact .congr (.pure (a := ((.nil : Value), [])) ⟨rfl, .refl s, rfl⟩)
        (.of_forall fun n k => by cases j n <;> rfl)
  | .list (c :: cs), j, hj, hc, v, s, hs, hv => by
      have hitems := succeeds_replaceItems hhidden (c :: cs) (tendsto_pred hj) hc hs hv
        (.nil : List.Forall₂ (Stands (s.store.veil hidden)) [] [])
      obtain ⟨r, -, -, rfl, -⟩ := id hv
      refine .congr (y := fun n =>
        (Engine.ofFuel n).replaceItems (j n - 1) (.pair r) [] [] >>= fun out =>
          Eval.consAll out.1 .nil >>= fun w => pure (w, out.2)) ?_ ?_
      · refine .bind hitems fun out t ⟨hnames, ht, hout⟩ => ?_
        rw [List.append_nil] at hout
        have hnil : StandsAll (t.store.veil hidden) [] .nil := rfl
        refine .bind (Succeeds.consAll (fun i hi => (hs.trans ht).lt_size (hhidden i hi)) hout
          hnil) fun w u ⟨hu, hw⟩ => ?_
        rw [List.reverse_reverse, List.append_nil] at hw
        exact .pure ⟨hnames, ht.trans hu, hw⟩
      · filter_upwards [hj.eventually_ge_atTop 1] with n hn k
        have hsucc : j n = j n - 1 + 1 := (Nat.sub_add_cancel hn).symm
        rw [hsucc, Engine.replaceWithin, Nat.add_sub_cancel]
  | .quoted _, _, _, hc, _, _, _, _ => hc.elim
  | .lambda _ _, _, _, hc, _, _, _, _ => hc.elim
  | .expander _, _, _, hc, _, _, _, _ => hc.elim
  | .template _ _, _, _, hc, _, _, _, _ => hc.elim

theorem succeeds_replaceItems (hhidden : ∀ i, hidden i → i < s₀.store.cells.size) :
    ∀ (cs : List Code) {j : Nat → Nat}, Tendsto j atTop atTop → PlainAll s₀.symbols cs →
      ∀ {v : Value} {s : State} {done : List Value} {es : List Code}, s₀.Grown s →
        StandsAll (s.store.veil hidden) cs v →
        List.Forall₂ (Stands (s.store.veil hidden)) es done →
        Succeeds (fun n => (Engine.ofFuel n).replaceItems (j n) v done []) s fun out t =>
          out.2 = [] ∧ s.Grown t ∧
            List.Forall₂ (Stands (t.store.veil hidden)) (cs.reverse ++ es) out.1
  | [], j, _, _, _, s, done, _, _, hv, hdone => by
      cases hv
      exact .congr (.pure (a := (done, [])) ⟨rfl, .refl s, hdone⟩)
        (.of_forall fun n k => by cases j n <;> rfl)
  | c :: cs, j, hj, hc, v, s, done, es, hs, hv, hdone => by
      obtain ⟨r, a, d, rfl, hr, ha, hd⟩ := StandsAll.exists_cell hv
      refine .congr (y := fun n =>
        (Engine.ofFuel n).replaceWithin (j n - 1) a [] >>= fun out =>
          (Engine.ofFuel n).cdrCell r >>= fun next =>
            (Engine.ofFuel n).replaceItems (j n - 1) next (out.1 :: done) out.2) ?_ ?_
      · refine .bind (succeeds_replaceWithin hhidden c (tendsto_pred hj) hc.1 hs ha)
          fun out t ⟨hnames, ht, hout⟩ => ?_
        have hd' := (ht.veil hidden).standsAll hd
        refine .read (.of_forall fun n k => cdrCell_of_standsAll _ (ht.code.cells r _ hr) hd' k) ?_
        rw [hnames]
        have hdone' : List.Forall₂ (Stands (t.store.veil hidden)) (c :: es) (out.1 :: done) :=
          .cons hout (hdone.imp fun _ _ => (ht.veil hidden).stands)
        refine (succeeds_replaceItems hhidden cs (tendsto_pred hj) hc.2 (hs.trans ht) hd'
          hdone').mono fun out' u h => ⟨h.1, ht.trans h.2.1, ?_⟩
        rw [List.reverse_cons, List.append_assoc]
        exact h.2.2
      · filter_upwards [hj.eventually_ge_atTop 1] with n hn k
        have hsucc : j n = j n - 1 + 1 := (Nat.sub_add_cancel hn).symm
        rw [hsucc, Engine.replaceItems, bind_of_ok (car_apply r _),
          show (s.withRoom k).store.car r = a from Store.car_of_cell? hr, Nat.add_sub_cancel]

end

end Code

/-! ## From the text of a macro to its body -/

/-- In the text of a body, arguments are written as parameters, and quotations as lists. -/
def Pattern.Reading.text (symbols : SymbolTable) (ps : Parameters) : Reading where
  argument i v := i < ps.shape.required ∧ ∃ y x, v = .sym y ∧ symbols.isKeyword y = false ∧
    ps.scan v = .address ⟨0, i, x⟩
  rest i v := ps.shape.hasRest = true ∧ i = ps.shape.required ∧ ∃ y x, v = .sym y ∧
    symbols.isKeyword y = false ∧ ps.scan v = .address ⟨0, i, x⟩
  quotes c x := c = .list [.word (.sym Symbol.quote), .word (.sym x)]

namespace Code

/-- The value stands for code that the passes do no more with than to resolve its words. -/
structure Resolved (store : Store) (symbols : SymbolTable) (name : Ref .dummy → Symbol)
    (free : Symbol → Prop) (ps : Parameters) (c : Code) (v : Value) : Prop where
  stands : c.Stands store v
  tidy : c.Tidy symbols fun _ => True
  compiles : Compiles symbols name free (fun _ => none) (c.mapWords ps.scan) (c.mapWords ps.scan)

/-- The value is a list of what stands for such code. -/
structure ResolvedAll (store : Store) (symbols : SymbolTable) (name : Ref .dummy → Symbol)
    (free : Symbol → Prop) (ps : Parameters) (cs : List Code) (v : Value) : Prop where
  stands : StandsAll store cs v
  tidy : TidyAll symbols (fun _ => True) cs
  compiles : CompilesAll symbols name free (fun _ => none) (mapAll ps.scan cs)
    (mapAll ps.scan cs)

variable {store : Store} {symbols : SymbolTable} {name : Ref .dummy → Symbol}
  {free : Symbol → Prop} {ps : Parameters}

theorem ResolvedAll.nil : ResolvedAll store symbols name free ps [] .nil := ⟨rfl, trivial, .nil⟩

theorem ResolvedAll.cons {c : Code} {cs : List Code} {r : Ref .cell} {a d : Value}
    (hr : store.cell? r = some ⟨a, d⟩) (h : Resolved store symbols name free ps c a)
    (hs : ResolvedAll store symbols name free ps cs d) :
    ResolvedAll store symbols name free ps (c :: cs) (.pair r) :=
  ⟨⟨r, a, d, rfl, hr, h.stands, hs.stands⟩, ⟨h.tidy, hs.tidy⟩, .cons h.compiles hs.compiles⟩

theorem ResolvedAll.list {c : Code} {cs : List Code}
    (h : ResolvedAll store symbols name free ps (c :: cs) v) :
    Resolved store symbols name free ps (.list (c :: cs)) v :=
  ⟨h.stands, ⟨List.cons_ne_nil _ _, h.tidy⟩, .list (List.cons_ne_nil _ _) rfl h.compiles⟩

/-- A parameter is resolved to its slot. -/
theorem resolved_address {y : Symbol} {a : Address} (hy : symbols.isKeyword y = false)
    (ha : ps.scan (.sym y) = .address a) :
    Resolved store symbols name free ps (.word (.sym y)) (.sym y) := by
  refine ⟨rfl, ⟨Ordinary.sym hy, fun _ _ => trivial, nofun⟩, ?_⟩
  rw [mapWords, ha]
  exact .word ⟨⟨rfl, rfl⟩, nofun, nofun⟩

theorem resolved_literal {u : Value} (hu : u.isLiteral = true) (hdummy : ∀ r, u ≠ .dummy r) :
    Resolved store symbols name free ps (.word u) u ∧ ps.scan u = u := by
  have hscan : ps.scan u = u := by
    cases u with
    | dummy r => exact absurd rfl (hdummy r)
    | _ => first | rfl | cases hu
  have hfitting : ∀ free : Symbol → Prop, Fitting free u := by
    intro free
    cases u with
    | sym _ | pair _ | address _ | callable _ | promise _ => cases hu
    | _ => exact ⟨⟨rfl, rfl⟩, nofun, nofun⟩
  refine ⟨⟨rfl, hfitting _, ?_⟩, hscan⟩
  rw [mapWords, hscan]
  exact .word (hfitting free)

/-- The natives that make lists keep their names. -/
structure KeepsNames (symbols : SymbolTable) (free : Symbol → Prop) (ps : Parameters) : Prop where
  keyword : ∀ b : Builder, symbols.isKeyword b.symbol = false
  free : ∀ b : Builder, free b.symbol
  scan : ∀ b : Builder, ps.scan (.sym b.symbol) = .sym b.symbol

theorem KeepsNames.resolved (h : KeepsNames symbols free ps) (b : Builder) :
    Resolved store symbols name free ps (.word (.sym b.symbol)) (.sym b.symbol) := by
  have hordinary := Ordinary.sym (h.keyword b)
  refine ⟨rfl, ⟨hordinary, fun _ _ => trivial, nofun⟩, ?_⟩
  rw [mapWords, h.scan]
  refine .word ⟨hordinary, fun x hx => ?_, nofun⟩
  cases hx
  exact h.free b

/-- The quotations of a body that is compiled. -/
abbrev Quotes (store : Store) (r : Ref .cell) (v : Value) : Prop :=
  store.Chain [.sym Symbol.quote, v] .nil (.pair r)

mutual

/-- Text that makes one item is resolved to a body that makes the same. -/
theorem one_of_text (hb : KeepsNames symbols free ps) : ∀ {c : Code} {p : Pattern},
    Pattern.One (.text symbols ps) c p → ∀ {v : Value}, c.Stands store v →
      ∃ d, Resolved store symbols name free ps d v ∧
        Pattern.One (.compiled (Quotes store) ps.shape) (d.mapWords ps.scan) p
  | _, _, .argument ⟨hi, y, x, hword, hkey, hscan⟩, v, hv => by
      subst hword
      cases hv
      refine ⟨_, resolved_address hkey hscan, ?_⟩
      rw [mapWords, hscan]
      exact .argument ⟨hi, x, rfl⟩
  | _, _, .literal hu hdummy, v, hv => by
      cases hv
      obtain ⟨hresolved, hscan⟩ := resolved_literal hu hdummy
      refine ⟨_, hresolved, ?_⟩
      rw [mapWords, hscan]
      exact .literal hu hdummy
  | _, _, .symbol hquote, v, hv => by
      cases hquote
      obtain ⟨r, _, d, hpair, hr, rfl, q, _, _, rfl, hq, rfl, rfl⟩ := hv
      subst hpair
      exact ⟨.quoted (.cell r), ⟨⟨rfl, _, hr⟩, trivial, .quoted _⟩,
        .symbol ⟨r, rfl, r, _, rfl, hr, q, _, rfl, hq, rfl⟩⟩
  | _, _, .items hps h, v, hv => by
      obtain ⟨d, hd, hone⟩ := several_of_text hb h hv
      exact ⟨d, hd, .items hps hone⟩

/-- Text that makes a list is resolved to a body that makes the same. -/
theorem several_of_text (hb : KeepsNames symbols free ps) : ∀ {c : Code} {qs : List Pattern},
    Pattern.Several (.text symbols ps) c qs → ∀ {v : Value}, c.Stands store v →
      ∃ d, Resolved store symbols name free ps d v ∧
        Pattern.Several (.compiled (Quotes store) ps.shape) (d.mapWords ps.scan) qs
  | _, _, .rest ⟨hrest, hi, y, x, hword, hkey, hscan⟩, v, hv => by
      subst hword
      cases hv
      refine ⟨_, resolved_address hkey hscan, ?_⟩
      rw [mapWords, hscan]
      exact .rest ⟨hrest, hi, x, rfl⟩
  | _, _, .nil, v, hv => by
      cases hv
      exact ⟨_, (resolved_literal (u := .nil) rfl nofun).1, .nil⟩
  | _, _, .list h, v, hv => by
      obtain ⟨r, _, d, rfl, hr, rfl, hd⟩ := hv
      obtain ⟨ds, hds, heach⟩ := oneEach_of_text hb h hd
      refine ⟨_, (hds.cons hr (hb.resolved .list)).list, ?_⟩
      rw [mapWords, mapAll, mapWords, hb.scan]
      exact .list heach
  | _, _, .cons h h', v, hv => by
      obtain ⟨r, _, d, rfl, hr, rfl, q, a, e, rfl, hq, ha, q', a', _, rfl, hq', ha', rfl⟩ := hv
      obtain ⟨c, hc, hone⟩ := one_of_text hb h ha
      obtain ⟨c', hc', hseveral⟩ := several_of_text hb h' ha'
      have hlist := ((ResolvedAll.nil.cons hq' hc').cons hq hc).cons hr (hb.resolved .cons)
      refine ⟨_, hlist.list, ?_⟩
      rw [mapWords, mapAll, mapWords, hb.scan]
      exact .cons hone hseveral
  | _, _, .append h, v, hv => by
      obtain ⟨r, _, d, rfl, hr, rfl, hd⟩ := hv
      obtain ⟨ds, hds, heach⟩ := severalEach_of_text hb h hd
      refine ⟨_, (hds.cons hr (hb.resolved .append)).list, ?_⟩
      rw [mapWords, mapAll, mapWords, hb.scan]
      exact .append heach

theorem oneEach_of_text (hb : KeepsNames symbols free ps) : ∀ {cs : List Code} {qs : List Pattern},
    Pattern.OneEach (.text symbols ps) cs qs → ∀ {v : Value}, StandsAll store cs v →
      ∃ ds, ResolvedAll store symbols name free ps ds v ∧
        Pattern.OneEach (.compiled (Quotes store) ps.shape) (mapAll ps.scan ds) qs
  | _, _, .nil, v, hv => by
      cases hv
      exact ⟨[], .nil, .nil⟩
  | _, _, .cons h hs, v, hv => by
      obtain ⟨r, a, e, rfl, hr, ha, he⟩ := hv
      obtain ⟨d, hd, hone⟩ := one_of_text hb h ha
      obtain ⟨ds, hds, heach⟩ := oneEach_of_text hb hs he
      exact ⟨d :: ds, hds.cons hr hd, .cons hone heach⟩

theorem severalEach_of_text (hb : KeepsNames symbols free ps) :
    ∀ {cs : List Code} {qs : List Pattern},
      Pattern.SeveralEach (.text symbols ps) cs qs → ∀ {v : Value}, StandsAll store cs v →
        ∃ ds, ResolvedAll store symbols name free ps ds v ∧
          Pattern.SeveralEach (.compiled (Quotes store) ps.shape) (mapAll ps.scan ds) qs
  | _, _, .nil, v, hv => by
      cases hv
      exact ⟨[], .nil, .nil⟩
  | _, _, .cons h hs, v, hv => by
      obtain ⟨r, a, e, rfl, hr, ha, he⟩ := hv
      obtain ⟨d, hd, hseveral⟩ := several_of_text hb h ha
      obtain ⟨ds, hds, heach⟩ := severalEach_of_text hb hs he
      exact ⟨d :: ds, hds.cons hr hd, .cons hseveral heach⟩

end

/-! ## Macros -/

end Code

end SmallLisp
