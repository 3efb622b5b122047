import SmallLisp.Proofs.Compiler.Expanded
import SmallLisp.Proofs.Compiler.Scanning

/-!
# Macros expand once

Text without calls of macros is expanded to itself, but for new cells. When a call in it is
evaluated later, its head can come to denote a macro only by way of its value: macros are values
like others, which variables can hold and forms can give.
-/

namespace SmallLisp

open Eval

/-! ## Copies -/

/-- The second value is the first, but for the cells of its lists. -/
inductive Store.Copied (store : Store) : Value → Value → Prop
  | same (v : Value) : Copied store v v
  | list {xs ys : List Value} {v w : Value} : store.Chain xs .nil v → store.Chain ys .nil w →
      xs.length = ys.length → (∀ e ∈ xs.zip ys, Copied store e.1 e.2) → Copied store v w

theorem Store.Copied.keeps {a b : Store} {v w : Value} (hk : a.KeepsCells b)
    (h : a.Copied v w) : b.Copied v w := by
  induction h with
  | same v => exact .same v
  | list hv hw hlen _ ih => exact .list (hv.keeps hk) (hw.keeps hk) hlen ih

/-- Cells were added, at most `count` of them, and nothing else has changed. -/
structure State.AddsCells (s : State) (count : Nat) (t : State) : Prop where
  store : s.store.AddsCells t.store
  rest : t = { s with store := t.store }
  room : s.store.room ≤ t.store.room + count

namespace State.AddsCells

variable {s t u : State} {m n : Nat}

theorem refl (s : State) (n : Nat) : s.AddsCells n s := ⟨.refl _, rfl, Nat.le_add_right _ _⟩

theorem trans (h : s.AddsCells m t) (h' : t.AddsCells n u) : s.AddsCells (m + n) u where
  store := h.store.trans h'.store
  rest := by
    have hrest := h'.rest
    rw [h.rest] at hrest
    exact hrest
  room := by
    have hs := h.room
    have ht := h'.room
    omega

theorem mono (h : s.AddsCells m t) (hmn : m ≤ n) : s.AddsCells n t :=
  ⟨h.store, h.rest, Nat.le_trans h.room (by omega)⟩

theorem spares (h : s.AddsCells n t) : s.Spares t := .of_addsCells h.store h.rest

end State.AddsCells

/-- A list for which there is room is built. -/
theorem Eval.consAll_of_room (reversed : List Value) (tail : Value) {s : State}
    (hroom : reversed.length ≤ s.store.room) :
    ∃ w t, consAll reversed tail s = .ok w t ∧ s.AddsCells reversed.length t ∧
      t.store.Chain reversed.reverse tail w := by
  obtain ⟨w, store, hlist, hsize⟩ := Store.exists_consAll reversed tail hroom
  obtain ⟨hadd, hchain⟩ := Store.consAll_eq_some hlist
  have hcapacity : store.capacity = s.store.capacity := by rw [hadd.rest]
  refine ⟨w, { s with store }, ?_, ⟨hadd, rfl, ?_⟩, hchain⟩
  · simp only [consAll, allocCells, hlist]
  · simp only [Store.room, hsize, hcapacity]
    omega

/-! ## Expanding what was expanded -/

namespace Engine

variable {s₀ t : State} {c c' f f' : Nat} {v : Value}

/-- Expanding the value again gives a copy of it, in every later state with room for `c` cells and
with fuel `f` or more. -/
def ExpandsToCopy (s₀ t : State) (c f : Nat) (v : Value) : Prop :=
  ∀ (E : Engine) (k allowed : Nat) (u : State), t.store.KeepsText u.store →
    (∀ x, u.expander? x = s₀.expander? x) → f ≤ E.fuel → f ≤ k → c ≤ u.store.room →
    ∃ w u', E.expandMacros k allowed v u = .ok w u' ∧ u.AddsCells c u' ∧ u'.store.Copied v w

theorem ExpandsToCopy.mono (h : ExpandsToCopy s₀ t c f v) (hc : c ≤ c') (hf : f ≤ f') :
    ExpandsToCopy s₀ t c' f' v := by
  intro E k allowed u ht hmacros hE hk hroom
  obtain ⟨w, u', hw, hu', hcopied⟩ := h E k allowed u ht hmacros (by omega) (by omega) (by omega)
  exact ⟨w, u', hw, hu'.mono hc, hcopied⟩

theorem expandsToCopy_word (hv : v.isPair = false) : ExpandsToCopy s₀ t 0 0 v := by
  intro E k allowed u _ _ _ _ _
  rw [expandMacros_word E hv]
  exact ⟨v, u, rfl, .refl u 0, .same v⟩

/-- Room and fuel that are enough for each of some values. -/
theorem exists_forall_expandsToCopy {xs : List Value}
    (h : ∀ x ∈ xs, ∃ c f, ExpandsToCopy s₀ t c f x) :
    ∃ c f, ∀ x ∈ xs, ExpandsToCopy s₀ t c f x := by
  induction xs with
  | nil => exact ⟨0, 0, by simp⟩
  | cons x xs ih =>
      obtain ⟨c, f, hx⟩ := h x (by simp)
      obtain ⟨c', f', hxs⟩ := ih fun y hy => h y (by simp [hy])
      refine ⟨c + c', f + f', fun y hy => ?_⟩
      rcases List.mem_cons.1 hy with rfl | hy
      · exact hx.mono (by omega) (by omega)
      · exact (hxs y hy).mono (by omega) (by omega)

theorem mapItems_copies {E : Engine} {k allowed : Nat} {xs : List Value}
    (hxs : ∀ x ∈ xs, ExpandsToCopy s₀ t c f x) (hE : f ≤ E.fuel) (hk : f ≤ k) {j : Nat}
    (hj : xs.length ≤ j) (done : List Value) {u : State} (ht : t.store.KeepsText u.store)
    (hmacros : ∀ x, u.expander? x = s₀.expander? x) (hv : u.store.Chain xs .nil v)
    (hroom : xs.length * c ≤ u.store.room) :
    ∃ ys u', E.mapItems (E.expandMacros k allowed) j v done u = .ok (ys.reverse ++ done) u' ∧
      u.AddsCells (xs.length * c) u' ∧ List.Forall₂ u'.store.Copied xs ys := by
  induction xs generalizing j v done u with
  | nil =>
      cases hv
      exact ⟨[], u, by rw [mapItems]; rfl, .refl u _, .nil⟩
  | cons x xs ih =>
      obtain ⟨r, d, rfl, hr, hd⟩ := hv
      rw [List.length_cons, Nat.add_one_mul] at hroom
      rw [List.length_cons] at hj
      obtain ⟨j, rfl⟩ : ∃ i, j = i + 1 := ⟨j - 1, by omega⟩
      obtain ⟨y, u₁, hy, hu₁, hxy⟩ := hxs x (by simp) E k allowed u ht hmacros hE hk (by omega)
      have hr₁ := hu₁.store.keeps r _ hr
      have hd₁ := hd.keeps hu₁.store.keeps
      obtain ⟨ys, u₂, hys, hu₂, hall⟩ := ih
        (fun z hz => hxs z (by simp [hz])) (j := j) (by omega) (y :: done)
        (ht.trans hu₁.spares.text) (fun x => (hu₁.spares.macros x).trans (hmacros x)) hd₁
        (by have := hu₁.room; omega)
      refine ⟨y :: ys, u₂, ?_, (hu₁.trans hu₂).mono ?_, .cons (hxy.keeps hu₂.store.keeps) hall⟩
      · rw [mapItems, bind_of_ok (car_apply r u), Store.car_of_cell? hr, bind_of_ok hy,
          bind_of_ok (E.cdrCell_of_list hr₁ hd₁), hys]
        simp
      · rw [List.length_cons, Nat.add_one_mul]
        omega

/-- A list of items that are expanded to copies is expanded to a copy, if its head denotes no
macro. -/
theorem expandsToCopy_list {x : Value} {xs : List Value} (hv : t.store.Chain (x :: xs) .nil v)
    (hx : ¬ s₀.Expands x) (hxs : ∀ y ∈ x :: xs, ExpandsToCopy s₀ t c f y) :
    ExpandsToCopy s₀ t ((x :: xs).length * c + (x :: xs).length) (f + (x :: xs).length) v := by
  intro E k allowed u ht hmacros hE hk hroom
  have hu := ht.chain hv
  obtain ⟨r, d, rfl, hr, hd⟩ := hu
  obtain ⟨k, rfl⟩ : ∃ i, k = i + 1 := ⟨k - 1, by simp at hk; omega⟩
  rw [expandMacros, bind_of_ok (car_apply r u), Store.car_of_cell? hr]
  cases hleft : isLeftAlone x with
  | true => exact ⟨.pair r, u, rfl, .refl u _, .same _⟩
  | false =>
      have hnone : u.expander? x = none := by rw [hmacros, State.expander?_eq_none.2 hx]
      simp only [Bool.false_eq_true, if_false]
      rw [bind_of_ok (expander?_apply x u), hnone]
      have hlength : (x :: xs).length = xs.length + 1 := List.length_cons
      have hfuel : f ≤ E.fuel ∧ f ≤ k ∧ (x :: xs).length ≤ E.fuel := by omega
      obtain ⟨ys, u₁, hys, hu₁, hall⟩ : ∃ ys u₁, E.mapItems (E.expandMacros k allowed) E.fuel
          (.pair r) [] u = .ok (ys.reverse ++ []) u₁ ∧ u.AddsCells ((x :: xs).length * c) u₁ ∧
          List.Forall₂ u₁.store.Copied (x :: xs) ys :=
        mapItems_copies hxs hfuel.1 hfuel.2.1 hfuel.2.2 [] ht hmacros (ht.chain hv) (by omega)
      have hlen := hall.length_eq
      obtain ⟨w, u₂, hw, hu₂, hchain⟩ := consAll_of_room ys.reverse .nil (s := u₁) (by
        have := hu₁.room
        rw [List.length_reverse, ← hlen]
        omega)
      rw [List.reverse_reverse] at hchain
      rw [List.length_reverse, ← hlen] at hu₂
      refine ⟨w, u₂, ?_, hu₁.trans hu₂, ?_⟩
      · rw [List.append_nil] at hys
        exact (bind_of_ok hys).trans hw
      · have hkeeps := hu₂.store.keeps
        refine .list ((ht.chain hv).keeps (hu₁.store.keeps.trans hkeeps)) hchain hlen fun e he => ?_
        exact ((List.forall₂_iff_zip.1 hall).2 he).keeps hkeeps

theorem expandsToCopy_leftAlone {r : Ref .cell} {x d : Value}
    (hr : t.store.cell? r = some ⟨x, d⟩) (hx : isLeftAlone x = true) :
    ExpandsToCopy s₀ t 0 1 (.pair r) := by
  intro E k allowed u ht _ _ hk _
  obtain ⟨d', hu, -⟩ := ht.cells r _ hr
  obtain ⟨k, rfl⟩ : ∃ i, k = i + 1 := ⟨k - 1, by omega⟩
  rw [expandMacros, bind_of_ok (car_apply r u), Store.car_of_cell? hu, if_pos hx]
  exact ⟨.pair r, u, rfl, .refl u 0, .same _⟩

/-- Text without calls of macros is expanded to a copy. -/
theorem exists_expandsToCopy {Excepted : Stage → Value → Value → Prop} {Found : Value → Prop}
    (hexcept : ∀ w x, Excepted .expanded w x → ¬ s₀.Expands x)
    (h : t.store.Expanded s₀ .expanded Excepted Found v) : ∃ c f, ExpandsToCopy s₀ t c f v := by
  induction h with
  | word hv _ => exact ⟨0, 0, expandsToCopy_word hv⟩
  | template hstage _ _ => cases hstage
  | aside hr hx => exact ⟨0, 1, expandsToCopy_leftAlone hr hx⟩
  | list hv hx _ ih =>
      obtain ⟨c, f, hall⟩ := exists_forall_expandsToCopy ih
      exact ⟨_, _, expandsToCopy_list hv (fun hexpands => hexcept _ _ (hx hexpands) hexpands) hall⟩

/-! ## Calls in later evaluations -/

/-- A turn of a call with this head finds a macro: the value of the head, forced, is one. -/
def CallsMacro (E : Engine) (head : Value) (env : Env) (s : State) : Prop :=
  ∃ r t, (E.eval head env >>= E.force) s = .ok (.callable r) t ∧ t.Expands (.callable r)

/-- Such a turn expands the call, to go on with what it is expanded to. -/
theorem callStep_of_callsMacro {E : Engine} {head args : Value} {env : Env} {s : State}
    (h : E.CallsMacro head env s) : ∃ f body u, E.callStep head args env s =
      (E.expandCall f body args >>= fun form => pure (.next form env)) u := by
  obtain ⟨r, t, hcallee, shape, body, hr⟩ := h
  obtain ⟨v, u, hv, hforce⟩ := bind_eq_ok.1 hcallee
  refine ⟨.expander shape body, body, t, ?_⟩
  rw [callStep, bind_of_ok hv, bind_of_ok hforce]
  simp only [bind_of_ok (gets_apply _ t), hr]

end Engine

/-- The head is a promise, or the name of one. -/
def State.Promised (s : State) : Value → Prop
  | .sym x => ∃ p, s.global? x = some (.promise p)
  | .promise _ => True
  | _ => False

namespace Engine

/-- A form whose turn is to compute a value has that value. -/
theorem eq_ok_of_step {n : Nat} {form x : Value} {env : Env} {s t : State} {e : Eval Value}
    (hstep : (Engine.ofFuel n).step form env s = (e >>= fun v => pure (.done v)) s)
    (h : evaluate (n + 1) form env s = .ok x t) : e s = .ok x t := by
  rw [evaluate, bind_eq_ok] at h
  obtain ⟨next, s₁, hturn, h⟩ := h
  have hnext : (e >>= fun v => pure (.done v)) s = .ok next s₁ := by
    rw [← hstep]
    unfold onFailure at hturn
    split at hturn
    · rename_i hok
      cases hturn
      exact hok
    · cases hturn
    · cases hturn
  rw [bind_eq_ok] at hnext
  obtain ⟨v, s₂, he, hdone⟩ := hnext
  cases hdone
  cases h
  exact he

/-- The value of a name is what it is bound to, or the name itself. -/
theorem evaluate_sym {m : Nat} {x : Symbol} {env : Env} {s t : State} {v : Value}
    (h : evaluate (m + 1) (.sym x) env s = .ok v t) :
    t = s ∧ (s.global? x = some v ∨ v = .sym x) := by
  cases hx : s.global? x with
  | some y =>
      have hstep : (ofFuel m).step (.sym x) env s =
          ((pure y : Eval Value) >>= fun v => pure (.done v)) s := by
        rw [step, bind_of_ok (gets_apply _ s), hx]
        rfl
      cases eq_ok_of_step hstep h
      exact ⟨rfl, .inl rfl⟩
  | none =>
      have hstep : (ofFuel m).step (.sym x) env s = ((do
          if ← isKeyword x then pure (.sym x)
          else fail (.unbound (s.symbols.name x)) : Eval Value) >>= fun v => pure (.done v)) s := by
        rw [step, bind_of_ok (gets_apply _ s), hx]
        simp only [bind_apply, Eval.isKeyword, gets_apply]
        cases s.symbols.isKeyword x <;> rfl
      have hvalue := eq_ok_of_step hstep h
      rw [Eval.isKeyword, bind_of_ok (gets_apply _ s)] at hvalue
      cases hkey : s.symbols.isKeyword x with
      | true =>
          rw [hkey] at hvalue
          cases hvalue
          exact ⟨rfl, .inr rfl⟩
      | false => simp [hkey] at hvalue

/-- The value of a callable is a callable, and a macro only if it is the same. -/
theorem evaluate_callable {m : Nat} {q : Ref .callable} {env : Env} {s t : State} {v : Value}
    (h : evaluate (m + 1) (.callable q) env s = .ok v t) :
    ∃ p, v = .callable p ∧ (t.Expands (.callable p) → s.Expands (.callable q)) := by
  cases hq : s.store.callable q with
  | template shape body =>
      have hstep : (ofFuel m).step (.callable q) env s =
          (alloc (·.newCallable (.closure shape body env)) >>= fun v => pure (.done v)) s := by
        rw [step, bind_of_ok (gets_apply _ s), hq]
      cases eq_ok_of_step hstep h
      refine ⟨_, rfl, ?_⟩
      rintro ⟨shape', body', hr⟩
      simp [Store.callable, Array.getD_eq_getD_getElem?] at hr
  | _ =>
      have hstep : (ofFuel m).step (.callable q) env s =
          ((pure (.callable q) : Eval Value) >>= fun v => pure (.done v)) s := by
        rw [step, bind_of_ok (gets_apply _ s), hq]
        rfl
      cases eq_ok_of_step hstep h
      exact ⟨q, rfl, id⟩

/-- A turn of a call finds a macro where the head denotes one, or where its value is another's to
give: that of a form, of a variable, or of a promise. -/
theorem callsMacro_cases {m : Nat} {head : Value} {env : Env} {s : State}
    (h : (ofFuel m).CallsMacro head env s) :
    s.Expands head ∨ head.isPair = true ∨ (∃ a, head = .address a) ∨ s.Promised head := by
  obtain ⟨r, t, hcallee, hr⟩ := h
  obtain ⟨v, u, hv, hforce⟩ := bind_eq_ok.1 hcallee
  cases m with
  | zero => cases hv
  | succ m =>
      change evaluate (m + 1) head env s = .ok v u at hv
      cases head with
      | sym x =>
          obtain ⟨rfl, hx | rfl⟩ := evaluate_sym hv
          · cases v with
            | promise p => exact .inr (.inr (.inr ⟨p, hx⟩))
            | callable q =>
                cases hforce
                obtain ⟨shape, body, hr⟩ := hr
                exact .inl ⟨r, shape, body, hx, hr⟩
            | _ => cases hforce
          · cases hforce
      | callable q =>
          obtain ⟨p, rfl, hp⟩ := evaluate_callable hv
          cases hforce
          exact .inl (hp hr)
      | pair q => exact .inr (.inl rfl)
      | address a => exact .inr (.inr (.inl ⟨a, rfl⟩))
      | promise p => exact .inr (.inr (.inr trivial))
      | _ =>
          cases hv
          cases hforce

/-! ## Macros that quote -/

/-- What a form quotes. -/
def quoted? (store : Store) : Value → Option Value
  | .pair q =>
      match store.cdr q with
      | .pair p =>
          if (store.car q).isSym Symbol.quote && (store.cdr p).isNil then some (store.car p)
          else none
      | _ => none
  | _ => none

/-- An engine that answers nothing but quotations. -/
def quoting (n : Nat) : Engine where
  fuel := n
  eval form _ s :=
    match quoted? s.store form with
    | some v => .ok v s
    | none => .halt (.exited 0) s
  apply _ _ _ s := .halt (.exited 0) s
  deliver _ s := .halt (.exited 0) s

theorem evaluate_quoted {n : Nat} {form v : Value} {env : Env} {s : State}
    (h : quoted? s.store form = some v) : evaluate (n + 1) form env s = .ok v s := by
  cases form with
  | pair q =>
      cases hq : s.store.cdr q with
      | pair p =>
          simp only [quoted?, hq, Bool.and_eq_true, Option.ite_none_right_eq_some,
            Option.some.injEq] at h
          obtain ⟨⟨hcar, hnil⟩, rfl⟩ := h
          have hspecial : Special.ofSymbol? Symbol.quote = some .quote := rfl
          have hkey := isKeyword_of_ofSymbol? hspecial s.symbols
          have htail : s.store.cdr p = .nil := by
            cases hp : s.store.cdr p <;> first | rfl | simp [hp, Value.isNil] at hnil
          simp [-bind_pure_comp, evaluate, step, pairStep, bind_apply, Eval.onFailure, cdrCell, hq,
            Value.isSym_iff.1 hcar, Eval.isKeyword, hkey, hspecial, special, operand?, htail,
            Value.isNil]
      | _ => simp [quoted?, hq] at h
  | _ => cases h

/-- A computation that gets by with the answers to quotations is gentle. -/
theorem Gentle.of_quoting {α : Type} {n : Nat} {x : Engine → Eval α} {s : State}
    (hx : (Manner.outside (n + 1) True).Runs x) (h : (x (quoting (n + 1)) s).isOk = true) :
    Gentle (n + 1) x s := by
  obtain ⟨a, t, hok⟩ : ∃ a t, x (quoting (n + 1)) s = .ok a t := by
    cases hx : x (quoting (n + 1)) s with
    | ok a t => exact ⟨a, t, rfl⟩
    | halt c t => rw [hx] at h; cases h
  refine Gentle.of_ok hx (E := quoting (n + 1)) rfl (fun b u => ?_) hok
  cases b with
  | apply f args env => exact .inr ⟨0, u, rfl⟩
  | deliver r => exact .inr ⟨0, u, rfl⟩
  | eval form env =>
      cases hquoted : quoted? u.store form with
      | none =>
          right
          exact ⟨0, u, by simp [perform, quoting, hquoted]⟩
      | some v =>
          have hvalue : (quoting (n + 1)).perform (.eval form env) u = .ok v u := by
            simp [perform, quoting, hquoted]
          left
          refine ⟨hvalue.trans (evaluate_quoted hquoted).symm, fun w t hw => ?_⟩
          cases hvalue.symm.trans hw
          exact .refl u

/-- A state in which `m` and `m2`, the symbols 17 and 18, are the macros `(macro () 'm2)` and
`(macro () '(progn 5))`. The cell 1 is `(m2)`, the cell 11 is `(() ((m)))`, and the cell 17 is
`(() (m2) (lambda () (m2)))`. Further cells, callables and frames are as given. -/
def aliasing (cells : Array Cell) (callables : Array Callable) (frames : Frames) : State where
  console := { answers := [] }
  symbols := .ofNames ["m", "m2"]
  globals := Array.replicate 17 none ++ #[some (.callable ⟨0⟩), some (.callable ⟨1⟩)]
  frames
  store := {
    capacity := 100
    callables := #[.expander ⟨0, false⟩ (.pair ⟨2⟩), .expander ⟨0, false⟩ (.pair ⟨7⟩)] ++ callables
    cells := #[⟨.sym Symbol.quote, .pair ⟨1⟩⟩, ⟨.sym ⟨18⟩, .nil⟩, ⟨.pair ⟨0⟩, .nil⟩,
      ⟨.sym Symbol.progn, .pair ⟨4⟩⟩, ⟨.int 5, .nil⟩, ⟨.pair ⟨3⟩, .nil⟩,
      ⟨.sym Symbol.quote, .pair ⟨5⟩⟩, ⟨.pair ⟨6⟩, .nil⟩, ⟨.sym ⟨17⟩, .nil⟩, ⟨.pair ⟨8⟩, .nil⟩,
      ⟨.pair ⟨9⟩, .nil⟩, ⟨.nil, .pair ⟨10⟩⟩, ⟨.pair ⟨1⟩, .nil⟩, ⟨.nil, .pair ⟨12⟩⟩,
      ⟨.sym Symbol.lambda, .pair ⟨13⟩⟩, ⟨.pair ⟨14⟩, .nil⟩, ⟨.pair ⟨1⟩, .pair ⟨15⟩⟩,
      ⟨.nil, .pair ⟨16⟩⟩] ++ cells }

/-- What comes to a word is at the word. -/
theorem eq_of_comes_word {q : Pass} {x v : Value} {u s : State} {allowed : Nat}
    (hv : v.isPair = false) (h : Pass.Comes q x u (.expand allowed) v s) : x = v := by
  cases h with
  | here => rfl
  | again => cases hv
  | item => cases hv

/-- The walk of a list of words changes nothing on the way. -/
theorem mem_of_walks_words {allowed : Nat} {x v : Value} {u s : State} {xs : List Value}
    (h : Pass.Walks (.expand allowed) x u v s) (hv : s.store.Chain xs .nil v)
    (hxs : ∀ x ∈ xs, x.isPair = false) : x ∈ xs := by
  induction h generalizing xs with
  | here hx =>
      cases xs with
      | nil => cases hv
      | cons y ys =>
          obtain ⟨_, d, hr, hcell, -⟩ := hv
          cases hr
          rw [Store.car_of_cell? hcell] at hx
          rw [← hx]
          exact List.mem_cons_self
  | @next r y rest s t t' n hgives hrest _ ih =>
      cases xs with
      | nil => cases hv
      | cons z zs =>
          obtain ⟨_, d, hr, hcell, hd⟩ := hv
          cases hr
          obtain ⟨m, k, hgives⟩ := hgives
          rw [Store.car_of_cell? hcell, Engine.pass,
            expandMacros_word _ (hxs z (by simp))] at hgives
          cases hgives
          cases ((ofFuel n).cdrCell_of_list hcell hd).symm.trans hrest
          exact List.mem_cons_of_mem _ (ih hd fun y hy => hxs y (by simp [hy]))

/-- In a list of words that is no call of a macro no head is a form. -/
theorem not_expandsHead_of_words {allowed : Nat} {r : Ref .cell} {x : Value} {s : State}
    {xs : List Value} (hv : s.store.Chain xs .nil (.pair r)) (hxs : ∀ x ∈ xs, x.isPair = false)
    (hm : s.expander? (s.store.car r) = none) :
    ¬ (Pass.expand allowed).ExpandsHead (.pair r) s x := by
  rintro ⟨_, q, q', u, t, hcomes, hcar, -⟩
  cases hcomes with
  | here =>
      cases xs with
      | nil => cases hv
      | cons y ys =>
          obtain ⟨_, d, hr, hcell, -⟩ := hv
          cases hr
          rw [Store.car_of_cell? hcell] at hcar
          have hy := hxs y (by simp)
          rw [show y = .pair q' from hcar] at hy
          cases hy
  | again _ hsome =>
      rw [hm] at hsome
      cases hsome
  | item _ _ hwalks hcomes =>
      have hy := hxs _ (mem_of_walks_words hwalks hv hxs)
      cases eq_of_comes_word hy hcomes
      cases hy

/-- The call `(m2)` expands to `(progn 5)`, which has no form at its head. -/
theorem not_expandsHead_aliasing (x : Value) :
    ¬ (Pass.expand 1).ExpandsHead (.pair ⟨1⟩) (aliasing #[] #[] {}) x := by
  rintro ⟨allowed, r, q, u, t, hcomes, hcar, hgives⟩
  cases hcomes with
  | here => cases hcar
  | @again _ f body args e _ s' u' _ n hleft hsome hargs hcall hcomes =>
      cases hsome
      cases n with
      | zero =>
          cases hargs
          cases hcall
      | succ n =>
          cases hargs
          have hquoted := expandCall_quoted (t := aliasing #[] #[] {}) (b := ⟨7⟩) (q := ⟨6⟩)
            (c := .pair ⟨3⟩) ⟨_, _, rfl, rfl, rfl⟩ ⟨_, _, rfl, rfl, _, _, rfl, rfl, rfl⟩ n
          cases hquoted.symm.trans hcall
          have hform : (aliasing #[] #[] (Frames.push {} #[] none)).store.Chain
              [.sym Symbol.progn, .int 5] .nil (.pair ⟨3⟩) := ⟨_, _, rfl, rfl, _, _, rfl, rfl, rfl⟩
          exact not_expandsHead_of_words hform (by simp [Value.isPair]) rfl
            ⟨allowed, r, q, u, t, hcomes, hcar, hgives⟩
  | item _ hnone => cases hnone

/-- What a lambda is compiled to, pass by pass. -/
theorem compile_of_passes {n : Nat} {kind : CallableKind} {r : Ref .cell} {ps : Parameters}
    {forms expanded body : Value} {s s₁ s₂ s₃ : State}
    (hprepare : (ofFuel (n + 1)).prepare r s = .ok (ps, forms) s₁)
    (hexpand : (ofFuel (n + 1)).expandMacros (n + 1) s₁.config.maxMacroExpansions forms s₁ =
      .ok expanded s₂)
    (hinner : (ofFuel (n + 1)).compileInner n expanded s₂ = .ok body s₃) :
    (ofFuel (n + 1)).compile kind (.pair r) s =
      alloc (·.newCallable (kind.make ps.shape body)) s₃ := by
  rw [compile, show (ofFuel (n + 1)).fuel = n + 1 from rfl, compileWithin_pair,
    bind_of_ok hprepare, complete, bind_of_ok (gets_apply _ _)]
  exact (bind_of_ok hexpand).trans (bind_of_ok hinner)

/-- The lambda `(lambda () ((m)))` is compiled to the body `((m2))`. -/
theorem compile_aliasing : (ofFuel 5).compile (.closure none) (.pair ⟨11⟩) (aliasing #[] #[] {}) =
    .ok (.callable ⟨2⟩) (aliasing #[⟨.sym ⟨17⟩, .nil⟩, ⟨.pair ⟨18⟩, .nil⟩, ⟨.pair ⟨19⟩, .nil⟩,
      ⟨.sym ⟨18⟩, .nil⟩, ⟨.pair ⟨21⟩, .nil⟩, ⟨.sym ⟨18⟩, .nil⟩, ⟨.pair ⟨23⟩, .nil⟩]
      #[.closure ⟨0, false⟩ (.pair ⟨24⟩) none] (Frames.push {} #[] none)) := by
  have hprepare : (ofFuel 5).prepare ⟨11⟩ (aliasing #[] #[] {}) = .ok ({}, .pair ⟨20⟩)
      (aliasing #[⟨.sym ⟨17⟩, .nil⟩, ⟨.pair ⟨18⟩, .nil⟩, ⟨.pair ⟨19⟩, .nil⟩] #[] {}) := rfl
  have hexpand : (ofFuel 5).expandMacros 5 30 (.pair ⟨20⟩)
      (aliasing #[⟨.sym ⟨17⟩, .nil⟩, ⟨.pair ⟨18⟩, .nil⟩, ⟨.pair ⟨19⟩, .nil⟩] #[] {}) =
      .ok (.pair ⟨22⟩) (aliasing #[⟨.sym ⟨17⟩, .nil⟩, ⟨.pair ⟨18⟩, .nil⟩, ⟨.pair ⟨19⟩, .nil⟩,
        ⟨.sym ⟨18⟩, .nil⟩, ⟨.pair ⟨21⟩, .nil⟩] #[] (Frames.push {} #[] none)) := rfl
  exact compile_of_passes hprepare hexpand rfl

/-- The cells of the body `(((progn m2)))`, from the cell `k` on. The last of them is the body, the
one before it the call, whose head is the second. -/
def progns (k : Nat) : Array Cell :=
  #[⟨.sym ⟨18⟩, .nil⟩, ⟨.sym Symbol.progn, .pair ⟨k⟩⟩, ⟨.pair ⟨k + 1⟩, .nil⟩, ⟨.pair ⟨k + 2⟩, .nil⟩]

/-- The cells of `(() ((progn m2)))`, after those of the state. -/
def valued : Array Cell := progns 18 ++ #[⟨.nil, .pair ⟨21⟩⟩]

/-- The lambda `(lambda () ((progn m2)))` is compiled to a copy of its body. -/
theorem compile_valued : (ofFuel 5).compile (.closure none) (.pair ⟨22⟩) (aliasing valued #[] {}) =
    .ok (.callable ⟨2⟩) (aliasing (valued ++ progns 23 ++ progns 27 ++ progns 31)
      #[.closure ⟨0, false⟩ (.pair ⟨34⟩) none] {}) := by
  have hprepare : (ofFuel 5).prepare ⟨22⟩ (aliasing valued #[] {}) =
      .ok ({}, .pair ⟨26⟩) (aliasing (valued ++ progns 23) #[] {}) := rfl
  have hexpand : (ofFuel 5).expandMacros 5 30 (.pair ⟨26⟩)
      (aliasing (valued ++ progns 23) #[] {}) =
      .ok (.pair ⟨30⟩) (aliasing (valued ++ progns 23 ++ progns 27) #[] {}) := by
    simp only [valued, progns, List.append_toArray, List.cons_append, List.nil_append]
    rfl
  have hinner : (ofFuel 5).compileInner 4 (.pair ⟨30⟩)
      (aliasing (valued ++ progns 23 ++ progns 27) #[] {}) = .ok (.pair ⟨34⟩)
        (aliasing (valued ++ progns 23 ++ progns 27 ++ progns 31) #[] {}) := by
    simp only [valued, progns, List.append_toArray, List.cons_append, List.nil_append]
    rfl
  exact (compile_of_passes hprepare hexpand hinner).trans rfl

/-! ## Definition time -/

/-- Macros are expanded when a lambda is defined, if the expansions spare the text. What the lambda
is compiled to has no calls of macros outside quoted data, but for lists that are made of a list
with a form at its head, where this form came out as a macro, and for templates that stood in the
text already. When its calls are evaluated, a macro of that time is found only through the value of
a form, of a variable or of a promise, or at such a head. If no head comes out so, expanding what
was expanded gives a copy. -/
theorem macros_expand_at_definition (n : Nat) (s : State) :
    (∀ kind v w t, kind ≠ .expander → Gentle n (fun E => E.compile kind v) s →
      (ofFuel n).compile kind v s = .ok w t →
      s.Spares t ∧
      (∃ r shape body, w = .callable r ∧
        t.store.callables[r.index]? = some (kind.make shape body) ∧
        t.store.Expanded s .compiled ((Pass.compile kind).Excepts v s)
          ((Pass.compile kind).Finds v s) body) ∧
      ∀ m u head env, t.Spares u → (ofFuel m).CallsMacro head env u →
        s.Expands head ∨ head.isPair = true ∨ (∃ a, head = .address a) ∨ u.Promised head) ∧
    ∀ k allowed v w t, Gentle n (fun E => E.expandMacros k allowed v) s →
      (ofFuel n).expandMacros k allowed v s = .ok w t →
      (∀ x, (Pass.expand allowed).ExpandsHead v s x → ¬ s.Expands x) →
      ∃ c f, ∀ (E : Engine) k allowed u, t.Spares u → f ≤ E.fuel → f ≤ k → c ≤ u.store.room →
        ∃ w' u', E.expandMacros k allowed w u = .ok w' u' ∧ u.AddsCells c u' ∧
          u'.store.Copied w w' := by
  refine ⟨fun kind v w t hkind hgentle h => ?_, fun k allowed v w t hgentle h hhead => ?_⟩
  · have hsparing : (sparing n).compile kind v s = .ok w t :=
      (hgentle.eq (.compile kind v)).trans h
    have hst := (Eval.Sparing.compilers (sparing_sparing n) n).1 kind hkind v s w t hsparing
    refine ⟨hst, ?_, fun m u head env htu hcalls => ?_⟩
    · exact (makesTemplates_and_makesCallables n n s _ _).2 (.refl s) (.self _ v s) hsparing
    · rcases callsMacro_cases hcalls with hexpands | hrest
      · exact .inl (((hst.trans htu).expands_iff head).1 hexpands)
      · exact .inr hrest
  · have hsparing : (sparing n).expandMacros k allowed v s = .ok w t :=
      (hgentle.eq (.expandMacros k allowed v)).trans h
    have hst := Eval.Sparing.expandMacros (sparing_sparing n) k allowed v s w t hsparing
    have hexpanded := expandMacros_expanded (.refl s) (.self _ v s) hsparing
    have hexcept : ∀ w x, (Pass.expand allowed).Excepts v s .expanded w x → ¬ s.Expands x := by
      rintro w x ⟨allowed, r, q, u, t, -, hcomes, hcar, hgives, -⟩
      exact hhead x ⟨allowed, r, q, u, t, hcomes, hcar, hgives⟩
    obtain ⟨c, f, hcopy⟩ := exists_expandsToCopy hexcept hexpanded
    refine ⟨c, f, fun E k allowed u htu hE hk hroom => ?_⟩
    exact hcopy E k allowed u htu.text (hst.trans htu).macros hE hk hroom

/-- A nested lambda, and a call by itself. -/
theorem macros_expand_at_definition_aliasing :
    (∃ w t, (ofFuel 9).compile (.closure none) (.pair ⟨17⟩) (aliasing #[] #[] {}) = .ok w t ∧
      ∃ r shape body, w = .callable r ∧
        t.store.callables[r.index]? = some (.closure shape body none) ∧
        t.store.Expanded (aliasing #[] #[] {}) .compiled
          ((Pass.compile (.closure none)).Excepts (.pair ⟨17⟩) (aliasing #[] #[] {}))
          ((Pass.compile (.closure none)).Finds (.pair ⟨17⟩) (aliasing #[] #[] {})) body) ∧
    ∃ w t c f, (ofFuel 9).expandMacros 9 1 (.pair ⟨1⟩) (aliasing #[] #[] {}) = .ok w t ∧
      ∀ (E : Engine) k allowed u, t.Spares u → f ≤ E.fuel → f ≤ k → c ≤ u.store.room →
        ∃ w' u', E.expandMacros k allowed w u = .ok w' u' ∧ u.AddsCells c u' ∧
          u'.store.Copied w w' := by
  have hcompile : ((ofFuel 9).compile (.closure none) (.pair ⟨17⟩) (aliasing #[] #[] {})).isOk =
      true := by decide +kernel
  have hexpand : ((ofFuel 9).expandMacros 9 1 (.pair ⟨1⟩) (aliasing #[] #[] {})).isOk = true := by
    decide +kernel
  obtain ⟨w, t, hw⟩ := Outcome.exists_of_isOk hcompile
  obtain ⟨w', t', hw'⟩ := Outcome.exists_of_isOk hexpand
  have hgentle : Gentle 9 (fun E => E.compile (.closure none) (.pair ⟨17⟩)) (aliasing #[] #[] {}) :=
    .of_quoting (.compile _ _) (by decide +kernel)
  have hgentle' : Gentle 9 (fun E => E.expandMacros 9 1 (.pair ⟨1⟩)) (aliasing #[] #[] {}) :=
    .of_quoting (.expandMacros _ _ _) (by decide +kernel)
  obtain ⟨hlambda, hagain⟩ := macros_expand_at_definition 9 (aliasing #[] #[] {})
  obtain ⟨c, f, hcopy⟩ := hagain 9 1 _ w' t' hgentle' hw'
    fun x hx => absurd hx (not_expandsHead_aliasing x)
  exact ⟨⟨w, t, hw, (hlambda _ _ w t (by simp) hgentle hw).2.1⟩, w', t', c, f, hw', hcopy⟩

/-- The head of the call `((m))` comes out as `m2`, and the call is left. It is expanded only when
the closure is called, or by another expansion, though neither macro reads or changes anything. The
head of the call `((progn m2))` is no call of a macro, and its value is one. -/
theorem compile_leaves_macro_at_head :
    (∀ n t, (aliasing #[] #[] {}).store.KeepsCells t.store →
      (ofFuel (n + 1)).expandCall (.expander ⟨0, false⟩ (.pair ⟨2⟩)) (.pair ⟨2⟩) .nil t =
        .ok (.sym ⟨18⟩) { t with frames := t.frames.push #[] none } ∧
      (ofFuel (n + 1)).expandCall (.expander ⟨0, false⟩ (.pair ⟨7⟩)) (.pair ⟨7⟩) .nil t =
        .ok (.pair ⟨3⟩) { t with frames := t.frames.push #[] none }) ∧
    Gentle 5 (fun E => E.compile (.closure none) (.pair ⟨11⟩)) (aliasing #[] #[] {}) ∧
    (∃ t, (ofFuel 5).compile (.closure none) (.pair ⟨11⟩) (aliasing #[] #[] {}) =
        .ok (.callable ⟨2⟩) t ∧
      t.store.callables[2]? = some (.closure ⟨0, false⟩ (.pair ⟨24⟩) none) ∧
      t.store.Chain [.pair ⟨23⟩] .nil (.pair ⟨24⟩) ∧ t.store.Chain [.sym ⟨18⟩] .nil (.pair ⟨23⟩) ∧
      (aliasing #[] #[] {}).Expands (.sym ⟨18⟩) ∧
      (ofFuel 1).CallsMacro (.sym ⟨18⟩) none t ∧
      ∃ w u, (ofFuel 5).expandMacros 5 30 (.pair ⟨24⟩) t = .ok w u ∧
        u.store.Chain [.pair ⟨26⟩] .nil w ∧
        u.store.Chain [.sym Symbol.progn, .int 5] .nil (.pair ⟨26⟩)) ∧
    Gentle 5 (fun E => E.compile (.closure none) (.pair ⟨22⟩)) (aliasing valued #[] {}) ∧
    ∃ t, (ofFuel 5).compile (.closure none) (.pair ⟨22⟩) (aliasing valued #[] {}) =
        .ok (.callable ⟨2⟩) t ∧
      t.store.callables[2]? = some (.closure ⟨0, false⟩ (.pair ⟨34⟩) none) ∧
      t.store.Chain [.pair ⟨33⟩] .nil (.pair ⟨34⟩) ∧ t.store.Chain [.pair ⟨32⟩] .nil (.pair ⟨33⟩) ∧
      (ofFuel 3).CallsMacro (.pair ⟨32⟩) none t := by
  have hquotes : ∀ t : State, (aliasing #[] #[] {}).store.KeepsCells t.store →
      (t.store.Chain [.pair ⟨0⟩] .nil (.pair ⟨2⟩) ∧
        t.store.Chain [.sym Symbol.quote, .sym ⟨18⟩] .nil (.pair ⟨0⟩)) ∧
      t.store.Chain [.pair ⟨6⟩] .nil (.pair ⟨7⟩) ∧
        t.store.Chain [.sym Symbol.quote, .pair ⟨3⟩] .nil (.pair ⟨6⟩) := by
    intro t ht
    exact ⟨⟨.keeps ht ⟨_, _, rfl, rfl, rfl⟩, .keeps ht ⟨_, _, rfl, rfl, _, _, rfl, rfl, rfl⟩⟩,
      .keeps ht ⟨_, _, rfl, rfl, rfl⟩, .keeps ht ⟨_, _, rfl, rfl, _, _, rfl, rfl, rfl⟩⟩
  refine ⟨fun n t ht => ?_, .of_quoting (.compile _ _) (by decide +kernel),
    ⟨_, compile_aliasing, rfl, ⟨_, _, rfl, rfl, rfl⟩, ⟨_, _, rfl, rfl, rfl⟩, ⟨⟨1⟩, _, _, rfl, rfl⟩,
      ?_, ?_⟩, .of_quoting (.compile _ _) (by decide +kernel),
    _, compile_valued, rfl, ⟨_, _, rfl, rfl, rfl⟩, ⟨_, _, rfl, rfl, rfl⟩, ?_⟩
  · obtain ⟨⟨hm, hname⟩, hm2, hform⟩ := hquotes t ht
    exact ⟨expandCall_quoted hm hname n, expandCall_quoted hm2 hform n⟩
  · exact ⟨⟨1⟩, _, rfl, _, _, rfl⟩
  · exact ⟨_, _, rfl, ⟨_, _, rfl, rfl, rfl⟩, ⟨_, _, rfl, rfl, _, _, rfl, rfl, rfl⟩⟩
  · exact ⟨⟨1⟩, _, rfl, _, _, rfl⟩

end Engine

end SmallLisp
