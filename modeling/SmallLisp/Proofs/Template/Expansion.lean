import SmallLisp.Proofs.Template.Calls
import SmallLisp.Proofs.Template.Code

/-!
# Expansions mean what their templates mean

The expansion of a template is put together from the right by `combine`, which merges what it can
on the way, and `appended`. Neither changes the meaning: evaluating the arguments of `append` that
`combine` makes, in order, is evaluating the parts of the template in order, and the data that they
come to concatenate to the same list. By induction over the template, evaluating the expansion
follows the meaning of the template.
-/

namespace SmallLisp

/-! ## Calls as forms -/

namespace Form

@[simp] theorem toList?_list (items : List Form) : (list items).toList? = some items := by
  induction items with
  | nil => rfl
  | cons f fs ih =>
      simp only [list, listWithTail, List.foldr_cons, toList?] at ih ⊢
      rw [ih]
      rfl

theorem eq_list_of_toList? : ∀ {f : Form} {items : List Form}, f.toList? = some items →
    f = list items
  | .atom .nil, _, h => by
      cases h
      rfl
  | .pair a b, items, h => by
      simp only [toList?, Option.map_eq_some_iff] at h
      obtain ⟨rest, hrest, rfl⟩ := h
      rw [eq_list_of_toList? hrest]
      rfl

theorem args?_call (name other : String) (args : List Form) :
    (call name args).args? other = if name = other then some args else none := by
  rw [args?, call, toList?_list]
  rfl

theorem eq_call_of_args? {f : Form} {name : String} {args : List Form}
    (h : f.args? name = some args) : f = call name args := by
  unfold args? at h
  split at h
  · rename_i s args' hlist
    split at h
    · rename_i hs
      cases h
      rw [eq_list_of_toList? hlist, hs]
      rfl
    · cases h
  · cases h

theorem args?_quoted {f : Form} (hf : ∀ a b, f ≠ .pair a b) (args : List Form) :
    f.quoted.args? "list" ≠ some args := by
  intro h
  cases f with
  | atom a =>
      cases a with
      | sym name => simp [quoted, args?_call] at h
      | _ => cases h
  | pair a b => exact hf a b rfl
  | _ => cases h

/-! ## What `combine` does -/

/-- The ways to put a contribution in front of the arguments of `append`. -/
inductive Combined (head : Form) : List Form → List Form → Prop
  | last : Combined head [nil] [head]
  | first {rest} : rest ≠ [nil] → Combined head rest (head :: rest)
  | merged {args others more} : head = call "list" args →
      Combined head (call "list" others :: more) (call "list" (args ++ others) :: more)
  | chained {a args first more} : head = call "list" (a :: args) → first :: more ≠ [nil] →
      Combined head (first :: more) (consChain (a :: args) first :: more)

theorem combined (head : Form) (rest : List Form) : Combined head rest (combine head rest) := by
  cases rest with
  | nil => exact .first (by simp)
  | cons first more =>
      rw [combine.eq_2]
      by_cases hnil : (first.isNil && more.isEmpty) = true
      · rw [if_pos hnil]
        simp only [Bool.and_eq_true, isNil_iff, List.isEmpty_iff] at hnil
        obtain ⟨rfl, rfl⟩ := hnil
        exact .last
      · rw [if_neg hnil]
        have hne : first :: more ≠ [nil] := by
          intro h
          cases h
          exact hnil rfl
        cases hargs : head.args? "list" with
        | none => exact .first hne
        | some args =>
            have hhead := eq_call_of_args? hargs
            cases hothers : first.args? "list" with
            | some others =>
                obtain rfl := eq_call_of_args? hothers
                exact .merged hhead
            | none =>
                cases args with
                | nil => exact .first hne
                | cons a args => exact .chained hhead hne

theorem expandItems_ne_nil (b : Form) : b.expandItems ≠ [] := by
  cases b with
  | pair a b =>
      have h := combined (contribution a a.expand) b.expandItems
      rw [expandItems]
      generalize b.expandItems = rest at h
      generalize combine (contribution a a.expand) rest = r at h
      cases h <;> simp
  | _ => simp [expandItems]

/-- Only nil in front of nothing is nothing. -/
theorem combine_eq_nil_iff {head : Form} {rest : List Form} (hrest : rest ≠ []) :
    combine head rest = [nil] ↔ head = nil ∧ rest = [nil] := by
  have h := combined head rest
  generalize combine head rest = r at h
  cases h with
  | last => simp
  | first hne => simp [hrest, hne]
  | merged _ => simp [call, list, listWithTail, nil]
  | chained _ hne => simpa [consChain, call, list, listWithTail, nil] using fun _ => hne

theorem ends_iff (b : Form) : b.ends = true ↔ b.expandItems = [nil] := by
  cases b with
  | atom a => cases a <;> simp [ends, expandItems, quoted, nil, call, list, listWithTail]
  | pair a b =>
      rw [expandItems, combine_eq_nil_iff (expandItems_ne_nil b), ← ends_iff b]
      cases a with
      | splice f => simp [ends, contribution, isNil_iff]
      | _ => simp [ends, contribution, call, list, listWithTail, nil]
  | vector items => simp [ends, expandItems, quoted, nil]
  | unquote f => simp [ends, expandItems, isNil_iff]
  | splice f => simp [ends, expandItems, quoted, nil]

end Form

/-! ## Lists that concatenate alike -/

namespace Datum

/-- The lists concatenate to the same, and there are some in both or in neither. -/
def Same (ds es : List Datum) : Prop :=
  (ds = [] ↔ es = []) ∧ ∀ s d, Joins s ds d ↔ Joins s es d

namespace Same

theorem refl (ds : List Datum) : Same ds ds := ⟨Iff.rfl, fun _ _ => Iff.rfl⟩

theorem trans {ds es fs : List Datum} (h : Same ds es) (h' : Same es fs) : Same ds fs :=
  ⟨h.1.trans h'.1, fun s d => (h.2 s d).trans (h'.2 s d)⟩

theorem cons {ds es : List Datum} (h : Same ds es) (d : Datum) : Same (d :: ds) (d :: es) := by
  refine ⟨by simp, fun s e => ?_⟩
  cases ds with
  | nil =>
      obtain rfl := h.1.1 rfl
      exact Iff.rfl
  | cons x xs =>
      cases es with
      | nil => exact absurd (h.1.2 rfl) (by simp)
      | cons y ys => simp only [Joins, h.2]

/-- A list in front of another is one list. -/
theorem merge (xs : List Datum) (d : Datum) (ds : List Datum) :
    Same (listWithTail xs d :: ds) (list xs :: d :: ds) := by
  refine ⟨by simp, fun s e => ?_⟩
  cases ds with
  | nil => simp [Joins, lists_list]
  | cons y ys =>
      simp only [Joins, lists_listWithTail, lists_list]
      constructor
      · rintro ⟨_, tail, ⟨rest, rfl, hd⟩, htail, rfl⟩
        exact ⟨xs, _, rfl, ⟨rest, tail, hd, htail, rfl⟩, listWithTail_append ..⟩
      · rintro ⟨_, _, rfl, ⟨rest, tail, hd, htail, rfl⟩, rfl⟩
        exact ⟨_, tail, ⟨rest, rfl, hd⟩, htail, (listWithTail_append ..).symm⟩

end Same

end Datum

/-! ## Courses that come to the same -/

namespace Course

/-- Whatever the first course comes to, the second can come to, up to concatenation. -/
structure Within (K L : Course (List Datum)) : Prop where
  wrong : ∀ {p}, K.wrong p → L.wrong p
  ends : ∀ {p ds q}, K.ends p ds q → ∃ es, L.ends p es q ∧ Datum.Same ds es

theorem Within.trans {K L M : Course (List Datum)} (h : K.Within L) (h' : L.Within M) :
    K.Within M := by
  refine ⟨fun hw => h'.wrong (h.wrong hw), fun hends => ?_⟩
  obtain ⟨es, hes, hsame⟩ := h.ends hends
  obtain ⟨fs, hfs, hsame'⟩ := h'.ends hes
  exact ⟨fs, hfs, hsame.trans hsame'⟩

theorem Within.refl (K : Course (List Datum)) : K.Within K :=
  ⟨id, fun h => ⟨_, h, .refl _⟩⟩

/-- Results that concatenate alike. -/
theorem within_map {α : Type} (K : Course α) {f g : α → List Datum}
    (h : ∀ a, Datum.Same (f a) (g a)) :
    (K >>= fun a => pure (f a)).Within (K >>= fun a => pure (g a)) := by
  refine ⟨?_, ?_⟩
  · rintro p (hw | ⟨_, _, _, hw⟩)
    · exact .inl hw
    · exact hw.elim
  · rintro p _ q ⟨a, q', hends, rfl, rfl⟩
    exact ⟨g a, ⟨a, _, hends, rfl, rfl⟩, h a⟩

/-- One more list in front. -/
theorem Within.cons {K L : Course (List Datum)} (h : K.Within L) (H : Course Datum) :
    (H >>= fun d => K >>= fun ds => pure (d :: ds)).Within
      (H >>= fun d => L >>= fun ds => pure (d :: ds)) := by
  refine ⟨?_, ?_⟩
  · rintro p (hw | ⟨d, q, hd, hw | ⟨_, _, _, hw⟩⟩)
    · exact .inl hw
    · exact .inr ⟨d, q, hd, .inl (h.wrong hw)⟩
    · exact hw.elim
  · rintro p _ r ⟨d, q, hd, ds, _, hds, rfl, rfl⟩
    obtain ⟨es, hes, hsame⟩ := h.ends hds
    exact ⟨d :: es, ⟨d, q, hd, es, _, hes, rfl, rfl⟩, hsame.cons d⟩

theorem each_append {α : Type} (Ks Ls : List (Course α)) :
    each (Ks ++ Ls) = each Ks >>= fun xs => each Ls >>= fun ys => pure (xs ++ ys) := by
  induction Ks with
  | nil => simp [each]
  | cons K Ks ih => simp [each, ih]

/-- Two lists in a row are built as one. -/
theorem within_merged (Ks Ls Ms : List (Course Datum)) :
    (each ((each (Ks ++ Ls) >>= fun ds => pure (.list ds)) :: Ms)).Within
      (each ((each Ks >>= fun ds => pure (.list ds)) :: (each Ls >>= fun ds => pure (.list ds)) ::
        Ms)) := by
  have h := within_map (each Ks >>= fun xs => each Ls >>= fun ys => each Ms >>= fun ds =>
    pure (xs, ys, ds)) (f := fun (xs, ys, ds) => .list (xs ++ ys) :: ds)
    (g := fun (xs, ys, ds) => .list xs :: .list ys :: ds) fun (xs, ys, ds) => ?_
  · simpa [each, each_append] using h
  · have := Datum.Same.merge xs (.list ys) ds
    simpa [Datum.list, Datum.listWithTail_append] using this

/-- A list in front of something else is built on it. -/
theorem within_chained (Ks : List (Course Datum)) (L : Course Datum) (Ms : List (Course Datum)) :
    (each ((each Ks >>= fun xs => L >>= fun d => pure (.listWithTail xs d)) :: Ms)).Within
      (each ((each Ks >>= fun ds => pure (.list ds)) :: L :: Ms)) := by
  have h := within_map (each Ks >>= fun xs => L >>= fun d => each Ms >>= fun ds =>
    pure (xs, d, ds)) (f := fun (xs, d, ds) => .listWithTail xs d :: ds)
    (g := fun (xs, d, ds) => .list xs :: d :: ds) fun (xs, d, ds) => Datum.Same.merge xs d ds
  simpa [each] using h

end Course

/-! ## Arguments of `append` -/

namespace Site

variable {T : Site}

variable (T) in
/-- The form is an argument of `append` that comes to the list of the course. If it is a call of
`list`, its operands can be evaluated one by one. -/
structure Arg (g : Form) (K : Course Datum) : Prop where
  runs : T.Runs g K
  settled : ∀ {p d q}, K.ends p d q → d.isPromise = false
  operands : ∀ {args}, g.args? "list" = some args → ∃ Ks, List.Forall₂ T.Runs args Ks ∧
    K = Course.each Ks >>= fun ds => pure (.list ds)

theorem isPromise_list (ds : List Datum) : (Datum.list ds).isPromise = false := by
  cases ds <;> rfl

theorem arg_list {args : List Form} {Ks : List (Course Datum)} (h : List.Forall₂ T.Runs args Ks) :
    T.Arg (.call "list" args) (Course.each Ks >>= fun ds => pure (.list ds)) where
  runs := runs_list h
  settled := by
    rintro p _ q ⟨ds, _, _, rfl, rfl⟩
    exact isPromise_list ds
  operands := by
    intro args' hargs
    rw [Form.args?_call, if_pos rfl, Option.some.injEq] at hargs
    exact ⟨Ks, hargs ▸ h, rfl⟩

theorem Runs.one {f : Form} {K : Course Datum} (h : T.Runs f K) :
    T.Arg (.call "list" [f]) (K >>= fun d => pure (.list [d])) := by
  have := arg_list (.cons h .nil)
  simpa [Course.each] using this

theorem runs_consChain {args : List Form} {Ks : List (Course Datum)} {g : Form} {L : Course Datum}
    (h : List.Forall₂ T.Runs args Ks) (hg : T.Runs g L) :
    T.Runs (.consChain args g)
      (Course.each Ks >>= fun xs => L >>= fun d => pure (.listWithTail xs d)) := by
  induction h with
  | nil => simpa [Course.each, Form.consChain, Datum.listWithTail] using hg
  | cons hf _ ih =>
      have := runs_cons hf ih
      simpa [Course.each, Form.consChain, Datum.listWithTail] using this

theorem arg_consChain {a : Form} {args : List Form} {Ks : List (Course Datum)} {g : Form}
    {L : Course Datum} (h : List.Forall₂ T.Runs (a :: args) Ks) (hg : T.Runs g L) :
    T.Arg (.consChain (a :: args) g)
      (Course.each Ks >>= fun xs => L >>= fun d => pure (.listWithTail xs d)) where
  runs := runs_consChain h hg
  settled := by
    cases h with
    | cons _ _ =>
        rintro p _ q ⟨_, _, ⟨_, _, _, _, _, _, rfl, rfl⟩, _, _, _, rfl, rfl⟩
        rfl
  operands := by
    intro args' hargs
    rw [Form.consChain, List.foldr_cons, Form.args?_call, if_neg (by decide)] at hargs
    cases hargs

theorem settled_mark {f : Form} {p q : Trail} {d : Datum} (h : (T.mark f).ends p d q) :
    d.isPromise = false := by
  unfold mark at h
  split at h
  · rename_i hnil
    obtain ⟨x, hx, rfl, -⟩ := h
    obtain rfl := Form.isNil_iff.1 hnil
    obtain rfl := Store.nil_of_atom? hx
    rfl
  · obtain ⟨_, _, _, _, _, ⟨hd, _⟩, rfl, _⟩ := h
    exact hd

theorem arg_spliced (f : Form) : T.Arg f (T.spliced f) := by
  unfold spliced
  cases hargs : f.args? "list" with
  | some args =>
      rw [Form.eq_call_of_args? hargs]
      refine arg_list (List.forall₂_map_right_iff.2 (List.forall₂_same.2 fun g _ => ?_))
      exact runs_evaluated g
  | none => exact ⟨runs_mark f, settled_mark, fun h => by rw [hargs] at h; cases h⟩

theorem arg_constant {f : Form} (hf : ∀ a b, f ≠ .pair a b) :
    T.Arg f.quoted (T.constant f) where
  runs := runs_constant hf
  settled := by
    rintro p _ q ⟨x, hx, rfl, -⟩
    cases f with
    | atom a => cases x <;> first | rfl | cases hx
    | pair a b => exact (hf a b rfl).elim
    | vector items =>
        obtain ⟨r, vs, rfl, -⟩ := hx
        rfl
    | _ => exact hx.elim
  operands h := (Form.args?_quoted hf _ h).elim

theorem arg_contribution {item : Form} {K : Course Datum} (h : T.Runs item.expand K) :
    T.Arg (item.contribution item.expand) (T.contribution item K) := by
  cases item with
  | unquote f => exact (runs_mark f).one
  | splice f => exact arg_spliced f
  | _ => exact h.one

/-! ## Expansions -/

variable (T) in
/-- The arguments come to the lists of the course, one after the other. -/
def Args (gs : List Form) (S : Course (List Datum)) : Prop :=
  ∃ Ks, List.Forall₂ T.Arg gs Ks ∧ (Course.each Ks).Within S

theorem args_single {g : Form} {K : Course Datum} (h : T.Arg g K) :
    T.Args [g] (K >>= fun d => pure [d]) := by
  refine ⟨[K], .cons h .nil, ?_⟩
  have : Course.each [K] = K >>= fun d => pure [d] := by simp [Course.each]
  rw [this]
  exact .refl _

theorem args_combine {head : Form} {H : Course Datum} (hhead : T.Arg head H) {b : Form}
    {S : Course (List Datum)} (hrest : T.Args b.expandItems S) :
    T.Args (Form.combine head b.expandItems) (inFront H b.ends S) := by
  have hends := Form.ends_iff b
  have h := Form.combined head b.expandItems
  generalize b.expandItems = rest at h hends hrest
  generalize Form.combine head rest = r at h
  obtain ⟨Ks, hKs, hwithin⟩ := hrest
  cases h with
  | last =>
      rw [hends.2 rfl]
      exact args_single hhead
  | first hne =>
      rw [Bool.eq_false_iff.2 fun h => hne (hends.1 h)]
      exact ⟨H :: Ks, .cons hhead hKs, hwithin.cons H⟩
  | merged hlist =>
      have hne : b.ends = false := by
        rw [Bool.eq_false_iff]
        intro h
        have := hends.1 h
        simp [Form.call, Form.list, Form.listWithTail, Form.nil] at this
      rw [hne]
      cases hKs with
      | @cons _ K _ Ms hK hMs =>
          obtain ⟨Hs, hHs, rfl⟩ := hhead.operands (by rw [hlist, Form.args?_call, if_pos rfl])
          obtain ⟨Ls, hLs, rfl⟩ := hK.operands (by rw [Form.args?_call, if_pos rfl])
          refine ⟨_ :: Ms, .cons (arg_list (List.rel_append hHs hLs)) hMs, ?_⟩
          exact (Course.within_merged Hs Ls Ms).trans (hwithin.cons _)
  | chained hlist hne =>
      rw [Bool.eq_false_iff.2 fun h => hne (hends.1 h)]
      cases hKs with
      | @cons _ K _ Ms hK hMs =>
          obtain ⟨Hs, hHs, rfl⟩ := hhead.operands (by rw [hlist, Form.args?_call, if_pos rfl])
          refine ⟨_ :: Ms, .cons (arg_consChain hHs hK.runs) hMs, ?_⟩
          exact (Course.within_chained Hs K Ms).trans (hwithin.cons _)

theorem Runs.within {f : Form} {K L : Course (List Datum)} (h : K.Within L)
    (hf : T.Runs f (K >>= Course.joined)) : T.Runs f (L >>= Course.joined) := by
  intro c hidden p s hc hready
  refine (hf hc hready).mono ?_ ?_
  · rintro (hw | ⟨ds, q, hds, hw⟩)
    · exact .inl (h.wrong hw)
    · obtain ⟨es, hes, hsame⟩ := h.ends hds
      exact .inr ⟨es, q, hes, fun ⟨d, hd⟩ => hw ⟨d, (hsame.2 _ d).2 hd⟩⟩
  · rintro _ d _ q _ ⟨ds, _, hds, hd, rfl⟩ hw
    obtain ⟨es, hes, hsame⟩ := h.ends hds
    exact .inr ⟨d, ⟨es, _, hes, (hsame.2 _ d).1 hd, rfl⟩, hw⟩

theorem runs_appended {gs : List Form} {S : Course (List Datum)} (h : T.Args gs S) :
    T.Runs (Form.appended gs) (S >>= Course.joined) := by
  obtain ⟨Ks, hKs, hwithin⟩ := h
  refine Runs.within hwithin ?_
  have happend : T.Runs (.call "append" gs) (Course.each Ks >>= Course.joined) := by
    refine runs_append (hKs.imp fun _ _ h => h.runs) fun K hK => ?_
    obtain ⟨g, hg⟩ : ∃ g, T.Arg g K := by
      clear hwithin
      induction hKs with
      | nil => cases hK
      | cons hg _ ih =>
          rcases List.mem_cons.1 hK with rfl | hK
          · exact ⟨_, hg⟩
          · exact ih hK
    exact hg.settled
  unfold Form.appended
  split
  · split
    · cases hKs with
      | @cons g K _ _ hK hnil =>
          cases hnil
          intro c hidden p s hc hready
          refine (hK.runs hc hready).mono (fun hw => .inl (.inl hw)) ?_
          intro _ d _ q _ hends hw
          exact .inr ⟨d, ⟨[d], q, ⟨d, q, hends, [], q, ⟨rfl, rfl⟩, rfl, rfl⟩, rfl, rfl⟩, hw⟩
    · exact happend
  · exact happend

mutual

/-- Evaluating the expansion of a template follows the meaning of the template. -/
theorem runs_expand : ∀ t : Form, T.Runs t.expand (T.fill t)
  | .atom a => (arg_constant fun _ _ h => by cases h).runs
  | .pair a b => by
      rw [Form.expand, fill]
      exact runs_appended (args_combine (arg_contribution (runs_expand a)) (args_expandItems b))
  | .vector items => (arg_constant fun _ _ h => by cases h).runs
  | .unquote f => runs_mark f
  | .splice f => (arg_constant fun _ _ h => by cases h).runs

theorem args_expandItems : ∀ b : Form, T.Args b.expandItems (T.segments b)
  | .atom a => args_single (arg_constant fun _ _ h => by cases h)
  | .pair a b => by
      rw [Form.expandItems, segments]
      exact args_combine (arg_contribution (runs_expand a)) (args_expandItems b)
  | .vector items => args_single (arg_constant fun _ _ h => by cases h)
  | .unquote f => args_single (arg_spliced f)
  | .splice f => args_single (arg_constant fun _ _ h => by cases h)

end

/-- Evaluating the expansion of a template evaluates the expressions of the template once each, from
left to right, and gives what the template means, in new pairs, unless the store is full. This is so
in every state and in every environment in which the calls of the expansion call the natives, for
as long as the expressions return values other than promises, leave the code alone, and what they
splice in front of something is a proper list. -/
theorem evaluate_expand (T : Site) {t : Form} {v : Value} (hv : T.code t.expand v)
    (hsealed : T.start.Sealed fun _ => False) (hstays : T.Stays T.start)
    (hright : ¬ (T.fill t).wrong ⟨T.start, []⟩) :
    T.Overflows v T.start ∨ ∃ w s d p, T.Returns v T.start w s ∧
      (T.fill t).ends ⟨T.start, []⟩ d p ∧ p.seen = t.exprs ∧ p.state.Grows s ∧
      s.store.Unfolds (T.start.store.cells.size ≤ ·) w d := by
  have hready : T.Ready (fun _ => False) ⟨T.start, []⟩ T.start :=
    ⟨.refl _, hsealed, fun _ h => h.elim, Nat.le_refl _, hstays⟩
  obtain hwrong | hfull | ⟨w, s, d, p, hidden, hok, hends, hready', -, hw⟩ :=
    runs_expand t hv hready
  · exact (hright hwrong).elim
  · left
    obtain ⟨n, hn⟩ := hfull.exists
    obtain ⟨f, t, capacity, ho, hf⟩ := Outcome.IsFull.exists hn
    exact ⟨n, f, t, capacity, ho, hf⟩
  · right
    obtain ⟨n, hn⟩ := hok.exists
    have hseen := T.sees_fill t hends
    refine ⟨w, s, d, p, ⟨n, hn⟩, hends, hseen, hready'.grown, ?_⟩
    have hon : Onward hidden s (T.start.store.cells.size ≤ ·) s := ⟨hready'.fresh, fun _ _ => rfl⟩
    exact hon.unfolds hw

end Site

/-! ## A template and its evaluation -/

/-- The course does not go wrong and keeps to the invariant, and its results are as said. -/
def Course.Safe {α : Type} (I : Trail → Prop) (K : Course α) (P : α → Prop) : Prop :=
  ∀ ⦃p⦄, I p → ¬ K.wrong p ∧ ∀ ⦃a q⦄, K.ends p a q → I q ∧ P a

namespace Course.Safe

variable {α β : Type} {I : Trail → Prop} {K : Course α} {P : α → Prop}

theorem pure {a : α} (h : P a) : (Pure.pure a : Course α).Safe I P := by
  refine fun p hp => ⟨id, ?_⟩
  rintro _ _ ⟨rfl, rfl⟩
  exact ⟨hp, h⟩

theorem require {c : Prop} (h : c) : (Course.require c).Safe I fun _ => True := by
  refine fun p hp => ⟨fun hw => hw h, ?_⟩
  rintro _ _ ⟨-, rfl⟩
  exact ⟨hp, trivial⟩

theorem bind {f : α → Course β} {Q : β → Prop} (hK : K.Safe I P)
    (hf : ∀ a, P a → (f a).Safe I Q) : (K >>= f).Safe I Q := by
  refine fun p hp => ⟨?_, ?_⟩
  · rintro (hw | ⟨a, q, ha, hw⟩)
    · exact (hK hp).1 hw
    · obtain ⟨hq, hP⟩ := (hK hp).2 ha
      exact (hf a hP hq).1 hw
  · rintro b r ⟨a, q, ha, hb⟩
    obtain ⟨hq, hP⟩ := (hK hp).2 ha
    exact (hf a hP hq).2 hb

end Course.Safe

namespace Site

variable {T : Site}

/-- A variable that is bound globally can be evaluated wherever nothing but cells is new. -/
theorem safe_variable {name : String} {x : Symbol} {v : Value}
    (hcode : ∀ c, T.code (.sym name) c → c = .sym x) (hglobal : T.start.global? x = some v)
    (hstays : T.Stays T.start) :
    (T.evaluated (.sym name)).Safe (fun p => T.start.Grows p.state) (· = .value v) := by
  have hreturns : ∀ {s}, T.start.Grows s →
      ∀ᶠ n in Filter.atTop, evaluate n (.sym x) T.env s = .ok v s := by
    intro s hs
    refine evaluate_global ?_ T.env
    rw [hs.rest]
    exact hglobal
  refine fun p hp => ⟨?_, ?_⟩
  · rintro ⟨c, s, hc, hs, -, hreturn⟩
    obtain rfl := hcode c hc
    have hgrown := State.Grows.trans hp hs
    obtain ⟨n, hn⟩ := (hreturns hgrown).exists
    exact hreturn ⟨v, s, ⟨n, hn⟩, hstays.grow (Nat.le_refl _) hgrown⟩
  · rintro d q ⟨c, s, w, t, hc, hs, ⟨n, hn⟩, -, rfl, rfl⟩
    obtain rfl := hcode c hc
    have hgrown := State.Grows.trans hp hs
    obtain ⟨m, hm, hle⟩ := ((hreturns hgrown).and (Filter.eventually_ge_atTop n)).exists
    rw [evaluate_mono hle (by rw [hn]; trivial), hn] at hm
    cases hm
    exact ⟨hgrown, rfl⟩

theorem safe_mark {I : Trail → Prop} {f : Form} {v : Value} (hf : f.isNil = false)
    (h : (T.evaluated f).Safe I (· = .value v)) (hv : (Datum.value v).isPromise = false) :
    (T.mark f).Safe I (· = .value v) := by
  rw [mark, if_neg (by simp [hf])]
  refine h.bind fun d hd => ?_
  subst hd
  exact (Course.Safe.require hv).bind fun _ _ => .pure rfl

end Site

namespace Sample

/-- A machine with four natives and two variables: `x` is 1, and `y` is a list of 2 and 3. -/
def machine : State where
  store := { capacity := 64
             cells := #[⟨.int 3, .nil⟩, ⟨.int 2, .pair ⟨0⟩⟩]
             callables := #[.native (.lists .list), .native (.lists .cons),
               .native (.lists .append), .native (.streams .princ)] }
  symbols := .ofNames ["x", "y", "a", "princ"]
  globals := Array.replicate 14 none ++ #[some (.callable ⟨0⟩), some (.callable ⟨1⟩),
    some (.callable ⟨2⟩), some (.int 1), some (.pair ⟨1⟩), none, some (.callable ⟨3⟩)]
  console := .ofText ""

/-- The elements of `y`, and then the value of `x`. -/
def template : Form := .list [.splice (.sym "y"), .unquote (.sym "x")]

/-- The machine after the expansion is read. -/
def state : State :=
  let lowered := template.expand.lower machine.store machine.symbols
  { machine with store := lowered.2.1, symbols := lowered.2.2 }

theorem sound_symbols : state.symbols.Sound := ⟨by decide +kernel, by decide +kernel⟩

/-- The expansion in the cells that reading has made for it. -/
def site : Site := .asRead state sound_symbols none 2 7 (by decide +kernel)

theorem code_expand : site.code template.expand (.pair ⟨6⟩) := by
  have hlower : template.expand.lower machine.store machine.symbols =
      (.ok (.pair ⟨6⟩), state.store, state.symbols) := Prod.ext rfl rfl
  exact (Form.lower_eq_ok hlower).2.1.held

theorem sealed_start : site.start.Sealed fun _ => False :=
  State.sealed_of_closed (by decide +kernel) sound_symbols

theorem stays_start : site.Stays site.start := by
  refine ⟨fun _ _ => rfl, fun b => ?_⟩
  cases b with
  | list => exact ⟨⟨0⟩, rfl, rfl⟩
  | cons => exact ⟨⟨1⟩, rfl, rfl⟩
  | append => exact ⟨⟨2⟩, rfl, rfl⟩

theorem safe_fill :
    (site.fill template).Safe (fun p => site.start.Grows p.state) fun _ => True := by
  have hvariable : ∀ {name : String} {x : Symbol} {v : Value},
      site.start.symbols.names[x.index]? = some name → site.start.global? x = some v →
      (Datum.value v).isPromise = false →
      (site.mark (.sym name)).Safe (fun p => site.start.Grows p.state) (· = .value v) := by
    intro name x v hname hglobal hv
    refine Site.safe_mark rfl (Site.safe_variable (x := x) (fun c hc => ?_) hglobal stays_start) hv
    obtain ⟨y, rfl, hy⟩ := Store.sym_of_atom? hc
    rw [sound_symbols.eq_of_name? hy hname]
  have hy : (site.mark (.sym "y")).Safe (fun p => site.start.Grows p.state)
      (· = .value (.pair ⟨1⟩)) := hvariable (x := ⟨18⟩) (by decide +kernel) rfl rfl
  have hx : (site.mark (.sym "x")).Safe (fun p => site.start.Grows p.state)
      (· = .value (.int 1)) := hvariable (x := ⟨17⟩) (by decide +kernel) rfl rfl
  have hsegments : (site.segments template).Safe (fun p => site.start.Grows p.state)
      (· = [.value (.pair ⟨1⟩), .list [.value (.int 1)]]) := by
    refine hy.bind fun d hd => ?_
    refine .bind (P := (· = [.list [.value (.int 1)]])) ?_ fun ds hds => .pure (by rw [hd, hds])
    refine .bind (P := (· = .list [.value (.int 1)])) ?_ fun d hd => .pure (by rw [hd])
    exact hx.bind fun d hd => .pure (by rw [hd])
  refine hsegments.bind fun ds hds p hp => ?_
  subst hds
  have hchain : p.state.store.Chain [.int 2, .int 3] .nil (.pair ⟨1⟩) :=
    Store.Chain.keeps (State.Grows.cells hp).keeps
      ⟨⟨1⟩, .pair ⟨0⟩, rfl, rfl, ⟨0⟩, .nil, rfl, rfl, rfl⟩
  refine ⟨fun hw => hw ⟨_, _, _, ⟨_, hchain, rfl⟩, rfl, rfl⟩, ?_⟩
  rintro _ _ ⟨-, rfl⟩
  exact ⟨hp, trivial⟩

end Sample

/-- The elements of a list in front of the value of a variable. -/
theorem Site.evaluate_expand_sample :
    Sample.site.code Sample.template.expand (.pair ⟨6⟩) ∧
      (Sample.site.start.Sealed fun _ => False) ∧ Sample.site.Stays Sample.site.start ∧
      ¬ (Sample.site.fill Sample.template).wrong ⟨Sample.site.start, []⟩ ∧
      (Sample.site.Overflows (.pair ⟨6⟩) Sample.site.start ∨
        ∃ w s d p, Sample.site.Returns (.pair ⟨6⟩) Sample.site.start w s ∧
          (Sample.site.fill Sample.template).ends ⟨Sample.site.start, []⟩ d p ∧
          p.seen = Sample.template.exprs ∧ p.state.Grows s ∧
          s.store.Unfolds (Sample.site.start.store.cells.size ≤ ·) w d) := by
  have hright : ¬ (Sample.site.fill Sample.template).wrong ⟨Sample.site.start, []⟩ :=
    (Sample.safe_fill (State.Grows.refl _)).1
  exact ⟨Sample.code_expand, Sample.sealed_start, Sample.stays_start, hright,
    Site.evaluate_expand Sample.site Sample.code_expand Sample.sealed_start Sample.stays_start
      hright⟩

/-! ## Splices that are no lists -/

namespace Sample

/-- Read a form into the machine and evaluate it. -/
def run (f : Form) : Outcome Value :=
  match f.lower machine.store machine.symbols with
  | (.ok v, store, symbols) => evaluate 32 v none { machine with store, symbols }
  | (.error fault, store, symbols) =>
      .halt (.failed { cause := .malformed fault.message }) { machine with store, symbols }

/-- What was printed, if a value other than a promise was returned. -/
def returned : Outcome Value → Option String
  | .ok v s => if (Datum.value v).isPromise then none else some s.sink.text
  | .halt _ _ => none

/-- The message of a failure, and what was printed before it. -/
def refused : Outcome Value → Option (String × String)
  | .halt (.failed f) s => some (f.message, s.sink.text)
  | _ => none

/-- A list that begins with a splice of 5, and then what printing a text returns. -/
def improper : Form :=
  .list [.list [.splice (.atom (.number (.small 5))), .sym "a"],
    .unquote (.call "princ" [.atom (.text "b")])]

end Sample

/-- Where a splice is no list, an expression after it need not be evaluated: both expressions of the
template return, and the second prints, but the expansion fails and prints nothing. The inner list
is put together before the second expression is reached. -/
theorem expand_stops_at_improper_splice :
    Sample.improper.exprs.map (fun f => Sample.returned (Sample.run f)) = [some "", some "b"] ∧
      Sample.refused (Sample.run Sample.improper.expand) =
        some ("proper list expected: 5", "") := by
  decide +kernel

end SmallLisp
