import SmallLisp.Proofs.Reading.Parsing

/-!
# What readers make

The atoms of a form that was read are such as the scanner makes of a token. They come from tokens,
or from the expansion of a mark, and the names which that brings in are words as well.
-/

namespace SmallLisp

/-! ## Forms -/

namespace Form

/-- Every atom of the form is such as the scanner makes. -/
def Scanned (f : Form) : Prop := ∀ a ∈ f.atoms, a.Scanned

@[simp] theorem scanned_atom {a : Atom} : (Form.atom a).Scanned ↔ a.Scanned := by
  simp [Scanned, atoms]

@[simp] theorem scanned_nil : nil.Scanned := by
  simp [nil, Atom.Scanned]

@[simp] theorem scanned_pair {a b : Form} : (Form.pair a b).Scanned ↔ a.Scanned ∧ b.Scanned := by
  simp only [Scanned, atoms, List.mem_append]
  exact ⟨fun h => ⟨fun x hx => h x (.inl hx), fun x hx => h x (.inr hx)⟩,
    fun h x hx => hx.elim (h.1 x) (h.2 x)⟩

@[simp] theorem scanned_unquote {f : Form} : (Form.unquote f).Scanned ↔ f.Scanned := Iff.rfl

@[simp] theorem scanned_splice {f : Form} : (Form.splice f).Scanned ↔ f.Scanned := Iff.rfl

@[simp] theorem scanned_vector {fs : List Form} :
    (Form.vector fs).Scanned ↔ ∀ f ∈ fs, f.Scanned := by
  induction fs with
  | nil => simp [Scanned, atoms, atomsAll]
  | cons f fs ih =>
      simp only [List.forall_mem_cons, ← ih]
      simp only [Scanned, atoms, atomsAll, List.mem_append]
      exact ⟨fun h => ⟨fun x hx => h x (.inl hx), fun x hx => h x (.inr hx)⟩,
        fun h x hx => hx.elim (h.1 x) (h.2 x)⟩

@[simp] theorem scanned_listWithTail {items : List Form} {tail : Form} :
    (listWithTail items tail).Scanned ↔ (∀ f ∈ items, f.Scanned) ∧ tail.Scanned := by
  induction items with
  | nil => simp [listWithTail]
  | cons f items ih =>
      simp only [listWithTail, List.foldr_cons, scanned_pair, List.forall_mem_cons, and_assoc]
      rw [← ih, listWithTail]

@[simp] theorem scanned_list {items : List Form} :
    (list items).Scanned ↔ ∀ f ∈ items, f.Scanned := by
  simp [list]

/-- The names that templates are expanded with are words. -/
theorem scanned_known {name : String}
    (h : name ∈ ["quote", "delay", "list", "cons", "append"]) : (sym name).Scanned := by
  simp only [sym, scanned_atom, Atom.Scanned]
  simp only [List.mem_cons, List.not_mem_nil, or_false] at h
  rcases h with rfl | rfl | rfl | rfl | rfl
  all_goals rfl

theorem scanned_call {name : String} (h : name ∈ ["quote", "delay", "list", "cons", "append"])
    {args : List Form} : (call name args).Scanned ↔ ∀ f ∈ args, f.Scanned := by
  simp [call, scanned_known h]

theorem scanned_toList? {f : Form} {items : List Form} (hf : f.Scanned)
    (h : f.toList? = some items) : ∀ g ∈ items, g.Scanned := by
  fun_induction toList? f generalizing items with
  | case1 =>
      cases h
      simp
  | case2 a b ih =>
      simp only [Option.map_eq_some_iff] at h
      obtain ⟨rest, hrest, rfl⟩ := h
      rw [scanned_pair] at hf
      rw [List.forall_mem_cons]
      exact ⟨hf.1, ih hf.2 hrest⟩
  | case3 => cases h

theorem scanned_args? {f : Form} {name : String} {args : List Form} (hf : f.Scanned)
    (h : f.args? name = some args) : ∀ g ∈ args, g.Scanned := by
  unfold args? at h
  split at h
  · rename_i s items hs
    have hitems := scanned_toList? hf hs
    split at h
    · cases h
      exact fun g hg => hitems g (by simp [hg])
    · cases h
  · cases h

theorem scanned_consChain {items : List Form} {tail : Form} (hi : ∀ f ∈ items, f.Scanned)
    (ht : tail.Scanned) : (consChain items tail).Scanned := by
  induction items with
  | nil => exact ht
  | cons f items ih =>
      rw [List.forall_mem_cons] at hi
      simp [consChain] at ih ⊢
      simp [scanned_call, hi.1, ih hi.2]

theorem scanned_quoted {f : Form} (hf : f.Scanned) : f.quoted.Scanned := by
  unfold quoted
  split
  · simpa [scanned_call] using hf
  · simpa [scanned_call] using hf
  · exact hf

theorem scanned_contribution {item expanded : Form} (hi : item.Scanned)
    (he : expanded.Scanned) : (contribution item expanded).Scanned := by
  unfold contribution
  split
  · simpa [scanned_call] using hi
  · exact hi
  · simpa [scanned_call] using he

theorem scanned_combine {head : Form} {rest : List Form} (hh : head.Scanned)
    (hr : ∀ f ∈ rest, f.Scanned) : ∀ f ∈ combine head rest, f.Scanned := by
  unfold combine
  split
  · simpa using hh
  · rename_i first more
    rw [List.forall_mem_cons] at hr
    split
    · simpa using hh
    · split
      · simp only [List.forall_mem_cons]
        exact ⟨hh, hr⟩
      · rename_i args hargs
        have ha := scanned_args? hh hargs
        split
        · rename_i others hothers
          have ho := scanned_args? hr.1 hothers
          rw [List.forall_mem_cons, scanned_call (by simp), List.forall_mem_append]
          exact ⟨⟨ha, ho⟩, hr.2⟩
        · split
          · simp only [List.forall_mem_cons]
            exact ⟨hh, hr⟩
          · rw [List.forall_mem_cons]
            exact ⟨scanned_consChain ha hr.1, hr.2⟩

theorem scanned_appended {args : List Form} (h : ∀ f ∈ args, f.Scanned) :
    (appended args).Scanned := by
  unfold appended
  split
  · split
    · simpa using h
    · simpa [scanned_call] using h
  · simpa [scanned_call] using h

mutual

theorem scanned_expand : ∀ {f : Form}, f.Scanned → f.expand.Scanned
  | .pair a b, h => by
      rw [scanned_pair] at h
      rw [expand]
      exact scanned_appended (scanned_combine (scanned_contribution h.1 (scanned_expand h.1))
        (scanned_expandItems h.2))
  | .unquote f, h => by
      rw [expand]
      exact h
  | .splice f, h => scanned_quoted h
  | .atom a, h => scanned_quoted h
  | .vector fs, h => scanned_quoted h

theorem scanned_expandItems : ∀ {f : Form}, f.Scanned → ∀ g ∈ f.expandItems, g.Scanned
  | .pair a b, h => by
      rw [scanned_pair] at h
      rw [expandItems]
      exact scanned_combine (scanned_contribution h.1 (scanned_expand h.1))
        (scanned_expandItems h.2)
  | .unquote f, h => by simpa [expandItems] using h
  | .splice f, h => by simpa [expandItems] using scanned_quoted h
  | .atom a, h => by simpa [expandItems] using scanned_quoted h
  | .vector fs, h => by simpa [expandItems] using scanned_quoted h

end

end Form

/-! ## Tokens -/

theorem Num.normalize_ofInt (n : Int) : (ofInt n).normalize = ofInt n := by
  by_cases h : fits n
  · simp [ofInt, h, normalize]
  · simp [ofInt, h, normalize]

namespace Token

theorem scanned_of_number? {word : List Char} {n : Num} (h : Literal.number? word = some n) :
    n.normalize = n := by
  unfold Literal.number? at h
  simp only at h
  split at h
  · cases h
    exact Num.normalize_ofInt _
  · split at h
    · rw [Option.map_eq_some_iff] at h
      obtain ⟨x, -, rfl⟩ := h
      rfl
    · cases h

theorem scanned_of_classify? {word : List Char} {a : Atom} (h : classify? word = some a) :
    a.Scanned := by
  have hword := h
  unfold classify? at h
  split at h
  · cases h
    trivial
  · split at h
    · rename_i n hn
      cases h
      exact scanned_of_number? hn
    · simp only [Option.ite_none_right_eq_some, Option.some.injEq] at h
      obtain ⟨-, rfl⟩ := h
      simpa [Atom.Scanned] using hword

/-- The atoms of tokens are such as the scanner makes. -/
theorem scanned_of_scan {c : Char} {cs rest : List Char} {a : Atom}
    (h : scan c cs = (.ok (.atom a), rest)) : a.Scanned := by
  unfold scan at h
  split at h
  · rename_i t ht
    cases h
    unfold single? at ht
    repeat' split at ht
    all_goals cases ht
  · split at h
    · split at h <;> cases h
    · split at h
      · split at h
        · cases h
          trivial
        · cases h
      · unfold scanWord at h
        simp only at h
        split at h
        · rename_i a' ha
          cases h
          exact scanned_of_classify? ha
        · cases h

end Token

/-! ## The parser -/

/-- The forms that an unfinished form has so far. -/
def Pending.forms : Pending → List Form
  | .list items => items
  | .tail items => items
  | .close items last => last :: items
  | .vector items => items
  | .mark _ => []

namespace Parser

/-- Every form on the stack is such as readers make. -/
def Scanned (stack : List Pending) : Prop := ∀ p ∈ stack, ∀ f ∈ p.forms, f.Scanned

/-- What the parser has after a token is such as readers make. -/
def ScannedProgress : Progress → Prop
  | .more stack => Scanned stack
  | .done f => f.Scanned
  | .fault _ => True

@[simp] theorem scanned_nil : Scanned [] := by simp [Scanned]

@[simp] theorem scanned_cons {p : Pending} {stack : List Pending} :
    Scanned (p :: stack) ↔ (∀ f ∈ p.forms, f.Scanned) ∧ Scanned stack := by
  simp [Scanned]

theorem scanned_apply (m : Mark) {f : Form} (hf : f.Scanned) : (m.apply f).Scanned := by
  cases m with
  | quote => simpa [Mark.apply, Form.scanned_call] using hf
  | delay => simpa [Mark.apply, Form.scanned_call] using hf
  | template => exact Form.scanned_expand hf
  | unquote => exact hf
  | splice => exact hf

theorem scanned_complete {f : Form} {stack : List Pending} (hf : f.Scanned)
    (hs : Scanned stack) : ScannedProgress (complete f stack) := by
  fun_induction complete f stack with
  | case1 f => exact hf
  | case2 f items stack =>
      simp only [scanned_cons, Pending.forms] at hs
      simpa [ScannedProgress, Pending.forms, hf] using hs
  | case3 f items stack =>
      simp only [scanned_cons, Pending.forms] at hs
      simpa [ScannedProgress, Pending.forms, hf] using hs
  | case4 => trivial
  | case5 f items stack =>
      simp only [scanned_cons, Pending.forms] at hs
      simpa [ScannedProgress, Pending.forms, hf] using hs
  | case6 f m stack ih =>
      rw [scanned_cons] at hs
      exact ih (scanned_apply m hf) hs.2

theorem scanned_start {stack : List Pending} {t : Token} (hs : Scanned stack)
    (ht : ∀ a, t = .atom a → a.Scanned) : ScannedProgress (start stack t) := by
  cases t with
  | atom a => exact scanned_complete (Form.scanned_atom.2 (ht a rfl)) hs
  | _ => simp [start, ScannedProgress, Pending.forms, hs]

theorem scanned_feed {stack : List Pending} {t : Token} (hs : Scanned stack)
    (ht : ∀ a, t = .atom a → a.Scanned) : ScannedProgress (feed stack t) := by
  unfold feed
  split
  · simp only [scanned_cons, Pending.forms] at hs
    exact scanned_complete (by simpa using hs.1) hs.2
  · simpa [ScannedProgress, Pending.forms] using hs
  · simp only [scanned_cons, Pending.forms] at hs
    refine scanned_complete ?_ hs.2
    simpa [and_comm] using hs.1
  · trivial
  · simp only [scanned_cons, Pending.forms] at hs
    exact scanned_complete (by simpa using hs.1) hs.2
  · exact scanned_start hs ht

end Parser

namespace Reader

theorem scanned_next {sc sc' : Scanner} {src src' : LineSource} {a : Atom}
    (h : sc.next src = (.ok (some (.atom a)), sc', src')) : a.Scanned := by
  unfold Scanner.next at h
  split at h
  · split at h
    · rename_i hscan
      cases h
      exact Token.scanned_of_scan hscan
    · cases h
  · cases h
  · cases h

/-- The atoms of a form that was read are such as the scanner makes. -/
theorem scanned_readForm {stack : List Pending} {sc sc' : Scanner} {src src' : LineSource}
    {f : Form} (hs : Parser.Scanned stack)
    (h : readForm stack sc src = (.ok (some f), sc', src')) : f.Scanned := by
  fun_induction readForm stack sc src with
  | case1 => cases h
  | case2 => cases h
  | case3 => cases h
  | case4 stack sc src t sc₁ src₁ hnext g hfeed =>
      cases h
      have ht : ∀ a, t = .atom a → a.Scanned := fun a ha => scanned_next (ha ▸ hnext)
      have hp := Parser.scanned_feed hs ht
      rwa [hfeed] at hp
  | case5 => cases h
  | case6 stack sc src t sc₁ src₁ hnext stack' hfeed ih =>
      have ht : ∀ a, t = .atom a → a.Scanned := fun a ha => scanned_next (ha ▸ hnext)
      have hp := Parser.scanned_feed hs ht
      rw [hfeed] at hp
      exact ih hp h

end Reader

end SmallLisp
