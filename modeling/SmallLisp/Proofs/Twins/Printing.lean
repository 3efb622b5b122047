import SmallLisp.Proofs.Printing.Course
import SmallLisp.Proofs.Twins.Links

/-!
# Printing alike

Values that are alike print alike. The two printers go the same way, and remember things that belong
together, until one of them meets a function; from there on the texts may be different.
-/

namespace SmallLisp

namespace Links

/-- What belongs together shows the same in the two stores, functions apart. -/
structure Shows (L : Links) (s t : Store) : Prop where
  oneToOne : L.OneToOne
  cells : ∀ {r q : Ref .cell}, L .cell r.index q.index →
    L.Like (s.car r) (t.car q) ∧ L.Like (s.cdr r) (t.cdr q)
  texts : ∀ {r q : Ref .text}, L .text r.index q.index → t.text q = s.text r
  bignums : ∀ {r q : Ref .bignum}, L .bignum r.index q.index → t.bignum q = s.bignum r
  vectors : ∀ {r q : Ref .vector}, L .vector r.index q.index →
    L.LikeAll (s.vector r).toList (t.vector q).toList
  promises : ∀ {r q : Ref .promise}, L .promise r.index q.index →
    (∃ v w, s.promise r = .delivered v ∧ t.promise q = .delivered w ∧ L.Like v w) ∨
      ∃ form env form' env', s.promise r = .pending form env ∧ t.promise q = .pending form' env'
  callables : ∀ {r q : Ref .callable}, L .callable r.index q.index →
    (∃ n, s.callable r = .native n ∧ t.callable q = .native n) ∨
      ∃ shape b env b' env', s.callable r = .closure shape b env ∧
        t.callable q = .closure shape b' env'
  failures : ∀ {r q : Ref .failure}, L .failure r.index q.index →
    L.LikeFailure (s.failure r) (t.failure q)

end Links

namespace Printer

open Links

variable {L : Links} {s t : Store} {symbols : SymbolTable} {escape : Bool}

/-- The nodes belong together. -/
def LikeNode (L : Links) : Node → Node → Prop
  | .cell r, .cell q => L .cell r.index q.index
  | .vector r, .vector q => L .vector r.index q.index
  | _, _ => False

/-- The values show the same way, or show functions. -/
inductive LikeShown (L : Links) : Shown → Shown → Prop
  | word {a b : String} : Alike a b → LikeShown L (.word a) (.word b)
  | node {n m : Node} : LikeNode L n m → LikeShown L (.node n) (.node m)
  | delivered {v w : Value} : L.Like v w → LikeShown L (.delivered v) (.delivered w)
  | function (shape shape' : Shape) (b b' : Value) :
      LikeShown L (.function "#<closure>" shape b) (.function "#<closure>" shape' b')

/-- What is printed at one time is alike. -/
inductive LikePart (L : Links) : Part → Part → Prop
  | value {v w : Value} : L.Like v w → LikePart L (.value v) (.value w)
  | shown {x y : Shown} : LikeShown L x y → LikePart L (.shown x) (.shown y)
  | inside {n m : Node} : LikeNode L n m → LikePart L (.inside n) (.inside m)
  | rest {v w : Value} : L.Like v w → LikePart L (.rest v) (.rest w)
  | items {vs ws : List Value} : L.LikeAll vs ws → LikePart L (.items vs) (.items ws)

/-- The printers have seen what belongs together, and have the same allowance. -/
structure LikeMemo (L : Links) (memo memo' : PrintMemo) : Prop where
  seen : ∀ {n m}, LikeNode L n m → memo'.seen m = memo.seen n
  repeats : memo'.repeats = memo.repeats

theorem LikeNode.eq_iff (hL : L.OneToOne) {n m n' m' : Node} (h : LikeNode L n m)
    (h' : LikeNode L n' m') : (m == m') = (n == n') := by
  rw [Bool.eq_iff_iff]
  rcases n with ⟨⟨i⟩⟩ | ⟨⟨i⟩⟩ <;> rcases m with ⟨⟨j⟩⟩ | ⟨⟨j⟩⟩ <;>
    rcases n' with ⟨⟨i'⟩⟩ | ⟨⟨i'⟩⟩ <;> rcases m' with ⟨⟨j'⟩⟩ | ⟨⟨j'⟩⟩ <;>
    first
    | exact h.elim
    | exact h'.elim
    | (have hiff := hL h h'; simpa using hiff.symm)
    | simp

theorem LikeMemo.mark (hL : L.OneToOne) {memo memo' : PrintMemo} (h : LikeMemo L memo memo')
    {n m : Node} (hn : LikeNode L n m) : LikeMemo L (memo.mark n) (memo'.mark m) where
  seen hn' := by rw [PrintMemo.seen_mark, PrintMemo.seen_mark, hn.eq_iff hL hn', h.seen hn']
  repeats := by rw [PrintMemo.repeats_mark, PrintMemo.repeats_mark, h.repeats]

/-- Either printer may enter a node if the other may. -/
theorem LikeMemo.enter? {memo memo' : PrintMemo} (h : LikeMemo L memo memo') {n m : Node}
    (hn : LikeNode L n m) :
    Option.Rel (LikeMemo L) (enter? (memo.seen n) memo) (enter? (memo'.seen m) memo') := by
  obtain ⟨hseen, hrepeats⟩ := h
  rw [hseen hn]
  cases memo.seen n with
  | false => exact .some ⟨hseen, hrepeats⟩
  | true =>
      unfold Printer.enter?
      simp only [Bool.not_true, Bool.false_eq_true, if_false]
      rw [hrepeats]
      cases memo.repeats with
      | zero => exact .none
      | succ repeats =>
          refine .some ⟨fun {n m} hn => ?_, rfl⟩
          have := hseen hn
          cases n <;> cases m <;> exact this

theorem LikeMemo.leave {memo memo' : PrintMemo} (h : LikeMemo L memo memo') (again : Bool) :
    LikeMemo L (leave again memo) (leave again memo') where
  seen hn := by rw [seen_leave, seen_leave, h.seen hn]
  repeats := by
    cases again with
    | false => exact h.repeats
    | true => exact congrArg (· + 1) h.repeats

/-- A list goes on where the other one does. -/
theorem goesOn_iff {memo memo' : PrintMemo} (h : LikeMemo L memo memo') {v w : Value}
    (hv : L.Like v w) : GoesOn memo v ↔ GoesOn memo' w := by
  cases hv with
  | @pair r q hr =>
      have hseen : memo'.seen (.cell q) = memo.seen (.cell r) := h.seen (n := .cell r) hr
      rw [GoesOn, GoesOn, hseen]
  | _ => exact Iff.rfl

theorem quotedValue?_rel (h : L.Shows s t) {r q : Ref .cell} (hr : L .cell r.index q.index) :
    Option.Rel L.Like (quotedValue? s r) (quotedValue? t q) := by
  obtain ⟨hcar, hcdr⟩ := h.cells hr
  unfold quotedValue?
  rw [hcar.isSym_eq]
  by_cases hquote : (s.car r).isSym Symbol.quote = true
  · rw [if_pos hquote, if_pos hquote]
    generalize s.cdr r = v at hcdr
    generalize t.cdr q = w at hcdr
    cases hcdr with
    | @pair next next' hnext =>
        obtain ⟨hcar', hcdr'⟩ := h.cells hnext
        simp only
        rw [hcdr'.isNil_eq]
        by_cases hnil : (s.cdr next).isNil = true
        · rw [if_pos hnil, if_pos hnil]
          exact .some hcar'
        · rw [if_neg hnil, if_neg hnil]
          exact .none
    | _ => exact .none
  · rw [if_neg hquote, if_neg hquote]
    exact .none

/-- Values that are alike show alike. -/
theorem shown_like (h : L.Shows s t) {v w : Value} (hv : L.Like v w) :
    LikeShown L (shown ⟨s, symbols, escape⟩ v) (shown ⟨t, symbols, escape⟩ w) := by
  have hshown : ∀ {a b : String}, b = a → LikeShown L (.word a) (.word b) :=
    fun hab => .word (.inl hab.symm)
  cases hv with
  | big hr => exact hshown (by simp only [plain, value, h.bignums hr])
  | text hr => exact hshown (by simp only [plain, value, h.texts hr])
  | pair hr => exact .node hr
  | vector hr => exact .node hr
  | failure hr => exact .word ((h.failures hr).message.before _)
  | @promise r q hr =>
      rcases h.promises hr with ⟨v, w, hs, ht, hvw⟩ | ⟨_, _, _, _, hs, ht⟩
      · simp only [shown, hs, ht]
        exact .delivered hvw
      · simp only [shown, plain, value, hs, ht]
        have hmark : Parted "#<promise:" "#<promise:" := ⟨"", "promise:", "promise:", rfl, rfl⟩
        exact .word (.inr ((hmark.after _ _).after ">" ">"))
  | callable hr =>
      rcases h.callables hr with ⟨n, hs, ht⟩ | ⟨shape, b, _, b', _, hs, ht⟩
      · simp only [shown, plain, value, callable, hs, ht]
        exact hshown rfl
      · simp only [shown, hs, ht]
        exact .function shape shape b b'
  | _ => exact hshown rfl

/-- What two printers have printed is the same, and what they remember belongs together; or the
texts have parted. -/
def Abreast (L : Links) (text text' : String) (memo memo' : PrintMemo) : Prop :=
  (text = text' ∧ LikeMemo L memo memo') ∨ Parted text text'

namespace Abreast

variable {a b c d : String} {memo memo' memo₁ memo₁' : PrintMemo}

theorem before (h : Abreast L a b memo memo') (c : String) :
    Abreast L (c ++ a) (c ++ b) memo memo' := by
  rcases h with ⟨rfl, hmemo⟩ | hparted
  · exact .inl ⟨rfl, hmemo⟩
  · exact .inr (hparted.before c)

theorem after (h : Abreast L a b memo memo') (c : String) :
    Abreast L (a ++ c) (b ++ c) memo memo' := by
  rcases h with ⟨rfl, hmemo⟩ | hparted
  · exact .inl ⟨rfl, hmemo⟩
  · exact .inr (hparted.after c c)

/-- Once the texts have parted, it does not matter what follows. -/
theorem append (h : Abreast L a b memo memo')
    (hrest : LikeMemo L memo memo' → Abreast L c d memo₁ memo₁') :
    Abreast L (a ++ c) (b ++ d) memo₁ memo₁' := by
  rcases h with ⟨rfl, hmemo⟩ | hparted
  · exact (hrest hmemo).before a
  · exact .inr (hparted.after c d)

theorem leave (h : Abreast L a b memo memo') (again : Bool) :
    Abreast L a b (leave again memo) (leave again memo') :=
  h.imp (fun h => ⟨h.1, h.2.leave again⟩) id

end Abreast

/-- Parts that are alike print alike, and what was seen goes on belonging together until the texts
part. -/
theorem Course.alike (h : L.Shows s t) {depth : Nat} {part part' : Part}
    {memo memo₁ memo' memo₁' : PrintMemo} {text text' : String} {chains chains' : List (List Entry)}
    (hs : Course ⟨s, symbols, escape⟩ depth part memo text memo₁ chains)
    (ht : Course ⟨t, symbols, escape⟩ depth part' memo' text' memo₁' chains')
    (hpart : LikePart L part part') (hmemo : LikeMemo L memo memo') :
    Abreast L text text' memo₁ memo₁' := by
  have hL := h.oneToOne
  induction hs generalizing part' memo' text' memo₁' chains' with
  | tooDeep hd =>
      cases hpart
      cases ht with
      | tooDeep => exact .inl ⟨rfl, hmemo⟩
      | value hd' => omega
  | value hd _ ih =>
      cases hpart with
      | value hv =>
          cases ht with
          | tooDeep hd' => omega
          | value _ ht => exact ih ht (.shown (shown_like h hv)) hmemo
  | word =>
      cases hpart with
      | shown hx =>
          cases hx with
          | word hab =>
              cases ht
              exact hab.imp (fun hab => ⟨hab, hmemo⟩) id
  | refused he =>
      cases hpart with
      | shown hx =>
          cases hx with
          | node hn =>
              have henter := hmemo.enter? hn
              rw [he] at henter
              cases ht with
              | refused => exact .inl ⟨rfl, hmemo⟩
              | entered he' =>
                  rw [he'] at henter
                  cases henter
  | entered he _ ih =>
      cases hpart with
      | shown hx =>
          cases hx with
          | node hn =>
              have henter := hmemo.enter? hn
              rw [he] at henter
              cases ht with
              | refused he' =>
                  rw [he'] at henter
                  cases henter
              | entered he' ht =>
                  rw [he'] at henter
                  cases henter with
                  | some hmemo₁ =>
                      rw [hmemo.seen hn]
                      exact (ih ht (.inside hn) (hmemo₁.mark hL hn)).leave _
  | delivered _ ih =>
      cases hpart with
      | shown hx =>
          cases hx with
          | delivered hv =>
              cases ht with
              | delivered ht => exact ih ht (.value hv) hmemo
  | function _ ih =>
      cases hpart with
      | shown hx =>
          cases hx with
          | function =>
              cases ht
              have hlabel : Parted ("(" ++ "#<closure>") ("(" ++ "#<closure>") :=
                ⟨"(", "closure>", "closure>", rfl, rfl⟩
              exact .inr ((((hlabel.after " " " ").after _ _).after _ _).after ")" ")")
  | quoted hq _ ih =>
      cases hpart with
      | @inside _ m hn =>
          cases m with
          | vector => exact hn.elim
          | cell q =>
              have hquoted := quotedValue?_rel h hn
              rw [hq] at hquoted
              cases ht with
              | quoted hq' ht =>
                  rw [hq'] at hquoted
                  cases hquoted with
                  | some hv => exact (ih ht (.value hv) hmemo).before "'"
              | list hq' =>
                  rw [hq'] at hquoted
                  cases hquoted
  | list hq _ _ ih₁ ih₂ =>
      cases hpart with
      | @inside _ m hn =>
          cases m with
          | vector => exact hn.elim
          | cell q =>
              have hquoted := quotedValue?_rel h hn
              rw [hq] at hquoted
              cases ht with
              | quoted hq' =>
                  rw [hq'] at hquoted
                  cases hquoted
              | list _ ht₁ ht₂ =>
                  obtain ⟨hcar, hcdr⟩ := h.cells hn
                  exact (((ih₁ ht₁ (.value hcar) hmemo).before "(").append
                    fun hmemo₁ => ih₂ ht₂ (.rest hcdr) hmemo₁).after ")"
  | vector _ ih =>
      cases hpart with
      | @inside _ m hn =>
          cases m with
          | cell => exact hn.elim
          | vector q =>
              cases ht with
              | vector ht => exact ((ih ht (.items (h.vectors hn)) hmemo).before "[").after "]"
  | stop =>
      cases hpart with
      | rest hv =>
          cases hv
          cases ht with
          | stop => exact .inl ⟨rfl, hmemo⟩
          | dotted hg => exact absurd trivial hg
  | next hn _ _ ih₁ ih₂ =>
      cases hpart with
      | rest hv =>
          cases ht with
          | next _ ht₁ ht₂ =>
              cases hv with
              | pair hr =>
                  obtain ⟨hcar, hcdr⟩ := h.cells hr
                  have hmark := hmemo.mark hL (n := .cell _) (m := .cell _) hr
                  exact ((ih₁ ht₁ (.value hcar) hmark).before " ").append
                    fun hmemo₁ => ih₂ ht₂ (.rest hcdr) hmemo₁
          | stop => cases hv
          | dotted hg => exact absurd ((goesOn_iff hmemo hv).1 hn) hg
  | dotted hg _ ih =>
      cases hpart with
      | rest hv =>
          have hg' := mt (goesOn_iff hmemo hv).2 hg
          cases ht with
          | stop => exact absurd trivial hg'
          | next hn => exact absurd hn hg'
          | dotted _ ht => exact (ih ht (.value hv) hmemo).before " . "
  | none =>
      cases hpart with
      | items hvs =>
          cases hvs
          cases ht
          exact .inl ⟨rfl, hmemo⟩
  | last _ ih =>
      cases hpart with
      | items hvs =>
          obtain ⟨w, _, hv, hnil, rfl⟩ := List.forall₂_cons_left_iff.1 hvs
          cases hnil
          cases ht with
          | last ht => exact ih ht (.value hv) hmemo
  | item _ _ ih₁ ih₂ =>
      cases hpart with
      | items hvs =>
          obtain ⟨w, _, hv, hrest, rfl⟩ := List.forall₂_cons_left_iff.1 hvs
          obtain ⟨w', ws, hv', hws, rfl⟩ := List.forall₂_cons_left_iff.1 hrest
          cases ht with
          | item ht₁ ht₂ =>
              exact ((ih₁ ht₁ (.value hv) hmemo).after " ").append
                fun hmemo₁ => ih₂ ht₂ (.items (.cons hv' hws)) hmemo₁

/-- Values that are alike print alike. -/
theorem print_alike (h : L.Shows s t) (symbols : SymbolTable) (escape : Bool) (repeats : Nat)
    {v w : Value} (hv : L.Like v w) :
    Alike (print s symbols escape repeats v) (print t symbols escape repeats w) := by
  obtain ⟨_, _, hs⟩ := course_print s symbols escape repeats v
  obtain ⟨_, _, ht⟩ := course_print t symbols escape repeats w
  have hmemo : LikeMemo L { repeats } { repeats } := by
    refine ⟨fun {n m} hn => ?_, rfl⟩
    cases n <;> cases m <;> simp [PrintMemo.seen]
  exact (hs.alike h ht (.value hv) hmemo).imp And.left id

theorem printAll_alike (h : L.Shows s t) (symbols : SymbolTable) (repeats : Nat)
    {vs ws : List Value} (hvs : L.LikeAll vs ws) :
    Alike (printAll s symbols repeats vs) (printAll t symbols repeats ws) := by
  have hjoined : ∀ {as bs : List String}, List.Forall₂ Alike as bs →
      Alike (" ".intercalate as) (" ".intercalate bs) := by
    intro as bs hab
    induction hab with
    | nil => exact .refl _
    | cons hab hrest ih =>
        cases hrest with
        | nil =>
            rw [String.intercalate_singleton, String.intercalate_singleton]
            exact hab
        | cons =>
            rw [String.intercalate_cons_cons, String.intercalate_cons_cons]
            exact (hab.after " ").append ih
  refine (Alike.before (hjoined ?_) "[").after "]"
  rw [List.forall₂_map_left_iff, List.forall₂_map_right_iff]
  exact hvs.imp fun _ _ => print_alike h symbols true repeats

/-! ## The capacity is not shown -/

theorem shown_withCapacity (s : Store) (k : Nat) (v : Value) :
    shown ⟨{ s with capacity := k }, symbols, escape⟩ v = shown ⟨s, symbols, escape⟩ v := by
  have hpromise : ∀ r, { s with capacity := k }.promise r = s.promise r := fun _ => rfl
  have hcallable : ∀ r, { s with capacity := k }.callable r = s.callable r := fun _ => rfl
  cases v with
  | promise r => simp only [shown, plain, value, hpromise]
  | callable r =>
      simp only [shown, plain, value, callable, hcallable]
      cases s.callable r <;> rfl
  | _ => rfl

theorem Course.withCapacity {depth : Nat} {part : Part} {memo memo' : PrintMemo} {text : String}
    {chains : List (List Entry)}
    (h : Course ⟨s, symbols, escape⟩ depth part memo text memo' chains) (k : Nat) :
    Course ⟨{ s with capacity := k }, symbols, escape⟩ depth part memo text memo' chains := by
  induction h with
  | tooDeep hd => exact .tooDeep hd
  | value hd _ ih => exact .value hd (by rw [shown_withCapacity]; exact ih)
  | word => exact .word
  | refused he => exact .refused he
  | entered he _ ih => exact .entered he ih
  | delivered _ ih => exact .delivered ih
  | function _ ih => exact .function ih
  | quoted hq _ ih => exact .quoted hq ih
  | list hq _ _ ih₁ ih₂ => exact .list hq ih₁ ih₂
  | vector _ ih => exact .vector ih
  | stop => exact .stop
  | next hn _ _ ih₁ ih₂ => exact .next hn ih₁ ih₂
  | dotted hg _ ih => exact .dotted hg ih
  | none => exact .none
  | last _ ih => exact .last ih
  | item _ _ ih₁ ih₂ => exact .item ih₁ ih₂

theorem print_withCapacity (s : Store) (k : Nat) (symbols : SymbolTable) (escape : Bool)
    (repeats : Nat) (v : Value) :
    print { s with capacity := k } symbols escape repeats v = print s symbols escape repeats v := by
  obtain ⟨_, _, h⟩ := course_print s symbols escape repeats v
  obtain ⟨_, _, h'⟩ := course_print { s with capacity := k } symbols escape repeats v
  exact (h'.unique (h.withCapacity k)).1

theorem printAll_withCapacity (s : Store) (k : Nat) (symbols : SymbolTable) (repeats : Nat)
    (vs : List Value) :
    printAll { s with capacity := k } symbols repeats vs = printAll s symbols repeats vs := by
  have hprint : print { s with capacity := k } symbols true repeats =
      print s symbols true repeats := funext (print_withCapacity s k symbols true repeats)
  rw [printAll, hprint, printAll]

end Printer

end SmallLisp
