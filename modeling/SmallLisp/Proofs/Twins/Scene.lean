import SmallLisp.Proofs.Twins.Meeting
import SmallLisp.Proofs.Twins.Printing
import SmallLisp.Proofs.Twins.Programs

/-!
# Machines that correspond

Two machines correspond, by links between them, if what is linked has contents that are alike: data
that is alike, promises of twin forms and closures with twin bodies. Whatever one machine has in
addition, its own code above all, is not linked. Cells that are linked are data, and a program may
overwrite them; the code of both machines has no such cells, and stays as it is.
-/

namespace SmallLisp

open Eval Code

/-! ## Parts of states -/

/-- The thing is the same in both states. -/
def State.SameAt (s t : State) : Kind → Nat → Prop
  | .cell, i => t.store.cells[i]? = s.store.cells[i]?
  | .text, i => t.store.texts[i]? = s.store.texts[i]?
  | .bignum, i => t.store.bignums[i]? = s.store.bignums[i]?
  | .vector, i => t.store.vectors[i]? = s.store.vectors[i]?
  | .promise, i => t.store.promises[i]? = s.store.promises[i]?
  | .callable, i => t.store.callables[i]? = s.store.callables[i]?
  | .failure, i => t.store.failures[i]? = s.store.failures[i]?
  | .frame, i => t.frames.table[i]? = s.frames.table[i]?

theorem State.SameAt.refl (s : State) (k : Kind) (i : Nat) : s.SameAt s k i := by cases k <;> rfl

/-- The second state has more things than the first. Variables may be bound in it; all else is the
same. -/
structure State.Beyond (s t : State) : Prop where
  same : ∀ k i, i < s.count k → s.SameAt t k i
  rest : t = { s with
    store := { t.store with capacity := s.store.capacity, dummies := s.store.dummies }
    frames := t.frames
    globals := t.globals }

namespace State.Beyond

variable {s t u : State} {k : Kind} {i : Nat}

theorem lt_count (h : s.Beyond t) (hi : i < s.count k) : i < t.count k := by
  have hsame := h.same k i hi
  cases k <;> simp only [SameAt, count] at hsame hi ⊢ <;>
    · rw [Array.getElem?_eq_getElem hi] at hsame
      exact (Array.getElem?_eq_some_iff.1 hsame).1

theorem count_le (h : s.Beyond t) (k : Kind) : s.count k ≤ t.count k := by
  by_contra hlt
  exact absurd (h.lt_count (Nat.lt_of_not_le hlt)) (Nat.lt_irrefl _)

theorem trans (h : s.Beyond t) (h' : t.Beyond u) : s.Beyond u where
  same k i hi := by
    have hst := h.same k i hi
    have htu := h'.same k i (h.lt_count hi)
    cases k <;> exact Eq.trans htu hst
  rest := by
    have hu := h'.rest
    rw [h.rest] at hu
    exact hu

theorem keepsCells (h : s.Beyond t) : s.store.KeepsCells t.store := by
  intro r c hr
  exact (h.same .cell r.index (Store.lt_of_cell? hr)).trans hr

theorem keepsCallables (h : s.Beyond t) : s.store.KeepsCallables t.store := by
  intro i f hi
  exact (h.same .callable i (Array.getElem?_eq_some_iff.1 hi).1).trans hi

theorem symbols (h : s.Beyond t) : t.symbols = s.symbols := by rw [h.rest]

theorem config (h : s.Beyond t) : t.config = s.config := by rw [h.rest]

theorem sink (h : s.Beyond t) : t.sink = s.sink := by rw [h.rest]

theorem dummies (h : s.Beyond t) : t.store.dummies = s.store.dummies := by rw [h.rest]

/-- What is in sight stays so, if no cell that there was is put out of sight. -/
theorem veil {hidden hidden' : Nat → Prop} (h : s.Beyond t)
    (hhidden : ∀ i, i < s.store.cells.size → (hidden' i ↔ hidden i)) :
    (s.store.veil hidden).KeepsCode (t.store.veil hidden') :=
  .veil (fun r c hr _ => h.keepsCells r c hr) (fun r c hr => ⟨c, h.keepsCells r c hr⟩)
    h.keepsCallables fun r _ hr => hhidden r.index (Store.lt_of_cell? hr)

end State.Beyond

/-- The second state has more things than the first, and is the same otherwise. -/
structure State.Wider (s t : State) : Prop extends s.Beyond t where
  globals : t.globals = s.globals

namespace State.Wider

variable {s t u : State}

theorem refl (s : State) : s.Wider s := ⟨⟨fun k i _ => .refl s k i, rfl⟩, rfl⟩

theorem trans (h : s.Wider t) (h' : t.Wider u) : s.Wider u :=
  ⟨h.toBeyond.trans h'.toBeyond, h'.globals.trans h.globals⟩

theorem global? (h : s.Wider t) (x : Symbol) : t.global? x = s.global? x := by
  rw [State.global?, State.global?, h.globals]

end State.Wider

theorem State.Grown.wider {s t : State} (h : s.Grown t) : s.Wider t where
  same k i hi := by
    have hrest := h.rest
    cases k with
    | cell =>
        have := h.code.cells ⟨i⟩ _ (Array.getElem?_eq_getElem hi)
        rw [SameAt, Array.getElem?_eq_getElem hi]
        exact this
    | callable =>
        rw [SameAt, Array.getElem?_eq_getElem hi]
        exact h.code.callables i _ (Array.getElem?_eq_getElem hi)
    | frame =>
        rw [SameAt, Array.getElem?_eq_getElem hi]
        exact h.frames i _ (Array.getElem?_eq_getElem hi)
    | _ => rw [SameAt, hrest]
  rest := by rw [h.rest]
  globals := by rw [h.rest]

/-- In the second state the one thing is overwritten; all else is as it was. -/
structure State.Overwritten (s t : State) (k : Kind) (i : Nat) : Prop where
  same : ∀ k' i', (k' = k → i' ≠ i) → s.SameAt t k' i'
  count : ∀ k', t.count k' = s.count k'
  rest : t = { s with
    store := { t.store with capacity := s.store.capacity, dummies := s.store.dummies }
    frames := t.frames }

/-- What is in sight stays so when something out of sight is overwritten. -/
theorem State.Overwritten.veil {s t : State} {k : Kind} {i : Nat} {hidden : Nat → Prop}
    (h : s.Overwritten t k i) (hk : k ≠ .callable) (hi : k = .cell → hidden i) :
    (s.store.veil hidden).KeepsCode (t.store.veil hidden) := by
  refine .veil (fun r c hr hsight => ?_) (fun r c hr => ?_) (fun j f hj => ?_) fun _ _ _ => Iff.rfl
  · refine (h.same .cell r.index ?_).trans hr
    rintro rfl rfl
    exact hsight (hi rfl)
  · have hlt : r.index < t.count .cell := (h.count .cell).symm ▸ Store.lt_of_cell? hr
    exact ⟨_, Array.getElem?_eq_getElem hlt⟩
  · exact (h.same .callable j fun hcallable => (hk hcallable.symm).elim).trans hj

/-! ## Contents -/

namespace Setting

variable (T : Setting)

/-- The values stand for twin code in the two machines. -/
def Form (L : Links) (s t : State) (v w : Value) : Prop :=
  ∃ c d, T.Twin c d ∧ c.Stands (s.store.veil (L.Left .cell)) v ∧
    d.Stands (t.store.veil (L.Right .cell)) w

/-- The values stand for lists of twin code. -/
def Body (L : Links) (s t : State) (v w : Value) : Prop :=
  ∃ cs ds, T.TwinAll cs ds ∧ StandsAll (s.store.veil (L.Left .cell)) cs v ∧
    StandsAll (t.store.veil (L.Right .cell)) ds w

/-- Promises that are kept alike. -/
inductive LikePromise (L : Links) (s t : State) : Promise → Promise → Prop
  | pending {form form' : Value} {env env' : Env} : T.Form L s t form form' → L.Around env env' →
      LikePromise L s t (.pending form env) (.pending form' env')
  | delivered {v w : Value} : L.Like v w → LikePromise L s t (.delivered v) (.delivered w)

/-- Callables that act alike. -/
inductive LikeCallable (L : Links) (s t : State) : Callable → Callable → Prop
  | native {n : Native} : T.runs n → LikeCallable L s t (.native n) (.native n)
  | closure {shape : Shape} {b b' : Value} {env env' : Env} : T.Body L s t b b' →
      L.Around env env' → LikeCallable L s t (.closure shape b env) (.closure shape b' env')

/-- The contents of two things of a kind are alike. -/
def LikeAt (L : Links) (s t : State) : Kind → Nat → Nat → Prop
  | .cell, i, j => L.Like (s.store.car ⟨i⟩) (t.store.car ⟨j⟩) ∧
      L.Like (s.store.cdr ⟨i⟩) (t.store.cdr ⟨j⟩)
  | .text, i, j => t.store.text ⟨j⟩ = s.store.text ⟨i⟩
  | .bignum, i, j => t.store.bignum ⟨j⟩ = s.store.bignum ⟨i⟩
  | .vector, i, j => L.LikeAll (s.store.vector ⟨i⟩).toList (t.store.vector ⟨j⟩).toList
  | .promise, i, j => T.LikePromise L s t (s.store.promise ⟨i⟩) (t.store.promise ⟨j⟩)
  | .callable, i, j => T.LikeCallable L s t (s.store.callable ⟨i⟩) (t.store.callable ⟨j⟩)
  | .failure, i, j => L.LikeFailure (s.store.failure ⟨i⟩) (t.store.failure ⟨j⟩)
  | .frame, i, j => ∃ frame frame', s.frames.table[i]? = some frame ∧
      t.frames.table[j]? = some frame' ∧ L.LikeAll frame.slots.toList frame'.slots.toList ∧
      L.Around frame.next frame'.next

variable {T} {L L' : Links} {s t s' t' : State} {v w : Value}

/-- Links, and what is in sight, have only become more. -/
structure Later (L L' : Links) (s t s' t' : State) : Prop where
  links : L ≤ L'
  left : (s.store.veil (L.Left .cell)).KeepsCode (s'.store.veil (L'.Left .cell))
  right : (t.store.veil (L.Right .cell)).KeepsCode (t'.store.veil (L'.Right .cell))

theorem Form.later (h : T.Form L s t v w) (hL : Later L L' s t s' t') : T.Form L' s' t' v w := by
  obtain ⟨c, d, htwin, hc, hd⟩ := h
  exact ⟨c, d, htwin, hL.left.stands hc, hL.right.stands hd⟩

theorem Body.later (h : T.Body L s t v w) (hL : Later L L' s t s' t') : T.Body L' s' t' v w := by
  obtain ⟨cs, ds, htwin, hc, hd⟩ := h
  exact ⟨cs, ds, htwin, hL.left.standsAll hc, hL.right.standsAll hd⟩

theorem LikePromise.later {p q : Promise} (h : T.LikePromise L s t p q)
    (hL : Later L L' s t s' t') : T.LikePromise L' s' t' p q := by
  cases h with
  | pending hform henv => exact .pending (hform.later hL) (henv.mono hL.links)
  | delivered hv => exact .delivered (hv.mono hL.links)

theorem LikeCallable.later {f g : Callable} (h : T.LikeCallable L s t f g)
    (hL : Later L L' s t s' t') : T.LikeCallable L' s' t' f g := by
  cases h with
  | native hn => exact .native hn
  | closure hbody henv => exact .closure (hbody.later hL) (henv.mono hL.links)

/-- Contents that are the same go on being alike. -/
theorem LikeAt.later {k : Kind} {i j : Nat} (h : T.LikeAt L s t k i j)
    (hL : Later L L' s t s' t') (hs : s.SameAt s' k i) (ht : t.SameAt t' k j) :
    T.LikeAt L' s' t' k i j := by
  cases k with
  | cell =>
      simp only [State.SameAt] at hs ht
      simp only [LikeAt, Store.car, Store.cdr, Array.getD_eq_getD_getElem?, hs, ht] at h ⊢
      exact ⟨h.1.mono hL.links, h.2.mono hL.links⟩
  | text =>
      simp only [State.SameAt] at hs ht
      simpa only [LikeAt, Store.text, Array.getD_eq_getD_getElem?, hs, ht] using h
  | bignum =>
      simp only [State.SameAt] at hs ht
      simpa only [LikeAt, Store.bignum, Array.getD_eq_getD_getElem?, hs, ht] using h
  | vector =>
      simp only [State.SameAt] at hs ht
      simp only [LikeAt, Store.vector, Array.getD_eq_getD_getElem?, hs, ht] at h ⊢
      exact h.mono hL.links
  | promise =>
      simp only [State.SameAt] at hs ht
      simp only [LikeAt, Store.promise, Array.getD_eq_getD_getElem?, hs, ht] at h ⊢
      exact h.later hL
  | callable =>
      simp only [State.SameAt] at hs ht
      simp only [LikeAt, Store.callable, Array.getD_eq_getD_getElem?, hs, ht] at h ⊢
      exact h.later hL
  | failure =>
      simp only [State.SameAt] at hs ht
      simp only [LikeAt, Store.failure, Array.getD_eq_getD_getElem?, hs, ht] at h ⊢
      exact h.mono hL.links
  | frame =>
      obtain ⟨frame, frame', hframe, hframe', hslots, hnext⟩ := h
      exact ⟨frame, frame', hs.trans hframe, ht.trans hframe', hslots.mono hL.links,
        hnext.mono hL.links⟩

theorem Later.refl (L : Links) (s t : State) : Later L L s t s t :=
  ⟨le_rfl, .refl _, .refl _⟩

theorem Later.trans {L'' : Links} {s'' t'' : State} (h : Later L L' s t s' t')
    (h' : Later L' L'' s' t' s'' t'') : Later L L'' s t s'' t'' :=
  ⟨h.links.trans h'.links, h.left.trans h'.left, h.right.trans h'.right⟩

/-! ## Corresponding machines -/

variable (T)

/-- The machine has the symbols and the limits of the setting, and prints without limit. -/
structure Suits (s : State) : Prop where
  symbols : s.symbols = T.symbols
  config : s.config = T.config
  dummies : s.store.dummies = T.dummies
  room : s.sink.room = none

/-- The macro is known, and so are the natives that make its expansions. -/
structure Ready (hidden : Nat → Prop) (s : State) : Prop where
  natives : ∀ b : Builder, s.Defines b.symbol (.native (.lists b.native))
  expander : ∃ body b, s.Defines T.word (.expander T.shape body) ∧
    StandsAll (s.store.veil hidden) [b] body ∧
    Pattern.One (.compiled (Quotes (s.store.veil hidden)) T.shape) b T.pattern

/-- The two machines correspond by the links. -/
structure Corresponds (L : Links) (s t : State) : Prop where
  oneToOne : L.OneToOne
  count : ∀ {k i j}, L k i j → i < s.count k ∧ j < t.count k
  contents : ∀ {k i j}, L k i j → T.LikeAt L s t k i j
  globals : ∀ {x}, T.names x → L.LikeOption (s.global? x) (t.global? x)
  literals : ∀ {v}, T.literal v → L.Like v v
  constants : ∀ {r}, T.constant r → ∃ v, L.Like v v ∧
    (s.store.veil (L.Left .cell)).Chain [.sym Symbol.quote, v] .nil (.pair r) ∧
    (t.store.veil (L.Right .cell)).Chain [.sym Symbol.quote, v] .nil (.pair r)
  left : T.Suits s
  right : T.Suits t
  output : Alike s.sink.text t.sink.text

/-- Two machines that correspond, and that know the macro. -/
structure Scene where
  links : Links
  left : State
  right : State
  corresponds : T.Corresponds links left right
  readyLeft : T.Ready (links.Left .cell) left
  readyRight : T.Ready (links.Right .cell) right

variable {T}

instance : Preorder T.Scene where
  le p q := Later p.links q.links p.left p.right q.left q.right
  le_refl p := .refl p.links p.left p.right
  le_trans _ _ _ h h' := Later.trans h h'

/-- The machines of a scene, and failures that are alike there. -/
def pairing (T : Setting) : Pairing T.Scene where
  left := Scene.left
  right := Scene.right
  fault p := p.links.LikeFailure

/-- Code with another capacity around it. -/
theorem Ready.keeps {hidden hidden' : Nat → Prop} (h : T.Ready hidden s)
    (hsymbols : s'.symbols = s.symbols)
    (hglobals : ∀ x, (x = T.word ∨ ∃ b : Builder, x = b.symbol) → s'.global? x = s.global? x)
    (hcode : (s.store.veil hidden).KeepsCode (s'.store.veil hidden')) : T.Ready hidden' s' := by
  have hdefines : ∀ {x : Symbol} {f : Callable}, (x = T.word ∨ ∃ b : Builder, x = b.symbol) →
      (∀ shape body, f ≠ .template shape body) → s.Defines x f → s'.Defines x f :=
    fun hx hf h => h.keeps hf hsymbols (hglobals _ hx) hcode.callables
  obtain ⟨body, b, hmacro, hbody, hb⟩ := h.expander
  exact ⟨fun b => hdefines (.inr ⟨b, rfl⟩) (by simp) (h.natives b), body, b,
    hdefines (.inl rfl) (by simp) hmacro, hcode.standsAll hbody,
    hb.mono (Pattern.Reading.compiled_within _ fun r v hr => hr.keeps hcode.cells)⟩

theorem Suits.beyond (h : T.Suits s) (hs : s.Beyond s') : T.Suits s' :=
  ⟨hs.symbols.trans h.symbols, hs.config.trans h.config, hs.dummies.trans h.dummies,
    (congrArg Sink.room hs.sink).trans h.room⟩

namespace Scene

variable {p : T.Scene}

/-- What there is to show of new states, for the machines to correspond again: things that are
linked are as they were, or their contents are alike now. -/
structure Becomes (p : T.Scene) (L : Links) (s t : State) : Prop where
  later : Later p.links L p.left p.right s t
  oneToOne : L.OneToOne
  count : ∀ {k i j}, L k i j → i < s.count k ∧ j < t.count k
  contents : ∀ {k i j}, L k i j →
    (p.links k i j ∧ p.left.SameAt s k i ∧ p.right.SameAt t k j) ∨ T.LikeAt L s t k i j
  globals : ∀ {x}, T.names x → L.LikeOption (s.global? x) (t.global? x)
  keptLeft : ∀ x, (x = T.word ∨ ∃ b : Builder, x = b.symbol) → s.global? x = p.left.global? x
  keptRight : ∀ x, (x = T.word ∨ ∃ b : Builder, x = b.symbol) → t.global? x = p.right.global? x
  left : T.Suits s
  right : T.Suits t
  output : Alike s.sink.text t.sink.text

/-- The scene with the new states. -/
def become (p : T.Scene) {L : Links} {s t : State} (h : p.Becomes L s t) : T.Scene where
  links := L
  left := s
  right := t
  corresponds :=
    { h with
      contents := fun hk => (h.contents hk).elim
        (fun hold => LikeAt.later (p.corresponds.contents hold.1) h.later hold.2.1 hold.2.2) id
      literals := fun hv => (p.corresponds.literals hv).mono h.later.links
      constants := fun hr => by
        obtain ⟨v, hv, hleft, hright⟩ := p.corresponds.constants hr
        exact ⟨v, hv.mono h.later.links, hleft.keeps h.later.left.cells,
          hright.keeps h.later.right.cells⟩ }
  readyLeft := p.readyLeft.keeps (h.left.symbols.trans p.corresponds.left.symbols.symm) h.keptLeft
    h.later.left
  readyRight := p.readyRight.keeps (h.right.symbols.trans p.corresponds.right.symbols.symm)
    h.keptRight h.later.right

theorem le_become (h : p.Becomes L s t) : p ≤ p.become h := h.later

/-- The machines have more things, and some of the new ones belong together. -/
theorem becomes_wider (hs : p.left.Wider s) (ht : p.right.Wider t) (hL : p.links ≤ L)
    (hone : L.OneToOne) (hnew : ∀ {k i j}, L k i j → p.links k i j ∨
      (p.left.count k ≤ i ∧ i < s.count k) ∧ p.right.count k ≤ j ∧ j < t.count k)
    (hcontents : Later p.links L p.left p.right s t → ∀ {k i j}, L k i j → ¬ p.links k i j →
      T.LikeAt L s t k i j) : p.Becomes L s t := by
  have h := p.corresponds
  have hlater : Later p.links L p.left p.right s t := by
    refine ⟨hL, hs.veil fun i hi => ⟨?_, ?_⟩, ht.veil fun j hj => ⟨?_, ?_⟩⟩
    · rintro ⟨j, hij⟩
      rcases hnew hij with hold | ⟨⟨hle, -⟩, -⟩
      · exact ⟨j, hold⟩
      · exact absurd hi (Nat.not_lt.2 hle)
    · exact fun ⟨j, hij⟩ => ⟨j, hL _ _ _ hij⟩
    · rintro ⟨i, hij⟩
      rcases hnew hij with hold | ⟨-, hle, -⟩
      · exact ⟨i, hold⟩
      · exact absurd hj (Nat.not_lt.2 hle)
    · exact fun ⟨i, hij⟩ => ⟨i, hL _ _ _ hij⟩
  refine ⟨hlater, hone, fun hk => ?_, fun {k i j} hk => ?_, fun {x} hx => ?_,
    fun x _ => hs.global? x, fun x _ => ht.global? x, Suits.beyond h.left hs.toBeyond,
    Suits.beyond h.right ht.toBeyond, ?_⟩
  · rcases hnew hk with hold | ⟨hi, hj⟩
    · exact ⟨hs.lt_count (h.count hold).1, ht.lt_count (h.count hold).2⟩
    · exact ⟨hi.2, hj.2⟩
  · by_cases hold : p.links k i j
    · exact .inl ⟨hold, hs.same k i (h.count hold).1, ht.same k j (h.count hold).2⟩
    · exact .inr (hcontents hlater hk hold)
  · rw [hs.global?, ht.global?]
    exact (h.globals hx).mono hL
  · rw [hs.sink, ht.sink]
    exact h.output

/-- The machines have more things, none of which are linked. -/
theorem becomes_more (hs : p.left.Wider s) (ht : p.right.Wider t) : p.Becomes p.links s t :=
  becomes_wider hs ht le_rfl p.corresponds.oneToOne .inl fun _ _ _ _ hk hold => (hold hk).elim

/-- The machines have more things, two of which belong together. -/
theorem becomes_add {k : Kind} {i j : Nat} (hs : p.left.Wider s) (ht : p.right.Wider t)
    (hi : p.left.count k ≤ i) (hi' : i < s.count k) (hj : p.right.count k ≤ j)
    (hj' : j < t.count k)
    (hcontents : Later p.links (p.links.add k i j) p.left p.right s t →
      T.LikeAt (p.links.add k i j) s t k i j) : p.Becomes (p.links.add k i j) s t := by
  have h := p.corresponds
  refine becomes_wider hs ht (p.links.le_add k i j) (h.oneToOne.add ?_ ?_) ?_ ?_
  · exact fun ⟨_, hold⟩ => absurd (h.count hold).1 (Nat.not_lt.2 hi)
  · exact fun ⟨_, hold⟩ => absurd (h.count hold).2 (Nat.not_lt.2 hj)
  · rintro k' i' j' (hold | ⟨rfl, rfl, rfl⟩)
    · exact .inl hold
    · exact .inr ⟨⟨hi, hi'⟩, hj, hj'⟩
  · rintro hlater k' i' j' (hold | ⟨rfl, rfl, rfl⟩) hnew
    · exact absurd hold hnew
    · exact hcontents hlater

/-- Something that is linked is overwritten in both machines. -/
theorem becomes_overwritten {k : Kind} {i j : Nat} (hij : p.links k i j) (hk : k ≠ .callable)
    (hs : p.left.Overwritten s k i) (ht : p.right.Overwritten t k j)
    (hcontents : T.LikeAt p.links s t k i j) : p.Becomes p.links s t := by
  have h := p.corresponds
  refine ⟨⟨le_rfl, hs.veil hk fun hcell => ?_, ht.veil hk fun hcell => ?_⟩, h.oneToOne,
    fun {k' i' j'} hk' => ?_, fun {k' i' j'} hk' => ?_, fun {x} hx => ?_, fun x _ => ?_,
    fun x _ => ?_, ?_, ?_, ?_⟩
  · exact ⟨j, hcell ▸ hij⟩
  · exact ⟨i, hcell ▸ hij⟩
  · rw [hs.count, ht.count]
    exact h.count hk'
  · by_cases hsame : k' = k ∧ i' = i
    · obtain ⟨rfl, rfl⟩ := hsame
      cases (h.oneToOne hij hk').1 rfl
      exact .inr hcontents
    · refine .inl ⟨hk', hs.same k' i' fun hkind hi => hsame ⟨hkind, hi⟩,
        ht.same k' j' fun hkind hj => hsame ⟨hkind, ?_⟩⟩
      subst hkind
      exact (h.oneToOne hk' hij).2 hj
  · rw [hs.rest, ht.rest]
    exact h.globals hx
  · rw [hs.rest]
    rfl
  · rw [ht.rest]
    rfl
  · rw [hs.rest]
    exact ⟨h.left.symbols, h.left.config, h.left.dummies, h.left.room⟩
  · rw [ht.rest]
    exact ⟨h.right.symbols, h.right.config, h.right.dummies, h.right.room⟩
  · rw [hs.rest, ht.rest]
    exact h.output

/-- A variable is bound in both machines. -/
theorem becomes_setGlobal {x : Symbol} {v w : Value} (hx : T.Assigns x) (hv : p.links.Like v w) :
    p.Becomes p.links (p.left.setGlobal x v) (p.right.setGlobal x w) := by
  have h := p.corresponds
  have hkept : ∀ y, (y = T.word ∨ ∃ b : Builder, y = b.symbol) → y ≠ x := by
    rintro y (rfl | ⟨b, rfl⟩) rfl
    · exact T.not_names hx.1
    · exact hx.2.2 b rfl
  refine ⟨⟨le_rfl, .refl _, .refl _⟩, h.oneToOne, h.count, fun {k i j} hk => .inl ⟨hk, ?_, ?_⟩,
    fun {y} hy => ?_, fun y hy => ?_, fun y hy => ?_,
    ⟨h.left.symbols, h.left.config, h.left.dummies, h.left.room⟩,
    ⟨h.right.symbols, h.right.config, h.right.dummies, h.right.room⟩, h.output⟩
  · cases k <;> rfl
  · cases k <;> rfl
  · rw [State.global?_setGlobal, State.global?_setGlobal]
    by_cases hyx : y = x
    · rw [if_pos hyx, if_pos hyx]
      exact .some hv
    · rw [if_neg hyx, if_neg hyx]
      exact h.globals hy
  · rw [State.global?_setGlobal, if_neg (hkept y hy)]
  · rw [State.global?_setGlobal, if_neg (hkept y hy)]

/-- Both machines print. -/
theorem becomes_write {a b : String} (hab : Alike a b) :
    p.Becomes p.links { p.left with sink := p.left.sink.add a }
      { p.right with sink := p.right.sink.add b } := by
  have h := p.corresponds
  refine ⟨⟨le_rfl, .refl _, .refl _⟩, h.oneToOne, h.count, fun {k i j} hk => .inl ⟨hk, ?_, ?_⟩,
    h.globals, fun _ _ => rfl, fun _ _ => rfl,
    ⟨h.left.symbols, h.left.config, h.left.dummies, ?_⟩,
    ⟨h.right.symbols, h.right.config, h.right.dummies, ?_⟩, h.output.append hab⟩
  · cases k <;> rfl
  · cases k <;> rfl
  · simp [Sink.add, h.left.room]
  · simp [Sink.add, h.right.room]

end Scene

end Setting

end SmallLisp
