import SmallLisp.Proofs.Prelude.Tracing

/-!
# States that a lexicon describes

A lexicon describes a state if the names there are its names and the callables that names denote are
those that it tells. In such a state the bodies of macros and of the functions that they call come
to what they come to as trees.
-/

namespace SmallLisp

open Eval Code

/-! ## States that a lexicon describes -/

/-- What the meaning says of a callable. -/
def Meaning.Tells (store : Store) : Meaning → Callable → Prop
  | .native m, f => f = .native m
  | .closure shape body, f => ∃ b, f = .closure shape b none ∧ StandsAll store body b
  | .expander shape body, f => ∃ b, f = .expander shape b ∧ StandsAll store body b

theorem Meaning.Tells.keeps {m : Meaning} {f : Callable} {store store' : Store}
    (h : m.Tells store f) (hcode : store.KeepsCode store') : m.Tells store' f := by
  cases m with
  | native n => exact h
  | closure shape body =>
      obtain ⟨b, rfl, hb⟩ := h
      exact ⟨b, rfl, hcode.standsAll hb⟩
  | expander shape body =>
      obtain ⟨b, rfl, hb⟩ := h
      exact ⟨b, rfl, hcode.standsAll hb⟩

theorem Meaning.Tells.ne_template {m : Meaning} {f : Callable} {store : Store}
    (h : m.Tells store f) (shape : Shape) (body : Value) : f ≠ .template shape body := by
  rintro rfl
  cases m with
  | native n => cases h
  | closure shape body =>
      obtain ⟨b, hb, -⟩ := h
      cases hb
  | expander shape body =>
      obtain ⟨b, hb, -⟩ := h
      cases hb

theorem Meaning.Tells.eq_expander {m : Meaning} {shape : Shape} {b : Value} {store : Store}
    (h : m.Tells store (.expander shape b)) : ∃ body, m = .expander shape body := by
  cases m with
  | native n => cases h
  | closure shape body =>
      obtain ⟨b, hb, -⟩ := h
      cases hb
  | expander shape' body =>
      obtain ⟨b, hb, -⟩ := h
      cases hb
      exact ⟨body, rfl⟩

theorem Lexicon.meaning?_define (L : Lexicon) (x y : Symbol) (m : Meaning) :
    (L.define x m).meaning? y = if y = x then some m else L.meaning? y := by
  rw [meaning?, define, List.lookup_cons]
  by_cases hy : y = x
  · subst hy
    rw [beq_self_eq_true, if_pos rfl]
  · rw [beq_false_of_ne hy, if_neg hy]
    rfl

/-- The names, the stand-ins and the macros of the state are those of the lexicon, and everything
that has a meaning there has it in the state. -/
structure Lexicon.Describes (L : Lexicon) (s : State) : Prop where
  keys : s.symbols.names.toList.map SymbolTable.key = L.keys
  sound : s.symbols.Sound
  truth : s.global? Symbol.t = some (.sym Symbol.t)
  meanings : ∀ {x m}, L.meaning? x = some m → ∃ r f, s.global? x = some (.callable r) ∧
    s.store.callables[r.index]? = some f ∧ m.Tells s.store f
  bound : ∀ {x r}, s.global? x = some (.callable r) → r.index < s.store.callables.size
  expanders : ∀ {x}, s.Expands (.sym x) → ∃ shape body, L.meaning? x = some (.expander shape body)
  dummies : s.store.dummies.toList = L.dummies

/-- The frame has data that stand for the trees in its slots. -/
def State.Holds (s : State) (i : Nat) (args : List Code) : Prop :=
  ∃ slots next, s.frames.table[i]? = some ⟨slots, next⟩ ∧
    List.Forall₂ (Shows · s ·) args slots.toList

variable {L : Lexicon} {s t : State} {i : Nat} {args : List Code}

theorem State.Holds.accrues (h : s.Holds i args) (hst : s.Accrues t) : t.Holds i args := by
  obtain ⟨slots, next, hi, hargs⟩ := h
  exact ⟨slots, next, hst.frames i _ hi, hargs.imp fun _ _ hw => hw.accrues hst⟩

theorem getElem?_of_forall₂ {α β : Type} {R : α → β → Prop} {as : List α} {bs : List β}
    (h : List.Forall₂ R as bs) {i : Nat} {a : α} (ha : as[i]? = some a) :
    ∃ b, bs[i]? = some b ∧ R a b := by
  induction h generalizing i with
  | nil => cases ha
  | @cons x y xs ys hxy _ ih =>
      cases i with
      | zero =>
          cases ha
          exact ⟨y, rfl, hxy⟩
      | succ i => exact ih ha

/-- In a new frame are the values it is made of. -/
theorem State.holds_push {ws : List Value} (hws : List.Forall₂ (Shows · s ·) args ws) (next : Env) :
    s.Accrues { s with frames := s.frames.push ws.toArray next } ∧
      State.Holds { s with frames := s.frames.push ws.toArray next } s.frames.size args := by
  have hst : s.Accrues { s with frames := s.frames.push ws.toArray next } :=
    .of_gains (.push s _ next)
  refine ⟨hst, ws.toArray, next, by simp [Frames.push, Frames.size], ?_⟩
  exact hws.imp fun _ _ hw => hw.accrues hst

namespace Lexicon.Describes

/-- Callables that no name denotes yet make no macros. -/
theorem keeps (h : L.Describes s) (hcode : s.store.KeepsCode t.store)
    (hglobals : t.globals = s.globals)
    (hsymbols : t.symbols = s.symbols) {dummies : List Symbol}
    (hdummies : t.store.dummies.toList = dummies) : Describes { L with dummies } t := by
  have hglobal : ∀ x, t.global? x = s.global? x := fun x => by rw [State.global?, hglobals]; rfl
  have hsize : s.store.callables.size ≤ t.store.callables.size := by
    by_contra hlt
    have hlast := hcode.callables t.store.callables.size _
      (Array.getElem?_eq_getElem (Nat.lt_of_not_le hlt))
    simp at hlast
  refine ⟨hsymbols ▸ h.keys, hsymbols ▸ h.sound, (hglobal _).trans h.truth, fun hx => ?_,
    fun hx => ?_, ?_, hdummies⟩
  · obtain ⟨r, f, hr, hf, htells⟩ := h.meanings hx
    exact ⟨r, f, (hglobal _).trans hr, hcode.callables _ _ hf, htells.keeps hcode⟩
  · exact Nat.lt_of_lt_of_le (h.bound ((hglobal _).symm.trans hx)) hsize
  · rintro x ⟨r, shape, body, hr, hf⟩
    rw [hglobal] at hr
    have hold := Array.getElem?_eq_getElem (h.bound hr)
    refine h.expanders ⟨r, shape, body, hr, ?_⟩
    rw [← hf, Store.callable, Store.callable, getD_of_getElem? hold,
      getD_of_getElem? (hcode.callables _ _ hold)]

theorem dummySymbol (h : L.Describes s) : s.store.dummySymbol = L.dummySymbol := by
  funext r
  rw [Store.dummySymbol, Lexicon.dummySymbol, ← h.dummies]
  simp [Array.getD_eq_getD_getElem?, List.getD_eq_getElem?_getD]

theorem accrues (h : L.Describes s) (hst : s.Accrues t) : L.Describes t :=
  h.keeps hst.code hst.globals hst.symbols (by rw [hst.dummies]; exact h.dummies)

end Lexicon.Describes

/-! ## Running macros -/

namespace Engine

variable {E : Engine} {f : Callable} {cs : List Code} {v : Value} {frame : List Value}

/-- A frame that could be laid out has the required operands and the list of the others. -/
theorem makeFrame_eq_ok (hv : StandsAll s.store cs v) (h : E.makeFrame f v s = .ok frame t) :
    t = s ∧ f.shape.Takes cs.length ∧ ∃ rest, StandsAll s.store (cs.drop f.shape.required) rest ∧
      ∃ vs, List.Forall₂ (Stands s.store) (cs.take f.shape.required) vs ∧
        frame = vs ++ if f.shape.hasRest then [rest] else [] := by
  obtain ⟨vs, hchain, hvs⟩ := chain_of_standsAll hv
  have hlength := hvs.length_eq
  by_cases htakes : f.shape.Takes vs.length
  · obtain ⟨rest, hrest, hframe⟩ := makeFrame_of_takes (E := E) hchain.owned htakes
    cases hframe.symm.trans h
    rw [hlength]
    exact ⟨rfl, htakes, rest, standsAll_of_chain (List.forall₂_drop _ hvs) hrest.chain, _,
      List.forall₂_take _ hvs, rfl⟩
  · cases (makeFrame_of_not_takes (E := E) hchain htakes).symm.trans h

end Engine

/-- A closure without a rest runs its body in a new frame of what the operands come to. -/
theorem Traces.enter_closure {s₀ : State} {E : Engine} {env captured : Env}
    {f : Code → Option Code} {cs ds : List Code} {shape : Shape} {b v w : Value}
    (hf : Traces s₀ (E.eval · env) f) (hcs : cs.mapM f = some ds) (hrest : ¬ shape.hasRest = true)
    (hs : s₀.Accrues s) (hv : StandsAll s.store cs v)
    (h : (E.enter (.closure shape b captured) v env >>= E.finish) s = .ok w t) :
    ∃ i u, s.Accrues u ∧ u.Holds i ds ∧
      (E.bodyWithin (some i) E.fuel b >>= fun last => E.eval last (some i)) u = .ok w t := by
  rw [Engine.enter, bind_assoc, bind_eq_ok] at h
  obtain ⟨frame, s₁, hframe, h⟩ := h
  obtain ⟨hs₁, htakes, rest, -, vs, hvs, hslots⟩ := Engine.makeFrame_eq_ok hv hframe
  change shape.Takes cs.length at htakes
  change List.Forall₂ _ (cs.take shape.required) vs at hvs
  change frame = vs ++ if shape.hasRest then [rest] else [] at hslots
  rw [if_neg hrest, List.append_nil] at hslots
  rw [Shape.Takes, if_neg hrest] at htakes
  rw [← htakes, List.take_length] at hvs
  subst hs₁ hslots
  have hrequired : shape.required = frame.length := by rw [← htakes, hvs.length_eq]
  rw [Engine.evalFrame, hrequired, bind_assoc, bind_eq_ok] at h
  obtain ⟨ws, s₂, hws, h⟩ := h
  obtain ⟨hs₂, _, rfl, hall⟩ := hf.evalSlots hcs hs hvs hws
  obtain ⟨hs₃, hholds⟩ := State.holds_push hall captured
  have hextend : extend ws captured s₂ = .ok (some s₂.frames.size)
      { s₂ with frames := s₂.frames.push ws.toArray captured } := rfl
  rw [bind_assoc, bind_of_ok hextend, bind_assoc] at h
  exact ⟨_, _, hs₂.trans hs₃, hholds, h⟩

/-- A parameter has the value in its slot. -/
theorem State.Holds.evaluate_address (h : s.Holds i args) {a : Address} {n : Nat}
    {d : Code} {w : Value} (ha : a.level = 0) (hd : args[a.offset]? = some d)
    (hw : evaluate n (.address a) (some i) s = .ok w t) : t = s ∧ d.Shows s w := by
  obtain ⟨slots, next, hi, hslots⟩ := h
  obtain ⟨u, hu, hshows⟩ := getElem?_of_forall₂ hslots hd
  rw [Array.getElem?_toList] at hu
  have hlt := (Array.getElem?_eq_some_iff.1 hi).1
  have hlookup : s.frames.lookup? (some i) a.level a.offset = some u := by
    rw [ha]
    simp only [Frames.lookup?, Frames.frameAt?, if_pos hlt, hi, Option.bind_some, hu]
  have hstep : ∀ m, (Engine.ofFuel m).step (.address a) (some i) s = .ok (.done u) s := fun m => by
    simp [Engine.step, bind_apply, slot?, hlookup]
  obtain ⟨rfl, rfl⟩ := Engine.eq_of_evaluate hstep hw
  exact ⟨rfl, hshows⟩

namespace Lexicon

variable {k n : Nat} {cs : List Code} {d : Code} {v w : Value} {s₀ : State} {x : Symbol}

/-- With data of the trees `args` in the innermost frame, forms of compiled bodies evaluate to what
they come to as trees. -/
def Evaluates (L : Lexicon) (k : Nat) : Prop :=
  ∀ {s : State} {i : Nat} {args : List Code}, L.Describes s → s.Holds i args → ∀ n,
    Traces s (fun v => evaluate n v (some i)) (L.value? k args)

theorem Describes.evaluate_t (h : L.Describes s) {env : Env}
    (hw : evaluate n (.sym Symbol.t) env s = .ok w t) : w = .sym Symbol.t ∧ t = s := by
  refine Engine.eq_of_evaluate (fun m => ?_) hw
  rw [Engine.step, bind_of_ok (gets_apply _ s), h.truth]
  rfl

/-- A call of what the lexicon tells of. -/
theorem Evaluates.call (ih : L.Evaluates k) (h₀ : L.Describes s₀) (hargs : s₀.Holds i args)
    (hs : s₀.Accrues s) (hx : ¬ x.index < Symbol.specialCount) {ds : List Code} {m : Meaning}
    (hds : cs.mapM (L.value? k args) = some ds) (hm : L.meaning? x = some m)
    (hd : called? (L.value? k) m ds = some d) (hv : StandsAll s.store (.word (.sym x) :: cs) v)
    (hw : evaluate n v (some i) s = .ok w t) : s.Accrues t ∧ d.Shows t w := by
  have hL := h₀.accrues hs
  obtain ⟨r, f, hglobal, hr, htells⟩ := hL.meanings hm
  obtain ⟨n, operands, hoperands, hw⟩ :=
    Engine.enter_of_evaluate hx hglobal hr htells.ne_template hv hw
  have hE : Traces s₀ ((Engine.ofFuel n).eval · (some i)) (L.value? k args) := ih h₀ hargs n
  cases m with
  | native m =>
      cases htells
      exact hE.native hds hd hs hoperands hw
  | closure shape body =>
      obtain ⟨b, rfl, hb⟩ := htells
      unfold called? at hd
      dsimp only at hd
      split at hd
      · cases hd
      rename_i hrest
      obtain ⟨j, u, hsu, hholds, hbody⟩ := hE.enter_closure hds hrest hs hoperands hw
      obtain ⟨ht, hshows⟩ := Traces.body (E := Engine.ofFuel n)
        (ih (hL.accrues hsu) hholds n) hd (.refl _) (hsu.code.standsAll hb) hbody
      exact ⟨hsu.trans ht, hshows⟩
  | expander shape body => cases hd

/-- A form with a name at its head: a quotation, a `cond` or a call. -/
theorem Evaluates.form (ih : L.Evaluates k) (h₀ : L.Describes s₀) (hargs : s₀.Holds i args)
    (hs : s₀.Accrues s) (hd : L.value? (k + 1) args (.list (.word (.sym x) :: cs)) = some d)
    (hv : StandsAll s.store (.word (.sym x) :: cs) v)
    (hw : evaluate n v (some i) s = .ok w t) : s.Accrues t ∧ d.Shows t w := by
  rw [value?] at hd
  split at hd
  · rename_i hx
    subst hx
    obtain ⟨hhead, hdata⟩ := Option.filter_eq_some_iff.1 hd
    obtain ⟨rfl, u, rfl, hu⟩ := Engine.quote_of_evaluate hv hw
    cases hhead
    exact ⟨.refl _, shows_of_isData hdata hu⟩
  split at hd
  · rename_i hx
    subst hx
    obtain ⟨n, operands, hoperands, hw⟩ :=
      Engine.special_of_evaluate (k := .cond) rfl hv hw
    exact Traces.cond (E := Engine.ofFuel n) (ih h₀ hargs n) hd hs hoperands hw
  split at hd
  · cases hd
  rename_i hx
  obtain ⟨ds, hds, hd⟩ := Option.bind_eq_some_iff.1 hd
  obtain ⟨m, hm, hd⟩ := Option.bind_eq_some_iff.1 hd
  exact ih.call h₀ hargs hs hx hds hm hd hv hw

theorem evaluates (L : Lexicon) (k : Nat) : L.Evaluates k := by
  induction k with
  | zero =>
      intro s₀ i args _ _ n c d v w s t _ hd
      cases hd
  | succ k ih =>
      intro s₀ i args h₀ hargs n c d v w s t hs hd hv hw
      unfold value? at hd
      split at hd
      · cases hd
        cases hv
        obtain ⟨rfl, rfl⟩ := Engine.eq_of_evaluate (fun _ => rfl) hw
        exact ⟨.refl _, rfl, rfl⟩
      · split at hd
        · rename_i hx
          subst hx
          cases hd
          cases hv
          obtain ⟨rfl, rfl⟩ := (h₀.accrues hs).evaluate_t hw
          exact ⟨.refl _, rfl, rfl⟩
        · cases hd
      · split at hd
        · rename_i ha
          cases hv
          obtain ⟨rfl, hshows⟩ := (hargs.accrues hs).evaluate_address ha hd hw
          exact ⟨.refl _, hshows⟩
        · cases hd
      · exact ih.form h₀ hargs hs (by rw [value?]; exact hd) hv hw
      · cases hd

/-! ## Expanding calls -/

/-- A macro makes of operands what it makes of their trees. -/
theorem Describes.expandCall (h : L.Describes s) {k m : Nat} {shape : Shape} {bs cs : List Code}
    {d : Code} {b v w : Value} (hb : StandsAll s.store bs b) (hv : StandsAll s.store cs v)
    (hd : L.expansion? k shape bs cs = some d)
    (hw : (Engine.ofFuel m).expandCall (.expander shape b) b v s = .ok w t) :
    s.Accrues t ∧ d.Shows t w := by
  obtain ⟨args, hargs, hlast⟩ := Option.bind_eq_some_iff.1 hd
  unfold Shape.spread? at hargs
  split at hargs
  · rename_i hdata
    cases hargs
    rw [Engine.expandCall, bind_eq_ok] at hw
    obtain ⟨frame, s₁, hframe, hw⟩ := hw
    obtain ⟨hs₁, -, rest, hrest, vs, hvs, hslots⟩ := Engine.makeFrame_eq_ok hv hframe
    subst hs₁ hslots
    have hshows : List.Forall₂ (Shows · s₁ ·) (cs.take shape.required) vs :=
      forall₂_shows (fun c hc => List.all_eq_true.1 hdata c (List.mem_of_mem_take hc)) hvs
    have hall : List.Forall₂ (Shows · s₁ ·) (cs.take shape.required ++
          if shape.hasRest then [ofItems (cs.drop shape.required)] else [])
        (vs ++ if shape.hasRest then [rest] else []) := by
      refine List.rel_append hshows ?_
      split
      · exact .cons (shows_ofItems hrest) .nil
      · exact .nil
    obtain ⟨hs₂, hholds⟩ := State.holds_push hall none
    rw [bind_of_ok (show extend _ none s₁ = .ok (some s₁.frames.size) _ from rfl)] at hw
    obtain ⟨ht, hshows⟩ := Traces.sequence (E := Engine.ofFuel m)
      (L.evaluates k (h.accrues hs₂) hholds m) hlast (.refl _) (hs₂.code.standsAll hb) hw
    exact ⟨hs₂.trans ht, hshows⟩
  · cases hargs

end Lexicon

end SmallLisp
