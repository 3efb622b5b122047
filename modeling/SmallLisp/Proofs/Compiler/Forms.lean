import SmallLisp.Proofs.Compiler.Twice

/-!
# Bodies form by form

The passes of the compiler go over the list of the forms of a body as if it were a form itself, and
tell the two apart only by what the list begins with. A list that begins with no keyword and no
macro is mapped over, so what becomes of a form in a body is what becomes of it alone.
-/

namespace SmallLisp

open Eval

namespace Engine

variable {K : History} {E : Engine} {s₀ s t : State} {v w : Value}

/-! ## Bodies -/

/-- Addresses are put into a body form by form, unless it begins with one of several forms that is
left alone. -/
theorem resolve_forms {ps : Parameters} (hk : ∀ k, isLeftAlone k = true → ps.scan k = k) {n : Nat}
    {x : Value} {xs : List Value} (hs : K.leads s₀ s) (hv : s.store.Chain (x :: xs) .nil v)
    (hxs : ∀ z ∈ x :: xs, s₀.Alike s.store s.store z z) (hx : isLeftAlone x = true → xs = [])
    (h : E.resolve ps n v s = .ok w t) :
    K.leads s t ∧ ∃ ys, t.store.Chain ys .nil w ∧
      List.Forall₂ (K.Makes (E.resolve ps (n - 1)) s t) (x :: xs) ys := by
  obtain ⟨r, d, rfl, hr, -⟩ := id hv
  cases n with
  | zero => simp [resolve] at h
  | succ n =>
      rw [resolve, bind_of_ok (car_apply r s), Store.car_of_cell? hr] at h
      cases hq : x.isSym Symbol.quote with
      | true =>
          have hleft : isLeftAlone x = true := by simp [isLeftAlone, hq]
          rw [hq] at h
          cases h
          obtain rfl := hx hleft
          refine ⟨K.refl s, [x], hv, .cons ⟨s, s, K.refl s, ?_, K.refl s⟩ .nil⟩
          rw [E.resolve_word ps _ (isPair_of_isLeftAlone hleft), hk x hleft]
          rfl
      | false =>
          rw [hq] at h
          exact K.mapList_makes E (E.resolve_respects ps n) hs hv hxs h

/-- Macros are expanded in a body form by form, unless it begins with one of several forms that is
left alone, or with a macro. -/
theorem expandMacros_forms (hE : SteadyMacros K E s₀) {n allowed : Nat} {x : Value}
    {xs : List Value} (hs : K.leads s₀ s) (hv : s.store.Chain (x :: xs) .nil v)
    (hxs : ∀ z ∈ x :: xs, s₀.Alike s.store s.store z z) (hx : isLeftAlone x = true → xs = [])
    (hm : s.expander? x = none) (h : E.expandMacros n allowed v s = .ok w t) :
    K.leads s t ∧ ∃ ys, t.store.Chain ys .nil w ∧
      List.Forall₂ (K.Makes (E.expandMacros (n - 1) allowed) s t) (x :: xs) ys := by
  obtain ⟨r, d, rfl, hr, -⟩ := id hv
  cases n with
  | zero => simp [expandMacros] at h
  | succ n =>
      rw [expandMacros, bind_of_ok (car_apply r s), Store.car_of_cell? hr] at h
      cases hleft : isLeftAlone x with
      | true =>
          rw [hleft] at h
          cases h
          obtain rfl := hx hleft
          refine ⟨K.refl s, [x], hv, .cons ⟨s, s, K.refl s, ?_, K.refl s⟩ .nil⟩
          rw [E.expandMacros_word (isPair_of_isLeftAlone hleft)]
          rfl
      | false =>
          rw [hleft] at h
          simp only [Bool.false_eq_true, if_false] at h
          rw [bind_of_ok (expander?_apply x s), hm] at h
          exact K.mapList_makes E (expandMacros_respects hE n allowed) hs hv hxs h

/-- Templates are made in a body form by form, unless it begins with one of several forms that is
left alone. If it is a form that stands alone, it is no keyword but the one that quotes. -/
theorem compileInner_forms (hE : SteadyMacros K E s₀) {n : Nat} {x : Value} {xs : List Value}
    (hs : K.leads s₀ s) (hv : s.store.Chain (x :: xs) .nil v)
    (hxs : ∀ z ∈ x :: xs, s₀.Alike s.store s.store z z) (hx : isLeftAlone x = true → xs = [])
    (h : E.compileInner n v s = .ok w t) :
    K.leads s t ∧ (isLeftAlone x = true → x = .sym Symbol.quote) ∧ ∃ ys, t.store.Chain ys .nil w ∧
      List.Forall₂ (K.Makes (E.compileInner (n - 1)) s t) (x :: xs) ys := by
  obtain ⟨r, d, rfl, hr, hd⟩ := id hv
  cases n with
  | zero => simp [compileInner] at h
  | succ n =>
      rw [compileInner, bind_of_ok (car_apply r s), Store.car_of_cell? hr] at h
      cases hq : x.isSym Symbol.quote with
      | true =>
          have hleft : isLeftAlone x = true := by simp [isLeftAlone, hq]
          rw [hq] at h
          cases h
          obtain rfl := hx hleft
          refine ⟨K.refl s, fun _ => Value.isSym_iff.1 hq, [x], hv,
            .cons ⟨s, s, K.refl s, ?_, K.refl s⟩ .nil⟩
          rw [E.compileInner_word (isPair_of_isLeftAlone hleft)]
          rfl
      | false =>
          rw [hq] at h
          cases hl : x.isSym Symbol.lambda with
          | true =>
              -- Alone it would be a lambda without parameters or body.
              obtain rfl := hx (by simp [isLeftAlone, hl])
              cases hd
              simp only [hl, Bool.false_eq_true, if_false, if_true] at h
              have hnil : s.store.Chain [] .nil .nil := rfl
              rw [bind_of_ok (E.cdrCell_of_list hr hnil)] at h
              cases n <;> simp [compileWithin, malformed] at h
          | false =>
              rw [hl] at h
              cases he : x.isSym Symbol.expander with
              | true =>
                  rw [he] at h
                  simp [malformedOn, failOn_apply] at h
              | false =>
                  rw [he] at h
                  obtain ⟨ht, hys⟩ := K.mapList_makes E
                    (compileInner_and_compileWithin_respect hE n).1 hs hv hxs h
                  refine ⟨ht, fun hleft => ?_, hys⟩
                  simp [isLeftAlone, hq, hl, he] at hleft

/-- What the passes make of one form of a body: `x₁` when its variables have addresses, `x₂` when
its macros are expanded, and `y` in the end. -/
def CompilesForm (K : History) (E : Engine) (s₀ : State) (ps : Parameters) (s t : State)
    (x x₁ x₂ y : Value) : Prop :=
  ∃ s₁ s₂, K.Makes (E.resolve ps (E.fuel - 1)) s s₁ x x₁ ∧
    K.Makes (E.expandMacros (E.fuel - 1) s₀.config.maxMacroExpansions) s₁ s₂ x₁ x₂ ∧
    K.Makes (E.compileInner (E.fuel - 1 - 1)) s₂ t x₂ y

variable {ps : Parameters} {x x₁ x₂ y : Value}

/-- The first two passes leave a keyword alone. -/
theorem CompilesForm.eq_of_isLeftAlone (h : CompilesForm K E s₀ ps s t x x₁ x₂ y)
    (hk : ∀ k, isLeftAlone k = true → ps.scan k = k) :
    (isLeftAlone x = true → x₁ = x) ∧ (isLeftAlone x₁ = true → x₂ = x₁) := by
  obtain ⟨s₁, s₂, h₁, h₂, -⟩ := h
  constructor
  · intro hx
    rw [h₁.of_pure (E.resolve_word ps _ (isPair_of_isLeftAlone hx)), hk x hx]
  · intro hx
    exact h₂.of_pure (E.expandMacros_word (isPair_of_isLeftAlone hx))

/-- The results of a walk are in front of those so far. -/
theorem length_le_of_mapItems {f : Value → Eval Value} {n : Nat} {done out : List Value}
    (h : E.mapItems f n v done s = .ok out t) : done.length ≤ out.length := by
  induction n generalizing v done s with
  | zero =>
      cases v <;> simp [mapItems, failOn_apply] at h
      simp [h]
  | succ n ih =>
      cases v with
      | pair r =>
          rw [mapItems, bind_of_ok (car_apply r s), bind_eq_ok] at h
          obtain ⟨y, s₁, -, h⟩ := h
          obtain ⟨next, s₂, -, h⟩ := bind_eq_ok.1 h
          exact Nat.le_of_succ_le (ih h)
      | nil =>
          rw [mapItems] at h
          cases h
          exact Nat.le_refl _
      | _ => simp [mapItems, failOn_apply] at h

/-- A form that is a pair is still one when its variables have addresses. -/
theorem isPair_of_resolve {n : Nat} {r : Ref .cell} (h : E.resolve ps n (.pair r) s = .ok w t) :
    w.isPair = true := by
  cases n with
  | zero => simp [resolve] at h
  | succ n =>
      rw [resolve, bind_of_ok (car_apply r s)] at h
      split at h
      · cases h
        rfl
      · rw [mapList, bind_eq_ok] at h
        obtain ⟨out, s₁, hout, h⟩ := h
        obtain ⟨-, -, hchain⟩ := consAll_eq_ok h
        cases hn : E.fuel with
        | zero => simp [hn, mapItems] at hout
        | succ n =>
            rw [hn, mapItems, bind_of_ok (car_apply r s), bind_eq_ok] at hout
            obtain ⟨y, s₂, -, hout⟩ := hout
            obtain ⟨next, s₃, -, hout⟩ := bind_eq_ok.1 hout
            have hlen := length_le_of_mapItems hout
            cases hrev : out.reverse with
            | nil => simp [List.reverse_eq_nil_iff.1 hrev] at hlen
            | cons z zs =>
                rw [hrev] at hchain
                obtain ⟨q, _, rfl, -⟩ := hchain
                rfl

/-- A form that does not name a macro by itself is none when its variables have addresses. -/
theorem expander?_of_resolve (hs : K.leads s₀ s) (hx : s₀.Alike s.store s.store x x)
    (hm : s.expander? (ps.scan x) = none) {n : Nat} (h : K.Makes (E.resolve ps n) s t x x₁) :
    t.expander? x₁ = none := by
  have ht := h.leads (E.resolve_respects ps n) hs hx
  obtain ⟨s', t', -, hx₁, -⟩ := id h
  cases hpair : x.isPair with
  | true =>
      cases x with
      | pair r =>
          have hpair' := isPair_of_resolve hx₁
          cases x₁ <;> first | rfl | cases hpair'
      | _ => cases hpair
  | false =>
      rw [h.of_pure (E.resolve_word ps n hpair)]
      have hscan := K.alike_later (K.refl s) ht (hx.scan ps hpair)
      obtain ⟨-, hnone⟩ | ⟨f, body, -, hsome, -⟩ :=
        expander?_of_alike (K.carries hs) (K.carries (K.trans hs ht)) hscan
      · exact hnone
      · cases hm.symm.trans hsome

theorem compilesForm_of_makes {s₁ s₂ : State} {xs ys zs ws : List Value}
    (h₁ : List.Forall₂ (K.Makes (E.resolve ps (E.fuel - 1)) s s₁) xs ys)
    (h₂ : List.Forall₂
      (K.Makes (E.expandMacros (E.fuel - 1) s₀.config.maxMacroExpansions) s₁ s₂) ys zs)
    (h₃ : List.Forall₂ (K.Makes (E.compileInner (E.fuel - 1 - 1)) s₂ t) zs ws) :
    List.Forall₂ (fun x y => ∃ x₁ x₂, CompilesForm K E s₀ ps s t x x₁ x₂ y) xs ws := by
  induction h₁ generalizing zs ws with
  | nil =>
      cases h₂
      cases h₃
      exact .nil
  | cons hx _ ih =>
      cases h₂ with
      | cons hy h₂ =>
          cases h₃ with
          | cons hz h₃ => exact .cons ⟨_, _, s₁, s₂, hx, hy, hz⟩ (ih h₂ h₃)

/-- Where the form is compiled alone, it comes out of expansion as no keyword. -/
def ComesOut (K : History) (E : Engine) (s₀ : State) (ps : Parameters) (x : Value) : Prop :=
  ∃ u u' x₁ x₂ y, K.leads s₀ u ∧ CompilesForm K E s₀ ps u u' x x₁ x₂ y ∧ isLeftAlone x₂ = false

namespace ComesOut

variable {s₁ s₂ : State}

theorem form (h : ComesOut K E s₀ ps x) (hk : ∀ k, isLeftAlone k = true → ps.scan k = k) :
    isLeftAlone x = false := by
  obtain ⟨u, u', f₁, f₂, g, -, hform, hf₂⟩ := h
  obtain ⟨hf₁, hf₁₂⟩ := hform.eq_of_isLeftAlone hk
  refine Bool.eq_false_iff.2 fun hleft => ?_
  rw [hf₁₂ (by rw [hf₁ hleft, hleft]), hf₁ hleft, hleft] at hf₂
  cases hf₂

theorem addressed (h : ComesOut K E s₀ ps x) (hk : ∀ k, isLeftAlone k = true → ps.scan k = k)
    (hs : K.leads s₀ s) (hx : s₀.IsText x) (hx₁ : K.Makes (E.resolve ps (E.fuel - 1)) s s₁ x x₁) :
    isLeftAlone x₁ = false := by
  obtain ⟨u, u', f₁, f₂, g, hu, hform, hf₂⟩ := h
  obtain ⟨u₁, u₂, hf₁, -, -⟩ := id hform
  have halike := hx₁.alike (E.resolve_respects ps _) hs hu hf₁ (K.alike_later hs hu hx)
  refine Bool.eq_false_iff.2 fun hleft => ?_
  have hf₁left := halike.isLeftAlone.symm.trans hleft
  rw [(hform.eq_of_isLeftAlone hk).2 hf₁left, hf₁left] at hf₂
  cases hf₂

theorem expanded (hE : SteadyMacros K E s₀) (h : ComesOut K E s₀ ps x) (hs : K.leads s₀ s)
    (hx : s₀.IsText x) (hx₁ : K.Makes (E.resolve ps (E.fuel - 1)) s s₁ x x₁)
    (hx₂ : K.Makes (E.expandMacros (E.fuel - 1) s₀.config.maxMacroExpansions) s₁ s₂ x₁ x₂) :
    isLeftAlone x₂ = false := by
  obtain ⟨u, u', f₁, f₂, g, hu, ⟨u₁, u₂, hf₁, hf₁₂, -⟩, hf₂⟩ := h
  have respects : K.Respects s₀ (E.resolve ps (E.fuel - 1)) := E.resolve_respects ps _
  have hs₁ := K.trans hs (hx₁.leads respects hs (K.alike_later hs hs hx))
  have hu₁ := K.trans hu (hf₁.leads respects hu (K.alike_later hu hu hx))
  have halike₁ := hx₁.alike respects hs hu hf₁ (K.alike_later hs hu hx)
  have halike := hx₂.alike (expandMacros_respects hE _ _) hs₁ hu₁ hf₁₂ halike₁
  rw [halike.isLeftAlone, hf₂]

end ComesOut

/-- A body is compiled form by form, if the first of several forms comes out of expansion as no
keyword where it is compiled by itself. -/
theorem passes_forms (hE : SteadyMacros K E s₀) (hk : ∀ k, isLeftAlone k = true → ps.scan k = k)
    {xs : List Value} {b b₁ b₂ b₃ : Value} {s₁ s₂ s₃ : State} (hs : K.leads s₀ s)
    (hb : s.store.Chain (x :: xs) .nil b) (htext : ∀ z ∈ x :: xs, s₀.IsText z)
    (hm : s.expander? (ps.scan x) = none)
    (hfirst : xs = [] ∨ ComesOut K E s₀ ps x)
    (h₁ : E.resolve ps E.fuel b s = .ok b₁ s₁)
    (h₂ : E.expandMacros E.fuel s₀.config.maxMacroExpansions b₁ s₁ = .ok b₂ s₂)
    (h₃ : E.compileInner (E.fuel - 1) b₂ s₂ = .ok b₃ s₃) :
    ∃ x₁ x₂ y ys, s₃.store.Chain (y :: ys) .nil b₃ ∧ CompilesForm K E s₀ ps s s₃ x x₁ x₂ y ∧
      (isLeftAlone x₂ = true → x₂ = .sym Symbol.quote) ∧
      List.Forall₂ (fun x y => ∃ x₁ x₂, CompilesForm K E s₀ ps s s₃ x x₁ x₂ y) xs ys := by
  have respects₁ : K.Respects s₀ (E.resolve ps (E.fuel - 1)) := E.resolve_respects ps _
  have respects₂ : K.Respects s₀ (E.expandMacros (E.fuel - 1) s₀.config.maxMacroExpansions) :=
    expandMacros_respects hE _ _
  have hxs : ∀ z ∈ x :: xs, s₀.Alike s.store s.store z z :=
    fun z hz => K.alike_later hs hs (htext z hz)
  have hx : isLeftAlone x = true → xs = [] := fun hleft =>
    hfirst.resolve_right fun h => by simp [h.form hk] at hleft
  obtain ⟨hs₁, ys, hb₁, hys⟩ := resolve_forms hk hs hb hxs hx h₁
  have hys' := K.alike_of_makes respects₁ hs hxs hys
  cases hys with
  | @cons _ x₁ _ ys hxx₁ hys =>
      have hfirst : ys = [] ∨ ComesOut K E s₀ ps x := by
        refine hfirst.imp_left ?_
        rintro rfl
        cases hys
        rfl
      have hx₁ : isLeftAlone x₁ = true → ys = [] := fun hleft =>
        hfirst.resolve_right fun h => by simp [h.addressed hk hs (htext x (by simp)) hxx₁] at hleft
      have hm₁ := expander?_of_resolve hs (hxs x (by simp)) hm hxx₁
      obtain ⟨hs₂, zs, hb₂, hzs⟩ :=
        expandMacros_forms hE (K.trans hs hs₁) hb₁ hys' hx₁ hm₁ h₂
      have hzs' := K.alike_of_makes respects₂ (K.trans hs hs₁) hys' hzs
      cases hzs with
      | @cons _ x₂ _ zs hxx₂ hzs =>
          have hx₂ : isLeftAlone x₂ = true → zs = [] := fun hleft => by
            rcases hfirst with rfl | h
            · cases hzs
              rfl
            · simp [h.expanded hE hs (htext x (by simp)) hxx₁ hxx₂] at hleft
          obtain ⟨-, hquote, ws, hb₃, hws⟩ :=
            compileInner_forms hE (K.trans (K.trans hs hs₁) hs₂) hb₂ hzs' hx₂ h₃
          cases hws with
          | @cons _ y _ ws hxy hws =>
              exact ⟨x₁, x₂, y, ws, hb₃, ⟨s₁, s₂, hxx₁, hxx₂, hxy⟩, hquote,
                compilesForm_of_makes hys hzs hws⟩

/-- The same form is made alike things of. -/
theorem CompilesForm.alike (hE : SteadyMacros K E s₀) (hs : K.leads s₀ s) (ht : K.leads s₀ t)
    {s' t' : State} {z₁ z₂ z : Value} (hx : s₀.IsText x)
    (h : CompilesForm K E s₀ ps s s' x x₁ x₂ y) (h' : CompilesForm K E s₀ ps t t' x z₁ z₂ z) :
    s₀.Alike s'.store t'.store y z := by
  have respects₁ : K.Respects s₀ (E.resolve ps (E.fuel - 1)) := E.resolve_respects ps _
  have respects₂ : K.Respects s₀ (E.expandMacros (E.fuel - 1) s₀.config.maxMacroExpansions) :=
    expandMacros_respects hE _ _
  obtain ⟨s₁, s₂, h₁, h₂, h₃⟩ := h
  obtain ⟨t₁, t₂, h₁', h₂', h₃'⟩ := h'
  have hs₁ := K.trans hs (h₁.leads respects₁ hs (K.alike_later hs hs hx))
  have ht₁ := K.trans ht (h₁'.leads respects₁ ht (K.alike_later ht ht hx))
  have hx₁ := h₁.alike respects₁ hs ht h₁' (K.alike_later hs ht hx)
  have hxs₁ := h₁.alike respects₁ hs hs h₁ (K.alike_later hs hs hx)
  have hxt₁ := h₁'.alike respects₁ ht ht h₁' (K.alike_later ht ht hx)
  have hs₂ := K.trans hs₁ (h₂.leads respects₂ hs₁ hxs₁)
  have ht₂ := K.trans ht₁ (h₂'.leads respects₂ ht₁ hxt₁)
  exact h₃.alike (compileInner_and_compileWithin_respect hE _).1 hs₂ ht₂ h₃'
    (h₂.alike respects₂ hs₁ ht₁ h₂' hx₁)

/-! ## Compiling -/

/-- Compiling a parameter list and forms gives a callable of this shape and body. -/
def CompilesTo (E : Engine) (kind : CallableKind) (formals : Value) (forms : List Value)
    (s : State) (shape : Shape) (body : Value) (t : State) : Prop :=
  ∃ r b i, s.store.cell? r = some ⟨formals, b⟩ ∧ s.store.Chain forms .nil b ∧
    E.compile kind (.pair r) s = .ok (.callable i) t ∧
    t.store.callables[i.index]? = some (kind.make shape body)

/-- The form is the bare name of a macro, and of no parameter. -/
def NamesMacro (E : Engine) (formals : Value) (s : State) (form : Value) : Prop :=
  ∃ ps, E.parameters formals s = .ok ps s ∧ s.Expands (ps.scan form)

variable {kind : CallableKind} {formals body : Value} {forms : List Value} {shape : Shape}

/-- The passes that compiling consists of. -/
theorem CompilesTo.passes (hs : K.leads s₀ s) (hformals : s₀.IsText formals)
    (hforms : ∀ f ∈ forms, s₀.IsText f) (h : E.CompilesTo kind formals forms s shape body t) :
    ∃ ps b b₁ b₂ s₁ s₂ s₃, E.parameters formals s = .ok ps s ∧
      (∀ k, isLeftAlone k = true → ps.scan k = k) ∧ shape = ps.shape ∧
      s.store.Chain forms .nil b ∧ E.resolve ps E.fuel b s = .ok b₁ s₁ ∧
      E.expandMacros E.fuel s₀.config.maxMacroExpansions b₁ s₁ = .ok b₂ s₂ ∧
      E.compileInner (E.fuel - 1) b₂ s₂ = .ok body s₃ ∧
      s₃.store.KeepsCells t.store ∧ s₃.store.KeepsCallables t.store := by
  obtain ⟨r, b, i, hr, hb, hcompile, hcallable⟩ := h
  rw [compile] at hcompile
  cases hn : E.fuel with
  | zero => simp [hn, compileWithin] at hcompile
  | succ n =>
      rw [hn, compileWithin, bind_of_ok (car_apply r s), Store.car_of_cell? hr, hn,
        bind_eq_ok] at hcompile
      obtain ⟨ps, s', hps, h⟩ := hcompile
      obtain ⟨xs, _, hxs, -⟩ := alikeLists_of_parameters (K.alike_later hs hs hformals) hps
      obtain ⟨rfl, -, hk⟩ := E.parameters_eq_ok hxs hps
      rw [bind_of_ok (E.cdrCell_of_list hr hb), bind_eq_ok] at h
      obtain ⟨b₁, s₁, h₁, h⟩ := h
      rw [bind_of_ok (gets_apply _ s₁), bind_eq_ok] at h
      obtain ⟨b₂, s₂, h₂, h⟩ := h
      rw [bind_eq_ok] at h
      obtain ⟨b₃, s₃, h₃, h⟩ := h
      cases h
      have halike : s₀.Alike s'.store s'.store b b := by
        refine State.AlikeLists.alike ⟨forms, forms, hb, hb, ?_⟩
        exact List.forall₂_same.2 fun f hf => K.alike_later hs hs (hforms f hf)
      obtain ⟨hs₁, -⟩ := E.resolve_respects ps (n + 1) hs hs halike b₁ b₁ s₁ s₁ h₁ h₁
      rw [(K.carries (K.trans hs hs₁)).depth] at h₂
      have hmake : kind.make ps.shape b₃ = kind.make shape body := by simpa using hcallable
      have hboth : shape = ps.shape ∧ body = b₃ := by
        cases kind <;> cases hmake <;> exact ⟨rfl, rfl⟩
      obtain ⟨rfl, rfl⟩ := hboth
      exact ⟨ps, b, b₁, b₂, s₁, s₂, s₃, hps, hk, rfl, hb, h₁, h₂, h₃, fun _ _ h => h,
        s₃.store.keepsCallables_newCallable _⟩

theorem expander?_of_not_namesMacro (hs : K.leads s₀ s) (ht : K.leads s₀ t) {form : Value}
    (hform : s₀.IsText form) (hps : E.parameters formals s = .ok ps s)
    (h : ¬ E.NamesMacro formals s form) : t.expander? (ps.scan form) = none := by
  have hnone : s.expander? (ps.scan form) = none :=
    State.expander?_eq_none.2 fun hexpands => h ⟨ps, hps, hexpands⟩
  cases hpair : form.isPair with
  | true =>
      cases form with
      | pair r => rfl
      | _ => cases hpair
  | false =>
      obtain ⟨-, hnone'⟩ | ⟨f, body, -, hsome, -⟩ := expander?_of_alike (K.carries hs)
        (K.carries ht) ((K.alike_later hs ht hform).scan ps hpair)
      · exact hnone'
      · cases hnone.symm.trans hsome

/-- What becomes of a form that is compiled alone. -/
theorem CompilesTo.alone (hE : SteadyMacros K E s₀) {form : Value} (hs : K.leads s₀ s)
    (ht : K.leads s₀ t) (hformals : s₀.IsText formals) (hform : s₀.IsText form)
    (hps : E.parameters formals s = .ok ps s) (hm : ¬ E.NamesMacro formals s form) {t' : State}
    (h : E.CompilesTo kind formals [form] t shape body t') :
    shape = ps.shape ∧ ∃ t₃ x₁ x₂ y, CompilesForm K E s₀ ps t t₃ form x₁ x₂ y ∧
      (isLeftAlone x₂ = true → x₂ = .sym Symbol.quote) ∧ t'.store.Chain [y] .nil body ∧
      t₃.store.KeepsCells t'.store ∧ t₃.store.KeepsCallables t'.store := by
  obtain ⟨qs, b, b₁, b₂, t₁, t₂, t₃, hqs, hk, rfl, hb, h₁, h₂, h₃, hcells, hcallables⟩ :=
    h.passes ht hformals (by simpa using hform)
  obtain ⟨-, -, -, -, rfl⟩ :=
    parameters_parallel hs ht (K.alike_later hs ht hformals) ps qs s t hps hqs
  obtain ⟨x₁, x₂, y, ys, hy, hform', hquote, hys⟩ := passes_forms hE hk ht hb
    (by simpa using hform) (expander?_of_not_namesMacro hs ht hform hps hm) (.inl rfl) h₁ h₂ h₃
  cases hys
  exact ⟨rfl, t₃, x₁, x₂, y, hform', hquote, hy.keeps hcells, hcells, hcallables⟩

/-- Compiling goes form by form. The body is the list of what the forms become when each is compiled
alone with the same parameters, but for which cells and templates they are made of. This is so as
long as no form is the bare name of a macro, and the first of several forms does not come out as the
bare symbol that quotes. -/
theorem compile_form_by_form (hE : SteadyMacros K E s₀) (hs : K.leads s₀ s)
    (hformals : s₀.IsText formals) (hforms : ∀ f ∈ forms, s₀.IsText f)
    (hmacros : ∀ f ∈ forms, ¬ E.NamesMacro formals s f)
    (hfirst : ∀ f g rest, forms = f :: g :: rest → ∃ shape' body' u u', K.leads s₀ u ∧
      E.CompilesTo kind formals [f] u shape' body' u' ∧
      ¬ u'.store.Chain [.sym Symbol.quote] .nil body')
    (h : E.CompilesTo kind formals forms s shape body t) :
    ∃ ys, t.store.Chain ys .nil body ∧
      List.Forall₂ (fun f y => ∀ shape' body' u u', K.leads s₀ u →
        E.CompilesTo kind formals [f] u shape' body' u' →
        shape' = shape ∧ ∃ g, u'.store.Chain [g] .nil body' ∧ s₀.Alike t.store u'.store y g)
        forms ys := by
  obtain ⟨ps, b, b₁, b₂, s₁, s₂, s₃, hps, hk, rfl, hb, h₁, h₂, h₃, hcells, hcallables⟩ :=
    h.passes hs hformals hforms
  cases forms with
  | nil =>
      cases hb
      rw [E.resolve_word ps _ rfl] at h₁
      cases h₁
      rw [E.expandMacros_word rfl] at h₂
      cases h₂
      rw [E.compileInner_word rfl] at h₃
      cases h₃
      exact ⟨[], rfl, .nil⟩
  | cons x xs =>
      have hfirst : xs = [] ∨ ComesOut K E s₀ ps x := by
        cases xs with
        | nil => exact .inl rfl
        | cons g rest =>
            obtain ⟨shape', body', u, u', hu, hsingle, hbody'⟩ := hfirst x g rest rfl
            obtain ⟨-, u₃, x₁, x₂, y, hx, hquote, hy, -⟩ := hsingle.alone hE hs hu hformals
              (hforms x (by simp)) hps (hmacros x (by simp))
            refine .inr ⟨u, u₃, x₁, x₂, y, hu, hx, Bool.eq_false_iff.2 fun hleft => hbody' ?_⟩
            obtain ⟨_, _, -, -, h₃⟩ := hx
            rw [h₃.of_pure (E.compileInner_word (isPair_of_isLeftAlone hleft)), hquote hleft] at hy
            exact hy
      have hx := hmacros x (by simp)
      obtain ⟨x₁, x₂, y, ys, hys, hform, -, hall⟩ := passes_forms hE hk hs hb hforms
        (expander?_of_not_namesMacro hs hs (hforms x (by simp)) hps hx) hfirst h₁ h₂ h₃
      refine ⟨y :: ys, hys.keeps hcells, List.forall₂_iff_zip.2 ?_⟩
      have hforms' : List.Forall₂ (fun x y => ∃ x₁ x₂, CompilesForm K E s₀ ps s s₃ x x₁ x₂ y)
          (x :: xs) (y :: ys) := .cons ⟨x₁, x₂, hform⟩ hall
      refine ⟨hforms'.length_eq, ?_⟩
      rintro f z hz shape' body' u u' hu hsingle
      have hf : f ∈ x :: xs := (List.of_mem_zip hz).1
      obtain ⟨f₁, f₂, hfz⟩ := (List.forall₂_iff_zip.1 hforms').2 hz
      obtain ⟨rfl, u₃, g₁, g₂, g, hg, -, hbody', hcells', hcallables'⟩ :=
        hsingle.alone hE hs hu hformals (hforms f hf) hps (hmacros f hf)
      refine ⟨rfl, g, hbody', ?_⟩
      exact (hfz.alike hE hs hu (hforms f hf) hg).keeps hcells hcells' hcallables hcallables'

/-- The macro `(macro (x) x)` expands to its argument. -/
theorem expandCall_identity {b : Ref .cell} {x : Symbol} {n : Nat} {xs : List Value}
    {args : Value} (hb : s.store.cell? b = some ⟨.address ⟨0, 0, x⟩, .nil⟩)
    (hargs : s.store.Chain xs .nil args)
    (h : (ofFuel (n + 1)).expandCall (.expander ⟨1, false⟩ (.pair b)) (.pair b) args s = .ok w t) :
    xs = [w] ∧ t = { s with frames := s.frames.push #[w] none } := by
  cases xs with
  | nil =>
      cases hargs
      simp [expandCall, makeFrame, takeItems, Callable.shape, bind_apply] at h
  | cons y ys =>
      obtain ⟨r, d, rfl, hr, hd⟩ := hargs
      have htail : (ofFuel (n + 1)).force d = pure d := by
        rcases hd.nil_or_pair with rfl | ⟨q, rfl⟩ <;> rfl
      cases ys with
      | nil =>
          cases hd
          have hframe : (ofFuel (n + 1)).makeFrame (.expander ⟨1, false⟩ (.pair b)) (.pair r) s =
              .ok [y] s := by
            simp [makeFrame, takeItems, Callable.shape, bind_apply, Store.car_of_cell? hr,
              Store.cdr_of_cell? hr, force, Value.isNil]
          have hslot : (s.frames.push #[y] none).lookup? (some s.frames.size) 0 0 = some y := by
            simp [Frames.lookup?, Frames.frameAt?, Frames.push, Frames.size]
          have hsequence : (ofFuel (n + 1)).sequence (.pair b) (some s.frames.size)
              { s with frames := s.frames.push #[y] none } =
              .ok y { s with frames := s.frames.push #[y] none } := by
            simp [-bind_pure_comp, sequence, ofFuel, sequenceWithin, bind_apply,
              Store.car_of_cell? hb, Store.cdr_of_cell? hb, cdrCell, evaluate, step,
              Eval.onFailure, slot?, hslot]
          rw [expandCall, bind_of_ok hframe] at h
          cases hsequence.symm.trans h
          exact ⟨rfl, rfl⟩
      | cons z zs =>
          obtain ⟨q, e, rfl, -⟩ := hd
          simp [expandCall, makeFrame, takeItems, Callable.shape, bind_apply, htail,
            Store.cdr_of_cell? hr, Value.isNil] at h

theorem compilesTo_of_isOk {kind : CallableKind} {formals b : Value} {forms : List Value}
    {r : Ref .cell} (hr : s.store.cell? r = some ⟨formals, b⟩) (hb : s.store.Chain forms .nil b)
    (h : (E.compile kind (.pair r) s).isOk = true) :
    ∃ shape body t, E.CompilesTo kind formals forms s shape body t := by
  obtain ⟨w, t, hcompile⟩ := Outcome.exists_of_isOk h
  obtain ⟨shape, body, s', hs'⟩ : ∃ shape body s',
      alloc (·.newCallable (kind.make shape body)) s' = .ok w t := by
    rw [compile] at hcompile
    cases hn : E.fuel with
    | zero => simp [hn, compileWithin] at hcompile
    | succ n =>
        rw [hn, compileWithin] at hcompile
        simp only [bind_eq_ok] at hcompile
        obtain ⟨_, _, -, ps, _, -, _, _, -, _, _, -, _, _, -, _, _, -, body, s', -, h⟩ := hcompile
        exact ⟨_, _, _, h⟩
  cases hs'
  exact ⟨shape, body, _, r, b, _, hr, hb, hcompile, by simp⟩

/-- A state in which `m`, the symbol 17, is the macro `(macro (x) x)`. The cell 6 is
`((x) x (m x))`, and the cell 8 is `((x) x)`. Further cells and callables are as given. -/
def withIdentity (cells : Array Cell) (callables : Array Callable) : State where
  console := { answers := [] }
  symbols := .ofNames ["m", "x"]
  globals := Array.replicate 17 none ++ #[some (.callable ⟨0⟩)]
  store := {
    capacity := 100
    callables := #[.expander ⟨1, false⟩ (.pair ⟨0⟩)] ++ callables
    cells := #[⟨.address ⟨0, 0, ⟨18⟩⟩, .nil⟩, ⟨.sym ⟨18⟩, .nil⟩, ⟨.sym ⟨18⟩, .nil⟩,
      ⟨.sym ⟨17⟩, .pair ⟨2⟩⟩, ⟨.pair ⟨3⟩, .nil⟩, ⟨.sym ⟨18⟩, .pair ⟨4⟩⟩, ⟨.pair ⟨1⟩, .pair ⟨5⟩⟩,
      ⟨.sym ⟨18⟩, .nil⟩, ⟨.pair ⟨1⟩, .pair ⟨7⟩⟩] ++ cells }

theorem steadyMacros_withIdentity : SteadyMacros .least (ofFuel 5) (withIdentity #[] #[]) := by
  intro head f body hhead args args' s t hs ht ⟨xs, ys, hargs, hargs', hall⟩
  have hcallee : ∀ r : Ref .callable, ((withIdentity #[] #[]).store.callable r).expander? =
      some (f, body) → f = .expander ⟨1, false⟩ (.pair ⟨0⟩) ∧ body = .pair ⟨0⟩ := by
    rintro ⟨_ | i⟩ h
    · cases h
      exact ⟨rfl, rfl⟩
    · have hnone : (withIdentity #[] #[]).store.callable ⟨i + 1⟩ = default := by
        simp [Store.callable, withIdentity]
      rw [hnone] at h
      cases h
  obtain ⟨rfl, rfl⟩ : f = .expander ⟨1, false⟩ (.pair ⟨0⟩) ∧ body = .pair ⟨0⟩ := by
    cases head with
    | sym x =>
        cases hg : (withIdentity #[] #[]).global? x with
        | none => simp [State.expander?, hg] at hhead
        | some u =>
            cases u with
            | callable r =>
                simp only [State.expander?, hg] at hhead
                exact hcallee r hhead
            | _ => simp [State.expander?, hg] at hhead
    | callable r => exact hcallee r hhead
    | _ => cases hhead
  have hcell : (withIdentity #[] #[]).store.cell? ⟨0⟩ = some ⟨.address ⟨0, 0, ⟨18⟩⟩, .nil⟩ := rfl
  intro v w s' t' hv hw
  obtain ⟨rfl, rfl⟩ := expandCall_identity (hs.cells _ _ hcell) hargs hv
  obtain ⟨rfl, rfl⟩ := expandCall_identity (ht.cells _ _ hcell) hargs' hw
  have hframes : ∀ (s : State) frames, s.Carries { s with frames } := fun s _ =>
    ⟨fun _ _ h => h, fun _ _ h => h, fun _ _ h => h, fun _ => rfl, rfl⟩
  cases hall with
  | cons hvw _ => exact ⟨hframes s _, hframes t _, hvw⟩

theorem text_withIdentity :
    ∀ v ∈ [Value.pair ⟨1⟩, .sym ⟨18⟩, .pair ⟨3⟩], (withIdentity #[] #[]).IsText v := by
  have hword : ∀ i < 19, (withIdentity #[] #[]).IsText (.sym ⟨i⟩) := by
    intro i hi
    refine .word rfl (Bounds.holds_of_ref rfl |>.2 ?_)
    exact hi
  have hlist : ∀ (r : Ref .cell) (xs : List Nat), (∀ i ∈ xs, i < 19) →
      (withIdentity #[] #[]).store.Chain (xs.map fun i => .sym ⟨i⟩) .nil (.pair r) →
      (withIdentity #[] #[]).IsText (.pair r) := by
    intro r xs hxs hr
    refine State.AlikeLists.alike ⟨_, _, hr, hr, List.forall₂_same.2 fun v hv => ?_⟩
    obtain ⟨i, hi, rfl⟩ := List.mem_map.1 hv
    exact hword i (hxs i hi)
  have hformals := hlist ⟨1⟩ [18] (by simp) ⟨_, _, rfl, rfl, rfl⟩
  have hcall := hlist ⟨3⟩ [17, 18] (by simp) ⟨_, _, rfl, rfl, _, _, rfl, rfl, rfl⟩
  simpa using ⟨hformals, hword 18 (by simp), hcall⟩


/-- The body `(x (m x))`, where `x` is a parameter. -/
theorem compile_form_by_form_withIdentity : ∃ shape body t ys,
    (ofFuel 5).CompilesTo .template (.pair ⟨1⟩) [.sym ⟨18⟩, .pair ⟨3⟩] (withIdentity #[] #[])
      shape body t ∧
    t.store.Chain ys .nil body ∧
      List.Forall₂ (fun f y => ∀ shape' body' u u', History.least.leads (withIdentity #[] #[]) u →
        (ofFuel 5).CompilesTo .template (.pair ⟨1⟩) [f] u shape' body' u' →
        shape' = shape ∧ ∃ g, u'.store.Chain [g] .nil body' ∧
          (withIdentity #[] #[]).Alike t.store u'.store y g)
        [.sym ⟨18⟩, .pair ⟨3⟩] ys := by
  have hok : ((ofFuel 5).compile .template (.pair ⟨6⟩) (withIdentity #[] #[])).isOk = true := by
    decide +kernel
  have hforms : (withIdentity #[] #[]).store.Chain [.sym ⟨18⟩, .pair ⟨3⟩] .nil (.pair ⟨5⟩) :=
    ⟨_, _, rfl, rfl, _, _, rfl, rfl, rfl⟩
  obtain ⟨shape, body, t, h⟩ := compilesTo_of_isOk rfl hforms hok
  have hps : (ofFuel 5).parameters (.pair ⟨1⟩) (withIdentity #[] #[]) =
      .ok (Parameters.add {} (.sym ⟨18⟩) ⟨18⟩) (withIdentity #[] #[]) := rfl
  have hmacros : ∀ f ∈ [Value.sym ⟨18⟩, .pair ⟨3⟩],
      ¬ (ofFuel 5).NamesMacro (.pair ⟨1⟩) (withIdentity #[] #[]) f := by
    rintro f hf ⟨ps, hps', hexpands⟩
    cases hps.symm.trans hps'
    rcases List.mem_cons.1 hf with rfl | hf
    · exact hexpands
    · cases List.mem_singleton.1 hf
      exact hexpands
  let word : Cell := ⟨.address ⟨0, 0, ⟨18⟩⟩, .nil⟩
  have hsingle : (ofFuel 5).CompilesTo .template (.pair ⟨1⟩) [.sym ⟨18⟩] (withIdentity #[] #[])
      ⟨1, false⟩ (.pair ⟨11⟩)
      (withIdentity #[word, word, word] #[.template ⟨1, false⟩ (.pair ⟨11⟩)]) :=
    ⟨⟨8⟩, _, ⟨1⟩, rfl, ⟨_, _, rfl, rfl, rfl⟩, rfl, rfl⟩
  obtain ⟨ys, hys, hall⟩ := compile_form_by_form steadyMacros_withIdentity (.refl _)
    (text_withIdentity _ (by simp)) (fun f hf => text_withIdentity f (by simp [hf])) hmacros
    (by
      rintro f g rest ⟨⟩
      refine ⟨_, _, _, _, .refl _, hsingle, ?_⟩
      rintro ⟨r, d, hr, hcell, -⟩
      cases hr
      cases hcell) h
  exact ⟨shape, body, t, ys, h, hys, hall⟩

/-- A state in which `x` is the symbol 17 and no macro is defined. The cells 3, 5 and 6 are
`((x) quote x)`, `((x) quote)` and `((x) x)`. Further cells and callables are as given. -/
def unquoted (cells : Array Cell) (callables : Array Callable) : State where
  console := { answers := [] }
  symbols := .ofNames ["x"]
  store := {
    capacity := 100
    callables
    cells := #[⟨.sym ⟨17⟩, .nil⟩, ⟨.sym ⟨17⟩, .nil⟩, ⟨.sym Symbol.quote, .pair ⟨1⟩⟩,
      ⟨.pair ⟨0⟩, .pair ⟨2⟩⟩, ⟨.sym Symbol.quote, .nil⟩, ⟨.pair ⟨0⟩, .pair ⟨4⟩⟩,
      ⟨.pair ⟨0⟩, .pair ⟨1⟩⟩] ++ cells }

/-- A body that begins with the bare symbol `quote` is taken for a quoted form: the variables in the
forms after it get no addresses. -/
theorem compile_takes_body_for_form :
    ¬ ∀ (K : History) (E : Engine) (s₀ s t : State) (kind : CallableKind) (formals body : Value)
      (forms : List Value) (shape : Shape), SteadyMacros K E s₀ → K.leads s₀ s → s₀.IsText formals →
      (∀ f ∈ forms, s₀.IsText f) →
      (∀ f ∈ forms, ∃ shape' body' u', E.CompilesTo kind formals [f] s shape' body' u') →
      E.CompilesTo kind formals forms s shape body t →
      ∃ ys, t.store.Chain ys .nil body ∧
        List.Forall₂ (fun f y => ∀ shape' body' u u', K.leads s₀ u →
          E.CompilesTo kind formals [f] u shape' body' u' →
          shape' = shape ∧ ∃ g, u'.store.Chain [g] .nil body' ∧ s₀.Alike t.store u'.store y g)
          forms ys := by
  intro hall
  have hsteady : SteadyMacros .least (ofFuel 5) (unquoted #[] #[]) := by
    intro head f body hhead
    have hnone : ¬ (unquoted #[] #[]).Expands head := by
      cases head with
      | sym x =>
          rintro ⟨r, shape, body, hg, -⟩
          simp [State.global?, unquoted] at hg
      | callable r =>
          rintro ⟨shape, body, hr⟩
          simp [Store.callable, unquoted] at hr
      | _ => exact fun h => False.elim h
    rw [State.expander?_eq_none.2 hnone] at hhead
    cases hhead
  have hword : ∀ i < 18, (unquoted #[] #[]).IsText (.sym ⟨i⟩) := by
    intro i hi
    refine .word rfl (Bounds.holds_of_ref rfl |>.2 ?_)
    exact hi
  have hformals : (unquoted #[] #[]).IsText (.pair ⟨0⟩) := by
    have hchain : (unquoted #[] #[]).store.Chain [.sym ⟨17⟩] .nil (.pair ⟨0⟩) :=
      ⟨_, _, rfl, rfl, rfl⟩
    exact State.AlikeLists.alike ⟨_, _, hchain, hchain, .cons (hword 17 (by simp)) .nil⟩
  have hbody : (ofFuel 5).CompilesTo .template (.pair ⟨0⟩) [.sym Symbol.quote, .sym ⟨17⟩]
      (unquoted #[] #[]) ⟨1, false⟩ (.pair ⟨2⟩)
      (unquoted #[] #[.template ⟨1, false⟩ (.pair ⟨2⟩)]) :=
    ⟨⟨3⟩, .pair ⟨2⟩, ⟨0⟩, rfl, ⟨_, _, rfl, rfl, _, _, rfl, rfl, rfl⟩, rfl, rfl⟩
  have hquote : (ofFuel 5).CompilesTo .template (.pair ⟨0⟩) [.sym Symbol.quote] (unquoted #[] #[])
      ⟨1, false⟩ (.pair ⟨4⟩) (unquoted #[] #[.template ⟨1, false⟩ (.pair ⟨4⟩)]) :=
    ⟨⟨5⟩, _, ⟨0⟩, rfl, ⟨_, _, rfl, rfl, rfl⟩, rfl, rfl⟩
  let word : Cell := ⟨.address ⟨0, 0, ⟨17⟩⟩, .nil⟩
  have hvar : (ofFuel 5).CompilesTo .template (.pair ⟨0⟩) [.sym ⟨17⟩] (unquoted #[] #[]) ⟨1, false⟩
      (.pair ⟨9⟩) (unquoted #[word, word, word] #[.template ⟨1, false⟩ (.pair ⟨9⟩)]) :=
    ⟨⟨6⟩, _, ⟨0⟩, rfl, ⟨_, _, rfl, rfl, rfl⟩, rfl, rfl⟩
  obtain ⟨ys, hys, hforms⟩ := hall .least (ofFuel 5) _ _ _ .template (.pair ⟨0⟩) (.pair ⟨2⟩)
    [.sym Symbol.quote, .sym ⟨17⟩] ⟨1, false⟩ hsteady (.refl _) hformals
    (by simpa using ⟨hword 0 (by simp), hword 17 (by simp)⟩)
    (by simpa using ⟨⟨_, _, _, hquote⟩, ⟨_, _, _, hvar⟩⟩) hbody
  -- The second form is the bare symbol in the body, but by itself it is an address.
  cases hforms with
  | cons _ hrest =>
      cases hrest with
      | cons hx hnil =>
          cases hnil
          obtain ⟨-, g, ⟨_, _, hr, hg, -⟩, halike⟩ := hx _ _ _ _ (.refl _) hvar
          obtain ⟨_, _, hr₁, hcell₁, _, _, rfl, hcell₂, -⟩ := hys
          cases hr₁
          cases hcell₁
          cases hcell₂
          cases hr
          cases hg
          cases halike.isSym ⟨17⟩

end Engine

end SmallLisp
