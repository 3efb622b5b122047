import SmallLisp.Proofs.Twins.Evaluation

/-!
# Definitions in either order

A macro is defined and a function that calls it, in one order and in the other. The function is
compiled to twin bodies, and the machines that the two orders lead to correspond.
-/

namespace SmallLisp

open Eval Code Scope Filter

variable {hidden : Nat → Prop} {s t u : State} {v w : Value}

/-! ## Binding a callable -/

/-- In the second state the name is bound to a new callable with the code as its body; nothing else
that was there has changed. -/
structure State.Binds (hidden : Nat → Prop) (s : State) (x : Symbol) (kind : CallableKind)
    (shape : Shape) (ds : List Code) (t : State) : Prop where
  beyond : s.Beyond t
  others : ∀ y, y ≠ x → t.global? y = s.global? y
  callable : ∃ r b, t.global? x = some (.callable r) ∧ s.count .callable ≤ r.index ∧
    t.store.callables[r.index]? = some (kind.make shape b) ∧
    StandsAll (t.store.veil hidden) ds b

theorem State.Makes.binds {kind : CallableKind} {shape : Shape} {ds : List Code}
    (h : s.Makes hidden kind shape ds w t) (x : Symbol) :
    s.Binds hidden x kind shape ds (t.setGlobal x w) := by
  obtain ⟨b, s₁, hs₁, hb, rfl, rfl⟩ := h
  have hwider := hs₁.wider.trans (.newCallable s₁ (kind.make shape b))
  refine ⟨⟨fun k i hi => ?_, ?_⟩, fun y hy => ?_, ⟨s₁.store.callables.size⟩, b, ?_,
    hs₁.wider.count_le .callable, Array.getElem?_push_size, ?_⟩
  · have hsame := hwider.same k i hi
    cases k <;> exact hsame
  · have hrest := hwider.rest
    generalize s₁.mapStore _ = t at hrest
    rw [hrest]
    rfl
  · rw [State.global?_setGlobal, if_neg hy, hwider.global?]
  · rw [State.global?_setGlobal, if_pos rfl]
  · exact ((State.Wider.newCallable s₁ _).veil fun _ _ => Iff.rfl).standsAll hb

namespace Code

/-- The form that binds the name to what the code comes to. -/
def define (x : Symbol) (c : Code) : Code :=
  .list [.word (.sym Symbol.setq), .word (.sym x), c]

end Code

/-- What denotes no macro is none. -/
theorem State.Defines.not_expands {x : Symbol} {f : Callable} (h : s.Defines x f)
    (hf : ∀ shape body, f ≠ .expander shape body) : ¬ s.Expands (.sym x) := by
  obtain ⟨-, r, hr, hcallable⟩ := h
  rintro ⟨r', shape, body, hr', hbody⟩
  rw [hr] at hr'
  cases hr'
  exact hf shape body (hcallable.symm.trans hbody)

namespace Links

variable {data : Kind → Nat → Prop}

/-- Each of the things belongs together with itself. -/
def self (data : Kind → Nat → Prop) : Links := fun k i j => data k i ∧ i = j

end Links

namespace Setting

variable {T : Setting} {data : Kind → Nat → Prop}

/-! ## The machine before the definitions -/

variable (T) in
/-- The macro is not known yet. The data of the machine is what programs have to do with; all else,
such as the text of the definitions, stays as it is. -/
structure Beginning (data : Kind → Nat → Prop) (s : State) : Prop where
  corresponds : T.Corresponds (.self data) s s
  natives : ∀ b : Builder, s.Defines b.symbol (.native (.lists b.native))
  unknown : ¬ s.Expands (.sym T.word)
  allowed : 0 < T.config.maxMacroExpansions

namespace Beginning

theorem lt_size (h : T.Beginning data s) (i : Nat) (hi : data .cell i) :
    i < s.store.cells.size :=
  (h.corresponds.count (k := .cell) ⟨hi, rfl⟩).1

/-- The names of programs go on denoting no macros. -/
theorem not_expands (h : T.Beginning data s) (ht : s.Beyond t) {x : Symbol} (hx : T.names x)
    (hglobal : t.global? x = s.global? x) : ¬ t.Expands (.sym x) := by
  rintro ⟨r, shape, body, hr, hbody⟩
  have hlike := h.corresponds.globals hx
  rw [hglobal] at hr
  rw [hr] at hlike
  cases hlike with
  | some hlike =>
      cases hlike with
      | callable hlink =>
          have hsame : t.store.callables[r.index]? = s.store.callables[r.index]? :=
            ht.same .callable r.index (h.corresponds.count hlink).1
          have hcallable : T.LikeCallable _ s s (s.store.callable r) (s.store.callable r) :=
            h.corresponds.contents hlink
          rw [Store.callable, Array.getD_eq_getD_getElem?, hsame,
            ← Array.getD_eq_getD_getElem?] at hbody
          rw [show s.store.callable r = .expander shape body from hbody] at hcallable
          cases hcallable

end Beginning

/-! ## The macro -/

end Setting

end SmallLisp
