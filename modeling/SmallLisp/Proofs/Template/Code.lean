import SmallLisp.Proofs.Template.Meaning

/-!
# Code as it is read

The plainest code of a form is the form itself, in the cells that reading has made for it. Whatever
the state, such code is a site of evaluation.
-/

namespace SmallLisp

namespace Store

variable {s : Store} {t : SymbolTable} {own : Ref .cell → Prop}

/-- The value spells the form, by cells that belong to it. -/
def Held (s : Store) (t : SymbolTable) (own : Ref .cell → Prop) : Form → Value → Prop
  | .pair a b, v => ∃ r car cdr, v = .pair r ∧ own r ∧ s.cell? r = some ⟨car, cdr⟩ ∧
      s.Held t own a car ∧ s.Held t own b cdr
  | f, v => s.Spells t f v

theorem Held.mono {own' : Ref .cell → Prop} (h : ∀ r, own r → own' r) : ∀ {f : Form} {v : Value},
    s.Held t own f v → s.Held t own' f v
  | .atom _, _, hf => hf
  | .pair _ _, _, ⟨r, car, cdr, hv, hr, hc, ha, hb⟩ =>
      ⟨r, car, cdr, hv, h r hr, hc, ha.mono h, hb.mono h⟩
  | .vector _, _, hf => hf

/-- Reading a form holds it in the cells that are new. -/
theorem Laid.held : ∀ {f : Form} {v : Value} {e e' : Extent}, s.Laid t f v e e' →
    s.Held t (fun r => e.cells ≤ r.index ∧ r.index < e'.cells) f v
  | .atom _, _, _, _, h => h.1
  | .vector items, _, _, _, h => Laid.spells (f := .vector items) h
  | .pair a b, _, e, _, ⟨car, cdr, e₁, e₂, hb, ha, hv, hc, he⟩ => by
      have hle₁ := hb.le
      have hle₂ := ha.le
      subst he
      refine ⟨⟨e₂.cells⟩, car, cdr, hv, ⟨Nat.le_trans hle₁.1 hle₂.1, Nat.lt_succ_self _⟩, hc,
        ha.held.mono fun r hr => ?_, hb.held.mono fun r hr => ?_⟩
      · exact ⟨by omega, Nat.lt_succ_of_lt hr.2⟩
      · exact ⟨hr.1, Nat.lt_succ_of_lt (Nat.lt_of_lt_of_le hr.2 hle₂.1)⟩

theorem Held.owned : ∀ {f : Form} {r : Ref .cell}, s.Held t own f (.pair r) → own r
  | .atom _, _, h => by cases h
  | .pair _ _, _, ⟨_, _, _, hv, hr, _⟩ => by
      cases hv
      exact hr
  | .vector _, _, ⟨_, _, hv, _⟩ => by cases hv

theorem Held.list {args : List Form} {v : Value} (h : s.Held t own (.list args) v) :
    ∃ vs, s.Owned own vs v ∧ List.Forall₂ (s.Held t own) args vs := by
  induction args generalizing v with
  | nil => exact ⟨[], nil_of_atom? h, .nil⟩
  | cons a args ih =>
      obtain ⟨r, car, cdr, rfl, hr, hc, ha, hb⟩ := h
      obtain ⟨vs, hvs, hall⟩ := ih hb
      exact ⟨car :: vs, ⟨r, cdr, rfl, hr, hc, hvs⟩, .cons ha hall⟩

/-- Code of a call of a name is a call of the symbol that has it. -/
theorem Held.call (ht : t.Sound) {x : Symbol} {name : String} (hx : t.names[x.index]? = some name)
    {args : List Form} {v : Value} (h : s.Held t own (.call name args) v) :
    ∃ vs, s.Owned own (.sym x :: vs) v ∧ List.Forall₂ (s.Held t own) args vs := by
  obtain ⟨ws, hws, hall⟩ := h.list
  cases hall with
  | cons hhead hargs =>
      obtain ⟨y, rfl, hy⟩ := sym_of_atom? hhead
      obtain rfl := ht.eq_of_name? hy hx
      exact ⟨_, hws, hargs⟩

theorem Held.quoted (ht : t.Sound) {f : Form} {v : Value} (hf : ∀ a b, f ≠ .pair a b)
    (h : s.Held t own f.quoted v) : ∃ x, s.Spells t f x ∧
      (v = x ∧ x.isLiteral ∨ s.Owned own [.sym Symbol.quote, x] v) := by
  cases f with
  | atom a =>
      cases a with
      | sym name =>
          have hquote : t.names[Symbol.quote.index]? = some "quote" :=
            ht.name?_known (i := 0) (by decide)
          obtain ⟨vs, hvs, hall⟩ := Held.call ht hquote h
          cases hall with
          | cons hx hnil =>
              cases hnil
              exact ⟨_, hx, .inr hvs⟩
      | _ =>
          refine ⟨v, h, .inl ⟨rfl, ?_⟩⟩
          cases v <;> first | rfl | simp [Form.quoted, Held, Spells, atom?] at h
  | pair a b => exact (hf a b rfl).elim
  | vector items =>
      obtain ⟨r, vs, rfl, hrest⟩ := h
      exact ⟨_, ⟨r, vs, rfl, hrest⟩, .inl ⟨rfl, rfl⟩⟩
  | unquote f => exact h.elim
  | splice f => exact h.elim

end Store

/-- The code of forms as they are in the store, by the cells in an interval. -/
def Site.asRead (s : State) (hs : s.symbols.Sound) (env : Env) (lo hi : Nat)
    (hhi : hi ≤ s.store.cells.size) : Site where
  env := env
  start := s
  own r := lo ≤ r.index ∧ r.index < hi
  code := s.store.Held s.symbols fun r => lo ≤ r.index ∧ r.index < hi
  inRange h := Nat.lt_of_lt_of_le h.2 hhi
  pair := Store.Held.owned
  call h := Store.Held.call hs (hs.name?_builder _) h
  quoted hf h := Store.Held.quoted hs hf h

end SmallLisp
