import SmallLisp.Proofs.Prelude.Compiling
import SmallLisp.Proofs.Compiler.Renaming

/-!
# Definitions where a lexicon describes the state

Evaluating a form that does nothing but define names leads from a state that a lexicon describes to
one that the lexicon with the definitions describes, if it leads to a value at all.
-/

namespace SmallLisp

open Eval Code

variable {L : Lexicon} {s t : State}

/-! ## Stand-ins -/

theorem State.Supplies.keepsCode (h : s.Supplies t) : s.store.KeepsCode t.store := by
  refine ⟨h.cells, fun i f hf => ?_⟩
  rw [h.rest]
  exact hf

theorem Engine.replaceItems_nil (E : Engine) (n : Nat) (reversed : List Value)
    (names : Engine.Dummies) :
    E.replaceItems n .nil reversed names = pure (reversed, names) := by
  cases n <;> rfl

namespace Lexicon

/-- The state has the names of the lexicon, and has given out the stand-ins. -/
def Numbers (L : Lexicon) (S : StandIns) (s : State) : Prop :=
  s.symbols.names.toList.map SymbolTable.key = L.keys ∧ s.store.dummies.toList = S.dummies

theorem Numbers.isDummy {S : StandIns} (h : L.Numbers S s) (x : Symbol) :
    s.symbols.isDummy x = L.isDummy x := by
  have hkey : L.keys.getD x.index 1 = SymbolTable.key (s.symbols.name x) := by
    rw [NameTables.name, ← h.1]
    simp only [Array.getD_eq_getD_getElem?, List.getD_eq_getElem?_getD, List.getElem?_map,
      Array.getElem?_toList]
    cases s.symbols.names[x.index]? <;> rfl
  rw [NameTables.isDummy, SymbolTable.isDummyName_eq, Lexicon.isDummy, hkey]

/-- From the lexicon's stand-ins, replacing private variables makes of what stands for a tree what
the lexicon tells. -/
def Replaces (L : Lexicon) (k : Nat) : Prop :=
  ∀ {E : Engine} {n : Nat} {c d : Code} {S S' : StandIns} {v w : Value} {names : Engine.Dummies}
    {s t : State}, L.replaced? k c S = some (d, S') → L.Numbers S s → c.Stands s.store v →
    E.replaceWithin n v S.names s = .ok (w, names) t →
    s.Supplies t ∧ L.Numbers S' t ∧ names = S'.names ∧ d.Stands t.store w

/-- The same for the items of a list. -/
def ReplacesAll (L : Lexicon) (k : Nat) : Prop :=
  ∀ {E : Engine} {n : Nat} {cs ds : List Code} {S S' : StandIns} {v : Value}
    {reversed out : List Value} {names : Engine.Dummies} {s t : State},
    L.replacedAll? k cs S = some (ds, S') → L.Numbers S s → StandsAll s.store cs v →
    E.replaceItems n v reversed S.names s = .ok (out, names) t →
    s.Supplies t ∧ L.Numbers S' t ∧ names = S'.names ∧
      ∃ ws, out = ws.reverse ++ reversed ∧ List.Forall₂ (Stands t.store) ds ws

theorem Numbers.dummyFor {S : StandIns} {x : Symbol} {w : Value} {names : Engine.Dummies}
    (hS : L.Numbers S s) (h : Engine.dummyFor x S.names s = .ok (w, names) t) :
    s.Supplies t ∧ L.Numbers (S.standIn x).2 t ∧ names = (S.standIn x).2.names ∧
      w = (S.standIn x).1 := by
  rw [StandIns.standIn]
  rw [Engine.dummyFor] at h
  cases hfind : S.names.find? (·.1 == x) with
  | some p =>
      rw [hfind] at h
      cases h
      exact ⟨.refl s, hS, rfl, rfl⟩
  | none =>
      rw [hfind] at h
      cases h
      refine ⟨⟨.refl _, fun i y hy => Store.getElem?_push_of_some hy, rfl⟩, ⟨hS.1, ?_⟩, ?_, ?_⟩ <;>
        simp [← hS.2]

theorem ReplacesAll.list {k n : Nat} {E : Engine} {cs ds : List Code} {S S' : StandIns}
    {r : Ref .cell} {w : Value} {names : Engine.Dummies} (ih : L.ReplacesAll k)
    (hds : L.replacedAll? k cs S = some (ds, S')) (hS : L.Numbers S s)
    (hv : StandsAll s.store cs (.pair r))
    (h : E.replaceWithin (n + 1) (.pair r) S.names s = .ok (w, names) t) :
    s.Supplies t ∧ L.Numbers S' t ∧ names = S'.names ∧ StandsAll t.store ds w := by
  rw [Engine.replaceWithin, bind_eq_ok] at h
  obtain ⟨⟨reversed, names₁⟩, s₁, hitems, h⟩ := h
  obtain ⟨hs₁, hS₁, rfl, ws, rfl, hws⟩ := ih hds hS hv hitems
  obtain ⟨u, s₂, hcons, h⟩ := bind_eq_ok.1 h
  cases h
  obtain ⟨hadd, ht, hchain⟩ := consAll_eq_ok hcons
  have hst : s₁.Supplies t := .of_addsCells hadd ht
  refine ⟨hs₁.trans hst, ⟨?_, ?_⟩, rfl, ?_⟩
  · rw [ht]
    exact hS₁.1
  · rw [hadd.rest]
    exact hS₁.2
  · refine standsAll_of_chain (hws.imp fun _ _ => hst.keepsCode.stands) ?_
    simpa using hchain

theorem replaces_succ {k : Nat} (ih : L.ReplacesAll k) : L.Replaces (k + 1) := by
  intro E n c d S S' v w names s t hd hS hv h
  unfold replaced? at hd
  split at hd
  · rename_i x
    obtain rfl : v = .sym x := hv
    rw [Engine.replaceWithin_sym, hS.isDummy] at h
    split at hd
    · rename_i hx
      cases hd
      rw [if_pos hx] at h
      obtain ⟨ht, hS', hnames, rfl⟩ := hS.dummyFor h
      exact ⟨ht, hS', hnames, rfl⟩
    · rename_i hx
      cases hd
      rw [if_neg hx] at h
      cases h
      exact ⟨.refl s, hS, rfl, rfl⟩
  · rename_i u hsym
    obtain ⟨e, he, heq⟩ := Option.map_eq_some_iff.1 hd
    obtain ⟨rfl, hpair, -⟩ := eq_of_ofWord? he
    cases heq
    obtain rfl : v = u := hv
    have hword : E.replaceWithin n v S.names = pure (v, S.names) := by
      cases v with
      | sym x => exact (hsym x rfl).elim
      | pair r => cases hpair
      | _ => cases n <;> rfl
    rw [hword] at h
    cases h
    exact ⟨.refl s, hS, rfl, rfl⟩
  · obtain ⟨⟨ds, S₁⟩, hds, heq⟩ := Option.map_eq_some_iff.1 hd
    cases heq
    obtain ⟨r, -, -, rfl, -⟩ := id hv
    cases n with
    | zero => cases h
    | succ n => exact ih.list hds hS hv h
  · cases hd

theorem replacesAll_succ {k : Nat} (ih : L.Replaces k) (ihAll : L.ReplacesAll k) :
    L.ReplacesAll (k + 1) := by
  intro E n cs ds S S' v reversed out names s t hds hS hv h
  cases cs with
  | nil =>
      cases hds
      cases hv
      rw [Engine.replaceItems_nil] at h
      cases h
      exact ⟨.refl s, hS, rfl, [], rfl, .nil⟩
  | cons c cs =>
      obtain ⟨⟨d, S₁⟩, hd, hds⟩ := Option.bind_eq_some_iff.1 hds
      obtain ⟨⟨ds', S₂⟩, hds', heq⟩ := Option.bind_eq_some_iff.1 hds
      cases heq
      obtain ⟨r, a, rest, rfl, hr, ha, hrest⟩ := hv
      cases n with
      | zero => cases h
      | succ n =>
          rw [Engine.replaceItems, bind_of_ok (car_apply r s), Store.car_of_cell? hr] at h
          obtain ⟨⟨w, names₁⟩, s₁, hitem, h⟩ := bind_eq_ok.1 h
          obtain ⟨hs₁, hS₁, rfl, hw⟩ := ih hd hS ha hitem
          have hrest₁ := hs₁.keepsCode.standsAll hrest
          obtain ⟨vs, hchain, -⟩ := chain_of_standsAll hrest₁
          dsimp only at h
          rw [bind_of_ok (E.cdrCell_of_list (hs₁.cells r _ hr) hchain)] at h
          obtain ⟨ht, hS₂, rfl, ws, rfl, hws⟩ := ihAll hds' hS₁ hrest₁ h
          exact ⟨hs₁.trans ht, hS₂, rfl, w :: ws, by simp, .cons (ht.keepsCode.stands hw) hws⟩

theorem replacesAll (L : Lexicon) (k : Nat) : L.Replaces k ∧ L.ReplacesAll k := by
  induction k with
  | zero =>
      constructor
      · intro E n c d S S' v w names s t hd
        cases hd
      · intro E n cs ds S S' v reversed out names s t hds hS hv h
        cases cs with
        | nil =>
            cases hds
            cases hv
            rw [Engine.replaceItems_nil] at h
            cases h
            exact ⟨.refl s, hS, rfl, [], rfl, .nil⟩
        | cons c cs => cases hds
  | succ k ih => exact ⟨replaces_succ ih.2, replacesAll_succ ih.1 ih.2⟩

end Lexicon

/-! ## Making callables -/

/-- The value is a callable of the meaning. -/
def Meaning.Denotes (m : Meaning) (s : State) (v : Value) : Prop :=
  ∃ r f, v = .callable r ∧ s.store.callables[r.index]? = some f ∧ m.Tells s.store f

namespace Lexicon.Describes

variable {k n : Nat} {c : Code} {cs : List Code} {m : Meaning} {L' : Lexicon} {v w : Value}

theorem numbers (h : L.Describes s) : L.Numbers ⟨[], L.dummies⟩ s := ⟨h.keys, h.dummies⟩

/-- A callable that is compiled is what the lexicon tells. -/
theorem compile (h : L.Describes s) {kind : CallableKind} {p : Shape × List Code}
    (hp : L.compiled? k cs = some p) (hv : StandsAll s.store cs v)
    (hw : (Engine.ofFuel n).compile kind v s = .ok w t) :
    L.Describes t ∧ s.store.KeepsCode t.store ∧ ∃ r b, w = .callable r ∧
      t.store.callables[r.index]? = some (kind.make p.1 b) ∧ StandsAll t.store p.2 b := by
  obtain ⟨s₁, b, hs₁, hb, halloc⟩ := (h.compiles n k).2 (.refl s) hp hv hw
  cases halloc
  have ht := State.Accrues.newCallable s₁ (kind.make p.1 b)
  exact ⟨h.accrues (hs₁.trans ht), (hs₁.trans ht).code, _, b, rfl,
    by simp, ht.code.standsAll hb⟩

/-- Stand-ins that are given out are in the lexicon from then on. -/
theorem replaceDummies (h : L.Describes s) {text : Code} {S : StandIns} {E : Engine}
    (htext : L.replaced? k c ⟨[], L.dummies⟩ = some (text, S)) (hv : c.Stands s.store v)
    (hw : E.replaceDummies v s = .ok w t) :
    Describes { L with dummies := S.dummies } t ∧ s.store.KeepsCode t.store ∧
      text.Stands t.store w := by
  rw [Engine.replaceDummies, bind_eq_ok] at hw
  obtain ⟨⟨u, names⟩, s₁, hreplace, hpure⟩ := hw
  cases hpure
  obtain ⟨hst, hnumbers, -, hstands⟩ := (L.replacesAll k).1 htext h.numbers hv hreplace
  exact ⟨h.keeps hst.keepsCode (by rw [hst.rest]) hst.symbols_eq hnumbers.2, hst.keepsCode, hstands⟩

theorem evaluate_sym (h : L.Describes s) {x : Symbol} {env : Env} (hm : L.meaning? x = some m)
    (hw : evaluate n (.sym x) env s = .ok w t) : t = s ∧ m.Denotes s w := by
  obtain ⟨r, f, hglobal, hr, htells⟩ := h.meanings hm
  have hstep : ∀ n, (Engine.ofFuel n).step (.sym x) env s = .ok (.done (.callable r)) s :=
    fun n => by
      rw [Engine.step, bind_of_ok (gets_apply _ s), hglobal]
      rfl
  obtain ⟨rfl, rfl⟩ := Engine.eq_of_evaluate hstep hw
  exact ⟨rfl, r, f, rfl, hr, htells⟩

theorem evaluate_lambda (h : L.Describes s) {p : Shape × List Code}
    (hp : L.compiled? k cs = some p)
    (hv : StandsAll s.store (.word (.sym Symbol.lambda) :: cs) v)
    (hw : evaluate n v none s = .ok w t) :
    L.Describes t ∧ s.store.KeepsCode t.store ∧ (Meaning.closure p.1 p.2).Denotes t w := by
  obtain ⟨n, args, hargs, hw⟩ := Engine.special_of_evaluate (k := .lambda) rfl hv hw
  rw [Engine.special, bind_assoc, bind_eq_ok] at hw
  obtain ⟨u, s₁, hu, hdone⟩ := hw
  cases hdone
  obtain ⟨ht, hkeeps, r, b, rfl, hr, hb⟩ := h.compile hp hargs hu
  exact ⟨ht, hkeeps, r, _, rfl, hr, b, rfl, hb⟩

theorem evaluate_expander (h : L.Describes s) {text : Code} {S : StandIns} {items : List Code}
    {p : Shape × List Code} (htext : L.replaced? k (ofItems cs) ⟨[], L.dummies⟩ = some (text, S))
    (hitems : text.items? = some items)
    (hp : compiled? { L with dummies := S.dummies } k items = some p)
    (hv : StandsAll s.store (.word (.sym Symbol.expander) :: cs) v)
    (hw : evaluate n v none s = .ok w t) :
    Describes { L with dummies := S.dummies } t ∧ s.store.KeepsCode t.store ∧
      (Meaning.expander p.1 p.2).Denotes t w := by
  obtain ⟨n, args, hargs, hw⟩ := Engine.special_of_evaluate (k := .expander) rfl hv hw
  rw [Engine.special, bind_assoc, bind_eq_ok] at hw
  obtain ⟨u, s₁, hu, hdone⟩ := hw
  cases hdone
  rw [Engine.evalMacro, if_neg (by simp), bind_eq_ok] at hu
  obtain ⟨args', s₁, hreplace, hu⟩ := hu
  obtain ⟨h₁, hkeeps₁, hstands⟩ := h.replaceDummies htext (stands_ofItems.2 hargs) hreplace
  obtain ⟨ht, hkeeps, r, b, rfl, hr, hb⟩ :=
    h₁.compile hp ((standsAll_of_items? hitems).1 hstands) hu
  exact ⟨ht, hkeeps₁.trans hkeeps, r, _, rfl, hr, b, rfl, hb⟩

/-- A form that makes a callable makes what the lexicon tells. -/
theorem makes (h : L.Describes s) (hm : L.made? k c = some (m, L')) (hv : c.Stands s.store v)
    (hw : evaluate n v none s = .ok w t) :
    L'.Describes t ∧ s.store.KeepsCode t.store ∧ m.Denotes t w := by
  unfold made? at hm
  split at hm
  · obtain ⟨m', hx, heq⟩ := Option.map_eq_some_iff.1 hm
    cases heq
    cases hv
    obtain ⟨rfl, hdenotes⟩ := h.evaluate_sym hx hw
    exact ⟨h, .refl _, hdenotes⟩
  · split at hm
    · rename_i hx
      subst hx
      obtain ⟨p, hp, heq⟩ := Option.map_eq_some_iff.1 hm
      cases heq
      exact h.evaluate_lambda hp hv hw
    split at hm
    · rename_i hx
      subst hx
      obtain ⟨⟨text, S⟩, htext, hm⟩ := Option.bind_eq_some_iff.1 hm
      obtain ⟨items, hitems, hm⟩ := Option.bind_eq_some_iff.1 hm
      obtain ⟨p, hp, heq⟩ := Option.map_eq_some_iff.1 hm
      cases heq
      exact h.evaluate_expander htext hitems hp hv hw
    · cases hm
  · cases hm

end Lexicon.Describes

/-! ## Binding names -/

theorem Eval.modify_eq_ok {f : State → State} {u : Unit} (h : modify f s = .ok u t) : t = f s := by
  cases h
  rfl

namespace Lexicon

variable {k n : Nat} {c : Code} {cs : List Code} {m : Meaning} {L' : Lexicon} {v w : Value}

/-- A name of a callable has its meaning from then on. -/
theorem Describes.setGlobal (h : L.Describes s) {y : Symbol} (hy : y ≠ Symbol.t)
    (hm : m.Denotes s v) : (L.define y m).Describes (s.setGlobal y v) := by
  obtain ⟨r, f, rfl, hr, htells⟩ := hm
  refine { h with truth := ?_, meanings := ?_, bound := ?_, expanders := ?_ }
  · rw [State.global?_setGlobal, if_neg hy.symm]
    exact h.truth
  · intro x m' hx
    rw [meaning?_define] at hx
    rw [State.global?_setGlobal]
    split at hx
    · cases hx
      exact ⟨r, f, by rw [if_pos ‹_›], hr, htells⟩
    · rw [if_neg ‹_›]
      exact h.meanings hx
  · intro x q hx
    rw [State.global?_setGlobal] at hx
    split at hx
    · cases hx
      exact (Array.getElem?_eq_some_iff.1 hr).1
    · exact h.bound hx
  · rintro x ⟨q, shape, body, hx, hq⟩
    rw [State.global?_setGlobal] at hx
    rw [meaning?_define]
    split at hx
    · cases hx
      rw [if_pos ‹_›]
      obtain rfl : f = .expander shape body := (getD_of_getElem? hr default).symm.trans hq
      obtain ⟨bs, rfl⟩ := htells.eq_expander
      exact ⟨shape, bs, rfl⟩
    · rw [if_neg ‹_›]
      exact h.expanders ⟨q, shape, body, hx, hq⟩

end Lexicon

/-- Binding the symbol of a name that is no keyword sets its global value. -/
theorem Engine.bindVariable_eq_ok {y : Symbol} {v : Value} {env : Env} {u : Unit}
    (h : bindVariable (.sym y) v env s = .ok u t) : t = s.setGlobal y v := by
  unfold bindVariable at h
  dsimp only at h
  rw [Eval.isKeyword, bind_of_ok (gets_apply _ s)] at h
  split at h <;> cases h
  rfl

namespace Lexicon

variable {k n : Nat} {c : Code} {cs : List Code} {m : Meaning} {L' : Lexicon} {v w : Value}

/-- A form that binds a name to a callable. -/
theorem Describes.setq (h : L.Describes s) {y : Symbol} (hy : y ≠ Symbol.t)
    (hm : L.made? k c = some (m, L')) (hv : StandsAll s.store [.word (.sym y), c] v)
    (hw : (Engine.ofFuel n).setqWithin none n v .nil s = .ok w t) :
    (L'.define y m).Describes t ∧ s.store.KeepsCode t.store := by
  obtain ⟨r, _, d, rfl, hr, rfl, q, form, _, rfl, hq, hform, rfl⟩ := hv
  cases n with
  | zero => cases hw
  | succ n =>
      have hrest : (Engine.ofFuel (n + 1)).cdrCell r s = .ok (.pair q) s :=
        Engine.cdrCell_of_list _ hr
          (show s.store.Chain [form] .nil (.pair q) from ⟨q, .nil, rfl, hq, rfl⟩)
      rw [Engine.setqWithin, bind_of_ok (car_apply r s), Store.car_of_cell? hr,
        bind_of_ok hrest] at hw
      dsimp only at hw
      rw [bind_of_ok (car_apply q s), Store.car_of_cell? hq, bind_eq_ok] at hw
      obtain ⟨u, s₁, hu, hw⟩ := hw
      obtain ⟨hs₁, hkeeps, hdenotes⟩ := h.makes hm hform hu
      obtain ⟨_, s₂, hbind, hw⟩ := bind_eq_ok.1 hw
      cases Engine.bindVariable_eq_ok hbind
      have hq₂ : (s₁.setGlobal y u).store.cell? q = some ⟨form, .nil⟩ := hkeeps.cells q _ hq
      have hend : (Engine.ofFuel (n + 1)).cdrCell q (s₁.setGlobal y u) =
          .ok .nil (s₁.setGlobal y u) :=
        Engine.cdrCell_of_list _ hq₂ (show Store.Chain _ [] .nil .nil from rfl)
      rw [bind_of_ok hend] at hw
      cases n <;> cases hw <;> exact ⟨hs₁.setGlobal hy hdenotes, hkeeps⟩

/-! ## Definitions -/

/-- Evaluating what stands for a definition leaves what the lexicon tells. -/
def Defines (k : Nat) : Prop :=
  ∀ {n : Nat} {L L' : Lexicon} {c : Code} {v w : Value} {s t : State}, L.Describes s →
    defined? k L c = some L' → c.Stands s.store v → evaluate n v none s = .ok w t →
    L'.Describes t ∧ s.store.KeepsCode t.store

/-- Definitions one after the other. -/
theorem Defines.body {j : Nat} (hk : Defines k) (h : L.Describes s)
    (hcs : cs.foldlM (defined? k) L = some L') (hv : StandsAll s.store cs v)
    (hw : ((Engine.ofFuel n).bodyWithin none j v >>= fun last => evaluate n last none) s =
      .ok w t) :
    L'.Describes t ∧ s.store.KeepsCode t.store := by
  induction cs generalizing j v s L with
  | nil =>
      cases hcs
      cases hv
      have hnil : (Engine.ofFuel n).bodyWithin none j .nil = pure .nil := by cases j <;> rfl
      rw [hnil] at hw
      obtain ⟨rfl, rfl⟩ := Engine.eq_of_evaluate (fun _ => rfl) hw
      exact ⟨h, .refl _⟩
  | cons c cs ih =>
      rw [List.foldlM_cons] at hcs
      obtain ⟨L₁, hc, hcs⟩ := Option.bind_eq_some_iff.1 hcs
      obtain ⟨r, form, rest, rfl, hr, hform, hrest⟩ := hv
      obtain ⟨vs, hchain, -⟩ := chain_of_standsAll hrest
      cases j with
      | zero => cases hw
      | succ j =>
          rw [Engine.bodyWithin, bind_assoc, bind_of_ok (car_apply r s), Store.car_of_cell? hr,
            bind_assoc, bind_of_ok ((Engine.ofFuel n).cdrCell_of_list hr hchain)] at hw
          cases cs with
          | nil =>
              cases hcs
              cases hrest
              exact hk h hc hform hw
          | cons c' cs =>
              obtain ⟨q, -, -, rfl, -⟩ := id hrest
              simp only [Value.isNil, Bool.false_eq_true, if_false] at hw
              rw [bind_assoc, bind_eq_ok] at hw
              obtain ⟨u, s₁, hu, hw⟩ := hw
              obtain ⟨hs₁, hkeeps⟩ := hk h hc hform hu
              obtain ⟨ht, hkeeps'⟩ := ih hs₁ hcs (hkeeps.standsAll hrest) hw
              exact ⟨ht, hkeeps.trans hkeeps'⟩

/-- A call of a macro whose expansion is a definition. -/
theorem Defines.expander (hk : Defines k) (h : L.Describes s) {shape : Shape} {bs : List Code}
    {b : Value} (hb : StandsAll s.store bs b)
    (hd : (L.expansion? k shape bs cs).bind (defined? k L) = some L')
    (hv : StandsAll s.store cs v)
    (hw : ((Engine.ofFuel n).enter (.expander shape b) v none >>= (Engine.ofFuel n).finish) s =
      .ok w t) :
    L'.Describes t ∧ s.store.KeepsCode t.store := by
  obtain ⟨d, hd, hL'⟩ := Option.bind_eq_some_iff.1 hd
  rw [Engine.enter, bind_assoc, bind_eq_ok] at hw
  obtain ⟨form, s₁, hform, hw⟩ := hw
  obtain ⟨hs₁, hshows⟩ := h.expandCall hb hv hd hform
  obtain ⟨ht, hkeeps⟩ := hk (h.accrues hs₁) hL' hshows.1 hw
  exact ⟨ht, hs₁.code.trans hkeeps⟩

theorem defines (k : Nat) : Defines k := by
  induction k with
  | zero =>
      intro n L L' c v w s t _ hd
      cases hd
  | succ k ih =>
      intro n L L' c v w s t h hd hv hw
      unfold defined? at hd
      split at hd
      · rename_i x cs
        split at hd
        · rename_i hx
          subst hx
          cases hd
          obtain ⟨rfl, -⟩ := Engine.quote_of_evaluate hv hw
          exact ⟨h, .refl _⟩
        split at hd
        · rename_i hx
          subst hx
          obtain ⟨n, args, hargs, hw⟩ := Engine.special_of_evaluate (k := .progn) rfl hv hw
          rw [Engine.special, bind_assoc] at hw
          exact ih.body h hd hargs hw
        split at hd
        · rename_i hx
          subst hx
          split at hd
          · rename_i y c
            split at hd
            · cases hd
            rename_i hy
            obtain ⟨⟨m, L₁⟩, hm, rfl⟩ := Option.map_eq_some_iff.1 hd
            obtain ⟨n, args, hargs, hw⟩ := Engine.special_of_evaluate (k := .setq) rfl hv hw
            rw [Engine.special, bind_assoc, bind_eq_ok] at hw
            obtain ⟨u, s₁, hu, hdone⟩ := hw
            cases hdone
            exact h.setq hy hm hargs hu
          · cases hd
        split at hd
        · cases hd
        rename_i hspecial
        split at hd
        · rename_i shape body hmeaning
          obtain ⟨r, f, hglobal, hr, b, rfl, hb⟩ := h.meanings hmeaning
          obtain ⟨n, args, hargs, hw⟩ := Engine.enter_of_evaluate hspecial hglobal hr
            (fun _ _ => Callable.noConfusion) hv hw
          exact ih.expander h hb hd hargs hw
        · cases hd
      · cases hd

end Lexicon

end SmallLisp
