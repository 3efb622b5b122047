import SmallLisp.Proofs.Compiler.Passes

/-!
# Compiling, scan by scan

A lambda is compiled by scanning its body with its own parameters and then compiling the lambdas in
it, which by then hold text that the lambdas around have scanned already. So what a compilation
gives is the source with all these scans applied one after the other, which `Code.scanned` says
without the store.
-/

namespace SmallLisp

open Eval Code Scope

theorem State.Extends.dummySymbol {s t : State} (h : s.Extends t) :
    t.store.dummySymbol = s.store.dummySymbol := by
  funext r
  rw [h.rest]
  rfl

theorem Fit.scan {s : State} {v : Value} (h : Fit s v) (ps : Parameters) : Fit s (ps.scan v) := by
  rcases ps.scan_cases v with hv | ⟨a, hv⟩
  · rw [hv]
    exact h
  · rw [hv]
    exact ⟨⟨rfl, rfl⟩, nofun⟩

namespace Code

mutual

/-- What is made of the words decides what is made of the code. -/
theorem scanned_congr (name : Ref .dummy → Symbol) {p : Value → Prop} {g g' : Value → Value}
    (h : ∀ v, p v → g v = g' v) :
    ∀ c : Code, c.Each p → c.scanned name g = c.scanned name g'
  | .word v, hc => by simp only [scanned, h v hc]
  | .quoted _, _ => rfl
  | .list items, ⟨_, hc⟩ => by simp only [scanned, scannedAll_congr name h items hc]
  | .lambda formals body, ⟨hf, hb⟩ => by
      have hformals : formals.map g = formals.map g' :=
        List.map_congr_left fun v hv => h v (hf v hv)
      have hwords : ∀ v, p v → ((Parameters.ofFormals name (formals.map g')).scan ∘ g) v =
          ((Parameters.ofFormals name (formals.map g')).scan ∘ g') v :=
        fun v hv => congrArg _ (h v hv)
      rw [scanned, scanned, hformals, scannedAll_congr name hwords body hb]
  | .expander items, hc => by simp only [scanned, scannedAll_congr name h items hc]
  | .template _ _, hc => hc.elim

theorem scannedAll_congr (name : Ref .dummy → Symbol) {p : Value → Prop} {g g' : Value → Value}
    (h : ∀ v, p v → g v = g' v) :
    ∀ cs : List Code, EachAll p cs → scannedAll name g cs = scannedAll name g' cs
  | [], _ => rfl
  | c :: cs, ⟨hc, hcs⟩ => by
      simp only [scannedAll, scanned_congr name h c hc, scannedAll_congr name h cs hcs]

end

end Code

namespace Engine

/-- What compiling nested lambdas does to text of which `g` says how far its words are resolved. -/
def ScansInner (E : Engine) (s₀ : State) (n : Nat) : Prop :=
  ∀ {c : Code} {g : Value → Value} {v w : Value} {s t : State},
    c.Each (fun v => Fit s₀ (g v)) → g .nil = .nil → s₀.Extends s →
    (c.mapWords g).Stands s.store v → E.compileInner n v s = .ok w t →
    s.Extends t ∧ (c.scanned s₀.store.dummySymbol g).Stands t.store w

/-- What compiling a parameter list and a body does to such text: the body is scanned with the
parameters, and the callable is made last. -/
def ScansWithin (E : Engine) (s₀ : State) (n : Nat) : Prop :=
  ∀ {formals : List Value} {body : List Code} {g : Value → Value} {kind : CallableKind}
    {r : Ref .cell} {f b w : Value} {s t : State} {ps : Parameters},
    EachAll (fun v => Fit s₀ (g v)) body → g .nil = .nil → s₀.Extends s →
    s.store.cell? r = some ⟨f, b⟩ → s.store.Chain (formals.map g) .nil f →
    StandsAll s.store (mapAll g body) b →
    ps = Parameters.ofFormals s₀.store.dummySymbol (formals.map g) →
    E.compileWithin n kind (.pair r) s = .ok w t →
    ∃ b' s₁, s.Extends s₁ ∧
      StandsAll s₁.store (scannedAll s₀.store.dummySymbol (ps.scan ∘ g) body) b' ∧
      alloc (·.newCallable (kind.make ps.shape b')) s₁ = .ok w t

theorem scansWithin_zero (E : Engine) (s₀ : State) : E.ScansWithin s₀ 0 := by
  intro formals body g kind r f b w s t ps _ _ _ _ _ _ _ h
  simp [compileWithin] at h

theorem scansWithin_succ {E : Engine} {s₀ : State} {n : Nat} (ih : E.ScansInner s₀ n) :
    E.ScansWithin s₀ (n + 1) := by
  intro formals body g kind r f b w s t ps hbody hnil hs hcell hf hb hps h
  rw [compileWithin, bind_of_ok (car_apply r s), Store.car_of_cell? hcell, bind_eq_ok] at h
  obtain ⟨qs, s₁, hqs, h⟩ := h
  obtain ⟨rfl, rfl, hkeys⟩ := E.parameters_eq_ok hf hqs
  rw [hs.dummySymbol, ← hps] at hkeys h
  obtain ⟨vs, hchain, -⟩ := chain_of_standsAll hb
  rw [bind_of_ok (E.cdrCell_of_list hcell hchain), bind_eq_ok] at h
  obtain ⟨v₁, s₂, hresolve, h⟩ := h
  rw [bind_of_ok (gets_apply _ s₂), bind_eq_ok] at h
  obtain ⟨v₂, s₃, hexpand, h⟩ := h
  rw [bind_eq_ok] at h
  obtain ⟨v₃, s₄, hinner, h⟩ := h
  -- The body as one piece of text: resolved so far, then scanned with one parameter list more.
  have hfit : Fit s₀ (g .nil) := by
    rw [hnil]
    exact ⟨⟨rfl, rfl⟩, nofun⟩
  have hsource : (ofItems body).Each fun v => Fit s₀ (g v) := each_ofItems hfit hbody
  have hscanned : (ofItems body).Each fun v => Fit s₀ ((ps.scan ∘ g) v) :=
    hsource.imp fun v hv => hv.scan ps
  have hpartly : ((ofItems body).mapWords g).Stands s₁.store b := by
    rw [mapWords_ofItems hnil, stands_ofItems]
    exact hb
  obtain ⟨hx₁, hstands⟩ := E.resolve_stands hkeys
    (Each.mapWords (fun v (hv : Fit s₀ (g v)) => hv.1) _ hsource) hpartly hresolve
  rw [mapWords_mapWords (fun _ _ => rfl : ∀ v, Fit s₀ (g v) → ps.scan (g v) = (ps.scan ∘ g) v) _
    hsource] at hstands
  obtain ⟨hx₂, hstands⟩ := E.expandMacros_stands
    (Each.mapWords (q := Fit s₀) (f := ps.scan ∘ g) (fun v hv => hv) _ hscanned)
    (hs.trans hx₁) hstands hexpand
  have hnil' : (ps.scan ∘ g) .nil = .nil := by
    rw [Function.comp, hnil]
    rfl
  obtain ⟨hx₃, hstands⟩ := ih hscanned hnil' ((hs.trans hx₁).trans hx₂) hstands hinner
  rw [scanned_ofItems _ hnil', stands_ofItems] at hstands
  exact ⟨v₃, s₄, (hx₁.trans hx₂).trans hx₃, hstands, h⟩

theorem compileInner_word (E : Engine) {n : Nat} {v : Value} (hv : v.isPair = false) :
    E.compileInner n v = pure v := by
  cases v with
  | pair r => cases hv
  | _ => cases n <;> simp [compileInner]

theorem scansInner_zero (E : Engine) (s₀ : State) : E.ScansInner s₀ 0 := by
  intro c g v w s t hc _ _ hv h
  have hfit := Each.mapWords (q := Fit s₀) (fun v hv => hv) c hc
  cases c with
  | word u =>
      cases hv
      rw [E.compileInner_word (show Fit s₀ (g u) from hc).1.atom] at h
      cases h
      exact ⟨.refl _, rfl⟩
  | _ =>
      obtain ⟨u, hu, -⟩ | ⟨r, rfl⟩ := pair_of_each hfit hv
      · cases hu
      · simp [compileInner] at h

theorem scansInner_succ {E : Engine} {s₀ : State} {n : Nat} (ih : E.ScansInner s₀ n)
    (ihw : E.ScansWithin s₀ n) : E.ScansInner s₀ (n + 1) := by
  intro c g v w s t hc hnil hs hv h
  cases c with
  | word u =>
      cases hv
      rw [E.compileInner_word (show Fit s₀ (g u) from hc).1.atom] at h
      cases h
      exact ⟨.refl _, rfl⟩
  | quoted q =>
      obtain ⟨r, d, rfl, hd⟩ := Quotation.Stands.exists_cell hv
      rw [compileInner, bind_of_ok (car_apply r s), Store.car_of_cell? hd] at h
      cases h
      exact ⟨.refl _, hv⟩
  | list cs =>
      have hfit : (mapWords g (.list cs)).Each (Fit s₀) :=
        Each.mapWords (f := g) (fun v hv => hv) _ hc
      obtain ⟨u, hu, -⟩ | ⟨r, rfl⟩ := pair_of_each hfit hv
      · cases hu
      obtain ⟨hleft, -⟩ := head_of_list (fun _ hv => hv.1) hfit hv
      simp only [isLeftAlone, Bool.or_eq_false_iff] at hleft
      obtain ⟨⟨hq, hl⟩, he⟩ := hleft
      rw [compileInner, bind_of_ok (car_apply r s), hq, hl, he] at h
      have hitem : ∀ c ∈ cs, ∀ {v w : Value} {s t : State}, s₀.Extends s →
          (c.mapWords g).Stands s.store v → E.compileInner n v s = .ok w t →
          s.Extends t ∧ (c.scanned s₀.store.dummySymbol g).Stands t.store w := by
        intro c hm v w s t hs hv h
        exact ih (eachAll_iff.1 hc.2 c hm) hnil hs hv h
      have hall : StandsAll s.store (cs.map (mapWords g)) (.pair r) := by
        rw [← mapAll_eq_map]
        exact hv
      have hmap := E.mapList_stands _ _ hitem hs hall h
      rw [← scannedAll_eq_map] at hmap
      exact hmap
  | lambda formals body =>
      obtain ⟨r, next, f, b, rfl, hr, hn, hf, hb⟩ := hv
      rw [compileInner, bind_of_ok (car_apply r s), Store.car_of_cell? hr] at h
      have hcdr : E.cdrCell r s = .ok (.pair next) s := by
        obtain ⟨vs, hchain, -⟩ := chain_of_standsAll hb
        have hlist : s.store.Chain (f :: vs) .nil (.pair next) := ⟨next, b, rfl, hn, hchain⟩
        exact E.cdrCell_of_list hr hlist
      simp only [show (Value.sym Symbol.lambda).isSym Symbol.quote = false from rfl,
        show (Value.sym Symbol.lambda).isSym Symbol.lambda = true from rfl,
        Bool.false_eq_true, if_false, if_true] at h
      rw [bind_of_ok hcdr] at h
      obtain ⟨b', s₁, hx, hb', halloc⟩ := ihw hc.2 hnil hs hn hf hb rfl h
      cases halloc
      have hnew := State.Extends.newTemplate s₁
        (Parameters.ofFormals s₀.store.dummySymbol (formals.map g)).shape b'
      refine ⟨hx.trans hnew, _, b', rfl, ?_, Code.StandsAll.extends hnew _ hb'⟩
      simp [CallableKind.make]
  | expander cs =>
      obtain ⟨r, d, rfl, hr, -⟩ := hv
      rw [compileInner, bind_of_ok (car_apply r s), Store.car_of_cell? hr] at h
      simp [Value.isSym, malformedOn, failOn_apply, Symbol.quote, Symbol.lambda,
        Symbol.expander] at h
  | template shape body => exact hc.elim

theorem scansWithin (E : Engine) (s₀ : State) (n : Nat) :
    E.ScansInner s₀ n ∧ E.ScansWithin s₀ n := by
  induction n with
  | zero => exact ⟨scansInner_zero E s₀, scansWithin_zero E s₀⟩
  | succ n ih => exact ⟨scansInner_succ ih.1 ih.2, scansWithin_succ ih.1⟩

/-- Compiling applies the scans of all lambdas to the source. The callable is made last. -/
theorem compile_eq_ok (E : Engine) {kind : CallableKind} {formals : List Value}
    {body : List Code} {r : Ref .cell} {f b w : Value} {s t : State}
    (hr : s.store.cell? r = some ⟨f, b⟩) (hf : s.store.Chain formals .nil f)
    (hb : StandsAll s.store body b) (hbody : EachAll (Fit s) body)
    (h : E.compile kind (.pair r) s = .ok w t) :
    ∃ b' s₁, s.Extends s₁ ∧
      StandsAll s₁.store (scannedAll s.store.dummySymbol
        (Parameters.ofFormals s.store.dummySymbol formals).scan body) b' ∧
      alloc (·.newCallable
        (kind.make (Parameters.ofFormals s.store.dummySymbol formals).shape b')) s₁ = .ok w t := by
  have hformals₀ : s.store.Chain (formals.map id) .nil f := by
    rw [List.map_id]
    exact hf
  have hbody₀ : StandsAll s.store (mapAll id body) b := by
    rw [mapAll_eq_self (f := id) fun _ => rfl]
    exact hb
  have hwithin :=
    (E.scansWithin s E.fuel).2 (g := id) hbody rfl (.refl s) hr hformals₀ hbody₀ rfl h
  rw [List.map_id] at hwithin
  exact hwithin

/-- A compiled lambda has the shape of its parameter list, and its body is the source with the scans
of all lambdas applied. Nothing but new cells and templates is added. -/
theorem compile_scanned (E : Engine) {kind : CallableKind} {formals : List Value}
    {body : List Code} {r : Ref .cell} {f b w : Value} {s t : State}
    (hr : s.store.cell? r = some ⟨f, b⟩) (hf : s.store.Chain formals .nil f)
    (hb : StandsAll s.store body b) (hbody : EachAll (Fit s) body)
    (h : E.compile kind (.pair r) s = .ok w t) :
    ∃ i b', w = .callable i ∧
      t.store.callables[i.index]? =
        some (kind.make (Parameters.ofFormals s.store.dummySymbol formals).shape b') ∧
      StandsAll t.store (scannedAll s.store.dummySymbol
        (Parameters.ofFormals s.store.dummySymbol formals).scan body) b' ∧
      s.store.KeepsCells t.store ∧
      t = { s with store :=
        { s.store with cells := t.store.cells, callables := t.store.callables } } := by
  obtain ⟨b', s₁, hx, hb', halloc⟩ := E.compile_eq_ok hr hf hb hbody h
  cases halloc
  refine ⟨_, b', rfl, by simp, ?_, hx.cells, ?_⟩
  · let f := kind.make (Parameters.ofFormals s.store.dummySymbol formals).shape b'
    have hkeeps : s₁.store.KeepsCells (s₁.store.newCallable f).2 := fun _ _ h => h
    exact Code.StandsAll.keeps hkeeps (s₁.store.keepsCallables_newCallable f) _ hb'
  · rw [hx.rest]

end Engine

end SmallLisp
