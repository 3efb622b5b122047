import SmallLisp.Proofs.Template.Following

/-!
# The calls of an expansion

How the code of an expansion is evaluated: its constants, the expressions of the template, and the
calls of `list`, `cons` and `append`. The operands of a call are evaluated in order; then the call
allocates what it builds.
-/

namespace SmallLisp

open Eval Filter

/-! ## Lists and joins of data -/

namespace Datum

theorem listWithTail_append (xs ys : List Datum) (d : Datum) :
    listWithTail (xs ++ ys) d = listWithTail xs (listWithTail ys d) := by
  simp [listWithTail]

theorem lists_listWithTail {s : Store} {xs items : List Datum} {d : Datum} :
    (listWithTail xs d).Lists s items ↔ ∃ rest, items = xs ++ rest ∧ d.Lists s rest := by
  induction xs generalizing items with
  | nil => simp [listWithTail]
  | cons x xs ih =>
      simp only [listWithTail, List.foldr_cons, Lists] at ih ⊢
      constructor
      · rintro ⟨rest, rfl, hrest⟩
        obtain ⟨rest, rfl, hd⟩ := ih.1 hrest
        exact ⟨rest, rfl, hd⟩
      · rintro ⟨rest, rfl, hd⟩
        exact ⟨xs ++ rest, rfl, ih.2 ⟨rest, rfl, hd⟩⟩

theorem lists_nil {s : Store} {items : List Datum} : nil.Lists s items ↔ items = [] := by
  constructor
  · rintro ⟨xs, hxs, rfl⟩
    cases xs with
    | nil => rfl
    | cons x xs =>
        obtain ⟨r, d, hr, -⟩ := hxs
        cases hr
  · rintro rfl
    exact ⟨[], rfl, rfl⟩

theorem lists_list {s : Store} {xs items : List Datum} : (list xs).Lists s items ↔ items = xs := by
  simp [list, lists_listWithTail, lists_nil]

end Datum

namespace Site

variable {T : Site} {hidden : Nat → Prop} {p : Trail} {s : State}

/-! ## Turns of evaluation -/

theorem evaluate_literal {v : Value} (hv : v.isLiteral) (env : Env) (s : State) :
    ∀ᶠ n in atTop, evaluate n v env s = .ok v s := by
  refine eventually_of_succ (.of_forall fun n => ?_)
  cases v <;> simp [Value.isLiteral] at hv <;> rfl

/-- A quotation gives what is quoted. -/
theorem evaluate_quote {q x : Value} (n : Nat) (env : Env)
    (hq : s.store.Chain [.sym Symbol.quote, x] .nil q) :
    evaluate (n + 1) q env s = .ok x s := by
  obtain ⟨r, d, rfl, hc, r', d', rfl, hc', rfl⟩ := hq
  have hform : Special.ofSymbol? Symbol.quote = some .quote := rfl
  have hkey := Engine.isKeyword_of_ofSymbol? hform s.symbols
  simp [-bind_pure_comp, evaluate, Engine.step, Engine.pairStep, bind_apply, Eval.onFailure,
    Store.car_of_cell? hc, Engine.cdrCell, Store.cdr_of_cell? hc, Eval.isKeyword, hkey, hform,
    Engine.special, Engine.operand?, Store.cdr_of_cell? hc', Store.car_of_cell? hc', Value.isNil]

theorem evaluate_global {x : Symbol} {v : Value} (hx : s.global? x = some v) (env : Env) :
    ∀ᶠ n in atTop, evaluate n (.sym x) env s = .ok v s := by
  refine eventually_of_succ (.of_forall fun n => ?_)
  simp [evaluate, Engine.step, bind_apply, Eval.onFailure, hx]

/-- A form whose turn gives a value has that value. -/
theorem Follows.turn {c : Value} {K : Course Datum}
    (h : T.Follows hidden p s (fun n => (Engine.ofFuel n).step c T.env) K
      fun hidden s next d => ∃ w, next = .done w ∧ Shows hidden s w d) :
    T.Follows hidden p s (fun n => evaluate n c T.env) K Shows := by
  refine Follows.succ ?_
  simp only [evaluate]
  rw [← bind_pure K]
  refine Follows.bind (h.onFailure fun s f capacity hf => ?_) fun hready _ hR => ?_
  · rw [Engine.cause_traced]
    exact hf
  · obtain ⟨w, rfl, hw⟩ := hR
    exact .done (.of_forall fun _ => rfl) ⟨rfl, rfl⟩ hready hw

/-! ## Constants and expressions -/

variable (T) in
/-- Every code of the form is evaluated along the course. -/
def Runs (f : Form) (K : Course Datum) : Prop :=
  ∀ ⦃c hidden p s⦄, T.code f c → T.Ready hidden p s →
    T.Follows hidden p s (fun n => evaluate n c T.env) K Shows

theorem Ready.good {f : Form} {c : Value} (h : T.Ready hidden p s) (hc : T.code f c) :
    (Guard.outside hidden).Good s.store.cells.size c := by
  rintro r rfl
  have hr := T.inRange (T.pair hc)
  exact ⟨Nat.lt_of_lt_of_le hr h.size, fun hh => Nat.not_lt.2 (h.fresh _ hh) hr⟩

theorem runs_evaluated (f : Form) : T.Runs f (T.evaluated f) := by
  intro c hidden p s hc h
  by_cases hover : T.Overflows c s
  · obtain ⟨n, g, t, capacity, hn, hg⟩ := hover
    refine .inr (.inl ?_)
    filter_upwards [eventually_ge_atTop n] with m hm
    rw [evaluate_mono hm (by rw [hn]; trivial), hn]
    exact ⟨capacity, hg⟩
  by_cases hret : ∃ v t, T.Returns c s v t ∧ T.Stays t
  · obtain ⟨v, t, ⟨n, hn⟩, hstays⟩ := hret
    obtain ⟨⟨hsealed, hsize, hkept⟩, -⟩ := h.sealed.evaluate (h.good hc) hn
    refine .inr (.inr ⟨v, t, .value v, ⟨t, p.seen ++ [f]⟩, hidden, ?_,
      ⟨c, s, v, t, hc, h.grown, ⟨n, hn⟩, hstays, rfl, rfl⟩,
      ⟨.refl t, hsealed, h.fresh, Nat.le_trans h.size hsize, hstays⟩, ⟨fun _ hi => hi, hkept⟩, rfl⟩)
    filter_upwards [eventually_ge_atTop n] with m hm
    rw [evaluate_mono hm (by rw [hn]; trivial), hn]
  · exact .inl ⟨c, s, hc, h.grown, hover, hret⟩

theorem runs_constant {f : Form} (hf : ∀ a b, f ≠ .pair a b) :
    T.Runs f.quoted (T.constant f) := by
  intro c hidden p s hc h
  obtain ⟨x, hx, ⟨rfl, hlit⟩ | hquote⟩ := T.quoted hf hc
  · exact .done (evaluate_literal hlit T.env s) ⟨c, hx, rfl, rfl⟩ h rfl
  · refine .done ?_ ⟨x, hx, rfl, rfl⟩ h rfl
    exact eventually_of_succ (.of_forall fun n =>
      evaluate_quote n T.env (hquote.keeps h.stays.cells).chain)

theorem runs_mark (f : Form) : T.Runs f (T.mark f) := by
  intro c hidden p s hc h
  unfold mark
  by_cases hnil : f.isNil = true
  · rw [if_pos hnil]
    obtain rfl := Form.isNil_iff.1 hnil
    exact runs_constant (f := Form.nil) (fun _ _ hf => by cases hf) hc h
  · rw [if_neg hnil]
    refine (runs_evaluated f hc h).mono .inl fun {_ d _ p' _} hends hw => ?_
    cases hd : d.isPromise with
    | true => exact .inl (.inr ⟨d, p', hends, .inl (by simp [Course.require, hd])⟩)
    | false => exact .inr ⟨d, ⟨d, p', hends, (), p', ⟨hd, rfl⟩, rfl, rfl⟩, hw⟩


/-! ## Operands -/

/-- Evaluate the code of operands in order, by a function that does so for each. -/
theorem Follows.mapItems {vs : List Value} {Ks : List (Course Datum)}
    {g : Nat → Value → Eval Value} {v : Value} (k : Nat) {reversed : List Value} {ds : List Datum}
    (hg : List.Forall₂ (fun c K => ∀ {hidden p s}, T.Ready hidden p s →
      T.Follows hidden p s (fun n => g n c) K Shows) vs Ks)
    (hv : T.start.store.Owned T.own vs v) (h : T.Ready hidden p s)
    (hreversed : ShowsAll hidden s reversed ds) :
    T.Follows hidden p s (fun n => (Engine.ofFuel n).mapItems (g n) (n - k) v reversed)
      (Course.each Ks) fun hidden s ws es => ShowsAll hidden s ws (es.reverse ++ ds) := by
  induction hg generalizing hidden p s v k reversed ds with
  | nil =>
      cases hv
      refine .done (.of_forall fun n => ?_) ⟨rfl, rfl⟩ h hreversed
      cases n - k <;> rfl
  | @cons c K vs Ks hc _ ih =>
      obtain ⟨r, d, rfl, hr, hcell, hd⟩ := hv
      have hcar : s.store.car r = c := Store.car_of_cell? ((h.stays.cells r hr).trans hcell)
      refine Follows.congr (y := fun n => g n c >>= fun w => (Engine.ofFuel n).cdrCell r >>=
        fun next => (Engine.ofFuel n).mapItems (g n) (n - (k + 1)) next (w :: reversed)) ?_ ?_
      · refine Follows.bind (hc h) fun {w dw _ _ _} h₁ hon hw => ?_
        -- The cell is read again after its item is evaluated: it is still as it was.
        refine Follows.read (.of_forall fun n => (Engine.ofFuel n).cdrCell_of_list
          ((h₁.stays.cells r hr).trans hcell) (hd.keeps h₁.stays.cells).chain) ?_
        refine (ih (k + 1) hd h₁ (.cons hw (hon.unfoldsAll hreversed))).mono .inl ?_
        intro ws es _ p₂ _ hends hws
        refine .inr ⟨dw :: es, ⟨es, p₂, hends, rfl, rfl⟩, ?_⟩
        simpa using hws
      · filter_upwards [eventually_ge_atTop (k + 1)] with n hn
        obtain ⟨m, hm⟩ : ∃ m, n - k = m + 1 := ⟨n - (k + 1), by omega⟩
        obtain rfl : m = n - (k + 1) := by omega
        rw [hm, Engine.mapItems, bind_of_ok (car_apply r s), hcar]

/-- A new list of the values of operands. -/
theorem Follows.mapList {vs : List Value} {Ks : List (Course Datum)}
    {g : Nat → Value → Eval Value} {v : Value}
    (hg : List.Forall₂ (fun c K => ∀ {hidden p s}, T.Ready hidden p s →
      T.Follows hidden p s (fun n => g n c) K Shows) vs Ks)
    (hv : T.start.store.Owned T.own vs v) (h : T.Ready hidden p s) :
    T.Follows hidden p s (fun n => (Engine.ofFuel n).mapList (g n) v) (Course.each Ks)
      fun hidden s w ds => Shows hidden s w (.list ds) := by
  rw [← bind_pure (Course.each Ks)]
  refine Follows.bind (Follows.mapItems 0 hg hv h .nil) fun {ws ds hidden₁ p₁ s₁} h₁ _ hws => ?_
  have hnil : Shows hidden₁ s₁ .nil .nil := rfl
  refine (Follows.consAll h₁ hws hnil).mono False.elim ?_
  rintro _ _ _ _ _ ⟨rfl, rfl⟩ hw
  refine .inr ⟨ds, ⟨rfl, rfl⟩, ?_⟩
  simpa [Datum.list] using hw

theorem forall₂_code {fs : List Form} {cs : List Value} {Ks : List (Course Datum)}
    (hcode : List.Forall₂ T.code fs cs) (hruns : List.Forall₂ T.Runs fs Ks) :
    List.Forall₂ (fun c K => ∀ {hidden p s}, T.Ready hidden p s →
      T.Follows hidden p s (fun n => evaluate n c T.env) K Shows) cs Ks := by
  induction hcode generalizing Ks with
  | nil =>
      cases hruns
      exact .nil
  | cons hc _ ih =>
      cases hruns with
      | cons hK hKs => exact .cons (fun h => hK hc h) (ih hKs)

/-! ## Calls -/

theorem isKeyword_builder {t : SymbolTable} (ht : t.Sound) (b : Builder) :
    t.isKeyword b.symbol = false := by
  have hname : t.name b.symbol = b.name := by
    rw [NameTables.name, Array.getD_eq_getD_getElem?, ht.name?_builder b]
    rfl
  rw [SymbolTable.isKeyword_eq, hname]
  cases b <;> decide

/-- A call of a native lays out its operands as a frame, evaluates them and runs the native. -/
theorem Follows.call {b : Builder} {vs : List Value} {c : Value} {K : Course Datum}
    (hc : T.start.store.Owned T.own (.sym b.symbol :: vs) c) (h : T.Ready hidden p s)
    (hcall : ∀ {args}, T.start.store.Owned T.own vs args → T.Follows hidden p s (fun n =>
      (Engine.ofFuel n).makeFrame (.native (.lists b.native)) args >>= fun frame =>
        (if b.native.spec.isLazy then
          (Engine.ofFuel n).evalFrame b.native.spec.shape frame T.env
        else (Engine.ofFuel n).forceFrame b.native.spec.shape frame T.env) >>= fun frame =>
          Native.call (Engine.ofFuel n) (.lists b.native) frame T.env) K Shows) :
    T.Follows hidden p s (fun n => evaluate n c T.env) K Shows := by
  obtain ⟨r, args, rfl, hr, hcell, hargs⟩ := hc
  have hcell' := (h.stays.cells r hr).trans hcell
  have hchain := (hargs.keeps h.stays.cells).chain
  obtain ⟨f, hglobal, hnative⟩ := h.stays.natives b
  have hkey := isKeyword_builder h.sealed.symbols b
  refine Follows.turn ?_
  have hdone := Follows.bind (g := fun d => pure d) (f := fun _ w => pure (Step.done w))
    (Q := fun hidden s next d => ∃ w, next = .done w ∧ Shows hidden s w d) (hcall hargs)
    fun {w _ _ _ _} h₁ _ hw => .done (.of_forall fun _ => rfl) ⟨rfl, rfl⟩ h₁ ⟨w, rfl, hw⟩
  rw [bind_pure] at hdone
  refine hdone.congr ?_
  filter_upwards [evaluate_global hglobal T.env] with n hn
  have hhead : (Engine.ofFuel n).eval (.sym b.symbol) T.env s = .ok (.callable f) s := hn
  have hforce : (Engine.ofFuel n).force (.callable f) s = .ok (.callable f) s := rfl
  have hkeyword : Eval.isKeyword b.symbol s = .ok false s := by
    rw [Eval.isKeyword, gets_apply, hkey]
  have hcallable : gets (fun s => s.store.callable f) s = .ok (.native (.lists b.native)) s := by
    rw [gets_apply, hnative]
  rw [Engine.step, Engine.pairStep, bind_of_ok (car_apply r s), Store.car_of_cell? hcell',
    bind_of_ok ((Engine.ofFuel n).cdrCell_of_list hcell' hchain)]
  dsimp only
  rw [bind_of_ok hkeyword, if_neg Bool.false_ne_true, Engine.callStep, bind_of_ok hhead,
    bind_of_ok hforce]
  dsimp only
  rw [bind_of_ok hcallable]
  simp only [bind_assoc]
  cases b <;> rfl

theorem atBoundary_storeFull (n : Native) (args : List Value) (s : State) (f : Failure)
    (capacity : Nat) (hf : f.cause = .storeFull capacity) :
    (n.atBoundary args s f).cause = .storeFull capacity := by
  rw [Native.atBoundary, hf]
  exact hf

/-- The frame of a native that takes any number of operands is their list. -/
theorem makeFrame_rest (E : Engine) {b : Builder} (hb : b.native.spec.shape = .rest 0)
    {vs : List Value} {args : Value} (h : s.store.Chain vs .nil args) :
    E.makeFrame (.native (.lists b.native)) args s = .ok [args] s := by
  have hargs : args.isNil = true ∨ args.isPair = true := by
    rcases h.nil_or_pair with rfl | ⟨r, rfl⟩
    · exact .inl rfl
    · exact .inr rfl
  simp [Engine.makeFrame, Callable.shape, Native.shape, Native.spec, hb, Shape.rest,
    Engine.takeItems, bind_apply, hargs]

theorem runs_list {args : List Form} {Ks : List (Course Datum)}
    (hargs : List.Forall₂ T.Runs args Ks) :
    T.Runs (.call "list" args) (Course.each Ks >>= fun ds => pure (.list ds)) := by
  intro c hidden p s hc h
  obtain ⟨vs, howned, hcode⟩ := T.call (b := .list) hc
  refine Follows.call howned h fun {v} hv => ?_
  refine Follows.read (.of_forall fun n =>
    makeFrame_rest (b := .list) (Engine.ofFuel n) rfl (hv.keeps h.stays.cells).chain) ?_
  have hlist := (Follows.mapList (forall₂_code hcode hargs) hv h).mono
    (L := Course.each Ks >>= fun ds => pure (.list ds)) (Q := Shows) .inl
    fun {_ ds _ p₁ _} hends hw => .inr ⟨.list ds, ⟨ds, p₁, hends, rfl, rfl⟩, hw⟩
  refine hlist.congr (.of_forall fun n => ?_)
  show ((Engine.ofFuel n).mapList (fun form => evaluate n form T.env) v >>= _ >>= _) s = _
  rw [bind_apply, bind_apply]
  cases (Engine.ofFuel n).mapList (fun form => evaluate n form T.env) v s <;> rfl

theorem runs_cons {f g : Form} {K L : Course Datum} (hf : T.Runs f K) (hg : T.Runs g L) :
    T.Runs (.call "cons" [f, g]) (do
      let a ← K
      let d ← L
      pure (.pair a d)) := by
  intro c hidden p s hc h
  obtain ⟨vs, howned, hcode⟩ := T.call (b := .cons) hc
  cases hcode with
  | cons hcf hcode =>
      cases hcode with
      | cons hcg hcode =>
          cases hcode
          rename_i v w
          refine Follows.call howned h fun {args} hargs => ?_
          obtain ⟨r, _, rfl, hcr, hd⟩ := (hargs.keeps h.stays.cells).chain
          obtain ⟨r', _, rfl, hcr', rfl⟩ := hd
          refine Follows.read (x := fun n => (Engine.ofFuel n).makeFrame
            (.native (.lists Builder.cons.native)) (.pair r)) (a := [v, w])
            (.of_forall fun n => ?_) ?_
          · simp [Engine.makeFrame, Callable.shape, Native.shape, Native.spec, ListNative.spec,
              Builder.native, Shape.fixed, Engine.takeItems, bind_apply, Store.car_of_cell? hcr,
              Store.cdr_of_cell? hcr, Store.car_of_cell? hcr', Store.cdr_of_cell? hcr',
              Engine.force, Value.isNil]
          · refine Follows.congr (y := fun n => evaluate n v T.env >>= fun a =>
              evaluate n w T.env >>= fun d =>
                Native.call (Engine.ofFuel n) (.lists .cons) [a, d] T.env) ?_
              (.of_forall fun n => ?_)
            · refine Follows.bind (hf hcf h) fun {_ da _ _ _} h₁ _ ha => ?_
              refine Follows.bind (hg hcg h₁) fun {_ dd _ _ _} h₂ hon hd => ?_
              exact (Follows.cons h₂ (hon.unfolds ha) hd).onFailure (atBoundary_storeFull _ _)
            · show ((evaluate n v T.env >>= fun a => evaluate n w T.env >>= fun d =>
                pure [a, d]) >>= _) s = _
              simp only [bind_assoc]
              rfl

/-! ## Concatenation -/

/-- The lists but the last are copied in front of the last. -/
theorem Follows.appendAll {w : Value} {ws : List Value} {d : Datum} {ds : List Datum}
    {reversed : List Value} {items : List Datum} (h : T.Ready hidden p s)
    (hw : ShowsAll hidden s (w :: ws) (d :: ds)) (hreversed : ShowsAll hidden s reversed items) :
    T.Follows hidden p s (fun n => ListNative.appendAll (Engine.ofFuel n) (w :: ws) reversed)
      (Course.joined (d :: ds) >>= fun tail => pure (.listWithTail items.reverse tail)) Shows := by
  induction ws generalizing w d ds reversed items with
  | nil =>
      cases hw with
      | cons hw hws =>
          cases hws
          refine (Follows.consAll h hreversed hw).mono False.elim ?_
          rintro _ _ _ _ _ ⟨rfl, rfl⟩ hshow
          exact .inr ⟨_, ⟨d, _, ⟨rfl, rfl⟩, rfl, rfl⟩, hshow⟩
  | cons w' ws ih =>
      cases hw with
      | cons hw hws =>
          cases hws with
          | cons hw' hws =>
              rename_i d' ds
              by_cases hlist : ∃ front, d.Lists p.state.store front
              · obtain ⟨front, hfront⟩ := hlist
                obtain ⟨xs, hxs, hshow⟩ := hfront.chain h.grown.cells.keeps hw
                have hrest := ih (.cons hw' hws)
                  (List.rel_append (List.rel_reverse hshow) hreversed)
                refine Follows.read (x := fun n => (Engine.ofFuel n).mapItems pure n w reversed)
                  (a := xs.reverse ++ reversed) ?_ (hrest.mono ?_ ?_)
                · filter_upwards [eventually_ge_atTop xs.length] with n hn
                  exact Engine.mapItems_pure_of_chain hxs hn
                · rintro (hwrong | ⟨_, _, _, hwrong⟩)
                  · refine .inl fun ⟨e, front', tail, _, htail, _⟩ => hwrong ⟨tail, htail⟩
                  · exact hwrong.elim
                · rintro _ _ _ _ _ ⟨tail, _, ⟨htail, rfl⟩, rfl, rfl⟩ hshow
                  refine .inr ⟨_, ⟨_, _, ⟨⟨front, tail, hfront, htail, rfl⟩, rfl⟩, rfl, rfl⟩, ?_⟩
                  simpa [Datum.listWithTail_append] using hshow
              · refine .inl (.inl fun ⟨e, front, tail, hfront, _⟩ => hlist ⟨front, hfront⟩)

theorem Shows.force (E : Engine) {w : Value} {d : Datum} (hw : Shows hidden s w d)
    (hd : d.isPromise = false) : E.force w = pure w := by
  cases d with
  | value v =>
      cases hw
      cases w with
      | promise r => cases hd
      | _ => rfl
  | pair a d =>
      obtain ⟨r, _, _, rfl, -⟩ := hw
      rfl

/-- Forcing a value that is no promise does nothing. -/
theorem Follows.force {c : Value} {K : Course Datum}
    (hK : ∀ {p d q}, K.ends p d q → d.isPromise = false)
    (h : T.Follows hidden p s (fun n => evaluate n c T.env) K Shows) :
    T.Follows hidden p s (fun n => evaluate n c T.env >>= (Engine.ofFuel n).force) K Shows := by
  have hsettled : T.Follows hidden p s (fun n => evaluate n c T.env) K
      fun hidden s w d => Shows hidden s w d ∧ d.isPromise = false :=
    h.mono id fun hends hw => .inr ⟨_, hends, hw, hK hends⟩
  have hbind := Follows.bind (g := fun d => pure d) (f := fun n w => (Engine.ofFuel n).force w)
    (Q := Shows) hsettled fun h₁ _ hw => .done
      (.of_forall fun n => by rw [hw.1.force _ hw.2]; rfl) ⟨rfl, rfl⟩ h₁ hw.1
  rwa [bind_pure] at hbind

theorem forall₂_force {cs : List Value} {Ks : List (Course Datum)}
    (h : List.Forall₂ (fun c K => ∀ {hidden p s}, T.Ready hidden p s →
      T.Follows hidden p s (fun n => evaluate n c T.env) K Shows) cs Ks)
    (hKs : ∀ K ∈ Ks, ∀ {p d q}, K.ends p d q → d.isPromise = false) :
    List.Forall₂ (fun c K => ∀ {hidden p s}, T.Ready hidden p s → T.Follows hidden p s
      (fun n => evaluate n c T.env >>= (Engine.ofFuel n).force) K Shows) cs Ks := by
  induction h with
  | nil => exact .nil
  | @cons c K cs Ks hc _ ih =>
      refine .cons (fun h => (hc h).force (hKs K (List.mem_cons_self ..))) (ih fun L hL => ?_)
      exact hKs L (List.mem_cons_of_mem _ hL)

theorem runs_append {args : List Form} {Ks : List (Course Datum)}
    (hargs : List.Forall₂ T.Runs args Ks)
    (hKs : ∀ K ∈ Ks, ∀ {p d q}, K.ends p d q → d.isPromise = false) :
    T.Runs (.call "append" args) (Course.each Ks >>= Course.joined) := by
  intro c hidden p s hc h
  obtain ⟨vs, howned, hcode⟩ := T.call (b := .append) hc
  refine Follows.call howned h fun {v} hv => ?_
  refine Follows.read (.of_forall fun n =>
    makeFrame_rest (b := .append) (Engine.ofFuel n) rfl (hv.keeps h.stays.cells).chain) ?_
  have hforced := forall₂_force (forall₂_code hcode hargs) hKs
  refine Follows.congr (y := fun n => (Engine.ofFuel n).mapList (fun form =>
    evaluate n form T.env >>= (Engine.ofFuel n).force) v >>= fun w =>
      ((Engine.ofFuel n).items w >>= fun lists =>
        ListNative.appendAll (Engine.ofFuel n) lists []).onFailure
          (Native.atBoundary (.lists .append) [w])) ?_ (.of_forall fun n => ?_)
  · refine Follows.bind (Follows.mapList hforced hv h) fun {w ds _ p₁ _} h₁ _ hw => ?_
    refine Follows.onFailure ?_ (atBoundary_storeFull _ _)
    obtain ⟨xs, hxs, hshow⟩ :=
      (Datum.lists_list.2 rfl : (Datum.list ds).Lists p₁.state.store ds).chain
        h₁.grown.cells.keeps hw
    refine Follows.read (a := xs) ?_ ?_
    · filter_upwards [eventually_ge_atTop xs.length] with n hn
      exact Engine.items_of_chain hxs hn
    · cases hshow with
      | nil => exact .done (.of_forall fun _ => rfl) ⟨rfl, rfl⟩ h₁ rfl
      | cons hx hrest =>
          have happend := Follows.appendAll h₁ (.cons hx hrest) .nil
          simpa [Datum.listWithTail] using happend
  · show ((Engine.ofFuel n).mapList (fun form => evaluate n form T.env >>=
      (Engine.ofFuel n).force) v >>= _ >>= _) s = _
    rw [bind_apply, bind_apply, bind_apply]
    cases (Engine.ofFuel n).mapList (fun form => evaluate n form T.env >>=
      (Engine.ofFuel n).force) v s <;> rfl

end Site

end SmallLisp
