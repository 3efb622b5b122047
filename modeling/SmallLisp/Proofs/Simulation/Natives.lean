import SmallLisp.Evaluator
import SmallLisp.Proofs.Simulation.Script

/-!
# Simulated natives

Every native is simulated by itself on good arguments, as far as what it overwrites is free to be.
-/

namespace SmallLisp

/-- What a native is meant to overwrite. -/
def Native.overwrites? : Native → Option Place
  | .lists .rplaca => some .head
  | .lists .rplacd => some .tail
  | .vectors .aset => some .item
  | _ => none

namespace Simulation

open Eval

variable {G : Guard} (L : Simulation G) {E E' : Engine} {w : G.World}

/-! ## Arguments -/

theorem numberArg {v : Value} (hv : G.Good w v) :
    L.Gives w (fun _ _ => True) (Native.numberArg v) (Native.numberArg v) := by
  unfold Native.numberArg
  refine L.bind (P := fun _ _ => True) (L.gets (fun s fs cells => ?_) fun _ _ => trivial)
    fun w₁ h₁ n _ => ?_
  · cases v <;> rfl
  · cases n with
    | none => exact L.refuseOn (G.good_mono h₁ hv) _
    | some n => exact L.give trivial

theorem indexArg {v : Value} (hv : G.Good w v) :
    L.Gives w (fun _ _ => True) (Native.indexArg v) (Native.indexArg v) := by
  unfold Native.indexArg
  cases v with
  | int n =>
      dsimp only
      split
      · exact L.give trivial
      · exact L.refuseOn hv _
  | _ => exact L.refuseOn hv _

theorem textArg {v : Value} (hv : G.Good w v) :
    L.Gives w (fun _ _ => True) (Native.textArg v) (Native.textArg v) := by
  unfold Native.textArg
  cases v with
  | text r => exact L.gets (fun _ _ _ => rfl) fun _ _ => trivial
  | _ => exact L.refuseOn hv _

theorem pairArg {v : Value} (hv : G.Good w v) :
    L.Gives w (fun w r => G.Good w (.pair r)) (Native.pairArg v) (Native.pairArg v) := by
  unfold Native.pairArg
  cases v with
  | pair r => exact L.give hv
  | _ => exact L.refuseOn hv _

theorem sequenceArg (hE : L.Engines E E') {v : Value} (hv : G.Good w v) :
    L.Gives w G.GoodAll (Native.sequenceArg E v) (Native.sequenceArg E' v) := by
  unfold Native.sequenceArg
  cases v with
  | nil => exact L.give (Guard.goodAll_nil w)
  | pair r => exact L.items hE hv
  | vector r => exact L.gets (fun _ _ _ => rfl) fun _ hs => hs.vector hv
  | text r =>
      refine L.gets (fun _ _ _ => rfl) fun s _ v hv => ?_
      obtain ⟨c, -, rfl⟩ := List.mem_map.1 hv
      exact G.int w _
  | _ => exact L.refuseOn hv _

theorem mismatch (spec : NativeSpec) :
    L.Gives w G.Good (Native.mismatch spec) (Native.mismatch spec) :=
  L.fail trivial

/-! ## Lists -/

theorem appendAll (hE : L.Engines E E') {lists reversed : List Value} (hl : G.GoodAll w lists)
    (hr : G.GoodAll w reversed) :
    L.Gives w G.Good (ListNative.appendAll E lists reversed)
      (ListNative.appendAll E' lists reversed) := by
  induction lists generalizing reversed w with
  | nil => exact L.give (G.nil w)
  | cons v vs ih =>
      obtain ⟨hv, hvs⟩ := Guard.goodAll_cons.1 hl
      cases vs with
      | nil => exact L.consAll hr hv
      | cons u us =>
          refine L.bind (L.reversedItems hE hv hr) fun w₁ h₁ reversed hr => ?_
          exact ih (hvs.mono h₁) hr

theorem applyEach (hE : L.Engines E E') {f : Value} {env : Env} {vs reversed : List Value}
    (hf : G.Good w f) (henv : G.Inside w env) (hvs : G.GoodAll w vs)
    (hr : G.GoodAll w reversed) :
    L.Gives w G.GoodAll (ListNative.applyEach E f env vs reversed)
      (ListNative.applyEach E' f env vs reversed) := by
  induction vs generalizing reversed w with
  | nil => exact L.give hr
  | cons v vs ih =>
      obtain ⟨hv, hvs⟩ := Guard.goodAll_cons.1 hvs
      rw [ListNative.applyEach, ListNative.applyEach]
      have hone : G.GoodAll w [v] := Guard.goodAll_cons.2 ⟨hv, Guard.goodAll_nil w⟩
      refine L.bind (L.list hone) fun w₁ h₁ args hargs => ?_
      have hf₁ := G.good_mono h₁ hf
      refine L.bind (hE.apply hf₁ hargs (G.inside_mono h₁ henv)) fun w₂ h₂ result hresult => ?_
      have h₂' := h₁.trans h₂
      refine ih (G.good_mono h₂' hf) (G.inside_mono h₂' henv) (hvs.mono h₂') ?_
      exact Guard.goodAll_cons.2 ⟨hresult, hr.mono h₂'⟩

theorem lengthOf (hE : L.Engines E E') {v : Value} (hv : G.Good w v) :
    L.Gives w (fun _ _ => True) (ListNative.lengthOf E v) (ListNative.lengthOf E' v) := by
  have hitems : L.Gives w (fun _ _ => True)
      (E.items v >>= fun items => Pure.pure items.length)
      (E'.items v >>= fun items => Pure.pure items.length) :=
    L.bind (L.items hE hv) fun _ _ _ _ => L.give trivial
  unfold ListNative.lengthOf
  cases v with
  | text r => exact L.gets (fun _ _ _ => rfl) fun _ _ => trivial
  | vector r => exact L.gets (fun _ _ _ => rfl) fun _ _ => trivial
  | _ => exact hitems

theorem lists (hE : L.Engines E E') (n : ListNative) {args : List Value} {env : Env}
    (ha : G.GoodAll w args) (henv : G.Inside w env)
    (hfree : ∀ place, (Native.lists n).overwrites? = some place → L.Frees place) :
    L.Gives w G.Good (n.run E args env) (n.run E' args env) := by
  rcases args with _ | ⟨a, _ | ⟨b, _ | ⟨c, args⟩⟩⟩ <;>
    (try simp only [Guard.goodAll_cons] at ha) <;> cases n <;> try exact L.mismatch _
  case cons.nil.car =>
      cases a with
      | nil => exact L.give ha.1
      | _ => exact L.bind (L.pairArg ha.1) fun _ _ _ hr => L.car hr
  case cons.nil.cdr =>
      cases a with
      | nil => exact L.give ha.1
      | _ => exact L.bind (L.pairArg ha.1) fun _ _ _ hr => L.cdr hr
  case cons.nil.list => exact L.give ha.1
  case cons.nil.append =>
      exact L.bind (L.items hE ha.1) fun w₁ _ _ hl => L.appendAll hE hl (Guard.goodAll_nil w₁)
  case cons.nil.length =>
      exact L.bind (L.lengthOf hE ha.1) fun w₁ _ _ _ => L.give (G.int w₁ _)
  case cons.cons.nil.cons => exact L.cons ha.1 ha.2.1
  case cons.cons.nil.rplaca =>
      refine L.bind (L.force hE ha.1) fun w₁ h₁ target ht => ?_
      refine L.bind (L.pairArg ht) fun w₂ h₂ r hr => ?_
      have hv := G.good_mono (h₁.trans h₂) ha.2.1
      refine L.bind (L.setCar hr hv (hfree .head rfl)) fun w₃ h₃ _ _ => ?_
      exact L.give (G.good_mono h₃ hv)
  case cons.cons.nil.rplacd =>
      refine L.bind (L.force hE ha.1) fun w₁ h₁ target ht => ?_
      refine L.bind (L.pairArg ht) fun w₂ h₂ r hr => ?_
      have hv := G.good_mono (h₁.trans h₂) ha.2.1
      refine L.bind (L.setCdr hr hv (hfree .tail rfl)) fun w₃ h₃ _ _ => ?_
      exact L.give (G.good_mono h₃ hv)
  case cons.cons.nil.mapcar =>
      refine L.bind (L.sequenceArg hE ha.2.1) fun w₁ h₁ items hitems => ?_
      have hf := G.good_mono h₁ ha.1
      have henv := G.inside_mono h₁ henv
      refine L.bind (L.applyEach hE hf henv hitems (Guard.goodAll_nil w₁)) fun w₂ h₂ out hout => ?_
      exact L.consAll hout (G.nil w₂)
  case cons.cons.nil.mapc =>
      refine L.bind (L.sequenceArg hE ha.2.1) fun w₁ h₁ items hitems => ?_
      have hf := G.good_mono h₁ ha.1
      have henv := G.inside_mono h₁ henv
      refine L.bind (L.applyEach hE hf henv hitems (Guard.goodAll_nil w₁)) fun w₂ h₂ out hout => ?_
      exact L.give (G.good_mono (h₁.trans h₂) ha.2.1)
  all_goals cases a <;> exact L.mismatch _

/-! ## Tests and vectors -/

theorem comparedText {v : Value} (hv : G.Good w v) :
    L.Gives w (fun _ _ => True) (TestNative.comparedText v) (TestNative.comparedText v) := by
  unfold TestNative.comparedText
  cases v with
  | nil => exact L.give trivial
  | _ =>
      refine L.bind (P := fun _ _ => True) (L.gets (fun _ _ _ => rfl) fun _ _ => trivial)
        fun w₁ h₁ text _ => ?_
      cases text with
      | some text => exact L.give trivial
      | none => exact L.refuseOn (G.good_mono h₁ hv) _

theorem tests (n : TestNative) {args : List Value} (ha : G.GoodAll w args) :
    L.Gives w G.Good (n.run args) (n.run args) := by
  rcases args with _ | ⟨a, _ | ⟨b, _ | ⟨c, args⟩⟩⟩ <;>
    (try simp only [Guard.goodAll_cons] at ha) <;> cases n <;> try exact L.mismatch _
  case cons.nil.keywordp => exact L.gets (fun _ _ _ => rfl) fun _ _ => G.ofBool w _
  case cons.cons.nil.eq => exact L.give (G.ofBool w _)
  case cons.cons.nil.eql =>
      refine L.gets (fun s fs cells => ?_) fun _ _ => G.ofBool w _
      cases a <;> cases b <;> rfl
  case cons.cons.nil.stringEq =>
      refine L.bind (L.comparedText ha.1) fun w₁ h₁ x _ => ?_
      refine L.bind (L.comparedText (G.good_mono h₁ ha.2.1)) fun w₂ _ y _ => ?_
      exact L.give (G.ofBool w₂ _)
  all_goals exact L.give (G.ofBool w _)

theorem vectors (hE : L.Engines E E') (n : VectorNative) {args : List Value}
    (ha : G.GoodAll w args)
    (hfree : ∀ place, (Native.vectors n).overwrites? = some place → L.Frees place) :
    L.Gives w G.Good (n.run E args) (n.run E' args) := by
  rcases args with _ | ⟨a, _ | ⟨b, _ | ⟨c, _ | ⟨d, args⟩⟩⟩⟩ <;>
    (try simp only [Guard.goodAll_cons] at ha) <;> cases n <;> try exact L.mismatch _
  case cons.nil.vector =>
      exact L.bind (L.items hE ha.1) fun _ _ items hitems => L.newVector (by simpa using hitems)
  case cons.cons.nil.makeVector =>
      refine L.bind (L.force hE ha.1) fun w₁ h₁ count hcount => ?_
      refine L.bind (L.indexArg hcount) fun w₂ h₂ i _ => L.newVector fun v hv => ?_
      rw [Array.toList_replicate] at hv
      rw [List.eq_of_mem_replicate hv]
      exact G.good_mono (h₁.trans h₂) ha.2.1
  case cons.cons.nil.aref =>
      refine L.bind (L.indexArg ha.2.1) fun w₁ h₁ i _ => ?_
      have ha := G.good_mono h₁ ha.1
      cases a with
      | vector r =>
          refine L.bind (P := fun w v? => ∀ v, v? = some v → G.Good w v)
            (L.gets (fun _ _ _ => rfl) fun s hs v hv => ?_) fun w₂ h₂ v? hv? => ?_
          · exact hs.vector ha v (Array.mem_toList_iff.2 (Array.mem_of_getElem? hv))
          · cases v? with
            | some v => exact L.give (hv? v rfl)
            | none => exact L.refuse _
      | text r =>
          refine L.bind (P := fun w v? => ∀ v, v? = some v → G.Good w v)
            (L.gets (fun _ _ _ => rfl) fun s hs v hv => ?_) fun w₂ h₂ v? hv? => ?_
          · obtain ⟨c, -, rfl⟩ := Option.map_eq_some_iff.1 hv
            exact G.int w₁ _
          · cases v? with
            | some v => exact L.give (hv? v rfl)
            | none => exact L.refuse _
      | _ => exact L.refuseOn ha _
  case cons.cons.cons.nil.aset =>
      refine L.bind (L.force hE ha.1) fun w₁ h₁ target ht => ?_
      refine L.bind (L.force hE (G.good_mono h₁ ha.2.1)) fun w₂ h₂ index hindex => ?_
      refine L.bind (L.indexArg hindex) fun w₃ h₃ i _ => ?_
      cases target with
      | vector r =>
          refine L.bind (P := fun _ _ => True) (L.gets (fun _ _ _ => rfl) fun _ _ => trivial)
            fun w₄ h₄ size _ => ?_
          have ht := G.good_mono ((h₂.trans h₃).trans h₄) ht
          have hc := G.good_mono (h₁.trans ((h₂.trans h₃).trans h₄)) ha.2.2.1
          split
          · refine L.bind (L.setItem i ht hc (hfree .item rfl)) fun _ h _ _ => ?_
            exact L.give (G.good_mono h hc)
          · exact L.refuse _
      | _ => exact L.refuseOn (G.good_mono (h₂.trans h₃) ht) _

/-! ## Numbers -/

theorem checked (result : Except NumFault Num) :
    L.Gives w (fun _ _ => True) (NumberNative.checked result) (NumberNative.checked result) := by
  cases result with
  | ok n => exact L.give trivial
  | error fault => exact L.refuse _

theorem fold (op : Num → Num → Except NumFault Num) (acc : Num) {vs : List Value}
    (hvs : G.GoodAll w vs) :
    L.Gives w (fun _ _ => True) (NumberNative.fold op acc vs) (NumberNative.fold op acc vs) := by
  induction vs generalizing acc w with
  | nil => exact L.give trivial
  | cons v vs ih =>
      obtain ⟨hv, hvs⟩ := Guard.goodAll_cons.1 hvs
      refine L.bind (L.numberArg hv) fun w₁ h₁ n _ => ?_
      exact L.bind (L.checked (op acc n)) fun w₂ h₂ acc _ => ih acc (hvs.mono (h₁.trans h₂))

theorem foldList (hE : L.Engines E E') (op : Num → Num → Except NumFault Num) (first : Num)
    {vs : Value} (hvs : G.Good w vs) :
    L.Gives w G.Good (NumberNative.foldList E op first vs)
      (NumberNative.foldList E' op first vs) := by
  refine L.bind (L.items hE hvs) fun w₁ _ items hitems => ?_
  exact L.bind (L.fold op first hitems) fun w₂ _ n _ => L.newNumber n

theorem order {a b : Value} (ha : G.Good w a) (hb : G.Good w b) :
    L.Gives w (fun _ _ => True) (NumberNative.order a b) (NumberNative.order a b) := by
  refine L.bind (L.numberArg ha) fun w₁ h₁ m _ => ?_
  exact L.bind (L.numberArg (G.good_mono h₁ hb)) fun w₂ _ n _ => L.give trivial

theorem numbers (hE : L.Engines E E') (n : NumberNative) {args : List Value}
    (ha : G.GoodAll w args) : L.Gives w G.Good (n.run E args) (n.run E' args) := by
  rcases args with _ | ⟨a, _ | ⟨b, _ | ⟨c, _ | ⟨d, args⟩⟩⟩⟩ <;>
    (try simp only [Guard.goodAll_cons] at ha) <;> cases n <;> try exact L.mismatch _
  case cons.nil.add => exact L.foldList hE _ _ ha.1
  case cons.nil.mul => exact L.foldList hE _ _ ha.1
  case cons.nil.float =>
      exact L.bind (L.numberArg ha.1) fun w₁ _ x _ => L.give (G.double w₁ _)
  case cons.nil.truncate =>
      refine L.bind (L.numberArg ha.1) fun w₁ _ x _ => ?_
      exact L.bind (L.checked x.truncate) fun w₂ _ r _ => L.newNumber r
  case cons.cons.nil.sub =>
      refine L.bind (L.numberArg ha.1) fun w₁ h₁ first _ => ?_
      split
      · exact L.newNumber _
      · exact L.foldList hE _ first (G.good_mono h₁ ha.2.1)
  case cons.cons.nil.rem =>
      refine L.bind (L.numberArg ha.1) fun w₁ h₁ x _ => ?_
      refine L.bind (L.numberArg (G.good_mono h₁ ha.2.1)) fun w₂ _ y _ => ?_
      exact L.bind (L.checked (x.rem y)) fun w₃ _ r _ => L.newNumber r
  case cons.cons.nil.equal =>
      exact L.bind (L.order ha.1 ha.2.1) fun w₁ _ o _ => L.give (G.ofBool w₁ _)
  case cons.cons.nil.less =>
      exact L.bind (L.order ha.1 ha.2.1) fun w₁ _ o _ => L.give (G.ofBool w₁ _)
  case cons.cons.cons.nil.div =>
      refine L.bind (L.numberArg ha.1) fun w₁ h₁ first _ => ?_
      refine L.bind (L.numberArg (G.good_mono h₁ ha.2.1)) fun w₂ h₂ divisor _ => ?_
      refine L.bind (L.checked (first.div divisor)) fun w₃ h₃ quotient _ => ?_
      exact L.foldList hE _ quotient (G.good_mono ((h₁.trans h₂).trans h₃) ha.2.2.1)

/-! ## Sequences -/

theorem charsOf {vs : List Value} (hvs : G.GoodAll w vs) (reversed : List Char) :
    L.Gives w (fun _ _ => True) (SequenceNative.charsOf vs reversed)
      (SequenceNative.charsOf vs reversed) := by
  induction vs generalizing reversed with
  | nil => exact L.give trivial
  | cons v vs ih =>
      obtain ⟨hv, hvs⟩ := Guard.goodAll_cons.1 hvs
      unfold SequenceNative.charsOf
      cases SequenceNative.charOf? v with
      | some c => exact ih hvs _
      | none => exact L.refuseOn hv _

theorem sequenceToString (hE : L.Engines E E') {v : Value} (hv : G.Good w v) :
    L.Gives w G.Good
      (do
        let items ← Native.sequenceArg E v
        let chars ← SequenceNative.charsOf items []
        Eval.alloc (·.newText (String.ofList chars)))
      (do
        let items ← Native.sequenceArg E' v
        let chars ← SequenceNative.charsOf items []
        Eval.alloc (·.newText (String.ofList chars))) := by
  refine L.bind (L.sequenceArg hE hv) fun w₁ _ items hitems => ?_
  exact L.bind (L.charsOf hitems []) fun w₂ _ chars _ => L.newText _

theorem sequences (hE : L.Engines E E') (n : SequenceNative) {args : List Value}
    (ha : G.GoodAll w args) : L.Gives w G.Good (n.run E args) (n.run E' args) := by
  rcases args with _ | ⟨a, _ | ⟨b, _ | ⟨c, args⟩⟩⟩ <;>
    (try simp only [Guard.goodAll_cons] at ha) <;> cases n <;> try exact L.mismatch _
  case cons.nil.stringToChar =>
      refine L.bind (L.textArg ha.1) fun w₁ _ text _ => ?_
      cases text.toList with
      | nil => exact L.give (G.int w₁ _)
      | cons c cs => exact L.give (G.int w₁ _)
  case cons.nil.numberToString =>
      exact L.bind (L.numberArg ha.1) fun _ _ n _ => L.newText _
  case cons.nil.stringToNumber =>
      exact L.bind (L.textArg ha.1) fun _ _ text _ => L.newNumber _
  case cons.nil.sequenceToString =>
      cases a with
      | text r => exact L.give ha.1
      | _ => exact L.sequenceToString hE ha.1
  case cons.nil.sequenceToVector =>
      refine L.bind (L.sequenceArg hE ha.1) fun _ _ items hitems => ?_
      exact L.newVector (by simpa using hitems)
  case cons.nil.sequenceToList =>
      cases a with
      | nil => exact L.give ha.1
      | pair r => exact L.give ha.1
      | _ => exact L.bind (L.sequenceArg hE ha.1) fun _ _ items hitems => L.list hitems
  case cons.cons.nil.stringAppend =>
      refine L.bind (L.textArg ha.1) fun _ h₁ x _ => ?_
      exact L.bind (L.textArg (G.good_mono h₁ ha.2.1)) fun _ _ y _ => L.newText _
  case cons.cons.nil.vectorAppend =>
      by_cases hv : ∃ r q, a = .vector r ∧ b = .vector q
      · obtain ⟨r, q, rfl, rfl⟩ := hv
        refine L.bind (P := fun w (items : Array Value) => G.GoodAll w items.toList)
          (L.gets (fun _ _ _ => rfl) fun s hs => ?_) fun _ _ items hitems => L.newVector hitems
        intro v hv
        rw [Array.toList_append, List.mem_append] at hv
        exact hv.elim (hs.vector ha.1 v) (hs.vector ha.2.1 v)
      · cases a <;> try exact L.refuse _
        cases b <;> try exact L.refuse _
        exact absurd ⟨_, _, rfl, rfl⟩ hv
  case cons.cons.nil.listAppend =>
      refine L.bind (L.reversedItems hE ha.1 (Guard.goodAll_nil w)) fun w₁ h₁ reversed hr => ?_
      exact L.consAll hr (G.good_mono h₁ ha.2.1)
  all_goals cases a <;> first | exact L.mismatch _ | (cases b <;> exact L.mismatch _)

/-! ## Streams, control and the system -/

theorem streams (hE : L.Engines E E') (n : StreamNative) {args : List Value}
    (ha : G.GoodAll w args) : L.Gives w G.Good (n.run E args) (n.run E' args) := by
  rcases args with _ | ⟨a, _ | ⟨b, args⟩⟩ <;>
    (try simp only [Guard.goodAll_cons] at ha) <;> cases n <;> try exact L.mismatch _
  case nil.terpri => exact L.bind (L.write _) fun w₁ _ _ _ => L.give (G.truth w₁)
  case nil.read => exact L.readInput
  case cons.nil.prin1 =>
      refine L.bind (L.textOf ha.1) fun w₁ h₁ text _ => ?_
      exact L.bind (L.write text) fun w₂ h₂ _ _ => L.give (G.good_mono (h₁.trans h₂) ha.1)
  case cons.nil.princ =>
      refine L.bind (L.rawTextOf ha.1) fun w₁ h₁ text _ => ?_
      exact L.bind (L.write text) fun w₂ h₂ _ _ => L.give (G.good_mono (h₁.trans h₂) ha.1)
  case cons.nil.load =>
      refine L.bind (L.textArg ha.1) fun w₁ _ path _ => ?_
      refine L.bind (L.openFile path) fun w₂ _ source _ => ?_
      cases source with
      | ok source => exact L.run hE source
      | error message => exact L.refuse _

theorem throwTo {tag v : Value} (ht : G.Good w tag) (hv : G.Good w v) :
    L.Gives w G.Good (ControlNative.throwTo tag v) (ControlNative.throwTo tag v) := by
  refine L.bind (L.textOf ht) fun w₁ h₁ tagText _ => ?_
  refine L.bind (L.textOf (G.good_mono h₁ hv)) fun w₂ h₂ text _ => L.fail ?_
  exact ⟨G.good_mono (h₁.trans h₂) ht, G.good_mono (h₁.trans h₂) hv⟩

theorem control (hE : L.Engines E E') (n : ControlNative) {args : List Value} {env : Env}
    (ha : G.GoodAll w args) (henv : G.Inside w env) :
    L.Gives w G.Good (n.run E args env) (n.run E' args env) := by
  rcases args with _ | ⟨a, _ | ⟨b, _ | ⟨c, args⟩⟩⟩ <;>
    (try simp only [Guard.goodAll_cons] at ha) <;> cases n <;> try exact L.mismatch _
  case cons.nil.eval => exact hE.eval ha.1 (G.top w)
  case cons.nil.force => exact L.give ha.1
  case cons.cons.nil.apply => exact hE.apply ha.1 ha.2.1 henv
  case cons.cons.nil.throwing =>
      exact L.bind (L.force hE ha.1) fun w₁ h₁ tag htag =>
        L.throwTo htag (G.good_mono h₁ ha.2.1)

theorem vectorsOf {arrays : List (Array Value)} {reversed : List Value}
    (ha : ∀ a ∈ arrays, G.GoodAll w a.toList) (hr : G.GoodAll w reversed) :
    L.Gives w G.GoodAll (SystemNative.vectorsOf arrays reversed)
      (SystemNative.vectorsOf arrays reversed) := by
  induction arrays generalizing reversed w with
  | nil => exact L.give (Guard.goodAll_reverse.2 hr)
  | cons a as ih =>
      refine L.bind (L.newVector (ha a (by simp))) fun w₁ h₁ v hv => ?_
      refine ih (fun a hm => (ha a (by simp [hm])).mono h₁) ?_
      exact Guard.goodAll_cons.2 ⟨hv, hr.mono h₁⟩

/-- Only bound symbols are listed as such. -/
theorem global?_of_mem_bindings {s : State} {b : Symbol × Value} (h : b ∈ s.bindings) :
    s.global? b.1 = some b.2 := by
  unfold State.bindings at h
  rw [List.mem_mergeSort] at h
  obtain ⟨i, -, hi⟩ := List.mem_filterMap.1 h
  obtain ⟨v, hv, rfl⟩ := Option.map_eq_some_iff.1 hi
  exact hv

theorem dumpFrames {env : Env} (henv : G.Inside w env) :
    L.Gives w G.Good (SystemNative.dumpFrames env) (SystemNative.dumpFrames env) := by
  unfold SystemNative.dumpFrames
  refine L.bind (P := G.GoodAll) (L.gets (fun _ _ _ => rfl) fun s hs v hv => ?_)
    fun w₁ h₁ names hnames => ?_
  · obtain ⟨b, hb, rfl⟩ := List.mem_map.1 hv
    exact (hs.global (global?_of_mem_bindings hb)).1
  · refine L.bind (L.newVector (by simpa using hnames)) fun w₂ h₂ names hnames => ?_
    have henv := G.inside_mono (h₁.trans h₂) henv
    refine L.bind (P := fun w fs => ∀ a ∈ fs, G.GoodAll w a.toList)
      (L.gets (fun _ _ _ => rfl) fun s hs => hs.frames henv) fun w₃ h₃ frames hframes => ?_
    refine L.bind (L.vectorsOf hframes (Guard.goodAll_nil w₃)) fun w₄ h₄ frames hframes => ?_
    refine L.bind (L.list hframes) fun w₅ h₅ frames hframes => L.list ?_
    have hnames := G.good_mono ((h₃.trans h₄).trans h₅) hnames
    exact Guard.goodAll_cons.2 ⟨hnames, Guard.goodAll_cons.2 ⟨hframes, Guard.goodAll_nil w₅⟩⟩

theorem system (hE : L.Engines E E') (n : SystemNative) {args : List Value} {env : Env}
    (ha : G.GoodAll w args) (henv : G.Inside w env) :
    L.Gives w G.Good (n.run E args env) (n.run E' args env) := by
  rcases args with _ | ⟨a, _ | ⟨b, args⟩⟩ <;>
    (try simp only [Guard.goodAll_cons] at ha) <;> cases n <;> try exact L.mismatch _
  case nil.dump => exact L.dumpFrames henv
  case cons.nil.help =>
      refine L.bind (P := fun _ _ => True) (L.gets (fun _ _ _ => ?_) fun _ _ => trivial)
        fun w₁ h₁ doc _ => ?_
      · cases a <;> rfl
      · cases doc with
        | some doc =>
            exact L.bind (L.write _) fun w₂ h₂ _ _ => L.give (G.good_mono (h₁.trans h₂) ha.1)
        | none => exact L.give (G.good_mono h₁ ha.1)
  case cons.nil.exit =>
      refine L.bind (L.items hE ha.1) fun w₁ h₁ items hitems => ?_
      cases items with
      | nil => exact L.exit 0
      | cons v vs =>
          cases v with
          | int n => exact L.exit _
          | _ => exact L.refuseOn (Guard.goodAll_cons.1 hitems).1 _

end Simulation

end SmallLisp
