import SmallLisp.Evaluator
import SmallLisp.Proofs.Twins.Walks

/-!
# Natives on things that belong together

A native on arguments that are alike goes the same way in both machines, as long as it runs no data
as a program.
-/

namespace SmallLisp.Setting

open Eval Filter Scene

variable {T : Setting} {n : Nat} {p : T.Scene} {v w : Value} {vs ws : List Value} {env env' : Env}

/-! ## Arguments -/

theorem number?_withRoom (s : State) (k : Nat) (v : Value) :
    (s.withRoom k).store.number? v = s.store.number? v := by
  cases v <;> rfl

theorem number?_like (hv : p.Like v w) : p.right.store.number? w = p.left.store.number? v := by
  cases hv with
  | big hr => exact congrArg (fun i => some (Num.big i)) (p.shows.bignums hr)
  | _ => rfl

theorem meets_numberArg (hv : p.Like v w) :
    p.Meets Same (Native.numberArg v) fun _ => Native.numberArg w := by
  unfold Native.numberArg
  refine .bind (R := Same) (meets_gets (fun k => number?_withRoom p.left k v)
    (fun k => number?_withRoom p.right k w) (number?_like hv)) fun q x y hq hxy => ?_
  cases hxy
  cases x with
  | none => exact meets_refuseOn (like_mono hq hv) fun h => h.before _
  | some i => exact .pure rfl

theorem meets_indexArg (hv : p.Like v w) :
    p.Meets Same (Native.indexArg v) fun _ => Native.indexArg w := by
  have hvw := hv
  unfold Native.indexArg
  cases hv with
  | int i =>
      dsimp only
      split
      · exact .pure rfl
      · exact meets_refuseOn hvw fun h => h.before _
  | _ => exact meets_refuseOn hvw fun h => h.before _

theorem meets_textArg (hv : p.Like v w) :
    p.Meets Same (Native.textArg v) fun _ => Native.textArg w := by
  have hvw := hv
  unfold Native.textArg
  cases hv with
  | text hr => exact meets_gets (fun _ => rfl) (fun _ => rfl) (p.shows.texts hr)
  | _ => exact meets_refuseOn hvw fun h => h.before _

theorem meets_pairArg (hv : p.Like v w) :
    p.Meets (fun q r r' => q.Like (.pair r) (.pair r')) (Native.pairArg v)
      fun _ => Native.pairArg w := by
  have hvw := hv
  unfold Native.pairArg
  cases hv with
  | pair => exact .pure hvw
  | _ => exact meets_refuseOn hvw fun h => h.before _

/-- The codes of the characters of a text are alike. -/
theorem likeAll_chars (p : T.Scene) (cs : List Char) :
    p.LikeAll (cs.map Native.ofChar) (cs.map Native.ofChar) := by
  induction cs with
  | nil => exact .nil
  | cons c cs ih => exact .cons (.int _) ih

theorem Runs.sequenceArg (h : T.Runs n) (hv : p.Like v w) :
    p.Meets LikeAll (Native.sequenceArg (Engine.ofFuel n) v)
      fun m => Native.sequenceArg (Engine.ofFuel m) w := by
  have hvw := hv
  unfold Native.sequenceArg
  cases hv with
  | nil => exact .pure .nil
  | pair => exact h.items hvw
  | vector hr => exact meets_gets (fun _ => rfl) (fun _ => rfl) (p.shows.vectors hr)
  | @text r r' hr =>
      refine meets_gets (a := (p.left.store.text r).toList.map Native.ofChar)
        (b := (p.right.store.text r').toList.map Native.ofChar) (fun _ => rfl) (fun _ => rfl) ?_
      rw [p.shows.texts hr]
      exact likeAll_chars p _
  | _ => exact meets_refuseOn hvw fun h => h.before _

theorem meets_mismatch (spec : NativeSpec) :
    p.Meets Like (Native.mismatch spec) fun _ => Native.mismatch spec :=
  meets_fail (.arity _)

/-! ## Lists -/

theorem Runs.appendAll (h : T.Runs n) {done done' : List Value} (hvs : p.LikeAll vs ws)
    (hdone : p.LikeAll done done') :
    p.Meets Like (ListNative.appendAll (Engine.ofFuel n) vs done)
      fun m => ListNative.appendAll (Engine.ofFuel m) ws done' := by
  induction vs generalizing p ws done done' with
  | nil =>
      cases hvs
      exact .pure .nil
  | cons v vs ih =>
      cases hvs with
      | cons hv hvs =>
          cases vs with
          | nil =>
              cases hvs
              exact meets_consAll hdone hv
          | cons u us =>
              cases hvs with
              | cons hu hus =>
                  refine (h.reversedItems hv hdone).bind fun q _ _ hq hout => ?_
                  exact ih (.cons (like_mono hq hu) (likeAll_mono hq hus)) hout

theorem Runs.applyEach (h : T.Runs n) {f g : Value} {done done' : List Value} (hf : p.Like f g)
    (henv : p.Around env env') (hvs : p.LikeAll vs ws) (hdone : p.LikeAll done done') :
    p.Meets LikeAll (ListNative.applyEach (Engine.ofFuel n) f env vs done)
      fun m => ListNative.applyEach (Engine.ofFuel m) g env' ws done' := by
  induction vs generalizing p ws done done' with
  | nil =>
      cases hvs
      exact .pure hdone
  | cons v vs ih =>
      cases hvs with
      | cons hv hvs =>
          simp only [ListNative.applyEach]
          refine (meets_list (.cons hv .nil)).bind fun q₁ args args' h₁ hargs => ?_
          refine (h.apply (like_mono h₁ hf) hargs (around_mono h₁ henv)).bind
            fun q₂ a b h₂ hab => ?_
          have h₂' := h₁.trans h₂
          exact ih (like_mono h₂' hf) (around_mono h₂' henv) (likeAll_mono h₂' hvs)
            (.cons hab (likeAll_mono h₂' hdone))

theorem Runs.lengthOf (h : T.Runs n) (hv : p.Like v w) :
    p.Meets Same (ListNative.lengthOf (Engine.ofFuel n) v)
      fun m => ListNative.lengthOf (Engine.ofFuel m) w := by
  have hitems : p.Meets Same ((Engine.ofFuel n).items v >>= fun items => pure items.length)
      fun m => (Engine.ofFuel m).items w >>= fun items => pure items.length :=
    (h.items hv).bind fun _ _ _ _ hout => .pure hout.length_eq.symm
  unfold ListNative.lengthOf
  cases hv with
  | text hr =>
      exact meets_gets (fun _ => rfl) (fun _ => rfl) (congrArg String.length (p.shows.texts hr))
  | vector hr =>
      exact meets_gets (fun _ => rfl) (fun _ => rfl)
        (by simpa using (p.shows.vectors hr).length_eq.symm)
  | _ => exact hitems

theorem Runs.lists (h : T.Runs n) (native : ListNative) (ha : p.LikeAll vs ws)
    (henv : p.Around env env') :
    p.Meets Like (native.run (Engine.ofFuel n) vs env)
      fun m => native.run (Engine.ofFuel m) ws env' := by
  rcases ha with _ | ⟨ha, _ | ⟨hb, _ | ⟨hc, hs⟩⟩⟩ <;> cases native <;> try exact meets_mismatch _
  case cons.nil.car =>
      have hvw := ha
      cases ha with
      | nil => exact .pure .nil
      | _ => exact (meets_pairArg hvw).bind fun _ _ _ _ hr => meets_car hr
  case cons.nil.cdr =>
      have hvw := ha
      cases ha with
      | nil => exact .pure .nil
      | _ => exact (meets_pairArg hvw).bind fun _ _ _ _ hr => meets_cdr hr
  case cons.nil.list => exact .pure ha
  case cons.nil.append =>
      exact (h.items ha).bind fun _ _ _ _ hout => h.appendAll hout .nil
  case cons.nil.length =>
      refine (h.lengthOf ha).bind fun _ _ _ _ hlength => ?_
      cases hlength
      exact .pure (.int _)
  case cons.cons.nil.cons => exact meets_cons ha hb
  case cons.cons.nil.rplaca =>
      refine (h.force ha).bind fun q₁ target target' h₁ htarget => ?_
      refine (meets_pairArg htarget).bind fun q₂ r r' h₂ hr => ?_
      have hb := like_mono (h₁.trans h₂) hb
      exact (meets_setCar hr hb).bind fun q₃ _ _ h₃ _ => .pure (like_mono h₃ hb)
  case cons.cons.nil.rplacd =>
      refine (h.force ha).bind fun q₁ target target' h₁ htarget => ?_
      refine (meets_pairArg htarget).bind fun q₂ r r' h₂ hr => ?_
      have hb := like_mono (h₁.trans h₂) hb
      exact (meets_setCdr hr hb).bind fun q₃ _ _ h₃ _ => .pure (like_mono h₃ hb)
  case cons.cons.nil.mapcar =>
      refine (h.sequenceArg hb).bind fun q₁ items items' h₁ hitems => ?_
      refine (h.applyEach (like_mono h₁ ha) (around_mono h₁ henv) hitems .nil).bind
        fun q₂ _ _ h₂ hout => ?_
      exact meets_consAll hout .nil
  case cons.cons.nil.mapc =>
      refine (h.sequenceArg hb).bind fun q₁ items items' h₁ hitems => ?_
      refine (h.applyEach (like_mono h₁ ha) (around_mono h₁ henv) hitems .nil).bind
        fun q₂ _ _ h₂ _ => ?_
      exact .pure (like_mono (h₁.trans h₂) hb)
  all_goals cases ha <;> exact meets_mismatch _

/-! ## Tests and vectors -/

theorem textOf?_like (hv : p.Like v w) :
    p.right.store.textOf? p.right.symbols w = p.left.store.textOf? p.left.symbols v := by
  cases hv with
  | text hr => exact congrArg some (p.shows.texts hr)
  | sym x =>
      rw [Store.textOf?, Store.textOf?, p.corresponds.left.symbols, p.corresponds.right.symbols]
  | _ => rfl

theorem meets_comparedText (hv : p.Like v w) :
    p.Meets Same (TestNative.comparedText v) fun _ => TestNative.comparedText w := by
  have hvw := hv
  unfold TestNative.comparedText
  cases hv with
  | nil => exact .pure rfl
  | _ =>
      refine .bind (R := Same) (meets_gets (fun _ => rfl) (fun _ => rfl) (textOf?_like hvw))
        fun q x y hq hxy => ?_
      cases hxy
      cases x with
      | none => exact meets_refuseOn (like_mono hq hvw) fun h => h.before _
      | some text => exact .pure rfl

theorem eqlIn_withRoom (s : State) (k : Nat) (v w : Value) :
    TestNative.eqlIn (s.withRoom k).store v w = TestNative.eqlIn s.store v w := by
  simp only [TestNative.eqlIn, number?_withRoom]

theorem eqlIn_like {v' w' : Value} (hv : p.Like v w) (hv' : p.Like v' w') :
    TestNative.eqlIn p.right.store w w' = TestNative.eqlIn p.left.store v v' := by
  rw [TestNative.eqlIn, TestNative.eqlIn, hv.same_eq p.corresponds.oneToOne hv',
    number?_like hv, number?_like hv']

theorem meets_tests (native : TestNative) (ha : p.LikeAll vs ws) :
    p.Meets Like (native.run vs) fun _ => native.run ws := by
  rcases ha with _ | ⟨ha, _ | ⟨hb, _ | ⟨hc, hs⟩⟩⟩ <;> cases native <;> try exact meets_mismatch _
  case cons.nil.keywordp =>
      refine meets_gets (a := .ofBool (TestNative.isKeywordIn p.left.symbols _))
        (b := .ofBool (TestNative.isKeywordIn p.right.symbols _)) (fun _ => rfl) (fun _ => rfl) ?_
      rw [p.corresponds.left.symbols, p.corresponds.right.symbols]
      cases ha <;> exact .ofBool _ _
  case cons.cons.nil.eq =>
      refine .pure ?_
      rw [ha.same_eq p.corresponds.oneToOne hb]
      exact .ofBool _ _
  case cons.cons.nil.eql =>
      refine meets_gets (fun k => congrArg Value.ofBool (eqlIn_withRoom p.left k _ _))
        (fun k => congrArg Value.ofBool (eqlIn_withRoom p.right k _ _)) ?_
      rw [eqlIn_like ha hb]
      exact .ofBool _ _
  case cons.cons.nil.stringEq =>
      refine (meets_comparedText ha).bind fun q₁ x y h₁ hxy => ?_
      refine (meets_comparedText (like_mono h₁ hb)).bind fun q₂ x' y' h₂ hxy' => ?_
      cases hxy
      cases hxy'
      exact .pure (.ofBool _ _)
  all_goals
    refine .pure ?_
    cases ha <;> exact .ofBool _ _

theorem likeAll_replicate (hv : p.Like v w) (i : Nat) :
    p.LikeAll (List.replicate i v) (List.replicate i w) := by
  induction i with
  | zero => exact .nil
  | succ i ih => exact .cons hv ih

theorem itemAt?_like (hv : p.Like v w) (i : Nat) :
    p.links.LikeOption (VectorNative.itemAt? p.left.store v i)
      (VectorNative.itemAt? p.right.store w i) := by
  cases hv with
  | vector hr => exact likeAll_getElem? (p.shows.vectors hr) i
  | @text r r' hr =>
      rw [VectorNative.itemAt?, VectorNative.itemAt?, p.shows.texts hr]
      cases (p.left.store.text r).toList[i]? with
      | none => exact .none
      | some c => exact .some (.int _)
  | _ => exact .none

theorem itemAt?_withRoom (s : State) (k : Nat) (v : Value) (i : Nat) :
    VectorNative.itemAt? (s.withRoom k).store v i = VectorNative.itemAt? s.store v i := by
  cases v <;> rfl

/-- What is found at an index, or else there is nothing in either machine. -/
theorem meets_itemAt (hv : p.Like v w) (i : Nat) :
    p.Meets Like
      (gets (fun s => VectorNative.itemAt? s.store v i) >>= fun
        | some item => pure item
        | none => refuse (.outOfRange i))
      fun _ => gets (fun s => VectorNative.itemAt? s.store w i) >>= fun
        | some item => pure item
        | none => refuse (.outOfRange i) := by
  refine .bind (R := fun q => q.links.LikeOption) (meets_gets
    (fun k => itemAt?_withRoom p.left k v i) (fun k => itemAt?_withRoom p.right k w i)
    (itemAt?_like hv i)) fun q _ _ _ hitem => ?_
  cases hitem with
  | none => exact meets_refuse _
  | some hitem => exact .pure hitem

theorem Runs.vectors (h : T.Runs n) (native : VectorNative) (ha : p.LikeAll vs ws) :
    p.Meets Like (native.run (Engine.ofFuel n) vs) fun m => native.run (Engine.ofFuel m) ws := by
  rcases ha with _ | ⟨ha, _ | ⟨hb, _ | ⟨hc, _ | ⟨hd, hs⟩⟩⟩⟩ <;> cases native <;>
    try exact meets_mismatch _
  case cons.nil.vector =>
      refine (h.items ha).bind fun q items items' _ hitems => meets_newVector ?_
      simpa using hitems
  case cons.cons.nil.makeVector =>
      refine (h.force ha).bind fun q₁ count count' h₁ hcount => ?_
      refine (meets_indexArg hcount).bind fun q₂ i j h₂ hij => ?_
      cases hij
      refine meets_newVector ?_
      rw [Array.toList_replicate, Array.toList_replicate]
      exact likeAll_replicate (like_mono (h₁.trans h₂) hb) i
  case cons.cons.nil.aref =>
      refine (meets_indexArg hb).bind fun q i j hq hij => ?_
      cases hij
      have ha := like_mono hq ha
      have hvw := ha
      cases ha with
      | vector => exact meets_itemAt hvw i
      | text => exact meets_itemAt hvw i
      | _ => exact meets_refuseOn hvw fun h => h.before _
  case cons.cons.cons.nil.aset =>
      refine (h.force ha).bind fun q₁ target target' h₁ htarget => ?_
      refine (h.force (like_mono h₁ hb)).bind fun q₂ index index' h₂ hindex => ?_
      refine (meets_indexArg hindex).bind fun q₃ i j h₃ hij => ?_
      cases hij
      have htarget := like_mono (h₂.trans h₃) htarget
      have hitem := like_mono ((h₁.trans h₂).trans h₃) hc
      have hvw := htarget
      cases htarget with
      | @vector r r' hr =>
          have hsize : (q₃.right.store.vector r').size = (q₃.left.store.vector r).size := by
            simpa using (q₃.shows.vectors hr).length_eq.symm
          refine .bind (R := Same) (meets_gets (fun _ => rfl) (fun _ => rfl) hsize)
            fun q₄ size size' h₄ hsizes => ?_
          cases hsizes
          split
          · refine (meets_setItem i (like_mono h₄ hvw) (like_mono h₄ hitem)).bind
              fun q₅ _ _ h₅ _ => ?_
            exact .pure (like_mono (h₄.trans h₅) hitem)
          · exact meets_refuse _
      | _ => exact meets_refuseOn hvw fun h => h.before _

/-! ## Numbers -/

theorem meets_checked (result : Except NumFault Num) :
    p.Meets Same (NumberNative.checked result) fun _ => NumberNative.checked result := by
  cases result with
  | ok i => exact .pure rfl
  | error fault => exact meets_refuse _

theorem meets_fold (op : Num → Num → Except NumFault Num) (acc : Num) (hvs : p.LikeAll vs ws) :
    p.Meets Same (NumberNative.fold op acc vs) fun _ => NumberNative.fold op acc ws := by
  induction vs generalizing acc p ws with
  | nil =>
      cases hvs
      exact .pure rfl
  | cons v vs ih =>
      cases hvs with
      | cons hv hvs =>
          refine (meets_numberArg hv).bind fun q₁ x y h₁ hxy => ?_
          cases hxy
          refine (meets_checked (op acc x)).bind fun q₂ acc acc' h₂ hacc => ?_
          cases hacc
          exact ih acc (likeAll_mono (h₁.trans h₂) hvs)

theorem Runs.foldList (h : T.Runs n) (op : Num → Num → Except NumFault Num) (first : Num)
    (hv : p.Like v w) :
    p.Meets Like (NumberNative.foldList (Engine.ofFuel n) op first v)
      fun m => NumberNative.foldList (Engine.ofFuel m) op first w := by
  refine (h.items hv).bind fun q₁ items items' _ hitems => ?_
  refine (meets_fold op first hitems).bind fun q₂ x y _ hxy => ?_
  cases hxy
  exact meets_newNumber x

theorem meets_order {a b a' b' : Value} (ha : p.Like a a') (hb : p.Like b b') :
    p.Meets Same (NumberNative.order a b) fun _ => NumberNative.order a' b' := by
  refine (meets_numberArg ha).bind fun q₁ x y h₁ hxy => ?_
  refine (meets_numberArg (like_mono h₁ hb)).bind fun q₂ x' y' _ hxy' => ?_
  cases hxy
  cases hxy'
  exact .pure rfl

theorem Runs.numbers (h : T.Runs n) (native : NumberNative) (ha : p.LikeAll vs ws) :
    p.Meets Like (native.run (Engine.ofFuel n) vs) fun m => native.run (Engine.ofFuel m) ws := by
  rcases ha with _ | ⟨ha, _ | ⟨hb, _ | ⟨hc, _ | ⟨hd, hs⟩⟩⟩⟩ <;> cases native <;>
    try exact meets_mismatch _
  case cons.nil.add => exact h.foldList _ _ ha
  case cons.nil.mul => exact h.foldList _ _ ha
  case cons.nil.float =>
      refine (meets_numberArg ha).bind fun q x y _ hxy => ?_
      cases hxy
      exact .pure (.double _)
  case cons.nil.truncate =>
      refine (meets_numberArg ha).bind fun q x y _ hxy => ?_
      cases hxy
      refine (meets_checked x.truncate).bind fun q r r' _ hr => ?_
      cases hr
      exact meets_newNumber r
  case cons.cons.nil.sub =>
      refine (meets_numberArg ha).bind fun q x y hq hxy => ?_
      cases hxy
      rw [hb.isNil_eq]
      split
      · exact meets_newNumber _
      · exact h.foldList _ x (like_mono hq hb)
  case cons.cons.nil.rem =>
      refine (meets_numberArg ha).bind fun q₁ x y h₁ hxy => ?_
      refine (meets_numberArg (like_mono h₁ hb)).bind fun q₂ x' y' _ hxy' => ?_
      cases hxy
      cases hxy'
      refine (meets_checked (x.rem x')).bind fun q r r' _ hr => ?_
      cases hr
      exact meets_newNumber r
  case cons.cons.nil.equal =>
      refine (meets_order ha hb).bind fun q o o' _ ho => ?_
      cases ho
      exact .pure (.ofBool _ _)
  case cons.cons.nil.less =>
      refine (meets_order ha hb).bind fun q o o' _ ho => ?_
      cases ho
      exact .pure (.ofBool _ _)
  case cons.cons.cons.nil.div =>
      refine (meets_numberArg ha).bind fun q₁ x y h₁ hxy => ?_
      refine (meets_numberArg (like_mono h₁ hb)).bind fun q₂ x' y' h₂ hxy' => ?_
      cases hxy
      cases hxy'
      refine (meets_checked (x.div x')).bind fun q₃ r r' h₃ hr => ?_
      cases hr
      exact h.foldList _ r (like_mono ((h₁.trans h₂).trans h₃) hc)

/-! ## Sequences -/

theorem meets_charsOf (hvs : p.LikeAll vs ws) (done : List Char) :
    p.Meets Same (SequenceNative.charsOf vs done) fun _ => SequenceNative.charsOf ws done := by
  induction vs generalizing ws done with
  | nil =>
      cases hvs
      exact .pure rfl
  | cons v vs ih =>
      cases hvs with
      | @cons _ w _ ws hv hvs =>
          have hchar : SequenceNative.charOf? w = SequenceNative.charOf? v := by cases hv <;> rfl
          simp only [SequenceNative.charsOf, hchar]
          cases SequenceNative.charOf? v with
          | none => exact meets_refuseOn hv fun h => h.before _
          | some c => exact ih hvs _

theorem Runs.sequenceToString (h : T.Runs n) (hv : p.Like v w) :
    p.Meets Like
      (Native.sequenceArg (Engine.ofFuel n) v >>= fun items =>
        SequenceNative.charsOf items [] >>= fun chars =>
          alloc (·.newText (String.ofList chars)))
      fun m => Native.sequenceArg (Engine.ofFuel m) w >>= fun items =>
        SequenceNative.charsOf items [] >>= fun chars =>
          alloc (·.newText (String.ofList chars)) := by
  refine (h.sequenceArg hv).bind fun q₁ items items' _ hitems => ?_
  refine (meets_charsOf hitems []).bind fun q₂ chars chars' _ hchars => ?_
  cases hchars
  exact meets_newText _

theorem Runs.sequences (h : T.Runs n) (native : SequenceNative) (ha : p.LikeAll vs ws) :
    p.Meets Like (native.run (Engine.ofFuel n) vs) fun m => native.run (Engine.ofFuel m) ws := by
  rcases ha with _ | ⟨ha, _ | ⟨hb, _ | ⟨hc, hs⟩⟩⟩ <;> cases native <;> try exact meets_mismatch _
  case cons.nil.stringToChar =>
      refine (meets_textArg ha).bind fun q text text' _ htext => ?_
      cases htext
      cases text.toList with
      | nil => exact .pure (.int _)
      | cons c cs => exact .pure (.int _)
  case cons.nil.numberToString =>
      refine (meets_numberArg ha).bind fun q x y _ hxy => ?_
      cases hxy
      exact meets_newText _
  case cons.nil.stringToNumber =>
      refine (meets_textArg ha).bind fun q text text' _ htext => ?_
      cases htext
      exact meets_newNumber _
  case cons.nil.sequenceToString =>
      have hvw := ha
      cases ha with
      | text => exact .pure hvw
      | _ => exact h.sequenceToString hvw
  case cons.nil.sequenceToVector =>
      refine (h.sequenceArg ha).bind fun q items items' _ hitems => meets_newVector ?_
      simpa using hitems
  case cons.nil.sequenceToList =>
      have hvw := ha
      cases ha with
      | nil => exact .pure hvw
      | pair => exact .pure hvw
      | _ => exact (h.sequenceArg hvw).bind fun _ _ _ _ hitems => meets_list hitems
  case cons.cons.nil.stringAppend =>
      refine (meets_textArg ha).bind fun q₁ x y h₁ hxy => ?_
      refine (meets_textArg (like_mono h₁ hb)).bind fun q₂ x' y' _ hxy' => ?_
      cases hxy
      cases hxy'
      exact meets_newText _
  case cons.cons.nil.vectorAppend =>
      cases ha with
      | @vector r r' hr =>
          cases hb with
          | @vector q q' hq =>
              refine .bind (R := fun p xs ys => p.LikeAll xs.toList ys.toList)
                (meets_gets (a := p.left.store.vector r ++ p.left.store.vector q)
                  (b := p.right.store.vector r' ++ p.right.store.vector q') (fun _ => rfl)
                  (fun _ => rfl) ?_) fun p xs ys _ hxs => meets_newVector hxs
              rw [Array.toList_append, Array.toList_append]
              exact List.rel_append (p.shows.vectors hr) (p.shows.vectors hq)
          | _ => exact meets_refuse _
      | _ => exact meets_refuse _
  case cons.cons.nil.listAppend =>
      refine (h.reversedItems ha .nil).bind fun q _ _ hq hout => ?_
      exact meets_consAll hout (like_mono hq hb)
  all_goals cases ha <;> first | exact meets_mismatch _ | (cases hb <;> exact meets_mismatch _)

/-! ## Streams, control and the system -/

theorem meets_streams (native : StreamNative) (hread : native ≠ .read) (hload : native ≠ .load)
    (ha : p.LikeAll vs ws) :
    p.Meets Like (native.run (Engine.ofFuel n) vs) fun m => native.run (Engine.ofFuel m) ws := by
  rcases ha with _ | ⟨ha, _ | ⟨hb, hs⟩⟩ <;> cases native <;> try exact meets_mismatch _
  case nil.terpri => exact (meets_write (.refl "\n")).bind fun _ _ _ _ _ => .pure (.sym _)
  case nil.read => exact absurd rfl hread
  case cons.nil.prin1 =>
      refine (meets_textOf ha).bind fun q₁ text text' h₁ htext => ?_
      refine (meets_write htext).bind fun q₂ _ _ h₂ _ => ?_
      exact .pure (like_mono (h₁.trans h₂) ha)
  case cons.nil.princ =>
      refine (meets_rawTextOf ha).bind fun q₁ text text' h₁ htext => ?_
      refine (meets_write htext).bind fun q₂ _ _ h₂ _ => ?_
      exact .pure (like_mono (h₁.trans h₂) ha)
  case cons.nil.load => exact absurd rfl hload

theorem meets_throwTo {tag tag' : Value} (ht : p.Like tag tag') (hv : p.Like v w) :
    p.Meets Like (ControlNative.throwTo tag v) fun _ => ControlNative.throwTo tag' w := by
  refine (meets_textOf ht).bind fun q₁ a a' h₁ ha => ?_
  refine (meets_textOf (like_mono h₁ hv)).bind fun q₂ b b' h₂ hb => ?_
  have h₂' := h₁.trans h₂
  refine meets_fail (.thrown (like_mono h₂' ht) (like_mono h₂' hv) ?_)
  exact (((ha.before "(").after " ").append hb).after ")"

theorem Runs.control (h : T.Runs n) (native : ControlNative) (heval : native ≠ .eval)
    (ha : p.LikeAll vs ws) (henv : p.Around env env') :
    p.Meets Like (native.run (Engine.ofFuel n) vs env)
      fun m => native.run (Engine.ofFuel m) ws env' := by
  rcases ha with _ | ⟨ha, _ | ⟨hb, _ | ⟨hc, hs⟩⟩⟩ <;> cases native <;> try exact meets_mismatch _
  case cons.nil.eval => exact absurd rfl heval
  case cons.nil.force => exact .pure ha
  case cons.cons.nil.apply => exact h.apply ha hb henv
  case cons.cons.nil.throwing =>
      refine (h.force ha).bind fun q tag tag' hq htag => ?_
      exact meets_throwTo htag (like_mono hq hb)

theorem docOf?_like (hv : p.Like v w) :
    SystemNative.docOf? p.right.store w = SystemNative.docOf? p.left.store v := by
  cases hv with
  | callable hr =>
      simp only [SystemNative.docOf?]
      rcases p.shows.callables hr with ⟨m, hl, hr⟩ | ⟨_, _, _, _, _, hl, hr⟩ <;> rw [hl, hr]
  | _ => rfl

theorem docOf?_withRoom (s : State) (k : Nat) (v : Value) :
    SystemNative.docOf? (s.withRoom k).store v = SystemNative.docOf? s.store v := by
  cases v <;> rfl

theorem Runs.system (h : T.Runs n) (native : SystemNative) (hdump : native ≠ .dump)
    (ha : p.LikeAll vs ws) :
    p.Meets Like (native.run (Engine.ofFuel n) vs env)
      fun m => native.run (Engine.ofFuel m) ws env' := by
  rcases ha with _ | ⟨ha, _ | ⟨hb, hs⟩⟩ <;> cases native <;> try exact meets_mismatch _
  case nil.dump => exact absurd rfl hdump
  case cons.nil.help =>
      refine .bind (R := Same) (meets_gets (fun k => docOf?_withRoom p.left k _)
        (fun k => docOf?_withRoom p.right k _) (docOf?_like ha)) fun q₁ doc doc' h₁ hdoc => ?_
      cases hdoc
      cases doc with
      | none => exact .pure (like_mono h₁ ha)
      | some doc =>
          refine (meets_write (.refl _)).bind fun q₂ _ _ h₂ _ => ?_
          exact .pure (like_mono (h₁.trans h₂) ha)
  case cons.nil.exit =>
      refine (h.items ha).bind fun q items items' _ hitems => ?_
      cases hitems with
      | nil => exact .exit 0
      | cons hv _ =>
          have hvw := hv
          cases hv with
          | int i => exact .exit _
          | _ => exact meets_refuseOn hvw fun h => h.before _

/-! ## Calls -/

theorem Runs.native (h : T.Runs n) {native : Native} (hruns : T.runs native)
    (ha : p.LikeAll vs ws) (henv : p.Around env env') :
    p.Meets Like (native.run (Engine.ofFuel n) vs env)
      fun m => native.run (Engine.ofFuel m) ws env' := by
  obtain ⟨heval, hread, hload, hdump⟩ := T.not_runs
  cases native with
  | lists native => exact h.lists native ha henv
  | tests native => exact meets_tests native ha
  | vectors native => exact h.vectors native ha
  | streams native =>
      refine meets_streams native ?_ ?_ ha
      · rintro rfl
        exact hread hruns
      · rintro rfl
        exact hload hruns
  | numbers native => exact h.numbers native ha
  | control native =>
      refine h.control native ?_ ha henv
      rintro rfl
      exact heval hruns
  | sequences native => exact h.sequences native ha
  | system native =>
      refine h.system native ?_ ha
      rintro rfl
      exact hdump hruns

theorem atBoundary_withRoom (native : Native) (vs : List Value) (s : State) (k : Nat)
    (f : Failure) : native.atBoundary vs (s.withRoom k) f = native.atBoundary vs s f := by
  have hframe : printAll (s.withRoom k).store (s.withRoom k).symbols
      (s.withRoom k).config.maxPrintRepeats vs =
        printAll s.store s.symbols s.config.maxPrintRepeats vs :=
    Printer.printAll_withCapacity s.store k s.symbols s.config.maxPrintRepeats vs
  rw [Native.atBoundary, Native.atBoundary, hframe]

/-- Failures that leave a native alike leave its boundary alike. -/
theorem atBoundary_like (native : Native) (ha : p.LikeAll vs ws) {f g : Failure}
    (hf : p.links.LikeFailure f g) :
    p.links.LikeFailure (native.atBoundary vs p.left f) (native.atBoundary ws p.right g) := by
  obtain ⟨c, trace⟩ := f
  obtain ⟨d, trace'⟩ := g
  have hcause : p.links.LikeCause c d := hf
  cases hcause with
  | native hm =>
      refine .call hm (Alike.before ?_ _)
      rw [p.corresponds.left.symbols, p.corresponds.right.symbols, p.corresponds.left.config,
        p.corresponds.right.config]
      exact Printer.printAll_alike p.shows T.symbols T.config.maxPrintRepeats ha
  | _ => exact hf

/-- A native is called on its frame. -/
theorem Runs.call (h : T.Runs n) {native : Native} (hruns : T.runs native)
    (ha : p.LikeAll vs ws) (henv : p.Around env env') :
    p.Meets Like (native.call (Engine.ofFuel n) vs env)
      fun m => native.call (Engine.ofFuel m) ws env' :=
  (h.native hruns ha henv).onFailure (atBoundary_withRoom native vs)
    (atBoundary_withRoom native ws) fun _ _ _ hq hf =>
      atBoundary_like native (likeAll_mono hq ha) hf

end SmallLisp.Setting
