import Mathlib.Data.List.Forall2
import Mathlib.Data.Option.Basic
import Mathlib.Order.Basic
import SmallLisp.Proofs.Computation

/-!
# Things that belong together

Two machines that do the same do not always make the same cells: one may expand a macro where the
other did so long ago. What a program sees of the two is the same nevertheless. Links say which
things of the machines belong together, one each, and values are alike if they are the same words or
things that are linked. Texts are alike if they are the same as far as the first function that they
show, since functions that belong together may have been written differently.
-/

namespace SmallLisp

/-! ## Links -/

/-- The kinds of things that have an identity of their own. -/
inductive Kind where
  | cell
  | text
  | bignum
  | vector
  | promise
  | callable
  | failure
  | frame
deriving DecidableEq

/-- How many things of a kind there are. -/
def State.count (s : State) : Kind → Nat
  | .cell => s.store.cells.size
  | .text => s.store.texts.size
  | .bignum => s.store.bignums.size
  | .vector => s.store.vectors.size
  | .promise => s.store.promises.size
  | .callable => s.store.callables.size
  | .failure => s.store.failures.size
  | .frame => s.frames.table.size

/-- Which things of two machines belong together, by their indices. -/
abbrev Links := Kind → Nat → Nat → Prop

namespace Links

variable {L L' : Links} {a b c d : Value} {as bs cs ds : List Value}

/-- What is linked of the first machine. -/
def Left (L : Links) (k : Kind) (i : Nat) : Prop := ∃ j, L k i j

/-- What is linked of the second machine. -/
def Right (L : Links) (k : Kind) (j : Nat) : Prop := ∃ i, L k i j

/-- Nothing belongs together with two things. -/
def OneToOne (L : Links) : Prop :=
  ∀ ⦃k i j i' j'⦄, L k i j → L k i' j' → (i = i' ↔ j = j')

/-- One link more. -/
def add (L : Links) (k : Kind) (i j : Nat) : Links :=
  fun k' i' j' => L k' i' j' ∨ k' = k ∧ i' = i ∧ j' = j

theorem le_add (L : Links) (k : Kind) (i j : Nat) : L ≤ L.add k i j := fun _ _ _ h => .inl h

theorem add_self (L : Links) (k : Kind) (i j : Nat) : L.add k i j k i j := .inr ⟨rfl, rfl, rfl⟩

theorem OneToOne.add (h : L.OneToOne) {k : Kind} {i j : Nat} (hi : ¬ L.Left k i)
    (hj : ¬ L.Right k j) : (L.add k i j).OneToOne := by
  rintro k' a b a' b' (hab | ⟨rfl, rfl, rfl⟩) (hab' | ⟨hk, rfl, rfl⟩)
  · exact h hab hab'
  · subst hk
    exact ⟨fun he => (hi ⟨b, he ▸ hab⟩).elim, fun he => (hj ⟨a, he ▸ hab⟩).elim⟩
  · exact ⟨fun he => (hi ⟨b', he ▸ hab'⟩).elim, fun he => (hj ⟨a', he ▸ hab'⟩).elim⟩
  · exact ⟨fun _ => rfl, fun _ => rfl⟩

/-! ## Values -/

/-- The values are the same words, or things that are linked. Addresses, and what stands in for
names, are no values that programs deal with. -/
inductive Like (L : Links) : Value → Value → Prop
  | nil : Like L .nil .nil
  | int (n : Int64) : Like L (.int n) (.int n)
  | double (x : Float) : Like L (.double x) (.double x)
  | big {r q : Ref .bignum} : L .bignum r.index q.index → Like L (.big r) (.big q)
  | text {r q : Ref .text} : L .text r.index q.index → Like L (.text r) (.text q)
  | sym (x : Symbol) : Like L (.sym x) (.sym x)
  | pair {r q : Ref .cell} : L .cell r.index q.index → Like L (.pair r) (.pair q)
  | vector {r q : Ref .vector} : L .vector r.index q.index → Like L (.vector r) (.vector q)
  | promise {r q : Ref .promise} : L .promise r.index q.index → Like L (.promise r) (.promise q)
  | callable {r q : Ref .callable} : L .callable r.index q.index →
      Like L (.callable r) (.callable q)
  | failure {r q : Ref .failure} : L .failure r.index q.index → Like L (.failure r) (.failure q)
  | eof : Like L .eof .eof

/-- The lists have values that are alike, one by one. -/
abbrev LikeAll (L : Links) : List Value → List Value → Prop := List.Forall₂ L.Like

/-- There is no value, or there are values that are alike. -/
abbrev LikeOption (L : Links) : Option Value → Option Value → Prop := Option.Rel L.Like

/-- The environments are both empty, or their innermost frames belong together. -/
abbrev Around (L : Links) : Env → Env → Prop := Option.Rel (L .frame)

theorem Like.mono (h : L.Like a b) (hL : L ≤ L') : L'.Like a b := by
  cases h with
  | nil => exact .nil
  | int n => exact .int n
  | double x => exact .double x
  | big h => exact .big (hL _ _ _ h)
  | text h => exact .text (hL _ _ _ h)
  | sym x => exact .sym x
  | pair h => exact .pair (hL _ _ _ h)
  | vector h => exact .vector (hL _ _ _ h)
  | promise h => exact .promise (hL _ _ _ h)
  | callable h => exact .callable (hL _ _ _ h)
  | failure h => exact .failure (hL _ _ _ h)
  | eof => exact .eof

theorem LikeAll.mono (h : L.LikeAll as bs) (hL : L ≤ L') : L'.LikeAll as bs :=
  h.imp fun _ _ h => h.mono hL

theorem LikeOption.mono {v w : Option Value} (h : L.LikeOption v w) (hL : L ≤ L') :
    L'.LikeOption v w := by
  cases h with
  | some h => exact .some (h.mono hL)
  | none => exact .none

theorem Around.mono {env env' : Env} (h : L.Around env env') (hL : L ≤ L') :
    L'.Around env env' := by
  cases h with
  | some h => exact .some (hL _ _ _ h)
  | none => exact .none

theorem Like.ofBool (L : Links) (b : Bool) : L.Like (.ofBool b) (.ofBool b) := by
  cases b with
  | false => exact .nil
  | true => exact .sym _

theorem Like.isNil_eq (h : L.Like a b) : b.isNil = a.isNil := by cases h <;> rfl

theorem Like.isPair_eq (h : L.Like a b) : b.isPair = a.isPair := by cases h <;> rfl

theorem Like.isSym_eq (h : L.Like a b) (x : Symbol) : b.isSym x = a.isSym x := by cases h <;> rfl

/-- Values that are alike are the same values where these are. -/
theorem Like.agrees_eq (hL : L.OneToOne) (h : L.Like a b) (h' : L.Like c d) :
    b.agrees d = a.agrees c := by
  have href : ∀ {t : Table} {k : Kind} {r q r' q' : Ref t}, L k r.index q.index →
      L k r'.index q'.index → (q == q') = (r == r') := by
    rintro t k ⟨r⟩ ⟨q⟩ ⟨r'⟩ ⟨q'⟩ h h'
    rw [Bool.eq_iff_iff]
    simpa using (hL h h').symm
  cases h <;> cases h' <;> first | rfl | exact href ‹_› ‹_›

theorem Like.same_eq (hL : L.OneToOne) (h : L.Like a b) (h' : L.Like c d) :
    b.same d = a.same c := by
  have hagrees : b.agrees d = a.agrees c := h.agrees_eq hL h'
  cases h with
  | double x => cases h' <;> rfl
  | _ => exact hagrees

end Links

/-! ## Texts -/

/-- The texts are the same up to something that both show and that begins like a function. -/
def Parted (a b : String) : Prop := ∃ p u v, a = p ++ "#<" ++ u ∧ b = p ++ "#<" ++ v

/-- The texts are the same, as far as the first function that they show. -/
def Alike (a b : String) : Prop := a = b ∨ Parted a b

namespace Parted

variable {a b : String}

theorem before (h : Parted a b) (c : String) : Parted (c ++ a) (c ++ b) := by
  obtain ⟨p, u, v, rfl, rfl⟩ := h
  exact ⟨c ++ p, u, v, by simp only [String.append_assoc], by simp only [String.append_assoc]⟩

theorem after (h : Parted a b) (c d : String) : Parted (a ++ c) (b ++ d) := by
  obtain ⟨p, u, v, rfl, rfl⟩ := h
  exact ⟨p, u ++ c, v ++ d, by simp only [String.append_assoc], by simp only [String.append_assoc]⟩

end Parted

namespace Alike

variable {a b c d : String}

theorem refl (a : String) : Alike a a := .inl rfl

theorem append (h : Alike a b) (h' : Alike c d) : Alike (a ++ c) (b ++ d) := by
  rcases h with rfl | h
  · rcases h' with rfl | h'
    · exact .refl _
    · exact .inr (h'.before a)
  · exact .inr (h.after c d)

theorem before (h : Alike a b) (c : String) : Alike (c ++ a) (c ++ b) := (refl c).append h

theorem after (h : Alike a b) (c : String) : Alike (a ++ c) (b ++ c) := h.append (refl c)

end Alike

/-! ## Failures -/

namespace Links

/-- The causes are of one kind and say the same; what is thrown is alike. -/
inductive LikeCause (L : Links) : Cause → Cause → Prop
  | unreadable (message : String) (lineNumber : Nat) (line : String) :
      LikeCause L (.unreadable message lineNumber line) (.unreadable message lineNumber line)
  | unbound {m n : String} : Alike m n → LikeCause L (.unbound m) (.unbound n)
  | notApplicable {m n : String} : Alike m n → LikeCause L (.notApplicable m) (.notApplicable n)
  | malformed {m n : String} : Alike m n → LikeCause L (.malformed m) (.malformed n)
  | arity (signature : String) : LikeCause L (.arity signature) (.arity signature)
  | notVariable {m n : String} : Alike m n → LikeCause L (.notVariable m) (.notVariable n)
  | notProper {m n : String} : Alike m n → LikeCause L (.notProper m) (.notProper n)
  | thrown {tag tag' v v' : Value} {m n : String} : L.Like tag tag' → L.Like v v' → Alike m n →
      LikeCause L (.thrown tag v m) (.thrown tag' v' n)
  | native {m n : String} : Alike m n → LikeCause L (.native m) (.native n)
  | call {m n site site' : String} : Alike m n → Alike site site' →
      LikeCause L (.call m site) (.call n site')
  | storeFull (capacity : Nat) : LikeCause L (.storeFull capacity) (.storeFull capacity)
  | io (message : String) : LikeCause L (.io message) (.io message)

/-- The failures have causes that are alike, wherever they arose. -/
def LikeFailure (L : Links) (f g : Failure) : Prop := L.LikeCause f.cause g.cause

theorem LikeCause.mono {L L' : Links} {c d : Cause} (h : L.LikeCause c d) (hL : L ≤ L') :
    L'.LikeCause c d := by
  cases h with
  | thrown ht hv hm => exact .thrown (ht.mono hL) (hv.mono hL) hm
  | _ => constructor <;> assumption

theorem LikeFailure.mono {L L' : Links} {f g : Failure} (h : L.LikeFailure f g) (hL : L ≤ L') :
    L'.LikeFailure f g :=
  LikeCause.mono h hL

theorem LikeCause.message {L : Links} {c d : Cause} (h : L.LikeCause c d) :
    Alike c.message d.message := by
  cases h with
  | thrown _ _ hm => exact hm.before _
  | malformed hm => exact hm
  | native hm => exact hm
  | call hm hs => exact (hm.after " -- ").append hs
  | unbound hm | notApplicable hm | notVariable hm | notProper hm => exact hm.before _
  | _ => exact .refl _

end Links

end SmallLisp
