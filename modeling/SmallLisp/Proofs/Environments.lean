import SmallLisp.Proofs.Computation
import SmallLisp.Proofs.Conservation.State

/-!
# Environments share their frames

Environments grow from the empty one and form a tree: a frame lies at one level in the chain of
one environment, at another in that of the next, and an assignment made through any of them is
seen by all. Here environments are told apart by numbers and frames by the order they were made
in, and a history keeps nothing but what was done: which frames a chain has, the values a frame
was made with, and the assignments that found their slot. Every answer of the machine, over any
sequence of operations, is the one the history gives.
-/

namespace SmallLisp

/-! ## Operations -/

/-- An operation on environments. They are numbered in the order they are made, from the empty
one, which is 0; a number that is not given yet stands for the empty one. -/
inductive FrameOp where
  /-- Make a new environment: a frame with these slots in front of an environment. -/
  | extend (env : Nat) (slots : List Value)
  | assign (env : Nat) (a : Address) (v : Value)
  | lookup (env : Nat) (a : Address)
  | frames (env : Nat)

/-- What an operation on environments answers. -/
inductive FrameAnswer where
  | extended
  | assigned (done : Bool)
  | slot (v : Option Value)
  | contents (frames : List (Array Value))

namespace FrameOp

/-- Run an operation. The environments made so far come back with the answer, and with the new
one at their end. -/
def run (envs : List Env) : FrameOp → Eval (FrameAnswer × List Env)
  | .extend e slots => do
      let env ← Eval.extend slots (envs.getD e none)
      pure (.extended, envs ++ [env])
  | .assign e a v => do
      let done ← Eval.assign (envs.getD e none) a v
      pure (.assigned done, envs)
  | .lookup e a => do
      let v ← Eval.slot? (envs.getD e none) a
      pure (.slot v, envs)
  | .frames e => do
      let frames ← Eval.gets fun s => s.frames.contents (envs.getD e none)
      pure (.contents frames, envs)

/-- Run operations in order. -/
def runAll (envs : List Env) : List FrameOp → Eval (List FrameAnswer × List Env)
  | [] => pure ([], envs)
  | op :: ops => do
      let (answer, envs) ← op.run envs
      let (answers, envs) ← runAll envs ops
      pure (answer :: answers, envs)

end FrameOp

/-! ## Histories -/

/-- An assignment that found its slot. -/
structure FrameWrite where
  frame : Nat
  offset : Nat
  value : Value

/-- What was done to environments. Frames are numbered in the order they were made. -/
structure FrameHistory where
  /-- The frames of each environment's chain, innermost first. -/
  chains : List (List Nat) := [[]]
  /-- The values that each frame was made with. -/
  made : List (List Value) := []
  /-- The assignments that found their slot, the latest first. -/
  writes : List FrameWrite := []

namespace FrameHistory

/-- The frames of an environment's chain. -/
def chain (H : FrameHistory) (e : Nat) : List Nat := H.chains.getD e []

/-- The values a frame was made with. -/
def initial (H : FrameHistory) (f : Nat) : List Value := H.made.getD f []

/-- The frame with the slot that an address denotes; none if the chain has no such frame or the
frame no such slot. -/
def target? (H : FrameHistory) (e : Nat) (a : Address) : Option Nat :=
  ((H.chain e)[a.level]?).filter fun f => decide (a.offset < (H.initial f).length)

/-- The latest value assigned to a slot of a frame. -/
def latest? (H : FrameHistory) (f o : Nat) : Option Value :=
  (H.writes.find? fun w => w.frame == f && w.offset == o).map (·.value)

/-- The values in a frame's slots: the latest assigned, or the initial ones. -/
def slots (H : FrameHistory) (f : Nat) : List Value :=
  (H.initial f).mapIdx fun o v => (H.latest? f o).getD v

/-- The value of the slot that an address denotes. -/
def slot? (H : FrameHistory) (e : Nat) (a : Address) : Option Value :=
  (H.target? e a).bind fun f => (H.slots f)[a.offset]?

/-- The values in each frame of an environment's chain. -/
def contents (H : FrameHistory) (e : Nat) : List (Array Value) :=
  (H.chain e).map fun f => (H.slots f).toArray

/-- The history with one more operation done. -/
def after (H : FrameHistory) : FrameOp → FrameHistory
  | .extend e slots =>
      { H with chains := H.chains ++ [H.made.length :: H.chain e], made := H.made ++ [slots] }
  | .assign e a v =>
      match H.target? e a with
      | some f => { H with writes := ⟨f, a.offset, v⟩ :: H.writes }
      | none => H
  | .lookup _ _ | .frames _ => H

/-- What an operation is to answer. -/
def answer (H : FrameHistory) : FrameOp → FrameAnswer
  | .extend _ _ => .extended
  | .assign e a _ => .assigned (H.target? e a).isSome
  | .lookup e a => .slot (H.slot? e a)
  | .frames e => .contents (H.contents e)

/-- What operations done in order are to answer. -/
def answers (H : FrameHistory) : List FrameOp → List FrameAnswer
  | [] => []
  | op :: ops => H.answer op :: (H.after op).answers ops

/-- The history with more operations done. -/
def afterAll (H : FrameHistory) (ops : List FrameOp) : FrameHistory := ops.foldl after H

theorem target?_eq_some {H : FrameHistory} {e f : Nat} {a : Address} :
    H.target? e a = some f ↔
      (H.chain e)[a.level]? = some f ∧ a.offset < (H.initial f).length := by
  simp only [target?, Option.filter_eq_some_iff, decide_eq_true_eq]

theorem target?_eq_none {H : FrameHistory} {e : Nat} {a : Address} :
    H.target? e a = none ↔ (H.chain e)[a.level]? = none ∨
      ∃ f, (H.chain e)[a.level]? = some f ∧ (H.initial f).length ≤ a.offset := by
  cases hf : (H.chain e)[a.level]? with
  | none => simp [target?, hf]
  | some f => simp [target?, hf]

@[simp] theorem length_slots (H : FrameHistory) (f : Nat) :
    (H.slots f).length = (H.initial f).length := List.length_mapIdx

theorem getElem?_slots (H : FrameHistory) (f o : Nat) :
    (H.slots f)[o]? = ((H.initial f)[o]?).map ((H.latest? f o).getD ·) := List.getElem?_mapIdx

theorem slot?_eq_none {H : FrameHistory} {e : Nat} {a : Address} :
    H.slot? e a = none ↔ H.target? e a = none := by
  cases ht : H.target? e a with
  | none => simp [slot?, ht]
  | some f => simpa [slot?, ht] using (target?_eq_some.1 ht).2

theorem latest?_write (H : FrameHistory) (f o : Nat) (v : Value) (f' o' : Nat) :
    ({ H with writes := ⟨f, o, v⟩ :: H.writes } : FrameHistory).latest? f' o' =
      if f' = f ∧ o' = o then some v else H.latest? f' o' := by
  by_cases h : f = f' ∧ o = o'
  · obtain ⟨rfl, rfl⟩ := h
    simp [latest?]
  · have hne : (f == f' && o == o') = false := by simpa using h
    rw [if_neg (by rintro ⟨rfl, rfl⟩; exact h ⟨rfl, rfl⟩)]
    simp [latest?, hne]

/-- After an assignment that finds its slot, that slot has the value, and every other one of any
frame the value it had. -/
theorem slots_write (H : FrameHistory) (f o : Nat) (v : Value) (f' : Nat) :
    ({ H with writes := ⟨f, o, v⟩ :: H.writes } : FrameHistory).slots f' =
      if f' = f then (H.slots f').set o v else H.slots f' := by
  refine List.ext_getElem? fun o' => ?_
  rw [getElem?_slots, latest?_write]
  by_cases hf : f' = f
  · rw [if_pos hf, List.getElem?_set, getElem?_slots]
    by_cases ho : o' = o
    · subst ho
      rw [if_pos ⟨hf, rfl⟩, if_pos rfl, length_slots]
      change ((H.initial f')[o']?).map (fun _ => v) = _
      cases hget : (H.initial f')[o']? with
      | none => rw [if_neg (by simpa using hget), Option.map_none]
      | some w => rw [if_pos (List.getElem?_eq_some_iff.1 hget).1, Option.map_some]
    · rw [if_neg fun h => ho h.2, if_neg (Ne.symm ho)]
      rfl
  · rw [if_neg fun h => hf h.1, if_neg hf, getElem?_slots]
    rfl

theorem getD_concat {α : Type} (xs : List α) (x d : α) (i : Nat) :
    (xs ++ [x]).getD i d = if i = xs.length then x else xs.getD i d := by
  simp only [List.getD_eq_getElem?_getD, List.getElem?_append]
  rcases Nat.lt_trichotomy i xs.length with hlt | rfl | hlt
  · rw [if_pos hlt, if_neg (by omega)]
  · simp
  · rw [if_neg (by omega), if_neg (by omega), List.getElem?_eq_none (by simp; omega),
      List.getElem?_eq_none (by omega)]

theorem chain_extend (H : FrameHistory) (e e' : Nat) (slots : List Value) :
    (H.after (.extend e slots)).chain e' =
      if e' = H.chains.length then H.made.length :: H.chain e else H.chain e' := getD_concat ..

theorem initial_extend (H : FrameHistory) (e f : Nat) (slots : List Value) :
    (H.after (.extend e slots)).initial f =
      if f = H.made.length then slots else H.initial f := getD_concat ..

/-- A frame that nothing was assigned to has the values it was made with. -/
theorem slots_of_unwritten {H : FrameHistory} {f : Nat} (h : ∀ w ∈ H.writes, w.frame ≠ f) :
    H.slots f = H.initial f := by
  have hlatest : ∀ o, H.latest? f o = none := fun o => by
    simp only [latest?, Option.map_eq_none_iff, List.find?_eq_none]
    intro w hw
    simp [h w hw]
  refine List.ext_getElem? fun o => ?_
  rw [getElem?_slots, hlatest]
  cases (H.initial f)[o]? <;> rfl

end FrameHistory

/-! ## Chains of frames -/

namespace Frames

/-- The slots of a frame. -/
def slotsAt (fs : Frames) (i : Nat) : Array Value := ((fs.table[i]?).map (·.slots)).getD #[]

/-- The frames of an environment's chain, innermost first. -/
inductive Chained (fs : Frames) : Env → List Nat → Prop
  | nil : fs.Chained none []
  | cons {i : Nat} {frame : Frame} {is : List Nat} : fs.table[i]? = some frame →
      (∀ j, frame.next = some j → j < i) → fs.Chained frame.next is → fs.Chained (some i) (i :: is)

variable {fs fs' : Frames} {env : Env} {is : List Nat}

theorem Chained.lt_size (h : fs.Chained env is) : ∀ i ∈ is, i < fs.size := by
  induction h with
  | nil => simp
  | cons hframe _ _ ih =>
      exact List.forall_mem_cons.2 ⟨(Array.getElem?_eq_some_iff.1 hframe).1, ih⟩

theorem Chained.head_lt {i : Nat} (h : fs.Chained (some i) is) : i < fs.size := by
  cases h with
  | cons hframe _ _ => exact (Array.getElem?_eq_some_iff.1 hframe).1

theorem Chained.frameAt? (h : fs.Chained env is) (l : Nat) : fs.frameAt? env l = is[l]? := by
  induction h generalizing l with
  | nil => simp [Frames.frameAt?]
  | @cons i frame is hframe _ _ ih =>
      cases l with
      | zero => exact if_pos (Array.getElem?_eq_some_iff.1 hframe).1
      | succ l => simpa only [Frames.frameAt?, hframe, List.getElem?_cons_succ] using ih l

/-- Links lead to smaller indices, so as many links as there are frames reach the end. -/
theorem Chained.chain (h : fs.Chained env is) {fuel : Nat} (hfuel : ∀ i, env = some i → i < fuel) :
    fs.chain fuel env = is.map fs.slotsAt := by
  induction h generalizing fuel with
  | nil => cases fuel <;> rfl
  | @cons i frame is hframe hnext _ ih =>
      obtain ⟨fuel, rfl⟩ : ∃ n, fuel = n + 1 := ⟨fuel - 1, by have := hfuel i rfl; omega⟩
      have hfuel' : ∀ j, frame.next = some j → j < fuel := fun j hj => by
        have := hnext j hj
        have := hfuel i rfl
        omega
      simp only [Frames.chain, hframe, ih hfuel', List.map_cons, slotsAt, Option.map_some,
        Option.getD_some]

theorem Chained.contents (h : fs.Chained env is) : fs.contents env = is.map fs.slotsAt := by
  refine h.chain fun i hi => ?_
  subst hi
  exact h.head_lt

/-- A chain stays while every frame keeps its place in it. -/
theorem Chained.keeps (h : fs.Chained env is)
    (hkeep : ∀ (k : Nat) (frame : Frame), fs.table[k]? = some frame →
      ∃ frame', fs'.table[k]? = some frame' ∧ frame'.next = frame.next) :
    fs'.Chained env is := by
  induction h with
  | nil => exact .nil
  | cons hframe hnext _ ih =>
      obtain ⟨frame', hframe', heq⟩ := hkeep _ _ hframe
      exact .cons hframe' (heq ▸ hnext) (heq ▸ ih)

theorem Chained.lookup? (h : fs.Chained env is) (l o : Nat) :
    fs.lookup? env l o = (is[l]?).bind fun i => (fs.slotsAt i)[o]? := by
  simp only [Frames.lookup?, h.frameAt?]
  cases is[l]? with
  | none => rfl
  | some i =>
      simp only [Option.bind_some, slotsAt]
      cases fs.table[i]? <;> rfl

theorem getElem?_push_of_some {k : Nat} {frame : Frame} (slots : Array Value) (next : Env)
    (h : fs.table[k]? = some frame) : (fs.push slots next).table[k]? = some frame := by
  obtain ⟨hlt, hget⟩ := Array.getElem?_eq_some_iff.1 h
  rw [push, Array.getElem?_push_lt hlt, hget]

theorem slotsAt_push (slots : Array Value) (next : Env) (i : Nat) :
    (fs.push slots next).slotsAt i = if i = fs.size then slots else fs.slotsAt i := by
  by_cases hi : i = fs.size
  · simp [slotsAt, push, size, hi]
  · have hne : i ≠ fs.table.size := hi
    simp [slotsAt, push, Array.getElem?_push, hi, hne]

theorem slotsAt_assign {l i : Nat} (hframe : fs.frameAt? env l = some i) (o : Nat) (v : Value)
    (k : Nat) : (fs.assign env l o v).slotsAt k =
      if k = i then (fs.slotsAt k).setIfInBounds o v else fs.slotsAt k := by
  simp only [slotsAt, assign, hframe, Array.getElem?_modify]
  by_cases hk : i = k
  · subst hk
    rw [if_pos rfl, if_pos rfl]
    cases fs.table[i]? <;> simp
  · rw [if_neg hk, if_neg (Ne.symm hk)]

end Frames

/-! ## What a history tells -/

namespace FrameHistory

/-- Since the state `s`, a history tells all there is to the environments in a state. Frames that
`s` had come before those of the history. Frames are only added and keep their links, so a chain
stays what it was when its environment was made; that is what lets an environment be known by its
frames. -/
structure Tells (H : FrameHistory) (s : State) (envs : List Env) (t : State) : Prop where
  /-- Nothing but frames has changed. -/
  rest : t = { s with frames := t.frames }
  size : t.frames.size = s.frames.size + H.made.length
  /-- The frames of the state before are as they were. -/
  older : ∀ i < s.frames.size, t.frames.slotsAt i = s.frames.slotsAt i
  length : envs.length = H.chains.length
  chains : ∀ e, t.frames.Chained (envs.getD e none) ((H.chain e).map (s.frames.size + ·))
  slots : ∀ f < H.made.length, t.frames.slotsAt (s.frames.size + f) = (H.slots f).toArray
  writes : ∀ w ∈ H.writes, w.frame < H.made.length

namespace Tells

variable {H : FrameHistory} {s t : State} {envs : List Env}

/-- At first there is the empty environment. -/
theorem start (s : State) : ({} : FrameHistory).Tells s [none] s where
  rest := rfl
  size := rfl
  older _ _ := rfl
  length := rfl
  chains e := by
    match e with
    | 0 => exact .nil
    | e + 1 => exact .nil
  slots f hf := absurd hf (Nat.not_lt_zero f)
  writes w hw := absurd hw List.not_mem_nil

theorem frame_lt (h : H.Tells s envs t) {e l f : Nat} (hf : (H.chain e)[l]? = some f) :
    f < H.made.length := by
  have hmem := (h.chains e).lt_size _ (List.mem_map_of_mem (List.mem_of_getElem? hf))
  have := h.size
  omega

theorem frameAt? (h : H.Tells s envs t) (e l : Nat) :
    t.frames.frameAt? (envs.getD e none) l = ((H.chain e)[l]?).map (s.frames.size + ·) := by
  rw [(h.chains e).frameAt?, List.getElem?_map]

theorem frameAt?_of_target (h : H.Tells s envs t) {e f : Nat} {a : Address}
    (hf : H.target? e a = some f) :
    t.frames.frameAt? (envs.getD e none) a.level = some (s.frames.size + f) := by
  rw [h.frameAt?, (target?_eq_some.1 hf).1]
  rfl

theorem lookup? (h : H.Tells s envs t) (e : Nat) (a : Address) :
    t.frames.lookup? (envs.getD e none) a.level a.offset = H.slot? e a := by
  rw [(h.chains e).lookup?, List.getElem?_map, slot?, target?]
  cases hf : (H.chain e)[a.level]? with
  | none => rfl
  | some f =>
      simp only [Option.map_some, Option.bind_some, h.slots f (h.frame_lt hf), Option.filter_some,
        List.getElem?_toArray]
      split
      · rfl
      · rename_i hlt
        simpa using hlt

theorem contents (h : H.Tells s envs t) (e : Nat) :
    t.frames.contents (envs.getD e none) = H.contents e := by
  rw [(h.chains e).contents, FrameHistory.contents, List.map_map]
  refine List.map_congr_left fun f hf => ?_
  obtain ⟨l, hl⟩ := List.mem_iff_getElem?.1 hf
  exact h.slots f (h.frame_lt hl)

theorem assign_none (h : H.Tells s envs t) {e : Nat} {a : Address} (v : Value)
    (hf : H.target? e a = none) : Eval.assign (envs.getD e none) a v t = .ok false t := by
  have hnone := slot?_eq_none.2 hf
  rw [Eval.assign, h.lookup?, hnone]
  rfl

theorem assign_some (h : H.Tells s envs t) {e f : Nat} {a : Address} (v : Value)
    (hf : H.target? e a = some f) : Eval.assign (envs.getD e none) a v t =
      .ok true { t with frames := t.frames.assign (envs.getD e none) a.level a.offset v } := by
  have hsome : (H.slot? e a).isSome = true := by
    rw [Option.isSome_iff_ne_none, Ne, slot?_eq_none, hf]
    simp
  rw [Eval.assign, h.lookup?, hsome]
  rfl

/-- A new environment has a new frame at the front of its chain. -/
theorem extend (h : H.Tells s envs t) (e : Nat) (slots : List Value) :
    (H.after (.extend e slots)).Tells s (envs ++ [some t.frames.size])
      { t with frames := t.frames.push slots.toArray (envs.getD e none) } := by
  have hsize := h.size
  have hpush : ∀ (k : Nat) (frame : Frame), t.frames.table[k]? = some frame →
      ∃ frame', (t.frames.push slots.toArray (envs.getD e none)).table[k]? = some frame' ∧
        frame'.next = frame.next :=
    fun k frame hk => ⟨frame, Frames.getElem?_push_of_some _ _ hk, rfl⟩
  refine
    { rest := by rw [h.rest]
      size := ?size
      older := ?older
      length := by simp [after, h.length]
      chains := ?chains
      slots := ?slots
      writes := fun w hw => Nat.lt_of_lt_of_le (h.writes w hw) (by simp [after]) }
  case size =>
    simp only [Frames.size, Frames.push, Array.size_push, after, List.length_append,
      List.length_singleton] at hsize ⊢
    omega
  case older =>
    intro i hi
    rw [Frames.slotsAt_push, if_neg (by omega), h.older i hi]
  case chains =>
    intro e'
    rw [FrameHistory.getD_concat, chain_extend, h.length]
    split
    · -- The new frame is the last in the table, so what it is made in front of comes before it.
      have hlink : ∀ j, envs.getD e none = some j → j < t.frames.size := fun j hj => by
        have hchain := h.chains e
        rw [hj] at hchain
        exact hchain.head_lt
      rw [List.map_cons, ← hsize]
      exact .cons Array.getElem?_push_size hlink ((h.chains e).keeps hpush)
    · exact (h.chains e').keeps hpush
  case slots =>
    intro f hf
    rw [Frames.slotsAt_push, hsize]
    by_cases hf' : f = H.made.length
    · -- Nothing can have been assigned to the new frame.
      subst hf'
      have hnone : ∀ w ∈ (H.after (.extend e slots)).writes, w.frame ≠ H.made.length :=
        fun w hw => Nat.ne_of_lt (h.writes w hw)
      rw [if_pos rfl, slots_of_unwritten hnone, initial_extend, if_pos rfl]
    · have hlt : f < H.made.length := by
        simp only [after, List.length_append, List.length_singleton] at hf
        omega
      have hslots : (H.after (.extend e slots)).slots f = H.slots f := by
        simp only [FrameHistory.slots, initial_extend, if_neg hf']
        rfl
      rw [if_neg (by omega), h.slots f hlt, hslots]

/-- An assignment that finds its slot changes that slot of that frame alone. -/
theorem assign (h : H.Tells s envs t) {e f : Nat} {a : Address} (v : Value)
    (hf : H.target? e a = some f) :
    (H.after (.assign e a v)).Tells s envs
      { t with frames := t.frames.assign (envs.getD e none) a.level a.offset v } := by
  have hlt := h.frame_lt (target?_eq_some.1 hf).1
  have hframe := h.frameAt?_of_target hf
  have hafter : H.after (.assign e a v) = { H with writes := ⟨f, a.offset, v⟩ :: H.writes } := by
    simp only [after, hf]
  rw [hafter]
  refine
    { rest := by rw [h.rest]
      size := by simpa only [Frames.size_assign] using h.size
      older := ?older
      length := h.length
      chains := fun e' => (h.chains e').keeps ?keeps
      slots := ?slots
      writes := List.forall_mem_cons.2 ⟨hlt, h.writes⟩ }
  case older =>
    intro i hi
    rw [Frames.slotsAt_assign hframe, if_neg (by omega), h.older i hi]
  case keeps =>
    intro k frame hk
    obtain ⟨frame', hk', hnext, -⟩ := Frames.kept_assign hk
    exact ⟨frame', hk', hnext⟩
  case slots =>
    intro f' hf'
    rw [Frames.slotsAt_assign hframe, h.slots f' hf', slots_write]
    by_cases hff : f' = f
    · subst hff
      simp
    · rw [if_neg (by omega), if_neg hff]

/-- Each operation answers what its history says, and leaves what the longer history tells. -/
theorem run (h : H.Tells s envs t) (op : FrameOp) :
    ∃ envs' t', op.run envs t = .ok (H.answer op, envs') t' ∧ (H.after op).Tells s envs' t' := by
  cases op with
  | extend e slots => exact ⟨_, _, rfl, h.extend e slots⟩
  | assign e a v =>
      simp only [FrameOp.run, FrameHistory.answer]
      cases hf : H.target? e a with
      | none =>
          refine ⟨envs, t, ?_, by simpa only [after, hf] using h⟩
          rw [Eval.bind_of_ok (h.assign_none v hf)]
          rfl
      | some f =>
          refine ⟨envs, _, ?_, h.assign v hf⟩
          rw [Eval.bind_of_ok (h.assign_some v hf)]
          rfl
  | lookup e a =>
      refine ⟨envs, t, ?_, h⟩
      simp only [FrameHistory.answer, ← h.lookup? e a]
      rfl
  | frames e =>
      refine ⟨envs, t, ?_, h⟩
      simp only [FrameHistory.answer, ← h.contents e]
      rfl

/-- So does a sequence of operations. -/
theorem runAll (h : H.Tells s envs t) (ops : List FrameOp) :
    ∃ envs' t', FrameOp.runAll envs ops t = .ok (H.answers ops, envs') t' ∧
      (H.afterAll ops).Tells s envs' t' := by
  induction ops generalizing H envs t with
  | nil => exact ⟨envs, t, rfl, h⟩
  | cons op ops ih =>
      obtain ⟨envs₁, t₁, hrun, h₁⟩ := h.run op
      obtain ⟨envs', t', hall, h'⟩ := ih h₁
      refine ⟨envs', t', ?_, h'⟩
      rw [FrameOp.runAll, Eval.bind_of_ok hrun]
      simp only []
      rw [Eval.bind_of_ok hall]
      rfl

/-- The slots that an assignment changes in the table of frames. -/
theorem assign_slotsAt (h : H.Tells s envs t) {e f : Nat} {a : Address} (v : Value)
    (hf : H.target? e a = some f) (i o : Nat) :
    ((t.frames.assign (envs.getD e none) a.level a.offset v).slotsAt i)[o]? =
      if i = s.frames.size + f ∧ o = a.offset then some v else (t.frames.slotsAt i)[o]? := by
  obtain ⟨hlevel, hoffset⟩ := target?_eq_some.1 hf
  have hframe := h.frameAt?_of_target hf
  rw [Frames.slotsAt_assign hframe]
  by_cases hi : i = s.frames.size + f
  · subst hi
    have hsize : a.offset < (t.frames.slotsAt (s.frames.size + f)).size := by
      rw [h.slots f (h.frame_lt hlevel)]
      simpa using hoffset
    rw [if_pos rfl, Array.getElem?_setIfInBounds]
    by_cases ho : o = a.offset
    · subst ho
      rw [if_pos rfl, if_pos hsize, if_pos ⟨rfl, rfl⟩]
    · rw [if_neg (Ne.symm ho), if_neg fun hand => ho hand.2]
  · rw [if_neg hi, if_neg fun hand => hi hand.1]

end Tells

/-- Whether an address denotes no slot: the chain has no such frame, or the frame no such slot. -/
def Lacks (H : FrameHistory) (e : Nat) (a : Address) : Prop :=
  (H.chain e)[a.level]? = none ∨
    ∃ f, (H.chain e)[a.level]? = some f ∧ (H.initial f).length ≤ a.offset

/-- What it is for environments to share mutable frames, where `base` frames are older than the
first of the history. -/
structure Shared (H : FrameHistory) (base : Nat) (envs : List Env) (t : State) : Prop where
  /-- A slot has the latest value assigned to it, through whichever environment, or else the one
  its frame was made with. -/
  lookup : ∀ (e : Nat) (a : Address) (f : Nat) (v : Value),
    (H.chain e)[a.level]? = some f → (H.initial f)[a.offset]? = some v →
      Eval.slot? (envs.getD e none) a t = .ok (some ((H.latest? f a.offset).getD v)) t
  lookup_none : ∀ (e : Nat) (a : Address),
    Eval.slot? (envs.getD e none) a t = .ok none t ↔ H.Lacks e a
  /-- An assignment fails exactly where there is no slot, and then changes nothing. -/
  assign_false : ∀ (e : Nat) (a : Address) (v : Value),
    Eval.assign (envs.getD e none) a v t = .ok false t ↔ H.Lacks e a
  /-- Otherwise it changes the one slot alone, of all the frames there are. -/
  assign_true : ∀ (e : Nat) (a : Address) (v : Value), ¬ H.Lacks e a →
    ∃ f fs, (H.chain e)[a.level]? = some f ∧
      Eval.assign (envs.getD e none) a v t = .ok true { t with frames := fs } ∧
      ∀ i o, (fs.slotsAt i)[o]? =
        if i = base + f ∧ o = a.offset then some v else (t.frames.slotsAt i)[o]?
  /-- The frames of an environment are those of its chain, with what their slots have now. -/
  frames : ∀ e : Nat, t.frames.contents (envs.getD e none) =
    (H.chain e).map fun f => ((H.initial f).mapIdx fun o v => (H.latest? f o).getD v).toArray

theorem lacks_iff {H : FrameHistory} {e : Nat} {a : Address} :
    H.Lacks e a ↔ H.target? e a = none := target?_eq_none.symm

theorem Tells.shared {H : FrameHistory} {s t : State} {envs : List Env} (h : H.Tells s envs t) :
    H.Shared s.frames.size envs t where
  lookup e a f v hf hv := by
    have htarget := target?_eq_some.2 ⟨hf, (List.getElem?_eq_some_iff.1 hv).1⟩
    have hslot : H.slot? e a = some ((H.latest? f a.offset).getD v) := by
      rw [slot?, htarget, Option.bind_some, getElem?_slots, hv, Option.map_some]
    simp only [Eval.slot?, Eval.gets, h.lookup?, hslot]
  lookup_none e a := by
    rw [lacks_iff, ← slot?_eq_none, ← h.lookup?]
    exact ⟨fun hrun => by simpa [Eval.slot?, Eval.gets] using hrun,
      fun hnone => by simp only [Eval.slot?, Eval.gets, hnone]⟩
  assign_false e a v := by
    rw [lacks_iff]
    refine ⟨fun hrun => ?_, h.assign_none v⟩
    cases hf : H.target? e a with
    | none => rfl
    | some f =>
        rw [h.assign_some v hf] at hrun
        cases hrun
  assign_true e a v hlacks := by
    rw [lacks_iff, ← Ne, Option.ne_none_iff_exists'] at hlacks
    obtain ⟨f, hf⟩ := hlacks
    exact ⟨f, _, (target?_eq_some.1 hf).1, h.assign_some v hf, h.assign_slotsAt v hf⟩
  frames e := h.contents e

end FrameHistory

/-! ## Sharing -/

/-- Environments implement shared mutable frames. Any operations on environments that grow from
the empty one run, answer what their history says, and change nothing but frames, and no frame
there was before; and what can be read and assigned after them is what shared frames hold. -/
theorem FrameOp.environments_share_frames (ops : List FrameOp) (s : State) :
    ∃ envs t, FrameOp.runAll [none] ops s = .ok (({} : FrameHistory).answers ops, envs) t ∧
      t = { s with frames := t.frames } ∧
      (∀ i < s.frames.size, t.frames.slotsAt i = s.frames.slotsAt i) ∧
      (({} : FrameHistory).afterAll ops).Shared s.frames.size envs t := by
  obtain ⟨envs, t, hrun, ht⟩ := (FrameHistory.Tells.start s).runAll ops
  exact ⟨envs, t, hrun, ht.rest, ht.older, ht.shared⟩

/-- Two frames in front of one: what is assigned through the first is seen through the second. -/
example : ({} : FrameHistory).answers
    [.extend 0 [.nil], .extend 1 [], .extend 1 [], .assign 2 ⟨1, 0, ⟨0⟩⟩ .eof,
      .lookup 3 ⟨1, 0, ⟨0⟩⟩, .assign 0 ⟨0, 0, ⟨0⟩⟩ .nil, .frames 2] =
    [.extended, .extended, .extended, .assigned true, .slot (some .eof), .assigned false,
      .contents [#[], #[.eof]]] := by rfl

end SmallLisp
