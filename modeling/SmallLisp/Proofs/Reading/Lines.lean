import SmallLisp.Source

/-!
# Lines of a text and of its bytes

A text in memory is cut at every line feed, and a stream of bytes after every line feed. For the
bytes of a text the lines are the same, up to the last one: only the text in memory has a line that
is empty because a line feed ends it, and a carriage return that no line feed follows stays only in
the stream.
-/

namespace SmallLisp

namespace Utf8

/-- The bytes of some characters. -/
def bytes (cs : List Char) : List UInt8 := cs.flatMap String.utf8EncodeChar

theorem toList_loop (bs : ByteArray) (i : Nat) (reversed : List UInt8) :
    ByteArray.toList.loop bs i reversed = reversed.reverse ++ bs.data.toList.drop i := by
  fun_induction ByteArray.toList.loop bs i reversed with
  | case1 i reversed hi ih =>
      have hlt : i < bs.data.toList.length := by simpa using hi
      have hget : bs.get! i = bs.data.toList[i] := by
        rw [ByteArray.get!, Array.getElem_toList]
        exact getElem!_pos bs.data i hi
      rw [ih, List.drop_eq_getElem_cons hlt, List.reverse_cons, hget]
      simp
  | case2 i reversed hi =>
      have hle : bs.data.toList.length ≤ i := by simpa using hi
      rw [List.drop_eq_nil_of_le hle, List.append_nil]

/-- The bytes of a text are those of its characters. -/
theorem toList_toUTF8 (text : String) : text.toUTF8.toList = bytes text.toList := by
  have hdata : text.toUTF8 = text.toList.utf8Encode := String.utf8Encode_toList.symm
  rw [ByteArray.toList, toList_loop, hdata, List.utf8Encode, List.data_toByteArray]
  rfl

/-- The bytes of characters decode to them. -/
theorem fromUTF8?_bytes (cs : List Char) :
    String.fromUTF8? ⟨(bytes cs).toArray⟩ = some (String.ofList cs) := by
  have hbytes : (⟨(bytes cs).toArray⟩ : ByteArray) = cs.utf8Encode :=
    ByteArray.ext List.data_toByteArray.symm
  have hvalid : cs.utf8Encode.IsValidUTF8 := .intro cs rfl
  rw [hbytes, String.fromUTF8?, dif_pos hvalid]
  rfl

/-- The byte of a line feed is in no other character. -/
theorem ten_notMem_utf8EncodeChar {c : Char} (h : c ≠ '\n') : 10 ∉ String.utf8EncodeChar c := by
  have hc : c.toNat ≠ 10 := fun e => h (Char.ext (UInt32.toNat_inj.1 e))
  have hlt : c.toNat < 1114112 := by
    rcases c.valid with hv | ⟨-, hv⟩
    · exact Nat.lt_trans hv (by decide)
    · exact hv
  have hval : c.val.toNat = c.toNat := rfl
  unfold String.utf8EncodeChar
  rw [hval]
  dsimp only
  -- one byte, or several that are all above those of one byte
  split
  · simp only [List.mem_singleton, ← UInt8.toNat_inj, UInt8.toNat_ofNat', UInt8.reduceToNat]
    omega
  · split
    case isTrue =>
      simp only [List.mem_cons, List.not_mem_nil, or_false, not_or, ← UInt8.toNat_inj,
        UInt8.toNat_ofNat', UInt8.reduceToNat]
      omega
    case isFalse =>
      split <;>
        · simp only [List.mem_cons, List.not_mem_nil, or_false, not_or, ← UInt8.toNat_inj,
            UInt8.toNat_ofNat', UInt8.reduceToNat]
          omega

end Utf8

namespace LineSource

open Utf8

/-! ## Cutting characters and cutting bytes -/

/-- Cut after every line feed; the last piece may lack one and is not empty. -/
def splitAfter (cs : List Char) : List (List Char) :=
  cs.foldr
    (fun c lines =>
      if c = '\n' then [c] :: lines
      else
        match lines with
        | [] => [[c]]
        | l :: ls => (c :: l) :: ls)
    []

/-- Put something in front of the first piece, if there is one. -/
def inFront {α : Type} (xs : List α) : List (List α) → List (List α)
  | [] => [xs]
  | l :: ls => (xs ++ l) :: ls

theorem splitAfter_cons {c : Char} (hc : c ≠ '\n') (cs : List Char) :
    splitAfter (c :: cs) = inFront [c] (splitAfter cs) := by
  rw [splitAfter, List.foldr_cons, if_neg hc, ← splitAfter]
  cases splitAfter cs <;> rfl

theorem splitBytes_cons {b : UInt8} (hb : b ≠ 10) (bs : List UInt8) :
    splitBytes (b :: bs) = inFront [b] (splitBytes bs) := by
  rw [splitBytes, List.foldr_cons, if_neg hb, ← splitBytes]
  cases splitBytes bs <;> rfl

theorem inFront_append {α : Type} (xs ys : List α) (lines : List (List α)) :
    inFront (xs ++ ys) lines = inFront xs (inFront ys lines) := by
  cases lines <;> simp [inFront]

/-- Bytes that are no line feed stay together. -/
theorem splitBytes_append {bs : List UInt8} (hne : bs ≠ []) (hbs : 10 ∉ bs) (rest : List UInt8) :
    splitBytes (bs ++ rest) = inFront bs (splitBytes rest) := by
  induction bs with
  | nil => exact absurd rfl hne
  | cons b bs ih =>
      obtain ⟨hb, hmore⟩ := not_or.1 (mt List.mem_cons.2 hbs)
      rw [List.cons_append, splitBytes_cons (Ne.symm hb)]
      by_cases hnil : bs = []
      · rw [hnil, List.nil_append]
      · rw [ih hnil hmore, ← inFront_append]
        rfl

theorem map_inFront_bytes (cs : List Char) (lines : List (List Char)) :
    (inFront cs lines).map bytes = inFront (bytes cs) (lines.map bytes) := by
  cases lines <;> simp [inFront, bytes]

/-- Cutting the bytes of a text is cutting the text. -/
theorem splitBytes_bytes (cs : List Char) : splitBytes (bytes cs) = (splitAfter cs).map bytes := by
  induction cs with
  | nil => rfl
  | cons c cs ih =>
      have hbytes : bytes (c :: cs) = String.utf8EncodeChar c ++ bytes cs := List.flatMap_cons
      by_cases hc : c = '\n'
      · subst hc
        have hten : String.utf8EncodeChar '\n' = [10] := rfl
        rw [hbytes, hten, splitAfter, List.foldr_cons, if_pos rfl, ← splitAfter, List.map_cons,
          ← ih]
        rfl
      · have hsplit := splitBytes_append (String.utf8EncodeChar_ne_nil)
          (ten_notMem_utf8EncodeChar hc) (bytes cs)
        rw [hbytes, hsplit, ih, splitAfter_cons hc, map_inFront_bytes]
        simp [bytes]

/-! ## The two ways of cutting -/

/-- The pieces between line feeds, and those up to and with each line feed. -/
inductive Cuts : List (List Char) → List (List Char) → Prop
  /-- What a line feed ends has nothing after it. -/
  | blank : Cuts [[]] []
  | last {l : List Char} (hne : l ≠ []) (hl : '\n' ∉ l) : Cuts [l] [l]
  | line (l : List Char) {ls ms : List (List Char)} : Cuts ls ms →
      Cuts (l :: ls) ((l ++ ['\n']) :: ms)

theorem splitLines_cons {c : Char} (hc : c ≠ '\n') (cs : List Char) :
    splitLines (c :: cs) = inFront [c] (splitLines cs) := by
  rw [splitLines, List.foldr_cons, if_neg hc, ← splitLines]
  cases splitLines cs <;> rfl

/-- A character that is no line feed goes in front of the first piece either way. -/
theorem Cuts.inFront {c : Char} (hc : c ≠ '\n') {ls ms : List (List Char)} (h : Cuts ls ms) :
    Cuts (inFront [c] ls) (LineSource.inFront [c] ms) := by
  cases h with
  | blank => exact .last (List.cons_ne_nil _ _) (by simp [Ne.symm hc])
  | last hne hl => exact .last (List.cons_ne_nil _ _) (by simp [Ne.symm hc, hl])
  | line l h => exact .line (c :: l) h

theorem cuts (cs : List Char) : Cuts (splitLines cs) (splitAfter cs) := by
  induction cs with
  | nil => exact .blank
  | cons c cs ih =>
      by_cases hc : c = '\n'
      · subst hc
        exact .line [] ih
      · rw [splitLines_cons hc, splitAfter_cons hc]
        exact ih.inFront hc

/-! ## What is left of a line -/

/-- A line either ends in a carriage return, which is dropped, or stays as it is. -/
theorem dropReturn_cases (cs : List Char) :
    (∃ ds, cs = ds ++ ['\r'] ∧ dropReturn cs = ds) ∨ dropReturn cs = cs := by
  unfold dropReturn
  split
  case h_1 r hr =>
    refine .inl ⟨r.reverse, ?_, rfl⟩
    rw [← List.reverse_reverse cs, hr, List.reverse_cons]
  case h_2 => exact .inr rfl

/-- Of a line that a line feed ends, the same is left either way. -/
theorem dropEnd_append (cs : List Char) : dropEnd (cs ++ ['\n']) = dropReturn cs := by
  rcases List.eq_nil_or_concat cs with rfl | ⟨ds, c, rfl⟩
  · rfl
  · by_cases hc : c = '\r' <;> simp [dropEnd, dropReturn, hc]

theorem dropEnd_of_notMem {cs : List Char} (h : '\n' ∉ cs) : dropEnd cs = cs := by
  have hrev : '\n' ∉ cs.reverse := by simpa using h
  unfold dropEnd
  split
  case h_1 r hr => simp [hr] at hrev
  case h_2 r _ hr => simp [hr] at hrev
  case h_3 => rfl

/-! ## Answers -/

/-- The answers of two sources that differ at most in the last one: a last empty line may be
missing, or a last line may have a carriage return more. -/
inductive EndAlike : List Answer → List Answer → Prop
  | nil : EndAlike [] []
  | blank : EndAlike [.line ""] []
  | carriage (cs : List Char) :
      EndAlike [.line (String.ofList cs)] [.line (String.ofList (cs ++ ['\r']))]
  | cons (a : Answer) {as as' : List Answer} : EndAlike as as' → EndAlike (a :: as) (a :: as')

theorem decodeLine_bytes (cs : List Char) :
    decodeLine (bytes cs) = .line (String.ofList (dropEnd cs)) := by
  rw [decodeLine, fromUTF8?_bytes]
  simp

theorem Cuts.endAlike {ls ms : List (List Char)} (h : Cuts ls ms) :
    EndAlike (ls.map fun l => .line (String.ofList (dropReturn l)))
      ((ms.map bytes).map decodeLine) := by
  induction h with
  | blank => exact .blank
  | @last l hne hl =>
      simp only [List.map_cons, List.map_nil, decodeLine_bytes, dropEnd_of_notMem hl]
      rcases dropReturn_cases l with ⟨ds, rfl, hds⟩ | hds
      · rw [hds]
        exact .carriage ds
      · rw [hds]
        exact .cons _ .nil
  | line l _ ih =>
      simp only [List.map_cons, decodeLine_bytes, dropEnd_append]
      exact .cons _ ih

/-- A text in memory and the stream of its bytes answer alike, up to the last line. -/
theorem endAlike_ofText_ofBytes (text : String) :
    EndAlike (ofText text).answers (ofBytes text.toUTF8).answers := by
  have h := (cuts text.toList).endAlike
  rw [← splitBytes_bytes, ← toList_toUTF8] at h
  exact h

/-- The two do differ at the last line. -/
example : (ofText "a\r").answers = [.line "a"] ∧ (ofBytes "a\r".toUTF8).answers = [.line "a\r"] ∧
    (ofText "a\n").answers = [.line "a", .line ""] ∧
    (ofBytes "a\n".toUTF8).answers = [.line "a"] := by
  decide +kernel

end LineSource

end SmallLisp
