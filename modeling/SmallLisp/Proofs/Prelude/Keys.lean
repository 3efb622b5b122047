import SmallLisp.Symbol
import SmallLisp.Proofs.Reading.Lines

/-!
# Texts by their bytes

A text that is compared or taken apart character by character costs much to evaluate in a proof, and
its bytes cost little. So a name is known by a number made of its bytes, and a text without any
character above 127 is taken apart by its bytes.
-/

namespace SmallLisp

namespace Utf8

/-- A character is the byte of its code, or else its first byte tells that it is not. -/
theorem utf8EncodeChar_cases (c : Char) :
    (∃ b, String.utf8EncodeChar c = [b] ∧ b.toNat = c.toNat) ∨
      128 ≤ c.toNat ∧ ∃ b bs, String.utf8EncodeChar c = b :: bs ∧ 128 ≤ b.toNat := by
  have hlt : c.toNat < 1114112 := by
    rcases c.valid with hv | ⟨-, hv⟩
    · exact Nat.lt_trans hv (by decide)
    · exact hv
  have hval : c.val.toNat = c.toNat := rfl
  unfold String.utf8EncodeChar
  rw [hval]
  dsimp only
  split
  · exact .inl ⟨_, rfl, by simp only [UInt8.toNat_ofNat']; omega⟩
  · refine .inr ⟨by omega, ?_⟩
    split
    · exact ⟨_, _, rfl, by simp only [UInt8.toNat_ofNat']; omega⟩
    · split <;> exact ⟨_, _, rfl, by simp only [UInt8.toNat_ofNat']; omega⟩

/-- The bytes of a text. -/
def ofText (text : String) : List UInt8 := text.toByteArray.data.toList

theorem ofText_eq_bytes (text : String) : ofText text = bytes text.toList := by
  rw [ofText, ← String.utf8Encode_toList, List.utf8Encode, List.data_toByteArray]
  rfl

/-- The characters of bytes below 128. -/
def chars (bs : List UInt8) : List Char := bs.map fun b => Char.ofNat b.toNat

theorem chars_bytes {cs : List Char} (h : ∀ b ∈ bytes cs, b.toNat < 128) :
    chars (bytes cs) = cs := by
  induction cs with
  | nil => rfl
  | cons c cs ih =>
      have hbytes : bytes (c :: cs) = String.utf8EncodeChar c ++ bytes cs := List.flatMap_cons
      rw [hbytes] at h ⊢
      rcases utf8EncodeChar_cases c with ⟨b, hone, hb⟩ | ⟨-, b, bs, hmore, hb⟩
      · rw [hone] at h ⊢
        rw [chars, List.singleton_append, List.map_cons, hb, Char.ofNat_toNat, ← chars,
          ih fun b hb => h b (List.mem_append_right _ hb)]
      · have hlow := h b (by rw [hmore]; simp)
        omega

/-- A text whose bytes are below 128 has their characters. -/
theorem toList_eq_chars {text : String} (h : (ofText text).all (·.toNat < 128) = true) :
    text.toList = chars (ofText text) := by
  rw [ofText_eq_bytes] at h ⊢
  refine (chars_bytes fun b hb => ?_).symm
  exact of_decide_eq_true (List.all_eq_true.1 h b hb)

end Utf8

namespace SymbolTable

/-- A number that tells bytes from all others: in base 256, the first one lowest, and a one at the
end. -/
def ofBytes (bs : List UInt8) : Nat := bs.foldr (fun b k => b.toNat + 256 * k) 1

/-- A number that tells a name from all others. -/
def key (name : String) : Nat := ofBytes (Utf8.ofText name)

theorem ofBytes_pos (bs : List UInt8) : 0 < ofBytes bs := by
  induction bs with
  | nil => exact Nat.one_pos
  | cons b bs ih =>
      rw [ofBytes, List.foldr_cons, ← ofBytes]
      omega

theorem ofBytes_cons (b : UInt8) (bs : List UInt8) :
    ofBytes (b :: bs) = b.toNat + 256 * ofBytes bs := rfl

theorem ofBytes_inj {bs cs : List UInt8} (h : ofBytes bs = ofBytes cs) : bs = cs := by
  induction bs generalizing cs with
  | nil =>
      cases cs with
      | nil => rfl
      | cons c cs =>
          have hpos := ofBytes_pos cs
          rw [ofBytes_cons] at h
          simp only [ofBytes, List.foldr_nil] at h hpos
          omega
  | cons b bs ih =>
      cases cs with
      | nil =>
          have hpos := ofBytes_pos bs
          rw [ofBytes_cons] at h
          simp only [ofBytes, List.foldr_nil] at h hpos
          omega
      | cons c cs =>
          have hb := b.toNat_lt
          have hc := c.toNat_lt
          rw [ofBytes_cons, ofBytes_cons] at h
          have hrest : ofBytes bs = ofBytes cs := by omega
          rw [UInt8.toNat_inj.1 (show b.toNat = c.toNat by omega), ih hrest]

theorem key_inj {a b : String} : key a = key b ↔ a = b := by
  refine ⟨fun h => ?_, fun h => h ▸ rfl⟩
  exact String.toByteArray_inj.1 (ByteArray.ext (Array.toList_inj.1 (ofBytes_inj h)))

/-- The names of private variables are told by their first byte. -/
theorem isDummyName_eq (name : String) : isDummyName name = (key name % 256 == '$'.toNat) := by
  rw [isDummyName, key, Utf8.ofText_eq_bytes]
  generalize name.toList = cs
  cases cs with
  | nil => rfl
  | cons c cs =>
      have hbytes : Utf8.bytes (c :: cs) = String.utf8EncodeChar c ++ Utf8.bytes cs :=
        List.flatMap_cons
      have hcode : '$'.toNat = 36 := rfl
      have hfirst : (ofBytes (Utf8.bytes (c :: cs)) % 256 = 36) ↔ c.toNat = 36 := by
        rw [hbytes]
        rcases Utf8.utf8EncodeChar_cases c with ⟨b, hone, hb⟩ | ⟨hc, b, bs, hmore, hb⟩
        · have hlt := b.toNat_lt
          rw [hone, List.singleton_append, ofBytes_cons]
          omega
        · have hlt := b.toNat_lt
          rw [hmore, List.cons_append, ofBytes_cons]
          omega
      rw [Bool.eq_iff_iff, beq_iff_eq, hcode, hfirst]
      constructor
      · intro h
        split at h
        · rename_i heq
          cases heq
          rfl
        · cases h
      · intro h
        have hc : c = '$' := Char.ext (UInt32.toNat_inj.1 h)
        subst hc
        rfl

end SymbolTable

end SmallLisp
