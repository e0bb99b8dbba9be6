import TestImpact.Text.Utf8

/-!
# The bytes of a character

A character of ASCII is one byte, its code, and all bytes of any other character lie beyond ASCII.
Main statement: a byte of ASCII is among the bytes of its own character alone
(`ofNat_mem_encodeChar_iff`).
-/

namespace TestImpact.Utf8

section
variable {b : UInt8} {c x : Char}

/-- The code of an ASCII character is its byte. -/
theorem toNat_ofNat_ascii (hx : x.toNat < 0x80) : (UInt8.ofNat x.toNat).toNat = x.toNat := by
  rw [UInt8.toNat_ofNat', Nat.mod_eq_of_lt (by omega)]

/-- An ASCII character is written as one byte. -/
theorem encodeChar_ascii (hc : c.toNat < 0x80) : encodeChar c = [UInt8.ofNat c.toNat] := by
  rw [encodeChar, String.utf8EncodeChar]
  exact if_pos (Nat.le_of_lt_succ hc)

/-- The bytes of a character beyond ASCII are beyond ASCII. -/
theorem le_of_mem_encodeChar (hc : 0x80 ≤ c.toNat) (hb : b ∈ encodeChar c) : 0x80 ≤ b.toNat := by
  have hval : c.val.toNat = c.toNat := rfl
  have hbyte : ∀ n, 0x80 ≤ n → n < 0x100 → 0x80 ≤ (UInt8.ofNat n).toNat := by
    intro n hl hn
    rwa [UInt8.toNat_ofNat', Nat.mod_eq_of_lt hn]
  unfold encodeChar String.utf8EncodeChar at hb
  grind

/-- Every character has a byte. -/
theorem encodeChar_ne_nil (c : Char) : encodeChar c ≠ [] := by
  intro h
  have hl := String.length_utf8EncodeChar c
  rw [← encodeChar, h] at hl
  have hpos := c.utf8Size_pos
  simp only [List.length_nil] at hl
  omega

/-- The byte of an ASCII character stands for this character alone. -/
theorem ofNat_mem_encodeChar_iff (hx : x.toNat < 0x80) :
    UInt8.ofNat x.toNat ∈ encodeChar c ↔ c = x := by
  refine ⟨fun h => ?_, ?_⟩
  · by_cases hc : c.toNat < 0x80
    · rw [encodeChar_ascii hc, List.mem_singleton] at h
      have hn := congrArg UInt8.toNat h
      rw [toNat_ofNat_ascii hx, toNat_ofNat_ascii hc] at hn
      exact Char.toNat_inj.1 hn.symm
    · have hle := le_of_mem_encodeChar (Nat.le_of_not_lt hc) h
      rw [toNat_ofNat_ascii hx] at hle
      omega
  · rintro rfl
    rw [encodeChar_ascii hx]
    exact List.mem_singleton_self _

/-- A character with the bytes of an ASCII character is this character. -/
theorem encodeChar_eq_singleton_iff (hx : x.toNat < 0x80) :
    encodeChar c = [UInt8.ofNat x.toNat] ↔ c = x := by
  refine ⟨fun h => (ofNat_mem_encodeChar_iff hx).1 ?_, ?_⟩
  · rw [h]
    exact List.mem_singleton_self _
  · rintro rfl
    exact encodeChar_ascii hx

end

end TestImpact.Utf8
