/-!
# Hexadecimal digits

The value of a digit, the digits of both cases, and bytes written as pairs of digits. Main
statements: a digit that is written reads back as its value (`value?_lower`, `value?_upper`), and so
do the bytes of a text of digits (`bytes_digits`).
-/

namespace TestImpact.Hexadecimal

/-- The value of a digit of either case. -/
def value? (c : Char) : Option Nat :=
  if c.isDigit then some (c.toNat - 0x30)
  else if 'a' ≤ c && c ≤ 'f' then some (c.toNat - 0x57)
  else if 'A' ≤ c && c ≤ 'F' then some (c.toNat - 0x37)
  else none

/-- The lower-case digit of a value below 16. -/
def lower (n : Nat) : Char := "0123456789abcdef".toList.getD n '0'

/-- The upper-case digit of a value below 16. -/
def upper (n : Nat) : Char := "0123456789ABCDEF".toList.getD n '0'

/-- The bytes of pairs of digits. -/
def bytes : List Char → List UInt8
  | a :: b :: r => ((value? a).getD 0 * 16 + (value? b).getD 0).toUInt8 :: bytes r
  | _ => []

/-- The digits of bytes, two for each. -/
def digits (bs : List UInt8) : List Char :=
  bs.flatMap fun b => [lower (b.toNat / 16), lower (b.toNat % 16)]

/-- A small letter digit is read back as its value. -/
theorem value?_lower {n : Nat} (h : n < 16) : value? (lower n) = some n := by
  have : ∀ k : Fin 16, value? (lower k) = some k.val := by decide
  exact this ⟨n, h⟩

/-- A capital digit is read back as its value. -/
theorem value?_upper {n : Nat} (h : n < 16) : value? (upper n) = some n := by
  have : ∀ k : Fin 16, value? (upper k) = some k.val := by decide
  exact this ⟨n, h⟩

/-- Bytes written as digits read back. -/
theorem bytes_digits (bs : List UInt8) : bytes (digits bs) = bs := by
  induction bs with
  | nil => rfl
  | cons b bs ih =>
    have hb := b.toNat_lt
    have hsum : b.toNat / 16 * 16 + b.toNat % 16 = b.toNat := Nat.div_add_mod' ..
    rw [digits, List.flatMap_cons, ← digits]
    simp only [List.cons_append, List.nil_append, bytes]
    rw [value?_lower (by omega), value?_lower (Nat.mod_lt _ (by decide)), Option.getD_some,
      Option.getD_some, hsum, ih]
    simp

end TestImpact.Hexadecimal
