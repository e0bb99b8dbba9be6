/-!
# Decimal numbers

The digits of a number. Main statement: they read back as the number (`ofDigitChars_decimal`).
-/

namespace TestImpact

/-- The decimal digits of a number. -/
def decimal (n : Nat) : String := .ofList (Nat.toDigits 10 n)

/-- The digits of a number read back as the number. -/
theorem ofDigitChars_decimal (n : Nat) : Nat.ofDigitChars 10 (decimal n).toList 0 = n := by
  rw [decimal, String.toList_ofList, Nat.ofDigitChars_ten_toDigits]

end TestImpact
