/-!
# Blank characters

The characters with the Unicode property `White_Space`, and removal of a run of them from the ends
of a text. Main statement: what `trimBlanks` leaves neither starts nor ends with a blank
(`head_trimBlanks`, `getLast_trimBlanks`).
-/

namespace TestImpact

/-- The code points with the property `White_Space`, as closed ranges. -/
def blankRanges : List (Nat × Nat) :=
  [(0x9, 0xD), (0x20, 0x20), (0x85, 0x85), (0xA0, 0xA0), (0x1680, 0x1680), (0x2000, 0x200A),
    (0x2028, 0x2029), (0x202F, 0x202F), (0x205F, 0x205F), (0x3000, 0x3000)]

/-- A character of the property `White_Space`. -/
def isBlank (c : Char) : Bool :=
  blankRanges.any fun r => r.1 ≤ c.toNat && c.toNat ≤ r.2

/-- The text without the blanks at its start and at its end. -/
def trimBlanks (cs : List Char) : List Char :=
  ((cs.dropWhile isBlank).reverse.dropWhile isBlank).reverse

/-- The text without the blanks at its start and at its end. -/
def trim (s : String) : String := .ofList (trimBlanks s.toList)

/-- Core's white space is blank. -/
theorem isBlank_of_isWhitespace {c : Char} (h : c.isWhitespace = true) : isBlank c = true := by
  simp only [Char.isWhitespace, Bool.or_eq_true, decide_eq_true_eq] at h
  rcases h with ((rfl | rfl) | rfl) | rfl <;> decide

/-- The last character of a trimmed text is no blank. -/
theorem getLast_trimBlanks {cs : List Char} {c : Char} (h : (trimBlanks cs).getLast? = some c) :
    isBlank c = false := by
  rw [trimBlanks, List.getLast?_reverse] at h
  have := List.head?_dropWhile_not isBlank (cs.dropWhile isBlank).reverse
  rw [h] at this
  simpa using this

/-- The first character of a trimmed text is no blank. -/
theorem head_trimBlanks {cs : List Char} {c : Char} (h : (trimBlanks cs).head? = some c) :
    isBlank c = false := by
  rw [trimBlanks, List.head?_reverse] at h
  have hs : (cs.dropWhile isBlank).reverse.dropWhile isBlank <:+ (cs.dropWhile isBlank).reverse :=
    List.dropWhile_suffix _
  have hp : ((cs.dropWhile isBlank).reverse.dropWhile isBlank).reverse <+:
      cs.dropWhile isBlank := by
    simpa using List.reverse_prefix.2 hs
  have hh := List.head?_dropWhile_not isBlank cs
  rw [← List.head?_reverse] at h
  obtain ⟨t, ht⟩ := hp
  rw [← ht] at hh
  cases hr : ((cs.dropWhile isBlank).reverse.dropWhile isBlank).reverse with
  | nil => rw [hr] at h; cases h
  | cons d ds =>
    rw [hr] at h hh
    simp only [List.head?_cons, Option.some.injEq] at h
    subst h
    simpa using hh

end TestImpact
