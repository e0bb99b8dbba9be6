/-!
# Bytes as text

Reading of UTF-8. `nextChar` reads one character or drops one ill-formed run: the longest start of a
well-formed sequence, at least one byte. From it come a reading that refuses ill-formed bytes
(`decode?`) and one that puts U+FFFD for each ill-formed run (`decodeLossy`). Main statement: where
the first succeeds, the second agrees with it (`decodeLossy_of_decode?`).
-/

namespace TestImpact.Utf8

/-- A byte that may follow the second byte of a sequence. -/
def isContinuation (b : UInt8) : Bool := 0x80 ≤ b && b ≤ 0xBF

/-- The continuation bytes that a first byte asks for, and the least and greatest second byte. -/
def expected (b : UInt8) : Option (Nat × UInt8 × UInt8) :=
  if 0xC2 ≤ b && b ≤ 0xDF then some (1, 0x80, 0xBF)
  else if b = 0xE0 then some (2, 0xA0, 0xBF)
  else if b = 0xED then some (2, 0x80, 0x9F)
  else if 0xE1 ≤ b && b ≤ 0xEF then some (2, 0x80, 0xBF)
  else if b = 0xF0 then some (3, 0x90, 0xBF)
  else if 0xF1 ≤ b && b ≤ 0xF3 then some (3, 0x80, 0xBF)
  else if b = 0xF4 then some (3, 0x80, 0x8F)
  else none

/-- Reads `n` more continuation bytes onto the code point `value`. -/
def continuation (value : Nat) : Nat → List UInt8 → Option Char × List UInt8
  | 0, bs => (some (Char.ofNat value), bs)
  | n + 1, b :: bs =>
    if isContinuation b then continuation (value * 64 + (b.toNat - 0x80)) n bs else (none, b :: bs)
  | _ + 1, [] => (none, [])

/-- The payload bits of a first byte that `n` continuation bytes follow. -/
def leadBits (b : UInt8) (n : Nat) : Nat := b.toNat % (1 <<< (6 - n))

/-- The first character of a byte text, or `none` for an ill-formed run, and the bytes after it. -/
def nextChar (b : UInt8) (bs : List UInt8) : Option Char × List UInt8 :=
  if b < 0x80 then (some (Char.ofNat b.toNat), bs)
  else match expected b, bs with
    | some (n, lo, hi), c :: cs =>
      if lo ≤ c && c ≤ hi then
        continuation (leadBits b n * 64 + (c.toNat - 0x80)) (n - 1) cs
      else (none, bs)
    | _, _ => (none, bs)

/-- What follows a continuation is no longer than the bytes. -/
theorem length_continuation (value n : Nat) (bs : List UInt8) :
    (continuation value n bs).2.length ≤ bs.length := by
  fun_induction continuation value n bs <;> simp_all; omega

/-- What follows a character is no longer than the bytes behind its first one. -/
theorem length_nextChar (b : UInt8) (bs : List UInt8) : (nextChar b bs).2.length ≤ bs.length := by
  unfold nextChar
  split
  · simp
  · split
    · split
      · exact Nat.le_trans (length_continuation ..) (by simp)
      · simp
    · simp

/-- The characters of a byte text, with `none` for each ill-formed run. -/
def chars : List UInt8 → List (Option Char)
  | [] => []
  | b :: bs => (nextChar b bs).1 :: chars (nextChar b bs).2
termination_by bs => bs.length
decreasing_by
  have := length_nextChar b bs
  simp only [List.length_cons]
  omega

/-- The text of the bytes, if all of them are well formed. -/
def decode? (bs : List UInt8) : Option String := ((chars bs).mapM id).map .ofList

/-- The text of the bytes, with U+FFFD in place of each ill-formed run. -/
def decodeLossy (bs : List UInt8) : String := .ofList ((chars bs).map (·.getD '\uFFFD'))

/-- The bytes of a character. -/
def encodeChar (c : Char) : List UInt8 := String.utf8EncodeChar c

/-- The bytes of a text. -/
def encode (s : String) : List UInt8 := s.toList.flatMap encodeChar

/-- A text without a fault has no replacement characters put in. -/
theorem map_getD_of_mapM {xs : List (Option Char)} {ys : List Char} (h : xs.mapM id = some ys) :
    xs.map (·.getD '\uFFFD') = ys := by
  induction xs generalizing ys with
  | nil => simpa using h
  | cons x xs ih =>
    cases x with
    | none => simp at h
    | some c =>
      simp only [List.mapM_cons, id_eq, Option.bind_eq_bind, Option.bind_some, Option.pure_def,
        Option.bind_eq_some_iff, Option.some.injEq] at h
      obtain ⟨zs, hz, rfl⟩ := h
      simp [ih hz]

/-- Where every byte is well formed the two readings agree. -/
theorem decodeLossy_of_decode? {bs : List UInt8} {s : String} (h : decode? bs = some s) :
    decodeLossy bs = s := by
  obtain ⟨cs, hc, rfl⟩ := Option.map_eq_some_iff.1 h
  rw [decodeLossy, map_getD_of_mapM hc]

end TestImpact.Utf8
