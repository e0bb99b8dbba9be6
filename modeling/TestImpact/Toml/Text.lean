import TestImpact.Text.Hexadecimal

/-!
# Strings and names of a TOML document

The four forms of strings. Basic strings are read between double quotes and have escapes; literal
strings are read between single quotes and have none; either form may be tripled and then holds line
feeds. A carriage return in front of a line feed is dropped.
-/

namespace TestImpact.Toml

/-- Space and tab. -/
def isGap (c : Char) : Bool := c = ' ' || c = '\t'

/-- No control character other than tab. -/
def isPlain (c : Char) : Bool := c = '\t' || (0x20 ≤ c.toNat && c ≠ '\x7f')

/-- The character of the code point with these hexadecimal digits. -/
def codePoint? (digits : List Char) : Option Char := do
  let n ← digits.foldlM (fun n c => (Hexadecimal.value? c).map (n * 16 + ·)) 0
  if h : n.isValidChar then some (Char.ofNatAux n h) else none

/-- The character that a single letter behind a backslash stands for. -/
def escaped? : Char → Option Char
  | 'b' => some '\x08'
  | 't' => some '\t'
  | 'n' => some '\n'
  | 'f' => some '\x0c'
  | 'r' => some '\r'
  | '"' => some '"'
  | '\\' => some '\\'
  | _ => none

/-- Reads the escape behind a backslash. -/
def readEscape : List Char → Option (Char × List Char)
  | 'u' :: r => if r.length < 4 then none else (codePoint? (r.take 4)).map (·, r.drop 4)
  | 'U' :: r => if r.length < 8 then none else (codePoint? (r.take 8)).map (·, r.drop 8)
  | c :: r => (escaped? c).map (·, r)
  | [] => none

/-- What follows an escape is no longer than the text. -/
theorem length_readEscape {cs r : List Char} {c : Char} (h : readEscape cs = some (c, r)) :
    r.length ≤ cs.length := by
  unfold readEscape at h
  split at h
  · split at h
    · cases h
    · obtain ⟨_, _, he⟩ := Option.map_eq_some_iff.1 h
      cases he
      simp
      omega
  · split at h
    · cases h
    · obtain ⟨_, _, he⟩ := Option.map_eq_some_iff.1 h
      cases he
      simp
      omega
  · obtain ⟨_, _, he⟩ := Option.map_eq_some_iff.1 h
    cases he
    simp
  · cases h

/-- Reads the rest of a basic string on one line. -/
def readBasic (cs : List Char) : Option (List Char × List Char) :=
  match cs with
  | [] => none
  | '"' :: r => some ([], r)
  | '\\' :: r =>
    match h : readEscape r with
    | some (c, rest) =>
      have := length_readEscape h
      (readBasic rest).map fun s => (c :: s.1, s.2)
    | none => none
  | c :: r => if isPlain c then (readBasic r).map fun s => (c :: s.1, s.2) else none
termination_by cs.length

/-- Reads the rest of a literal string on one line. -/
def readLiteral : List Char → Option (List Char × List Char)
  | [] => none
  | '\'' :: r => some ([], r)
  | c :: r => if isPlain c then (readLiteral r).map fun s => (c :: s.1, s.2) else none

/-- What follows gaps and line ends. -/
def skipLines : List Char → List Char
  | ' ' :: r | '\t' :: r | '\n' :: r | '\r' :: '\n' :: r => skipLines r
  | r => r

/-- What follows a line end. -/
def afterLineEnd? : List Char → Option (List Char)
  | '\n' :: r | '\r' :: '\n' :: r => some r
  | _ => none

/-- What follows blank lines is no longer than the text. -/
theorem length_skipLines (cs : List Char) : (skipLines cs).length ≤ cs.length := by
  fun_induction skipLines cs <;> simp_all <;> omega

/-- What follows a line end is shorter than the text. -/
theorem length_afterLineEnd? {cs r : List Char} (h : afterLineEnd? cs = some r) :
    r.length < cs.length := by
  unfold afterLineEnd? at h
  split at h <;> cases h <;> simp only [List.length_cons] <;> omega

/-- What follows a backslash at the end of a line: the gaps and line ends up to the next text. -/
def afterContinuation? (cs : List Char) : Option (List Char) :=
  (afterLineEnd? (cs.dropWhile isGap)).map skipLines

/-- What follows a continued line is shorter than the text. -/
theorem length_afterContinuation? {cs r : List Char} (h : afterContinuation? cs = some r) :
    r.length < cs.length := by
  obtain ⟨s, hs, rfl⟩ := Option.map_eq_some_iff.1 h
  have h₁ := length_afterLineEnd? hs
  have h₂ := (List.dropWhile_sublist isGap (l := cs)).length_le
  have h₃ := length_skipLines s
  omega

/-- Reads the rest of a basic string over lines. Up to two quotes in front of the closing ones
belong to the string. -/
def readMultiBasic (cs : List Char) : Option (List Char × List Char) :=
  match cs with
  | [] => none
  | '"' :: '"' :: '"' :: '"' :: '"' :: r => some (['"', '"'], r)
  | '"' :: '"' :: '"' :: '"' :: r => some (['"'], r)
  | '"' :: '"' :: '"' :: r => some ([], r)
  | '\\' :: r =>
    match hc : afterContinuation? r with
    | some rest =>
      have := length_afterContinuation? hc
      readMultiBasic rest
    | none =>
      match h : readEscape r with
      | some (c, rest) =>
        have := length_readEscape h
        (readMultiBasic rest).map fun s => (c :: s.1, s.2)
      | none => none
  | '\r' :: '\n' :: r | '\n' :: r => (readMultiBasic r).map fun s => ('\n' :: s.1, s.2)
  | c :: r => if isPlain c then (readMultiBasic r).map fun s => (c :: s.1, s.2) else none
termination_by cs.length

/-- Reads the rest of a literal string over lines. Up to two quotes in front of the closing ones
belong to the string. -/
def readMultiLiteral : List Char → Option (List Char × List Char)
  | [] => none
  | '\'' :: '\'' :: '\'' :: '\'' :: '\'' :: r => some (['\'', '\''], r)
  | '\'' :: '\'' :: '\'' :: '\'' :: r => some (['\''], r)
  | '\'' :: '\'' :: '\'' :: r => some ([], r)
  | '\r' :: '\n' :: r | '\n' :: r => (readMultiLiteral r).map fun s => ('\n' :: s.1, s.2)
  | c :: r => if isPlain c then (readMultiLiteral r).map fun s => (c :: s.1, s.2) else none

/-- A line end right behind the opening quotes does not belong to the string. -/
def dropFirstLineEnd (cs : List Char) : List Char := (afterLineEnd? cs).getD cs

/-- Reads a string on one line. -/
def readLineString : List Char → Option (List Char × List Char)
  | '"' :: r => readBasic r
  | '\'' :: r => readLiteral r
  | _ => none

/-- Reads a string of any form. -/
def readString : List Char → Option (List Char × List Char)
  | '"' :: '"' :: '"' :: r => readMultiBasic (dropFirstLineEnd r)
  | '\'' :: '\'' :: '\'' :: r => readMultiLiteral (dropFirstLineEnd r)
  | cs => readLineString cs

/-- A character of a name without quotes. -/
def isBare (c : Char) : Bool := c.isAlphanum || c = '_' || c = '-'

/-- Reads one segment of a name. -/
def readSegment (cs : List Char) : Option (String × List Char) :=
  if cs.head?.any fun c => c = '"' || c = '\'' then
    (readLineString cs).map fun s => (.ofList s.1, s.2)
  else if cs.head?.any isBare then some (.ofList (cs.takeWhile isBare), cs.dropWhile isBare)
  else none

end TestImpact.Toml
