import TestImpact.Toml.Table
import TestImpact.Toml.Text

/-!
# Numbers, dates and times of a TOML document

Integers have 64 bits. A float is only told apart, and is refused if it is too large for a double.
Dates and times are checked and put into standard form.
-/

namespace TestImpact.Toml

/-! ## Integers -/

/-- Reads on a run of digits, in which single underscores may stand between digits. -/
def readDigits (isDigit : Char → Bool) : List Char → List Char × List Char
  | [] => ([], [])
  | '_' :: c :: r =>
    if isDigit c then
      let s := readDigits isDigit r
      (c :: s.1, s.2)
    else ([], '_' :: c :: r)
  | c :: r =>
    if isDigit c then
      let s := readDigits isDigit r
      (c :: s.1, s.2)
    else ([], c :: r)

/-- Reads a run of digits that starts with a digit. -/
def readDigits? (isDigit : Char → Bool) : List Char → Option (List Char × List Char)
  | c :: r =>
    if isDigit c then
      let s := readDigits isDigit r
      some (c :: s.1, s.2)
    else none
  | [] => none

/-- The number with these digits. -/
def ofDigits (base : Nat) (digits : List Char) : Nat :=
  digits.foldl (fun n c => n * base + (Hexadecimal.value? c).getD 0) 0

/-- Reads a sign: whether it is a minus, and what follows. -/
def readSign : List Char → Bool × List Char
  | '-' :: r => (true, r)
  | '+' :: r => (false, r)
  | r => (false, r)

/-- Reads the digits of a decimal number, which has no leading zero unless it is zero. -/
def readDecimal? : List Char → Option (List Char × List Char)
  | '0' :: r => some (['0'], r)
  | cs => readDigits? Char.isDigit cs

/-- An integer of 64 bits. -/
def int64? (n : Int) : Option Value :=
  if -0x8000000000000000 ≤ n ∧ n < 0x8000000000000000 then some (.integer n) else none

/-- Reads an integer in another base behind its mark. -/
def readBased? (base : Nat) (isDigit : Char → Bool) (cs : List Char) :
    Option (Value × List Char) := do
  let (digits, rest) ← readDigits? isDigit cs
  return (← int64? (ofDigits base digits), rest)

/-- Reads an integer. -/
def readInteger? : List Char → Option (Value × List Char)
  | '0' :: 'x' :: r => readBased? 16 (fun c => (Hexadecimal.value? c).isSome) r
  | '0' :: 'o' :: r => readBased? 8 (fun c => '0' ≤ c && c ≤ '7') r
  | '0' :: 'b' :: r => readBased? 2 (fun c => c = '0' || c = '1') r
  | cs => do
    let (negative, r) := readSign cs
    let (digits, rest) ← readDecimal? r
    let n : Int := ofDigits 10 digits
    return (← int64? (if negative then -n else n), rest)

/-! ## Floats -/

/-- The number `digits · 10 ^ exponent` is rounded to infinity as a double: it is at least half a
step above the greatest one. -/
def overflowsDouble (digits : List Char) (exponent : Int) : Bool :=
  let significant := digits.dropWhile (· = '0')
  let magnitude : Int := significant.length + exponent
  if significant.isEmpty || magnitude < 300 then false
  else if 320 < magnitude then true
  else
    let n := ofDigits 10 significant
    let limit := (1 <<< 1024) - (1 <<< 970)
    if 0 ≤ exponent then limit ≤ n * Nat.pow 10 exponent.toNat
    else limit * Nat.pow 10 (-exponent).toNat ≤ n

/-- Reads the exponent of a float. -/
def readExponent? : List Char → Option (Int × List Char)
  | c :: r =>
    if c = 'e' ∨ c = 'E' then do
      let (negative, r) := readSign r
      let (digits, rest) ← readDigits? Char.isDigit r
      let n : Int := ofDigits 10 digits
      return (if negative then -n else n, rest)
    else none
  | [] => none

/-- Reads a float written with digits. A number too large is refused, unless it is negative. -/
def readDecimalFloat? (cs : List Char) : Option (Value × List Char) := do
  let (negative, r) := readSign cs
  let (whole, r) ← readDecimal? r
  let (fraction, exponent, rest) ← (match r with
    | '.' :: r => do
      let (fraction, r) ← readDigits? Char.isDigit r
      let (exponent, rest) := (readExponent? r).getD (0, r)
      return (fraction, exponent, rest)
    | r => do
      let (exponent, rest) ← readExponent? r
      return ([], exponent, rest) : Option (List Char × Int × List Char))
  if !negative && overflowsDouble (whole ++ fraction) (exponent - fraction.length) then none
  else return (.float, rest)

/-- Reads infinity or no number. -/
def readSpecialFloat? (cs : List Char) : Option (Value × List Char) :=
  match (readSign cs).2 with
  | 'i' :: 'n' :: 'f' :: r | 'n' :: 'a' :: 'n' :: r => some (.float, r)
  | _ => none

/-! ## Dates and times -/

/-- Reads a number of `n` digits between two bounds. -/
def readFixed? (n lo hi : Nat) (cs : List Char) : Option (Nat × List Char) :=
  let digits := cs.take n
  let value := ofDigits 10 digits
  if digits.length = n ∧ digits.all Char.isDigit ∧ lo ≤ value ∧ value ≤ hi then
    some (value, cs.drop n)
  else none

/-- Reads one given character. -/
def readMark? (c : Char) : List Char → Option (List Char)
  | d :: r => if d = c then some r else none
  | [] => none

/-- The number with at least `n` digits. -/
def padded (n value : Nat) : String :=
  let digits := Nat.toDigits 10 value
  .ofList (List.replicate (n - digits.length) '0' ++ digits)

/-- The days of a month. -/
def daysIn (year month : Nat) : Nat :=
  if month = 2 then if year % 4 = 0 ∧ (year % 100 ≠ 0 ∨ year % 400 = 0) then 29 else 28
  else if month = 4 ∨ month = 6 ∨ month = 9 ∨ month = 11 then 30
  else 31

/-- Reads a date. -/
def readDate? (cs : List Char) : Option (String × List Char) := do
  let (year, r) ← readFixed? 4 0 9999 cs
  let (month, r) ← readFixed? 2 1 12 (← readMark? '-' r)
  let (day, r) ← readFixed? 2 1 31 (← readMark? '-' r)
  if daysIn year month < day then none
  else return (padded 4 year ++ "-" ++ padded 2 month ++ "-" ++ padded 2 day, r)

/-- The text of a fraction of a second, of which nine digits count. -/
def fractionText (digits : List Char) : String :=
  match ((digits.take 9).reverse.dropWhile (· = '0')).reverse with
  | [] => ""
  | ds => .ofList ('.' :: ds)

/-- Reads a time of day. -/
def readTime? (cs : List Char) : Option (String × List Char) := do
  let (hour, r) ← readFixed? 2 0 23 cs
  let (minute, r) ← readFixed? 2 0 59 (← readMark? ':' r)
  let (second, r) ← readFixed? 2 0 60 (← readMark? ':' r)
  let text := padded 2 hour ++ ":" ++ padded 2 minute ++ ":" ++ padded 2 second
  match r with
  | '.' :: c :: more =>
    if c.isDigit then
      return (text ++ fractionText (c :: more.takeWhile Char.isDigit), more.dropWhile Char.isDigit)
    else return (text, r)
  | _ => return (text, r)

/-- Reads a distance from universal time. -/
def readOffset? : List Char → Option (String × List Char)
  | c :: r =>
    if c = 'Z' ∨ c = 'z' then some ("Z", r)
    else if c = '+' ∨ c = '-' then do
      let (hour, r) ← readFixed? 2 0 23 r
      let (minute, r) ← readFixed? 2 0 59 (← readMark? ':' r)
      let sign := if c = '-' ∧ (hour ≠ 0 ∨ minute ≠ 0) then "-" else "+"
      return (sign ++ padded 2 hour ++ ":" ++ padded 2 minute, r)
    else none
  | [] => none

/-- Reads the time behind a date. -/
def readTimeBehindDate? : List Char → Option (String × List Char)
  | c :: r =>
    if c = 'T' ∨ c = 't' ∨ c = ' ' then do
      let (time, r) ← readTime? r
      let (offset, r) := (readOffset? r).getD ("", r)
      return ("T" ++ time ++ offset, r)
    else none
  | [] => none

/-- Reads a date, a time or both. -/
def readDateTime? (cs : List Char) : Option (Value × List Char) :=
  match readDate? cs with
  | some (date, r) =>
    let (time, rest) := (readTimeBehindDate? r).getD ("", r)
    some (.dateTime (date ++ time), rest)
  | none => (readTime? cs).map fun (time, r) => (.dateTime time, r)

/-- Reads a number, a date or a time. -/
def readNumber? (cs : List Char) : Option (Value × List Char) :=
  readDateTime? cs <|> readDecimalFloat? cs <|> readSpecialFloat? cs <|> readInteger? cs

end TestImpact.Toml
