import TestImpact.Proofs.Java.Header
import TestImpact.Proofs.Java.Indexed.Declarations

/-!
# Reading package and imports by indices

An index goes from statement to statement. An annotated package statement is read in two steps:
first the index goes behind the annotations, and then to the end of the statement. Main statement:
the header, or the fault, is that of the reader of token lists, and the index is where its rest
starts (`header_agrees`).
-/

namespace TestImpact.Java.Indexed

/-- The text from index `i` up to the next semicolon, and the index behind that. -/
def untilSemicolon (fault : Malformed) (ts : List Token) (i : Nat) : Except Fault (String × Nat) :=
  let j := skipWhile (· ≠ .mark ';') ts i
  if j < ts.length then (slice ts i j).map fun name => (joinTokens name, j + 1)
  else .error (.malformed fault)

/-- The header with the statement whose text starts at index `i`, and the index behind it. -/
def readStatement (ts : List Token) (read : Header) (s : Statement) (i : Nat) :
    Except Fault (Option (Header × Nat)) := do
  let (name, j) ← untilSemicolon s.unterminated ts i
  return some (read.add name s, j)

/-- The header with what the token `t` at index `i` starts, and the index behind that; nothing if
the declarations start there. -/
def headerStep (ts : List Token) (read : Header) (i : Nat) :
    Token → Except Fault (Option (Header × Nat))
  | .mark ';' => .ok (some (read, i + 1))
  | .mark '@' => do
    let rest ← stripModifiers (← sliceFrom ts i)
    if rest.head? = some (.word "package") then return some (read, ← minus ts.length rest.length)
    else return none
  | .word "package" => readStatement ts read .package (i + 1)
  | .word "import" =>
    if ts[i + 1]? = some (.word "static") then readStatement ts read (.importing true) (i + 2)
    else readStatement ts read (.importing false) (i + 1)
  | _ => .ok none

/-- Reads on at index `i` behind the statements of `read`. -/
def headerFrom (ts : List Token) (read : Header) (i : Nat) : Except Fault (Header × Nat) :=
  if h : i < ts.length then
    match headerStep ts read i ts[i] with
    | .error e => .error e
    | .ok none => .ok (read, i)
    | .ok (some (read, j)) => if i < j then headerFrom ts read j else .error .stuck
  else .ok (read, i)
termination_by ts.length - i

/-- The package and the imports of a source, and the index behind them. -/
def header (ts : List Token) : Except Fault (Header × Nat) := headerFrom ts ⟨"", []⟩ 0

section
variable {ts rest r : List Token} {read : Header} {i j : Nat} {s : Statement} {fault : Malformed}

/-- The text of a statement is a range, and the place behind its semicolon comes later. -/
theorem untilSemicolon_agrees (h : At ts i r) :
    Agrees (fun a b => a.1 = b.1 ∧ At ts a.2 b.2 ∧ i < a.2) (untilSemicolon fault ts i)
      ((untilSemicolon? r).elim (.error fault) .ok) := by
  have hend := h.skipWhile (· ≠ .mark ';')
  have hj := skipWhile_at (· ≠ .mark ';') h
  have hsplit : At ts i (r.takeWhile (· ≠ .mark ';') ++ r.dropWhile (· ≠ .mark ';')) := by
    rwa [List.takeWhile_append_dropWhile]
  rw [untilSemicolon, untilSemicolon?]
  cases hd : r.dropWhile (· ≠ .mark ';') with
  | nil =>
    rw [hd] at hend
    rw [if_neg hend.not_lt]
    exact .malformed fault
  | cons t after =>
    rw [hd] at hend
    rw [if_pos hend.lt, hj, hsplit.slice]
    have hlt := Nat.le_add_right i (r.takeWhile (· ≠ .mark ';')).length
    exact .ok ⟨rfl, hj ▸ hend.next, Nat.lt_succ_of_le hlt⟩

/-- The reader of token lists at a statement with a text. -/
theorem headerFrom_of_statement? (hs : statement? rest = some (s, r)) (he : s ≠ .empty) :
    Java.headerFrom read rest =
      (untilSemicolon? r).elim (.error s.unterminated) fun a =>
        Java.headerFrom (read.add a.1 s) a.2 := by
  rw [Java.headerFrom]
  split
  · next h => rw [hs] at h; cases h
  · next h => rw [hs] at h; cases h; exact absurd rfl he
  · next h =>
    rw [hs] at h
    cases h
    split
    · next hu => simp only [hu, Option.elim_none]
    · next hu => simp only [hu, Option.elim_some]

/-- The reader of token lists stops where no statement starts. -/
theorem headerFrom_of_statement?_eq_none (hs : statement? rest = none) :
    Java.headerFrom read rest = .ok (read, rest) :=
  headerFrom_body (startsBody_of_statement? hs)

/-! ## One statement after another -/

/-- Reading goes on where a step leads, if that is later. -/
theorem headerFrom_next {t : Token} {read' : Header} (h : At ts i (t :: r))
    (hs : headerStep ts read i t = .ok (some (read', j))) (hij : i < j) :
    headerFrom ts read i = headerFrom ts read' j := by
  rw [headerFrom, dif_pos h.lt, h.getElem, hs]
  exact if_pos hij

/-- Reading ends where no statement starts. -/
theorem headerFrom_end {t : Token} (h : At ts i (t :: r)) (hs : headerStep ts read i t = .ok none) :
    headerFrom ts read i = .ok (read, i) := by
  rw [headerFrom, dif_pos h.lt, h.getElem, hs]

/-- A fault of a step is the fault of the reading. -/
theorem headerFrom_fault {t : Token} {e : Fault} (h : At ts i (t :: r))
    (hs : headerStep ts read i t = .error e) : headerFrom ts read i = .error e := by
  rw [headerFrom, dif_pos h.lt, h.getElem, hs]

/-- A header and the place behind it. -/
def SameHeader (ts : List Token) (a : Header × Nat) (b : Header × List Token) : Prop :=
  a.1 = b.1 ∧ At ts a.2 b.2

/-- A statement with a text is read by indices as from the list, if what follows it is. -/
theorem readStatement_agrees {t : Token} (h : At ts i (t :: rest)) (hij : i < j) (hr : At ts j r)
    (hs : statement? (t :: rest) = some (s, r)) (he : s ≠ .empty)
    (hstep : headerStep ts read i t = readStatement ts read s j)
    (ih : ∀ {read k after}, after.length < (t :: rest).length → At ts k after →
      Agrees (SameHeader ts) (headerFrom ts read k) (Java.headerFrom read after)) :
    Agrees (SameHeader ts) (headerFrom ts read i) (Java.headerFrom read (t :: rest)) := by
  have hu : Agrees _ (untilSemicolon s.unterminated ts j) _ := untilSemicolon_agrees hr
  rw [headerFrom_of_statement? hs he]
  rw [readStatement] at hstep
  generalize untilSemicolon s.unterminated ts j = x at hu hstep
  cases ht : untilSemicolon? r with
  | none =>
    rw [ht] at hu
    cases hu
    rw [headerFrom_fault h hstep]
    exact .malformed _
  | some a =>
    rw [ht] at hu
    cases hu with
    | ok hab =>
      obtain ⟨hname, hafter, hlt⟩ := hab
      rw [headerFrom_next h hstep (by omega), hname]
      refine ih ?_ hafter
      have hl := h.length
      have hl' := hafter.length
      omega

/-- An import, static or not, is read by indices as from the list, if what follows it is. -/
theorem import_agrees (h : At ts i (.word "import" :: rest))
    (ih : ∀ {read k after}, after.length < (.word "import" :: rest).length → At ts k after →
      Agrees (SameHeader ts) (headerFrom ts read k) (Java.headerFrom read after)) :
    Agrees (SameHeader ts) (headerFrom ts read i)
      (Java.headerFrom read (.word "import" :: rest)) := by
  have hlook : ts[i + 1]? = rest.head? := h.next.get?
  by_cases hstatic : rest.head? = some (.word "static")
  · obtain ⟨r, rfl⟩ := List.head?_eq_some_iff.1 hstatic
    have hstep : headerStep ts read i (.word "import") =
        readStatement ts read (.importing true) (i + 2) := if_pos hlook
    exact readStatement_agrees h (by omega) h.next.next rfl nofun hstep ih
  · have hs : statement? (.word "import" :: rest) = some (.importing false, rest) :=
      statement?_import false fun _ => hstatic
    have hstep : headerStep ts read i (.word "import") =
        readStatement ts read (.importing false) (i + 1) := if_neg (hlook ▸ hstatic)
    exact readStatement_agrees h (by omega) h.next hs nofun hstep ih

/-- Behind annotations the package statement is read like one without. -/
theorem annotated_agrees (h : At ts i (.mark '@' :: rest))
    (ih : ∀ {read k after}, after.length < (.mark '@' :: rest).length → At ts k after →
      Agrees (SameHeader ts) (headerFrom ts read k) (Java.headerFrom read after)) :
    Agrees (SameHeader ts) (headerFrom ts read i)
      (Java.headerFrom read (.mark '@' :: rest)) := by
  have hsuffix := dropModifiers_suffix (.mark '@' :: rest)
  have hstep : headerStep ts read i (.mark '@') =
      if (dropModifiers (.mark '@' :: rest)).head? = some (.word "package") then
        (minus ts.length (dropModifiers (.mark '@' :: rest)).length).map fun j => some (read, j)
      else .ok none := by
    simp only [headerStep, h.sliceFrom, bind, Except.bind, stripModifiers_eq]
    rfl
  by_cases hp : (dropModifiers (.mark '@' :: rest)).head? = some (.word "package")
  · obtain ⟨r, hr⟩ := List.head?_eq_some_iff.1 hp
    rw [hr] at hsuffix hstep
    have hlt : (Token.word "package" :: r).length < (.mark '@' :: rest : List Token).length := by
      refine Nat.lt_of_le_of_ne hsuffix.length_le fun hl => ?_
      cases hsuffix.eq_of_length hl
    have hl := h.length
    have hj : At ts (ts.length - (Token.word "package" :: r).length) (.word "package" :: r) :=
      At.of_suffix (hsuffix.trans h.suffix)
    have hmodel : Java.headerFrom read (.mark '@' :: rest) =
        Java.headerFrom read (.word "package" :: r) := by
      rw [headerFrom_of_statement? (statement?_of_startsPackage (.inr ⟨rfl, hr⟩)) (by simp),
        headerFrom_of_statement? (statement?_of_startsPackage (.inl rfl)) (by simp)]
    rw [if_pos (List.head?_cons ..), minus, if_pos (by omega)] at hstep
    rw [headerFrom_next h hstep (by omega), hmodel]
    exact ih hlt hj
  · have hs : statement? (.mark '@' :: rest) = none := by
      rw [statement?]
      split
      · next r hr => exact absurd (by rw [hr]; rfl) hp
      · rfl
    rw [headerFrom_end h (hstep.trans (if_neg hp)), headerFrom_of_statement?_eq_none hs]
    exact .ok ⟨rfl, h⟩

/-- The index goes from statement to statement. -/
theorem headerFrom_agrees (h : At ts i rest) :
    Agrees (SameHeader ts) (headerFrom ts read i) (Java.headerFrom read rest) := by
  induction hn : rest.length using Nat.strongRecOn generalizing read i rest with
  | ind n ih =>
    cases rest with
    | nil =>
      rw [headerFrom, dif_neg h.not_lt, headerFrom_of_statement?_eq_none rfl]
      exact .ok ⟨rfl, h⟩
    | cons t rest =>
      have ih' : ∀ {read k after}, after.length < (t :: rest).length → At ts k after →
          Agrees (SameHeader ts) (headerFrom ts read k) (Java.headerFrom read after) :=
        fun hl ha => ih _ (hn ▸ hl) ha rfl
      by_cases hsemi : t = .mark ';'
      · subst hsemi
        rw [headerFrom_next h rfl (Nat.lt_succ_self i), headerFrom_semicolon]
        exact ih' (Nat.lt_succ_self _) h.next
      by_cases hat : t = .mark '@'
      · subst hat
        exact annotated_agrees h ih'
      by_cases hpackage : t = .word "package"
      · subst hpackage
        exact readStatement_agrees h (Nat.lt_succ_self i) h.next rfl nofun rfl ih'
      by_cases himport : t = .word "import"
      · subst himport
        exact import_agrees h ih'
      have hstep : headerStep ts read i t = .ok none := by
        unfold headerStep
        split <;> simp_all
      have hs : statement? (t :: rest) = none := by
        unfold statement?
        split <;> simp_all
      rw [headerFrom_end h hstep, headerFrom_of_statement?_eq_none hs]
      exact .ok ⟨rfl, h⟩

/-- The header is read by indices as from the list, up to the place behind it. -/
theorem header_agrees (ts : List Token) :
    Agrees (SameHeader ts) (header ts) (Java.header ts) :=
  headerFrom_agrees (at_zero ts)

end

end TestImpact.Java.Indexed
