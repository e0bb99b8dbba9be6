import TestImpact.Proofs.Java.Indexed.Places
import TestImpact.Proofs.Java.Literals
import TestImpact.Proofs.Java.TokenText

/-!
# Reading tokens by byte offsets

The scanner goes over the bytes of a text and takes words and looks ahead by slices of the text at
byte offsets. A backslash in a literal takes one byte along, which may be the first one of several
or lie behind the end. Main statement: every slice starts and ends between two characters, every
step goes on, and the tokens or the fault are those of the reader of characters (`tokens_agrees`).
-/

namespace TestImpact.Java.Indexed

/-! ## The scanner -/

/-- The index behind a number. -/
def skipNumber (bytes : List Char) (i : Nat) : Nat :=
  if h : i < bytes.length then
    if bytes[i].isAlphanum || bytes[i] = '_' ||
        bytes[i] = '.' && bytes[i + 1]?.any Char.isDigit then
      skipNumber bytes (i + 1)
    else i
  else i
termination_by bytes.length - i

/-- The index behind the closing quote `q` of a literal on one line. -/
def skipQuoted (fault : Malformed) (q : Char) (bytes : List Char) (i : Nat) : Except Fault Nat :=
  if h : i < bytes.length then
    if bytes[i] = '\\' then skipQuoted fault q bytes (i + 2)
    else if bytes[i] = '\n' then .error (.malformed fault)
    else if bytes[i] = q then .ok (i + 1)
    else skipQuoted fault q bytes (i + 1)
  else .error (.malformed fault)
termination_by bytes.length - i

/-- The index behind the three quotes that close a text block. -/
def skipTextBlock (bytes : List Char) (i : Nat) : Except Fault Nat :=
  if h : i < bytes.length then
    if bytes[i] = '\\' then skipTextBlock bytes (i + 2)
    else
      match sliceFrom bytes i with
      | .error e => .error e
      | .ok rest =>
        if ['"', '"', '"'] <+: rest then .ok (i + 3) else skipTextBlock bytes (i + 1)
  else .error (.malformed .unterminatedTextBlock)
termination_by bytes.length - i

/-- The byte offset of the first `*/` in a text. -/
def findCommentEnd : List Char → Option Nat
  | [] => none
  | '*' :: '/' :: _ => some 0
  | c :: r => (findCommentEnd r).map (c.utf8Size + ·)

/-- The offset behind a block comment whose content starts at `i`. -/
def skipBlockComment (text : List Char) (i : Nat) : Except Fault Nat := do
  let rest ← textFrom text i
  (findCommentEnd rest).elim (.error (.malformed .unterminatedBlockComment)) (.ok <| i + · + 2)

/-- The word from `i` up to `j`, and the offset behind it. -/
def wordAt (text : List Char) (i j : Nat) : Except Fault (Option Token × Nat) := do
  return (some (.word (.ofList (← textSlice text i j))), j)

/-- Reads one blank, comment or token at offset `i`, where the byte `c` is, and gives the offset
behind it. -/
def tokenAt (text : List Char) (i : Nat) (c : Char) : Except Fault (Option Token × Nat) :=
  let bytes := codes text
  if isSpace c then .ok (none, i + 1)
  else if c = '/' ∧ bytes[i + 1]? = some '/' then .ok (none, skipWhile (· ≠ '\n') bytes i)
  else if c = '/' ∧ bytes[i + 1]? = some '*' then
    (skipBlockComment text (i + 2)).map (none, ·)
  else do
    if ['"', '"', '"'] <+: (← textFrom text i) then
      (skipTextBlock bytes (i + 3)).map (some .literal, ·)
    else if c = '"' then
      (skipQuoted .unterminatedString '"' bytes (i + 1)).map (some .literal, ·)
    else if c = '\'' then
      (skipQuoted .unterminatedChar '\'' bytes (i + 1)).map (some .literal, ·)
    else if c.isDigit then .ok (some .literal, skipNumber bytes i)
    else if isWordStart c then wordAt text i (skipWhile isWordPart bytes i)
    else if ['.', '.', '.'] <+: (← textFrom text i) then .ok (some .ellipsis, i + 3)
    else if c = ':' ∧ bytes[i + 1]? = some ':' then .ok (some .doubleColon, i + 2)
    else .ok (some (.mark c), i + 1)

/-- The tokens from offset `i` on. -/
def tokensFrom (text : List Char) (i : Nat) : Except Fault (List Token) :=
  if h : i < (codes text).length then
    match tokenAt text i (codes text)[i] with
    | .error e => .error e
    | .ok (t, j) => if i < j then (tokensFrom text j).map (t.toList ++ ·) else .error .stuck
  else .ok []
termination_by (codes text).length - i

/-- The tokens of a text, read from its first byte on. -/
def tokens (text : String) : Except Fault (List Token) := tokensFrom text.toList 0

section
variable {p : Char → Bool} {c d q : Char} {text bytes piece rest r ds : List Char} {i j : Nat}
  {fault : Malformed}

/-! ## Runs of bytes -/

/-- A run of characters is a run of bytes. -/
theorem skipWhile_text (hp : Uniform p) (h : TextAt text i r) :
    skipWhile p (codes text) i = i + (codes (r.takeWhile p)).length := by
  have hr : TextAt text i (r.takeWhile p ++ r.dropWhile p) := by
    rwa [List.takeWhile_append_dropWhile]
  have ha := hr.at
  rw [codes_append] at ha
  refine skipWhile_eq ha ?_ ?_
  · intro d hd
    obtain ⟨c, hc, hd⟩ := List.mem_flatMap.1 hd
    rw [hp.codesOf hd]
    exact List.all_eq_true.1 List.all_takeWhile c hc
  · rw [← hr.append.at.get?, hr.append.any_get? hp]
    exact head?_dropWhile p r

/-- What follows a run of characters. -/
theorem TextAt.skipWhile (hp : Uniform p) (h : TextAt text i r) :
    TextAt text (skipWhile p (codes text) i) (r.dropWhile p) := by
  rw [skipWhile_text hp h]
  exact TextAt.append (by rwa [List.takeWhile_append_dropWhile])

/-- Digits are ASCII. -/
theorem lt_of_isDigit (h : c.isDigit = true) : c.toNat < 0x80 := by
  have hd := toNat_of_isDigit h
  omega

/-- A byte is a digit exactly if its character is. -/
theorem uniform_isDigit : Uniform Char.isDigit := uniform_of_false fun _ => lt_of_isDigit

/-- Letters and digits are ASCII. -/
theorem lt_of_isAlphanum (h : c.isAlphanum = true) : c.toNat < 0x80 := by
  rcases Bool.or_eq_true_iff.1 h with ha | hd
  · have hl := toNat_of_isAlpha ha
    omega
  · exact lt_of_isDigit hd

/-- No character beyond ASCII belongs to a number. -/
theorem numberPart_beyond (hc : 0x80 ≤ c.toNat) (b : Bool) :
    (c.isAlphanum || c = '_' || c = '.' && b) = false := by
  have ha : c.isAlphanum = false := Bool.eq_false_iff.2 fun h => by
    have hl := lt_of_isAlphanum h
    omega
  have hu : c ≠ '_' := by
    rintro rfl
    exact absurd hc (by decide)
  have hd : c ≠ '.' := by
    rintro rfl
    exact absurd hc (by decide)
  simp [ha, hu, hd]

/-- The bytes tell whether a number goes on. -/
theorem numberPart_eq (h : TextAt text i (c :: r)) (hi : i < (codes text).length) :
    ((codes text)[i].isAlphanum || (codes text)[i] = '_' ||
        (codes text)[i] = '.' && (codes text)[i + 1]?.any Char.isDigit) =
      (c.isAlphanum || c = '_' || c = '.' && r.head?.any Char.isDigit) := by
  by_cases hc : c.toNat < 0x80
  · rw [h.getElem hc hi, (h.next hc).any_get? uniform_isDigit]
  · have hb := Nat.le_of_not_lt hc
    rw [numberPart_beyond hb, numberPart_beyond (le_of_mem_codesOf hb (h.getElem_mem hi))]

/-- Behind a number stands what follows it. -/
theorem TextAt.skipNumber (h : TextAt text i r) :
    TextAt text (skipNumber (codes text) i) (afterNumber r) := by
  fun_induction afterNumber r generalizing i with
  | case1 =>
    rw [Indexed.skipNumber, dif_neg h.at.not_lt]
    exact h
  | case2 c r hc ih =>
    have hascii : c.toNat < 0x80 := by
      refine Nat.lt_of_not_le fun hb => ?_
      rw [numberPart_beyond hb] at hc
      cases hc
    rw [Indexed.skipNumber, dif_pos h.lt, numberPart_eq h, if_pos hc]
    exact ih (h.next hascii)
  | case3 c r hc =>
    rw [Indexed.skipNumber, dif_pos h.lt, numberPart_eq h, if_neg hc]
    exact h

/-! ## Literals and comments -/

/-- A scanner that passes the bytes beyond ASCII passes a run of them. -/
theorem behind_bytes {β : Type} {f : Nat → β} (h : At bytes i (ds ++ rest))
    (hd : ∀ d ∈ ds, 0x80 ≤ d.toNat)
    (hf : ∀ j d, bytes[j]? = some d → 0x80 ≤ d.toNat → f j = f (j + 1)) :
    f i = f (i + ds.length) := by
  induction ds generalizing i with
  | nil => rfl
  | cons d ds ih =>
    obtain ⟨hb, hd⟩ := List.forall_mem_cons.1 hd
    rw [hf i d h.get? hb, ih h.next hd, List.length_cons, Nat.add_assoc, Nat.add_comm 1]

/-- A scanner that passes the bytes beyond ASCII goes from behind the first byte of a character to
the next character. -/
theorem TextAt.behind {β : Type} {f : Nat → β} (h : TextAt text i (c :: r))
    (hf : ∀ j d, (codes text)[j]? = some d → 0x80 ≤ d.toNat → f j = f (j + 1)) :
    f (i + 1) = f (i + (codes [c]).length) := by
  rw [codes, List.flatMap_singleton]
  by_cases hc : c.toNat < 0x80
  · rw [codesOf_ascii hc]
    rfl
  · obtain ⟨d, ds, hd⟩ := exists_codesOf c
    have ha := h.at
    rw [codes_cons, hd] at ha
    have hds : ∀ e ∈ ds, 0x80 ≤ e.toNat := fun e he =>
      le_of_mem_codesOf (Nat.le_of_not_lt hc) (hd ▸ List.mem_cons_of_mem d he)
    rw [behind_bytes ha.next hds hf, hd, List.length_cons, Nat.add_assoc, Nat.add_comm 1]

/-- The scanner of a quoted literal passes the bytes beyond ASCII. -/
theorem skipQuoted_pass (hq : q.toNat < 0x80) (hi : bytes[i]? = some d) (hd : 0x80 ≤ d.toNat) :
    skipQuoted fault q bytes i = skipQuoted fault q bytes (i + 1) := by
  obtain ⟨hlt, hget⟩ := List.getElem?_eq_some_iff.1 hi
  have hne : ∀ x : Char, x.toNat < 0x80 → ¬bytes[i] = x := by
    rintro x hx rfl
    rw [hget] at hx
    omega
  rw [skipQuoted, dif_pos hlt, if_neg (hne _ (by decide)), if_neg (hne _ (by decide)),
    if_neg (hne _ hq)]

/-- A backslash takes the character behind it along, since the other bytes of that are passed. -/
theorem skipQuoted_agrees (hq : q.toNat < 0x80) (h : TextAt text i r) :
    Agrees (TextAt text) (skipQuoted fault q (codes text) i)
      ((afterQuote? q r).elim (.error fault) .ok) := by
  have hpass : ∀ j d, (codes text)[j]? = some d → 0x80 ≤ d.toNat →
      skipQuoted fault q (codes text) j = skipQuoted fault q (codes text) (j + 1) :=
    fun _ _ => skipQuoted_pass hq
  fun_induction afterQuote? q r generalizing i with
  | case1 =>
    rw [skipQuoted, dif_neg h.at.not_lt]
    exact .malformed fault
  | case2 =>
    have hnext := (h.next (by decide)).at.not_lt
    rw [skipQuoted, dif_pos h.lt, h.getElem (by decide), if_pos rfl, skipQuoted, dif_neg (by omega)]
    exact .malformed fault
  | case3 c r ih =>
    have hc := h.next (by decide)
    rw [skipQuoted, dif_pos h.lt, h.getElem (by decide), if_pos rfl, hc.behind hpass]
    exact ih hc.append_one
  | case4 =>
    rw [skipQuoted, dif_pos h.lt, h.getElem (by decide), if_neg (by decide), if_pos rfl]
    exact .malformed fault
  | case5 r h₁ h₂ hl =>
    rw [skipQuoted, dif_pos h.lt, h.getElem hq, if_neg (ne_backslash h₁ h₂), if_neg hl, if_pos rfl]
    exact .ok (h.next hq)
  | case6 c r h₁ h₂ hl hc ih =>
    rw [skipQuoted, dif_pos h.lt, if_neg (h.getElem_ne (by decide) (ne_backslash h₁ h₂) h.lt),
      if_neg (h.getElem_ne (by decide) hl h.lt), if_neg (h.getElem_ne hq hc h.lt), h.behind hpass]
    exact ih (h.append_one)

/-- The scanner of a text block passes the bytes beyond ASCII. -/
theorem skipTextBlock_pass (hi : bytes[i]? = some d) (hd : 0x80 ≤ d.toNat) :
    skipTextBlock bytes i = skipTextBlock bytes (i + 1) := by
  obtain ⟨hlt, hget⟩ := List.getElem?_eq_some_iff.1 hi
  have hne : ∀ x : Char, x.toNat < 0x80 → d ≠ x := by
    rintro x hx rfl
    omega
  have hdrop : bytes.drop i = d :: bytes.drop (i + 1) := by rw [List.drop_eq_getElem_cons hlt, hget]
  have hquotes : ¬['"', '"', '"'] <+: bytes.drop i := by
    rw [hdrop, List.cons_prefix_cons]
    exact fun h => hne '"' (by decide) h.1.symm
  rw [skipTextBlock, dif_pos hlt, hget, if_neg (hne _ (by decide)), sliceFrom,
    if_pos (Nat.le_of_lt hlt)]
  exact if_neg hquotes

/-- A text block ends behind its closing quotes, or it is not terminated. -/
theorem skipTextBlock_agrees (h : TextAt text i r) :
    Agrees (TextAt text) (skipTextBlock (codes text) i)
      ((afterTextBlock? r).elim (.error .unterminatedTextBlock) .ok) := by
  have hpass : ∀ j d, (codes text)[j]? = some d → 0x80 ≤ d.toNat →
      skipTextBlock (codes text) j = skipTextBlock (codes text) (j + 1) :=
    fun _ _ => skipTextBlock_pass
  have hquotes : ∀ s, ['"', '"', '"'] <+: codes s ↔ ['"', '"', '"'] <+: s :=
    fun s => prefix_codes (by simp)
  fun_induction afterTextBlock? r generalizing i with
  | case1 =>
    rw [skipTextBlock, dif_neg h.at.not_lt]
    exact .malformed _
  | case2 =>
    have hnext := (h.next (by decide)).at.not_lt
    rw [skipTextBlock, dif_pos h.lt, h.getElem (by decide), if_pos rfl, skipTextBlock,
      dif_neg (by omega)]
    exact .malformed _
  | case3 c r ih =>
    have hc := h.next (by decide)
    rw [skipTextBlock, dif_pos h.lt, h.getElem (by decide), if_pos rfl, hc.behind hpass]
    exact ih hc.append_one
  | case4 r =>
    have hyes : ['"', '"', '"'] <+: codes ('"' :: '"' :: '"' :: r) := (hquotes _).2 ⟨r, rfl⟩
    rw [skipTextBlock, dif_pos h.lt, h.getElem (by decide), if_neg (by decide), h.at.sliceFrom]
    dsimp only
    rw [if_pos hyes]
    exact .ok (((h.next (by decide)).next (by decide)).next (by decide))
  | case5 c r h₁ h₂ h₃ ih =>
    have hnot : ¬['"', '"', '"'] <+: codes (c :: r) := by
      rw [hquotes, List.cons_prefix_cons]
      rintro ⟨he, s, rfl⟩
      exact h₃ s he.symm rfl
    rw [skipTextBlock, dif_pos h.lt, if_neg (h.getElem_ne (by decide) (ne_backslash h₁ h₂) h.lt),
      h.at.sliceFrom]
    dsimp only
    rw [if_neg hnot, h.behind hpass]
    exact ih h.append_one

/-- The search for the end of a comment leads behind it, if there is one. -/
theorem findCommentEnd_agrees (h : TextAt text i r) :
    Agrees (TextAt text)
      ((findCommentEnd r).elim (.error (.malformed .unterminatedBlockComment)) (.ok <| i + · + 2))
      ((afterBlockComment? r).elim (.error .unterminatedBlockComment) .ok) := by
  fun_induction afterBlockComment? r generalizing i with
  | case1 => exact .malformed _
  | case2 r => exact .ok ((h.next (by decide)).next (by decide))
  | case3 c r hne ih =>
    have hlen : (codes [c]).length = c.utf8Size := by
      rw [codes, List.flatMap_singleton, length_codesOf]
    have hsum : ∀ n, i + (c.utf8Size + n) + 2 = i + c.utf8Size + n + 2 := by
      intro n
      omega
    have ha := ih h.append_one
    rw [hlen] at ha
    rw [findCommentEnd.eq_3 _ _ hne, Option.elim_map]
    simpa only [Function.comp_def, hsum] using ha

/-- A block comment ends behind its end mark, or it is not terminated. -/
theorem skipBlockComment_agrees (h : TextAt text i r) :
    Agrees (TextAt text) (skipBlockComment text i)
      ((afterBlockComment? r).elim (.error .unterminatedBlockComment) .ok) := by
  rw [skipBlockComment, h.textFrom]
  exact findCommentEnd_agrees h

/-- Spaces are ASCII. -/
theorem lt_of_isSpace (h : isSpace c = true) : c.toNat < 0x80 := by
  simp only [isSpace, Bool.or_eq_true, decide_eq_true_eq] at h
  rcases h with (((rfl | rfl) | rfl) | rfl) | rfl
  all_goals decide

/-- A byte is a space exactly if its character is. -/
theorem uniform_isSpace : Uniform isSpace := uniform_of_false fun _ => lt_of_isSpace

/-- A byte differs from an ASCII character exactly if its character does. -/
theorem uniform_ne (hq : q.toNat < 0x80) : Uniform (· ≠ q) := by
  intro c d hc hd
  have hne : ∀ e : Char, 0x80 ≤ e.toNat → e ≠ q := by
    rintro e he rfl
    exact Nat.not_lt.2 he hq
  exact (decide_eq_true (hne c hc)).trans (decide_eq_true (hne d hd)).symm

/-- Every character beyond ASCII may start a word. -/
theorem isWordStart_beyond (hc : 0x80 ≤ c.toNat) : isWordStart c = true := by
  rw [isWordStart, decide_eq_true hc, Bool.or_true]

/-- A byte may start a word exactly if its character may. -/
theorem uniform_isWordStart : Uniform isWordStart := by
  intro c d hc hd
  rw [isWordStart_beyond hc, isWordStart_beyond hd]

/-- A word may go on with a byte exactly if it may with its character. -/
theorem uniform_isWordPart : Uniform isWordPart := by
  intro c d hc hd
  rw [isWordPart, isWordPart, decide_eq_true hc, decide_eq_true hd, Bool.or_true, Bool.or_true]

/-- A word is cut out between two characters. -/
theorem wordAt_agrees (h : TextAt text i (c :: r)) (hc : isWordStart c = true) :
    Agrees (fun a b => a.1 = b.1 ∧ TextAt text a.2 b.2)
      (wordAt text i (skipWhile isWordPart (codes text) i))
      (.ok (some (.word (.ofList (c :: r.takeWhile isWordPart))), r.dropWhile isWordPart)) := by
  have hc := isWordPart_of_isWordStart hc
  have hend := h.skipWhile uniform_isWordPart
  rw [List.dropWhile_cons_of_pos hc] at hend
  have hpiece : TextAt text i ((c :: r.takeWhile isWordPart) ++ r.dropWhile isWordPart) := by
    rwa [List.cons_append, List.takeWhile_append_dropWhile]
  have hslice : textSlice text i (skipWhile isWordPart (codes text) i) =
      .ok (c :: r.takeWhile isWordPart) := by
    rw [skipWhile_text uniform_isWordPart h, List.takeWhile_cons_of_pos hc]
    exact hpiece.textSlice
  rw [wordAt, hslice]
  exact .ok ⟨rfl, hend⟩

/-! ## The tokens of a text -/

/-- A reading that is compared with an optional rest ends where the rest starts, or there is
none. -/
theorem ends_or_fails {x : Except Fault Nat} {o : Option (List Char)}
    (hx : Agrees (TextAt text) x (o.elim (.error fault) .ok)) :
    (x = .error (.malformed fault) ∧ o = none) ∨
      ∃ j rest, x = .ok j ∧ o = some rest ∧ TextAt text j rest := by
  cases o with
  | none =>
    cases hx
    exact .inl ⟨rfl, rfl⟩
  | some rest =>
    cases hx with
    | ok hr => exact .inr ⟨_, rest, rfl, rfl, hr⟩

/-- A literal is one token, and its scanner leads behind it. -/
theorem literal_agrees {x : Except Fault Nat} {o : Option (List Char)}
    (hx : Agrees (TextAt text) x (o.elim (.error fault) .ok)) :
    Agrees (fun a b => a.1 = b.1 ∧ TextAt text a.2 b.2) (x.map (some .literal, ·))
      (literalBefore fault o) := by
  obtain ⟨rfl, rfl⟩ | ⟨j, rest, rfl, rfl, hr⟩ := ends_or_fails hx
  · exact .malformed fault
  · exact .ok ⟨rfl, hr⟩

/-- The scanner reads the same token, and what the other reader leaves starts at its offset. -/
theorem tokenAt_agrees (h : TextAt text i (c :: r)) (hd : d ∈ codesOf c) :
    Agrees (fun a b => a.1 = b.1 ∧ TextAt text a.2 b.2) (tokenAt text i d) (step c r) := by
  have hmark : ∀ x : Char, x.toNat < 0x80 → (d = x ↔ c = x) := fun x =>
    eq_iff_of_mem_codesOf hd
  have hascii : ∀ x : Char, x.toNat < 0x80 → c = x → c.toNat < 0x80 := by
    rintro x hx rfl
    exact hx
  have hnext : ∀ x y : Char, x.toNat < 0x80 → y.toNat < 0x80 →
      (d = x ∧ (codes text)[i + 1]? = some y ↔ c = x ∧ r.head? = some y) := by
    intro x y hx hy
    rw [hmark x hx]
    exact and_congr_right fun hc => (h.next (hascii x hx hc)).get? hy
  have hquote : ['"', '"', '"'] <+: c :: r ↔ c = '"' ∧ r.take 2 = ['"', '"'] := by
    rw [List.cons_prefix_cons, List.prefix_iff_eq_take, eq_comm, eq_comm (a := c)]
    exact and_congr_right fun _ => eq_comm
  have hdots : ['.', '.', '.'] <+: c :: r ↔ c = '.' ∧ r.take 2 = ['.', '.'] := by
    rw [List.cons_prefix_cons, List.prefix_iff_eq_take, eq_comm, eq_comm (a := c)]
    exact and_congr_right fun _ => eq_comm
  rw [tokenAt, step]
  refine .ite (iff_of_eq (congrArg (· = true) (uniform_isSpace.codesOf hd))) (fun hs => ?_)
    fun hspace => ?_
  · exact .ok ⟨rfl, h.next (lt_of_isSpace hs)⟩
  refine .ite (hnext _ _ (by decide) (by decide)) (fun hs => ?_) fun hline => ?_
  · obtain ⟨rfl, -⟩ := hs
    have hw := h.skipWhile (uniform_ne (q := '\n') (by decide))
    rw [List.dropWhile_cons_of_pos (by decide)] at hw
    exact .ok ⟨rfl, hw⟩
  refine .ite (hnext _ _ (by decide) (by decide)) (fun hs => ?_) fun hblock => ?_
  · obtain ⟨rfl, hr⟩ := hs
    obtain ⟨r, rfl⟩ := List.head?_eq_some_iff.1 hr
    have hx := skipBlockComment_agrees ((h.next (by decide)).next (by decide))
    obtain ⟨he, ho⟩ | ⟨j, rest, hj, ho, hr⟩ := ends_or_fails hx
    · rw [he, List.tail_cons, ho]
      exact .malformed _
    · rw [hj, List.tail_cons, ho]
      exact .ok ⟨rfl, hr⟩
  rw [h.textFrom]
  refine .ite hquote (fun hs => ?_) fun htext => ?_
  · obtain ⟨s, he⟩ := hquote.2 hs
    obtain ⟨rfl, rfl⟩ := List.cons.inj he
    exact literal_agrees (skipTextBlock_agrees
      (((h.next (by decide)).next (by decide)).next (by decide)))
  refine .ite (hmark _ (by decide)) (fun hs => ?_) fun hstring => ?_
  · subst hs
    exact literal_agrees (skipQuoted_agrees (by decide) (h.next (by decide)))
  refine .ite (hmark _ (by decide)) (fun hs => ?_) fun hchar => ?_
  · subst hs
    exact literal_agrees (skipQuoted_agrees (by decide) (h.next (by decide)))
  refine .ite (iff_of_eq (congrArg (· = true) (uniform_isDigit.codesOf hd))) (fun hs => ?_)
    fun hdigit => ?_
  · have ha : c.isAlphanum = true := by rw [Char.isAlphanum, hs, Bool.or_true]
    have hn := h.skipNumber
    rw [afterNumber, if_pos (by rw [ha]; rfl)] at hn
    exact .ok ⟨rfl, hn⟩
  refine .ite (iff_of_eq (congrArg (· = true) (uniform_isWordStart.codesOf hd))) (fun hs => ?_)
    fun hword => ?_
  · exact wordAt_agrees h hs
  refine .ite hdots (fun hs => ?_) fun hdots => ?_
  · obtain ⟨s, he⟩ := hdots.2 hs
    obtain ⟨rfl, rfl⟩ := List.cons.inj he
    exact .ok ⟨rfl, ((h.next (by decide)).next (by decide)).next (by decide)⟩
  refine .ite (hnext _ _ (by decide) (by decide)) (fun hs => ?_) fun hcolon => ?_
  · obtain ⟨rfl, hr⟩ := hs
    obtain ⟨r, rfl⟩ := List.head?_eq_some_iff.1 hr
    exact .ok ⟨rfl, (h.next (by decide)).next (by decide)⟩
  have hc : c.toNat < 0x80 := Nat.lt_of_not_le fun hb => hword (isWordStart_beyond hb)
  rw [codesOf_ascii hc, List.mem_singleton] at hd
  subst hd
  exact .ok ⟨rfl, h.next hc⟩

/-- From an offset on, the same tokens are read as from the characters that stand there. -/
theorem tokensFrom_agrees (h : TextAt text i r) :
    Agrees Eq (tokensFrom text i) (Java.tokens r) := by
  fun_induction Java.tokens r generalizing i with
  | case1 =>
    rw [tokensFrom, dif_neg h.at.not_lt]
    exact .ok rfl
  | case2 c r e hs =>
    have ha := tokenAt_agrees h (h.getElem_mem h.lt)
    rw [tokensFrom, dif_pos h.lt]
    rw [hs] at ha
    generalize tokenAt text i _ = x at ha
    cases ha
    exact .malformed e
  | case3 c r t rest hs hlen ih =>
    have ha := tokenAt_agrees h (h.getElem_mem h.lt)
    rw [tokensFrom, dif_pos h.lt]
    rw [hs] at ha
    generalize tokenAt text i _ = x at ha
    cases ha with
    | @ok a _ hab =>
      obtain ⟨t', j⟩ := a
      obtain ⟨rfl, hj⟩ := hab
      have hlt : i < j := h.lt_of_length hj (Nat.lt_succ_of_le hlen)
      dsimp only
      rw [if_pos hlt]
      exact (ih hj).map fun a b hab => congrArg (t'.toList ++ ·) hab

/-- The bytes of a source give the tokens of its characters. -/
theorem tokens_agrees (text : String) : Agrees Eq (tokens text) (Java.tokens text.toList) :=
  tokensFrom_agrees (textAt_zero text.toList)

-- The backslash takes along the first of two bytes; no slice starts at the second one.
example : tokens "'\\é'" = .ok [.literal] := by cbv

end

end TestImpact.Java.Indexed
