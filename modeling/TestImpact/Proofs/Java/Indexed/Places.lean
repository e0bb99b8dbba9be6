import TestImpact.Java.Malformed
import TestImpact.Proofs.Text.Utf8

/-!
# Places in a list and in a text

A reader by indices takes ranges of a list by their first index and their end, and parts of a text
by byte offsets. A range must start in front of its end and stay inside, and an offset must lie
between two characters; a loop or a recursive call must go on behind the place where it is. What
breaks one of these rules is a `Fault`, beside the faults of the source itself. `At` and `TextAt`
say what stands at a place, and from them follows that an access there succeeds (`At.slice`,
`TextAt.textSlice`).
-/

namespace TestImpact.Java.Indexed

/-- What ends a reading by indices. -/
inductive Fault
  /-- A range that starts behind its end or leaves the list, an offset outside the text or inside a
  character, or a difference below zero. -/
  | outOfRange
  /-- A loop or a recursive call that does not go on. -/
  | stuck
  /-- The source is malformed. -/
  | malformed (reason : Malformed)
deriving DecidableEq, Repr

/-- The reading by indices `x` gives what the reading of lists `y` gives, up to `R`, or it ends with
the fault of the source that `y` ends with. -/
inductive Agrees {α β : Type} (R : α → β → Prop) : Except Fault α → Except Malformed β → Prop
  | ok {a : α} {b : β} : R a b → Agrees R (.ok a) (.ok b)
  | malformed (reason : Malformed) : Agrees R (.error (.malformed reason)) (.error reason)

section
variable {α β γ δ : Type} {R : α → β → Prop} {S : γ → δ → Prop} {x : Except Fault α}
  {y : Except Malformed β}

/-- Readings that agree go on in agreement. -/
theorem Agrees.bind {f : α → Except Fault γ} {g : β → Except Malformed δ} (h : Agrees R x y)
    (hf : ∀ a b, R a b → Agrees S (f a) (g b)) : Agrees S (x >>= f) (y >>= g) := by
  cases h with
  | ok hr => exact hf _ _ hr
  | malformed reason => exact .malformed reason

/-- Readings that agree give results that agree. -/
theorem Agrees.map {f : α → γ} {g : β → δ} (h : Agrees R x y) (hf : ∀ a b, R a b → S (f a) (g b)) :
    Agrees S (x.map f) (y.map g) := by
  cases h with
  | ok hr => exact .ok (hf _ _ hr)
  | malformed reason => exact .malformed reason

end

/-- A reader that never fails, on each element of a list. -/
theorem mapM_eq_ok {α β : Type} {f : α → Except Fault β} {g : α → β} (h : ∀ a, f a = .ok (g a))
    (as : List α) : as.mapM f = .ok (as.map g) := by
  induction as with
  | nil => rfl
  | cons a as ih =>
    rw [List.mapM_cons, h, ih]
    rfl

/-- Both readings take the same branch. -/
theorem Agrees.ite {α β : Type} {R : α → β → Prop} {p q : Prop} [Decidable p] [Decidable q]
    {x x' : Except Fault α} {y y' : Except Malformed β} (hpq : p ↔ q) (ht : q → Agrees R x y)
    (hf : ¬q → Agrees R x' y') : Agrees R (if p then x else x') (if q then y else y') := by
  by_cases hq : q
  · rw [if_pos hq, if_pos (hpq.2 hq)]
    exact ht hq
  · rw [if_neg hq, if_neg fun hp => hq (hpq.1 hp)]
    exact hf hq

/-! ## Ranges of a list -/

section
variable {α : Type} {xs before piece rest : List α} {x : α} {i j k : Nat}

/-- The elements from index `i` on. -/
def sliceFrom (xs : List α) (i : Nat) : Except Fault (List α) :=
  if i ≤ xs.length then .ok (xs.drop i) else .error .outOfRange

/-- The elements from index `i` up to index `j`, which is not included. -/
def slice (xs : List α) (i j : Nat) : Except Fault (List α) :=
  if i ≤ j ∧ j ≤ xs.length then .ok ((xs.take j).drop i) else .error .outOfRange

/-- A difference of indices. -/
def minus (j i : Nat) : Except Fault Nat := if i ≤ j then .ok (j - i) else .error .outOfRange

/-- The first index from `i` on whose element `p` does not hold for. -/
def skipWhile (p : α → Bool) (xs : List α) (i : Nat) : Nat :=
  if h : i < xs.length then if p xs[i] then skipWhile p xs (i + 1) else i else i
termination_by xs.length - i

/-- From index `i` on the list is `rest`. -/
def At (xs : List α) (i : Nat) (rest : List α) : Prop :=
  ∃ before, xs = before ++ rest ∧ before.length = i

/-- The list stands at its first index. -/
theorem at_zero (xs : List α) : At xs 0 xs := ⟨[], rfl, rfl⟩

/-- Nothing stands at the end of the list. -/
theorem at_length (xs : List α) : At xs xs.length [] := ⟨xs, (List.append_nil xs).symm, rfl⟩

/-- An index and what stands there make up the length of the list. -/
theorem At.length (h : At xs i rest) : i + rest.length = xs.length := by
  obtain ⟨before, rfl, rfl⟩ := h
  exact List.length_append.symm

/-- Behind a piece stands what follows it. -/
theorem At.append (h : At xs i (piece ++ rest)) : At xs (i + piece.length) rest := by
  obtain ⟨before, rfl, rfl⟩ := h
  exact ⟨before ++ piece, by simp, by simp⟩

/-- Behind an element stands what follows it. -/
theorem At.next (h : At xs i (x :: rest)) : At xs (i + 1) rest := by
  obtain ⟨before, rfl, rfl⟩ := h
  exact ⟨before ++ [x], by simp, by simp⟩

/-- An element stands inside the list. -/
theorem At.lt (h : At xs i (x :: rest)) : i < xs.length := by
  have hl := h.length
  rw [List.length_cons] at hl
  omega

/-- A suffix stands where its length is missing. -/
theorem At.of_suffix (h : rest <:+ xs) : At xs (xs.length - rest.length) rest := by
  obtain ⟨before, rfl⟩ := h
  exact ⟨before, rfl, by simp⟩

/-- What stands at an index is a suffix of the list. -/
theorem At.suffix (h : At xs i rest) : rest <:+ xs := by
  obtain ⟨before, rfl, -⟩ := h
  exact List.suffix_append before rest

/-- An element behind an index is the one of what stands there. -/
theorem At.getElem? (h : At xs i rest) (k : Nat) : xs[i + k]? = rest[k]? := by
  obtain ⟨before, rfl, rfl⟩ := h
  rw [List.getElem?_append_right (Nat.le_add_right ..), Nat.add_sub_cancel_left]

/-- The element at an index is the first one of what stands there. -/
theorem At.get? (h : At xs i rest) : xs[i]? = rest.head? := by
  rw [List.head?_eq_getElem?]
  exact h.getElem? 0

/-- The element at an index inside the list is the one that stands there. -/
theorem At.getElem (h : At xs i (x :: rest)) (hi : i < xs.length) : xs[i] = x :=
  Option.some.inj ((List.getElem?_eq_getElem hi).symm.trans h.get?)

/-- The end of the list is no index of an element. -/
theorem At.not_lt (h : At xs i []) : ¬i < xs.length := by
  have hl := h.length
  rw [List.length_nil] at hl
  omega

/-- The range from an index on is what stands there. -/
theorem At.sliceFrom (h : At xs i rest) : sliceFrom xs i = .ok rest := by
  obtain ⟨before, rfl, rfl⟩ := h
  rw [Indexed.sliceFrom, if_pos (by simp), List.drop_left]

/-- The range of a piece is the piece. -/
theorem At.slice (h : At xs i (piece ++ rest)) : slice xs i (i + piece.length) = .ok piece := by
  have hl := h.length
  obtain ⟨before, rfl, rfl⟩ := h
  rw [List.length_append] at hl
  rw [Indexed.slice, if_pos ⟨Nat.le_add_right .., by omega⟩, ← List.append_assoc,
    List.take_left' (List.length_append), List.drop_left]

/-- Elements at one place of a part of the list. -/
theorem At.trans {part more : List α} (h : At xs i (part ++ more)) (hp : At part j rest) :
    At xs (i + j) (rest ++ more) := by
  obtain ⟨before, rfl, rfl⟩ := h
  obtain ⟨front, rfl, rfl⟩ := hp
  exact ⟨before ++ front, by simp, by simp⟩

/-- A run is passed to the first element that does not belong to it. -/
theorem skipWhile_eq {p : α → Bool} (h : At xs i (piece ++ rest)) (hp : ∀ x ∈ piece, p x = true)
    (hr : rest.head?.any p = false) : skipWhile p xs i = i + piece.length := by
  induction piece generalizing i with
  | nil =>
    rw [skipWhile]
    cases rest with
    | nil => exact dif_neg h.not_lt
    | cons x rest =>
      have hx : ¬p x = true := by simpa using hr
      rw [dif_pos h.lt, h.getElem, if_neg hx]
      rfl
  | cons x piece ih =>
    obtain ⟨hx, hp⟩ := List.forall_mem_cons.1 hp
    rw [skipWhile, dif_pos h.lt, h.getElem, if_pos hx, ih h.next hp, List.length_cons]
    omega

/-- What follows a run starts with no element of it. -/
theorem head?_dropWhile (p : α → Bool) (xs : List α) : (xs.dropWhile p).head?.any p = false := by
  have hn := List.head?_dropWhile_not p xs
  cases he : (xs.dropWhile p).head? with
  | none => rfl
  | some x => rw [he] at hn; exact hn

/-- A run is passed by its length. -/
theorem skipWhile_at (p : α → Bool) (h : At xs i rest) :
    skipWhile p xs i = i + (rest.takeWhile p).length := by
  have hr : At xs i (rest.takeWhile p ++ rest.dropWhile p) := by
    rwa [List.takeWhile_append_dropWhile]
  exact skipWhile_eq hr (List.all_eq_true.1 List.all_takeWhile) (head?_dropWhile p rest)

/-- Behind a run stands what follows it. -/
theorem At.skipWhile (p : α → Bool) (h : At xs i rest) :
    At xs (skipWhile p xs i) (rest.dropWhile p) := by
  rw [skipWhile_at p h]
  exact At.append (by rwa [List.takeWhile_append_dropWhile])

/-- A range that is taken starts in front of its end and stays inside. -/
theorem le_of_slice (h : Indexed.slice xs i j = .ok rest) : i ≤ j ∧ j ≤ xs.length := by
  rw [Indexed.slice] at h
  split at h
  · assumption
  · cases h

/-- The difference to a later index is no fault. -/
theorem minus_add (i k : Nat) : minus (i + k) i = .ok k := by
  rw [minus, if_pos (Nat.le_add_right ..), Nat.add_sub_cancel_left]

end

/-! ## Bytes of a text -/

/-- The bytes of a character, each one as the character of its code. -/
def codesOf (c : Char) : List Char := (Utf8.encodeChar c).map fun b => Char.ofNat b.toNat

/-- The bytes of a text, each one as the character of its code. -/
def codes (text : List Char) : List Char := text.flatMap codesOf

/-- What stands in front of a byte offset and what follows it, if the offset lies between two
characters or at an end of the text. -/
def splitAtByte : List Char → Nat → Option (List Char × List Char)
  | cs, 0 => some ([], cs)
  | [], _ + 1 => none
  | c :: cs, n + 1 =>
    if c.utf8Size ≤ n + 1 then
      (splitAtByte cs (n + 1 - c.utf8Size)).map fun s => (c :: s.1, s.2)
    else none

/-- The text from a byte offset on. -/
def textFrom (text : List Char) (i : Nat) : Except Fault (List Char) :=
  match splitAtByte text i with
  | some (_, rest) => .ok rest
  | none => .error .outOfRange

/-- The text from a byte offset up to another one. -/
def textSlice (text : List Char) (i j : Nat) : Except Fault (List Char) := do
  let rest ← textFrom text i
  match splitAtByte rest (← minus j i) with
  | some (piece, _) => .ok piece
  | none => .error .outOfRange

/-- From byte offset `i` on the text is `rest`. -/
def TextAt (text : List Char) (i : Nat) (rest : List Char) : Prop :=
  ∃ before, text = before ++ rest ∧ (codes before).length = i

/-- All characters beyond ASCII have the same value, so a byte of a character has the value of the
character. -/
def Uniform (p : Char → Bool) : Prop :=
  ∀ c d : Char, 0x80 ≤ c.toNat → 0x80 ≤ d.toNat → p c = p d

section
variable {p : Char → Bool} {c d : Char} {text piece rest : List Char} {i : Nat}

/-- The bytes of the first character come first. -/
theorem codes_cons (c : Char) (text : List Char) : codes (c :: text) = codesOf c ++ codes text :=
  List.flatMap_cons

/-- The bytes of a piece come in front of those of the rest. -/
theorem codes_append (piece rest : List Char) : codes (piece ++ rest) = codes piece ++ codes rest :=
  List.flatMap_append

/-- A character has as many bytes as its size says. -/
theorem length_codesOf (c : Char) : (codesOf c).length = c.utf8Size := by
  rw [codesOf, List.length_map, Utf8.encodeChar, String.length_utf8EncodeChar]

/-- An ASCII character is its own byte. -/
theorem codesOf_ascii (hc : c.toNat < 0x80) : codesOf c = [c] := by
  rw [codesOf, Utf8.encodeChar_ascii hc, List.map_singleton, Utf8.toNat_ofNat_ascii hc,
    Char.ofNat_toNat]

/-- The bytes of a character beyond ASCII are beyond ASCII. -/
theorem le_of_mem_codesOf (hc : 0x80 ≤ c.toNat) (hd : d ∈ codesOf c) : 0x80 ≤ d.toNat := by
  obtain ⟨b, hmem, rfl⟩ := List.mem_map.1 hd
  have hv : b.toNat.isValidChar := .inl (Nat.lt_trans (UInt8.toNat_lt b) (by decide))
  rw [Char.ofNat, dif_pos hv]
  exact Utf8.le_of_mem_encodeChar hc hmem

/-- A byte has the value of its character. -/
theorem Uniform.codesOf (hp : Uniform p) (hd : d ∈ codesOf c) : p d = p c := by
  by_cases hc : c.toNat < 0x80
  · rw [codesOf_ascii hc] at hd
    rw [List.mem_singleton.1 hd]
  · exact hp d c (le_of_mem_codesOf (Nat.le_of_not_lt hc) hd) (Nat.le_of_not_lt hc)

/-- A byte is an ASCII character exactly if its character is that one. -/
theorem eq_iff_of_mem_codesOf {x : Char} (hd : d ∈ Indexed.codesOf c) (hx : x.toNat < 0x80) :
    d = x ↔ c = x := by
  have hu : Uniform (decide <| · = x) := by
    intro a b ha hb
    have ha' : a ≠ x := fun he => by rw [he] at ha; omega
    have hb' : b ≠ x := fun he => by rw [he] at hb; omega
    exact (decide_eq_false ha').trans (decide_eq_false hb').symm
  exact decide_eq_decide.1 (hu.codesOf hd)

/-- A predicate that no character beyond ASCII satisfies. -/
theorem uniform_of_false (h : ∀ c, p c = true → c.toNat < 0x80) : Uniform p := by
  intro c d hc hd
  have hf : ∀ e : Char, 0x80 ≤ e.toNat → p e = false := by
    intro e he
    refine Bool.eq_false_iff.2 fun ht => ?_
    have hlt := h e ht
    omega
  rw [hf c hc, hf d hd]

/-- A character has a first byte. -/
theorem exists_codesOf (c : Char) : ∃ d ds, codesOf c = d :: ds := by
  refine List.exists_cons_of_length_pos ?_
  rw [length_codesOf]
  exact c.utf8Size_pos

/-! ## Parts of a text -/

/-- The text can be split behind a piece. -/
theorem splitAtByte_append (piece rest : List Char) :
    splitAtByte (piece ++ rest) (codes piece).length = some (piece, rest) := by
  induction piece with
  | nil => exact splitAtByte.eq_1 rest
  | cons c piece ih =>
    have hl : (codes (c :: piece)).length = c.utf8Size + (codes piece).length := by
      rw [codes_cons, List.length_append, length_codesOf]
    obtain ⟨n, hn⟩ : ∃ n, c.utf8Size + (codes piece).length = n + 1 :=
      Nat.exists_eq_add_one.2 (Nat.add_pos_left c.utf8Size_pos _)
    rw [hl, hn, List.cons_append, splitAtByte, ← hn, if_pos (Nat.le_add_right ..),
      Nat.add_sub_cancel_left, ih]
    rfl

/-- The text stands at its first offset. -/
theorem textAt_zero (text : List Char) : TextAt text 0 text := ⟨[], rfl, rfl⟩

/-- The bytes of what stands at an offset stand there among the bytes. -/
theorem TextAt.at (h : TextAt text i rest) : At (codes text) i (codes rest) := by
  obtain ⟨before, rfl, rfl⟩ := h
  exact ⟨codes before, codes_append before rest, rfl⟩

/-- Behind a piece stands what follows it. -/
theorem TextAt.append (h : TextAt text i (piece ++ rest)) :
    TextAt text (i + (codes piece).length) rest := by
  obtain ⟨before, rfl, rfl⟩ := h
  exact ⟨before ++ piece, by simp, by simp [codes_append]⟩

/-- Behind a character stands what follows it. -/
theorem TextAt.append_one (h : TextAt text i (c :: rest)) :
    TextAt text (i + (codes [c]).length) rest := by
  obtain ⟨before, rfl, rfl⟩ := h
  exact ⟨before ++ [c], by simp, by simp [codes_append]⟩

/-- Behind an ASCII character, the next offset lies between two characters. -/
theorem TextAt.next (h : TextAt text i (c :: rest)) (hc : c.toNat < 0x80) :
    TextAt text (i + 1) rest := by
  have ha := h.append_one
  rwa [codes, List.flatMap_singleton, codesOf_ascii hc] at ha

/-- Less text stands at a greater offset. -/
theorem TextAt.lt_of_length {r : List Char} {j : Nat} (h : TextAt text i rest)
    (hr : TextAt text j r) (hl : r.length < rest.length) : i < j := by
  obtain ⟨before, rfl, rfl⟩ := h
  obtain ⟨before', he, rfl⟩ := hr
  rcases List.append_eq_append_iff.1 he with ⟨as, rfl, rfl⟩ | ⟨as, rfl, rfl⟩
  · cases as with
    | nil => exact absurd hl (Nat.lt_irrefl _)
    | cons c as =>
      have hc := c.utf8Size_pos
      rw [codes_append, codes_cons, List.length_append, List.length_append, length_codesOf]
      omega
  · rw [List.length_append] at hl
    omega

/-- The text from an offset on is what stands there. -/
theorem TextAt.textFrom (h : TextAt text i rest) : textFrom text i = .ok rest := by
  obtain ⟨before, rfl, rfl⟩ := h
  rw [Indexed.textFrom, splitAtByte_append]

/-- The part of the text that a piece takes up is the piece. -/
theorem TextAt.textSlice (h : TextAt text i (piece ++ rest)) :
    textSlice text i (i + (codes piece).length) = .ok piece := by
  rw [Indexed.textSlice, h.textFrom, minus_add]
  simp only [bind, Except.bind, splitAtByte_append]

/-- ASCII characters that a text starts with are the bytes that it starts with. -/
theorem prefix_codes {front : List Char} (hf : ∀ x ∈ front, x.toNat < 0x80) :
    front <+: codes rest ↔ front <+: rest := by
  induction front generalizing rest with
  | nil => exact iff_of_true List.nil_prefix List.nil_prefix
  | cons x front ih =>
    obtain ⟨hx, hf⟩ := List.forall_mem_cons.1 hf
    cases rest with
    | nil => exact Iff.rfl
    | cons c rest =>
      rw [codes_cons, List.cons_prefix_cons]
      by_cases hc : c.toNat < 0x80
      · rw [codesOf_ascii hc, List.singleton_append, List.cons_prefix_cons, ih hf]
      · obtain ⟨d, ds, hd⟩ := exists_codesOf c
        have hmem : d ∈ codesOf c := hd ▸ List.mem_cons_self
        rw [hd, List.cons_append, List.cons_prefix_cons]
        have hne : x ≠ c := fun he => hc (he ▸ hx)
        refine iff_of_false (fun h => hne ?_) fun h => hne h.1
        exact ((eq_iff_of_mem_codesOf hmem hx).1 h.1.symm).symm

/-- A character stands inside the bytes. -/
theorem TextAt.lt (h : TextAt text i (c :: rest)) : i < (codes text).length := by
  obtain ⟨d, ds, hd⟩ := exists_codesOf c
  have ha := h.at
  rw [codes_cons, hd] at ha
  exact ha.lt

/-- The byte at an offset is the first one of the character there. -/
theorem TextAt.getElem_mem (h : TextAt text i (c :: rest)) (hi : i < (codes text).length) :
    (codes text)[i] ∈ Indexed.codesOf c := by
  obtain ⟨d, ds, hd⟩ := exists_codesOf c
  have ha := h.at
  rw [codes_cons, hd] at ha
  rw [ha.getElem, hd]
  exact List.mem_cons_self

/-- The byte at an ASCII character is the character. -/
theorem TextAt.getElem (h : TextAt text i (c :: rest)) (hc : c.toNat < 0x80)
    (hi : i < (codes text).length) : (codes text)[i] = c := by
  have hm := h.getElem_mem hi
  rwa [codesOf_ascii hc, List.mem_singleton] at hm

/-- The byte at another character is not the ASCII character `d`. -/
theorem TextAt.getElem_ne (h : TextAt text i (c :: rest)) (hd : d.toNat < 0x80) (hc : c ≠ d)
    (hi : i < (codes text).length) : (codes text)[i] ≠ d :=
  mt (eq_iff_of_mem_codesOf (h.getElem_mem hi) hd).1 hc

/-- A look at the byte at an offset tells as much as a look at the character there. -/
theorem TextAt.any_get? (h : TextAt text i rest) (hp : Uniform p) :
    (codes text)[i]?.any p = rest.head?.any p := by
  cases rest with
  | nil => rw [h.at.get?]; rfl
  | cons c rest =>
    rw [List.getElem?_eq_getElem h.lt, List.head?_cons, Option.any_some, Option.any_some,
      hp.codesOf (h.getElem_mem h.lt)]

/-- The byte at an offset is an ASCII character exactly if this starts what stands there. -/
theorem TextAt.get? (h : TextAt text i rest) (hd : d.toNat < 0x80) :
    (codes text)[i]? = some d ↔ rest.head? = some d := by
  cases rest with
  | nil => rw [h.at.get?]; rfl
  | cons c rest =>
    rw [List.getElem?_eq_getElem h.lt, Option.some_inj, List.head?_cons, Option.some_inj]
    exact eq_iff_of_mem_codesOf (h.getElem_mem h.lt) hd

end

end TestImpact.Java.Indexed
