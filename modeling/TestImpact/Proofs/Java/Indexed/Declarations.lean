import TestImpact.Java.Declaration
import TestImpact.Proofs.Java.Indexed.Ranges

/-!
# Reading declarations by indices

The readers of modifiers, fields and signatures, with every part of a declaration cut out by its
range. Main statements: each one gives what the reader of token lists gives, without a fault
(`stripModifiers_eq`, `fieldType?_eq`, `signature_eq`).
-/

namespace TestImpact.Java.Indexed

/-! ## Annotations and modifiers -/

/-- The index behind the dotted segments of a name from index `i` on. -/
def nameEnd (ts : List Token) (i : Nat) : Nat :=
  if h : ts[i]? = some (.mark '.') ∧ ts[i + 1]?.any Token.isWord then
    have := (List.getElem?_eq_some_iff.1 h.1).1
    nameEnd ts (i + 2)
  else i
termination_by ts.length - i

/-- The index behind the annotation that a list starts with. -/
def annotationEnd (ts : List Token) : Nat :=
  let i := nameEnd ts 2
  if ts[i]? = some (.mark '(') then behindMatching ts '(' ')' i else i

/-- The index behind the annotation or modifier that a list starts with. -/
def modifierEnd? : List Token → Option Nat
  | .mark '@' :: .word name :: r =>
    if name = "interface" then none else some (annotationEnd (.mark '@' :: .word name :: r))
  | .word w :: r =>
    if w = "non" ∧ r.take 2 = [.mark '-', .word "sealed"] then some 3
    else if isModifier w then some 1
    else none
  | _ => none

/-- The list behind the annotations and modifiers that it starts with. -/
def stripModifiers (ts : List Token) : Except Fault (List Token) :=
  match modifierEnd? ts with
  | none => .ok ts
  | some i =>
    match sliceFrom ts i with
    | .error e => .error e
    | .ok rest => if rest.length < ts.length then stripModifiers rest else .error .stuck
termination_by ts.length

section
variable {ts rest : List Token} {i : Nat}

/-- A dot and a word at an index. -/
theorem At.exists_segment (h : At ts i rest)
    (hs : ts[i]? = some (.mark '.') ∧ ts[i + 1]?.any Token.isWord) :
    ∃ w r, rest = .mark '.' :: .word w :: r := by
  rw [h.get?, h.getElem? 1] at hs
  obtain ⟨hd, hw⟩ := hs
  obtain ⟨r, rfl⟩ := List.head?_eq_some_iff.1 hd
  match r, hw with
  | .word w :: r, _ => exact ⟨w, r, rfl⟩

/-- The index behind a dotted name leads to what follows its segments. -/
theorem At.nameEnd (h : At ts i rest) : At ts (nameEnd ts i) (afterSegments rest) := by
  fun_induction afterSegments rest generalizing i with
  | case1 w r ih =>
    have hw : ts[i + 1]?.any Token.isWord = true := by
      rw [h.getElem? 1]
      rfl
    rw [Indexed.nameEnd, dif_pos ⟨h.get?, hw⟩]
    exact ih h.next.next
  | case2 r hr =>
    have hnot : ¬(ts[i]? = some (.mark '.') ∧ ts[i + 1]?.any Token.isWord) := by
      intro hs
      obtain ⟨w, r, rfl⟩ := h.exists_segment hs
      exact hr w r rfl
    rw [Indexed.nameEnd, dif_neg hnot]
    exact h

/-- The index behind an annotation leads to what follows the annotation. -/
theorem at_annotationEnd (t u : Token) (rest : List Token) :
    At (t :: u :: rest) (annotationEnd (t :: u :: rest)) (afterMarker rest) := by
  have hn : At (t :: u :: rest) (nameEnd (t :: u :: rest) 2) (afterSegments rest) :=
    At.nameEnd (at_zero (t :: u :: rest)).next.next
  rw [annotationEnd, afterMarker, hn.get?]
  split
  · next h =>
    obtain ⟨r, hr⟩ := List.head?_eq_some_iff.1 h
    rw [hr] at hn ⊢
    exact hn.behindMatching
  · next h =>
    split
    · next hr => rw [hr] at h; exact absurd rfl h
    · exact hn

/-- An annotation or a modifier in front is passed over. -/
theorem stripModifiers_of_modifierEnd? (hi : modifierEnd? ts = some i) (h : At ts i rest)
    (hl : rest.length < ts.length) : stripModifiers ts = stripModifiers rest := by
  rw [stripModifiers, hi]
  dsimp only
  rw [h.sliceFrom]
  exact if_pos hl

/-- What stands behind annotations and modifiers is what remains when they are dropped. -/
theorem stripModifiers_eq (ts : List Token) : stripModifiers ts = .ok (dropModifiers ts) := by
  fun_induction dropModifiers ts with
  | case1 r =>
    rw [stripModifiers, modifierEnd?, if_pos rfl]
  | case2 name r hn hlen ih =>
    have hi : modifierEnd? (.mark '@' :: .word name :: r) =
        some (annotationEnd (.mark '@' :: .word name :: r)) := if_neg hn
    have hl : (afterMarker r).length < (.mark '@' :: .word name :: r).length := by
      rw [List.length_cons, List.length_cons]
      omega
    rw [stripModifiers_of_modifierEnd? hi (at_annotationEnd _ _ r) hl, ih]
  | case3 w r hw ih =>
    have hi : modifierEnd? (.word w :: r) = some 3 := if_pos hw
    have hr : At (.word w :: r) (0 + 1) (r.take 2 ++ r.drop 2) := by
      rw [List.take_append_drop]
      exact (at_zero _).next
    have ha := hr.append
    rw [hw.2] at ha
    have hl : (r.drop 2).length < (.word w :: r).length := by
      rw [List.length_drop, List.length_cons]
      omega
    rw [stripModifiers_of_modifierEnd? hi ha hl, ih]
  | case4 w r hw hm ih =>
    have hi : modifierEnd? (.word w :: r) = some 1 := by rw [modifierEnd?, if_neg hw, if_pos hm]
    rw [stripModifiers_of_modifierEnd? hi (at_zero _).next (Nat.lt_succ_self _), ih]
  | case5 w r hw hm =>
    rw [stripModifiers, modifierEnd?, if_neg hw, if_neg hm]
  | case6 ts h₁ h₂ =>
    have hi : modifierEnd? ts = none := modifierEnd?.eq_3 ts h₁ h₂
    rw [stripModifiers, hi]

end

/-! ## Fields, parameters and signatures -/

/-- The raw type of a parameter without annotations and modifiers. -/
def plainParameterType? (ts : List Token) : Option String := do
  let type ← typeBeforeName? ts
  let type := if type.getLast? = some .ellipsis then type.dropLast else type
  if type.isEmpty then none else some (joinTokens type)

/-- The raw type of a parameter. -/
def parameterType? (ts : List Token) : Except Fault (Option String) := do
  return plainParameterType? (← stripModifiers ts)

/-- The raw types of a parameter list. -/
def parameterTypes (ts : List Token) : Except Fault (List String) := do
  let parts ← partsOf ts
  let types ← parts.mapM parameterType?
  return types.filterMap id

/-- The raw type of a declarator. -/
def declaratorType? (ts : List Token) : Option String := do
  let type ← typeBeforeName? ts
  match type with
  | [] => none
  | .word w :: _ => if isReserved w then none else some (joinTokens type)
  | _ => some (joinTokens type)

/-- What stands in front of the first mark `c`. -/
def beforeMark (c : Char) (ts : List Token) : Except Fault (List Token) :=
  match ts.findIdx? (· = .mark c) with
  | some i => slice ts 0 i
  | none => .ok ts

/-- The part in front of the first comma outside of brackets. -/
def firstPart? (ts : List Token) : Except Fault (Option (List Token)) :=
  match (partsFrom ts 0 0 0).head? with
  | some p => (slice ts p.1 p.2).map some
  | none => .ok none

/-- The raw type of a field, of which only the first declarator is cut out. -/
def fieldType? (ts : List Token) : Except Fault (Option String) := do
  let first ← firstPart? (← beforeMark '=' ts)
  return first.bind declaratorType?

/-- The element at an index. -/
def element (ts : List Token) (i : Nat) : Except Fault Token :=
  match ts[i]? with
  | some t => .ok t
  | none => .error .outOfRange

/-- The raw return type, from the tokens in front of a method's name. -/
def returnType? : List Token → Option String
  | [] => none
  | first :: more => if first = .word "void" then none else some (joinTokens (first :: more))

/-- The return type and the parameter types of a method whose name is followed by a parenthesis at
index `i`. -/
def signatureAt (ts : List Token) (i : Nat) : Except Fault (Option String × List String) := do
  if i = 0 then return (none, [])
  let nameAt ← minus i 1
  if !(← element ts nameAt).isWord then return (none, [])
  let type ← slice ts 0 nameAt
  let close := (matching ts '(' ')' i).getD ts.length
  let params ← slice ts (i + 1) (max close (i + 1))
  return (returnType? type, ← parameterTypes params)

/-- The list behind the type parameters that it starts with. -/
def behindTypeParameters (ts : List Token) : Except Fault (List Token) :=
  if ts.head? = some (.mark '<') then sliceFrom ts (behindMatching ts '<' '>' 0) else .ok ts

/-- The return type and the parameter types of a method. -/
def signature (ts : List Token) : Except Fault (Option String × List String) := do
  let rest ← behindTypeParameters ts
  match rest.findIdx? (· = .mark '(') with
  | none => return (none, [])
  | some i => signatureAt rest i

section
variable {ts rest front : List Token} {c : Char} {i : Nat}

/-- The type of a parameter is read by indices as from the list. -/
theorem parameterType?_eq (ts : List Token) : parameterType? ts = .ok (Java.parameterType? ts) := by
  rw [parameterType?, stripModifiers_eq]
  rfl

/-- The types of parameters are read by indices as from the list. -/
theorem parameterTypes_eq (ts : List Token) : parameterTypes ts = .ok (Java.parameterTypes ts) := by
  have ht : (topLevelParts ts).mapM parameterType? =
      .ok ((topLevelParts ts).map Java.parameterType?) := mapM_eq_ok parameterType?_eq _
  rw [parameterTypes, partsOf_eq]
  show ((topLevelParts ts).mapM parameterType? >>= fun types => pure (types.filterMap id)) = _
  rw [ht, Java.parameterTypes]
  show Except.ok (((topLevelParts ts).map Java.parameterType?).filterMap id) = _
  rw [List.filterMap_map]
  rfl

/-- The index of a mark is the length of what stands in front of it. -/
theorem findIdx?_mark (c : Char) (ts : List Token) :
    ts.findIdx? (· = .mark c) =
      if ts.dropWhile (· ≠ .mark c) = [] then none
      else some (ts.takeWhile (· ≠ .mark c)).length := by
  induction ts with
  | nil => rfl
  | cons t ts ih =>
    rw [List.findIdx?_cons]
    by_cases ht : t = .mark c
    · rw [if_pos (decide_eq_true ht), List.dropWhile_cons_of_neg (by simpa using ht),
        List.takeWhile_cons_of_neg (by simpa using ht), if_neg (List.cons_ne_nil _ _)]
      rfl
    · rw [if_neg (by simpa using ht), ih, List.dropWhile_cons_of_pos (by simpa using ht),
        List.takeWhile_cons_of_pos (by simpa using ht)]
      split <;> rfl

/-- Any list is the run it starts with and the rest. -/
theorem at_takeWhile (p : Token → Bool) (ts : List Token) :
    At ts 0 (ts.takeWhile p ++ ts.dropWhile p) := by
  rw [List.takeWhile_append_dropWhile]
  exact at_zero ts

/-- What stands in front of a mark is a range, whether the mark is found or not. -/
theorem beforeMark_eq (c : Char) (ts : List Token) :
    beforeMark c ts = .ok (ts.takeWhile (· ≠ .mark c)) := by
  have ha := at_takeWhile (· ≠ .mark c) ts
  rw [beforeMark, findIdx?_mark]
  split
  · next i hi =>
    split at hi
    · cases hi
    · cases hi
      have hs := ha.slice
      rwa [Nat.zero_add] at hs
  · next hi =>
    split at hi
    · next hd =>
      have he := List.takeWhile_append_dropWhile (p := (· ≠ .mark c)) (l := ts)
      rw [hd, List.append_nil] at he
      rw [he]
    · cases hi

/-- The first range between commas is the first part. -/
theorem firstPart?_eq (ts : List Token) : firstPart? ts = .ok (topLevelParts ts).head? := by
  have hparts := partsOf_eq ts
  rw [partsOf] at hparts
  rw [firstPart?]
  cases hf : partsFrom ts 0 0 0 with
  | nil =>
    rw [hf] at hparts
    rw [← Except.ok.inj hparts]
    rfl
  | cons p ps =>
    rw [hf, List.mapM_cons] at hparts
    obtain ⟨part, hp, hparts⟩ := eq_ok_of_bind hparts
    obtain ⟨parts, -, hparts⟩ := eq_ok_of_bind hparts
    rw [← Except.ok.inj hparts]
    dsimp only [List.head?_cons]
    rw [hp]
    rfl

/-- The type of a field is read by indices as from the list. -/
theorem fieldType?_eq (ts : List Token) : fieldType? ts = .ok (Java.fieldType? ts) := by
  rw [fieldType?, beforeMark_eq]
  show (firstPart? (ts.takeWhile (· ≠ .mark '=')) >>= fun first =>
    pure (first.bind declaratorType?)) = _
  rw [firstPart?_eq]
  rfl

/-- What stands inside a parenthesis reaches up to the closing one, or up to the end. -/
theorem slice_arguments {params : List Token} (h : At ts i (.mark '(' :: params)) :
    slice ts (i + 1) ((matching ts '(' ')' i).getD ts.length) = .ok (insideParentheses params) := by
  rw [matching_eq h, insideParentheses]
  cases hs : splitClose '(' ')' 0 params with
  | none =>
    have hn := h.next
    have hl := hn.length
    have hp : At ts (i + 1) (params ++ []) := by rwa [List.append_nil]
    rw [Option.map_none, Option.getD_none, ← hl]
    exact hp.slice
  | some s =>
    obtain ⟨inside, after⟩ := s
    have hn := h.next
    rw [append_of_splitClose hs] at hn
    exact hn.slice

/-- A method's name is the word in front of its parameters. -/
theorem signatureAt_eq {front params : List Token} (h : ts = front ++ .mark '(' :: params) :
    signatureAt ts front.length = .ok
      (match front.reverse with
        | .word _ :: type =>
          (returnType? type.reverse, Java.parameterTypes (insideParentheses params))
        | _ => (none, [])) := by
  rcases List.eq_nil_or_concat front with rfl | ⟨type, t, rfl⟩
  · rfl
  have ha : At ts 0 (type ++ t :: .mark '(' :: params) := ⟨[], by simpa using h, rfl⟩
  have hname : element ts type.length = .ok t := by
    have hn := ha.append.get?
    rw [Nat.zero_add] at hn
    rw [element, hn]
    rfl
  have htype : slice ts 0 type.length = .ok type := by
    have hs := ha.slice
    rwa [Nat.zero_add] at hs
  have hargs : At ts (type.length + 1) (.mark '(' :: params) := by
    have hn := ha.append.next
    rwa [Nat.zero_add] at hn
  have hslice := slice_arguments hargs
  have hmax := Nat.max_eq_left (le_of_slice hslice).1
  have hminus : minus (type.length + 1) 1 = .ok type.length := by
    rw [Nat.add_comm]
    exact minus_add 1 _
  rw [signatureAt, List.length_concat, List.concat_eq_append, List.reverse_concat,
    if_neg (Nat.succ_ne_zero _), hminus]
  simp only [bind, Except.bind, hname]
  cases t with
  | word w =>
    simp only [Token.isWord, Bool.not_true, htype, hmax, hslice, parameterTypes_eq,
      List.reverse_reverse]
    rfl
  | _ => rfl

/-- The type parameters that a declaration starts with are passed over. -/
theorem behindTypeParameters_eq (ts : List Token) :
    behindTypeParameters ts = .ok (dropBracketed '<' '>' ts) := by
  cases ts with
  | nil => rfl
  | cons t ts =>
    by_cases ht : t = .mark '<'
    · subst ht
      exact (at_zero _).behindMatching.sliceFrom
    · rw [dropBracketed, if_neg ht]
      exact if_neg fun he => ht (Option.some.inj he)

/-- The first parenthesis behind the type parameters opens the parameters. -/
theorem signature_eq (ts : List Token) : signature ts = .ok (Java.signature ts) := by
  rw [signature, behindTypeParameters_eq, Java.signature]
  generalize dropBracketed '<' '>' ts = rest
  show (match rest.findIdx? (· = .mark '(') with
    | none => Except.ok (none, [])
    | some i => signatureAt rest i) = _
  have he := List.takeWhile_append_dropWhile (p := (· ≠ .mark '(')) (l := rest)
  have hhead := head?_dropWhile (· ≠ .mark '(') rest
  rw [findIdx?_mark]
  cases hd : rest.dropWhile (· ≠ .mark '(') with
  | nil =>
    rw [if_pos rfl]
    dsimp only
    split
    · next h => cases h
    · rfl
  | cons t params =>
    have ht : t = .mark '(' := by
      rw [hd] at hhead
      simpa using hhead
    rw [hd, ht] at he
    rw [if_neg (List.cons_ne_nil _ _)]
    dsimp only
    rw [signatureAt_eq he.symm]
    cases (rest.takeWhile (· ≠ .mark '(')).reverse with
    | nil => rfl
    | cons u type => cases u <;> rfl

end

end TestImpact.Java.Indexed
