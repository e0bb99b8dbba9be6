import TestImpact.Proofs.Java.Indexed.Declarations

/-!
# Reading type headers by indices

The header of a declared type is the range from its name up to its body. An index goes over it:
behind the type parameters, behind the components of a record, and from one list of supertypes to
the next. It may stand one behind the end when a record's parenthesis is never closed. Main
statement: the declaration is the one that `readHeader` reads (`typeHeader_eq`).
-/

namespace TestImpact.Java.Indexed

/-- The kind of the declaration that a list without modifiers starts with, and the index of the
declared name. -/
def declarationAt : List Token → Option (DeclKind × Nat)
  | .word "class" :: .word _ :: _ => some (.classType, 1)
  | .word "interface" :: .word _ :: _ => some (.interfaceType, 1)
  | .word "enum" :: .word _ :: _ => some (.enumType, 1)
  | .word "record" :: .word _ :: .mark '(' :: _ => some (.recordType, 1)
  | .word "record" :: .word _ :: .mark '<' :: _ => some (.recordType, 1)
  | .mark '@' :: .word "interface" :: .word _ :: _ => some (.annotationType, 2)
  | _ => none

/-- The raw types of the supertypes that are listed from index `i` on. -/
def supertypesFrom (ts : List Token) (i : Nat) : Except Fault (List String) :=
  if h : i < ts.length then
    if startsSupertypes ts[i] then
      let j := skipWhile (fun t => !endsSupertypes t) ts (i + 1)
      match slice ts (i + 1) j >>= partsOf with
      | .error e => .error e
      | .ok parts =>
        if i < j then (supertypesFrom ts j).map (((parts.map joinTokens).filter (· ≠ "")) ++ ·)
        else .error .stuck
    else supertypesFrom ts (i + 1)
  else .ok []
termination_by ts.length - i

/-- The raw types of a record's components, whose parenthesis is at index `i`, and the index behind
them. -/
def componentsAt (ts : List Token) (i : Nat) : Except Fault (List String × Nat) := do
  let close := (matching ts '(' ')' i).getD ts.length
  let inside ← slice ts (i + 1) (min close ts.length)
  return (← parameterTypes inside, close + 1)

/-- The component types of a declaration of the kind whose header goes on at index `i`, and the
index behind them. -/
def behindComponents (kind : DeclKind) (ts : List Token) (i : Nat) :
    Except Fault (List String × Nat) :=
  if kind = .recordType ∧ ts[i]? = some (.mark '(') then componentsAt ts i else .ok ([], i)

/-- The index behind the name and the type parameters of a header. -/
def behindName (ts : List Token) : Nat :=
  if ts[1]? = some (.mark '<') then behindMatching ts '<' '>' 1 else 1

/-- The declaration of a type inside `outer`, whose header goes from its name at `nameAt` up to
`stop`, and its component types. -/
def typeHeader (outer : String) (ts : List Token) (kind : DeclKind) (nameAt stop : Nat) :
    Except Fault (TypeDecl × List String) := do
  let header ← slice ts nameAt stop
  let name := match header.head? with
    | some (.word n) => n
    | _ => ""
  let components ← behindComponents kind header (behindName header)
  let supertypes ← supertypesFrom header components.2
  return ({ name, kind, qualified := qualify outer name, supertypes }, components.1)

section
variable {ts rest header : List Token} {i : Nat} {kind : DeclKind} {name outer : String}

/-- Where the list holds no declaration, none is found by indices. -/
theorem declarationAt_eq_none (h : declaration? ts = none) : declarationAt ts = none := by
  unfold declarationAt
  split
  all_goals first | cases h | rfl

/-- The index of the declared name. -/
theorem exists_declarationAt (h : declaration? ts = some (kind, name, header)) :
    ∃ n, declarationAt ts = some (kind, n) ∧ At ts n (.word name :: header) := by
  unfold declaration? at h
  split at h
  all_goals cases h
  case h_6 => exact ⟨2, rfl, (at_zero _).next.next⟩
  all_goals exact ⟨1, rfl, (at_zero _).next⟩

/-- Every list of supertypes is cut out, and the index goes on behind it. -/
theorem supertypesFrom_eq (h : At ts i rest) : supertypesFrom ts i = .ok (supertypes rest) := by
  fun_induction supertypes rest generalizing i with
  | case1 =>
    rw [supertypesFrom, dif_neg h.not_lt]
  | case2 t ts' ht hl ih =>
    have hn := h.next
    have hsplit : At ts (i + 1) (ts'.takeWhile (fun t => !endsSupertypes t) ++
        ts'.dropWhile fun t => !endsSupertypes t) := by
      rwa [List.takeWhile_append_dropWhile]
    have hend := skipWhile_at (fun t => !endsSupertypes t) hn
    rw [supertypesFrom, dif_pos h.lt, h.getElem, if_pos ht]
    dsimp only
    rw [hend, hsplit.slice]
    simp only [bind, Except.bind, partsOf_eq]
    rw [if_pos (by omega), ih hsplit.append]
    rfl
  | case3 t ts' ht ih =>
    rw [supertypesFrom, dif_pos h.lt, h.getElem, if_neg ht]
    exact ih h.next

/-- Behind the end of a header there are no supertypes. -/
theorem supertypesFrom_of_le (h : ts.length ≤ i) : supertypesFrom ts i = .ok [] := by
  rw [supertypesFrom, dif_neg (Nat.not_lt.2 h)]

/-- A parenthesis that is never closed leads one behind the end. -/
theorem supertypesFrom_components (h : At ts i (.mark '(' :: rest)) :
    supertypesFrom ts ((matching ts '(' ')' i).getD ts.length + 1) =
      .ok (supertypes (afterClose '(' ')' rest)) := by
  have hb := h.behindMatching (c := ')')
  rw [behindMatching] at hb
  cases hm : matching ts '(' ')' i with
  | none =>
    have hs : afterClose '(' ')' rest = [] := by
      rw [matching_eq h, Option.map_eq_none_iff] at hm
      rw [afterClose, hm]
    rw [hs, supertypes, Option.getD_none]
    exact supertypesFrom_of_le (Nat.le_succ _)
  | some j =>
    rw [hm] at hb
    exact supertypesFrom_eq hb

/-- The components of a record are the range between its parentheses. -/
theorem componentsAt_eq (h : At ts i (.mark '(' :: rest)) :
    componentsAt ts i = .ok (Java.parameterTypes (insideParentheses rest),
      (matching ts '(' ')' i).getD ts.length + 1) := by
  have hslice := slice_arguments h
  rw [componentsAt, Nat.min_eq_left (le_of_slice hslice).2, hslice]
  simp only [bind, Except.bind, parameterTypes_eq]
  rfl

/-- Behind the name of a type stands what follows its type parameters. -/
theorem at_behindName (t : Token) (header : List Token) :
    At (t :: header) (behindName (t :: header)) (dropBracketed '<' '>' header) := by
  have hn : At (t :: header) 1 header := (at_zero (t :: header)).next
  rw [behindName, hn.get?]
  cases header with
  | nil => exact hn
  | cons u header =>
    by_cases hu : u = .mark '<'
    · subst hu
      exact hn.behindMatching
    · have hne : ¬(u :: header).head? = some (.mark '<') := fun he => hu (Option.some.inj he)
      rw [if_neg hne, dropBracketed, if_neg hu]
      exact hn

/-- Behind the components of a record, or where no record is declared, the supertypes follow. -/
theorem exists_behindComponents (kind : DeclKind) (h : At ts i header) :
    ∃ j, behindComponents kind ts i = .ok (componentTypes kind header, j) ∧
      supertypesFrom ts j = .ok (supertypes (afterComponents kind header)) := by
  by_cases hc : kind = .recordType ∧ header.head? = some (.mark '(')
  · obtain ⟨rfl, hp⟩ := hc
    obtain ⟨rest, rfl⟩ := List.head?_eq_some_iff.1 hp
    refine ⟨_, ?_, supertypesFrom_components h⟩
    rw [behindComponents, if_pos ⟨rfl, h.get?⟩]
    exact componentsAt_eq h
  · have hnone : componentTypes kind header = [] := by
      unfold componentTypes
      split
      · exact absurd ⟨rfl, rfl⟩ hc
      · rfl
    have hafter : afterComponents kind header = header := by
      unfold afterComponents
      split
      · next hk =>
        cases header with
        | nil => rfl
        | cons t header => exact if_neg fun ht => hc ⟨hk, congrArg some ht⟩
      · rfl
    refine ⟨i, ?_, ?_⟩
    · rw [behindComponents, h.get?, if_neg hc, hnone]
    · rw [hafter, supertypesFrom_eq h]

/-- The header of a type gives its declaration. -/
theorem typeHeader_eq (h : At ts i (.word name :: header ++ rest)) :
    typeHeader outer ts kind i (i + (header.length + 1)) =
      .ok (readHeader outer kind name header) := by
  have hslice : slice ts i (i + (header.length + 1)) = .ok (.word name :: header) := h.slice
  obtain ⟨j, hc, hs⟩ := exists_behindComponents kind (at_behindName (.word name) header)
  rw [typeHeader, hslice]
  simp only [bind, Except.bind, hc, hs]
  rfl

end

end TestImpact.Java.Indexed
