import TestImpact.Java.TypeReference
import TestImpact.Proofs.Java.Indexed.Declarations

/-!
# Looking for type positions by indices

An index goes over all tokens. At each of them the tokens around it are looked up, and a second
index runs ahead: to the bracket that closes a list of type arguments, or along the names in a list
of types. Main statement: the looks and ranges are inside the list, the second index goes on, and
what is found is what the search over the token list finds (`references_eq`).
-/

namespace TestImpact.Java.Indexed

/-- The index of the bracket that closes a list of type arguments, from index `i` on, where `depth`
brackets are open. There is no such list if something inside cannot belong to one. -/
def argumentsEnd (ts : List Token) (depth : Int) (i : Nat) : Option Nat :=
  if h : i < ts.length then
    if ts[i] = .mark '<' then argumentsEnd ts (depth + 1) (i + 1)
    else if ts[i] = .mark '>' then
      if depth - 1 = 0 then some i else argumentsEnd ts (depth - 1) (i + 1)
    else if fitsArguments ts[i] ts[i + 1]? then argumentsEnd ts depth (i + 1)
    else none
  else none
termination_by ts.length - i

/-- The last segment of the dotted name at index `i`, and the index behind the name. `last` is the
segment in front of the index. -/
def dottedNameAt (ts : List Token) (last : Option String) (i : Nat) : Option String × Nat :=
  if h : i < ts.length then
    match ts[i] with
    | .word n =>
      if isReserved n then (last, i)
      else if ts[i + 1]? = some (.mark '.') ∧ ts[i + 2]?.any Token.isWord then
        dottedNameAt ts (some n) (i + 2)
      else (some n, i + 1)
    | _ => (last, i)
  else (last, i)
termination_by ts.length - i

/-- The index behind the type arguments at index `i`, if there are some and they can be read. -/
def behindArguments? (ts : List Token) (i : Nat) : Option Nat :=
  if ts[i]? = some (.mark '<') then (argumentsEnd ts 0 i).map (· + 1) else some i

/-- The last segments of the names in a list of types from index `i` on. -/
def listedTypesAt (ts : List Token) (i : Nat) : Except Fault (List String) :=
  match dottedNameAt ts none i with
  | (none, _) => .ok []
  | (some name, after) =>
    match behindArguments? ts after with
    | none => .ok [name]
    | some j =>
      if h : ts[j]? = some (.mark ',') ∨ ts[j]? = some (.mark '&') then
        if i < j + 1 then (listedTypesAt ts (j + 1)).map (name :: ·) else .error .stuck
      else .ok [name]
termination_by ts.length - i
decreasing_by
  have hj : j < ts.length := by
    rcases h with h | h <;> exact (List.getElem?_eq_some_iff.1 h).1
  omega

/-- The token in front of an index. -/
def tokenBefore (ts : List Token) (i : Nat) : Except Fault (Option Token) :=
  if i = 0 then .ok none else (element ts (i - 1)).map some

/-- The names that the token `t` at index `i` puts in type position. -/
def namesAt (ts : List Token) (i : Nat) (t : Token) : Except Fault (List String) := do
  let prev ← tokenBefore ts i
  match t with
  | .mark '<' =>
    match argumentsEnd ts 0 i with
    | some stop => (slice ts (i + 1) stop).map fun inside => wordsOf (prev.toList ++ inside)
    | none => .ok []
  | .word "new" | .word "instanceof" => .ok (dottedNameAt ts none (i + 1)).1.toList
  | .word "extends" | .word "implements" | .word "throws" => listedTypesAt ts (i + 1)
  | .word name =>
    .ok (if prev ≠ some (.mark '@') && isTypePosition prev name ts[i + 1]? ts[i + 2]? then [name]
      else [])
  | _ => .ok []

/-- The names in type position from index `i` on, keywords included. -/
def mentionedFrom (ts : List Token) (i : Nat) : Except Fault (List String) :=
  if h : i < ts.length then do
    let names ← namesAt ts i ts[i]
    (mentionedFrom ts (i + 1)).map (names ++ ·)
  else .ok []
termination_by ts.length - i

/-- The simple names in type position. -/
def references (ts : List Token) : Except Fault (List String) :=
  (mentionedFrom ts 0).map (·.filter (!isKeyword ·))

section
variable {ts rest inside after : List Token} {depth i : Nat}

/-! ## Running ahead -/

/-- The index of the closing angle bracket is that of the list of arguments that is split off. -/
theorem argumentsEnd_eq (h : At ts i rest) :
    argumentsEnd ts ((depth : Int) + 1) i =
      (argumentList? depth rest).map fun s => i + s.1.length := by
  induction rest generalizing depth i with
  | nil => rw [argumentsEnd, dif_neg h.not_lt]; rfl
  | cons t rest ih =>
    have hnext : ts[i + 1]? = rest.head? := h.next.get?
    have hlen : (fun s : List Token × List Token => i + 1 + s.1.length) =
        (fun s => i + s.1.length) ∘ fun s => (t :: s.1, s.2) := by
      funext s
      exact Nat.add_assoc i 1 _ |>.trans (congrArg (i + ·) (Nat.add_comm 1 _))
    rw [argumentsEnd, argumentList?.eq_def, dif_pos h.lt, h.getElem, hnext]
    dsimp only
    split
    · rw [← Int.natCast_succ, ih h.next, Option.map_map, hlen]
    · split
      · cases depth with
        | zero => rfl
        | succ d =>
          rw [if_neg (by omega), Int.add_sub_cancel, Int.natCast_succ, ih h.next]
          dsimp only
          rw [Option.map_map, hlen]
      · split
        · rw [ih h.next, Option.map_map, hlen]
        · rfl

/-- Only the opening bracket itself is counted at the start. -/
theorem argumentsEnd_open (h : At ts i (.mark '<' :: rest)) :
    argumentsEnd ts 0 i = (argumentList? 0 rest).map fun s => i + 1 + s.1.length := by
  rw [argumentsEnd, dif_pos h.lt, h.getElem, if_pos rfl]
  exact argumentsEnd_eq h.next

/-- A dotted name at an index has the last segment of the list, and ends where that ends. -/
theorem dottedNameAt_eq (last : Option String) (h : At ts i rest) :
    (dottedNameAt ts last i).1 = (dottedName last rest).1 ∧
      At ts (dottedNameAt ts last i).2 (dottedName last rest).2 := by
  fun_induction dottedName last rest generalizing i with
  | case1 last n m r hres =>
    rw [dottedNameAt, dif_pos h.lt, h.getElem]
    dsimp only
    rw [if_pos hres]
    exact ⟨rfl, h⟩
  | case2 last n m r hres ih =>
    have hdot : ts[i + 1]? = some (.mark '.') := h.next.get?
    have hword : ts[i + 2]? = some (.word m) := h.next.next.get?
    rw [dottedNameAt, dif_pos h.lt, h.getElem]
    dsimp only
    rw [if_neg hres, hdot, hword, if_pos ⟨rfl, rfl⟩]
    exact ih h.next.next
  | case3 last n r hr hres =>
    rw [dottedNameAt, dif_pos h.lt, h.getElem]
    dsimp only
    rw [if_pos hres]
    exact ⟨rfl, h⟩
  | case4 last n r hr hres =>
    have hnot : ¬(ts[i + 1]? = some (.mark '.') ∧ ts[i + 2]?.any Token.isWord) := by
      intro hs
      obtain ⟨m, more, rfl⟩ := h.next.exists_segment hs
      exact hr m more rfl
    rw [dottedNameAt, dif_pos h.lt, h.getElem]
    dsimp only
    rw [if_neg hres, if_neg hnot]
    exact ⟨rfl, h.next⟩
  | case5 last ts' _ hw =>
    cases ts' with
    | nil =>
      rw [dottedNameAt, dif_neg h.not_lt]
      exact ⟨rfl, h⟩
    | cons t rest =>
      rw [dottedNameAt, dif_pos h.lt, h.getElem]
      split
      · exact absurd rfl (hw _ _)
      · exact ⟨rfl, h⟩

/-- Type arguments are passed over or cannot be read. -/
theorem behindArguments_rel (h : At ts i rest) :
    Option.Rel (At ts) (behindArguments? ts i) (afterArguments? rest) := by
  rw [behindArguments?, h.get?]
  split
  · next hb =>
    obtain ⟨more, rfl⟩ := List.head?_eq_some_iff.1 hb
    rw [argumentsEnd_open h, afterArguments?]
    cases ha : argumentList? 0 more with
    | none => exact .none
    | some s =>
      obtain ⟨inside, after⟩ := s
      have hnext := h.next
      rw [append_of_argumentList? ha] at hnext
      exact .some hnext.append.next
  · next hb =>
    unfold afterArguments?
    split
    · exact absurd rfl hb
    · exact .some h

/-- The equation of `listedTypes`. -/
theorem listedTypes_eq_match (ts : List Token) : listedTypes ts =
    match dottedName none ts with
    | (none, _) => []
    | (some name, after) =>
      match afterArguments? after with
      | some (t :: rest) =>
        if t = .mark ',' ∨ t = .mark '&' then name :: listedTypes rest else [name]
      | _ => [name] := by
  rw [listedTypes]
  split
  · next hn => rw [hn]
  · next hn =>
    simp only [hn]
    split
    · next ha => rw [ha]
    · next ha =>
      split
      · next ha' => exact absurd ha' (ha _ _)
      · rfl

/-- The types in a list behind a keyword are found by indices as in the list. -/
theorem listedTypesAt_eq (h : At ts i rest) : listedTypesAt ts i = .ok (listedTypes rest) := by
  induction hn : ts.length - i using Nat.strongRecOn generalizing i rest with
  | ind n ih =>
    have hname := dottedNameAt_eq none h
    have hlen := length_dottedName none rest
    rw [listedTypesAt, listedTypes_eq_match]
    generalize dottedNameAt ts none i = found at hname ⊢
    generalize dottedName none rest = named at hname hlen ⊢
    obtain ⟨last, j⟩ := found
    obtain ⟨last', after⟩ := named
    obtain ⟨rfl, hafter⟩ : last = last' ∧ At ts j after := hname
    cases last with
    | none => rfl
    | some name =>
      have hbehind := behindArguments_rel hafter
      dsimp only
      generalize behindArguments? ts j = behind at hbehind ⊢
      generalize ha : afterArguments? after = more at hbehind ⊢
      cases hbehind with
      | none => rfl
      | @some k more hk =>
        have hle : i ≤ k := by
          have hmore := length_of_afterArguments? ha
          have hi := h.length
          have hk := hk.length
          dsimp only at hlen
          omega
        cases more with
        | nil =>
          dsimp only
          rw [hk.get?]
          rfl
        | cons t more =>
          have hlt := hk.lt
          have hrest := ih _ (by omega) hk.next rfl
          simp only [hk.get?, List.head?_cons, Option.some_inj, hrest,
            if_pos (Nat.lt_succ_of_le hle)]
          split <;> rfl

/-! ## The search -/

/-- The token in front of an index is the last one of what stands in front. -/
theorem tokenBefore_eq (before rest : List Token) :
    tokenBefore (before ++ rest) before.length = .ok before.getLast? := by
  rw [tokenBefore]
  cases hb : before.getLast? with
  | none =>
    obtain rfl := List.getLast?_eq_none_iff.1 hb
    rfl
  | some t =>
    obtain ⟨front, rfl⟩ := List.getLast?_eq_some_iff.1 hb
    have hat : At (front ++ [t] ++ rest) front.length (t :: rest) := ⟨front, by simp, rfl⟩
    rw [List.length_append, List.length_singleton, if_neg (Nat.succ_ne_zero _),
      Nat.add_sub_cancel, element, hat.get?]
    rfl

/-- The range inside a list of type arguments. -/
theorem slice_arguments_eq (h : At ts i (.mark '<' :: rest))
    (ha : argumentList? 0 rest = some (inside, after)) :
    slice ts (i + 1) (i + 1 + inside.length) = .ok inside := by
  have hnext := h.next
  rw [append_of_argumentList? ha] at hnext
  exact hnext.slice

/-- A token in its place puts the same names in type position as in the list. -/
theorem namesAt_eq (before : List Token) (t : Token) (rest : List Token) :
    namesAt (before ++ t :: rest) before.length t = .ok (Java.namesAt before.getLast? t rest) := by
  have h : At (before ++ t :: rest) before.length (t :: rest) := ⟨before, rfl, rfl⟩
  have hfirst : (before ++ t :: rest)[before.length + 1]? = rest.head? := h.next.get?
  have hsecond : (before ++ t :: rest)[before.length + 2]? = rest[1]? := h.next.getElem? 1
  simp only [namesAt, tokenBefore_eq, bind, Except.bind, hfirst, hsecond,
    (dottedNameAt_eq none h.next).1, listedTypesAt_eq h.next]
  unfold Java.namesAt
  split
  · rw [argumentsEnd_open h]
    cases ha : argumentList? 0 rest with
    | none => rfl
    | some s =>
      dsimp only [Option.map_some]
      rw [slice_arguments_eq h ha]
      rfl
  · rfl
  · rfl
  · rfl
  · rfl
  · rfl
  · simp only
  · simp only

/-- From an index on, the same names are in type position as in the list. -/
theorem mentionedFrom_eq (before rest : List Token) :
    mentionedFrom (before ++ rest) before.length = .ok (mentioned before.getLast? rest) := by
  induction rest generalizing before with
  | nil =>
    rw [mentionedFrom, List.append_nil, dif_neg (Nat.lt_irrefl _), mentioned]
  | cons t rest ih =>
    have h : At (before ++ t :: rest) before.length (t :: rest) := ⟨before, rfl, rfl⟩
    have hrest := ih (before ++ [t])
    rw [List.append_assoc, List.length_append, List.getLast?_concat] at hrest
    rw [mentionedFrom, dif_pos h.lt, h.getElem, namesAt_eq, mentioned]
    exact congrArg (Except.map _) hrest

/-- All looks and ranges of the search are inside the list, and it finds what the search over the
token list finds. -/
theorem references_eq (ts : List Token) : references ts = .ok (Java.references ts) := by
  have hm : mentionedFrom ts 0 = .ok (mentioned none ts) := mentionedFrom_eq [] ts
  rw [references, hm]
  rfl

end

end TestImpact.Java.Indexed
