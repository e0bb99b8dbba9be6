import TestImpact.Proofs.Java.CommaParts
import TestImpact.Proofs.Java.Indexed.Places

/-!
# Ranges of a token list

The bracket that closes another one and the parts between commas, found by indices. Main statements:
the index behind a closing bracket is where `afterClose` goes on (`At.behindMatching`), and the
ranges between commas are the parts of `topLevelParts` (`partsOf_eq`).
-/

namespace TestImpact.Java.Indexed

/-! ## Closing brackets -/

/-- The first index from `i` on at which the mark `c` closes the last open mark `o`, of which
`depth` are open. -/
def matchingFrom (ts : List Token) (o c : Char) (depth : Int) (i : Nat) : Option Nat :=
  if h : i < ts.length then
    if ts[i] = .mark o then matchingFrom ts o c (depth + 1) (i + 1)
    else if ts[i] = .mark c then
      if depth - 1 = 0 then some i else matchingFrom ts o c (depth - 1) (i + 1)
    else matchingFrom ts o c depth (i + 1)
  else none
termination_by ts.length - i

/-- The index of the mark `c` that closes the mark `o` at index `i`. -/
def matching (ts : List Token) (o c : Char) (i : Nat) : Option Nat := matchingFrom ts o c 0 i

/-- The index behind the mark that closes the one at index `i`, the end if none does. -/
def behindMatching (ts : List Token) (o c : Char) (i : Nat) : Nat :=
  (matching ts o c i).elim ts.length (· + 1)

section
variable {o c : Char} {ts rest : List Token} {i : Nat}

/-- The closing bracket stands behind what the list is split off in front of it. -/
theorem matchingFrom_eq (h : At ts i rest) (d : Nat) :
    matchingFrom ts o c (d + 1) i = (splitClose o c d rest).map fun s => i + s.1.length := by
  induction rest generalizing i d with
  | nil =>
    rw [matchingFrom, dif_neg h.not_lt]
    rfl
  | cons t rest ih =>
    have hnext : ∀ e : Nat, matchingFrom ts o c (e + 1) (i + 1) =
        ((splitClose o c e rest).map fun s => (t :: s.1, s.2)).map fun s => i + s.1.length := by
      intro e
      rw [ih h.next, Option.map_map]
      refine congrArg (Option.map · _) (funext fun s => ?_)
      rw [Function.comp_apply, List.length_cons]
      omega
    rw [matchingFrom, dif_pos h.lt, h.getElem, splitClose.eq_def]
    dsimp only
    split
    · exact hnext (d + 1)
    split
    · cases d with
      | zero => rfl
      | succ d =>
        have hd : ((d + 1 : Nat) : Int) + 1 - 1 = d + 1 := by omega
        rw [hd, if_neg (by omega)]
        exact hnext d
    · exact hnext d

/-- The bracket behind an opening one is the one that `splitClose` splits at. -/
theorem matching_eq (h : At ts i (.mark o :: rest)) :
    matching ts o c i = (splitClose o c 0 rest).map fun s => i + 1 + s.1.length := by
  rw [matching, matchingFrom, dif_pos h.lt, h.getElem, if_pos rfl]
  exact matchingFrom_eq h.next 0

/-- Behind the closing bracket stands what follows the bracketed part. -/
theorem At.behindMatching (h : At ts i (.mark o :: rest)) :
    At ts (behindMatching ts o c i) (afterClose o c rest) := by
  rw [Indexed.behindMatching, matching_eq h, afterClose]
  cases hs : splitClose o c 0 rest with
  | none => exact at_length ts
  | some s =>
    obtain ⟨inside, r⟩ := s
    have ha := h.next
    rw [append_of_splitClose hs] at ha
    exact ha.append.next

end

/-! ## Parts between commas -/

/-- The number of open brackets less that of closed ones behind a token. -/
def levelBehind (depth : Int) : Token → Int
  | .mark '<' | .mark '(' | .mark '[' => depth + 1
  | .mark '>' | .mark ')' | .mark ']' => depth - 1
  | _ => depth

/-- The ranges between the commas from index `i` on that stand outside of brackets. The first one
starts at `start`; `depth` is the number of open brackets less that of closed ones. -/
def partsFrom (ts : List Token) (depth : Int) (start i : Nat) : List (Nat × Nat) :=
  if h : i < ts.length then
    if ts[i] = .mark ',' ∧ depth = 0 then (start, i) :: partsFrom ts depth (i + 1) (i + 1)
    else partsFrom ts (levelBehind depth ts[i]) start (i + 1)
  else if start < ts.length then [(start, ts.length)]
  else []
termination_by ts.length - i

/-- The parts of a list between the commas outside of brackets, cut out by their ranges. -/
def partsOf (ts : List Token) : Except Fault (List (List Token)) :=
  (partsFrom ts 0 0 0).mapM fun p => slice ts p.1 p.2

/-- Nothing follows a comma at the end. -/
def withoutEmptyEnd (parts : List (List Token)) : List (List Token) :=
  if parts.getLast? = some [] then parts.dropLast else parts

section
variable {ts rest segment p : List Token} {ps : List (List Token)} {start : Nat}

/-- Only the last part can be dropped for being empty. -/
theorem withoutEmptyEnd_cons (hp : ps ≠ []) :
    withoutEmptyEnd (p :: ps) = p :: withoutEmptyEnd ps := by
  obtain ⟨q, qs, rfl⟩ := List.exists_cons_of_ne_nil hp
  rw [withoutEmptyEnd, withoutEmptyEnd, List.getLast?_cons_cons, List.dropLast_cons_cons]
  split <;> rfl

/-- There is always a part in front of the first comma. -/
theorem commaParts_ne_nil (d : Int) (ts : List Token) : commaParts d ts ≠ [] := by
  cases ts with
  | nil => exact List.cons_ne_nil _ _
  | cons t ts =>
    by_cases h : t = .mark ',' ∧ d = 0
    · obtain ⟨rfl, rfl⟩ := h
      rw [commaParts_comma]
      exact List.cons_ne_nil _ _
    · rw [commaParts_cons h]
      split <;> exact List.cons_ne_nil _ _

/-- The range at hand takes what stands in front of the next comma. -/
theorem partsFrom_eq (segment : List Token) (d : Int) (h : At ts start (segment ++ rest))
    (hp : commaParts d rest = p :: ps) :
    (partsFrom ts d start (start + segment.length)).mapM (fun q => slice ts q.1 q.2) =
      .ok (withoutEmptyEnd ((segment ++ p) :: ps)) := by
  induction rest generalizing d start segment p ps with
  | nil =>
    cases hp
    have hl := h.length
    rw [List.append_nil] at hl ⊢
    rw [partsFrom, dif_neg h.append.not_lt]
    cases segment with
    | nil =>
      have hend : ¬start < ts.length := by
        rw [List.length_nil] at hl
        omega
      rw [if_neg hend]
      rfl
    | cons t segment =>
      have hstart : start < ts.length := by
        rw [List.length_cons] at hl
        omega
      rw [if_pos hstart, ← hl, List.mapM_cons, h.slice]
      rfl
  | cons t rest ih =>
    rw [partsFrom, dif_pos h.append.lt, h.append.getElem]
    by_cases hc : t = .mark ',' ∧ d = 0
    · rw [if_pos hc]
      obtain ⟨rfl, rfl⟩ := hc
      rw [commaParts_comma] at hp
      obtain ⟨rfl, rfl⟩ := List.cons.inj hp
      obtain ⟨q, qs, hq⟩ := List.exists_cons_of_ne_nil (commaParts_ne_nil 0 rest)
      have hrest := ih [] 0 h.append.next hq
      rw [List.length_nil, Nat.add_zero, List.nil_append, ← hq] at hrest
      rw [List.mapM_cons, h.slice, hrest, List.append_nil,
        withoutEmptyEnd_cons (commaParts_ne_nil 0 rest)]
      rfl
    · have hl : levelBehind d t = d + level [t] := eq_level d t
      rw [if_neg hc, hl]
      rw [commaParts_cons hc] at hp
      obtain ⟨q, qs, hq⟩ := List.exists_cons_of_ne_nil (commaParts_ne_nil (d + level [t]) rest)
      rw [hq] at hp
      obtain ⟨rfl, rfl⟩ := List.cons.inj hp
      have hrest := ih (segment ++ [t]) (d + level [t]) (by simpa using h) hq
      rw [List.length_append, List.append_assoc] at hrest
      exact hrest

/-- The ranges between commas are the parts that `topLevelParts` gives. -/
theorem partsOf_eq (ts : List Token) : partsOf ts = .ok (topLevelParts ts) := by
  obtain ⟨p, ps, hp⟩ := List.exists_cons_of_ne_nil (commaParts_ne_nil 0 ts)
  have hparts := partsFrom_eq [] 0 (at_zero ts) hp
  rw [topLevelParts, hp]
  exact hparts

end

end TestImpact.Java.Indexed
