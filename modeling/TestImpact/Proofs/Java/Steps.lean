import TestImpact.Proofs.Java.Walk

/-!
# One step of the walk

The walk over the members of a source goes from place to place. A step reads one token or a whole
skipped block, may find a member, and leads to the next place. `Step` has one constructor for each
kind of step, so what a step keeps is shown by cases on it, and what a walk keeps by induction on
`Run`. Main statements: the walk goes on behind a step (`Step.walk`, `Run.walk`), and a walk that
comes to an end is a run that ends outside of all bodies and brackets (`exists_run_of_walk`).
-/

namespace TestImpact.Java

/-- A place of the walk: the types around it, the number of open parentheses and brackets, whether
it is among the constants of an enum, and the segment at hand, the last token first. -/
structure Place where
  outer : List String
  nest : Nat
  constants : Bool
  segment : List Token

/-- The place in front of the first member. -/
def Place.start : Place := ⟨[], 0, false, []⟩

/-- The walk from a place on. -/
def Place.walk (p : Place) (ts : List Token) : Except Malformed (List Member) :=
  Java.walk p.outer p.nest p.constants p.segment ts

/-- The role of a block at the place. Among constants and inside brackets every block is a value. -/
def Place.blockRole (p : Place) : BlockRole :=
  if p.nest ≠ 0 ∨ p.constants then .value else Java.blockRole p.segment.reverse

/-- `Step p piece found q` says that the walk reads `piece` at `p`, finds `found` and is at `q`. -/
inductive Step : Place → List Token → List Member → Place → Prop
  /-- A token that is no bracket goes into the segment, but for a semicolon that counts. -/
  | token {outer : List String} {nest : Nat} {constants : Bool} {segment : List Token} {t : Token} :
    t.isBracket = false → (t = .mark ';' → nest ≠ 0) →
    Step ⟨outer, nest, constants, segment⟩ [t] [] ⟨outer, nest, constants, t :: segment⟩
  /-- A closing brace inside parentheses or brackets goes into the segment too. -/
  | brace {outer : List String} {nest : Nat} {constants : Bool} {segment : List Token} :
    nest ≠ 0 →
    Step ⟨outer, nest, constants, segment⟩ [.mark '}'] []
      ⟨outer, nest, constants, .mark '}' :: segment⟩
  | opens {outer : List String} {nest : Nat} {constants : Bool} {segment : List Token} {c : Char} :
    c = '(' ∨ c = '[' →
    Step ⟨outer, nest, constants, segment⟩ [.mark c] []
      ⟨outer, nest + 1, constants, .mark c :: segment⟩
  | closes {outer : List String} {nest : Nat} {constants : Bool} {segment : List Token} {c : Char} :
    c = ')' ∨ c = ']' →
    Step ⟨outer, nest + 1, constants, segment⟩ [.mark c] []
      ⟨outer, nest, constants, .mark c :: segment⟩
  | endConstants {outer : List String} {segment : List Token} :
    Step ⟨outer, 0, true, segment⟩ [.mark ';'] [] ⟨outer, 0, false, []⟩
  | statement {outer : List String} {segment : List Token} :
    Step ⟨outer, 0, false, segment⟩ [.mark ';'] (statementMember? segment.reverse).toList
      ⟨outer, 0, false, []⟩
  | endBody {name : String} {outer : List String} {constants : Bool} {segment : List Token} :
    Step ⟨name :: outer, 0, constants, segment⟩ [.mark '}'] [] ⟨outer, 0, false, []⟩
  | body {outer : List String} {segment : List Token} {kind : DeclKind} {name : String}
    {header : List Token} :
    blockRole segment.reverse = .body kind name header →
    Step ⟨outer, 0, false, segment⟩ [.mark '{']
      [.type (readHeader (outer.headD "") kind name header).1
        (readHeader (outer.headD "") kind name header).2]
      ⟨(readHeader (outer.headD "") kind name header).1.qualified :: outer, 0, kind = .enumType, []⟩
  /-- A block that is no body is skipped up to the brace that closes it. -/
  | block {p : Place} {inside : List Token} :
    (∀ kind name header, p.blockRole ≠ .body kind name header) →
    (pairCount '{' '}').depth 0 inside = some 0 →
    Step p (.mark '{' :: (inside ++ [.mark '}'])) (skipBlock p.segment inside p.blockRole).1.toList
      { p with segment := (skipBlock p.segment inside p.blockRole).2 }

/-- `Run p ts found q` says that steps lead from `p` to `q`, read `ts` and find `found`. -/
inductive Run : Place → List Token → List Member → Place → Prop
  | refl {p : Place} : Run p [] [] p
  | step {p q r : Place} {piece ts : List Token} {found more : List Member} :
    Step p piece found q → Run q ts more r → Run p (piece ++ ts) (found ++ more) r

section
variable {p q r : Place} {t : Token} {piece ts : List Token} {found more ms : List Member}

/-! ## The walk behind a step -/

/-- Inside parentheses and brackets a closing brace is a token like any other. -/
theorem walk_passedBrace {outer : List String} {nest : Nat} {constants : Bool}
    {segment : List Token} (hn : nest ≠ 0) :
    walk outer nest constants segment (.mark '}' :: ts) =
      walk outer nest constants (.mark '}' :: segment) ts := by
  rw [walk.eq_def]
  exact if_pos hn

/-- The walk goes on behind a step. -/
theorem Step.walk (h : Step p piece found q) (rest : List Token) :
    p.walk (piece ++ rest) = (q.walk rest).map (found ++ ·) := by
  cases h with
  | token ht hs => exact (walk_token ht hs).trans (map_nil_append _).symm
  | brace hn =>
    rw [map_nil_append]
    exact walk_passedBrace hn
  | opens hc =>
    rw [map_nil_append]
    rcases hc with rfl | rfl
    · exact walk_parenthesis
    · exact walk_bracket
  | closes hc =>
    rw [map_nil_append]
    rcases hc with rfl | rfl
    · exact walk_closeParenthesis
    · exact walk_closeBracket
  | endConstants => exact walk_endConstants.trans (map_nil_append _).symm
  | statement => exact walk_semicolon
  | endBody => exact walk_closeBrace.trans (map_nil_append _).symm
  | body hb => exact walk_body hb
  | @block _ inside hr hi =>
    have he : .mark '{' :: (inside ++ [.mark '}']) ++ rest =
        .mark '{' :: (inside ++ .mark '}' :: rest) := by simp
    rw [he]
    exact walk_block rfl hr (splitClose_append (by decide) hi)

/-- A walk through a run finds what the run finds, and goes on behind it. -/
theorem Run.walk (h : Run p ts found q) (rest : List Token) :
    p.walk (ts ++ rest) = (q.walk rest).map (found ++ ·) := by
  induction h with
  | refl => exact (map_nil_append _).symm
  | step hs _ ih => rw [List.append_assoc, hs.walk, ih, map_append_map]

/-- A step reads something. -/
theorem Step.piece_ne (h : Step p piece found q) : piece ≠ [] := by
  cases h <;> exact List.cons_ne_nil _ _

/-! ## The steps of a walk -/

/-- A walk that goes on beyond an opening brace starts a body or skips a block. -/
theorem exists_blockStep_of_walk (h : p.walk (.mark '{' :: ts) = .ok ms) :
    ∃ piece rest found q, .mark '{' :: ts = piece ++ rest ∧ Step p piece found q := by
  obtain ⟨outer, nest, constants, segment⟩ := p
  by_cases hb : ∃ kind name header,
      Place.blockRole ⟨outer, nest, constants, segment⟩ = .body kind name header
  · obtain ⟨kind, name, header, hb⟩ := hb
    simp only [Place.blockRole] at hb
    split at hb
    · cases hb
    · next hn =>
      obtain ⟨rfl, rfl⟩ : nest = 0 ∧ constants = false := by simpa using hn
      exact ⟨_, ts, _, _, rfl, .body hb⟩
  · have hr : ∀ kind name header,
        Place.blockRole ⟨outer, nest, constants, segment⟩ ≠ .body kind name header :=
      fun kind name header he => hb ⟨kind, name, header, he⟩
    cases hs : splitClose '{' '}' 0 ts with
    | none => cases (walk_unclosed rfl hr hs).symm.trans h
    | some s =>
      obtain ⟨inside, rest⟩ := s
      refine ⟨.mark '{' :: (inside ++ [.mark '}']), rest, _, _, ?_,
        .block hr (depth_of_splitClose hs)⟩
      rw [append_of_splitClose hs]
      simp

/-- There are six brackets. -/
theorem eq_of_isBracket (ht : ¬t.isBracket = false) :
    t = .mark '(' ∨ t = .mark '[' ∨ t = .mark ')' ∨ t = .mark ']' ∨ t = .mark '}' ∨
      t = .mark '{' := by
  simp only [Token.isBracket, List.any_cons, List.any_nil] at ht
  grind

/-- A walk that goes on beyond a token starts with a step. -/
theorem exists_step_of_walk (h : p.walk (t :: ts) = .ok ms) :
    ∃ piece rest found q, t :: ts = piece ++ rest ∧ Step p piece found q := by
  obtain ⟨outer, nest, constants, segment⟩ := p
  by_cases ht : t.isBracket = false
  · by_cases hs : t = .mark ';' → nest ≠ 0
    · exact ⟨[t], ts, _, _, rfl, .token ht hs⟩
    · obtain ⟨rfl, rfl⟩ : t = .mark ';' ∧ nest = 0 := by simpa using hs
      cases constants with
      | true => exact ⟨_, ts, _, _, rfl, .endConstants⟩
      | false => exact ⟨_, ts, _, _, rfl, .statement⟩
  rcases eq_of_isBracket ht with rfl | rfl | rfl | rfl | rfl | rfl
  · exact ⟨_, ts, _, _, rfl, .opens (.inl rfl)⟩
  · exact ⟨_, ts, _, _, rfl, .opens (.inr rfl)⟩
  · cases nest with
    | zero => rw [Place.walk, Java.walk] at h; cases h
    | succ nest => exact ⟨_, ts, _, _, rfl, .closes (.inl rfl)⟩
  · cases nest with
    | zero => rw [Place.walk, Java.walk] at h; cases h
    | succ nest => exact ⟨_, ts, _, _, rfl, .closes (.inr rfl)⟩
  · by_cases hn : nest = 0
    · subst hn
      cases outer with
      | nil => rw [Place.walk, Java.walk] at h; cases h
      | cons name outer => exact ⟨_, ts, _, _, rfl, .endBody⟩
    · exact ⟨_, ts, _, _, rfl, .brace hn⟩
  · exact exists_blockStep_of_walk h

/-- A walk that comes to an end is a run to a place outside of all bodies and brackets. -/
theorem exists_run_of_walk (h : p.walk ts = .ok ms) :
    ∃ q, Run p ts ms q ∧ q.outer = [] ∧ q.nest = 0 := by
  induction hn : ts.length using Nat.strongRecOn generalizing p ts ms with
  | ind n ih =>
    cases ts with
    | nil =>
      rw [Place.walk, Java.walk] at h
      split at h
      · cases h
      · next he =>
        cases h
        have he' : p.outer = [] ∧ p.nest = 0 := by simpa using he
        exact ⟨p, .refl, he'.1, he'.2⟩
    | cons t ts =>
      obtain ⟨piece, rest, found, q, he, hs⟩ := exists_step_of_walk h
      rw [he, hs.walk] at h
      obtain ⟨more, hq, rfl⟩ := eq_ok_of_map h
      have hlt : rest.length < n := by
        have hp := List.length_pos_iff.2 hs.piece_ne
        rw [← hn, he, List.length_append]
        omega
      obtain ⟨r, hr, hout⟩ := ih _ hlt hq rfl
      exact ⟨r, he ▸ .step hs hr, hout⟩

end

end TestImpact.Java
