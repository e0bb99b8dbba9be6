import TestImpact.Proofs.Java.Imports
import TestImpact.Proofs.Java.Walk

/-!
# Which sources are read

The walk over the members of a source counts parentheses and brackets together, looks for the end of
a skipped block by its braces alone, and starts anew in the body of every type. Main statements:
wherever the walk stands, it comes out behind nested tokens with the same bodies around it and the
same number of open parentheses and brackets (`WellNested.passedOver`); so a source that is nested
behind its package and its imports is read, whatever else stands in it
(`exists_read_of_wellNested`).
-/

namespace TestImpact.Java

/-- Wherever the walk meets the list, it goes on behind it, inside the same bodies, with as many
open parentheses and brackets, and with something found. What is left of the segment and of the
constants of an enum depends on the list, but not on what follows. -/
def PassedOver (ts : List Token) : Prop :=
  ∀ (outer : List String) (nest : Nat) (constants : Bool) (segment : List Token),
    ∃ found constants' segment', ∀ rest,
      walk outer nest constants segment (ts ++ rest) =
        (walk outer nest constants' segment' rest).map (found ++ ·)

section
variable {ts us inside body : List Token} {t : Token} {p : Token → Prop} {text : String}
  {imports : List Import}

/-! ## What is passed over -/

/-- The empty list is passed over. -/
theorem passedOver_nil : PassedOver [] := by
  intro outer nest constants segment
  exact ⟨[], constants, segment, fun rest => (map_nil_append _).symm⟩

/-- Two lists one after another are passed over. -/
theorem PassedOver.append (ht : PassedOver ts) (hu : PassedOver us) : PassedOver (ts ++ us) := by
  intro outer nest constants segment
  obtain ⟨found, constants₁, segment₁, h₁⟩ := ht outer nest constants segment
  obtain ⟨more, constants₂, segment₂, h₂⟩ := hu outer nest constants₁ segment₁
  refine ⟨found ++ more, constants₂, segment₂, fun rest => ?_⟩
  rw [List.append_assoc, h₁, h₂, map_append_map]

/-- A token that is no bracket goes into the segment, unless it is a semicolon that completes a
member or ends the constants of an enum. -/
theorem passedOver_token (ht : t.isBracket = false) : PassedOver [t] := by
  intro outer nest constants segment
  by_cases hs : t = .mark ';' ∧ nest = 0
  · obtain ⟨rfl, rfl⟩ := hs
    cases constants with
    | true =>
      refine ⟨[], false, [], fun rest => ?_⟩
      rw [List.singleton_append, walk_endConstants, map_nil_append]
    | false => exact ⟨_, false, [], fun rest => walk_semicolon⟩
  · refine ⟨[], constants, t :: segment, fun rest => ?_⟩
    rw [List.singleton_append, walk_token ht fun he hn => hs ⟨he, hn⟩, map_nil_append]

/-- Parentheses around such a list are passed over. -/
theorem PassedOver.parentheses (hi : PassedOver inside) :
    PassedOver (.mark '(' :: (inside ++ [.mark ')'])) := by
  intro outer nest constants segment
  obtain ⟨found, constants', segment', hf⟩ :=
    hi outer (nest + 1) constants (.mark '(' :: segment)
  refine ⟨found, constants', .mark ')' :: segment', fun rest => ?_⟩
  rw [List.cons_append, walk_parenthesis, List.append_assoc, hf, List.singleton_append,
    walk_closeParenthesis]

/-- Brackets around such a list are passed over. -/
theorem PassedOver.brackets (hi : PassedOver inside) :
    PassedOver (.mark '[' :: (inside ++ [.mark ']'])) := by
  intro outer nest constants segment
  obtain ⟨found, constants', segment', hf⟩ :=
    hi outer (nest + 1) constants (.mark '[' :: segment)
  refine ⟨found, constants', .mark ']' :: segment', fun rest => ?_⟩
  rw [List.cons_append, walk_bracket, List.append_assoc, hf, List.singleton_append,
    walk_closeBracket]

/-- The body of a type is walked, and any other block is skipped up to the brace that closes it. The
braces alone lead to that brace, since everything inside is nested. -/
theorem PassedOver.braces (hn : WellNested p inside) (hi : PassedOver inside) :
    PassedOver (.mark '{' :: (inside ++ [.mark '}'])) := by
  intro outer nest constants segment
  have hl : ∀ rest, .mark '{' :: (inside ++ [.mark '}']) ++ rest =
      .mark '{' :: (inside ++ .mark '}' :: rest) := by simp
  obtain ⟨role, hr⟩ :
    ∃ role, (if nest ≠ 0 ∨ constants then .value else blockRole segment.reverse) = role := ⟨_, rfl⟩
  by_cases hb : ∃ kind name header, role = .body kind name header
  · obtain ⟨kind, name, header, rfl⟩ := hb
    obtain ⟨rfl, rfl, hb⟩ :
        nest = 0 ∧ constants = false ∧ blockRole segment.reverse = .body kind name header := by
      split at hr
      · cases hr
      · next h =>
        obtain ⟨hn, hc⟩ : nest = 0 ∧ constants = false := by simpa using h
        exact ⟨hn, hc, hr⟩
    obtain ⟨found, constants', segment', hf⟩ :=
      hi ((readHeader (outer.headD "") kind name header).1.qualified :: outer) 0
        (kind = .enumType) []
    refine ⟨.type (readHeader (outer.headD "") kind name header).1
      (readHeader (outer.headD "") kind name header).2 :: found, false, [], fun rest => ?_⟩
    rw [hl, walk_body hb, hf, walk_closeBrace]
    exact map_append_map _ [_] found
  · have hr' : ∀ kind name header, role ≠ .body kind name header := by
      intro kind name header he
      exact hb ⟨kind, name, header, he⟩
    refine ⟨(skipBlock segment inside role).1.toList, constants,
      (skipBlock segment inside role).2, fun rest => ?_⟩
    rw [hl]
    exact walk_block hr hr' (splitClose_append (by decide) (hn.depth .braces 0))

/-- Nested tokens are passed over. -/
theorem WellNested.passedOver (hn : WellNested p ts) : PassedOver ts := by
  induction hn with
  | nil => exact passedOver_nil
  | token ht _ _ ih => exact (passedOver_token ht).append ih
  | @group p o c inside rest hoc _ hi _ ihi ih =>
    have he : Token.mark o :: (inside ++ .mark c :: rest) =
        .mark o :: (inside ++ [.mark c]) ++ rest := by simp
    rw [he]
    refine .append ?_ ih
    cases hoc with
    | parentheses => exact ihi.parentheses
    | brackets => exact ihi.brackets
    | braces => exact .braces hi ihi

/-! ## What is read -/

/-- Nested tokens have members. -/
theorem exists_members_of_wellNested (hn : WellNested p ts) : ∃ ms, members ts = .ok ms := by
  obtain ⟨found, constants, segment, hf⟩ := hn.passedOver [] 0 false []
  have hw := hf []
  rw [List.append_nil, walk_nil] at hw
  exact ⟨_, hw⟩

/-- The parts of a source are its members, behind the header that its tokens open with. -/
theorem exists_readParts (ht : tokens text.toList = .ok ts) (ho : Opens ts imports body) :
    ∃ h, readParts text = (members body).map fun ms => (h, body, ms) := by
  obtain ⟨h, hh, -⟩ := exists_header_iff.2 ho
  refine ⟨h, ?_⟩
  rw [readParts, ht]
  show (header ts >>= fun x => members x.2 >>= fun ms => .ok (x.1, x.2, ms)) = _
  rw [hh]
  show (members body >>= fun ms => .ok (h, body, ms)) = _
  cases members body <;> rfl

/-- A source is read if its tokens can be told, its package statement and its imports end, and the
tokens behind them are nested in parentheses, brackets and braces. Nothing else is asked of these
tokens. -/
theorem exists_read_of_wellNested (ht : tokens text.toList = .ok ts) (ho : Opens ts imports body)
    (hn : WellNested (fun _ => True) body) (path : Path) (fqn : String) (kind : SourceKind) :
    ∃ r, ClassRecord.read text path fqn kind = .ok r := by
  obtain ⟨h, hp⟩ := exists_readParts ht ho
  obtain ⟨ms, hm⟩ := exists_members_of_wellNested hn
  rw [ClassRecord.read, hp, hm]
  exact ⟨_, rfl⟩

end

/-- What can be computed of the tokens behind the header of a text. -/
theorem exists_opens_of_header {text : String} {q : List Token → Bool}
    (hv : (tokens text.toList >>= header).toOption.any (fun x => q x.2) = true) :
    ∃ ts imports body, tokens text.toList = .ok ts ∧ Opens ts imports body ∧ q body = true := by
  cases hx : tokens text.toList >>= header with
  | error e => rw [hx] at hv; cases hv
  | ok x =>
    obtain ⟨ts, ht, hh⟩ := eq_ok_of_bind hx
    rw [hx] at hv
    exact ⟨ts, x.1.imports, x.2, ht, exists_header_iff.1 ⟨x.1, hh, rfl⟩, hv⟩

/-- Not Java, but nested: brackets of one kind inside those of another, constants with bodies, a
block behind an equals sign, and tokens at the end that complete nothing. -/
def tangled : String :=
  "package p; import a.B; enum E \x7b A \x7b ; \x7d, B(\x7b [ ; ] \x7d); " ++
    "class C \x7b ( [ \x7b ; \x7d ] ) = \x7b < \x7d ; if (x) \x7b \x7d else \x7d \x7d >"

/-- `tangled` is read. -/
theorem exists_read_of_wellNested_tangled :
    ∃ ts imports body, tokens tangled.toList = .ok ts ∧ Opens ts imports body ∧
      WellNested (fun _ => True) body ∧
      ∃ r, ClassRecord.read tangled ⟨"E.java"⟩ "p.E" .production = .ok r := by
  have hv : (tokens tangled.toList >>= header).toOption.any (fun x => nests [] x.2) = true := by
    decide +kernel
  obtain ⟨ts, imports, body, ht, ho, hb⟩ := exists_opens_of_header hv
  have hn : WellNested (fun _ => True) body := wellNested_iff.2 hb
  exact ⟨ts, imports, body, ht, ho, hn, exists_read_of_wellNested ht ho hn _ _ _⟩

end TestImpact.Java
