import TestImpact.Proofs.Java.Braces
import TestImpact.Proofs.Java.Fronts

/-!
# Skipped blocks

A block that is the body of no type is skipped. Behind the block of a field its segment goes on, and
with the block in it the segment is looked through again in front of every further block and of the
semicolon. Main statements: nothing behind the equals sign of a field is looked at
(`blockRole_append`, `statementMember?_append`), so behind two segments that are alike in front of
it the walk goes on alike (`walk_alike`); and what stands in a skipped block makes no difference to
what a source states, as long as its header ends in front of it (`BlockPlace.Skips.stated_eq`).
-/

namespace TestImpact.Java

/-- The segments belong to one field: behind each of them all blocks are values, and they declare
the same. -/
structure Alike (segment segment' : List Token) : Prop where
  left : blockRole segment.reverse = .value
  right : blockRole segment'.reverse = .value
  member : statementMember? segment.reverse = statementMember? segment'.reverse

section
variable {c : Char} {d : Int} {nest : Nat} {constants : Bool} {outer : List String} {t : Token}
  {ts us rest inside inside' segment segment' : List Token} {p : Place} {role : BlockRole}

/-! ## Behind the equals sign of a field -/

/-- What comes first in the front of a list comes first in the list. -/
theorem firstOpener_append_of_eq_some (h : firstOpener d ts = some c) :
    firstOpener d (ts ++ us) = some c := by
  fun_induction firstOpener d ts with
  | case1 => cases h
  | case2 d t ts hp =>
    rw [List.cons_append, firstOpener, if_pos hp, h]
  | case3 d t ts hp he =>
    rw [List.cons_append, firstOpener, if_neg hp, if_pos he, h]
  | case4 d ts _ _ ih => exact ih h
  | case5 d ts _ _ _ ih => exact ih h
  | case6 d t ts hp he ho hx ih =>
    rw [List.cons_append, firstOpener, if_neg hp, if_neg he, if_neg ho, if_neg hx, ih h]

/-- What comes first stands in the list. -/
theorem mem_of_firstOpener (h : firstOpener d ts = some c) : .mark c ∈ ts := by
  fun_induction firstOpener d ts with
  | case1 => cases h
  | case2 d t ts hp =>
    cases h
    exact hp.1 ▸ List.mem_cons_self
  | case3 d t ts _ he =>
    cases h
    exact he.1 ▸ List.mem_cons_self
  | case4 _ _ _ _ ih | case5 _ _ _ _ _ ih | case6 _ _ _ _ _ _ _ ih =>
    exact List.mem_cons_of_mem _ (ih h)

/-- What starts a declaration is seen in front of an equals sign. -/
theorem declaration?_append (hd : declaration? ts = none) (hm : .mark '=' ∈ ts) :
    declaration? (ts ++ us) = none := by
  rcases ts with - | ⟨t, - | ⟨u, - | ⟨v, ts⟩⟩⟩
  · cases hm
  · obtain rfl := List.mem_singleton.1 hm
    rfl
  · unfold declaration?
    split <;> simp_all
  · unfold declaration?
    split <;> simp_all [declaration?]

/-- The type of a field stands in front of its equals sign. -/
theorem fieldType?_append (hm : .mark '=' ∈ ts) : fieldType? (ts ++ us) = fieldType? ts := by
  obtain ⟨front, back, rfl, hf⟩ := List.eq_append_cons_of_mem hm
  rw [List.append_assoc, List.cons_append, fieldType?, fieldType?, (cut_append_cons hf _).1,
    (cut_append_cons hf _).1]

/-- In front of a value stands no declaration, and an equals sign comes first. -/
theorem of_blockRole_eq_value (h : blockRole ts = .value) :
    declaration? (dropModifiers ts) = none ∧ firstOpener 0 (dropModifiers ts) = some '=' := by
  unfold blockRole at h
  dsimp only at h
  split at h
  · cases h
  · next hd =>
    split at h
    · cases h
    · next ho => exact ⟨hd, ho⟩
    · cases h

/-- Modifiers are dropped in front of an equals sign, whatever follows. -/
theorem dropModifiers_append_of_value (h : blockRole ts = .value) :
    dropModifiers (ts ++ us) = dropModifiers ts ++ us :=
  dropModifiers_append (by decide) (mem_of_firstOpener (of_blockRole_eq_value h).2)

/-- Wherever a segment goes on that holds a value, a block behind it is a part of a value. -/
theorem blockRole_append (h : blockRole ts = .value) : blockRole (ts ++ us) = .value := by
  obtain ⟨hd, ho⟩ := of_blockRole_eq_value h
  rw [blockRole, dropModifiers_append_of_value h, declaration?_append hd (mem_of_firstOpener ho),
    firstOpener_append_of_eq_some ho]
  rfl

/-- Such a segment declares a field, if anything. -/
theorem statementMember?_of_value (h : blockRole ts = .value) :
    statementMember? ts = (fieldType? (dropModifiers ts)).map .field := by
  obtain ⟨hd, ho⟩ := of_blockRole_eq_value h
  have hnil : dropModifiers ts ≠ [] := List.ne_nil_of_mem (mem_of_firstOpener ho)
  rw [statementMember?]
  dsimp only
  rw [hd, ho, if_neg (by simpa using hnil), if_neg (by decide)]

/-- What it declares does not depend on how it goes on. -/
theorem statementMember?_append (h : blockRole ts = .value) :
    statementMember? (ts ++ us) = statementMember? ts := by
  have hm := mem_of_firstOpener (of_blockRole_eq_value h).2
  rw [statementMember?_of_value (blockRole_append h), statementMember?_of_value h,
    dropModifiers_append_of_value h, fieldType?_append hm]

/-! ## Walking on behind the block of a field -/

/-- Segments stay alike, however they go on. -/
theorem Alike.append (h : Alike segment segment') (ts : List Token) :
    Alike (ts ++ segment) (ts ++ segment') := by
  constructor
  · rw [List.reverse_append]
    exact blockRole_append h.left
  · rw [List.reverse_append]
    exact blockRole_append h.right
  · rw [List.reverse_append, List.reverse_append, statementMember?_append h.left,
      statementMember?_append h.right, h.member]

/-- Among the constants of an enum and in brackets all blocks are values, and so they are behind the
block of a field. -/
theorem role_eq_value (h : constants = true ∨ blockRole segment.reverse = .value) :
    (if nest ≠ 0 ∨ constants then .value else blockRole segment.reverse) = .value := by
  split
  · rfl
  · next hn =>
    refine h.resolve_left ?_
    rintro rfl
    exact hn (.inr rfl)

/-- Among the constants of an enum nothing is read of a segment, and behind the block of a field
nothing but what the field declares. -/
theorem walk_alike (h : constants = true ∨ Alike segment segment') :
    walk outer nest constants segment ts = walk outer nest constants segment' ts := by
  induction hn : ts.length using Nat.strongRecOn generalizing nest segment segment' ts with
  | ind n ih =>
    cases ts with
    | nil => rw [walk, walk]
    | cons t ts =>
      -- Whatever goes into both segments, they stay alike.
      have hnext : ∀ (nest : Nat) (front rest : List Token), rest.length ≤ ts.length →
          walk outer nest constants (front ++ segment) rest =
            walk outer nest constants (front ++ segment') rest := by
        intro nest front rest hlen
        refine ih rest.length ?_ (h.imp_right fun ha => ha.append front) rfl
        rw [← hn, List.length_cons]
        omega
      by_cases ht : t.isBracket = false
      · by_cases hs : t = .mark ';' → nest ≠ 0
        · rw [walk_token ht hs, walk_token ht hs]
          exact hnext nest [t] ts (Nat.le_refl _)
        · obtain ⟨rfl, rfl⟩ : t = .mark ';' ∧ nest = 0 := by simpa using hs
          cases constants with
          | true => rw [walk_endConstants, walk_endConstants]
          | false => rw [walk_semicolon, walk_semicolon, (h.resolve_left (by decide)).member]
      rcases eq_of_isBracket ht with rfl | rfl | rfl | rfl | rfl | rfl
      · rw [walk_parenthesis, walk_parenthesis]
        exact hnext (nest + 1) [.mark '('] ts (Nat.le_refl _)
      · rw [walk_bracket, walk_bracket]
        exact hnext (nest + 1) [.mark '['] ts (Nat.le_refl _)
      · cases nest with
        | zero => rw [walk, walk]
        | succ nest =>
          rw [walk_closeParenthesis, walk_closeParenthesis]
          exact hnext nest [.mark ')'] ts (Nat.le_refl _)
      · cases nest with
        | zero => rw [walk, walk]
        | succ nest =>
          rw [walk_closeBracket, walk_closeBracket]
          exact hnext nest [.mark ']'] ts (Nat.le_refl _)
      · by_cases hz : nest = 0
        · subst hz
          cases outer with
          | nil => rw [walk, walk]; rfl
          | cons name outer => rw [walk_closeBrace, walk_closeBrace]
        · rw [walk_passedBrace hz, walk_passedBrace hz]
          exact hnext nest [.mark '}'] ts (Nat.le_refl _)
      · have hl : (if nest ≠ 0 ∨ constants then .value else blockRole segment.reverse) = .value :=
          role_eq_value (h.imp_right Alike.left)
        have hr : (if nest ≠ 0 ∨ constants then .value else blockRole segment'.reverse) = .value :=
          role_eq_value (h.imp_right Alike.right)
        have hv : ∀ kind name header, BlockRole.value ≠ .body kind name header := by simp
        cases hs : splitClose '{' '}' 0 ts with
        | none => rw [walk_unclosed hl hv hs, walk_unclosed hr hv hs]
        | some s =>
          obtain ⟨inside, rest⟩ := s
          have hrest := hnext nest (.mark '}' :: (inside.reverse ++ [.mark '{'])) rest
            (Nat.le_of_lt (length_of_splitClose hs))
          rw [walk_block hl hv hs, walk_block hr hv hs, skipBlock, skipBlock]
          simpa using congrArg _ hrest

/-- The block of a field leaves behind what declares the same, whatever stands in it. -/
theorem alike_block (h : blockRole segment.reverse = .value) :
    Alike (.mark '}' :: (inside'.reverse ++ .mark '{' :: segment))
      (.mark '}' :: (inside.reverse ++ .mark '{' :: segment)) := by
  have he : ∀ inside : List Token,
      (Token.mark '}' :: (inside.reverse ++ .mark '{' :: segment)).reverse =
        segment.reverse ++ (.mark '{' :: (inside ++ [.mark '}'])) := by
    simp
  constructor
  · rw [he]
    exact blockRole_append h
  · rw [he]
    exact blockRole_append h
  · rw [he, he, statementMember?_append h, statementMember?_append h]

/-- Outside of parentheses and brackets the walk goes on behind a skipped block without regard to
what stands in it. -/
theorem walk_skipBlock (hn : p.nest = 0)
    (hr : ∀ kind name header, p.blockRole ≠ .body kind name header) :
    (skipBlock p.segment inside' p.blockRole).1 = (skipBlock p.segment inside p.blockRole).1 ∧
      Place.walk { p with segment := (skipBlock p.segment inside' p.blockRole).2 } ts =
        Place.walk { p with segment := (skipBlock p.segment inside p.blockRole).2 } ts := by
  cases hb : p.blockRole with
  | body kind name header => exact absurd hb (hr kind name header)
  | method | initializer => exact ⟨rfl, rfl⟩
  | value =>
    have hv : p.constants = true ∨ Java.blockRole p.segment.reverse = .value := by
      by_cases hc : p.constants = true
      · exact .inl hc
      · rw [Place.blockRole, if_neg (by simp [hn, hc])] at hb
        exact .inr hb
    exact ⟨rfl, walk_alike (hv.imp_right alike_block)⟩

end

/-! ## Places of blocks -/

/-- A place for a block in a token list: `head` is the package and the imports, `front` what follows
them up to the block, `behind` what stands behind the block. -/
structure BlockPlace where
  head : List Token
  front : List Token
  behind : List Token

namespace BlockPlace

/-- The list behind the package and the imports, with the block. -/
def body (b : BlockPlace) (inside : List Token) : List Token :=
  b.front ++ .mark '{' :: (inside ++ .mark '}' :: b.behind)

/-- The list with the block. -/
def fill (b : BlockPlace) (inside : List Token) : List Token := b.head ++ b.body inside

/-- The walk behind the package and the imports meets the block outside of parentheses and brackets
and skips it. -/
structure Skips (b : BlockPlace) (inside : List Token) : Prop where
  header : ∃ h, header (b.fill inside) = .ok (h, b.body inside)
  reached : ∃ found p, Run .start b.front found p ∧ p.nest = 0 ∧
    ∀ kind name header, p.blockRole ≠ .body kind name header
  balanced : BracesBalanced inside

end BlockPlace

/-- What a token list states: its package, its imports and its members. -/
def stated (ts : List Token) : Except Malformed (Header × List Member) := do
  let (head, body) ← header ts
  return (head, ← members body)

section
variable {b : BlockPlace} {ts ts' inside inside' : List Token} {text text' : String}

/-! ## What a source states -/

/-- What a source states is its header and its members. -/
theorem map_readParts (ht : tokens text.toList = .ok ts) :
    (readParts text).map (fun x => (x.1, x.2.2)) = stated ts := by
  rw [readParts, ht, stated]
  show (header ts >>= fun x => members x.2 >>= fun ms => .ok (x.1, x.2, ms)).map _ =
    header ts >>= fun x => members x.2 >>= fun ms => .ok (x.1, ms)
  cases header ts with
  | error e => rfl
  | ok x =>
    show (members x.2 >>= fun ms => .ok (x.1, x.2, ms)).map _ =
      members x.2 >>= fun ms => .ok (x.1, ms)
    cases members x.2 <;> rfl

/-- All of a record but the names in type position is what the source states. -/
theorem read_of_stated_eq (ht : tokens text.toList = .ok ts) (ht' : tokens text'.toList = .ok ts')
    (hs : stated ts' = stated ts) (path : Path) (fqn : String) (kind : SourceKind) :
    ∃ refs, ClassRecord.read text' path fqn kind =
      (ClassRecord.read text path fqn kind).map fun r => { r with typeRefs := refs } := by
  rw [← map_readParts ht, ← map_readParts ht'] at hs
  rw [ClassRecord.read, ClassRecord.read]
  cases hx : readParts text with
  | error e =>
    cases hx' : readParts text' with
    | error e' =>
      rw [hx, hx'] at hs
      cases hs
      exact ⟨.ofList [], rfl⟩
    | ok x' =>
      rw [hx, hx'] at hs
      cases hs
  | ok x =>
    obtain ⟨head, body, ms⟩ := x
    cases hx' : readParts text' with
    | error e' =>
      rw [hx, hx'] at hs
      cases hs
    | ok x' =>
      obtain ⟨head', body', ms'⟩ := x'
      rw [hx, hx'] at hs
      obtain ⟨rfl, rfl⟩ : head' = head ∧ ms' = ms := by simpa [Except.map] using hs
      exact ⟨.ofList (references body' ++ (declaredTypes ms').flatMap mentionedBy), rfl⟩

/-- What stands in the block is not the first token. -/
theorem BlockPlace.head?_body : (b.body inside').head? = (b.body inside).head? := by
  rw [body, body]
  cases b.front <;> rfl

/-- A block in a list that starts with none of the statements in front of the declarations leaves it
so, unless it makes a package statement of it. -/
theorem BlockPlace.startsBody (hb : StartsBody (b.body inside))
    (hp : ∀ rest, ¬StartsPackage (b.body inside') rest) : StartsBody (b.body inside') := by
  have hh : (b.body inside').head? = (b.body inside).head? := head?_body
  refine ⟨?_, ?_, ?_, ?_⟩
  · rw [hh]
    exact hb.not_semicolon
  · rw [hh]
    exact hb.not_package
  · rw [hh]
    exact hb.not_import
  · intro ha hd
    obtain ⟨rest, hd⟩ := List.head?_eq_some_iff.1 hd
    exact hp rest (.inr ⟨ha, hd⟩)

/-- The members of a source are the same, whatever a skipped block holds. -/
theorem BlockPlace.Skips.members_eq (hs : b.Skips inside) (hi : BracesBalanced inside') :
    members (b.body inside') = members (b.body inside) := by
  obtain ⟨found, p, hrun, hn, hr⟩ := hs.reached
  have hwalk : ∀ {inside : List Token}, BracesBalanced inside → members (b.body inside) =
      ((Place.walk { p with segment := (skipBlock p.segment inside p.blockRole).2 } b.behind).map
        ((skipBlock p.segment inside p.blockRole).1.toList ++ ·)).map (found ++ ·) := by
    intro inside hi
    have hstep := Step.block hr (bracesBalanced_iff.1 hi)
    rw [← hstep.walk, ← hrun.walk]
    rw [body]
    simp
    rfl
  obtain ⟨hm, hw⟩ := walk_skipBlock hn hr
  rw [hwalk hi, hwalk hs.balanced, hm, hw]

/-- Where something else than modifiers stands in front of the block, or all parentheses there are
closed, no package statement comes about. -/
theorem BlockPlace.not_startsPackage (hb : StartsBody (b.body inside))
    (hf : dropModifiers b.front ≠ [] ∨ ClosesParentheses 0 b.front) (rest : List Token) :
    ¬StartsPackage (b.body inside') rest := by
  have hkeep : ∀ us, dropModifiers (b.front ++ .mark '{' :: us) =
      dropModifiers b.front ++ .mark '{' :: us := by
    rcases keepsMark_dropModifiers (c := '{') (by decide) b.front with hk | ⟨hnil, ho, -⟩
    · exact hk
    · exact (hf.elim (· hnil) ho).elim
  have hh : (b.body inside').head? = (b.body inside).head? := head?_body
  rintro (he | ⟨ha, hd⟩)
  · rw [he] at hh
    exact hb.not_package hh.symm
  · refine hb.not_annotated (hh.symm.trans ha) ?_
    rw [body, hkeep] at hd ⊢
    cases hm : dropModifiers b.front with
    | nil => rw [hm] at hd; cases hd
    | cons t ts =>
      rw [hm] at hd
      rw [(List.cons.inj hd).1]
      rfl

/-- What is read in front of the body does not depend on the block. -/
theorem BlockPlace.Skips.header_append (hs : b.Skips inside) :
    StartsBody (b.body inside) ∧
      ∃ h, ∀ body', StartsBody body' → Java.header (b.head ++ body') = .ok (h, body') := by
  obtain ⟨h, hh⟩ := hs.header
  obtain ⟨hb, front, he, hfront⟩ := exists_front_of_headerFrom hh
  obtain rfl : b.head = front := List.append_cancel_right he
  exact ⟨hb, h, hfront⟩

/-- What stands in a skipped block is not read. The members of the source stay the same with any
other tokens in the block; so do its package and imports, and everything in its record but the names
in type position, unless the annotations that the body starts with come to stand in front of a
package statement. For that to happen nothing but modifiers may stand in front of the block, with a
parenthesis that no other parenthesis closes there. -/
theorem BlockPlace.Skips.stated_eq (hs : b.Skips inside) (hi : BracesBalanced inside') :
    members (b.body inside') = members (b.body inside) ∧
      ((∀ rest, ¬StartsPackage (b.body inside') rest) →
        stated (b.fill inside') = stated (b.fill inside) ∧
          ∀ text text' path fqn kind, tokens text.toList = .ok (b.fill inside) →
            tokens text'.toList = .ok (b.fill inside') →
              ∃ refs, ClassRecord.read text' path fqn kind =
                (ClassRecord.read text path fqn kind).map fun r => { r with typeRefs := refs }) ∧
      (dropModifiers b.front ≠ [] ∨ ClosesParentheses 0 b.front →
        ∀ rest, ¬StartsPackage (b.body inside') rest) := by
  obtain ⟨hb, h, hh⟩ := hs.header_append
  have hm := hs.members_eq hi
  refine ⟨hm, fun hp => ?_, fun hf => b.not_startsPackage hb hf⟩
  have hstated : stated (b.fill inside') = stated (b.fill inside) := by
    rw [stated, stated, fill, fill, hh _ hb, hh _ (b.startsBody hb hp)]
    show (members (b.body inside') >>= fun ms => .ok (h, ms)) =
      members (b.body inside) >>= fun ms => .ok (h, ms)
    rw [hm]
  exact ⟨hstated, fun text text' path fqn kind ht ht' =>
    read_of_stated_eq ht ht' hstated path fqn kind⟩

end

/-- The block is the value of a field, and the declaration of the field goes on behind it. -/
def valuePlace : BlockPlace where
  head := [.word "package", .word "p", .mark ';']
  front := [.word "class", .word "C", .mark '{', .word "F", .word "f", .mark '=']
  behind := [.mark ',', .word "g", .mark ';', .mark '}']

/-- The block that is the value of a field is skipped. -/
theorem skips_valuePlace : valuePlace.Skips [.mark ';'] := by
  have hh : (header (valuePlace.fill [.mark ';'])).toOption =
      some (⟨"p", []⟩, valuePlace.body [.mark ';']) := by
    decide +kernel
  have hb : blockRole [Token.word "C", .word "class"].reverse = .body .classType "C" [] := by
    decide +kernel
  have hv : blockRole [.word "F", .word "f", .mark '='] = .value := by decide +kernel
  have hopen : Step ⟨[], 0, false, [.word "C", .word "class"]⟩ [.mark '{'] _ _ := .body hb
  have hfield : ∀ outer, Run ⟨outer, 0, false, []⟩ [.word "F", .word "f", .mark '='] []
      ⟨outer, 0, false, [.mark '=', .word "f", .word "F"]⟩ := fun outer =>
    .step (.token rfl (by decide)) (.step (.token rfl (by decide))
      (.step (.token rfl (by decide)) .refl))
  have hrun : Run .start valuePlace.front _ ⟨_, 0, false, [.mark '=', .word "f", .word "F"]⟩ :=
    .step (.token rfl (by decide)) (.step (.token rfl (by decide)) (.step hopen (hfield _)))
  refine ⟨⟨_, eq_ok_of_toOption hh⟩, ⟨_, _, hrun, rfl, ?_⟩, by decide⟩
  rw [Place.blockRole, if_neg (by decide)]
  intro kind name header hr
  cases hv.symm.trans hr

/-- A closing parenthesis and a class may stand there, and the source states what it did. -/
theorem stated_eq_valuePlace :
    valuePlace.Skips [.mark ';'] ∧
      BracesBalanced [.mark ')', .word "class", .word "D", .mark '{', .mark '}'] ∧
      dropModifiers valuePlace.front ≠ [] ∧
      stated (valuePlace.fill [.mark ')', .word "class", .word "D", .mark '{', .mark '}']) =
        .ok (⟨"p", []⟩, [.type ⟨"C", "C", .classType, []⟩ [], .field "F"]) := by
  have hi : BracesBalanced [.mark ')', .word "class", .word "D", .mark '{', .mark '}'] := by
    decide
  have hf : dropModifiers valuePlace.front ≠ [] := by decide +kernel
  have hv : (stated (valuePlace.fill [.mark ';'])).toOption =
      some (⟨"p", []⟩, [.type ⟨"C", "C", .classType, []⟩ [], .field "F"]) := by
    decide +kernel
  obtain ⟨-, hsame, hnone⟩ := skips_valuePlace.stated_eq hi
  obtain ⟨he, -⟩ := hsame (hnone (.inl hf))
  exact ⟨skips_valuePlace, hi, hf, he.trans (eq_ok_of_toOption hv)⟩

/-- The parenthesis of an annotation in front of the block is closed by a bracket. -/
def annotatedPlace : BlockPlace where
  head := []
  front := [.mark '@', .word "A", .mark '(', .mark ']']
  behind := [.mark ';']

/-- The block behind the annotation is skipped. -/
theorem skips_annotatedPlace : annotatedPlace.Skips [] := by
  have hh : (header (annotatedPlace.fill [])).toOption =
      some (⟨"", []⟩, annotatedPlace.body []) := by
    decide +kernel
  have hv : blockRole annotatedPlace.front = .initializer := by decide +kernel
  have hrun : Run .start annotatedPlace.front [] ⟨[], 0, false, annotatedPlace.front.reverse⟩ :=
    .step (.token rfl (by decide)) (.step (.token rfl (by decide))
      (.step (.opens (.inl rfl)) (.step (.closes (.inr rfl)) .refl)))
  refine ⟨⟨_, eq_ok_of_toOption hh⟩, ⟨_, _, hrun, rfl, ?_⟩, by decide⟩
  rw [Place.blockRole, if_neg (by decide), List.reverse_reverse]
  intro kind name header hr
  cases hv.symm.trans hr

/-- What a source states is not always the same: with these tokens in the block the annotation is
closed there, and a package statement follows. -/
theorem exists_package_ne :
    ∃ r r',
      tokens "@A(] \x7b\x7d ;".toList = .ok (annotatedPlace.fill []) ∧
      tokens "@A(] \x7b ) package p \x7d ;".toList =
        .ok (annotatedPlace.fill [.mark ')', .word "package", .word "p"]) ∧
      annotatedPlace.Skips [] ∧ BracesBalanced [.mark ')', .word "package", .word "p"] ∧
      ClassRecord.read "@A(] \x7b\x7d ;" ⟨"C.java"⟩ "C" .production = .ok r ∧
      ClassRecord.read "@A(] \x7b ) package p \x7d ;" ⟨"C.java"⟩ "C" .production = .ok r' ∧
      r.package = "" ∧ r'.package = "p\x7d" := by
  have ht : (tokens "@A(] \x7b\x7d ;".toList).toOption = some (annotatedPlace.fill []) := by
    decide +kernel
  have ht' : (tokens "@A(] \x7b ) package p \x7d ;".toList).toOption =
      some (annotatedPlace.fill [.mark ')', .word "package", .word "p"]) := by
    decide +kernel
  have hr : (ClassRecord.read "@A(] \x7b\x7d ;" ⟨"C.java"⟩ "C" .production).toOption.any
      (fun r => r.package = "") = true := by
    decide +kernel
  have hr' : (ClassRecord.read "@A(] \x7b ) package p \x7d ;" ⟨"C.java"⟩ "C"
      .production).toOption.any (fun r => r.package = "p\x7d") = true := by
    decide +kernel
  obtain ⟨r, hr, hp⟩ := (Option.any_eq_true _ _).1 hr
  obtain ⟨r', hr', hp'⟩ := (Option.any_eq_true _ _).1 hr'
  exact ⟨r, r', eq_ok_of_toOption ht, eq_ok_of_toOption ht', skips_annotatedPlace, by decide,
    eq_ok_of_toOption hr, eq_ok_of_toOption hr', of_decide_eq_true hp, of_decide_eq_true hp'⟩

example : dropModifiers annotatedPlace.front = [] ∧ ¬ClosesParentheses 0 annotatedPlace.front := by
  decide +kernel

end TestImpact.Java
