import TestImpact.Proofs.Java.Indexed.TypeHeaders
import TestImpact.Proofs.Java.Steps

/-!
# Walking over members by indices

An index walks over the members of a body, and another one marks where the segment at hand starts.
The body of a type is walked by a call of its own, which gives the index behind the closing brace.
One move of the index is compared with the walk over the token list (`moveAt_moves`), and from that
the whole walk by induction on what is left of the list (`membersFrom_walks`): every range is one of
the list, every move and every call goes on, and the members or the fault are the same
(`members_agrees`).
-/

namespace TestImpact.Java.Indexed

/-! ## Segments -/

/-- What the segment in front of a block makes of it; a type comes with the index of its name. -/
inductive Owner
  | type (kind : DeclKind) (nameAt : Nat)
  | method
  | value
  | initializer

/-- What the segment from `start` up to `stop` makes of the block behind it. -/
def blockOwner (ts : List Token) (start stop : Nat) : Except Fault Owner := do
  let full ← slice ts start stop
  let rest ← stripModifiers full
  match declarationAt rest with
  | some (kind, n) => return .type kind ((← minus (start + full.length) rest.length) + n)
  | none =>
    match firstOpener 0 rest with
    | some '(' => return .method
    | some '=' => return .value
    | _ => return .initializer

/-- The member that a segment without modifiers declares in front of a `;`. -/
def plainMember? (ts : List Token) : Except Fault (Option Member) :=
  if ts = [] ∨ (declarationAt ts).isSome then .ok none
  else if firstOpener 0 ts = some '(' then (signature ts).map fun s => some (.method s.1 s.2)
  else (fieldType? ts).map fun t => t.map .field

/-- The member that the segment from `start` up to `stop` declares in front of a `;`. -/
def statementMember? (ts : List Token) (start stop : Nat) : Except Fault (Option Member) := do
  plainMember? (← stripModifiers (← slice ts start stop))

/-- The method whose head is the segment from `start` up to `stop`. -/
def methodMember (ts : List Token) (start stop : Nat) : Except Fault Member := do
  let s ← signature (← stripModifiers (← slice ts start stop))
  return .method s.1 s.2

/-- The index behind the block that opens at index `i`. -/
def skipBlock (ts : List Token) (i : Nat) : Except Fault Nat :=
  match matching ts '{' '}' i with
  | some j => .ok (j + 1)
  | none => .error (.malformed .unclosedBlock)

/-! ## Moves -/

/-- What the token at an index leads to. -/
inductive Move
  /-- The walk goes on in the body at hand, with a segment from `start` on, at index `next`. -/
  | on (found : List Member) (constants : Bool) (start nest next : Nat)
  /-- The body of the type `name` starts behind the token. -/
  | into (decl : Member) (name : String) (constants : Bool)
  /-- The body at hand ends. -/
  | out

/-- What an opening brace at index `i` leads to, outside of brackets and behind the constants of an
enum. -/
def moveBlock (ts : List Token) (outer : Option String) (start i : Nat) : Except Fault Move := do
  match ← blockOwner ts start i with
  | .type kind nameAt =>
    let d ← typeHeader (outer.getD "") ts kind nameAt i
    return .into (.type d.1 d.2) d.1.qualified (kind = .enumType)
  | .method =>
    let m ← methodMember ts start i
    (skipBlock ts i).map fun next => .on [m] false next 0 next
  | .value => (skipBlock ts i).map fun next => .on [] false start 0 next
  | .initializer => (skipBlock ts i).map fun next => .on [] false next 0 next

/-- What the token at index `i` leads to, in the body of `outer` or outside of all bodies. The
segment at hand starts at `start`, `nest` parentheses and brackets are open in it. -/
def moveAt (ts : List Token) (outer : Option String) (constants : Bool) (start nest i : Nat) :
    Token → Except Fault Move
  | .mark '(' | .mark '[' => .ok (.on [] constants start (nest + 1) (i + 1))
  | .mark ')' =>
    if nest = 0 then .error (.malformed .unbalancedParenthesis)
    else .ok (.on [] constants start (nest - 1) (i + 1))
  | .mark ']' =>
    if nest = 0 then .error (.malformed .unbalancedBracket)
    else .ok (.on [] constants start (nest - 1) (i + 1))
  | .mark ';' =>
    if nest ≠ 0 then .ok (.on [] constants start nest (i + 1))
    else if constants then .ok (.on [] false (i + 1) 0 (i + 1))
    else (statementMember? ts start i).map fun m => .on m.toList false (i + 1) 0 (i + 1)
  | .mark '}' =>
    if nest ≠ 0 then .ok (.on [] constants start nest (i + 1))
    else if outer = none then .error (.malformed .unexpectedBrace)
    else .ok .out
  | .mark '{' =>
    if nest ≠ 0 ∨ constants then (skipBlock ts i).map fun next => .on [] constants start nest next
    else moveBlock ts outer start i
  | _ => .ok (.on [] constants start nest (i + 1))

/-- The members from index `i` on up to the end of the body of `outer`, or of the list outside of
all bodies, and the index behind them. -/
def membersFrom (ts : List Token) (outer : Option String) (constants : Bool) (start nest i : Nat) :
    Except Fault (List Member × Nat) :=
  if h : i < ts.length then
    match moveAt ts outer constants start nest i ts[i] with
    | .error e => .error e
    | .ok .out => .ok ([], i + 1)
    | .ok (.on found constants start nest next) =>
      if i < next then
        (membersFrom ts outer constants start nest next).map fun r => (found ++ r.1, r.2)
      else .error .stuck
    | .ok (.into decl name enum) =>
      match membersFrom ts (some name) enum (i + 1) 0 (i + 1) with
      | .error e => .error e
      | .ok (inside, next) =>
        if i < next then
          (membersFrom ts outer constants next nest next).map fun r =>
            (decl :: (inside ++ r.1), r.2)
        else .error .stuck
  else if outer ≠ none ∨ nest ≠ 0 then .error (.malformed .unexpectedEnd)
  else .ok ([], i)
termination_by ts.length - i

/-- The members from index `i` on. -/
def members (ts : List Token) (i : Nat) : Except Fault (List Member) :=
  (membersFrom ts none false i 0 i).map (·.1)

section
variable {ts full rest segment : List Token} {t : Token} {outers : List String} {constants : Bool}
  {start nest i : Nat} {kind : DeclKind} {name : String} {header : List Token}

/-! ## Segments and blocks -/

/-- The index of a type's name is found from what modifiers leave of its segment. -/
theorem exists_blockOwner (h : At ts start (full ++ rest))
    (hr : blockRole full = .body kind name header) :
    ∃ n, blockOwner ts start (start + full.length) = .ok (.type kind n) ∧
      At ts n (.word name :: header ++ rest) ∧ n + (header.length + 1) = start + full.length := by
  have hd : declaration? (dropModifiers full) = some (kind, name, header) := by
    unfold blockRole at hr
    dsimp only at hr
    split at hr
    · next hd => cases hr; exact hd
    · split at hr <;> cases hr
  obtain ⟨n, hn, hat⟩ := exists_declarationAt hd
  have hle := (dropModifiers_suffix full).length_le
  have hrest := h.trans (At.of_suffix (dropModifiers_suffix full))
  have hname := hrest.trans hat
  have hsum : start + full.length - (dropModifiers full).length + n =
      start + (full.length - (dropModifiers full).length) + n := by
    omega
  refine ⟨start + (full.length - (dropModifiers full).length) + n, ?_, hname, ?_⟩
  · simp only [blockOwner, h.slice, bind, Except.bind, stripModifiers_eq, hn, minus,
      if_pos (Nat.le_trans hle (Nat.le_add_left ..)), hsum]
    rfl
  · have hl := h.length
    have hl' := hname.length
    rw [List.length_append] at hl hl'
    rw [List.length_cons] at hl'
    omega

/-- A block that is no body has the same owner. -/
theorem blockOwner_of_not_body (h : At ts start (full ++ rest))
    (hr : ∀ kind name header, blockRole full ≠ .body kind name header) :
    (blockOwner ts start (start + full.length) = .ok .method ∧ blockRole full = .method) ∨
      (blockOwner ts start (start + full.length) = .ok .value ∧ blockRole full = .value) ∨
      (blockOwner ts start (start + full.length) = .ok .initializer ∧
        blockRole full = .initializer) := by
  have hd : declaration? (dropModifiers full) = none := by
    rw [Option.eq_none_iff_forall_ne_some]
    rintro ⟨kind, name, header⟩ hd
    refine hr kind name header ?_
    rw [blockRole]
    simp only [hd]
  simp only [blockOwner, blockRole, h.slice, bind, Except.bind, stripModifiers_eq, hd,
    declarationAt_eq_none hd]
  generalize firstOpener 0 (dropModifiers full) = opener
  by_cases hp : opener = some '('
  · subst hp
    exact .inl ⟨rfl, rfl⟩
  by_cases he : opener = some '='
  · subst he
    exact .inr (.inl ⟨rfl, rfl⟩)
  refine .inr (.inr ⟨?_, ?_⟩)
  all_goals
    split
    · exact absurd rfl hp
    · exact absurd rfl he
    · rfl

/-- A declaration is found by indices exactly if it is found in the list. -/
theorem isSome_declarationAt (ts : List Token) :
    (declarationAt ts).isSome = (declaration? ts).isSome := by
  cases hd : declaration? ts with
  | none => rw [declarationAt_eq_none hd]; rfl
  | some d =>
    obtain ⟨n, hn, -⟩ := exists_declarationAt hd
    rw [hn]
    rfl

/-- A segment in front of a semicolon declares the member that `statementMember?` reads. -/
theorem statementMember?_eq (h : At ts start (full ++ rest)) :
    statementMember? ts start (start + full.length) = .ok (Java.statementMember? full) := by
  simp only [statementMember?, Java.statementMember?, plainMember?, h.slice, bind, Except.bind,
    stripModifiers_eq, isSome_declarationAt, signature_eq, fieldType?_eq]
  split
  · rfl
  · split <;> rfl

/-- The range of a method's header gives the signature that is read from the list. -/
theorem methodMember_eq (h : At ts start (full ++ rest)) :
    methodMember ts start (start + full.length) =
      .ok (.method (Java.signature (dropModifiers full)).1
        (Java.signature (dropModifiers full)).2) := by
  simp only [methodMember, h.slice, bind, Except.bind, stripModifiers_eq, signature_eq]
  rfl

/-- A block is skipped to the index behind its closing brace, or it is never closed. -/
theorem skipBlock_eq (h : At ts i (.mark '{' :: rest)) :
    skipBlock ts i = (splitClose '{' '}' 0 rest).elim (.error (.malformed .unclosedBlock)) fun s =>
      .ok (i + 1 + s.1.length + 1) := by
  rw [skipBlock, matching_eq h]
  cases splitClose '{' '}' 0 rest <;> rfl

end

/-! ## One move -/

/-- The move `m` at index `i` is the walk's: it goes on, and the walk is what the move leads to. -/
inductive Moves (ts : List Token) (outers : List String) (constants : Bool) (nest i : Nat) :
    Except Fault Move → Except Malformed (List Member) → Prop
  | fault (reason : Malformed) :
    Moves ts outers constants nest i (.error (.malformed reason)) (.error reason)
  | on {found : List Member} {enum : Bool} {start open_ next : Nat} {segment rest : List Token} :
    i < next → At ts start (segment.reverse ++ rest) → start + segment.length = next →
    Moves ts outers constants nest i (.ok (.on found enum start open_ next))
      ((walk outers open_ enum segment rest).map (found ++ ·))
  | into {decl : Member} {name : String} {enum : Bool} {rest : List Token} :
    constants = false → nest = 0 → At ts (i + 1) rest →
    Moves ts outers constants nest i (.ok (.into decl name enum))
      ((walk (name :: outers) 0 enum [] rest).map (decl :: ·))
  | out {rest : List Token} :
    outers ≠ [] → At ts (i + 1) rest →
    Moves ts outers constants nest i (.ok .out) (walk outers.tail 0 false [] rest)

section
variable {ts rest segment : List Token} {t : Token} {outers : List String} {constants : Bool}
  {start nest i : Nat}

/-- What follows the segment at hand. -/
theorem At.behindSegment (h : At ts start (segment.reverse ++ rest))
    (hi : start + segment.length = i) : At ts i rest := by
  have ha := h.append
  rwa [List.length_reverse, hi] at ha

/-- A token that goes into the segment. -/
theorem moves_token {open_ : Nat} (h : At ts start (segment.reverse ++ t :: rest))
    (hi : start + segment.length = i)
    (hw : walk outers nest constants segment (t :: rest) =
      walk outers open_ constants (t :: segment) rest) :
    Moves ts outers constants nest i (.ok (.on [] constants start open_ (i + 1)))
      (walk outers nest constants segment (t :: rest)) := by
  rw [hw, ← map_nil_append (walk outers open_ constants (t :: segment) rest)]
  refine .on (Nat.lt_succ_self i) ?_ ?_
  · simpa using h
  · rw [List.length_cons]
    omega

/-- A block that is skipped. The segment goes on at `place`, which may depend on where the block
ends. -/
theorem moves_skipBlock {found : List Member} (role : BlockRole) (place : Nat → Nat)
    (h : At ts i (.mark '{' :: rest))
    (hr : (if nest ≠ 0 ∨ constants then .value else blockRole segment.reverse) = role)
    (hb : ∀ kind name header, role ≠ .body kind name header)
    (hs : ∀ inside after, rest = inside ++ .mark '}' :: after →
      (Java.skipBlock segment inside role).1.toList = found ∧
      At ts (place (i + 1 + inside.length + 1))
        ((Java.skipBlock segment inside role).2.reverse ++ after) ∧
      place (i + 1 + inside.length + 1) + (Java.skipBlock segment inside role).2.length =
        i + 1 + inside.length + 1) :
    Moves ts outers constants nest i
      ((skipBlock ts i).map fun next => .on found constants (place next) nest next)
      (walk outers nest constants segment (.mark '{' :: rest)) := by
  rw [skipBlock_eq h]
  cases hc : splitClose '{' '}' 0 rest with
  | none =>
    rw [walk_unclosed hr hb hc]
    exact .fault _
  | some s =>
    obtain ⟨inside, after⟩ := s
    obtain ⟨rfl, hat, hlen⟩ := hs inside after (append_of_splitClose hc)
    rw [walk_block hr hb hc]
    exact .on (by omega) hat hlen

/-- A skipped block that stays a part of the segment. -/
theorem moves_value (h : At ts start (segment.reverse ++ .mark '{' :: rest))
    (hi : start + segment.length = i)
    (hr : (if nest ≠ 0 ∨ constants then .value else blockRole segment.reverse) = .value) :
    Moves ts outers constants nest i
      ((skipBlock ts i).map fun next => .on [] constants start nest next)
      (walk outers nest constants segment (.mark '{' :: rest)) := by
  refine moves_skipBlock .value (fun _ => start) (h.behindSegment hi) hr nofun ?_
  rintro inside after rfl
  refine ⟨rfl, ?_, ?_⟩
  · simpa [Java.skipBlock] using h
  · simp only [Java.skipBlock, List.length_cons, List.length_append, List.length_reverse]
    omega

/-- A skipped block behind which a segment starts. -/
theorem moves_member {role : BlockRole} {found : List Member} (h : At ts i (.mark '{' :: rest))
    (hr : blockRole segment.reverse = role) (hb : role = .method ∨ role = .initializer)
    (hf : ∀ inside, (Java.skipBlock segment inside role).1.toList = found) :
    Moves ts outers false 0 i ((skipBlock ts i).map fun next => .on found false next 0 next)
      (walk outers 0 false segment (.mark '{' :: rest)) := by
  refine moves_skipBlock role id h (by simpa using hr) ?_ ?_
  · rcases hb with rfl | rfl <;> exact nofun
  rintro inside after rfl
  have hs : (Java.skipBlock segment inside role).2 = [] := by
    rcases hb with rfl | rfl <;> rfl
  rw [hs]
  exact ⟨hf inside, h.next.append.next, rfl⟩

/-- An opening brace outside of brackets, behind the constants of an enum. -/
theorem moveBlock_moves (h : At ts start (segment.reverse ++ .mark '{' :: rest))
    (hi : start + segment.length = i) :
    Moves ts outers false 0 i (moveBlock ts outers.head? start i)
      (walk outers 0 false segment (.mark '{' :: rest)) := by
  have hlen : start + segment.reverse.length = i := by rwa [List.length_reverse]
  have hat := h.behindSegment hi
  by_cases hb : ∃ kind name header, blockRole segment.reverse = .body kind name header
  · obtain ⟨kind, name, header, hb⟩ := hb
    obtain ⟨n, hn, hname, hsum⟩ := exists_blockOwner h hb
    rw [hlen] at hn hsum
    rw [moveBlock, hn, ← hsum, walk_body hb]
    simp only [bind, Except.bind, typeHeader_eq hname]
    rw [List.headD_eq_head?_getD]
    exact .into rfl rfl (hsum ▸ hat.next)
  · have hb' : ∀ kind name header, blockRole segment.reverse ≠ .body kind name header :=
      fun kind name header he => hb ⟨kind, name, header, he⟩
    have ho := blockOwner_of_not_body h hb'
    have hm := methodMember_eq h
    rw [hlen] at ho hm
    obtain ⟨ho, hr⟩ | ⟨ho, hr⟩ | ⟨ho, hr⟩ := ho
    · rw [moveBlock, ho]
      simp only [bind, Except.bind, hm]
      exact moves_member hat hr (.inl rfl) fun _ => rfl
    · rw [moveBlock, ho]
      exact moves_value h hi (by simpa using hr)
    · rw [moveBlock, ho]
      exact moves_member hat hr (.inr rfl) fun _ => rfl

/-- Each token leads on as in the walk over the token list. -/
theorem moveAt_moves (h : At ts start (segment.reverse ++ t :: rest))
    (hi : start + segment.length = i) :
    Moves ts outers constants nest i (moveAt ts outers.head? constants start nest i t)
      (walk outers nest constants segment (t :: rest)) := by
  have hlen : start + segment.reverse.length = i := by rwa [List.length_reverse]
  have hat := h.behindSegment hi
  unfold moveAt
  split
  · exact moves_token h hi walk_parenthesis
  · exact moves_token h hi walk_bracket
  · cases nest with
    | zero => rw [walk]; exact .fault _
    | succ nest => exact moves_token h hi walk_closeParenthesis
  · cases nest with
    | zero => rw [walk]; exact .fault _
    | succ nest => exact moves_token h hi walk_closeBracket
  · split
    · next hn => exact moves_token h hi (walk_token rfl fun _ => hn)
    · next hn =>
      obtain rfl := Decidable.not_not.1 hn
      split
      · next hc =>
        rw [hc, walk_endConstants, ← map_nil_append (walk outers 0 false [] rest)]
        exact .on (Nat.lt_succ_self i) hat.next rfl
      · next hc =>
        have hm := statementMember?_eq h
        rw [hlen] at hm
        rw [hm, Bool.eq_false_iff.2 hc, walk_semicolon]
        exact .on (Nat.lt_succ_self i) hat.next rfl
  · split
    · next hn => exact moves_token h hi (walk_passedBrace hn)
    · next hn =>
      obtain rfl := Decidable.not_not.1 hn
      cases outers with
      | nil => rw [walk]; exact .fault _
      | cons name outers =>
        rw [walk_closeBrace]
        exact .out (List.cons_ne_nil _ _) hat.next
  · split
    · next hv => exact moves_value h hi (if_pos hv)
    · next hv =>
      obtain ⟨rfl, rfl⟩ : nest = 0 ∧ constants = false := by simpa using hv
      exact moveBlock_moves h hi
  · refine moves_token h hi (walk_token ?_ ?_)
    · simp only [Token.isBracket, List.any_cons, List.any_nil]
      grind
    · rintro rfl
      grind

end

/-! ## The walk over a body -/

/-- The walk by indices in the body of the first one of `outers` does what the walk over the token
list does: the body ends behind a place further on, where the walk over the list goes on around
it. -/
inductive Walks (ts : List Token) (outers : List String) (i : Nat) :
    Except Fault (List Member × Nat) → Except Malformed (List Member) → Prop
  | fault (reason : Malformed) :
    Walks ts outers i (.error (.malformed reason)) (.error reason)
  | ends {ms : List Member} {next : Nat} : outers = [] → Walks ts outers i (.ok (ms, next)) (.ok ms)
  | closed {ms : List Member} {next : Nat} {after : List Token} :
    outers ≠ [] → i < next → At ts next after →
    Walks ts outers i (.ok (ms, next)) ((walk outers.tail 0 false [] after).map (ms ++ ·))

section
variable {ts rest segment : List Token} {outers : List String} {constants : Bool}
  {start nest i next : Nat}

/-- Members that are found on the way from `i` to `next`. -/
theorem Walks.append {x : Except Fault (List Member × Nat)} {y : Except Malformed (List Member)}
    (h : Walks ts outers next x y) (hi : i < next) (found : List Member) :
    Walks ts outers i (x.map fun r => (found ++ r.1, r.2)) (y.map (found ++ ·)) := by
  cases h with
  | fault reason => exact .fault reason
  | ends ho => exact .ends ho
  | closed ho hn hat =>
    rw [map_append_map]
    exact .closed ho (Nat.lt_trans hi hn) hat

/-- At the end of the list no body, parenthesis or bracket may be open. -/
theorem membersFrom_nil (h : At ts i []) :
    Walks ts outers i (membersFrom ts outers.head? constants start nest i)
      (walk outers nest constants segment []) := by
  rw [membersFrom, dif_neg h.not_lt, walk]
  cases outers with
  | nil =>
    by_cases h0 : nest = 0
    · rw [if_neg (by simpa using h0), if_neg (by simpa using h0)]
      exact .ends rfl
    · rw [if_pos (.inr h0), if_pos (.inr h0)]
      exact .fault _
  | cons name outers => exact .fault _

/-- The walk by indices is the walk over the token list. -/
theorem membersFrom_walks (h : At ts start (segment.reverse ++ rest))
    (hi : start + segment.length = i) :
    Walks ts outers i (membersFrom ts outers.head? constants start nest i)
      (walk outers nest constants segment rest) := by
  induction hn : ts.length - i using Nat.strongRecOn
    generalizing outers constants start nest segment i rest with
  | ind n ih =>
    have hat := h.behindSegment hi
    cases rest with
    | nil => exact membersFrom_nil hat
    | cons t rest =>
      have hm : Moves ts outers constants nest i (moveAt ts outers.head? constants start nest i t)
        (walk outers nest constants segment (t :: rest)) := moveAt_moves h hi
      have hlt := hat.lt
      have hsmall : ∀ {next}, i < next → ts.length - next < n := by omega
      rw [membersFrom, dif_pos hlt, hat.getElem]
      generalize moveAt ts outers.head? constants start nest i t = move at hm ⊢
      generalize walk outers nest constants segment (t :: rest) = found at hm ⊢
      cases hm with
      | fault reason => exact .fault reason
      | on hnext hseg hend =>
        dsimp only
        rw [if_pos hnext]
        exact (ih _ (hsmall hnext) hseg hend rfl).append hnext _
      | @into decl name enum rest hc h0 hbody =>
        subst hc h0
        have hinside : Walks ts (name :: outers) (i + 1)
            (membersFrom ts (some name) enum (i + 1) 0 (i + 1))
            (walk (name :: outers) 0 enum [] rest) :=
          ih _ (hsmall (Nat.lt_succ_self i)) hbody rfl rfl
        dsimp only
        generalize membersFrom ts (some name) enum (i + 1) 0 (i + 1) = inside at hinside ⊢
        generalize walk (name :: outers) 0 enum [] rest = walked at hinside ⊢
        cases hinside with
        | fault reason => exact .fault reason
        | ends ho => cases ho
        | @closed ms next after _ hnext hafter =>
          have hle := Nat.lt_of_succ_lt hnext
          dsimp only
          have hbehind : Walks ts outers next (membersFrom ts outers.head? false next 0 next)
              (walk outers 0 false [] after) :=
            ih _ (hsmall hle) hafter rfl rfl
          have hfound := hbehind.append hle (decl :: ms)
          rw [← List.singleton_append, ← map_append_map] at hfound
          rw [if_pos hle]
          exact hfound
      | out ho hafter =>
        rw [← map_nil_append (walk outers.tail _ _ _ _)]
        exact .closed ho (Nat.lt_succ_self i) hafter

/-- The members are those that the walk over the token list finds. -/
theorem members_agrees (h : At ts i rest) : Agrees Eq (members ts i) (Java.members rest) := by
  have hw : Walks ts [] i (membersFrom ts none false i 0 i) (walk [] 0 false [] rest) :=
    membersFrom_walks h rfl
  rw [members, Java.members]
  generalize membersFrom ts none false i 0 i = inside at hw ⊢
  generalize walk [] 0 false [] rest = walked at hw ⊢
  cases hw with
  | fault reason => exact .malformed reason
  | ends => exact .ok rfl
  | closed ho => exact absurd rfl ho

end

end TestImpact.Java.Indexed
