import TestImpact.Java.Member
import TestImpact.Proofs.Java.TypeExpr

/-!
# Nested brackets

The readers of token lists find their way by counting brackets: `splitClose` counts one kind,
`commaParts` and `firstOpener` count others. A `BracketCount` is such a counter, and
`BracketCount.depth` what it counts. Main statements: what `splitClose` and `firstOpener` do with
tokens after which their counter stands where it stood (`splitClose_append`, `firstOpener_append`);
every counter passes over a type (`BracketCount.depth_type`); a counter of one kind passes over
tokens that are nested in parentheses, brackets and braces (`WellNested.depth`); and whether tokens
are nested can be seen from left to right (`wellNested_iff`).
-/

namespace TestImpact.Java

/-! ## Counters -/

/-- What a reader counts: the tokens that open and that close a bracket, and those that it must not
meet outside of all brackets. -/
structure BracketCount where
  opens : Token → Bool
  closes : Token → Bool
  stops : Token → Bool := fun _ => false

namespace BracketCount

/-- The number of open brackets after a token that is met at `d` open ones; nothing if it closes a
bracket that is not open, or stops the reader. -/
def step (k : BracketCount) (d : Nat) (t : Token) : Option Nat :=
  if k.opens t then some (d + 1)
  else if k.closes t then (if d = 0 then none else some (d - 1))
  else if k.stops t && d = 0 then none
  else some d

/-- The number of open brackets after a list that is met at `d` open ones. -/
def depth (k : BracketCount) (d : Nat) : List Token → Option Nat
  | [] => some d
  | t :: ts => (k.step d t).bind (k.depth · ts)

end BracketCount

/-- Counts one kind of brackets. -/
def pairCount (o c : Char) : BracketCount where
  opens := (· = .mark o)
  closes := (· = .mark c)

/-- Counts the brackets between which a comma does not separate. -/
def commaCount : BracketCount where
  opens t := t = .mark '<' || t = .mark '(' || t = .mark '['
  closes t := t = .mark '>' || t = .mark ')' || t = .mark ']'
  stops := (· = .mark ',')

/-- Counts the brackets between which no parenthesis and no equals sign is looked for. -/
def openerCount : BracketCount where
  opens := (· = .mark '<')
  closes := (· = .mark '>')
  stops t := t = .mark '(' || t = .mark '='

section
variable {k : BracketCount} {o c : Char} {d e : Nat} {ts us rest : List Token} {t : Token}

/-- A reader goes on in the second list with the depth that the first one leaves. -/
theorem BracketCount.depth_append :
    k.depth d (ts ++ us) = (k.depth d ts).bind (k.depth · us) := by
  induction ts generalizing d with
  | nil => rfl
  | cons t ts ih =>
    rw [List.cons_append, depth, depth, Option.bind_assoc]
    exact congrArg _ (funext fun e => ih)

/-- The depth behind one token is that of its step. -/
theorem BracketCount.depth_of_step (h : k.step d t = some e) : k.depth d [t] = some e := by
  rw [depth, h]
  rfl

/-- Behind a list with a depth, the reader goes on from there. -/
theorem BracketCount.depth_append_of (h : k.depth d ts = some e) :
    k.depth d (ts ++ us) = k.depth e us := by
  rw [depth_append, h]
  rfl

/-- Behind a token with a step, the reader goes on from there. -/
theorem BracketCount.depth_cons_of (h : k.step d t = some e) :
    k.depth d (t :: ts) = k.depth e ts := by
  rw [depth, h]
  rfl

/-- A reader that gets through a list takes a step over its first token. -/
theorem BracketCount.depth_cons (h : k.depth d (t :: ts) = some e) :
    ∃ f, k.step d t = some f ∧ k.depth f ts = some e :=
  Option.bind_eq_some_iff.1 h

/-- A list up to the bracket that closes it. -/
theorem splitClose_append (hoc : o ≠ c) (h : (pairCount o c).depth d ts = some 0) :
    splitClose o c d (ts ++ .mark c :: rest) = some (ts, rest) := by
  induction ts generalizing d with
  | nil =>
    obtain rfl : d = 0 := Option.some.inj h
    simp [splitClose, hoc.symm]
  | cons t ts ih =>
    obtain ⟨f, hs, h⟩ := BracketCount.depth_cons h
    rw [List.cons_append, splitClose.eq_def]
    dsimp only
    by_cases ho : t = .mark o
    · simp only [BracketCount.step, pairCount, ho, decide_true, if_true, Option.some.injEq] at hs
      rw [if_pos ho, hs, ih h]
      rfl
    by_cases hc : t = .mark c
    · cases d with
      | zero => simp [BracketCount.step, pairCount, hc, hoc.symm] at hs
      | succ d =>
        obtain rfl : d = f := by simpa [BracketCount.step, pairCount, hc, hoc.symm] using hs
        rw [if_neg ho, if_pos hc]
        simp only [ih h, Option.map_some]
    · obtain rfl : d = f := by simpa [BracketCount.step, pairCount, ho, hc] using hs
      rw [if_neg ho, if_neg hc, ih h]
      rfl

/-- More brackets around a list change nothing but the count. -/
theorem depth_pairCount_add (h : (pairCount o c).depth d ts = some e) (n : Nat) :
    (pairCount o c).depth (d + n) ts = some (e + n) := by
  induction ts generalizing d with
  | nil => cases h; rfl
  | cons t ts ih =>
    obtain ⟨f, hs, h⟩ := BracketCount.depth_cons h
    have hn : (pairCount o c).step (d + n) t = some (f + n) := by
      unfold BracketCount.step at hs ⊢
      split at hs
      · next ho =>
        cases hs
        rw [if_pos ho, Nat.add_right_comm]
      · next ho =>
        rw [if_neg ho]
        split at hs
        · next hc =>
          rw [if_pos hc]
          split at hs
          · cases hs
          · cases hs
            rw [if_neg (by omega)]
            congr 1
            omega
        · next hc =>
          rw [if_neg hc]
          cases hs
          rfl
    rw [BracketCount.depth, hn]
    exact ih h

/-- An opening bracket counts one more. -/
theorem step_opens : (pairCount o c).step d (.mark o) = some (d + 1) := by
  simp [BracketCount.step, pairCount]

/-- A closing bracket counts one less. -/
theorem step_closes (h : Token.mark c ≠ .mark o) :
    (pairCount o c).step (d + 1) (.mark c) = some d := by
  simp [BracketCount.step, pairCount, show c ≠ o from fun he => h (congrArg _ he)]

/-- Any other token is passed over. -/
theorem step_passes (ho : t ≠ .mark o) (hc : t ≠ .mark c) : (pairCount o c).step d t = some d := by
  simp [BracketCount.step, pairCount, ho, hc]

/-- What stands in front of the bracket that closes. -/
theorem depth_of_splitClose (h : splitClose o c d ts = some (us, rest)) :
    (pairCount o c).depth d us = some 0 := by
  fun_induction splitClose o c d ts generalizing us rest with
  | case1 => cases h
  | case2 d ts ih =>
    obtain ⟨⟨i, r⟩, hi, he⟩ := Option.map_eq_some_iff.1 h
    cases he
    rw [BracketCount.depth_cons_of step_opens, ih hi]
  | case3 => cases h; rfl
  | case4 ts d hoc ih =>
    obtain ⟨⟨i, r⟩, hi, he⟩ := Option.map_eq_some_iff.1 h
    cases he
    rw [BracketCount.depth_cons_of (step_closes hoc), ih hi]
  | case5 d t ts ho hc ih =>
    obtain ⟨⟨i, r⟩, hi, he⟩ := Option.map_eq_some_iff.1 h
    cases he
    rw [BracketCount.depth_cons_of (step_passes ho hc), ih hi]

/-- Where no bracket closes, none is met that is not expected. -/
theorem exists_depth_of_splitClose (h : splitClose o c d ts = none) :
    ∃ e, (pairCount o c).depth d ts = some e := by
  fun_induction splitClose o c d ts with
  | case1 d => exact ⟨d, rfl⟩
  | case2 d ts ih =>
    rw [BracketCount.depth_cons_of step_opens]
    exact ih (Option.map_eq_none_iff.1 h)
  | case3 => cases h
  | case4 ts d hoc ih =>
    rw [BracketCount.depth_cons_of (step_closes hoc)]
    exact ih (Option.map_eq_none_iff.1 h)
  | case5 d t ts ho hc ih =>
    rw [BracketCount.depth_cons_of (step_passes ho hc)]
    exact ih (Option.map_eq_none_iff.1 h)

/-- A list that is split is split so in front of further tokens. -/
theorem splitClose_append_of_eq_some (hoc : o ≠ c) (h : splitClose o c d ts = some (us, rest))
    (more : List Token) : splitClose o c d (ts ++ more) = some (us, rest ++ more) := by
  rw [append_of_splitClose h, List.append_assoc, List.cons_append]
  exact splitClose_append hoc (depth_of_splitClose h)

/-- A bracket that is open at the end of a list is closed behind it. -/
theorem exists_append_of_splitClose {more : List Token} (hoc : o ≠ c)
    (hn : splitClose o c d ts = none) (h : splitClose o c d (ts ++ more) = some (us, rest)) :
    ∃ front, more = front ++ .mark c :: rest := by
  rcases List.append_eq_append_iff.1 (append_of_splitClose h) with ⟨back, -, hu⟩ | ⟨back, rfl, hu⟩
  · exact ⟨back, hu⟩
  · cases back with
    | nil => exact ⟨[], hu.symm⟩
    | cons t back =>
      obtain ⟨rfl, -⟩ := List.cons.inj hu
      rw [splitClose_append hoc (depth_of_splitClose h)] at hn
      cases hn

/-- Nothing is found inside of what a reader passes over. -/
theorem firstOpener_append (h : openerCount.depth d ts = some e) :
    firstOpener d (ts ++ rest) = firstOpener e rest := by
  induction ts generalizing d with
  | nil => cases h; rfl
  | cons t ts ih =>
    obtain ⟨f, hs, h⟩ := BracketCount.depth_cons h
    rw [List.cons_append, firstOpener, ← ih h]
    by_cases ho : t = .mark '<'
    · subst ho
      cases hs
      rfl
    by_cases hc : t = .mark '>'
    · subst hc
      cases d with
      | zero => cases hs
      | succ d => cases hs; simp
    have hf : d = f ∧ (d = 0 → t ≠ .mark '(' ∧ t ≠ .mark '=') := by
      have hs : (openerCount.stops t && d = 0) = false ∧ d = f := by
        simpa [BracketCount.step, openerCount, ho, hc] using hs
      refine ⟨hs.2, fun hd => ?_⟩
      simpa [openerCount, hd] using hs.1
    obtain ⟨rfl, hf⟩ := hf
    rw [if_neg, if_neg, if_neg ho, if_neg hc]
    · exact fun h => (hf (by omega)).2 h.1
    · exact fun h => (hf (by omega)).1 h.1

/-- A reader that passes over the words of a type, and over its brackets in pairs. -/
structure BracketCount.FitsTypes (k : BracketCount) : Prop where
  word {d : Nat} {w : String} : k.step d (.word w) = some d
  dot {d : Nat} : k.step d (.mark '.') = some d
  wildcard {d : Nat} : k.step d (.mark '?') = some d
  brackets {d : Nat} : k.depth d [.mark '[', .mark ']'] = some d
  angles : ∃ n, ∀ d, k.step d (.mark '<') = some (d + n) ∧ k.step (d + n) (.mark '>') = some d ∧
    k.step (d + n) (.mark ',') = some (d + n)

/-- The count of angle brackets comes out even behind a type. -/
theorem fitsTypes_angles : (pairCount '<' '>').FitsTypes :=
  ⟨rfl, rfl, rfl, rfl, 1, fun _ => ⟨rfl, rfl, rfl⟩⟩

/-- The count for commas comes out even behind a type. -/
theorem fitsTypes_comma : commaCount.FitsTypes :=
  ⟨rfl, rfl, rfl, rfl, 1, fun _ => ⟨rfl, rfl, by simp [BracketCount.step, commaCount]⟩⟩

/-- The count for parentheses and equals signs comes out even behind a type. -/
theorem fitsTypes_opener : openerCount.FitsTypes :=
  ⟨rfl, rfl, rfl, rfl, 1, fun _ => ⟨rfl, rfl, rfl⟩⟩

/-- A reader passes over a type. -/
theorem BracketCount.depth_type (hk : k.FitsTypes) (type : TypeExpr) (d : Nat) :
    k.depth d type.tokens = some d := by
  obtain ⟨n, hn⟩ := hk.angles
  have hc : TypeClosed (fun ts => ∀ d, k.depth d ts = some d)
      (fun ts => ∀ d, k.depth (d + n) ts = some (d + n)) := by
    refine ⟨fun _ => rfl, ?_, ?_, ?_, ?_, ?_, ?_, ?_, ?_⟩
    · intro a b ha hb d
      rw [depth_append_of (ha d), hb d]
    · exact fun _ d => depth_of_step hk.word
    · exact fun d => depth_of_step hk.dot
    · exact fun d => hk.brackets
    · intro a ha d
      obtain ⟨ho, hc, -⟩ := hn d
      rw [depth_cons_of ho, depth_append_of (ha d), depth_of_step hc]
    · intro a b ha d
      cases b with
      | exact => exact ha _
      | upper | lower =>
        show k.depth (d + n) (.mark '?' :: .word _ :: a) = _
        rw [depth_cons_of hk.wildcard, depth_cons_of hk.word, ha]
    · exact fun d => depth_of_step hk.wildcard
    · intro a b ha hb d
      rw [depth_append_of (ha d), depth_cons_of (hn d).2.2, hb d]
  exact type.tokens_closed hc d

/-! ## Nested tokens -/

/-- Parentheses, brackets and braces. -/
inductive Brackets : Char → Char → Prop
  | parentheses : Brackets '(' ')'
  | brackets : Brackets '[' ']'
  | braces : Brackets '{' '}'

/-- The token is one of the brackets. -/
def Token.isBracket (t : Token) : Bool :=
  ['(', ')', '[', ']', '{', '}'].any fun c => t = .mark c

/-- Every bracket of the list is closed by its own kind, and `p` holds of the tokens outside of all
brackets and of those that open one there. -/
inductive WellNested : (Token → Prop) → List Token → Prop
  | nil {p : Token → Prop} : WellNested p []
  | token {p : Token → Prop} {t : Token} {ts : List Token} :
    t.isBracket = false → p t → WellNested p ts → WellNested p (t :: ts)
  | group {p : Token → Prop} {o c : Char} {inside rest : List Token} :
    Brackets o c → p (.mark o) → WellNested (fun _ => True) inside → WellNested p rest →
    WellNested p (.mark o :: (inside ++ .mark c :: rest))

section
variable {p q : Token → Prop}

/-- Nested tokens one after another are nested. -/
theorem WellNested.append (ht : WellNested p ts) (hu : WellNested p us) :
    WellNested p (ts ++ us) := by
  induction ht with
  | nil => exact hu
  | token hb hp _ ih => exact .token hb hp (ih hu)
  | group hoc hp hi _ _ ih =>
    rw [List.cons_append, List.append_assoc]
    exact .group hoc hp hi (ih hu)

/-- A weaker condition on the tokens may be asked for. -/
theorem WellNested.imp (h : ∀ t, p t → q t) (ht : WellNested p ts) : WellNested q ts := by
  induction ht with
  | nil => exact .nil
  | token hb hp _ ih => exact .token hb (h _ hp) (ih h)
  | group hoc hp hi _ _ ih => exact .group hoc (h _ hp) hi (ih h)

/-- A reader of one kind of brackets counts a pair of that kind, and no other one. -/
theorem step_brackets {o' c' : Char} (hoc : Brackets o c) (hoc' : Brackets o' c') (d : Nat) :
    ∃ e, (pairCount o c).step d (.mark o') = some e ∧
      (pairCount o c).step e (.mark c') = some d := by
  cases hoc <;> cases hoc' <;> first | exact ⟨d, rfl, rfl⟩ | exact ⟨d + 1, rfl, rfl⟩

/-- A token that is no bracket is passed over by every count. -/
theorem step_of_isBracket (hoc : Brackets o c) (ht : t.isBracket = false) (d : Nat) :
    (pairCount o c).step d t = some d := by
  have hne : t ≠ .mark o ∧ t ≠ .mark c := by cases hoc <;> simp_all [Token.isBracket]
  exact step_passes hne.1 hne.2

/-- A reader of one kind of brackets passes over nested tokens. -/
theorem WellNested.depth (hoc : Brackets o c) (ht : WellNested p ts) (d : Nat) :
    (pairCount o c).depth d ts = some d := by
  induction ht generalizing d with
  | nil => rfl
  | token hb _ _ ih => rw [BracketCount.depth_cons_of (step_of_isBracket hoc hb d), ih d]
  | group hoc' _ _ _ ihi ih =>
    obtain ⟨e, he, hd⟩ := step_brackets hoc hoc' d
    rw [BracketCount.depth_cons_of he, BracketCount.depth_append_of (ihi e),
      BracketCount.depth_cons_of hd, ih d]

/-- A type is nested, and has no brackets but those of arrays. -/
theorem wellNested_type (hp : ∀ t, (∃ w, t = .word w) ∨ t ∈ [Token.mark '.', .mark '?', .mark '<',
    .mark '>', .mark ',', .mark '['] → p t) (type : TypeExpr) : WellNested p type.tokens := by
  have hmark : ∀ c ∈ ['.', '?', '<', '>', ','], ∀ {ts}, WellNested p ts →
      WellNested p (.mark c :: ts) := by
    intro c hc ts ht
    refine .token ?_ (hp _ (.inr ?_)) ht
    · revert c; simp [Token.isBracket]
    · revert c; simp
  have hword : ∀ {w ts}, WellNested p ts → WellNested p (.word w :: ts) := fun ht =>
    .token (by simp [Token.isBracket]) (hp _ (.inl ⟨_, rfl⟩)) ht
  have hc : TypeClosed (WellNested p) (WellNested p) := by
    refine ⟨.nil, .append, fun _ => hword .nil, hmark '.' (by decide) .nil, ?_, ?_, ?_, ?_, ?_⟩
    · exact .group .brackets (hp _ (.inr (by decide))) .nil .nil
    · exact fun ha => hmark '<' (by decide) (ha.append (hmark '>' (by decide) .nil))
    · intro a b ha
      cases b with
      | exact => exact ha
      | upper | lower => exact hmark '?' (by decide) (hword ha)
    · exact hmark '?' (by decide) .nil
    · exact fun ha hb => ha.append (hmark ',' (by decide) hb)
  exact type.tokens_closed hc

end

end

/-! ## Nesting is decidable -/

/-- Every bracket is closed by its own kind. `awaited` holds the marks that close the brackets open
in front of the list, the innermost one first. -/
def nests (awaited : List Char) : List Token → Bool
  | [] => awaited.isEmpty
  | .mark '(' :: ts => nests (')' :: awaited) ts
  | .mark '[' :: ts => nests (']' :: awaited) ts
  | .mark '{' :: ts => nests ('}' :: awaited) ts
  | t :: ts =>
    if t.isBracket then
      match awaited with
      | [] => false
      | c :: more => t = .mark c && nests more ts
    else nests awaited ts

/-- The list goes through nested tokens to the awaited marks, one after another, and ends in nested
tokens. -/
def Closes : List Char → List Token → Prop
  | [], ts => WellNested (fun _ => True) ts
  | c :: more, ts =>
    ∃ inside rest, ts = inside ++ .mark c :: rest ∧ WellNested (fun _ => True) inside ∧
      Closes more rest

section
variable {p : Token → Prop} {awaited : List Char} {ts us rest : List Token} {o c : Char} {t : Token}

/-- Nested tokens in front change nothing of what is closed. -/
theorem Closes.append (ht : WellNested (fun _ => True) ts) (hu : Closes awaited us) :
    Closes awaited (ts ++ us) := by
  cases awaited with
  | nil => exact WellNested.append ht hu
  | cons c more =>
    obtain ⟨inside, rest, rfl, hi, hr⟩ := hu
    exact ⟨ts ++ inside, rest, by simp, ht.append hi, hr⟩

/-- A group closes its own bracket first. -/
theorem Closes.group (hoc : Brackets o c) (h : Closes (c :: awaited) ts) :
    Closes awaited (.mark o :: ts) := by
  obtain ⟨inside, rest, rfl, hi, hr⟩ := h
  have hg : WellNested (fun _ => True) (.mark o :: (inside ++ [.mark c])) :=
    .group hoc trivial hi .nil
  have he : Token.mark o :: (inside ++ .mark c :: rest) =
      .mark o :: (inside ++ [.mark c]) ++ rest := by simp
  rw [he]
  exact Closes.append hg hr

/-- What a look from left to right accepts goes through the awaited marks. -/
theorem closes_of_nests (h : nests awaited ts = true) : Closes awaited ts := by
  fun_induction nests awaited ts with
  | case1 awaited =>
    obtain rfl : awaited = [] := List.isEmpty_iff.1 h
    exact .nil
  | case2 awaited ts ih => exact .group .parentheses (ih h)
  | case3 awaited ts ih => exact .group .brackets (ih h)
  | case4 awaited ts ih => exact .group .braces (ih h)
  | case5 => cases h
  | case6 t ts _ _ _ _ c more ih =>
    rw [Bool.and_eq_true, decide_eq_true_eq] at h
    exact ⟨[], ts, by rw [h.1]; rfl, .nil, ih h.2⟩
  | case7 awaited t ts _ _ _ hb ih =>
    have ht : WellNested (fun _ => True) [t] := .token (by simpa using hb) trivial .nil
    exact Closes.append ht (ih h)

/-- A token that is no bracket awaits nothing. -/
theorem nests_token (ht : t.isBracket = false) : nests awaited (t :: ts) = nests awaited ts := by
  rw [nests.eq_def]
  split
  · next h => cases h
  · next h => cases h; exact absurd ht (by decide)
  · next h => cases h; exact absurd ht (by decide)
  · next h => cases h; exact absurd ht (by decide)
  · next h => cases h; rw [if_neg (by simp [ht])]

/-- An opening bracket awaits the closing one of its kind. -/
theorem nests_open (hoc : Brackets o c) :
    nests awaited (.mark o :: ts) = nests (c :: awaited) ts := by
  cases hoc <;> rw [nests]

/-- A closing bracket has to be the one that is awaited. -/
theorem nests_close (hoc : Brackets o c) :
    nests (c :: awaited) (.mark c :: ts) = nests awaited ts := by
  cases hoc <;> simp [nests, Token.isBracket]

/-- Nested tokens in front await nothing. -/
theorem nests_append (ht : WellNested p ts) : nests awaited (ts ++ rest) = nests awaited rest := by
  induction ht generalizing awaited rest with
  | nil => rfl
  | token hb _ _ ih => rw [List.cons_append, nests_token hb, ih]
  | group hoc _ _ _ ihi ih =>
    rw [List.cons_append, nests_open hoc, List.append_assoc, ihi, List.cons_append,
      nests_close hoc, ih]

/-- Tokens are nested just if a look at them from left to right finds every bracket closed by its
own kind. -/
theorem wellNested_iff : WellNested (fun _ => True) ts ↔ nests [] ts = true := by
  refine ⟨fun h => ?_, closes_of_nests⟩
  have hn : nests [] (ts ++ []) = nests [] [] := nests_append h
  rwa [List.append_nil] at hn

instance : Decidable (WellNested (fun _ => True) ts) := decidable_of_iff _ wellNested_iff.symm

end

end TestImpact.Java
