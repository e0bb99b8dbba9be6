import Mathlib.Data.List.TakeWhile
import TestImpact.Java.Source
import TestImpact.Proofs.Java.TypeText
import TestImpact.Proofs.Text.Parts
import TestImpact.Proofs.Text.Pieces

/-!
# What a text mentions

The names that a raw type mentions are told by the characters around them, whatever the text is. In
front of the first `<`, a name stands between the ends of the head and its dots; behind it, a name
is the end of a run of characters of names that does not go on with a segment. Main statement: an
identifier is mentioned exactly if it stands in one of these two ways (`mem_mentionedBy_iff`).
-/

namespace TestImpact.Java

/-- No character of a name. -/
def Apart (o : Option Char) : Prop := ∀ c ∈ o, isNamePart c = false

/-- A dot and the start of a segment follow. -/
def GoesOn (after : List Char) : Prop := ∃ c r, after = '.' :: c :: r ∧ isNameStart c = true

/-- The name `x` starts at the first character of its run that is no digit, it ends with the run,
and no segment follows. -/
structure IsLastSegment (x : String) (before digits after : List Char) : Prop where
  starts : x.toList.head?.any isNameStart = true
  parts : ∀ c ∈ x.toList, isNamePart c = true
  digits : ∀ c ∈ digits, c.isDigit = true
  apart_before : Apart before.getLast?
  apart_after : Apart after.head?
  ends : ¬GoesOn after

/-- The name stands behind an opening angle bracket as the last segment of a dotted name. -/
def NamedInArguments (x : String) (text : List Char) : Prop :=
  ∃ before digits after, text = before ++ (digits ++ (x.toList ++ after)) ∧ '<' ∈ before ∧
    IsLastSegment x before digits after

/-- Nothing but blanks, array brackets and ellipses follow up to an opening angle bracket. -/
def EndsHead (after : List Char) : Prop :=
  ∃ blanks m n rest,
    after = blanks ++ (charsOf (dimTokens m) ++ (charsOf (List.replicate n .ellipsis) ++ rest)) ∧
      (∀ c ∈ blanks, isBlank c = true) ∧ ∀ c ∈ rest.head?, c = '<'

/-- The name stands in front of all angle brackets, behind nothing but blanks or behind a dot; it
ends the head of the type or, if it starts with a capital letter, a dot follows. -/
def NamedInFront (x : String) (text : List Char) : Prop :=
  ∃ before after, text = before ++ (x.toList ++ after) ∧ '<' ∉ before ∧
    ((∀ c ∈ before, isBlank c = true) ∨ before.getLast? = some '.') ∧
      (EndsHead after ∨ isCapitalized x = true ∧ after.head? = some '.')

section
variable {c : Char} {cs us seen before after part : List Char} {x : String}

/-! ## Segments of dotted names -/

/-- Where the text ends, no character of a name stands. -/
theorem apart_none : Apart none := nofun

/-- A character that belongs to no name sets apart. -/
theorem apart_some (h : isNamePart c = false) : Apart (some c) := by
  rintro d ⟨⟩
  exact h

/-- A character of names that starts no name is a digit. -/
theorem isDigit_of_isNamePart (hp : isNamePart c = true) (hs : isNameStart c = false) :
    c.isDigit = true := by
  simp only [isNameStart, Bool.or_eq_false_iff] at hs
  simpa [isNamePart, Char.isAlphanum, hs.1.1, hs.1.2, hs.2] using hp

/-- A digit starts no name. -/
theorem isNameStart_of_isDigit (h : c.isDigit = true) : isNameStart c = false := by
  have hlt := toNat_of_isDigit h
  have hn : ∀ n < 0x3A, isNameStart (Char.ofNat n) = true → Char.ofNat n = '$' := by
    decide +kernel
  refine Bool.eq_false_iff.2 fun hs => ?_
  have hc := hn c.toNat hlt (by rwa [Char.ofNat_toNat])
  rw [Char.ofNat_toNat] at hc
  rw [hc] at h
  exact absurd h (by decide)

/-- Where the text ends, no segment follows. -/
theorem not_goesOn_nil : ¬GoesOn [] := nofun

/-- What follows a run goes on with a segment exactly if the reader passes over the dot. -/
theorem goesOn_cons : GoesOn (c :: after) ↔ (c = '.' && after.head?.any isNameStart) = true := by
  rw [Bool.and_eq_true, decide_eq_true_eq]
  constructor
  · rintro ⟨d, r, ⟨⟩, hd⟩
    exact ⟨rfl, hd⟩
  · rintro ⟨rfl, hd⟩
    cases after with
    | nil => cases hd
    | cons d r => exact ⟨d, r, rfl, hd⟩

/-- Characters that start no name are passed over. -/
theorem lastSegments_pass (h : ∀ c ∈ cs, isNameStart c = false) :
    lastSegments [] (cs ++ after) = lastSegments [] after := by
  induction cs with
  | nil => rfl
  | cons c cs ih =>
    obtain ⟨hc, h⟩ := List.forall_mem_cons.1 h
    simp only [List.cons_append, lastSegments, List.isEmpty_nil, hc, Bool.false_eq_true, if_false,
      if_true]
    exact ih h

/-- What is read behind a character that belongs to no name is read, whatever stands in front. -/
theorem mem_lastSegments_behind (hb : Apart before.getLast?) (hs : before = [] → seen = [])
    (h : x ∈ lastSegments [] after) : x ∈ lastSegments seen (before ++ after) := by
  induction before generalizing seen with
  | nil => rwa [hs rfl]
  | cons c before ih =>
    have htail : Apart before.getLast? := by
      intro d hd
      refine hb d ?_
      rw [List.getLast?_cons, Option.mem_def.1 hd]
      rfl
    have hlast : before = [] → isNamePart c = false := by
      rintro rfl
      exact hb c rfl
    rw [List.cons_append, lastSegments]
    split
    · split
      · next hc =>
        refine ih htail fun he => ?_
        rw [isNameStart_of_isNamePart (hlast he)] at hc
        cases hc
      · exact ih htail fun _ => rfl
    · split
      · next hc =>
        refine ih htail fun he => ?_
        rw [hlast he] at hc
        cases hc
      · split
        · exact ih htail fun _ => rfl
        · exact List.mem_cons_of_mem _ (ih htail fun _ => rfl)

/-- One more character in front is of no account, unless it makes the run longer. -/
theorem IsLastSegment.cons {digits : List Char} (h : IsLastSegment x before digits after)
    (hc : before = [] → isNamePart c = false) : IsLastSegment x (c :: before) digits after where
  starts := h.starts
  parts := h.parts
  digits := h.digits
  apart_before := by
    cases before with
    | nil => exact apart_some (hc rfl)
    | cons d before => exact h.apart_before
  apart_after := h.apart_after
  ends := h.ends

/-- A segment that is read goes on from what has been seen to the end of the run, or it stands
behind the run. -/
theorem exists_of_mem_lastSegments (h : x ∈ lastSegments seen cs) :
    (seen ≠ [] ∧ ∃ more after, cs = more ++ after ∧ x.toList = seen.reverse ++ more ∧
      (∀ c ∈ more, isNamePart c = true) ∧ Apart after.head? ∧ ¬GoesOn after) ∨
    ∃ before digits after, cs = before ++ (digits ++ (x.toList ++ after)) ∧
      IsLastSegment x before digits after ∧ (seen ≠ [] → before ≠ []) := by
  fun_induction lastSegments seen cs with
  | case1 => cases h
  | case2 seen he =>
    rw [List.isEmpty_iff] at he
    refine .inl ⟨he, [], [], rfl, ?_, List.forall_mem_nil _, apart_none, not_goesOn_nil⟩
    rw [List.mem_singleton.1 h, String.toList_ofList, List.append_nil]
  | case3 seen c r he hc ih =>
    obtain rfl := List.isEmpty_iff.1 he
    rcases ih h with ⟨-, more, after, rfl, hx, hp, ha, hg⟩ | ⟨before, digits, after, rfl, hx, hb⟩
    · refine .inr ⟨[], [], after, by rw [hx]; rfl,
        ⟨?_, ?_, List.forall_mem_nil _, apart_none, ha, hg⟩, fun hs => absurd rfl hs⟩
      · rw [hx]
        exact hc
      · rw [hx]
        exact List.forall_mem_cons.2 ⟨isNamePart_of_isNameStart hc, hp⟩
    · have hne : before ≠ [] := hb (List.cons_ne_nil _ _)
      exact .inr ⟨c :: before, digits, after, rfl, hx.cons fun he => absurd he hne,
        fun _ => List.cons_ne_nil c before⟩
  | case4 seen c r he hc ih =>
    obtain rfl := List.isEmpty_iff.1 he
    obtain ⟨before, digits, after, rfl, hx, -⟩ := (ih h).resolve_left fun hs => hs.1 rfl
    by_cases hd : before = [] ∧ isNamePart c = true
    · -- a digit, which the run of the segment starts with
      obtain ⟨rfl, hp⟩ := hd
      refine .inr ⟨[], c :: digits, after, rfl, ⟨hx.starts, hx.parts, ?_, apart_none,
        hx.apart_after, hx.ends⟩, fun hs => absurd rfl hs⟩
      exact List.forall_mem_cons.2 ⟨isDigit_of_isNamePart hp (Bool.eq_false_iff.2 hc), hx.digits⟩
    · exact .inr ⟨c :: before, digits, after, rfl, hx.cons (by simpa using hd),
        fun hs => absurd rfl hs⟩
  | case5 seen c r he hc ih =>
    rcases ih h with ⟨-, more, after, rfl, hx, hp, ha, hg⟩ | ⟨before, digits, after, rfl, hx, hb⟩
    · refine .inl ⟨by simpa using he, c :: more, after, rfl, ?_, ?_, ha, hg⟩
      · rw [hx, List.reverse_cons, List.append_assoc, List.singleton_append]
      · exact List.forall_mem_cons.2 ⟨hc, hp⟩
    · have hne : before ≠ [] := hb (List.cons_ne_nil _ _)
      exact .inr ⟨c :: before, digits, after, rfl, hx.cons fun he => absurd he hne,
        fun _ => List.cons_ne_nil c before⟩
  | case6 seen c r he hc hd ih =>
    obtain ⟨before, digits, after, rfl, hx, -⟩ := (ih h).resolve_left fun hs => hs.1 rfl
    exact .inr ⟨c :: before, digits, after, rfl, hx.cons fun _ => Bool.eq_false_iff.2 hc,
      fun _ => List.cons_ne_nil c before⟩
  | case7 seen c r he hc hd ih =>
    rcases List.mem_cons.1 h with rfl | h
    · refine .inl ⟨by simpa using he, [], c :: r, rfl, ?_, List.forall_mem_nil _,
        apart_some (Bool.eq_false_iff.2 hc), fun hg => hd (goesOn_cons.1 hg)⟩
      rw [String.toList_ofList, List.append_nil]
    · obtain ⟨before, digits, after, rfl, hx, -⟩ := (ih h).resolve_left fun hs => hs.1 rfl
      exact .inr ⟨c :: before, digits, after, rfl, hx.cons fun _ => Bool.eq_false_iff.2 hc,
        fun _ => List.cons_ne_nil c before⟩

/-- A run that has been started is read to its end, unless a segment follows. -/
theorem mem_lastSegments_run (hs : seen ≠ []) (hp : ∀ c ∈ cs, isNamePart c = true)
    (ha : Apart after.head?) (hg : ¬GoesOn after) :
    .ofList (seen.reverse ++ cs) ∈ lastSegments seen (cs ++ after) := by
  induction cs generalizing seen with
  | nil =>
    cases after with
    | nil => simp [lastSegments, hs]
    | cons d after =>
      rw [List.nil_append, lastSegments, if_neg (by simpa using hs), if_neg (by simp [ha d rfl]),
        if_neg (mt goesOn_cons.2 hg), List.append_nil]
      exact List.mem_cons_self
  | cons c cs ih =>
    obtain ⟨hc, hp⟩ := List.forall_mem_cons.1 hp
    rw [List.cons_append, lastSegments, if_neg (by simpa using hs), if_pos hc]
    simpa using ih (List.cons_ne_nil c seen) hp

/-- The segments that are read off a text are the ends of its runs of characters of names, from the
first one that starts a name, unless a segment follows. -/
theorem mem_lastSegments_iff : x ∈ lastSegments [] cs ↔
    ∃ before digits after, cs = before ++ (digits ++ (x.toList ++ after)) ∧
      IsLastSegment x before digits after := by
  constructor
  · intro h
    obtain ⟨before, digits, after, he, hx, -⟩ :=
      (exists_of_mem_lastSegments h).resolve_left fun hs => hs.1 rfl
    exact ⟨before, digits, after, he, hx⟩
  · rintro ⟨before, digits, after, rfl, hx⟩
    obtain ⟨c, r, hw⟩ : ∃ c r, x.toList = c :: r := by
      refine List.exists_cons_of_ne_nil fun he => ?_
      have hs := hx.starts
      rw [he] at hs
      cases hs
    have hstarts := hx.starts
    have hparts := hx.parts
    rw [hw] at hstarts hparts
    have hc : isNameStart c = true := hstarts
    have hread := mem_lastSegments_run (List.cons_ne_nil c []) (List.forall_mem_cons.1 hparts).2
      hx.apart_after hx.ends
    rw [List.reverse_singleton, List.singleton_append, ← hw, String.ofList_toList] at hread
    refine mem_lastSegments_behind hx.apart_before (fun _ => rfl) ?_
    rwa [lastSegments_pass fun d hd => isNameStart_of_isDigit (hx.digits d hd), hw,
      List.cons_append, lastSegments, if_pos List.isEmpty_nil, if_pos hc]

/-- From the first `<` on, exactly the names in arguments are read. -/
theorem mem_lastSegments_dropWhile :
    x ∈ lastSegments [] (cs.dropWhile (· ≠ '<')) ↔ NamedInArguments x cs := by
  constructor
  · intro h
    have hsplit := List.takeWhile_append_dropWhile (p := (· ≠ '<')) (l := cs)
    have hhead := List.head?_dropWhile_not (· ≠ '<') cs
    generalize cs.takeWhile (· ≠ '<') = front at hsplit
    generalize cs.dropWhile (· ≠ '<') = rest at h hsplit hhead
    cases rest with
    | nil => cases h
    | cons c rest =>
      obtain rfl : c = '<' := by simpa using hhead
      have hpass : lastSegments [] (['<'] ++ rest) = lastSegments [] rest :=
        lastSegments_pass (List.forall_mem_singleton.2 (by decide))
      obtain ⟨before, digits, after, rfl, hx⟩ := mem_lastSegments_iff.1 (hpass ▸ h)
      have hb : Apart ('<' :: before).getLast? := (hx.cons fun _ => by decide).apart_before
      rw [← List.getLast?_append_of_ne_nil front (List.cons_ne_nil _ _)] at hb
      exact ⟨front ++ '<' :: before, digits, after, by simp [← hsplit], by simp,
        { hx with apart_before := hb }⟩
  · rintro ⟨before, digits, after, rfl, hm, hx⟩
    have hne : before.dropWhile (· ≠ '<') ≠ [] :=
      fun he => by simpa using List.dropWhile_eq_nil_iff.1 he _ hm
    have hb := hx.apart_before
    rw [← List.takeWhile_append_dropWhile (p := (· ≠ '<')) (l := before),
      List.getLast?_append_of_ne_nil _ hne] at hb
    rw [List.dropWhile_append, if_neg (by simpa using hne)]
    exact mem_lastSegments_iff.2 ⟨_, digits, after, rfl, { hx with apart_before := hb }⟩

/-! ## The head of a text -/

/-- Ellipses are dropped up to any other character. -/
theorem dropEllipses_append (h : cs.head? ≠ some '.') :
    dropEllipses (us ++ cs) = dropEllipses us ++ cs := by
  fun_induction dropEllipses us with
  | case1 r ih => exact ih
  | case2 us hus =>
    rw [dropEllipses]
    intro r hr
    rcases List.append_eq_cons_iff.1 hr with ⟨rfl, rfl⟩ | ⟨us, rfl, hr₁⟩
    · exact h rfl
    rcases List.append_eq_cons_iff.1 hr₁.symm with ⟨rfl, rfl⟩ | ⟨us, rfl, hr₂⟩
    · exact h rfl
    rcases List.append_eq_cons_iff.1 hr₂.symm with ⟨rfl, rfl⟩ | ⟨us, rfl, -⟩
    · exact h rfl
    · exact hus us rfl

/-- Array brackets are dropped up to any other character. -/
theorem dropBrackets_append (ho : cs.head? ≠ some '[') (hc : cs.head? ≠ some ']') :
    dropBrackets (us ++ cs) = dropBrackets us ++ cs := by
  fun_induction dropBrackets us with
  | case1 r ih => exact ih
  | case2 us hus =>
    rw [dropBrackets]
    intro r hr
    rcases List.append_eq_cons_iff.1 hr with ⟨rfl, rfl⟩ | ⟨us, rfl, hr₁⟩
    · exact hc rfl
    rcases List.append_eq_cons_iff.1 hr₁.symm with ⟨rfl, rfl⟩ | ⟨us, rfl, -⟩
    · exact ho rfl
    · exact hus us rfl

/-- What is dropped of the end are ellipses. -/
theorem exists_dropEllipses (cs : List Char) :
    ∃ n, cs = (charsOf (List.replicate n .ellipsis)).reverse ++ dropEllipses cs := by
  fun_induction dropEllipses cs with
  | case1 r ih =>
    obtain ⟨n, hn⟩ := ih
    refine ⟨n + 1, ?_⟩
    rw [List.replicate_succ', charsOf_append, List.reverse_append, List.append_assoc, ← hn]
    rfl
  | case2 => exact ⟨0, rfl⟩

/-- What is dropped of the end are array brackets. -/
theorem exists_dropBrackets (cs : List Char) :
    ∃ n, cs = (charsOf (dimTokens n)).reverse ++ dropBrackets cs := by
  fun_induction dropBrackets cs with
  | case1 r ih =>
    obtain ⟨n, hn⟩ := ih
    refine ⟨n + 1, ?_⟩
    rw [dimTokens_succ, charsOf_append, List.reverse_append, List.append_assoc, ← hn]
    rfl
  | case2 => exact ⟨0, rfl⟩

/-- All ellipses at the end are dropped. -/
theorem dropEllipses_replicate (n : Nat) (h : cs.head? ≠ some '.') :
    dropEllipses ((charsOf (List.replicate n .ellipsis)).reverse ++ cs) = cs := by
  induction n with
  | zero => exact dropEllipses_of_head h
  | succ n ih =>
    rw [List.replicate_succ', charsOf_append, List.reverse_append, List.append_assoc]
    exact ih

/-- Trimming stops at a character that is no blank. -/
theorem dropWhile_isBlank_append (h : cs.head?.any isBlank = false) :
    (us ++ cs).dropWhile isBlank = us.dropWhile isBlank ++ cs := by
  rw [List.dropWhile_append]
  split
  · next he =>
    rw [List.isEmpty_iff.1 he]
    cases cs with
    | nil => rfl
    | cons c cs => rw [List.dropWhile_cons_of_neg (by simpa using h), List.nil_append]
  · rfl

/-- Trimming keeps what stands around a part without blanks, up to the blanks at the ends. -/
theorem trimBlanks_around (hne : part ≠ []) (hp : ∀ c ∈ part, isBlank c = false) :
    trimBlanks (before ++ (part ++ after)) =
      before.dropWhile isBlank ++ (part ++ (after.reverse.dropWhile isBlank).reverse) := by
  have hstop : ∀ (ds us : List Char), ds ≠ [] → (∀ c ∈ ds, isBlank c = false) →
      (ds ++ us).head?.any isBlank = false := by
    intro ds us hds hb
    obtain ⟨d, ds, rfl⟩ := List.exists_cons_of_ne_nil hds
    exact hb d List.mem_cons_self
  rw [trimBlanks, dropWhile_isBlank_append (hstop part after hne hp), List.reverse_append,
    List.reverse_append, List.append_assoc,
    dropWhile_isBlank_append (hstop part.reverse _ (by simpa using hne) (by simpa using hp))]
  simp

/-- The head of a type around a word that stands in front of the arguments. -/
theorem toList_typeHead_around {raw : String} (hne : part ≠ [])
    (hp : ∀ c ∈ part, isWordPart c = true ∧ isBlank c = false)
    (hf : raw.toList.takeWhile (· ≠ '<') = before ++ (part ++ after)) :
    (typeHead raw).toList = before.dropWhile isBlank ++
      (part ++ ((dropBrackets (dropEllipses after.reverse)).dropWhile isBlank).reverse) := by
  have hlast : ∀ c, isWordPart c = false → (part.reverse ++ before.reverse).head? ≠ some c := by
    intro c hc he
    rw [List.head?_append_of_ne_nil _ (by simpa using hne), List.head?_reverse] at he
    rw [(hp c (List.mem_of_getLast? he)).1] at hc
    cases hc
  rw [typeHead, String.toList_ofList, hf, List.reverse_append, List.reverse_append,
    List.append_assoc, dropEllipses_append (hlast '.' (by decide)),
    dropBrackets_append (hlast '[' (by decide)) (hlast ']' (by decide)), List.reverse_append,
    List.reverse_append, List.reverse_reverse, List.reverse_reverse, List.append_assoc,
    trimBlanks_around hne fun c hc => (hp c hc).2, List.reverse_reverse]

/-- The text is its head, behind blanks and in front of what ends a head. -/
theorem exists_typeHead (raw : String) :
    ∃ before after, raw.toList = before ++ ((typeHead raw).toList ++ after) ∧
      (∀ c ∈ before, isBlank c = true) ∧ EndsHead after ∧ '<' ∉ (typeHead raw).toList := by
  have hsplit := List.takeWhile_append_dropWhile (p := (· ≠ '<')) (l := raw.toList)
  have hrest : ∀ c ∈ (raw.toList.dropWhile (· ≠ '<')).head?, c = '<' := by
    intro c hc
    have hn := List.head?_dropWhile_not (· ≠ '<') raw.toList
    rw [Option.mem_def.1 hc] at hn
    simpa using hn
  have hfront : '<' ∉ raw.toList.takeWhile (· ≠ '<') :=
    fun hm => by simpa using List.all_eq_true.1 List.all_takeWhile _ hm
  rw [typeHead, String.toList_ofList]
  generalize raw.toList.takeWhile (· ≠ '<') = front at hsplit hfront
  obtain ⟨n, hn⟩ := exists_dropEllipses front.reverse
  obtain ⟨m, hm⟩ := exists_dropBrackets (dropEllipses front.reverse)
  obtain ⟨before, blanks, hb, hbefore, hblanks⟩ :=
    exists_trimBlanks (dropBrackets (dropEllipses front.reverse)).reverse
  have he : front = before ++ (trimBlanks (dropBrackets (dropEllipses front.reverse)).reverse ++
      (blanks ++ (charsOf (dimTokens m) ++ charsOf (List.replicate n .ellipsis)))) := by
    generalize trimBlanks (dropBrackets (dropEllipses front.reverse)).reverse = head at hb
    rw [hm, ← List.reverse_reverse (dropBrackets _), hb] at hn
    have hr := congrArg List.reverse hn
    simpa only [List.reverse_append, List.reverse_reverse, List.append_assoc] using hr
  refine ⟨before, blanks ++ (charsOf (dimTokens m) ++ (charsOf (List.replicate n .ellipsis) ++
    raw.toList.dropWhile (· ≠ '<'))), ?_, hbefore, ⟨blanks, m, n, _, rfl, hblanks, hrest⟩,
    fun hmem => hfront ?_⟩
  · simpa only [List.append_assoc] using
      (hsplit.symm.trans (congrArg (· ++ raw.toList.dropWhile (· ≠ '<')) he))
  · rw [he]
    exact List.mem_append_right _ (List.mem_append_left _ hmem)

/-- What is left behind a head is a part of what stands there. -/
theorem dropped_suffix (cs : List Char) :
    (dropBrackets (dropEllipses cs)).dropWhile isBlank <:+ cs := by
  obtain ⟨n, hn⟩ := exists_dropEllipses cs
  obtain ⟨m, hm⟩ := exists_dropBrackets (dropEllipses cs)
  exact (List.dropWhile_suffix _).trans (.trans ⟨_, hm.symm⟩ ⟨_, hn.symm⟩)

/-- Nothing is left of what ends a head. -/
theorem EndsHead.dropped (h : EndsHead after) :
    (dropBrackets (dropEllipses (after.takeWhile (· ≠ '<')).reverse)).dropWhile isBlank = [] := by
  obtain ⟨blanks, m, n, rest, rfl, hb, hr⟩ := h
  have hblanks : ∀ d, isBlank d = false → blanks.reverse.head? ≠ some d := by
    intro d hd he
    rw [List.head?_reverse] at he
    rw [hb d (List.mem_of_getLast? he)] at hd
    cases hd
  have hellipsis : ∀ c ∈ charsOf (List.replicate n .ellipsis), (c ≠ '<' : Bool) = true := by
    intro c hc
    obtain ⟨t, ht, hct⟩ := List.mem_flatMap.1 hc
    rw [List.eq_of_mem_replicate ht] at hct
    obtain rfl : c = '.' := by simpa [Token.text] using hct
    decide
  have hrest : rest.takeWhile (· ≠ '<') = [] := by
    cases rest with
    | nil => rfl
    | cons c rest => exact List.takeWhile_cons_of_neg (by simp [hr c rfl])
  rw [List.takeWhile_append_of_pos, List.takeWhile_append_of_pos fun _ => ne_of_mem_dims,
    List.takeWhile_append_of_pos hellipsis, hrest, List.append_nil, List.reverse_append,
    List.reverse_append, List.append_assoc, dropEllipses_replicate,
    dropBrackets_dims _ (hblanks ']' (by decide)), ← List.append_nil blanks.reverse,
    List.dropWhile_append_of_pos fun c hc => hb c (List.mem_reverse.1 hc)]
  · rfl
  · cases m with
    | zero => exact hblanks '.' (by decide)
    | succ m =>
      rw [dimTokens_succ, charsOf_append, List.reverse_append]
      exact fun hd => absurd (Option.some.inj hd) (by decide)
  · intro c hc
    refine decide_eq_true fun he => ?_
    have hblank := hb c hc
    rw [he] at hblank
    exact absurd hblank (by decide)

/-- The names that the head of a type mentions stand between its ends and its dots. -/
theorem mem_headNames_iff (i : Identifier) {head : String} :
    i.text ∈ (simpleName head :: (piecesOf '.' head).filter isCapitalized).filter
        (fun n => !n.isEmpty && !isKeyword n) ↔
      ∃ before after, head.toList = before ++ (i.text.toList ++ after) ∧
        (before = [] ∨ before.getLast? = some '.') ∧
          (after = [] ∨ isCapitalized i.text = true ∧ after.head? = some '.') := by
  have hne : i.text.isEmpty = false :=
    Bool.eq_false_iff.2 fun he => i.toList_ne_nil (by rw [String.isEmpty_iff.1 he]; rfl)
  have hdot : '.' ∉ i.text.toList := fun hm => absurd (i.isWordPart hm).1 (by decide)
  have hlast : i.text = simpleName head ↔ i.text.toList = afterLast '.' head.toList := by
    rw [simpleName, ← String.toList_inj, String.toList_ofList]
  have hpiece : i.text ∈ piecesOf '.' head ↔ i.text.toList ∈ head.toList.splitOn '.' := by
    constructor
    · intro h
      obtain ⟨p, hp, he⟩ := List.mem_map.1 h
      rwa [← he, String.toList_ofList]
    · exact fun h => List.mem_map.2 ⟨_, h, String.ofList_toList⟩
  rw [List.mem_filter, List.mem_cons, List.mem_filter, hlast, hpiece, eq_afterLast_iff,
    mem_splitOn_iff, hne, i.not_isKeyword, Bool.not_false, Bool.and_self, and_iff_left rfl]
  constructor
  · rintro (⟨-, before, he, hb⟩ | ⟨⟨-, before, after, he, hb, ha⟩, hc⟩)
    · exact ⟨before, [], by rw [he, List.append_nil], hb, .inl rfl⟩
    · exact ⟨before, after, he, hb, ha.imp_right fun ha => ⟨hc, ha⟩⟩
  · rintro ⟨before, after, he, hb, rfl | ⟨hc, ha⟩⟩
    · exact .inl ⟨hdot, before, by rw [he, List.append_nil], hb⟩
    · exact .inr ⟨⟨hdot, before, after, he, hb, .inr ha⟩, hc⟩

/-- A word that is named in front of the arguments is a name of the head. -/
theorem exists_of_namedInFront {raw : String} (hne : x.toList ≠ [])
    (hp : ∀ c ∈ x.toList, isWordPart c = true ∧ isBlank c = false)
    (h : NamedInFront x raw.toList) :
    ∃ before after, (typeHead raw).toList = before ++ (x.toList ++ after) ∧
      (before = [] ∨ before.getLast? = some '.') ∧
        (after = [] ∨ isCapitalized x = true ∧ after.head? = some '.') := by
  obtain ⟨before, after, hr, hlt, hb, ha⟩ := h
  have hf : raw.toList.takeWhile (· ≠ '<') =
      before ++ (x.toList ++ after.takeWhile (· ≠ '<')) := by
    rw [hr, List.takeWhile_append_of_pos, List.takeWhile_append_of_pos]
    · intro c hc
      refine decide_eq_true fun he => ?_
      have hword := (hp c hc).1
      rw [he] at hword
      exact absurd hword (by decide)
    · exact fun c hc => decide_eq_true fun he => hlt (he ▸ hc)
  refine ⟨_, _, toList_typeHead_around hne hp hf, ?_, ?_⟩
  · rcases hb with hb | hb
    · refine .inl ?_
      rw [← List.append_nil before, List.dropWhile_append_of_pos hb]
      rfl
    · obtain ⟨start, rfl⟩ := List.getLast?_eq_some_iff.1 hb
      rw [dropWhile_isBlank_append (by decide)]
      exact .inr List.getLast?_concat
  · rcases ha with ha | ⟨hc, ha⟩
    · exact .inl (by rw [ha.dropped, List.reverse_nil])
    · -- what is kept of the text behind the name is a prefix of it
      obtain ⟨r, rfl⟩ := List.head?_eq_some_iff.1 ha
      have hkept := dropped_suffix (('.' :: r).takeWhile (· ≠ '<')).reverse
      rw [← List.reverse_prefix, List.reverse_reverse,
        List.takeWhile_cons_of_pos (by decide)] at hkept
      refine (List.prefix_cons_iff.1 hkept).imp_right ?_
      rintro ⟨t, ht, -⟩
      exact ⟨hc, congrArg List.head? ht⟩

/-- An identifier is mentioned exactly if it is named in the head of the type or in its
arguments. -/
theorem mem_mentionedBy_iff (i : Identifier) {raw : String} : i.text ∈ mentionedBy raw ↔
    NamedInFront i.text raw.toList ∨ NamedInArguments i.text raw.toList := by
  rw [mentionedBy, List.mem_append, mem_headNames_iff, typeArguments, List.mem_filter,
    mem_lastSegments_dropWhile, i.not_isKeyword, Bool.not_false, and_iff_left rfl]
  refine or_congr_left ⟨?_, ?_⟩
  · rintro ⟨before, after, he, hb, ha⟩
    obtain ⟨front, back, hr, hfront, hback, hlt⟩ := exists_typeHead raw
    rw [he] at hr hlt
    refine ⟨front ++ before, after ++ back, by rw [hr]; simp, ?_, ?_, ?_⟩
    · intro hmem
      rcases List.mem_append.1 hmem with hmem | hmem
      · exact absurd (hfront _ hmem) (by decide)
      · exact hlt (List.mem_append_left _ hmem)
    · rcases hb with rfl | hb
      · exact .inl (by simpa using hfront)
      · rw [List.getLast?_append, hb]
        exact .inr rfl
    · rcases ha with rfl | ⟨hc, ha⟩
      · exact .inl hback
      · rw [List.head?_append, ha]
        exact .inr ⟨hc, rfl⟩
  · exact exists_of_namedInFront i.toList_ne_nil fun c hc => i.isWordPart hc

end

end TestImpact.Java
