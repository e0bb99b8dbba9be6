import TestImpact.Glob.Pattern
import TestImpact.Proofs.Glob.Language
import TestImpact.Proofs.Path
import TestImpact.Proofs.Text.Utf8

/-!
# Patterns that ask for names at any depth

The pattern `**/c₁/**/…/cₙ`, with `/**` behind it or not, asks for a name of each chunk, one behind
the other, whatever names stand between them. Main statements: such a pattern selects a path by the
names between its slashes (`accepts_expr_iff`), and if the chunks stand for proper names alone,
empty names and `.` among them do not count (`selects_iff`). The pattern `**/name/**` is of this
kind (`isSpread_of_ofText?`).
-/

namespace TestImpact.Glob

open ByteExpr

section
variable {parts chunk : List Part} {chunks : List (List Part)} {below : Bool}
  {u w x y z n : List UInt8} {names : List (List UInt8)} {cs : List Char} {c : Char}

/-! ## Names behind slashes -/

/-- The names, each with a slash in front of it. -/
def slashed (names : List (List UInt8)) : List UInt8 := names.flatMap (slash :: ·)

/-- The text goes on at a slash, if it goes on. -/
def AtSlash (w : List UInt8) : Prop := ∀ b ∈ w.head?, b = slash

/-- The first name comes first, behind its slash. -/
theorem slashed_cons : slashed (n :: names) = slash :: (n ++ slashed names) := rfl

/-- A slash goes on at a slash. -/
theorem atSlash_cons (w : List UInt8) : AtSlash (slash :: w) := by
  rintro b ⟨⟩
  rfl

/-- Two texts that go on at slashes do so one after another. -/
theorem AtSlash.append (hz : AtSlash z) (hw : AtSlash w) : AtSlash (z ++ w) := by
  cases z with
  | nil => exact hw
  | cons b z => exact hz

/-- Names behind slashes go on at a slash. -/
theorem atSlash_slashed (names : List (List UInt8)) : AtSlash (slashed names) := by
  cases names with
  | nil => exact nofun
  | cons n names => exact atSlash_cons _

/-- A name ends where a slash follows. -/
theorem append_inj_of_atSlash (hx : slash ∉ x) (hn : slash ∉ n) (hy : AtSlash y) (hz : AtSlash z)
    (h : x ++ y = n ++ z) : x = n ∧ y = z := by
  induction x generalizing n with
  | nil =>
    cases n with
    | nil => exact ⟨rfl, h⟩
    | cons b n =>
      have hb : b = slash := hy b (by rw [show y = b :: n ++ z from h]; rfl)
      exact absurd (hb ▸ List.mem_cons_self) hn
  | cons b x ih =>
    cases n with
    | nil =>
      have hb : b = slash := hz b (by rw [show z = b :: x ++ y from h.symm]; rfl)
      exact absurd (hb ▸ List.mem_cons_self) hx
    | cons d n =>
      obtain ⟨rfl, he⟩ := List.cons.inj h
      obtain ⟨rfl, rfl⟩ := ih (fun hm => hx (List.mem_cons_of_mem _ hm))
        (fun hm => hn (List.mem_cons_of_mem _ hm)) he
      exact ⟨rfl, rfl⟩

/-- A text starts with a name, and goes on at a slash. -/
theorem exists_name_append (w : List UInt8) : ∃ m r, w = m ++ r ∧ slash ∉ m ∧ AtSlash r := by
  refine ⟨w.takeWhile (· ≠ slash), w.dropWhile (· ≠ slash),
    List.takeWhile_append_dropWhile.symm, fun hm => ?_, fun b hb => ?_⟩
  · simpa using List.all_eq_true.1 List.all_takeWhile _ hm
  · have hd := List.head?_dropWhile_not (· ≠ slash) w
    rw [hb] at hd
    simpa using hd

/-- A name between slashes is one of the names. -/
theorem slashed_eq_append_iff (hn : ∀ n ∈ names, slash ∉ n) (hx : slash ∉ x) (hz : AtSlash z)
    (hy : AtSlash y) :
    slashed names = z ++ slash :: (x ++ y) ↔
      ∃ front rest, names = front ++ x :: rest ∧ z = slashed front ∧ y = slashed rest := by
  refine ⟨fun h => ?_, ?_⟩
  · induction names generalizing z with
    | nil => exact absurd (congrArg List.length h) (by simp [slashed])
    | cons n names ih =>
      obtain ⟨hnn, hnames⟩ := List.forall_mem_cons.1 hn
      rw [slashed_cons] at h
      cases z with
      | nil =>
        obtain ⟨rfl, rfl⟩ := append_inj_of_atSlash hnn hx (atSlash_slashed names) hy
          (List.cons.inj h).2
        exact ⟨[], names, rfl, rfl, rfl⟩
      | cons b z =>
        obtain ⟨rfl, he⟩ := List.cons.inj h
        -- The first name is what stands in `z` in front of a slash.
        obtain ⟨m, r, hm, hs, hr⟩ := exists_name_append z
        have hrest : AtSlash (r ++ slash :: (x ++ y)) := hr.append (atSlash_cons _)
        have hsplit : n ++ slashed names = m ++ (r ++ slash :: (x ++ y)) := by
          rw [he, hm, ← List.append_assoc]
          rfl
        obtain ⟨rfl, hnext⟩ := append_inj_of_atSlash hnn hs (atSlash_slashed names) hrest hsplit
        obtain ⟨front, rest, rfl, rfl, hy'⟩ := ih hnames hr hnext
        exact ⟨n :: front, rest, rfl, by rw [hm]; rfl, hy'⟩
  · rintro ⟨front, rest, rfl, rfl, rfl⟩
    simp [slashed]

/-! ## Chunks one behind the other -/

/-- The parts of `/**/c₁/**/…/cₙ`, with those of `/**` behind them if `below`. -/
def spreadParts (below : Bool) : List (List Part) → List Part
  | [] => if below then [.symbol .trailing] else []
  | chunk :: chunks => .symbol .between :: (chunk ++ spreadParts below chunks)

/-- The byte of a dot. -/
def dot : UInt8 := 0x2E

/-- The name is not empty and not `.`. -/
def isProper (name : List UInt8) : Bool := name ≠ [] && name ≠ [dot]

/-- The parts stand for a proper name between two slashes. -/
def AsksForName (chunk : List Part) : Prop :=
  ∀ name, Accepts (partsExpr chunk) name → slash ∉ name ∧ isProper name = true

/-- A name of each chunk stands among the names, one behind the other, and something stands behind
the last one exactly if `below`. -/
def Finds (below : Bool) : List (List Part) → List (List UInt8) → Prop
  | [], names => names ≠ [] ↔ below = true
  | chunk :: chunks, names => ∃ front name rest, names = front ++ name :: rest ∧
      Accepts (partsExpr chunk) name ∧ Finds below chunks rest

/-- Two stars between slashes accept any part that goes on at a slash, and a slash. -/
theorem accepts_between_iff :
    Accepts Symbol.between.expr u ↔ ∃ z, AtSlash z ∧ u = z ++ [slash] := by
  simp only [Symbol.expr, accepts_either_iff, accepts_seq_iff, accepts_exactly_iff]
  refine ⟨?_, ?_⟩
  · rintro (rfl | ⟨_, _, rfl, rfl, z, _, rfl, -, rfl⟩)
    · exact ⟨[], nofun, rfl⟩
    · exact ⟨slash :: z, atSlash_cons z, rfl⟩
  · rintro ⟨z, hz, rfl⟩
    cases z with
    | nil => exact .inl rfl
    | cons b z =>
      obtain rfl := hz b rfl
      exact .inr ⟨[slash], z ++ [slash], rfl, rfl, z, [slash], rfl, accepts_anything z, rfl⟩

/-- Two stars at the end accept a slash and whatever follows. -/
theorem accepts_trailing_iff : Accepts Symbol.trailing.expr u ↔ ∃ z, u = slash :: z := by
  simp only [Symbol.expr, accepts_seq_iff, accepts_exactly_iff]
  refine ⟨?_, ?_⟩
  · rintro ⟨_, z, rfl, rfl, -⟩
    exact ⟨z, rfl⟩
  · rintro ⟨z, rfl⟩
    exact ⟨[slash], z, rfl, rfl, accepts_anything z⟩

/-- Chunks go on at a slash. -/
theorem atSlash_of_accepts (h : Accepts (partsExpr (spreadParts below chunks)) y) : AtSlash y := by
  cases chunks with
  | nil =>
    cases below with
    | false => exact accepts_empty_iff.1 h ▸ nofun
    | true =>
      obtain ⟨u, v, rfl, hu, -⟩ := accepts_partsExpr_symbol.1 h
      obtain ⟨z, rfl⟩ := accepts_trailing_iff.1 hu
      exact atSlash_cons _
  | cons chunk chunks =>
    obtain ⟨u, v, rfl, hu, -⟩ := accepts_partsExpr_symbol.1 h
    obtain ⟨z, hz, rfl⟩ := accepts_between_iff.1 hu
    rw [List.append_assoc]
    exact hz.append (atSlash_cons v)

/-- Chunks accept the names among which they are found. -/
theorem accepts_spreadParts_iff (hc : ∀ c ∈ chunks, AsksForName c) (hn : ∀ n ∈ names, slash ∉ n) :
    Accepts (partsExpr (spreadParts below chunks)) (slashed names) ↔ Finds below chunks names := by
  induction chunks generalizing names with
  | nil =>
    cases below with
    | false =>
      refine accepts_empty_iff.trans ?_
      cases names <;> simp [Finds, slashed]
    | true =>
      refine accepts_partsExpr_symbol.trans ?_
      simp only [accepts_trailing_iff, Finds]
      cases names with
      | nil => simp [slashed]
      | cons n names =>
        refine iff_of_true ⟨slashed (n :: names), [], by simp, ⟨_, slashed_cons⟩, .empty⟩ ?_
        exact iff_of_true (List.cons_ne_nil _ _) trivial
  | cons chunk chunks ih =>
    obtain ⟨hchunk, hchunks⟩ := List.forall_mem_cons.1 hc
    refine accepts_partsExpr_symbol.trans ⟨?_, ?_⟩
    · rintro ⟨u, v, he, hu, hv⟩
      obtain ⟨z, hz, rfl⟩ := accepts_between_iff.1 hu
      obtain ⟨x, y, rfl, hx, hy⟩ := accepts_partsExpr_append.1 hv
      rw [List.append_assoc] at he
      obtain ⟨front, rest, rfl, rfl, rfl⟩ :=
        (slashed_eq_append_iff hn (hchunk x hx).1 hz (atSlash_of_accepts hy)).1 he
      obtain ⟨-, hn⟩ := List.forall_mem_append.1 hn
      exact ⟨front, x, rest, rfl, hx, (ih hchunks (List.forall_mem_cons.1 hn).2).1 hy⟩
    · rintro ⟨front, x, rest, rfl, hx, hr⟩
      obtain ⟨-, hn⟩ := List.forall_mem_append.1 hn
      have hy := (ih hchunks (List.forall_mem_cons.1 hn).2).2 hr
      refine ⟨slashed front ++ [slash], x ++ slashed rest, by simp [slashed], ?_, ?_⟩
      · exact accepts_between_iff.2 ⟨_, atSlash_slashed front, rfl⟩
      · exact accepts_partsExpr_append.2 ⟨x, _, rfl, hx, hy⟩

/-- Names that are not proper do not count, if the last name is proper. -/
theorem finds_filter (hc : ∀ c ∈ chunks, AsksForName c)
    (hlast : ∀ n ∈ names.getLast?, isProper n = true) :
    Finds below chunks (names.filter isProper) ↔ Finds below chunks names := by
  induction chunks generalizing names with
  | nil =>
    refine iff_congr (not_congr ⟨fun h => ?_, ?_⟩) Iff.rfl
    · cases hl : names.getLast? with
      | none => exact List.getLast?_eq_none_iff.1 hl
      | some n =>
        exact absurd (hlast n hl) (List.filter_eq_nil_iff.1 h n (List.mem_of_getLast? hl))
    · rintro rfl
      rfl
  | cons chunk chunks ih =>
    obtain ⟨hchunk, hchunks⟩ := List.forall_mem_cons.1 hc
    have hbehind : ∀ front name rest, names = front ++ name :: rest →
        ∀ n ∈ rest.getLast?, isProper n = true := by
      rintro front name rest rfl n hm
      refine hlast n ?_
      rw [List.getLast?_append, List.getLast?_cons, hm]
      rfl
    refine ⟨?_, ?_⟩
    · rintro ⟨front, name, rest, he, hname, hrest⟩
      obtain ⟨l, r, rfl, -, hr⟩ := List.filter_eq_append_iff.1 he
      obtain ⟨s, t, rfl, -, -, rfl⟩ := List.filter_eq_cons_iff.1 hr
      refine ⟨l ++ s, name, t, (List.append_assoc ..).symm, hname, (ih hchunks ?_).1 hrest⟩
      exact hbehind (l ++ s) name t (List.append_assoc ..).symm
    · rintro ⟨front, name, rest, rfl, hname, hrest⟩
      refine ⟨front.filter isProper, name, rest.filter isProper, ?_, hname, ?_⟩
      · rw [List.filter_append, List.filter_cons_of_pos (hchunk name hname).2]
      · exact (ih hchunks (hbehind front name rest rfl)).2 hrest

/-! ## The names of a text -/

/-- The bytes of the names between the slashes of a text. -/
def namesOf (cs : List Char) : List (List UInt8) :=
  (cs.splitOn '/').map (·.flatMap Utf8.encodeChar)

/-- Only the slash is written with the byte of a slash. -/
theorem slash_mem_encodeChar_iff : slash ∈ Utf8.encodeChar c ↔ c = '/' :=
  Utf8.ofNat_mem_encodeChar_iff (x := '/') (by decide)

/-- A text without slashes is written without their byte. -/
theorem slash_not_mem_flatMap (h : '/' ∉ cs) : slash ∉ cs.flatMap Utf8.encodeChar := by
  intro hm
  obtain ⟨c, hc, hs⟩ := List.mem_flatMap.1 hm
  exact h (slash_mem_encodeChar_iff.1 hs ▸ hc)

/-- The names of a text have no slashes in them. -/
theorem slash_not_mem_namesOf (cs : List Char) : ∀ n ∈ namesOf cs, slash ∉ n := by
  intro n hn
  obtain ⟨p, hp, rfl⟩ := List.mem_map.1 hn
  exact slash_not_mem_flatMap (not_mem_of_mem_splitOn '/' cs p hp)

/-- The bytes of a text, with a slash in front, are its names behind slashes. -/
theorem slashed_namesOf (cs : List Char) :
    slashed (namesOf cs) = slash :: cs.flatMap Utf8.encodeChar := by
  induction cs with
  | nil => rfl
  | cons c cs ih =>
    by_cases hc : c = '/'
    · subst hc
      rw [namesOf, splitOn_cons_self, List.map_cons, slashed_cons, ← namesOf, ih]
      rfl
    · obtain ⟨p, ps, hp, hcp⟩ := exists_splitOn_cons hc cs
      rw [namesOf, hp, List.map_cons, slashed_cons] at ih
      rw [namesOf, hcp, List.map_cons, slashed_cons, List.flatMap_cons, List.flatMap_cons,
        List.append_assoc, (List.cons.inj ih).2]

/-- Only the empty text has no bytes. -/
theorem flatMap_encodeChar_eq_nil_iff : cs.flatMap Utf8.encodeChar = [] ↔ cs = [] := by
  refine ⟨fun h => ?_, ?_⟩
  · cases cs with
    | nil => rfl
    | cons c cs =>
      have he := List.flatMap_eq_nil_iff.1 h c List.mem_cons_self
      exact absurd he (Utf8.encodeChar_ne_nil c)
  · rintro rfl
    rfl

/-- Only a dot is written as a dot. -/
theorem flatMap_encodeChar_eq_dot_iff : cs.flatMap Utf8.encodeChar = [dot] ↔ cs = ['.'] := by
  refine ⟨fun h => ?_, ?_⟩
  · cases cs with
    | nil => exact absurd h (by decide)
    | cons c cs =>
      rw [List.flatMap_cons, List.append_eq_singleton_iff] at h
      obtain ⟨he, -⟩ | ⟨he, hn⟩ := h
      · exact absurd he (Utf8.encodeChar_ne_nil c)
      · rw [(Utf8.encodeChar_eq_singleton_iff (x := '.') (by decide)).1 he,
          flatMap_encodeChar_eq_nil_iff.1 hn]
  · rintro rfl
    rfl

/-- A text is a proper name by its characters as by its bytes. -/
theorem isProper_flatMap :
    isProper (cs.flatMap Utf8.encodeChar) = (cs ≠ [] && cs ≠ ['.'] : Bool) := by
  simp only [isProper, ne_eq, flatMap_encodeChar_eq_nil_iff, flatMap_encodeChar_eq_dot_iff]

/-- A text is a proper name unless it is empty or a dot. -/
theorem isProper_encode (s : String) : isProper (Utf8.encode s) = (s ≠ "" && s ≠ "." : Bool) := by
  have hempty : s.toList = [] ↔ s = "" := @String.toList_inj s ""
  have hdot : s.toList = ['.'] ↔ s = "." := @String.toList_inj s "."
  simp only [Utf8.encode, isProper_flatMap, ne_eq, hempty, hdot]

/-! ## Spread patterns -/

/-- Two stars and a slash at the start of a pattern accept what they accept between slashes if the
text stands behind one. -/
theorem accepts_leading_iff :
    Accepts (partsExpr (.symbol .leading :: parts)) w ↔
      Accepts (partsExpr (.symbol .between :: parts)) (slash :: w) := by
  have hleading : ∀ u, Accepts Symbol.leading.expr u ↔ u = [] ∨ ∃ z, u = z ++ [slash] := by
    intro u
    simp only [Symbol.expr, accepts_either_iff, accepts_seq_iff, accepts_exactly_iff,
      accepts_empty_iff]
    refine ⟨?_, ?_⟩
    · rintro ((rfl | rfl) | ⟨z, _, rfl, -, rfl⟩)
      · exact .inl rfl
      · exact .inr ⟨[], rfl⟩
      · exact .inr ⟨z, rfl⟩
    · rintro (rfl | ⟨z, rfl⟩)
      · exact .inl (.inl rfl)
      · exact .inr ⟨z, [slash], rfl, accepts_anything z, rfl⟩
  simp only [accepts_partsExpr_symbol, hleading, accepts_between_iff]
  refine ⟨?_, ?_⟩
  · rintro ⟨u, v, rfl, rfl | ⟨z, rfl⟩, hv⟩
    · exact ⟨[slash], v, rfl, ⟨[], nofun, rfl⟩, hv⟩
    · exact ⟨slash :: (z ++ [slash]), v, rfl, ⟨slash :: z, atSlash_cons z, rfl⟩, hv⟩
  · rintro ⟨_, v, he, ⟨z, -, rfl⟩, hv⟩
    cases z with
    | nil => exact ⟨[], v, (List.cons.inj he).2, .inl rfl, hv⟩
    | cons b z => exact ⟨z ++ [slash], v, (List.cons.inj he).2, .inr ⟨z, rfl⟩, hv⟩

/-- The pattern asks for proper names at any depth. -/
def Pattern.IsSpread (p : Pattern) : Prop :=
  ∃ chunk chunks below, p.parts = .symbol .leading :: (chunk ++ spreadParts below chunks) ∧
    ∀ c ∈ chunk :: chunks, AsksForName c

/-- A spread pattern accepts a text by the names between its slashes. -/
theorem accepts_expr_iff {p : Pattern}
    (hp : p.parts = .symbol .leading :: (chunk ++ spreadParts below chunks))
    (hc : ∀ c ∈ chunk :: chunks, AsksForName c) {s : String} :
    p.expr.accepts (Utf8.encode s) = true ↔ Finds below (chunk :: chunks) (namesOf s.toList) := by
  have hexpr : p.expr = partsExpr p.parts := by
    rw [Pattern.expr, hp]
    cases chunk with
    | nil => exact absurd (hc [] List.mem_cons_self [] .empty).2 (by decide)
    | cons part chunk => rfl
  rw [accepts_iff, hexpr, hp, accepts_leading_iff]
  show Accepts (partsExpr (spreadParts below (chunk :: chunks)))
    (slash :: s.toList.flatMap Utf8.encodeChar) ↔ _
  rw [← slashed_namesOf]
  exact accepts_spreadParts_iff hc (slash_not_mem_namesOf s.toList)

/-- A spread pattern selects a text whose last name is proper by its proper names alone. -/
theorem selects_iff {p : Pattern}
    (hp : p.parts = .symbol .leading :: (chunk ++ spreadParts below chunks))
    (hc : ∀ c ∈ chunk :: chunks, AsksForName c) {s : String}
    (hlast : ∀ n ∈ (namesOf s.toList).getLast?, isProper n = true)
    (hup : afterLast '/' s.toList ≠ ['.', '.']) :
    p.selects s = true ↔ Finds below (chunk :: chunks) ((namesOf s.toList).filter isProper) := by
  rw [finds_filter hc hlast, ← accepts_expr_iff hp hc, Pattern.selects]
  simp [hup]

/-! ## Names as chunks -/

/-- The part stands for bytes of a name. -/
def Part.StaysInName : Part → Prop
  | .symbol (.char c) => c ≠ '/'
  | .symbol .anyByte => True
  | .symbol .anyBytes => True
  | _ => False

/-- A character accepts its own bytes alone. -/
theorem accepts_char_iff : Accepts (Symbol.char c).expr u ↔ u = Utf8.encodeChar c :=
  accepts_sequence_exactly

/-- A symbol that stays inside a name accepts no slash. -/
theorem slash_not_mem_of_staysInName {s : Symbol} (h : (Part.symbol s).StaysInName)
    (hu : Accepts s.expr u) : slash ∉ u := by
  cases s with
  | char c =>
    rw [accepts_char_iff.1 hu, slash_mem_encodeChar_iff]
    exact h
  | anyByte => exact slash_not_mem_of_accepts (.inl hu)
  | anyBytes => exact slash_not_mem_of_accepts (.inr hu)
  | byteClass negated ranges => exact h.elim
  | leading => exact h.elim
  | trailing => exact h.elim
  | between => exact h.elim

/-- Parts that stay in a name ask for a proper one if a character other than a dot is among them. -/
theorem asksForName_of_char (hall : ∀ p ∈ chunk, p.StaysInName) (hmem : .symbol (.char c) ∈ chunk)
    (hdot : c ≠ '.') : AsksForName chunk := by
  intro name hname
  have hslash : slash ∉ name := by
    clear hmem
    induction chunk generalizing name with
    | nil => rw [accepts_empty_iff.1 hname]; exact List.not_mem_nil
    | cons part chunk ih =>
      obtain ⟨hpart, hchunk⟩ := List.forall_mem_cons.1 hall
      cases part with
      | group branches => exact hpart.elim
      | symbol s =>
        obtain ⟨u, v, rfl, hu, hv⟩ := accepts_partsExpr_symbol.1 hname
        rw [List.mem_append, not_or]
        exact ⟨slash_not_mem_of_staysInName hpart hu, ih hchunk v hv⟩
  have hsub : ∀ b ∈ Utf8.encodeChar c, b ∈ name := by
    obtain ⟨front, rest, rfl⟩ := List.append_of_mem hmem
    obtain ⟨u, v, rfl, -, hv⟩ := accepts_partsExpr_append.1 hname
    obtain ⟨x, y, rfl, hx, -⟩ := accepts_partsExpr_symbol.1 hv
    intro b hb
    rw [← accepts_char_iff.1 hx] at hb
    simp [hb]
  obtain ⟨b, hb⟩ := List.exists_mem_of_ne_nil _ (Utf8.encodeChar_ne_nil c)
  have hbdot : b ≠ dot := by
    rintro rfl
    exact hdot ((Utf8.ofNat_mem_encodeChar_iff (x := '.') (by decide)).1 hb)
  refine ⟨hslash, ?_⟩
  rw [isProper, Bool.and_eq_true, decide_eq_true_eq, decide_eq_true_eq]
  refine ⟨List.ne_nil_of_mem (hsub b hb), fun he => hbdot ?_⟩
  exact List.mem_singleton.1 (he ▸ hsub b hb)

/-- The character stands for itself in a pattern. -/
def isLiteral (c : Char) : Bool := !"?*[\x7b\x7d,\\".toList.contains c

/-- The text is a name that stands for itself in a pattern. -/
structure IsLiteralName (s : String) : Prop where
  literal : ∀ c ∈ s.toList, isLiteral c = true
  no_slash : '/' ∉ s.toList
  proper : ∃ c ∈ s.toList, c ≠ '.'

/-- The parts that stand for a text. -/
def literalParts (cs : List Char) : List Part := cs.map fun c => .symbol (.char c)

/-- A character without a meaning of its own is read as itself. -/
theorem readParts_cons_of_isLiteral {prev : Option Char} (hc : isLiteral c = true) :
    readParts [] prev parts (c :: cs) = readParts [] (some c) (.symbol (.char c) :: parts) cs := by
  rw [readParts.eq_def]
  split
  case h_11 =>
    next he =>
      cases he
      rfl
  -- Each other case is about a character with a meaning of its own.
  all_goals next he => cases he <;> exact absurd hc (by decide)

/-- So are several of them, one after another. -/
theorem exists_readParts_append (h : ∀ c ∈ cs, isLiteral c = true) (prev : Option Char)
    (parts : List Part) (behind : List Char) :
    ∃ last, readParts [] prev parts (cs ++ behind) =
      readParts [] last ((literalParts cs).reverse ++ parts) behind := by
  induction cs generalizing prev parts with
  | nil => exact ⟨prev, rfl⟩
  | cons c cs ih =>
    obtain ⟨hc, hcs⟩ := List.forall_mem_cons.1 h
    obtain ⟨last, hl⟩ := ih hcs (some c) (.symbol (.char c) :: parts)
    refine ⟨last, ?_⟩
    rw [List.cons_append, readParts_cons_of_isLiteral hc, hl]
    simp [literalParts]

/-- A literal name between two stars on either side is read to its characters. -/
theorem ofText?_literalName {s : String} (h : ∀ c ∈ s.toList, isLiteral c = true) :
    Pattern.ofText? ("**/" ++ s ++ "/**") =
      .ok ⟨.symbol .leading :: (literalParts s.toList ++ [.symbol .trailing])⟩ := by
  have htext : ("**/" ++ s ++ "/**").toList =
      '*' :: '*' :: '/' :: (s.toList ++ ['/', '*', '*']) := by
    simp
  obtain ⟨last, hl⟩ := exists_readParts_append h (some '/') [.symbol .leading] ['/', '*', '*']
  have hend : ∀ parts, readParts [] (some '/') (.symbol (.char '/') :: parts) ['*', '*'] =
      .ok (.symbol .trailing :: parts) := by
    intro parts
    rw [readParts]
    show readParts [] (some '*') (.symbol .trailing :: parts) [] = _
    rw [readParts]
    rfl
  have hread : readParts [] none [] ('*' :: '*' :: '/' :: (s.toList ++ ['/', '*', '*'])) =
      .ok (.symbol .trailing :: ((literalParts s.toList).reverse ++ [.symbol .leading])) := by
    rw [readParts]
    show readParts [] (some '/') [.symbol .leading] (s.toList ++ ['/', '*', '*']) = _
    rw [hl, readParts_cons_of_isLiteral (by decide), hend]
  rw [Pattern.ofText?, read?, htext, hread]
  simp [Except.map]

/-- A literal name between two stars on either side asks for itself at any depth. -/
theorem isSpread_of_ofText? {s : String} {p : Pattern} (h : IsLiteralName s)
    (hp : Pattern.ofText? ("**/" ++ s ++ "/**") = .ok p) : p.IsSpread := by
  rw [ofText?_literalName h.literal] at hp
  cases hp
  refine ⟨literalParts s.toList, [], true, rfl, List.forall_mem_singleton.2 ?_⟩
  obtain ⟨c, hc, hdot⟩ := h.proper
  refine asksForName_of_char (fun part hm => ?_) (List.mem_map_of_mem hc) hdot
  obtain ⟨d, hd, rfl⟩ := List.mem_map.1 hm
  exact fun he => h.no_slash (he ▸ hd)

end

end TestImpact.Glob
