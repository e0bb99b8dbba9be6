import TestImpact.Proofs.Java.Acceptance
import TestImpact.Proofs.Java.Steps

/-!
# The braces of a source that is read

The walk finds the braces of bodies and of skipped blocks in pairs. Only one kind of brace gets past
it: inside parentheses or brackets a closing brace is a token like any other. So a source that is
read never lacks a closing brace, and its braces are balanced just if the walk meets no closing
brace inside parentheses or brackets (`read_bracesBalanced_iff`). `exists_read_and_not_balanced` is
a source with such a brace.
-/

namespace TestImpact.Java

/-- No front of the list closes more braces than it opened, and all of them are closed at the
end. -/
def BracesBalanced (ts : List Token) : Prop :=
  (∀ front, front <+: ts → front.count (.mark '}') ≤ front.count (.mark '{')) ∧
    ts.count (.mark '{') = ts.count (.mark '}')

/-- Somewhere behind `p` the walk meets a closing brace inside parentheses or brackets. -/
def Place.MeetsBrace (p : Place) (ts : List Token) : Prop :=
  ∃ front behind found q,
    ts = front ++ .mark '}' :: behind ∧ Run p front found q ∧ q.nest ≠ 0

section
variable {o c : Char} {d e : Nat} {p q : Place} {t : Token} {piece ts : List Token}
  {found : List Member} {text fqn : String} {path : Path} {kind : SourceKind} {r : ClassRecord}

/-! ## Counting -/

/-- A step closes no more than is open, and leaves the rest open. -/
theorem step_eq_some_iff (hoc : o ≠ c) :
    (pairCount o c).step d t = some e ↔
      [t].count (.mark c) ≤ d + [t].count (.mark o) ∧
        [t].count (.mark c) + e = d + [t].count (.mark o) := by
  have hm : Token.mark c ≠ .mark o := fun h => hoc (Token.mark.inj h).symm
  by_cases ho : t = .mark o
  · subst ho
    rw [step_opens, List.count_eq_zero.2 (by simpa using hm)]
    simp
    omega
  by_cases hc : t = .mark c
  · subst hc
    rw [List.count_eq_zero (a := Token.mark o).2 (by simpa using hm.symm)]
    cases d with
    | zero => simp [BracketCount.step, pairCount, hoc.symm]
    | succ d =>
      rw [step_closes hm]
      simp
      omega
  · rw [step_passes ho hc, List.count_eq_zero.2 (by simpa using Ne.symm hc),
      List.count_eq_zero (a := Token.mark o).2 (by simpa using Ne.symm ho)]
    simp
    omega

/-- The brackets that are open behind a list are those that were, and those that it opens and does
not close; and never are more closed than are open. -/
theorem depth_eq_some_iff (hoc : o ≠ c) :
    (pairCount o c).depth d ts = some e ↔
      (∀ front, front <+: ts → front.count (.mark c) ≤ d + front.count (.mark o)) ∧
        ts.count (.mark c) + e = d + ts.count (.mark o) := by
  induction ts generalizing d with
  | nil =>
    simp only [BracketCount.depth, Option.some.injEq, List.prefix_nil, forall_eq, List.count_nil]
    omega
  | cons t ts ih =>
    have hcons : ∀ (x : Token) (us : List Token), (t :: us).count x = [t].count x + us.count x :=
      fun x us => by rw [← List.singleton_append, List.count_append]
    rw [hcons _ ts, hcons _ ts]
    constructor
    · intro h
      obtain ⟨f, hs, h⟩ := BracketCount.depth_cons h
      obtain ⟨hle, heq⟩ := (step_eq_some_iff hoc).1 hs
      obtain ⟨hfront, hall⟩ := ih.1 h
      refine ⟨fun front hp => ?_, by omega⟩
      rcases List.prefix_cons_iff.1 hp with rfl | ⟨us, rfl, hus⟩
      · simp
      · have := hfront us hus
        rw [hcons _ us, hcons _ us]
        omega
    · rintro ⟨hf, he⟩
      have hle := hf [t] (by simp)
      have hs : (pairCount o c).step d t =
          some (d + [t].count (.mark o) - [t].count (.mark c)) :=
        (step_eq_some_iff hoc).2 ⟨hle, by omega⟩
      rw [BracketCount.depth_cons_of hs, ih]
      refine ⟨fun front hp => ?_, by omega⟩
      have := hf (t :: front) ((List.prefix_cons_inj t).2 hp)
      rw [hcons _ front, hcons _ front] at this
      omega

/-- Braces are balanced exactly if their count comes out even and never falls below zero. -/
theorem bracesBalanced_iff : BracesBalanced ts ↔ (pairCount '{' '}').depth 0 ts = some 0 := by
  rw [depth_eq_some_iff (by decide), BracesBalanced]
  simp only [Nat.zero_add, Nat.add_zero, eq_comm]

instance : Decidable (BracesBalanced ts) := decidable_of_iff _ bracesBalanced_iff.symm

/-! ## The braces of a walk -/

/-- Between two places of the walk the braces of the bodies around them are open, unless the step is
past a closing brace inside parentheses or brackets. -/
theorem Step.depth (h : Step p piece found q) (hb : p.nest ≠ 0 → piece ≠ [.mark '}']) :
    (pairCount '{' '}').depth p.outer.length piece = some q.outer.length := by
  cases h with
  | token ht => exact BracketCount.depth_of_step (step_of_isBracket .braces ht _)
  | brace hn => exact absurd rfl (hb hn)
  | opens hc | closes hc => rcases hc with rfl | rfl <;> exact BracketCount.depth_of_step rfl
  | endConstants | statement | endBody | body => exact BracketCount.depth_of_step rfl
  | block _ hi =>
    have hin := depth_pairCount_add hi (p.outer.length + 1)
    rw [Nat.zero_add] at hin
    rw [BracketCount.depth_cons_of step_opens, BracketCount.depth_append_of hin]
    exact BracketCount.depth_of_step rfl

/-- No step leaves more braces open than there are bodies around it. -/
theorem Step.count_le (h : Step p piece found q) :
    p.outer.length + piece.count (.mark '{') ≤ piece.count (.mark '}') + q.outer.length := by
  by_cases hb : p.nest ≠ 0 → piece ≠ [.mark '}']
  · exact Nat.le_of_eq ((depth_eq_some_iff (by decide)).1 (h.depth hb)).2.symm
  · obtain ⟨hn, rfl⟩ : p.nest ≠ 0 ∧ piece = [.mark '}'] := by simpa using hb
    cases h with
    | token ht => exact absurd ht (by decide)
    | brace => simp
    | opens hc | closes hc => rcases hc with h | h <;> cases h
    | endBody => exact absurd rfl hn

/-- The braces that a run opens and does not close are those of bodies that are open behind it. -/
theorem Run.count_le (h : Run p ts found q) :
    p.outer.length + ts.count (.mark '{') ≤ ts.count (.mark '}') + q.outer.length := by
  induction h with
  | refl => simp
  | step hs _ ih =>
    have := hs.count_le
    rw [List.count_append, List.count_append]
    omega

/-- A walk that meets no closing brace inside parentheses or brackets finds all braces in pairs. -/
theorem Run.depth (h : Run p ts found q) (hb : ¬p.MeetsBrace ts) :
    (pairCount '{' '}').depth p.outer.length ts = some q.outer.length := by
  induction h with
  | refl => rfl
  | @step p q r piece ts found more hs _ ih =>
    have hpiece : p.nest ≠ 0 → piece ≠ [.mark '}'] := by
      rintro hn rfl
      exact hb ⟨[], ts, [], p, rfl, .refl, hn⟩
    have hrest : ¬q.MeetsBrace ts := by
      rintro ⟨front, behind, found', q', rfl, hr, hn⟩
      exact hb ⟨piece ++ front, behind, _, q', (List.append_assoc ..).symm, .step hs hr, hn⟩
    rw [BracketCount.depth_append_of (hs.depth hpiece), ih hrest]

/-- Behind a closing brace inside parentheses or brackets more braces have been closed than
opened. -/
theorem lt_of_meetsBrace {ms : List Member} (h : p.walk ts = .ok ms) (hb : p.MeetsBrace ts) :
    p.outer.length + ts.count (.mark '{') < ts.count (.mark '}') := by
  obtain ⟨front, behind, found, q, rfl, hf, hn⟩ := hb
  have hstep : Step q [.mark '}'] [] { q with segment := .mark '}' :: q.segment } := .brace hn
  have hw : q.walk (.mark '}' :: behind) =
      (Place.walk { q with segment := .mark '}' :: q.segment } behind).map ([] ++ ·) :=
    hstep.walk behind
  rw [hf.walk, hw] at h
  obtain ⟨_, h, -⟩ := eq_ok_of_map h
  obtain ⟨more, h, -⟩ := eq_ok_of_map h
  obtain ⟨last, hr, hout, -⟩ := exists_run_of_walk h
  have hfront := hf.count_le
  have hbehind : q.outer.length + behind.count (.mark '{') ≤
      behind.count (.mark '}') + last.outer.length := hr.count_le
  rw [hout, List.length_nil] at hbehind
  rw [List.count_append, List.count_append, List.count_cons_self,
    List.count_cons_of_ne (by decide)]
  omega

/-! ## The braces of a source -/

/-- A source that is read has tokens, a header and members. -/
theorem members_of_read (hr : ClassRecord.read text path fqn kind = .ok r) :
    ∃ ts imports body ms, tokens text.toList = .ok ts ∧ Opens ts imports body ∧
      members body = .ok ms := by
  obtain ⟨ts, imports, body, ht, ho, -⟩ := header_of_read hr
  obtain ⟨h, hp⟩ := exists_readParts ht ho
  rw [ClassRecord.read, hp] at hr
  cases hm : members body with
  | error e => rw [hm] at hr; cases hr
  | ok ms => exact ⟨ts, imports, body, ms, ht, ho, hm⟩

/-- A source that is read opens no more braces behind its imports than it closes there, and its
braces are balanced unless one is closed inside parentheses or brackets. -/
theorem read_bracesBalanced_iff (hr : ClassRecord.read text path fqn kind = .ok r) :
    ∃ ts imports body, tokens text.toList = .ok ts ∧ Opens ts imports body ∧
      body.count (.mark '{') ≤ body.count (.mark '}') ∧
      (BracesBalanced body ↔ ¬Place.start.MeetsBrace body) := by
  obtain ⟨ts, imports, body, ms, ht, ho, hm⟩ := members_of_read hr
  obtain ⟨last, hrun, hout, -⟩ := exists_run_of_walk (p := .start) hm
  have hle : Place.start.outer.length + body.count (.mark '{') ≤
      body.count (.mark '}') + last.outer.length := hrun.count_le
  rw [hout] at hle
  refine ⟨ts, imports, body, ht, ho, by simpa [Place.start] using hle, ?_⟩
  refine ⟨fun hbal hmeets => ?_, fun hmeets => ?_⟩
  · have hlt := lt_of_meetsBrace (p := .start) hm hmeets
    rw [hbal.2] at hlt
    omega
  · rw [bracesBalanced_iff]
    exact (hrun.depth hmeets).trans (congrArg _ (congrArg _ hout))

end

/-- A source in which a closing brace stands between parentheses. -/
def strayBrace : String := "class C \x7b int f( \x7d ); \x7d"

/-- The source of the example is read. -/
theorem exists_read_strayBrace :
    ∃ r, ClassRecord.read strayBrace ⟨"C.java"⟩ "C" .production = .ok r := by
  have hv : (ClassRecord.read strayBrace ⟨"C.java"⟩ "C" .production).toOption.isSome = true := by
    decide +kernel
  obtain ⟨r, hr⟩ := Option.isSome_iff_exists.1 hv
  exact ⟨r, eq_ok_of_toOption hr⟩

/-- The braces of `strayBrace` are not balanced, since the walk meets one between parentheses. -/
theorem read_bracesBalanced_iff_strayBrace :
    ∃ r, ClassRecord.read strayBrace ⟨"C.java"⟩ "C" .production = .ok r ∧
      ∃ ts imports body, tokens strayBrace.toList = .ok ts ∧ Opens ts imports body ∧
        body.count (.mark '{') ≤ body.count (.mark '}') ∧
        (BracesBalanced body ↔ ¬Place.start.MeetsBrace body) := by
  obtain ⟨r, hr⟩ := exists_read_strayBrace
  exact ⟨r, hr, read_bracesBalanced_iff hr⟩

/-- Not every source that is read has balanced braces. -/
theorem exists_read_and_not_balanced :
    ∃ r ts imports body, ClassRecord.read strayBrace ⟨"C.java"⟩ "C" .production = .ok r ∧
      tokens strayBrace.toList = .ok ts ∧ Opens ts imports body ∧ ¬BracesBalanced body := by
  have hv : (tokens strayBrace.toList >>= header).toOption.any
      (fun x => decide (¬BracesBalanced x.2)) = true := by
    decide +kernel
  obtain ⟨r, hr⟩ := exists_read_strayBrace
  obtain ⟨ts, imports, body, ht, ho, hb⟩ :=
    exists_opens_of_header (q := fun body => decide (¬BracesBalanced body)) hv
  exact ⟨r, ts, imports, body, hr, ht, ho, of_decide_eq_true hb⟩

end TestImpact.Java
