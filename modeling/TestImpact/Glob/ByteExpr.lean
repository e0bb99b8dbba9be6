/-!
# Regular expressions over bytes

The matcher behind path patterns. A text of `n` bytes has `n + 1` positions, and a set of positions
is a list of marks, one for each. An expression takes the marks from which reading starts to the
marks at which it may end (`after`), in one pass over the text for each part of the expression. Main
statements: what the marks behind an expression say (`getElem?_after`), and that the matcher accepts
exactly the texts of the expression's language (`accepts_iff`).
-/

namespace TestImpact.Glob

/-- A set of bytes, given by closed ranges of it or of its complement. -/
structure ByteSet where
  negated : Bool
  ranges : List (UInt8 × UInt8)
deriving DecidableEq, Repr

/-- The byte belongs to the set. -/
def ByteSet.contains (s : ByteSet) (b : UInt8) : Bool :=
  (s.ranges.any fun r => r.1 ≤ b && b ≤ r.2) != s.negated

/-- A regular expression over bytes. -/
inductive ByteExpr
  /-- Accepts the empty text alone. -/
  | empty
  /-- Accepts one byte of the set. -/
  | byte (set : ByteSet)
  /-- Accepts any number of bytes of the set. -/
  | run (set : ByteSet)
  | seq (first second : ByteExpr)
  | either (left right : ByteExpr)
deriving DecidableEq, Repr

namespace ByteExpr

/-- The language of an expression. -/
inductive Accepts : ByteExpr → List UInt8 → Prop
  | empty : Accepts .empty []
  | byte {s : ByteSet} {b : UInt8} : s.contains b = true → Accepts (.byte s) [b]
  | run {s : ByteSet} {u : List UInt8} : (∀ b ∈ u, s.contains b = true) → Accepts (.run s) u
  | seq {e f : ByteExpr} {u v : List UInt8} :
    Accepts e u → Accepts f v → Accepts (.seq e f) (u ++ v)
  | left {e f : ByteExpr} {u : List UInt8} : Accepts e u → Accepts (.either e f) u
  | right {e f : ByteExpr} {u : List UInt8} : Accepts f u → Accepts (.either e f) u

/-- The marks behind one byte of the set. -/
def afterByte (s : ByteSet) (bs : List UInt8) (marks : List Bool) : List Bool :=
  false :: List.zipWith (fun b m => m && s.contains b) bs marks

/-- The marks behind any number of bytes of the set; `reached` says that such bytes lead from an
earlier mark to the first position. -/
def afterRun (s : ByteSet) (reached : Bool) : List UInt8 → List Bool → List Bool
  | _, [] => []
  | [], m :: _ => [reached || m]
  | b :: bs, m :: marks =>
    (reached || m) :: afterRun s ((reached || m) && s.contains b) bs marks

/-- The marks at which a text of the expression ends that starts at one of the given marks. -/
def after (bs : List UInt8) : ByteExpr → List Bool → List Bool
  | empty, marks => marks
  | byte s, marks => afterByte s bs marks
  | run s, marks => afterRun s false bs marks
  | seq e f, marks => after bs f (after bs e marks)
  | either e f, marks => List.zipWith (· || ·) (after bs e marks) (after bs f marks)

/-- The expression accepts the bytes. -/
def accepts (e : ByteExpr) (bs : List UInt8) : Bool :=
  (after bs e (true :: List.replicate bs.length false)).getLast?.getD false

/-- Behind a byte there is again one mark for each position of the text. -/
theorem length_afterByte {s : ByteSet} {bs : List UInt8} {marks : List Bool}
    (h : marks.length = bs.length + 1) : (afterByte s bs marks).length = bs.length + 1 := by
  simp [afterByte, h]

/-- Behind a run there is again one mark for each position of the text. -/
theorem length_afterRun {s : ByteSet} {reached : Bool} {bs : List UInt8} {marks : List Bool}
    (h : marks.length = bs.length + 1) : (afterRun s reached bs marks).length = bs.length + 1 := by
  induction bs generalizing reached marks with
  | nil =>
    obtain ⟨m, rfl⟩ := List.length_eq_one_iff.1 h
    rfl
  | cons b bs ih =>
    obtain ⟨m, marks, rfl⟩ := List.exists_cons_of_length_eq_add_one h
    simp [afterRun, ih (Nat.succ.inj h)]

/-- Behind an expression there is again one mark for each position of the text. -/
theorem length_after {e : ByteExpr} {bs : List UInt8} {marks : List Bool}
    (h : marks.length = bs.length + 1) : (after bs e marks).length = bs.length + 1 := by
  induction e generalizing marks with
  | empty => exact h
  | byte s => exact length_afterByte h
  | run s => exact length_afterRun h
  | seq e f ihe ihf => exact ihf (ihe h)
  | either e f ihe ihf => simp [after, ihe h, ihf h]

/-- A position is marked behind a run if bytes of the set alone lead to it, from the first position
if that is reached, or from a mark. -/
theorem getElem?_afterRun {s : ByteSet} {reached : Bool} {bs : List UInt8} {marks : List Bool}
    (h : marks.length = bs.length + 1) {k : Nat} :
    (afterRun s reached bs marks)[k]? = some true ↔
      k ≤ bs.length ∧ ((reached = true ∧ ∀ b ∈ bs.take k, s.contains b = true) ∨
        ∃ j ≤ k, marks[j]? = some true ∧ ∀ b ∈ (bs.take k).drop j, s.contains b = true) := by
  induction bs generalizing reached marks k with
  | nil =>
    obtain ⟨m, rfl⟩ := List.length_eq_one_iff.1 h
    cases k with
    | zero => simp [afterRun]
    | succ k => simp [afterRun]
  | cons b bs ih =>
    obtain ⟨m, marks, rfl⟩ := List.exists_cons_of_length_eq_add_one h
    cases k with
    | zero => simp [afterRun]
    | succ k =>
      rw [afterRun, List.getElem?_cons_succ, ih (Nat.succ.inj h)]
      simp only [List.length_cons, Nat.add_le_add_iff_right, List.take_succ_cons,
        List.forall_mem_cons, Bool.and_eq_true, Bool.or_eq_true]
      refine and_congr_right fun _ => ?_
      constructor
      · rintro (⟨⟨hr | hm, hb⟩, hall⟩ | ⟨j, hj, hm, hall⟩)
        · exact .inl ⟨hr, hb, hall⟩
        · exact .inr ⟨0, Nat.zero_le _, by simp [hm], by simpa using ⟨hb, hall⟩⟩
        · exact .inr ⟨j + 1, Nat.succ_le_succ hj, by simpa using hm, by simpa using hall⟩
      · rintro (⟨hr, hb, hall⟩ | ⟨j, hj, hm, hall⟩)
        · exact .inl ⟨⟨.inl hr, hb⟩, hall⟩
        · cases j with
          | zero =>
            have hall : s.contains b = true ∧ ∀ c ∈ bs.take k, s.contains c = true := by
              simpa using hall
            exact .inl ⟨⟨.inr (by simpa using hm), hall.1⟩, hall.2⟩
          | succ j =>
            exact .inr ⟨j, Nat.le_of_succ_le_succ hj, by simpa using hm, by simpa using hall⟩

/-- A position is marked behind a byte if the byte in front of it is of the set and stands at a
mark. -/
theorem getElem?_afterByte {s : ByteSet} {bs : List UInt8} {marks : List Bool} {k : Nat} :
    (afterByte s bs marks)[k]? = some true ↔
      ∃ j b, k = j + 1 ∧ marks[j]? = some true ∧ bs[j]? = some b ∧ s.contains b = true := by
  cases k with
  | zero => simp [afterByte]
  | succ k =>
    rw [afterByte, List.getElem?_cons_succ, List.getElem?_zipWith]
    cases hb : bs[k]? <;> cases hm : marks[k]? <;> simp [hb, hm]

/-- A text of one byte between two positions. -/
theorem drop_take_eq_singleton {bs : List UInt8} {j k : Nat} {b : UInt8} (hk : k ≤ bs.length) :
    (bs.take k).drop j = [b] ↔ k = j + 1 ∧ bs[j]? = some b := by
  constructor
  · intro h
    have hl := congrArg List.length h
    simp only [List.length_drop, List.length_take, List.length_singleton] at hl
    have hkj : k = j + 1 := by omega
    have h0 := congrArg (·[0]?) h
    simp only [List.getElem?_drop, List.getElem?_cons_zero, Nat.add_zero] at h0
    rw [List.getElem?_take_of_lt (by omega)] at h0
    exact ⟨hkj, h0⟩
  · rintro ⟨rfl, hb⟩
    obtain ⟨hlt, rfl⟩ := List.getElem?_eq_some_iff.1 hb
    rw [List.drop_take, Nat.add_sub_cancel_left, List.drop_eq_getElem_cons hlt]
    rfl

/-- A position is marked behind an expression if a text of the expression ends there that starts at
one of the marks in front of it. -/
theorem getElem?_after {e : ByteExpr} {bs : List UInt8} {marks : List Bool}
    (h : marks.length = bs.length + 1) {k : Nat} :
    (after bs e marks)[k]? = some true ↔
      k ≤ bs.length ∧ ∃ j ≤ k, marks[j]? = some true ∧ Accepts e ((bs.take k).drop j) := by
  induction e generalizing marks k with
  | empty =>
    rw [after]
    constructor
    · intro hm
      have hk : k < marks.length := (List.getElem?_eq_some_iff.1 hm).1
      exact ⟨by omega, k, Nat.le_refl _, hm, by
        rw [List.drop_eq_nil_of_le (by rw [List.length_take]; omega)]; exact .empty⟩
    · rintro ⟨hk, j, hj, hm, ha⟩
      generalize hw : (bs.take k).drop j = w at ha
      cases ha with
      | empty =>
        have := List.drop_eq_nil_iff.1 hw
        rw [List.length_take] at this
        rwa [show k = j by omega]
  | byte s =>
    rw [after, getElem?_afterByte]
    constructor
    · rintro ⟨j, b, rfl, hm, hb, hs⟩
      have hlt : j < bs.length := (List.getElem?_eq_some_iff.1 hb).1
      refine ⟨hlt, j, Nat.le_succ _, hm, ?_⟩
      rw [(drop_take_eq_singleton hlt).2 ⟨rfl, hb⟩]
      exact .byte hs
    · rintro ⟨hk, j, hj, hm, ha⟩
      generalize hw : (bs.take k).drop j = w at ha
      cases ha with
      | @byte _ b hs =>
        obtain ⟨rfl, hb⟩ := (drop_take_eq_singleton hk).1 hw
        exact ⟨j, b, rfl, hm, hb, hs⟩
  | run s =>
    rw [after, getElem?_afterRun h]
    simp only [Bool.false_eq_true, false_and, false_or]
    refine and_congr_right fun _ => exists_congr fun j => and_congr_right fun _ =>
      and_congr_right fun _ => ⟨.run, fun ha => ?_⟩
    cases ha with
    | run hall => exact hall
  | seq e f ihe ihf =>
    rw [after, ihf (length_after h)]
    refine and_congr_right fun hk => ?_
    constructor
    · rintro ⟨j, hj, hm, hf⟩
      obtain ⟨_, i, hi, hm, he⟩ := (ihe h).1 hm
      refine ⟨i, Nat.le_trans hi hj, hm, ?_⟩
      have : (bs.take k).drop i = (bs.take j).drop i ++ (bs.take k).drop j := by
        rw [← List.take_append_drop (j - i) ((bs.take k).drop i), List.drop_drop, List.take_drop,
          List.take_take, show i + (j - i) = j by omega, Nat.min_eq_left hj]
      rw [this]
      exact .seq he hf
    · rintro ⟨i, hi, hm, ha⟩
      generalize hw : (bs.take k).drop i = w at ha
      cases ha with
      | @seq _ _ u v he hf =>
        have hl := congrArg List.length hw
        simp only [List.length_drop, List.length_take, List.length_append] at hl
        have hik : i + u.length ≤ k := by omega
        refine ⟨i + u.length, hik, (ihe h).2 ⟨by omega, i, by omega, hm, ?_⟩, ?_⟩
        · rw [show bs.take (i + u.length) = (bs.take k).take (i + u.length) by
            rw [List.take_take, Nat.min_eq_left hik], List.drop_take, hw, Nat.add_sub_cancel_left,
            List.take_left]
          exact he
        · rw [← List.drop_drop, hw, List.drop_left]
          exact hf
  | either e f ihe ihf =>
    rw [after, List.getElem?_zipWith]
    have : (∃ j ≤ k, marks[j]? = some true ∧ Accepts (.either e f) ((bs.take k).drop j)) ↔
        (∃ j ≤ k, marks[j]? = some true ∧ Accepts e ((bs.take k).drop j)) ∨
          ∃ j ≤ k, marks[j]? = some true ∧ Accepts f ((bs.take k).drop j) := by
      constructor
      · rintro ⟨j, hj, hm, ha⟩
        cases ha with
        | left ha => exact .inl ⟨j, hj, hm, ha⟩
        | right ha => exact .inr ⟨j, hj, hm, ha⟩
      · rintro (⟨j, hj, hm, ha⟩ | ⟨j, hj, hm, ha⟩)
        · exact ⟨j, hj, hm, .left ha⟩
        · exact ⟨j, hj, hm, .right ha⟩
    rw [this, and_or_left, ← ihe h, ← ihf h]
    by_cases hk : k < bs.length + 1
    · rw [List.getElem?_eq_getElem (by rwa [length_after h]),
        List.getElem?_eq_getElem (by rwa [length_after h])]
      simp
    · rw [List.getElem?_eq_none (by rw [length_after h]; omega),
        List.getElem?_eq_none (by rw [length_after h]; omega)]
      simp

/-- The matcher accepts exactly the language of the expression. -/
theorem accepts_iff {e : ByteExpr} {bs : List UInt8} : e.accepts bs = true ↔ Accepts e bs := by
  have hl : (true :: List.replicate bs.length false).length = bs.length + 1 := by simp
  have : e.accepts bs = true ↔
      (after bs e (true :: List.replicate bs.length false))[bs.length]? = some true := by
    rw [accepts, List.getLast?_eq_getElem?, length_after hl, Nat.add_sub_cancel]
    cases (after bs e (true :: List.replicate bs.length false))[bs.length]? <;> simp
  rw [this, getElem?_after hl]
  constructor
  · rintro ⟨_, j, _, hm, ha⟩
    cases j with
    | zero => simpa using ha
    | succ j => simp [List.getElem?_replicate] at hm
  · intro ha
    exact ⟨Nat.le_refl _, 0, Nat.zero_le _, rfl, by simpa using ha⟩

end ByteExpr

end TestImpact.Glob
