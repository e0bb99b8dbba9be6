import TestImpact.Proofs.Java.Headers

/-!
# Parts between commas

Where `commaParts` cuts a list. Main statements: a list of which no comma stands outside of brackets
stays in one part with what follows (`commaParts_append`), any other list is cut behind one of its
commas (`exists_commaParts_append`); and lists that can be told apart by the commas between them are
the parts that are found (`topLevelParts_separated`).
-/

namespace TestImpact.Java

/-- How many brackets a list opens more than it closes, angle brackets included. -/
def level (ts : List Token) : Int := ts.countP commaCount.opens - ts.countP commaCount.closes

/-- With `d` open brackets in front of the list, no comma in it stands outside of brackets. -/
def HidesCommas (d : Int) (ts : List Token) : Prop :=
  ∀ front back, ts = front ++ .mark ',' :: back → d + level front ≠ 0

/-- The lists can be told apart by the commas between them: they hide their own commas, and all but
the last one close the brackets that they open. -/
def Separable : Int → List (List Token) → Prop
  | _, [] => True
  | d, [ts] => HidesCommas d ts
  | d, ts :: us :: parts => HidesCommas d ts ∧ d + level ts = 0 ∧ Separable 0 (us :: parts)

section
variable {t : Token} {ts us rest y : List Token} {ys parts : List (List Token)} {d : Int}
  {k e : Nat}

@[simp] theorem level_append : level (ts ++ us) = level ts + level us := by
  simp only [level, List.countP_append]
  omega

/-- The first token counts with the others. -/
theorem level_cons : level (t :: ts) = level [t] + level ts := by
  rw [← level_append]
  rfl

/-- The empty list has no commas to hide. -/
theorem hidesCommas_nil : HidesCommas d [] := by
  intro front back he
  cases front <;> cases he

/-- The first token must be no comma at level zero, and the others go on from its level. -/
theorem hidesCommas_cons :
    HidesCommas d (t :: ts) ↔ ¬(t = .mark ',' ∧ d = 0) ∧ HidesCommas (d + level [t]) ts := by
  refine ⟨fun h => ⟨?_, ?_⟩, ?_⟩
  · rintro ⟨rfl, rfl⟩
    exact h [] ts rfl rfl
  · intro front back he
    have := h (t :: front) back (by rw [he]; rfl)
    rwa [level_cons, ← Int.add_assoc] at this
  · rintro ⟨ht, hts⟩ front back he
    cases front with
    | nil =>
      cases he
      intro hd
      exact ht ⟨rfl, by simpa [level] using hd⟩
    | cons u front =>
      obtain ⟨rfl, hf⟩ := List.cons.inj he
      rw [level_cons, ← Int.add_assoc]
      exact hts front back hf

/-- A token counts by the brackets that hide commas. -/
theorem level_singleton :
    level [t] = if commaCount.opens t then 1 else if commaCount.closes t then -1 else 0 := by
  have hne : commaCount.opens t = true → commaCount.closes t = false := by
    intro ho
    simp only [commaCount, Bool.or_eq_true, decide_eq_true_eq] at ho
    rcases ho with (rfl | rfl) | rfl
    all_goals decide
  cases ho : commaCount.opens t with
  | true => simp [level, ho, hne ho]
  | false => cases hc : commaCount.closes t <;> simp [level, ho, hc]

/-- `commaCount` counts levels. -/
theorem level_of_step (h : commaCount.step k t = some e) :
    (k : Int) + level [t] = e ∧ ¬(t = .mark ',' ∧ (k : Int) = 0) := by
  rw [level_singleton]
  unfold BracketCount.step at h
  split at h
  · next ho =>
    cases h
    refine ⟨by rw [if_pos ho]; rfl, ?_⟩
    rintro ⟨rfl, -⟩
    cases ho
  · next ho =>
    rw [if_neg ho]
    split at h
    · next hc =>
      rw [if_pos hc]
      split at h
      · cases h
      · cases h
        refine ⟨by omega, ?_⟩
        rintro ⟨-, hk⟩
        omega
    · next hc =>
      rw [if_neg hc]
      split at h
      · cases h
      · next hs =>
        cases h
        refine ⟨Int.add_zero _, ?_⟩
        rintro ⟨rfl, hk⟩
        exact hs (by simp [commaCount]; omega)

/-- A list that `commaCount` passes over hides its commas. -/
theorem hidesCommas_of_depth (h : commaCount.depth k ts = some e) :
    HidesCommas k ts ∧ k + level ts = e := by
  induction ts generalizing k with
  | nil =>
    cases h
    exact ⟨hidesCommas_nil, Int.add_zero _⟩
  | cons t ts ih =>
    obtain ⟨f, hs, h⟩ := BracketCount.depth_cons h
    obtain ⟨hh, hl⟩ := ih h
    obtain ⟨hf, hd⟩ := level_of_step hs
    rw [hidesCommas_cons, @level_cons t ts, ← Int.add_assoc, hf]
    exact ⟨⟨hd, hh⟩, hl⟩

/-! ## Where a list is cut -/

/-- The level behind a token is what the reader makes of it. -/
theorem eq_level (d : Int) (t : Token) :
    (match t with
      | .mark '<' | .mark '(' | .mark '[' => d + 1
      | .mark '>' | .mark ')' | .mark ']' => d - 1
      | _ => d : Int) = d + level [t] := by
  split
  iterate 6 rfl
  · next h₁ h₂ h₃ h₄ h₅ h₆ =>
    have ho : commaCount.opens t = false := by simp_all [commaCount]
    have hc : commaCount.closes t = false := by simp_all [commaCount]
    simp [level_singleton, ho, hc]

/-- `commaParts` counts levels as well. -/
theorem commaParts_cons (h : ¬(t = .mark ',' ∧ d = 0)) :
    commaParts d (t :: ts) =
      match commaParts (d + level [t]) ts with
      | [] => [[t]]
      | p :: ps => (t :: p) :: ps := by
  rw [commaParts.eq_def]
  dsimp only
  rw [if_neg h]
  exact congrArg (fun x : Int => match commaParts x ts with
    | [] => [[t]]
    | p :: ps => (t :: p) :: ps) (eq_level d t)

/-- A comma at level zero ends a part. -/
theorem commaParts_comma : commaParts 0 (.mark ',' :: ts) = [] :: commaParts 0 ts := by
  rw [commaParts.eq_def]
  exact if_pos ⟨rfl, rfl⟩

/-- A list that hides its commas goes into one part with what follows. -/
theorem commaParts_append (h : HidesCommas d ts) (hy : commaParts (d + level ts) us = y :: ys) :
    commaParts d (ts ++ us) = (ts ++ y) :: ys := by
  induction ts generalizing d with
  | nil =>
    rw [show d + level [] = d from Int.add_zero d] at hy
    exact hy
  | cons t ts ih =>
    obtain ⟨ht, hts⟩ := hidesCommas_cons.1 h
    rw [level_cons, ← Int.add_assoc] at hy
    rw [List.cons_append, commaParts_cons ht, ih hts hy]
    rfl

/-- A list that does not hide its commas is cut behind one of them. -/
theorem exists_commaParts_append (h : ¬HidesCommas d ts) :
    ∃ front back z zs, ts = front ++ .mark ',' :: back ∧
      ∀ us y ys, commaParts (d + level ts) us = y :: ys →
        commaParts d (ts ++ us) = z :: (zs ++ (back ++ y) :: ys) := by
  induction ts generalizing d with
  | nil => exact absurd hidesCommas_nil h
  | cons t ts ih =>
    by_cases ht : t = .mark ',' ∧ d = 0
    · obtain ⟨rfl, rfl⟩ := ht
      have hlevel : 0 + level (.mark ',' :: ts) = 0 + level ts := by
        rw [level_cons, Int.zero_add, Int.zero_add]
        exact Int.zero_add _
      by_cases hts : HidesCommas 0 ts
      · refine ⟨[], ts, [], [], rfl, fun us y ys hy => ?_⟩
        rw [hlevel] at hy
        rw [List.cons_append, commaParts_comma, commaParts_append hts hy]
        rfl
      · obtain ⟨front, back, z, zs, rfl, hcut⟩ := ih hts
        refine ⟨.mark ',' :: front, back, [], z :: zs, rfl, fun us y ys hy => ?_⟩
        rw [hlevel] at hy
        rw [List.cons_append, commaParts_comma, hcut us y ys hy]
        rfl
    · have hts : ¬HidesCommas (d + level [t]) ts := fun hts => h (hidesCommas_cons.2 ⟨ht, hts⟩)
      obtain ⟨front, back, z, zs, rfl, hcut⟩ := ih hts
      refine ⟨t :: front, back, t :: z, zs, rfl, fun us y ys hy => ?_⟩
      rw [level_cons, ← Int.add_assoc] at hy
      rw [List.cons_append, commaParts_cons ht, hcut us y ys hy]

/-! ## Lists with commas between them -/

/-- Behind the first part stands a comma. -/
theorem separated_cons :
    separated (ts :: us :: parts) = ts ++ .mark ',' :: separated (us :: parts) :=
  rfl

/-- Lists that can be told apart are the parts that are found. -/
theorem commaParts_separated (h : Separable d (ts :: parts)) :
    commaParts d (separated (ts :: parts)) = ts :: parts := by
  induction parts generalizing d ts with
  | nil =>
    show commaParts d (ts ++ []) = [ts]
    rw [commaParts_append h rfl, List.append_nil]
  | cons us parts ih =>
    obtain ⟨hh, hl, hs⟩ := h
    have hy : commaParts (d + level ts) (.mark ',' :: separated (us :: parts)) =
        [] :: us :: parts := by
      rw [hl, commaParts_comma, ih hs]
    rw [separated_cons, commaParts_append hh hy, List.append_nil]

/-- Parts that close the brackets they open can be told apart. -/
theorem separable_of_depth (hp : ∀ us ∈ parts, commaCount.depth 0 us = some 0) :
    Separable 0 parts := by
  induction parts with
  | nil => trivial
  | cons ts parts ih =>
    obtain ⟨ht, hps⟩ := List.forall_mem_cons.1 hp
    obtain ⟨hh, hl⟩ := hidesCommas_of_depth ht
    cases parts with
    | nil => exact hh
    | cons us parts => exact ⟨hh, hl, ih hps⟩

/-- Nothing follows the last one. -/
theorem topLevelParts_separated (hn : ∀ us ∈ parts, us ≠ []) (h : Separable 0 parts) :
    topLevelParts (separated parts) = parts := by
  cases parts with
  | nil => rfl
  | cons ts parts =>
    have hl : (ts :: parts).getLast? ≠ some [] := fun hl => hn [] (List.mem_of_getLast? hl) rfl
    rw [topLevelParts, commaParts_separated h]
    exact if_neg hl

/-- A list that hides its commas is its own only part. -/
theorem topLevelParts_single (hn : ts ≠ []) (hp : commaCount.depth 0 ts = some 0) :
    topLevelParts ts = [ts] := by
  have hs := topLevelParts_separated (List.forall_mem_singleton.2 hn)
    (separable_of_depth (List.forall_mem_singleton.2 hp))
  rwa [separated, List.flatMap_nil, List.append_nil] at hs

/-- A list of types is cut into its types. -/
theorem topLevelParts_types (types : List TypeExpr) :
    topLevelParts (separated (types.map TypeExpr.tokens)) = types.map TypeExpr.tokens := by
  refine topLevelParts_separated ?_ (separable_of_depth ?_)
  all_goals
    intro ts hts
    obtain ⟨type, -, rfl⟩ := List.mem_map.1 hts
  · obtain ⟨w, r, he, -⟩ := type.tokens_eq
    rw [he]
    exact List.cons_ne_nil _ _
  · exact BracketCount.depth_type fitsTypes_comma type 0

end

end TestImpact.Java
