import TestImpact.Java.Keyword
import TestImpact.Java.Token

/-!
# Annotations and modifiers

What may stand in front of a declaration, a parameter or a package statement and says nothing about
its type. Main statement: dropping them leaves the end of the list (`dropModifiers_suffix`).
-/

namespace TestImpact.Java

/-- What follows the dotted segments of a name whose first segment has been read. -/
def afterSegments : List Token → List Token
  | .mark '.' :: .word _ :: r => afterSegments r
  | r => r

/-- What follows the name and the arguments of an annotation whose first word has been read. -/
def afterMarker (ts : List Token) : List Token :=
  match afterSegments ts with
  | .mark '(' :: r => afterClose '(' ')' r
  | r => r

/-- What follows the segments of a name is no longer than the list. -/
theorem length_afterSegments (ts : List Token) : (afterSegments ts).length ≤ ts.length := by
  fun_induction afterSegments ts <;> simp_all; omega

/-- What follows an annotation is no longer than the list. -/
theorem length_afterMarker (ts : List Token) : (afterMarker ts).length ≤ ts.length := by
  have hs := length_afterSegments ts
  unfold afterMarker
  split
  · next r hr =>
    rw [hr, List.length_cons] at hs
    exact Nat.le_trans (length_afterClose '(' ')' r) (by omega)
  · exact hs

/-- The list without the annotations and modifiers it starts with. The annotation-like `@interface`
is no annotation. -/
def dropModifiers (ts : List Token) : List Token :=
  match ts with
  | .mark '@' :: .word name :: r =>
    if name = "interface" then ts
    else
      have := length_afterMarker r
      dropModifiers (afterMarker r)
  | .word w :: r =>
    if w = "non" ∧ r.take 2 = [.mark '-', .word "sealed"] then dropModifiers (r.drop 2)
    else if isModifier w then dropModifiers r
    else ts
  | _ => ts
termination_by ts.length
decreasing_by all_goals simp only [List.length_cons, List.length_drop]; omega

/-- What follows a closing bracket is an end of the list. -/
theorem splitClose_suffix {o c : Char} {depth : Nat} {ts inside rest : List Token}
    (h : splitClose o c depth ts = some (inside, rest)) : rest <:+ ts :=
  ⟨inside ++ [.mark c], by rw [append_of_splitClose h]; simp⟩

/-- So it is if there may be no closing bracket. -/
theorem afterClose_suffix (o c : Char) (ts : List Token) : afterClose o c ts <:+ ts := by
  unfold afterClose
  split
  · next h => exact splitClose_suffix h
  · exact List.nil_suffix

/-- What follows the segments of a name is an end of the list. -/
theorem afterSegments_suffix (ts : List Token) : afterSegments ts <:+ ts := by
  fun_induction afterSegments ts with
  | case1 w r ih => exact ih.trans ((List.suffix_cons ..).trans (List.suffix_cons ..))
  | case2 => exact List.suffix_refl _

/-- What follows an annotation is an end of the list. -/
theorem afterMarker_suffix (ts : List Token) : afterMarker ts <:+ ts := by
  have hs := afterSegments_suffix ts
  unfold afterMarker
  split
  · next r hr =>
    rw [hr] at hs
    exact (afterClose_suffix ..).trans ((List.suffix_cons ..).trans hs)
  · exact hs

/-- What remains is the end of the list. -/
theorem dropModifiers_suffix (ts : List Token) : dropModifiers ts <:+ ts := by
  fun_induction dropModifiers ts with
  | case2 name r _ _ ih =>
    exact ih.trans ((afterMarker_suffix r).trans
      ((List.suffix_cons ..).trans (List.suffix_cons ..)))
  | case3 w r _ ih => exact ih.trans ((List.drop_suffix ..).trans (List.suffix_cons ..))
  | case4 w r _ _ ih => exact ih.trans (List.suffix_cons ..)
  | _ => exact List.suffix_refl _

end TestImpact.Java
