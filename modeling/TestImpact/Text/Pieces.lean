/-!
# Pieces of a text

`piecesOf` cuts a text at every occurrence of one character; the other functions drop, replace and
look for parts of a text. Main statements: the parts around a last separator
(`beforeLast_append_cons`, `afterLast_append_cons`), and that they make up the text
(`beforeLast_append_afterLast`).
-/

namespace TestImpact

/-- The texts between the occurrences of `sep`. -/
def piecesOf (sep : Char) (s : String) : List String := (s.toList.splitOn sep).map .ofList

/-- The text with every `old` replaced by `new`. -/
def replaceChar (old new : Char) (s : String) : String :=
  .ofList (s.toList.map fun c => if c = old then new else c)

/-- The text starts with `start`. -/
def startsWith (start s : String) : Bool := start.toList.isPrefixOf s.toList

/-- The text ends in `tail`. -/
def endsIn (tail s : String) : Bool := tail.toList.isSuffixOf s.toList

/-- What stands before `tail` in a text that ends in it. -/
def dropEnd? (tail s : String) : Option String := (tail.toList.isSuffixOf? s.toList).map .ofList

/-- `part` stands somewhere in the text. -/
def hasPart (part : List Char) : List Char → Bool
  | [] => part.isEmpty
  | c :: r => part.isPrefixOf (c :: r) || hasPart part r

/-- What follows the last `sep`, or the whole text if there is none. -/
def afterLast (sep : Char) (cs : List Char) : List Char :=
  (cs.reverse.takeWhile (· ≠ sep)).reverse

/-- What stands before the last `sep`, or nothing if there is none. -/
def beforeLast (sep : Char) (cs : List Char) : List Char :=
  ((cs.reverse.dropWhile (· ≠ sep)).drop 1).reverse

/-- What follows the last separator does not have it. -/
theorem not_mem_afterLast (sep : Char) (cs : List Char) : sep ∉ afterLast sep cs := by
  intro hm
  rw [afterLast, List.mem_reverse] at hm
  simpa using List.all_eq_true.1 List.all_takeWhile _ hm

/-- A last separator, what stands before it and what follows it make up the text. -/
theorem beforeLast_append_afterLast {sep : Char} {cs : List Char} (h : sep ∈ cs) :
    beforeLast sep cs ++ sep :: afterLast sep cs = cs := by
  have hm : sep ∈ cs.reverse := List.mem_reverse.2 h
  have hsplit := List.takeWhile_append_dropWhile (p := (· ≠ sep)) (l := cs.reverse)
  cases hd : cs.reverse.dropWhile (· ≠ sep) with
  | nil =>
    rw [hd, List.append_nil] at hsplit
    have := List.all_takeWhile (p := (· ≠ sep)) (l := cs.reverse)
    rw [hsplit, List.all_eq_true] at this
    simpa using this sep hm
  | cons d ds =>
    have hne := List.head?_dropWhile_not (· ≠ sep) cs.reverse
    rw [hd] at hne hsplit
    have hds : d = sep := by simpa using hne
    subst hds
    have := congrArg List.reverse hsplit
    rw [beforeLast, afterLast, hd]
    simpa using this

/-- A search from the end passes over a text without the separator. -/
theorem forall_mem_reverse_ne {sep : Char} {cs : List Char} (h : sep ∉ cs) :
    ∀ c ∈ cs.reverse, (c ≠ sep : Bool) = true := by
  intro c hc
  simpa using fun he : c = sep => h (he ▸ List.mem_reverse.1 hc)

/-- Nothing stands before a separator that does not occur. -/
theorem beforeLast_of_not_mem {sep : Char} {cs : List Char} (h : sep ∉ cs) :
    beforeLast sep cs = [] := by
  have hd : cs.reverse.dropWhile (· ≠ sep) = [] := by
    rw [← List.append_nil cs.reverse, List.dropWhile_append_of_pos (forall_mem_reverse_ne h)]
    rfl
  rw [beforeLast, hd]
  rfl

section
variable {sep : Char} {start tail : List Char}

/-- What stands in front of the last separator. -/
theorem beforeLast_append_cons (h : sep ∉ tail) :
    beforeLast sep (start ++ sep :: tail) = start := by
  rw [beforeLast, List.reverse_append, List.reverse_cons, List.append_assoc,
    List.dropWhile_append_of_pos (forall_mem_reverse_ne h)]
  simp

/-- What follows the last separator. -/
theorem afterLast_append_cons (h : sep ∉ tail) : afterLast sep (start ++ sep :: tail) = tail := by
  rw [afterLast, List.reverse_append, List.reverse_cons, List.append_assoc,
    List.takeWhile_append_of_pos (forall_mem_reverse_ne h)]
  simp

end

end TestImpact
