import TestImpact.Java.Import

/-!
# What stands in front of the declarations

`header` reads package statements, import statements and lone semicolons in any order. Its
equations, one for each statement, are `headerFrom_semicolon`, `headerFrom_package`,
`headerFrom_import` and `headerFrom_body`. `Opens` says without the reader what the import
statements of a token list are; the reader finds exactly these (`exists_header_iff`).
-/

namespace TestImpact.Java

/-- The list starts with no statement that belongs in front of the declarations. -/
structure StartsBody (ts : List Token) : Prop where
  not_semicolon : ts.head? ≠ some (.mark ';')
  not_package : ts.head? ≠ some (.word "package")
  not_import : ts.head? ≠ some (.word "import")
  not_annotated : ts.head? = some (.mark '@') → (dropModifiers ts).head? ≠ some (.word "package")

/-- The list starts with a package statement, with annotations in front of it or without; `rest` is
what follows its first word. -/
def StartsPackage (ts rest : List Token) : Prop :=
  ts = .word "package" :: rest ∨
    ts.head? = some (.mark '@') ∧ dropModifiers ts = .word "package" :: rest

/-- The words in front of an imported name. -/
def importWords (isStatic : Bool) : List Token :=
  .word "import" :: if isStatic then [.word "static"] else []

/-- `Opens ts imports body` says that package statements, lone semicolons and the import statements
of `imports` stand at the front of `ts` in some order, and that `body` follows, which starts with
none of them. -/
inductive Opens : List Token → List Import → List Token → Prop
  | body {ts : List Token} : StartsBody ts → Opens ts [] ts
  | semicolon {ts body : List Token} {imports : List Import} :
    Opens ts imports body → Opens (.mark ';' :: ts) imports body
  | package {ts name rest body : List Token} {imports : List Import} :
    StartsPackage ts (name ++ .mark ';' :: rest) → .mark ';' ∉ name → Opens rest imports body →
    Opens ts imports body
  | importing {name ts body : List Token} {imports : List Import} (isStatic : Bool) :
    .mark ';' ∉ name → (isStatic = false → name.head? ≠ some (.word "static")) →
    Opens ts imports body →
    Opens (importWords isStatic ++ (name ++ .mark ';' :: ts))
      (⟨joinTokens name, isStatic⟩ :: imports) body

/-- What stands at the front of `ts` when a statement is found there and `rest` follows its first
word. -/
def Statement.Fronts (ts rest : List Token) : Statement → Prop
  | .empty => ts = .mark ';' :: rest
  | .package => StartsPackage ts rest
  | .importing isStatic =>
    ts = importWords isStatic ++ rest ∧ (isStatic = false → rest.head? ≠ some (.word "static"))

section
variable {ts name rest r body : List Token} {read h : Header} {imports : List Import}

/-! ## The text of a statement -/

/-- A list is cut in front of the first `t`. -/
theorem cut_append_cons {t : Token} {front : List Token} (h : t ∉ front) (rest : List Token) :
    (front ++ t :: rest).takeWhile (· ≠ t) = front ∧
      (front ++ t :: rest).dropWhile (· ≠ t) = t :: rest := by
  have hne : ∀ u ∈ front, (u ≠ t : Bool) = true := by
    intro u hu
    simpa using fun he : u = t => h (he ▸ hu)
  rw [List.takeWhile_append_of_pos hne, List.dropWhile_append_of_pos hne]
  simp

/-- A statement's text goes up to its semicolon. -/
theorem untilSemicolon?_append (hn : .mark ';' ∉ name) :
    untilSemicolon? (name ++ .mark ';' :: rest) = some (joinTokens name, rest) := by
  obtain ⟨ht, hd⟩ := cut_append_cons hn rest
  rw [untilSemicolon?, hd, ht]

/-- A statement that is read to its end has a semicolon there. -/
theorem eq_append_of_untilSemicolon? {s : String} (hu : untilSemicolon? ts = some (s, rest)) :
    ∃ name, .mark ';' ∉ name ∧ ts = name ++ .mark ';' :: rest ∧ s = joinTokens name := by
  rw [untilSemicolon?] at hu
  split at hu
  · cases hu
  · next t _ hd =>
    cases hu
    obtain rfl : t = .mark ';' := by
      have := List.head?_dropWhile_not (· ≠ Token.mark ';') ts
      rw [hd] at this
      simpa using this
    refine ⟨ts.takeWhile (· ≠ .mark ';'), fun hm => ?_, ?_, rfl⟩
    · simpa using List.all_eq_true.1 List.all_takeWhile _ hm
    · rw [← hd, List.takeWhile_append_dropWhile]

/-! ## The equations of the reader -/

/-- A package statement is told by its words, whatever annotates it. -/
theorem statement?_of_startsPackage (hp : StartsPackage ts r) :
    statement? ts = some (.package, r) := by
  rcases hp with rfl | ⟨hh, hd⟩
  · rfl
  · obtain ⟨t, rfl⟩ := List.head?_eq_some_iff.1 hh
    simp only [statement?, hd]

/-- An import is told by its words, static or not. -/
theorem statement?_import (isStatic : Bool)
    (hs : isStatic = false → r.head? ≠ some (.word "static")) :
    statement? (importWords isStatic ++ r) = some (.importing isStatic, r) := by
  cases isStatic with
  | true => rfl
  | false =>
    show statement? (.word "import" :: r) = _
    rw [statement?]
    intro r' he
    exact hs rfl (he ▸ rfl)

/-- The start of a declaration is no statement. -/
theorem statement?_eq_none (hb : StartsBody ts) : statement? ts = none := by
  unfold statement?
  split
  · exact absurd rfl hb.not_semicolon
  · split
    · next hd => exact absurd (by rw [hd]; rfl) (hb.not_annotated rfl)
    · rfl
  · exact absurd rfl hb.not_package
  · exact absurd rfl hb.not_import
  · exact absurd rfl hb.not_import
  · rfl

/-- A statement with a text is read up to its semicolon. -/
theorem headerFrom_statement {s : Statement}
    (hs : statement? ts = some (s, name ++ .mark ';' :: rest)) (he : s ≠ .empty)
    (hn : .mark ';' ∉ name) :
    headerFrom read ts = headerFrom (read.add (joinTokens name) s) rest := by
  rw [headerFrom]
  split
  · next h => rw [hs] at h; cases h
  · next h => rw [hs] at h; cases h; exact absurd rfl he
  · next h =>
    rw [hs] at h
    cases h
    split
    · next hu => rw [untilSemicolon?_append hn] at hu; cases hu
    · next hu => rw [untilSemicolon?_append hn] at hu; cases hu; rfl

/-- A semicolon alone is passed over. -/
theorem headerFrom_semicolon : headerFrom read (.mark ';' :: ts) = headerFrom read ts := by
  rw [headerFrom]
  split
  · next h => cases h
  · next h => cases h; rfl
  · next hne h => cases h; exact (hne rfl).elim

/-- A package statement sets the package. -/
theorem headerFrom_package (hp : StartsPackage ts (name ++ .mark ';' :: rest))
    (hn : .mark ';' ∉ name) :
    headerFrom read ts = headerFrom { read with package := joinTokens name } rest :=
  headerFrom_statement (statement?_of_startsPackage hp) nofun hn

/-- An import statement adds an import behind the others. -/
theorem headerFrom_import (isStatic : Bool) (hn : .mark ';' ∉ name)
    (hs : isStatic = false → name.head? ≠ some (.word "static")) :
    headerFrom read (importWords isStatic ++ (name ++ .mark ';' :: rest)) =
      headerFrom { read with imports := read.imports ++ [⟨joinTokens name, isStatic⟩] } rest := by
  refine headerFrom_statement (statement?_import isStatic fun he => ?_) nofun hn
  cases name with
  | nil => simp
  | cons t name => exact hs he

/-- The header ends at the start of a declaration. -/
theorem headerFrom_body (hb : StartsBody ts) : headerFrom read ts = .ok (read, ts) := by
  rw [headerFrom]
  split
  · rfl
  · next h => rw [statement?_eq_none hb] at h; cases h
  · next h => rw [statement?_eq_none hb] at h; cases h

/-! ## The reader and the statements -/

/-- The statements that a list opens with are read one after another. -/
theorem Opens.headerFrom (ho : Opens ts imports body) (read : Header) :
    ∃ package, headerFrom read ts = .ok (⟨package, read.imports ++ imports⟩, body) := by
  induction ho generalizing read with
  | body hb => exact ⟨read.package, by rw [headerFrom_body hb, List.append_nil]⟩
  | semicolon _ ih => rw [headerFrom_semicolon]; exact ih read
  | package hp hn _ ih => rw [headerFrom_package hp hn]; exact ih _
  | importing isStatic hn hs _ ih =>
    obtain ⟨package, hi⟩ := ih _
    exact ⟨package, by rw [headerFrom_import isStatic hn hs, hi, List.append_assoc]; rfl⟩

/-- The list that is left when no statement is found starts with none. -/
theorem startsBody_of_statement? (hs : statement? ts = none) : StartsBody ts := by
  refine ⟨?_, ?_, ?_, ?_⟩
  all_goals intro hh; obtain ⟨t, rfl⟩ := List.head?_eq_some_iff.1 hh
  · cases hs
  · cases hs
  · rw [statement?.eq_def] at hs
    split at hs <;> simp_all
  · intro hd
    obtain ⟨r, hr⟩ := List.head?_eq_some_iff.1 hd
    rw [statement?_of_startsPackage (.inr ⟨rfl, hr⟩)] at hs
    cases hs

/-- What is taken for a statement starts with the words of one. -/
theorem fronts_of_statement? {s : Statement} (hs : statement? ts = some (s, r)) :
    s.Fronts ts r := by
  unfold statement? at hs
  split at hs
  · cases hs; rfl
  · next t =>
    split at hs
    · next hd => cases hs; exact .inr ⟨rfl, hd⟩
    · cases hs
  · cases hs; exact .inl rfl
  · cases hs; exact ⟨rfl, nofun⟩
  · next hne =>
    cases hs
    refine ⟨rfl, fun _ hh => ?_⟩
    obtain ⟨t, rfl⟩ := List.head?_eq_some_iff.1 hh
    exact hne _ rfl
  · cases hs

/-- A list that is read opens with the imports that are found. -/
theorem opens_of_headerFrom (hh : headerFrom read ts = .ok (h, body)) :
    ∃ imports, Opens ts imports body ∧ h.imports = read.imports ++ imports := by
  fun_induction headerFrom read ts with
  | case1 read ts hs => cases hh; exact ⟨[], .body (startsBody_of_statement? hs), by simp⟩
  | case2 read ts r hs _ ih =>
    obtain ⟨imports, ho, he⟩ := ih hh
    obtain rfl : ts = .mark ';' :: r := fronts_of_statement? hs
    exact ⟨imports, .semicolon ho, he⟩
  | case3 => cases hh
  | case4 read ts s r hne hs name rest hu _ _ ih =>
    obtain ⟨imports, ho, he⟩ := ih hh
    obtain ⟨text, hn, rfl, rfl⟩ := eq_append_of_untilSemicolon? hu
    cases s with
    | empty => exact (hne rfl).elim
    | package => exact ⟨imports, .package (fronts_of_statement? hs) hn ho, he⟩
    | importing isStatic =>
      obtain ⟨rfl, hw⟩ := fronts_of_statement? hs
      refine ⟨⟨joinTokens text, isStatic⟩ :: imports, .importing isStatic hn (fun hf => ?_) ho, ?_⟩
      · cases text with
        | nil => simp
        | cons t text => exact hw hf
      · rw [he]; simp [Header.add]

/-- The imports that the reader finds are those that the list opens with. -/
theorem exists_header_iff :
    (∃ h, header ts = .ok (h, body) ∧ h.imports = imports) ↔ Opens ts imports body := by
  refine ⟨?_, ?_⟩
  · rintro ⟨h, hh, rfl⟩
    obtain ⟨imports, ho, he⟩ := opens_of_headerFrom hh
    rw [he]
    exact ho
  · intro ho
    obtain ⟨package, hh⟩ := ho.headerFrom ⟨"", []⟩
    exact ⟨_, hh, rfl⟩

/-- A list opens with one sequence of imports. -/
theorem Opens.unique {imports' : List Import} {body' : List Token} (ho : Opens ts imports body)
    (ho' : Opens ts imports' body') : imports' = imports ∧ body' = body := by
  obtain ⟨h, hh, rfl⟩ := exists_header_iff.2 ho
  obtain ⟨h', hh', rfl⟩ := exists_header_iff.2 ho'
  rw [hh] at hh'
  cases hh'
  exact ⟨rfl, rfl⟩

end

end TestImpact.Java
