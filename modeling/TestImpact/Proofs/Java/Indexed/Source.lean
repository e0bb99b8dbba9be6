import TestImpact.Java.Source
import TestImpact.Proofs.Java.Indexed.Header
import TestImpact.Proofs.Java.Indexed.Members
import TestImpact.Proofs.Java.Indexed.References
import TestImpact.Proofs.Java.Indexed.Tokens

/-!
# Reading a source by indices

The whole reader with every access checked, from the bytes of the text to the record. Main
statement: no source makes it leave a range, cut a character or stand still, so it ends with the
record that `ClassRecord.read` gives, or with the same one of the documented reasons (`read_total`).
How deep its calls go is not bounded here: there is one for each body that is open.
-/

namespace TestImpact.Java.Indexed

/-! ## Parts of names -/

/-- The last index below `n` whose element is `x`. -/
def lastIndexBelow (xs : List Char) (x : Char) : Nat → Option Nat
  | 0 => none
  | n + 1 => if xs[n]? = some x then some n else lastIndexBelow xs x n

/-- All segments of a qualified name but the last one. -/
def packageOf (fqn : String) : Except Fault String :=
  let bytes := codes fqn.toList
  match lastIndexBelow bytes '.' bytes.length with
  | some dot => (textSlice fqn.toList 0 dot).map .ofList
  | none => .ok ""

/-- The simple names in the argument list of a raw type. -/
def typeArguments (raw : String) : Except Fault (List String) :=
  let bytes := codes raw.toList
  let opening := skipWhile (· ≠ '<') bytes 0
  if opening < bytes.length then do
    let front ← textFrom raw.toList opening
    return (lastSegments [] front).filter (!isKeyword ·)
  else .ok []

/-! ## The record -/

/-- The class that an import names. -/
def importedClass? (i : Import) : Except Fault (Option String) :=
  match i.onDemand?, i.isStatic with
  | some owner, true => .ok (some owner)
  | some _, false => .ok none
  | none, true => (packageOf i.name).map fun owner => if owner.isEmpty then none else some owner
  | none, false => .ok (some i.name)

/-- The simple names that a raw type mentions. -/
def mentionedBy (raw : String) : Except Fault (List String) := do
  let head := typeHead raw
  let inside ← typeArguments raw
  return (simpleName head :: (piecesOf '.' head).filter isCapitalized).filter
    (fun n => !n.isEmpty && !isKeyword n) ++ inside

/-- The parts of a source: its header, the tokens behind it, and its members. -/
def readParts (text : String) : Except Fault (Header × List Token × List Member) := do
  let ts ← tokens text
  let (head, bodyAt) ← header ts
  let ms ← members ts bodyAt
  return (head, ← sliceFrom ts bodyAt, ms)

/-- The record of a source text that stands at `path` and is known as the class `fqn`. -/
def read (text : String) (path : Path) (fqn : String) (kind : SourceKind) :
    Except Fault ClassRecord := do
  let (head, body, ms) ← readParts text
  let classes ← head.imports.mapM importedClass?
  let inPosition ← references body
  let inTypes ← (declaredTypes ms).mapM mentionedBy
  return {
    fqn, path, kind
    package := head.package
    imports := .ofList ((classes.filterMap id).map fun c => (simpleName c, c))
    wildcardImports := .ofList (head.imports.filterMap Import.onDemand?)
    declarations := ms.filterMap Member.decl?
    fieldTypes := ms.flatMap Member.fieldTypes
    parameterTypes := ms.flatMap Member.parameterTypes
    returnTypes := ms.flatMap Member.returnTypes
    typeRefs := .ofList (inPosition ++ inTypes.flatten) }

/-- The reasons that are documented for a source that cannot be read. -/
def reasons : List String :=
  ["unterminated block comment", "unterminated string literal", "unterminated char literal",
    "unterminated text block", "unterminated package statement", "unterminated import statement",
    "unbalanced braces: unexpected end of file", "unbalanced braces: unexpected '\x7d'",
    "unbalanced braces: unclosed block", "unbalanced ')'", "unbalanced ']'"]

section
variable {xs piece text : List Char} {x : Char} {i k : Nat}

/-! ## Parts of names -/

/-- The last index of an element is found from anywhere in the part behind it. -/
theorem lastIndexBelow_behind (h : At xs i (x :: piece)) (hp : x ∉ piece) (hk : k ≤ piece.length) :
    lastIndexBelow xs x (i + 1 + k) = some i := by
  induction k with
  | zero =>
    rw [Nat.add_zero, lastIndexBelow, h.get?]
    exact if_pos rfl
  | succ k ih =>
    have hne : xs[i + 1 + k]? ≠ some x := by
      rw [h.next.getElem?]
      exact fun he => hp (List.mem_of_getElem? he)
    rw [← Nat.add_assoc, lastIndexBelow, if_neg hne]
    exact ih (Nat.le_of_succ_le hk)

/-- An element that does not occur has no last index. -/
theorem lastIndexBelow_eq_none (hx : x ∉ xs) (n : Nat) : lastIndexBelow xs x n = none := by
  induction n with
  | zero => rfl
  | succ n ih => rw [lastIndexBelow, if_neg fun he => hx (List.mem_of_getElem? he), ih]

/-- An ASCII character is a byte of the texts that it stands in. -/
theorem mem_codes (hx : x.toNat < 0x80) : x ∈ codes text ↔ x ∈ text := by
  constructor
  · intro h
    obtain ⟨c, hc, hd⟩ := List.mem_flatMap.1 h
    rwa [← (eq_iff_of_mem_codesOf hd hx).1 rfl]
  · intro h
    refine List.mem_flatMap.2 ⟨x, h, ?_⟩
    rw [codesOf_ascii hx]
    exact List.mem_cons_self

/-- The part in front of the last dot ends between two characters. -/
theorem packageOf_eq_ok (fqn : String) : packageOf fqn = .ok (TestImpact.packageOf fqn) := by
  have hdot : '.'.toNat < 0x80 := by decide
  rw [packageOf, TestImpact.packageOf]
  by_cases hm : '.' ∈ fqn.toList
  · obtain ⟨segment, front, he, hs⟩ := List.eq_append_cons_of_mem (List.mem_reverse.2 hm)
    have hsplit : fqn.toList = front.reverse ++ '.' :: segment.reverse := by
      rw [← List.reverse_reverse fqn.toList, he]
      simp
    have hs' : '.' ∉ segment.reverse := by rwa [List.mem_reverse]
    have hat : At (codes fqn.toList) (codes front.reverse).length
        ('.' :: codes segment.reverse) := by
      have ha := (show TextAt fqn.toList _ _ from ⟨front.reverse, hsplit, rfl⟩).at
      rwa [codes_cons, codesOf_ascii hdot] at ha
    have hend : (codes front.reverse).length + 1 + (codes segment.reverse).length =
        (codes fqn.toList).length := hat.next.length
    have hslice := (textAt_zero (front.reverse ++ '.' :: segment.reverse)).textSlice
    rw [← hsplit, Nat.zero_add] at hslice
    rw [← hend, lastIndexBelow_behind hat (mt (mem_codes hdot).1 hs') (Nat.le_refl _)]
    dsimp only
    rw [hslice, hsplit, beforeLast_append_cons hs']
    rfl
  · rw [lastIndexBelow_eq_none (mt (mem_codes hdot).1 hm), beforeLast_of_not_mem hm]

/-- The names in the arguments of a raw type are read from a part of its text. -/
theorem typeArguments_eq (raw : String) : typeArguments raw = .ok (Java.typeArguments raw) := by
  have hfront : TextAt raw.toList (skipWhile (· ≠ '<') (codes raw.toList) 0)
      (raw.toList.dropWhile (· ≠ '<')) :=
    (textAt_zero raw.toList).skipWhile (uniform_ne (by decide))
  rw [typeArguments, Java.typeArguments, hfront.textFrom]
  split
  · rfl
  · next hlt =>
    have hnil : raw.toList.dropWhile (· ≠ '<') = [] := by
      refine Decidable.byContradiction fun hne => hlt ?_
      obtain ⟨c, r, he⟩ := List.exists_cons_of_ne_nil hne
      rw [he] at hfront
      exact hfront.lt
    rw [hnil]
    rfl

/-! ## The record -/

/-- The class of an import is read from a part of its name. -/
theorem importedClass?_eq (i : Import) : importedClass? i = .ok i.class? := by
  rw [importedClass?, Import.class?, packageOf_eq_ok]
  cases i.onDemand? <;> cases i.isStatic <;> rfl

/-- What a raw type mentions is read by offsets as from its characters. -/
theorem mentionedBy_eq (raw : String) : mentionedBy raw = .ok (Java.mentionedBy raw) := by
  rw [mentionedBy, typeArguments_eq]
  rfl

/-- The parts of a source are read by indices as from lists. -/
theorem readParts_agrees (text : String) :
    Agrees Eq (readParts text) (Java.readParts text) := by
  refine (tokens_agrees text).bind ?_
  rintro ts _ rfl
  refine (header_agrees ts).bind ?_
  rintro ⟨head, bodyAt⟩ ⟨_, body⟩ ⟨rfl, hbody⟩
  refine (members_agrees hbody).bind ?_
  rintro ms _ rfl
  dsimp only
  rw [hbody.sliceFrom]
  exact .ok rfl

/-- The text of every reason is one of the list. -/
theorem message_mem_reasons (reason : Malformed) : reason.message ∈ reasons := by
  cases reason <;> decide

end

/-- No text makes the reader take a range or an offset that does not fit, or stand still. It gives
the record, or it names one of the documented reasons. -/
theorem read_total (text : String) (path : Path) (fqn : String) (kind : SourceKind) :
    (∃ r, read text path fqn kind = .ok r ∧ ClassRecord.read text path fqn kind = .ok r) ∨
    ∃ reason : Malformed, reason.message ∈ reasons ∧
      read text path fqn kind = .error (.malformed reason) ∧
      ClassRecord.read text path fqn kind = .error ⟨path, reason⟩ := by
  have hp := readParts_agrees text
  rw [read, ClassRecord.read]
  generalize readParts text = found at hp ⊢
  generalize Java.readParts text = parts at hp ⊢
  cases hp with
  | malformed reason => exact .inr ⟨reason, message_mem_reasons reason, rfl, rfl⟩
  | @ok a _ he =>
    obtain ⟨head, body, ms⟩ := a
    subst he
    have himports :
        ((head.imports.map Import.class?).filterMap id).map (fun c => (simpleName c, c)) =
          (head.imports.filterMap Import.class?).map fun c => (simpleName c, c) := by
      rw [List.filterMap_map, Function.id_comp]
    refine .inl ⟨_, ?_, rfl⟩
    simp only [bind, Except.bind, references_eq, mapM_eq_ok importedClass?_eq,
      mapM_eq_ok mentionedBy_eq, himports, ← List.flatMap_def]
    rfl

end TestImpact.Java.Indexed
