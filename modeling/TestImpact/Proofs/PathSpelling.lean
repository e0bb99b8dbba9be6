import TestImpact.Proofs.Glob.Spread
import TestImpact.Proofs.MappedFiles

/-!
# Spellings of a path

Two texts are spellings of one path if they have the same segments. The class and the module of a
path are read off its segments; whether it is left out is read off its text with slashes. Main
statement: what two spellings of a source file have in common (`spelledAlike`). Patterns that ask
for names at any depth leave out both or neither; under other patterns one spelling may be left out
and the other one not (`exists_spelling_left_out`).
-/

namespace TestImpact

open Java (SourceKind)

/-- The text with a slash for every backslash. -/
def slashesOnly (path : String) : String := replaceChar '\\' '/' path

section
variable {p q path fqn : String} {config : Config} {l : Layout} {kind : SourceKind}
  {pattern : Glob.Pattern}

/-! ## Exclusion by names -/

/-- The proper names of a path are its segments. -/
theorem filter_namesOf_slashesOnly (path : String) :
    (Glob.namesOf (slashesOnly path).toList).filter Glob.isProper =
      (segments path).map Utf8.encode := by
  have hmap : (fun cs : List Char => cs.flatMap Utf8.encodeChar) = Utf8.encode ∘ String.ofList := by
    funext cs
    rw [Function.comp_apply, Utf8.encode, String.toList_ofList]
  have hfilter : Glob.isProper ∘ Utf8.encode = fun s : String => (s ≠ "" && s ≠ "." : Bool) :=
    funext Glob.isProper_encode
  rw [Glob.namesOf, hmap, ← List.map_map, List.filter_map, hfilter]
  rfl

/-- The last name of a source file is proper. -/
theorem isProper_getLast?_namesOf (h : endsIn ".java" path = true) :
    ∀ n ∈ (Glob.namesOf (slashesOnly path).toList).getLast?, Glob.isProper n = true := by
  obtain ⟨stem, hstem⟩ := exists_afterLast_of_endsIn h
  obtain ⟨front, hp⟩ := exists_splitOn_concat '/' (slashesOnly path).toList
  intro n hn
  rw [Glob.namesOf, hp, slashesOnly, hstem, List.map_append, List.map_singleton,
    List.getLast?_concat, Option.mem_some_iff] at hn
  subst hn
  have hne : stem ++ ".java" ≠ "" := append_java_ne (by decide)
  have hdot : stem ++ ".java" ≠ "." := append_java_ne (by decide)
  refine (Glob.isProper_encode (stem ++ ".java")).trans ?_
  rw [decide_eq_true hne, decide_eq_true hdot]
  rfl

/-- A spread pattern selects spellings of a source file alike. -/
theorem selects_congr_of_isSpread (hs : pattern.IsSpread) (hp : endsIn ".java" p = true)
    (hq : endsIn ".java" q = true) (h : segments p = segments q) :
    pattern.selects (slashesOnly p) = pattern.selects (slashesOnly q) := by
  obtain ⟨chunk, chunks, below, hparts, hc⟩ := hs
  have hselects : ∀ path, endsIn ".java" path = true → (pattern.selects (slashesOnly path) = true ↔
      Glob.Finds below (chunk :: chunks) ((segments path).map Utf8.encode)) := by
    intro path hpath
    have hup : afterLast '/' (slashesOnly path).toList ≠ ['.', '.'] := by
      obtain ⟨stem, hstem⟩ := exists_afterLast_of_endsIn hpath
      have hne : stem ++ ".java" ≠ ".." := append_java_ne (by decide)
      rw [slashesOnly, hstem]
      exact fun he => hne (String.toList_inj.1 he)
    rw [← filter_namesOf_slashesOnly]
    exact Glob.selects_iff hparts hc (isProper_getLast?_namesOf hpath) hup
  rw [Bool.eq_iff_iff, hselects p hp, hselects q hq, h]

/-! ## The changed classes of one path -/

/-- A change of one file changes the class of that file, if it has one. -/
theorem mem_classesOf_singleton :
    fqn ∈ (l.changedClasses (.ofList [path])).classesOf kind ↔
      l.changedClass? path = some (kind, fqn) := by
  rw [mem_classesOf_changedClasses]
  simp only [mem_filesOf_changedClasses, changedClass?_eq_some]
  refine ⟨?_, fun ⟨⟨hs, hk⟩, hf⟩ => ⟨path, ⟨⟨by simp, hs, hk⟩, fqn, hf⟩, hf⟩⟩
  rintro ⟨p, ⟨h, -⟩, hf⟩
  obtain rfl : p = path := by simpa using h.changed
  exact ⟨⟨h.isSource, h.kept⟩, hf⟩

/-- Two paths as changes on their own have the same classes if the same class is read off them. -/
theorem classesOf_singleton_congr :
    (∀ kind, (l.changedClasses (.ofList [p])).classesOf kind =
        (l.changedClasses (.ofList [q])).classesOf kind) ↔
      l.changedClass? p = l.changedClass? q := by
  refine ⟨fun h => Option.ext fun (kind, f) => ?_, fun h kind => NameSet.ext_mem fun f => ?_⟩
  · rw [← mem_classesOf_singleton, ← mem_classesOf_singleton, h kind]
  · rw [mem_classesOf_singleton, mem_classesOf_singleton, h]

/-- A source file has its class, unless it is left out. -/
theorem changedClass?_of_endsIn (h : endsIn ".java" path = true) :
    l.changedClass? path = if l.isExcluded path then none else l.classify path := by
  rw [Layout.changedClass?, h]
  cases l.isExcluded path <;> rfl

/-! ## What spellings have in common -/

/-- Every result of a list comes from one of its elements. -/
theorem exists_of_mem_mapM {ε α β : Type} {f : α → Except ε β} {as : List α} {bs : List β} {b : β}
    (h : as.mapM f = .ok bs) (hb : b ∈ bs) : ∃ a ∈ as, f a = .ok b := by
  induction as generalizing bs with
  | nil =>
    cases h
    exact absurd hb List.not_mem_nil
  | cons a as ih =>
    rw [List.mapM_cons] at h
    cases ha : f a with
    | error e => rw [ha] at h; cases h
    | ok first =>
      rw [ha] at h
      cases hr : as.mapM f with
      | error e => rw [hr] at h; cases h
      | ok rest =>
        rw [hr] at h
        cases h
        rcases List.mem_cons.1 hb with rfl | hb
        · exact ⟨a, List.mem_cons_self, ha⟩
        · obtain ⟨x, hx, hf⟩ := ih hr hb
          exact ⟨x, List.mem_cons_of_mem a hx, hf⟩

/-- Every pattern of a configuration is read from one of its texts. -/
theorem exists_ofText?_of_mem_excludes {patterns : List Glob.Pattern}
    (h : config.excludes = .ok patterns) (hm : pattern ∈ patterns) :
    ∃ text ∈ config.excludePaths, Glob.Pattern.ofText? text = .ok pattern := by
  rw [Config.excludes] at h
  cases hr : config.excludePaths.mapM
      fun s => (Glob.Pattern.ofText? s).mapError (ConfigError.invalidGlob s) with
  | error e => rw [hr] at h; cases h
  | ok read =>
    rw [hr] at h
    change ((Glob.checkNesting read).mapError _ >>= fun _ => pure read) = Except.ok patterns at h
    cases hn : Glob.checkNesting read with
    | error e => rw [hn] at h; cases h
    | ok _ =>
      rw [hn] at h
      cases h
      obtain ⟨text, htext, ht⟩ := exists_of_mem_mapM hr hm
      refine ⟨text, htext, ?_⟩
      cases hp : Glob.Pattern.ofText? text with
      | error e => rw [hp] at ht; cases ht
      | ok p =>
        rw [hp] at ht
        cases ht
        rfl

/-- What a layout makes of two spellings of a source file. -/
structure Layout.SpelledAlike (l : Layout) (config : Config) (p q : String) : Prop where
  module_eq : l.moduleOf p = l.moduleOf q
  class_eq : l.classify p = l.classify q
  /-- As changes on their own they have the same classes unless one of them alone is left out. -/
  changed_iff : (∀ kind, (l.changedClasses (.ofList [p])).classesOf kind =
      (l.changedClasses (.ofList [q])).classesOf kind) ↔
    l.classify p = none ∨ l.isExcluded p = l.isExcluded q
  /-- Backslashes for slashes make no difference to that. -/
  excluded_of_slashes : slashesOnly p = slashesOnly q → l.isExcluded p = l.isExcluded q
  /-- Nothing does if all patterns ask for names at any depth. -/
  excluded_of_spread : (∀ pattern ∈ l.excludes, pattern.IsSpread) → l.isExcluded p = l.isExcluded q
  /-- So it is if all patterns are literal names between two stars on either side. -/
  excluded_of_literal :
    (∀ text ∈ config.excludePaths, ∃ name, Glob.IsLiteralName name ∧
      text = "**/" ++ name ++ "/**") → l.isExcluded p = l.isExcluded q

/-- What two spellings of a source file have in common under a configuration that can be used. -/
theorem spelledAlike (hl : Layout.ofConfig config = .ok l) (hp : endsIn ".java" p = true)
    (hq : endsIn ".java" q = true) (h : segments p = segments q) : l.SpelledAlike config p q := by
  have hclass : l.classify p = l.classify q := by rw [Layout.classify, Layout.classify, h]
  have hspread : (∀ pattern ∈ l.excludes, pattern.IsSpread) →
      l.isExcluded p = l.isExcluded q := by
    intro hs
    rw [Bool.eq_iff_iff]
    simp only [Layout.isExcluded, Glob.selects, List.any_eq_true]
    refine exists_congr fun pattern => and_congr_right fun hm => ?_
    rw [← slashesOnly, ← slashesOnly, selects_congr_of_isSpread (hs pattern hm) hp hq h]
  refine ⟨?_, hclass, ?_, ?_, hspread, fun ht => hspread fun pattern hm => ?_⟩
  · rw [Layout.moduleOf, Layout.moduleOf, h]
  · rw [classesOf_singleton_congr, changedClass?_of_endsIn hp, changedClass?_of_endsIn hq, hclass]
    cases l.classify q with
    | none => simp
    | some c => cases l.isExcluded p <;> cases l.isExcluded q <;> simp
  · intro hs
    rw [Layout.isExcluded, Layout.isExcluded, Glob.selects, Glob.selects, ← slashesOnly,
      ← slashesOnly, hs]
  · obtain ⟨-, -, he⟩ := ofConfig_eq_ok hl
    obtain ⟨text, htext, hpattern⟩ := exists_ofText?_of_mem_excludes he hm
    obtain ⟨name, hname, rfl⟩ := ht text htext
    exact Glob.isSpread_of_ofText? hname hpattern

end

/-- The folder name of the example is literal. -/
theorem isLiteralName_generated : Glob.IsLiteralName "generated" where
  literal := List.all_eq_true.1 (by decide)
  no_slash := by decide
  proper := ⟨'g', by decide, by decide⟩

/-- The default configuration leaves out a generated file however its path is spelled. -/
theorem spelledAlike_generatedFile :
    ∃ l, Layout.ofConfig {} = .ok l ∧
      l.SpelledAlike {} "src/main/java/generated/A.java" ".\\src//main/java/./generated/A.java" ∧
      l.isExcluded ".\\src//main/java/./generated/A.java" = true := by
  have hv : (Layout.ofConfig {}).toOption.any
      (fun l => l.isExcluded "src/main/java/generated/A.java") = true := by
    decide +kernel
  obtain ⟨l, hl, hexcluded⟩ := exists_ok_of_any hv
  have halike := spelledAlike hl (p := "src/main/java/generated/A.java")
    (q := ".\\src//main/java/./generated/A.java") (by decide +kernel)
    (by decide +kernel) (by decide +kernel)
  refine ⟨l, hl, halike, ?_⟩
  rw [← halike.excluded_of_literal (List.forall_mem_singleton.2 ⟨_, isLiteralName_generated, rfl⟩)]
  exact hexcluded

/-- A configuration that leaves out a folder from the top of the project on. -/
def leavesOutFolder : Config := { excludePaths := ["gen/**"] }

/-- One spelling of a source file is left out and gives no class, and the other one gives one. -/
theorem exists_spelling_left_out :
    ∃ l, Layout.ofConfig leavesOutFolder = .ok l ∧
      segments "gen/src/main/java/A.java" = segments "./gen/src/main/java/A.java" ∧
      "A" ∉ (l.changedClasses (.ofList ["gen/src/main/java/A.java"])).productionClasses ∧
      "A" ∈ (l.changedClasses (.ofList ["./gen/src/main/java/A.java"])).productionClasses := by
  have hv : (Layout.ofConfig leavesOutFolder).toOption.any (fun l =>
      "A" ∉ (l.changedClasses (.ofList ["gen/src/main/java/A.java"])).productionClasses ∧
        "A" ∈ (l.changedClasses (.ofList ["./gen/src/main/java/A.java"])).productionClasses) =
      true := by
    decide +kernel
  obtain ⟨l, hl, hv⟩ := exists_ok_of_any hv
  exact ⟨l, hl, by decide +kernel, (of_decide_eq_true hv).1, (of_decide_eq_true hv).2⟩

end TestImpact
