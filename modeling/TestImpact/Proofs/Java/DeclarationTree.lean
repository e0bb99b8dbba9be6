import TestImpact.Proofs.Java.DeclaredNames

/-!
# The forest of declared types

Types stand inside types, so the declarations of a source make up a forest, and they are listed with
a type in front of the types inside it. Only the names tell which type stands inside which. Main
statement: in every source that is read, be it Java or not, the list is that of a forest in which
each type is named inside the one around it, and the type around an entry is the entry in front of
it or one around that (`read_declaresForest`).
-/

namespace TestImpact.Java

/-- A declared type with the types inside it. -/
inductive TypeTree
  | node (d : TypeDecl) (inner : List TypeTree)

mutual

/-- The types of a tree, each one in front of the types inside it. -/
def TypeTree.preorder : TypeTree → List TypeDecl
  | .node d inner => d :: preorder inner

/-- The types of a forest, tree by tree. -/
def preorder : List TypeTree → List TypeDecl
  | [] => []
  | t :: ts => t.preorder ++ preorder ts

end

mutual

/-- The type on top is named inside `outer`, and the types inside it are named inside it. -/
def TypeTree.NamedInside (outer : String) : TypeTree → Prop
  | .node d inner => d.qualified = qualify outer d.name ∧ NamedInside d.qualified inner

/-- All trees of the forest are named inside `outer`, which is empty for none. -/
def NamedInside (outer : String) : List TypeTree → Prop
  | [] => True
  | t :: ts => t.NamedInside outer ∧ NamedInside outer ts

end

/-- The types can follow an entry in a list of nested types. `path` holds this entry and the types
around it, the innermost one first. Each type stands on its own, or inside a type of the path; then
the path leads from there. -/
inductive BranchesOff : List TypeDecl → List TypeDecl → Prop
  | nil {path : List TypeDecl} : BranchesOff path []
  | alone {path ds : List TypeDecl} {d : TypeDecl} :
    d.qualified = d.name → BranchesOff [d] ds → BranchesOff path (d :: ds)
  | inside {path around ds : List TypeDecl} {d o : TypeDecl} :
    o :: around <:+ path → d.IsInside o → BranchesOff (d :: o :: around) ds →
    BranchesOff path (d :: ds)

section
variable {outer : List String} {path ds before after : List TypeDecl} {d : TypeDecl}

/-! ## From the stack to the forest -/

/-- The types are the rest of a forest: first the further ones inside the innermost of the open
types, then those inside the next one, and at last those that stand on their own. -/
def FillsUp : List String → List TypeDecl → Prop
  | [], ds => ∃ forest, NamedInside "" forest ∧ ds = preorder forest
  | o :: outer, ds =>
    ∃ forest rest, NamedInside o forest ∧ ds = preorder forest ++ rest ∧ FillsUp outer rest

/-- A type with what is inside it goes in front of the types inside the innermost open type. -/
theorem FillsUp.cons (hq : d.qualified = qualify (outer.headD "") d.name)
    (h : FillsUp (d.qualified :: outer) ds) : FillsUp outer (d :: ds) := by
  obtain ⟨inner, rest, hinner, rfl, hrest⟩ := h
  cases outer with
  | nil =>
    obtain ⟨forest, hforest, rfl⟩ := hrest
    refine ⟨.node d inner :: forest, ?_, ?_⟩
    · exact ⟨⟨hq, hinner⟩, hforest⟩
    · rw [preorder, TypeTree.preorder, List.cons_append]
  | cons o outer =>
    obtain ⟨forest, more, hforest, rfl, hmore⟩ := hrest
    refine ⟨.node d inner :: forest, more, ?_, ?_, hmore⟩
    · exact ⟨⟨hq, hinner⟩, hforest⟩
    · rw [preorder, TypeTree.preorder, List.cons_append, List.cons_append, List.append_assoc]

/-- Where all bodies are closed at the end, the types are the rest of a forest. -/
theorem Opened.fillsUp (h : Opened outer ds []) : FillsUp outer ds := by
  generalize ha : ([] : List String) = around at h
  induction h with
  | nil =>
    subst ha
    exact ⟨[], trivial, rfl⟩
  | close _ ih => exact ⟨[], _, trivial, rfl, ih ha⟩
  | cons hq _ ih => exact FillsUp.cons hq (ih ha)

/-! ## The path to an entry -/

/-- If the open bodies are those of types around the last entry, the types branch off from there. -/
theorem Opened.branchesOff {around : List String} (h : Opened outer ds around)
    (hpath : outer <:+ path.map TypeDecl.qualified) (ho : ∀ o ∈ path, o.qualified ≠ "")
    (hn : ∀ d ∈ ds, d.name ≠ "") : BranchesOff path ds := by
  induction h generalizing path with
  | nil => exact .nil
  | close _ ih => exact ih ((List.suffix_cons _ _).trans hpath) ho hn
  | @cons d outer around ds hq _ ih =>
    obtain ⟨hd, hn⟩ := List.forall_mem_cons.1 hn
    have hne : d.qualified ≠ "" := hq ▸ qualify_ne_empty hd
    cases outer with
    | nil =>
      refine .alone hq (ih ?_ ?_ hn)
      · exact List.suffix_refl _
      · exact List.forall_mem_singleton.2 hne
    | cons q outer =>
      -- the innermost open body is that of a type of the path
      obtain ⟨front, hfront⟩ := hpath
      obtain ⟨inner, tail, rfl, -, htail⟩ := List.map_eq_append_iff.1 hfront.symm
      obtain ⟨o, around', rfl, rfl, rfl⟩ := List.map_eq_cons_iff.1 htail
      have hinside : d.IsInside o := by
        rw [TypeDecl.IsInside, hq, List.headD_cons, qualify,
          if_neg (by simpa [String.isEmpty_iff] using ho o (by simp))]
      refine .inside (List.suffix_append _ _) hinside (ih ?_ ?_ hn)
      · exact List.suffix_refl _
      · exact List.forall_mem_cons.2 ⟨hne, fun o' ho' => ho o' (List.mem_append_right _ ho')⟩

/-- What branches off stands on its own, or inside a type of the path or one in front of it. -/
theorem BranchesOff.of_append (h : BranchesOff path (before ++ d :: after)) :
    d.qualified = d.name ∨ ∃ o ∈ path ++ before, d.IsInside o := by
  induction before generalizing path with
  | nil =>
    cases h with
    | alone hq => exact .inl hq
    | inside hs hi => exact .inr ⟨_, List.mem_append_left _ (hs.subset List.mem_cons_self), hi⟩
  | cons e before ih =>
    have hmem : ∀ {path' : List TypeDecl}, path' ⊆ e :: path → ∀ o ∈ path' ++ before,
        o ∈ path ++ e :: before := by
      intro path' hsub o ho
      rcases List.mem_append.1 ho with ho | ho
      · rcases List.mem_cons.1 (hsub ho) with rfl | ho
        · simp
        · exact List.mem_append_left _ ho
      · exact List.mem_append_right _ (List.mem_cons_of_mem _ ho)
    cases h with
    | alone _ hb =>
      refine (ih hb).imp_right fun ⟨o, ho, hi⟩ => ⟨o, hmem ?_ o ho, hi⟩
      exact List.cons_subset_cons _ (List.nil_subset _)
    | inside hs _ hb =>
      refine (ih hb).imp_right fun ⟨o, ho, hi⟩ => ⟨o, hmem ?_ o ho, hi⟩
      exact List.cons_subset_cons _ hs.subset

/-! ## The declarations of a source -/

/-- The list of declarations says which types stand inside which. In every source that is read, they
are those of a forest, each type in front of the types inside it and named inside the one around it;
the type around an entry is the entry in front of it or one around that; the name of each is a word
of the source, which has no dot; and the qualified name of a type that does not stand on its own
goes on from that of a type in front of it in the list. -/
theorem read_declaresForest {text fqn : String} {place : Path} {kind : SourceKind}
    {r : ClassRecord} {ts : List Token} (hr : ClassRecord.read text place fqn kind = .ok r)
    (ht : tokens text.toList = .ok ts) :
    (∃ forest, NamedInside "" forest ∧ r.declarations = preorder forest) ∧
      BranchesOff [] r.declarations ∧
      (∀ d ∈ r.declarations, .word d.name ∈ ts ∧ IsSegment d.name) ∧
      ∀ before d after, r.declarations = before ++ d :: after →
        d.qualified = d.name ∨
          ∃ o ∈ before, d.IsInside o ∧ r.declaredName d = r.declaredName o ++ "." ++ d.name := by
  have hopened := opened_of_read hr
  have hsegment := isSegment_of_read hr
  have hbranches : BranchesOff [] r.declarations :=
    hopened.branchesOff (List.suffix_refl _) (List.forall_mem_nil _)
      fun d hd => (hsegment d hd).ne_empty
  obtain ⟨ts', ht', hword⟩ := word_mem_of_read hr
  rw [ht] at ht'
  cases ht'
  refine ⟨hopened.fillsUp, hbranches, fun d hd => ⟨hword d hd, hsegment d hd⟩, ?_⟩
  intro before d after he
  rw [he] at hbranches
  rcases hbranches.of_append with hq | ⟨o, ho, hi⟩
  · exact .inl hq
  · exact .inr ⟨o, ho, hi, hi.declaredName⟩

end

/-- A source that is no Java, with types inside types, behind skipped blocks and in an enum. -/
def tangledTypes : String :=
  "package p.q; class A \x7b int f = \x7b class X \x7b \x7d \x7d; " ++
    "@M enum B \x7b K \x7b class Y \x7b \x7d \x7d; " ++
      "record C(int i) \x7b class D \x7b \x7d \x7d \x7d " ++
        "class \x7b interface E \x7b \x7d \x7d \x7d class A \x7b \x7d"

/-- Its types are those of a forest. -/
theorem read_declaresForest_tangledTypes :
    ∃ r ts forest, ClassRecord.read tangledTypes ⟨"A.java"⟩ "p.q.A" .production = .ok r ∧
      tokens tangledTypes.toList = .ok ts ∧ NamedInside "" forest ∧
      r.declarations = preorder forest ∧ BranchesOff [] r.declarations ∧
      r.declarations.map r.declaredName =
        ["p.q.A", "p.q.A.B", "p.q.A.B.C", "p.q.A.B.C.D", "p.q.A"] := by
  have hv : (ClassRecord.read tangledTypes ⟨"A.java"⟩ "p.q.A" .production).toOption.any (fun r =>
      r.declarations.map r.declaredName =
        ["p.q.A", "p.q.A.B", "p.q.A.B.C", "p.q.A.B.C.D", "p.q.A"]) = true := by
    decide +kernel
  obtain ⟨r, hr, hv⟩ := (Option.any_eq_true _ _).1 hv
  have hread := eq_ok_of_toOption hr
  obtain ⟨ts, ht, -⟩ := word_mem_of_read hread
  obtain ⟨⟨forest, hnamed, hlist⟩, hbranches, -⟩ := read_declaresForest hread ht
  exact ⟨r, ts, forest, hread, ht, hnamed, hlist, hbranches, of_decide_eq_true hv⟩

end TestImpact.Java
