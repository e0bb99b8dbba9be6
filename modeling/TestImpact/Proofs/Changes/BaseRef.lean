import TestImpact.Config.Check
import TestImpact.Proofs.Changes.Detection
import TestImpact.Proofs.Text.Parts

/-!
# Arguments from the base reference

A base reference is checked as it is without the blanks around it and with slashes for backslashes,
and it is passed to git as it stands, between other texts. Main statement: if a configuration can be
used, no argument that is built from its base reference is read as an option or has a part that
leads up, and the other arguments of a detection are fixed texts and the commits that git has named
(`harmless_of_check`).
-/

namespace TestImpact

/-- The text does not start as an option does, and no part of it leads to the folder above. -/
structure Harmless (s : String) : Prop where
  no_dash : s.toList.head? ≠ some '-'
  no_way_up : ∀ c, c = '/' ∨ c = '\\' → ¬['.', '.', c] <:+: s.toList

section
variable {s ref front tail : String} {config : Config}

/-! ## Seams -/

/-- An end without slashes makes no difference. -/
theorem harmless_append_iff (hs : s ≠ "") (ht : '/' ∉ tail.toList ∧ '\\' ∉ tail.toList) :
    Harmless (s ++ tail) ↔ Harmless s := by
  have hhead : (s ++ tail).toList.head? = s.toList.head? := by
    rw [String.toList_append, List.head?_append_of_ne_nil _ (by simpa using hs)]
  have hparts : ∀ c, c = '/' ∨ c = '\\' →
      (['.', '.', c] <:+: (s ++ tail).toList ↔ ['.', '.', c] <:+: s.toList) := by
    intro c hc
    rw [String.toList_append]
    refine ⟨fun h => ?_, fun h => h.trans (List.prefix_append _ _).isInfix⟩
    refine infix_of_last_not_mem (p := ['.', '.']) h ?_
    rcases hc with rfl | rfl
    · exact ht.1
    · exact ht.2
  refine ⟨fun h => ⟨hhead ▸ h.no_dash, fun c hc hp => ?_⟩,
    fun h => ⟨hhead ▸ h.no_dash, fun c hc hp => ?_⟩⟩
  · exact h.no_way_up c hc ((hparts c hc).2 hp)
  · exact h.no_way_up c hc ((hparts c hc).1 hp)

/-- Nothing comes about behind a text without dots that starts with no dash. -/
theorem Harmless.behind (h : Harmless s) (hf : front ≠ "") (hd : front.toList.head? ≠ some '-')
    (hdot : '.' ∉ front.toList) : Harmless (front ++ s) where
  no_dash := by
    rw [String.toList_append, List.head?_append_of_ne_nil _ (by simpa using hf)]
    exact hd
  no_way_up := by
    intro c hc hp
    rw [String.toList_append] at hp
    exact h.no_way_up c hc (infix_of_head_not_mem hp hdot)

/-! ## The check -/

/-- A reference that passes is not blank, starts with no dash and has no `../` in it. -/
theorem checkBaseRef_eq_ok (h : Config.checkBaseRef ref = .ok ()) :
    trimBlanks ref.toList ≠ [] ∧ (trimBlanks ref.toList).head? ≠ some '-' ∧
      ¬['.', '.', '/'] <:+: (trimBlanks ref.toList).map fun c => if c = '\\' then '/' else c := by
  rw [Config.checkBaseRef] at h
  split at h
  · cases h
  next hempty =>
  split at h
  · cases h
  next hdash =>
  split at h
  · cases h
  next hup =>
  rw [Bool.or_eq_true, not_or] at hup
  refine ⟨?_, ?_, fun hp => hup.1 ?_⟩
  · intro he
    rw [trim, he] at hempty
    exact hempty rfl
  · intro he
    refine hdash ?_
    obtain ⟨cs, hcs⟩ := List.head?_eq_some_iff.1 he
    simp [startsWith, trim, hcs]
  · rw [hasPart_iff, replaceChar, trim]
    simp only [String.toList_ofList]
    exact hp

/-- A base reference that is not refused is harmless as it stands. -/
theorem harmless_of_checkBaseRef (h : Config.checkBaseRef ref = .ok ()) :
    ref ≠ "" ∧ Harmless ref := by
  obtain ⟨hne, hdash, hup⟩ := checkBaseRef_eq_ok h
  obtain ⟨front, back, he, hfront, hback⟩ := exists_trimBlanks ref.toList
  have hblank : ∀ c, c = '.' ∨ c = '-' ∨ c = '/' ∨ c = '\\' → isBlank c = false := by
    rintro c (rfl | rfl | rfl | rfl) <;> decide
  have hnot : ∀ {cs : List Char} {c : Char}, (∀ c ∈ cs, isBlank c = true) →
      c = '.' ∨ c = '-' ∨ c = '/' ∨ c = '\\' → c ∉ cs := by
    intro cs c hcs hc hm
    have := hcs c hm
    rw [hblank c hc] at this
    cases this
  refine ⟨?_, ?_, ?_⟩
  · rintro rfl
    exact hne rfl
  · rw [he]
    cases front with
    | nil => rwa [List.nil_append, List.head?_append_of_ne_nil _ hne]
    | cons c front =>
      rintro hc
      exact hnot hfront (.inr (.inl rfl)) (Option.some.inj hc ▸ List.mem_cons_self)
  · intro c hc hp
    rw [he] at hp
    have hmid := infix_of_last_not_mem (p := ['.', '.'])
      (infix_of_head_not_mem hp (hnot hfront (.inl rfl))) (hnot hback (.inr (.inr hc)))
    refine hup ?_
    have hslashed := List.IsInfix.map (fun c => if c = '\\' then '/' else c) hmid
    rcases hc with rfl | rfl <;> exact hslashed

end

namespace Changes

/-- The arguments that are built from a base reference. -/
def refArguments (ref : String) : List String :=
  [ref ++ "^\x7bcommit\x7d", "refs/remotes/" ++ ref ++ "^\x7bcommit\x7d"]

/-- The arguments that every detection uses. -/
def fixedArguments : List String :=
  ["rev-parse", "--is-inside-work-tree", "--verify", "--quiet", "HEAD^\x7bcommit\x7d", "diff",
    "--name-status", "--find-renames", "--relative", "--cached", "--"]

section
variable {ref a : String} {config : Config} {project : Path} {first : Option Question}
  {es : List Exchange} {e : Exchange} {q : Question}

/-- The arguments that are made from a reference that passes are harmless. -/
theorem harmless_refArguments (h : Config.checkBaseRef ref = .ok ()) :
    ∀ a ∈ refArguments ref, Harmless a := by
  obtain ⟨hne, href⟩ := harmless_of_checkBaseRef h
  have hremote : Harmless ("refs/remotes/" ++ ref) :=
    href.behind (by decide) (by decide) (by decide)
  rw [refArguments, List.forall_mem_cons, List.forall_mem_singleton]
  refine ⟨(harmless_append_iff hne (by decide)).2 href,
    (harmless_append_iff ?_ (by decide)).2 hremote⟩
  simp

/-- Where the arguments of a question are from. -/
theorem mem_arguments (h : a ∈ q.arguments config) :
    a ∈ fixedArguments ∨ a ∈ refArguments config.baseRef ∨
      ∃ since, q = .commits since ∧ a = since ++ "..HEAD" := by
  cases q with
  | workTree | head | edits | staged =>
    refine .inl ((?_ : Question.arguments config _ ⊆ fixedArguments) h)
    simp [Question.arguments, fixedArguments]
  | base | remoteBase =>
    simp only [Question.arguments, List.mem_cons, List.not_mem_nil, or_false] at h
    rcases h with rfl | rfl | rfl | rfl <;> simp [fixedArguments, refArguments]
  | commits since =>
    simp only [Question.arguments, List.mem_cons, List.not_mem_nil, or_false] at h
    rcases h with rfl | rfl | rfl | rfl | rfl | rfl <;> simp [fixedArguments]

/-- A commit that a reply names is not empty. -/
theorem ne_of_commit? {r : Reply} {commit : String} (h : r.commit? = some commit) :
    commit ≠ "" := by
  rw [Reply.commit?] at h
  split at h
  · next hc =>
    rw [Bool.and_eq_true, Bool.not_eq_true', ← Bool.not_eq_true, String.isEmpty_iff] at hc
    exact Option.some.inj h ▸ hc.2
  · cases h

/-- Where an argument is from: it is a fixed text, it is built from the base reference, or it is a
range from a commit that git has named, and then it is as harmless as the name. -/
def IsAccounted (ref : String) (replies : List Reply) (a : String) : Prop :=
  a ∈ fixedArguments ∨ a ∈ refArguments ref ∨
    ∃ r ∈ replies, ∃ commit, r.commit? = some commit ∧ a = commit ++ "..HEAD" ∧
      (Harmless a ↔ Harmless commit)

/-- What is asked in turn has its arguments from the base reference and from the replies before. -/
theorem InTurn.isAccounted (h : InTurn config first es)
    (hf : ∀ since, first ≠ some (.commits since)) (he : e ∈ es)
    (ha : a ∈ e.question.arguments config) :
    IsAccounted config.baseRef (es.map (·.reply)) a := by
  rcases mem_arguments ha with hfixed | href | ⟨since, hq, rfl⟩
  · exact .inl hfixed
  · exact .inr (.inl href)
  · obtain ⟨b, hb, hl⟩ := h.exists_leadsTo he (hq ▸ hf since)
    rw [Exchange.LeadsTo, hq] at hl
    obtain ⟨-, hc⟩ := hl.isDue
    exact .inr (.inr ⟨b.reply, List.mem_map_of_mem hb, since, hc, rfl,
      harmless_append_iff (ne_of_commit? hc) (by decide)⟩)

/-- The arguments of every command that a talk starts are accounted for. -/
theorem Speaks.isAccounted {α : Type} {talk : Talk α}
    {said : List Exchange → Option Question → α → Prop}
    (h : Speaks project config first talk said) (hf : ∀ since, first ≠ some (.commits since))
    (replies : List Reply) :
    ∀ command ∈ (talk.outcome { replies }).2.started, ∃ arguments,
      command = commandOf project arguments ∧
        ∀ a ∈ arguments, IsAccounted config.baseRef replies a := by
  obtain ⟨es, ht, hends⟩ := h { replies }
  intro command hc
  rw [ht.started_eq, List.nil_append] at hc
  obtain ⟨e, he, rfl⟩ := List.mem_map.1 hc
  refine ⟨e.question.arguments config, rfl, fun a ha => ?_⟩
  refine (hends.inTurn.isAccounted hf he ha).imp_right (Or.imp_right ?_)
  rintro ⟨r, hr, hrest⟩
  refine ⟨r, ?_, hrest⟩
  have hreplies : replies = es.map (·.reply) ++ _ := ht.replies_eq
  rw [hreplies]
  exact List.mem_append_left _ hr

/-- A configuration that passes has a reference that passes. -/
theorem checkBaseRef_of_check (h : config.check = .ok ()) :
    Config.checkBaseRef config.baseRef = .ok () := by
  rw [Config.check] at h
  cases hc : Config.checkBaseRef config.baseRef with
  | ok u => rfl
  | error e => rw [hc] at h; cases h

/-- Under a configuration that can be used, the arguments that are built from the base reference are
harmless, and no other argument of a detection, or of the search for the base alone, is built from
it. -/
theorem harmless_of_check (h : config.check = .ok ()) (project : Path) (replies : List Reply) :
    (∀ a ∈ refArguments config.baseRef, Harmless a) ∧
      ∀ started, started = ((detect project config).outcome { replies }).2.started ∨
          started = ((resolveBaseRef project config.baseRef).outcome { replies }).2.started →
        ∀ command ∈ started, ∃ arguments, command = commandOf project arguments ∧
          ∀ a ∈ arguments, IsAccounted config.baseRef replies a := by
  refine ⟨harmless_refArguments (checkBaseRef_of_check h), ?_⟩
  rintro started (rfl | rfl)
  · exact detect_speaks.isAccounted nofun replies
  · exact resolveBaseRef_speaks.isAccounted nofun replies

/-- A reference with blanks around it, with a dash, backslashes and dots at its end, that git knows
as a remote branch. -/
theorem harmless_of_check_paddedRef :
    ({ baseRef := " \u00a0a\\-b/c.. ", excludePaths := [] } : Config).check = .ok () ∧
      Harmless " \u00a0a\\-b/c.. ^\x7bcommit\x7d" ∧
      Harmless "refs/remotes/ \u00a0a\\-b/c.. ^\x7bcommit\x7d" ∧
      ((resolveBaseRef ⟨"p"⟩ " \u00a0a\\-b/c.. ").outcome
        { replies := [{ code := 1 }, { out := [52, 102, 10] }] }).2.started =
          (refArguments " \u00a0a\\-b/c.. ").map fun a =>
            commandOf ⟨"p"⟩ ["rev-parse", "--verify", "--quiet", a] := by
  have hcheck :
      ({ baseRef := " \u00a0a\\-b/c.. ", excludePaths := [] } : Config).check = .ok () := by
    decide
  have hrefs := (harmless_of_check hcheck ⟨"p"⟩ []).1
  refine ⟨hcheck, hrefs _ (by decide), hrefs _ (by decide), ?_⟩
  decide +kernel

end

end Changes

end TestImpact
