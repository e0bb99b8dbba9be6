import TestImpact.Proofs.Changes.Course

/-!
# Detections as courses of questions

What a talk asks is known from what its parts ask (`Speaks.bind`) and from what each reply leads to
(`Speaks.ask`). Main statement: in every session a detection takes a course of questions, stops at
the first failure with the error of that step, and otherwise finds what the listings name
(`detect_takesCourse`).
-/

namespace TestImpact.Changes

/-! ## What a talk asks -/

/-- The exchanges take the session `s` to `s'`. -/
structure Takes (project : Path) (config : Config) (es : List Exchange) (s s' : Session) :
    Prop where
  replies_eq : s.replies = es.map (·.reply) ++ s'.replies
  started_eq : s'.started = s.started ++ es.map (·.question.command project config)
  startable : ∀ e ∈ es, Startable (e.question.command project config)

/-- How a talk ends that begins at the question `first`: it comes to a result, a reply makes it
fail, or a command does not start. `left` are the replies that are left. -/
inductive Ends {α : Type} (project : Path) (config : Config) (first : Option Question)
    (said : List Exchange → Option Question → α → Prop) (left : List Reply) :
    List Exchange → Except ChangeError α → Prop
  | result {es next v} (hc : Course config first es next) (hs : said es next v) :
    Ends project config first said left es (.ok v)
  | failure {es e why} (hc : Course config first es (some e.question))
    (hf : Fails project config e.question e.reply why) :
    Ends project config first said left (es ++ [e]) (.error why)
  | notStarted {es q why} (hc : Course config first es (some q))
    (hn : NotStarted left (q.command project config) why) :
    Ends project config first said left es (.error (.notStarted why))

/-- In every session the talk takes a course that begins at the question `first`, and ends as it has
to; a result is one that is `said`. -/
def Speaks {α : Type} (project : Path) (config : Config) (first : Option Question) (talk : Talk α)
    (said : List Exchange → Option Question → α → Prop) : Prop :=
  ∀ s, ∃ es, Takes project config es s (talk.outcome s).2 ∧
    Ends project config first said (talk.outcome s).2.replies es (talk.outcome s).1

section
variable {α β : Type} {project : Path} {config : Config} {first : Option Question} {q : Question}
  {talk : Talk α} {f : α → Talk β} {k : Reply → Talk β} {v : α} {s s' s'' : Session}
  {es es' : List Exchange} {why : ChangeError} {arguments : List String}
  {said said' : List Exchange → Option Question → α → Prop}
  {told : List Exchange → Option Question → β → Prop}

/-- A session that takes no exchange stays as it is. -/
theorem Takes.refl (s : Session) : Takes project config [] s s where
  replies_eq := rfl
  started_eq := (List.append_nil _).symm
  startable := List.forall_mem_nil _

/-- Exchanges one after another lead from session to session. -/
theorem Takes.trans (h : Takes project config es s s') (h' : Takes project config es' s' s'') :
    Takes project config (es ++ es') s s'' where
  replies_eq := by rw [h.replies_eq, h'.replies_eq, List.map_append, List.append_assoc]
  started_eq := by rw [h'.started_eq, h.started_eq, List.map_append, List.append_assoc]
  startable := List.forall_mem_append.2 ⟨h.startable, h'.startable⟩

/-! ### Outcomes -/

/-- A talk goes on with the result of its first part, or ends with the error of that. -/
theorem outcome_bind :
    (talk >>= f).outcome s =
      match talk.outcome s with
      | (.ok v, s') => (f v).outcome s'
      | (.error why, s') => (.error why, s') := by
  rw [Talk.outcome, Talk.outcome, ExceptT.run_bind, StateT.run_bind]
  rcases StateT.run (ExceptT.run talk) s with ⟨_ | _, _⟩ <;> rfl

/-- A talk goes on with the result of its first part. -/
theorem outcome_bind_ok (h : talk.outcome s = (.ok v, s')) :
    (talk >>= f).outcome s = (f v).outcome s' := by
  rw [outcome_bind, h]

/-- A talk ends with the error of its first part. -/
theorem outcome_bind_error (h : talk.outcome s = (.error why, s')) :
    (talk >>= f).outcome s = (.error why, s') := by
  rw [outcome_bind, h]

/-- A question starts its command and takes the next reply, or tells why it cannot be started. -/
theorem outcome_ask (project : Path) (arguments : List String) (s : Session) :
    (ask project arguments).outcome s =
      if (commandOf project arguments).any ('\x00' ∈ ·.toList) then
        (.error (.notStarted .nulInArgument), s)
      else match s.replies with
        | [] => (.error (.notStarted .programNotFound), s)
        | r :: rest =>
          if (commandOf project arguments).any (maxArgumentBytes < ·.utf8ByteSize) then
            (.error (.notStarted .argumentTooLong), s)
          else (.ok r, ⟨rest, s.started ++ [commandOf project arguments]⟩) := by
  rw [ask, ← commandOf]
  generalize commandOf project arguments = command
  generalize command.any ('\x00' ∈ ·.toList) = nul
  generalize command.any (maxArgumentBytes < ·.utf8ByteSize) = long
  rcases s with ⟨_ | _, _⟩ <;> cases nul <;> cases long <;> rfl

/-- A command is not started, or takes the first reply that is left. -/
theorem cases_ask (project : Path) (arguments : List String) (s : Session) :
    (∃ why, NotStarted s.replies (commandOf project arguments) why ∧
      (ask project arguments).outcome s = (.error (.notStarted why), s)) ∨
    ∃ r rest, s.replies = r :: rest ∧ Startable (commandOf project arguments) ∧
      (ask project arguments).outcome s =
        (.ok r, ⟨rest, s.started ++ [commandOf project arguments]⟩) := by
  rw [outcome_ask]
  by_cases hnul : ∃ a ∈ commandOf project arguments, '\x00' ∈ a.toList
  · rw [if_pos (by simpa using hnul)]
    exact .inl ⟨_, .nul hnul, rfl⟩
  have hno : ∀ a ∈ commandOf project arguments, '\x00' ∉ a.toList :=
    fun a ha h => hnul ⟨a, ha, h⟩
  rw [if_neg (by simpa using hnul)]
  cases hr : s.replies with
  | nil => exact .inl ⟨_, .noProgram hno rfl, rfl⟩
  | cons r rest =>
    by_cases hlong : ∃ a ∈ commandOf project arguments, maxArgumentBytes < a.utf8ByteSize
    · simp only
      rw [if_pos (by simpa using hlong)]
      exact .inl ⟨_, .tooLong hno (List.cons_ne_nil _ _) hlong, rfl⟩
    · simp only
      rw [if_neg (by simpa using hlong)]
      exact .inr ⟨r, rest, rfl, fun a ha => ⟨hno a ha, Nat.not_lt.1 fun h => hlong ⟨a, ha, h⟩⟩, rfl⟩

/-! ### Rules -/

/-- A talk that asks nothing has its result at once. -/
theorem Speaks.pure (h : said [] first v) : Speaks project config first (Pure.pure v) said :=
  fun s => ⟨[], .refl s, .result .nil h⟩

/-- A talk that says more says less. -/
theorem Speaks.imp (h : Speaks project config first talk said)
    (hs : ∀ es next v, said es next v → said' es next v) :
    Speaks project config first talk said' := by
  intro s
  obtain ⟨es, ht, he⟩ := h s
  refine ⟨es, ht, ?_⟩
  generalize (talk.outcome s).1 = outcome at he
  cases he with
  | result hc hv => exact .result hc (hs _ _ _ hv)
  | failure hc hf => exact .failure hc hf
  | notStarted hc hn => exact .notStarted hc hn

/-- A course may go on where another one has come to a question. -/
theorem Ends.behind {left : List Reply} {outcome : Except ChangeError β} {next : Option Question}
    (hc : Course config first es next)
    (h : Ends project config next (fun es' => told (es ++ es')) left es' outcome) :
    Ends project config first told left (es ++ es') outcome := by
  cases h with
  | result hc' hs => exact .result (hc.append hc') hs
  | @failure es' e why hc' hf =>
    rw [← List.append_assoc]
    exact .failure (hc.append hc') hf
  | notStarted hc' hn => exact .notStarted (hc.append hc') hn

/-- A talk speaks as its parts do, one after the other. -/
theorem Speaks.bind (h : Speaks project config first talk said)
    (hf : ∀ es next v, said es next v →
      Speaks project config next (f v) fun es' => told (es ++ es')) :
    Speaks project config first (talk >>= f) told := by
  intro s
  obtain ⟨es, ht, he⟩ := h s
  rcases ho : talk.outcome s with ⟨outcome, s'⟩
  rw [ho] at ht he
  cases he with
  | @result _ next v hc hs =>
    obtain ⟨es', ht', he'⟩ := hf es next v hs s'
    rw [outcome_bind_ok ho]
    exact ⟨es ++ es', ht.trans ht', he'.behind hc⟩
  | failure hc hfail =>
    rw [outcome_bind_error ho]
    exact ⟨_, ht, .failure hc hfail⟩
  | notStarted hc hn =>
    rw [outcome_bind_error ho]
    exact ⟨_, ht, .notStarted hc hn⟩

/-- A talk asks a question and goes on as the reply leads, or fails with it. -/
theorem Speaks.ask
    (h : ∀ r, (∃ why, k r = throw why ∧ Fails project config q r why) ∨
      ∃ next, Leads config q r next ∧
        Speaks project config next (k r) fun es => told (⟨q, r⟩ :: es)) :
    Speaks project config (some q) (Changes.ask project (q.arguments config) >>= k) told := by
  intro s
  rcases cases_ask project (q.arguments config) s with ⟨why, hn, ho⟩ | ⟨r, rest, hr, hstart, ho⟩
  · rw [outcome_bind_error ho]
    exact ⟨[], .refl s, .notStarted .nil hn⟩
  have hone : Takes project config [⟨q, r⟩] s
      ⟨rest, s.started ++ [commandOf project (q.arguments config)]⟩ :=
    ⟨hr, rfl, List.forall_mem_singleton.2 hstart⟩
  rw [outcome_bind_ok ho]
  rcases h r with ⟨why, hk, hf⟩ | ⟨next, hl, hk⟩
  · rw [hk]
    exact ⟨[] ++ [⟨q, r⟩], hone, .failure .nil hf⟩
  · obtain ⟨es, ht, he⟩ := hk ⟨rest, s.started ++ [commandOf project (q.arguments config)]⟩
    exact ⟨⟨q, r⟩ :: es, hone.trans ht, he.behind (.cons hl .nil)⟩

end

/-! ## A detection -/

/-- The paths that the listings of a course name. -/
def Lists (es : List Exchange) (found : NameSet) : Prop :=
  ∀ p, p ∈ found ↔ ∃ e ∈ es, e.question.isListing = true ∧ p ∈ changedPaths e.reply.outText

section
variable {project : Path} {config : Config} {q : Question} {next : Option Question}
  {es es' : List Exchange} {found found' : NameSet} {range : List String} {β : Type}

/-- Exchanges that list nothing have the empty list. -/
theorem lists_empty (h : ∀ e ∈ es, e.question.isListing = false) : Lists es .empty := by
  refine fun p => ⟨fun hp => absurd hp NameSet.not_mem_empty, ?_⟩
  rintro ⟨e, he, hl, -⟩
  rw [h e he] at hl
  cases hl

/-- The listings of two courses make up the union of what each of them lists. -/
theorem Lists.union (h : Lists es found) (h' : Lists es' found') :
    Lists (es ++ es') (found.union found') := by
  intro p
  rw [NameSet.mem_union, h p, h' p]
  simp only [List.mem_append, or_and_right, exists_or]

/-- What is asked besides listings does not count. -/
theorem Lists.behind (h : Lists es .empty) (h' : Lists es' found) : Lists (es ++ es') found := by
  intro p
  rw [← h.union h' p]
  simp

/-- Asking for a commit is asking one question and reading its reply. -/
theorem commit?_bind {revision : String} {k : Option String → Talk β} :
    commit? project revision >>= k =
      Changes.ask project ["rev-parse", "--verify", "--quiet", revision ++ "^\x7bcommit\x7d"] >>=
        fun r => k r.commit? := by
  rw [commit?, bind_assoc]
  simp only [pure_bind]
  rfl

/-- The first question is whether there is a work tree, and then comes the head. -/
theorem requireWorkTree_speaks :
    Speaks project config (some .workTree) (requireWorkTree project)
      fun es next _ => next = some .head ∧ Lists es .empty := by
  refine Speaks.ask fun r => ?_
  by_cases h : r.succeeded = true ∧ trim r.outText = "true"
  · refine .inr ⟨_, .insideWorkTree h.1 h.2, ?_⟩
    rw [if_pos (by simpa using h)]
    exact .pure ⟨rfl, lists_empty (List.forall_mem_singleton.2 rfl)⟩
  · refine .inl ⟨_, if_neg (by simpa using h), .outsideWorkTree h⟩

/-- The commits are asked for with the commit that the base leads to, if there is one. -/
theorem resolveBaseRef_speaks :
    Speaks project config (some .base) (resolveBaseRef project config.baseRef)
      fun es next commit => next = some (.commits commit) ∧ Lists es .empty := by
  rw [resolveBaseRef, commit?_bind]
  refine Speaks.ask fun r => ?_
  cases hc : r.commit? with
  | some commit =>
    exact .inr ⟨_, .someBase hc, .pure ⟨rfl, lists_empty (List.forall_mem_singleton.2 rfl)⟩⟩
  | none =>
    refine .inr ⟨_, .noBase hc, ?_⟩
    simp only
    rw [commit?_bind]
    refine Speaks.ask fun r' => ?_
    cases hc' : r'.commit? with
    | some commit =>
      refine .inr ⟨_, .someRemoteBase hc', .pure ⟨rfl, lists_empty ?_⟩⟩
      simp [Question.isListing]
    | none => exact .inl ⟨_, rfl, .noRemoteBase hc'⟩

/-- A listing names the paths of its one reply. -/
theorem listed_speaks (hq : q.isListing = true)
    (ha : q.arguments config =
      ["diff", "--name-status", "--find-renames", "--relative"] ++ range ++ ["--"])
    (hl : ∀ r, r.succeeded = true → Leads config q r next) :
    Speaks project config (some q) (listed project range)
      fun es n found => n = next ∧ Lists es found := by
  rw [listed, askOutput, ← ha, bind_assoc]
  refine Speaks.ask fun r => ?_
  by_cases hs : r.succeeded = true
  · refine .inr ⟨next, hl r hs, ?_⟩
    rw [if_pos hs, pure_bind]
    refine .pure ⟨rfl, fun p => ?_⟩
    simp [hq]
  · refine .inl ⟨_, ?_, .notListed hq (Bool.not_eq_true _ ▸ hs)⟩
    rw [if_neg hs]
    rfl

/-- The commits are listed once head and base are known, and nothing else is. -/
theorem committed_speaks :
    Speaks project config (some .head) (committed project config.baseRef)
      fun es next found => next = afterCommits config ∧ Lists es found := by
  rw [committed, commit?_bind]
  refine Speaks.ask fun r => ?_
  cases hc : r.commit? with
  | none =>
    exact .inr ⟨_, .noHead hc, .pure ⟨rfl, lists_empty (List.forall_mem_singleton.2 rfl)⟩⟩
  | some commit =>
    refine .inr ⟨_, .someHead hc, resolveBaseRef_speaks.bind ?_⟩
    rintro es _ base ⟨rfl, hes⟩
    refine (listed_speaks rfl rfl fun r hs => .commitsListed hs).imp ?_
    rintro es' next found ⟨rfl, hes'⟩
    have hhead : Lists [⟨.head, r⟩] .empty := lists_empty (List.forall_mem_singleton.2 rfl)
    exact ⟨rfl, hhead.behind (hes.behind hes')⟩

/-- Uncommitted edits are listed if the configuration asks for them. -/
theorem edits_speaks :
    Speaks project config (afterCommits config)
      (if config.includeUncommitted then listed project [] else pure .empty)
      fun es next found => next = afterEdits config ∧ Lists es found := by
  rw [afterCommits]
  split
  · exact listed_speaks rfl rfl fun r hs => .editsListed hs
  · exact .pure ⟨rfl, lists_empty (List.forall_mem_nil _)⟩

/-- Staged changes are listed last, if the configuration asks for them. -/
theorem staged_speaks :
    Speaks project config (afterEdits config)
      (if config.includeStaged then listed project ["--cached"] else pure .empty)
      fun es next found => next = none ∧ Lists es found := by
  rw [afterEdits]
  split
  · exact listed_speaks rfl rfl fun r hs => .stagedListed hs
  · exact .pure ⟨rfl, lists_empty (List.forall_mem_nil _)⟩

/-- A detection is its four parts one after another, and the union of what three of them list. -/
theorem detect_eq :
    detect project config =
      requireWorkTree project >>= fun _ => committed project config.baseRef >>= fun commits =>
        (if config.includeUncommitted then listed project [] else pure .empty) >>= fun edits =>
          (if config.includeStaged then listed project ["--cached"] else pure .empty) >>=
            fun staged => pure ((commits.union edits).union staged) := by
  rw [detect]
  cases config.includeUncommitted <;> cases config.includeStaged <;> rfl

/-- A detection takes its course to the end, unless it fails. -/
theorem detect_speaks :
    Speaks project config (some .workTree) (detect project config)
      fun es next found => next = none ∧ Lists es found := by
  rw [detect_eq]
  refine requireWorkTree_speaks.bind ?_
  rintro es _ _ ⟨rfl, hes⟩
  refine committed_speaks.bind ?_
  rintro es₁ _ commits ⟨rfl, h₁⟩
  refine edits_speaks.bind ?_
  rintro es₂ _ edits ⟨rfl, h₂⟩
  refine staged_speaks.bind ?_
  rintro es₃ _ staged ⟨rfl, h₃⟩
  refine .pure ⟨rfl, hes.behind ?_⟩
  rw [List.append_nil, ← List.append_assoc]
  exact (h₁.union h₂).union h₃

/-- A detection that comes to a result has asked for all that is wanted, and finds what the listings
name. -/
structure Detected (config : Config) (es : List Exchange) (found : NameSet) : Prop where
  asksAll : AsksAll config es
  lists : Lists es found

/-- However a talk ends, its questions are asked in turn. -/
theorem Ends.inTurn {α : Type} {first : Option Question} {left : List Reply}
    {said : List Exchange → Option Question → α → Prop} {outcome : Except ChangeError α}
    (h : Ends project config first said left es outcome) : InTurn config first es := by
  cases h with
  | result hc | notStarted hc => exact hc.inTurn
  | failure hc => exact hc.inTurn_concat

/-- In every session a detection asks its questions in their order, one for each reply that it
takes. It stops at the first failure: at a reply that its question fails with, or at a command that
does not start, and the error is that of this step. Otherwise it asks for all that is wanted and
finds exactly the paths that the listings name. -/
theorem detect_takesCourse (project : Path) (config : Config) (s : Session) :
    ∃ es, Takes project config es s ((detect project config).outcome s).2 ∧ InOrder config es ∧
      Ends project config (some .workTree)
        (fun es next found => next = none ∧ Detected config es found)
        ((detect project config).outcome s).2.replies es ((detect project config).outcome s).1 := by
  have hspeaks : Speaks project config (some .workTree) (detect project config) _ := detect_speaks
  obtain ⟨es, ht, he⟩ := hspeaks s
  refine ⟨es, ht, he.inTurn.inOrder, ?_⟩
  generalize ((detect project config).outcome s).1 = outcome at he
  cases he with
  | result hc hs =>
    obtain ⟨rfl, hlists⟩ := hs
    exact .result hc ⟨rfl, hc.asksAll, hlists⟩
  | failure hc hf => exact .failure hc hf
  | notStarted hc hn => exact .notStarted hc hn

end

/-! ## A detection that finds paths -/

/-- A session of git with a renaming since the base, and one edit in the working tree. -/
def renamingSession : Session where
  replies := ["true\n", "c1\n", "c0\n", "R100\tsrc/Old.java\tsrc/New.java\n", "M\tsrc/A.java\n",
    ""].map fun out => { out := out.toUTF8.toList }

/-- All six questions are asked, and the paths of both listings are found. -/
example :
    ((detect ⟨"/p"⟩ {}).outcome renamingSession).1.toOption =
        some (.ofList ["src/A.java", "src/New.java", "src/Old.java"]) ∧
      ((detect ⟨"/p"⟩ {}).outcome renamingSession).2.replies = [] := by
  decide +kernel

end TestImpact.Changes
