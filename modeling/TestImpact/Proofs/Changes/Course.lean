import Mathlib.Data.List.Chain
import Mathlib.Data.List.Pairwise
import TestImpact.Changes.Detection

/-!
# The course of questions

To detect changes, git is asked one question after another. A reply leads to the next question
(`Leads`) or is one that the detection fails with (`Fails`), and a command may not even be started
(`NotStarted`). Main statements: questions in turn keep their order (`InTurn.pairwise`); every one
but the first is one that the reply to another leads to (`InTurn.exists_leadsTo`); and in a course
that is finished each reply has led on (`Course.exists_next`).
-/

namespace TestImpact.Changes

/-- What git is asked. -/
inductive Question
  /-- Whether the project is inside a working tree. -/
  | workTree
  /-- For the commit of the head. -/
  | head
  /-- For the commit of the base reference as it is given. -/
  | base
  /-- For the commit of the base reference as a remote branch. -/
  | remoteBase
  /-- For the paths that the commits since the given one have changed. -/
  | commits (since : String)
  /-- For the changed paths of the working tree. -/
  | edits
  /-- For the changed paths of the index. -/
  | staged
deriving DecidableEq, Repr

/-- The command with which git is started for a project. -/
def commandOf (project : Path) (arguments : List String) : List String :=
  ["-c", "core.quotepath=off", "-C", project.text] ++ arguments

namespace Question

/-- The arguments that ask a question. -/
def arguments (config : Config) : Question → List String
  | workTree => ["rev-parse", "--is-inside-work-tree"]
  | head => ["rev-parse", "--verify", "--quiet", "HEAD^\x7bcommit\x7d"]
  | base => ["rev-parse", "--verify", "--quiet", config.baseRef ++ "^\x7bcommit\x7d"]
  | remoteBase =>
    ["rev-parse", "--verify", "--quiet", "refs/remotes/" ++ config.baseRef ++ "^\x7bcommit\x7d"]
  | commits since =>
    ["diff", "--name-status", "--find-renames", "--relative", since ++ "..HEAD", "--"]
  | edits => ["diff", "--name-status", "--find-renames", "--relative", "--"]
  | staged => ["diff", "--name-status", "--find-renames", "--relative", "--cached", "--"]

/-- The command that asks a question about a project. -/
def command (project : Path) (config : Config) (q : Question) : List String :=
  commandOf project (q.arguments config)

/-- The place of a question in a detection. -/
def rank : Question → Nat
  | workTree => 0
  | head => 1
  | base => 2
  | remoteBase => 3
  | commits _ => 4
  | edits => 5
  | staged => 6

/-- The question asks for changed paths. -/
def isListing : Question → Bool
  | commits _ | edits | staged => true
  | _ => false

/-- The question is about the base reference or the commits since it. -/
def isAboutBase : Question → Bool
  | base | remoteBase | commits _ => true
  | _ => false

end Question

/-- The commit that a reply names. -/
def Reply.commit? (r : Reply) : Option String :=
  if r.succeeded && !(trim r.outText).isEmpty then some (trim r.outText) else none

/-- A question and the reply to it. -/
structure Exchange where
  question : Question
  reply : Reply

/-! ## The course -/

/-- The question behind the one for the changes of the working tree. -/
def afterEdits (config : Config) : Option Question :=
  if config.includeStaged then some .staged else none

/-- The question behind those about commits. -/
def afterCommits (config : Config) : Option Question :=
  if config.includeUncommitted then some .edits else afterEdits config

/-- The question that a reply leads to, or none if it was the last one. -/
inductive Leads (config : Config) : Question → Reply → Option Question → Prop
  | insideWorkTree {r} (hs : r.succeeded = true) (ho : trim r.outText = "true") :
    Leads config .workTree r (some .head)
  | someHead {r commit} (h : r.commit? = some commit) : Leads config .head r (some .base)
  | noHead {r} (h : r.commit? = none) : Leads config .head r (afterCommits config)
  | someBase {r commit} (h : r.commit? = some commit) :
    Leads config .base r (some (.commits commit))
  | noBase {r} (h : r.commit? = none) : Leads config .base r (some .remoteBase)
  | someRemoteBase {r commit} (h : r.commit? = some commit) :
    Leads config .remoteBase r (some (.commits commit))
  | commitsListed {r since} (hs : r.succeeded = true) :
    Leads config (.commits since) r (afterCommits config)
  | editsListed {r} (hs : r.succeeded = true) : Leads config .edits r (afterEdits config)
  | stagedListed {r} (hs : r.succeeded = true) : Leads config .staged r none

/-- The error that a reply is answered with. -/
inductive Fails (project : Path) (config : Config) : Question → Reply → ChangeError → Prop
  | outsideWorkTree {r} (h : ¬(r.succeeded = true ∧ trim r.outText = "true")) :
    Fails project config .workTree r (.notARepository project)
  | noRemoteBase {r} (h : r.commit? = none) :
    Fails project config .remoteBase r (.unresolvedRef config.baseRef)
  | notListed {q r} (hq : q.isListing = true) (hs : r.succeeded = false) :
    Fails project config q r (.failed (q.arguments config) (trim r.errText))

/-- A command that can be started: no argument holds a NUL, and none is too long. -/
def Startable (command : List String) : Prop :=
  ∀ a ∈ command, '\x00' ∉ a.toList ∧ a.utf8ByteSize ≤ maxArgumentBytes

/-- Why a command does not start, where `left` are the replies that are left. -/
inductive NotStarted (left : List Reply) (command : List String) : StartError → Prop
  | nul (h : ∃ a ∈ command, '\x00' ∈ a.toList) : NotStarted left command .nulInArgument
  | noProgram (h : ∀ a ∈ command, '\x00' ∉ a.toList) (hl : left = []) :
    NotStarted left command .programNotFound
  | tooLong (h : ∀ a ∈ command, '\x00' ∉ a.toList) (hl : left ≠ [])
    (ha : ∃ a ∈ command, maxArgumentBytes < a.utf8ByteSize) :
    NotStarted left command .argumentTooLong

/-- Exchanges of which each one leads to the question of the next, from a first question to the one
that is left. -/
inductive Course (config : Config) : Option Question → List Exchange → Option Question → Prop
  | nil {q} : Course config q [] q
  | cons {e es next last} (hl : Leads config e.question e.reply next)
    (hc : Course config next es last) : Course config (some e.question) (e :: es) last

/-- The exchange leads to the question of the other one. -/
def Exchange.LeadsTo (config : Config) (e e' : Exchange) : Prop :=
  Leads config e.question e.reply (some e'.question)

/-- Exchanges of which each one but the last leads to the question of the next, from a first
question on. -/
structure InTurn (config : Config) (first : Option Question) (es : List Exchange) : Prop where
  first_eq : ∀ e ∈ es.head?, first = some e.question
  chain : es.IsChain (Exchange.LeadsTo config)

section
variable {config : Config} {first next last : Option Question} {q q' : Question}
  {e e' : Exchange} {es es' : List Exchange} {r : Reply}

/-! ## Order -/

/-- Behind the edits only the staged changes are asked for, if at all. -/
theorem eq_of_afterEdits (h : afterEdits config = some q) :
    q = .staged ∧ config.includeStaged = true := by
  rw [afterEdits] at h
  split at h
  · next hs => exact ⟨(Option.some.inj h).symm, hs⟩
  · cases h

/-- Behind the commits the edits are asked for or, if they do not count, the staged changes. -/
theorem cases_afterCommits (h : afterCommits config = some q) :
    q = .edits ∧ config.includeUncommitted = true ∨ q = .staged ∧ config.includeStaged = true := by
  rw [afterCommits] at h
  split at h
  · next hu => exact .inl ⟨(Option.some.inj h).symm, hu⟩
  · exact .inr (eq_of_afterEdits h)

/-- A reply leads to a later question. -/
theorem Leads.rank_lt (h : Leads config q r (some q')) : q.rank < q'.rank := by
  generalize hn : some q' = next at h
  cases h with
  | noHead | commitsListed =>
    rcases cases_afterCommits hn.symm with ⟨rfl, -⟩ | ⟨rfl, -⟩ <;> simp [Question.rank]
  | editsListed =>
    obtain ⟨rfl, -⟩ := eq_of_afterEdits hn.symm
    simp [Question.rank]
  | stagedListed => cases hn
  | insideWorkTree | someHead | someBase | noBase | someRemoteBase =>
    cases hn
    simp [Question.rank]

/-- The questions keep their order, and none is asked twice. -/
theorem InTurn.pairwise (h : InTurn config first es) :
    es.Pairwise fun e e' => e.question.rank < e'.question.rank := by
  have : Trans (fun e e' : Exchange => e.question.rank < e'.question.rank)
      (fun e e' : Exchange => e.question.rank < e'.question.rank)
      (fun e e' : Exchange => e.question.rank < e'.question.rank) := ⟨Nat.lt_trans⟩
  exact (h.chain.imp fun _ _ hl => Leads.rank_lt hl).pairwise

/-- An exchange is known from its question. -/
theorem InTurn.eq_of_question (h : InTurn config first es) (he : e ∈ es) (he' : e' ∈ es)
    (hq : e.question = e'.question) : e = e' := by
  by_contra hne
  have : Std.Symm fun e e' : Exchange => e.question.rank ≠ e'.question.rank :=
    ⟨fun _ _ => Ne.symm⟩
  have hranks := h.pairwise.imp fun hlt => Nat.ne_of_lt hlt
  exact hranks.forall he he' hne (congrArg _ hq)

/-- Every question but the first one is one that the reply to another one leads to. -/
theorem InTurn.exists_leadsTo (h : InTurn config first es) (he : e ∈ es)
    (hf : first ≠ some e.question) : ∃ e' ∈ es, e'.LeadsTo config e := by
  obtain ⟨front, back, rfl⟩ := List.append_of_mem he
  rcases front.eq_nil_or_concat with rfl | ⟨front, e', rfl⟩
  · exact absurd (h.first_eq e rfl) hf
  · have hchain := h.chain
    rw [List.concat_eq_append, List.append_assoc, List.singleton_append,
      List.isChain_append_cons_cons] at hchain
    exact ⟨e', by simp, hchain.2.1⟩

/-! ## Courses -/

/-- A course goes on where the one in front of it ends. -/
theorem Course.append (h : Course config first es next) (h' : Course config next es' last) :
    Course config first (es ++ es') last := by
  induction h with
  | nil => exact h'
  | cons hl _ ih => exact .cons hl (ih h')

/-- What comes in turn behind a course comes in turn with it. -/
theorem Course.inTurn_append (h : Course config first es next) (h' : InTurn config next es') :
    InTurn config first (es ++ es') := by
  induction h with
  | nil => exact h'
  | @cons e es next last hl hc ih =>
    have hbehind := ih h'
    refine ⟨fun e' he => ?_, List.isChain_cons.2 ⟨fun e' he => ?_, hbehind.chain⟩⟩
    · obtain rfl := Option.some.inj he
      rfl
    · have hnext := hbehind.first_eq e' he
      rw [Exchange.LeadsTo, ← hnext]
      exact hl

/-- The exchanges of a course come in turn. -/
theorem Course.inTurn (h : Course config first es last) : InTurn config first es :=
  List.append_nil es ▸ h.inTurn_append ⟨nofun, .nil⟩

/-- The exchange that a course leads to comes in turn behind it. -/
theorem Course.inTurn_concat (h : Course config first es (some e.question)) :
    InTurn config first (es ++ [e]) :=
  h.inTurn_append ⟨fun _ he => congrArg _ (congrArg _ (Option.some.inj he)), .singleton e⟩

/-! ## What is asked and when -/

/-- What is asked in turn, from the question for the working tree on. -/
structure InOrder (config : Config) (es : List Exchange) : Prop where
  pairwise : es.Pairwise fun e e' => e.question.rank < e'.question.rank
  /-- Without a commit of the head nothing is asked about the base. -/
  noHead : ∀ h ∈ es, h.question = .head → h.reply.commit? = none →
    ∀ e ∈ es, e.question.isAboutBase = false
  /-- A remote branch is looked for only if there is no commit of the reference as it is given. -/
  remoteBase : ∀ e ∈ es, e.question = .remoteBase →
    ∃ b ∈ es, b.question = .base ∧ b.reply.commit? = none
  /-- The commits are those since the commit that has been found. -/
  commits : ∀ e ∈ es, ∀ since, e.question = .commits since →
    ∃ b ∈ es, (b.question = .base ∨ b.question = .remoteBase) ∧ b.reply.commit? = some since
  edits : ∀ e ∈ es, e.question = .edits → config.includeUncommitted = true
  staged : ∀ e ∈ es, e.question = .staged → config.includeStaged = true

/-- What is asked in a course that is finished. -/
structure AsksAll (config : Config) (es : List Exchange) : Prop where
  workTree : ∃ e ∈ es, e.question = .workTree
  head : ∃ e ∈ es, e.question = .head
  commits_iff : (∃ e ∈ es, ∃ since, e.question = .commits since) ↔
    ∃ h ∈ es, h.question = .head ∧ h.reply.commit? ≠ none
  edits_iff : (∃ e ∈ es, e.question = .edits) ↔ config.includeUncommitted = true
  staged_iff : (∃ e ∈ es, e.question = .staged) ↔ config.includeStaged = true

/-- What holds of a question and its reply where the next question is asked. -/
def IsDue (config : Config) (q : Question) (r : Reply) : Question → Prop
  | .workTree => False
  | .head => q = .workTree
  | .base => q = .head ∧ r.commit? ≠ none
  | .remoteBase => q = .base ∧ r.commit? = none
  | .commits since => (q = .base ∨ q = .remoteBase) ∧ r.commit? = some since
  | .edits => config.includeUncommitted = true
  | .staged => config.includeStaged = true

/-- A question is asked only where it is due. -/
theorem Leads.isDue (h : Leads config q r (some q')) : IsDue config q r q' := by
  generalize hn : some q' = next at h
  cases h with
  | noHead | commitsListed =>
    rcases cases_afterCommits hn.symm with ⟨rfl, hw⟩ | ⟨rfl, hw⟩ <;> exact hw
  | editsListed =>
    obtain ⟨rfl, hs⟩ := eq_of_afterEdits hn.symm
    exact hs
  | stagedListed => cases hn
  | insideWorkTree =>
    cases hn
    rfl
  | someHead hc =>
    cases hn
    exact ⟨rfl, by simp [hc]⟩
  | someBase hc =>
    cases hn
    exact ⟨.inl rfl, hc⟩
  | noBase hc =>
    cases hn
    exact ⟨rfl, hc⟩
  | someRemoteBase hc =>
    cases hn
    exact ⟨.inr rfl, hc⟩

/-- Every question behind the first one is due. -/
theorem InTurn.exists_isDue (h : InTurn config (some .workTree) es) (he : e ∈ es)
    (hq : e.question = q) (hw : q ≠ .workTree) :
    ∃ e' ∈ es, IsDue config e'.question e'.reply q := by
  obtain ⟨e', he', hl⟩ := h.exists_leadsTo he fun hf => hw (hq.symm.trans (Option.some.inj hf).symm)
  exact ⟨e', he', hq ▸ hl.isDue⟩

/-- What is asked about the base is asked for a commit of the head. -/
theorem InTurn.exists_head (h : InTurn config (some .workTree) es) (he : e ∈ es)
    (hb : e.question.isAboutBase = true) :
    ∃ h ∈ es, h.question = .head ∧ h.reply.commit? ≠ none := by
  have hbase : ∀ e ∈ es, e.question = .base →
      ∃ h ∈ es, h.question = .head ∧ h.reply.commit? ≠ none :=
    fun e he hq => h.exists_isDue he hq nofun
  have hremote : ∀ e ∈ es, e.question = .remoteBase →
      ∃ h ∈ es, h.question = .head ∧ h.reply.commit? ≠ none := by
    intro e he hq
    obtain ⟨b, hb, hq, -⟩ := h.exists_isDue he hq nofun
    exact hbase b hb hq
  cases hq : e.question with
  | base => exact hbase e he hq
  | remoteBase => exact hremote e he hq
  | commits since =>
    obtain ⟨b, hb, hq | hq, -⟩ := h.exists_isDue he hq nofun
    · exact hbase b hb hq
    · exact hremote b hb hq
  | workTree | head | edits | staged => simp [hq, Question.isAboutBase] at hb

/-- What is asked in turn is asked in order. -/
theorem InTurn.inOrder (h : InTurn config (some .workTree) es) : InOrder config es where
  pairwise := h.pairwise
  noHead := by
    intro e₀ he₀ hq₀ hno e he
    rw [← Bool.not_eq_true]
    intro hb
    obtain ⟨e', he', hq', hsome⟩ := h.exists_head he hb
    rw [h.eq_of_question he' he₀ (hq'.trans hq₀.symm)] at hsome
    exact hsome hno
  remoteBase := fun _ he hq => h.exists_isDue he hq nofun
  commits := fun _ he _ hq => h.exists_isDue he hq nofun
  edits := by
    intro e he hq
    obtain ⟨_, -, hu⟩ := h.exists_isDue he hq nofun
    exact hu
  staged := by
    intro e he hq
    obtain ⟨_, -, hs⟩ := h.exists_isDue he hq nofun
    exact hs

/-! ## Finished courses -/

/-- A finished course that begins at a question asks it. -/
theorem Course.exists_first (h : Course config (some q) es none) : ∃ e ∈ es, e.question = q := by
  cases h with
  | @cons e => exact ⟨e, List.mem_cons_self, rfl⟩

/-- In a course that is finished each reply has led on. -/
theorem Course.exists_next (h : Course config first es none) (he : e ∈ es)
    (hq : e.question = q) :
    ∃ next, Leads config q e.reply next ∧ ∀ q', next = some q' → ∃ e' ∈ es, e'.question = q' := by
  generalize hlast : none = last at h
  induction h with
  | nil => cases he
  | @cons e₀ es next last hl hc ih =>
    rcases List.mem_cons.1 he with rfl | he
    · refine ⟨next, hq ▸ hl, ?_⟩
      rintro q' rfl
      subst hlast
      obtain ⟨e', he', hq'⟩ := hc.exists_first
      exact ⟨e', List.mem_cons_of_mem _ he', hq'⟩
    · obtain ⟨next', hl', hnext⟩ := ih he hlast
      refine ⟨next', hl', fun q' hn => ?_⟩
      obtain ⟨e', he', hq'⟩ := hnext q' hn
      exact ⟨e', List.mem_cons_of_mem _ he', hq'⟩

/-- A course that is finished and has asked for the base has asked for the commits since it. -/
theorem Course.exists_commits (h : Course config first es none) (he : e ∈ es)
    (hq : e.question = .base) : ∃ c ∈ es, ∃ since, c.question = .commits since := by
  obtain ⟨_, hl, hnext⟩ := h.exists_next he hq
  cases hl with
  | someBase hc =>
    obtain ⟨c, hc, hqc⟩ := hnext _ rfl
    exact ⟨c, hc, _, hqc⟩
  | noBase =>
    obtain ⟨m, hm, hqm⟩ := hnext _ rfl
    obtain ⟨_, hl, hnext⟩ := h.exists_next hm hqm
    cases hl with
    | someRemoteBase =>
      obtain ⟨c, hc, hqc⟩ := hnext _ rfl
      exact ⟨c, hc, _, hqc⟩

/-- A course that is finished has asked for the head, for the commits if there is a head, and for
what is next. -/
theorem Course.exists_head (h : Course config first es none) (he : e ∈ es)
    (hq : e.question = .workTree) :
    ∃ e ∈ es, e.question = .head ∧
      (e.reply.commit? ≠ none → ∃ c ∈ es, ∃ since, c.question = .commits since) ∧
      ∀ q, afterCommits config = some q → ∃ e' ∈ es, e'.question = q := by
  obtain ⟨_, hl, hnext⟩ := h.exists_next he hq
  cases hl with
  | insideWorkTree =>
    obtain ⟨e₁, he₁, hq₁⟩ := hnext _ rfl
    refine ⟨e₁, he₁, hq₁, ?_⟩
    obtain ⟨_, hl, hnext⟩ := h.exists_next he₁ hq₁
    cases hl with
    | noHead hno => exact ⟨fun hsome => absurd hno hsome, hnext⟩
    | someHead =>
      obtain ⟨b, hb, hqb⟩ := hnext _ rfl
      obtain ⟨c, hc, since, hqc⟩ := h.exists_commits hb hqb
      refine ⟨fun _ => ⟨c, hc, since, hqc⟩, ?_⟩
      obtain ⟨_, hl, hnext⟩ := h.exists_next hc hqc
      cases hl with
      | commitsListed => exact hnext

/-- A course that is finished has asked for all that is wanted. -/
theorem Course.asksAll (h : Course config (some .workTree) es none) : AsksAll config es := by
  have horder := h.inTurn.inOrder
  obtain ⟨w, hw, hqw⟩ := h.exists_first
  obtain ⟨e₀, he₀, hq₀, hcommits, hafter⟩ := h.exists_head hw hqw
  refine ⟨⟨w, hw, hqw⟩, ⟨e₀, he₀, hq₀⟩, ⟨?_, ?_⟩, ⟨?_, ?_⟩, ⟨?_, ?_⟩⟩
  · rintro ⟨c, hc, since, hqc⟩
    exact h.inTurn.exists_head hc (by rw [hqc]; rfl)
  · rintro ⟨e, he, hq, hsome⟩
    obtain rfl := h.inTurn.eq_of_question he he₀ (hq.trans hq₀.symm)
    exact hcommits hsome
  · rintro ⟨e, he, hq⟩
    exact horder.edits e he hq
  · intro hu
    exact hafter _ (if_pos hu)
  · rintro ⟨e, he, hq⟩
    exact horder.staged e he hq
  · intro hs
    by_cases hu : config.includeUncommitted = true
    · obtain ⟨e, he, hq⟩ := hafter _ (if_pos hu)
      obtain ⟨_, hl, hnext⟩ := h.exists_next he hq
      cases hl with
      | editsListed => exact hnext _ (if_pos hs)
    · exact hafter _ ((if_neg hu).trans (if_pos hs))

end

end TestImpact.Changes
