import Ikkat.Shared.Quorum
import Ikkat.Commits
import Ikkat.Election

set_option autoImplicit false

namespace Ikkat

namespace Server

def ackers (majority : Nat) : Nat → List (String × Bool) → List String
  | _, [] => []
  | count, (peer, ok) :: rest =>
      if count < majority then
        if ok then peer :: ackers majority (count + 1) rest else ackers majority count rest
      else []

theorem ackCount_ackers (majority count : Nat) (answers : List (String × Bool)) :
    ackCount majority count answers = count + (ackers majority count answers).length := by
  induction answers generalizing count with
  | nil => rfl
  | cons answer rest ih =>
    unfold ackCount ackers
    split_ifs with more success
    · rw [ih, List.length_cons]
      omega
    · exact ih count
    · rfl

theorem ackCount_le {majority : Nat} (count : Nat) (answers : List (String × Bool)) (below : count ≤ majority) :
    ackCount majority count answers ≤ majority := by
  induction answers generalizing count with
  | nil => exact below
  | cons answer rest ih =>
    unfold ackCount
    split_ifs with more
    · exact ih _ more
    · exact ih _ below
    · exact below

theorem ackers_sublist (majority count : Nat) (answers : List (String × Bool)) :
    (ackers majority count answers).Sublist (answers.map Prod.fst) := by
  induction answers generalizing count with
  | nil => exact List.Sublist.slnil
  | cons answer rest ih =>
    obtain ⟨peer, ok⟩ := answer
    unfold ackers
    split_ifs
    · exact (ih (count + 1)).cons_cons peer
    · exact (ih count).cons peer
    · exact List.nil_sublist _

def members (s : Server) : Finset String := s.servers.keys.toFinset

theorem members_card (s : Server) : s.members.card = s.servers.entries.length := by
  rw [members, List.toFinset_card_of_nodup s.servers.keys_nodup]
  simp [AList.keys, List.keys]

-- One answer from every peer at most: each goroutine of the loop over `s.servers` sends one.
def ValidAnswers (s : Server) (answers : List (String × Bool)) : Prop :=
  (answers.map Prod.fst).Nodup ∧ ∀ peer ∈ answers.map Prod.fst, peer ∈ s.members ∧ peer ≠ s.id

instance (s : Server) (answers : List (String × Bool)) : Decidable (s.ValidAnswers answers) :=
  inferInstanceAs (Decidable (_ ∧ _))

theorem commitIndex_unless_replicated [LogCodec] {kind : Kind} {env : Env} {s next : Server}
    {req : DataRequest} {answer : Except Status Response} {sent : List AppendEntriesRequest}
    (handled : s.handleCall kind env req = .returned next answer sent)
    (advanced : s.commitIndex < next.commitIndex) : s.Replicated env kind := by
  rcases handleCall_cases handled with
    ⟨table, rfl⟩ | ⟨opened, call, begun, clean, rfl⟩ | ⟨ready, call, enters, rfl⟩
  · exact absurd advanced (Nat.lt_irrefl _)
  · obtain ⟨_, _, _, _, _, _, _, rfl⟩ := beginCall_opened kind env.start s opened req call begun
    obtain ⟨_, _, _, _, same⟩ := finishCall_eq env { s with table := _ } call
    rw [same] at advanced
    exact absurd advanced (Nat.lt_irrefl _)
  · obtain ⟨found, client, table, _, _, _, _, _, rfl, rfl⟩ := enters_eq kind env s ready req call enters
    obtain ⟨logFile, _, ⟨_, same, failed⟩ | ⟨replicated, _⟩⟩ := commitCall_cases env { s with table := table }
      ⟨kind, req, found.filename, client.mode⟩
    · obtain ⟨_, released⟩ := releaseWrite_eq
        (commitCall env { s with table := table } ⟨kind, req, found.filename, client.mode⟩).1
        (Call.name ⟨kind, req, found.filename, client.mode⟩)
      rw [if_neg failed, released, same] at advanced
      exact absurd advanced (Nat.lt_irrefl _)
    · exact replicated

end Server

structure Commit [LogCodec] where
  kind : Kind
  env : Env
  before : Server
  after : Server
  req : DataRequest
  answer : Except Status Response
  sent : List AppendEntriesRequest
  configured : before.id ∈ before.members
  answered : before.ValidAnswers env.answers
  handled : before.handleCall kind env req = .returned after answer sent
  advanced : before.commitIndex < after.commitIndex

namespace Commit

variable [LogCodec]

def quorum (commit : Commit) : Finset String :=
  (commit.before.id :: Server.ackers (commit.before.majority commit.kind) 1 commit.env.answers).toFinset

def Counted (commit : Commit) : Prop :=
  commit.kind = .close ∨ commit.before.members.card / 2 ≤ commit.before.alive / 2

theorem quorum_nodup (commit : Commit) :
    (commit.before.id :: Server.ackers (commit.before.majority commit.kind) 1 commit.env.answers).Nodup := by
  have answering := Server.ackers_sublist (commit.before.majority commit.kind) 1 commit.env.answers
  refine List.nodup_cons.mpr ⟨fun own => ?_, answering.nodup commit.answered.1⟩
  exact (commit.answered.2 _ (answering.subset own)).2 rfl

theorem quorum_card (commit : Commit) : commit.quorum.card = commit.before.majority commit.kind := by
  have replicated := Server.commitIndex_unless_replicated
     commit.handled commit.advanced
  have positive : 1 ≤ commit.before.majority commit.kind := by
    unfold Server.majority
    split <;> omega
  have least := replicated.2
  have most := Server.ackCount_le 1 commit.env.answers positive
  rw [Server.ackCount_ackers] at least most
  rw [quorum, List.toFinset_card_of_nodup commit.quorum_nodup, List.length_cons]
  omega

theorem quorum_subset (commit : Commit) : commit.quorum ⊆ commit.before.members := by
  intro node member
  rw [quorum, List.mem_toFinset, List.mem_cons] at member
  rcases member with rfl | acked
  · exact commit.configured
  · exact (commit.answered.2 node ((Server.ackers_sublist _ _ _).subset acked)).1

theorem majority_iff_counted (commit : Commit) :
    Quorum.Majority commit.before.members commit.quorum ↔ commit.Counted := by
  have size := commit.before.members_card
  unfold Quorum.Majority Counted
  rw [commit.quorum_card, size]
  unfold Server.majority
  cases commit.kind with
  | close => simp [commit.quorum_subset]
  | write =>
    simp only [commit.quorum_subset, true_and, reduceCtorEq, false_or]
    omega

end Commit

theorem commit_quorums_meet_iff [LogCodec] (first : Commit) :
    (Quorum.Majority first.before.members first.quorum ↔ first.Counted) ∧
      ∀ second : Commit, second.before.members = first.before.members → first.Counted → second.Counted →
        (first.quorum ∩ second.quorum).Nonempty := by
  refine ⟨first.majority_iff_counted, fun second same one two => ?_⟩
  apply Quorum.majorities_meet first.before.members
  · exact first.majority_iff_counted.mpr one
  · exact same ▸ second.majority_iff_counted.mpr two

theorem exists_commit [LogCodec] (kind : Kind) (env : Env) (s : Server) (req : DataRequest)
    (configured : s.id ∈ s.members) (answered : s.ValidAnswers env.answers)
    (advanced : ∃ after answer sent, s.handleCall kind env req = .returned after answer sent ∧
      s.commitIndex < after.commitIndex) :
    ∃ commit : Commit, commit.kind = kind ∧ commit.env = env ∧ commit.before = s := by
  obtain ⟨after, answer, sent, handled, moved⟩ := advanced
  exact ⟨⟨kind, env, s, after, req, answer, sent, configured, answered, handled, moved⟩, rfl, rfl, rfl⟩

def twoRequest : DataRequest := ⟨"r2", 0, true, 0, [50, 10], "c"⟩

theorem close_quorum_is_majority :
    ∃ first second : Commit, first.before = firstOpened ∧ second.before = firstOpened ∧ first.quorum = {"1", "2"} ∧
      second.quorum = {"1", "3"} ∧ first.Counted ∧ second.Counted ∧
      Quorum.Majority first.before.members first.quorum ∧ (first.quorum ∩ second.quorum).Nonempty := by
  obtain ⟨first, close, env, before⟩ := exists_commit .close { answers := [("2", true), ("3", false)] }
    firstOpened twoRequest (by decide +kernel) (by decide +kernel) ⟨_, _, _, rfl, by decide +kernel⟩
  obtain ⟨second, kind, answers, same⟩ := exists_commit .close { answers := [("2", false), ("3", true)] }
    firstOpened twoRequest (by decide +kernel) (by decide +kernel) ⟨_, _, _, rfl, by decide +kernel⟩
  have one : first.quorum = {"1", "2"} := by
    rw [Commit.quorum, close, env, before]
    decide +kernel
  have other : second.quorum = {"1", "3"} := by
    rw [Commit.quorum, kind, answers, same]
    decide +kernel
  exact ⟨first, second, before, same, one, other, .inl close, .inl kind,
    (commit_quorums_meet_iff first).1.mpr (.inl close),
    (commit_quorums_meet_iff first).2 second (by rw [same, before]) (.inl close) (.inl kind)⟩

-- Only its own entry is alive in the view of a server that has just started, so Write takes itself
-- for a majority of the three and commits without a single answer.
theorem write_commits_alone :
    ∃ commit : Commit, commit.kind = .write ∧ commit.before = firstOpened ∧
      commit.before.members.card = 3 ∧ commit.quorum = {"1"} ∧
      ¬ Quorum.Majority commit.before.members commit.quorum := by
  obtain ⟨commit, kind, env, before⟩ := exists_commit .write {} firstOpened twoRequest
    (by decide +kernel) (by decide +kernel) ⟨_, _, _, rfl, by decide +kernel⟩
  have size : commit.before.members.card = 3 := by
    rw [before]
    decide +kernel
  have alone : commit.quorum = {"1"} := by
    unfold Commit.quorum
    rw [before, kind, env]
    decide +kernel
  refine ⟨commit, kind, before, size, alone, fun large => ?_⟩
  have enough := large.2
  rw [size, alone, Finset.card_singleton] at enough
  omega

end Ikkat
