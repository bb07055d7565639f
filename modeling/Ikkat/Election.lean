import Ikkat.Shared.Run
import Ikkat.Codec
import Ikkat.Requests

set_option autoImplicit false

namespace Ikkat

structure Heartbeat where
  primaryId : String
  timestamp : Time
  deriving DecidableEq, Repr

structure LeaderResponse where
  leaderId : String
  address : String
  deriving DecidableEq, Repr

def electPrimary (infos : List ServerInfo) : String :=
  infos.foldl
    (fun leader info => if !info.alive then leader else if leader = "" ∨ info.id < leader then info.id else leader)
    ""

namespace Server

def infos (s : Server) : List ServerInfo :=
  s.servers.entries.map fun item => item.2

def markAlive (s : Server) (req : Heartbeat) : Server :=
  match s.servers.lookup req.primaryId with
  | none =>
      { s with servers := s.servers.insert req.primaryId
                 { id := req.primaryId, address := "", timestamp := req.timestamp, alive := true } }
  | some info => { s with servers := s.servers.insert req.primaryId { info with alive := true } }

-- The handler; only the view of the leader changes, never the role.
def sendHeartbeat (now : Time) (s : Server) (req : Heartbeat) : Server × Bool :=
  let s := s.markAlive req
  if s.primaryID ≠ "" ∧ s.primaryID < req.primaryId then (s, false)
  else ({ s with primaryID := req.primaryId, lastHeartbeat := now }, true)

def heartbeatReply (s : Server) (success : Bool) : Server :=
  if success then s else { s with role := .backup }

def markDead (s : Server) (id : String) : Server :=
  match s.servers.lookup id with
  | none => s
  | some info => { s with servers := s.servers.insert id { info with alive := false } }

def elect (s : Server) : Server :=
  let newLeader := electPrimary s.infos
  { s with primaryID := newLeader, role := if s.id = newLeader then .primary else .backup }

-- One round; a server that elects itself also starts rebuildAllPrimeSets on its own goroutine.
def monitorPrimary (now : Time) (s : Server) : Server :=
  if s.id = s.primaryID then s
  else if now - s.lastHeartbeat > primaryFailedTimeout then (s.markDead s.primaryID).elect
  else s

def makeDirs (s : Server) : Server :=
  let made := (s.tree.mkdirAll (s.path "input")).getD s.tree
  { s with tree := (made.mkdirAll (s.path "output")).getD made }

def ownInfo (s : Server) (now : Time) (port : String) : ServerInfo where
  id := s.id
  address := "localhost:" ++ port
  timestamp := now / second
  alive := true

def startServer [LogCodec] (io : Nat → ApplyIO) (now : Time) (port : String) (s : Server) : Server :=
  let s := { s with servers := s.servers.insert s.id (s.ownInfo now port) }
  let s := (s.recoverFromLog io).1
  s.elect.makeDirs

def getLeader (s : Server) : Except Status LeaderResponse :=
  if s.primaryID = "" then .error ⟨.unavailable, "no leader elected yet"⟩
  else
    match s.servers.lookup s.primaryID with
    | none => .error ⟨.internal, "leader info missing"⟩
    | some leader => .ok ⟨s.primaryID, leader.address⟩

end Server

-- The map every main of the repository hands to NewServer, and a server over an empty disk.
def mainServers : Map String ServerInfo :=
  ((∅ : Map String ServerInfo).insert "3" ⟨"3", "localhost:5003", 0, false⟩ |>.insert "2"
    ⟨"2", "localhost:5002", 0, false⟩).insert "1" ⟨"1", "localhost:5001", 0, false⟩

def blankServer (id : String) : Server := newServer id "storage" mainServers .empty []

def firstPrimary : Server := (blankServer "1").startServer (fun _ => .ok) 0 "5001"

def freshBackup : Server := (blankServer "2").startServer (fun _ => .ok) 0 "5002"

def firstOpened : Server :=
  match firstPrimary.create {} ⟨"r1", "output/a", "c", .write⟩ with
  | .returned s _ _ => s
  | _ => firstPrimary

structure Beating where
  server : Server
  awaiting : Nat

inductive BeatAction where
  | beat (now : Time) (req : Heartbeat)
  | round
  | reply (success : Bool)
  | lost
  | monitor (now : Time)

def Server.peers (s : Server) : List ServerInfo :=
  s.infos.filter fun info => info.id ≠ s.id

def beatStep (b : Beating) : BeatAction → Option Beating
  | .beat now req => some { b with server := (b.server.sendHeartbeat now req).1 }
  | .round =>
      if b.awaiting = 0 ∧ b.server.id = b.server.primaryID then
        some { b with awaiting := b.server.peers.length }
      else none
  | .reply success =>
      if 0 < b.awaiting then some ⟨b.server.heartbeatReply success, b.awaiting - 1⟩ else none
  | .lost => if 0 < b.awaiting then some { b with awaiting := b.awaiting - 1 } else none
  | .monitor now => some { b with server := b.server.monitorPrimary now }

namespace Server

def Agrees (s : Server) : Prop := s.role = .primary ↔ s.primaryID = s.id

instance (s : Server) : Decidable s.Agrees := inferInstanceAs (Decidable (_ ↔ _))

def AcceptsOwn (s : Server) : Prop :=
  s.notLeader = none ↔ ∃ address, s.getLeader = .ok ⟨s.id, address⟩

def Known (s : Server) : Prop := s.id ≠ "" ∧ ∃ info, s.servers.lookup s.id = some info

variable (s : Server) (io : Nat → ApplyIO) (now : Time) (port : String) (fresh : Server)

theorem notLeader_eq_none : s.notLeader = none ↔ s.role = .primary := by
  unfold notLeader
  split_ifs with primary
  · simp [primary]
  · simp [primary]
  · split <;> simp [primary]

theorem getLeader_own {s : Server} (known : s.Known) :
    (∃ address, s.getLeader = .ok ⟨s.id, address⟩) ↔ s.primaryID = s.id := by
  obtain ⟨named, info, present⟩ := known
  unfold getLeader
  constructor
  · rintro ⟨address, answer⟩
    split_ifs at answer
    split at answer
    · cases answer
    · simp only [Except.ok.injEq, LeaderResponse.mk.injEq] at answer
      exact answer.1
  · intro own
    rw [own, if_neg named, present]
    exact ⟨_, rfl⟩

theorem acceptsOwn_iff (known : s.Known) : s.AcceptsOwn ↔ s.Agrees := by
  unfold AcceptsOwn Agrees
  rw [notLeader_eq_none, getLeader_own known]

theorem lookup_insert_some {Value : Type} {servers : Map String Value} (key : String) {id : String} (value : Value) {info : Value}
    (present : servers.lookup id = some info) : ∃ info, (servers.insert key value).lookup id = some info := by
  by_cases same : id = key
  · exact ⟨value, by rw [same, AList.lookup_insert]⟩
  · exact ⟨info, by rw [AList.lookup_insert_ne same, present]⟩

theorem markAlive_eq (req : Heartbeat) :
    ∃ info, s.markAlive req = { s with servers := s.servers.insert req.primaryId info } := by
  unfold markAlive
  split <;> exact ⟨_, rfl⟩

theorem sendHeartbeat_cases (s : Server) (req : Heartbeat) :
    ∃ info, let marked := { s with servers := s.servers.insert req.primaryId info }
      (s.primaryID ≠ "" ∧ s.primaryID < req.primaryId ∧ s.sendHeartbeat now req = (marked, false)) ∨
      (¬ (s.primaryID ≠ "" ∧ s.primaryID < req.primaryId) ∧ s.sendHeartbeat now req =
        ({ marked with primaryID := req.primaryId, lastHeartbeat := now }, true)) := by
  obtain ⟨info, same⟩ := s.markAlive_eq req
  refine ⟨info, ?_⟩
  unfold sendHeartbeat
  rw [same]
  dsimp only
  split_ifs with rejected
  · exact .inl ⟨rejected.1, rejected.2, rfl⟩
  · exact .inr ⟨rejected, rfl⟩

theorem elect_agrees : s.elect.Agrees := by
  unfold Agrees elect
  dsimp only
  split_ifs with own
  · simp [own]
  · simp [Ne.symm own]

theorem monitorPrimary_cases (s : Server) :
    s.monitorPrimary now = s ∨
      (s.id ≠ s.primaryID ∧ now - s.lastHeartbeat > primaryFailedTimeout ∧
        s.monitorPrimary now = (s.markDead s.primaryID).elect) := by
  unfold monitorPrimary
  split_ifs with own late
  · exact .inl rfl
  · exact .inr ⟨own, late, rfl⟩
  · exact .inl rfl

theorem known_elect {s : Server} (known : s.Known) : s.elect.Known := known

theorem known_markDead (known : s.Known) (id : String) : (s.markDead id).Known := by
  obtain ⟨named, info, present⟩ := known
  unfold markDead
  split
  · exact ⟨named, info, present⟩
  · exact ⟨named, lookup_insert_some _ _ present⟩

theorem known_sendHeartbeat (s : Server) (known : s.Known) (req : Heartbeat) : (s.sendHeartbeat now req).1.Known := by
  obtain ⟨named, own, present⟩ := known
  obtain ⟨info, ⟨_, _, same⟩ | ⟨_, same⟩⟩ := s.sendHeartbeat_cases now req <;> rw [same]
  · exact ⟨named, lookup_insert_some _ _ present⟩
  · exact ⟨named, lookup_insert_some _ _ present⟩

theorem startServer_eq [LogCodec] :
    ∃ commitIndex lastApplied filesPrimes, fresh.startServer io now port =
      elect
        { fresh with
          servers := fresh.servers.insert fresh.id (fresh.ownInfo now port)
          log := fresh.log ++ recorded fresh.logFile
          commitIndex := commitIndex
          lastApplied := lastApplied
          tree := (makeDirs { fresh with
            tree := applyAll io fresh.rootDir fresh.log.length (recorded fresh.logFile) fresh.tree }).tree
          filesPrimes := filesPrimes } := by
  obtain ⟨commitIndex, lastApplied, filesPrimes, same⟩ := recoverFromLog_eq io
    { fresh with servers := fresh.servers.insert fresh.id (fresh.ownInfo now port) }
  refine ⟨commitIndex, lastApplied, filesPrimes, ?_⟩
  unfold startServer
  dsimp only
  rw [same]
  rfl

theorem startServer_agrees [LogCodec] : (fresh.startServer io now port).Agrees :=
  elect_agrees _

theorem startServer_known [LogCodec] (named : fresh.id ≠ "") : (fresh.startServer io now port).Known := by
  obtain ⟨_, _, _, same⟩ := fresh.startServer_eq io now port
  rw [same]
  exact ⟨named, _, AList.lookup_insert _⟩

end Server

def Consistent (b : Beating) : BeatAction → Prop
  | .beat _ req => (b.server.primaryID ≠ "" ∧ b.server.primaryID < req.primaryId) ∨
      (b.server.role = .primary ↔ req.primaryId = b.server.id)
  | .reply success => success = true ∨ b.server.primaryID ≠ b.server.id
  | _ => True

variable {action : BeatAction}

theorem beatStep_known {b next : Beating} (known : b.server.Known)
    (stepped : beatStep b action = some next) : next.server.Known := by
  cases action with
  | beat now req =>
    cases stepped
    exact b.server.known_sendHeartbeat now known req
  | round | lost =>
    simp only [beatStep, Option.ite_none_right_eq_some, Option.some.injEq] at stepped
    exact stepped.2 ▸ known
  | reply success =>
    simp only [beatStep, Option.ite_none_right_eq_some, Option.some.injEq] at stepped
    rw [← stepped.2]
    unfold Server.heartbeatReply
    split_ifs <;> exact known
  | monitor now =>
    cases stepped
    rcases b.server.monitorPrimary_cases now with same | ⟨_, _, same⟩
    · exact same.symm ▸ known
    · exact same.symm ▸ Server.known_elect (b.server.known_markDead known _)

theorem beatStep_agrees {b next : Beating} (agrees : b.server.Agrees)
    (stepped : beatStep b action = some next) : next.server.Agrees ↔ Consistent b action := by
  cases action with
  | beat now req =>
    cases stepped
    obtain ⟨info, ⟨some_leader, weaker, same⟩ | ⟨accepted, same⟩⟩ := b.server.sendHeartbeat_cases now req
    · simp only [same, Consistent, some_leader, weaker, ne_eq, not_false_iff, and_self, true_or, iff_true]
      exact agrees
    · simp only [same, Consistent, accepted, false_or]
      rfl
  | round | lost =>
    simp only [beatStep, Option.ite_none_right_eq_some, Option.some.injEq] at stepped
    simp only [← stepped.2, Consistent, iff_true]
    exact agrees
  | reply success =>
    simp only [beatStep, Option.ite_none_right_eq_some, Option.some.injEq] at stepped
    cases success with
    | true => simpa [← stepped.2, Consistent, Server.heartbeatReply] using agrees
    | false => simp [← stepped.2, Consistent, Server.heartbeatReply, Server.Agrees]
  | monitor now =>
    cases stepped
    simp only [Consistent, iff_true]
    rcases b.server.monitorPrimary_cases now with same | ⟨_, _, same⟩
    · exact same.symm ▸ agrees
    · exact same.symm ▸ Server.elect_agrees _

theorem role_matches_leader_iff [LogCodec] (io : Nat → ApplyIO) (now : Time) (port : String) (fresh : Server)
    (named : fresh.id ≠ "") (actions : List BeatAction) (final : Beating)
    (reached : Transition.run beatStep ⟨fresh.startServer io now port, 0⟩ actions = some final) :
    Transition.Everywhere beatStep (fun b => b.server.Agrees ∧ b.server.AcceptsOwn)
        ⟨fresh.startServer io now port, 0⟩ actions ↔
      Transition.Meets beatStep Consistent ⟨fresh.startServer io now port, 0⟩ actions := by
  have both (s : Server) (known : s.Known) : s.Agrees ∧ s.AcceptsOwn ↔ s.Agrees := by
    rw [s.acceptsOwn_iff known, and_self]
  have known := fresh.startServer_known io now port named
  refine Transition.everywhere_iff_meets Consistent (fun b => b.server.Known) ?_ ?_ _ known
    ((both _ known).mpr (fresh.startServer_agrees io now port)) actions reached
  · intro b action next isKnown _ _ stepped
    exact beatStep_known isKnown stepped
  · intro b action next isKnown agrees stepped
    rw [both next.server (beatStep_known isKnown stepped)]
    exact beatStep_agrees agrees.1 stepped

def firstBeats : List BeatAction := [.beat 0 ⟨"2", 0⟩, .round, .reply true, .monitor (9 * second)]

theorem role_matches_leader_first_server :
    ∃ final, Transition.run beatStep ⟨(blankServer "1").startServer (fun _ => .ok) 0 "5001", 0⟩ firstBeats = some final ∧
      Transition.Meets beatStep Consistent ⟨(blankServer "1").startServer (fun _ => .ok) 0 "5001", 0⟩ firstBeats ∧
      Transition.Everywhere beatStep (fun b => b.server.Agrees ∧ b.server.AcceptsOwn)
        ⟨(blankServer "1").startServer (fun _ => .ok) 0 "5001", 0⟩ firstBeats := by
  have consistent : Transition.Meets beatStep Consistent ⟨(blankServer "1").startServer (fun _ => .ok) 0 "5001", 0⟩
      firstBeats :=
    ⟨.inl (by decide +kernel), fun _ _ => ⟨trivial, fun _ _ => ⟨.inl rfl, fun _ _ => ⟨trivial, fun _ _ => trivial⟩⟩⟩⟩
  exact ⟨_, rfl, consistent,
    (role_matches_leader_iff (fun _ => .ok) 0 "5001" (blankServer "1") (by decide) _ _ rfl).mpr consistent⟩

-- Server 2 starts as its own primary and accepts the heartbeat of server 1: it follows 1 and keeps
-- taking writes.
theorem heartbeat_keeps_role :
    ∃ final, Transition.run beatStep ⟨(blankServer "2").startServer (fun _ => .ok) 0 "5002", 0⟩
        [.beat 0 ⟨"1", 0⟩] = some final ∧
      final.server.id = "2" ∧ final.server.primaryID = "1" ∧ final.server.role = .primary ∧
      ¬ final.server.Agrees :=
  ⟨_, rfl, by decide, by decide, by decide, by decide⟩

end Ikkat
