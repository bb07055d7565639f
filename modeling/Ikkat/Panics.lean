import Ikkat.Completion

set_option autoImplicit false

namespace Ikkat

open Threads (alone)

def Result.panics : Result → Bool
  | .panicked _ => true
  | .returned _ _ _ | .blocked => false

theorem Result.panics_eq {result : Result} (ends : result ≠ .blocked) : result.panics = !result.returns := by
  cases result <;> first | rfl | exact absurd rfl ends

namespace Server

-- What the cache and the table must look like for the type assertions and the broadcast of a request. Close takes
-- a response of another type for none.
def Answerable (env : Env) (s : Server) (rpc : Rpc) : Prop :=
  s.role = .primary →
    match s.cached rpc.requestId env.start, rpc with
    | some _, .close _ => True
    | some response, rpc => rpc.fits response = true
    | none, .delete req => s.Claimable req
    | none, _ => True

theorem follower_answerable (env : Env) {s : Server} (rpc : Rpc) {status : Status}
    (refused : s.notLeader = some status) : s.Answerable env rpc := by
  intro primary
  rw [(notLeader_eq_none s).mpr primary] at refused
  cases refused

section Handlers

variable (env : Env) (s : Server)

theorem create_ends (idle : s.Idle) (req : CreateRequest) : s.create env req ≠ .blocked := by
  intro waits
  cases waits ▸ s.create_exit env req with
  | dismissed why => cases why
  | waiting safe _ _ held => cases (idle.canWrite safe).symm.trans held

theorem openFile_ends (idle : s.Idle) (req : FileRequest) : s.openFile env req ≠ .blocked := by
  intro waits
  cases waits ▸ s.openFile_exit env req with
  | dismissed why => cases why
  | waiting safe _ held => cases (idle.unwritten safe).symm.trans held

theorem delete_ends (req : DeleteRequest) : s.delete env req ≠ .blocked := by
  intro waits
  cases waits ▸ s.delete_exit env req with
  | dismissed why => cases why

theorem uncached_panics [LogCodec] (kind : Kind) (req : DataRequest) (leads : s.notLeader = none)
    (uncached : s.cachedCall kind req.requestId env.start = none) : (s.handleCall kind env req).panics = false := by
  unfold handleCall beginCall
  rw [leads, uncached]
  cases s.files.lookup req.fd with
  | none => rfl
  | some found =>
    dsimp only
    cases found.clients.lookup req.clientID with
    | none => rfl
    | some client =>
      dsimp only
      repeat' split
      all_goals rfl

theorem handleCall_panics [LogCodec] (kind : Kind) (req : DataRequest) :
    (s.handleCall kind env req).panics = false ↔ s.Answerable env (kind.rpc req) := by
  cases leads : s.notLeader with
  | some status =>
    refine iff_of_true ?_ (follower_answerable env _ leads)
    rw [handleCall, beginCall, leads]
    rfl
  | none =>
    have primary := (notLeader_eq_none s).mp leads
    have looked := uncached_panics env s kind req leads
    cases kind with
    | close =>
      simp only [Answerable, primary, forall_const, Kind.rpc, Rpc.requestId]
      unfold cachedCall at looked
      cases cached : s.cached req.requestId env.start with
      | none => exact iff_of_true (looked (by rw [cached])) trivial
      | some response =>
        refine iff_of_true ?_ trivial
        cases response with
        | closed resp =>
          have hit : s.cachedCall .close req.requestId env.start = some (some (.closed resp)) := by
            unfold cachedCall
            rw [cached]
          rw [handleCall, beginCall, leads, hit]
          rfl
        | opened | written | deleted => exact looked (by rw [cached])
    | write =>
      simp only [Answerable, primary, forall_const, Kind.rpc, Rpc.requestId]
      unfold cachedCall at looked
      cases cached : s.cached req.requestId env.start with
      | none => exact iff_of_true (looked (by rw [cached])) trivial
      | some response =>
        have answered : (s.handleCall .write env req).panics = !(Rpc.write req).fits response := by
          unfold handleCall beginCall cachedCall
          rw [leads, cached]
          cases response <;> rfl
        rw [answered, Bool.not_eq_false']

theorem delete_panics (idle : s.Idle) (req : DeleteRequest) :
    (s.delete env req).panics = false ↔ s.Answerable env (.delete req) := by
  rw [Result.panics_eq (delete_ends env s req), Bool.not_eq_false', delete_returns env idle req]
  unfold Completes Answerable
  cases s.cached (Rpc.delete req).requestId env.start <;> exact Iff.rfl

theorem serve_panics [LogCodec] (idle : s.Idle) (rpc : Rpc) :
    (s.serve env rpc).panics = false ↔ s.Answerable env rpc := by
  cases rpc with
  | create req =>
    change (s.create env req).panics = false ↔ _
    rw [Result.panics_eq (create_ends env s idle req), Bool.not_eq_false', create_returns env idle req]
    unfold Completes Answerable
    cases s.cached (Rpc.create req).requestId env.start <;> exact Iff.rfl
  | openFile req =>
    change (s.openFile env req).panics = false ↔ _
    rw [Result.panics_eq (openFile_ends env s idle req), Bool.not_eq_false', openFile_returns env idle req]
    unfold Completes Answerable
    cases s.cached (Rpc.openFile req).requestId env.start <;> exact Iff.rfl
  | close req => exact handleCall_panics env s .close req
  | write req => exact handleCall_panics env s .write req
  | delete req => exact delete_panics env s idle req

end Handlers

end Server

theorem agrees_panics {verdict : Threads.Verdict Locals Memory Answer} {result : Result} (agrees : Agrees verdict result) :
    verdict = .panicked ↔ result.panics = true := by
  cases result with
  | returned s answer sent =>
    obtain ⟨memory, rfl, -⟩ := agrees
    exact iff_of_false nofun Bool.false_ne_true
  | panicked s => exact iff_of_true agrees rfl
  | blocked =>
    obtain rfl : verdict = .blocked := agrees
    exact iff_of_false nofun Bool.false_ne_true

def Request.Answerable (s : Server) : Request → Prop
  | .serve env rpc => s.Answerable env rpc
  | .read _ _ | .testAuth _ => True

theorem startServer_idle [LogCodec] (id rootDir : String) (servers : Map String ServerInfo) (tree : Tree)
    (logFile : Bytes) (io : Nat → ApplyIO) (now : Time) (port : String) :
    ((newServer id rootDir servers tree logFile).startServer io now port).Idle := by
  obtain ⟨_, _, _, same⟩ := (newServer id rootDir servers tree logFile).startServer_eq io now port
  rw [same]
  intro name entry present
  cases present

section Arrival

variable [LogCodec] (s : Server) (idle : s.Idle) (actions : List (Threads.Action Job)) (system spawned : System)
  (reached : Transition.run System.step (.start (.start s)) actions = some system)
  (quiet : system.Quiet) (id : Nat) (request : Request)
  (arrives : system.step (.spawn id request.job) = some spawned)
include idle reached quiet arrives

theorem arrival_panics_iff :
    Threads.Panics meaning Job.program spawned id ↔ ¬ request.Answerable system.state.server := by
  rw [arrival_panics s idle actions system spawned reached quiet id request.job arrives]
  obtain ⟨-, rested⟩ := quiet_idle s idle actions system reached quiet
  cases request with
  | serve env rpc =>
    refine (agrees_panics (rpc.program_agrees system.state system.state.server env)).trans ?_
    rw [← Bool.not_eq_false]
    exact not_congr (system.state.server.serve_panics env rested rpc)
  | read io req =>
    refine iff_of_false (fun panics => ?_) fun refused => refused trivial
    cases (Program.alone_read system.state system.state.server io req).symm.trans panics
  | testAuth filename =>
    obtain ⟨locals, ended⟩ := Program.alone_testAuth system.state system.state.server filename
    exact iff_of_false (fun panics => by cases ended.symm.trans panics) fun refused => refused trivial

end Arrival

theorem handler_never_panics_iff [LogCodec] (self rootDir : String) (servers : Map String ServerInfo) (tree : Tree)
    (logFile : Bytes) (io : Nat → ApplyIO) (now : Time) (port : String) (actions : List (Threads.Action Job))
    (system spawned : System)
    (reached : Transition.run System.step
      (.start (.start ((newServer self rootDir servers tree logFile).startServer io now port))) actions = some system)
    (quiet : system.Quiet) (id : Nat) (request : Request)
    (arrives : system.step (.spawn id request.job) = some spawned) :
    ¬ Threads.Panics meaning Job.program spawned id ↔ request.Answerable system.state.server :=
  not_iff_comm.mp (arrival_panics_iff _ (startServer_idle self rootDir servers tree logFile io now port) actions system
    spawned reached quiet id request arrives).symm

def createdRun : List (Threads.Action Job) := .spawn 0 (.serve {} (.create ⟨"r1", "output/a", "c", .write⟩)) :: turns 0 25

theorem created_then_opened :
    ∃ system spawned, Transition.run System.step (.start (.start firstPrimary)) createdRun =
        some system ∧ system.Quiet ∧
      system.step (.spawn 1 (.serve {} (.openFile ⟨"r1", "output/a", .write, "c"⟩))) = some spawned ∧
      ¬ Threads.Panics meaning Job.program spawned 1 := by
  obtain ⟨system, reached, quiet, known, room⟩ := ended_quiet firstPrimary createdRun 1
    (fun s => s.cached "r1" 0 = some (.opened ⟨0, 0, "file created"⟩)) (by decide) (by decide +kernel)
  obtain ⟨spawned, arrives⟩ := room (.serve {} (.openFile ⟨"r1", "output/a", .write, "c"⟩))
  refine ⟨system, spawned, reached, quiet, arrives, ?_⟩
  refine (handler_never_panics_iff "1" "storage" mainServers .empty [] (fun _ => .ok) 0 "5001" createdRun system spawned
    reached quiet 1 (.serve {} (.openFile ⟨"r1", "output/a", .write, "c"⟩)) arrives).mpr fun _ => ?_
  simp only [Rpc.requestId]
  rw [of_decide_eq_true known]
  rfl

def promotedRun : List (Threads.Action Job) :=
  .spawn 0 (.sendHeartbeat 0 ⟨"1", 0⟩) :: turns 0 3 ++ .spawn 1 (.heartbeatReply false) :: turns 1 3 ++
    .spawn 2 (.applyUpdate {} ⟨true, [], [⟨"output/a", 3, [50, 10]⟩]⟩) :: turns 2 9 ++
    .spawn 3 (.monitorPrimary (6 * second)) :: turns 3 3

-- A Delete with the id of a Create fails its type assertion; a Delete of a file that a full sync has brought
-- broadcasts on a condition variable that is nil.
theorem delete_runs_into_panic :
    (∃ system spawned,
      Transition.run System.step (.start (.start firstPrimary)) createdRun = some system ∧
        system.Quiet ∧ system.step (.spawn 1 (.serve {} (.delete ⟨"r1", "output/a"⟩))) = some spawned ∧
        Threads.Panics meaning Job.program spawned 1) ∧
      ∃ system spawned, Transition.run System.step
          (.start (.start ((blankServer "2").startServer (fun _ => .ok) 0 "5002"))) promotedRun = some system ∧
        system.Quiet ∧ system.step (.spawn 4 (.serve {} (.delete ⟨"r1", "output/a"⟩))) = some spawned ∧
        Threads.Panics meaning Job.program spawned 4 := by
  have panics (s : Server) (idle : s.Idle) (actions : List (Threads.Action Job)) (system spawned : System)
      (reached : Transition.run System.step (.start (.start s)) actions = some system)
      (quiet : system.Quiet) (id : Nat) (failing : (system.state.server.delete {} ⟨"r1", "output/a"⟩).panics = true)
      (arrives : system.step (.spawn id (.serve {} (.delete ⟨"r1", "output/a"⟩))) = some spawned) :
      Threads.Panics meaning Job.program spawned id := by
    obtain ⟨-, rested⟩ := quiet_idle s idle actions system reached quiet
    refine (arrival_panics_iff s idle actions system spawned reached quiet id
      (.serve {} (.delete ⟨"r1", "output/a"⟩)) arrives).mpr fun answerable => ?_
    rw [(system.state.server.delete_panics {} rested ⟨"r1", "output/a"⟩).mpr answerable] at failing
    cases failing
  constructor
  · obtain ⟨system, reached, quiet, failing, room⟩ := ended_quiet firstPrimary createdRun 1
      (fun s => (s.delete {} ⟨"r1", "output/a"⟩).panics) (by decide) (by decide +kernel)
    obtain ⟨spawned, arrives⟩ := room (.serve {} (.delete ⟨"r1", "output/a"⟩))
    exact ⟨system, spawned, reached, quiet, arrives, panics _
      (startServer_idle "1" "storage" mainServers .empty [] (fun _ => .ok) 0 "5001") createdRun system spawned reached quiet 1
      failing arrives⟩
  · obtain ⟨system, reached, quiet, failing, room⟩ := ended_quiet ((blankServer "2").startServer (fun _ => .ok) 0 "5002")
      promotedRun 4 (fun s => (s.delete {} ⟨"r1", "output/a"⟩).panics) (by decide) (by decide +kernel)
    obtain ⟨spawned, arrives⟩ := room (.serve {} (.delete ⟨"r1", "output/a"⟩))
    exact ⟨system, spawned, reached, quiet, arrives, panics _
      (startServer_idle "2" "storage" mainServers .empty [] (fun _ => .ok) 0 "5002") promotedRun system spawned reached
      quiet 4 failing arrives⟩

end Ikkat
