import Ikkat.Exclusion
import Ikkat.Serial

set_option autoImplicit false

namespace Ikkat

open Threads (alone)
open ReaderWriter (Counters)

inductive Request where
  | serve (env : Env) (rpc : Rpc)
  | read (io : ReadAnswers) (req : ReadRequest)
  | testAuth (filename : String)

def Request.job : Request → Job
  | .serve env rpc => .serve env rpc
  | .read io req => .read io req
  | .testAuth filename => .testAuth filename

def Result.returns : Result → Bool
  | .returned _ _ _ => true
  | .panicked _ | .blocked => false

namespace Server

def registered (s : Server) (req : DataRequest) : Bool :=
  (s.files.lookup req.fd).all fun found => (found.clients.lookup req.clientID).isSome

def Claimable (s : Server) (req : DeleteRequest) : Prop :=
  ∀ safe entry, normalize req.filename = some safe → hasPrefix "input/" safe = false →
    osStat s.tree (s.path safe) ≠ .missing → osStat s.tree (s.path safe) ≠ .found .dir →
    s.table.lookup safe = some entry → entry.cond = true

def Completes (env : Env) (s : Server) (rpc : Rpc) : Prop :=
  s.role = .primary →
    match s.cached rpc.requestId env.start, rpc with
    | some response, .close req => (Rpc.close req).fits response = true ∨ s.registered req = true
    | some response, rpc => rpc.fits response = true
    | none, .close req => s.registered req = true
    | none, .write req => s.registered req = true
    | none, .delete req => s.Claimable req
    | none, _ => True

variable {s : Server}

theorem Idle.canWrite (idle : s.Idle) (name : String) : (s.getFileEntry name).1.canWrite name = true := by
  rw [Server.canWrite, getFileEntry_table, if_pos rfl, getFileEntry_entry]
  cases present : s.table.lookup name with
  | none => rfl
  | some entry =>
    have free := idle name entry present
    simp only [FileEntry.counters, ReaderWriter.Counters.idle, ReaderWriter.Counters.mk.injEq] at free
    simp [FileEntry.canWrite, free.1, free.2]

theorem Idle.unwritten (idle : s.Idle) (name : String) :
    ((s.getFileEntry name).1.table.lookup name).any (·.activeWriter) = false := by
  have free := idle.canWrite name
  rw [Server.canWrite] at free
  cases present : (s.getFileEntry name).1.table.lookup name with
  | none => rfl
  | some entry => simp_all [FileEntry.canWrite]

theorem follower_completes (env : Env) (rpc : Rpc) {status : Status} (refused : s.notLeader = some status) :
    s.Completes env rpc := by
  intro primary
  rw [(notLeader_eq_none s).mpr primary] at refused
  cases refused

theorem Dismissed.returns {env : Env} {requestId : String} {own : Response → Bool} {result : Result}
    (why : Dismissed env s requestId own result) {P : Prop}
    (cached : ∀ response, s.cached requestId env.start = some response → (P ↔ own response = true)) :
    result.returns = true ↔ (s.role = .primary → P) := by
  cases why with
  | elsewhere status follower =>
    refine iff_of_true rfl fun primary => ?_
    cases ((notLeader_eq_none s).mpr primary).symm.trans follower
  | repeated response _ hit fits => exact iff_of_true rfl fun _ => (cached response hit).mpr fits
  | mismatched response primary hit other =>
    refine iff_of_false (by simp [Result.returns]) fun all => ?_
    cases other.symm.trans ((cached response hit).mp (all ((notLeader_eq_none s).mp primary)))

section Idle

variable (env : Env) {s : Server} (idle : s.Idle)
include idle

theorem create_returns (req : CreateRequest) : (s.create env req).returns = true ↔ s.Completes env (.create req) := by
  have exit := s.create_exit env req
  generalize s.create env req = result at exit
  unfold Completes Rpc.requestId
  cases exit with
  | dismissed why =>
    refine why.returns fun response hit => ?_
    rw [hit]
    cases response <;> rfl
  | waiting safe _ _ held => cases (idle.canWrite safe).symm.trans held
  | unnamed new | barred _ new | failed _ _ _ new | created _ _ new =>
    rw [new.fresh]
    exact iff_of_true rfl fun _ => trivial

theorem openFile_returns (req : FileRequest) : (s.openFile env req).returns = true ↔ s.Completes env (.openFile req) := by
  have exit := s.openFile_exit env req
  generalize s.openFile env req = result at exit
  unfold Completes Rpc.requestId
  cases exit with
  | dismissed why =>
    refine why.returns fun response hit => ?_
    rw [hit]
    cases response <;> rfl
  | waiting safe _ held => cases (idle.unwritten safe).symm.trans held
  | unnamed new | failed _ _ new | opened _ _ new =>
    rw [new.fresh]
    exact iff_of_true rfl fun _ => trivial

theorem uncached_returns [LogCodec] (kind : Kind) (req : DataRequest) (leads : s.notLeader = none)
    (uncached : s.cachedCall kind req.requestId env.start = none) :
    (s.handleCall kind env req).returns = s.registered req := by
  unfold handleCall beginCall registered
  rw [leads, uncached]
  cases s.files.lookup req.fd with
  | none => rfl
  | some found =>
    rw [Option.all_some]
    dsimp only
    cases found.clients.lookup req.clientID with
    | none => rfl
    | some client =>
      dsimp only
      rw [idle.canWrite]
      split
      · simp only [Bool.not_true, Bool.false_eq_true, if_false]
        split
        · rfl
        · split <;> rfl
      · rfl

theorem handleCall_returns [LogCodec] (kind : Kind) (req : DataRequest) :
    (s.handleCall kind env req).returns = true ↔ s.Completes env (kind.rpc req) := by
  cases leads : s.notLeader with
  | some status =>
    refine iff_of_true ?_ (follower_completes env _ leads)
    rw [handleCall, beginCall, leads]
    rfl
  | none =>
    have primary := (notLeader_eq_none s).mp leads
    have looked := uncached_returns env idle kind req leads
    cases kind with
    | close =>
      simp only [Completes, primary, forall_const, Kind.rpc, Rpc.requestId]
      unfold cachedCall at looked
      cases cached : s.cached req.requestId env.start with
      | none => rw [looked (by rw [cached])]
      | some response =>
        cases response with
        | closed resp =>
          have hit : s.cachedCall .close req.requestId env.start = some (some (.closed resp)) := by
            unfold cachedCall
            rw [cached]
          refine iff_of_true ?_ (.inl rfl)
          rw [handleCall, beginCall, leads, hit]
          rfl
        | opened | written | deleted =>
          rw [looked (by rw [cached])]
          simp [Rpc.fits]
    | write =>
      simp only [Completes, primary, forall_const, Kind.rpc, Rpc.requestId]
      unfold cachedCall at looked
      cases cached : s.cached req.requestId env.start with
      | none => rw [looked (by rw [cached])]
      | some response =>
        have answered : (s.handleCall .write env req).returns = (Rpc.write req).fits response := by
          unfold handleCall beginCall cachedCall
          rw [leads, cached]
          cases response <;> rfl
        rw [answered]

theorem delete_returns (req : DeleteRequest) : (s.delete env req).returns = true ↔ s.Completes env (.delete req) := by
  have exit := s.delete_exit env req
  generalize s.delete env req = result at exit
  unfold Completes Rpc.requestId
  cases exit with
  | dismissed why =>
    refine why.returns fun response hit => ?_
    rw [hit]
    cases response <;> rfl
  | unnamed new unnamed =>
    rw [new.fresh]
    refine iff_of_true rfl fun _ other entry named => ?_
    cases unnamed.symm.trans named
  | input safe new named input =>
    rw [new.fresh]
    refine iff_of_true rfl fun _ other entry named' output => ?_
    obtain rfl := Option.some.inj (named.symm.trans named')
    cases input.symm.trans output
  | directory safe new named dir =>
    rw [new.fresh]
    refine iff_of_true rfl fun _ other entry named' _ _ leaf => ?_
    obtain rfl := Option.some.inj (named.symm.trans named')
    exact absurd dir leaf
  | gone safe new named _ absent =>
    rw [new.fresh]
    refine iff_of_true rfl fun _ other entry named' _ stored _ present => ?_
    obtain rfl := Option.some.inj (named.symm.trans named')
    cases (absent.resolve_left stored).2.symm.trans present
  | busy safe entry new named present used =>
    have free := idle safe entry present
    simp only [FileEntry.counters, ReaderWriter.Counters.idle, ReaderWriter.Counters.mk.injEq] at free
    simp [free.1, free.2] at used
  | silent safe entry left claim mute =>
    rw [claim.new.fresh]
    refine iff_of_false (by simp [Result.returns]) fun all => ?_
    have ready := all ((notLeader_eq_none s).mp claim.new.primary) safe entry claim.named claim.output claim.stored claim.leaf
      claim.present
    cases mute.symm.trans ready
  | failed safe entry claim ready | removed safe entry _ claim ready =>
    rw [claim.new.fresh]
    refine iff_of_true rfl fun _ other held named _ _ _ present => ?_
    obtain rfl := Option.some.inj (claim.named.symm.trans named)
    obtain rfl := Option.some.inj (claim.present.symm.trans present)
    exact ready

end Idle

theorem serve_returns [LogCodec] (env : Env) (s : Server) (idle : s.Idle) (rpc : Rpc) :
    (s.serve env rpc).returns = true ↔ s.Completes env rpc := by
  cases rpc with
  | create req => exact create_returns env idle req
  | openFile req => exact openFile_returns env idle req
  | close req => exact handleCall_returns env idle .close req
  | write req => exact handleCall_returns env idle .write req
  | delete req => exact delete_returns env idle req

end Server

section Arrival

variable [LogCodec] (s : Server) (idle : s.Idle) (actions : List (Threads.Action Job)) (system spawned : System)
  (reached : Transition.run System.step (.start (.start s)) actions = some system)
  (quiet : system.Quiet)
include idle reached quiet

theorem quiet_idle : (∀ mutex, system.owner mutex = none) ∧ system.state.server.Idle := by
  obtain ⟨disciplined, grounded, backed⟩ := Threads.run_keeps Job.follows (fun _ _ => True)
    (fun m locals => Grounded m locals ∧ ReaderWriter.Backed m.locks (sections locals))
    (fun system next action invariant _ moves => by
      obtain ⟨grounded, id, intruded, step, -⟩ := moves_step invariant.1 moves
      exact ⟨grounded, invariant.2.step step⟩)
    ⟨grounded_start s, backed_start idle⟩ (Transition.meets_any ..) reached
  refine ⟨disciplined.free quiet, fun name entry present => ?_⟩
  have outside (id : Nat) : sections system.locals id = none := by
    rw [sections]
    cases known : system.locals id with
    | none => rfl
    | some l =>
      rw [show l = ⟨none, none⟩ from disciplined.rests quiet id l known]
      rfl
  have found : system.state.locks (system.state.current name) = some entry.counters := by
    rw [Memory.locks, Memory.entry_current, present, Option.map_some]
  obtain ⟨ids, reading, count⟩ := backed.readers _ _ found
  have nobody : ids = ∅ := Finset.eq_empty_of_forall_notMem fun id member => by
    have inside := (reading id).mp member
    rw [outside] at inside
    cases inside
  have writer : entry.counters.writer = false := by
    by_contra held
    obtain ⟨id, inside⟩ := backed.writer _ _ found (Bool.eq_true_of_not_eq_false held)
    rw [outside] at inside
    cases inside
  rw [nobody, Finset.card_empty, Nat.le_zero] at count
  change (⟨entry.counters.readers, entry.counters.writer⟩ : Counters) = .idle
  rw [count, writer]
  rfl

variable (id : Nat) (job : Job) (arrives : system.step (.spawn id job) = some spawned)
include arrives

theorem arrival_alone : spawned.threads id = some ⟨job.program, ⟨none, none⟩, none⟩ ∧
    (∀ mutex, spawned.owner mutex = if mutex ∈ (∅ : Finset Mutex) then some id else none) ∧
    spawned.state = system.state := by
  obtain ⟨free, -⟩ := quiet_idle s idle actions system reached quiet
  rw [System.step, Threads.Machine.step] at arrives
  split_ifs at arrives
  obtain rfl := Option.some.inj arrives
  refine ⟨Function.update_self .., fun mutex => ?_, rfl⟩
  exact free mutex

theorem arrival_finishes (answer : Answer) (locals : Locals) (memory : Memory) :
    Threads.Finishes meaning Job.program spawned id answer locals memory ↔
      alone meaning job.program ∅ ⟨none, none⟩ system.state = .returned answer locals memory := by
  obtain ⟨present, owners, same⟩ := arrival_alone s idle actions system spawned reached quiet id job arrives
  rw [← same]
  exact Threads.finishes_iff spawned id job.program ⟨none, none⟩ ∅ present owners ..

theorem arrival_panics : Threads.Panics meaning Job.program spawned id ↔
    alone meaning job.program ∅ ⟨none, none⟩ system.state = .panicked := by
  obtain ⟨present, owners, same⟩ := arrival_alone s idle actions system spawned reached quiet id job arrives
  rw [← same]
  exact Threads.panics_iff spawned id job.program ⟨none, none⟩ ∅ present owners

end Arrival

def Request.Completes (s : Server) : Request → Prop
  | .serve env rpc => s.Completes env rpc
  | .read _ _ | .testAuth _ => True

theorem agrees_returns {verdict : Threads.Verdict Locals Memory Answer} {result : Result} (agrees : Agrees verdict result) :
    (∃ answer locals memory, verdict = .returned answer locals memory) ↔ result.returns = true := by
  cases result with
  | returned s answer sent =>
    obtain ⟨memory, ended, -⟩ := agrees
    exact iff_of_true ⟨_, _, memory, ended⟩ rfl
  | panicked s =>
    refine iff_of_false ?_ Bool.false_ne_true
    rintro ⟨answer, locals, memory, ended⟩
    rw [show verdict = .panicked from agrees] at ended
    cases ended
  | blocked =>
    refine iff_of_false ?_ Bool.false_ne_true
    rintro ⟨answer, locals, memory, ended⟩
    rw [show verdict = .blocked from agrees] at ended
    cases ended

theorem handler_finishes_iff [LogCodec] (s : Server) (idle : s.Idle) (actions : List (Threads.Action Job))
    (system spawned : System)
    (reached : Transition.run System.step (.start (.start s)) actions = some system)
    (quiet : system.Quiet) (id : Nat) (request : Request)
    (arrives : system.step (.spawn id request.job) = some spawned) :
    (∃ answer locals memory, Threads.Finishes meaning Job.program spawned id answer locals memory) ↔
      request.Completes system.state.server := by
  simp only [arrival_finishes s idle actions system spawned reached quiet id request.job arrives]
  obtain ⟨-, rested⟩ := quiet_idle s idle actions system reached quiet
  cases request with
  | serve env rpc =>
    refine (agrees_returns (rpc.program_agrees system.state system.state.server env)).trans ?_
    exact system.state.server.serve_returns env rested rpc
  | read io req =>
    refine iff_of_true ⟨_, _, _, Program.alone_read system.state system.state.server io req⟩ trivial
  | testAuth filename =>
    obtain ⟨locals, ended⟩ := Program.alone_testAuth system.state system.state.server filename
    exact iff_of_true ⟨_, locals, _, ended⟩ trivial

def closeC (requestId : String) : DataRequest := ⟨requestId, 0, false, 0, [], "c"⟩

def closedRun : List (Threads.Action Job) := .spawn 0 (.serve {} (.close (closeC "r2"))) :: turns 0 22

def threadEnded (system : System) (id : Nat) : Bool :=
  (system.threads id).all fun thread =>
    match thread.prog with
    | .done _ => true
    | _ => false

theorem ended_quiet [LogCodec] (s : Server) (actions : List (Threads.Action Job)) (bound : Nat) (test : Server → Bool)
    (few : actions.all fun action => decide (action.thread < bound))
    (outcome : ((Transition.run System.step (.start (.start s)) actions).any
      fun system => test system.state.server && (List.range bound).all (threadEnded system)) = true) :
    ∃ system, Transition.run System.step (.start (.start s)) actions = some system ∧
      system.Quiet ∧ test system.state.server = true ∧
      ∀ job, ∃ spawned, system.step (.spawn bound job) = some spawned := by
  obtain ⟨system, reached, facts⟩ := (Option.any_eq_true ..).mp outcome
  rw [Bool.and_eq_true] at facts
  have alone (id : Nat) (other : bound ≤ id) : system.threads id = none := by
    refine Threads.Machine.absent_of_prog (Threads.Machine.run_others reached fun action member => ?_) rfl
    have small := List.all_eq_true.mp few action member
    rw [decide_eq_true_eq] at small
    omega
  have room (job : Job) : ∃ spawned, system.step (.spawn bound job) = some spawned := by
    rw [System.step, Threads.Machine.step, alone bound (Nat.le_refl bound)]
    exact ⟨_, rfl⟩
  refine ⟨system, reached, fun id thread present => ?_, facts.1, room⟩
  rcases Nat.lt_or_ge id bound with inside | outside
  · have done := List.all_eq_true.mp facts.2 id (List.mem_range.mpr inside)
    rw [threadEnded, present, Option.all_some] at done
    split at done
    · exact ⟨_, ‹_›⟩
    · cases done
  · rw [alone id outside] at present
    cases present

theorem handler_finishes_after_close :
    ∃ system spawned, Transition.run System.step (.start (.start firstOpened)) closedRun =
        some system ∧ system.Quiet ∧
      system.step (.spawn 1 (.serve {} (.openFile ⟨"r3", "output/a", .write, "c"⟩))) = some spawned ∧
      ∃ answer locals memory, Threads.Finishes meaning Job.program spawned 1 answer locals memory := by
  obtain ⟨system, reached, quiet, uncached, room⟩ :=
    ended_quiet firstOpened closedRun 1 (fun s => (s.cached "r3" 0).isNone) (by decide) (by decide +kernel)
  obtain ⟨spawned, arrives⟩ := room (.serve {} (.openFile ⟨"r3", "output/a", .write, "c"⟩))
  refine ⟨system, spawned, reached, quiet, arrives, ?_⟩
  refine (handler_finishes_iff firstOpened firstOpened_idle closedRun system _ reached quiet 1
    (.serve {} (.openFile ⟨"r3", "output/a", .write, "c"⟩)) arrives).mpr fun _ => ?_
  rw [Option.isNone_iff_eq_none] at uncached
  simp only [Rpc.requestId]
  rw [uncached]
  trivial

-- The client of a descriptor closes it; its second Close, or a Write, takes the lock of the server and then waits for
-- it in getFileEntry, for good.
theorem second_close_never_finishes :
    ∃ system, Transition.run System.step (.start (.start firstOpened)) closedRun =
        some system ∧ system.Quiet ∧
      ∀ rpc ∈ [Rpc.close (closeC "r3"), Rpc.write (closeC "r3")], ∃ spawned,
        system.step (.spawn 1 (.serve {} rpc)) = some spawned ∧
        ∀ answer locals memory, ¬Threads.Finishes meaning Job.program spawned 1 answer locals memory := by
  obtain ⟨system, reached, quiet, blocked, room⟩ := ended_quiet firstOpened closedRun 1 (fun s =>
    [Rpc.close (closeC "r3"), Rpc.write (closeC "r3")].all fun rpc => !(s.serve {} rpc).returns) (by decide)
    (by decide +kernel)
  refine ⟨system, reached, quiet, fun rpc member => ?_⟩
  obtain ⟨spawned, arrives⟩ := room (.serve {} rpc)
  refine ⟨spawned, arrives, fun answer locals memory finishes => ?_⟩
  have ended := (arrival_finishes firstOpened firstOpened_idle closedRun system _ reached quiet 1 (.serve {} rpc) arrives
    answer locals memory).mp finishes
  have returns := (agrees_returns (rpc.program_agrees system.state system.state.server {})).mp ⟨_, _, _, ended⟩
  have never := List.all_eq_true.mp blocked rpc member
  rw [returns] at never
  cases never

end Ikkat
