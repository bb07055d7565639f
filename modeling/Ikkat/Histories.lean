import Ikkat.Completion

set_option autoImplicit false

namespace Ikkat

def Request.Handled [LogCodec] (s next : Server) : Request → Answer → Prop
  | .serve env rpc, .rpc answer sent => ∃ t, s.serve env rpc = .returned t answer sent ∧ next.Alike t
  | .read io req, .stream chunks status => s.read io req = (next, chunks, status)
  | .testAuth filename, .version answer => s.testAuth filename = answer ∧ next = s
  | _, _ => False

inductive Atomic [LogCodec] : Server → List (Request × Answer) → Server → Prop where
  | nil (s : Server) : Atomic s [] s
  | cons {s next final : Server} {request : Request} {answer : Answer} {rest : List (Request × Answer)}
      (first : request.Handled s next answer) (later : Atomic next rest final) : Atomic s ((request, answer) :: rest) final

-- One thread after the other: each is started when the others have ended, and runs to its end.
inductive InTurn [LogCodec] : System → List (Request × Answer) → System → Prop where
  | nil (system : System) : InTurn system [] system
  | cons {system spawned middle final : System} {id count : Nat} {request : Request} {answer : Answer} {l : Locals}
      {rest : List (Request × Answer)} (arrives : system.step (.spawn id request.job) = some spawned)
      (runs : Transition.run System.step spawned (turns id count) = some middle)
      (ended : middle.threads id = some ⟨.done answer, l, none⟩) (quiet : middle.Quiet) (later : InTurn middle rest final) :
      InTurn system ((request, answer) :: rest) final

theorem Request.alone_handled [LogCodec] {request : Request} {answer : Answer} {m after : Memory} {l : Locals}
    (ran : Threads.alone meaning request.job.program ∅ ⟨none, none⟩ m = .returned answer l after) :
    request.Handled m.server after.server answer := by
  cases request with
  | serve env rpc =>
    have agrees := rpc.program_agrees m m.server env
    rw [show Threads.alone meaning (rpc.program env) ∅ ⟨none, none⟩ (m.on m.server) = _ from ran] at agrees
    cases served : m.server.serve env rpc with
    | returned t reply sent =>
      rw [served] at agrees
      obtain ⟨memory, same, alike⟩ := agrees
      cases same
      exact ⟨t, served, alike⟩
    | panicked | blocked =>
      rw [served] at agrees
      cases agrees
  | read io req =>
    cases (Program.alone_read m m.server io req).symm.trans ran
    rfl
  | testAuth filename =>
    obtain ⟨locals, ended⟩ := Program.alone_testAuth m m.server filename
    cases ended.symm.trans ran
    exact ⟨rfl, rfl⟩

theorem requests_in_turn_atomic [LogCodec] (s : Server) (idle : s.Idle) (actions : List (Threads.Action Job))
    (system final : System)
    (reached : Transition.run System.step (.start (.start s)) actions = some system)
    (quiet : system.Quiet) (history : List (Request × Answer)) (served : InTurn system history final) :
    Atomic system.state.server history final.state.server := by
  induction served generalizing actions with
  | nil => exact .nil _
  | cons arrives runs ended still later ih =>
    have ran := (arrival_finishes s idle actions _ _ reached quiet _ _ arrives _ _ _).mp ⟨_, _, runs, rfl, ended⟩
    have onward := (Transition.run_append ..).mpr ⟨_, reached, (Transition.run_cons ..).mpr ⟨_, arrives, runs⟩⟩
    exact .cons (Request.alone_handled ran) (ih _ onward still)

theorem turns_thread {id count : Nat} (job : Job) :
    ∀ action ∈ Threads.Action.spawn id job :: turns id count, action.thread = id := by
  simp [turns, Threads.Action.thread]

theorem arrival_quiet [LogCodec] {system spawned final : System} {id count : Nat} {job : Job} (quiet : system.Quiet)
    (arrives : system.step (.spawn id job) = some spawned)
    (runs : Transition.run System.step spawned (turns id count) = some final)
    {answer : Answer} {l : Locals} (ended : final.threads id = some ⟨.done answer, l, none⟩) : final.Quiet :=
  Threads.Machine.quiet_after id quiet ((Transition.run_cons ..).mpr ⟨_, arrives, runs⟩) (turns_thread job) ended

def firstWrite : Request := .serve {} (.write ⟨"r2", 0, true, 0, [51, 10], "c"⟩)

def laterRead : Request := .read ⟨0, true, [[51, 10, 51, 10]], false, 1⟩ ⟨"output/a", "c"⟩

theorem write_read_in_turn : ∃ written streamed final,
    InTurn (.start (.start firstOpened)) [(firstWrite, written), (laterRead, streamed)] final ∧
      Atomic firstOpened [(firstWrite, written), (laterRead, streamed)] final.state.server := by
  have returns : (firstOpened.serve {} (.write ⟨"r2", 0, true, 0, [51, 10], "c"⟩)).returns = true := by decide +kernel
  obtain ⟨written, l, memory, ran⟩ :=
    (agrees_returns (Rpc.program_agrees (.start firstOpened) firstOpened {} _)).mpr returns
  obtain ⟨count, middle, runs, -, ended⟩ := (arrival_finishes firstOpened firstOpened_idle []
    (.start (.start firstOpened)) _ rfl nofun 0 firstWrite.job rfl written l memory).mpr ran
  have quiet := arrival_quiet (nofun : (Threads.Machine.start (.start firstOpened) : System).Quiet) rfl runs ended
  have absent : middle.threads 1 = none :=
    Threads.Machine.absent_of_prog (Threads.Machine.run_others runs (by simp [Threads.Action.thread])) rfl
  have reached : Transition.run System.step (.start (.start firstOpened))
      (.spawn 0 firstWrite.job :: turns 0 count) = some middle := (Transition.run_cons ..).mpr ⟨_, rfl, runs⟩
  obtain ⟨spawned, arrives⟩ : ∃ spawned, System.step middle (.spawn 1 laterRead.job) = some spawned := by
    rw [System.step, Threads.Machine.step, absent]
    exact ⟨_, rfl⟩
  have ran : Threads.alone meaning laterRead.job.program ∅ ⟨none, none⟩ middle.state = .returned _ _ _ :=
    Program.alone_read middle.state middle.state.server ⟨0, true, [[51, 10, 51, 10]], false, 1⟩ ⟨"output/a", "c"⟩
  obtain ⟨later, final, read, -, done⟩ := (arrival_finishes firstOpened firstOpened_idle _ middle spawned reached quiet 1
    laterRead.job arrives _ _ _).mpr ran
  have served : InTurn (.start (.start firstOpened)) [(firstWrite, written), (laterRead, _)] final :=
    .cons rfl runs ended quiet (.cons arrives read done (arrival_quiet quiet arrives read done) (.nil final))
  exact ⟨_, _, final, served, requests_in_turn_atomic firstOpened firstOpened_idle [] _ final rfl nofun _ served⟩

theorem ended_owns_nothing [LogCodec] {s : Server} {actions : List (Threads.Action Job)} {system : System}
    (reached : Transition.run System.step (.start (.start s)) actions = some system)
    {id : Nat} {answer : Answer} {l : Locals} {asleep : Option Mutex}
    (present : system.threads id = some ⟨.done answer, l, asleep⟩) :
    l = ⟨none, none⟩ ∧ ∀ mutex, system.owner mutex ≠ some id := by
  obtain ⟨disciplined, -⟩ := Threads.run_keeps Job.follows (fun _ _ => True) (fun _ _ => True)
    (fun _ _ _ _ _ _ => trivial) trivial (Transition.meets_any ..) reached
  obtain ⟨held, owns, nothing, rests⟩ := disciplined.holds id _ present
  refine ⟨rests, fun mutex taken => ?_⟩
  rw [owns, show held = ∅ from nothing] at taken
  cases taken

theorem finished_handlers_hold_nothing [LogCodec] (s : Server) (idle : s.Idle) (actions : List (Threads.Action Job))
    (system : System)
    (reached : Transition.run System.step (.start (.start s)) actions = some system) :
    (∀ id answer l asleep, system.threads id = some ⟨.done answer, l, asleep⟩ →
      l = ⟨none, none⟩ ∧ ∀ mutex, system.owner mutex ≠ some id) ∧
      (system.Quiet → (∀ mutex, system.owner mutex = none) ∧ system.state.server.Idle) :=
  ⟨fun _ _ _ _ present => ended_owns_nothing reached present, quiet_idle s idle actions system reached⟩

theorem closedRun_holds_nothing : ∃ system : System, system.Quiet ∧ Transition.run System.step
    (.start (.start firstOpened)) closedRun = some system ∧ system.state.server.Idle := by
  obtain ⟨system, reached, quiet, -⟩ := ended_quiet firstOpened closedRun 1 (fun _ => true) (by decide) (by decide +kernel)
  exact ⟨system, quiet, reached, ((finished_handlers_hold_nothing _ firstOpened_idle _ _ reached).2 quiet).2⟩

def Job.snapshot (s : Server) : Job → Option (Except Status GlobalSnapshot)
  | .sendMarker io snapshotID => some (io.written (s.markedSnapshot io.now snapshotID))
  | .initiateSnapshot io snapshotID =>
      some (if s.role = .primary then io.written (s.initiatedSnapshot io.now snapshotID)
        else .error ⟨.failedPrecondition, "only the primary can initiate snapshots"⟩)
  | _ => none

end Ikkat
