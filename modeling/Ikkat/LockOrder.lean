import Ikkat.Shared.LockOrder
import Ikkat.Exclusion

set_option autoImplicit false

namespace Ikkat

theorem Program.Tidy.ordered {calm : Server → Prop} {quiet : Prop} (program : Program) (held : Finset Mutex) (l : Locals)
    (tidy : Tidy calm program quiet held l) (still : quiet) :
    Threads.Ordered meaning Mutex.rank (fun _ _ m => calm m.server) program held l := by
  induction program generalizing quiet held l with
  | done | panic => trivial
  | lock lock next ih => exact fun free => ⟨(tidy free).1 still, ih _ _ (tidy free).2 still⟩
  | unlock lock next ih => exact ih _ _ tidy.2 still
  | act op next ih => exact fun m quiet => ih _ _ _ _ (tidy.2 m) ⟨still, quiet⟩
  | await lock op next ih => exact ⟨tidy.2.2.1 still, fun m ready => ih _ _ (tidy.2.2.2 m ready) still⟩
  | broadcast lock next ih => exact ih _ _ tidy still

instance (job : Job) (s : Server) : Decidable (job.Calm s) :=
  match job with
  | .read io req => inferInstanceAs (Decidable (s.Leased io.now req.clientID))
  | .serve _ _ | .testAuth _ | .cleanupLeases _ | .cleanupRequests _ | .sendMarker _ _ | .initiateSnapshot _ _
  | .receiveMarkerAck | .appendEntries _ _ | .applyUpdate _ _ | .sendHeartbeat _ _ | .heartbeatReply _
  | .monitorPrimary _ | .getLeader | .requestRecovery | .rebuildAllPrimeSets => isTrue trivial

theorem Mutex.rank_le (mutex : Mutex) : mutex.rank ≤ 2 := by
  cases mutex <;> simp [rank]

abbrev Crew := Threads.Crew Lock Mutex Op Locals Memory Answer Job

def LeasesFresh : Crew → Threads.Action Job → Prop := Threads.Crew.Calm fun job _ _ m => job.Calm m.server

instance (crew : Crew) (action : Threads.Action Job) : Decidable (LeasesFresh crew action) :=
  inferInstanceAs (Decidable (Threads.Crew.Calm _ crew action))

theorem fresh_leases_never_deadlock [LogCodec] (s : Server) (actions : List (Threads.Action Job)) (final : Crew)
    (fresh : Transition.Meets (Threads.Crew.step meaning Job.program) LeasesFresh (.start (.start s)) actions)
    (reached : Transition.run (Threads.Crew.step meaning Job.program) (.start (.start s)) actions = some final) :
    ¬ final.machine.Deadlocked meaning := by
  refine Threads.ordered_never_deadlocks Mutex.rank_le Job.follows (fun job => ?_) fresh reached
  exact (job.tidy True).ordered _ _ _ trivial

def readA (now : Time) : Job := .read ⟨now, true, [], false, 0⟩ ⟨"output/a", "c"⟩

def readDuringSnapshot (now : Time) : List (Threads.Action Job) :=
  [.spawn 0 (readA now), .spawn 1 (.initiateSnapshot {} "s")] ++ turns 0 7 ++ turns 1 3

theorem fresh_read_not_deadlocked :
    ∃ final, Transition.run (Threads.Crew.step meaning Job.program) (.start (.start firstOpened)) (readDuringSnapshot 0) =
        some final ∧ final.machine.WaitsFor meaning 1 0 ∧ ¬ final.machine.Deadlocked meaning := by
  have outcome : (Transition.run (Threads.Crew.step meaning Job.program) (.start (.start firstOpened))
      (readDuringSnapshot 0)).map (fun final => (final.machine.wanted meaning 1).bind final.machine.owner) =
        some (some 0) := by decide +kernel
  obtain ⟨final, reached, waits⟩ := Option.map_eq_some_iff.mp outcome
  have fresh : Transition.Meets (Threads.Crew.step meaning Job.program) LeasesFresh (.start (.start firstOpened))
      (readDuringSnapshot 0) :=
    Transition.meets_of_check _ _ (fun crew action => decide (LeasesFresh crew action))
      (fun _ _ _ => of_decide_eq_true) (by decide +kernel)
  exact ⟨final, reached, waits, fresh_leases_never_deadlock firstOpened _ final fresh reached⟩

-- The lease has run out. The Read waits with its descriptor for the server, and InitiateSnapshot waits with the
-- server for the descriptor.
theorem expired_read_deadlocks :
    ∃ final, Transition.run (Threads.Crew.step meaning Job.program) (.start (.start firstOpened))
        (readDuringSnapshot (11 * 60 * second)) = some final ∧ final.machine.Deadlocked meaning := by
  have outcome : (Transition.run (Threads.Crew.step meaning Job.program) (.start (.start firstOpened))
      (readDuringSnapshot (11 * 60 * second))).map (fun final =>
        ((final.machine.wanted meaning 0).bind final.machine.owner,
          (final.machine.wanted meaning 1).bind final.machine.owner)) = some (some 1, some 0) := by decide +kernel
  obtain ⟨final, reached, facts⟩ := Option.map_eq_some_iff.mp outcome
  obtain ⟨reads, records⟩ := Prod.mk.inj facts
  refine ⟨final, reached, {0, 1}, ⟨0, by simp⟩, ?_⟩
  rintro id (rfl | rfl)
  · exact ⟨1, by simp, by decide, reads⟩
  · exact ⟨0, by simp, by decide, records⟩

end Ikkat
