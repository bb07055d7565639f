import Ikkat.Backup
import Ikkat.Retention

set_option autoImplicit false

namespace Ikkat

variable {s next : Server} {stage : Stage}

structure SameLog (s next : Server) : Prop where
  log : next.log = s.log
  logFile : next.logFile = s.logFile

theorem SameLog.refl (s : Server) : SameLog s s := ⟨rfl, rfl⟩

theorem SameLog.trans {middle : Server} (first : SameLog s middle) (second : SameLog middle next) :
    SameLog s next :=
  ⟨second.log.trans first.log, second.logFile.trans first.logFile⟩

namespace Server

theorem receiveFiles_sameLog (disk : DiskIO) (position : Nat) (s : Server) (files : List Replication) :
    SameLog s (s.receiveFiles disk position files).1 := by
  obtain ⟨_, _, _, _, _, same⟩ := s.receiveFiles_eq disk position files
  rw [same]
  exact ⟨rfl, rfl⟩

variable {answer : Except Status Response} {sent : List AppendEntriesRequest}

theorem create_sameLog {env : Env} {req : CreateRequest}
    (handled : s.create env req = .returned next answer sent) : SameLog s next := by
  rcases create_cases handled with rfl | ⟨safe, _, effect⟩
  · exact .refl next
  · obtain ⟨_, _, _, _, _, _, rfl, _⟩ := effect
    exact ⟨rfl, rfl⟩

theorem openFile_sameLog {env : Env} {req : FileRequest}
    (handled : s.openFile env req = .returned next answer sent) : SameLog s next := by
  rcases openFile_cases handled with rfl | ⟨safe, _, effect⟩
  · exact .refl next
  · obtain ⟨_, _, _, _, _, rfl, _⟩ := effect
    exact ⟨rfl, rfl⟩

theorem ViewOnly.sameLog (view : s.ViewOnly next) : SameLog s next := by
  obtain ⟨_, _, _, _, _, rfl⟩ := view
  exact ⟨rfl, rfl⟩

end Server

section Mirror

variable [LogCodec]

def Scannable (entry : LogEntry) : Prop := (LogCodec.marshal entry).length < maxBuf

instance (entry : LogEntry) : Decidable (Scannable entry) := inferInstanceAs (Decidable (_ < _))

structure Server.Mirrored (s : Server) : Prop where
  disk : s.logFile = logBytes s.log
  fits : ∀ entry ∈ s.log, Scannable entry

theorem scanLines_fits (entries : List LogEntry) (fits : ∀ entry ∈ entries, Scannable entry) :
    (scanLines [] (logBytes entries)).2 = false := by
  induction entries with
  | nil => rfl
  | cons entry rest ih =>
    have short : ([] ++ LogCodec.marshal entry).length < maxBuf := fits entry (by simp)
    rw [logBytes_cons, scanLines_line [] _ _ (newline_notMem_marshal entry), if_pos short]
    exact ih fun other member => fits other (by simp [member])

namespace Server

theorem Mirrored.recorded (mirrored : s.Mirrored) : recorded s.logFile = s.log := by
  rw [mirrored.disk]
  exact recorded_logBytes (scanLines_fits s.log mirrored.fits)

theorem Mirrored.same (mirrored : s.Mirrored) (same : SameLog s next) : next.Mirrored := by
  refine ⟨?_, ?_⟩
  · rw [same.log, same.logFile]
    exact mirrored.disk
  · rw [same.log]
    exact mirrored.fits

theorem Mirrored.append (mirrored : s.Mirrored) (entry : LogEntry) (fits : Scannable entry) :
    (s.appendLog .done entry).1.Mirrored where
  disk := by
    change s.logFile ++ logLine entry = logBytes (s.log ++ [entry])
    rw [mirrored.disk, logBytes_append]
  fits := by
    intro other member
    rcases List.mem_append.mp member with old | new
    · exact mirrored.fits other old
    · rw [List.mem_singleton.mp new]
      exact fits

theorem Mirrored.receive (mirrored : s.Mirrored) (disk : DiskIO)
    (persists : ∀ position, disk.persist position = .done) (e : PbLogEntry) (fits : Scannable e.received) :
    (s.receiveEntry disk e).Mirrored := by
  unfold receiveEntry
  split_ifs
  · exact mirrored
  · rw [persists]
    exact mirrored.append e.received fits

theorem Mirrored.appendEntries (mirrored : s.Mirrored) (disk : DiskIO) (req : AppendEntriesRequest)
    (persists : ∀ position, disk.persist position = .done) (fits : ∀ e ∈ req.entries, Scannable e.received) :
    (s.appendEntries disk req).1.Mirrored := by
  have received : (req.entries.foldl (receiveEntry disk) s).Mirrored := by
    generalize req.entries = entries at fits
    induction entries generalizing s with
    | nil => exact mirrored
    | cons e rest ih =>
      exact ih (mirrored.receive disk persists e (fits e (by simp))) fun other member => fits other (by simp [member])
  unfold Server.appendEntries
  dsimp only
  rw [applyCommitted_eq, raiseCommit_eq]
  exact received.same ⟨rfl, rfl⟩

theorem Mirrored.receiveLog (mirrored : s.Mirrored) (disk : DiskIO) (entries : List PbLogEntry)
    (persists : ∀ position, disk.persist position = .done) (fits : ∀ e ∈ entries, Scannable e.received) :
    (s.receiveLog disk entries).1.Mirrored := by
  induction entries generalizing s with
  | nil => exact mirrored
  | cons e rest ih =>
    have later : ∀ other ∈ rest, Scannable other.received := fun other member => fits other (by simp [member])
    unfold Server.receiveLog
    split_ifs
    · exact ih mirrored later
    · exact mirrored
    · rw [persists]
      exact ih (mirrored.append e.received (fits e (by simp))) later

theorem Mirrored.restarted (mirrored : s.Mirrored) (config : Map String ServerInfo) (io : Nat → ApplyIO)
    (now : Time) (port : String) : SameLog s (s.restarted config io now port) := by
  obtain ⟨_, _, _, same⟩ := (newServer s.id s.rootDir config s.tree s.logFile).startServer_eq io now port
  have log : [] ++ Ikkat.recorded s.logFile = s.log := mirrored.recorded
  unfold Server.restarted
  rw [same]
  exact ⟨log, rfl⟩

end Server

inductive LifeAction where
  | act (action : NodeAction)
  | restart (config : Map String ServerInfo) (io : Nat → ApplyIO) (now : Time) (port : String)

def Node.live (n : Node) : LifeAction → Option Node
  | .act action => n.step action
  | .restart config io now port => some (.start (n.server.restarted config io now port))

-- Every line reaches the log file and can be read back, and no log is emptied in memory alone.
def Mirroring (n : Node) : LifeAction → Prop
  | .act (.handler id (.append persist)) =>
      persist = .done ∧ ∀ h primes entry, n.handlers id = some h → h.stage = .indexed primes entry → Scannable entry
  | .act (.appendEntries disk req) =>
      (∀ position, disk.persist position = .done) ∧ ∀ e ∈ req.entries, Scannable e.received
  | .act (.applyUpdate disk msg) =>
      if msg.isFullSync then n.server.log = []
      else (∀ position, disk.persist position = .done) ∧ ∀ e ∈ msg.logEntries, Scannable e.received
  | _ => True

theorem Handler.step_sameLog {h : Handler} {action : HandlerStep}
    (stepped : h.step s action = some (next, stage)) (logs : ∀ persist, action ≠ .append persist) : SameLog s next := by
  have taken := Handler.step_takes stepped
  obtain ⟨call, before⟩ := h
  have ended (env : Env) (table : Map String FileEntry) : SameLog s { (s.finishCall env call).1 with table := table } := by
    obtain ⟨_, _, _, _, same⟩ := s.finishCall_eq env call
    rw [same]
    exact ⟨rfl, rfl⟩
  cases taken with
  | clean env | finish env => exact ended env _
  | append persist | unlogged persist => exact absurd rfl (logs persist)
  | _ => exact ⟨rfl, rfl⟩

theorem Handler.append_logged {h : Handler} (stepped : h.step s (.append .done) = some (next, stage)) :
    ∃ primes entry, h.stage = .indexed primes entry ∧ next = (s.appendLog .done entry).1 := by
  have taken := Handler.step_takes stepped
  obtain ⟨call, before⟩ := h
  cases taken with
  | append _ primes entry => exact ⟨primes, entry, rfl, rfl⟩
  | unlogged _ _ _ failed => exact absurd rfl failed

theorem mirrored_live {n next : Node} {action : LifeAction} (mirrored : n.server.Mirrored) (mirroring : Mirroring n action)
    (stepped : n.live action = some next) : next.server.Mirrored := by
  cases action with
  | restart config io now port =>
    cases stepped
    exact mirrored.same (mirrored.restarted config io now port)
  | act action =>
    cases action with
    | create env req =>
      obtain ⟨s, answer, sent, handled, rfl⟩ := Node.handle_returned stepped
      exact mirrored.same (Server.create_sameLog handled)
    | openFile env req =>
      obtain ⟨s, answer, sent, handled, rfl⟩ := Node.handle_returned stepped
      exact mirrored.same (Server.openFile_sameLog handled)
    | begin id kind now req =>
      rcases n.begin_cases next id kind now req stepped with rfl | ⟨found, mode, table, -, -, rfl⟩
      · exact mirrored
      · exact mirrored.same ⟨rfl, rfl⟩
    | handler id step =>
      obtain ⟨h, server, stage, here, moved, -, rfl⟩ := Node.handlerStep_cases stepped
      cases step with
      | append persist =>
        obtain ⟨rfl, fits⟩ := mirroring
        obtain ⟨primes, entry, before, rfl⟩ := Handler.append_logged moved
        exact mirrored.append entry (fits h primes entry here before)
      | _ => exact mirrored.same (Handler.step_sameLog moved (by simp))
    | appendEntries disk req =>
      cases stepped
      exact mirrored.appendEntries disk req mirroring.1 mirroring.2
    | applyUpdate disk msg =>
      cases stepped
      rw [Mirroring] at mirroring
      unfold Server.applyUpdate
      split_ifs at mirroring ⊢
      · -- The file is as empty as the log, so the reset changes neither.
        have reset : SameLog n.server { n.server with log := [], commitIndex := 0, lastApplied := 0 } :=
          ⟨mirroring.symm, rfl⟩
        exact mirrored.same (reset.trans (Server.receiveFiles_sameLog disk 0 _ msg.fullFiles))
      · exact mirrored.receiveLog disk msg.logEntries mirroring.1 mirroring.2
    | sendHeartbeat now req =>
      cases stepped
      exact mirrored.same (Server.sendHeartbeat_viewOnly now n.server req |>.sameLog)
    | heartbeatReply success =>
      cases stepped
      exact mirrored.same (n.server.heartbeatReply_viewOnly success |>.sameLog)
    | monitorPrimary now =>
      cases stepped
      exact mirrored.same (Server.monitorPrimary_viewOnly now n.server |>.sameLog)
    | rebuild =>
      cases stepped
      obtain ⟨filesPrimes, same⟩ := n.server.rebuildAllPrimeSets_eq
      rw [same]
      exact mirrored.same ⟨rfl, rfl⟩

theorem log_file_mirrors_log (id rootDir : String) (config : Map String ServerInfo) (tree : Tree) (io : Nat → ApplyIO)
    (now : Time) (port : String) (actions : List LifeAction) (final : Node)
    (mirroring : Transition.Meets Node.live Mirroring
      (.start ((newServer id rootDir config tree []).startServer io now port)) actions)
    (reached : Transition.run Node.live (.start ((newServer id rootDir config tree []).startServer io now port)) actions =
      some final) :
    recorded final.server.logFile = final.server.log ∧
      ∀ config io now port, (final.server.restarted config io now port).log = final.server.log := by
  have initial : ((newServer id rootDir config tree []).startServer io now port).Mirrored := by
    obtain ⟨_, _, _, same⟩ := (newServer id rootDir config tree []).startServer_eq io now port
    rw [same]
    exact ⟨rfl, nofun⟩
  have mirrored := Transition.run_invariant Mirroring (fun n => n.server.Mirrored)
    (fun n action next mirrored mirroring stepped => mirrored_live mirrored mirroring stepped)
    _ initial actions mirroring reached
  exact ⟨mirrored.recorded, fun config io now port => (mirrored.restarted config io now port).log⟩

end Mirror

def backupLives : List LifeAction :=
  [.act (.appendEntries {} (sendAppendEntry "1" firstEntry 0)), .act (.applyUpdate {} ⟨false, [secondEntry.wire], []⟩),
    .restart mainServers (fun _ => .ok) 0 "5002"]

theorem backupLives_mirrored :
    ∃ final, Transition.run Node.live (.start ((blankServer "2").startServer (fun _ => .ok) 0 "5002")) backupLives =
        some final ∧ final.server.log = [firstEntry, secondEntry] ∧ recorded final.server.logFile = final.server.log := by
  have outcome : (Transition.run Node.live (.start ((blankServer "2").startServer (fun _ => .ok) 0 "5002"))
      backupLives).map (fun final => final.server.log) = some [firstEntry, secondEntry] := by decide +kernel
  obtain ⟨final, reached, log⟩ := Option.map_eq_some_iff.mp outcome
  have mirroring : Transition.Meets Node.live Mirroring
      (.start ((blankServer "2").startServer (fun _ => .ok) 0 "5002")) backupLives :=
    ⟨⟨fun _ => rfl, by decide +kernel⟩, fun _ _ => ⟨⟨fun _ => rfl, by decide +kernel⟩, fun _ _ => ⟨trivial, fun _ _ => trivial⟩⟩⟩
  exact ⟨final, reached, log, (log_file_mirrors_log "2" "storage" mainServers .empty (fun _ => .ok) 0 "5002" backupLives
    final mirroring reached).1⟩

-- A full sync empties the log in memory; the file keeps its line, and a restart brings the entry back.
theorem full_sync_keeps_log_file :
    ∃ final, Transition.run Node.live (.start ((blankServer "2").startServer (fun _ => .ok) 0 "5002"))
        [.act (.appendEntries {} (sendAppendEntry "1" firstEntry 0)),
          .act (.applyUpdate {} ⟨true, [], [⟨"output/a", 2, [50, 10]⟩]⟩)] = some final ∧
      final.server.log = [] ∧ recorded final.server.logFile = [firstEntry] ∧
      (final.server.restarted mainServers (fun _ => .ok) 0 "5002").log = [firstEntry] := by
  have outcome : (Transition.run Node.live (.start ((blankServer "2").startServer (fun _ => .ok) 0 "5002"))
      [.act (.appendEntries {} (sendAppendEntry "1" firstEntry 0)),
        .act (.applyUpdate {} ⟨true, [], [⟨"output/a", 2, [50, 10]⟩]⟩)]).map (fun final => (final.server.log,
          recorded final.server.logFile, (final.server.restarted mainServers (fun _ => .ok) 0 "5002").log)) =
        some ([], [firstEntry], [firstEntry]) := by decide +kernel
  obtain ⟨final, reached, facts⟩ := Option.map_eq_some_iff.mp outcome
  simp only [Prod.mk.injEq] at facts
  exact ⟨final, reached, facts⟩

end Ikkat
