import Ikkat.Replay

set_option autoImplicit false

namespace Ikkat

structure Acknowledged where
  server : Server
  acked : String → Option Bytes

namespace Acknowledged

def after (t : Acknowledged) (next : Server) (rpc : Rpc) (name : String) : Option Bytes :=
  if rpc.subject t.server = some name then next.bytes name else t.acked name

def step [LogCodec] (t : Acknowledged) (delivery : Delivery) : Option Acknowledged :=
  match t.server.serve delivery.env delivery.rpc with
  | .returned next (.ok _) _ => some ⟨next, t.after next delivery.rpc⟩
  | .returned next (.error _) _ => some ⟨next, t.acked⟩
  | _ => none

theorem step_returned [LogCodec] (t next : Acknowledged) (delivery : Delivery) (stepped : t.step delivery = some next) :
    ∃ answer sent, t.server.serve delivery.env delivery.rpc = .returned next.server answer sent ∧
      ((∃ response, answer = .ok response) ∧ next.acked = t.after next.server delivery.rpc ∨
        (∃ status, answer = .error status) ∧ next.acked = t.acked) := by
  unfold step at stepped
  split at stepped
  case h_1 server response sent handled =>
    cases stepped
    exact ⟨_, sent, handled, .inl ⟨⟨response, rfl⟩, rfl⟩⟩
  case h_2 server status sent handled =>
    cases stepped
    exact ⟨_, sent, handled, .inr ⟨⟨status, rfl⟩, rfl⟩⟩
  case h_3 => cases stepped

end Acknowledged

section Run

variable [LogCodec] (files : OutputNames)

structure Restorable (t : Acknowledged) : Prop extends Current files t.server where
  disk : t.server.logFile = logBytes t.server.log
  acked : ∀ name ∈ files.names, t.server.bytes name = t.acked name

theorem effect_disk {s next : Server} {rpc : Rpc} {answer : Except Status Response} {sent : List AppendEntriesRequest}
    (effect : Effect files s rpc next answer sent) (disk : s.logFile = logBytes s.log) :
    next.logFile = logBytes next.log := by
  have appended (name : String) (entry : LogEntry) (logged : Server.Logged s next name entry) :
      next.logFile = logBytes next.log := by
    rw [logged.logFile, logged.log, logBytes_append, disk]
  cases effect with
  | quiet _ rests | created _ _ _ _ rests | removed _ _ _ _ _ _ _ rests => rw [rests.logFile, rests.log, disk]
  | logged _ name entry _ _ _ _ _ _ logged | blocked _ name entry _ _ _ _ logged => exact appended name entry logged

theorem restorable_step (t next : Acknowledged) (delivery : Delivery) (restorable : Restorable files t)
    (replayable : Replayable files t.server delivery) (stepped : t.step delivery = some next) :
    Restorable files next := by
  obtain ⟨answer, sent, handled, answered⟩ := t.step_returned next delivery stepped
  have effect := Server.serve_effect files restorable.toCurrent
    replayable handled
  have bytes := effect_bytes files effect
  refine ⟨current_effect files restorable.toCurrent effect, effect_disk files effect restorable.disk,
    fun name inside => ?_⟩
  rcases answered with ⟨_, acked⟩ | ⟨failed, acked⟩
  · rw [acked]
    unfold Acknowledged.after
    split_ifs with own
    · rfl
    · rw [bytes name inside (.inl own), restorable.acked name inside]
  · rw [acked, bytes name inside (.inr failed), restorable.acked name inside]

theorem restarted_bytes {s : Server} (current : Current files s) (disk : s.logFile = logBytes s.log)
    (readable : (scanLines [] s.logFile).2 = false) (config : Map String ServerInfo) {io : Nat → ApplyIO}
    (healthy : ∀ position, io position = .ok) (now : Time) (port : String) {name : String}
    (inside : name ∈ files.names) : (s.restarted config io now port).bytes name = s.bytes name := by
  have read : recorded s.logFile = s.log := by
    rw [disk] at readable ⊢
    exact recorded_logBytes readable
  obtain rfl : io = fun _ => .ok := funext healthy
  obtain ⟨_, _, _, same⟩ := (newServer s.id s.rootDir config s.tree s.logFile).startServer_eq (fun _ => .ok) now port
  have replayed (content : Bytes) : (s.restarted config (fun _ => .ok) now port).bytes name = some content ↔
      (applyAll (fun _ => .ok) s.rootDir 0 s.log s.tree).find (s.path name) = some (.file content) := by
    unfold Server.restarted
    rw [same, ← read, Server.bytes_eq]
    exact Server.makeDirs_sameFiles _ _ _
  have writes (entry : LogEntry) (listed : entry ∈ s.log) := current.loggable entry listed
  apply Option.ext
  intro content
  rw [replayed, Server.bytes_eq]
  cases last : lastFor name s.log with
  | none =>
    refine applyAll_other (fun _ => .ok) s.rootDir 0 s.log s.tree _ content fun entry listed path => ?_
    have equal := files.path_injective s.rootDir name entry.filename inside (writes entry listed).2 path
    simp only [lastFor, List.getLast?_eq_none_iff, List.filter_eq_nil_iff] at last
    exact last entry listed (by simp [equal])
  | some entry =>
    rcases current.newest name inside entry last with file | dir
    · rw [Server.bytes_eq] at file
      rw [applyAll_file s.rootDir 0 s.log s.tree (s.path name) entry.content file, file, Server.path,
        lastContent_lastFor s.rootDir inside s.log entry.content writes, last]
      rfl
    · rw [(grows_applyAll (fun _ => .ok) s.rootDir 0 s.log s.tree).dirs _ dir, dir]

theorem restart_restores_files (s : Server) (current : Current files s) (disk : s.logFile = logBytes s.log)
    (deliveries : List Delivery) (final : Acknowledged)
    (replayable : Transition.Meets Acknowledged.step (fun t => Replayable files t.server) ⟨s, s.bytes⟩ deliveries)
    (reached : Transition.run Acknowledged.step ⟨s, s.bytes⟩ deliveries = some final)
    (readable : (scanLines [] final.server.logFile).2 = false) (config : Map String ServerInfo) (io : Nat → ApplyIO)
    (healthy : ∀ position, io position = .ok) (now : Time) (port : String) (name : String)
    (inside : name ∈ files.names) :
    ((final.server.restarted config io now port).bytes name ≠ none ↔ final.server.bytes name ≠ none) ∧
      (final.server.restarted config io now port).bytes name = final.acked name := by
  have restorable := Transition.run_invariant (fun t => Replayable files t.server) (Restorable files)
    (fun t delivery next => restorable_step files t next delivery) _ ⟨current, disk, fun _ _ => rfl⟩ deliveries
    replayable reached
  have same := restarted_bytes files restorable.toCurrent restorable.disk readable config healthy now
    port inside
  exact ⟨by rw [same], same.trans (restorable.acked name inside)⟩

end Run

theorem firstPrimary_current : Current oneFile firstPrimary where
  applied := by decide +kernel
  loggable := by
    have log : firstPrimary.log = [] := by decide +kernel
    simp [log]
  opened := by
    intro fd found present
    cases present
  newest := by
    intro name _ entry last
    cases last

theorem unionRun_restored :
    ∃ final, Transition.run Acknowledged.step ⟨firstPrimary, firstPrimary.bytes⟩ unionRun = some final ∧
      final.acked "output/a" = some [50, 10, 51, 10] ∧
      (final.server.restarted mainServers (fun _ => .ok) 0 "5001").bytes "output/a" = final.acked "output/a" := by
  have outcome : (Transition.run Acknowledged.step ⟨firstPrimary, firstPrimary.bytes⟩ unionRun).map
      (fun t => (t.acked "output/a", (scanLines [] t.server.logFile).2)) =
        some (some [50, 10, 51, 10], false) ∧
      Transition.check Acknowledged.step (fun t _ => decide (t.server.majority .close ≤
        Server.ackCount (t.server.majority .close) 1 [("2", true), ("3", false)]))
        ⟨firstPrimary, firstPrimary.bytes⟩ unionRun = true := by decide +kernel
  obtain ⟨outcome, checked⟩ := outcome
  obtain ⟨final, reached, facts⟩ := Option.map_eq_some_iff.mp outcome
  obtain ⟨acked, readable⟩ := Prod.mk.inj facts
  have replayable : Transition.Meets Acknowledged.step (fun t => Replayable oneFile t.server)
      ⟨firstPrimary, firstPrimary.bytes⟩ unionRun :=
    Transition.meets_of_check _ _ _ (fun t delivery member enough =>
      unionRun_replayable (of_decide_eq_true enough) member) checked
  exact ⟨final, reached, acked, (restart_restores_files oneFile firstPrimary firstPrimary_current (by decide +kernel) unionRun
    final replayable reached readable mainServers (fun _ => .ok) (fun _ => rfl) 0 "5001" "output/a" rfl).2⟩

-- Delete is not in the log, so the replay of the Close before it brings the file back.
theorem deleted_file_returns :
    ∃ final, Transition.run Acknowledged.step ⟨firstPrimary, firstPrimary.bytes⟩
        [createA, closeA "r2" 0 0 [50, 10], deleteA] = some final ∧
      final.server.bytes "output/a" = none ∧ final.acked "output/a" = none ∧
      (final.server.restarted mainServers (fun _ => .ok) 0 "5001").bytes "output/a" = some [50, 10] := by
  have outcome : (Transition.run Acknowledged.step ⟨firstPrimary, firstPrimary.bytes⟩
      [createA, closeA "r2" 0 0 [50, 10], deleteA]).map (fun t => (t.server.bytes "output/a", t.acked "output/a",
        (t.server.restarted mainServers (fun _ => .ok) 0 "5001").bytes "output/a")) =
      some (none, none, some [50, 10]) := by decide +kernel
  obtain ⟨final, reached, facts⟩ := Option.map_eq_some_iff.mp outcome
  simp only [Prod.mk.injEq] at facts
  exact ⟨final, reached, facts⟩

end Ikkat
