import Ikkat.Backup
import Ikkat.Handlers

set_option autoImplicit false

namespace Ikkat

variable {log : List LogEntry}

def Aligned (log : List LogEntry) : Prop :=
  ∀ (position : Nat) (entry : LogEntry), log[position]? = some entry → entry.index = position + 1

def Contiguous : Nat → List PbLogEntry → Prop
  | _, [] => True
  | length, e :: rest =>
      if e.received.index ≤ length then Contiguous length rest
      else e.received.index = length + 1 ∧ Contiguous (length + 1) rest

instance contiguousDecidable : ∀ (length : Nat) (entries : List PbLogEntry), Decidable (Contiguous length entries)
  | _, [] => inferInstanceAs (Decidable True)
  | length, e :: rest =>
      have := contiguousDecidable length rest
      have := contiguousDecidable (length + 1) rest
      inferInstanceAs (Decidable (if e.received.index ≤ length then _ else _))

theorem aligned_nil : Aligned [] := by
  intro position entry found
  simp at found

theorem aligned_shorter {later : List LogEntry} (grown : log <+: later) (aligned : Aligned later) :
    Aligned log := by
  obtain ⟨suffix, rfl⟩ := grown
  intro position entry found
  apply aligned position entry
  rw [List.getElem?_append_left (List.getElem?_eq_some_iff.mp found).1, found]

theorem aligned_append_iff (entry : LogEntry) (aligned : Aligned log) :
    Aligned (log ++ [entry]) ↔ entry.index = log.length + 1 := by
  constructor
  · intro longer
    exact longer log.length entry List.getElem?_concat_length
  · intro next position other found
    rcases Nat.lt_or_ge position log.length with before | after
    · rw [List.getElem?_append_left before] at found
      exact aligned position other found
    · have last : position = log.length := by
        have bound := (List.getElem?_eq_some_iff.mp found).1
        rw [List.length_append, List.length_singleton] at bound
        omega
      subst last
      rw [List.getElem?_concat_length] at found
      cases found
      exact next

theorem aligned_position (aligned : Aligned log) {position : Nat} {entry : LogEntry}
    (found : log[position]? = some entry) : position = (entry.index - 1).toNat := by
  have index := aligned position entry found
  omega

theorem extend_aligned_iff (log : List LogEntry) (entries : List PbLogEntry) (aligned : Aligned log) :
    Aligned (extend log entries) ↔ Contiguous log.length entries := by
  induction entries generalizing log with
  | nil => exact iff_of_true aligned trivial
  | cons e rest ih =>
    unfold extend Contiguous
    split_ifs with old
    · exact ih log aligned
    · by_cases next : e.received.index = log.length + 1
      · have longer := (aligned_append_iff e.received aligned).mpr next
        rw [ih _ longer]
        simp [next]
      · simp only [next, false_and, iff_false]
        intro whole
        exact next ((aligned_append_iff e.received aligned).mp
          (aligned_shorter (extend_grows _ rest) whole))

section Updates

variable [LogCodec]

theorem receiveLog_aligned (disk : DiskIO) (s : Server) (entries : List PbLogEntry) (aligned : Aligned s.log) :
    Aligned (s.receiveLog disk entries).1.log := by
  induction entries generalizing s with
  | nil => exact aligned
  | cons e rest ih =>
    unfold Server.receiveLog
    split_ifs with old gap
    · exact ih s aligned
    · exact aligned
    · obtain ⟨logFile, same⟩ := appendLog_eq (disk.persist s.log.length) s e.received
      apply ih
      rw [same]
      exact (aligned_append_iff e.received aligned).mpr (not_not.mp gap)

theorem applyUpdate_aligned (disk : DiskIO) {s : Server} (msg : UpdateMessage) (aligned : Aligned s.log) :
    Aligned (s.applyUpdate disk msg).1.log := by
  unfold Server.applyUpdate
  split_ifs
  · rw [(Server.receiveFiles_keeps disk 0 _ msg.fullFiles).log]
    exact aligned_nil
  · exact receiveLog_aligned disk s msg.logEntries aligned

end Updates

def Node.appendsNext (n : Node) (id : Nat) : Bool :=
  match n.handlers id with
  | some ⟨_, .indexed _ entry⟩ => entry.index = n.server.log.length + 1
  | _ => true

def Fresh (n : Node) : NodeAction → Prop
  | .handler id (.append _) => n.appendsNext id
  | .appendEntries _ req => Contiguous n.server.log.length req.entries
  | _ => True

instance (n : Node) : ∀ action, Decidable (Fresh n action)
  | .handler id (.append _) => inferInstanceAs (Decidable (n.appendsNext id))
  | .appendEntries _ req => inferInstanceAs (Decidable (Contiguous n.server.log.length req.entries))
  | .handler _ .acquire | .handler _ (.copy _) | .handler _ .index | .handler _ .send | .handler _ .count
  | .handler _ (.ack _ _) | .handler _ .timeout | .handler _ (.commit _) | .handler _ (.notify _) | .handler _ (.prime _)
  | .handler _ (.finish _) | .create _ _ | .openFile _ _ | .begin _ _ _ _ | .applyUpdate _ _ | .sendHeartbeat _ _
  | .heartbeatReply _ | .monitorPrimary _ | .rebuild => .isTrue trivial

theorem handlerStep_aligned_iff [LogCodec] {n next : Node} {id : Nat} {action : HandlerStep}
    (aligned : Aligned n.server.log) (stepped : n.handlerStep id action = some next) :
    Aligned next.server.log ↔ Fresh n (.handler id action) := by
  obtain ⟨h, server, stage, here, _, effect, rfl⟩ := Node.handlerStep_cases stepped
  cases effect with
  | append persist primes entry table logFile stage before after =>
    obtain ⟨call, _⟩ := h
    subst before
    simp only [Fresh, Node.appendsNext, here, decide_eq_true_iff]
    exact aligned_append_iff entry aligned
  | send primes entry before | count primes entry awaiting before | ack peer ok primes entry majority awaiting acks before awaited =>
    exact iff_of_true aligned trivial
  | commit io primes entry majority awaiting acks before reached => exact iff_of_true aligned trivial
  | quiet action server stage still logs =>
    refine iff_of_true (still.keeps.log.symm ▸ aligned) ?_
    cases action <;> simp_all [Fresh]
  | finish env server stage still => exact iff_of_true (still.keeps.log.symm ▸ aligned) trivial

theorem step_aligned_iff [LogCodec] {n next : Node} {action : NodeAction} (aligned : Aligned n.server.log)
    (stepped : n.step action = some next) : Aligned next.server.log ↔ Fresh n action := by
  have kept (server : Server) (keeps : KeepsLog n.server server) : Aligned server.log :=
    keeps.log.symm ▸ aligned
  cases action with
  | create env req =>
    obtain ⟨s, answer, sent, handled, rfl⟩ := Node.handle_returned stepped
    exact iff_of_true (kept s (Server.create_keeps handled).toKeepsLog) trivial
  | openFile env req =>
    obtain ⟨s, answer, sent, handled, rfl⟩ := Node.handle_returned stepped
    exact iff_of_true (kept s (Server.openFile_keeps handled).toKeepsLog) trivial
  | begin id kind now req =>
    rcases n.begin_cases next id kind now req stepped with rfl | ⟨_, _, _, _, _, rfl⟩
    · exact iff_of_true aligned trivial
    · exact iff_of_true aligned trivial
  | handler id action => exact handlerStep_aligned_iff aligned stepped
  | appendEntries disk req =>
    cases stepped
    rw [appendEntries_log]
    exact extend_aligned_iff n.server.log req.entries aligned
  | applyUpdate disk msg =>
    cases stepped
    exact iff_of_true (applyUpdate_aligned disk msg aligned) trivial
  | sendHeartbeat now req =>
    cases stepped
    exact iff_of_true (kept _ (n.server.sendHeartbeat_keepsLog now req)) trivial
  | heartbeatReply success =>
    cases stepped
    exact iff_of_true (kept _ (n.server.heartbeatReply_keepsLog success)) trivial
  | monitorPrimary now =>
    cases stepped
    exact iff_of_true (kept _ (n.server.monitorPrimary_keepsLog now)) trivial
  | rebuild =>
    cases stepped
    exact iff_of_true (kept _ n.server.rebuildAllPrimeSets_keeps.toKeepsLog) trivial

theorem log_aligned_iff [LogCodec] (s : Server) (aligned : Aligned s.log) (actions : List NodeAction)
    (final : Node) (reached : Transition.run Node.step (Node.start s) actions = some final) :
    Transition.Everywhere Node.step (fun n => Aligned n.server.log) (Node.start s) actions ↔
      Transition.Meets Node.step Fresh (Node.start s) actions := by
  refine Transition.everywhere_iff_meets Fresh (fun _ => True) ?_ ?_ _ trivial aligned
    actions reached
  · intros
    trivial
  · intro n action next _ holds stepped
    exact step_aligned_iff holds stepped

def closeToAppend : List NodeAction :=
  [.begin 0 .close 0 ⟨"r2", 0, true, 0, [50, 10], "c"⟩, .handler 0 .acquire, .handler 0 (.copy .stored),
    .handler 0 .index, .handler 0 (.append .done)]

def closeAndReceive : List NodeAction := closeToAppend ++ [.appendEntries {} (sendAppendEntry "2" secondEntry 0)]

theorem log_aligned_one_close :
    ∃ final, Transition.run Node.step (Node.start firstOpened) closeAndReceive = some final ∧
      final.server.log.length = 2 ∧
      Transition.Meets Node.step Fresh (Node.start firstOpened) closeAndReceive ∧
      Transition.Everywhere Node.step (fun n => Aligned n.server.log) (Node.start firstOpened) closeAndReceive := by
  have outcome : (Transition.run Node.step (Node.start firstOpened) closeAndReceive).map (fun n => n.server.log.length) =
      some 2 := by decide +kernel
  obtain ⟨final, reached, length⟩ := Option.map_eq_some_iff.mp outcome
  have fresh : Transition.Meets Node.step Fresh (Node.start firstOpened) closeAndReceive :=
    Transition.meets_of_check Node.step Fresh (fun n action => decide (Fresh n action))
      (fun _ _ _ holds => of_decide_eq_true holds) (by decide +kernel)
  have empty : firstOpened.log = [] := by decide +kernel
  have aligned : Aligned firstOpened.log := empty ▸ aligned_nil
  exact ⟨final, reached, length, fresh, (log_aligned_iff firstOpened aligned closeAndReceive final reached).mpr fresh⟩

-- The second entry overtakes the first, which is then taken for a duplicate and dropped.
theorem reordered_entries_misalign :
    ∃ final, Transition.run Node.step (Node.start freshBackup)
        [.appendEntries {} (sendAppendEntry "1" secondEntry 0),
          .appendEntries {} (sendAppendEntry "1" firstEntry 0)] = some final ∧
      final.server.log = [secondEntry] ∧ ¬ Aligned final.server.log := by
  refine ⟨_, rfl, by decide +kernel, fun aligned => ?_⟩
  have first := aligned 0 secondEntry (by decide +kernel)
  exact absurd first (by decide)

end Ikkat
