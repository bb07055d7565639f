import Mathlib.Data.List.Infix
import Ikkat.Election

set_option autoImplicit false

namespace Ikkat

variable {log : List LogEntry} {entry : LogEntry}

def StoredAt (log : List LogEntry) (entry : LogEntry) : Prop :=
  1 ≤ entry.index ∧ log[(entry.index - 1).toNat]? = some entry

instance (log : List LogEntry) (entry : LogEntry) : Decidable (StoredAt log entry) :=
  inferInstanceAs (Decidable (_ ∧ _))

def Fits : List LogEntry → List PbLogEntry → Prop
  | _, [] => True
  | log, e :: rest =>
      if e.received.index ≤ log.length then StoredAt log e.received ∧ Fits log rest
      else e.received.index = log.length + 1 ∧ Fits (log ++ [e.received]) rest

theorem received_injective : Function.Injective PbLogEntry.received := by
  rintro ⟨index, op, filename, content, version⟩ ⟨index', op', filename', content', version'⟩ same
  simp only [PbLogEntry.received, LogEntry.mk.injEq, Int32.toInt_inj] at same
  simp [same]

variable {later : List LogEntry}

theorem storedAt_mono (grown : log <+: later) (stored : StoredAt log entry) : StoredAt later entry := by
  obtain ⟨suffix, rfl⟩ := grown
  obtain ⟨positive, found⟩ := stored
  refine ⟨positive, ?_⟩
  rw [List.getElem?_append_left (List.getElem?_eq_some_iff.mp found).1, found]

theorem storedAt_next (next : entry.index = log.length + 1) :
    StoredAt (log ++ [entry]) entry := by
  have position : (entry.index - 1).toNat = log.length := by omega
  exact ⟨by omega, by rw [position, List.getElem?_concat_length]⟩

theorem storedAt_within (grown : log <+: later)
    (old : entry.index ≤ log.length) (stored : StoredAt later entry) : StoredAt log entry := by
  obtain ⟨suffix, rfl⟩ := grown
  obtain ⟨positive, found⟩ := stored
  exact ⟨positive, by rwa [List.getElem?_append_left (by omega)] at found⟩

theorem extend_grows (log : List LogEntry) (entries : List PbLogEntry) : log <+: extend log entries := by
  induction entries generalizing log with
  | nil => exact List.prefix_rfl
  | cons e rest ih =>
    unfold extend
    split_ifs with old
    · exact ih log
    · exact (List.prefix_append log [e.received]).trans (ih _)

theorem extend_new (log : List LogEntry) (entries : List PbLogEntry) {position : Nat}
    (beyond : log.length ≤ position) (found : (extend log entries)[position]? = some entry) :
    entry ∈ entries.map PbLogEntry.received := by
  induction entries generalizing log with
  | nil =>
    rw [extend, List.getElem?_eq_none beyond] at found
    cases found
  | cons e rest ih =>
    unfold extend at found
    rw [List.map_cons, List.mem_cons]
    split_ifs at found with old
    · exact .inr (ih log beyond found)
    · rcases Nat.eq_or_lt_of_le beyond with rfl | later
      · obtain ⟨suffix, grown⟩ := extend_grows (log ++ [e.received]) rest
        rw [← grown, List.append_assoc, List.getElem?_append_right (Nat.le_refl _)] at found
        simp only [Nat.sub_self, List.singleton_append, List.getElem?_cons_zero, Option.some.injEq] at found
        exact .inl found.symm
      · refine .inr (ih (log ++ [e.received]) ?_ found)
        rw [List.length_append]
        exact later

theorem fits_stored (log : List LogEntry) (entries : List PbLogEntry) (fits : Fits log entries) :
    ∀ e ∈ entries, StoredAt (extend log entries) e.received := by
  induction entries generalizing log with
  | nil => simp
  | cons e rest ih =>
    unfold Fits at fits
    unfold extend
    intro other member
    split_ifs at fits ⊢ with old
    · rcases List.mem_cons.mp member with rfl | later
      · exact storedAt_mono (extend_grows log rest) fits.1
      · exact ih log fits.2 other later
    · rcases List.mem_cons.mp member with rfl | later
      · exact storedAt_mono (extend_grows _ rest) (storedAt_next fits.1)
      · exact ih _ fits.2 other later

-- An entry that lands in the wrong place is not found at its own, unless the request repeats it.
theorem stored_fits (log : List LogEntry) (entries : List PbLogEntry) (distinct : entries.Nodup)
    (stored : ∀ e ∈ entries, StoredAt (extend log entries) e.received) : Fits log entries := by
  induction entries generalizing log with
  | nil => trivial
  | cons e rest ih =>
    obtain ⟨fresh, others⟩ := List.nodup_cons.mp distinct
    have head := stored e (by simp)
    have tail (other : PbLogEntry) (member : other ∈ rest) := stored other (by simp [member])
    unfold extend at head tail
    unfold Fits
    split_ifs at head tail ⊢ with old
    · exact ⟨storedAt_within (extend_grows log rest) old head, ih log others tail⟩
    · refine ⟨?_, ih _ others tail⟩
      by_contra gap
      have beyond : (log ++ [e.received]).length ≤ (e.received.index - 1).toNat := by
        rw [List.length_append, List.length_singleton]
        omega
      obtain ⟨other, member, same⟩ := List.mem_map.mp (extend_new _ rest beyond head.2)
      exact fresh (received_injective same ▸ member)

theorem acknowledged_entries_stored_iff [LogCodec] (disk : DiskIO) (backup : Server)
    (req : AppendEntriesRequest) (distinct : req.entries.Nodup) :
    ((backup.appendEntries disk req).2 = true →
        ∀ e ∈ req.entries, StoredAt (backup.appendEntries disk req).1.log e.received) ↔
      Fits backup.log req.entries := by
  have success : (backup.appendEntries disk req).2 = true := rfl
  rw [appendEntries_log]
  exact ⟨fun stored => stored_fits _ _ distinct (stored success), fun fits _ => fits_stored _ _ fits⟩

def firstEntry : LogEntry := ⟨1, "WRITE", "output/a", [50, 10], 2⟩

def secondEntry : LogEntry := ⟨2, "WRITE", "output/a", [50, 10, 51, 10], 3⟩

theorem acknowledged_first_entry_stored :
    (blankServer "2").log = [] ∧
      (((blankServer "2").appendEntries {} (sendAppendEntry "1" firstEntry 0)).2 = true →
        ∀ e ∈ [firstEntry.wire],
          StoredAt ((blankServer "2").appendEntries {} (sendAppendEntry "1" firstEntry 0)).1.log e.received) :=
  ⟨rfl, (acknowledged_entries_stored_iff {} (blankServer "2") (sendAppendEntry "1" firstEntry 0)
    (List.nodup_singleton _)).mpr (by simp +decide [Fits, sendAppendEntry, blankServer, newServer])⟩

-- A restarted backup has taken over the first entry and then fetched a full sync, which empties its log.
def syncedBackup : Server :=
  let restarted := ((blankServer "2").recoverFromLog fun _ => .ok).1
  let received := (restarted.appendEntries {} (sendAppendEntry "1" firstEntry 0)).1
  (received.applyUpdate {} ⟨true, [], [⟨"output/a", 2, [50, 10]⟩]⟩).1

theorem synced_backup_misplaces_entry :
    (syncedBackup.appendEntries {} (sendAppendEntry "1" secondEntry 1)).2 = true ∧
      (syncedBackup.appendEntries {} (sendAppendEntry "1" secondEntry 1)).1.log = [secondEntry] ∧
      secondEntry.wire ∈ (sendAppendEntry "1" secondEntry 1).entries ∧ secondEntry.wire.received = secondEntry ∧
      ¬ StoredAt (syncedBackup.appendEntries {} (sendAppendEntry "1" secondEntry 1)).1.log secondEntry := by
  decide +kernel

end Ikkat
