import Ikkat.Mirror

set_option autoImplicit false

namespace Ikkat

section Lines

variable [LogCodec]

theorem recorded_line {line : Bytes} (rest : Bytes) (whole : newline ∉ line) :
    recorded (line ++ newline :: rest) =
      if line.length < maxBuf then (LogCodec.unmarshal (dropCR line)).toList ++ recorded rest else [] := by
  rw [recorded, scanLines_line [] line rest whole, List.nil_append]
  split_ifs
  · cases read : LogCodec.unmarshal (dropCR line) with
    | none => rw [List.filterMap_cons_none read]; rfl
    | some entry => rw [List.filterMap_cons_some read]; rfl
  · rfl

theorem recorded_logLine (entry : LogEntry) (rest : Bytes) :
    recorded (LogCodec.marshal entry ++ newline :: rest) = if Scannable entry then entry :: recorded rest else [] := by
  rw [recorded_line rest (newline_notMem_marshal entry), dropCR_marshal, LogCodec.unmarshal_marshal]
  rfl

theorem recorded_logBytes_append (entries : List LogEntry) (rest : Bytes) :
    (∀ entry ∈ entries, Scannable entry) ∧ recorded (logBytes entries ++ rest) = entries ++ recorded rest ∨
      (∃ entry ∈ entries, ¬ Scannable entry) ∧ (recorded (logBytes entries ++ rest)).length < entries.length := by
  induction entries with
  | nil => exact .inl ⟨by simp, by simp [logBytes]⟩
  | cons entry later ih =>
    rw [logBytes_cons, List.append_assoc, List.cons_append, recorded_logLine]
    split_ifs with fits
    · rcases ih with ⟨all, read⟩ | ⟨⟨long, member, tooLong⟩, short⟩
      · exact .inl ⟨List.forall_mem_cons.mpr ⟨fits, all⟩, by rw [read, List.cons_append]⟩
      · exact .inr ⟨⟨long, List.mem_cons_of_mem _ member, tooLong⟩, by simp only [List.length_cons]; omega⟩
    · exact .inr ⟨⟨entry, List.mem_cons_self, fits⟩, by simp⟩

theorem recorded_nil : recorded ([] : Bytes) = [] := rfl

theorem recorded_logBytes_iff (entries : List LogEntry) :
    recorded (logBytes entries) = entries ↔ ∀ entry ∈ entries, Scannable entry := by
  have read := recorded_logBytes_append entries []
  rw [List.append_nil, recorded_nil, List.append_nil] at read
  rcases read with ⟨fits, same⟩ | ⟨⟨long, member, tooLong⟩, short⟩
  · exact iff_of_true same fits
  · refine iff_of_false (fun same => ?_) fun fits => tooLong (fits long member)
    rw [same] at short
    omega

theorem recorded_logBytes_length (entries : List LogEntry) : (recorded (logBytes entries)).length ≤ entries.length := by
  have read := recorded_logBytes_append entries []
  rw [List.append_nil, recorded_nil, List.append_nil] at read
  rcases read with ⟨_, same⟩ | ⟨_, short⟩
  · rw [same]
  · omega

end Lines

namespace Server

section Append

variable [LogCodec]

def appendAll (s : Server) (entries : List LogEntry) : Server :=
  entries.foldl (fun s entry => (s.appendToDisk .done entry).1) s

theorem appendAll_logFile (s : Server) (entries : List LogEntry) :
    (s.appendAll entries).logFile = s.logFile ++ logBytes entries := by
  induction entries generalizing s with
  | nil => simp [appendAll, logBytes]
  | cons entry rest ih =>
    have later := ih (s.appendToDisk .done entry).1
    rw [appendAll, List.foldl_cons, ← appendAll, later, logBytes_cons]
    simp [appendToDisk, logLine]

theorem recoverFromLog_log (io : Nat → ApplyIO) (s : Server) :
    (s.recoverFromLog io).1.log = s.log ++ recorded s.logFile := by
  obtain ⟨_, _, _, same⟩ := recoverFromLog_eq io s
  rw [same]

theorem recoverFromLog_ok (io : Nat → ApplyIO) (s : Server) :
    (s.recoverFromLog io).2 = !(scanLines [] s.logFile).2 := by
  unfold recoverFromLog
  split_ifs with empty
  · rw [empty]
    rfl
  · dsimp only
    split_ifs with stopped
    · rw [stopped]
      rfl
    · simp [stopped]

end Append

theorem log_file_round_trip_iff [LogCodec] (io : Nat → ApplyIO) (writer reader : Server) (entries : List LogEntry)
    (empty : writer.logFile = []) (same : reader.logFile = (writer.appendAll entries).logFile) :
    ((reader.recoverFromLog io).1.log = reader.log ++ entries ∧ (reader.recoverFromLog io).2 = true) ↔
      ∀ entry ∈ entries, Scannable entry := by
  rw [recoverFromLog_log, recoverFromLog_ok, same, appendAll_logFile, empty, List.nil_append,
    List.append_cancel_left_eq, recorded_logBytes_iff]
  refine ⟨fun read => read.1, fun fits => ⟨fits, ?_⟩⟩
  rw [scanLines_fits entries fits]
  rfl

theorem not_scannable_of_large (entry : LogEntry) (large : 12 * 1024 * 1024 ≤ entry.content.length) :
    ¬ Scannable entry := by
  have nonempty : entry.content ≠ [] := by
    intro empty
    rw [empty] at large
    exact absurd large (by decide)
  have content : 16 * 1024 * 1024 ≤ (encodeContent entry.content).length := by
    rw [encodeContent, if_neg nonempty]
    simp only [List.length_append, List.length_cons, Base64.length_encode]
    omega
  have inside : (encodeContent entry.content).length ≤ (marshal entry).length := by
    simp only [marshal, List.length_append]
    omega
  intro short
  have bound : (marshal entry).length < 16 * 1024 * 1024 := short
  omega

def longEntry : LogEntry := ⟨1, "WRITE", "output/a", List.replicate (12 * 1024 * 1024) 0, 1⟩

def shortEntry : LogEntry := ⟨1, "WRITE", "output/a", [50, 10], 1⟩

def restartedOn (logFile : Bytes) : Server := newServer "1" "storage" mainServers .empty logFile

def shortEntries : List LogEntry :=
  [shortEntry, ⟨2, "WRITE", "output/b", [], 1⟩, ⟨3, "WRITE", "output/a", [50, 10, 51, 10], 2⟩]

theorem short_record_read_back :
    ((restartedOn ((restartedOn []).appendAll shortEntries).logFile).recoverFromLog fun _ => .ok).1.log = shortEntries ∧
      ((restartedOn ((restartedOn []).appendAll shortEntries).logFile).recoverFromLog fun _ => .ok).2 = true :=
  (log_file_round_trip_iff (fun _ => .ok) (restartedOn []) (restartedOn ((restartedOn []).appendAll shortEntries).logFile)
    shortEntries rfl rfl).mpr (by decide)

theorem recovery_stops [LogCodec] (io : Nat → ApplyIO) (writer reader : Server) {entry : LogEntry}
    (empty : writer.logFile = []) (same : reader.logFile = (writer.appendAll [entry]).logFile)
    (long : ¬ Scannable entry) :
    (reader.recoverFromLog io).1.log = reader.log ∧ (reader.recoverFromLog io).2 = false := by
  have file : reader.logFile = LogCodec.marshal entry ++ newline :: [] := by
    rw [same, appendAll_logFile, empty, logBytes_cons]
    rfl
  have stopped := scanLines_line [] (LogCodec.marshal entry) [] (newline_notMem_marshal entry)
  have tooLong : ¬ (LogCodec.marshal entry).length < maxBuf := long
  rw [List.nil_append, if_neg tooLong] at stopped
  rw [recoverFromLog_log, recoverFromLog_ok, file, recorded_logLine, if_neg long, stopped, List.append_nil]
  exact ⟨rfl, rfl⟩

theorem long_record_stops_recovery :
    (restartedOn []).logFile = [] ∧
      ((restartedOn ((restartedOn []).appendAll [longEntry]).logFile).recoverFromLog fun _ => .ok).1.log = [] ∧
      ((restartedOn ((restartedOn []).appendAll [longEntry]).logFile).recoverFromLog fun _ => .ok).2 = false := by
  have large : ¬ Scannable longEntry := not_scannable_of_large longEntry (by rw [longEntry, List.length_replicate])
  exact ⟨rfl, recovery_stops (fun _ => .ok) (restartedOn []) (restartedOn ((restartedOn []).appendAll [longEntry]).logFile)
    rfl rfl large⟩

end Server

section Torn

variable (torn : Bytes) (entry : LogEntry) (opens : torn <+: LogCodec.marshal entry)

include opens

theorem recorded_torn_line (first : LogEntry) (rest : List LogEntry) (cut : torn ≠ []) :
    (recorded (torn ++ logBytes (first :: rest))).length ≤ rest.length := by
  have printable : ∀ byte ∈ torn ++ LogCodec.marshal first, 32 ≤ byte := by
    intro byte member
    rcases List.mem_append.mp member with before | after
    · exact LogCodec.marshal_printable entry byte (opens.subset before)
    · exact LogCodec.marshal_printable first byte after
  have unread : LogCodec.unmarshal (torn ++ LogCodec.marshal first) = none := unmarshal_torn first opens cut
  rw [logBytes_cons, ← List.append_assoc, recorded_line _ (newline_notMem_printable printable),
    dropCR_printable printable, unread]
  split_ifs
  · exact recorded_logBytes_length rest
  · simp

theorem recorded_around_torn_iff (before after : List LogEntry) :
    (before ++ after).Sublist (recorded (logBytes before ++ torn ++ logBytes after)) ↔
      (∀ entry ∈ before ++ after, Scannable entry) ∧ (torn = [] ∨ after = []) := by
  rw [List.append_assoc]
  rcases recorded_logBytes_append before (torn ++ logBytes after) with ⟨fits, read⟩ | ⟨⟨long, member, tooLong⟩, short⟩
  · rw [read, List.append_sublist_append_left, List.forall_mem_append, and_iff_right fits]
    by_cases cut : torn = []
    · have whole : after.Sublist (recorded (logBytes after)) ↔ recorded (logBytes after) = after :=
        ⟨fun inside => (inside.eq_of_length_le (recorded_logBytes_length after)).symm, fun same => by rw [same]⟩
      rw [cut, List.nil_append, whole, recorded_logBytes_iff, and_iff_left (.inl rfl)]
    · cases after with
      | nil => simp
      | cons first rest =>
        refine iff_of_false (fun inside => ?_) (by simp [cut])
        have lengths := inside.length_le
        have few := recorded_torn_line torn entry opens first rest cut
        rw [List.length_cons] at lengths
        omega
  · refine iff_of_false (fun inside => ?_) fun holds => tooLong (holds.1 long (by simp [member]))
    have lengths := inside.length_le
    rw [List.length_append] at lengths
    omega

end Torn

namespace Server

theorem take_logLine {entry : LogEntry} {count : Nat} (cut : count < (logLine entry).length) :
    (logLine entry).take count = (LogCodec.marshal entry).take count := by
  rw [logLine, List.length_append, List.length_singleton] at cut
  rw [logLine, List.take_append_of_le_length (by omega)]

theorem torn_record_loses_only_itself_iff (io : Nat → ApplyIO) (writer restarted reader : Server)
    (before after : List LogEntry) (entry : LogEntry) (count : Nat) (empty : writer.logFile = [])
    (cut : count < (logLine entry).length)
    (crashed : restarted.logFile = ((writer.appendAll before).appendToDisk (.cut count) entry).1.logFile)
    (again : reader.logFile = (restarted.appendAll after).logFile) (fresh : reader.log = []) :
    (before ++ after).Sublist (reader.recoverFromLog io).1.log ↔
      (∀ entry ∈ before ++ after, Scannable entry) ∧ (count = 0 ∨ after = []) := by
  have torn : (LogCodec.marshal entry).take count = [] ↔ count = 0 := by
    rw [List.take_eq_nil_iff]
    exact or_iff_left (LogCodec.marshal_nonempty entry)
  have file : reader.logFile = logBytes before ++ (LogCodec.marshal entry).take count ++ logBytes after := by
    rw [again, appendAll_logFile, crashed, appendToDisk, appendAll_logFile, empty, take_logLine cut,
      List.nil_append]
  rw [recoverFromLog_log, fresh, List.nil_append, file,
    recorded_around_torn_iff _ entry ( List.take_prefix count _) before after, torn]

def crashedFile : Bytes := ((restartedOn []).appendAll [shortEntry] |>.appendToDisk (.cut 20) shortEntry).1.logFile

theorem torn_record_at_the_end :
    List.Sublist [shortEntry] ((restartedOn crashedFile).recoverFromLog fun _ => .ok).1.log :=
  (torn_record_loses_only_itself_iff (fun _ => .ok) (restartedOn []) (restartedOn crashedFile) (restartedOn crashedFile)
    [shortEntry] [] shortEntry 20 rfl (by decide) rfl rfl rfl).mpr ⟨by decide, .inr rfl⟩

-- The record that is written first after the restart is lost with the torn one.
theorem record_after_torn_lost :
    20 < (logLine shortEntry).length ∧
      (restartedOn crashedFile).logFile =
        (((restartedOn []).appendAll [shortEntry]).appendToDisk (.cut 20) shortEntry).1.logFile ∧
      ¬ List.Sublist ([shortEntry] ++ [shortEntry])
        ((restartedOn ((restartedOn crashedFile).appendAll [shortEntry]).logFile).recoverFromLog fun _ => .ok).1.log := by
  refine ⟨by decide, rfl, ?_⟩
  decide +kernel

end Server

end Ikkat
