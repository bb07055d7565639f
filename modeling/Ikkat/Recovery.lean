import Ikkat.Dedup

set_option autoImplicit false

namespace Ikkat

theorem scanLines_line (held line rest : Bytes) (whole : newline ∉ line) :
    scanLines held (line ++ newline :: rest) =
      if (held ++ line).length < maxBuf then
        (dropCR (held ++ line) :: (scanLines [] rest).1, (scanLines [] rest).2)
      else ([], true) := by
  induction line generalizing held with
  | nil => simp [scanLines]
  | cons byte later ih =>
    rw [List.mem_cons, not_or] at whole
    have longer := ih (held ++ [byte]) whole.2
    rw [List.append_assoc, List.singleton_append] at longer
    rw [List.cons_append, scanLines, if_neg (Ne.symm whole.1), longer]

section Printable

variable {line : Bytes} (printable : ∀ byte ∈ line, 32 ≤ byte)

include printable

theorem newline_notMem_printable : newline ∉ line := by
  intro inside
  exact absurd (printable newline inside) (by decide)

theorem dropCR_printable : dropCR line = line := by
  unfold dropCR
  rw [if_neg]
  intro last
  exact absurd (printable 13 (List.mem_of_getLast? last)) (by decide)

end Printable

def logBytes [LogCodec] (entries : List LogEntry) : Bytes :=
  (entries.map Server.logLine).flatten

theorem logBytes_cons [LogCodec] (entry : LogEntry) (rest : List LogEntry) :
    logBytes (entry :: rest) = LogCodec.marshal entry ++ newline :: logBytes rest := by
  simp [logBytes, Server.logLine]

section Scan

variable [LogCodec]

variable (entries : List LogEntry) (entry : LogEntry)

theorem logBytes_append :
    logBytes (entries ++ [entry]) = logBytes entries ++ Server.logLine entry := by
  simp [logBytes]

theorem newline_notMem_marshal : newline ∉ LogCodec.marshal entry :=
  newline_notMem_printable (LogCodec.marshal_printable entry)

theorem dropCR_marshal : dropCR (LogCodec.marshal entry) = LogCodec.marshal entry :=
  dropCR_printable (LogCodec.marshal_printable entry)

theorem scanLines_logBytes : (scanLines [] (logBytes entries)).1 <+: entries.map LogCodec.marshal ∧
      ((scanLines [] (logBytes entries)).2 = false →
        (scanLines [] (logBytes entries)).1 = entries.map LogCodec.marshal) := by
  induction entries with
  | nil => simp [logBytes, scanLines]
  | cons entry rest ih =>
    rw [logBytes_cons, scanLines_line [] _ _ (newline_notMem_marshal entry), List.nil_append, dropCR_marshal]
    split_ifs
    · exact ⟨(List.prefix_cons_inj _).mpr ih.1, fun fits => congrArg (LogCodec.marshal entry :: ·) (ih.2 fits)⟩
    · simp

theorem unmarshal_lines : (entries.map LogCodec.marshal).filterMap LogCodec.unmarshal = entries := by
  rw [List.filterMap_map]
  have back : LogCodec.unmarshal ∘ LogCodec.marshal = some := funext LogCodec.unmarshal_marshal
  rw [back, List.filterMap_some]

theorem recorded_subset : recorded (logBytes entries) ⊆ entries := by
  have lines := ((scanLines_logBytes entries).1.filterMap LogCodec.unmarshal).subset
  rwa [unmarshal_lines] at lines

theorem recorded_logBytes {entries : List LogEntry} (fits : (scanLines [] (logBytes entries)).2 = false) :
    recorded (logBytes entries) = entries := by
  rw [recorded, (scanLines_logBytes entries).2 fits, unmarshal_lines]

end Scan

namespace Server

theorem makeDirs_sameFiles (s : Server) : SameFiles s.tree s.makeDirs.tree := by
  have made (tree : Tree) (path : Path) : SameFiles tree ((tree.mkdirAll path).getD tree) := by
    cases dirs : tree.mkdirAll path with
    | none => exact fun _ _ => Iff.rfl
    | some next => exact mkdirAll_sameFiles dirs
  intro path content
  exact (made _ _ path content).trans (made _ _ path content)

end Server

end Ikkat
