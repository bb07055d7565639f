import Ikkat.CommitPaths
import Ikkat.Committed
import Ikkat.LogFile
import Ikkat.Names
import Ikkat.OnDisk

set_option autoImplicit false

namespace Ikkat

theorem scanLines_text (held text rest : Bytes) :
    scanLines held (text ++ newline :: rest) =
      if (scanLines held (text ++ [newline])).2 then scanLines held (text ++ [newline])
      else ((scanLines held (text ++ [newline])).1 ++ (scanLines [] rest).1, (scanLines [] rest).2) := by
  induction text generalizing held with
  | nil => by_cases fits : held.length < maxBuf <;> simp [scanLines, fits]
  | cons byte later ih =>
    by_cases ended : byte = newline
    · by_cases fits : held.length < maxBuf
      · simp only [List.cons_append, scanLines, ended, if_true]
        rw [ih []]
        split_ifs with stopped <;> simp [stopped]
      · simp [scanLines, ended, fits]
    · simp only [List.cons_append, scanLines, ended]
      exact ih (held ++ [byte])

section Damaged

variable [LogCodec] (damage : Int → Option Bytes)

def damagedLog (entries : List LogEntry) : Bytes :=
  (entries.map fun entry => (damage entry.index).getD (LogCodec.marshal entry) ++ [newline]).flatten

def Undecodable : Prop := ∀ index text, damage index = some text → recorded (text ++ [newline]) = []

theorem recorded_damagedLog (undecodable : Undecodable damage) (entries : List LogEntry)
    (scanned : (scanLines [] (damagedLog damage entries)).2 = false) :
    recorded (damagedLog damage entries) = entries.filter fun entry => damage entry.index = none := by
  induction entries with
  | nil => rfl
  | cons entry rest ih =>
    have file : damagedLog damage (entry :: rest) =
        (damage entry.index).getD (LogCodec.marshal entry) ++ newline :: damagedLog damage rest := by
      simp [damagedLog]
    rw [file, scanLines_text] at scanned
    split_ifs at scanned with stopped
    · rw [stopped] at scanned
      cases scanned
    · have parts : recorded (damagedLog damage (entry :: rest)) =
          recorded ((damage entry.index).getD (LogCodec.marshal entry) ++ [newline]) ++
            recorded (damagedLog damage rest) := by
        rw [recorded, file, scanLines_text, if_neg stopped, List.filterMap_append, recorded, recorded]
      rw [parts, ih scanned]
      cases lost : damage entry.index with
      | some text =>
        rw [Option.getD_some, undecodable entry.index text lost, List.filter_cons_of_neg (by simp [lost])]
        rfl
      | none =>
        rw [lost, Option.getD_none] at stopped
        have line := scanLines_line [] (LogCodec.marshal entry) [] (newline_notMem_marshal entry)
        have fits : Scannable entry := by
          by_contra long
          have tooLong : ¬ (LogCodec.marshal entry).length < maxBuf := long
          rw [List.nil_append, if_neg tooLong] at line
          rw [line] at stopped
          exact stopped rfl
        rw [Option.getD_none, recorded_logLine, if_pos fits, recorded_nil,
          List.filter_cons_of_pos (by simp [lost])]
        rfl

end Damaged

def topIndex (entries : List LogEntry) : Nat → Nat :=
  entries.foldl fun top entry => max top entry.index.toNat

theorem recoverLines_indices [LogCodec] (io : Nat → ApplyIO) (lines : List Bytes) (s : Server)
    (level : s.lastApplied = s.commitIndex) :
    (lines.foldl (Server.recoverEntry io) s).commitIndex = topIndex (lines.filterMap LogCodec.unmarshal) s.commitIndex ∧
      (lines.foldl (Server.recoverEntry io) s).lastApplied =
        topIndex (lines.filterMap LogCodec.unmarshal) s.commitIndex := by
  induction lines generalizing s with
  | nil => exact ⟨rfl, level⟩
  | cons line rest ih =>
    rw [List.foldl_cons]
    cases read : LogCodec.unmarshal line with
    | none =>
      have skipped : s.recoverEntry io line = s := by simp [Server.recoverEntry, read]
      rw [skipped, List.filterMap_cons_none read]
      exact ih s level
    | some entry =>
      rw [List.filterMap_cons_some read]
      have taken : (s.recoverEntry io line).commitIndex = max s.commitIndex entry.index.toNat ∧
          (s.recoverEntry io line).lastApplied = max s.commitIndex entry.index.toNat := by
        unfold Server.recoverEntry
        rw [read]
        dsimp only [Server.apply]
        split_ifs with higher
        · dsimp only
          omega
        · dsimp only
          omega
      have later := ih (s.recoverEntry io line) (taken.2.trans taken.1.symm)
      rw [taken.1] at later
      exact later

theorem topIndex_append (front : List LogEntry) (last : LogEntry) (start : Nat) :
    topIndex (front ++ [last]) start = max (topIndex front start) last.index.toNat := by
  simp [topIndex]

theorem topIndex_le (entries : List LogEntry) {bound : Nat} (below : ∀ entry ∈ entries, entry.index ≤ bound) :
    topIndex entries 0 ≤ bound := by
  induction entries using List.reverseRecOn with
  | nil => exact Nat.zero_le bound
  | append_singleton front last ih =>
    have before := ih fun entry member => below entry (by simp [member])
    have newest := below last (by simp)
    rw [topIndex_append]
    omega

def OnlyTailDamaged (damage : Int → Option Bytes) (entries : List LogEntry) : Prop :=
  ∀ entry ∈ entries, ∀ later ∈ entries, entry.index < later.index → damage later.index = none → damage entry.index = none

theorem topIndex_kept_iff (damage : Int → Option Bytes) (entries : List LogEntry) (aligned : Aligned entries) :
    topIndex (entries.filter fun entry => damage entry.index = none) 0 ≤
        (entries.filter fun entry => damage entry.index = none).length ↔ OnlyTailDamaged damage entries := by
  induction entries using List.reverseRecOn with
  | nil => simp [topIndex, OnlyTailDamaged]
  | append_singleton front last ih =>
    have grown : front <+: front ++ [last] := List.prefix_append ..
    have shorter : Aligned front := aligned_shorter grown aligned
    have newest : last.index = front.length + 1 := (aligned_append_iff last shorter).mp aligned
    have inside (entry : LogEntry) (member : entry ∈ front) : entry.index ≤ front.length := by
      obtain ⟨position, here⟩ := List.mem_iff_getElem?.mp member
      have index := shorter position entry here
      have bound := (List.getElem?_eq_some_iff.mp here).1
      omega
    have before := ih shorter
    cases lost : damage last.index with
    | some text =>
      rw [List.filter_append, List.filter_cons_of_neg (by simp [lost]), List.filter_nil, List.append_nil, before]
      constructor
      · intro tail entry member later behind higher kept
        rcases List.mem_append.mp behind with behind | behind
        · rcases List.mem_append.mp member with member | member
          · exact tail entry member later behind higher kept
          · have below := inside later behind
            rw [List.mem_singleton.mp member] at higher
            omega
        · rw [List.mem_singleton.mp behind, lost] at kept
          cases kept
      · intro tail entry member later behind
        exact tail entry (List.mem_append_left _ member) later (List.mem_append_left _ behind)
    | none =>
      have top : topIndex (front.filter fun entry => damage entry.index = none) 0 ≤ front.length :=
        topIndex_le _ fun entry member => inside entry (List.mem_of_mem_filter member)
      have reached : topIndex ((front ++ [last]).filter fun entry => damage entry.index = none) 0 = front.length + 1 := by
        rw [List.filter_append, List.filter_cons_of_pos (by simp [lost]), List.filter_nil, topIndex_append]
        omega
      have few := List.length_filter_le (fun entry => decide (damage entry.index = none)) front
      rw [reached, List.filter_append, List.filter_cons_of_pos (by simp [lost]), List.filter_nil, List.length_append,
        List.length_singleton]
      constructor
      · intro enough entry member later behind higher kept
        have all := List.length_filter_eq_length_iff.mp (by omega : (front.filter fun entry =>
          decide (damage entry.index = none)).length = front.length)
        rcases List.mem_append.mp member with member | member
        · simpa using all entry member
        · rw [List.mem_singleton.mp member]
          exact lost
      · intro tail
        have all : ∀ entry ∈ front, decide (damage entry.index = none) = true := by
          intro entry member
          have below := inside entry member
          exact decide_eq_true (tail entry (List.mem_append_left _ member) last (by simp) (by omega) lost)
        rw [List.length_filter_eq_length_iff.mpr all]

namespace Server

section Close

variable [LogCodec]

def AppliesItsEntry (env : Env) (s next : Server) : Prop :=
  ∃ entry, next.log = s.log ++ [entry] ∧ Applies s next entry ∧
    ((∀ position, env.apply position = .ok) → ∀ old,
      s.tree.find (join s.rootDir entry.filename) = some (.file old) →
      next.tree.find (join s.rootDir entry.filename) = some (.file entry.content))

omit [LogCodec] in
theorem committed_pending (env : Env) (s : Server) (call : Call) (logFile : Bytes) (close : call.kind = .close)
    (usable : s.lastApplied ≤ s.log.length) :
    let entry := s.logEntry call (s.content env.range call) s.log.length
    (committed env s call logFile).1.log = s.log ++ [entry] ∧
      (committed env s call logFile).1.lastApplied = s.log.length + 1 ∧
      (committed env s call logFile).1.rootDir = s.rootDir ∧
      (committed env s call logFile).1.tree =
        applyAll env.apply s.rootDir s.lastApplied (s.unapplied ++ [entry]) s.tree := by
  intro entry
  have index : entry.index = s.log.length + 1 := rfl
  have pending := pending_commit usable logFile index
  unfold committed updatePrimes
  rw [close]
  dsimp only
  rw [commitEntry_eq]
  refine ⟨rfl, ?_, rfl, congrArg (fun entries => applyAll env.apply s.rootDir s.lastApplied entries s.tree) pending⟩
  change max s.lastApplied (min entry.index.toNat (s.log ++ [entry]).length) = s.log.length + 1
  rw [List.length_append, List.length_singleton]
  omega

theorem close_applies_entry (env : Env) (s next : Server) (req : DataRequest) (response : Response)
    (sent : List AppendEntriesRequest) (usable : s.lastApplied ≤ s.log.length)
    (fresh : s.cachedCall .close req.requestId env.start = none) (dirty : req.dirty = true)
    (handled : s.close env req = .returned next (.ok response) sent) : s.AppliesItsEntry env next := by
  cases handleCall_outcome .close env s next req _ sent fresh handled with
  | clean call table response begun still => rw [dirty] at still; cases still
  | done call ready logFile response enters replicated persisted finished made =>
    obtain ⟨found, client, table, _, _, _, _, _, rfl, rfl⟩ := enters_eq .close env s ready req call enters
    generalize of : (⟨.close, req, found.filename, client.mode⟩ : Call) = call at made
    obtain ⟨log, reached, root, tree⟩ := committed_pending env { s with table := table } call logFile
      (by rw [← of]) usable
    generalize committed env { s with table := table } call logFile = done at made log reached root tree
    have ends := done.1.releasedCall_ends env call
    rw [← made] at ends
    let entry := logEntry { s with table := table } call (content env.range { s with table := table } call) s.log.length
    have longer : next.log = s.log ++ [entry] := ends.log.trans log
    have applied : next.lastApplied = s.log.length + 1 := ends.lastApplied.trans reached
    refine ⟨entry, longer, ⟨s.log.length, usable, by omega, by rw [longer, List.getElem?_concat_length]⟩, ?_⟩
    intro works old regular
    have healthy : env.apply = fun _ => .ok := funext works
    have content : lastContent s.rootDir (join s.rootDir entry.filename) (s.unapplied ++ [entry]) old = entry.content := by
      refine lastContent_at s.rootDir _ s.unapplied.length entry old rfl List.getElem?_concat_length ?_
      intro later other behind here
      have bound := (List.getElem?_eq_some_iff.mp here).1
      rw [List.length_append, List.length_singleton] at bound
      omega
    have written : done.1.tree.find (join s.rootDir entry.filename) = some (.file entry.content) := by
      rw [tree, healthy]
      exact (applyAll_file s.rootDir s.lastApplied _ s.tree _ old regular).trans
        (congrArg (some ∘ FileTree.Node.file) content)
    have apart : join s.rootDir entry.filename ≠ done.1.path (call.name ++ ".meta") := by
      rw [path, root]
      exact (join_suffix_ne s.rootDir call.name ".meta" (by decide) (by decide)).symm
    exact (ends.tree _ apart).trans written

theorem recovered_indices (io : Nat → ApplyIO) {s : Server} (unapplied : s.lastApplied = 0)
    (uncommitted : s.commitIndex = 0) : (s.recoverFromLog io).1.commitIndex = topIndex (recorded s.logFile) 0 ∧
      (s.recoverFromLog io).1.lastApplied = topIndex (recorded s.logFile) 0 := by
  have lines := recoverLines_indices io (scanLines [] s.logFile).1 s (unapplied.trans uncommitted.symm)
  rw [uncommitted] at lines
  unfold recoverFromLog
  split_ifs with empty
  · rw [empty]
    exact ⟨uncommitted, unapplied⟩
  · dsimp only
    split_ifs
    · exact lines
    · obtain ⟨_, rebuilt⟩ := rebuildAllPrimeSets_eq ((scanLines [] s.logFile).1.foldl (recoverEntry io) s)
      rw [rebuilt]
      exact lines

theorem recovery_leaves_usable_indices_iff (io : Nat → ApplyIO) (s : Server) (entries : List LogEntry)
    (damage : Int → Option Bytes) (aligned : Aligned entries) (undecodable : Undecodable damage)
    (file : s.logFile = damagedLog damage entries) (empty : s.log = []) (unapplied : s.lastApplied = 0)
    (uncommitted : s.commitIndex = 0) (recovers : (s.recoverFromLog io).2 = true) :
    let recovered := (s.recoverFromLog io).1
    (recovered.lastApplied ≤ recovered.log.length ∧ recovered.commitIndex ≤ recovered.log.length ∧
      ∀ (env : Env) (later next : Server) (req : DataRequest) (response : Response)
        (sent : List AppendEntriesRequest), recovered.log <+: later.log → later.lastApplied = recovered.lastApplied →
        later.cachedCall .close req.requestId env.start = none → req.dirty = true →
        later.close env req = .returned next (.ok response) sent → later.AppliesItsEntry env next) ↔
      OnlyTailDamaged damage entries := by
  intro recovered
  have scanned : (scanLines [] (damagedLog damage entries)).2 = false := by
    rw [recoverFromLog_ok, file] at recovers
    simpa using recovers
  have kept := recorded_damagedLog damage undecodable entries scanned
  have log : recovered.log = entries.filter fun entry => damage entry.index = none := by
    rw [recoverFromLog_log, empty, file, kept, List.nil_append]
  obtain ⟨commitIndex, lastApplied⟩ := recovered_indices io unapplied uncommitted
  rw [file, kept] at commitIndex lastApplied
  change recovered.commitIndex = _ at commitIndex
  change recovered.lastApplied = _ at lastApplied
  have usable : recovered.lastApplied ≤ recovered.log.length ↔ OnlyTailDamaged damage entries := by
    rw [lastApplied, log]
    exact topIndex_kept_iff damage entries aligned
  constructor
  · exact fun holds => usable.mp holds.1
  · intro tail
    have below := usable.mpr tail
    refine ⟨below, by rw [commitIndex, ← lastApplied]; exact below, ?_⟩
    intro env later next req response sent grown idle fresh dirty handled
    have length := grown.length_le
    exact close_applies_entry env later next req response sent (by omega) fresh dirty handled

end Close

def nextEntry : LogEntry := ⟨2, "WRITE", "output/a", [51, 10], 2⟩

def damageAt (index : Int) : Int → Option Bytes :=
  fun other => if other = index then some [120] else none

theorem undecodable_damageAt (index : Int) : Undecodable (damageAt index) := by
  intro other text damaged
  unfold damageAt at damaged
  split_ifs at damaged
  obtain rfl := Option.some.inj damaged
  decide

theorem aligned_two : Aligned [shortEntry, nextEntry] := by
  have one : Aligned [shortEntry] := (aligned_append_iff shortEntry aligned_nil).mpr rfl
  exact (aligned_append_iff nextEntry one).mpr rfl

def damagedTwo (index : Int) : Server := restartedOn (damagedLog (damageAt index) [shortEntry, nextEntry])

theorem usable_after_damaged_tail :
    ((damagedTwo 2).recoverFromLog fun _ => .ok).1.lastApplied ≤ ((damagedTwo 2).recoverFromLog fun _ => .ok).1.log.length := by
  have tail : OnlyTailDamaged (damageAt 2) [shortEntry, nextEntry] := by
    unfold OnlyTailDamaged
    decide
  exact ((recovery_leaves_usable_indices_iff (fun _ => .ok) (damagedTwo 2) [shortEntry, nextEntry] (damageAt 2)
    aligned_two (undecodable_damageAt 2) rfl rfl rfl rfl (by decide +kernel)).mpr tail).1

def damagedOpened : Option Server :=
  (((damagedTwo 1).startServer (fun _ => .ok) 0 "5001").create {} ⟨"r1", "output/b", "c", .write⟩).answered

theorem acknowledged_close_not_applied :
    Aligned [shortEntry, nextEntry] ∧ Undecodable (damageAt 1) ∧
      ((damagedTwo 1).recoverFromLog fun _ => .ok).2 = true ∧
      ((damagedTwo 1).recoverFromLog fun _ => .ok).1.lastApplied = 2 ∧
      ((damagedTwo 1).recoverFromLog fun _ => .ok).1.log.length = 1 ∧
      ∃ s next, damagedOpened = some s ∧
        (s.close twoAnswers ⟨"r2", 0, true, 0, [53, 10], "c"⟩).answered = some next ∧
        next.log.map LogEntry.content = [[51, 10], [53, 10]] ∧ next.bytes "output/b" = some [] := by
  have outcome : (damagedOpened.bind fun s => (s.close twoAnswers ⟨"r2", 0, true, 0, [53, 10], "c"⟩).answered.map
      fun next => (next.log.map LogEntry.content, next.bytes "output/b")) = some ([[51, 10], [53, 10]], some []) := by
    decide +kernel
  obtain ⟨s, opened, rest⟩ := Option.bind_eq_some_iff.mp outcome
  obtain ⟨next, closed, same⟩ := Option.map_eq_some_iff.mp rest
  obtain ⟨log, bytes⟩ := Prod.mk.inj same
  exact ⟨aligned_two, undecodable_damageAt 1, by decide +kernel, by decide +kernel, by decide +kernel, s, next, opened, closed, log, bytes⟩

end Server

end Ikkat
