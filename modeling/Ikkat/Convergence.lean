import Ikkat.Replay

set_option autoImplicit false

namespace Ikkat

variable {entry : LogEntry} {s backup next : Server}

structure Twins where
  primary : Server
  backup : Server

section Step

variable [LogCodec]

def Server.receiveAll (disk : DiskIO) (s : Server) (sent : List AppendEntriesRequest) : Server :=
  sent.foldl (fun s req => (s.appendEntries disk req).1) s

def Twins.step (t : Twins) (action : Delivery × DiskIO) : Option Twins :=
  match t.primary.serve action.1.env action.1.rpc with
  | .returned next (.ok _) sent => some ⟨next, t.backup.receiveAll action.2 sent⟩
  | _ => none

theorem Twins.step_returned (t next : Twins) (action : Delivery × DiskIO) (stepped : t.step action = some next) :
    ∃ response sent, t.primary.serve action.1.env action.1.rpc = .returned next.primary (.ok response) sent ∧
      next.backup = t.backup.receiveAll action.2 sent := by
  unfold Twins.step at stepped
  split at stepped
  case h_1 primary response sent handled =>
    cases stepped
    exact ⟨response, sent, handled, rfl⟩
  case h_2 => cases stepped

theorem receiveAll_call {disk : DiskIO} (healthy : ∀ position, disk.apply position = .ok) (id : String)
    (applied : s.lastApplied = s.log.length) (committed : s.commitIndex = s.log.length)
    (index : entry.index = s.log.length + 1) (fits : s.log.length + 1 < 2 ^ 31) :
    ∃ logFile, s.receiveAll disk
        [sendAppendEntry id entry s.log.length, sendAppendEntry id entry (s.log.length + 1)] =
      { s with
        log := s.log ++ [entry]
        commitIndex := s.log.length + 1
        lastApplied := s.log.length + 1
        tree := applyTree .ok s.rootDir entry s.tree
        logFile := logFile } := by
  have received : entry.wire.received = entry := wire_received entry (by omega) (by omega)
  have commit (count : Nat) (small : count < 2 ^ 31) : (Int32.ofInt count).toInt.toNat = count := by
    rw [Int32.toInt_ofInt_of_le (by omega) (by omega)]
    omega
  obtain ⟨first, round⟩ := appendEntries_eq disk s (sendAppendEntry id entry s.log.length)
  have stored : (s.appendEntries disk (sendAppendEntry id entry s.log.length)).1 =
      { s with log := s.log ++ [entry], logFile := first } := by
    rw [round]
    have new : ¬ entry.index ≤ s.log.length := by omega
    simp only [sendAppendEntry, extend, received, commit s.log.length (by omega), if_neg new]
    rw [committed, Nat.max_self, Server.applied_none _ _ (.inl (by rw [applied]))]
  obtain ⟨second, notice⟩ := appendEntries_eq disk { s with log := s.log ++ [entry], logFile := first }
    (sendAppendEntry id entry (s.log.length + 1))
  simp only [Server.receiveAll, List.foldl_cons]
  rw [stored, notice]
  have old : entry.index ≤ (s.log ++ [entry]).length := by simp; omega
  simp only [sendAppendEntry, extend, received, commit (s.log.length + 1) (by omega), if_pos old]
  have reached : max s.commitIndex (s.log.length + 1) = s.log.length + 1 := by omega
  rw [reached]
  have pending : Server.pending { s with log := s.log ++ [entry], commitIndex := s.log.length + 1, logFile := second } =
      [entry] := by
    simp only [Server.pending, applied]
    rw [List.take_of_length_le (by simp), List.drop_left]
  simp only [Server.applied, pending, applyAll, healthy]
  simp [applied]

end Step

structure Below (files : OutputNames) (backup primary : Server) : Prop where
  rootDir : backup.rootDir = primary.rootDir
  dirs : ∀ path, backup.tree.find path = some .dir → primary.tree.find path = some .dir
  regular : ∀ path content, backup.tree.find path = some (.file content) →
    ∃ content, primary.tree.find path = some (.file content)
  noTmp : ∀ name ∈ files.names, ∀ content,
    backup.tree.find (withSuffix (primary.path name) ".tmp") ≠ some (.file content)

structure Mirrored (files : OutputNames) (start : Server) (t : Twins) : Prop where
  current : Current files t.primary
  opened : t.primary.Opened files
  log : t.backup.log = t.primary.log
  committed : t.primary.commitIndex = t.primary.log.length
  backupCommitted : t.backup.commitIndex = t.backup.log.length
  backupApplied : t.backup.lastApplied = t.backup.log.length
  below : Below files t.backup t.primary
  logged : ∀ name ∈ files.names, lastFor name t.primary.log ≠ none → t.backup.bytes name = t.primary.bytes name
  unlogged : ∀ name ∈ files.names, lastFor name t.primary.log = none → t.backup.bytes name = start.bytes name
  old : ∀ name ∈ files.names, lastFor name t.primary.log = none → start.bytes name ≠ none →
    t.primary.bytes name = start.bytes name

def Mirrorable (files : OutputNames) (t : Twins) (action : Delivery × DiskIO) : Prop :=
  Replayable files t.primary action.1 ∧ (∀ position, action.2.apply position = .ok) ∧
    t.primary.log.length + 1 < 2 ^ 31 ∧
    ∀ req, action.1.rpc = .delete req → ∀ safe, normalize req.filename = some safe → t.primary.bytes safe = none

section Mirror

variable (files : OutputNames)

theorem below_rests (below : Below files backup s) (rests : Rests files s next)
    (kept : ∀ path content, s.tree.find path = some (.file content) →
      ∃ content, next.tree.find path = some (.file content)) : Below files backup next where
  rootDir := below.rootDir.trans rests.rootDir.symm
  dirs path dir := rests.dirs path (below.dirs path dir)
  regular path content file := by
    obtain ⟨held, present⟩ := below.regular path content file
    exact kept path held present
  noTmp name member := by
    rw [Server.path_of_root rests.rootDir]
    exact below.noTmp name member

theorem opened_rests (opened : s.Opened files) (rests : Rests files s next)
    (kept : ∀ name content, s.bytes name = some content → ∃ content, next.bytes name = some content) :
    next.Opened files := by
  intro fd found present
  rcases rests.opened fd found present with ⟨old, before, same, clients⟩ | fresh
  · obtain ⟨inside, regular⟩ := opened fd old before
    rw [same]
    refine ⟨inside, fun client state registered mode => ?_⟩
    obtain ⟨content, holds⟩ := regular client state (clients client state registered) mode
    exact kept _ content holds
  · exact fresh

variable {start after : Server}

theorem mirrored_rests (mirrored : Mirrored files start ⟨s, backup⟩)
    (rests : Rests files s next) (current : Current files next)
    (kept : ∀ path content, s.tree.find path = some (.file content) →
      ∃ content, next.tree.find path = some (.file content))
    (bytes : ∀ name ∈ files.names, s.bytes name ≠ none ∨ lastFor name s.log ≠ none → next.bytes name = s.bytes name) :
    Mirrored files start ⟨next, backup⟩ := by
  have path := Server.path_of_root rests.rootDir
  refine ⟨current, opened_rests files mirrored.opened rests fun name content holds => ?_, ?_, ?_,
    mirrored.backupCommitted, mirrored.backupApplied, below_rests files mirrored.below rests kept,
    ?_, ?_, ?_⟩
  · rw [Server.bytes_eq] at holds
    obtain ⟨held, present⟩ := kept _ content holds
    exact ⟨held, (Server.bytes_eq ..).mpr (by rw [path]; exact present)⟩
  · exact mirrored.log.trans rests.log.symm
  · dsimp only
    rw [rests.commitIndex, rests.log]
    exact mirrored.committed
  all_goals
    intro name inside
    have facts := And.intro (mirrored.logged name inside) (And.intro (mirrored.unlogged name inside)
      (mirrored.old name inside))
    rw [rests.log]
  · intro found
    rw [bytes name inside (.inr found)]
    exact facts.1 found
  · exact facts.2.1
  · intro missing existed
    have same := facts.2.2 missing existed
    rw [bytes name inside (.inl (same ▸ existed)), same]

theorem applyTree_below (below : Below files backup s)
    (write : entry.op = "WRITE") {content : Bytes} (present : s.bytes entry.filename = some content) :
    let tree := applyTree .ok backup.rootDir entry backup.tree
    tree.find (s.path entry.filename) = some (.file entry.content) ∧
      ∀ path, path ≠ s.path entry.filename → tree.find path = backup.tree.find path ∨
        tree.find path = some .dir ∧ s.tree.find path = some .dir := by
  intro tree
  have parent := Server.parent_of_bytes content present
  have above := s.tree.find_take (s.path entry.filename).dropLast parent
  have here : join backup.rootDir entry.filename = s.path entry.filename := by rw [below.rootDir]; rfl
  rw [Server.bytes_eq] at present
  obtain ⟨made, mkdir, dir, others⟩ := backup.tree.mkdirAll_free (s.path entry.filename).dropLast (by
    intro count held file
    obtain ⟨_, other⟩ := below.regular _ held file
    rw [above count] at other
    cases other)
  have leaf : made.find (s.path entry.filename) ≠ some .dir := by
    intro found
    rcases others (s.path entry.filename) with same | ⟨_, count, same⟩
    · rw [same] at found
      rw [below.dirs _ found] at present
      cases present
    · rw [same, above count] at present
      cases present
  obtain ⟨next, written⟩ := made.writeFile_into _ entry.content dir leaf
  have result : tree = next := by
    simp [tree, applyTree, write, ApplyIO.ok, here, mkdir, osWriteFile, written]
  have found := fun path => FileTree.Tree.find_writeFile path written
  rw [result]
  refine ⟨by rw [found, if_pos rfl], fun path other => ?_⟩
  rw [found, if_neg other]
  rcases others path with same | ⟨made, count, rfl⟩
  · exact .inl same
  · exact .inr ⟨made, above count⟩

variable [LogCodec]

theorem below_logged (below : Below files backup s) {name : String}
    (member : name ∈ files.names) (named : entry.filename = name) (write : entry.op = "WRITE") {content : Bytes}
    (present : s.bytes name = some content) (logged : Server.Logged s next name entry)
    (root : after.rootDir = backup.rootDir) (tree : after.tree = applyTree .ok backup.rootDir entry backup.tree) :
    Below files after next ∧ after.bytes name = next.bytes name := by
  have path := Server.path_of_root logged.rootDir
  subst named
  obtain ⟨own, others⟩ := applyTree_below files below write present
  rw [← tree] at own others
  have file : next.tree.find (s.path entry.filename) = some (.file entry.content) := by
    refine logged.own.resolve_right fun dir => ?_
    rw [Server.bytes_eq, dir] at present
    cases present
  refine ⟨⟨root.trans (below.rootDir.trans logged.rootDir.symm), fun target dir => ?_, fun target held found => ?_,
    fun other inside held found => ?_⟩, ?_⟩
  · rcases eq_or_ne target (s.path entry.filename) with rfl | different
    · rw [own] at dir
      cases dir
    · rcases others target different with same | ⟨_, above⟩
      · exact logged.dirs target (below.dirs target (same ▸ dir))
      · exact logged.dirs target above
  · rcases eq_or_ne target (s.path entry.filename) with rfl | different
    · exact ⟨_, file⟩
    · rcases others target different with same | ⟨here, _⟩
      · rw [same] at found
        obtain ⟨content, regular⟩ := below.regular target held found
        refine logged.kept target content ?_ regular
        rintro rfl
        exact below.noTmp _ member held found
      · rw [here] at found
        cases found
  · rw [path] at found
    rcases others _ (Ne.symm (files.tmp_apart s other entry.filename inside member)) with same | ⟨here, _⟩
    · exact below.noTmp other inside held (same ▸ found)
    · rw [here] at found
      cases found
  · have here : after.path entry.filename = s.path entry.filename := by rw [Server.path, root, below.rootDir]; rfl
    rw [(Server.bytes_eq after _ entry.content).mpr (by rw [here]; exact own),
      (Server.bytes_eq next _ entry.content).mpr (by rw [path]; exact file)]

theorem mirrored_logged (mirrored : Mirrored files start ⟨s, backup⟩)
    (current : Current files next) {name : String} (member : name ∈ files.names)
    (held : s.Held name) (named : entry.filename = name) (write : entry.op = "WRITE")
    (logged : Server.Logged s next name entry)
    (bytes : ∀ other ∈ files.names, other ≠ name → next.bytes other = s.bytes other) (logFile : Bytes)
    (received : after =
      { backup with
        log := backup.log ++ [entry]
        commitIndex := backup.log.length + 1
        lastApplied := backup.log.length + 1
        tree := applyTree .ok backup.rootDir entry backup.tree
        logFile := logFile }) : Mirrored files start ⟨next, after⟩ := by
  have path := Server.path_of_root logged.rootDir
  have same : backup.log = s.log := mirrored.log
  have root : after.rootDir = backup.rootDir := by rw [received]
  have tree : after.tree = applyTree .ok backup.rootDir entry backup.tree := by rw [received]
  have length : (backup.log ++ [entry]).length = backup.log.length + 1 := List.length_append
  obtain ⟨fd, found, client, state, present, filename, registered, mode⟩ := held
  obtain ⟨content, holds⟩ := (mirrored.opened fd found present).2 client state registered mode
  rw [filename] at holds
  have agree : ∀ other ∈ files.names, other ≠ name → after.bytes other = backup.bytes other := by
    intro other inside different
    refine backup.bytes_of_files after root other fun content => ?_
    rw [tree]
    refine applyTree_other .ok backup.rootDir entry backup.tree _ content fun equal => different ?_
    exact files.path_injective backup.rootDir other name inside member (named ▸ equal)
  obtain ⟨below, own⟩ := below_logged files mirrored.below member named write
    holds logged root tree
  have last (other : String) : lastFor other next.log = if other = name then some entry else lastFor other s.log := by
    rw [logged.log, Server.lastFor_append, named]
    simp only [eq_comm]
  refine ⟨current, fun fd found present => ?_, ?_, ?_, ?_, ?_, below, ?_, ?_, ?_⟩
  · obtain ⟨old, before, same, clients⟩ := logged.files fd found present
    obtain ⟨inside, regular⟩ := mirrored.opened fd old before
    rw [same]
    refine ⟨inside, fun client state registered mode => ?_⟩
    obtain ⟨content, holds⟩ := regular client state (clients client state registered) mode
    rw [Server.bytes_eq] at holds
    obtain ⟨left, kept⟩ := logged.kept _ content (files.tmp_apart s name old.filename member inside) holds
    exact ⟨left, (Server.bytes_eq ..).mpr (by rw [path]; exact kept)⟩
  · dsimp only
    rw [received, logged.log, ← same]
  · dsimp only
    rw [logged.commitIndex, logged.log, List.length_append, List.length_singleton]
  · dsimp only
    rw [received, ← length]
  · dsimp only
    rw [received, ← length]
  · intro other inside recorded
    by_cases equal : other = name
    · rw [equal]
      exact own
    · rw [last, if_neg equal] at recorded
      rw [agree other inside equal, bytes other inside equal]
      exact mirrored.logged other inside recorded
  · intro other inside missing
    rw [last] at missing
    split_ifs at missing with equal
    rw [agree other inside equal]
    exact mirrored.unlogged other inside missing
  · intro other inside missing existed
    rw [last] at missing
    split_ifs at missing with equal
    rw [bytes other inside equal]
    exact mirrored.old other inside missing existed

theorem mirrored_step (start : Server) (t next : Twins) (action : Delivery × DiskIO)
    (mirrored : Mirrored files start t) (mirrorable : Mirrorable files t action) (stepped : t.step action = some next) :
    Mirrored files start next := by
  obtain ⟨response, sent, handled, received⟩ := t.step_returned next action stepped
  obtain ⟨replayable, healthy, fits, spares⟩ := mirrorable
  have effect := Server.serve_effect files mirrored.current replayable
     handled
  have current := current_effect files mirrored.current effect
  have bytes := effect_bytes files effect
  obtain ⟨primary, backup⟩ := t
  obtain ⟨after, receiver⟩ := next
  subst received
  generalize at_ : Except.ok response = answer at effect
  cases effect with
  | quiet _ rests same =>
    exact mirrored_rests files mirrored rests current
      (fun path content file => ⟨content, (same path content).mpr file⟩)
      fun name _ _ => primary.bytes_of_files after rests.rootDir name (same _)
  | created _ safe subject member rests adds =>
    have absent : primary.bytes safe = none := by
      rw [Option.eq_none_iff_forall_ne_some]
      intro content present
      rw [Server.bytes_eq, adds.1] at present
      cases present
    refine mirrored_rests files mirrored rests current (fun path content file => ?_)
      fun name inside known => bytes name inside (.inl ?_)
    · by_cases same : path = primary.path safe
      · rw [same, adds.1] at file
        cases file
      · exact ⟨content, (adds.2 path content).mpr (by rw [if_neg same]; exact file)⟩
    · rintro own
      obtain rfl : safe = name := Option.some.inj (subject.symm.trans own)
      rcases known with present | found
      · exact present absent
      · obtain ⟨entry, last⟩ := Option.ne_none_iff_exists'.mp found
        rcases mirrored.current.newest safe inside entry last with file | dir
        · exact absurd (absent.symm.trans file) (by simp)
        · rw [adds.1] at dir
          cases dir
  | removed _ req safe deletes subject _ regular =>
    rw [deletes] at subject
    exact absurd (spares req deletes safe subject) regular
  | logged _ name entry subject member held named write index logged =>
    have same : backup.log = primary.log := mirrored.log
    have committed : primary.commitIndex = backup.log.length := by
      rw [same]
      exact mirrored.committed
    rw [← same] at index fits
    obtain ⟨logFile, received⟩ := receiveAll_call healthy primary.id mirrored.backupApplied
      mirrored.backupCommitted index fits
    refine mirrored_logged files mirrored current member held named write logged
      (fun other inside different => bytes other inside (.inl ?_)) logFile ?_
    · rw [subject]
      simpa using Ne.symm different
    · rw [committed, ← same]
      exact received
  | blocked => cases at_

structure SameStart (primary backup : Server) : Prop where
  log : primary.log = [] ∧ backup.log = []
  commitIndex : primary.commitIndex = 0 ∧ backup.commitIndex = 0
  lastApplied : primary.lastApplied = 0 ∧ backup.lastApplied = 0
  rootDir : backup.rootDir = primary.rootDir
  tree : backup.tree = primary.tree
  opened : primary.Opened files
  noTmp : ∀ name ∈ files.names, ∀ content,
    primary.tree.find (withSuffix (primary.path name) ".tmp") ≠ some (.file content)

omit [LogCodec] in
theorem mirrored_start {primary : Server} (start : SameStart files primary backup) :
    Mirrored files primary ⟨primary, backup⟩ := by
  have nothing (name : String) : lastFor name primary.log = none := by rw [start.log.1]; rfl
  have same (name : String) : backup.bytes name = primary.bytes name :=
    primary.bytes_congr backup start.rootDir name (by rw [start.tree])
  have current : Current files primary := by
    refine ⟨?_, ?_, fun fd found present => ?_, fun name _ entry last => ?_⟩
    · rw [start.lastApplied.1, start.log.1]
      rfl
    · simp [start.log.1]
    · obtain ⟨inside, regular⟩ := start.opened fd found present
      refine ⟨inside, fun client state registered mode => ?_⟩
      obtain ⟨content, holds⟩ := regular client state registered mode
      exact Server.parent_of_bytes content holds
    · rw [nothing] at last
      cases last
  refine ⟨current, start.opened, ?_, ?_, ?_, ?_, ⟨start.rootDir, ?_, ?_, ?_⟩, fun name _ found => ?_,
    fun name _ _ => same name, fun _ _ _ _ => rfl⟩
  · exact start.log.2.trans start.log.1.symm
  · simp [start.commitIndex.1, start.log.1]
  · simp [start.commitIndex.2, start.log.2]
  · simp [start.lastApplied.2, start.log.2]
  · rw [start.tree]
    exact fun _ dir => dir
  · rw [start.tree]
    exact fun _ content file => ⟨content, file⟩
  · rw [start.tree]
    exact start.noTmp
  · exact absurd (nothing name) found

theorem replicas_converge_iff (primary backup : Server) (start : SameStart files primary backup)
    (actions : List (Delivery × DiskIO)) (final : Twins)
    (mirrorable : Transition.Meets Twins.step (Mirrorable files) ⟨primary, backup⟩ actions)
    (reached : Transition.run Twins.step ⟨primary, backup⟩ actions = some final) :
    (∀ name ∈ files.names, final.backup.bytes name = final.primary.bytes name) ↔
      ∀ name ∈ files.names, final.primary.bytes name ≠ none →
        primary.bytes name ≠ none ∨ ∃ entry ∈ final.primary.log, entry.filename = name := by
  have mirrored := Transition.run_invariant (Mirrorable files) (Mirrored files primary)
    (fun t action next => mirrored_step files primary t next action) _ (mirrored_start files start)
    actions mirrorable reached
  refine ⟨fun same name inside present => ?_, fun known name inside => ?_⟩
  · cases last : lastFor name final.primary.log with
    | some entry => exact .inr ⟨entry, Server.mem_of_lastFor last⟩
    | none =>
      left
      rw [← mirrored.unlogged name inside last, same name inside]
      exact present
  · cases last : lastFor name final.primary.log with
    | some entry => exact mirrored.logged name inside (by simp [last])
    | none =>
      have unlogged := mirrored.unlogged name inside last
      by_cases existed : primary.bytes name = none
      · have absent : final.primary.bytes name = none := by
          by_contra present
          rcases known name inside present with old | ⟨entry, listed, named⟩
          · exact old existed
          · simp only [lastFor, List.getLast?_eq_none_iff, List.filter_eq_nil_iff] at last
            exact last entry listed (by simpa using named)
        rw [unlogged, existed, absent]
      · rw [unlogged, mirrored.old name inside last existed]

end Mirror

def firstBackup : Server := { firstPrimary with id := "2", role := .backup }

theorem firstBackup_sameStart : SameStart oneFile firstPrimary firstBackup where
  log := by decide +kernel
  commitIndex := by decide +kernel
  lastApplied := by decide +kernel
  rootDir := rfl
  tree := rfl
  opened := by
    intro fd found present
    cases present
  noTmp name _ content := firstPrimary_fresh.empty _ content

theorem unionRun_converges :
    ∃ final, Transition.run Twins.step ⟨firstPrimary, firstBackup⟩ (unionRun.map fun delivery => (delivery, {})) =
        some final ∧ final.primary.bytes "output/a" = some [50, 10, 51, 10] ∧
      ∀ name ∈ oneFile.names, final.backup.bytes name = final.primary.bytes name := by
  have outcome : (Transition.run Twins.step ⟨firstPrimary, firstBackup⟩ (unionRun.map fun delivery => (delivery, {}))).map
      (fun t => (t.primary.bytes "output/a", t.primary.log.map LogEntry.filename)) =
        some (some [50, 10, 51, 10], ["output/a", "output/a"]) ∧
      Transition.check Twins.step (fun t _ => decide (t.primary.majority .close ≤
        Server.ackCount (t.primary.majority .close) 1 [("2", true), ("3", false)] ∧ t.primary.log.length + 1 < 2 ^ 31))
        ⟨firstPrimary, firstBackup⟩ (unionRun.map fun delivery => (delivery, {})) = true := by decide +kernel
  obtain ⟨outcome, checked⟩ := outcome
  obtain ⟨final, reached, facts⟩ := Option.map_eq_some_iff.mp outcome
  obtain ⟨holds, log⟩ := Prod.mk.inj facts
  have mirrorable : Transition.Meets Twins.step (Mirrorable oneFile) ⟨firstPrimary, firstBackup⟩
      (unionRun.map fun delivery => (delivery, {})) := by
    refine Transition.meets_of_check _ _ _ ?_ checked
    intro t action member checked
    obtain ⟨enough, fits⟩ := of_decide_eq_true checked
    obtain ⟨delivery, listed, rfl⟩ := List.mem_map.mp member
    refine ⟨unionRun_replayable enough listed, fun _ => rfl, fits, ?_⟩
    simp only [unionRun, List.mem_cons, List.not_mem_nil, or_false] at listed
    rcases listed with rfl | rfl | rfl | rfl
    all_goals rintro _ ⟨⟩
  refine ⟨final, reached, holds, (replicas_converge_iff oneFile firstPrimary firstBackup firstBackup_sameStart _ final
    mirrorable reached).mpr ?_⟩
  rintro name rfl _
  right
  have listed : "output/a" ∈ final.primary.log.map LogEntry.filename := by simp [log]
  obtain ⟨entry, inside, named⟩ := List.mem_map.mp listed
  exact ⟨entry, inside, named⟩

-- Create and Delete send no message: the backup misses the new file, and keeps the deleted one.
theorem replicas_diverge :
    (∃ final, Transition.run Twins.step ⟨firstPrimary, firstBackup⟩ [(createA, {})] = some final ∧
      final.primary.bytes "output/a" = some [] ∧ final.backup.bytes "output/a" = none) ∧
    ∃ final, Transition.run Twins.step ⟨firstPrimary, firstBackup⟩
        [(createA, {}), (closeA "r2" 0 0 [50, 10], {}), (deleteA, {})] = some final ∧
      final.primary.bytes "output/a" = none ∧ final.backup.bytes "output/a" = some [50, 10] := by
  have shown (actions : List (Delivery × DiskIO)) (primary backup : Option Bytes)
      (outcome : (Transition.run Twins.step ⟨firstPrimary, firstBackup⟩ actions).map
        (fun t => (t.primary.bytes "output/a", t.backup.bytes "output/a")) = some (primary, backup)) :
      ∃ final, Transition.run Twins.step ⟨firstPrimary, firstBackup⟩ actions = some final ∧
        final.primary.bytes "output/a" = primary ∧ final.backup.bytes "output/a" = backup := by
    obtain ⟨final, reached, facts⟩ := Option.map_eq_some_iff.mp outcome
    exact ⟨final, reached, Prod.mk.inj facts⟩
  exact ⟨shown _ _ _ (by decide +kernel), shown _ _ _ (by decide +kernel)⟩

end Ikkat
