import Ikkat.Log

set_option autoImplicit false

namespace Ikkat

structure PbLogEntry where
  index : Int32
  op : String
  filename : String
  content : Bytes
  version : Int32
  deriving DecidableEq, Repr

structure AppendEntriesRequest where
  leaderId : String
  entries : List PbLogEntry
  leaderCommit : Int32
  deriving DecidableEq, Repr

structure Replication where
  filename : String
  version : Int32
  content : Bytes
  deriving DecidableEq, Repr

structure UpdateMessage where
  isFullSync : Bool
  logEntries : List PbLogEntry
  fullFiles : List Replication
  deriving DecidableEq, Repr

def PbLogEntry.received (e : PbLogEntry) : LogEntry where
  index := e.index.toInt
  op := e.op
  filename := e.filename
  content := e.content
  version := e.version

def LogEntry.wire (entry : LogEntry) : PbLogEntry where
  index := Int32.ofInt entry.index
  op := entry.op
  filename := entry.filename
  content := entry.content
  version := entry.version

def sendAppendEntry (selfID : String) (entry : LogEntry) (commitIndex : Nat) : AppendEntriesRequest where
  leaderId := selfID
  entries := [entry.wire]
  leaderCommit := Int32.ofInt commitIndex

-- What the disk answers while a replication message is handled, by position.
structure DiskIO where
  persist : Nat → Outcome := fun _ => .done
  apply : Nat → ApplyIO := fun _ => .ok
  write : Nat → Outcome := fun _ => .done
  reason : String := "input/output error"

def osCreate (tree : Tree) (path : Path) : Option Tree :=
  match tree.find path with
  | none => tree.writeFile path []
  | some (.file _) => some tree
  | some .dir => none

namespace Server

def raiseCommit (s : Server) (leaderCommit : Int32) : Server :=
  if leaderCommit.toInt > s.commitIndex then { s with commitIndex := leaderCommit.toInt.toNat } else s

section Append

variable [LogCodec]

def receiveEntry (disk : DiskIO) (s : Server) (e : PbLogEntry) : Server :=
  if e.received.index ≤ s.log.length then s
  else (s.appendLog (disk.persist s.log.length) e.received).1

-- AppendEntries answers Success on every path.
def appendEntries (disk : DiskIO) (s : Server) (req : AppendEntriesRequest) : Server × Bool :=
  let s := req.entries.foldl (receiveEntry disk) s
  let s := s.raiseCommit req.leaderCommit
  (s.applyCommitted disk.apply, true)

end Append

def getOrCreateFileMeta (s : Server) (filename : String) : Server × Int32 :=
  let known := (s.table.lookup filename).bind fun entry =>
    if (s.files.lookup entry.fd).isSome then some entry.fd else none
  match known with
  | some fd => (s, fd)
  | none =>
      let fd := s.nextFD
      let fullPath := s.path filename
      ({ s with
          nextFD := s.nextFD + 1
          tree := (osCreate s.tree fullPath).getD s.tree
          files := s.files.insert fd { file := fullPath, filename := filename, version := 0, clients := ∅ }
          table := s.table.insert filename { fd := fd, cond := false, version := 0 } }, fd)

def rebuildPrimeSet (s : Server) (filename : String) : Server :=
  if s.role ≠ .primary then s
  else
    match s.bytes filename with
    | none => s
    | some data =>
        { s with filesPrimes := s.filesPrimes.insert filename (FilePrimeSet.ofList (parseNumbers data)) }

def setMetaVersion (s : Server) (fd : Int32) (version : Int32) : Server :=
  match s.files.lookup fd with
  | none => s
  | some found => { s with files := s.files.insert fd { found with version := version } }

def metaName (s : Server) (fd : Int32) : String :=
  match s.files.lookup fd with
  | none => ""
  | some found => found.filename

def receiveFile (outcome : Outcome) (s : Server) (f : Replication) : Server × Bool :=
  let written := osWriteFile outcome s.tree (s.path f.filename) f.content
  let s := { s with tree := written.1 }
  if written.2 then
    let found := s.getOrCreateFileMeta f.filename
    let s := found.1.setMetaVersion found.2 f.version
    (s.rebuildPrimeSet (s.metaName found.2), true)
  else (s, false)

def receiveFiles (disk : DiskIO) : Nat → Server → List Replication → Server × Option String
  | _, s, [] => (s, none)
  | position, s, f :: rest =>
      let received := receiveFile (disk.write position) s f
      if received.2 then receiveFiles disk (position + 1) received.1 rest
      else (received.1, some disk.reason)

section Update

variable [LogCodec]

def receiveLog (disk : DiskIO) : Server → List PbLogEntry → Server × Option String
  | s, [] => (s, none)
  | s, e :: rest =>
      if e.received.index ≤ s.log.length then receiveLog disk s rest
      else if e.received.index ≠ s.log.length + 1 then (s, some "log gap")
      else receiveLog disk (s.appendLog (disk.persist s.log.length) e.received).1 rest

-- A full sync resets the log in memory and leaves the log file as it is.
def applyUpdate (disk : DiskIO) (s : Server) (msg : UpdateMessage) : Server × Option String :=
  if msg.isFullSync then
    receiveFiles disk 0 { s with log := [], commitIndex := 0, lastApplied := 0 } msg.fullFiles
  else receiveLog disk s msg.logEntries

end Update

def requestRecovery (s : Server) : Except Status UpdateMessage :=
  if s.role ≠ .primary then .error ⟨.failedPrecondition, "not leader"⟩
  else
    .ok
      { isFullSync := true
        logEntries := []
        fullFiles := s.table.entries.filterMap fun item =>
          (s.bytes item.1).map fun data => ⟨item.1, item.2.version, data⟩ }

end Server

def extend (log : List LogEntry) : List PbLogEntry → List LogEntry
  | [] => log
  | e :: rest => if e.received.index ≤ log.length then extend log rest else extend (log ++ [e.received]) rest

theorem wire_received (entry : LogEntry) (low : -2 ^ 31 ≤ entry.index) (high : entry.index < 2 ^ 31) :
    entry.wire.received = entry := by
  have index : (Int32.ofInt entry.index).toInt = entry.index := Int32.toInt_ofInt_of_le low (by omega)
  simp [LogEntry.wire, PbLogEntry.received, index]

theorem raiseCommit_eq (s : Server) (leaderCommit : Int32) :
    s.raiseCommit leaderCommit = { s with commitIndex := max s.commitIndex leaderCommit.toInt.toNat } := by
  unfold Server.raiseCommit
  split_ifs with higher
  · rw [Nat.max_eq_right (by omega)]
  · rw [Nat.max_eq_left (by omega)]

section Messages

variable [LogCodec]

theorem appendToDisk_eq (outcome : Outcome) (s : Server) (entry : LogEntry) :
    ∃ logFile, (s.appendToDisk outcome entry).1 = { s with logFile := logFile } := by
  cases outcome <;> exact ⟨_, rfl⟩

theorem appendLog_eq (outcome : Outcome) (s : Server) (entry : LogEntry) :
    ∃ logFile, (s.appendLog outcome entry).1 = { s with log := s.log ++ [entry], logFile := logFile } := by
  obtain ⟨logFile, same⟩ := appendToDisk_eq outcome { s with log := s.log ++ [entry] } entry
  exact ⟨logFile, same⟩

variable (disk : DiskIO) (s : Server) (req : AppendEntriesRequest)

theorem receiveEntries_eq (entries : List PbLogEntry) (s : Server) :
    ∃ logFile, entries.foldl (Server.receiveEntry disk) s =
      { s with log := extend s.log entries, logFile := logFile } := by
  induction entries generalizing s with
  | nil => exact ⟨s.logFile, rfl⟩
  | cons e rest ih =>
    rw [List.foldl_cons]
    unfold Server.receiveEntry extend
    split_ifs with old
    · exact ih s
    · obtain ⟨logFile, same⟩ := appendLog_eq (disk.persist s.log.length) s e.received
      rw [same]
      exact ih _

theorem appendEntries_eq :
    ∃ logFile, (s.appendEntries disk req).1 =
      Server.applied disk.apply
        { s with
          log := extend s.log req.entries
          commitIndex := max s.commitIndex req.leaderCommit.toInt.toNat
          logFile := logFile } := by
  obtain ⟨logFile, same⟩ := receiveEntries_eq disk req.entries s
  refine ⟨logFile, ?_⟩
  simp only [Server.appendEntries, Server.applyCommitted_eq, same, raiseCommit_eq]

@[simp] theorem appendEntries_log : (s.appendEntries disk req).1.log = extend s.log req.entries := by
  obtain ⟨logFile, same⟩ := appendEntries_eq disk s req
  rw [same]
  rfl

@[simp] theorem appendEntries_commitIndex :
    (s.appendEntries disk req).1.commitIndex = max s.commitIndex req.leaderCommit.toInt.toNat := by
  obtain ⟨logFile, same⟩ := appendEntries_eq disk s req
  rw [same]
  rfl

@[simp] theorem appendEntries_lastApplied : (s.appendEntries disk req).1.lastApplied = max s.lastApplied
      (min (max s.commitIndex req.leaderCommit.toInt.toNat) (extend s.log req.entries).length) := by
  obtain ⟨logFile, same⟩ := appendEntries_eq disk s req
  rw [same]
  rfl

end Messages

namespace Server

theorem getOrCreateFileMeta_cases (s : Server) (filename : String) :
    (s.getOrCreateFileMeta filename).1 = s ∨ ∃ tree files, (s.getOrCreateFileMeta filename).1 =
      { s with
        nextFD := s.nextFD + 1, tree := tree, files := files
        table := s.table.insert filename { fd := s.nextFD, cond := false, version := 0 } } := by
  unfold getOrCreateFileMeta
  dsimp only
  split
  · exact .inl rfl
  · exact .inr ⟨_, _, rfl⟩

theorem setMetaVersion_eq (s : Server) (fd version : Int32) :
    ∃ files, s.setMetaVersion fd version = { s with files := files } := by
  unfold setMetaVersion
  split <;> exact ⟨_, rfl⟩

theorem rebuildPrimeSet_eq (s : Server) (filename : String) :
    ∃ filesPrimes, s.rebuildPrimeSet filename = { s with filesPrimes := filesPrimes } := by
  unfold rebuildPrimeSet
  split_ifs
  · exact ⟨_, rfl⟩
  · split <;> exact ⟨_, rfl⟩

theorem receiveFile_eq (outcome : Outcome) (s : Server) (f : Replication) :
    ∃ tree table files nextFD filesPrimes, (s.receiveFile outcome f).1 =
      { s with tree := tree, table := table, files := files, nextFD := nextFD, filesPrimes := filesPrimes } := by
  unfold receiveFile
  dsimp only
  split_ifs
  · generalize (osWriteFile outcome s.tree (s.path f.filename) f.content).1 = written
    have created := getOrCreateFileMeta_cases { s with tree := written } f.filename
    obtain ⟨files, versioned⟩ := setMetaVersion_eq (getOrCreateFileMeta { s with tree := written } f.filename).1
      (getOrCreateFileMeta { s with tree := written } f.filename).2 f.version
    rw [versioned]
    obtain ⟨filesPrimes, rebuilt⟩ := rebuildPrimeSet_eq
      { (getOrCreateFileMeta { s with tree := written } f.filename).1 with files := files } (metaName
        { (getOrCreateFileMeta { s with tree := written } f.filename).1 with files := files }
        (getOrCreateFileMeta { s with tree := written } f.filename).2)
    rw [rebuilt]
    rcases created with same | ⟨tree, opened, same⟩ <;> rw [same] <;> exact ⟨_, _, _, _, _, rfl⟩
  · exact ⟨_, _, _, _, _, rfl⟩

theorem receiveFiles_eq (disk : DiskIO) (position : Nat) (s : Server) (fullFiles : List Replication) :
    ∃ tree table files nextFD filesPrimes, (s.receiveFiles disk position fullFiles).1 =
      { s with tree := tree, table := table, files := files, nextFD := nextFD, filesPrimes := filesPrimes } := by
  induction fullFiles generalizing position s with
  | nil => exact ⟨_, _, _, _, _, rfl⟩
  | cons f rest ih =>
    obtain ⟨tree, table, files, nextFD, filesPrimes, first⟩ := s.receiveFile_eq (disk.write position) f
    unfold receiveFiles
    dsimp only
    rw [first]
    split_ifs
    · exact ih (position + 1) _
    · exact ⟨_, _, _, _, _, rfl⟩

theorem receiveLog_eq [LogCodec] (disk : DiskIO) (entries : List PbLogEntry) (s : Server) :
    ∃ log logFile, (s.receiveLog disk entries).1 = { s with log := log, logFile := logFile } := by
  induction entries generalizing s with
  | nil => exact ⟨_, _, rfl⟩
  | cons e rest ih =>
    unfold receiveLog
    split_ifs
    · exact ih s
    · exact ⟨_, _, rfl⟩
    · obtain ⟨logFile, same⟩ := appendLog_eq (disk.persist s.log.length) s e.received
      rw [same]
      exact ih _

end Server

end Ikkat
