import Ikkat.Server

set_option autoImplicit false

namespace Ikkat

variable {entry : LogEntry}

-- encoding/json on a log entry: one line without control characters, read back as it was written.
class LogCodec where
  marshal : LogEntry → Bytes
  unmarshal : Bytes → Option LogEntry
  unmarshal_marshal : ∀ entry, unmarshal (marshal entry) = some entry
  marshal_printable : ∀ entry, ∀ byte ∈ marshal entry, 32 ≤ byte
  marshal_nonempty : ∀ entry, marshal entry ≠ []

def maxBuf : Nat := 16 * 1024 * 1024

def dropCR (line : Bytes) : Bytes :=
  if line.getLast? = some 13 then line.dropLast else line

-- bufio.Scanner with a buffer of maxBuf bytes: the lines it delivers, and whether it stops with
-- an error because a line does not fit.
def scanLines : Bytes → Bytes → List Bytes × Bool
  | line, [] =>
      if line = [] then ([], false)
      else if line.length < maxBuf then ([dropCR line], false)
      else ([], true)
  | line, byte :: rest =>
      if byte = newline then
        if line.length < maxBuf then
          let later := scanLines [] rest
          (dropCR line :: later.1, later.2)
        else ([], true)
      else scanLines (line ++ [byte]) rest

structure ApplyIO where
  mkdir : Bool
  write : Outcome
  deriving DecidableEq, Repr

def ApplyIO.ok : ApplyIO := ⟨true, .done⟩

def applyTree (io : ApplyIO) (rootDir : String) (entry : LogEntry) (tree : Tree) : Tree :=
  if entry.op = "WRITE" then
    let fullPath := join rootDir entry.filename
    if io.mkdir then
      match tree.mkdirAll fullPath.dropLast with
      | none => tree
      | some made => (osWriteFile io.write made fullPath entry.content).1
    else tree
  else tree

namespace Server

section Codec

variable [LogCodec]

def logLine (entry : LogEntry) : Bytes := LogCodec.marshal entry ++ [newline]

def appendToDisk (outcome : Outcome) (s : Server) (entry : LogEntry) : Server × Bool :=
  match outcome with
  | .done => ({ s with logFile := s.logFile ++ logLine entry }, true)
  | .refused => (s, false)
  | .cut count => ({ s with logFile := s.logFile ++ (logLine entry).take count }, false)

def appendLog (outcome : Outcome) (s : Server) (entry : LogEntry) : Server × Bool :=
  appendToDisk outcome { s with log := s.log ++ [entry] } entry

end Codec

def apply (io : ApplyIO) (s : Server) (entry : LogEntry) : Server :=
  { s with tree := applyTree io s.rootDir entry s.tree }

def applyLoop (io : Nat → ApplyIO) : Nat → Server → Server
  | 0, s => s
  | fuel + 1, s =>
      if s.lastApplied < s.commitIndex then
        match s.log[s.lastApplied]? with
        | none => s
        | some entry =>
            applyLoop io fuel (apply (io s.lastApplied) { s with lastApplied := s.lastApplied + 1 } entry)
      else s

-- The loop ends with the log, so its length is enough fuel.
def applyCommitted (io : Nat → ApplyIO) (s : Server) : Server :=
  applyLoop io (s.log.length - s.lastApplied) s

def recoverEntry [LogCodec] (io : Nat → ApplyIO) (s : Server) (line : Bytes) : Server :=
  match LogCodec.unmarshal line with
  | none => s
  | some entry =>
      let s := apply (io s.log.length) { s with log := s.log ++ [entry] } entry
      if entry.index > s.commitIndex then
        { s with commitIndex := entry.index.toNat, lastApplied := entry.index.toNat }
      else s

-- A log file that does not exist is an empty one here.
def recoverFromLog [LogCodec] (io : Nat → ApplyIO) (s : Server) : Server × Bool :=
  if s.logFile = [] then (s, true)
  else
    let scanned := scanLines [] s.logFile
    let s := scanned.1.foldl (recoverEntry io) s
    if scanned.2 then (s, false) else (s.rebuildAllPrimeSets, true)

end Server

def applyAll (io : Nat → ApplyIO) (rootDir : String) : Nat → List LogEntry → Tree → Tree
  | _, [], tree => tree
  | position, entry :: rest, tree =>
      applyAll io rootDir (position + 1) rest (applyTree (io position) rootDir entry tree)

def recorded [LogCodec] (logFile : Bytes) : List LogEntry :=
  (scanLines [] logFile).1.filterMap LogCodec.unmarshal

theorem recoverLines_eq [LogCodec] (io : Nat → ApplyIO) (lines : List Bytes) (s : Server) :
    ∃ commitIndex lastApplied, lines.foldl (Server.recoverEntry io) s =
      { s with
        log := s.log ++ lines.filterMap LogCodec.unmarshal
        commitIndex := commitIndex
        lastApplied := lastApplied
        tree := applyAll io s.rootDir s.log.length (lines.filterMap LogCodec.unmarshal) s.tree } := by
  induction lines generalizing s with
  | nil => exact ⟨s.commitIndex, s.lastApplied, by simp [applyAll]⟩
  | cons line rest ih =>
    rw [List.foldl_cons]
    cases read : LogCodec.unmarshal line with
    | none =>
      have skipped : s.recoverEntry io line = s := by simp [Server.recoverEntry, read]
      rw [skipped, List.filterMap_cons_none read]
      exact ih s
    | some entry =>
      have taken : ∃ commitIndex lastApplied, s.recoverEntry io line =
          { s with log := s.log ++ [entry], commitIndex := commitIndex, lastApplied := lastApplied,
                   tree := applyTree (io s.log.length) s.rootDir entry s.tree } := by
        unfold Server.recoverEntry
        rw [read]
        dsimp only [Server.apply]
        split_ifs <;> exact ⟨_, _, rfl⟩
      obtain ⟨_, _, taken⟩ := taken
      obtain ⟨commitIndex, lastApplied, later⟩ := ih (s.recoverEntry io line)
      rw [later, taken, List.filterMap_cons_some read]
      simp [applyAll]

theorem recoverFromLog_eq [LogCodec] (io : Nat → ApplyIO) (s : Server) :
    ∃ commitIndex lastApplied filesPrimes, (s.recoverFromLog io).1 =
      { s with
        log := s.log ++ recorded s.logFile
        commitIndex := commitIndex
        lastApplied := lastApplied
        tree := applyAll io s.rootDir s.log.length (recorded s.logFile) s.tree
        filesPrimes := filesPrimes } := by
  unfold Server.recoverFromLog
  split_ifs with empty
  · have nothing : recorded s.logFile = [] := by simp [empty, recorded, scanLines]
    exact ⟨s.commitIndex, s.lastApplied, s.filesPrimes, by simp [nothing, applyAll]⟩
  · obtain ⟨commitIndex, lastApplied, same⟩ := recoverLines_eq io (scanLines [] s.logFile).1 s
    dsimp only
    rw [same]
    split_ifs
    · exact ⟨commitIndex, lastApplied, s.filesPrimes, rfl⟩
    · obtain ⟨filesPrimes, rebuilt⟩ := Server.rebuildAllPrimeSets_eq
        { s with
          log := s.log ++ recorded s.logFile
          commitIndex := commitIndex
          lastApplied := lastApplied
          tree := applyAll io s.rootDir s.log.length (recorded s.logFile) s.tree }
      exact ⟨commitIndex, lastApplied, filesPrimes, rebuilt⟩

namespace Server

def pending (s : Server) : List LogEntry :=
  (s.log.take s.commitIndex).drop s.lastApplied

def applied (io : Nat → ApplyIO) (s : Server) : Server :=
  { s with
    lastApplied := max s.lastApplied (min s.commitIndex s.log.length)
    tree := applyAll io s.rootDir s.lastApplied s.pending s.tree }

theorem pending_none (s : Server) (caughtUp : s.commitIndex ≤ s.lastApplied ∨ s.log.length ≤ s.lastApplied) :
    s.pending = [] := by
  rw [pending, List.drop_eq_nil_iff, List.length_take]
  omega

theorem pending_next {s : Server} (behind : s.lastApplied < s.commitIndex)
    (found : s.log[s.lastApplied]? = some entry) :
    s.pending = entry :: (s.log.take s.commitIndex).drop (s.lastApplied + 1) := by
  obtain ⟨within, here⟩ := List.getElem?_eq_some_iff.mp found
  rw [pending, List.drop_eq_getElem_cons (by simp; omega)]
  simp [here]

theorem applied_none (io : Nat → ApplyIO) (s : Server)
    (caughtUp : s.commitIndex ≤ s.lastApplied ∨ s.log.length ≤ s.lastApplied) : s.applied io = s := by
  have nothing := pending_none s caughtUp
  have still : max s.lastApplied (min s.commitIndex s.log.length) = s.lastApplied := by omega
  simp only [applied, nothing, still, applyAll]

theorem applied_next (io : Nat → ApplyIO) {s : Server}
    (behind : s.lastApplied < s.commitIndex) (found : s.log[s.lastApplied]? = some entry) :
    (apply (io s.lastApplied) { s with lastApplied := s.lastApplied + 1 } entry).applied io =
      s.applied io := by
  obtain ⟨within, _⟩ := List.getElem?_eq_some_iff.mp found
  have first := pending_next behind found
  have reached : max (s.lastApplied + 1) (min s.commitIndex s.log.length) =
      max s.lastApplied (min s.commitIndex s.log.length) := by omega
  simp only [applied, first, applyAll]
  simp only [apply, pending, reached]

theorem applyLoop_eq (io : Nat → ApplyIO) (fuel : Nat) (s : Server)
    (enough : s.log.length ≤ s.lastApplied + fuel) : s.applyLoop io fuel = s.applied io := by
  induction fuel generalizing s with
  | zero => exact (applied_none io s (.inr (by omega))).symm
  | succ fuel ih =>
    unfold applyLoop
    split_ifs with behind
    · cases found : s.log[s.lastApplied]? with
      | none => exact (applied_none io s (.inr (List.getElem?_eq_none_iff.mp found))).symm
      | some entry =>
        change applyLoop io fuel (apply _ _ entry) = _
        rw [ih _ (by simp only [apply]; omega), applied_next io behind found]
    · exact (applied_none io s (.inl (by omega))).symm

theorem applyCommitted_eq (io : Nat → ApplyIO) (s : Server) : s.applyCommitted io = s.applied io :=
  applyLoop_eq io _ s (by omega)

end Server

theorem applyTree_other (io : ApplyIO) (rootDir : String) (entry : LogEntry) (tree : Tree) (path : Path)
    (content : Bytes) (different : path ≠ join rootDir entry.filename) :
    (applyTree io rootDir entry tree).find path = some (.file content) ↔
      tree.find path = some (.file content) := by
  unfold applyTree
  split_ifs with write made
  · dsimp only
    cases dirs : tree.mkdirAll (join rootDir entry.filename).dropLast with
    | none => rfl
    | some next =>
      have kept : next.find path = some (.file content) ↔ tree.find path = some (.file content) :=
        ⟨FileTree.Tree.find_mkdirAll_file path content dirs, fun present => by
          rw [FileTree.Tree.find_mkdirAll_present path dirs (by simp [present]), present]⟩
      rw [← kept]
      rw [osWriteFile_other io.write next _ path _ different]
  · rfl
  · rfl

theorem applyTree_over (io : ApplyIO) (rootDir : String) (tree : Tree) (old : Bytes)
    (write : entry.op = "WRITE") (present : tree.find (join rootDir entry.filename) = some (.file old)) :
    (applyTree io rootDir entry tree).find (join rootDir entry.filename) =
      some (.file (if io.mkdir then io.write.over entry.content old else old)) := by
  have nonempty : join rootDir entry.filename ≠ [] := by
    intro root
    simp [root] at present
  have parent := tree.find_dropLast _ nonempty (by simp [present])
  rw [applyTree, if_pos write]
  dsimp only
  rw [FileTree.Tree.mkdirAll_dir parent]
  split_ifs
  · exact osWriteFile_over io.write entry.content present
  · exact present

theorem applyTree_written (rootDir : String) (tree : Tree) (old : Bytes)
    (write : entry.op = "WRITE") (present : tree.find (join rootDir entry.filename) = some (.file old)) :
    (applyTree .ok rootDir entry tree).find (join rootDir entry.filename) = some (.file entry.content) :=
  applyTree_over .ok rootDir tree old write present

def lastContent (rootDir : String) (path : Path) : List LogEntry → Bytes → Bytes
  | [], content => content
  | entry :: rest, content =>
      lastContent rootDir path rest
        (if entry.op = "WRITE" ∧ path = join rootDir entry.filename then entry.content else content)

theorem applyAll_file (rootDir : String) (position : Nat) (entries : List LogEntry) (tree : Tree)
    (path : Path) (content : Bytes) (present : tree.find path = some (.file content)) :
    (applyAll (fun _ => .ok) rootDir position entries tree).find path =
      some (.file (lastContent rootDir path entries content)) := by
  induction entries generalizing position tree content with
  | nil => exact present
  | cons entry rest ih =>
    apply ih
    split_ifs with hit
    · obtain ⟨write, rfl⟩ := hit
      exact applyTree_written rootDir tree content write present
    · by_cases same : path = join rootDir entry.filename
      · have other : entry.op ≠ "WRITE" := fun write => hit ⟨write, same⟩
        simpa [applyTree, other] using present
      · exact (applyTree_other _ rootDir entry tree path content same).mpr present

theorem applyAll_other (io : Nat → ApplyIO) (rootDir : String) (position : Nat) (entries : List LogEntry)
    (tree : Tree) (path : Path) (content : Bytes) (different : ∀ entry ∈ entries, path ≠ join rootDir entry.filename) :
    (applyAll io rootDir position entries tree).find path = some (.file content) ↔
      tree.find path = some (.file content) := by
  induction entries generalizing position tree with
  | nil => rfl
  | cons entry rest ih =>
    rw [applyAll, ih _ _ fun other inside => different other (by simp [inside])]
    exact applyTree_other _ rootDir entry tree path content (different entry (by simp))

end Ikkat
