import Mathlib.Algebra.Group.Int.Defs
import Mathlib.Algebra.Group.Nat.Defs
import Ikkat.Shared.Tree
import Ikkat.Numbers
import Ikkat.Paths

set_option autoImplicit false

namespace Ikkat

abbrev Map (Key Value : Type) := AList fun _ : Key => Value

namespace Map

variable {Key Value : Type} [DecidableEq Key] (map : Map Key Value) (key : Key) (value : Value)

theorem length_insert_new (absent : key ∉ map) : (map.insert key value).entries.length = map.entries.length + 1 := by
  rw [AList.insert_of_notMem absent]
  rfl

theorem length_erase (present : key ∈ map) : (map.erase key).entries.length + 1 = map.entries.length := by
  have keys (map : Map Key Value) : map.entries.length = map.keys.length := (List.length_map ..).symm
  have positive := List.length_pos_of_mem (AList.mem_keys.mp present)
  rw [keys, keys, AList.keys_erase, List.length_erase_of_mem (AList.mem_keys.mp present)]
  omega

theorem length_insert_old (present : key ∈ map) : (map.insert key value).entries.length = map.entries.length := by
  rw [← length_erase map key present]
  rfl

theorem lookup_of_erase {other : Key} {found : Value} (held : (map.erase key).lookup other = some found) :
    map.lookup other = some found := by
  by_cases gone : other = key
  · rw [gone, AList.lookup_erase] at held
    cases held
  · rwa [AList.lookup_erase_ne gone] at held

theorem lookup_insert (other : Key) :
    (map.insert key value).lookup other = if other = key then some value else map.lookup other := by
  split_ifs with same
  · rw [same, AList.lookup_insert]
  · rw [AList.lookup_insert_ne same]

theorem lookup_of_insert {map : Map Key Value} {key other : Key} {value found : Value}
    (held : (map.insert key value).lookup other = some found) :
    other = key ∧ found = value ∨ other ≠ key ∧ map.lookup other = some found := by
  rw [lookup_insert] at held
  split_ifs at held with same
  · exact .inl ⟨same, (Option.some.inj held).symm⟩
  · exact .inr ⟨same, held⟩

end Map

-- Nanoseconds since the zero time.
abbrev Time := Nat

def second : Time := 1000000000

def requestCacheTTL : Time := 5 * 60 * second

def primaryFailedTimeout : Time := 5 * second

def maxOpenFiles : Nat := 1000

inductive Role where
  | primary
  | backup
  deriving DecidableEq, Repr

-- An open protobuf enumeration: a request may carry any number.
inductive FileMode where
  | read
  | write
  | other (value : Int32)
  deriving DecidableEq, Repr

structure ServerInfo where
  id : String
  address : String
  timestamp : Time
  alive : Bool
  deriving DecidableEq, Repr

structure LogEntry where
  index : Int
  op : String
  filename : String
  content : Bytes
  version : Int32
  deriving DecidableEq, Repr

structure ClientState where
  lastSeen : Time
  mode : FileMode
  deriving DecidableEq, Repr

structure FileMeta where
  file : Path
  filename : String
  version : Int32
  clients : Map String ClientState

-- `cond` is false while the condition variable is still nil.
structure FileEntry where
  fd : Int32 := 0
  cond : Bool
  activeReaders : Nat := 0
  activeWriter : Bool := false
  waitingWriters : Nat := 0
  version : Int32
  deriving DecidableEq, Repr

def FileEntry.canRead (entry : FileEntry) : Bool :=
  !entry.activeWriter && entry.waitingWriters == 0

def FileEntry.canWrite (entry : FileEntry) : Bool :=
  !entry.activeWriter && entry.activeReaders == 0

structure OpenResponse where
  fd : Int32
  version : Int32
  message : String
  deriving DecidableEq, Repr

structure CloseResponse where
  message : String
  version : Int32
  deriving DecidableEq, Repr

structure WriteResponse where
  message : String
  version : Int32
  deriving DecidableEq, Repr

structure DeleteResponse where
  message : String
  deriving DecidableEq, Repr

inductive Response where
  | opened (response : OpenResponse)
  | closed (response : CloseResponse)
  | written (response : WriteResponse)
  | deleted (response : DeleteResponse)
  deriving DecidableEq, Repr

structure RequestEntry where
  response : Response
  timestamp : Time
  deriving DecidableEq, Repr

structure FileKey where
  clientID : String
  filename : String
  deriving DecidableEq, Repr

abbrev Tree := FileTree.Tree String Bytes

theorem toInt_succ (number : Int32) (below : number.toInt < 2 ^ 31 - 1) : (number + 1).toInt = number.toInt + 1 := by
  have low : -2 ^ 31 ≤ number.toInt := number.le_toInt
  have one : (1 : Int32).toInt = 1 := by decide
  rw [Int32.toInt_add, one, Int.bmod_eq_of_le (by omega) (by omega)]

-- `tree` and `logFile` are the server's disk; the rest is lost in a crash.
structure Server where
  id : String
  role : Role
  primaryID : String
  servers : Map String ServerInfo
  files : Map Int32 FileMeta
  table : Map String FileEntry
  nextFD : Int32
  requests : Map String RequestEntry
  openMap : Map FileKey Int32
  rootDir : String
  log : List LogEntry
  commitIndex : Nat
  lastApplied : Nat
  lastHeartbeat : Time
  filesPrimes : Map String FilePrimeSet
  tree : Tree
  logFile : Bytes

def newServer (id rootDir : String) (servers : Map String ServerInfo) (tree : Tree) (logFile : Bytes) :
    Server where
  id := id
  role := .backup
  primaryID := ""
  servers := servers
  files := ∅
  table := ∅
  nextFD := 0
  requests := ∅
  openMap := ∅
  rootDir := rootDir
  log := []
  commitIndex := 0
  lastApplied := 0
  lastHeartbeat := 0
  filesPrimes := ∅
  tree := tree
  logFile := logFile

inductive Code where
  | unknown
  | unavailable
  | internal
  | failedPrecondition
  | permissionDenied
  | alreadyExists
  | resourceExhausted
  | notFound
  | aborted
  | invalidArgument
  deriving DecidableEq, Repr

structure Status where
  code : Code
  message : String
  deriving DecidableEq, Repr

-- A call that reports an error may have written the first bytes of its data.
inductive Outcome where
  | done
  | refused
  | cut (count : Nat)
  deriving DecidableEq, Repr

-- os.WriteFile: the file is truncated before its data is written.
def osWriteFile (outcome : Outcome) (tree : Tree) (path : Path) (data : Bytes) : Tree × Bool :=
  match outcome with
  | .refused => (tree, false)
  | .done =>
      match tree.writeFile path data with
      | some next => (next, true)
      | none => (tree, false)
  | .cut count => ((tree.writeFile path (data.take count)).getD tree, false)

theorem osWriteFile_other (outcome : Outcome) (tree : Tree) (path target : Path) (data : Bytes)
    (different : target ≠ path) : (osWriteFile outcome tree path data).1.find target = tree.find target := by
  cases outcome with
  | refused => rfl
  | done =>
    unfold osWriteFile
    dsimp only
    split
    case h_1 next written => simp [FileTree.Tree.find_writeFile target written, different]
    case h_2 => rfl
  | cut count =>
    unfold osWriteFile
    dsimp only
    cases written : tree.writeFile path (data.take count) with
    | none => rfl
    | some next =>
      rw [Option.getD_some, FileTree.Tree.find_writeFile target written, if_neg different]

def Outcome.over (outcome : Outcome) (data old : Bytes) : Bytes :=
  match outcome with
  | .refused => old
  | .done => data
  | .cut count => data.take count

theorem osWriteFile_over (outcome : Outcome) {tree : Tree} {path : Path} (data : Bytes) {old : Bytes}
    (present : tree.find path = some (.file old)) :
    (osWriteFile outcome tree path data).1.find path = some (.file (outcome.over data old)) := by
  have replaced (bytes : Bytes) (next : Tree) (written : tree.writeFile path bytes = some next) :
      next.find path = some (.file bytes) := by
    rw [FileTree.Tree.find_writeFile path written, if_pos rfl]
  cases outcome with
  | refused => exact present
  | done =>
    obtain ⟨next, written⟩ := tree.writeFile_over path old data present
    simp [osWriteFile, written, replaced data next written, Outcome.over]
  | cut count =>
    obtain ⟨next, written⟩ := tree.writeFile_over path old (data.take count) present
    simp [osWriteFile, written, replaced _ next written, Outcome.over]

theorem osWriteFile_file (outcome : Outcome) {tree : Tree} (path : Path) {target : Path} (data : Bytes) {content : Bytes}
    (present : tree.find target = some (.file content)) :
    ∃ left, (osWriteFile outcome tree path data).1.find target = some (.file left) := by
  by_cases same : target = path
  · subst same
    exact ⟨_, osWriteFile_over outcome data present⟩
  · exact ⟨content, by rw [osWriteFile_other outcome tree path target data same, present]⟩

namespace Server

def path (s : Server) (filename : String) : Path :=
  join s.rootDir filename

theorem path_of_root {s next : Server} (root : next.rootDir = s.rootDir) (filename : String) :
    next.path filename = s.path filename := by
  rw [path, root, path]

def readFile (s : Server) (path : Path) : Option Bytes :=
  match s.tree.find path with
  | some (.file content) => some content
  | _ => none

def bytes (s : Server) (filename : String) : Option Bytes :=
  s.readFile (s.path filename)

theorem bytes_eq (s : Server) (filename : String) (content : Bytes) :
    s.bytes filename = some content ↔ s.tree.find (s.path filename) = some (.file content) := by
  unfold bytes readFile
  split
  case h_1 data found => simp [found]
  case h_2 other => exact ⟨fun absent => (by cases absent), fun found => (other content found).elim⟩

theorem bytes_of_files (s next : Server) (root : next.rootDir = s.rootDir) (filename : String)
    (same : ∀ content, next.tree.find (s.path filename) = some (.file content) ↔
      s.tree.find (s.path filename) = some (.file content)) : next.bytes filename = s.bytes filename := by
  apply Option.ext
  intro content
  rw [bytes_eq, bytes_eq, Server.path, root]
  exact same content

theorem bytes_congr (s next : Server) (root : next.rootDir = s.rootDir) (filename : String)
    (same : next.tree.find (s.path filename) = s.tree.find (s.path filename)) :
    next.bytes filename = s.bytes filename :=
  s.bytes_of_files next root filename fun _ => by rw [same]

def primeSet (s : Server) (filename : String) : FilePrimeSet :=
  (s.filesPrimes.lookup filename).getD ∅

def getFileEntry (s : Server) (name : String) : Server × FileEntry :=
  match s.table.lookup name with
  | none =>
      let entry : FileEntry := { cond := true, version := 1 }
      ({ s with table := s.table.insert name entry }, entry)
  | some entry =>
      if entry.cond then (s, entry)
      else
        let ready := { entry with cond := true }
        ({ s with table := s.table.insert name ready }, ready)

def saveVersion (outcome : Outcome) (s : Server) (filename : String) (version : Int32) : Server :=
  { s with tree := (osWriteFile outcome s.tree (s.path (filename ++ ".meta")) (Words.integer version.toInt)).1 }

def rebuildPrimes (s : Server) (name : String) : Server :=
  if hasSuffix ".tmp" name || hasSuffix ".meta" name then s
  else if !hasPrefix "output" name then s
  else
    match s.readFile (s.path name) with
    | none => s
    | some data =>
        { s with filesPrimes := s.filesPrimes.insert name (FilePrimeSet.ofList (parseNumbers data)) }

def rebuildAllPrimeSets (s : Server) : Server :=
  if s.role ≠ .primary then s
  else
    match s.tree.find (clean s.rootDir) with
    | some .dir => (s.tree.names (clean s.rootDir)).foldl rebuildPrimes s
    | _ => s

theorem rebuildAllPrimeSets_eq (s : Server) :
    ∃ filesPrimes, s.rebuildAllPrimeSets = { s with filesPrimes := filesPrimes } := by
  have one (s : Server) (name : String) :
      ∃ filesPrimes, s.rebuildPrimes name = { s with filesPrimes := filesPrimes } := by
    unfold rebuildPrimes
    split_ifs
    · exact ⟨_, rfl⟩
    · exact ⟨_, rfl⟩
    · split <;> exact ⟨_, rfl⟩
  have all (names : List String) (s : Server) :
      ∃ filesPrimes, names.foldl rebuildPrimes s = { s with filesPrimes := filesPrimes } := by
    induction names generalizing s with
    | nil => exact ⟨_, rfl⟩
    | cons name rest ih =>
      obtain ⟨first, same⟩ := one s name
      obtain ⟨later, final⟩ := ih { s with filesPrimes := first }
      exact ⟨later, by rw [List.foldl_cons, same, final]⟩
  unfold rebuildAllPrimeSets
  split_ifs
  · exact ⟨_, rfl⟩
  · split
    · exact all _ s
    · exact ⟨_, rfl⟩

end Server

end Ikkat
