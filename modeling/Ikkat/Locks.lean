import Ikkat.Shared.ReaderWriter
import Ikkat.Shared.Threads
import Ikkat.Cleanup
import Ikkat.Snapshot

set_option autoImplicit false

namespace Ikkat

-- A pointer to an entry: the entry the table had under the name when it had replaced so many others.
structure Ref where
  name : String
  generation : Nat
  deriving DecidableEq, Repr

abbrev Access := ReaderWriter.Access

structure Locals where
  entry : Option Ref
  access : Option Access
  deriving DecidableEq, Repr

inductive Mutex where
  | server
  | entry (ref : Option Ref)
  | file (fd : Int32)
  deriving DecidableEq, Repr

inductive Lock where
  | server
  | entry
  | file (fd : Int32)
  deriving DecidableEq, Repr

-- `detached` has the entries that the table has lost and handlers may still point at.
structure Memory where
  server : Server
  generation : String → Nat
  detached : Ref → Option FileEntry

namespace Memory

def start (s : Server) : Memory := ⟨s, fun _ => 0, fun _ => none⟩

def current (m : Memory) (name : String) : Ref := ⟨name, m.generation name⟩

def entry (m : Memory) (ref : Ref) : Option FileEntry :=
  if ref = m.current ref.name then m.server.table.lookup ref.name else m.detached ref

def setEntry (m : Memory) (ref : Ref) (update : FileEntry → FileEntry) : Memory :=
  if ref = m.current ref.name then { m with server := m.server.setEntry ref.name update }
  else { m with detached := Function.update m.detached ref ((m.detached ref).map update) }

def replace (m : Memory) (name : String) (s : Server) : Memory where
  server := s
  generation := Function.update m.generation name (m.generation name + 1)
  detached := Function.update m.detached (m.current name) (m.server.table.lookup name)

def view (m : Memory) (ref : Option Ref) : Server :=
  match ref.bind fun ref => (m.entry ref).map fun entry => (ref.name, entry) with
  | none => m.server
  | some (name, entry) => { m.server with table := m.server.table.insert name entry }

end Memory

namespace Memory

variable (m : Memory) (ref other : Ref) (update : FileEntry → FileEntry)

theorem eq_current (name : String) : ref = m.current name ↔ ref.name = name ∧ ref.generation = m.generation name := by
  cases ref
  simp [current]

theorem entry_current (name : String) : m.entry (m.current name) = m.server.table.lookup name := if_pos rfl

theorem rootDir_setEntry : (m.setEntry ref update).server.rootDir = m.server.rootDir := by
  obtain ⟨table, same⟩ := m.server.setEntry_eq ref.name update
  unfold setEntry
  split_ifs
  · rw [same]
  · rfl

theorem generation_setEntry : (m.setEntry ref update).generation = m.generation := by
  unfold setEntry
  split_ifs <;> rfl

theorem detached_setEntry : ((m.setEntry ref update).detached other).isSome = (m.detached other).isSome := by
  unfold setEntry
  split_ifs
  · rfl
  · by_cases same : other = ref
    · subst same
      simp
    · simp [Function.update_of_ne same]

theorem entry_setEntry :
    (m.setEntry ref update).entry other = if other = ref then (m.entry ref).map update else m.entry other := by
  by_cases attached : ref = m.current ref.name
  · have changed : (m.setEntry ref update).entry other =
        if other = m.current other.name then (m.server.setEntry ref.name update).table.lookup other.name
        else m.detached other := by
      rw [setEntry, if_pos attached]
      rfl
    rw [changed, Server.lookup_setEntry]
    by_cases same : other = ref
    · subst same
      rw [if_pos attached, if_pos rfl, if_pos rfl, entry, if_pos attached]
    · rw [if_neg same, entry]
      split_ifs with current named
      · -- Two pointers to what the table has under one name are one pointer.
        rw [named, ← attached] at current
        exact absurd current same
      · rfl
      · rfl
  · have changed : (m.setEntry ref update).entry other =
        if other = m.current other.name then m.server.table.lookup other.name
        else Function.update m.detached ref ((m.detached ref).map update) other := by
      rw [setEntry, if_neg attached]
      rfl
    rw [changed]
    by_cases same : other = ref
    · subst same
      rw [if_neg attached, Function.update_self, if_pos rfl, entry, if_neg attached]
    · rw [if_neg same, Function.update_of_ne same, entry]

theorem entry_replace (name : String) (s : Server)
    (others : ∀ other ≠ name, s.table.lookup other = m.server.table.lookup other) : (m.replace name s).entry ref =
      if ref = ⟨name, m.generation name + 1⟩ then s.table.lookup name else m.entry ref := by
  obtain ⟨target, generation⟩ := ref
  unfold entry current replace
  by_cases same : target = name
  · subst same
    by_cases newest : generation = m.generation target + 1
    · simp [newest]
    · by_cases latest : generation = m.generation target
      · simp [latest, current]
      · simp [latest, current]
  · simp [same, others target same, current]

theorem generation_replace (name target : String) (s : Server) :
    (m.replace target s).generation name = if name = target then m.generation target + 1 else m.generation name :=
  Function.update_apply ..

theorem detached_replace (name : String) (s : Server) (different : ref ≠ m.current name) :
    (m.replace name s).detached ref = m.detached ref :=
  Function.update_of_ne different ..

theorem entry_getFileEntry (name : String) : ({ m with server := (m.server.getFileEntry name).1 } : Memory).entry ref =
      if ref = m.current name then some (m.server.getFileEntry name).2 else m.entry ref := by
  have found : ({ m with server := (m.server.getFileEntry name).1 } : Memory).entry ref =
      if ref = m.current ref.name then (m.server.getFileEntry name).1.table.lookup ref.name else m.detached ref := rfl
  rw [found, Server.getFileEntry_table]
  by_cases here : ref = m.current name
  · have named : ref.name = name := ((m.eq_current ref name).mp here).1
    rw [if_pos here, if_pos named, named, if_pos here]
  · rw [entry]
    split_ifs with current named
    · rw [named] at current
      exact absurd current here
    · rfl
    · rfl

end Memory

-- What a handler does between two operations on a mutex. `data` stands for the work on everything but
-- the table and the directory of the server.
inductive Op where
  | look
  | data (update : Server → Server)
  | getFileEntry (name : String)
  | findEntry (name : String)
  | announceWriter
  | acquireWrite
  | acquireReadNoPriority
  | claimWrite
  | releaseWrite
  | releaseRead
  | setVersion (update : Int32 → Int32)
  | dropEntry (name : String)
  | getOrCreateFileMeta (outcome : Outcome) (f : Replication)
  | forget

namespace Memory

def update (m : Memory) (l : Locals) (change : FileEntry → FileEntry) : Memory :=
  match l.entry with
  | none => m
  | some ref => m.setEntry ref change

def guard (op : Op) (l : Locals) (m : Memory) : Bool :=
  match op with
  | .acquireWrite => (l.entry.bind m.entry).any FileEntry.canWrite
  | .acquireReadNoPriority => (l.entry.bind m.entry).any fun entry => !entry.activeWriter
  | .claimWrite => (l.entry.bind m.entry).any FileEntry.canWrite
  | _ => true

def receiveMeta (outcome : Outcome) (m : Memory) (f : Replication) : Memory :=
  let written := osWriteFile outcome m.server.tree (m.server.path f.filename) f.content
  let s : Server := { m.server with tree := written.1 }
  if written.2 then
    let found := s.getOrCreateFileMeta f.filename
    let next := found.1.setMetaVersion found.2 f.version
    if found.1.nextFD = s.nextFD then { m with server := next } else m.replace f.filename next
  else { m with server := s }

def exec (op : Op) (l : Locals) (m : Memory) : Locals × Memory :=
  match op with
  | .look => (l, m)
  | .data update => (l, { m with server := { update m.server with table := m.server.table, rootDir := m.server.rootDir } })
  | .getFileEntry name =>
      ({ l with entry := some (m.current name) }, { m with server := (m.server.getFileEntry name).1 })
  | .findEntry name => ({ l with entry := (m.server.table.lookup name).map fun _ => m.current name }, m)
  | .announceWriter => (l, m.update l fun entry => { entry with waitingWriters := entry.waitingWriters + 1 })
  | .acquireWrite =>
      ({ l with access := some .writing },
        m.update l fun entry => { entry with waitingWriters := entry.waitingWriters - 1, activeWriter := true })
  | .acquireReadNoPriority =>
      ({ l with access := some .reading },
        m.update l fun entry => { entry with activeReaders := entry.activeReaders + 1 })
  | .claimWrite =>
      if guard .claimWrite l m then
        ({ l with access := some .writing }, m.update l fun entry => { entry with activeWriter := true })
      else (l, m)
  | .releaseWrite => ({ l with access := none }, m.update l fun entry => { entry with activeWriter := false })
  | .releaseRead =>
      ({ l with access := none }, m.update l fun entry => { entry with activeReaders := entry.activeReaders - 1 })
  | .setVersion update => (l, m.update l fun entry => { entry with version := update entry.version })
  | .dropEntry name => (l, m.replace name { m.server with table := m.server.table.erase name })
  | .getOrCreateFileMeta outcome f => (l, m.receiveMeta outcome f)
  | .forget => (⟨none, none⟩, m)

end Memory

def Locals.mutex (l : Locals) : Lock → Mutex
  | .server => .server
  | .entry => .entry l.entry
  | .file fd => .file fd

def meaning : Threads.Meaning Lock Mutex Op Locals Memory where
  start := ⟨none, none⟩
  mutex := Locals.mutex
  guard := Memory.guard
  exec := Memory.exec

inductive Answer where
  | rpc (answer : Except Status Response) (sent : List AppendEntriesRequest)
  | stream (chunks : List Bytes) (status : Option Status)
  | version (answer : Except Status Int32)
  | snapshot (answer : Except Status GlobalSnapshot)
  | leader (answer : Except Status LeaderResponse)
  | recovery (answer : Except Status UpdateMessage)
  | background

structure SnapshotIO where
  now : Time := 0
  failed : Option String := none

def SnapshotIO.written (io : SnapshotIO) (snap : GlobalSnapshot) : Except Status GlobalSnapshot :=
  match io.failed with
  | none => .ok snap
  | some reason => .error ⟨.internal, "write snapshot failed: " ++ reason⟩

abbrev Program := Threads.Prog Lock Op Locals Memory Answer

namespace Program

open Threads.Prog

def look (next : Server → Program) : Program := act .look fun _ m => next m.server

def data (update : Server → Server) (next : Server → Program) : Program := act (.data update) fun _ m => next m.server

def leave (answer : Answer) : Program := act .forget fun _ _ => done answer

def refuse (code : Code) (message : String) : Answer := .rpc (.error ⟨code, message⟩) []

def getFileEntry (name : String) (next : Program) : Program :=
  lock .server <| act (.getFileEntry name) fun _ _ => unlock .server next

def acquireWrite (next : Program) : Program :=
  lock .entry <| act .announceWriter fun _ _ => await .entry .acquireWrite <| unlock .entry next

def releaseWrite (next : Program) : Program :=
  lock .entry <| act .releaseWrite fun _ _ => broadcast .entry <| unlock .entry next

def acquireReadNoPriority (next : Program) : Program :=
  lock .entry <| await .entry .acquireReadNoPriority <| unlock .entry next

def releaseRead (next : Program) : Program :=
  lock .entry <| act .releaseRead fun _ _ => broadcast .entry <| unlock .entry next

def unlockAndLeave (answer : Answer) : Program := releaseWrite (leave answer)

def asPrimary (refused : Status → Answer) (next : Program) : Program :=
  look fun s =>
    match s.notLeader with
    | some status => done (refused status)
    | none => next

def failed (status : Status) : Answer := .rpc (.error status) []

def mkdirs (env : Env) (safe : String) (s : Server) : Option Tree :=
  if env.mkdir then s.tree.mkdirAll (s.path safe).dropLast else none

def openExclusive (env : Env) (safe : String) (s : Server) : Option Tree :=
  if (s.tree.find (s.path safe)).isSome then none
  else if env.openFile then s.tree.writeFile (s.path safe) [] else none

def removeFile (env : Env) (safe : String) (s : Server) : Option Tree :=
  if env.remove then s.tree.remove (s.path safe) else none

def onTree (change : Server → Option Tree) (s : Server) : Server :=
  { s with tree := (change s).getD s.tree }

def opened (s : Server) (version : Int32) (message : String) : Response := .opened ⟨s.nextFD, version, message⟩

def createRegistered (env : Env) (req : CreateRequest) (safe : String) : Program :=
  lock .server <| look fun s =>
    if s.files.entries.length ≥ maxOpenFiles then
      unlock .server <| data (onTree (removeFile env safe)) fun _ =>
        unlockAndLeave (refuse .resourceExhausted "too many open files")
    else
      lock .entry <| act (.setVersion fun _ => 0) fun _ _ => unlock .entry <|
        data (fun s => (s.register safe req.clientId req.mode 0 env.finish).1.remember req.requestId
          (opened s 0 "file created") env.finish) fun s =>
        unlock .server <| unlockAndLeave (.rpc (.ok (opened s 0 "file created")) [])

def createLocked (env : Env) (req : CreateRequest) (safe : String) : Program :=
  data (onTree (mkdirs env safe)) fun s =>
    match mkdirs env safe s with
    | none => unlockAndLeave (refuse .unknown env.reason)
    | some _ =>
        data (onTree (openExclusive env safe)) fun s =>
          if (s.tree.find (s.path safe)).isSome then unlockAndLeave (refuse .alreadyExists "file exists")
          else
            match openExclusive env safe s with
            | none => unlockAndLeave (refuse .unknown env.reason)
            | some _ => createRegistered env req safe

def create (env : Env) (req : CreateRequest) : Program :=
  asPrimary failed <| lock .server <| look fun s =>
    match s.cached req.requestId env.start with
    | some (.opened resp) => unlock .server (done (.rpc (.ok (.opened resp)) []))
    | some _ => panic
    | none =>
        unlock .server <|
          match normalize req.filename with
          | none => done (refuse .unknown "invalid path")
          | some safe =>
              if !(hasPrefix "output/" safe || hasPrefix "output\\" safe) then
                done (refuse .permissionDenied "only output/")
              else getFileEntry safe (acquireWrite (createLocked env req safe))

def openRegistered (env : Env) (req : FileRequest) (safe message : String) (release : Program → Program) : Program :=
  lock .server <| act .look fun l m =>
    if m.server.files.entries.length ≥ maxOpenFiles then
      unlock .server <| release <| leave (refuse .resourceExhausted "too many open files")
    else
      let version := (m.view l.entry).entryVersion safe
      data (fun s => (s.register safe req.clientId req.mode version env.finish).1.remember req.requestId
        (opened s version message) env.finish) fun s =>
      unlock .server <| release <| leave (.rpc (.ok (opened s version message)) [])

def openInput (env : Env) (req : FileRequest) (safe : String) : Program :=
  if req.mode ≠ .read then leave (refuse .permissionDenied "input files are read-only")
  else
    acquireReadNoPriority <| look fun s =>
      if env.openFile && (s.tree.find (s.path safe)).isSome then
        openRegistered env req safe "opened input file" releaseRead
      else releaseRead <| leave (refuse .notFound "input file not found")

def openOutput (env : Env) (req : FileRequest) (safe : String) : Program :=
  look fun s =>
    if env.openFile && osOpen s.tree (s.path safe) req.mode then
      openRegistered env req safe "opened output file" id
    else leave (refuse .notFound "output file not found")

def openFile (env : Env) (req : FileRequest) : Program :=
  asPrimary failed <| lock .server <| look fun s =>
    match s.cached req.requestId env.start with
    | some (.opened resp) => unlock .server (done (.rpc (.ok (.opened resp)) []))
    | some _ => panic
    | none =>
        unlock .server <|
          match normalize req.filename with
          | none => done (refuse .unknown "invalid path")
          | some safe =>
              getFileEntry safe <|
                if hasPrefix "input/" safe then openInput env req safe else openOutput env req safe

def releaseClaim (answer : Answer) : Program :=
  lock .entry <| act .releaseWrite fun l m =>
    if (l.entry.bind m.entry).any FileEntry.cond then broadcast .entry <| unlock .entry (leave answer) else panic

def removes (env : Env) (safe : String) (s : Server) : Bool :=
  match osStat s.tree (s.path safe) with
  | .missing => true
  | _ => (removeFile env safe s).isSome

def deleteLocked (env : Env) (req : DeleteRequest) (safe : String) : Program :=
  data (onTree (removeFile env safe)) fun s =>
    if removes env safe s then
      let resp := Response.deleted ⟨"File is deleted"⟩
      lock .server <| act (.dropEntry safe) fun _ _ =>
        data (fun s => { s with filesPrimes := s.filesPrimes.erase safe }.remember req.requestId resp env.finish) fun _ =>
        unlock .server <| releaseClaim (.rpc (.ok resp) [])
    else releaseClaim (refuse .internal env.reason)

def alreadyDeleted (env : Env) (req : DeleteRequest) : Program :=
  let resp := Response.deleted ⟨"File is already deleted"⟩
  lock .server <| data (fun s => s.remember req.requestId resp env.finish) fun _ =>
    unlock .server <| leave (.rpc (.ok resp) [])

def delete (env : Env) (req : DeleteRequest) : Program :=
  asPrimary failed <| lock .server <| look fun s =>
    match s.cached req.requestId env.start with
    | some (.deleted resp) => unlock .server (done (.rpc (.ok (.deleted resp)) []))
    | some _ => panic
    | none =>
        unlock .server <|
          match normalize req.filename with
          | none => done (refuse .unknown "invalid path")
          | some safe =>
              if hasPrefix "input/" safe then done (refuse .permissionDenied "cannot delete input files")
              else
                look fun s =>
                  match osStat s.tree (s.path safe) with
                  | .missing => alreadyDeleted env req
                  | .found .dir => done (refuse .invalidArgument "cannot delete directory")
                  | _ =>
                      lock .server <| act (.findEntry safe) fun l _ =>
                        unlock .server <|
                          if l.entry.isNone then alreadyDeleted env req
                          else
                            lock .entry <| act .claimWrite fun l _ =>
                              unlock .entry <|
                                if l.access = some .writing then deleteLocked env req safe
                                else leave (refuse .failedPrecondition "file is currently in use by another client")

def answerCall (env : Env) (call : Call) (sent : List AppendEntriesRequest) (version : Int32) : Program :=
  let resp := call.response version
  let answer := Answer.rpc (.ok resp) sent
  let remembered :=
    lock .server <| data (fun s => s.remember call.req.requestId resp env.finish) fun _ =>
      unlock .server <| if call.req.dirty then unlockAndLeave answer else leave answer
  match call.kind with
  | .close =>
      lock .server <| lock (.file call.req.fd) <| data (fun s => s.dropClient call) fun _ =>
        unlock (.file call.req.fd) <| unlock .server remembered
  | .write => remembered

def finishCall (env : Env) (call : Call) (sent : List AppendEntriesRequest) : Program :=
  lock .entry <|
    if call.req.dirty then
      act (.setVersion (· + 1)) fun _ _ => act .look fun l m =>
        let version := (m.view l.entry).entryVersion call.name
        data (fun s => s.saveVersion env.saveMeta call.name version) fun _ =>
          unlock .entry <| answerCall env call sent version
    else
      act .look fun l m => unlock .entry <| answerCall env call sent ((m.view l.entry).entryVersion call.name)

def updatePrimes (env : Env) (call : Call) (primes : FilePrimeSet) (sent : List AppendEntriesRequest) : Program :=
  match call.kind with
  | .close =>
      lock .server <| data (fun s => s.setPrimes call.primeKey primes) fun _ =>
        unlock .server <| finishCall env call sent
  | .write =>
      lock .server <| look fun s => unlock .server <|
        let temp := s.tempPrimeSet call
        data (fun s => (s.appendUnique env call.filename temp.1).1) fun s =>
          match (s.appendUnique env call.filename temp.1).2 with
          | some status => unlockAndLeave (.rpc (.error status) sent)
          | none =>
              lock .server <| data (fun s => s.setPrimes call.primeKey temp.2) fun _ =>
                unlock .server <| finishCall env call sent

def commit (env : Env) (call : Call) (primes : FilePrimeSet) (entry : LogEntry) (round : AppendEntriesRequest) :
    Program :=
  lock .server <| data (fun s => s.commitEntry env.apply entry) fun _ =>
    unlock .server <| look fun s => updatePrimes env call primes [round, sendAppendEntry s.id entry s.commitIndex]

-- Write counts the servers it believes alive under the lock, Close counts all of them without it.
def countMajority (kind : Kind) (next : Nat → Program) : Program :=
  match kind with
  | .close => look fun s => next (s.majority .close)
  | .write => lock .server <| look fun s => unlock .server <| next (s.majority .write)

def replicate (env : Env) (call : Call) (primes : FilePrimeSet) (entry : LogEntry) : Program :=
  look fun s =>
    let round := sendAppendEntry s.id entry s.commitIndex
    countMajority call.kind fun majority =>
      if Server.ackCount majority 1 env.answers < majority then
        unlockAndLeave (.rpc (.error ⟨.unavailable, "failed to reach majority"⟩) [round])
      else commit env call primes entry round

section Calls

variable [LogCodec]

-- The entry gets its index from the length of the log before the lock is taken.
def appendCall (env : Env) (call : Call) (primes : FilePrimeSet) (content : Bytes) : Program :=
  act .look fun l m =>
    let entry := (m.view l.entry).logEntry call content m.server.log.length
    lock .server <| data (fun s => (s.appendLog env.persist entry).1) fun s =>
      unlock .server <|
        if (s.appendLog env.persist entry).2 then replicate env call primes entry
        else unlockAndLeave (refuse .internal "log persist failed")

def lockedCall (env : Env) (call : Call) : Program :=
  act .look fun l m =>
    match (m.view l.entry).refusal call with
    | some status => unlockAndLeave (failed status)
    | none =>
        match call.kind with
        | .close =>
            lock .server <| look fun s =>
              unlock .server <| appendCall env call (s.tempPrimeSet call).2 (s.content env.range call)
        | .write => appendCall env call ∅ call.req.data

-- The client has closed the file already; getFileEntry takes the lock that the handler still has.
def alreadyClosed (env : Env) (call : Call) : Program :=
  getFileEntry call.name <| lock .entry <| act .look fun l m =>
    let version := (m.view l.entry).entryVersion call.name
    let resp := match call.kind with
      | .close => Response.closed ⟨"already closed", version⟩
      | .write => Response.written ⟨"already closed", version⟩
    unlock .entry <| data (fun s => s.remember call.req.requestId resp env.finish) fun _ =>
      unlock .server <| leave (.rpc (.ok resp) [])

def handleCall (kind : Kind) (env : Env) (req : DataRequest) : Program :=
  asPrimary failed <| lock .server <| look fun s =>
    match s.cachedCall kind req.requestId env.start with
    | some (some resp) => unlock .server (done (.rpc (.ok resp) []))
    | some none => panic
    | none =>
        let found := look fun s =>
          match s.files.lookup req.fd with
          | none => unlock .server (done (refuse .notFound "file not open"))
          | some found =>
              match found.clients.lookup req.clientID with
              | none => alreadyClosed env ⟨kind, req, found.filename, .read⟩
              | some client =>
                  let call : Call := ⟨kind, req, found.filename, client.mode⟩
                  unlock .server <| getFileEntry call.name <|
                    if req.dirty then acquireWrite (lockedCall env call) else finishCall env call []
        match kind with
        | .close => unlock .server <| lock .server found
        | .write => found

end Calls

def client (s : Server) (fd : Int32) (clientID : String) : Option ClientState :=
  (s.files.lookup fd).bind fun found => found.clients.lookup clientID

def setClients (s : Server) (fd : Int32) (change : Map String ClientState → Map String ClientState) : Server :=
  match s.files.lookup fd with
  | none => s
  | some found => { s with files := s.files.insert fd { found with clients := change found.clients } }

def readLocked (io : ReadAnswers) (req : ReadRequest) (key : FileKey) (fd : Int32) : Program :=
  let ends (chunks : List Bytes) (status : Option Status) : Program :=
    unlock (.file fd) (done (.stream chunks status))
  lock (.file fd) <| look fun s =>
    match client s fd req.clientID with
    | none => ends [] (some ⟨.permissionDenied, "client not registered for this file"⟩)
    | some state =>
        if io.now - state.lastSeen > leaseTimeout then
          lock .server <| data (fun s => { s with openMap := s.openMap.erase key }) fun _ =>
            unlock .server <| data (fun s => setClients s fd fun clients => clients.erase req.clientID) fun _ =>
              ends [] (some ⟨.permissionDenied, "lease expired"⟩)
        else
          data (fun s => setClients s fd fun clients =>
              clients.insert req.clientID { state with lastSeen := io.now }) fun _ =>
            if io.seek then ends (Server.streamChunks io).1 (Server.streamChunks io).2
            else ends [] (some ⟨.internal, "seek failed"⟩)

def read (io : ReadAnswers) (req : ReadRequest) : Program :=
  let refuse (code : Code) (message : String) : Program := done (.stream [] (some ⟨code, message⟩))
  asPrimary (fun status => .stream [] (some status)) <|
    match normalize req.filename with
    | none => refuse .invalidArgument "invalid path"
    | some safe =>
        let key : FileKey := ⟨req.clientID, safe⟩
        lock .server <| look fun s =>
          unlock .server <|
            match s.openMap.lookup key with
            | none => refuse .permissionDenied "file not opened by client"
            | some fd =>
                if (s.files.lookup fd).isNone then refuse .internal "file metadata missing"
                else
                  look fun s =>
                    match client s fd req.clientID with
                    | none => refuse .permissionDenied "client not registered"
                    | some state =>
                        if state.mode ≠ .read ∧ state.mode ≠ .write ∧ state.mode ≠ .other 2 then
                          refuse .permissionDenied "read not allowed"
                        else readLocked io req key fd

def testAuth (filename : String) : Program :=
  asPrimary (fun status => .version (.error status)) <|
    match normalize filename with
    | none => done (.version (.error ⟨.invalidArgument, "invalid path"⟩))
    | some safe =>
        lock .server <| act (.findEntry safe) fun l _ =>
          unlock .server <|
            if l.entry.isNone then leave (.version (.error ⟨.notFound, "file not found"⟩))
            else
              lock .entry <| act .look fun l m =>
                unlock .entry <| leave (.version (.ok ((m.view l.entry).entryVersion safe)))

def releaseLeases : List ExpiredLease → Program
  | [] => leave .background
  | lease :: rest =>
      getFileEntry lease.filename <|
        match lease.mode with
        | .read => releaseRead (releaseLeases rest)
        | .write => releaseWrite (releaseLeases rest)
        | .other number => if number = 2 then releaseWrite (releaseLeases rest) else releaseLeases rest

def expireFiles (now : Time) : List Int32 → List ExpiredLease → Program
  | [], expired => unlock .server (releaseLeases expired)
  | fd :: rest, expired =>
      lock (.file fd) <| data (fun s => (Server.expireFile now (s, []) fd).1) fun s =>
        unlock (.file fd) <| expireFiles now rest (expired ++ (Server.expireFile now (s, []) fd).2)

def cleanupLeases (now : Time) : Program :=
  lock .server <| look fun s => expireFiles now s.files.keys []

def versionOf (name : String) (next : Int32 → Program) : Program :=
  act (.findEntry name) fun l _ =>
    if l.entry.isNone then next 0
    else lock .entry <| act .look fun l m => unlock .entry <| next ((m.view l.entry).entryVersion name)

def recordClients (fd : Int32) (filename : String) (next : List SnapshotClientInfo → Program) :
    List (Sigma fun _ : String => ClientState) → List SnapshotClientInfo → Program
  | [], recorded => next recorded
  | client :: rest, recorded =>
      versionOf filename fun version =>
        recordClients fd filename next rest (recorded ++ [⟨client.1, filename, fd, client.2.mode, version⟩])

def recordOpen (next : List SnapshotClientInfo → Program) : List Int32 → List SnapshotClientInfo → Program
  | [], recorded => next recorded
  | fd :: rest, recorded =>
      lock (.file fd) <| look fun s =>
        let later (recorded : List SnapshotClientInfo) : Program := unlock (.file fd) (recordOpen next rest recorded)
        match s.files.lookup fd with
        | none => later recorded
        | some found => recordClients fd found.filename later found.clients.entries recorded

def recordFiles (primes : Server → String → List UInt64) (next : List SnapshotFileInfo → Program) :
    List String → List SnapshotFileInfo → Program
  | [], recorded => next recorded
  | name :: rest, recorded =>
      versionOf name fun version => look fun s =>
        recordFiles primes next rest (recorded ++ [⟨name, version, primes s name, s.commitIndex⟩])

def record (io : SnapshotIO) (snapshotID : String) (primes : Server → String → List UInt64)
    (next : GlobalSnapshot → Program) : Program :=
  lock .server <| look fun s =>
    recordOpen (fun clients =>
      recordFiles primes (fun files =>
        unlock .server (next ⟨snapshotID, io.now, s.id, s.commitIndex, clients, files⟩)) s.table.keys []) s.files.keys []

def sendMarker (io : SnapshotIO) (snapshotID : String) : Program :=
  record io snapshotID (fun _ _ => []) fun snap => leave (.snapshot (io.written snap))

-- The markers go out and are waited for with no lock held; then s.snapshot is cleared under the lock.
def initiateSnapshot (io : SnapshotIO) (snapshotID : String) : Program :=
  look fun s =>
    if s.role ≠ .primary then
      done (.snapshot (.error ⟨.failedPrecondition, "only the primary can initiate snapshots"⟩))
    else
      record io snapshotID Server.recordedPrimes fun snap =>
        match io.written snap with
        | .error status => leave (.snapshot (.error status))
        | .ok snap => lock .server <| unlock .server <| leave (.snapshot (.ok snap))

def locked (update : Server → Server) : Program :=
  lock .server <| data update fun _ => unlock .server (done .background)

def receiveFiles (disk : DiskIO) : Nat → List Replication → Program
  | _, [] => unlock .server (done .background)
  | position, f :: rest =>
      act (.getOrCreateFileMeta (disk.write position) f) fun _ m =>
        let written := osWriteFile (disk.write position) m.server.tree (m.server.path f.filename) f.content
        let fd := (Server.getOrCreateFileMeta { m.server with tree := written.1 } f.filename).2
        unlock .server <|
          if written.2 then
            lock .server <| data (fun s => s.rebuildPrimeSet (s.metaName fd)) fun _ =>
              unlock .server <| lock .server <| receiveFiles disk (position + 1) rest
          else done .background

def applyUpdate [LogCodec] (disk : DiskIO) (msg : UpdateMessage) : Program :=
  if msg.isFullSync then
    lock .server <| data (fun s => { s with log := [], commitIndex := 0, lastApplied := 0 }) fun _ =>
      receiveFiles disk 0 msg.fullFiles
  else locked fun s => (s.applyUpdate disk msg).1

def getLeader : Program :=
  lock .server <| look fun s => unlock .server (done (.leader s.getLeader))

def collectFiles : List String → List Replication → Program
  | [], files => unlock .server (done (.recovery (.ok ⟨true, [], files⟩)))
  | name :: rest, files =>
      look fun s =>
        collectFiles rest (files ++ ((s.bytes name).map fun data => ⟨name, s.entryVersion name, data⟩).toList)

def requestRecovery : Program :=
  lock .server <| look fun s =>
    if s.role ≠ .primary then unlock .server (done (.recovery (.error ⟨.failedPrecondition, "not leader"⟩)))
    else collectFiles s.table.keys []

def rebuildNames : List String → Program
  | [] => done .background
  | name :: rest => data (fun s => s.rebuildPrimes name) fun _ => rebuildNames rest

-- The rebuild takes no lock at all.
def rebuildAllPrimeSets : Program :=
  look fun s =>
    if s.role ≠ .primary then done .background
    else look fun s =>
      match s.tree.find (clean s.rootDir) with
      | some .dir => rebuildNames (s.tree.names (clean s.rootDir))
      | _ => done .background

end Program

inductive Job where
  | serve (env : Env) (rpc : Rpc)
  | read (io : ReadAnswers) (req : ReadRequest)
  | testAuth (filename : String)
  | cleanupLeases (now : Time)
  | cleanupRequests (now : Time)
  | sendMarker (io : SnapshotIO) (snapshotID : String)
  | initiateSnapshot (io : SnapshotIO) (snapshotID : String)
  | receiveMarkerAck
  | appendEntries (disk : DiskIO) (req : AppendEntriesRequest)
  | applyUpdate (disk : DiskIO) (msg : UpdateMessage)
  | sendHeartbeat (now : Time) (req : Heartbeat)
  | heartbeatReply (success : Bool)
  | monitorPrimary (now : Time)
  | getLeader
  | requestRecovery
  | rebuildAllPrimeSets

def Rpc.program [LogCodec] (env : Env) : Rpc → Program
  | .create req => Program.create env req
  | .openFile req => Program.openFile env req
  | .close req => Program.handleCall .close env req
  | .write req => Program.handleCall .write env req
  | .delete req => Program.delete env req

def Job.program [LogCodec] : Job → Program
  | .serve env rpc => rpc.program env
  | .read io req => Program.read io req
  | .testAuth filename => Program.testAuth filename
  | .cleanupLeases now => Program.cleanupLeases now
  | .cleanupRequests now => Program.locked fun s => s.cleanupRequests now
  | .sendMarker io snapshotID => Program.sendMarker io snapshotID
  | .initiateSnapshot io snapshotID => Program.initiateSnapshot io snapshotID
  | .receiveMarkerAck => Program.locked id
  | .appendEntries disk req => Program.locked fun s => (s.appendEntries disk req).1
  | .applyUpdate disk msg => Program.applyUpdate disk msg
  | .sendHeartbeat now req => Program.locked fun s => (s.sendHeartbeat now req).1
  | .heartbeatReply success => Program.locked fun s => s.heartbeatReply success
  | .monitorPrimary now => Program.locked fun s => s.monitorPrimary now
  | .getLeader => Program.getLeader
  | .requestRecovery => Program.requestRecovery
  | .rebuildAllPrimeSets => Program.rebuildAllPrimeSets

end Ikkat
