import Mathlib.Logic.Function.Basic
import Ikkat.Rpc

set_option autoImplicit false

namespace Ikkat

def maxTries : Nat := 3

def maxCacheEntries : Nat := 20

structure CacheEntry where
  filename : String
  localPath : Path
  version : Int32
  dirty : Bool
  fd : Int32
  closed : Bool
  mode : FileMode := .read
  valid : Bool := false
  deriving DecidableEq, Repr

-- `cacheDir` is where ClientCacheDir leads from the working directory of the process, `address` the server
-- that its connection is for.
structure Client where
  cacheDir : String
  address : String
  cache : Map String CacheEntry
  lru : List String

inductive Failure where
  | deadlineExceeded
  | status (answer : Status)
  | plain (text : String)
  deriving DecidableEq, Repr

def Code.text : Code → String
  | .unknown => "Unknown"
  | .unavailable => "Unavailable"
  | .internal => "Internal"
  | .failedPrecondition => "FailedPrecondition"
  | .permissionDenied => "PermissionDenied"
  | .alreadyExists => "AlreadyExists"
  | .resourceExhausted => "ResourceExhausted"
  | .notFound => "NotFound"
  | .aborted => "Aborted"
  | .invalidArgument => "InvalidArgument"

namespace Failure

def text : Failure → String
  | .deadlineExceeded => "rpc error: code = DeadlineExceeded desc = context deadline exceeded"
  | .status answer => "rpc error: code = " ++ answer.code.text ++ " desc = " ++ answer.message
  | .plain text => text

def transient : Failure → Bool
  | .deadlineExceeded => true
  | .status answer => answer.code = .unavailable
  | .plain _ => false

end Failure

-- strings.Split with the separator ": ".
def splitColon : List Char → List (List Char)
  | [] => [[]]
  | ':' :: ' ' :: rest => [] :: splitColon rest
  | c :: rest =>
      match splitColon rest with
      | [] => [[c]]
      | first :: more => (c :: first) :: more

def extractLeaderAddr (err : Failure) : Option String :=
  let msg := err.text.toList
  let parts := splitColon msg
  if !(msg.tails.any fun tail => "not leader".toList.isPrefixOf tail) then none
  else if parts.length < 2 then none
  else parts.getLast?.map String.ofList

example : extractLeaderAddr (.status ⟨.failedPrecondition, "not leader: localhost:5001"⟩) = some "localhost:5001" := by
  decide +kernel

structure Net (World : Type) where
  create : String → World → CreateRequest → World × Except Failure OpenResponse
  openFile : String → World → FileRequest → World × Except Failure OpenResponse
  close : String → World → DataRequest → World × Except Failure CloseResponse
  write : String → World → DataRequest → World × Except Failure WriteResponse
  delete : String → World → DeleteRequest → World × Except Failure DeleteResponse
  testAuth : String → World → String → World × Except Failure Int32
  read : String → World → ReadRequest → World × Except Failure (List Bytes × Option Failure)
  connect : World → String → World × Option String

structure LocalIO where
  mkdir : Bool := true
  create : Bool := true
  write : Outcome := .done
  rename : Bool := true
  readFile : Bool := true
  remove : Bool := true
  reason : String := "input/output error"

def osTruncate (works : Bool) (disk : Tree) (path : Path) : Option Tree :=
  if works then disk.writeFile path [] else none

def osReadFile (works : Bool) (disk : Tree) (path : Path) : Option Bytes :=
  match disk.find path with
  | some (.file content) => if works then some content else none
  | _ => none

def osRemove (works : Bool) (disk : Tree) (path : Path) : Option Tree :=
  if works then disk.remove path else none

def osRename (works : Bool) (disk : Tree) (source target : Path) : Option Tree :=
  match disk.find source with
  | some (.file content) =>
      if works then (disk.writeFile target content).bind fun moved => moved.remove source else none
  | _ => none

def osAppendFile (outcome : Outcome) (disk : Tree) (path : Path) (data : Bytes) : Tree × Bool :=
  match disk.find path with
  | some (.file old) => ((disk.writeFile path (old ++ Server.copied outcome data)).getD disk, outcome = .done)
  | _ => (disk, false)

namespace Client

def localPath (c : Client) (filename : String) : Path := join c.cacheDir filename

def evictee (c : Client) : Option (String × CacheEntry) :=
  c.lru.findSome? fun name =>
    match c.cache.lookup name with
    | none => none
    | some entry => if entry.closed && !entry.dirty && entry.fd == 0 then some (name, entry) else none

def touchLRU (c : Client) (filename : String) : Client :=
  { c with lru := c.lru.erase filename ++ [filename] }

def setEntry (c : Client) (filename : String) (entry : CacheEntry) : Client :=
  { c with cache := c.cache.insert filename entry }

end Client

structure Seat (World : Type) where
  client : Client
  disk : Tree
  world : World

namespace Seat

variable {World : Type} (net : Net World) (io : LocalIO)

def evictFromCache (seat : Seat World) : Seat World × Option Failure :=
  match seat.client.evictee with
  | none => (seat, some (.plain "max number of open files reached, close a file before opening another"))
  | some (name, entry) =>
      ({ seat with
          disk := (osRemove io.remove seat.disk entry.localPath).getD seat.disk
          client := { seat.client with
            cache := seat.client.cache.erase name
            lru := seat.client.lru.erase name } }, none)

def makeRoom (seat : Seat World) : Seat World × Option Failure :=
  if maxCacheEntries ≤ seat.client.cache.entries.length then seat.evictFromCache io else (seat, none)

-- The loop of Create and Open: every error is tried again, the last one is returned.
def retried {Reply : Type} (send : String → World → World × Except Failure Reply) :
    Nat → Seat World → Seat World × Except Failure Reply
  | further, seat =>
      match send seat.client.address seat.world with
      | (world, .ok reply) => ({ seat with world := world }, .ok reply)
      | (world, .error err) =>
          match extractLeaderAddr err with
          | none =>
              match further with
              | 0 => ({ seat with world := world }, .error err)
              | further + 1 => retried send further { seat with world := world }
          | some addr =>
              match net.connect world addr with
              | (world, some reason) => ({ seat with world := world }, .error (.plain reason))
              | (world, none) =>
                  let seat := { seat with world := world, client := { seat.client with address := addr } }
                  match further with
                  | 0 => (seat, .error err)
                  | further + 1 => retried send further seat

-- What Commit, Close and Delete do: after a redirection the request is sent once more, and its answer is dropped.
def sent {Reply : Type} (send : String → World → World × Except Failure Reply) (seat : Seat World) :
    Seat World × Except Failure Reply :=
  match send seat.client.address seat.world with
  | (world, .ok reply) => ({ seat with world := world }, .ok reply)
  | (world, .error err) =>
      match extractLeaderAddr err with
      | none => ({ seat with world := world }, .error err)
      | some addr =>
          match net.connect world addr with
          | (world, some reason) => ({ seat with world := world }, .error (.plain reason))
          | (world, none) =>
              ({ seat with
                  world := (send addr world).1
                  client := { seat.client with address := addr } }, .error err)

def testAuth (filename : String) : Nat → Seat World → Seat World × Except Failure Int32
  | further, seat =>
      match net.testAuth seat.client.address seat.world filename with
      | (world, .ok version) => ({ seat with world := world }, .ok version)
      | (world, .error err) =>
          match err.transient, further with
          | true, further + 1 => testAuth filename further { seat with world := world }
          | _, _ => ({ seat with world := world }, .error err)

def enter (filename : String) (entry : CacheEntry) (seat : Seat World) : Seat World × Except Failure CacheEntry :=
  let made := if io.mkdir then (seat.disk.mkdirAll entry.localPath.dropLast).getD seat.disk else seat.disk
  match osTruncate io.create made entry.localPath with
  | none => ({ seat with disk := made }, .error (.plain io.reason))
  | some disk =>
      ({ seat with disk := disk, client := (seat.client.setEntry filename entry).touchLRU filename }, .ok entry)

-- The request has no mode, so the server takes it for READ.
def create (requestId filename clientID : String) (seat : Seat World) : Seat World × Except Failure CacheEntry :=
  match seat.makeRoom io with
  | (seat, some err) => (seat, .error err)
  | (seat, none) =>
      let send := fun address world => net.create address world ⟨requestId, filename, clientID, .read⟩
      match seat.retried net send (maxTries - 1) with
      | (seat, .error err) => (seat, .error err)
      | (seat, .ok resp) =>
          seat.enter io filename
            { filename := filename, localPath := seat.client.localPath filename, version := resp.version,
              dirty := false, fd := resp.fd, closed := true }

def openRemote (req : FileRequest) (seat : Seat World) : Seat World × Except Failure CacheEntry :=
  match seat.retried net (fun address world => net.openFile address world req) (maxTries - 1) with
  | (seat, .error err) => (seat, .error err)
  | (seat, .ok resp) =>
      seat.enter io req.filename
        { filename := req.filename, localPath := seat.client.localPath req.filename, version := resp.version,
          dirty := false, fd := resp.fd, closed := false, mode := req.mode }

def openCached (req : FileRequest) (entry : CacheEntry) (seat : Seat World) : Seat World × Except Failure CacheEntry :=
  let entry := { entry with valid := true, mode := req.mode }
  let client := (seat.client.touchLRU req.filename).setEntry req.filename entry
  match net.openFile client.address seat.world req with
  | (world, .error err) => ({ seat with client := client, world := world }, .error err)
  | (world, .ok resp) =>
      let entry := { entry with fd := resp.fd, closed := false }
      ({ seat with client := client.setEntry req.filename entry, world := world }, .ok entry)

def openFile (req : FileRequest) (seat : Seat World) : Seat World × Except Failure CacheEntry :=
  match seat.client.cache.lookup req.filename with
  | some entry =>
      if entry.dirty then (seat, .ok entry)
      else
        match seat.testAuth net req.filename (maxTries - 1) with
        | (seat, .error err) => (seat, .error err)
        | (seat, .ok version) =>
            if entry.version = version then
              if !entry.closed ∧ entry.mode ≠ req.mode ∧ entry.mode = .read then
                (seat, .error (.status ⟨.failedPrecondition,
                  "file already open in read mode, to open in write, close file then open in write mode"⟩))
              else seat.openCached net req entry
            else seat.openRemote net io req
  | none =>
      match seat.makeRoom io with
      | (seat, some err) => (seat, .error err)
      | (seat, none) => seat.openRemote net io req

def readFile (filename : String) (localPath : Path) (seat : Seat World) : Seat World × Except Failure Bytes :=
  if seat.client.cache.lookup filename = none then (seat, .error (.status ⟨.notFound, "file not open"⟩))
  else
    match osReadFile io.readFile seat.disk localPath with
    | none => (seat, .error (.plain io.reason))
    | some data => ({ seat with client := seat.client.touchLRU filename }, .ok data)

def fetch (filename : String) (entry : CacheEntry) (tmp : Path) (chunks : List Bytes) (ended : Option Failure)
    (seat : Seat World) : Seat World × Except Failure Bytes :=
  let written := (seat.disk.writeFile tmp (Server.copied io.write chunks.flatten)).getD seat.disk
  let discarded := (osRemove io.remove written tmp).getD written
  if io.write ≠ .done then ({ seat with disk := discarded }, .error (.plain io.reason))
  else
    match ended with
    | some err => ({ seat with disk := discarded }, .error err)
    | none =>
        match osRename io.rename written tmp entry.localPath with
        | none => ({ seat with disk := written }, .error (.plain io.reason))
        | some disk =>
            match osReadFile io.readFile disk entry.localPath with
            | none => ({ seat with disk := disk }, .error (.plain io.reason))
            | some data => ({ seat with disk := disk, client := seat.client.touchLRU filename }, .ok data)

def read (filename clientID : String) (seat : Seat World) : Seat World × Except Failure Bytes :=
  match seat.client.cache.lookup filename with
  | none => (seat, .error (.status ⟨.notFound, "file not open"⟩))
  | some entry =>
      if entry.valid then seat.readFile io filename entry.localPath
      else
        let tmp := withSuffix entry.localPath ".tmp"
        match osTruncate io.create seat.disk tmp with
        | none => (seat, .error (.plain io.reason))
        | some disk =>
            match net.read seat.client.address seat.world ⟨filename, clientID⟩ with
            | (world, .error err) => ({ seat with disk := disk, world := world }, .error err)
            | (world, .ok (chunks, ended)) =>
                fetch io filename entry tmp chunks ended { seat with disk := disk, world := world }

def writeLocal (change : Tree → Path → Tree × Bool) (filename : String) (seat : Seat World) :
    Seat World × Except Failure Unit :=
  match seat.client.cache.lookup filename with
  | none => (seat, .error (.status ⟨.notFound, "file not open"⟩))
  | some entry =>
      if entry.mode = .read then (seat, .error (.status ⟨.permissionDenied, "file opened in read mode"⟩))
      else
        match change seat.disk entry.localPath with
        | (disk, false) => ({ seat with disk := disk }, .error (.plain io.reason))
        | (disk, true) =>
            let client := seat.client.setEntry filename { entry with dirty := true, valid := false }
            ({ seat with disk := disk, client := client.touchLRU filename }, .ok ())

def writeFile (filename : String) (data : Bytes) (seat : Seat World) : Seat World × Except Failure Unit :=
  seat.writeLocal io (fun disk path => osWriteFile io.write disk path data) filename

def appendFile (filename : String) (data : Bytes) (seat : Seat World) : Seat World × Except Failure Unit :=
  seat.writeLocal io (fun disk path => osAppendFile io.write disk path data) filename

def dataRequest (requestId clientID : String) (entry : CacheEntry) (seat : Seat World) : Option DataRequest :=
  let data := if entry.dirty then osReadFile io.readFile seat.disk entry.localPath else some []
  data.map fun data => ⟨requestId, entry.fd, entry.dirty, entry.version, data, clientID⟩

def commit (requestId filename clientID : String) (seat : Seat World) : Seat World × Except Failure Unit :=
  match seat.client.cache.lookup filename with
  | none => (seat, .error (.plain "file not in cache"))
  | some entry =>
      if entry.closed then (seat, .error (.plain "file is closed"))
      else if !entry.dirty then (seat, .ok ())
      else
        match seat.dataRequest io requestId clientID entry with
        | none => (seat, .error (.plain io.reason))
        | some req =>
            match seat.sent net fun address world => net.write address world req with
            | (seat, .error err) => (seat, .error err)
            | (seat, .ok resp) =>
                ({ seat with
                    client := seat.client.setEntry filename
                      { entry with version := resp.version, dirty := false } }, .ok ())

def close (requestId filename clientID : String) (seat : Seat World) : Seat World × Except Failure Unit :=
  match seat.client.cache.lookup filename with
  | none => (seat, .error (.status ⟨.notFound, "file not open"⟩))
  | some entry =>
      match seat.dataRequest io requestId clientID entry with
      | none => (seat, .error (.plain io.reason))
      | some req =>
          match seat.sent net fun address world => net.close address world req with
          | (seat, .error err) => (seat, .error err)
          | (seat, .ok resp) =>
              let closed := { entry with version := resp.version, dirty := false, closed := true, fd := 0 }
              ({ seat with client := (seat.client.setEntry filename closed).touchLRU filename }, .ok ())

-- The local file and the entry are gone before the server is asked, the place in lru only after it has agreed.
def forget (filename : String) (seat : Seat World) : Seat World × Option Failure :=
  match seat.client.cache.lookup filename with
  | none => (seat, none)
  | some entry =>
      if entry.dirty then
        (seat, some (.status ⟨.failedPrecondition, "cannot delete: file has uncommitted changes"⟩))
      else
        let client := { seat.client with cache := seat.client.cache.erase filename }
        match osRemove io.remove seat.disk entry.localPath with
        | some disk => ({ seat with disk := disk, client := client }, none)
        | none =>
            if seat.disk.find entry.localPath = none then ({ seat with client := client }, none)
            else (seat, some (.plain io.reason))

def delete (requestId filename : String) (seat : Seat World) : Seat World × Except Failure Unit :=
  match seat.forget io filename with
  | (seat, some err) => (seat, .error err)
  | (seat, none) =>
      match seat.sent net fun address world => net.delete address world ⟨requestId, filename⟩ with
      | (seat, .error err) => (seat, .error err)
      | (seat, .ok _) =>
          ({ seat with client := { seat.client with lru := seat.client.lru.erase filename } }, .ok ())

end Seat

inductive ClientCall where
  | create (requestId filename : String)
  | openFile (requestId filename : String) (mode : FileMode)
  | read (filename : String)
  | writeFile (filename : String) (data : Bytes)
  | appendFile (filename : String) (data : Bytes)
  | commit (requestId filename : String)
  | close (requestId filename : String)
  | delete (requestId filename : String)
  deriving DecidableEq, Repr

def ClientCall.name : ClientCall → String
  | .create _ filename => filename
  | .openFile _ filename _ => filename
  | .read filename => filename
  | .writeFile filename _ => filename
  | .appendFile filename _ => filename
  | .commit _ filename => filename
  | .close _ filename => filename
  | .delete _ filename => filename

inductive ClientAnswer where
  | entry (entry : CacheEntry)
  | data (data : Bytes)
  | done
  deriving DecidableEq, Repr

def Seat.perform {World : Type} (net : Net World) (io : LocalIO) (clientID : String) (call : ClientCall)
    (seat : Seat World) : Seat World × Except Failure ClientAnswer :=
  match call with
  | .create requestId filename => (seat.create net io requestId filename clientID).map id (·.map .entry)
  | .openFile requestId filename mode =>
      (seat.openFile net io ⟨requestId, filename, mode, clientID⟩).map id (·.map .entry)
  | .read filename => (seat.read net io filename clientID).map id (·.map .data)
  | .writeFile filename data => (seat.writeFile io filename data).map id (·.map fun _ => .done)
  | .appendFile filename data => (seat.appendFile io filename data).map id (·.map fun _ => .done)
  | .commit requestId filename => (seat.commit net io requestId filename clientID).map id (·.map fun _ => .done)
  | .close requestId filename => (seat.close net io requestId filename clientID).map id (·.map fun _ => .done)
  | .delete requestId filename => (seat.delete net io requestId filename).map id (·.map fun _ => .done)

structure Desk (World : Type) where
  disk : Tree
  clients : String → Client
  world : World

structure Turn (World : Type) where
  who : String
  call : ClientCall
  net : Net World
  io : LocalIO := {}

namespace Desk

variable {World : Type}

def seat (d : Desk World) (who : String) : Seat World := ⟨d.clients who, d.disk, d.world⟩

def turn (d : Desk World) (t : Turn World) : Desk World × Except Failure ClientAnswer :=
  let done := (d.seat t.who).perform t.net t.io t.who t.call
  (⟨done.1.disk, Function.update d.clients t.who done.1.client, done.1.world⟩, done.2)

def step (d : Desk World) (t : Turn World) : Option (Desk World) := some (d.turn t).1

def start (disk : Tree) (cacheDir address : String → String) (world : World) : Desk World where
  disk := disk
  clients who := ⟨cacheDir who, address who, ∅, []⟩
  world := world

end Desk

end Ikkat
