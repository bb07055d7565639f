import Ikkat.Election

set_option autoImplicit false

namespace Ikkat

structure SnapshotClientInfo where
  clientID : String
  filename : String
  fd : Int32
  mode : FileMode
  version : Int32
  deriving DecidableEq, Repr

structure SnapshotFileInfo where
  filename : String
  version : Int32
  primeSet : List UInt64
  commitIdx : Nat
  deriving DecidableEq, Repr

structure GlobalSnapshot where
  snapshotID : String
  takenAt : Time
  serverID : String
  commitIndex : Nat
  openClients : List SnapshotClientInfo
  files : List SnapshotFileInfo
  deriving DecidableEq, Repr

namespace Server

def snapshotClients (s : Server) : List SnapshotClientInfo :=
  s.files.entries.flatMap fun item =>
    item.2.clients.entries.map fun client =>
      ⟨client.1, item.2.filename, item.1, client.2.mode, s.entryVersion item.2.filename⟩

def recordedPrimes (s : Server) (name : String) : List UInt64 :=
  match s.filesPrimes.lookup name with
  | none => []
  | some primes => primes.elems

def snapshotFiles (s : Server) (primes : String → List UInt64) : List SnapshotFileInfo :=
  s.table.entries.map fun item => ⟨item.1, item.2.version, primes item.1, s.commitIndex⟩

def localSnapshot (s : Server) (now : Time) (snapshotID : String) (primes : String → List UInt64) : GlobalSnapshot where
  snapshotID := snapshotID
  takenAt := now
  serverID := s.id
  commitIndex := s.commitIndex
  openClients := s.snapshotClients
  files := s.snapshotFiles primes

-- What the primary records in InitiateSnapshot, and a backup in SendMarker, which leaves the sets out.
def initiatedSnapshot (s : Server) (now : Time) (snapshotID : String) : GlobalSnapshot :=
  s.localSnapshot now snapshotID s.recordedPrimes

def markedSnapshot (s : Server) (now : Time) (snapshotID : String) : GlobalSnapshot :=
  s.localSnapshot now snapshotID fun _ => []

def alivePeers (s : Server) : List (String × ServerInfo) :=
  (s.servers.entries.map fun item => (item.1, item.2)).filter fun item => item.1 ≠ s.id && item.2.alive

end Server

def checkClientInSnapshot (snap : GlobalSnapshot) (clientID : String) : Bool × List SnapshotClientInfo :=
  let details := snap.openClients.filter fun oc => oc.clientID = clientID
  (details.any fun oc => oc.mode = .write, details)

end Ikkat
