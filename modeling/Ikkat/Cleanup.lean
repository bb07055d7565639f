import Ikkat.Rpc

set_option autoImplicit false

namespace Ikkat

structure ExpiredLease where
  clientID : String
  filename : String
  mode : FileMode
  deriving DecidableEq, Repr

namespace Server

def cleanupRequests (now : Time) (s : Server) : Server :=
  { s with
    requests := s.requests.keys.foldl
      (fun kept id =>
        match s.requests.lookup id with
        | none => kept
        | some entry => if now - entry.timestamp > requestCacheTTL then kept.erase id else kept)
      s.requests }

def expiredLeases (now : Time) (found : FileMeta) : List ExpiredLease :=
  found.clients.entries.filterMap fun client =>
    if now - client.2.lastSeen > leaseTimeout then some ⟨client.1, found.filename, client.2.mode⟩ else none

def expireFile (now : Time) (round : Server × List ExpiredLease) (fd : Int32) : Server × List ExpiredLease :=
  match round.1.files.lookup fd with
  | none => round
  | some found =>
      let gone := expiredLeases now found
      let clients := gone.foldl (fun clients lease => clients.erase lease.clientID) found.clients
      let openMap := gone.foldl (fun openMap lease => openMap.erase ⟨lease.clientID, lease.filename⟩) round.1.openMap
      ({ round.1 with files := round.1.files.insert fd { found with clients := clients }, openMap := openMap },
        round.2 ++ gone)

def releaseRead (s : Server) (name : String) : Server :=
  s.setEntry name fun entry => { entry with activeReaders := entry.activeReaders - 1 }

-- The lock of the file is released for the client, whether or not the client has it.
def releaseLease (s : Server) (lease : ExpiredLease) : Server :=
  let s := (s.getFileEntry lease.filename).1
  match lease.mode with
  | .read => s.releaseRead lease.filename
  | .write => s.releaseWrite lease.filename
  | .other number => if number = 2 then s.releaseWrite lease.filename else s

def cleanupLeases (now : Time) (s : Server) : Server :=
  let round := s.files.keys.foldl (expireFile now) (s, [])
  round.2.foldl releaseLease round.1

theorem lookup_cleanupRequests (now : Time) {s : Server} {id : String} {entry : RequestEntry}
    (present : s.requests.lookup id = some entry) (recent : now - entry.timestamp ≤ requestCacheTTL) :
    (s.cleanupRequests now).requests.lookup id = some entry := by
  have kept (keys : List String) (requests : Map String RequestEntry) (there : requests.lookup id = some entry) :
      (keys.foldl (fun kept id =>
        match s.requests.lookup id with
        | none => kept
        | some entry => if now - entry.timestamp > requestCacheTTL then kept.erase id else kept) requests).lookup id =
          some entry := by
    induction keys generalizing requests with
    | nil => exact there
    | cons key rest ih =>
      rw [List.foldl_cons]
      apply ih
      split
      case h_1 => exact there
      case h_2 other found =>
        split_ifs with old
        · rw [AList.lookup_erase_ne, there]
          rintro rfl
          rw [present] at found
          obtain rfl := Option.some.inj found
          exact absurd recent (not_le.mpr old)
        · exact there
  exact kept _ _ present

theorem releaseLease_eq (s : Server) (lease : ExpiredLease) :
    ∃ table, s.releaseLease lease = { s with table := table } := by
  obtain ⟨table, found⟩ := s.getFileEntry_eq lease.filename
  unfold releaseLease
  rw [found]
  split
  · obtain ⟨freed, same⟩ := setEntry_eq { s with table := table } lease.filename
      fun entry => { entry with activeReaders := entry.activeReaders - 1 }
    exact ⟨freed, by rw [releaseRead, same]⟩
  · exact releaseWrite_eq { s with table := table } lease.filename
  · split_ifs
    · exact releaseWrite_eq { s with table := table } lease.filename
    · exact ⟨table, rfl⟩

theorem releaseLeases_eq (leases : List ExpiredLease) (s : Server) :
    ∃ table, leases.foldl releaseLease s = { s with table := table } := by
  induction leases generalizing s with
  | nil => exact ⟨_, rfl⟩
  | cons lease rest ih =>
    obtain ⟨table, released⟩ := s.releaseLease_eq lease
    obtain ⟨left, same⟩ := ih { s with table := table }
    exact ⟨left, by rw [List.foldl_cons, released, same]⟩

theorem cleanupLeases_eq (now : Time) (s : Server) :
    ∃ table, s.cleanupLeases now = { (s.files.keys.foldl (expireFile now) (s, [])).1 with table := table } :=
  releaseLeases_eq _ _

theorem cleanupLeases_requests (now : Time) (s : Server) : (s.cleanupLeases now).requests = s.requests := by
  have expired (keys : List Int32) (round : Server × List ExpiredLease) :
      (keys.foldl (expireFile now) round).1.requests = round.1.requests := by
    induction keys generalizing round with
    | nil => rfl
    | cons fd rest ih =>
      rw [List.foldl_cons, ih]
      unfold expireFile
      split <;> rfl
  obtain ⟨table, cleaned⟩ := cleanupLeases_eq now s
  rw [cleaned]
  exact expired _ _

end Server

end Ikkat
