import Ikkat.FullSync
import Ikkat.Identity

set_option autoImplicit false

namespace Ikkat

variable {env : Env} {sent : List AppendEntriesRequest} {s next : Server} {safe : String}

namespace Server

def Deletable (env : Env) (s : Server) (req : DeleteRequest) (safe : String) : Prop :=
  (s.tree.find (s.path safe) ≠ none → s.cached req.requestId env.start = none ∧ safe ∈ s.table) ∧
    (s.tree.find (s.path safe) = none → safe ∉ s.filesPrimes)

instance (env : Env) (s : Server) (req : DeleteRequest) (safe : String) : Decidable (s.Deletable env req safe) :=
  inferInstanceAs (Decidable ((_ → _ ∧ _) ∧ (_ → _)))

variable {req : DeleteRequest} {response : Response}

theorem delete_cached (hit : s.cached req.requestId env.start ≠ none)
    (handled : s.delete env req = .returned next (.ok response) sent) : next = s := by
  cases handled ▸ s.delete_exit env req with
  | dismissed why => exact why.same.1
  | gone safe new => exact absurd new.fresh hit
  | removed safe entry tree claim => exact absurd claim.new.fresh hit

theorem delete_unlisted (named : normalize req.filename = some safe) (unlisted : safe ∉ s.table)
    (handled : s.delete env req = .returned next (.ok response) sent) : next.tree = s.tree := by
  cases handled ▸ s.delete_exit env req with
  | dismissed why => rw [why.same.1]
  | gone => rfl
  | removed other entry tree claim =>
    obtain rfl := Option.some.inj (claim.named.symm.trans named)
    exact absurd (AList.lookup_isSome.mp (by rw [claim.present]; rfl)) unlisted

theorem deletable_iff_gone (env : Env) (s : Server) (req : DeleteRequest) (safe : String)
    (kept : s.tree.find (s.path safe) ≠ none → ¬ (s.cached req.requestId env.start = none ∧ safe ∈ s.table)) :
    (s.tree.find (s.path safe) = none ∧ safe ∉ s.filesPrimes) ↔ s.Deletable env req safe := by
  constructor
  · rintro ⟨nothing, bare⟩
    exact ⟨fun present => absurd nothing present, fun _ => bare⟩
  · intro deletable
    have nothing : s.tree.find (s.path safe) = none := by
      by_contra present
      exact kept present (deletable.1 present)
    exact ⟨nothing, deletable.2 nothing⟩

theorem successful_delete_means_gone_iff (env : Env) (s next : Server) (req : DeleteRequest) (safe : String)
    (response : Response) (sent : List AppendEntriesRequest) (named : normalize req.filename = some safe)
    (handled : s.delete env req = .returned next (.ok response) sent) :
    (next.tree.find (next.path safe) = none ∧ safe ∉ next.filesPrimes) ↔ s.Deletable env req safe := by
  by_cases fresh : s.cached req.requestId env.start = none
  · cases delete_outcome named fresh handled with
    | gone response requests made absent =>
      rw [made]
      refine deletable_iff_gone env s req safe fun present known => ?_
      rcases absent with missing | ⟨unlisted, _⟩
      · exact present missing
      · exact unlisted known.2
    | removed response requests table tree made leaf removes listed =>
      have present : s.tree.find (s.path safe) ≠ none := FileTree.Tree.find_of_remove removes
      have cleared : next.tree.find (next.path safe) = none := by
        rw [made]
        exact (FileTree.Tree.find_remove _ removes).trans (if_pos rfl)
      have known : safe ∈ s.table := by
        by_contra unlisted
        have same := delete_unlisted named unlisted handled
        rw [path, same, show next.rootDir = s.rootDir by rw [made]] at cleared
        exact present cleared
      refine iff_of_true ⟨cleared, ?_⟩ ⟨fun _ => ⟨fresh, known⟩, fun nothing => absurd nothing present⟩
      rw [made]
      exact AList.lookup_eq_none.mp (AList.lookup_erase _ _)
  · rw [delete_cached fresh handled]
    exact deletable_iff_gone env s req safe fun _ known => fresh known.1

theorem created_file_deleted :
    ∃ next, firstWritten.bytes "output/a" = some [51, 10, 51, 10] ∧ "output/a" ∈ firstWritten.filesPrimes ∧
      (firstWritten.delete {} ⟨"d", "output/a"⟩).answered = some next ∧
      next.tree.find (next.path "output/a") = none ∧ "output/a" ∉ next.filesPrimes := by
  obtain ⟨next, answered⟩ := Option.isSome_iff_exists.mp
    (by decide +kernel : (firstWritten.delete {} ⟨"d", "output/a"⟩).answered.isSome = true)
  obtain ⟨response, sent, handled⟩ := Result.answered_eq answered
  exact ⟨next, by decide +kernel, by decide +kernel, answered, (successful_delete_means_gone_iff {} firstWritten next
    ⟨"d", "output/a"⟩ "output/a" response sent (by decide) handled).mpr (by decide +kernel)⟩

def firstRestarted : Server := firstOpened.restarted mainServers (fun _ => .ok) 0 "5001"

theorem deleted_file_still_there :
    firstRestarted.role = .primary ∧
      ∃ next, (firstRestarted.delete {} ⟨"d", "output/a"⟩).answered = some next ∧ next.bytes "output/a" = some [] := by
  have outcome : (firstRestarted.delete {} ⟨"d", "output/a"⟩).answered.map (fun next => next.bytes "output/a") =
      some (some []) := by
    decide +kernel
  exact ⟨by decide +kernel, Option.map_eq_some_iff.mp outcome⟩

def lockCounts (s : Server) (name : String) : Nat × Bool × Nat :=
  ((s.table.lookup name).map fun entry => (entry.activeReaders, entry.activeWriter, entry.waitingWriters)).getD
    (0, false, 0)

structure SameView (s next : Server) : Prop where
  files : next.files = s.files
  openMap : next.openMap = s.openMap
  nextFD : next.nextFD = s.nextFD
  requests : next.requests = s.requests
  versions : ∀ name, next.version name = s.version name
  primes : next.filesPrimes = s.filesPrimes
  locks : ∀ name, next.lockCounts name = s.lockCounts name
  regular : SameFiles s.tree next.tree
  testAuth : ∀ filename, next.testAuth filename = s.testAuth filename

structure LooksUp (s next : Server) (safe : String) : Prop where
  made : ∃ table tree, next = { s with table := table, tree := tree }
  regular : SameFiles s.tree next.tree
  versions : ∀ name, next.version name = (s.getFileEntry safe).1.version name
  locks : ∀ name, next.lockCounts name = (s.getFileEntry safe).1.lockCounts name

theorem lockCounts_getFileEntry (s : Server) (safe name : String) :
    (s.getFileEntry safe).1.lockCounts name = s.lockCounts name := by
  unfold lockCounts
  rw [getFileEntry_table]
  split_ifs with same
  · rw [getFileEntry_entry, same]
    cases s.table.lookup safe <;> rfl
  · rfl

theorem testAuth_of_versions (role : next.role = s.role) (primaryID : next.primaryID = s.primaryID)
    (servers : next.servers = s.servers) (versions : ∀ name, next.version name = s.version name) (filename : String) :
    next.testAuth filename = s.testAuth filename := by
  have leader : next.notLeader = s.notLeader := by
    unfold notLeader
    rw [role, primaryID, servers]
  unfold testAuth
  rw [leader]
  split
  · rfl
  · split
    · rfl
    case h_2 safe _ =>
      have same := versions safe
      unfold version at same
      cases now : next.table.lookup safe <;> cases before : s.table.lookup safe <;> simp_all

theorem version_eq_none (s : Server) (name : String) : s.version name = none ↔ name ∉ s.table := by
  rw [version, Option.map_eq_none_iff, AList.lookup_eq_none]

theorem LooksUp.sameView_iff (looks : LooksUp s next safe) :
    SameView s next ↔ safe ∈ s.table := by
  obtain ⟨table, tree, made⟩ := looks.made
  constructor
  · intro same
    by_contra unlisted
    have new := looks.versions safe
    rw [same.versions, version_getFileEntry, if_pos rfl, (version_eq_none s safe).mpr unlisted] at new
    cases new
  · intro known
    obtain ⟨held, found⟩ := Option.ne_none_iff_exists'.mp fun none => (version_eq_none s safe).mp none known
    have versions (name : String) : next.version name = s.version name := by
      rw [looks.versions, version_getFileEntry]
      split_ifs with same
      · rw [same, found, Option.getD_some]
      · rfl
    have locks (name : String) : next.lockCounts name = s.lockCounts name := by
      rw [looks.locks, lockCounts_getFileEntry]
    refine ⟨by rw [made], by rw [made], by rw [made], by rw [made], versions, by rw [made], locks, looks.regular, ?_⟩
    exact testAuth_of_versions (by rw [made]) (by rw [made]) (by rw [made]) versions

theorem SameView.refl (s : Server) : SameView s s :=
  ⟨rfl, rfl, rfl, rfl, fun _ => rfl, rfl, fun _ => rfl, fun _ _ => Iff.rfl, fun _ => rfl⟩

theorem lockCounts_relocked (name : String)
    (free : ∀ entry, s.table.lookup safe = some entry → entry.activeWriter = false) :
    ((s.acquireWrite safe).releaseWrite safe).lockCounts name = s.lockCounts name := by
  unfold lockCounts releaseWrite acquireWrite
  rw [lookup_setEntry, lookup_setEntry]
  split_ifs with same
  · subst same
    cases held : s.table.lookup name with
    | none => rfl
    | some entry => simp [free entry held]
  · rfl

theorem free_of_canWrite (can : s.canWrite safe = true) (entry : FileEntry)
    (found : s.table.lookup safe = some entry) : entry.activeWriter = false := by
  unfold canWrite FileEntry.canWrite at can
  simp_all

end Server

def Result.refusal : Result → Option (Server × Status)
  | .returned s (.error status) _ => some (s, status)
  | _ => none

theorem Result.refusal_eq {result : Result} {status : Status} (refused : result.refusal = some (s, status)) :
    ∃ sent, result = .returned s (.error status) sent := by
  unfold Result.refusal at refused
  split at refused
  case h_1 next status sent =>
    cases refused
    exact ⟨sent, rfl⟩
  case h_2 => cases refused

def Rpc.lookup : Rpc → Option String
  | .create req => (normalize req.filename).filter fun safe => hasPrefix "output/" safe || hasPrefix "output\\" safe
  | .openFile req => normalize req.filename
  | _ => none

namespace Server

section Refused

variable (env : Env) (s next : Server) (status : Status) (sent : List AppendEntriesRequest)
  (primary : s.role = .primary)

include primary

theorem notLeader_primary : s.notLeader = none := by
  rw [notLeader, if_pos primary]

theorem create_turnedDown (req : CreateRequest) (removes : env.remove = true)
    (handled : s.create env req = .returned next (.error status) sent) :
    ((Rpc.create req).lookup = none ∧ next = s) ∨ ∃ safe, (Rpc.create req).lookup = some safe ∧ LooksUp s next safe := by
  cases handled ▸ s.create_exit env req with
  | dismissed why =>
    cases why with
    | elsewhere _ follower => cases (notLeader_primary s primary).symm.trans follower
  | unnamed _ unnamed => exact .inl ⟨by simp [Rpc.lookup, unnamed], rfl⟩
  | barred safe _ named other => exact .inl ⟨by simpa [Rpc.lookup, named] using other, rfl⟩
  | failed safe tree _ _ named output can _ left =>
    refine .inr ⟨safe, by simp [Rpc.lookup, named, output], ⟨_, tree, rfl⟩, ?_, fun name => ?_, fun name => ?_⟩
    · exact left.resolve_right fun kept => by cases kept.1.symm.trans removes
    · exact (version_releaseWrite _ safe name).trans (version_acquireWrite _ safe name)
    · exact lockCounts_relocked name (free_of_canWrite can)

theorem openFile_turnedDown (req : FileRequest) (handled : s.openFile env req = .returned next (.error status) sent) :
    ((Rpc.openFile req).lookup = none ∧ next = s) ∨
      ∃ safe, (Rpc.openFile req).lookup = some safe ∧ LooksUp s next safe := by
  cases handled ▸ s.openFile_exit env req with
  | dismissed why =>
    cases why with
    | elsewhere _ follower => cases (notLeader_primary s primary).symm.trans follower
  | unnamed _ unnamed => exact .inl ⟨unnamed, rfl⟩
  | failed safe _ _ named =>
    exact .inr ⟨safe, named, ⟨_, s.tree, rfl⟩, fun _ _ => Iff.rfl, fun _ => rfl, fun _ => rfl⟩

theorem delete_turnedDown (req : DeleteRequest) (handled : s.delete env req = .returned next (.error status) sent) :
    SameView s next := by
  cases handled ▸ s.delete_exit env req with
  | dismissed why =>
    cases why with
    | elsewhere _ follower => cases (notLeader_primary s primary).symm.trans follower
  | unnamed | input | directory | busy => exact .refl s
  | failed safe entry claim =>
    have free (held : FileEntry) (found : s.table.lookup safe = some held) : held.activeWriter = false := by
      obtain rfl := Option.some.inj (claim.present.symm.trans found)
      exact (Bool.or_eq_false_iff.mp claim.unused).2
    have versions (name : String) : ((s.acquireWrite safe).releaseWrite safe).version name = s.version name :=
      (version_releaseWrite ..).trans (s.version_acquireWrite safe name)
    refine ⟨rfl, rfl, rfl, rfl, versions, rfl, fun name => lockCounts_relocked name free, fun _ _ => Iff.rfl, ?_⟩
    exact testAuth_of_versions rfl rfl rfl versions

end Refused

theorem failed_request_changes_nothing_iff [LogCodec] (env : Env) (s next : Server) (rpc : Rpc) (status : Status)
    (sent : List AppendEntriesRequest) (primary : s.role = .primary)
    (handles : ∀ req, rpc ≠ .close req ∧ rpc ≠ .write req) (removes : ∀ req, rpc = .create req → env.remove = true)
    (handled : s.serve env rpc = .returned next (.error status) sent) :
    SameView s next ↔ ∀ safe, rpc.lookup = some safe → safe ∈ s.table := by
  have either (cases : (rpc.lookup = none ∧ next = s) ∨ ∃ safe, rpc.lookup = some safe ∧ LooksUp s next safe) :
      SameView s next ↔ ∀ safe, rpc.lookup = some safe → safe ∈ s.table := by
    rcases cases with ⟨nothing, rfl⟩ | ⟨safe, looked, looks⟩
    · exact iff_of_true (.refl next) (by simp [nothing])
    · rw [looks.sameView_iff, looked]
      simp
  cases rpc with
  | create req => exact either (create_turnedDown env s next status sent primary req (removes req rfl) handled)
  | openFile req => exact either (openFile_turnedDown env s next status sent primary req handled)
  | delete req => exact iff_of_true (delete_turnedDown env s next status sent primary req handled) (by simp [Rpc.lookup])
  | close req => exact absurd rfl (handles req).1
  | write req => exact absurd rfl (handles req).2

theorem second_create_changes_nothing :
    ∃ next status, (firstOpened.create {} ⟨"r2", "output/a", "c", .write⟩).refusal = some (next, status) ∧
      SameView firstOpened next := by
  obtain ⟨⟨next, status⟩, refused⟩ := Option.isSome_iff_exists.mp
    (by decide +kernel : (firstOpened.create {} ⟨"r2", "output/a", "c", .write⟩).refusal.isSome = true)
  obtain ⟨sent, handled⟩ := Result.refusal_eq refused
  refine ⟨next, status, refused, (failed_request_changes_nothing_iff {} firstOpened next
    (.create ⟨"r2", "output/a", "c", .write⟩) status sent (by decide +kernel) (by simp) (fun _ _ => rfl) handled).mpr ?_⟩
  intro safe looked
  obtain rfl : "output/a" = safe := Option.some.inj (looked.symm.trans (by decide) |>.symm)
  decide +kernel

-- An Open that finds no file leaves an entry with version 1 behind, and TestAuth knows the file from then on.
theorem failed_open_seen_by_testAuth :
    firstPrimary.role = .primary ∧
      ∃ next status, (firstPrimary.openFile {} ⟨"r1", "output/a", .read, "c"⟩).refusal = some (next, status) ∧
        firstPrimary.testAuth "output/a" = .error ⟨.notFound, "file not found"⟩ ∧ next.testAuth "output/a" = .ok 1 := by
  have outcome : (firstPrimary.openFile {} ⟨"r1", "output/a", .read, "c"⟩).refusal.map
      (fun refused => refused.1.testAuth "output/a") = some (.ok 1) := by
    decide +kernel
  obtain ⟨⟨next, status⟩, refused, after⟩ := Option.map_eq_some_iff.mp outcome
  exact ⟨by decide +kernel, next, status, refused, by decide +kernel, after⟩

end Server

end Ikkat
