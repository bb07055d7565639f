import Ikkat.FailedWrites
import Ikkat.InputFiles
import Ikkat.Restart

set_option autoImplicit false

namespace Ikkat

variable {s : Server} {safe : String}

structure Lifetime where
  server : Server
  known : List String

inductive LifetimeAction where
  | request (delivery : Delivery)
  | restart (config : Map String ServerInfo) (io : Nat → ApplyIO) (now : Time) (port : String)

def OutputNames.Clear (files : OutputNames) (s : Server) (name : String) : Prop :=
  name ∈ files.names ∨ ∀ other ∈ files.names, s.path name ≠ s.path other ∧ s.path name ≠ s.path (other ++ ".meta") ∧
    s.path name ≠ withSuffix (s.path other) ".tmp"

def Server.Addresses (s : Server) (kind : Kind) (req : DataRequest) (call : Call) : Prop :=
  ∃ found client, s.files.lookup req.fd = some found ∧ found.clients.lookup req.clientID = some client ∧
    call = ⟨kind, req, found.filename, client.mode⟩

namespace Lifetime

def step [LogCodec] (t : Lifetime) : LifetimeAction → Option Lifetime
  | .request delivery =>
      (serveStep t.server delivery).map fun next => ⟨next, next.table.keys ++ t.known⟩
  | .restart config io now port => some ⟨t.server.restarted config io now port, t.known⟩

def start [LogCodec] (id rootDir : String) (config : Map String ServerInfo) (tree : Tree) (logFile : Bytes)
    (io : Nat → ApplyIO) (now : Time) (port : String) : Lifetime :=
  ⟨(newServer id rootDir config tree logFile).startServer io now port, []⟩

def New (t : Lifetime) (name : String) : Prop :=
  t.server.version name = none → name ∉ t.known

structure Advances (files : OutputNames) (env : Env) (s : Server) (call : Call) : Prop where
  member : call.filename ∈ files.names
  caughtUp : s.lastApplied = s.log.length
  below : ∀ version, s.version call.filename = some version → version.toInt < 2 ^ 31 - 1
  opens : call.kind = .write → env.tmpOpen = true ∧ env.srcOpen = true ∧ env.dstOpen = true ∧ env.copy = .done
  writes : call.kind = .write → env.tmpWrite = .done
  regular : call.kind = .write → s.bytes call.filename ≠ none
  free : call.kind = .write → s.tree.find (withSuffix (s.path call.filename) ".tmp") ≠ some .dir

def Unrepeated (files : OutputNames) (t : Lifetime) : LifetimeAction → Prop
  | .restart _ _ _ _ => True
  | .request ⟨env, rpc⟩ =>
      match rpc with
      | .create req => ∀ safe, normalize req.filename = some safe → safe ∈ files.names ∧ safe ∉ t.known
      | .openFile req => ∀ safe, normalize req.filename = some safe → files.Clear t.server safe ∧ t.New safe
      | .delete req => ∀ safe, normalize req.filename = some safe → safe ∈ files.names
      | .close req => ∀ call, t.server.Addresses .close req call →
          files.Clear t.server call.name ∧ t.New call.name ∧ (req.dirty = true → Advances files env t.server call)
      | .write req => ∀ call, t.server.Addresses .write req call →
          files.Clear t.server call.name ∧ t.New call.name ∧ (req.dirty = true → Advances files env t.server call)

end Lifetime

namespace Server

section Requests

variable (env : Env) (s next : Server) (answer : Except Status Response) (sent : List AppendEntriesRequest)

theorem version_create {req : CreateRequest} (named : normalize req.filename = some safe)
    (handled : s.create env req = .returned next answer sent) (name : String) (other : name ≠ safe) :
    next.version name = s.version name := by
  have held : (s.claimed safe).version name = s.version name :=
    (version_acquireWrite ..).trans (by rw [version_getFileEntry, if_neg other])
  have own (also : String) (named' : normalize req.filename = some also) : also = safe :=
    Option.some.inj (named'.symm.trans named)
  cases handled ▸ s.create_exit env req with
  | dismissed why => rw [why.same.1]
  | unnamed | barred => rfl
  | failed also _ _ _ named' =>
    obtain rfl := own also named'
    exact ((s.claimed also).version_releaseWrite also name).trans held
  | created also _ _ named' =>
    obtain rfl := own also named'
    refine (version_releaseWrite ..).trans (.trans ?_ held)
    rw [version, lookup_setEntry, if_neg other]
    rfl

theorem version_open {req : FileRequest} (handled : s.openFile env req = .returned next answer sent) :
    next.tree = s.tree ∧ next.rootDir = s.rootDir ∧ ((∀ name, next.version name = s.version name) ∨
      ∃ safe, normalize req.filename = some safe ∧
        ∀ name, next.version name = (s.getFileEntry safe).1.version name) := by
  cases handled ▸ s.openFile_exit env req with
  | dismissed why =>
    obtain ⟨rfl, _⟩ := why.same
    exact ⟨rfl, rfl, .inl fun _ => rfl⟩
  | unnamed => exact ⟨rfl, rfl, .inl fun _ => rfl⟩
  | failed safe _ _ named | opened safe _ _ named => exact ⟨rfl, rfl, .inr ⟨safe, named, fun _ => rfl⟩⟩

theorem version_delete {req : DeleteRequest} (handled : s.delete env req = .returned next answer sent) :
    next.tree = s.tree ∧ next.rootDir = s.rootDir ∧ (∀ name, next.version name = s.version name) ∨
      ∃ safe, normalize req.filename = some safe ∧ next.rootDir = s.rootDir ∧
        s.tree.remove (s.path safe) = some next.tree ∧ next.version safe = none ∧
        ∀ name, name ≠ safe → next.version name = s.version name := by
  cases handled ▸ s.delete_exit env req with
  | dismissed why =>
    obtain ⟨rfl, _⟩ := why.same
    exact .inl ⟨rfl, rfl, fun _ => rfl⟩
  | unnamed | input | directory | gone | busy => exact .inl ⟨rfl, rfl, fun _ => rfl⟩
  | failed safe =>
    exact .inl ⟨rfl, rfl, fun name => (version_releaseWrite _ safe name).trans (s.version_acquireWrite safe name)⟩
  | removed safe entry tree claim _ removes =>
    refine .inr ⟨safe, claim.named, rfl, removes, ?_, fun name other => ?_⟩
    · change (AList.lookup safe ((s.acquireWrite safe).table.erase safe)).map FileEntry.version = none
      rw [AList.lookup_erase, Option.map_none]
    · change (AList.lookup name ((s.acquireWrite safe).table.erase safe)).map FileEntry.version = _
      rw [AList.lookup_erase_ne other]
      exact s.version_acquireWrite safe name

theorem version_call [LogCodec] (kind : Kind) (req : DataRequest)
    (handled : s.handleCall kind env req = .returned next answer sent) :
    next = s ∨ ∃ opened call, s.beginCall kind env.start req = .opened opened call ∧
      (next.tree = s.tree ∧ next.rootDir = s.rootDir ∧ (∀ name, next.version name = opened.version name) ∨
        req.dirty = true ∧ ∃ table logFile, (∀ name, version { s with table := table } name = opened.version name) ∧
          next = (if (committed env { s with table := table } call logFile).2 = none then
              ((committed env { s with table := table } call logFile).1.finishCall env call).1
            else (committed env { s with table := table } call logFile).1).releaseWrite call.name) := by
  unfold handleCall at handled
  split at handled
  case h_1 result begun =>
    subst handled
    exact .inl (beginCall_ended begun).1
  case h_2 opened call begun =>
    refine .inr ⟨opened, call, begun, ?_⟩
    obtain ⟨found, client, table, _, _, _, own, rfl⟩ := beginCall_opened kind env.start s opened req call begun
    split_ifs at handled with dirty busy
    · have kept := version_acquireWrite { s with table := table } call.name
      obtain ⟨locked, acquired⟩ := acquireWrite_eq { s with table := table } call.name
      rw [acquired] at handled kept
      have freed := version_releaseWrite { s with table := locked } call.name
      obtain ⟨released, same⟩ := releaseWrite_eq { s with table := locked } call.name
      dsimp only at handled
      split at handled
      case h_1 =>
        rw [same] at handled freed
        cases handled
        exact .inl ⟨rfl, rfl, fun name => (freed name).trans (kept name)⟩
      case h_2 =>
        obtain ⟨logFile, _, outcome⟩ := commitCall_cases env { s with table := locked } call
        rcases outcome with ⟨_, left, failed⟩ | ⟨_, left, status⟩
        · have logged := version_releaseWrite { s with
            table := locked
            log := s.log ++ [logEntry { s with table := locked } call (content env.range { s with table := locked } call)
              s.log.length]
            logFile := logFile } call.name
          split at handled
          case h_1 =>
            obtain ⟨final, freed⟩ := releaseWrite_eq ((commitCall env { s with table := locked } call).1) call.name
            rw [left] at handled freed
            rw [freed] at handled
            cases handled
            refine .inl ⟨rfl, rfl, fun name => ?_⟩
            have here := logged name
            rw [show releaseWrite _ call.name = _ from freed] at here
            exact here.trans (kept name)
          case h_2 succeeded => exact absurd succeeded failed
        · refine .inr ⟨dirty, locked, logFile, kept, ?_⟩
          unfold committed
          split at handled
          case h_1 status' stopped =>
            rw [status] at stopped
            rw [if_neg (by rw [stopped]; simp), ← left]
            cases handled
            rfl
          case h_2 through =>
            rw [status] at through
            rw [if_pos through, ← left]
            cases handled
            rfl
    · have clean : call.req.dirty = false := by rw [own]; simpa using dirty
      have tree := finishCall_clean env { s with table := table } call clean
      have root := (finishCall_keeps env { s with table := table } call).rootDir
      have entries (name : String) : (finishCall env { s with table := table } call).1.version name =
          version { s with table := table } name := by
        rw [version, finishCall_table_eq, bumpVersion, if_neg (by simp [clean])]
        rfl
      cases handled
      exact .inl ⟨tree, root, entries⟩

end Requests

theorem version_finishCall (env : Env) (s : Server) (call : Call) (dirty : call.req.dirty = true) (name : String) :
    (s.finishCall env call).1.version name =
      if name = call.name then (s.version name).map (· + 1) else s.version name := by
  rw [version, s.lookup_finishCall env dirty]
  split_ifs
  · rw [Option.map_map, version, Option.map_map]
    rfl
  · rfl

theorem committed_passes (files : OutputNames) (env : Env) (s : Server) (call : Call)
    (member : call.filename ∈ files.names) (caughtUp : s.lastApplied = s.log.length)
    (opens : call.kind = .write → env.tmpOpen = true ∧ env.srcOpen = true ∧ env.dstOpen = true ∧ env.copy = .done)
    (writes : call.kind = .write → env.tmpWrite = .done) (regular : call.kind = .write → s.bytes call.filename ≠ none)
    (free : call.kind = .write → s.tree.find (withSuffix (s.path call.filename) ".tmp") ≠ some .dir)
    (logFile : Bytes) : (committed env s call logFile).2 = none := by
  obtain ⟨named, _⟩ := files.call_name call member
  unfold committed
  dsimp only
  generalize made : s.logEntry call (s.content env.range call) s.log.length = entry
  have filed : join s.rootDir entry.filename = s.path call.filename := by
    rw [← made]
    change join s.rootDir call.name = _
    rw [named]
    rfl
  rw [commitEntry_alone env.apply caughtUp entry logFile (by rw [← made]; rfl)]
  cases kind : call.kind with
  | close => rw [updatePrimes, kind]
  | write =>
    obtain ⟨content, present⟩ := Option.ne_none_iff_exists'.mp (regular kind)
    have parent := parent_of_bytes _ present
    rw [bytes_eq] at present
    have grows := grows_applyTree (env.apply s.log.length) s.rootDir entry s.tree
    obtain ⟨held, file⟩ := grows.files _ content present
    rw [updatePrimes_write _ _ _ kind, appendUnique_passes _ _ _ (.inr (writes kind)) (opens kind) _ _ held file]
    · exact (congrArg _ (files.tmp_beside s _ member)).trans (grows.dirs _ parent)
    · change (applyTree (env.apply s.log.length) s.rootDir entry s.tree).find _ ≠ _
      rw [applyTree_beside _ _ entry s.tree (by rw [filed]; exact parent)]
      · exact free kind
      · rw [filed]
        exact (files.tmp_apart s _ _ member member).symm

theorem committed_untouched (env : Env) (s : Server) (call : Call) (caughtUp : s.lastApplied = s.log.length)
    (named : call.name = call.filename) (region : Path → Prop) (full : ¬ region (s.path call.filename))
    (tmp : ¬ region (withSuffix (s.path call.filename) ".tmp")) (logFile : Bytes) :
    (committed env s call logFile).1.table = s.table ∧ (committed env s call logFile).1.rootDir = s.rootDir ∧
      Untouched region s.tree (committed env s call logFile).1.tree := by
  have applied := @Untouched.applyAll region env.apply s.rootDir s.log.length
    [s.logEntry call (s.content env.range call) s.log.length] s.tree fun entry listed => by
      rw [List.mem_singleton.mp listed]
      change ¬ region (join s.rootDir call.name)
      rw [named]
      exact full
  obtain ⟨_, _, _, _, same⟩ := committed_eq env s call logFile
  refine ⟨by rw [same], by rw [same], ?_⟩
  unfold committed
  dsimp only
  rw [commitEntry_alone env.apply caughtUp _ logFile rfl]
  exact applied.trans (updatePrimes_untouched env _ full tmp)

end Server

theorem OutputNames.Clear.apart {files : OutputNames} {name other : String} (clear : files.Clear s name)
    (member : other ∈ files.names) (different : name ≠ other) :
    s.path name ≠ s.path other ∧ s.path name ≠ s.path (other ++ ".meta") ∧
      s.path name ≠ withSuffix (s.path other) ".tmp" := by
  rcases clear with inside | apart
  · exact ⟨fun same => different (files.path_injective s.rootDir _ _ inside member same),
      files.meta_apart s other name member inside, files.tmp_apart s other name member inside⟩
  · exact apart other member

namespace Lifetime

structure Evolves (files : OutputNames) (t : Lifetime) (next : Server) : Prop where
  rootDir : next.rootDir = t.server.rootDir
  named : ∀ name, next.version name ≠ none → name ∈ t.known ∨ files.Clear t.server name
  kept : ∀ name version, name ∈ t.known → next.version name = some version →
    ∃ old, t.server.version name = some old ∧
      (old = version ∧ next.bytes name = t.server.bytes name ∨ old.toInt < version.toInt)

structure Registered (files : OutputNames) (t : Lifetime) : Prop where
  listed : ∀ name, t.server.version name ≠ none → name ∈ t.known
  clear : ∀ name ∈ t.known, files.Clear t.server name

section Steps

variable {files : OutputNames} {t : Lifetime} {next : Server} (registered : Registered files t)

include registered

theorem evolves_quiet (rootDir : next.rootDir = t.server.rootDir) (tree : next.tree = t.server.tree)
    (versions : ∀ name, next.version name = t.server.version name) : Evolves files t next where
  rootDir := rootDir
  named name entered := .inl (registered.listed name (versions name ▸ entered))
  kept name version _ held :=
    ⟨version, versions name ▸ held, .inl ⟨rfl, t.server.bytes_congr next rootDir name (by rw [tree])⟩⟩

theorem named_entry (clear : files.Clear t.server safe)
    (versions : ∀ name, name ≠ safe → s.version name = t.server.version name) (name : String)
    (entered : s.version name ≠ none) : name ∈ t.known ∨ files.Clear t.server name := by
  by_cases own : name = safe
  · exact .inr (own ▸ clear)
  · exact .inl (registered.listed name (versions name own ▸ entered))

omit registered in
theorem New.held {name : String} (new : t.New name) (known : name ∈ t.known) :
    ∃ version, t.server.version name = some version :=
  Option.ne_none_iff_exists'.mp fun absent => new absent known

theorem evolves_entry (clear : files.Clear t.server safe) (new : t.New safe)
    (rootDir : next.rootDir = t.server.rootDir) (tree : next.tree = t.server.tree)
    (versions : ∀ name, next.version name =
      if name = safe then some ((t.server.version safe).getD 1) else t.server.version name) : Evolves files t next where
  rootDir := rootDir
  named := named_entry registered clear fun name other => by rw [versions, if_neg other]
  kept name version known held := by
    refine ⟨version, ?_, .inl ⟨rfl, t.server.bytes_congr next rootDir name (by rw [tree])⟩⟩
    rw [versions] at held
    split_ifs at held with own
    · subst own
      obtain ⟨old, here⟩ := new.held known
      rw [here] at held ⊢
      exact held
    · exact held

theorem evolves_create (env : Env) (req : CreateRequest) (answer : Except Status Response)
    (sent : List AppendEntriesRequest)
    (unused : ∀ safe, normalize req.filename = some safe → safe ∈ files.names ∧ safe ∉ t.known)
    (handled : t.server.create env req = .returned next answer sent) : Evolves files t next := by
  rcases Server.create_cases handled with rfl | ⟨safe, named, effect⟩
  · exact evolves_quiet registered rfl rfl fun _ => rfl
  · obtain ⟨member, new⟩ := unused safe named
    have versions := Server.version_create env t.server next answer sent named handled
    obtain ⟨_, _, _, _, _, tree, made, files⟩ := effect
    have root : next.rootDir = t.server.rootDir := by rw [made]
    have left : next.tree = tree := by rw [made]
    refine ⟨root, named_entry registered (.inl member) versions, fun name version known held => ?_⟩
    have other : name ≠ safe := fun same => new (same ▸ known)
    rw [versions name other] at held
    refine ⟨version, held, .inl ⟨rfl, t.server.bytes_of_files next root name fun content => ?_⟩⟩
    rw [left]
    rcases files with ⟨same, _⟩ | ⟨adds, _⟩
    · exact same _ content
    · rw [adds.2, if_neg ((registered.clear name known).apart member other).1]

theorem evolves_delete (env : Env) (req : DeleteRequest) (answer : Except Status Response)
    (sent : List AppendEntriesRequest) (member : ∀ safe, normalize req.filename = some safe → safe ∈ files.names)
    (handled : t.server.delete env req = .returned next answer sent) : Evolves files t next := by
  rcases Server.version_delete env t.server next answer sent handled with
    ⟨tree, root, versions⟩ | ⟨safe, named, root, removed, gone, versions⟩
  · exact evolves_quiet registered root tree versions
  · refine ⟨root, named_entry registered (.inl (member safe named)) versions, fun name version known held => ?_⟩
    have other : name ≠ safe := by
      rintro rfl
      rw [gone] at held
      cases held
    rw [versions name other] at held
    refine ⟨version, held, .inl ⟨rfl, t.server.bytes_congr next root name ?_⟩⟩
    rw [FileTree.Tree.find_remove _ removed,
      if_neg ((registered.clear name known).apart (member safe named) other).1]

theorem evolves_open (env : Env) (req : FileRequest) (answer : Except Status Response)
    (sent : List AppendEntriesRequest)
    (first : ∀ safe, normalize req.filename = some safe → files.Clear t.server safe ∧ t.New safe)
    (handled : t.server.openFile env req = .returned next answer sent) : Evolves files t next := by
  obtain ⟨tree, root, same | ⟨safe, named, versions⟩⟩ :=
    Server.version_open env t.server next answer sent handled
  · exact evolves_quiet registered root tree same
  · obtain ⟨clear, new⟩ := first safe named
    exact evolves_entry registered clear new root tree fun name =>
      (versions name).trans (t.server.version_getFileEntry safe name)

theorem evolves_commit (env : Env) (call : Call) (dirty : call.req.dirty = true)
    (advances : Advances files env t.server call) (new : t.New call.name) (table : Map String FileEntry)
    (versions : ∀ name, Server.version { t.server with table := table } name =
      if name = call.name then some ((t.server.version call.name).getD 1) else t.server.version name)
    (logFile : Bytes) :
    Evolves files t (((Server.committed env { t.server with table := table } call logFile).1.finishCall env
      call).1.releaseWrite call.name) := by
  obtain ⟨named, _⟩ := files.call_name call advances.member
  let region : Path → Prop := fun path => path ≠ t.server.path call.filename ∧
    path ≠ t.server.path (call.filename ++ ".meta") ∧ path ≠ withSuffix (t.server.path call.filename) ".tmp"
  obtain ⟨entries, root, untouched⟩ := Server.committed_untouched env { t.server with table := table } call
    advances.caughtUp named region (fun inside => inside.1 rfl) (fun inside => inside.2.2 rfl) logFile
  generalize (Server.committed env { t.server with table := table } call logFile).1 = done at entries root untouched ⊢
  have finished := done.finishCall_untouched region env call fun inside => inside.2.1 (by
    rw [Server.path, root, named]
    rfl)
  have raised (name : String) : ((done.finishCall env call).1.releaseWrite call.name).version name =
      if name = call.name then some ((t.server.version call.name).getD 1 + 1) else t.server.version name := by
    have before : done.version name = Server.version { t.server with table := table } name := by
      rw [Server.version, entries]
      rfl
    rw [Server.version_releaseWrite, done.version_finishCall env call dirty, before, versions]
    split_ifs <;> rfl
  have released : ((done.finishCall env call).1.releaseWrite call.name).tree = (done.finishCall env call).1.tree := by
    obtain ⟨_, same⟩ := (done.finishCall env call).1.releaseWrite_eq call.name
    rw [same]
  have rootDir : ((done.finishCall env call).1.releaseWrite call.name).rootDir = t.server.rootDir := by
    obtain ⟨_, same⟩ := (done.finishCall env call).1.releaseWrite_eq call.name
    rw [same]
    exact (done.finishCall_keeps env call).rootDir.trans root
  refine ⟨rootDir, named_entry registered (.inl (named ▸ advances.member)) fun name other => ?_,
    fun name version known held => ?_⟩
  · rw [raised, if_neg other]
  · rw [raised] at held
    split_ifs at held with own
    · subst own
      obtain ⟨old, here⟩ := new.held known
      rw [here, Option.getD_some, Option.some.injEq] at held
      have below := advances.below old (named ▸ here)
      refine ⟨old, here, .inr ?_⟩
      rw [← held, toInt_succ old below]
      omega
    · have apart := (registered.clear name known).apart advances.member (named ▸ own)
      refine ⟨version, held, .inl ⟨rfl, t.server.bytes_of_files _ rootDir name fun content => ?_⟩⟩
      rw [released]
      exact untouched.trans finished _ content apart

theorem evolves_call [LogCodec] (kind : Kind) (env : Env) (req : DataRequest) (answer : Except Status Response)
    (sent : List AppendEntriesRequest) (first : ∀ call, t.server.Addresses kind req call →
      files.Clear t.server call.name ∧ t.New call.name ∧ (req.dirty = true → Advances files env t.server call))
    (handled : t.server.handleCall kind env req = .returned next answer sent) : Evolves files t next := by
  rcases Server.version_call env t.server next answer sent kind req handled with rfl | ⟨opened, call, begun, outcome⟩
  · exact evolves_quiet registered rfl rfl fun _ => rfl
  · obtain ⟨found, client, _, _, present, known, made, _⟩ :=
      Server.beginCall_opened kind env.start t.server opened req call begun
    obtain ⟨clear, new, moves⟩ := first call ⟨found, client, present, known, made⟩
    have versions := Server.beginCall_version kind env.start t.server opened req call begun
    rcases outcome with ⟨tree, root, same⟩ | ⟨dirty, table, logFile, same, rfl⟩
    · exact evolves_entry registered clear new root tree fun name => (same name).trans (versions name)
    · have advances := moves dirty
      have passes := Server.committed_passes files env { t.server with table := table } call advances.member
        advances.caughtUp advances.opens advances.writes advances.regular advances.free logFile
      rw [if_pos passes]
      exact evolves_commit registered env call (by rw [made]; exact dirty) advances new table
        (fun name => (same name).trans (versions name)) logFile

theorem evolves_request [LogCodec] (delivery : Delivery) (unrepeated : t.Unrepeated files (.request delivery))
    (stepped : serveStep t.server delivery = some next) : Evolves files t next := by
  obtain ⟨answer, sent, handled⟩ := serveStep_returned stepped
  obtain ⟨env, rpc⟩ := delivery
  cases rpc with
  | create req => exact evolves_create registered env req answer sent unrepeated handled
  | openFile req => exact evolves_open registered env req answer sent unrepeated handled
  | close req => exact evolves_call registered .close env req answer sent unrepeated handled
  | write req => exact evolves_call registered .write env req answer sent unrepeated handled
  | delete req => exact evolves_delete registered env req answer sent unrepeated handled

end Steps

structure Continues (before after : Lifetime) : Prop where
  known : ∀ name ∈ before.known, name ∈ after.known
  kept : ∀ name version, name ∈ before.known → after.server.version name = some version →
    ∃ old, before.server.version name = some old ∧ old.toInt ≤ version.toInt ∧
      (old = version → after.server.bytes name = before.server.bytes name)

theorem Continues.refl (t : Lifetime) : Continues t t :=
  ⟨fun _ listed => listed, fun _ version _ held => ⟨version, held, Int.le_refl _, fun _ => rfl⟩⟩

theorem Continues.trans {first middle last : Lifetime} (before : Continues first middle)
    (after : Continues middle last) : Continues first last where
  known name listed := after.known name (before.known name listed)
  kept name version listed held := by
    obtain ⟨late, here, up, same⟩ := after.kept name version (before.known name listed) held
    obtain ⟨early, there, less, equal⟩ := before.kept name late listed here
    refine ⟨early, there, Int.le_trans less up, fun repeated => ?_⟩
    obtain rfl : early = late := Int32.toInt_inj.mp (by rw [repeated] at less ⊢; omega)
    exact (same repeated).trans (equal rfl)

section Runs

variable [LogCodec] (files : OutputNames)

theorem continues_step {t next : Lifetime} {action : LifetimeAction} (registered : Registered files t)
    (unrepeated : t.Unrepeated files action) (stepped : step t action = some next) :
    Registered files next ∧ Continues t next := by
  cases action with
  | request delivery =>
    obtain ⟨server, served, rfl⟩ := Option.map_eq_some_iff.mp stepped
    have evolves := evolves_request registered delivery unrepeated served
    have entered (name : String) : name ∈ server.table.keys ↔ server.version name ≠ none := by
      rw [Server.version, ne_eq, Option.map_eq_none_iff, AList.lookup_eq_none, not_not]
      rfl
    refine ⟨⟨fun name held => List.mem_append_left _ ((entered name).mpr held), fun name listed => ?_⟩,
      ⟨fun name listed => List.mem_append_right _ listed, fun name version listed held => ?_⟩⟩
    · have clear : files.Clear t.server name := by
        rcases List.mem_append.mp listed with new | old
        · exact (evolves.named name ((entered name).mp new)).elim (registered.clear name) id
        · exact registered.clear name old
      unfold OutputNames.Clear Server.path at clear ⊢
      rwa [evolves.rootDir]
    · obtain ⟨old, here, ⟨rfl, same⟩ | less⟩ := evolves.kept name version listed held
      · exact ⟨old, here, Int.le_refl _, fun _ => same⟩
      · exact ⟨old, here, Int.le_of_lt less, fun equal => by rw [equal] at less; omega⟩
  | restart config io now port =>
    obtain rfl := Option.some.inj stepped
    have forgotten (name : String) : (t.server.restarted config io now port).version name = none := by
      obtain ⟨_, _, _, same⟩ :=
        (newServer t.server.id t.server.rootDir config t.server.tree t.server.logFile).startServer_eq io now port
      unfold Server.restarted Server.version
      rw [same]
      rfl
    have root : (t.server.restarted config io now port).rootDir = t.server.rootDir := by
      obtain ⟨_, _, _, same⟩ :=
        (newServer t.server.id t.server.rootDir config t.server.tree t.server.logFile).startServer_eq io now port
      unfold Server.restarted
      rw [same]
      rfl
    refine ⟨⟨fun name held => absurd (forgotten name) held, fun name listed => ?_⟩,
      ⟨fun _ listed => listed, fun name version _ held => ?_⟩⟩
    · have clear := registered.clear name listed
      unfold OutputNames.Clear Server.path at clear ⊢
      rwa [root]
    · rw [forgotten] at held
      cases held

theorem continues_run {t final : Lifetime} {actions : List LifetimeAction} (registered : Registered files t)
    (unrepeated : Transition.Meets step (Unrepeated files) t actions)
    (reached : Transition.run step t actions = some final) : Registered files final ∧ Continues t final := by
  refine Transition.run_invariant (Unrepeated files) (fun next => Registered files next ∧ Continues t next) ?_ t
    ⟨registered, .refl t⟩ actions unrepeated reached
  rintro middle action next ⟨holds, before⟩ meets stepped
  obtain ⟨still, after⟩ := continues_step files holds meets stepped
  exact ⟨still, before.trans after⟩

end Runs

end Lifetime

theorem Server.testAuth_version {filename : String} {version : Int32} (answered : s.testAuth filename = .ok version) :
    ∃ safe, normalize filename = some safe ∧ s.version safe = some version := by
  unfold testAuth at answered
  split at answered
  case h_1 => cases answered
  case h_2 =>
    split at answered
    case h_1 => cases answered
    case h_2 safe named =>
      split at answered
      case h_1 => cases answered
      case h_2 entry found =>
        cases answered
        exact ⟨safe, named, by rw [version, found]; rfl⟩

theorem version_identifies_content [LogCodec] (files : OutputNames) (id rootDir : String)
    (config : Map String ServerInfo) (tree : Tree) (logFile : Bytes) (io : Nat → ApplyIO) (now : Time) (port : String)
    (first second : List LifetimeAction) (earlier later : Lifetime)
    (unrepeated : Transition.Meets Lifetime.step (Lifetime.Unrepeated files)
      (.start id rootDir config tree logFile io now port) (first ++ second))
    (before : Transition.run Lifetime.step (.start id rootDir config tree logFile io now port) first = some earlier)
    (after : Transition.run Lifetime.step earlier second = some later) (filename : String) (version : Int32)
    (seen : earlier.server.testAuth filename = .ok version) (again : later.server.testAuth filename = .ok version) :
    ∃ safe, normalize filename = some safe ∧ later.server.bytes safe = earlier.server.bytes safe := by
  obtain ⟨safe, named, held⟩ := Server.testAuth_version seen
  obtain ⟨other, same, still⟩ := Server.testAuth_version again
  obtain rfl : other = safe := Option.some.inj (same.symm.trans named)
  obtain ⟨early, late⟩ := (Transition.meets_append _ _ _ _ before).mp unrepeated
  have started : Lifetime.Registered files (.start id rootDir config tree logFile io now port) := by
    refine ⟨fun name entered => absurd ?_ entered, fun name listed => by cases listed⟩
    obtain ⟨_, _, _, fresh⟩ := (newServer id rootDir config tree logFile).startServer_eq io now port
    unfold Lifetime.start Server.version
    rw [fresh]
    rfl
  obtain ⟨registered, _⟩ := Lifetime.continues_run files started early before
  obtain ⟨_, continues⟩ := Lifetime.continues_run files registered late after
  obtain ⟨old, here, _, content⟩ := continues.kept other version (registered.listed other (by simp [held])) still
  obtain rfl : old = version := Option.some.inj (here.symm.trans held)
  exact ⟨other, named, content rfl⟩

def firstLife : Lifetime := .start "1" "storage" mainServers .empty [] (fun _ => .ok) 0 "5001"

def createAgain : Delivery := ⟨{}, .create ⟨"r6", "output/a", "c", .write⟩⟩

def unrepeatedA (t : Lifetime) : LifetimeAction → Bool
  | .request ⟨_, .create _⟩ => decide ("output/a" ∉ t.known)
  | .request ⟨_, .close _⟩ => decide (t.server.version "output/a" = some 0 ∧ t.server.lastApplied = t.server.log.length ∧
      (t.server.files.lookup 0).map FileMeta.filename = some "output/a")
  | _ => decide (t.server.version "output/a" ≠ none)

def openAfterClose : List LifetimeAction := [.request createA, .request (closeA "r2" 0 0 [50, 10]), .request openA]

theorem openAfterClose_unrepeated :
    Transition.Meets Lifetime.step (Lifetime.Unrepeated oneFile) firstLife openAfterClose := by
  refine Transition.meets_of_check _ _ unrepeatedA ?_ (by decide +kernel)
  intro t action member checked
  have named (safe : String) (same : normalize "output/a" = some safe) : safe = "output/a" := by
    have plain : normalize "output/a" = some "output/a" := by decide
    exact Option.some.inj (same.symm.trans plain)
  simp only [openAfterClose, List.mem_cons, List.not_mem_nil, or_false] at member
  rcases member with rfl | rfl | rfl
  · intro safe same
    obtain rfl := named safe same
    exact ⟨rfl, of_decide_eq_true checked⟩
  · obtain ⟨version, applied, filename⟩ := of_decide_eq_true checked
    rintro call ⟨found, client, present, _, rfl⟩
    have inside : found.filename ∈ oneFile.names := by
      rw [show t.server.files.lookup 0 = some found from present] at filename
      exact Option.some.inj filename
    obtain ⟨own, _⟩ := oneFile.call_name ⟨.close, ⟨"r2", 0, true, 0, [50, 10], "c"⟩, found.filename, client.mode⟩ inside
    have here : t.server.version found.filename = some 0 := by rw [show found.filename = "output/a" from inside, version]
    refine ⟨.inl (own ▸ inside), fun absent => ?_, fun _ => ⟨inside, applied, fun held known => ?_, ?_, ?_, ?_, ?_⟩⟩
    · rw [own, here] at absent
      cases absent
    · obtain rfl : 0 = held := Option.some.inj (here.symm.trans known)
      decide
    all_goals rintro ⟨⟩
  · intro safe same
    obtain rfl := named safe same
    exact ⟨.inl rfl, fun absent => absurd absent (of_decide_eq_true checked)⟩

theorem openAfterClose_same_content :
    ∃ earlier later, Transition.run Lifetime.step firstLife (openAfterClose.take 2) = some earlier ∧
      Transition.run Lifetime.step earlier (openAfterClose.drop 2) = some later ∧
      earlier.server.testAuth "output/a" = .ok 1 ∧ later.server.testAuth "output/a" = .ok 1 ∧
      later.server.bytes "output/a" = earlier.server.bytes "output/a" := by
  have outcome : ((Transition.run Lifetime.step firstLife (openAfterClose.take 2)).bind fun earlier =>
      (Transition.run Lifetime.step earlier (openAfterClose.drop 2)).map fun later =>
        (earlier.server.testAuth "output/a", later.server.testAuth "output/a")) = some (.ok 1, .ok 1) := by
    decide +kernel
  obtain ⟨earlier, before, rest⟩ := Option.bind_eq_some_iff.mp outcome
  obtain ⟨later, after, answers⟩ := Option.map_eq_some_iff.mp rest
  obtain ⟨seen, again⟩ := Prod.mk.inj answers
  obtain ⟨safe, named, same⟩ := version_identifies_content oneFile "1" "storage" mainServers .empty [] (fun _ => .ok) 0
    "5001" (openAfterClose.take 2) (openAfterClose.drop 2) earlier later openAfterClose_unrepeated before after "output/a" 1
    seen again
  obtain rfl : safe = "output/a" := Option.some.inj (named.symm.trans (by decide))
  exact ⟨earlier, later, before, after, seen, again, same⟩

-- Create starts the versions of a deleted file again from 0.
theorem created_again_repeats_version :
    ∃ earlier later, Transition.run Lifetime.step firstLife
        [.request createA, .request (closeA "r2" 0 0 [50, 10])] = some earlier ∧
      Transition.run Lifetime.step earlier
        [.request deleteA, .request createAgain, .request (closeA "r7" 1 0 [51, 10])] = some later ∧
      earlier.server.testAuth "output/a" = .ok 1 ∧ later.server.testAuth "output/a" = .ok 1 ∧
      earlier.server.bytes "output/a" = some [50, 10] ∧ later.server.bytes "output/a" = some [51, 10] := by
  have outcome : ((Transition.run Lifetime.step firstLife
      [.request createA, .request (closeA "r2" 0 0 [50, 10])]).bind fun earlier =>
      (Transition.run Lifetime.step earlier
        [.request deleteA, .request createAgain, .request (closeA "r7" 1 0 [51, 10])]).map fun later =>
        (earlier.server.testAuth "output/a", later.server.testAuth "output/a", earlier.server.bytes "output/a",
          later.server.bytes "output/a")) = some (.ok 1, .ok 1, some [50, 10], some [51, 10]) := by
    decide +kernel
  obtain ⟨earlier, before, rest⟩ := Option.bind_eq_some_iff.mp outcome
  obtain ⟨later, after, facts⟩ := Option.map_eq_some_iff.mp rest
  simp only [Prod.mk.injEq] at facts
  exact ⟨earlier, later, before, after, facts⟩

end Ikkat
