import Ikkat.Retention
import Ikkat.Union

set_option autoImplicit false

namespace Ikkat

variable {env : Env} {answer : Except Status Response} {sent : List AppendEntriesRequest} {rpc : Rpc}
variable {s next : Server}

def Rpc.subject (s : Server) : Rpc → Option String
  | .create req => normalize req.filename
  | .openFile req => normalize req.filename
  | .delete req => normalize req.filename
  | .close req => (s.files.lookup req.fd).map FileMeta.filename
  | .write req => (s.files.lookup req.fd).map FileMeta.filename

theorem OutputNames.tmp_apart (files : OutputNames) (s : Server) (name other : String) (member : name ∈ files.names)
    (another : other ∈ files.names) : s.path other ≠ withSuffix (s.path name) ".tmp" := by
  have tmp := join_suffix s.rootDir name ".tmp" (files.plain _ member) (by decide) (by decide)
  rw [Server.path, Server.path, ← tmp]
  exact OutputNames.path_suffix s.rootDir ".tmp" member another (files.noTmp _ member) (by decide) (by decide)

theorem OutputNames.meta_apart (files : OutputNames) (s : Server) (name other : String) (member : name ∈ files.names)
    (another : other ∈ files.names) : s.path other ≠ s.path (name ++ ".meta") :=
  OutputNames.path_suffix s.rootDir ".meta" member another (files.noMeta _ member) (by decide) (by decide)

theorem OutputNames.tmp_beside (files : OutputNames) (s : Server) (name : String) (member : name ∈ files.names) :
    (withSuffix (s.path name) ".tmp").dropLast = (s.path name).dropLast := by
  have filled : s.path name ≠ [] := by
    rw [Server.path, join_plain _ _ (files.plain _ member)]
    exact List.append_ne_nil_of_right_ne_nil _ (parts_nonempty _)
  unfold withSuffix
  split
  case h_1 empty => exact absurd empty filled
  case h_2 => exact List.dropLast_concat

def Inherited (before : Map Int32 FileMeta) (fd : Int32) (found : FileMeta) : Prop :=
  ∃ old, before.lookup fd = some old ∧ found.filename = old.filename ∧
    ∀ client state, found.clients.lookup client = some state → old.clients.lookup client = some state

theorem inherited_self {files : Map Int32 FileMeta} {fd : Int32} {found : FileMeta}
    (present : files.lookup fd = some found) : Inherited files fd found :=
  ⟨found, present, rfl, fun _ _ registered => registered⟩

namespace Server

structure Lossless (kind : Kind) (env : Env) (s : Server) (call : Call) : Prop where
  replicated : s.Replicated env kind
  apply : ∀ position, env.apply position = .ok
  known : kind = .write → ∀ number ∈ parseNumbers call.req.data, number ∈ s.primeSet call.filename
  opens : kind = .write → env.tmpOpen = true ∧ env.srcOpen = true ∧ env.dstOpen = true ∧ env.copy = .done
  free : kind = .write → s.tree.find (withSuffix (s.path call.filename) ".tmp") ≠ some .dir

theorem appendUnique_passes (s : Server) (filename : String) (unique : List UInt64)
    (writes : unique = [] ∨ env.tmpWrite = .done)
    (opens : env.tmpOpen = true ∧ env.srcOpen = true ∧ env.dstOpen = true ∧ env.copy = .done)
    (parent : s.tree.find (withSuffix (s.path filename) ".tmp").dropLast = some .dir)
    (free : s.tree.find (withSuffix (s.path filename) ".tmp") ≠ some .dir) (content : Bytes)
    (present : s.tree.find (s.path filename) = some (.file content)) :
    (s.appendUnique env filename unique).2 = none := by
  obtain ⟨tmpOpen, srcOpen, dstOpen, copy⟩ := opens
  obtain ⟨opened, made⟩ := s.tree.writeFile_into _ [] parent free
  have whole : ¬ (unique ≠ [] ∧ env.tmpWrite ≠ .done) := fun ⟨some_, cut⟩ => writes.elim some_ cut
  unfold appendUnique
  dsimp only
  rw [if_pos tmpOpen, made]
  dsimp only
  rw [if_neg whole]
  generalize (if unique = [] then [] else copied env.tmpWrite (renderNumbers unique)) = lines
  obtain ⟨filled, written⟩ := opened.writeFile_over (withSuffix (s.path filename) ".tmp") [] lines
    (by rw [FileTree.Tree.find_writeFile _ made, if_pos rfl])
  have grows := (grows_writeFile made).trans (grows_writeFile written)
  obtain ⟨held, file⟩ := grows.files _ content present
  rw [written, Option.getD_some, srcOpen, dstOpen]
  simp only [osCreate, file, if_true, Bool.not_true, Bool.false_eq_true, ne_eq, if_false]
  split_ifs <;> rfl

theorem applyTree_beside (io : ApplyIO) (rootDir : String) (entry : LogEntry) (tree : Tree)
    (parent : tree.find (join rootDir entry.filename).dropLast = some .dir) (path : Path)
    (other : path ≠ join rootDir entry.filename) : (applyTree io rootDir entry tree).find path = tree.find path := by
  unfold applyTree
  split_ifs
  · dsimp only
    rw [FileTree.Tree.mkdirAll_dir parent]
    exact osWriteFile_other _ _ _ _ _ other
  · rfl
  · rfl

theorem committed_lossless (caughtUp : s.lastApplied = s.log.length) {call : Call}
    (lossless : s.Lossless call.kind env call) (named : call.name = call.filename)
    (keyed : call.primeKey = call.filename) (parent : s.tree.find (s.path call.filename).dropLast = some .dir)
    (apart : s.path call.filename ≠ withSuffix (s.path call.filename) ".tmp")
    (beside : (withSuffix (s.path call.filename) ".tmp").dropLast = (s.path call.filename).dropLast) (logFile : Bytes) :
    let entry := s.logEntry call (s.content env.range call) s.log.length
    (∃ tree filesPrimes, (committed env s call logFile).1 =
        { s with
          log := s.log ++ [entry]
          logFile := logFile
          commitIndex := s.log.length + 1
          lastApplied := s.log.length + 1
          tree := tree
          filesPrimes := filesPrimes } ∧
        ∀ path, ¬ (call.kind = .write ∧ path = withSuffix (s.path call.filename) ".tmp") →
          tree.find path = (applyTree .ok s.rootDir entry s.tree).find path) ∧
      ∀ status, (committed env s call logFile).2 = some status → s.tree.find (s.path call.filename) = some .dir := by
  intro entry
  have kind : call.kind = .close ∨ call.kind = .write := by cases call.kind <;> simp
  rcases kind with close | write
  · rw [committed_close env s caughtUp call close logFile, lossless.apply]
    exact ⟨⟨_, _, rfl, fun _ _ => rfl⟩, by rintro _ ⟨⟩⟩
  · have filed : join s.rootDir entry.filename = s.path call.filename := by
      change join s.rootDir call.name = _
      rw [named]
      rfl
    have into := applyTree_into s.rootDir entry s.tree rfl (by rw [filed]; exact parent)
    have grows := grows_applyTree .ok s.rootDir entry s.tree
    rw [filed] at into
    unfold committed
    dsimp only
    rw [commitEntry_alone env.apply caughtUp _ logFile rfl, lossless.apply]
    generalize at_ : { s with
        log := s.log ++ [s.logEntry call (s.content env.range call) s.log.length]
        logFile := logFile
        commitIndex := s.log.length + 1
        lastApplied := s.log.length + 1
        tree := applyTree .ok s.rootDir (s.logEntry call (s.content env.range call) s.log.length) s.tree } = after
    have tree : after.tree = applyTree .ok s.rootDir entry s.tree := by rw [← at_]
    have path : after.path call.filename = s.path call.filename := by rw [← at_]; rfl
    have known : after.tempPrimeSet call = ([], s.primeSet call.filename) := by
      rw [tempPrimeSet, keyed, ← at_]
      exact filterUniquePrimes_known _ (lossless.known write)
    obtain ⟨left, same, others⟩ := appendUnique_nil env after call.filename
      (by
        rw [path, tree]
        rcases into with file | dir
        · simp [file]
        · simp [grows.dirs _ dir])
      (by rw [path]; exact apart)
    have fails (status : Status) (failed : (after.appendUnique env call.filename []).2 = some status) :
        s.tree.find (s.path call.filename) = some .dir := by
      rcases into with file | dir
      · rw [appendUnique_passes after call.filename [] (.inl rfl) (lossless.opens write) _ _ entry.content] at failed
        · cases failed
        · rw [path, tree]
          exact file
        · rw [path, tree, beside]
          exact grows.dirs _ parent
        · rw [path, tree, applyTree_beside .ok s.rootDir entry s.tree (by rw [filed]; exact parent) _
            (by rw [filed]; exact apart.symm)]
          exact lossless.free write
      · exact dir
    have elsewhere (target : Path) (other : ¬ (call.kind = .write ∧ target = withSuffix (s.path call.filename) ".tmp")) :
        left.find target = (applyTree .ok s.rootDir entry s.tree).find target := by
      rw [others target fun equal => other ⟨write, by rw [← path]; exact equal⟩, tree]
    rw [after.updatePrimes_write env _ write, known]
    cases failed : (after.appendUnique env call.filename []).2 with
    | some status =>
      refine ⟨⟨left, s.filesPrimes, ?_, elsewhere⟩, fun _ _ => fails status failed⟩
      rw [same, ← at_]
    | none =>
      refine ⟨⟨left, s.filesPrimes.insert call.primeKey (s.primeSet call.filename), ?_, elsewhere⟩, by rintro _ ⟨⟩⟩
      rw [same, ← at_]
      rfl

structure Logged [LogCodec] (s next : Server) (name : String) (entry : LogEntry) : Prop where
  rootDir : next.rootDir = s.rootDir
  log : next.log = s.log ++ [entry]
  logFile : next.logFile = s.logFile ++ logLine entry
  applied : next.lastApplied = s.log.length + 1
  commitIndex : next.commitIndex = s.log.length + 1
  id : next.id = s.id
  files : ∀ fd found, next.files.lookup fd = some found → Inherited s.files fd found
  dirs : ∀ path, s.tree.find path = some .dir → next.tree.find path = some .dir
  kept : ∀ path content, path ≠ withSuffix (s.path name) ".tmp" → s.tree.find path = some (.file content) →
    ∃ content, next.tree.find path = some (.file content)
  own : next.tree.find (s.path name) = some (.file entry.content) ∨ s.tree.find (s.path name) = some .dir
  others : ∀ path, path ≠ s.path name → path ≠ s.path (name ++ ".meta") → path ≠ withSuffix (s.path name) ".tmp" →
    next.tree.find path = s.tree.find path

section Logged

variable [LogCodec]

theorem logged_release (s next : Server) (name other : String) (entry : LogEntry) (logged : Logged s next name entry) :
    Logged s (next.releaseWrite other) name entry := by
  obtain ⟨table, same⟩ := next.releaseWrite_eq other
  rw [same]
  exact ⟨logged.rootDir, logged.log, logged.logFile, logged.applied, logged.commitIndex, logged.id, logged.files,
    logged.dirs, logged.kept, logged.own, logged.others⟩

theorem logged_finish (env : Env) (s next : Server) (call : Call) (entry : LogEntry)
    (apart : s.path call.filename ≠ s.path (call.filename ++ ".meta")) (named : call.name = call.filename)
    (logged : Logged s next call.filename entry) : Logged s (next.finishCall env call).1 call.filename entry := by
  have keeps := next.finishCall_keeps env call
  have grows := next.finishCall_grows env call
  have path := Server.path_of_root logged.rootDir
  have stays (target : Path) (other : target ≠ s.path (call.filename ++ ".meta")) :
      (next.finishCall env call).1.tree.find target = next.tree.find target :=
    next.finishCall_tree env call target (by rw [path, named]; exact other)
  have disk : (next.finishCall env call).1.logFile = next.logFile := by
    obtain ⟨_, _, _, _, same⟩ := next.finishCall_eq env call
    rw [same]
  refine ⟨keeps.rootDir.trans logged.rootDir, keeps.log.trans logged.log, disk.trans logged.logFile,
    keeps.lastApplied.trans logged.applied, keeps.commitIndex.trans logged.commitIndex, keeps.id.trans logged.id,
    fun fd found present => ?_, fun target dir => ?_, fun target content outside file => ?_, ?_,
    fun target other noMeta noTmp => ?_⟩
  · obtain ⟨middle, present, named, clients⟩ := next.finishCall_clients env call fd found present
    obtain ⟨old, before, same, kept⟩ := logged.files fd middle present
    exact ⟨old, before, named.trans same, fun client state registered => kept client state (clients client state registered)⟩
  · exact grows.dirs target (logged.dirs target dir)
  · obtain ⟨held, present⟩ := logged.kept target content outside file
    exact grows.files target held present
  · rw [stays _ apart]
    exact logged.own
  · rw [stays target noMeta, logged.others target other noMeta noTmp]

theorem logged_committed (env : Env) (s : Server) (caughtUp : s.lastApplied = s.log.length) (call : Call)
    (lossless : s.Lossless call.kind env call) (named : call.name = call.filename)
    (keyed : call.primeKey = call.filename) (parent : s.tree.find (s.path call.filename).dropLast = some .dir)
    (apart : s.path call.filename ≠ withSuffix (s.path call.filename) ".tmp")
    (beside : (withSuffix (s.path call.filename) ".tmp").dropLast = (s.path call.filename).dropLast) :
    let entry := s.logEntry call (s.content env.range call) s.log.length
    let outcome := committed env s call (s.appendLog env.persist entry).1.logFile
    Logged s outcome.1 call.filename entry ∧
      ∀ status, outcome.2 = some status → s.tree.find (s.path call.filename) = some .dir := by
  intro entry outcome
  obtain ⟨⟨tree, filesPrimes, made, elsewhere⟩, fails⟩ := committed_lossless caughtUp lossless named keyed
    parent apart beside (s.appendLog env.persist entry).1.logFile
  have filed : join s.rootDir entry.filename = s.path call.filename := by
    change join s.rootDir call.name = _
    rw [named]
    rfl
  have grows := grows_applyTree .ok s.rootDir entry s.tree
  have into := applyTree_into s.rootDir entry s.tree rfl (by rw [filed]; exact parent)
  have disk : (s.appendLog env.persist entry).1.logFile = s.logFile ++ logLine entry := by
    rw [lossless.replicated.1]
    rfl
  rw [filed] at into
  refine ⟨?_, fails⟩
  rw [made]
  refine ⟨rfl, rfl, disk, rfl, rfl, rfl, fun fd found present => inherited_self present,
    fun path dir => ?_, fun path content outside file => ?_, ?_, fun path other _ noTmp => ?_⟩
  · dsimp only
    rw [elsewhere path]
    · exact grows.dirs path dir
    · rintro ⟨write, rfl⟩
      exact lossless.free write dir
  · dsimp only
    rw [elsewhere path fun ⟨_, same⟩ => outside same]
    exact grows.files path content file
  · dsimp only
    rw [elsewhere _ fun ⟨_, same⟩ => apart same]
    exact into
  · dsimp only
    rw [elsewhere path fun ⟨_, same⟩ => noTmp same]
    exact applyTree_beside .ok s.rootDir entry s.tree (by rw [filed]; exact parent) path (by rw [filed]; exact other)

end Logged

end Server

def Replayable (files : OutputNames) (s : Server) (delivery : Delivery) : Prop :=
  match delivery.rpc with
  | .create req => (∀ safe, normalize req.filename = some safe → safe ∈ files.names) ∧ delivery.env.remove = true
  | .openFile req => ∀ safe, normalize req.filename = some safe → safe ∈ files.names
  | .delete req => ∀ safe, normalize req.filename = some safe → safe ∈ files.names ∧ lastFor safe s.log = none
  | .close req => ∀ call ready, s.Enters .close delivery.env req call ready → ready.Lossless .close delivery.env call
  | .write req => ∀ call ready, s.Enters .write delivery.env req call ready → ready.Lossless .write delivery.env call

structure Current (files : OutputNames) (s : Server) : Prop where
  applied : s.lastApplied = s.log.length
  loggable : ∀ entry ∈ s.log, Loggable files entry
  opened : ∀ fd found, s.files.lookup fd = some found → found.filename ∈ files.names ∧
    ∀ client state, found.clients.lookup client = some state → state.mode = .write →
      s.tree.find (s.path found.filename).dropLast = some .dir
  newest : ∀ name ∈ files.names, ∀ entry, lastFor name s.log = some entry →
    s.bytes name = some entry.content ∨ s.tree.find (s.path name) = some .dir

structure Rests (files : OutputNames) (s next : Server) : Prop where
  rootDir : next.rootDir = s.rootDir
  id : next.id = s.id
  log : next.log = s.log
  logFile : next.logFile = s.logFile
  commitIndex : next.commitIndex = s.commitIndex
  applied : next.lastApplied = s.lastApplied
  dirs : ∀ path, s.tree.find path = some .dir → next.tree.find path = some .dir
  opened : ∀ fd found, next.files.lookup fd = some found → Inherited s.files fd found ∨
    found.filename ∈ files.names ∧ ∀ client state, found.clients.lookup client = some state → state.mode = .write →
      ∃ content, next.bytes found.filename = some content

theorem Rests.refl (files : OutputNames) (s : Server) : Rests files s s :=
  ⟨rfl, rfl, rfl, rfl, rfl, rfl, fun _ dir => dir, fun _ _ present => .inl (inherited_self present)⟩

def Server.Held (s : Server) (name : String) : Prop :=
  ∃ fd found client state, s.files.lookup fd = some found ∧ found.filename = name ∧
    found.clients.lookup client = some state ∧ state.mode = .write

inductive Effect [LogCodec] (files : OutputNames) (s : Server) (rpc : Rpc) (next : Server) :
    Except Status Response → List AppendEntriesRequest → Prop where
  | quiet (answer : Except Status Response) (rests : Rests files s next) (same : SameFiles s.tree next.tree) :
      Effect files s rpc next answer []
  | created (response : Response) (safe : String) (subject : rpc.subject s = some safe) (member : safe ∈ files.names)
      (rests : Rests files s next) (adds : AddsFile s.tree next.tree (s.path safe)) :
      Effect files s rpc next (.ok response) []
  | removed (response : Response) (req : DeleteRequest) (safe : String) (deletes : rpc = .delete req)
      (subject : rpc.subject s = some safe) (member : safe ∈ files.names) (regular : s.bytes safe ≠ none)
      (rests : Rests files s next) (unlogged : lastFor safe s.log = none)
      (removes : s.tree.remove (s.path safe) = some next.tree) : Effect files s rpc next (.ok response) []
  | logged (response : Response) (name : String) (entry : LogEntry) (subject : rpc.subject s = some name)
      (member : name ∈ files.names) (held : s.Held name) (named : entry.filename = name) (write : entry.op = "WRITE")
      (index : entry.index = s.log.length + 1) (logged : Server.Logged s next name entry) :
      Effect files s rpc next (.ok response)
        [sendAppendEntry s.id entry s.commitIndex, sendAppendEntry s.id entry (s.log.length + 1)]
  | blocked (status : Status) (name : String) (entry : LogEntry) (sent : List AppendEntriesRequest)
      (member : name ∈ files.names) (named : entry.filename = name) (write : entry.op = "WRITE")
      (logged : Server.Logged s next name entry) (dir : s.tree.find (s.path name) = some .dir) :
      Effect files s rpc next (.error status) sent

namespace Server

variable [LogCodec] (files : OutputNames)

theorem create_effect {req : CreateRequest} (replayable : Replayable files s ⟨env, .create req⟩)
    (handled : s.create env req = .returned next answer sent) :
    Effect files s (.create req) next answer sent := by
  obtain ⟨members, removes⟩ := replayable
  cases handled ▸ s.create_exit env req with
  | dismissed why =>
    obtain ⟨rfl, rfl⟩ := why.same
    exact .quiet answer (.refl files next) fun _ _ => Iff.rfl
  | unnamed | barred => exact .quiet _ (.refl files _) fun _ _ => Iff.rfl
  | failed safe tree status _ _ _ _ _ left grows =>
    rcases left with same | ⟨kept, _⟩
    · exact .quiet _ ⟨rfl, rfl, rfl, rfl, rfl, rfl, grows.dirs, fun fd found present => .inl (inherited_self present)⟩ same
    · cases kept.symm.trans removes
  | created safe tree _ named _ _ adds grows =>
    have member := members safe named
    refine .created _ safe named member ⟨rfl, rfl, rfl, rfl, rfl, rfl, grows.dirs, fun key found present => ?_⟩ adds
    rcases opened_insert present with rfl | old
    · refine .inr ⟨member, fun _ _ _ _ => ⟨[], ?_⟩⟩
      exact (bytes_eq ..).mpr ((adds.2 _ []).mpr (by rw [if_pos]; rfl))
    · exact .inl (inherited_self old)

theorem openFile_effect {req : FileRequest} (replayable : Replayable files s ⟨env, .openFile req⟩)
    (handled : s.openFile env req = .returned next answer sent) :
    Effect files s (.openFile req) next answer sent := by
  have same : sent = [] := by
    cases handled ▸ s.openFile_exit env req with
    | dismissed why => exact why.same.2
    | unnamed | failed | opened => rfl
  subst same
  rcases openFile_cases handled with rfl | ⟨safe, named, effect⟩
  · exact .quiet answer (.refl files next) fun _ _ => Iff.rfl
  · have member := replayable safe named
    obtain ⟨table, requests, openMap, nextFD, metas, rfl, effect⟩ := effect
    refine .quiet answer ⟨rfl, rfl, rfl, rfl, rfl, rfl, fun _ dir => dir, fun key found present => ?_⟩ fun _ _ => Iff.rfl
    rcases effect with rfl | ⟨fd, opened, rfl, own, regular⟩
    · exact .inl (inherited_self present)
    · rcases opened_insert present with rfl | old
      · refine .inr ⟨own ▸ member, fun client state registered write => ?_⟩
        rw [own]
        exact regular client state registered write
      · exact .inl (inherited_self old)

theorem delete_effect {req : DeleteRequest} (replayable : Replayable files s ⟨env, .delete req⟩)
    (handled : s.delete env req = .returned next answer sent) :
    Effect files s (.delete req) next answer sent := by
  have still (requests : Map String RequestEntry) (table : Map String FileEntry) :
      Effect files s (.delete req) { s with requests := requests, table := table } answer [] :=
    .quiet answer ⟨rfl, rfl, rfl, rfl, rfl, rfl, fun _ dir => dir,
      fun fd found present => .inl (inherited_self present)⟩ fun _ _ => Iff.rfl
  cases handled ▸ s.delete_exit env req with
  | dismissed why =>
    obtain ⟨rfl, rfl⟩ := why.same
    exact still _ _
  | unnamed | input | directory | gone | busy | failed => exact still _ _
  | removed safe entry tree claim _ removes =>
    obtain ⟨member, unlogged⟩ := replayable safe claim.named
    have leaf : s.tree.find (s.path safe) ≠ some .dir := fun dir => claim.leaf (by simp [osStat, dir])
    have regular : s.bytes safe ≠ none := by
      cases found : s.tree.find (s.path safe) with
      | none => exact absurd found (FileTree.Tree.find_of_remove removes)
      | some node =>
        cases node with
        | dir => exact absurd found leaf
        | file content => simp [(bytes_eq s safe content).mpr found]
    refine .removed _ req safe rfl claim.named member regular ⟨rfl, rfl, rfl, rfl, rfl, rfl, fun path dir => ?_,
      fun fd found present => .inl (inherited_self present)⟩ unlogged removes
    refine (FileTree.Tree.find_remove path removes).trans ((if_neg ?_).trans dir)
    rintro rfl
    exact leaf dir

theorem enters_logged {kind : Kind} {ready : Server} {req : DataRequest} (current : Current files s)
    {call : Call} (enters : s.Enters kind env req call ready) (lossless : ready.Lossless kind env call) :
    let entry := ready.logEntry call (ready.content env.range call) ready.log.length
    let outcome := committed env ready call (ready.appendLog env.persist entry).1.logFile
    (kind.rpc req).subject s = some call.filename ∧ call.filename ∈ files.names ∧ s.Held call.filename ∧
      call.name = call.filename ∧
      (∃ table, ready = { s with table := table }) ∧ Logged s outcome.1 call.filename entry ∧
      ∀ status, outcome.2 = some status → s.tree.find (s.path call.filename) = some .dir := by
  obtain ⟨found, client, table, _, present, registered, mode, _, rfl, rfl⟩ := enters_eq kind env s ready req call enters
  obtain ⟨member, parent⟩ := current.opened _ found present
  obtain ⟨named, keyed⟩ := files.call_name ⟨kind, req, found.filename, client.mode⟩ member
  obtain ⟨logged, fails⟩ := logged_committed env { s with table := table } current.applied
    ⟨kind, req, found.filename, client.mode⟩ lossless named keyed (parent _ client registered mode)
    (files.tmp_apart s _ _ member member) (files.tmp_beside s _ member)
  refine ⟨?_, member, ⟨_, found, _, client, present, rfl, registered, mode⟩, named, ⟨table, rfl⟩, ?_, fails⟩
  · cases kind <;> simp [Kind.rpc, Rpc.subject, present]
  · exact ⟨logged.rootDir, logged.log, logged.logFile, logged.applied, logged.commitIndex, logged.id, logged.files,
      logged.dirs, logged.kept, logged.own, logged.others⟩

theorem handleCall_effect {kind : Kind} {req : DataRequest} (current : Current files s)
    (lossless : ∀ call ready, s.Enters kind env req call ready → ready.Lossless kind env call)
    (handled : s.handleCall kind env req = .returned next answer sent) :
    Effect files s (kind.rpc req) next answer sent := by
  cases fresh : s.cachedCall kind req.requestId env.start with
  | some response =>
    have ended : ∃ result, s.beginCall kind env.start req = .ended result := by
      unfold beginCall
      rw [fresh]
      split
      case h_1 => exact ⟨_, rfl⟩
      case h_2 => cases response <;> exact ⟨_, rfl⟩
    obtain ⟨result, begun⟩ := ended
    unfold handleCall at handled
    rw [begun] at handled
    subst handled
    obtain ⟨rfl, rfl⟩ := beginCall_ended begun
    exact .quiet answer (.refl files next) fun _ _ => Iff.rfl
  | none =>
    cases handleCall_outcome kind env s next req answer sent fresh handled with
    | rejected status table made =>
      subst made
      exact .quiet _ ⟨rfl, rfl, rfl, rfl, rfl, rfl, fun _ dir => dir,
        fun fd found present => .inl (inherited_self present)⟩ fun _ _ => Iff.rfl
    | clean call table response begun still listed made =>
      obtain ⟨found, client, _, _, _, _, rfl, _⟩ := beginCall_opened kind env.start s _ req call begun
      have tree := finishCall_clean env { s with table := table } ⟨kind, req, found.filename, client.mode⟩ still
      have keeps := finishCall_keeps env { s with table := table } ⟨kind, req, found.filename, client.mode⟩
      have clients := finishCall_clients env { s with table := table } ⟨kind, req, found.filename, client.mode⟩
      have disk : (finishCall env { s with table := table } ⟨kind, req, found.filename, client.mode⟩).1.logFile =
          s.logFile := by
        obtain ⟨_, _, _, _, same⟩ := finishCall_eq env { s with table := table }
          ⟨kind, req, found.filename, client.mode⟩
        rw [same]
      rw [← made] at tree keeps clients disk
      exact .quiet _ ⟨keeps.rootDir, keeps.id, keeps.log, disk, keeps.commitIndex, keeps.lastApplied,
        fun path dir => by rw [tree]; exact dir, fun fd found present => .inl (clients fd found present)⟩
        fun _ _ => by rw [tree]
    | failed call ready logFile status _ enters missed => exact absurd (lossless call ready enters).replicated missed
    | broken call ready logFile status sent enters replicated persisted stopped made =>
      obtain ⟨_, member, _, named, _, logged, fails⟩ := enters_logged files current enters
        (lossless call ready enters)
      rw [persisted] at logged fails
      rw [made]
      exact .blocked status call.filename _ sent member named rfl (logged_release _ _ _ _ _ logged)
        (fails status stopped)
    | done call ready logFile response enters replicated persisted finished made =>
      obtain ⟨subject, member, held, named, ⟨table, rfl⟩, logged, _⟩ := enters_logged files current
        enters (lossless call ready enters)
      rw [persisted] at logged
      rw [made]
      exact .logged response call.filename _ subject member held named rfl rfl (logged_release _ _ _ _ _
        (logged_finish env s _ call _ (files.meta_apart s _ _ member member) named logged))

theorem serve_effect (current : Current files s) (replayable : Replayable files s ⟨env, rpc⟩)
    (handled : s.serve env rpc = .returned next answer sent) : Effect files s rpc next answer sent := by
  cases rpc with
  | create req => exact create_effect files replayable handled
  | openFile req => exact openFile_effect files replayable handled
  | close req | write req => exact handleCall_effect files current replayable handled
  | delete req => exact delete_effect files replayable handled

end Server

section Effect

variable [LogCodec] (files : OutputNames)

theorem effect_bytes (effect : Effect files s rpc next answer sent) (name : String) (inside : name ∈ files.names)
    (apart : rpc.subject s ≠ some name ∨ ∃ status, answer = .error status) : next.bytes name = s.bytes name := by
  have other (safe : String) (response : Response) (succeeded : answer = .ok response) (member : safe ∈ files.names)
      (subject : rpc.subject s = some safe) : s.path name ≠ s.path safe := by
    intro same
    rcases apart with different | ⟨status, failed⟩
    · exact different (by rw [subject, files.path_injective s.rootDir name safe inside member same])
    · rw [succeeded] at failed
      cases failed
  have beside (entry : LogEntry) (safe : String) (member : safe ∈ files.names) (different : s.path name ≠ s.path safe)
      (logged : Server.Logged s next safe entry) : next.bytes name = s.bytes name := by
    exact s.bytes_congr next logged.rootDir name
      (logged.others _ different (files.meta_apart s safe name member inside) (files.tmp_apart s safe name member inside))
  cases effect with
  | quiet _ rests same => exact s.bytes_of_files next rests.rootDir name (same _)
  | created response safe subject member rests adds =>
    refine s.bytes_of_files next rests.rootDir name fun content => ?_
    rw [adds.2 _ content, if_neg (other safe response rfl member subject)]
  | removed response req safe _ subject member _ rests _ removes =>
    refine s.bytes_congr next rests.rootDir name ?_
    rw [FileTree.Tree.find_remove _ removes, if_neg (other safe response rfl member subject)]
  | logged response safe entry subject member _ _ _ _ logged =>
    exact beside entry safe member (other safe response rfl member subject) logged
  | blocked status safe entry _ member _ _ logged dir =>
    by_cases same : name = safe
    · subst same
      exact s.bytes_congr next logged.rootDir name ((logged.dirs _ dir).trans dir.symm)
    · exact beside entry safe member (fun equal => same (files.path_injective s.rootDir _ _ inside member equal)) logged

theorem current_logged (current : Current files s) {name : String} {entry : LogEntry}
    (member : name ∈ files.names) (named : entry.filename = name) (write : entry.op = "WRITE")
    (others : ∀ other ∈ files.names, other ≠ name → next.bytes other = s.bytes other)
    (logged : Server.Logged s next name entry) : Current files next := by
  have path := Server.path_of_root logged.rootDir
  refine ⟨?_, fun other inside => ?_, fun fd found present => ?_, fun other inside last found => ?_⟩
  · rw [logged.applied, logged.log, List.length_append, List.length_singleton]
  · rw [logged.log, List.mem_append, List.mem_singleton] at inside
    rcases inside with old | rfl
    · exact current.loggable other old
    · exact ⟨write, named ▸ member⟩
  · obtain ⟨old, before, same, clients⟩ := logged.files fd found present
    obtain ⟨inside, parent⟩ := current.opened fd old before
    rw [same]
    refine ⟨inside, fun client state registered mode => ?_⟩
    rw [path]
    exact logged.dirs _ (parent client state (clients client state registered) mode)
  · rw [logged.log, Server.lastFor_append] at found
    rw [path]
    split_ifs at found with own
    · obtain rfl := Option.some.inj found
      rw [named] at own
      subst own
      rw [Server.bytes_eq, path]
      exact logged.own.imp_right (logged.dirs _)
    · rw [named] at own
      rw [others other inside (Ne.symm own)]
      exact (current.newest other inside last found).imp_right (logged.dirs _)

omit [LogCodec] in
theorem current_rests (current : Current files s) (rests : Rests files s next)
    (newest : ∀ name ∈ files.names, lastFor name s.log ≠ none → next.bytes name = s.bytes name) :
    Current files next := by
  have path := Server.path_of_root rests.rootDir
  refine ⟨?_, ?_, fun fd found present => ?_, fun name inside entry found => ?_⟩
  · rw [rests.applied, rests.log]
    exact current.applied
  · rw [rests.log]
    exact current.loggable
  · rcases rests.opened fd found present with ⟨old, before, same, clients⟩ | ⟨inside, regular⟩
    · obtain ⟨inside, parent⟩ := current.opened fd old before
      rw [same]
      refine ⟨inside, fun client state registered mode => ?_⟩
      rw [path]
      exact rests.dirs _ (parent client state (clients client state registered) mode)
    · refine ⟨inside, fun client state registered mode => ?_⟩
      obtain ⟨content, holds⟩ := regular client state registered mode
      exact Server.parent_of_bytes content holds
  · rw [rests.log] at found
    rw [path, newest name inside (by simp [found])]
    exact (current.newest name inside entry found).imp_right (rests.dirs _)

theorem current_effect (current : Current files s) (effect : Effect files s rpc next answer sent) :
    Current files next := by
  have bytes := effect_bytes files effect
  cases effect with
  | quiet _ rests same =>
    exact current_rests files current rests fun name _ _ => s.bytes_of_files next rests.rootDir name (same _)
  | created response safe subject member rests adds =>
    refine current_rests files current rests fun name inside found => bytes name inside (.inl ?_)
    rintro own
    obtain rfl : safe = name := Option.some.inj (subject.symm.trans own)
    obtain ⟨entry, last⟩ := Option.ne_none_iff_exists'.mp found
    rcases current.newest safe inside entry last with file | dir
    · rw [Server.bytes_eq, adds.1] at file
      cases file
    · rw [adds.1] at dir
      cases dir
  | removed response req safe _ subject member _ rests unlogged removes =>
    refine current_rests files current rests fun name inside found => bytes name inside (.inl ?_)
    rintro own
    obtain rfl : safe = name := Option.some.inj (subject.symm.trans own)
    exact found unlogged
  | logged response name entry subject member _ named write _ logged =>
    refine current_logged files current member named write (fun other inside different => ?_) logged
    exact bytes other inside (.inl (by rw [subject]; simpa using Ne.symm different))
  | blocked status name entry _ member named write logged dir =>
    exact current_logged files current member named write
      (fun other inside _ => bytes other inside (.inr ⟨status, rfl⟩)) logged

end Effect

theorem Server.lossless_of_count (env : Env) (s : Server) (req : DataRequest) (persisted : env.persist = .done)
    (apply : ∀ position, env.apply position = .ok)
    (enough : s.majority .close ≤ ackCount (s.majority .close) 1 env.answers) (call : Call) (ready : Server)
    (enters : s.Enters .close env req call ready) : ready.Lossless .close env call :=
  ⟨s.closesReplicated_of_count env req persisted enough call ready enters, apply, by rintro ⟨⟩, by rintro ⟨⟩,
    by rintro ⟨⟩⟩

def deleteA : Delivery := ⟨{}, .delete ⟨"r5", "output/a"⟩⟩

theorem unionRun_replayable (enough : s.majority .close ≤
      Server.ackCount (s.majority .close) 1 [("2", true), ("3", false)]) {delivery : Delivery}
    (member : delivery ∈ unionRun) : Replayable oneFile s delivery := by
  have named (safe : String) (same : normalize "output/a" = some safe) : safe ∈ oneFile.names := by
    have plain : normalize "output/a" = some "output/a" := by decide
    exact Option.some.inj (same.symm.trans plain)
  have lossless (requestId : String) (fd version : Int32) (data : Bytes) :=
    s.lossless_of_count { answers := [("2", true), ("3", false)] } ⟨requestId, fd, true, version, data, "c"⟩
      rfl (fun _ => rfl) enough
  simp only [unionRun, List.mem_cons, List.not_mem_nil, or_false] at member
  rcases member with rfl | rfl | rfl | rfl
  · exact ⟨named, rfl⟩
  · exact lossless _ _ _ _
  · exact named
  · exact lossless _ _ _ _

end Ikkat
