import Ikkat.Containment
import Ikkat.Handlers
import Ikkat.Outcomes
import Ikkat.Recovery

set_option autoImplicit false

namespace Ikkat

variable {env : Env} {answer : Except Status Response} {sent : List AppendEntriesRequest} {s next : Server}
variable {safe : String} {sums : String → List UInt64}

theorem foldl_clean_length (path kept : Path) : (path.foldl (cleanStep false) kept).length ≤ kept.length + path.length ∧
      ((path.foldl (cleanStep false) kept).length = kept.length + path.length →
        path.foldl (cleanStep false) kept = kept ++ path) := by
  induction path generalizing kept with
  | nil => simp
  | cons part rest ih =>
    rw [List.foldl_cons, List.length_cons]
    obtain ⟨bound, exact_⟩ := ih (cleanStep false kept part)
    have step := cleanStep_cases kept part
    generalize cleanStep false kept part = next at step bound exact_ ⊢
    cases step with
    | skip _ empty => exact ⟨by omega, fun same => by omega⟩
    | up above =>
      rw [List.length_append, List.length_singleton] at bound exact_
      exact ⟨by omega, fun same => by rw [exact_ (by omega), List.append_assoc, List.singleton_append]⟩
    | back last found below =>
      rw [List.length_dropLast] at bound
      exact ⟨by omega, fun same => by omega⟩
    | down _ ordinary =>
      rw [List.length_append, List.length_singleton] at bound exact_
      exact ⟨by omega, fun same => by rw [exact_ (by omega), List.append_assoc, List.singleton_append]⟩

theorem normal_plain {name : String} (normal : normalize name = some name) (other : name ≠ ".") : Plain name := by
  have relative := (up_mem_normalized normal).1
  obtain ⟨accepted, sanitized, same⟩ := Option.map_eq_some_iff.mp normal
  rcases sanitizePath_some sanitized with ⟨_, rfl⟩ | ⟨filled, split, plain⟩
  · exact absurd (same.symm.trans (by decide)) other
  · have shorter : (parts name).length ≤ (clean name).length := by
      rw [← split, ← same]
      rcases parts_cases accepted with ⟨noSlash, whole⟩ | ⟨first, middle, last, whole⟩
      · rw [(parts_normalized_single noSlash).1, whole]
        simp
      · rw [parts_normalized whole, whole]
        split_ifs <;> simp
    obtain ⟨bound, exact_⟩ := foldl_clean_length (parts name) []
    rw [← clean_relative relative] at bound exact_
    have kept : clean name = parts name := by
      rw [exact_ (by rw [List.length_nil] at bound ⊢; omega), List.nil_append]
    intro part inside
    exact plain part (by rw [split, kept]; exact inside)

structure CanonicalNames where
  names : Set String
  output : ∀ name ∈ names, hasPrefix "output/" name = true
  normal : ∀ name ∈ names, normalize name = some name
  noMeta : ∀ name ∈ names, name ++ ".meta" ∉ names

namespace CanonicalNames

variable (files : CanonicalNames)

theorem plain (name : String) (member : name ∈ files.names) : Plain name := by
  refine normal_plain (files.normal name member) ?_
  rintro rfl
  have output := files.output "." member
  revert output
  decide

theorem path_injective (rootDir left right : String) (member : left ∈ files.names) (other : right ∈ files.names)
    (same : join rootDir left = join rootDir right) : left = right :=
  join_injective (files.plain left member) (files.plain right other) same

theorem meta_apart (rootDir name other : String) (member : name ∈ files.names) (another : other ∈ files.names) :
    join rootDir other ≠ join rootDir (name ++ ".meta") := by
  intro same
  have equal := join_injective (files.plain other another)
    (plain_suffix ".meta" (files.plain name member) (by decide) (by decide)) same
  exact files.noMeta name member (equal ▸ another)

theorem call_name (call : Call) (member : call.filename ∈ files.names) :
    call.name = call.filename ∧ call.primeKey = call.filename :=
  call.name_normal (files.normal _ member)

end CanonicalNames

structure Tally where
  server : Server
  sums : String → List UInt64

namespace Tally

def after (t : Tally) : Rpc → String → List UInt64
  | .create req =>
      match normalize req.filename with
      | none => t.sums
      | some safe => Function.update t.sums safe []
  | .delete req =>
      match normalize req.filename with
      | none => t.sums
      | some safe => Function.update t.sums safe []
  | .close req =>
      match t.server.files.lookup req.fd with
      | none => t.sums
      | some found =>
          if req.dirty then
            Function.update t.sums found.filename (t.sums found.filename ++ parseNumbers req.data)
          else t.sums
  | _ => t.sums

theorem after_close (t : Tally) (req : DataRequest) (found : FileMeta)
    (present : t.server.files.lookup req.fd = some found) :
    t.after (.close req) =
      if req.dirty then Function.update t.sums found.filename (t.sums found.filename ++ parseNumbers req.data)
      else t.sums := by
  unfold after
  dsimp only
  rw [present]

def step [LogCodec] (t : Tally) (delivery : Delivery) : Option Tally :=
  match t.server.serve delivery.env delivery.rpc with
  | .returned next (.ok _) _ => some ⟨next, t.after delivery.rpc⟩
  | .returned next (.error _) _ => some ⟨next, t.sums⟩
  | _ => none

end Tally

structure Env.Healthy (env : Env) : Prop where
  persist : env.persist = .done
  apply : ∀ position, env.apply position = .ok
  saveMeta : env.saveMeta = .done
  mkdir : env.mkdir = true
  openFile : env.openFile = true
  remove : env.remove = true

namespace Server

def ClosesReplicated (env : Env) (s : Server) (req : DataRequest) : Prop :=
  ∀ call ready, s.Enters .close env req call ready → ready.Replicated env .close

structure Tallied (s : Server) (name : String) (numbers : List UInt64) : Prop where
  listed : s.bytes name ≠ none → name ∈ s.table
  content : ∀ content, s.bytes name = some content → Exact content (s.primeSet name)
  absent : s.tree.find (s.path name) = none → ∀ number, number ∉ s.primeSet name
  sums : ∀ number, number ∈ s.primeSet name ↔ number ∈ numbers

theorem tallied_frame (s next : Server) (name : String) (numbers : List UInt64) (tallied : s.Tallied name numbers)
    (root : next.rootDir = s.rootDir) (primes : next.primeSet name = s.primeSet name)
    (table : name ∈ s.table → name ∈ next.table)
    (same : ∀ content, next.tree.find (s.path name) = some (.file content) ↔
      s.tree.find (s.path name) = some (.file content))
    (kept : next.tree.find (s.path name) = none → s.tree.find (s.path name) = none) :
    next.Tallied name numbers := by
  have path := Server.path_of_root root name
  have bytes : next.bytes name = s.bytes name := s.bytes_of_files next root name same
  refine ⟨?_, ?_, ?_, ?_⟩
  · rw [bytes]
    exact fun present => table (tallied.listed present)
  · rw [bytes, primes]
    exact tallied.content
  · rw [path, primes]
    exact fun absent => tallied.absent (kept absent)
  · rw [primes]
    exact tallied.sums

theorem tallied_empty (s : Server) (name : String) (nothing : ∀ number, number ∉ s.primeSet name)
    (listed : s.bytes name ≠ none → name ∈ s.table) (empty : ∀ content, s.bytes name = some content → content = []) :
    s.Tallied name [] := by
  refine ⟨listed, fun content present => ?_, fun _ => nothing, fun number => ?_⟩
  · rw [empty content present]
    exact ⟨List.nodup_nil, fun number => by simpa using nothing number⟩
  · simpa using nothing number

end Server

structure Balanced (files : CanonicalNames) (t : Tally) : Prop where
  applied : t.server.lastApplied = t.server.log.length
  opened : ∀ fd found, t.server.files.lookup fd = some found → found.filename ∈ files.names ∧
    ∀ client state, found.clients.lookup client = some state → state.mode = .write →
      t.server.tree.find (t.server.path found.filename).dropLast = some .dir
  tallied : ∀ name ∈ files.names, t.server.Tallied name (t.sums name)

namespace Server

variable (files : CanonicalNames)

theorem parent_of_bytes {name : String} (content : Bytes) (present : s.bytes name = some content) :
    s.tree.find (s.path name).dropLast = some .dir := by
  rw [bytes_eq] at present
  refine s.tree.find_dropLast _ ?_ (by simp [present])
  intro root
  rw [root] at present
  cases present

theorem balanced_create (healthy : env.Healthy)
    (balanced : Balanced files ⟨s, sums⟩) {req : CreateRequest} (member : safe ∈ files.names)
    (named : normalize req.filename = some safe) (fresh : s.cached req.requestId env.start = none)
    (handled : s.create env req = .returned next answer sent) :
    (∀ status, answer = .error status → Balanced files ⟨next, sums⟩) ∧
      ∀ response, answer = .ok response → Balanced files ⟨next, Function.update sums safe []⟩ := by
  rcases create_outcome named fresh handled with
    ⟨rfl, status, rfl⟩ | ⟨outcome, listed⟩
  · exact ⟨fun _ _ => balanced, by rintro _ ⟨⟩⟩
  · cases outcome with
    | abandoned status table tree made left adds grows =>
      rw [healthy.remove] at left
      cases left
    | refused status table tree made same grows =>
      subst made
      refine ⟨fun _ _ => ⟨balanced.applied, fun fd found present => ?_, fun name inside => ?_⟩, by rintro _ ⟨⟩⟩
      · obtain ⟨inside, parent⟩ := balanced.opened fd found present
        exact ⟨inside, fun client state registered write => grows.dirs _ (parent client state registered write)⟩
      · exact tallied_frame s _ name _ (balanced.tallied name inside) rfl rfl
          (fun old => (listed name).mpr (.inr old)) (same _) (grows.kept _)
    | created response table tree requests openMap fd opened made own adds grows =>
      subst made
      have file : tree.find (s.path safe) = some (.file []) := (adds.2 _ []).mpr (by rw [if_pos rfl])
      refine ⟨by rintro _ ⟨⟩, fun _ _ => ⟨balanced.applied, fun key found present => ?_, fun name inside => ?_⟩⟩
      · rcases opened_insert present with rfl | old
        · refine ⟨own ▸ member, fun _ _ _ _ => ?_⟩
          rw [own]
          exact parent_of_bytes [] ((bytes_eq ..).mpr file)
        · obtain ⟨inside, parent⟩ := balanced.opened key found old
          exact ⟨inside, fun client state registered write => grows.dirs _ (parent client state registered write)⟩
      · have before := balanced.tallied name inside
        dsimp only at before ⊢
        by_cases same : name = safe
        · subst same
          rw [Function.update_self]
          refine tallied_empty _ name (before.absent adds.1) (fun _ => (listed name).mpr (.inl rfl)) ?_
          intro content present
          have found := (bytes_eq ..).mp present
          exact (FileTree.Node.file.inj (Option.some.inj (file.symm.trans found))).symm
        · rw [Function.update_of_ne same]
          refine tallied_frame s _ name _ before rfl rfl (fun old => (listed name).mpr (.inr old)) ?_ (grows.kept _)
          intro content
          have other : s.path name ≠ s.path safe := fun equal =>
            same (files.path_injective s.rootDir name safe inside member equal)
          rw [adds.2 _ content, if_neg other]

theorem balanced_open (balanced : Balanced files ⟨s, sums⟩) {req : FileRequest} (member : req.filename ∈ files.names)
    (handled : s.openFile env req = .returned next answer sent) : Balanced files ⟨next, sums⟩ := by
  have listed := openFile_listed handled
  rcases openFile_cases handled with rfl | ⟨safe, named, effect⟩
  · exact balanced
  · obtain rfl : req.filename = safe := Option.some.inj ((files.normal _ member).symm.trans named)
    obtain ⟨table, requests, openMap, nextFD, metas, rfl, effect⟩ := effect
    refine ⟨balanced.applied, fun key found present => ?_, fun name inside => ?_⟩
    · rcases effect with rfl | ⟨fd, opened, rfl, own, regular⟩
      · exact balanced.opened key found present
      · rcases opened_insert present with rfl | old
        · refine ⟨own ▸ member, fun client state registered write => ?_⟩
          obtain ⟨content, holds⟩ := regular client state registered write
          rw [own]
          exact parent_of_bytes content holds
        · exact balanced.opened key found old
    · exact tallied_frame s _ name _ (balanced.tallied name inside) rfl rfl (listed name) (fun _ => Iff.rfl)
        fun absent => absent

theorem balanced_delete (balanced : Balanced files ⟨s, sums⟩) {req : DeleteRequest} (member : safe ∈ files.names)
    (named : normalize req.filename = some safe) (fresh : s.cached req.requestId env.start = none)
    (handled : s.delete env req = .returned next answer sent) :
    (∀ status, answer = .error status → Balanced files ⟨next, sums⟩) ∧
      ∀ response, answer = .ok response → Balanced files ⟨next, Function.update sums safe []⟩ := by
  cases delete_outcome named fresh handled with
  | refused status table made listed =>
    subst made
    refine ⟨fun _ _ => ⟨balanced.applied, balanced.opened, fun name inside => ?_⟩, by rintro _ ⟨⟩⟩
    exact tallied_frame s _ name _ (balanced.tallied name inside) rfl rfl (listed name).mpr (fun _ => Iff.rfl)
      fun absent => absent
  | gone response requests made absent =>
    subst made
    refine ⟨by rintro _ ⟨⟩, fun _ _ => ⟨balanced.applied, balanced.opened, fun name inside => ?_⟩⟩
    have before := balanced.tallied name inside
    dsimp only at before ⊢
    by_cases same : name = safe
    · subst same
      rw [Function.update_self]
      have missing : s.tree.find (s.path name) = none := by
        rcases absent with missing | ⟨unlisted, leaf⟩
        · exact missing
        · cases found : s.tree.find (s.path name) with
          | none => rfl
          | some node =>
            cases node with
            | dir => exact absurd found leaf
            | file content =>
              have present := (bytes_eq s name content).mpr found
              exact absurd (before.listed (by simp [present])) unlisted
      have nothing : s.bytes name = none := by simp [bytes, readFile, missing]
      refine tallied_empty _ name (before.absent missing) (fun present => absurd nothing present) ?_
      intro content present
      exact absurd (nothing.symm.trans present) (by simp)
    · rw [Function.update_of_ne same]
      exact tallied_frame s _ name _ before rfl rfl (fun old => old) (fun _ => Iff.rfl) fun absent => absent
  | removed response requests table tree made leaf removes listed =>
    subst made
    have found := fun target => FileTree.Tree.find_remove target removes
    refine ⟨by rintro _ ⟨⟩, fun _ _ => ⟨balanced.applied, fun fd file present => ?_, fun name inside => ?_⟩⟩
    · obtain ⟨inside, parent⟩ := balanced.opened fd file present
      refine ⟨inside, fun client state registered write => ?_⟩
      have dir : s.tree.find (s.path file.filename).dropLast = some .dir := parent client state registered write
      have kept : tree.find (s.path file.filename).dropLast = some .dir := by
        rw [found, if_neg, dir]
        exact fun same => leaf (same ▸ dir)
      exact kept
    · have before := balanced.tallied name inside
      dsimp only at before ⊢
      by_cases same : name = safe
      · subst same
        rw [Function.update_self]
        have nothing : bytes { s with
            requests := requests, table := table, tree := tree, filesPrimes := s.filesPrimes.erase name } name =
              none := by
          have missing : tree.find (s.path name) = none := by rw [found, if_pos rfl]
          unfold bytes readFile
          split
          · rename_i found
            cases missing.symm.trans found
          · rfl
        refine tallied_empty _ name ?_ (fun present => absurd nothing present) ?_
        · intro number inside
          simp [primeSet] at inside
        · intro content present
          exact absurd (nothing.symm.trans present) (by simp)
      · rw [Function.update_of_ne same]
        have other : s.path name ≠ s.path safe := fun equal =>
          same (files.path_injective s.rootDir name safe inside member equal)
        have here : tree.find (s.path name) = s.tree.find (s.path name) := by rw [found, if_neg other]
        refine tallied_frame s _ name _ before rfl ?_ (fun old => (listed name).mpr ⟨same, old⟩) ?_ ?_
        · simp [primeSet, AList.lookup_erase_ne same]
        · intro content
          rw [here]
        · rw [here]
          exact fun absent => absent

theorem mem_finishCall (env : Env) (s : Server) (call : Call) (name : String) :
    name ∈ (s.finishCall env call).1.table ↔ name ∈ s.table := by
  have bumped : name ∈ (s.bumpVersion env call).table ↔ name ∈ s.table := by
    unfold bumpVersion
    split_ifs
    · exact s.mem_setEntry call.name name _
    · rfl
  rw [finishCall_table_eq, bumped]

theorem finishCall_grows (env : Env) (s : Server) (call : Call) : Enlarges s.tree (s.finishCall env call).1.tree := by
  obtain ⟨table, tree, bumped, saved⟩ := s.bumpVersion_eq env call
  rw [finishCall_tree_eq, bumped]
  rcases saved with rfl | ⟨data, rfl⟩
  · exact .refl s.tree
  · exact grows_osWriteFile env.saveMeta s.tree _ data

theorem commitEntry_alone (io : Nat → ApplyIO)
    (caughtUp : s.lastApplied = s.log.length) (entry : LogEntry) (logFile : Bytes)
    (index : entry.index = s.log.length + 1) :
    commitEntry io { s with log := s.log ++ [entry], logFile := logFile } entry =
      { s with
        log := s.log ++ [entry]
        logFile := logFile
        commitIndex := s.log.length + 1
        lastApplied := s.log.length + 1
        tree := applyTree (io s.log.length) s.rootDir entry s.tree } := by
  have pending := pending_commit (Nat.le_of_eq caughtUp) logFile index
  have nothing : s.unapplied = [] := by rw [unapplied, caughtUp, List.drop_length]
  have position : entry.index.toNat = s.log.length + 1 := by omega
  rw [nothing, List.nil_append, position] at pending
  rw [commitEntry_eq, position]
  have reached : max s.lastApplied (min (s.log.length + 1) (s.log ++ [entry]).length) = s.log.length + 1 := by
    rw [List.length_append, List.length_singleton]
    omega
  simp only [applied, pending, applyAll, reached]
  rw [caughtUp]

theorem committed_close (env : Env) (s : Server)
    (caughtUp : s.lastApplied = s.log.length) (call : Call) (close : call.kind = .close) (logFile : Bytes) :
    committed env s call logFile =
      ({ s with
          log := s.log ++ [s.logEntry call (s.content env.range call) s.log.length]
          logFile := logFile
          commitIndex := s.log.length + 1
          lastApplied := s.log.length + 1
          tree := applyTree (env.apply s.log.length) s.rootDir
            (s.logEntry call (s.content env.range call) s.log.length) s.tree
          filesPrimes := s.filesPrimes.insert call.primeKey (s.tempPrimeSet call).2 }, none) := by
  unfold committed
  dsimp only
  rw [commitEntry_alone env.apply caughtUp _ logFile rfl]
  simp only [updatePrimes, close, setPrimes]

theorem applyTree_into (rootDir : String) (entry : LogEntry) (tree : Tree) (write : entry.op = "WRITE")
    (parent : tree.find (join rootDir entry.filename).dropLast = some .dir) :
    (applyTree .ok rootDir entry tree).find (join rootDir entry.filename) = some (.file entry.content) ∨
      tree.find (join rootDir entry.filename) = some .dir := by
  have made := FileTree.Tree.mkdirAll_dir parent
  by_cases leaf : tree.find (join rootDir entry.filename) = some .dir
  · exact .inr leaf
  · obtain ⟨next, written⟩ := tree.writeFile_into _ entry.content parent leaf
    simp [applyTree, write, ApplyIO.ok, made, osWriteFile, written, FileTree.Tree.find_writeFile _ written]

structure Closed (s next : Server) (name : String) (content : Bytes) (primes : FilePrimeSet) : Prop where
  rootDir : next.rootDir = s.rootDir
  applied : next.lastApplied = next.log.length
  files : ∀ fd found, next.files.lookup fd = some found → ∃ old, s.files.lookup fd = some old ∧
    found.filename = old.filename ∧
      ∀ client state, found.clients.lookup client = some state → old.clients.lookup client = some state
  table : ∀ other, other ∈ next.table ↔ other = name ∨ other ∈ s.table
  primes : ∀ other, next.primeSet other = if other = name then primes else s.primeSet other
  grows : Enlarges s.tree next.tree
  own : next.tree.find (s.path name) = some (.file content) ∨ next.tree.find (s.path name) = some .dir
  others : ∀ path, path ≠ s.path name → path ≠ s.path (name ++ ".meta") → ∀ held,
    next.tree.find path = some (.file held) ↔ s.tree.find path = some (.file held)

theorem closed_committed (env : Env) (healthy : env.Healthy) (s : Server) (caughtUp : s.lastApplied = s.log.length)
    (call : Call) (close : call.kind = .close) (named : call.name = call.filename) (keyed : call.primeKey = call.filename)
    (apart : s.path call.filename ≠ s.path (call.filename ++ ".meta"))
    (parent : s.tree.find (s.path call.filename).dropLast = some .dir) (listed : call.name ∈ s.table) (logFile : Bytes) :
    Closed s (((committed env s call logFile).1.finishCall env call).1.releaseWrite call.name) call.filename
      (s.content env.range call) (s.tempPrimeSet call).2 := by
  rw [committed_close env s caughtUp call close logFile, healthy.apply]
  generalize at_ : { s with
      log := s.log ++ [s.logEntry call (s.content env.range call) s.log.length]
      logFile := logFile
      commitIndex := s.log.length + 1
      lastApplied := s.log.length + 1
      tree := applyTree .ok s.rootDir (s.logEntry call (s.content env.range call) s.log.length) s.tree
      filesPrimes := s.filesPrimes.insert call.primeKey (s.tempPrimeSet call).2 } = after
  have keeps := after.finishCall_keeps env call
  have path (name : String) : after.path name = s.path name := by rw [← at_]; rfl
  have tree : after.tree =
      applyTree .ok s.rootDir (s.logEntry call (s.content env.range call) s.log.length) s.tree := by rw [← at_]
  have own := applyTree_into s.rootDir (s.logEntry call (s.content env.range call) s.log.length) s.tree rfl
    (by rw [logEntry, named]; exact parent)
  have filed : join s.rootDir (s.logEntry call (s.content env.range call) s.log.length).filename =
      s.path call.filename := by rw [logEntry, named]; rfl
  rw [filed, ← tree] at own
  have applied : after.lastApplied = after.log.length := by rw [← at_, List.length_append]; rfl
  have stays (target : Path) (other : target ≠ s.path (call.filename ++ ".meta")) :
      (after.finishCall env call).1.tree.find target = after.tree.find target :=
    after.finishCall_tree env call target (by rw [path, named]; exact other)
  have members (other : String) : other ∈ after.table ↔ other ∈ s.table := by rw [← at_]
  have sets (other : String) : after.primeSet other =
      if other = call.filename then (s.tempPrimeSet call).2 else s.primeSet other := by
    rw [← at_, primeSet, keyed]
    split_ifs with same
    · rw [same, AList.lookup_insert, Option.getD_some]
    · rw [AList.lookup_insert_ne same]
      rfl
  have root : after.rootDir = s.rootDir := by rw [← at_]
  have descriptors : after.files = s.files := by rw [← at_]
  obtain ⟨released, freed⟩ := releaseWrite_eq (after.finishCall env call).1 call.name
  have unlocked := mem_releaseWrite (after.finishCall env call).1 call.name
  rw [freed] at unlocked ⊢
  refine ⟨keeps.rootDir.trans root, ?_, ?_, ?_, ?_, ?_, ?_, ?_⟩
  · exact keeps.lastApplied.trans (applied.trans (congrArg List.length keeps.log).symm)
  · intro fd found present
    rw [← descriptors]
    exact after.finishCall_clients env call fd found present
  · intro other
    refine (unlocked other).trans ((mem_finishCall env after call other).trans ((members other).trans ?_))
    exact ⟨.inr, fun either => either.elim (fun same => by rw [same, ← named]; exact listed) fun old => old⟩
  · intro other
    obtain ⟨table, tree, metas, requests, same⟩ := after.finishCall_eq env call
    rw [same]
    exact sets other
  · refine .trans ?_ (after.finishCall_grows env call)
    rw [tree]
    exact grows_applyTree ..
  · dsimp only
    rw [stays _ apart]
    refine own.imp_right fun dir => ?_
    rw [tree]
    exact (grows_applyTree ..).dirs _ dir
  · intro target outside other held
    rw [stays target other, tree]
    exact applyTree_other _ s.rootDir _ s.tree target held (filed ▸ outside)

theorem balanced_closed (s next : Server) (sums : String → List UInt64) (balanced : Balanced files ⟨s, sums⟩)
    (call : Call) (member : call.filename ∈ files.names) (keyed : call.primeKey = call.filename) (range : RangeOrder)
    (close : call.kind = .close) (closed : Closed s next call.filename (s.content range call) (s.tempPrimeSet call).2) :
    Balanced files ⟨next, Function.update sums call.filename (sums call.filename ++ parseNumbers call.req.data)⟩ := by
  have path := Server.path_of_root closed.rootDir
  refine ⟨closed.applied, fun fd found present => ?_, fun name inside => ?_⟩
  · obtain ⟨old, before, named, kept⟩ := closed.files fd found present
    obtain ⟨inside, parent⟩ := balanced.opened fd old before
    rw [named]
    refine ⟨inside, fun client state registered write => ?_⟩
    rw [path]
    exact closed.grows.dirs _ (parent client state (kept client state registered) write)
  · have before := balanced.tallied name inside
    dsimp only at before ⊢
    by_cases same : name = call.filename
    · subst same
      have own := closed.primes call.filename
      rw [if_pos rfl] at own
      rw [Function.update_self]
      refine ⟨fun _ => (closed.table _).mpr (.inl rfl), fun content present => ?_, fun absent => ?_, fun number => ?_⟩
      · rw [bytes_eq, path] at present
        rcases closed.own with file | dir
        · rw [file, Option.some.injEq, FileTree.Node.file.injEq] at present
          rw [own, ← present, Server.content, close]
          exact exact_render range _
        · rw [dir] at present
          cases present
      · rw [path] at absent
        rcases closed.own with file | dir
        · rw [file] at absent
          cases absent
        · rw [dir] at absent
          cases absent
      · rw [own, tempPrimeSet, mem_filterUniquePrimes_set, keyed, before.sums, List.mem_append]
    · rw [Function.update_of_ne same]
      have primes := closed.primes name
      rw [if_neg same] at primes
      refine tallied_frame s next name _ before closed.rootDir primes
        (fun old => (closed.table name).mpr (.inr old)) (closed.others _ ?_ ?_) (closed.grows.kept _)
      · exact fun equal => same (files.path_injective s.rootDir name _ inside member equal)
      · exact files.meta_apart s.rootDir _ name member inside

variable [LogCodec]

theorem close_error {req : DataRequest} {status : Status}
    (handled : s.close env req = .returned next (.error status) sent) :
    next = s ∨ s.cachedCall .close req.requestId env.start = none := by
  cases hit : s.cachedCall .close req.requestId env.start with
  | none => exact .inr rfl
  | some cached =>
    left
    unfold close handleCall beginCall at handled
    rw [hit] at handled
    cases leads : s.notLeader with
    | some status =>
      rw [leads] at handled
      cases handled
      rfl
    | none =>
      rw [leads] at handled
      cases cached <;> cases handled

theorem balanced_close (env : Env) (healthy : env.Healthy) (s next : Server) (sums : String → List UInt64)
    (balanced : Balanced files ⟨s, sums⟩) (req : DataRequest) (replicated : s.ClosesReplicated env req)
    (answer : Except Status Response) (sent : List AppendEntriesRequest)
    (fresh : s.cachedCall .close req.requestId env.start = none)
    (handled : s.close env req = .returned next answer sent) :
    (∀ status, answer = .error status → next.tree = s.tree ∧ next.filesPrimes = s.filesPrimes ∧
        Balanced files ⟨next, sums⟩) ∧
      ∀ response, answer = .ok response → Balanced files ⟨next, Tally.after ⟨s, sums⟩ (.close req)⟩ := by
  cases handleCall_outcome .close env s next req answer sent fresh handled with
  | rejected status table made listed idle =>
    subst made
    refine ⟨fun _ _ => ⟨rfl, rfl, balanced.applied, balanced.opened, fun name inside => ?_⟩, by rintro _ ⟨⟩⟩
    exact tallied_frame s _ name _ (balanced.tallied name inside) rfl rfl (listed name) (fun _ => Iff.rfl)
      fun absent => absent
  | clean call table response begun still listed made =>
    obtain ⟨found, client, _, _, present, _, rfl, _⟩ := beginCall_opened .close env.start s _ req call begun
    have keeps := finishCall_keeps env { s with table := table } ⟨.close, req, found.filename, client.mode⟩
    have tree := finishCall_clean env { s with table := table } ⟨.close, req, found.filename, client.mode⟩ still
    have unchanged : Tally.after ⟨s, sums⟩ (.close req) = sums := by
      rw [Tally.after_close ⟨s, sums⟩ req found present, if_neg (by simp [still])]
    rw [unchanged, made]
    refine ⟨by rintro _ ⟨⟩, fun _ _ => ⟨?_, fun fd other opened => ?_, fun name inside => ?_⟩⟩
    · dsimp only
      rw [keeps.lastApplied, keeps.log]
      exact balanced.applied
    · obtain ⟨old, before, named, kept⟩ := finishCall_clients env { s with table := table } _ fd other opened
      obtain ⟨inside, parent⟩ := balanced.opened fd old before
      rw [named]
      refine ⟨inside, fun client state registered write => ?_⟩
      rw [tree, path, keeps.rootDir]
      exact parent client state (kept client state registered) write
    · have primes : (finishCall env { s with table := table } ⟨.close, req, found.filename, client.mode⟩).1.primeSet
          name = s.primeSet name := by
        obtain ⟨_, _, _, _, same⟩ := finishCall_eq env { s with table := table }
          ⟨.close, req, found.filename, client.mode⟩
        rw [same]
        rfl
      refine tallied_frame s _ name _ (balanced.tallied name inside) keeps.rootDir primes ?_ ?_ ?_
      · exact fun old => (mem_finishCall env _ _ name).mpr (listed name old)
      · exact fun content => by rw [tree]
      · rw [tree]
        exact fun absent => absent
  | failed call ready logFile status _ enters missed => exact absurd (replicated call ready enters) missed
  | broken call ready logFile status _ enters _ _ stopped =>
    obtain ⟨found, client, table, _, _, _, _, _, rfl, rfl⟩ := enters_eq .close env s ready req call enters
    cases stopped
  | done call ready logFile response enters _ _ _ made =>
    have listed := enters_listed .close env s ready req call enters
    obtain ⟨found, client, table, _, present, registered, mode, dirty, rfl, rfl⟩ :=
      enters_eq .close env s ready req call enters
    obtain ⟨member, parent⟩ := balanced.opened _ found present
    obtain ⟨named, keyed⟩ := files.call_name ⟨.close, req, found.filename, client.mode⟩ member
    have ready : Balanced files ⟨{ s with table := table }, sums⟩ :=
      ⟨balanced.applied, balanced.opened, fun name inside => tallied_frame s _ name _
        (balanced.tallied name inside) rfl rfl (fun old => (listed name).mpr (.inr old)) (fun _ => Iff.rfl)
        fun absent => absent⟩
    have closed := closed_committed env healthy { s with table := table } balanced.applied
      ⟨.close, req, found.filename, client.mode⟩ rfl named keyed
      (files.meta_apart s.rootDir found.filename found.filename member member)
      (parent _ client registered mode) ((listed _).mpr (.inl rfl)) logFile
    have sums_after : Tally.after ⟨s, sums⟩ (.close req) =
        Function.update sums found.filename (sums found.filename ++ parseNumbers req.data) := by
      rw [Tally.after_close ⟨s, sums⟩ req found present, if_pos dirty]
    rw [sums_after, made]
    exact ⟨by rintro _ ⟨⟩, fun _ _ => balanced_closed files _ _ sums ready
      ⟨.close, req, found.filename, client.mode⟩ member keyed env.range rfl closed⟩

end Server

section Run

variable [LogCodec]

theorem Tally.step_returned (t next : Tally) (delivery : Delivery) (stepped : t.step delivery = some next) :
    ∃ answer sent, t.server.serve delivery.env delivery.rpc = .returned next.server answer sent ∧
      ((∃ response, answer = .ok response ∧ next = ⟨next.server, t.after delivery.rpc⟩) ∨
        ∃ status, answer = .error status ∧ next = ⟨next.server, t.sums⟩) := by
  unfold Tally.step at stepped
  split at stepped
  case h_1 server response sent handled =>
    cases stepped
    exact ⟨_, sent, handled, .inl ⟨response, rfl, rfl⟩⟩
  case h_2 server status sent handled =>
    cases stepped
    exact ⟨_, sent, handled, .inr ⟨status, rfl, rfl⟩⟩
  case h_3 => cases stepped

def Smooth (files : CanonicalNames) (t : Tally) (delivery : Delivery) : Prop :=
  delivery.env.Healthy ∧
    match delivery.rpc with
    | .create req => req.filename ∈ files.names
    | .openFile req => req.filename ∈ files.names
    | .delete req => req.filename ∈ files.names
    | .close req => t.server.ClosesReplicated delivery.env req
    | .write _ => False

omit [LogCodec] in
theorem cached_of_fresh {requestId : String} (now : Time) (fresh : requestId ∉ s.requests) :
    s.cached requestId now = none ∧ s.cachedCall .close requestId now = none := by
  have missed : s.cached requestId now = none := by rw [Server.cached, AList.lookup_eq_none.mpr fresh]
  exact ⟨missed, by simp [Server.cachedCall, missed]⟩

omit [LogCodec] in
theorem Tally.after_named (t : Tally) {filename : String} (normal : normalize filename = some safe) :
    (∀ req : CreateRequest, req.filename = filename → t.after (.create req) = Function.update t.sums safe []) ∧
      ∀ req : DeleteRequest, req.filename = filename → t.after (.delete req) = Function.update t.sums safe [] := by
  refine ⟨fun req same => ?_, fun req same => ?_⟩
  all_goals
    subst same
    unfold Tally.after
    dsimp only
    rw [normal]

variable {delivery : Delivery}

theorem balanced_step {files : CanonicalNames} {t next : Tally} (balanced : Balanced files t)
    (smooth : Smooth files t delivery) (fresh : delivery.rpc.requestId ∉ t.server.requests)
    (stepped : t.step delivery = some next) : Balanced files next := by
  obtain ⟨answer, sent, handled, answered⟩ := t.step_returned next delivery stepped
  obtain ⟨env, rpc⟩ := delivery
  obtain ⟨healthy, named⟩ := smooth
  obtain ⟨missed, uncached⟩ := cached_of_fresh env.start fresh
  cases rpc with
  | create req =>
    have normal := files.normal _ named
    obtain ⟨failed, passed⟩ := Server.balanced_create files healthy balanced named
       normal missed handled
    rcases answered with ⟨response, same, after⟩ | ⟨status, same, after⟩
    · rw [after, (t.after_named normal).1 req rfl]
      exact passed response same
    · rw [after]
      exact failed status same
  | openFile req =>
    have opened := Server.balanced_open files balanced named handled
    rcases answered with ⟨_, _, after⟩ | ⟨_, _, after⟩ <;> (rw [after]; exact opened)
  | delete req =>
    have normal := files.normal _ named
    obtain ⟨failed, passed⟩ := Server.balanced_delete files balanced named
       normal missed handled
    rcases answered with ⟨response, same, after⟩ | ⟨status, same, after⟩
    · rw [after, (t.after_named normal).2 req rfl]
      exact passed response same
    · rw [after]
      exact failed status same
  | close req =>
    obtain ⟨failed, passed⟩ := Server.balanced_close files env healthy t.server next.server t.sums balanced req named
      answer sent uncached handled
    rcases answered with ⟨response, same, after⟩ | ⟨status, same, after⟩
    · rw [after]
      exact passed response same
    · rw [after]
      exact (failed status same).2.2
  | write req => exact named.elim

structure FreshPrimary (s : Server) : Prop where
  role : s.role = .primary
  log : s.log = []
  applied : s.lastApplied = 0
  files : s.files = ∅
  requests : s.requests = ∅
  filesPrimes : s.filesPrimes = ∅
  empty : ∀ path content, s.tree.find path ≠ some (.file content)

omit [LogCodec] in
theorem balanced_fresh (files : CanonicalNames) (fresh : FreshPrimary s) : Balanced files ⟨s, fun _ => []⟩ := by
  have nothing (name : String) : s.bytes name = none := by
    rw [Option.eq_none_iff_forall_ne_some]
    intro content present
    exact fresh.empty _ content ((Server.bytes_eq ..).mp present)
  refine ⟨by simp [fresh.applied, fresh.log], fun fd found present => ?_, fun name _ => ?_⟩
  · dsimp only at present
    rw [fresh.files] at present
    cases present
  · refine Server.tallied_empty s name (fun number => ?_) (fun present => absurd (nothing name) present) ?_
    · simp [Server.primeSet, fresh.filesPrimes]
    · intro content present
      rw [nothing name] at present
      cases present

theorem requests_step {t next : Tally} (stepped : t.step delivery = some next) {id : String}
    (present : id ∈ next.server.requests) : id = delivery.rpc.requestId ∨ id ∈ t.server.requests := by
  obtain ⟨answer, sent, handled, _⟩ := t.step_returned next delivery stepped
  rcases Server.serve_recorded handled with ⟨_, _, _, same⟩ | noted
  · exact .inr (same ▸ present)
  · cases noted with
    | stored response fits requests =>
      rw [requests, AList.mem_insert] at present
      exact present
    | failed status requests => exact .inr (requests ▸ present)

theorem files_list_union (files : CanonicalNames) (s : Server) (fresh : FreshPrimary s) (deliveries : List Delivery)
    (ids : (deliveries.map fun delivery => delivery.rpc.requestId).Nodup) (final : Tally)
    (smooth : Transition.Meets Tally.step (Smooth files) ⟨s, fun _ => []⟩ deliveries)
    (reached : Transition.run Tally.step ⟨s, fun _ => []⟩ deliveries = some final) :
    (∀ name ∈ files.names, ∀ content, final.server.bytes name = some content →
      (parseNumbers content).Nodup ∧
        (∀ number, number ∈ parseNumbers content ↔ number ∈ final.server.primeSet name) ∧
        ∀ number, number ∈ parseNumbers content ↔ number ∈ final.sums name) ∧
      ∀ env req next status sent, env.Healthy → final.server.ClosesReplicated env req →
        final.server.close env req = .returned next (.error status) sent →
        next.tree = final.server.tree ∧ next.filesPrimes = final.server.filesPrimes := by
  have invariant := Transition.run_history
    (fun done t => (done.map fun delivery => delivery.rpc.requestId).Nodup → Balanced files t ∧
      ∀ id, id ∈ t.server.requests → id ∈ done.map fun delivery => delivery.rpc.requestId)
    ?_ ?_ deliveries final smooth reached
  · obtain ⟨balanced, _⟩ := invariant ids
    refine ⟨fun name member content present => ?_, fun env req next status sent healthy replicated handled => ?_⟩
    · have tallied := balanced.tallied name member
      obtain ⟨nodup, same⟩ := tallied.content content present
      exact ⟨nodup, same, fun number => (same number).trans (tallied.sums number)⟩
    · rcases Server.close_error handled with rfl | uncached
      · exact ⟨rfl, rfl⟩
      · obtain ⟨tree, primes, _⟩ := (Server.balanced_close files env healthy final.server next final.sums balanced req
          replicated _ sent uncached handled).1 status rfl
        exact ⟨tree, primes⟩
  · intro _
    refine ⟨balanced_fresh files fresh, fun id present => ?_⟩
    dsimp only at present
    rw [fresh.requests] at present
    cases present
  · intro done t delivery next _ before smooth stepped distinct
    rw [List.map_append, List.map_singleton, List.nodup_append] at distinct
    obtain ⟨balanced, known⟩ := before distinct.1
    have unused : delivery.rpc.requestId ∉ t.server.requests := fun present =>
      distinct.2.2 _ (known _ present) _ (by simp) rfl
    refine ⟨balanced_step balanced smooth unused stepped, fun id present => ?_⟩
    rw [List.map_append, List.map_singleton, List.mem_append, List.mem_singleton]
    exact (requests_step stepped present).elim .inr fun old => .inl (known id old)

end Run

theorem Server.closesReplicated_of_count (env : Env) (s : Server) (req : DataRequest) (persisted : env.persist = .done)
    (enough : s.majority .close ≤ Server.ackCount (s.majority .close) 1 env.answers) : s.ClosesReplicated env req := by
  intro call ready enters
  obtain ⟨_, _, table, _, _, _, _, _, _, rfl⟩ := Server.enters_eq .close env s ready req call enters
  exact ⟨persisted, enough⟩

theorem output_a_output : ∀ name ∈ ({"output/a"} : Set String), hasPrefix "output/" name = true := by
  rintro name rfl
  decide

theorem output_a_normal : ∀ name ∈ ({"output/a"} : Set String), normalize name = some name := by
  rintro name rfl
  decide

theorem output_a_noMeta : ∀ name ∈ ({"output/a"} : Set String), name ++ ".meta" ∉ ({"output/a"} : Set String) := by
  rintro name rfl
  change ¬ "output/a" ++ ".meta" = "output/a"
  decide

def canonicalOne : CanonicalNames := ⟨{"output/a"}, output_a_output, output_a_normal, output_a_noMeta⟩

theorem firstPrimary_fresh : FreshPrimary firstPrimary where
  role := by decide +kernel
  log := by decide +kernel
  applied := by decide +kernel
  files := rfl
  requests := rfl
  filesPrimes := rfl
  empty := by
    intro path content present
    have before := (Server.makeDirs_sameFiles _ path content).mp present
    change (FileTree.Tree.empty : Tree).find path = some (.file content) at before
    rw [FileTree.Tree.find_empty] at before
    split_ifs at before
    cases before

def createA : Delivery := ⟨{}, .create ⟨"r1", "output/a", "c", .write⟩⟩

def openA : Delivery := ⟨{}, .openFile ⟨"r3", "output/a", .write, "c"⟩⟩

def closeA (requestId : String) (fd version : Int32) (data : Bytes) : Delivery :=
  ⟨{ answers := [("2", true), ("3", false)] }, .close ⟨requestId, fd, true, version, data, "c"⟩⟩

def unionRun : List Delivery :=
  [createA, closeA "r2" 0 0 [50, 10], openA, closeA "r4" 1 1 [50, 10, 51, 10]]

theorem unionRun_lists_union :
    ∃ final : Tally, Transition.run Tally.step ⟨firstPrimary, fun _ => []⟩ unionRun = some final ∧
      final.server.bytes "output/a" = some [50, 10, 51, 10] ∧
      (∀ number, number ∈ parseNumbers [50, 10, 51, 10] ↔ number ∈ final.server.primeSet "output/a") ∧
      ∀ number, number ∈ parseNumbers [50, 10, 51, 10] ↔ number ∈ final.sums "output/a" := by
  have outcome : (Transition.run Tally.step ⟨firstPrimary, fun _ => []⟩ unionRun).map
      (fun t => t.server.bytes "output/a") = some (some [50, 10, 51, 10]) := by decide +kernel
  obtain ⟨final, reached, holds⟩ := Option.map_eq_some_iff.mp outcome
  have healthy (answers : List (String × Bool)) : Env.Healthy { answers := answers } :=
    ⟨rfl, fun _ => rfl, rfl, rfl, rfl, rfl⟩
  have smooth : Transition.Meets Tally.step (Smooth canonicalOne) ⟨firstPrimary, fun _ => []⟩ unionRun := by
    refine Transition.meets_of_check _ _
      (fun t delivery => decide (t.server.majority .close ≤
        Server.ackCount (t.server.majority .close) 1 [("2", true), ("3", false)])) ?_ (by decide +kernel)
    intro t delivery member enough
    have replicated (requestId : String) (fd version : Int32) (data : Bytes) :=
      Server.closesReplicated_of_count { answers := [("2", true), ("3", false)] } t.server
        ⟨requestId, fd, true, version, data, "c"⟩ rfl (of_decide_eq_true enough)
    simp only [unionRun, List.mem_cons, List.not_mem_nil, or_false] at member
    rcases member with rfl | rfl | rfl | rfl
    · exact ⟨healthy [], rfl⟩
    · exact ⟨healthy _, replicated _ _ _ _⟩
    · exact ⟨healthy [], rfl⟩
    · exact ⟨healthy _, replicated _ _ _ _⟩
  have listed := (files_list_union canonicalOne firstPrimary firstPrimary_fresh unionRun (by decide) final smooth
    reached).1 "output/a" rfl _ holds
  exact ⟨final, reached, holds, listed.2⟩

end Ikkat
