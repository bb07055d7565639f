import Ikkat.CommitPaths
import Ikkat.Names

set_option autoImplicit false

namespace Ikkat

structure Lands (io : ApplyIO) (tree : Tree) (path : Path) : Prop where
  mkdir : io.mkdir = true
  write : io.write = .done
  place : ∃ made, tree.mkdirAll path.dropLast = some made ∧ made.find path.dropLast = some .dir ∧
    made.find path ≠ some .dir

section Apply

variable (io : ApplyIO) (rootDir : String) (entry : LogEntry) (tree : Tree) (writes : entry.op = "WRITE")

include writes

theorem applyTree_lands (lands : Lands io tree (join rootDir entry.filename)) :
    (applyTree io rootDir entry tree).find (join rootDir entry.filename) = some (.file entry.content) := by
  obtain ⟨made, dirs, parent, leaf⟩ := lands.place
  obtain ⟨next, written⟩ := made.writeFile_into _ entry.content parent leaf
  simp [applyTree, writes, lands.mkdir, lands.write, dirs, osWriteFile, written, FileTree.Tree.find_writeFile _ written]

theorem lands_of_applyTree
    (present : (applyTree io rootDir entry tree).find (join rootDir entry.filename) = some (.file entry.content)) :
    Lands io tree (join rootDir entry.filename) ∨ tree.find (join rootDir entry.filename) = some (.file entry.content) ∨
      ∃ count, io.write = .cut count ∧ entry.content.length ≤ count := by
  rw [applyTree] at present
  dsimp only at present
  split_ifs at present with mkdir
  · cases dirs : tree.mkdirAll (join rootDir entry.filename).dropLast with
    | none =>
      rw [dirs] at present
      exact .inr (.inl present)
    | some made =>
      have before (held : made.find (join rootDir entry.filename) = some (.file entry.content)) :
          tree.find (join rootDir entry.filename) = some (.file entry.content) :=
        FileTree.Tree.find_mkdirAll_file _ _ dirs held
      rw [dirs] at present
      dsimp only at present
      cases outcome : io.write with
      | refused =>
        rw [outcome] at present
        exact .inr (.inl (before present))
      | done =>
        rw [outcome, osWriteFile] at present
        cases written : made.writeFile (join rootDir entry.filename) entry.content with
        | none =>
          rw [written] at present
          exact .inr (.inl (before present))
        | some next =>
          obtain ⟨parent, leaf⟩ := FileTree.Tree.writeFile_place written
          exact .inl ⟨mkdir, outcome, made, dirs, parent, leaf⟩
      | cut count =>
        rw [outcome, osWriteFile] at present
        cases written : made.writeFile (join rootDir entry.filename) (entry.content.take count) with
        | none =>
          rw [written] at present
          exact .inr (.inl (before present))
        | some next =>
          rw [written, Option.getD_some, FileTree.Tree.find_writeFile _ written, if_pos rfl] at present
          have lengths := congrArg List.length (FileTree.Node.file.inj (Option.some.inj present))
          rw [List.length_take] at lengths
          exact .inr (.inr ⟨count, rfl, by omega⟩)
  · exact .inr (.inl present)

end Apply

namespace Server

theorem close_answered [LogCodec] {env : Env} {s next : Server} {req : DataRequest} {response : Response}
    {sent : List AppendEntriesRequest} {found : FileMeta} (opened : s.files.lookup req.fd = some found)
    (fresh : s.cachedCall .close req.requestId env.start = none) (dirty : req.dirty = true)
    (caughtUp : s.lastApplied = s.log.length) (handled : s.close env req = .returned next (.ok response) sent) :
    ∃ entry : LogEntry, ∃ primes : FilePrimeSet, next.log = s.log ++ [entry] ∧ next.rootDir = s.rootDir ∧
      entry.op = "WRITE" ∧ entry.filename = normalizeQuiet found.filename ∧ entry.content = env.range.render primes ∧
      next.primeSet found.filename = primes ∧
      ∀ path, path ≠ s.path (entry.filename ++ ".meta") →
        next.tree.find path = (applyTree (env.apply s.log.length) s.rootDir entry s.tree).find path := by
  cases handleCall_outcome .close env s next req _ sent fresh handled with
  | clean call table response begun still => rw [dirty] at still; cases still
  | done call ready logFile response enters replicated persisted finished made =>
    obtain ⟨other, client, table, _, there, _, _, _, rfl, rfl⟩ := enters_eq .close env s ready req call enters
    obtain rfl : found = other := Option.some.inj (opened.symm.trans there)
    generalize of : (⟨.close, req, found.filename, client.mode⟩ : Call) = call at made
    have kind : call.kind = .close := by rw [← of]
    have named : call.name = normalizeQuiet found.filename := by rw [← of]; rfl
    have keyed : call.primeKey = found.filename := by rw [← of]; rfl
    let entry := logEntry { s with table := table } call (content env.range { s with table := table } call) s.log.length
    have done := committed_close env { s with table := table } caughtUp call kind logFile
    generalize committed env { s with table := table } call logFile = result at made done
    have ends := result.1.releasedCall_ends env call
    rw [← made, done] at ends
    refine ⟨entry, (tempPrimeSet { s with table := table } call).2, ends.log, ends.rootDir, rfl, named, ?_, ?_, ?_⟩
    · change content env.range { s with table := table } call = _
      rw [content, kind]
    · rw [primeSet, ends.filesPrimes, keyed, AList.lookup_insert]
      rfl
    · exact ends.tree

theorem success_reported_after_write [LogCodec] (env : Env) (s next : Server) (req : DataRequest) (response : Response)
    (sent : List AppendEntriesRequest) (found : FileMeta) (opened : s.files.lookup req.fd = some found)
    (fresh : s.cachedCall .close req.requestId env.start = none) (dirty : req.dirty = true)
    (caughtUp : s.lastApplied = s.log.length)
    (handled : s.close env req = .returned next (.ok response) sent) :
    ∃ entry, next.log = s.log ++ [entry] ∧
      (s.path (normalizeQuiet found.filename) = s.path found.filename →
        Lands (env.apply s.log.length) s.tree (s.path found.filename) →
        next.bytes found.filename = some entry.content ∧ Exact entry.content (next.primeSet found.filename)) ∧
      (s.path (normalizeQuiet found.filename) = s.path found.filename →
        next.bytes found.filename = some entry.content →
        Lands (env.apply s.log.length) s.tree (s.path found.filename) ∨ s.bytes found.filename = some entry.content ∨
          ∃ count, (env.apply s.log.length).write = .cut count ∧ entry.content.length ≤ count) := by
  obtain ⟨entry, primes, log, root, writes, named, text, held, tree⟩ :=
    close_answered opened fresh dirty caughtUp handled
  refine ⟨entry, log, ?_, ?_⟩
  all_goals
    intro same
    have here : s.path found.filename = join s.rootDir entry.filename := by rw [← same, named]; rfl
    have apart : s.path found.filename ≠ s.path (entry.filename ++ ".meta") := by
      rw [here]
      exact (join_suffix_ne s.rootDir entry.filename ".meta" (by decide) (by decide)).symm
    have left := tree _ apart
    have bytes : next.bytes found.filename = some entry.content ↔
        (applyTree (env.apply s.log.length) s.rootDir entry s.tree).find (s.path found.filename) =
          some (.file entry.content) := by
      rw [bytes_eq, path, root, ← left]
      rfl
  · intro lands
    rw [here] at lands bytes
    refine ⟨bytes.mpr (applyTree_lands _ s.rootDir entry s.tree writes lands), ?_⟩
    rw [text, held]
    exact exact_render env.range primes
  · intro present
    rw [bytes_eq, here]
    rw [here] at bytes
    exact lands_of_applyTree _ s.rootDir entry s.tree writes (bytes.mp present)

end Server

def closeWithTwo : DataRequest := ⟨"r3", 0, true, 0, [50, 10], "c"⟩

theorem close_writes_what_it_says :
    ∃ next entry, (firstOpened.close twoAnswers closeWithTwo).answered = some next ∧ next.log = firstOpened.log ++ [entry] ∧
      next.bytes "output/a" = some entry.content ∧ Exact entry.content (next.primeSet "output/a") := by
  have facts : (firstOpened.close twoAnswers closeWithTwo).answered.isSome = true ∧
      (firstOpened.files.lookup 0).map FileMeta.filename = some "output/a" ∧
      firstOpened.cachedCall .close "r3" 0 = none ∧ firstOpened.lastApplied = firstOpened.log.length ∧
      firstOpened.tree.find (firstOpened.path "output/a").dropLast = some .dir ∧
      firstOpened.tree.find (firstOpened.path "output/a") ≠ some .dir ∧
      firstOpened.path (normalizeQuiet "output/a") = firstOpened.path "output/a" := by decide +kernel
  obtain ⟨answers, opened, fresh, caughtUp, parent, leaf, same⟩ := facts
  obtain ⟨next, answered⟩ := Option.isSome_iff_exists.mp answers
  obtain ⟨response, sent, handled⟩ := Result.answered_eq answered
  obtain ⟨found, present, named⟩ := Option.map_eq_some_iff.mp opened
  obtain ⟨entry, log, holds, _⟩ := Server.success_reported_after_write twoAnswers firstOpened next closeWithTwo response sent
    found present fresh rfl caughtUp handled
  rw [named] at holds
  have lands : Lands (twoAnswers.apply firstOpened.log.length) firstOpened.tree (firstOpened.path "output/a") :=
    ⟨rfl, rfl, firstOpened.tree, FileTree.Tree.mkdirAll_dir parent, parent, leaf⟩
  obtain ⟨bytes, exact_⟩ := holds same lands
  exact ⟨next, entry, answered, log, bytes, exact_⟩

def fullDisk : Env := { twoAnswers with apply := fun _ => ⟨true, .refused⟩ }

theorem success_reported_without_write :
    firstOpened.role = .primary ∧ firstOpened.lastApplied = firstOpened.log.length ∧
      ∃ next, (firstOpened.close fullDisk closeWithTwo).answered = some next ∧
        next.log.map LogEntry.content = [[50, 10]] ∧ next.bytes "output/a" = some [] := by
  have outcome : firstOpened.role = .primary ∧ firstOpened.lastApplied = firstOpened.log.length ∧
      (firstOpened.close fullDisk closeWithTwo).answered.map
        (fun next => (next.log.map LogEntry.content, next.bytes "output/a")) = some ([[50, 10]], some []) := by
    decide +kernel
  obtain ⟨primary, caughtUp, answers⟩ := outcome
  obtain ⟨next, answered, same⟩ := Option.map_eq_some_iff.mp answers
  obtain ⟨log, bytes⟩ := Prod.mk.inj same
  exact ⟨primary, caughtUp, next, answered, log, bytes⟩

namespace Server

-- A file beside the ones that a commit under the name `own` writes to: for a Close the file of the name as it
-- normalises it again, and its version file, for a Write the version file and the temporary file.
def Beside (s : Server) (kind : Kind) (own other : String) : Prop :=
  match kind with
  | .close => s.path other ≠ s.path (normalizeQuiet own) ∧ s.path other ≠ s.path (normalizeQuiet own ++ ".meta")
  | .write => s.path other ≠ withSuffix (s.path own) ".tmp" ∧ s.path other ≠ s.path (own ++ ".meta")

theorem committed_beside (env : Env) (s : Server) (call : Call) (logFile : Bytes)
    (caughtUp : s.lastApplied = s.log.length) (other : String) (different : s.path other ≠ s.path call.filename)
    (beside : s.Beside call.kind call.filename other) :
    (committed env s call logFile).1.rootDir = s.rootDir ∧ s.path other ≠ s.path (call.name ++ ".meta") ∧
      Untouched (· = s.path other) s.tree (committed env s call logFile).1.tree := by
  have applied (own : s.path other ≠ s.path call.name) : Untouched (· = s.path other) s.tree
      (applyTree (env.apply s.log.length) s.rootDir (s.logEntry call (s.content env.range call) s.log.length) s.tree) := by
    intro path content inside
    exact applyTree_other _ s.rootDir _ s.tree path content (inside ▸ own)
  unfold committed
  dsimp only
  rw [commitEntry_alone env.apply caughtUp _ logFile rfl]
  have root (s : Server) (primes : FilePrimeSet) : (s.updatePrimes env call primes).1.rootDir = s.rootDir := by
    obtain ⟨_, _, same⟩ := s.updatePrimes_eq env call primes
    rw [same]
  refine ⟨root _ _, ?_⟩
  cases kind : call.kind with
  | close =>
    rw [kind] at beside
    have named : call.name = normalizeQuiet call.filename := by rw [Call.name, kind]
    rw [named]
    refine ⟨beside.2, ?_⟩
    unfold updatePrimes
    rw [kind]
    exact applied (named ▸ beside.1)
  | write =>
    rw [kind] at beside
    have named : call.name = call.filename := by rw [Call.name, kind]
    rw [named]
    exact ⟨beside.2, (applied (named ▸ different)).trans
      (updatePrimes_untouched env _ (Ne.symm different) (Ne.symm beside.1))⟩

def commitLeaves (env : Env) (s : Server) (call : Call) (other : Path) (old : Bytes) : Option Bytes :=
  match call.kind with
  | .close =>
      if other = s.path call.name ∧ (env.apply s.log.length).mkdir then
        some ((env.apply s.log.length).write.over (s.content env.range call) old)
      else some old
  | .write =>
      if other = withSuffix (s.path call.filename) ".tmp" then
        if env.remove then none else some (renderNumbers (s.tempPrimeSet call).1)
      else some old

def callLeaves (env : Env) (s : Server) (call : Call) (other : Path) (old : Bytes) : Option Bytes :=
  if other = s.path (call.name ++ ".meta") then
    some (env.saveMeta.over (Words.integer (call.req.version + 1).toInt) old)
  else s.commitLeaves env call other old

section Left

variable {env : Env} {s : Server} {call : Call} {other : Path} {old : Bytes}

theorem updatePrimes_leaves (write : call.kind = .write) {primes : FilePrimeSet}
    (finished : (s.updatePrimes env call primes).2 = none) (different : other ≠ s.path call.filename)
    (present : s.tree.find other = some (.file old)) :
    (s.updatePrimes env call primes).1.tree.find other = (s.commitLeaves env call other old).map .file := by
  unfold commitLeaves
  rw [write]
  dsimp only
  by_cases tmp : other = withSuffix (s.path call.filename) ".tmp"
  · rw [s.updatePrimes_write env primes write] at finished ⊢
    cases passed : (s.appendUnique env call.filename (s.tempPrimeSet call).1).2 with
    | some status => rw [passed] at finished; cases finished
    | none =>
      rw [if_pos tmp, tmp]
      refine (appendUnique_tmp passed).trans ?_
      split_ifs <;> rfl
  · rw [if_neg tmp]
    have untouched : Untouched (· = other) s.tree (s.updatePrimes env call primes).1.tree :=
      updatePrimes_untouched env primes (Ne.symm different) (Ne.symm tmp)
    exact (untouched other old rfl).mpr present

theorem committed_leaves_other {logFile : Bytes} (caughtUp : s.lastApplied = s.log.length)
    (finished : (committed env s call logFile).2 = none) (different : other ≠ s.path call.filename)
    (present : s.tree.find other = some (.file old)) :
    (committed env s call logFile).1.tree.find other = (s.commitLeaves env call other old).map .file := by
  set entry := s.logEntry call (s.content env.range call) s.log.length with made
  have beside (apart : other ≠ s.path call.name) :
      (applyTree (env.apply s.log.length) s.rootDir entry s.tree).find other = some (.file old) :=
    (applyTree_other _ s.rootDir entry s.tree other old apart).mpr present
  cases kind : call.kind with
  | close =>
    rw [committed_close env s caughtUp call kind logFile, commitLeaves, kind]
    dsimp only
    rw [← made]
    by_cases own : other = s.path call.name
    · have here : other = join s.rootDir entry.filename := own
      rw [here] at present
      have left := applyTree_over (env.apply s.log.length) s.rootDir s.tree old rfl present
      rw [← here] at left
      rw [left, show entry.content = s.content env.range call from rfl]
      split_ifs with works both both
      · rfl
      · exact absurd ⟨own, works⟩ both
      · exact absurd both.2 works
      · rfl
    · rw [if_neg fun both => own both.1]
      exact beside own
  | write =>
    have named : call.name = call.filename := by rw [Call.name, kind]
    have kept := beside (named ▸ different)
    unfold committed at finished ⊢
    dsimp only at finished ⊢
    rw [← made, commitEntry_alone env.apply caughtUp entry logFile rfl] at finished ⊢
    generalize ready : { s with
        log := s.log ++ [entry]
        logFile := logFile
        commitIndex := s.log.length + 1
        lastApplied := s.log.length + 1
        tree := applyTree (env.apply s.log.length) s.rootDir entry s.tree } = after at finished ⊢
    have path : after.path call.filename = s.path call.filename := by rw [← ready]; rfl
    have temp : after.tempPrimeSet call = s.tempPrimeSet call := by rw [← ready]; rfl
    have same : s.commitLeaves env call other old = after.commitLeaves env call other old := by
      simp only [commitLeaves, kind, path, temp]
    rw [same]
    exact updatePrimes_leaves kind finished (path ▸ different) (by rw [← ready]; exact kept)

theorem finishCall_meta (env : Env) (s : Server) (call : Call) (dirty : call.req.dirty = true)
    (listed : call.name ∈ s.table) (present : s.tree.find (s.path (call.name ++ ".meta")) = some (.file old)) :
    (s.finishCall env call).1.tree.find (s.path (call.name ++ ".meta")) =
      some (.file (env.saveMeta.over (Words.integer (s.entryVersion call.name + 1).toInt) old)) := by
  obtain ⟨entry, found⟩ := Option.isSome_iff_exists.mp (AList.lookup_isSome.mpr listed)
  have raised : (s.setEntry call.name fun entry => { entry with version := entry.version + 1 }).entryVersion call.name =
      s.entryVersion call.name + 1 := by
    rw [entryVersion, lookup_setEntry, if_pos rfl, entryVersion, found]
    rfl
  obtain ⟨table, same⟩ := s.setEntry_eq call.name fun entry => { entry with version := entry.version + 1 }
  rw [finishCall_tree_eq, bumpVersion, if_pos dirty]
  dsimp only
  rw [raised, same]
  exact osWriteFile_over env.saveMeta _ present

theorem commitLeaves_meta (env : Env) (s : Server) (call : Call) (old : Bytes) :
    s.commitLeaves env call (s.path (call.name ++ ".meta")) old = some old := by
  have apart : s.path (call.name ++ ".meta") ≠ s.path call.name :=
    join_suffix_ne s.rootDir call.name ".meta" (by decide) (by decide)
  have version : s.path (call.name ++ ".meta") ≠ withSuffix (s.path call.filename) ".tmp" :=
    join_meta_ne_tmp s.rootDir call.name _
  unfold commitLeaves
  cases call.kind with
  | close => exact if_neg fun both => apart both.1
  | write => exact if_neg version

theorem bytes_of_find {name : String} {left : Option Bytes} (found : s.tree.find (s.path name) = left.map .file) :
    s.bytes name = left := by
  unfold bytes readFile
  cases left <;> rw [found] <;> rfl

theorem answered_leaves {name : String} {logFile : Bytes} (caughtUp : s.lastApplied = s.log.length)
    (finished : (committed env s call logFile).2 = none) (different : s.path name ≠ s.path call.filename)
    (present : s.bytes name = some old) (dirty : call.req.dirty = true) (listed : call.name ∈ s.table)
    (current : s.entryVersion call.name = call.req.version) :
    (((committed env s call logFile).1.finishCall env call).1.releaseWrite call.name).bytes name =
      s.callLeaves env call (s.path name) old := by
  have during := committed_leaves_other caughtUp finished different ((s.bytes_eq name old).mp present)
  obtain ⟨_, _, _, _, result⟩ := committed_eq env s call logFile
  generalize (committed env s call logFile).1 = after at during result
  have path (name : String) : after.path name = s.path name := by rw [result]; rfl
  have table : after.table = s.table := by rw [result]
  have ends := after.releasedCall_ends env call
  obtain ⟨_, released⟩ := (after.finishCall env call).1.releaseWrite_eq call.name
  have root : ((after.finishCall env call).1.releaseWrite call.name).path name = s.path name := by
    rw [Server.path, ends.rootDir]
    exact path name
  refine bytes_of_find ?_
  rw [root]
  unfold callLeaves
  split_ifs with version
  · rw [version, commitLeaves_meta] at during
    rw [version, released, ← path]
    have now : after.entryVersion call.name = call.req.version := by
      rw [← current, entryVersion, entryVersion, table]
    rw [finishCall_meta env after call dirty (table ▸ listed) (path _ ▸ during), now, Option.map_some]
  · rw [ends.tree _ (by rwa [path]), during]

end Left

section Answered

variable [LogCodec] {kind : Kind} {env : Env} {s next : Server} {req : DataRequest} {response : Response}
  {sent : List AppendEntriesRequest} {found : FileMeta} (opened : s.files.lookup req.fd = some found)
  (fresh : s.cachedCall kind req.requestId env.start = none) (dirty : req.dirty = true)
  (caughtUp : s.lastApplied = s.log.length) (handled : s.handleCall kind env req = .returned next (.ok response) sent)
  {other : String} (different : s.path other ≠ s.path found.filename)

include opened fresh dirty caughtUp handled different

theorem handleCall_beside (beside : s.Beside kind found.filename other) : next.bytes other = s.bytes other := by
  cases handleCall_outcome kind env s next req _ sent fresh handled with
  | clean call table response begun still => rw [dirty] at still; cases still
  | done call ready logFile response enters replicated persisted finished made =>
    obtain ⟨same, client, table, _, there, _, _, _, rfl, rfl⟩ := enters_eq kind env s ready req call enters
    obtain rfl : found = same := Option.some.inj (opened.symm.trans there)
    obtain ⟨root, version, during⟩ := committed_beside env { s with table := table }
      ⟨kind, req, found.filename, client.mode⟩ logFile caughtUp other different beside
    generalize committed env { s with table := table } ⟨kind, req, found.filename, client.mode⟩ logFile = result
      at made root during
    have outside : s.path other ≠ result.1.path (Call.name ⟨kind, req, found.filename, client.mode⟩ ++ ".meta") := by
      rw [path, path, root]
      exact version
    have ends := result.1.releasedCall_ends env ⟨kind, req, found.filename, client.mode⟩
    rw [← made] at ends
    refine bytes_of_files s next (ends.rootDir.trans root) other fun content => ?_
    rw [ends.tree (s.path other) outside]
    exact during (s.path other) content rfl

theorem handleCall_leaves {old : Bytes} (present : s.bytes other = some old) :
    next.bytes other = s.callLeaves env ⟨kind, req, found.filename, .write⟩ (s.path other) old := by
  cases handleCall_outcome kind env s next req _ sent fresh handled with
  | clean call table response begun still => rw [dirty] at still; cases still
  | done call ready logFile response enters replicated persisted finished made =>
    have listed := (enters_listed kind env s ready req call enters call.name).mpr (.inl rfl)
    have current : ready.entryVersion call.name = call.req.version := by
      obtain ⟨_, _, _, _, _, allowed⟩ := enters
      unfold refusal at allowed
      split_ifs at allowed with _ stale
      exact (not_not.mp stale).symm
    obtain ⟨same, client, table, _, there, _, mode, _, called, readied⟩ := enters_eq kind env s ready req call enters
    obtain rfl : found = same := Option.some.inj (opened.symm.trans there)
    rw [mode] at called
    have path (name : String) : ready.path name = s.path name := by rw [readied]; rfl
    have left := answered_leaves (by rw [readied]; exact caughtUp) finished
      (show ready.path other ≠ ready.path call.filename by rw [path, path, called]; exact different)
      (show ready.bytes other = some old by rw [readied]; exact present) (by rw [called]; exact dirty) listed current
    rw [made, left, path, called, readied]
    rfl

end Answered

-- The three files that a commit writes to besides its own, or removes, are as before only if they held the same bytes.
theorem commit_touches_only_its_own_file [LogCodec] (kind : Kind) (env : Env) (s next : Server) (req : DataRequest)
    (response : Response) (sent : List AppendEntriesRequest) (found : FileMeta)
    (opened : s.files.lookup req.fd = some found) (fresh : s.cachedCall kind req.requestId env.start = none)
    (dirty : req.dirty = true) (caughtUp : s.lastApplied = s.log.length)
    (handled : s.handleCall kind env req = .returned next (.ok response) sent) :
    (∀ other, s.path other ≠ s.path found.filename → s.Beside kind found.filename other →
      next.bytes other = s.bytes other) ∧
    ∀ files : Set String, (∀ other ∈ files, s.bytes other ≠ none) →
      ((∀ other ∈ files, s.path other ≠ s.path found.filename → next.bytes other = s.bytes other) ↔
        ∀ other ∈ files, s.path other ≠ s.path found.filename → s.Beside kind found.filename other ∨
          (s.bytes other).bind (s.callLeaves env ⟨kind, req, found.filename, .write⟩ (s.path other)) = s.bytes other) := by
  refine ⟨fun other different => handleCall_beside opened fresh dirty caughtUp handled different, ?_⟩
  intro files created
  have leaves (other : String) (member : other ∈ files) (different : s.path other ≠ s.path found.filename) :
      next.bytes other = (s.bytes other).bind
        (s.callLeaves env ⟨kind, req, found.filename, .write⟩ (s.path other)) := by
    obtain ⟨old, present⟩ := Option.ne_none_iff_exists'.mp (created other member)
    rw [present]
    exact handleCall_leaves opened fresh dirty caughtUp handled different present
  constructor
  · intro unchanged other member different
    right
    rw [← leaves other member different]
    exact unchanged other member different
  · intro spared other member different
    rcases spared other member different with beside | same
    · exact handleCall_beside opened fresh dirty caughtUp handled different beside
    · rw [leaves other member different, same]

end Server

def secondCreated (name : String) : Option Server :=
  (firstOpened.create {} ⟨"r2", name, "c", .write⟩).answered

theorem other_file_untouched :
    ∃ s next, secondCreated "output/b" = some s ∧ (s.close twoAnswers closeWithTwo).answered = some next ∧
      s.bytes "output/b" = some [] ∧ next.bytes "output/b" = s.bytes "output/b" := by
  have outcome : (secondCreated "output/b").bind (fun s => (s.close twoAnswers closeWithTwo).answered.map fun next =>
      decide ((s.files.lookup 0).map FileMeta.filename = some "output/a" ∧ (s.cachedCall .close "r3" 0).isNone = true ∧
        s.lastApplied = s.log.length ∧ s.rootDir = "storage" ∧ s.bytes "output/b" = some [])) = some true := by
    decide +kernel
  obtain ⟨s, created, rest⟩ := Option.bind_eq_some_iff.mp outcome
  obtain ⟨next, answered, same⟩ := Option.map_eq_some_iff.mp rest
  rw [decide_eq_true_eq, Option.isNone_iff_eq_none] at same
  obtain ⟨named, fresh, caughtUp, root, bytes⟩ := same
  obtain ⟨found, opened, filename⟩ := Option.map_eq_some_iff.mp named
  obtain ⟨response, sent, handled⟩ := Result.answered_eq answered
  have touches := Server.commit_touches_only_its_own_file .close twoAnswers s next closeWithTwo response sent found opened
    fresh rfl caughtUp handled
  refine ⟨s, next, created, answered, bytes, (touches.2 {"output/b"} ?_).mpr ?_ "output/b" rfl ?_⟩
  · rintro _ rfl
    simp [bytes]
  · rintro _ rfl _
    left
    rw [filename]
    simp only [Server.Beside, Server.path, root]
    decide
  · rw [filename, Server.path, Server.path, root]
    decide

-- The version of output/a is written over the file that a client has created under the name output/a.meta.
theorem version_written_over_other_file :
    ∃ s next, secondCreated "output/a.meta" = some s ∧ (s.close twoAnswers closeWithTwo).answered = some next ∧
      s.lastApplied = s.log.length ∧ s.bytes "output/a.meta" = some [] ∧ next.bytes "output/a.meta" = some [49] := by
  have outcome : (secondCreated "output/a.meta").bind (fun s => (s.close twoAnswers closeWithTwo).answered.map fun next =>
      (decide (s.lastApplied = s.log.length), s.bytes "output/a.meta", next.bytes "output/a.meta")) =
      some (true, some [], some [49]) := by
    decide +kernel
  obtain ⟨s, created, rest⟩ := Option.bind_eq_some_iff.mp outcome
  obtain ⟨next, answered, same⟩ := Option.map_eq_some_iff.mp rest
  simp only [Prod.mk.injEq, decide_eq_true_eq] at same
  exact ⟨s, next, created, answered, same⟩

end Ikkat
