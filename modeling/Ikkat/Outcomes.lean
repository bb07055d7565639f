import Ikkat.Rpc

set_option autoImplicit false

namespace Ikkat

variable {env : Env} {answer : Except Status Response} {sent : List AppendEntriesRequest} {path : Path}
variable {s next : Server} {safe : String} {before after : Tree}

theorem grows_osWriteFile (outcome : Outcome) (tree : Tree) (path : Path) (data : Bytes) :
    Enlarges tree (osWriteFile outcome tree path data).1 := by
  unfold osWriteFile
  split
  · exact .refl tree
  · split
    case h_1 after written => exact grows_writeFile written
    case h_2 => exact .refl tree
  case h_3 count =>
    cases written : tree.writeFile path (data.take count) with
    | none => exact .refl tree
    | some after => exact grows_writeFile written

theorem grows_applyTree (io : ApplyIO) (rootDir : String) (entry : LogEntry) (tree : Tree) :
    Enlarges tree (applyTree io rootDir entry tree) := by
  unfold applyTree
  split_ifs
  · dsimp only
    split
    case h_1 => exact .refl tree
    case h_2 made dirs => exact (grows_mkdirAll dirs).trans (grows_osWriteFile ..)
  · exact .refl tree
  · exact .refl tree

theorem grows_applyAll (io : Nat → ApplyIO) (rootDir : String) (position : Nat) (entries : List LogEntry)
    (tree : Tree) : Enlarges tree (applyAll io rootDir position entries tree) := by
  induction entries generalizing position tree with
  | nil => exact .refl tree
  | cons entry rest ih => exact (grows_applyTree ..).trans (ih ..)

namespace Server

inductive CreateOutcome (env : Env) (s next : Server) (safe : String) : Except Status Response → Prop where
  | refused (status : Status) (table : Map String FileEntry) (tree : Tree)
      (made : next = { s with table := table, tree := tree }) (same : SameFiles s.tree tree)
      (grows : Enlarges s.tree tree) : CreateOutcome env s next safe (.error status)
  | abandoned (status : Status) (table : Map String FileEntry) (tree : Tree)
      (made : next = { s with table := table, tree := tree }) (left : env.remove = false)
      (adds : AddsFile s.tree tree (s.path safe)) (grows : Enlarges s.tree tree) :
      CreateOutcome env s next safe (.error status)
  | created (response : Response) (table : Map String FileEntry) (tree : Tree)
      (requests : Map String RequestEntry) (openMap : Map FileKey Int32) (fd : Int32) (opened : FileMeta)
      (made : next = { s with table := table, tree := tree, requests := requests, openMap := openMap,
                              nextFD := s.nextFD + 1, files := s.files.insert fd opened })
      (named : opened.filename = safe) (adds : AddsFile s.tree tree (s.path safe)) (grows : Enlarges s.tree tree) :
      CreateOutcome env s next safe (.ok response)

theorem mem_claimed (s : Server) (safe name : String) : name ∈ (s.claimed safe).table ↔ name = safe ∨ name ∈ s.table :=
  (mem_acquireWrite ..).trans (s.mem_getFileEntry safe name)

theorem create_outcome {req : CreateRequest}
    (named : normalize req.filename = some safe) (fresh : s.cached req.requestId env.start = none)
    (handled : s.create env req = .returned next answer sent) : (next = s ∧ ∃ status, answer = .error status) ∨
      CreateOutcome env s next safe answer ∧ ∀ name, name ∈ next.table ↔ name = safe ∨ name ∈ s.table := by
  have own (other : String) (also : normalize req.filename = some other) : other = safe :=
    Option.some.inj (also.symm.trans named)
  cases handled ▸ s.create_exit env req with
  | dismissed why =>
    cases why with
    | elsewhere => exact .inl ⟨rfl, _, rfl⟩
    | repeated response _ hit => cases fresh.symm.trans hit
  | unnamed | barred => exact .inl ⟨rfl, _, rfl⟩
  | failed other tree status _ also _ _ _ left grows =>
    obtain rfl := own other also
    refine .inr ⟨?_, fun name => (mem_releaseWrite ..).trans (s.mem_claimed other name)⟩
    rcases left with same | ⟨kept, adds⟩
    · exact .refused status _ tree rfl same grows
    · exact .abandoned status _ tree rfl kept adds grows
  | created other tree _ also _ _ adds grows =>
    obtain rfl := own other also
    refine .inr ⟨.created _ _ tree _ _ _ _ rfl rfl adds grows, fun name => ?_⟩
    exact (mem_releaseWrite ..).trans ((mem_setEntry ..).trans (s.mem_claimed other name))

theorem openFile_listed {req : FileRequest}
    (handled : s.openFile env req = .returned next answer sent) (name : String) (present : name ∈ s.table) :
    name ∈ next.table := by
  have grown (safe : String) := (s.mem_getFileEntry safe name).mpr (.inr present)
  cases handled ▸ s.openFile_exit env req with
  | dismissed why => exact why.same.1 ▸ present
  | unnamed => exact present
  | failed safe | opened safe => exact grown safe

inductive DeleteOutcome (s next : Server) (safe : String) : Except Status Response → Prop where
  | refused (status : Status) (table : Map String FileEntry) (made : next = { s with table := table })
      (listed : ∀ name, name ∈ table ↔ name ∈ s.table) : DeleteOutcome s next safe (.error status)
  | gone (response : Response) (requests : Map String RequestEntry) (made : next = { s with requests := requests })
      (absent : s.tree.find (s.path safe) = none ∨ safe ∉ s.table ∧ s.tree.find (s.path safe) ≠ some .dir) :
      DeleteOutcome s next safe (.ok response)
  | removed (response : Response) (requests : Map String RequestEntry) (table : Map String FileEntry) (tree : Tree)
      (made : next = { s with requests := requests, table := table, tree := tree,
                              filesPrimes := s.filesPrimes.erase safe })
      (leaf : s.tree.find (s.path safe) ≠ some .dir) (removes : s.tree.remove (s.path safe) = some tree)
      (listed : ∀ name, name ∈ table ↔ name ≠ safe ∧ name ∈ s.table) : DeleteOutcome s next safe (.ok response)

theorem osStat_absent {tree : Tree} (stat : osStat tree path = .missing ∨ osStat tree path = .failed) :
    tree.find path = none := by
  unfold osStat at stat
  split at stat
  · rcases stat with stat | stat <;> cases stat
  · assumption

theorem delete_outcome {req : DeleteRequest}
    (named : normalize req.filename = some safe) (fresh : s.cached req.requestId env.start = none)
    (handled : s.delete env req = .returned next answer sent) : DeleteOutcome s next safe answer := by
  have own (other : String) (also : normalize req.filename = some other) : other = safe :=
    Option.some.inj (also.symm.trans named)
  have leaf (path : Path) (stat : osStat s.tree path ≠ .found .dir) : s.tree.find path ≠ some .dir :=
    fun dir => stat (by simp [osStat, dir])
  cases handled ▸ s.delete_exit env req with
  | dismissed why =>
    cases why with
    | elsewhere => exact .refused _ s.table rfl fun _ => Iff.rfl
    | repeated response _ hit => cases fresh.symm.trans hit
  | unnamed | input | directory | busy => exact .refused _ s.table rfl fun _ => Iff.rfl
  | gone other _ also _ absent =>
    obtain rfl := own other also
    refine .gone _ _ rfl (absent.imp (fun stat => osStat_absent (.inl stat)) fun missing => ?_)
    exact ⟨AList.lookup_eq_none.mp missing.2, leaf _ missing.1⟩
  | failed other => exact .refused _ _ rfl fun name => (mem_releaseWrite ..).trans (s.mem_acquireWrite other name)
  | removed other entry tree claim _ removes =>
    obtain rfl := own other claim.named
    refine .removed _ _ _ tree rfl (leaf _ claim.leaf) removes fun name => ?_
    rw [← s.mem_acquireWrite other name]
    exact AList.mem_erase

def committed (env : Env) (ready : Server) (call : Call) (logFile : Bytes) : Server × Option Status :=
  let entry := ready.logEntry call (ready.content env.range call) ready.log.length
  let logged := { ready with log := ready.log ++ [entry], logFile := logFile }
  updatePrimes env (logged.commitEntry env.apply entry) call (ready.tempPrimeSet call).2

theorem committed_eq (env : Env) (s : Server) (call : Call) (logFile : Bytes) :
    ∃ commitIndex lastApplied tree filesPrimes, (committed env s call logFile).1 = { s with
      log := s.log ++ [s.logEntry call (s.content env.range call) s.log.length]
      logFile := logFile
      commitIndex := commitIndex
      lastApplied := lastApplied
      tree := tree
      filesPrimes := filesPrimes } := by
  unfold committed
  obtain ⟨tree, filesPrimes, same⟩ := updatePrimes_eq env (commitEntry env.apply { s with
    log := s.log ++ [s.logEntry call (s.content env.range call) s.log.length], logFile := logFile }
    (s.logEntry call (s.content env.range call) s.log.length)) call (s.tempPrimeSet call).2
  rw [same, commitEntry_eq]
  exact ⟨_, _, _, _, rfl⟩

theorem beginCall_listed {kind : Kind} {now : Time} {opened : Server} {req : DataRequest} {call : Call}
    (begun : s.beginCall kind now req = .opened opened call) (name : String) :
    name ∈ opened.table ↔ name = call.name ∨ name ∈ s.table := by
  unfold beginCall at begun
  repeat' split at begun
  all_goals first | cases begun; exact s.mem_getFileEntry _ name | cases begun

theorem enters_listed (kind : Kind) (env : Env) (s ready : Server) (req : DataRequest) (call : Call)
    (enters : s.Enters kind env req call ready) (name : String) :
    name ∈ ready.table ↔ name = call.name ∨ name ∈ s.table := by
  obtain ⟨opened, begun, _, _, rfl, _⟩ := enters
  rw [mem_acquireWrite]
  exact beginCall_listed begun name

section Call

variable [LogCodec]

inductive CallOutcome (kind : Kind) (env : Env) (s : Server) (req : DataRequest) (next : Server) :
    Except Status Response → List AppendEntriesRequest → Prop where
  | rejected (status : Status) (table : Map String FileEntry) (made : next = { s with table := table })
      (listed : ∀ name, name ∈ s.table → name ∈ table)
      (idle : ∀ call ready, ¬ s.Enters kind env req call ready) : CallOutcome kind env s req next (.error status) []
  | clean (call : Call) (table : Map String FileEntry) (response : Response)
      (begun : s.beginCall kind env.start req = .opened { s with table := table } call) (still : req.dirty = false)
      (listed : ∀ name, name ∈ s.table → name ∈ table)
      (made : next = (finishCall env { s with table := table } call).1) :
      CallOutcome kind env s req next (.ok response) []
  | failed (call : Call) (ready : Server) (logFile : Bytes) (status : Status) (sent : List AppendEntriesRequest)
      (enters : s.Enters kind env req call ready) (missed : ¬ ready.Replicated env kind)
      (persisted : (ready.appendLog env.persist
        (ready.logEntry call (ready.content env.range call) ready.log.length)).1.logFile = logFile)
      (made : next = releaseWrite { ready with
        log := ready.log ++ [ready.logEntry call (ready.content env.range call) ready.log.length]
        logFile := logFile } call.name) : CallOutcome kind env s req next (.error status) sent
  | broken (call : Call) (ready : Server) (logFile : Bytes) (status : Status) (sent : List AppendEntriesRequest)
      (enters : s.Enters kind env req call ready) (replicated : ready.Replicated env kind)
      (persisted : (ready.appendLog env.persist
        (ready.logEntry call (ready.content env.range call) ready.log.length)).1.logFile = logFile)
      (stopped : (committed env ready call logFile).2 = some status)
      (made : next = (committed env ready call logFile).1.releaseWrite call.name) :
      CallOutcome kind env s req next (.error status) sent
  | done (call : Call) (ready : Server) (logFile : Bytes) (response : Response)
      (enters : s.Enters kind env req call ready) (replicated : ready.Replicated env kind)
      (persisted : (ready.appendLog env.persist
        (ready.logEntry call (ready.content env.range call) ready.log.length)).1.logFile = logFile)
      (finished : (committed env ready call logFile).2 = none)
      (made : next = ((committed env ready call logFile).1.finishCall env call).1.releaseWrite call.name) :
      CallOutcome kind env s req next (.ok response)
        [sendAppendEntry ready.id (ready.logEntry call (ready.content env.range call) ready.log.length)
            ready.commitIndex,
          sendAppendEntry ready.id (ready.logEntry call (ready.content env.range call) ready.log.length)
            (ready.log.length + 1)]

theorem commitCall_sent {call : Call} (replicated : s.Replicated env call.kind) : (s.commitCall env call).2.2 =
      [sendAppendEntry s.id (s.logEntry call (s.content env.range call) s.log.length) s.commitIndex,
        sendAppendEntry s.id (s.logEntry call (s.content env.range call) s.log.length) (s.log.length + 1)] := by
  obtain ⟨persisted, enough⟩ := replicated
  have few (logged : Server) (same : logged.majority call.kind = s.majority call.kind) :
      ¬ ackCount (logged.majority call.kind) 1 env.answers < logged.majority call.kind := by
    rw [same]
    omega
  unfold commitCall appendLog appendToDisk
  rw [persisted]
  rw [if_neg (by simp), if_neg (few _ (by cases call.kind <;> rfl)), commitEntry_eq]
  rfl

theorem handleCall_outcome (kind : Kind) (env : Env) (s next : Server) (req : DataRequest)
    (answer : Except Status Response) (sent : List AppendEntriesRequest)
    (fresh : s.cachedCall kind req.requestId env.start = none)
    (handled : s.handleCall kind env req = .returned next answer sent) :
    CallOutcome kind env s req next answer sent := by
  unfold handleCall at handled
  split at handled
  case h_1 result begun =>
    subst handled
    have idle : ∀ call ready, ¬ s.Enters kind env req call ready := by
      rintro call ready ⟨opened, begun', _⟩
      rw [begun] at begun'
      cases begun'
    have shape : next = s ∧ sent = [] ∧ ∃ status, answer = .error status := by
      unfold beginCall refuse at begun
      rw [fresh] at begun
      split at begun
      case h_1 => cases begun; exact ⟨rfl, rfl, _, rfl⟩
      case h_2 =>
        dsimp only at begun
        split at begun
        case h_1 => cases begun; exact ⟨rfl, rfl, _, rfl⟩
        case h_2 => split at begun <;> cases begun
    obtain ⟨rfl, rfl, status, rfl⟩ := shape
    exact .rejected status next.table rfl (fun _ present => present) idle
  case h_2 opened call begun =>
    obtain ⟨found, client, table, _, _, _, made, rfl⟩ := beginCall_opened kind env.start s opened req call begun
    have own : call.kind = kind := by rw [made]
    have listed := beginCall_listed begun
    split_ifs at handled with dirty busy
    · dsimp only at handled
      split at handled
      case h_1 status refused =>
        have kept := mem_acquireWrite { s with table := table } call.name
        obtain ⟨locked, same⟩ := acquireWrite_eq { s with table := table } call.name
        have still := mem_releaseWrite { s with table := locked } call.name
        obtain ⟨released, freed⟩ := releaseWrite_eq { s with table := locked } call.name
        rw [same] at handled kept
        cases handled
        refine .rejected status released freed (fun name present => ?_) ?_
        · rw [freed] at still
          exact (still name).mpr ((kept name).mpr ((listed name).mpr (.inr present)))
        rintro other ready ⟨opened, begun', _, _, rfl, allowed⟩
        rw [begun] at begun'
        obtain ⟨rfl, rfl⟩ := begun'
        rw [refused] at allowed
        cases allowed
      case h_2 allowed =>
        have enters : s.Enters kind env req call (acquireWrite { s with table := table } call.name) :=
          ⟨_, begun, dirty, by simpa using busy, rfl, allowed⟩
        generalize acquireWrite { s with table := table } call.name = ready at handled enters
        obtain ⟨logFile, logged, ⟨missed, same, stopped⟩ | ⟨replicated, same, status⟩⟩ :=
          commitCall_cases env ready call
        · have persisted := congrArg Server.logFile logged
          rw [own] at missed
          split at handled
          case h_1 =>
            cases handled
            exact .failed call ready logFile _ _ enters missed persisted (by rw [same])
          case h_2 passed => exact absurd passed stopped
        · have persisted := congrArg Server.logFile logged
          have messages := commitCall_sent replicated
          rw [own] at replicated
          split at handled
          case h_1 failure stopped =>
            cases handled
            exact .broken call ready logFile failure _ enters replicated persisted (status ▸ stopped) (by rw [same]; rfl)
          case h_2 passed =>
            rw [messages] at handled
            cases handled
            exact .done call ready logFile _ enters replicated persisted (status ▸ passed) (by rw [same]; rfl)
    · cases handled
      exact .clean call table _ begun (by simpa using dirty) (fun name present => (listed name).mpr (.inr present)) rfl

end Call

end Server

end Ikkat
