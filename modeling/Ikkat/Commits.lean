import Ikkat.Requests

set_option autoImplicit false

namespace Ikkat

structure DataRequest where
  requestId : String
  fd : Int32
  dirty : Bool
  version : Int32
  data : Bytes
  clientID : String
  deriving DecidableEq, Repr

inductive Kind where
  | close
  | write
  deriving DecidableEq, Repr

structure Call where
  kind : Kind
  req : DataRequest
  filename : String
  mode : FileMode
  deriving DecidableEq, Repr

namespace Call

def name (call : Call) : String :=
  match call.kind with
  | .close => normalizeQuiet call.filename
  | .write => call.filename

def primeKey (call : Call) : String :=
  match call.kind with
  | .close => call.filename
  | .write => normalizeQuiet call.filename

def response (call : Call) (version : Int32) : Response :=
  match call.kind with
  | .close => .closed ⟨"closed", version⟩
  | .write => .written ⟨"write successful", version⟩

end Call

namespace Server

def cachedCall (s : Server) (kind : Kind) (requestId : String) (now : Time) : Option (Option Response) :=
  match kind, s.cached requestId now with
  | .close, some (.closed resp) => some (some (.closed resp))
  | .close, _ => none
  | .write, some (.written resp) => some (some (.written resp))
  | .write, some _ => some none
  | .write, none => none

inductive Begun where
  | ended (result : Result)
  | opened (s : Server) (call : Call)

-- A client that is not registered makes getFileEntry wait for the lock its own handler holds.
def beginCall (kind : Kind) (now : Time) (s : Server) (req : DataRequest) : Begun :=
  match s.notLeader with
  | some status => .ended (.returned s (.error status) [])
  | none =>
      match s.cachedCall kind req.requestId now with
      | some (some resp) => .ended (.returned s (.ok resp) [])
      | some none => .ended (.panicked s)
      | none =>
          match s.files.lookup req.fd with
          | none => .ended (s.refuse .notFound "file not open")
          | some found =>
              match found.clients.lookup req.clientID with
              | none => .ended .blocked
              | some client =>
                  let call : Call := ⟨kind, req, found.filename, client.mode⟩
                  .opened (s.getFileEntry call.name).1 call

def refusal (s : Server) (call : Call) : Option Status :=
  if call.mode ≠ .write then some ⟨.permissionDenied, "not opened in write mode"⟩
  else if call.req.version ≠ s.entryVersion call.name then some ⟨.aborted, "conflict"⟩
  else none

def tempPrimeSet (s : Server) (call : Call) : List UInt64 × FilePrimeSet :=
  filterUniquePrimes (parseNumbers call.req.data) (s.primeSet call.primeKey)

def content (range : RangeOrder) (s : Server) (call : Call) : Bytes :=
  match call.kind with
  | .close => range.render (s.tempPrimeSet call).2
  | .write => call.req.data

def logEntry (s : Server) (call : Call) (content : Bytes) (length : Nat) : LogEntry where
  index := length + 1
  op := "WRITE"
  filename := call.name
  content := content
  version := s.entryVersion call.name + 1

def alive (s : Server) : Nat :=
  (s.servers.entries.filter fun item => item.2.alive).length

def majority (s : Server) (kind : Kind) : Nat :=
  match kind with
  | .close => s.servers.entries.length / 2 + 1
  | .write => s.alive / 2 + 1

def ackCount (majority : Nat) : Nat → List (String × Bool) → Nat
  | count, [] => count
  | count, (_, ok) :: rest =>
      if count < majority then ackCount majority (if ok then count + 1 else count) rest else count

def commitEntry (io : Nat → ApplyIO) (s : Server) (entry : LogEntry) : Server :=
  ({ s with commitIndex := entry.index.toNat }).applyCommitted io

def setPrimes (s : Server) (key : String) (primes : FilePrimeSet) : Server :=
  { s with filesPrimes := s.filesPrimes.insert key primes }

def osAppend (tree : Tree) (path : Path) (data : Bytes) : Tree :=
  match tree.find path with
  | some (.file old) => (tree.writeFile path (old ++ data)).getD tree
  | _ => tree

def copied (outcome : Outcome) (data : Bytes) : Bytes :=
  match outcome with
  | .done => data
  | .refused => []
  | .cut count => data.take count

def appendUnique (env : Env) (s : Server) (filename : String) (unique : List UInt64) :
    Server × Option Status :=
  let full := s.path filename
  let tmp := withSuffix full ".tmp"
  match if env.tmpOpen then s.tree.writeFile tmp [] else none with
  | none => (s, some ⟨.internal, "temp open failed"⟩)
  | some opened =>
      let lines := if unique = [] then [] else copied env.tmpWrite (renderNumbers unique)
      let s := { s with tree := (opened.writeFile tmp lines).getD opened }
      if unique ≠ [] ∧ env.tmpWrite ≠ .done then (s, some ⟨.internal, "write failed"⟩)
      else if !env.srcOpen then (s, some ⟨.internal, "failed to open tmp file: " ++ env.reason⟩)
      else
        match if env.dstOpen then osCreate s.tree full else none with
        | none => (s, some ⟨.internal, "failed to open destination: " ++ env.reason⟩)
        | some created =>
            let s := { s with tree := osAppend created full (copied env.copy lines) }
            if env.copy ≠ .done then (s, some ⟨.internal, "copy failed: " ++ env.reason⟩)
            else if env.remove then ({ s with tree := (s.tree.remove tmp).getD s.tree }, none)
            else (s, none)

-- Close writes the set it copied before the commit; Write copies it, and touches the file, after.
def updatePrimes (env : Env) (s : Server) (call : Call) (primes : FilePrimeSet) : Server × Option Status :=
  match call.kind with
  | .close => (s.setPrimes call.primeKey primes, none)
  | .write =>
      let temp := s.tempPrimeSet call
      let appended := s.appendUnique env call.filename temp.1
      match appended.2 with
      | some status => (appended.1, some status)
      | none => (appended.1.setPrimes call.primeKey temp.2, none)

def bumpVersion (env : Env) (s : Server) (call : Call) : Server :=
  if call.req.dirty then
    let s := s.setEntry call.name fun entry => { entry with version := entry.version + 1 }
    s.saveVersion env.saveMeta call.name (s.entryVersion call.name)
  else s

def dropClient (s : Server) (call : Call) : Server :=
  match call.kind with
  | .write => s
  | .close =>
      match s.files.lookup call.req.fd with
      | none => s
      | some found =>
          { s with
            files := s.files.insert call.req.fd
              { found with clients := found.clients.erase call.req.clientID } }

def finishCall (env : Env) (s : Server) (call : Call) : Server × Response :=
  let s := s.bumpVersion env call
  let resp := call.response (s.entryVersion call.name)
  ((s.dropClient call).remember call.req.requestId resp env.finish, resp)

section Commit

variable [LogCodec]

def commitCall (env : Env) (s : Server) (call : Call) :
    Server × Option Status × List AppendEntriesRequest :=
  let primes := (s.tempPrimeSet call).2
  let entry := s.logEntry call (s.content env.range call) s.log.length
  let logged := s.appendLog env.persist entry
  let s := logged.1
  if !logged.2 then (s, some ⟨.internal, "log persist failed"⟩, [])
  else
    let round := sendAppendEntry s.id entry s.commitIndex
    let majority := s.majority call.kind
    if ackCount majority 1 env.answers < majority then
      (s, some ⟨.unavailable, "failed to reach majority"⟩, [round])
    else
      let s := s.commitEntry env.apply entry
      let updated := s.updatePrimes env call primes
      (updated.1, updated.2, [round, sendAppendEntry s.id entry s.commitIndex])

def handleCall (kind : Kind) (env : Env) (s : Server) (req : DataRequest) : Result :=
  match s.beginCall kind env.start req with
  | .ended result => result
  | .opened s call =>
      if req.dirty then
        if !s.canWrite call.name then .blocked
        else
          let s := s.acquireWrite call.name
          match s.refusal call with
          | some status => .returned (s.releaseWrite call.name) (.error status) []
          | none =>
              let committed := s.commitCall env call
              match committed.2.1 with
              | some status =>
                  .returned (committed.1.releaseWrite call.name) (.error status) committed.2.2
              | none =>
                  let finished := committed.1.finishCall env call
                  .returned (finished.1.releaseWrite call.name) (.ok finished.2) committed.2.2
      else
        let finished := s.finishCall env call
        .returned finished.1 (.ok finished.2) []

def close (env : Env) (s : Server) (req : DataRequest) : Result :=
  s.handleCall .close env req

def write (env : Env) (s : Server) (req : DataRequest) : Result :=
  s.handleCall .write env req

end Commit

end Server

namespace Server

theorem beginCall_opened (kind : Kind) (now : Time) (s opened : Server) (req : DataRequest) (call : Call)
    (begun : s.beginCall kind now req = .opened opened call) :
    ∃ found client table, s.role = .primary ∧ s.files.lookup req.fd = some found ∧
      found.clients.lookup req.clientID = some client ∧
      call = ⟨kind, req, found.filename, client.mode⟩ ∧ opened = { s with table := table } := by
  unfold beginCall at begun
  split at begun
  case h_1 => cases begun
  case h_2 leads =>
    have primary : s.role = .primary := by
      by_contra other
      unfold notLeader at leads
      split_ifs at leads
      split at leads <;> cases leads
    split at begun
    case h_1 => cases begun
    case h_2 => cases begun
    case h_3 =>
      split at begun
      case h_1 => cases begun
      case h_2 found present =>
        split at begun
        case h_1 => cases begun
        case h_2 client registered =>
          obtain ⟨table, same⟩ := s.getFileEntry_eq (Call.name ⟨kind, req, found.filename, client.mode⟩)
          simp only [Begun.opened.injEq] at begun
          exact ⟨found, client, table, primary, present, registered, begun.2.symm, begun.1 ▸ same⟩

theorem beginCall_entry {kind : Kind} {now : Time} {s opened : Server} {req : DataRequest} {call : Call}
    (begun : s.beginCall kind now req = .opened opened call) : opened = (s.getFileEntry call.name).1 := by
  unfold beginCall at begun
  repeat' split at begun
  all_goals first | cases begun; rfl | cases begun

theorem beginCall_ended {kind : Kind} {now : Time} {s next : Server} {req : DataRequest}
    {answer : Except Status Response} {sent : List AppendEntriesRequest}
    (begun : s.beginCall kind now req = .ended (.returned next answer sent)) : next = s ∧ sent = [] := by
  unfold beginCall refuse at begun
  repeat' split at begun
  all_goals simp_all

def Replicated (env : Env) (s : Server) (kind : Kind) : Prop :=
  env.persist = .done ∧ s.majority kind ≤ ackCount (s.majority kind) 1 env.answers

instance (env : Env) (s : Server) (kind : Kind) : Decidable (s.Replicated env kind) :=
  inferInstanceAs (Decidable (_ ∧ _))

theorem commitEntry_eq (io : Nat → ApplyIO) (s : Server) (entry : LogEntry) :
    s.commitEntry io entry = ({ s with commitIndex := entry.index.toNat }).applied io :=
  applyCommitted_eq io _

def Enters (kind : Kind) (env : Env) (s : Server) (req : DataRequest) (call : Call) (ready : Server) : Prop :=
  ∃ opened, s.beginCall kind env.start req = .opened opened call ∧ req.dirty = true ∧
    opened.canWrite call.name = true ∧ ready = opened.acquireWrite call.name ∧ ready.refusal call = none

theorem enters_eq (kind : Kind) (env : Env) (s ready : Server) (req : DataRequest) (call : Call)
    (enters : s.Enters kind env req call ready) :
    ∃ found client table, s.role = .primary ∧ s.files.lookup req.fd = some found ∧
      found.clients.lookup req.clientID = some client ∧ client.mode = .write ∧ req.dirty = true ∧
      call = ⟨kind, req, found.filename, client.mode⟩ ∧ ready = { s with table := table } := by
  obtain ⟨opened, begun, dirty, _, rfl, allowed⟩ := enters
  obtain ⟨found, client, table, primary, present, registered, rfl, rfl⟩ :=
    beginCall_opened kind env.start s opened req call begun
  obtain ⟨locked, same⟩ := acquireWrite_eq { s with table := table }
    (Call.name ⟨kind, req, found.filename, client.mode⟩)
  have mode : client.mode = .write := by
    unfold refusal at allowed
    split_ifs at allowed with other
    simpa using other
  exact ⟨found, client, locked, primary, present, registered, mode, dirty, rfl, same⟩

variable (env : Env) (s : Server) (call : Call)

theorem appendUnique_eq (filename : String) (unique : List UInt64) :
    ∃ tree, (s.appendUnique env filename unique).1 = { s with tree := tree } := by
  unfold appendUnique
  dsimp only
  split
  · exact ⟨_, rfl⟩
  · split
    · exact ⟨_, rfl⟩
    · split
      · exact ⟨_, rfl⟩
      · split
        · exact ⟨_, rfl⟩
        · split
          · exact ⟨_, rfl⟩
          · split <;> exact ⟨_, rfl⟩

theorem updatePrimes_write {call : Call} (primes : FilePrimeSet) (kind : call.kind = .write) :
    s.updatePrimes env call primes =
      match (s.appendUnique env call.filename (s.tempPrimeSet call).1).2 with
      | some status => ((s.appendUnique env call.filename (s.tempPrimeSet call).1).1, some status)
      | none => ((s.appendUnique env call.filename (s.tempPrimeSet call).1).1.setPrimes call.primeKey
          (s.tempPrimeSet call).2, none) := by
  rw [updatePrimes, kind]

theorem updatePrimes_eq (primes : FilePrimeSet) :
    ∃ tree filesPrimes, (s.updatePrimes env call primes).1 =
      { s with tree := tree, filesPrimes := filesPrimes } := by
  obtain ⟨tree, same⟩ := s.appendUnique_eq env call.filename (s.tempPrimeSet call).1
  unfold updatePrimes
  split
  · exact ⟨_, _, rfl⟩
  · dsimp only
    split
    · exact ⟨tree, _, same⟩
    · rw [same]
      exact ⟨tree, _, rfl⟩

theorem dropClient_eq : ∃ files, s.dropClient call = { s with files := files } := by
  unfold dropClient
  split
  · exact ⟨_, rfl⟩
  · split <;> exact ⟨_, rfl⟩

theorem bumpVersion_eq :
    ∃ table tree, s.bumpVersion env call = { s with table := table, tree := tree } ∧
      (tree = s.tree ∨
        ∃ data, tree = (osWriteFile env.saveMeta s.tree (s.path (call.name ++ ".meta")) data).1) := by
  obtain ⟨table, same⟩ := s.setEntry_eq call.name fun entry => { entry with version := entry.version + 1 }
  unfold bumpVersion
  split_ifs
  · rw [same]
    exact ⟨table, _, rfl, .inr ⟨_, rfl⟩⟩
  · exact ⟨_, _, rfl, .inl rfl⟩

theorem finishCall_eq :
    ∃ table tree files requests, (s.finishCall env call).1 =
      { s with table := table, tree := tree, files := files, requests := requests } := by
  obtain ⟨table, tree, bumped, _⟩ := s.bumpVersion_eq env call
  obtain ⟨files, dropped⟩ := dropClient_eq { s with table := table, tree := tree } call
  unfold finishCall
  dsimp only
  rw [bumped, dropped]
  exact ⟨table, tree, files, _, rfl⟩

theorem osAppend_nil (tree : Tree) (path target : Path) : (osAppend tree path []).find target = tree.find target := by
  unfold osAppend
  split
  case h_1 old present =>
    obtain ⟨next, written⟩ := tree.writeFile_over path old old present
    rw [List.append_nil, written, Option.getD_some, FileTree.Tree.find_writeFile target written]
    split_ifs with same
    · rw [same, present]
    · rfl
  case h_2 => rfl

theorem appendUnique_nil (filename : String) (present : s.tree.find (s.path filename) ≠ none)
    (apart : s.path filename ≠ withSuffix (s.path filename) ".tmp") :
    ∃ tree, (s.appendUnique env filename []).1 = { s with tree := tree } ∧
      ∀ path, path ≠ withSuffix (s.path filename) ".tmp" → tree.find path = s.tree.find path := by
  unfold appendUnique
  dsimp only
  split
  case h_1 => exact ⟨s.tree, rfl, fun _ _ => rfl⟩
  case h_2 opened opens =>
    have made : s.tree.writeFile (withSuffix (s.path filename) ".tmp") [] = some opened := by
      split_ifs at opens
      exact opens
    have filled (path : Path) (other : path ≠ withSuffix (s.path filename) ".tmp") :
        ((opened.writeFile (withSuffix (s.path filename) ".tmp") []).getD opened).find path =
          s.tree.find path := by
      have first : opened.find path = s.tree.find path := by
        rw [FileTree.Tree.find_writeFile path made, if_neg other]
      cases second : opened.writeFile (withSuffix (s.path filename) ".tmp") [] with
      | none => exact first
      | some next => rw [Option.getD_some, FileTree.Tree.find_writeFile path second, if_neg other, first]
    have nothing : copied env.copy [] = [] := by cases env.copy <;> simp [copied]
    simp only [if_true, ne_eq, not_true, false_and, if_false]
    split
    case isTrue => exact ⟨_, rfl, filled⟩
    case isFalse =>
      split
      case h_1 => exact ⟨_, rfl, filled⟩
      case h_2 created creates =>
        have still : created = (opened.writeFile (withSuffix (s.path filename) ".tmp") []).getD opened := by
          split_ifs at creates
          unfold osCreate at creates
          rw [filled _ apart] at creates
          split at creates
          case h_1 absent => exact absurd absent present
          case h_2 => exact (Option.some.inj creates).symm
          case h_3 => cases creates
        subst still
        have appended (path : Path) (other : path ≠ withSuffix (s.path filename) ".tmp") :
            (osAppend ((opened.writeFile (withSuffix (s.path filename) ".tmp") []).getD opened)
              (s.path filename) (copied env.copy [])).find path = s.tree.find path := by
          rw [nothing, osAppend_nil, filled path other]
        split_ifs
        · refine ⟨_, rfl, fun path other => ?_⟩
          rw [← appended path other]
          cases removed : (osAppend ((opened.writeFile (withSuffix (s.path filename) ".tmp") []).getD opened)
              (s.path filename) (copied env.copy [])).remove (withSuffix (s.path filename) ".tmp") with
          | none => rfl
          | some left => rw [Option.getD_some, FileTree.Tree.find_remove path removed, if_neg other]
        · exact ⟨_, rfl, appended⟩
        · exact ⟨_, rfl, appended⟩

section Commit

variable [LogCodec]

theorem commitCall_cases (env : Env) (s : Server) (call : Call) :
    ∃ logFile,
      let entry := s.logEntry call (s.content env.range call) s.log.length
      let logged := { s with log := s.log ++ [entry], logFile := logFile }
      (s.appendLog env.persist entry).1 = logged ∧
      ((¬ s.Replicated env call.kind ∧ (s.commitCall env call).1 = logged ∧
          (s.commitCall env call).2.1 ≠ none) ∨
        (s.Replicated env call.kind ∧
          let updated :=
            updatePrimes env (logged.commitEntry env.apply entry) call (s.tempPrimeSet call).2
          (s.commitCall env call).1 = updated.1 ∧ (s.commitCall env call).2.1 = updated.2)) := by
  obtain ⟨logFile, same⟩ :=
    appendLog_eq env.persist s (s.logEntry call (s.content env.range call) s.log.length)
  refine ⟨logFile, ?_⟩
  intro entry logged
  have persisted : (s.appendLog env.persist entry).2 = decide (env.persist = .done) := by
    cases env.persist <;> rfl
  have state : (s.appendLog env.persist entry).1 = logged := same
  have quorum : logged.majority call.kind = s.majority call.kind := by
    cases call.kind <;> rfl
  refine ⟨state, ?_⟩
  unfold commitCall Replicated
  dsimp only
  rw [persisted, state, quorum]
  by_cases written : env.persist = .done
  · by_cases few : ackCount (s.majority call.kind) 1 env.answers < s.majority call.kind
    · left
      simp [written, few]
    · right
      simp only [written, few, true_and]
      exact ⟨by omega, rfl, rfl⟩
  · left
    simp [written]

variable {sent : List AppendEntriesRequest}

theorem handleCall_cases {kind : Kind} {env : Env} {s next : Server} {req : DataRequest}
    {answer : Except Status Response} (handled : s.handleCall kind env req = .returned next answer sent) :
    (∃ table, next = { s with table := table }) ∨
      (∃ opened call, s.beginCall kind env.start req = .opened opened call ∧ req.dirty = false ∧
        next = (opened.finishCall env call).1) ∨
      ∃ ready call, s.Enters kind env req call ready ∧
        next = (if (ready.commitCall env call).2.1 = none then
            ((ready.commitCall env call).1.finishCall env call).1
          else (ready.commitCall env call).1).releaseWrite call.name := by
  unfold handleCall at handled
  split at handled
  case h_1 result begun =>
    subst handled
    obtain ⟨rfl, _⟩ := beginCall_ended begun
    exact .inl ⟨next.table, rfl⟩
  case h_2 opened call begun =>
    split_ifs at handled with dirty busy
    · dsimp only at handled
      split at handled
      case h_1 =>
        obtain ⟨found, client, table, _, _, _, rfl, rfl⟩ :=
          beginCall_opened kind env.start s opened req call begun
        obtain ⟨locked, same⟩ := acquireWrite_eq { s with table := table }
          (Call.name ⟨kind, req, found.filename, client.mode⟩)
        obtain ⟨released, freed⟩ := releaseWrite_eq { s with table := locked }
          (Call.name ⟨kind, req, found.filename, client.mode⟩)
        simp only [Result.returned.injEq, same] at handled
        exact .inl ⟨released, handled.1 ▸ freed⟩
      case h_2 allowed =>
        have enters : s.Enters kind env req call (opened.acquireWrite call.name) :=
          ⟨opened, begun, dirty, by simpa using busy, rfl, allowed⟩
        refine .inr (.inr ⟨_, call, enters, ?_⟩)
        split at handled
        case h_1 failed =>
          simp only [Result.returned.injEq] at handled
          simp [failed, handled.1]
        case h_2 passed =>
          simp only [Result.returned.injEq] at handled
          simp [passed, handled.1]
    · simp only [Result.returned.injEq] at handled
      exact .inr (.inl ⟨opened, call, begun, by simpa using dirty, handled.1.symm⟩)

theorem handleCall_ok {kind : Kind} {env : Env} {s next : Server} {req : DataRequest} {response : Response}
    (handled : s.handleCall kind env req = .returned next (.ok response) sent) (dirty : req.dirty = true)
    (fresh : s.cachedCall kind req.requestId env.start = none) :
    ∃ ready call, s.Enters kind env req call ready ∧ (ready.commitCall env call).2.1 = none ∧
      next = ((ready.commitCall env call).1.finishCall env call).1.releaseWrite call.name := by
  unfold handleCall at handled
  split at handled
  case h_1 result begun =>
    unfold beginCall refuse at begun
    repeat' split at begun
    all_goals simp_all
  case h_2 opened call begun =>
    split_ifs at handled with busy
    dsimp only at handled
    split at handled
    case h_1 => cases handled
    case h_2 allowed =>
      refine ⟨_, call, ⟨opened, begun, dirty, by simpa using busy, rfl, allowed⟩, ?_⟩
      split at handled
      case h_1 => cases handled
      case h_2 passed =>
        simp only [Result.returned.injEq] at handled
        exact ⟨passed, handled.1.symm⟩

end Commit

end Server

end Ikkat
