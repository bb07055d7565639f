import Mathlib.Logic.Function.Basic
import Ikkat.Commits
import Ikkat.Election

set_option autoImplicit false

namespace Ikkat

variable {s next : Server}

-- Where a Close or Write stands between two of its atomic steps, with what it keeps on its stack.
-- An acknowledged peer has left `awaiting`; a handler that has logged an entry ends with it.
inductive Stage where
  | opened
  | locked
  | copied (primes : FilePrimeSet) (content : Bytes)
  | indexed (primes : FilePrimeSet) (entry : LogEntry)
  | logged (primes : FilePrimeSet) (entry : LogEntry)
  | sent (primes : FilePrimeSet) (entry : LogEntry) (awaiting : List String)
  | waiting (primes : FilePrimeSet) (entry : LogEntry) (majority : Nat) (awaiting acks : List String)
  | committed (primes : FilePrimeSet) (entry : LogEntry) (unsent : List String)
  | primed (entry : LogEntry)
  | ended (answer : Except Status Response) (entry : Option LogEntry)

structure Handler where
  call : Call
  stage : Stage

-- The length of the log is read before the lock under which the entry is appended.
inductive HandlerStep where
  | acquire
  | copy (range : RangeOrder)
  | index
  | append (persist : Outcome)
  | send
  | count
  | ack (peer : String) (ok : Bool)
  | timeout
  | commit (io : Nat → ApplyIO)
  | notify (peer : String)
  | prime (env : Env)
  | finish (env : Env)

namespace Server

def peerIDs (s : Server) : List String := s.peers.map ServerInfo.id

def lockCall (s : Server) (call : Call) : Option (Server × Stage) :=
  if call.req.dirty ∧ s.canWrite call.name then
    let s := s.acquireWrite call.name
    match s.refusal call with
    | some status => some (s.releaseWrite call.name, .ended (.error status) none)
    | none => some (s, .locked)
  else none

def appendCall [LogCodec] (persist : Outcome) (s : Server) (call : Call) (primes : FilePrimeSet)
    (entry : LogEntry) : Server × Stage :=
  let logged := s.appendLog persist entry
  if logged.2 then (logged.1, .logged primes entry)
  else (logged.1.releaseWrite call.name, .ended (.error ⟨.internal, "log persist failed"⟩) (some entry))

def primeCall (env : Env) (s : Server) (call : Call) (primes : FilePrimeSet) (entry : LogEntry) :
    Server × Stage :=
  let updated := s.updatePrimes env call primes
  match updated.2 with
  | some status => (updated.1.releaseWrite call.name, .ended (.error status) (some entry))
  | none => (updated.1, .primed entry)

end Server

def Handler.step [LogCodec] (s : Server) (h : Handler) (action : HandlerStep) : Option (Server × Stage) :=
  match h.stage, action with
  | .opened, .acquire => s.lockCall h.call
  | .opened, .finish env =>
      if h.call.req.dirty then none
      else
        let finished := s.finishCall env h.call
        some (finished.1, .ended (.ok finished.2) none)
  | .locked, .copy range => some (s, .copied (s.tempPrimeSet h.call).2 (s.content range h.call))
  | .copied primes content, .index => some (s, .indexed primes (s.logEntry h.call content s.log.length))
  | .indexed primes entry, .append persist => some (s.appendCall persist h.call primes entry)
  | .logged primes entry, .send => some (s, .sent primes entry s.peerIDs)
  | .sent primes entry awaiting, .count => some (s, .waiting primes entry (s.majority h.call.kind) awaiting [])
  | .waiting primes entry majority awaiting acks, .ack peer ok =>
      if acks.length + 1 < majority ∧ peer ∈ awaiting then
        some (s, .waiting primes entry majority (awaiting.erase peer) (if ok then peer :: acks else acks))
      else none
  | .waiting _ entry majority _ acks, .timeout =>
      if acks.length + 1 < majority then
        some (s.releaseWrite h.call.name,
          .ended (.error ⟨.unavailable, "failed to reach majority"⟩) (some entry))
      else none
  | .waiting primes entry majority _ acks, .commit io =>
      if acks.length + 1 < majority then none
      else some (s.commitEntry io entry, .committed primes entry s.peerIDs)
  | .committed primes entry unsent, .notify peer =>
      if peer ∈ unsent then some (s, .committed primes entry (unsent.erase peer)) else none
  | .committed primes entry unsent, .prime env =>
      if unsent = [] then some (s.primeCall env h.call primes entry) else none
  | .primed entry, .finish env =>
      let finished := s.finishCall env h.call
      some (finished.1.releaseWrite h.call.name, .ended (.ok finished.2) (some entry))
  | _, _ => none

def Handler.outgoing (s : Server) (h : Handler) (action : HandlerStep) : List (String × AppendEntriesRequest) :=
  match h.stage, action with
  | .logged _ entry, .send => s.peerIDs.map fun peer => (peer, sendAppendEntry s.id entry s.commitIndex)
  | .committed _ entry _, .notify peer => [(peer, sendAppendEntry s.id entry s.commitIndex)]
  | _, _ => []

theorem update_cases {Key Value : Type} [DecidableEq Key] {table : Key → Option Value} {key other : Key}
    {value found : Value} (here : Function.update table key (some value) other = some found) :
    other = key ∧ found = value ∨ other ≠ key ∧ table other = some found := by
  rcases eq_or_ne other key with rfl | different
  · rw [Function.update_self, Option.some.injEq] at here
    exact .inl ⟨rfl, here.symm⟩
  · exact .inr ⟨different, by rwa [Function.update_of_ne different] at here⟩

structure Node where
  server : Server
  handlers : Nat → Option Handler

inductive NodeAction where
  | create (env : Env) (req : CreateRequest)
  | openFile (env : Env) (req : FileRequest)
  | begin (id : Nat) (kind : Kind) (now : Time) (req : DataRequest)
  | handler (id : Nat) (action : HandlerStep)
  | appendEntries (disk : DiskIO) (req : AppendEntriesRequest)
  | applyUpdate (disk : DiskIO) (msg : UpdateMessage)
  | sendHeartbeat (now : Time) (req : Heartbeat)
  | heartbeatReply (success : Bool)
  | monitorPrimary (now : Time)
  | rebuild

namespace Node

def start (s : Server) : Node := ⟨s, fun _ => none⟩

def handle (n : Node) : Result → Option Node
  | .returned s _ _ => some { n with server := s }
  | _ => none

def begin (n : Node) (id : Nat) (kind : Kind) (now : Time) (req : DataRequest) : Option Node :=
  if (n.handlers id).isSome then none
  else
    match n.server.beginCall kind now req with
    | .ended result => n.handle result
    | .opened s call => some ⟨s, Function.update n.handlers id (some ⟨call, .opened⟩)⟩

section Step

variable [LogCodec]

def handlerStep (n : Node) (id : Nat) (action : HandlerStep) : Option Node :=
  match n.handlers id with
  | none => none
  | some h =>
      match h.step n.server action with
      | none => none
      | some (s, stage) => some ⟨s, Function.update n.handlers id (some { h with stage := stage })⟩

def step (n : Node) : NodeAction → Option Node
  | .create env req => n.handle (n.server.create env req)
  | .openFile env req => n.handle (n.server.openFile env req)
  | .begin id kind now req => n.begin id kind now req
  | .handler id action => n.handlerStep id action
  | .appendEntries disk req => some { n with server := (n.server.appendEntries disk req).1 }
  | .applyUpdate disk msg => some { n with server := (n.server.applyUpdate disk msg).1 }
  | .sendHeartbeat now req => some { n with server := (n.server.sendHeartbeat now req).1 }
  | .heartbeatReply success => some { n with server := n.server.heartbeatReply success }
  | .monitorPrimary now => some { n with server := n.server.monitorPrimary now }
  | .rebuild => some { n with server := n.server.rebuildAllPrimeSets }

end Step

end Node

structure KeepsLog (s next : Server) : Prop where
  id : next.id = s.id
  rootDir : next.rootDir = s.rootDir
  log : next.log = s.log
  commitIndex : next.commitIndex = s.commitIndex
  lastApplied : next.lastApplied = s.lastApplied

structure Keeps (s next : Server) : Prop extends KeepsLog s next where
  role : next.role = s.role
  primaryID : next.primaryID = s.primaryID
  servers : next.servers = s.servers

theorem Keeps.refl (s : Server) : Keeps s s := ⟨⟨rfl, rfl, rfl, rfl, rfl⟩, rfl, rfl, rfl⟩

theorem Keeps.trans {middle : Server} (first : Keeps s middle) (second : Keeps middle next) :
    Keeps s next where
  id := second.id.trans first.id
  rootDir := second.rootDir.trans first.rootDir
  log := second.log.trans first.log
  commitIndex := second.commitIndex.trans first.commitIndex
  lastApplied := second.lastApplied.trans first.lastApplied
  role := second.role.trans first.role
  primaryID := second.primaryID.trans first.primaryID
  servers := second.servers.trans first.servers

namespace Stage

def entry : Stage → Option LogEntry
  | .logged _ entry => some entry
  | .sent _ entry _ => some entry
  | .waiting _ entry _ _ _ => some entry
  | .committed _ entry _ => some entry
  | .primed entry => some entry
  | .ended _ entry => entry
  | _ => none

def committedEntry : Stage → Option LogEntry
  | .committed _ entry _ => some entry
  | .primed entry => some entry
  | .ended (.ok _) entry => entry
  | _ => none

end Stage

structure QuietStep (s : Server) (h : Handler) (next : Server) (stage : Stage) : Prop where
  keeps : Keeps s next
  entry : stage.entry = h.stage.entry
  committed : stage.committedEntry = none ∨ stage.committedEntry = h.stage.committedEntry
  settled : ∀ primes entry majority awaiting acks, stage ≠ .waiting primes entry majority awaiting acks
  unsent : ∀ primes entry awaiting, stage ≠ .sent primes entry awaiting
  indexed : ∀ primes entry, stage = .indexed primes entry →
    entry.op = "WRITE" ∧ entry.filename = h.call.name
  files : ∀ fd found, next.files.lookup fd = some found →
    ∃ old, s.files.lookup fd = some old ∧ found.filename = old.filename

inductive HandlerEffect (s : Server) (h : Handler) : HandlerStep → Server → Stage → Prop where
  | append (persist : Outcome) (primes : FilePrimeSet) (entry : LogEntry) (table : Map String FileEntry)
      (logFile : Bytes) (stage : Stage) (before : h.stage = .indexed primes entry)
      (after : stage = .logged primes entry ∨ ∃ status, stage = .ended (.error status) (some entry)) :
      HandlerEffect s h (.append persist)
        { s with log := s.log ++ [entry], table := table, logFile := logFile } stage
  | send (primes : FilePrimeSet) (entry : LogEntry) (before : h.stage = .logged primes entry) :
      HandlerEffect s h .send s (.sent primes entry s.peerIDs)
  | count (primes : FilePrimeSet) (entry : LogEntry) (awaiting : List String)
      (before : h.stage = .sent primes entry awaiting) :
      HandlerEffect s h .count s (.waiting primes entry (s.majority h.call.kind) awaiting [])
  | ack (peer : String) (ok : Bool) (primes : FilePrimeSet) (entry : LogEntry) (majority : Nat)
      (awaiting acks : List String) (before : h.stage = .waiting primes entry majority awaiting acks)
      (awaited : peer ∈ awaiting) :
      HandlerEffect s h (.ack peer ok) s
        (.waiting primes entry majority (awaiting.erase peer) (if ok then peer :: acks else acks))
  | commit (io : Nat → ApplyIO) (primes : FilePrimeSet) (entry : LogEntry) (majority : Nat)
      (awaiting acks : List String) (before : h.stage = .waiting primes entry majority awaiting acks)
      (reached : majority ≤ acks.length + 1) :
      HandlerEffect s h (.commit io) (({ s with commitIndex := entry.index.toNat }).applied io)
        (.committed primes entry s.peerIDs)
  | quiet (action : HandlerStep) (next : Server) (stage : Stage) (still : QuietStep s h next stage)
      (logs : ∀ persist, action ≠ .append persist) (commits : ∀ io, action ≠ .commit io)
      (idle : h.call.kind = .close → next.tree = s.tree) : HandlerEffect s h action next stage
  | finish (env : Env) (next : Server) (stage : Stage) (still : QuietStep s h next stage)
      (tree : ∀ path, path ≠ s.path (h.call.name ++ ".meta") → next.tree.find path = s.tree.find path)
      (regular : ∀ path content, s.tree.find path = some (.file content) →
        ∃ left, next.tree.find path = some (.file left)) : HandlerEffect s h (.finish env) next stage

namespace Server

variable (env : Env)

theorem finishCall_tree_eq (s : Server) (call : Call) :
    (s.finishCall env call).1.tree = (s.bumpVersion env call).tree := by
  obtain ⟨files, dropped⟩ := (s.bumpVersion env call).dropClient_eq call
  change ((s.bumpVersion env call).dropClient call).tree = _
  rw [dropped]

theorem finishCall_table_eq (s : Server) (call : Call) :
    (s.finishCall env call).1.table = (s.bumpVersion env call).table := by
  obtain ⟨files, dropped⟩ := (s.bumpVersion env call).dropClient_eq call
  change ((s.bumpVersion env call).dropClient call).table = _
  rw [dropped]

theorem lookup_finishCall (s : Server) {call : Call} (dirty : call.req.dirty = true) (other : String) :
    (s.finishCall env call).1.table.lookup other =
      if other = call.name then (s.table.lookup other).map fun entry => { entry with version := entry.version + 1 }
      else s.table.lookup other := by
  rw [finishCall_table_eq, bumpVersion, if_pos dirty]
  exact s.lookup_setEntry call.name other _

theorem finishCall_clean (s : Server) (call : Call) (clean : call.req.dirty = false) :
    (s.finishCall env call).1.tree = s.tree := by
  rw [finishCall_tree_eq, bumpVersion, if_neg (by simp [clean])]

theorem finishCall_tree (s : Server) (call : Call) (path : Path) (other : path ≠ s.path (call.name ++ ".meta")) :
    (s.finishCall env call).1.tree.find path = s.tree.find path := by
  obtain ⟨table, tree, bumped, saved⟩ := s.bumpVersion_eq env call
  rw [finishCall_tree_eq, bumped]
  rcases saved with rfl | ⟨data, rfl⟩
  · rfl
  · exact osWriteFile_other env.saveMeta s.tree _ path data other

theorem finishCall_regular (s : Server) (call : Call) (path : Path) (content : Bytes)
    (present : s.tree.find path = some (.file content)) :
    ∃ left, (s.finishCall env call).1.tree.find path = some (.file left) := by
  obtain ⟨table, tree, bumped, saved⟩ := s.bumpVersion_eq env call
  rw [finishCall_tree_eq, bumped]
  rcases saved with rfl | ⟨data, rfl⟩
  · exact ⟨content, present⟩
  · exact osWriteFile_file env.saveMeta _ data present

theorem finishCall_clients (s : Server) (call : Call) (fd : Int32) (found : FileMeta)
    (present : (s.finishCall env call).1.files.lookup fd = some found) :
    ∃ old, s.files.lookup fd = some old ∧ found.filename = old.filename ∧
      ∀ client state, found.clients.lookup client = some state → old.clients.lookup client = some state := by
  obtain ⟨table, tree, same, _⟩ := s.bumpVersion_eq env call
  have bumped : (s.bumpVersion env call).files = s.files := by rw [same]
  change ((s.bumpVersion env call).dropClient call).files.lookup fd = some found at present
  unfold dropClient at present
  rw [bumped] at present
  split at present
  · exact ⟨found, bumped ▸ present, rfl, fun _ _ registered => registered⟩
  · split at present
    · exact ⟨found, bumped ▸ present, rfl, fun _ _ registered => registered⟩
    case h_2 old here =>
      by_cases own : fd = call.req.fd
      · subst own
        rw [AList.lookup_insert] at present
        cases present
        exact ⟨old, here, rfl, fun _ _ registered => Map.lookup_of_erase _ call.req.clientID registered⟩
      · rw [AList.lookup_insert_ne own] at present
        exact ⟨found, present, rfl, fun _ _ registered => registered⟩

theorem finishCall_files (s : Server) (call : Call) (fd : Int32) (found : FileMeta)
    (present : (s.finishCall env call).1.files.lookup fd = some found) :
    ∃ old, s.files.lookup fd = some old ∧ found.filename = old.filename := by
  obtain ⟨old, before, named, _⟩ := s.finishCall_clients env call fd found present
  exact ⟨old, before, named⟩

theorem finishCall_keeps (s : Server) (call : Call) : Keeps s (s.finishCall env call).1 := by
  obtain ⟨table, tree, files, requests, same⟩ := s.finishCall_eq env call
  rw [same]
  exact ⟨⟨rfl, rfl, rfl, rfl, rfl⟩, rfl, rfl, rfl⟩

structure Ends (s next : Server) (call : Call) : Prop extends Keeps s next where
  filesPrimes : next.filesPrimes = s.filesPrimes
  tree : ∀ path, path ≠ s.path (call.name ++ ".meta") → next.tree.find path = s.tree.find path

theorem releasedCall_ends (s : Server) (call : Call) :
    Ends s ((s.finishCall env call).1.releaseWrite call.name) call := by
  have tree := finishCall_tree env s call
  obtain ⟨_, _, _, _, ended⟩ := s.finishCall_eq env call
  obtain ⟨_, released⟩ := (s.finishCall env call).1.releaseWrite_eq call.name
  rw [ended] at released tree
  rw [ended, released]
  exact ⟨⟨⟨rfl, rfl, rfl, rfl, rfl⟩, rfl, rfl, rfl⟩, rfl, tree⟩

end Server

inductive Handler.Takes [LogCodec] (s : Server) (call : Call) : Stage → HandlerStep → Server → Stage → Prop where
  | refuse (status : Status) (dirty : call.req.dirty = true) (free : s.canWrite call.name = true)
      (refused : (s.acquireWrite call.name).refusal call = some status) :
      Takes s call .opened .acquire { s with table := ((s.acquireWrite call.name).releaseWrite call.name).table }
        (.ended (.error status) none)
  | enter (dirty : call.req.dirty = true) (free : s.canWrite call.name = true)
      (allowed : (s.acquireWrite call.name).refusal call = none) :
      Takes s call .opened .acquire { s with table := (s.acquireWrite call.name).table } .locked
  | clean (env : Env) (clean : call.req.dirty = false) :
      Takes s call .opened (.finish env) (s.finishCall env call).1 (.ended (.ok (s.finishCall env call).2) none)
  | copy (range : RangeOrder) :
      Takes s call .locked (.copy range) s (.copied (s.tempPrimeSet call).2 (s.content range call))
  | index (primes : FilePrimeSet) (content : Bytes) :
      Takes s call (.copied primes content) .index s (.indexed primes (s.logEntry call content s.log.length))
  | append (persist : Outcome) (primes : FilePrimeSet) (entry : LogEntry)
      (written : (s.appendLog persist entry).2 = true) :
      Takes s call (.indexed primes entry) (.append persist)
        { s with log := s.log ++ [entry], logFile := (s.appendLog persist entry).1.logFile } (.logged primes entry)
  | unlogged (persist : Outcome) (primes : FilePrimeSet) (entry : LogEntry)
      (failed : (s.appendLog persist entry).2 ≠ true) :
      Takes s call (.indexed primes entry) (.append persist)
        { s with
          log := s.log ++ [entry], logFile := (s.appendLog persist entry).1.logFile
          table := (s.releaseWrite call.name).table }
        (.ended (.error ⟨.internal, "log persist failed"⟩) (some entry))
  | send (primes : FilePrimeSet) (entry : LogEntry) :
      Takes s call (.logged primes entry) .send s (.sent primes entry s.peerIDs)
  | count (primes : FilePrimeSet) (entry : LogEntry) (awaiting : List String) :
      Takes s call (.sent primes entry awaiting) .count s (.waiting primes entry (s.majority call.kind) awaiting [])
  | ack (peer : String) (ok : Bool) (primes : FilePrimeSet) (entry : LogEntry) (majority : Nat)
      (awaiting acks : List String) (few : acks.length + 1 < majority) (awaited : peer ∈ awaiting) :
      Takes s call (.waiting primes entry majority awaiting acks) (.ack peer ok) s
        (.waiting primes entry majority (awaiting.erase peer) (if ok then peer :: acks else acks))
  | timeout (primes : FilePrimeSet) (entry : LogEntry) (majority : Nat) (awaiting acks : List String)
      (few : acks.length + 1 < majority) :
      Takes s call (.waiting primes entry majority awaiting acks) .timeout
        { s with table := (s.releaseWrite call.name).table }
        (.ended (.error ⟨.unavailable, "failed to reach majority"⟩) (some entry))
  | commit (io : Nat → ApplyIO) (primes : FilePrimeSet) (entry : LogEntry) (majority : Nat)
      (awaiting acks : List String) (reached : majority ≤ acks.length + 1) :
      Takes s call (.waiting primes entry majority awaiting acks) (.commit io)
        (({ s with commitIndex := entry.index.toNat }).applied io) (.committed primes entry s.peerIDs)
  | notify (peer : String) (primes : FilePrimeSet) (entry : LogEntry) (unsent : List String) (left : peer ∈ unsent) :
      Takes s call (.committed primes entry unsent) (.notify peer) s (.committed primes entry (unsent.erase peer))
  | unprimed (env : Env) (primes : FilePrimeSet) (entry : LogEntry) (status : Status) (tree : Tree)
      (filesPrimes : Map String FilePrimeSet)
      (updated : s.updatePrimes env call primes = ({ s with tree := tree, filesPrimes := filesPrimes }, some status)) :
      Takes s call (.committed primes entry []) (.prime env)
        { s with tree := tree, filesPrimes := filesPrimes, table := (s.releaseWrite call.name).table }
        (.ended (.error status) (some entry))
  | prime (env : Env) (primes : FilePrimeSet) (entry : LogEntry) (tree : Tree) (filesPrimes : Map String FilePrimeSet)
      (updated : s.updatePrimes env call primes = ({ s with tree := tree, filesPrimes := filesPrimes }, none)) :
      Takes s call (.committed primes entry []) (.prime env) { s with tree := tree, filesPrimes := filesPrimes }
        (.primed entry)
  | finish (env : Env) (entry : LogEntry) :
      Takes s call (.primed entry) (.finish env)
        { (s.finishCall env call).1 with table := ((s.finishCall env call).1.releaseWrite call.name).table }
        (.ended (.ok (s.finishCall env call).2) (some entry))

theorem Server.setEntry_record {t : Server} (same : t.table = s.table) (name : String)
    (update : FileEntry → FileEntry) : t.setEntry name update = { t with table := (s.setEntry name update).table } := by
  unfold setEntry
  rw [same]
  split
  · rw [← same]
  · rfl

theorem Handler.step_takes [LogCodec] {h : Handler} {action : HandlerStep} {stage : Stage}
    (stepped : h.step s action = some (next, stage)) : Takes s h.call h.stage action next stage := by
  obtain ⟨call, before⟩ := h
  have freed {t : Server} (same : t.table = s.table) :
      t.releaseWrite call.name = { t with table := (s.releaseWrite call.name).table } := Server.setEntry_record same _ _
  unfold Handler.step at stepped
  dsimp only at stepped ⊢
  split at stepped
  case h_1 =>
    unfold Server.lockCall at stepped
    split_ifs at stepped with able
    have held : s.acquireWrite call.name = { s with table := (s.acquireWrite call.name).table } :=
      Server.setEntry_record rfl _ _
    dsimp only at stepped
    split at stepped
    case h_1 status refused =>
      have released : (s.acquireWrite call.name).releaseWrite call.name =
          { s with table := ((s.acquireWrite call.name).releaseWrite call.name).table } := by
        rw [held]
        exact Server.setEntry_record rfl _ _
      rw [released] at stepped
      cases stepped
      exact .refuse status able.1 able.2 refused
    case h_2 allowed =>
      rw [held] at stepped
      cases stepped
      exact .enter able.1 able.2 allowed
  case h_2 env =>
    split_ifs at stepped with dirty
    cases stepped
    exact .clean env (by simpa using dirty)
  case h_5 primes entry persist =>
    obtain ⟨logFile, same⟩ := appendLog_eq persist s entry
    have file : (s.appendLog persist entry).1.logFile = logFile := by rw [same]
    unfold Server.appendCall at stepped
    dsimp only at stepped
    rw [same, freed (t := { s with log := s.log ++ [entry], logFile := logFile }) rfl, ← file] at stepped
    split_ifs at stepped with written <;> cases stepped
    · exact .append persist primes entry written
    · exact .unlogged persist primes entry written
  case h_8 peer ok =>
    split at stepped
    case isTrue able =>
      cases stepped
      exact .ack peer ok _ _ _ _ _ able.1 able.2
    case isFalse => cases stepped
  case h_9 =>
    split_ifs at stepped with few
    rw [freed rfl] at stepped
    cases stepped
    exact .timeout _ _ _ _ _ few
  case h_10 io =>
    split_ifs at stepped with few
    rw [Server.commitEntry_eq] at stepped
    cases stepped
    exact .commit io _ _ _ _ _ (by omega)
  case h_11 =>
    split_ifs at stepped with left
    cases stepped
    exact .notify _ _ _ _ left
  case h_12 primes entry unsent env =>
    split_ifs at stepped with done
    obtain rfl : unsent = [] := done
    obtain ⟨tree, filesPrimes, same⟩ := s.updatePrimes_eq env call primes
    unfold Server.primeCall at stepped
    dsimp only at stepped
    rw [same, freed (t := { s with tree := tree, filesPrimes := filesPrimes }) rfl] at stepped
    split at stepped <;> cases stepped
    case h_1 status failed => exact .unprimed env primes entry status tree filesPrimes (Prod.ext same failed)
    case h_2 updated => exact .prime env primes entry tree filesPrimes (Prod.ext same updated)
  case h_13 entry env =>
    have released : (s.finishCall env call).1.releaseWrite call.name = { (s.finishCall env call).1 with
        table := ((s.finishCall env call).1.releaseWrite call.name).table } := Server.setEntry_record rfl _ _
    rw [released] at stepped
    cases stepped
    exact .finish env entry
  case h_14 => cases stepped
  all_goals
    cases stepped
    constructor

theorem table_effect (s : Server) {h : Handler} {action : HandlerStep} (table : Map String FileEntry)
    {stage : Stage} (entry : stage.entry = h.stage.entry)
    (committed : stage.committedEntry = none ∨ stage.committedEntry = h.stage.committedEntry)
    (settled : ∀ primes entry majority awaiting acks, stage ≠ .waiting primes entry majority awaiting acks)
    (unsent : ∀ primes entry awaiting, stage ≠ .sent primes entry awaiting)
    (indexed : ∀ primes entry, stage = .indexed primes entry →
      entry.op = "WRITE" ∧ entry.filename = h.call.name)
    (logs : ∀ persist, action ≠ .append persist) (commits : ∀ io, action ≠ .commit io)
    (tree : Tree) (filesPrimes : Map String FilePrimeSet) (idle : h.call.kind = .close → tree = s.tree) :
    HandlerEffect s h action { s with table := table, tree := tree, filesPrimes := filesPrimes } stage := by
  refine .quiet action _ stage ?_ logs commits idle
  exact ⟨⟨⟨rfl, rfl, rfl, rfl, rfl⟩, rfl, rfl, rfl⟩, entry, committed, settled, unsent, indexed,
    fun _ found present => ⟨found, present, rfl⟩⟩

theorem finishCall_effect (env : Env) (s : Server) {h : Handler} {entry : Option LogEntry}
    (table : Map String FileEntry) (same : h.stage.entry = entry)
    (committed : entry = none ∨ h.stage.committedEntry = entry) :
    HandlerEffect s h (.finish env) { (s.finishCall env h.call).1 with table := table }
      (.ended (.ok (s.finishCall env h.call).2) entry) := by
  refine .finish env _ _ ?_ (s.finishCall_tree env h.call) (s.finishCall_regular env h.call)
  exact
    { keeps := (s.finishCall_keeps env h.call).trans ⟨⟨rfl, rfl, rfl, rfl, rfl⟩, rfl, rfl, rfl⟩
      entry := same.symm
      committed := committed.imp id Eq.symm
      settled := by simp
      unsent := by simp
      indexed := by simp
      files := s.finishCall_files env h.call }

theorem Handler.step_effect [LogCodec] (s next : Server) (h : Handler) (action : HandlerStep) (stage : Stage)
    (stepped : h.step s action = some (next, stage)) : HandlerEffect s h action next stage := by
  have taken := Handler.step_takes stepped
  obtain ⟨call, before⟩ := h
  have idle {env : Env} {primes : FilePrimeSet} {tree : Tree} {filesPrimes : Map String FilePrimeSet} {failed : Option Status}
      (updated : s.updatePrimes env call primes = ({ s with tree := tree, filesPrimes := filesPrimes }, failed))
      (close : call.kind = .close) : tree = s.tree := by
    unfold Server.updatePrimes at updated
    rw [close] at updated
    exact (congrArg (fun done => Server.tree done.1) updated).symm
  cases taken with
  | refuse | enter | timeout => apply table_effect <;> simp [Stage.entry, Stage.committedEntry]
  | clean env => exact finishCall_effect env s _ rfl (.inl rfl)
  | copy | notify => apply table_effect s s.table <;> simp [Stage.entry, Stage.committedEntry]
  | index => apply table_effect s s.table <;> simp [Stage.entry, Stage.committedEntry, Server.logEntry]
  | append persist primes entry => exact .append persist primes entry s.table _ _ rfl (.inl rfl)
  | unlogged persist primes entry => exact .append persist primes entry _ _ _ rfl (.inr ⟨_, rfl⟩)
  | send primes entry => exact .send primes entry rfl
  | count primes entry awaiting => exact .count primes entry awaiting rfl
  | ack peer ok primes entry majority awaiting acks _ awaited => exact .ack peer ok primes entry majority awaiting acks rfl awaited
  | commit io primes entry majority awaiting acks reached => exact .commit io primes entry majority awaiting acks rfl reached
  | unprimed _ _ _ _ _ _ updated | prime _ _ _ _ _ updated =>
    apply table_effect
    case idle => exact idle updated
    all_goals simp [Stage.entry, Stage.committedEntry]
  | finish env entry => exact finishCall_effect env s _ rfl (.inr rfl)

namespace Server

variable {answer : Except Status Response} {sent : List AppendEntriesRequest}

theorem create_keeps {env : Env} {req : CreateRequest} (handled : s.create env req = .returned next answer sent) :
    Keeps s next := by
  rcases create_cases handled with rfl | ⟨safe, _, effect⟩
  · exact .refl next
  · obtain ⟨_, _, _, _, _, _, rfl, _⟩ := effect
    exact ⟨⟨rfl, rfl, rfl, rfl, rfl⟩, rfl, rfl, rfl⟩

theorem openFile_keeps {env : Env} {req : FileRequest} (handled : s.openFile env req = .returned next answer sent) :
    Keeps s next := by
  rcases openFile_cases handled with rfl | ⟨safe, _, effect⟩
  · exact .refl next
  · obtain ⟨_, _, _, _, _, rfl, _⟩ := effect
    exact ⟨⟨rfl, rfl, rfl, rfl, rfl⟩, rfl, rfl, rfl⟩

theorem rebuildAllPrimeSets_keeps (s : Server) : Keeps s s.rebuildAllPrimeSets := by
  obtain ⟨filesPrimes, same⟩ := s.rebuildAllPrimeSets_eq
  rw [same]
  exact ⟨⟨rfl, rfl, rfl, rfl, rfl⟩, rfl, rfl, rfl⟩

theorem receiveFiles_keeps (disk : DiskIO) (position : Nat) (s : Server) (files : List Replication) :
    Keeps s (s.receiveFiles disk position files).1 := by
  obtain ⟨_, _, _, _, _, same⟩ := s.receiveFiles_eq disk position files
  rw [same]
  exact ⟨⟨rfl, rfl, rfl, rfl, rfl⟩, rfl, rfl, rfl⟩

theorem sendHeartbeat_keepsLog (now : Time) (s : Server) (req : Heartbeat) :
    KeepsLog s (s.sendHeartbeat now req).1 := by
  obtain ⟨info, ⟨_, _, same⟩ | ⟨_, same⟩⟩ := s.sendHeartbeat_cases now req <;> rw [same] <;>
    exact ⟨rfl, rfl, rfl, rfl, rfl⟩

theorem heartbeatReply_keepsLog (s : Server) (success : Bool) : KeepsLog s (s.heartbeatReply success) := by
  unfold heartbeatReply
  split_ifs <;> exact ⟨rfl, rfl, rfl, rfl, rfl⟩

theorem monitorPrimary_keepsLog (now : Time) (s : Server) : KeepsLog s (s.monitorPrimary now) := by
  rcases s.monitorPrimary_cases now with same | ⟨_, _, same⟩ <;> rw [same]
  · exact ⟨rfl, rfl, rfl, rfl, rfl⟩
  · unfold elect markDead
    split <;> exact ⟨rfl, rfl, rfl, rfl, rfl⟩

end Server

namespace Node

theorem handle_returned {n next : Node} {result : Result} (handled : n.handle result = some next) :
    ∃ s answer sent, result = .returned s answer sent ∧ next = { n with server := s } := by
  unfold handle at handled
  split at handled
  case h_1 s answer sent =>
    cases handled
    exact ⟨s, answer, sent, rfl, rfl⟩
  case h_2 => cases handled

theorem begin_cases (n next : Node) (id : Nat) (kind : Kind) (now : Time) (req : DataRequest)
    (begun : n.begin id kind now req = some next) :
    next = n ∨ ∃ found mode table, n.handlers id = none ∧ n.server.files.lookup req.fd = some found ∧
      next = ⟨{ n.server with table := table },
        Function.update n.handlers id (some ⟨⟨kind, req, found.filename, mode⟩, .opened⟩)⟩ := by
  unfold begin at begun
  split_ifs at begun with taken
  split at begun
  case h_1 result ended =>
    obtain ⟨s, answer, sent, rfl, rfl⟩ := handle_returned begun
    obtain ⟨rfl, _⟩ := Server.beginCall_ended ended
    exact .inl rfl
  case h_2 s call opened =>
    cases begun
    obtain ⟨found, client, table, _, present, _, rfl, rfl⟩ :=
      Server.beginCall_opened kind now n.server s req call opened
    exact .inr ⟨found, client.mode, table, by simpa using taken, present, rfl⟩

theorem handlerStep_cases [LogCodec] {n next : Node} {id : Nat} {action : HandlerStep}
    (stepped : n.handlerStep id action = some next) :
    ∃ h server stage, n.handlers id = some h ∧ h.step n.server action = some (server, stage) ∧
      HandlerEffect n.server h action server stage ∧
      next = ⟨server, Function.update n.handlers id (some { h with stage := stage })⟩ := by
  unfold handlerStep at stepped
  split at stepped
  case h_1 => cases stepped
  case h_2 h here =>
    split at stepped
    case h_1 => cases stepped
    case h_2 server stage moved =>
      cases stepped
      exact ⟨h, server, stage, here, moved, h.step_effect n.server server action stage moved, rfl⟩

end Node

end Ikkat
