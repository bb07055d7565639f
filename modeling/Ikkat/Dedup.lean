import Ikkat.Commits
import Ikkat.Election

set_option autoImplicit false

namespace Ikkat

variable {content : Bytes} {call : Call} {env : Env} {entry : LogEntry} {io : Nat → ApplyIO} {s next : Server}
variable {name : String}

def Exact (data : Bytes) (primes : FilePrimeSet) : Prop :=
  (parseNumbers data).Nodup ∧ ∀ number, number ∈ parseNumbers data ↔ number ∈ primes

theorem exact_render (range : RangeOrder) (primes : FilePrimeSet) : Exact (range.render primes) primes :=
  range.parse_render primes

-- Output files under names that the server keeps as they are, none of them the version file or the
-- temporary file of another.
structure OutputNames where
  names : Set String
  output : ∀ name ∈ names, hasPrefix "output/" name = true
  plain : ∀ name ∈ names, Plain name
  normal : ∀ name ∈ names, normalize name = some name
  noMeta : ∀ name ∈ names, name ++ ".meta" ∉ names
  noTmp : ∀ name ∈ names, name ++ ".tmp" ∉ names

theorem normalizeQuiet_normal (name : String) (normal : normalize name = some name) :
    normalizeQuiet name = name := by
  unfold normalize at normal
  cases clean : sanitizePath name with
  | none => simp [clean] at normal
  | some safe => simpa [normalizeQuiet, clean] using normal

theorem Call.name_normal (call : Call) (normal : normalize call.filename = some call.filename) :
    call.name = call.filename ∧ call.primeKey = call.filename := by
  have quiet := normalizeQuiet_normal call.filename normal
  unfold Call.name Call.primeKey
  cases call.kind <;> simp [quiet]

namespace OutputNames

theorem path_injective (files : OutputNames) (rootDir left right : String) (member : left ∈ files.names)
    (other : right ∈ files.names) (same : join rootDir left = join rootDir right) : left = right :=
  join_injective (files.plain left member) (files.plain right other) same

theorem path_suffix {files : OutputNames} (rootDir : String) {other : String} (suffix : String)
    (member : name ∈ files.names) (another : other ∈ files.names) (free : name ++ suffix ∉ files.names)
    (noSlash : '/' ∉ suffix.toList) (long : 2 < suffix.toList.length) :
    join rootDir other ≠ join rootDir (name ++ suffix) := by
  intro same
  have equal := join_injective (files.plain other another)
    (plain_suffix suffix (files.plain name member) noSlash long) same
  exact free (equal ▸ another)

theorem call_name (files : OutputNames) (call : Call) (member : call.filename ∈ files.names) :
    call.name = call.filename ∧ call.primeKey = call.filename :=
  call.name_normal (files.normal _ member)

end OutputNames

namespace Server

def Deduplicated (s : Server) (filename : String) : Prop :=
  Exact ((s.bytes filename).getD []) (s.primeSet filename)

def unapplied (s : Server) : List LogEntry :=
  s.log.drop s.lastApplied

def Opened (files : OutputNames) (s : Server) : Prop :=
  ∀ fd found, s.files.lookup fd = some found → found.filename ∈ files.names ∧
    ∀ client state, found.clients.lookup client = some state → state.mode = .write →
      ∃ content, s.bytes found.filename = some content

structure Settled (files : OutputNames) (s : Server) : Prop where
  dedup : ∀ name ∈ files.names, s.Deduplicated name
  opened : s.Opened files
  unapplied : ∀ entry ∈ s.unapplied, entry.op = "WRITE" ∧ entry.filename ∈ files.names ∧
    ∃ content, s.bytes entry.filename = some content
  applied : s.lastApplied ≤ s.log.length

end Server

def lastFor (filename : String) (entries : List LogEntry) : Option LogEntry :=
  (entries.filter fun entry => entry.filename = filename).getLast?

theorem lastContent_lastFor {files : OutputNames} (rootDir : String) (member : name ∈ files.names)
    (entries : List LogEntry) (content : Bytes)
    (writes : ∀ entry ∈ entries, entry.op = "WRITE" ∧ entry.filename ∈ files.names) :
    lastContent rootDir (join rootDir name) entries content =
      ((lastFor name entries).map LogEntry.content).getD content := by
  induction entries generalizing content with
  | nil => rfl
  | cons entry rest ih =>
    obtain ⟨write, named⟩ := writes entry (by simp)
    have later := ih (if entry.filename = name then entry.content else content)
      fun other inside => writes other (by simp [inside])
    have same : (entry.op = "WRITE" ∧ join rootDir name = join rootDir entry.filename) ↔
        entry.filename = name :=
      ⟨fun ⟨_, path⟩ => (files.path_injective rootDir _ _ member named path).symm,
        fun equal => ⟨write, equal ▸ rfl⟩⟩
    simp only [lastContent, same, later]
    by_cases hit : entry.filename = name
    · simp [lastFor, hit, List.getLast?_cons]
    · simp [lastFor, hit]

namespace Server

variable (files : OutputNames)

theorem settled_frame (s : Server) (settled : s.Settled files) (table : Map String FileEntry)
    (requests : Map String RequestEntry) (openMap : Map FileKey Int32) (nextFD : Int32) :
    Settled files
      { s with table := table, requests := requests, openMap := openMap, nextFD := nextFD } :=
  ⟨settled.dedup, settled.opened, settled.unapplied, settled.applied⟩

theorem settled_tree (settled : s.Settled files) (tree : Tree) (same : ∀ name ∈ files.names,
      (bytes { s with tree := tree } name).getD [] = (s.bytes name).getD [])
    (kept : ∀ name ∈ files.names, ∀ content, s.bytes name = some content →
      ∃ content, bytes { s with tree := tree } name = some content) :
    Settled files { s with tree := tree } := by
  refine ⟨?_, ?_, ?_, settled.applied⟩
  · intro name member
    unfold Deduplicated
    rw [same name member]
    exact settled.dedup name member
  · intro fd found present
    obtain ⟨member, regular⟩ := settled.opened fd found present
    refine ⟨member, fun client state registered write => ?_⟩
    obtain ⟨content, holds⟩ := regular client state registered write
    exact kept _ member content holds
  · intro entry inside
    obtain ⟨write, member, content, holds⟩ := settled.unapplied entry inside
    exact ⟨write, member, kept _ member content holds⟩

theorem settled_keep (s : Server) (settled : s.Settled files) (tree : Tree)
    (same : ∀ name ∈ files.names, bytes { s with tree := tree } name = s.bytes name) :
    Settled files { s with tree := tree } :=
  settled_tree files settled tree (fun name member => by rw [same name member])
    (fun name member content holds => ⟨content, (same name member).trans holds⟩)

theorem settled_register (settled : s.Settled files) (fd : Int32) {opened : FileMeta}
    (member : opened.filename ∈ files.names)
    (regular : ∀ client state, opened.clients.lookup client = some state → state.mode = .write →
      ∃ content, s.bytes opened.filename = some content) :
    Settled files { s with files := s.files.insert fd opened } := by
  refine ⟨settled.dedup, ?_, settled.unapplied, settled.applied⟩
  intro key found present
  rcases opened_insert present with rfl | old
  · exact ⟨member, regular⟩
  · exact settled.opened key found old

variable {safe filename : String} {primes : FilePrimeSet}

theorem settled_create (settled : s.Settled files)
    (member : safe ∈ files.names) (effect : s.CreateEffect next safe) : next.Settled files := by
  have keeps := createEffect_bytes effect
  obtain ⟨table, requests, openMap, nextFD, metas, tree, rfl, effect⟩ := effect
  apply settled_frame files { s with files := metas, tree := tree }
  rcases effect with ⟨same, rfl⟩ | ⟨⟨absent, adds⟩, opened⟩
  · apply settled_keep files s settled
    exact fun name _ => s.bytes_of_files { s with tree := tree } rfl name (same _)
  · have other (name : String) (content : Bytes) (holds : s.bytes name = some content) :
        bytes { s with tree := tree } name = some content := keeps name content holds
    have created : bytes { s with tree := tree } safe = some [] := by
      rw [bytes_eq]
      exact (adds _ []).mpr (by simp [path])
    have grown : Settled files { s with tree := tree } := by
      refine settled_tree files settled tree ?_ fun name _ content holds => ⟨content, other name content holds⟩
      intro name inside
      cases before : s.bytes name with
      | some content => rw [other name content before]
      | none =>
        cases after : bytes { s with tree := tree } name with
        | none => rfl
        | some content =>
          rw [bytes_eq] at after
          have here := (adds _ content).mp after
          split_ifs at here with new
          · simp [here]
          · have old := (bytes_eq s name content).mpr here
            rw [before] at old
            cases old
    rcases opened with rfl | ⟨fd, opened, rfl, rfl⟩
    · exact grown
    · exact settled_register files grown fd member fun _ _ _ _ => ⟨[], created⟩

theorem settled_open (settled : s.Settled files)
    (member : safe ∈ files.names) (effect : s.OpenEffect next safe) : next.Settled files := by
  obtain ⟨table, requests, openMap, nextFD, metas, rfl, effect⟩ := effect
  apply settled_frame files { s with files := metas }
  rcases effect with rfl | ⟨fd, opened, rfl, rfl, regular⟩
  · exact settled
  · exact settled_register files settled fd member regular

theorem settled_dropClient (settled : s.Settled files) (call : Call) : (s.dropClient call).Settled files := by
  unfold dropClient
  split
  case h_1 => exact settled
  case h_2 =>
    split
    case h_1 => exact settled
    case h_2 found present =>
      obtain ⟨member, regular⟩ := settled.opened _ found present
      refine settled_register files settled _ member ?_
      intro client state registered
      exact regular client state (Map.lookup_of_erase _ call.req.clientID registered)

theorem settled_bumpVersion (env : Env) (settled : s.Settled files)
    (member : call.name ∈ files.names) : (s.bumpVersion env call).Settled files := by
  obtain ⟨table, tree, bumped, saved⟩ := s.bumpVersion_eq env call
  rw [bumped]
  rcases saved with rfl | ⟨data, rfl⟩
  · exact settled_frame files s settled ..
  · apply settled_keep files { s with table := table } (settled_frame files s settled ..)
    intro name inside
    apply bytes_congr
    · rfl
    · exact osWriteFile_other _ _ _ _ _ (OutputNames.path_suffix s.rootDir ".meta" member inside
        (files.noMeta _ member) (by decide) (by decide))

theorem settled_finishCall (env : Env) (settled : s.Settled files)
    (member : call.name ∈ files.names) : (s.finishCall env call).1.Settled files :=
  settled_frame files _
    (settled_dropClient files (settled_bumpVersion files env settled member) call) ..

theorem settled_release (s : Server) (settled : s.Settled files) (name : String) :
    (s.releaseWrite name).Settled files := by
  obtain ⟨table, same⟩ := s.releaseWrite_eq name
  rw [same]
  exact settled_frame files s settled ..

theorem settled_logged (settled : s.Settled files) (logFile : Bytes)
    (write : entry.op = "WRITE") (member : entry.filename ∈ files.names)
    (regular : s.bytes entry.filename = some content) :
    Settled files { s with log := s.log ++ [entry], logFile := logFile } := by
  refine ⟨settled.dedup, settled.opened, ?_, ?_⟩
  · intro other inside
    have split : unapplied { s with log := s.log ++ [entry], logFile := logFile } =
        s.unapplied ++ [entry] := List.drop_append_of_le_length settled.applied
    rw [split, List.mem_append, List.mem_singleton] at inside
    rcases inside with old | rfl
    · exact settled.unapplied other old
    · exact ⟨write, member, content, regular⟩
  · have bound := settled.applied
    simp only [List.length_append]
    omega

def CaughtUp (s : Server) (filename : String) : Prop :=
  ∀ name ∈ files.names, name ≠ filename → ∀ entry, lastFor name s.unapplied = some entry →
    Exact entry.content (s.primeSet name)

structure Written (filename : String) (content : Bytes) (s : Server) : Prop where
  others : ∀ name ∈ files.names, name ≠ filename → s.Deduplicated name
  content : s.bytes filename = some content
  opened : s.Opened files
  applied : s.lastApplied = s.log.length

theorem settled_written (filename : String) (content : Bytes)
    (written : s.Written files filename content) (holds : Exact content (s.primeSet filename)) :
    s.Settled files := by
  refine ⟨?_, written.opened, ?_, Nat.le_of_eq written.applied⟩
  · intro name member
    by_cases same : name = filename
    · subst same
      simpa [Deduplicated, written.content] using holds
    · exact written.others name member same
  · intro entry inside
    simp [unapplied, written.applied] at inside

theorem bytes_applied (healthy : ∀ position, io position = .ok)
    (member : name ∈ files.names) (regular : s.bytes name = some content)
    (writes : ∀ entry ∈ s.pending, entry.op = "WRITE" ∧ entry.filename ∈ files.names) :
    (s.applied io).bytes name = some (((lastFor name s.pending).map LogEntry.content).getD content) := by
  have fine : io = fun _ => .ok := funext healthy
  rw [bytes_eq] at regular ⊢
  subst fine
  rw [← lastContent_lastFor s.rootDir member s.pending content writes]
  exact applyAll_file s.rootDir s.lastApplied s.pending s.tree (s.path name) content regular

theorem lastFor_append (name : String) (entries : List LogEntry) (entry : LogEntry) :
    lastFor name (entries ++ [entry]) =
      if entry.filename = name then some entry else lastFor name entries := by
  unfold lastFor
  split_ifs with same <;> simp [same]

theorem mem_of_lastFor {entries : List LogEntry}
    (last : lastFor name entries = some entry) : entry ∈ entries ∧ entry.filename = name := by
  have member := List.mem_of_getLast? last
  simpa using member

theorem pending_commit (within : s.lastApplied ≤ s.log.length)
    (logFile : Bytes) (index : entry.index = s.log.length + 1) :
    pending { s with log := s.log ++ [entry], logFile := logFile, commitIndex := entry.index.toNat } =
      s.unapplied ++ [entry] := by
  have position : entry.index.toNat = s.log.length + 1 := by omega
  simp only [pending, position]
  rw [List.take_of_length_le (by simp), List.drop_append_of_le_length within]
  rfl

theorem bytes_commit (healthy : ∀ position, io position = .ok) (within : s.lastApplied ≤ s.log.length)
    (writes : ∀ entry ∈ s.unapplied, entry.op = "WRITE" ∧ entry.filename ∈ files.names)
    (logFile : Bytes) (index : entry.index = s.log.length + 1)
    (write : entry.op = "WRITE") (member : entry.filename ∈ files.names)
    (inside : name ∈ files.names) (present : s.bytes name = some content) :
    (commitEntry io { s with log := s.log ++ [entry], logFile := logFile } entry).bytes name =
      some (((lastFor name (s.unapplied ++ [entry])).map LogEntry.content).getD content) := by
  rw [commitEntry_eq, ← pending_commit within logFile index]
  refine bytes_applied files healthy inside present fun other listed => ?_
  rw [pending_commit within logFile index, List.mem_append, List.mem_singleton] at listed
  rcases listed with before | rfl
  · exact writes other before
  · exact ⟨write, member⟩

theorem lastApplied_commit (io : Nat → ApplyIO) (within : s.lastApplied ≤ s.log.length)
    (logFile : Bytes) (index : entry.index = s.log.length + 1) :
    (commitEntry io { s with log := s.log ++ [entry], logFile := logFile } entry).lastApplied =
      s.log.length + 1 := by
  rw [commitEntry_eq]
  simp only [applied, List.length_append, List.length_singleton]
  omega

theorem written_commit (healthy : ∀ position, io position = .ok) (settled : s.Settled files) (logFile : Bytes)
    (index : entry.index = s.log.length + 1) (write : entry.op = "WRITE")
    (member : entry.filename ∈ files.names) {old : Bytes} (regular : s.bytes entry.filename = some old)
    (caughtUp : s.CaughtUp files entry.filename) :
    Written files entry.filename entry.content
      (commitEntry io { s with log := s.log ++ [entry], logFile := logFile } entry) := by
  have writes (other : LogEntry) (listed : other ∈ s.unapplied) :=
    And.intro (settled.unapplied other listed).1 (settled.unapplied other listed).2.1
  have holds (name : String) (inside : name ∈ files.names) (content : Bytes)
      (present : s.bytes name = some content) :=
    bytes_commit files healthy settled.applied writes logFile index write member inside
      present
  have pending := pending_commit settled.applied logFile index
  have reached := lastApplied_commit io settled.applied logFile index
  rw [commitEntry_eq] at holds reached ⊢
  refine ⟨?_, ?_, ?_, ?_⟩
  · intro name inside different
    unfold Deduplicated
    cases last : lastFor name s.unapplied with
    | some newest =>
      obtain ⟨listed, rfl⟩ := mem_of_lastFor last
      obtain ⟨_, _, content, present⟩ := settled.unapplied newest listed
      rw [holds _ inside content present, lastFor_append, if_neg (Ne.symm different), last]
      exact caughtUp _ inside different newest last
    | none =>
      have kept : (applied io
          { s with log := s.log ++ [entry], logFile := logFile, commitIndex := entry.index.toNat }).bytes name =
            s.bytes name := by
        refine bytes_of_files s (applied io _) ?_ name fun content => ?_
        · rfl
        refine applyAll_other io s.rootDir _ _ s.tree _ content ?_
        intro other listed path
        rw [pending, List.mem_append, List.mem_singleton] at listed
        rcases listed with before | rfl
        · have equal := files.path_injective s.rootDir name other.filename inside (writes other before).2 path
          simp only [lastFor, List.getLast?_eq_none_iff, List.filter_eq_nil_iff] at last
          exact last other before (by simp [equal])
        · exact different (files.path_injective s.rootDir name other.filename inside member path)
      rw [kept]
      exact settled.dedup name inside
  · rw [holds _ member old regular, lastFor_append, if_pos rfl]
    rfl
  · intro fd found present
    obtain ⟨inside, regular⟩ := settled.opened fd found present
    refine ⟨inside, fun client state registered mode => ?_⟩
    obtain ⟨content, exists_⟩ := regular client state registered mode
    exact ⟨_, holds _ inside content exists_⟩
  · rw [reached]
    simp [applied]

theorem written_tree (written : s.Written files filename content) (member : filename ∈ files.names) (tree : Tree)
    (same : ∀ name ∈ files.names, bytes { s with tree := tree } name = s.bytes name) :
    Written files filename content { s with tree := tree } := by
  refine ⟨?_, (same _ member).trans written.content, ?_, written.applied⟩
  · intro name inside different
    unfold Deduplicated
    rw [same name inside]
    exact written.others name inside different
  · intro fd found present
    obtain ⟨inside, regular⟩ := written.opened fd found present
    refine ⟨inside, fun client state registered write => ?_⟩
    rw [same _ inside]
    exact regular client state registered write

theorem settled_setPrimes (written : s.Written files filename content) (holds : Exact content primes) :
    (s.setPrimes filename primes).Settled files := by
  have kept (name : String) (different : name ≠ filename) :
      (s.setPrimes filename primes).primeSet name = s.primeSet name := by
    simp [primeSet, setPrimes, AList.lookup_insert_ne different]
  apply settled_written files filename content
  · refine ⟨?_, written.content, written.opened, written.applied⟩
    intro name member different
    unfold Deduplicated
    rw [kept name different]
    exact written.others name member different
  · simpa [primeSet, setPrimes] using holds

theorem settled_updatePrimes (env : Env) (member : call.filename ∈ files.names)
    (written : s.Written files call.filename content) (close : call.kind = .close → Exact content primes)
    (write : call.kind = .write → content = call.req.data ∧ Exact content (s.primeSet call.filename)) :
    (s.updatePrimes env call primes).1.Settled files := by
  obtain ⟨_, key⟩ := files.call_name call member
  unfold updatePrimes
  split
  case h_1 kind =>
    rw [key]
    exact settled_setPrimes files written (close kind)
  case h_2 kind =>
    obtain ⟨rfl, holds⟩ := write kind
    have known : s.tempPrimeSet call = ([], s.primeSet call.filename) := by
      rw [tempPrimeSet, key]
      exact filterUniquePrimes_known _ fun number inside => (holds.2 number).mp inside
    have tmp : withSuffix (s.path call.filename) ".tmp" = join s.rootDir (call.filename ++ ".tmp") :=
      (join_suffix s.rootDir call.filename ".tmp" (files.plain _ member) (by decide) (by decide)).symm
    have apart (name : String) (inside : name ∈ files.names) :
        s.path name ≠ withSuffix (s.path call.filename) ".tmp" := by
      rw [tmp]
      exact OutputNames.path_suffix s.rootDir ".tmp" member inside (files.noTmp _ member)
        (by decide) (by decide)
    obtain ⟨tree, same, others⟩ :=
      appendUnique_nil env s call.filename (by simp [(bytes_eq ..).mp written.content]) (apart _ member)
    have kept := written_tree files written member tree fun name inside =>
      bytes_congr s { s with tree := tree } rfl name (others _ (apart name inside))
    dsimp only
    rw [known]
    split
    · rw [same]
      exact settled_written files call.filename call.req.data kept holds
    · rw [same, key]
      exact settled_setPrimes files kept holds

section Run

variable [LogCodec]

def Orderly (kind : Kind) (env : Env) (s : Server) (req : DataRequest) : Prop :=
  ∀ call ready, s.Enters kind env req call ready → ready.Replicated env kind →
    (∀ position, env.apply position = .ok) ∧ s.CaughtUp files call.filename ∧
      (kind = .write → Exact req.data (s.primeSet call.filename))

theorem settled_commitCall (settled : s.Settled files)
    (member : call.filename ∈ files.names) {old : Bytes} (holds : s.bytes call.filename = some old)
    (conditions : s.Replicated env call.kind →
      (∀ position, env.apply position = .ok) ∧ s.CaughtUp files call.filename ∧
        (call.kind = .write → Exact call.req.data (s.primeSet call.filename))) :
    (s.commitCall env call).1.Settled files := by
  have file : (s.logEntry call (s.content env.range call) s.log.length).filename = call.filename :=
    (files.call_name call member).1
  obtain ⟨logFile, _, ⟨_, same, _⟩ | ⟨replicated, same, _⟩⟩ := commitCall_cases env s call
  · rw [same]
    exact settled_logged files settled logFile rfl (file ▸ member) (file ▸ holds)
  · obtain ⟨healthy, caughtUp, exact_⟩ := conditions replicated
    rw [same]
    have written := written_commit files healthy settled
      logFile rfl rfl (file ▸ member) (file ▸ holds) (file ▸ caughtUp)
    rw [file] at written
    refine settled_updatePrimes files env member written ?_ ?_
    · intro isClose
      simp only [content, isClose]
      exact exact_render env.range _
    · intro isWrite
      simp only [logEntry, content, isWrite, true_and]
      rw [commitEntry_eq]
      exact exact_ isWrite

theorem settled_enters {kind : Kind} (settled : s.Settled files)
    {req : DataRequest} (orderly : s.Orderly files kind env req) {ready : Server}
    (enters : s.Enters kind env req call ready) :
    call.name ∈ files.names ∧ (ready.commitCall env call).1.Settled files := by
  have conditions := orderly call ready enters
  obtain ⟨found, client, table, _, present, registered, mode, _, rfl, rfl⟩ :=
    enters_eq kind env s ready req call enters
  obtain ⟨member, regular⟩ := settled.opened _ found present
  obtain ⟨old, holds⟩ := regular _ client registered mode
  have name := (files.call_name ⟨kind, req, found.filename, client.mode⟩ member).1
  exact ⟨name ▸ member, settled_commitCall files (settled_frame files s settled ..) member holds
    conditions⟩

theorem settled_handleCall {kind : Kind} (settled : s.Settled files)
    {req : DataRequest} (orderly : s.Orderly files kind env req) {answer : Except Status Response}
    {sent : List AppendEntriesRequest} (handled : s.handleCall kind env req = .returned next answer sent) :
    next.Settled files := by
  rcases handleCall_cases handled with
    ⟨table, rfl⟩ | ⟨opened, call, begun, clean, rfl⟩ | ⟨ready, call, enters, rfl⟩
  · exact settled_frame files s settled ..
  · obtain ⟨found, client, table, _, present, _, rfl, rfl⟩ :=
      beginCall_opened kind env.start s opened req call begun
    have member := (settled.opened _ found present).1
    have name := (files.call_name ⟨kind, req, found.filename, client.mode⟩ member).1
    exact settled_finishCall files env (settled_frame files s settled ..) (name ▸ member)
  · obtain ⟨member, committed⟩ := settled_enters files settled orderly enters
    apply settled_release
    split_ifs
    · exact settled_finishCall files env committed member
    · exact committed

end Run

end Server

inductive ClientRequest where
  | create (req : CreateRequest)
  | openFile (req : FileRequest)
  | close (req : DataRequest)
  | write (req : DataRequest)

structure ClientAction where
  env : Env
  request : ClientRequest

section Run

variable [LogCodec]

def clientStep (s : Server) (action : ClientAction) : Option Server :=
  let result :=
    match action.request with
    | .create req => s.create action.env req
    | .openFile req => s.openFile action.env req
    | .close req => s.close action.env req
    | .write req => s.write action.env req
  match result with
  | .returned next _ _ => some next
  | _ => none

def OrderlyAction (files : OutputNames) (s : Server) (action : ClientAction) : Prop :=
  match action.request with
  | .create req => ∀ safe, normalize req.filename = some safe → safe ∈ files.names
  | .openFile req => ∀ safe, normalize req.filename = some safe → safe ∈ files.names
  | .close req => s.Orderly files .close action.env req
  | .write req => s.Orderly files .write action.env req

theorem settled_clientStep (files : OutputNames) (s next : Server) (action : ClientAction)
    (settled : s.Settled files) (orderly : OrderlyAction files s action)
    (stepped : clientStep s action = some next) : next.Settled files := by
  obtain ⟨env, request⟩ := action
  unfold clientStep at stepped
  dsimp only at stepped
  split at stepped
  case h_2 => cases stepped
  case h_1 answered answer sent handled =>
    cases stepped
    cases request with
    | create req =>
      rcases Server.create_cases handled with rfl | ⟨safe, named, effect⟩
      · exact settled
      · exact Server.settled_create files settled (orderly safe named) effect
    | openFile req =>
      rcases Server.openFile_cases handled with rfl | ⟨safe, named, effect⟩
      · exact settled
      · exact Server.settled_open files settled (orderly safe named) effect
    | close req | write req => exact Server.settled_handleCall files settled orderly handled

theorem files_match_sets (files : OutputNames) (s : Server) (settled : s.Settled files)
    (actions : List ClientAction) (final : Server)
    (orderly : Transition.Meets clientStep (OrderlyAction files) s actions)
    (reached : Transition.run clientStep s actions = some final) (name : String)
    (member : name ∈ files.names) :
    (parseNumbers ((final.bytes name).getD [])).Nodup ∧
      ∀ number, number ∈ parseNumbers ((final.bytes name).getD []) ↔ number ∈ final.primeSet name :=
  (Transition.run_invariant (OrderlyAction files) (fun s => s.Settled files)
    (fun s action next => settled_clientStep files s next action) s settled actions orderly
    reached).dedup name member

end Run

def oneFile : OutputNames where
  names := {"output/a"}
  output := by rintro name rfl; decide
  plain := by rintro name rfl; decide
  normal := by rintro name rfl; decide
  noMeta := by
    rintro name rfl
    change ¬ "output/a" ++ ".meta" = "output/a"
    decide
  noTmp := by
    rintro name rfl
    change ¬ "output/a" ++ ".tmp" = "output/a"
    decide

def createOne : ClientAction :=
  ⟨{}, .create { requestId := "r1", filename := "output/a", clientId := "c", mode := .write }⟩

def sendTwo (kind : DataRequest → ClientRequest) : ClientAction :=
  ⟨{ answers := [("2", true), ("3", true)] },
    kind { requestId := "r2", fd := 0, dirty := true, version := 0, data := [50, 10], clientID := "c" }⟩

theorem firstPrimary_settled : firstPrimary.Settled oneFile := by
  have file : firstPrimary.bytes "output/a" = none := by decide +kernel
  have primes : (firstPrimary.primeSet "output/a").elems = [] := by decide +kernel
  have log : firstPrimary.log = [] := by decide +kernel
  have applied : firstPrimary.lastApplied = 0 := by decide +kernel
  refine ⟨?_, ?_, ?_, ?_⟩
  · rintro name rfl
    simp [Server.Deduplicated, Exact, file, ← FilePrimeSet.mem_elems, primes]
  · intro fd found present
    cases present
  · intro entry inside
    simp [Server.unapplied, log] at inside
  · rw [applied]
    exact Nat.zero_le _

theorem sendTwo_orderly :
    Transition.Meets clientStep (OrderlyAction oneFile) firstPrimary [createOne, sendTwo .close] := by
  refine ⟨?_, fun next stepped => ⟨?_, fun _ _ => trivial⟩⟩
  · intro safe named
    have same : normalize "output/a" = some "output/a" := by decide
    exact Option.some.inj (named.symm.trans same)
  · have empty : ((clientStep firstPrimary createOne).map Server.unapplied) = some [] := by decide +kernel
    rw [stepped, Option.map_some, Option.some.injEq] at empty
    intro call ready _ _
    refine ⟨fun _ => rfl, ?_, by rintro ⟨⟩⟩
    intro name _ _ entry last
    simp [empty, lastFor] at last

theorem files_match_sets_one_close :
    ∃ final, Transition.run clientStep firstPrimary [createOne, sendTwo .close] = some final ∧
      (parseNumbers ((final.bytes "output/a").getD [])).Nodup ∧
      ∀ number, number ∈ parseNumbers ((final.bytes "output/a").getD []) ↔
        number ∈ final.primeSet "output/a" := by
  have ends : (Transition.run clientStep firstPrimary [createOne, sendTwo .close]).isSome := by
    decide +kernel
  obtain ⟨final, reached⟩ := Option.isSome_iff_exists.mp ends
  exact ⟨final, reached, files_match_sets oneFile firstPrimary firstPrimary_settled _ final sendTwo_orderly
    reached "output/a" rfl⟩

-- Write puts its data into the log and into the file, and then appends what it takes for new.
theorem write_lists_number_twice :
    (Transition.run clientStep firstPrimary [createOne, sendTwo .write]).map
        (fun s => (parseNumbers ((s.bytes "output/a").getD []), (s.primeSet "output/a").elems)) =
      some ([2, 2], [2]) ∧
    ¬ ([2, 2] : List UInt64).Nodup := by
  decide +kernel

end Ikkat
