import Ikkat.Recovery
import Ikkat.Handlers

set_option autoImplicit false

namespace Ikkat

variable {call : Call} {req : DataRequest} {disk : DiskIO} {env : Env} {answer : Except Status Response}
variable {sent : List AppendEntriesRequest} {entry : LogEntry} {next s : Server} {name : String}

def Server.numbers (s : Server) (filename : String) : List UInt64 :=
  parseNumbers ((s.bytes filename).getD [])

def Server.putBy (s next : Server) (env : Env) (req : DataRequest) :
    Except Status Response → List (String × UInt64)
  | .error _ => []
  | .ok _ =>
      if req.dirty = true ∧ s.cachedCall .close req.requestId env.start = none then
        match s.files.lookup req.fd with
        | none => []
        | some found =>
            (parseNumbers req.data ++ next.numbers found.filename).map fun number => (found.filename, number)
      else []

def Server.restarted [LogCodec] (config : Map String ServerInfo) (io : Nat → ApplyIO) (now : Time) (port : String) (s : Server) :
    Server :=
  (newServer s.id s.rootDir config s.tree s.logFile).startServer io now port

def Loggable (files : OutputNames) (entry : LogEntry) : Prop :=
  entry.op = "WRITE" ∧ entry.filename ∈ files.names

namespace Server

section State

variable [LogCodec] (files : OutputNames)

structure Tidy (s : Server) : Prop where
  disk : ∃ entries, s.logFile = logBytes entries ∧ ∀ entry ∈ entries, Loggable files entry
  log : ∀ entry ∈ s.log, Loggable files entry
  opened : ∀ fd found, s.files.lookup fd = some found → found.filename ∈ files.names

structure Retains (s : Server) (name : String) (number : UInt64) : Prop where
  file : ∃ content, s.bytes name = some content ∧ number ∈ parseNumbers content
  disk : ∃ entries, s.logFile = logBytes entries ∧
    ∃ entry, lastFor name entries = some entry ∧ number ∈ parseNumbers entry.content
  waiting : ∀ entry, lastFor name s.unapplied = some entry → number ∈ parseNumbers entry.content

omit files in
theorem retains_frame (s : Server) (name : String) (number : UInt64) (keeps : KeepsLog s next)
    (logFile : next.logFile = s.logFile)
    (bytes : ∀ content, s.bytes name = some content → next.bytes name = some content)
    (retains : s.Retains name number) : next.Retains name number := by
  obtain ⟨content, present, inside⟩ := retains.file
  refine ⟨⟨content, bytes content present, inside⟩, logFile.symm ▸ retains.disk, ?_⟩
  unfold unapplied
  rw [keeps.log, keeps.lastApplied]
  exact retains.waiting

theorem tidy_frame (s next : Server) (log : next.log = s.log) (logFile : next.logFile = s.logFile)
    (opened : ∀ fd found, next.files.lookup fd = some found → found.filename ∈ files.names)
    (tidy : s.Tidy files) : next.Tidy files :=
  ⟨logFile.symm ▸ tidy.disk, log.symm ▸ tidy.log, opened⟩

def Appended (s : Server) (entry : LogEntry) (logFile : Bytes) : Prop :=
  logFile = s.logFile ∨ logFile = s.logFile ++ logLine entry

omit files in
theorem appendLog_appended {outcome : Outcome} (whole : ∀ count, outcome ≠ .cut count) (s : Server)
    (entry : LogEntry) : s.Appended entry (s.appendLog outcome entry).1.logFile := by
  cases outcome with
  | done => exact .inr rfl
  | refused => exact .inl rfl
  | cut count => exact absurd rfl (whole count)

theorem tidy_logged (tidy : s.Tidy files) (loggable : Loggable files entry)
    {logFile : Bytes} (appended : s.Appended entry logFile) :
    Tidy files { s with log := s.log ++ [entry], logFile := logFile } := by
  have grown (entries : List LogEntry) (good : ∀ other ∈ entries, Loggable files other) :
      ∀ other ∈ entries ++ [entry], Loggable files other := by
    intro other inside
    rcases List.mem_append.mp inside with old | new
    · exact good other old
    · exact List.mem_singleton.mp new ▸ loggable
  refine ⟨?_, grown s.log tidy.log, tidy.opened⟩
  obtain ⟨entries, holds, good⟩ := tidy.disk
  rcases appended with rfl | rfl
  · exact ⟨entries, holds, good⟩
  · exact ⟨entries ++ [entry], by rw [logBytes_append, ← holds], grown entries good⟩

omit files in
theorem retains_logged (within : s.lastApplied ≤ s.log.length) {number : UInt64} (retains : s.Retains name number)
    (covers : entry.filename = name → number ∈ parseNumbers entry.content) {logFile : Bytes}
    (appended : s.Appended entry logFile) :
    Retains { s with log := s.log ++ [entry], logFile := logFile } name number := by
  have newest (entries : List LogEntry) (last : LogEntry) (found : lastFor name (entries ++ [entry]) = some last)
      (before : ∀ old, lastFor name entries = some old → number ∈ parseNumbers old.content) :
      number ∈ parseNumbers last.content := by
    rw [lastFor_append] at found
    split_ifs at found with own
    · exact Option.some.inj found ▸ covers own
    · exact before last found
  refine ⟨retains.file, ?_, fun last found => ?_⟩
  · rcases appended with rfl | rfl
    · exact retains.disk
    · obtain ⟨entries, holds, old, found, inside⟩ := retains.disk
      obtain ⟨last, present⟩ : ∃ last, lastFor name (entries ++ [entry]) = some last := by
        rw [lastFor_append, found]
        split_ifs <;> exact ⟨_, rfl⟩
      refine ⟨entries ++ [entry], by rw [logBytes_append, ← holds], last, present, ?_⟩
      exact newest entries last present fun other same => Option.some.inj (found.symm.trans same) ▸ inside
  · refine newest s.unapplied last ?_ retains.waiting
    rw [← found]
    exact congrArg (lastFor name) (List.drop_append_of_le_length within).symm

theorem retains_commit {io : Nat → ApplyIO} (healthy : ∀ position, io position = .ok)
    (tidy : s.Tidy files) (within : s.lastApplied ≤ s.log.length)
    (loggable : Loggable files entry) (index : entry.index = s.log.length + 1)
    (member : name ∈ files.names) {content : Bytes} (present : s.bytes name = some content) {number : UInt64}
    (own : entry.filename = name → number ∈ parseNumbers entry.content)
    (other : entry.filename ≠ name → s.Retains name number) :
    (commitEntry io { s with log := s.log ++ [entry], logFile := s.logFile ++ logLine entry } entry).Retains
      name number := by
  have writes (old : LogEntry) (listed : old ∈ s.unapplied) := tidy.log old (List.mem_of_mem_drop listed)
  have holds := bytes_commit files healthy within writes (s.logFile ++ logLine entry) index
    loggable.1 loggable.2 member present
  have reached := lastApplied_commit io within (s.logFile ++ logLine entry) index
  rw [commitEntry_eq] at holds reached ⊢
  refine ⟨⟨_, holds, ?_⟩, ?_, fun last found => ?_⟩
  · rw [lastFor_append]
    split_ifs with same
    · exact own same
    · obtain ⟨old, here, inside⟩ := (other same).file
      cases last : lastFor name s.unapplied with
      | none =>
        rw [present, Option.some.injEq] at here
        exact here ▸ inside
      | some newest => exact (other same).waiting newest last
  · change ∃ entries, s.logFile ++ logLine entry = logBytes entries ∧ _
    by_cases same : entry.filename = name
    · obtain ⟨entries, holds, _⟩ := tidy.disk
      exact ⟨entries ++ [entry], by rw [logBytes_append, ← holds], entry, by rw [lastFor_append, if_pos same],
        own same⟩
    · obtain ⟨entries, holds, old, found, inside⟩ := (other same).disk
      exact ⟨entries ++ [entry], by rw [logBytes_append, ← holds], old,
        by rw [lastFor_append, if_neg same, found], inside⟩
  · rw [unapplied, reached] at found
    simp [applied, lastFor] at found

end State

section Requests

variable [LogCodec] (files : OutputNames)

structure Retaining (s next : Server) : Prop where
  tidy : next.Tidy files
  kept : ∀ name ∈ files.names, ∀ number, s.Retains name number → next.Retains name number

theorem retaining_refl (tidy : s.Tidy files) : Retaining files s s :=
  ⟨tidy, fun _ _ _ retains => retains⟩

theorem retaining_frame (tidy : s.Tidy files) (keeps : KeepsLog s next) (logFile : next.logFile = s.logFile)
    (opened : ∀ fd found, next.files.lookup fd = some found → found.filename ∈ files.names)
    (bytes : ∀ name ∈ files.names, ∀ content, s.bytes name = some content → next.bytes name = some content) :
    Retaining files s next :=
  ⟨tidy_frame files s next keeps.log logFile opened tidy, fun name member number =>
    retains_frame s name number keeps logFile (bytes name member)⟩

theorem retaining_trans {middle : Server} (first : Retaining files s middle)
    (second : Retaining files middle next) : Retaining files s next :=
  ⟨second.tidy, fun name member number retains =>
    second.kept name member number (first.kept name member number retains)⟩

theorem retaining_table (tidy : s.Tidy files) (table : Map String FileEntry) :
    Retaining files s { s with table := table } :=
  retaining_frame files tidy ⟨rfl, rfl, rfl, rfl, rfl⟩ rfl tidy.opened fun _ _ _ holds => holds

theorem create_retaining {req : CreateRequest} (tidy : s.Tidy files)
    (known : ∀ safe, normalize req.filename = some safe → safe ∈ files.names)
    (handled : s.create env req = .returned next answer sent) : Retaining files s next := by
  rcases create_cases handled with rfl | ⟨safe, named, effect⟩
  · exact retaining_refl files tidy
  · refine retaining_frame files tidy (create_keeps handled).toKeepsLog ?_ ?_
      fun name _ content => createEffect_bytes effect name content
    · obtain ⟨_, _, _, _, _, _, rfl, _⟩ := effect
      rfl
    · intro fd found present
      rcases createEffect_files effect fd found present with rfl | old
      · exact known _ named
      · exact tidy.opened fd found old

theorem open_retaining {req : FileRequest} (tidy : s.Tidy files)
    (known : ∀ safe, normalize req.filename = some safe → safe ∈ files.names)
    (handled : s.openFile env req = .returned next answer sent) : Retaining files s next := by
  rcases openFile_cases handled with rfl | ⟨safe, named, effect⟩
  · exact retaining_refl files tidy
  · have opened (fd : Int32) (found : FileMeta) (present : next.files.lookup fd = some found) :
        found.filename ∈ files.names := by
      rcases openEffect_files effect present with rfl | old
      · exact known _ named
      · exact tidy.opened fd found old
    obtain ⟨_, _, _, _, _, rfl, _⟩ := effect
    exact retaining_frame files tidy ⟨rfl, rfl, rfl, rfl, rfl⟩ rfl opened fun _ _ _ holds => holds

theorem delete_retains {req : DeleteRequest} (tidy : s.Tidy files)
    (known : ∀ safe, normalize req.filename = some safe → safe ∈ files.names)
    (handled : s.delete env req = .returned next answer sent) :
    next.Tidy files ∧ ∀ name ∈ files.names, ∀ number,
      (∀ response, answer = .ok response → normalize req.filename ≠ some name) →
        s.Retains name number → next.Retains name number := by
  obtain ⟨table, requests, filesPrimes, tree, rfl, effect⟩ := delete_cases handled
  refine ⟨tidy_frame files s _ rfl rfl tidy.opened tidy, fun name member number spared => ?_⟩
  refine retains_frame s name number ⟨rfl, rfl, rfl, rfl, rfl⟩ rfl fun content holds => ?_
  rcases effect with rfl | ⟨safe, response, named, answered, removed⟩
  · exact holds
  · have different : name ≠ safe := fun same => spared response answered (same ▸ named)
    rw [bytes_eq] at holds ⊢
    rw [FileTree.Tree.find_remove _ removed, if_neg]
    · exact holds
    · exact fun path => different (files.path_injective s.rootDir name safe member (known safe named) path)

structure Complete (s : Server) (env : Env) (req : DataRequest) (filename : String) : Prop where
  file : ∃ old, s.bytes filename = some old
  numbers : ∀ number ∈ s.numbers filename, number ∈ s.primeSet filename ∨ number ∈ parseNumbers req.data
  within : s.lastApplied ≤ s.log.length
  healthy : ∀ position, env.apply position = .ok
  whole : ∀ count, env.persist ≠ .cut count

omit [LogCodec] files in
theorem mem_close_content (range : RangeOrder) (s : Server) (close : call.kind = .close) (number : UInt64) :
    number ∈ parseNumbers (s.content range call) ↔
      number ∈ s.primeSet call.filename ∨ number ∈ parseNumbers call.req.data := by
  have key : call.primeKey = call.filename := by simp [Call.primeKey, close]
  simp only [content, close, (exact_render range _).2, tempPrimeSet, mem_filterUniquePrimes_set, key]

omit [LogCodec] files in
theorem numbers_eq {filename : String} {content : Bytes} (holds : s.bytes filename = some content) :
    s.numbers filename = parseNumbers content := by
  rw [numbers, holds, Option.getD_some]

omit [LogCodec] in
theorem finish_bytes (env : Env) (s : Server) (member : call.name ∈ files.names)
    (inside : name ∈ files.names) : (s.finishCall env call).1.bytes name = s.bytes name :=
  bytes_congr s _ (s.finishCall_keeps env call).rootDir name (s.finishCall_tree env call _
    (OutputNames.path_suffix s.rootDir ".meta" member inside (files.noMeta _ member) (by decide)
      (by decide)))

theorem finish_retaining (env : Env) (tidy : s.Tidy files)
    (member : call.name ∈ files.names) : Retaining files s (s.finishCall env call).1 := by
  refine retaining_frame files tidy (s.finishCall_keeps env call).toKeepsLog ?_ ?_ ?_
  · obtain ⟨_, _, _, _, same⟩ := s.finishCall_eq env call
    rw [same]
  · intro fd found present
    obtain ⟨old, before, same⟩ := s.finishCall_files env call fd found present
    exact same ▸ tidy.opened fd old before
  · intro name inside content holds
    rw [finish_bytes files env s member inside, holds]

theorem release_retaining (name : String) (tidy : s.Tidy files) :
    Retaining files s (s.releaseWrite name) := by
  obtain ⟨table, same⟩ := s.releaseWrite_eq name
  rw [same]
  exact retaining_table files tidy table

theorem commit_retaining (env : Env) (close : call.kind = .close)
    (tidy : s.Tidy files) (member : call.filename ∈ files.names) (complete : s.Complete env call.req call.filename) :
    Retaining files s (s.commitCall env call).1 ∧
      ((s.commitCall env call).2.1 = none → ∀ number,
        number ∈ parseNumbers call.req.data ∨ number ∈ (s.commitCall env call).1.numbers call.filename →
          (s.commitCall env call).1.Retains call.filename number) := by
  obtain ⟨old, present⟩ := complete.file
  have named := (files.call_name call member).1
  obtain ⟨logFile, logged, outcome⟩ := commitCall_cases env s call
  set entry := s.logEntry call (s.content env.range call) s.log.length with made
  have index : entry.index = s.log.length + 1 := rfl
  have file : entry.filename = call.filename := named
  have loggable : Loggable files entry := ⟨rfl, by rw [file]; exact member⟩
  have content (number : UInt64) : number ∈ parseNumbers entry.content ↔
      number ∈ s.primeSet call.filename ∨ number ∈ parseNumbers call.req.data :=
    mem_close_content env.range s close number
  have covers (name : String) (number : UInt64) (retains : s.Retains name number)
      (same : entry.filename = name) : number ∈ parseNumbers entry.content := by
    obtain rfl : call.filename = name := file.symm.trans same
    obtain ⟨bytes, here, inside⟩ := retains.file
    exact (content number).mpr (complete.numbers number (numbers_eq here ▸ inside))
  have appended : s.Appended entry logFile := by
    have line := appendLog_appended complete.whole s entry
    rwa [logged] at line
  have grown := tidy_logged files tidy loggable appended
  rcases outcome with ⟨_, same, failed⟩ | ⟨replicated, same, _⟩
  · rw [same]
    exact ⟨⟨grown, fun name _ number retains => retains_logged complete.within retains
      (covers name number retains) appended⟩, fun passed => absurd passed failed⟩
  · obtain rfl : logFile = s.logFile ++ logLine entry := by
      rw [replicated.1] at logged
      exact (congrArg Server.logFile logged).symm
    have committed (name : String) (inside : name ∈ files.names) (bytes : Bytes)
        (here : s.bytes name = some bytes) (number : UInt64)
        (own : entry.filename = name → number ∈ parseNumbers entry.content)
        (other : entry.filename ≠ name → s.Retains name number) :=
      retains_commit files complete.healthy tidy complete.within loggable index inside
        here own other
    have written := bytes_commit files complete.healthy complete.within
      (fun other listed => tidy.log other (List.mem_of_mem_drop listed)) (s.logFile ++ logLine entry) index
      loggable.1 loggable.2 member present
    rw [lastFor_append, if_pos file] at written
    have updated : (s.commitCall env call).1 = setPrimes (commitEntry env.apply
        { s with log := s.log ++ [entry], logFile := s.logFile ++ logLine entry } entry)
          call.primeKey (s.tempPrimeSet call).2 := by
      rw [same, updatePrimes, close]
    have after : (s.commitCall env call).1.numbers call.filename = parseNumbers entry.content :=
      numbers_eq (by rw [updated]; exact written)
    rw [after, updated]
    refine ⟨⟨?_, fun name inside number retains => ?_⟩, fun _ number source => ?_⟩
    · rw [commitEntry_eq]
      exact ⟨grown.disk, grown.log, grown.opened⟩
    · obtain ⟨bytes, here, _⟩ := retains.file
      have still := committed name inside bytes here number (covers name number retains) fun _ => retains
      exact ⟨still.file, still.disk, still.waiting⟩
    · have put : number ∈ parseNumbers entry.content := by
        rcases source with asked | left
        · exact (content number).mpr (.inr asked)
        · exact left
      have still := committed call.filename member old present number (fun _ => put) fun other => absurd file other
      exact ⟨still.file, still.disk, still.waiting⟩

theorem enters_retaining {ready : Server} (tidy : s.Tidy files) (enters : s.Enters .close env req call ready)
    (complete : s.Complete env req call.filename) :
    call.filename ∈ files.names ∧ Retaining files s (ready.commitCall env call).1 ∧
      ((ready.commitCall env call).2.1 = none → ∀ number,
        number ∈ parseNumbers req.data ∨ number ∈ (ready.commitCall env call).1.numbers call.filename →
          (ready.commitCall env call).1.Retains call.filename number) := by
  obtain ⟨found, client, table, _, present, _, _, _, rfl, rfl⟩ := enters_eq .close env s ready req call enters
  have member := tidy.opened _ found present
  have locked := retaining_table files tidy table
  obtain ⟨committed, own⟩ := commit_retaining files env
    rfl locked.tidy member
    ⟨complete.file, complete.numbers, complete.within, complete.healthy, complete.whole⟩
  exact ⟨member, retaining_trans files locked committed, own⟩

theorem close_put (tidy : s.Tidy files)
    (complete : ∀ call ready, s.Enters .close env req call ready → s.Complete env req call.filename)
    (handled : s.close env req = .returned next answer sent) {item : String × UInt64}
    (put : item ∈ s.putBy next env req answer) : item.1 ∈ files.names ∧ next.Retains item.1 item.2 := by
  cases answer with
  | error status => cases put
  | ok response =>
    unfold putBy at put
    split_ifs at put with acked
    case neg => cases put
    obtain ⟨ready, call, enters, passed, rfl⟩ :=
      handleCall_ok handled acked.1 acked.2
    obtain ⟨member, committed, own⟩ := enters_retaining files tidy enters
      (complete call ready enters)
    obtain ⟨found, client, table, _, present, _, _, _, made, _⟩ :=
      enters_eq .close env s ready req call enters
    have file : found.filename = call.filename := by rw [made]
    have named : call.name ∈ files.names := (files.call_name call member).1.symm ▸ member
    have finished := finish_retaining files env committed.tidy named
    have released := release_retaining files call.name finished.tidy
    have bytes : (((ready.commitCall env call).1.finishCall env call).1.releaseWrite call.name).numbers
        call.filename = (ready.commitCall env call).1.numbers call.filename := by
      obtain ⟨free, same⟩ := ((ready.commitCall env call).1.finishCall env call).1.releaseWrite_eq call.name
      rw [same]
      exact congrArg (fun left => parseNumbers (left.getD []))
        (finish_bytes files env (ready.commitCall env call).1 named member)
    rw [present] at put
    obtain ⟨number, inside, rfl⟩ := List.mem_map.mp put
    rw [file, bytes, List.mem_append] at inside
    rw [file]
    exact ⟨member, released.kept _ member number (finished.kept _ member number (own passed number inside))⟩

theorem close_retaining (tidy : s.Tidy files)
    (complete : ∀ call ready, s.Enters .close env req call ready → s.Complete env req call.filename)
    (handled : s.close env req = .returned next answer sent) : Retaining files s next := by
  rcases handleCall_cases handled with
    ⟨table, rfl⟩ | ⟨opened, call, begun, clean, rfl⟩ | ⟨ready, call, enters, rfl⟩
  · exact retaining_table files tidy table
  · obtain ⟨found, client, table, _, present, _, rfl, rfl⟩ :=
      beginCall_opened .close env.start s opened req call begun
    have member := tidy.opened _ found present
    have opened := retaining_table files tidy table
    refine retaining_trans files opened (finish_retaining files env opened.tidy ?_)
    exact (files.call_name ⟨.close, req, found.filename, client.mode⟩ member).1.symm ▸ member
  · obtain ⟨member, committed, _⟩ := enters_retaining files tidy enters
      (complete call ready enters)
    have named : call.name ∈ files.names := (files.call_name call member).1.symm ▸ member
    split_ifs
    · have finished := retaining_trans files committed (finish_retaining files env committed.tidy named)
      exact retaining_trans files finished (release_retaining files call.name finished.tidy)
    · exact retaining_trans files committed (release_retaining files call.name committed.tidy)

end Requests

def ViewOnly (s next : Server) : Prop :=
  ∃ role primaryID servers lastHeartbeat filesPrimes,
    next = { s with role := role, primaryID := primaryID, servers := servers, lastHeartbeat := lastHeartbeat,
                    filesPrimes := filesPrimes }

theorem sendHeartbeat_viewOnly (now : Time) (s : Server) (req : Heartbeat) :
    s.ViewOnly (s.sendHeartbeat now req).1 := by
  obtain ⟨info, ⟨_, _, same⟩ | ⟨_, same⟩⟩ := s.sendHeartbeat_cases now req <;> rw [same] <;>
    exact ⟨_, _, _, _, _, rfl⟩

theorem heartbeatReply_viewOnly (s : Server) (success : Bool) : s.ViewOnly (s.heartbeatReply success) := by
  unfold heartbeatReply
  split_ifs <;> exact ⟨_, _, _, _, _, rfl⟩

theorem monitorPrimary_viewOnly (now : Time) (s : Server) : s.ViewOnly (s.monitorPrimary now) := by
  rcases s.monitorPrimary_cases now with same | ⟨_, _, same⟩ <;> rw [same]
  · exact ⟨_, _, _, _, _, rfl⟩
  · unfold elect markDead
    split <;> exact ⟨_, _, _, _, _, rfl⟩

theorem promoted_viewOnly (now : Time) (s : Server) : s.ViewOnly (s.monitorPrimary now).rebuildAllPrimeSets := by
  obtain ⟨filesPrimes, rebuilt⟩ := (s.monitorPrimary now).rebuildAllPrimeSets_eq
  obtain ⟨_, _, _, _, _, same⟩ := s.monitorPrimary_viewOnly now
  rw [rebuilt, same]
  exact ⟨_, _, _, _, _, rfl⟩

section Steps

variable [LogCodec] (files : OutputNames)

theorem viewOnly_retaining (tidy : s.Tidy files) (view : s.ViewOnly next) :
    Retaining files s next := by
  obtain ⟨_, _, _, _, _, rfl⟩ := view
  exact retaining_frame files tidy ⟨rfl, rfl, rfl, rfl, rfl⟩ rfl tidy.opened fun _ _ _ holds => holds

theorem appendLog_tidy (outcome : Outcome) (whole : ∀ count, outcome ≠ .cut count)
    (tidy : s.Tidy files) (entry : LogEntry) (loggable : Loggable files entry) :
    (s.appendLog outcome entry).1.Tidy files := by
  have appended := appendLog_appended whole s entry
  obtain ⟨logFile, same⟩ := appendLog_eq outcome s entry
  rw [same] at appended ⊢
  exact tidy_logged files tidy loggable appended

theorem receiveEntries_tidy (whole : ∀ position count, disk.persist position ≠ .cut count)
    (entries : List PbLogEntry) (good : ∀ e ∈ entries, Loggable files e.received) (s : Server)
    (tidy : s.Tidy files) : (entries.foldl (receiveEntry disk) s).Tidy files := by
  induction entries generalizing s with
  | nil => exact tidy
  | cons e rest ih =>
    refine ih (fun other inside => good other (by simp [inside])) _ ?_
    unfold receiveEntry
    split_ifs
    · exact tidy
    · exact appendLog_tidy files (disk.persist s.log.length) (whole _) tidy e.received (good e (by simp))

theorem appendEntries_tidy (whole : ∀ position count, disk.persist position ≠ .cut count)
    {req : AppendEntriesRequest} (good : ∀ e ∈ req.entries, Loggable files e.received)
    (tidy : s.Tidy files) : (s.appendEntries disk req).1.Tidy files := by
  have received := receiveEntries_tidy files whole req.entries good s tidy
  simp only [appendEntries, applyCommitted_eq, raiseCommit_eq]
  exact ⟨received.disk, received.log, received.opened⟩

theorem receiveFile_tidy (outcome : Outcome) (f : Replication) (member : f.filename ∈ files.names)
    (tidy : s.Tidy files) : (s.receiveFile outcome f).1.Tidy files := by
  have created (s : Server) (tidy : s.Tidy files) : (s.getOrCreateFileMeta f.filename).1.Tidy files := by
    unfold getOrCreateFileMeta
    dsimp only
    split
    · exact tidy
    · refine tidy_frame files s _ rfl rfl (fun fd found present => ?_) tidy
      rcases opened_insert present with rfl | old
      · exact member
      · exact tidy.opened fd found old
  have versioned (s : Server) (tidy : s.Tidy files) (fd version : Int32) :
      (s.setMetaVersion fd version).Tidy files := by
    unfold setMetaVersion
    split
    case h_1 => exact tidy
    case h_2 before here =>
      refine tidy_frame files s _ rfl rfl (fun key found present => ?_) tidy
      rcases opened_insert present with rfl | old
      · exact tidy.opened fd before here
      · exact tidy.opened key found old
  have rebuilt (s : Server) (tidy : s.Tidy files) (name : String) : (s.rebuildPrimeSet name).Tidy files := by
    unfold rebuildPrimeSet
    split_ifs
    · exact tidy
    · split
      · exact tidy
      · exact tidy_frame files s _ rfl rfl tidy.opened tidy
  have written (tree : Tree) : Tidy files { s with tree := tree } := tidy_frame files s _ rfl rfl tidy.opened tidy
  unfold receiveFile
  dsimp only
  split_ifs
  · exact rebuilt _ (versioned _ (created _ (written _)) _ _) _
  · exact written _

theorem receiveFiles_tidy (disk : DiskIO) (position : Nat) (s : Server) (fullFiles : List Replication)
    (known : ∀ f ∈ fullFiles, f.filename ∈ files.names) (tidy : s.Tidy files) :
    (s.receiveFiles disk position fullFiles).1.Tidy files := by
  induction fullFiles generalizing position s with
  | nil => exact tidy
  | cons f rest ih =>
    have first := receiveFile_tidy files (disk.write position) f (known f (by simp)) tidy
    unfold receiveFiles
    dsimp only
    split_ifs
    · exact ih (position + 1) _ (fun other inside => known other (by simp [inside])) first
    · exact first

theorem receiveLog_tidy (whole : ∀ position count, disk.persist position ≠ .cut count)
    (entries : List PbLogEntry) (good : ∀ e ∈ entries, Loggable files e.received) (s : Server)
    (tidy : s.Tidy files) : (s.receiveLog disk entries).1.Tidy files := by
  induction entries generalizing s with
  | nil => exact tidy
  | cons e rest ih =>
    have later := fun next => ih (fun other inside => good other (by simp [inside])) next
    unfold receiveLog
    split_ifs
    · exact later s tidy
    · exact tidy
    · exact later _ (appendLog_tidy files (disk.persist s.log.length) (whole _) tidy e.received (good e (by simp)))

theorem applyUpdate_tidy (whole : ∀ position count, disk.persist position ≠ .cut count)
    {msg : UpdateMessage} (good : ∀ e ∈ msg.logEntries, Loggable files e.received)
    (known : ∀ f ∈ msg.fullFiles, f.filename ∈ files.names) (tidy : s.Tidy files) :
    (s.applyUpdate disk msg).1.Tidy files := by
  unfold applyUpdate
  split_ifs
  · exact receiveFiles_tidy files disk 0 _ msg.fullFiles known ⟨tidy.disk, by simp, tidy.opened⟩
  · exact receiveLog_tidy files whole msg.logEntries good s tidy

theorem restarted_tidy (config : Map String ServerInfo) (io : Nat → ApplyIO) (now : Time) (port : String)
    (s : Server) (tidy : s.Tidy files) : (restarted config io now port s).Tidy files := by
  obtain ⟨_, _, _, same⟩ := (newServer s.id s.rootDir config s.tree s.logFile).startServer_eq io now port
  unfold restarted
  rw [same]
  obtain ⟨entries, holds, good⟩ := tidy.disk
  refine ⟨⟨entries, holds, good⟩, fun entry inside => good entry ?_, fun fd found present => ?_⟩
  · change entry ∈ [] ++ recorded s.logFile at inside
    rw [holds] at inside
    exact recorded_subset entries inside
  · cases present

omit [LogCodec] files in
theorem lastFor_drop {entries : List LogEntry} {count : Nat}
    (last : lastFor name (entries.drop count) = some entry) : lastFor name entries = some entry := by
  rw [← List.take_append_drop count entries]
  unfold lastFor at last ⊢
  rw [List.filter_append, List.getLast?_append, last, Option.some_or]

theorem restarted_retains (config : Map String ServerInfo) {io : Nat → ApplyIO}
    (healthy : ∀ position, io position = .ok) (now : Time) (port : String) (tidy : s.Tidy files)
    (readable : (scanLines [] s.logFile).2 = false) (member : name ∈ files.names)
    (number : UInt64) (retains : s.Retains name number) : (restarted config io now port s).Retains name number := by
  obtain ⟨entries, holds, newest, found, inside⟩ := retains.disk
  have read : recorded s.logFile = entries := by
    rw [holds] at readable ⊢
    exact recorded_logBytes readable
  have good : ∀ entry ∈ entries, Loggable files entry := by
    obtain ⟨others, same, good⟩ := tidy.disk
    rw [same] at readable read
    rw [← read, recorded_logBytes readable]
    exact good
  obtain ⟨old, present, _⟩ := retains.file
  rw [bytes_eq] at present
  obtain rfl : io = fun _ => .ok := funext healthy
  have replayed := applyAll_file s.rootDir 0 entries s.tree (s.path name) old present
  have content : lastContent s.rootDir (s.path name) entries old = newest.content := by
    rw [path, lastContent_lastFor s.rootDir member entries old good, found]
    rfl
  rw [content] at replayed
  obtain ⟨_, _, _, same⟩ := (newServer s.id s.rootDir config s.tree s.logFile).startServer_eq (fun _ => .ok) now port
  unfold restarted
  rw [same]
  refine ⟨⟨newest.content, ?_, inside⟩, retains.disk, fun entry waiting => ?_⟩
  · rw [bytes_eq]
    refine (makeDirs_sameFiles _ _ _).mpr ?_
    change (applyAll (fun _ => .ok) s.rootDir 0 (recorded s.logFile) s.tree).find (s.path name) = _
    rw [read]
    exact replayed
  · change lastFor name (([] ++ recorded s.logFile).drop _) = some entry at waiting
    rw [List.nil_append, read] at waiting
    have last := lastFor_drop waiting
    rw [found, Option.some.injEq] at last
    exact last ▸ inside

end Steps

end Server

def Server.completeFor (s : Server) (req : DataRequest) : Bool :=
  (s.files.lookup req.fd).all fun found =>
    (s.bytes found.filename).isSome &&
      ((s.numbers found.filename).all fun number =>
        number ∈ s.primeSet found.filename || number ∈ parseNumbers req.data) &&
      s.lastApplied ≤ s.log.length

theorem Server.complete_of_check (checked : s.completeFor req = true) (healthy : ∀ position, env.apply position = .ok)
    (whole : ∀ count, env.persist ≠ .cut count) {ready : Server}
    (enters : s.Enters .close env req call ready) : s.Complete env req call.filename := by
  obtain ⟨found, client, table, _, present, _, _, _, rfl, _⟩ := enters_eq .close env s ready req call enters
  simp only [completeFor, present, Option.all_some, Bool.and_eq_true, List.all_eq_true, Bool.or_eq_true,
    decide_eq_true_eq] at checked
  exact ⟨Option.isSome_iff_exists.mp checked.1.1, checked.1.2, checked.2, healthy, whole⟩

end Ikkat
