import Ikkat.FullSync
import Ikkat.Retention
import Ikkat.Slots
import Ikkat.Versions

set_option autoImplicit false

namespace Ikkat

variable {s next : Server}

namespace Server

structure FindsMeta (s : Server) (filename : String) : Prop where
  named : ∃ found, (s.getOrCreateFileMeta filename).1.files.lookup (s.getOrCreateFileMeta filename).2 = some found ∧
    found.filename = filename
  registered : ((s.getOrCreateFileMeta filename).1.table.lookup filename).map FileEntry.fd =
    some (s.getOrCreateFileMeta filename).2
  versioned : ∀ entry, s.table.lookup filename = some entry →
    ((s.getOrCreateFileMeta filename).1.table.lookup filename).map FileEntry.version = some entry.version
  others : ∀ other, other ≠ filename →
    (s.getOrCreateFileMeta filename).1.table.lookup other = s.table.lookup other

-- The descriptor in the entry of a name. An entry of getFileEntry has none, which reads as descriptor 0.
def entryFD (s : Server) (name : String) : Int32 := ((s.table.lookup name).map FileEntry.fd).getD 0

theorem entryFD_setEntry (s : Server) (name other : String) {update : FileEntry → FileEntry}
    (same : ∀ entry, (update entry).fd = entry.fd) : (s.setEntry name update).entryFD other = s.entryFD other := by
  unfold entryFD
  rw [lookup_setEntry]
  split_ifs
  · rw [Option.map_map, show FileEntry.fd ∘ update = FileEntry.fd from funext same]
  · rfl

theorem entryFD_getFileEntry (s : Server) (name other : String) :
    (s.getFileEntry name).1.entryFD other = s.entryFD other := by
  unfold entryFD
  rw [getFileEntry_table, getFileEntry_entry]
  split_ifs with own
  · rw [own]
    cases s.table.lookup name <;> rfl
  · rfl

theorem entryFD_acquireWrite (s : Server) (name other : String) :
    (s.acquireWrite name).entryFD other = s.entryFD other := s.entryFD_setEntry name other fun _ => rfl

theorem entryFD_releaseWrite (s : Server) (name other : String) :
    (s.releaseWrite name).entryFD other = s.entryFD other := s.entryFD_setEntry name other fun _ => rfl

structure Assigned (s : Server) : Prop where
  entries : ∀ name, s.entryFD name = 0 ∨ s.entryFD name ∈ s.files
  first : 0 ∈ s.files ∨ (∀ fd, fd ∉ s.files) ∧ s.nextFD = 0 ∧ ∀ name, s.base name = 1

theorem Assigned.moved (assigned : s.Assigned) (files : ∀ fd ∈ s.files, fd ∈ next.files) (first : 0 ∈ next.files)
    (entries : ∀ name, next.entryFD name = s.entryFD name ∨ next.entryFD name ∈ next.files) : next.Assigned := by
  refine ⟨fun name => ?_, .inl first⟩
  rcases entries name with same | new
  · rw [same]
    exact (assigned.entries name).imp_right (files _)
  · exact .inr new

structure Assigns (s next : Server) : Prop where
  files : ∀ fd ∈ s.files, fd ∈ next.files
  assigned : s.Assigned → next.Assigned

theorem Assigns.refl (s : Server) : s.Assigns s := ⟨fun _ inside => inside, fun assigned => assigned⟩

theorem Assigns.trans {middle : Server} (first : s.Assigns middle) (second : middle.Assigns next) : s.Assigns next :=
  ⟨fun fd inside => second.files fd (first.files fd inside), fun assigned => second.assigned (first.assigned assigned)⟩

theorem Assigns.kept (files : ∀ fd, fd ∈ next.files ↔ fd ∈ s.files)
    (nextFD : next.nextFD = s.nextFD) (entries : ∀ name, next.entryFD name = s.entryFD name)
    (base : ∀ name, next.base name = s.base name) : s.Assigns next := by
  refine ⟨fun fd => (files fd).mpr, fun assigned => ⟨fun name => ?_, ?_⟩⟩
  · rw [entries, files]
    exact assigned.entries name
  · rw [files, nextFD]
    refine assigned.first.imp_right fun none => ⟨fun fd inside => none.1 fd ((files fd).mp inside), none.2.1, fun name => ?_⟩
    rw [base]
    exact none.2.2 name

theorem Assigns.opened {found : FileMeta} (files : next.files = s.files.insert s.nextFD found)
    (entries : ∀ name, next.entryFD name = s.entryFD name ∨ next.entryFD name = s.nextFD) : s.Assigns next := by
  have member (fd : Int32) : fd ∈ next.files ↔ fd = s.nextFD ∨ fd ∈ s.files := by rw [files, AList.mem_insert]
  have kept (fd : Int32) (inside : fd ∈ s.files) : fd ∈ next.files := (member fd).mpr (.inr inside)
  refine ⟨kept, fun assigned => assigned.moved kept ?_ fun name => ?_⟩
  · rw [member]
    exact assigned.first.elim .inr fun none => .inl none.2.1.symm
  · exact (entries name).imp_right fun own => (member _).mpr (.inl own)

theorem ViewOnly.assigns (view : s.ViewOnly next) : s.Assigns next := by
  obtain ⟨_, _, _, _, _, rfl⟩ := view
  exact ⟨fun _ inside => inside, fun assigned => ⟨assigned.entries, assigned.first⟩⟩

section Requests

variable {env : Env} {answer : Except Status Response} {sent : List AppendEntriesRequest}

theorem create_assigns {req : CreateRequest} (handled : s.create env req = .returned next answer sent) :
    s.Assigns next := by
  cases handled ▸ s.create_exit env req with
  | dismissed why => exact why.same.1 ▸ .refl s
  | unnamed | barred => exact .refl s
  | failed safe tree status =>
    refine .kept (fun _ => Iff.rfl) rfl (fun name => ?_) fun name => ?_
    · change ((s.claimed safe).releaseWrite safe).entryFD name = s.entryFD name
      rw [entryFD_releaseWrite, claimed, entryFD_acquireWrite, entryFD_getFileEntry]
    · change ((s.claimed safe).releaseWrite safe).base name = s.base name
      rw [base, version_releaseWrite, claimed, version_acquireWrite]
      exact s.base_getFileEntry safe name
  | created safe tree =>
    refine .opened rfl fun name => .inl ?_
    change (s.created safe).entryFD name = s.entryFD name
    have emptied : ((s.claimed safe).setEntry safe fun entry => { entry with version := 0 }).entryFD name =
        (s.claimed safe).entryFD name := entryFD_setEntry _ _ _ fun _ => rfl
    rw [created, entryFD_releaseWrite, emptied, claimed, entryFD_acquireWrite, entryFD_getFileEntry]

theorem openFile_assigns {req : FileRequest} (handled : s.openFile env req = .returned next answer sent) :
    s.Assigns next := by
  cases handled ▸ s.openFile_exit env req with
  | dismissed why => exact why.same.1 ▸ .refl s
  | unnamed => exact .refl s
  | failed safe => exact .kept (fun _ => Iff.rfl) rfl (s.entryFD_getFileEntry safe) (s.base_getFileEntry safe)
  | opened safe => exact .opened rfl fun name => .inl (s.entryFD_getFileEntry safe name)

end Requests

theorem getOrCreateFileMeta_assigns (s : Server) (filename : String) : s.Assigns (s.getOrCreateFileMeta filename).1 := by
  cases known : s.knows filename with
  | true =>
    rw [getOrCreateFileMeta_known known]
    exact .refl s
  | false =>
    rw [getOrCreateFileMeta_unknown known]
    refine .opened rfl fun name => ?_
    unfold entryFD
    rw [Map.lookup_insert]
    split_ifs
    · exact .inr rfl
    · exact .inl rfl

theorem receiveFile_assigns (outcome : Outcome) (s : Server) (f : Replication) :
    s.Assigns (s.receiveFile outcome f).1 := by
  have written (tree : Tree) : s.Assigns { s with tree := tree } := .kept (fun _ => Iff.rfl) rfl (fun _ => rfl) fun _ => rfl
  unfold receiveFile
  dsimp only
  split_ifs
  · generalize (osWriteFile outcome s.tree (s.path f.filename) f.content).1 = tree
    refine ((written tree).trans (getOrCreateFileMeta_assigns _ f.filename)).trans ?_
    generalize getOrCreateFileMeta { s with tree := tree } f.filename = found
    have stillOpen := found.1.setMetaVersion_open found.2 f.version
    obtain ⟨files, versioned⟩ := found.1.setMetaVersion_eq found.2 f.version
    rw [versioned] at stillOpen ⊢
    obtain ⟨_, rebuilt⟩ := rebuildPrimeSet_eq { found.1 with files := files } (metaName { found.1 with files := files } found.2)
    rw [rebuilt]
    refine .kept (fun fd => ?_) rfl (fun _ => rfl) fun _ => rfl
    rw [← AList.lookup_isSome, ← AList.lookup_isSome, ← stillOpen]
  · exact written _

theorem receiveFiles_assigns (disk : DiskIO) (position : Nat) (s : Server) (files : List Replication) :
    s.Assigns (s.receiveFiles disk position files).1 := by
  induction files generalizing position s with
  | nil => exact .refl s
  | cons f rest ih =>
    have first := receiveFile_assigns (disk.write position) s f
    unfold receiveFiles
    dsimp only
    split_ifs
    · exact first.trans (ih (position + 1) _)
    · exact first

theorem applyUpdate_assigns [LogCodec] (disk : DiskIO) (s : Server) (msg : UpdateMessage) :
    s.Assigns (s.applyUpdate disk msg).1 := by
  have logged (log : List LogEntry) (logFile : Bytes) (commitIndex lastApplied : Nat) :
      s.Assigns { s with log := log, logFile := logFile, commitIndex := commitIndex, lastApplied := lastApplied } :=
    .kept (fun _ => Iff.rfl) rfl (fun _ => rfl) fun _ => rfl
  unfold applyUpdate
  split_ifs
  · exact (logged [] s.logFile 0 0).trans (receiveFiles_assigns disk 0 _ msg.fullFiles)
  · obtain ⟨log, logFile, same⟩ := receiveLog_eq disk msg.logEntries s
    rw [same]
    exact logged log logFile _ _

end Server

namespace Node

variable {n after : Node}

structure Assigned (n : Node) : Prop where
  server : n.server.Assigned
  serving : ∀ id h, n.handlers id = some h → h.call.req.fd ∈ n.server.files

theorem Assigned.moved {server : Server} (assigned : n.Assigned) (assigns : n.server.Assigns server) :
    Assigned ⟨server, n.handlers⟩ :=
  ⟨assigns.assigned assigned.server, fun id h here => assigns.files _ (assigned.serving id h here)⟩

theorem Assigned.updated (assigned : n.Assigned) (id : Nat) (h : Handler) (own : h.call.req.fd ∈ n.server.files) :
    Assigned ⟨n.server, Function.update n.handlers id (some h)⟩ := by
  refine ⟨assigned.server, fun other found here => ?_⟩
  dsimp only at here
  rw [Function.update_apply] at here
  split_ifs at here
  · cases here
    exact own
  · exact assigned.serving other found here

variable [LogCodec]

theorem Assigned.handled {server : Server} {id : Nat} {h : Handler} {action : HandlerStep} {stage : Stage}
    (assigned : n.Assigned) (here : n.handlers id = some h) (stepped : h.step n.server action = some (server, stage)) :
    n.server.Assigns server := by
  have files : ∀ fd ∈ n.server.files, fd ∈ server.files := by
    intro fd inside
    obtain ⟨_, same | ⟨_, _, _, same⟩⟩ := Handler.step_descriptors stepped <;> rw [same]
    · exact inside
    · exact (AList.mem_insert _).mpr (.inr inside)
  have first : 0 ∈ n.server.files :=
    assigned.server.first.resolve_right fun none => none.1 _ (assigned.serving id h here)
  refine ⟨files, fun server => server.moved files (files 0 first) fun name => .inl ?_⟩
  have finished (env : Env) : (n.server.finishCall env h.call).1.entryFD name = n.server.entryFD name := by
    rw [Server.entryFD, Server.finishCall_table_eq, Server.bumpVersion]
    split_ifs
    · exact n.server.entryFD_setEntry h.call.name name fun _ => rfl
    · rfl
  have taken := Handler.step_takes stepped
  obtain ⟨call, before⟩ := h
  cases taken with
  | refuse =>
    change ((n.server.acquireWrite call.name).releaseWrite call.name).entryFD name = _
    rw [Server.entryFD_releaseWrite, Server.entryFD_acquireWrite]
  | enter => exact n.server.entryFD_acquireWrite call.name name
  | clean env => exact finished env
  | unlogged | timeout | unprimed => exact n.server.entryFD_releaseWrite call.name name
  | finish env =>
    change ((n.server.finishCall env call).1.releaseWrite call.name).entryFD name = _
    rw [Server.entryFD_releaseWrite, finished]
  | _ => rfl

theorem Assigned.step {action : NodeAction} (assigned : n.Assigned) (stepped : n.step action = some after) :
    after.Assigned := by
  cases action with
  | create env req =>
    obtain ⟨server, answer, sent, handled, rfl⟩ := handle_returned stepped
    exact assigned.moved (Server.create_assigns handled)
  | openFile env req =>
    obtain ⟨server, answer, sent, handled, rfl⟩ := handle_returned stepped
    exact assigned.moved (Server.openFile_assigns handled)
  | begin id kind now req =>
    rcases begin_opens stepped with rfl | ⟨found, mode, _, present, rfl⟩
    · exact assigned
    · obtain ⟨table, same⟩ := n.server.getFileEntry_eq (Call.name ⟨kind, req, found.filename, mode⟩)
      have files : (n.server.getFileEntry (Call.name ⟨kind, req, found.filename, mode⟩)).1.files = n.server.files := by
        rw [same]
      have entered := assigned.moved (.kept (fun fd => by rw [files]) (by rw [same])
        (n.server.entryFD_getFileEntry _) (n.server.base_getFileEntry _))
      refine entered.updated id _ ?_
      rw [files, ← AList.lookup_isSome, present]
      rfl
  | handler id action =>
    obtain ⟨h, server, stage, here, moved, _, rfl⟩ := handlerStep_cases stepped
    have left := assigned.moved (assigned.handled here moved)
    exact left.updated id _ (left.serving id h here)
  | appendEntries disk req =>
    cases stepped
    obtain ⟨logFile, same⟩ := appendEntries_eq disk n.server req
    rw [same]
    exact ⟨⟨assigned.server.entries, assigned.server.first⟩, assigned.serving⟩
  | applyUpdate disk msg =>
    cases stepped
    exact assigned.moved (n.server.applyUpdate_assigns disk msg)
  | sendHeartbeat now req =>
    cases stepped
    exact assigned.moved (Server.sendHeartbeat_viewOnly now n.server req).assigns
  | heartbeatReply success =>
    cases stepped
    exact assigned.moved (n.server.heartbeatReply_viewOnly success).assigns
  | monitorPrimary now =>
    cases stepped
    exact assigned.moved (Server.monitorPrimary_viewOnly now n.server).assigns
  | rebuild =>
    cases stepped
    obtain ⟨filesPrimes, same⟩ := n.server.rebuildAllPrimeSets_eq
    rw [same]
    exact ⟨⟨assigned.server.entries, assigned.server.first⟩, assigned.serving⟩

end Node

namespace Server

theorem Assigned.finds_iff (assigned : s.Assigned) (filename : String) :
    s.FindsMeta filename ↔ ∀ entry, s.table.lookup filename = some entry →
      ∃ found, s.files.lookup entry.fd = some found ∧ found.filename = filename := by
  cases known : s.knows filename with
  | false =>
    have created := getOrCreateFileMeta_unknown known
    constructor
    · intro finds entry present
      have default : s.entryFD filename = entry.fd := by rw [entryFD, present]; rfl
      have closed : entry.fd ∉ s.files := by
        rw [knows, present, Option.any_some] at known
        rw [← AList.lookup_isSome, known]
        exact Bool.false_ne_true
      have none : 0 ∉ s.files := by
        rcases assigned.entries filename with zero | inside
        · rwa [← default, zero] at closed
        · rw [default] at inside
          exact absurd inside closed
      have one := (assigned.first.resolve_left none).2.2 filename
      have kept := finds.versioned entry present
      rw [created, AList.lookup_insert, Option.map_some, Option.some.injEq] at kept
      rw [s.base_entry filename entry present, ← kept] at one
      exact absurd one (show (0 : Int32) ≠ 1 by decide)
    · intro own
      have absent : s.table.lookup filename = none := by
        rw [Option.eq_none_iff_forall_ne_some]
        intro entry present
        obtain ⟨found, opened, _⟩ := own entry present
        rw [knows, present, Option.any_some, opened] at known
        cases known
      refine ⟨?_, ?_, ?_, fun other different => ?_⟩
      · rw [created, AList.lookup_insert]
        exact ⟨_, rfl, rfl⟩
      · rw [created, AList.lookup_insert]
        rfl
      · intro entry present
        rw [absent] at present
        cases present
      · rw [created, AList.lookup_insert_ne different]
  | true =>
    obtain ⟨entry, present, opened⟩ := (Option.any_eq_true _ _).mp known
    have found : s.getOrCreateFileMeta filename = (s, entry.fd) := by
      unfold getOrCreateFileMeta
      simp [present, opened]
    constructor
    · rintro ⟨named, -, -, -⟩ other same
      rw [present, Option.some.injEq] at same
      rw [found] at named
      exact same ▸ named
    · intro own
      refine ⟨?_, ?_, fun other same => ?_, fun other _ => ?_⟩ <;> rw [found]
      · exact own entry present
      · rw [present]
        rfl
      · rw [same]
        rfl

end Server

theorem Node.start_assigned [LogCodec] (id rootDir : String) (config : Map String ServerInfo) (tree : Tree) (logFile : Bytes)
    (io : Nat → ApplyIO) (now : Time) (port : String) :
    (start ((newServer id rootDir config tree logFile).startServer io now port)).Assigned := by
  obtain ⟨_, _, _, same⟩ := (newServer id rootDir config tree logFile).startServer_eq io now port
  rw [start, same]
  exact ⟨⟨fun _ => .inl rfl, .inr ⟨fun fd => AList.notMem_empty fd, rfl, fun _ => rfl⟩⟩, fun _ _ here => by cases here⟩

theorem Node.finds_meta_iff [LogCodec] (id rootDir : String) (config : Map String ServerInfo) (tree : Tree) (logFile : Bytes)
    (io : Nat → ApplyIO) (now : Time) (port : String) (actions : List NodeAction) (n : Node)
    (reached : Transition.run Node.step (.start ((newServer id rootDir config tree logFile).startServer io now port))
      actions = some n) (filename : String) :
    n.server.FindsMeta filename ↔ ∀ entry, n.server.table.lookup filename = some entry →
      ∃ found, n.server.files.lookup entry.fd = some found ∧ found.filename = filename := by
  have assigned := Transition.run_invariant (fun _ _ => True) Node.Assigned
    (fun _ _ _ assigned _ stepped => assigned.step stepped) _ (start_assigned id rootDir config tree logFile io now port)
    actions (Transition.meets_any _ _ _) reached
  exact assigned.server.finds_iff filename

theorem first_created_found :
    ∃ n, Transition.run Node.step (.start firstPrimary) [.create {} ⟨"r1", "output/a", "c", .write⟩] = some n ∧
      n.server.FindsMeta "output/a" := by
  have outcome : (Transition.run Node.step (.start firstPrimary) [.create {} ⟨"r1", "output/a", "c", .write⟩]).map
      (fun n => (n.server.table.lookup "output/a").map fun entry =>
        (n.server.files.lookup entry.fd).map FileMeta.filename) = some (some (some "output/a")) := by decide +kernel
  obtain ⟨n, reached, facts⟩ := Option.map_eq_some_iff.mp outcome
  refine ⟨n, reached, (Node.finds_meta_iff "1" "storage" mainServers .empty [] (fun _ => .ok) 0 "5001" _ n reached
    "output/a").mpr fun entry present => ?_⟩
  rw [present, Option.map_some, Option.some.injEq] at facts
  exact Option.map_eq_some_iff.mp facts

-- The second file has descriptor 1, but its entry reads as descriptor 0, which is the first file's.
theorem second_created_confused :
    ∃ n, Transition.run Node.step (.start firstPrimary)
        [.create {} ⟨"r1", "output/a", "c", .write⟩, .create {} ⟨"r2", "output/b", "c", .write⟩] = some n ∧
      (n.server.files.lookup 1).map FileMeta.filename = some "output/b" ∧
      (n.server.getOrCreateFileMeta "output/b").2 = 0 ∧
      ((n.server.getOrCreateFileMeta "output/b").1.files.lookup 0).map FileMeta.filename = some "output/a" ∧
      ¬n.server.FindsMeta "output/b" := by
  have outcome : (Transition.run Node.step (.start firstPrimary)
      [.create {} ⟨"r1", "output/a", "c", .write⟩, .create {} ⟨"r2", "output/b", "c", .write⟩]).map
      (fun n => ((n.server.files.lookup 1).map FileMeta.filename, (n.server.getOrCreateFileMeta "output/b").2,
        ((n.server.getOrCreateFileMeta "output/b").1.files.lookup 0).map FileMeta.filename)) =
      some (some "output/b", 0, some "output/a") := by decide +kernel
  obtain ⟨n, reached, facts⟩ := Option.map_eq_some_iff.mp outcome
  simp only [Prod.mk.injEq] at facts
  obtain ⟨second, returned, first⟩ := facts
  refine ⟨n, reached, second, returned, first, fun finds => ?_⟩
  obtain ⟨found, present, named⟩ := finds.named
  rw [returned] at present
  rw [present, Option.map_some, named] at first
  exact absurd first (by decide)

end Ikkat
