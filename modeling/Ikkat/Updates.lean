import Ikkat.Alignment
import Ikkat.FullSync
import Ikkat.Written

set_option autoImplicit false

namespace Ikkat

variable {s next : Server}

def Openable (tree : Tree) (path : Path) : Prop :=
  tree.find path.dropLast = some .dir ∧ tree.find path ≠ some .dir

instance (tree : Tree) (path : Path) : Decidable (Openable tree path) := inferInstanceAs (Decidable (_ ∧ _))

theorem writeFile_unopenable (tree : Tree) (path : Path) (content : Bytes) (closed : ¬ Openable tree path) :
    tree.writeFile path content = none := by
  cases written : tree.writeFile path content with
  | none => rfl
  | some next => exact absurd (FileTree.Tree.writeFile_place written) closed

theorem osWriteFile_ok_iff (outcome : Outcome) (tree : Tree) (path : Path) (data : Bytes) :
    (osWriteFile outcome tree path data).2 = true ↔ outcome = .done ∧ Openable tree path := by
  cases outcome with
  | refused => simp [osWriteFile]
  | cut count => simp [osWriteFile]
  | done =>
    by_cases openable : Openable tree path
    · obtain ⟨next, written⟩ := tree.writeFile_into path data openable.1 openable.2
      simp [osWriteFile, written, openable]
    · simp [osWriteFile, writeFile_unopenable tree path data openable, openable]

theorem osWriteFile_unopened {outcome : Outcome} {tree : Tree} {path : Path} (data : Bytes)
    (failed : ¬ (outcome = .done ∧ Openable tree path)) (unopened : ∀ count, outcome = .cut count → ¬ Openable tree path) :
    (osWriteFile outcome tree path data).1 = tree := by
  cases outcome with
  | refused => rfl
  | done => simp [osWriteFile, writeFile_unopenable tree path data fun openable => failed ⟨rfl, openable⟩]
  | cut count => simp [osWriteFile, writeFile_unopenable tree path _ (unopened count rfl)]

namespace Server

structure AsBefore (s next : Server) : Prop where
  log : next.log = s.log
  commitIndex : next.commitIndex = s.commitIndex
  lastApplied : next.lastApplied = s.lastApplied
  files : ∀ fd, next.files.lookup fd = s.files.lookup fd
  table : ∀ name, next.table.lookup name = s.table.lookup name
  tree : ∀ path, next.tree.find path = s.tree.find path

theorem AsBefore.refl (s : Server) : AsBefore s s := ⟨rfl, rfl, rfl, fun _ => rfl, fun _ => rfl, fun _ => rfl⟩

theorem AsBefore.trans {middle : Server} (first : AsBefore s middle) (second : AsBefore middle next) :
    AsBefore s next where
  log := second.log.trans first.log
  commitIndex := second.commitIndex.trans first.commitIndex
  lastApplied := second.lastApplied.trans first.lastApplied
  files fd := (second.files fd).trans (first.files fd)
  table name := (second.table name).trans (first.table name)
  tree path := (second.tree path).trans (first.tree path)

def Has (s : Server) (f : Replication) : Prop :=
  s.tree.find (s.path f.filename) = some (.file f.content) ∧
    ∃ entry found, s.table.lookup f.filename = some entry ∧ s.files.lookup entry.fd = some found ∧
      found.version = f.version

def FailsClean (disk : DiskIO) (s : Server) : Nat → List Replication → Prop
  | _, [] => True
  | position, f :: rest =>
      if disk.write position = .done ∧ Openable s.tree (s.path f.filename) then
        s.Has f ∧ FailsClean disk s (position + 1) rest
      else ∀ count, disk.write position = .cut count → ¬ Openable s.tree (s.path f.filename)

theorem receiveFile_has {outcome : Outcome} {f : Replication} (has : s.Has f)
    (written : outcome = .done ∧ Openable s.tree (s.path f.filename)) :
    (s.receiveFile outcome f).2 = true ∧ (s.receiveFile outcome f).1.rootDir = s.rootDir ∧
      AsBefore s (s.receiveFile outcome f).1 := by
  obtain ⟨text, entry, found, listed, opened, version⟩ := has
  have done := (osWriteFile_ok_iff outcome s.tree (s.path f.filename) f.content).mpr written
  have tree := fun target => osWriteFile_written target done
  unfold receiveFile
  dsimp only
  rw [if_pos done]
  generalize (osWriteFile outcome s.tree (s.path f.filename) f.content).1 = left at tree ⊢
  have known : getOrCreateFileMeta { s with tree := left } f.filename = ({ s with tree := left }, entry.fd) := by
    simp [getOrCreateFileMeta, listed, opened]
  have same : setMetaVersion { s with tree := left } entry.fd f.version =
      { s with tree := left, files := s.files.insert entry.fd found } := by
    rw [setMetaVersion, opened, ← version]
  rw [known]
  rw [same]
  obtain ⟨_, rebuilt⟩ := rebuildPrimeSet_eq { s with tree := left, files := s.files.insert entry.fd found }
    (metaName { s with tree := left, files := s.files.insert entry.fd found } entry.fd)
  rw [rebuilt]
  refine ⟨rfl, rfl, rfl, rfl, rfl, fun fd => ?_, fun _ => rfl, fun path => ?_⟩
  · by_cases own : fd = entry.fd
    · rw [own, AList.lookup_insert, opened]
    · exact AList.lookup_insert_ne own
  · rw [tree path]
    split_ifs with own
    · rw [own, text]
    · rfl

theorem receiveFile_unopened (outcome : Outcome) (s : Server) (f : Replication)
    (failed : ¬ (outcome = .done ∧ Openable s.tree (s.path f.filename)))
    (unopened : ∀ count, outcome = .cut count → ¬ Openable s.tree (s.path f.filename)) :
    s.receiveFile outcome f = (s, false) := by
  have refused : (osWriteFile outcome s.tree (s.path f.filename) f.content).2 = false := by
    rw [← Bool.not_eq_true, osWriteFile_ok_iff]
    exact failed
  unfold receiveFile
  dsimp only
  rw [refused, osWriteFile_unopened _ failed unopened]
  rfl

theorem receiveFiles_clean {disk : DiskIO} (files : List Replication) (position : Nat) (middle : Server)
    (root : middle.rootDir = s.rootDir) (same : AsBefore s middle) (clean : s.FailsClean disk position files)
    {reason : String} (failed : middle.receiveFiles disk position files = (next, some reason)) : AsBefore s next := by
  induction files generalizing position middle with
  | nil => cases failed
  | cons f rest ih =>
    have path : middle.path f.filename = s.path f.filename := by rw [Server.path, root]; rfl
    have openable : Openable middle.tree (middle.path f.filename) ↔ Openable s.tree (s.path f.filename) := by
      rw [path, Openable, Openable, same.tree, same.tree]
    unfold FailsClean at clean
    unfold receiveFiles at failed
    split_ifs at clean with writes
    · obtain ⟨⟨text, entry, found, listed, opened, version⟩, later⟩ := clean
      have has : middle.Has f := by
        refine ⟨?_, entry, found, (same.table _).trans listed, (same.files _).trans opened, version⟩
        rw [path, same.tree, text]
      obtain ⟨done, kept, unchanged⟩ := receiveFile_has has ⟨writes.1, openable.mpr writes.2⟩
      rw [if_pos done] at failed
      exact ih (position + 1) _ (kept.trans root) (same.trans unchanged) later failed
    · have refused := receiveFile_unopened (disk.write position) middle f
        (fun both => writes ⟨both.1, openable.mp both.2⟩) fun count cut => (clean count cut) ∘ openable.mp
      rw [refused] at failed
      cases failed
      exact same

def GapFirst (length : Nat) : List PbLogEntry → Prop
  | [] => False
  | e :: rest => if e.received.index ≤ length then GapFirst length rest else e.received.index ≠ length + 1

instance gapFirstDecidable (length : Nat) : ∀ entries, Decidable (GapFirst length entries)
  | [] => inferInstanceAs (Decidable False)
  | e :: rest =>
      have := gapFirstDecidable length rest
      inferInstanceAs (Decidable (if e.received.index ≤ length then _ else _))

section Update

variable [LogCodec]

theorem receiveLog_grows (disk : DiskIO) (entries : List PbLogEntry) (s : Server) :
    s.log <+: (s.receiveLog disk entries).1.log := by
  induction entries generalizing s with
  | nil => exact List.prefix_rfl
  | cons e rest ih =>
    unfold receiveLog
    split_ifs
    · exact ih s
    · exact List.prefix_rfl
    · obtain ⟨_, same⟩ := appendLog_eq (disk.persist s.log.length) s e.received
      have later := ih (s.appendLog (disk.persist s.log.length) e.received).1
      rw [same] at later ⊢
      have grown : s.log <+: s.log ++ [e.received] := List.prefix_append ..
      exact grown.trans later

theorem receiveLog_gap_iff {disk : DiskIO} (entries : List PbLogEntry) {reason : String}
    (failed : s.receiveLog disk entries = (next, some reason)) :
    AsBefore s next ↔ GapFirst s.log.length entries := by
  induction entries with
  | nil => cases failed
  | cons e rest ih =>
    unfold receiveLog at failed
    unfold GapFirst
    split_ifs at failed ⊢ with old gap
    · exact ih failed
    · cases failed
      exact iff_of_true (.refl s) gap
    · obtain ⟨logFile, appended⟩ := appendLog_eq (disk.persist s.log.length) s e.received
      refine iff_of_false (fun same => ?_) gap
      have longer := (receiveLog_grows disk rest (s.appendLog (disk.persist s.log.length) e.received).1).length_le
      rw [failed, same.log, appended, List.length_append, List.length_singleton] at longer
      omega

def SafeToFail (disk : DiskIO) (s : Server) (msg : UpdateMessage) : Prop :=
  if msg.isFullSync then
    (s.log = [] ∧ s.commitIndex = 0 ∧ s.lastApplied = 0) ∧ s.FailsClean disk 0 msg.fullFiles
  else GapFirst s.log.length msg.logEntries

theorem failed_update_changes_nothing (disk : DiskIO) (s next : Server) (msg : UpdateMessage) (reason : String)
    (failed : s.applyUpdate disk msg = (next, some reason)) :
    (s.SafeToFail disk msg → AsBefore s next) ∧
      (AsBefore s next → if msg.isFullSync then s.log = [] ∧ s.commitIndex = 0 ∧ s.lastApplied = 0
        else s.SafeToFail disk msg) := by
  unfold applyUpdate at failed
  unfold SafeToFail
  split_ifs at failed ⊢ with full
  · constructor
    · rintro ⟨⟨log, commitIndex, lastApplied⟩, clean⟩
      have reset : { s with log := [], commitIndex := 0, lastApplied := 0 } = s := by
        cases s
        cases log
        cases commitIndex
        cases lastApplied
        rfl
      rw [reset] at failed
      exact receiveFiles_clean msg.fullFiles 0 s rfl (.refl s) clean failed
    · intro same
      obtain ⟨_, _, _, _, _, touched⟩ :=
        receiveFiles_eq disk 0 { s with log := [], commitIndex := 0, lastApplied := 0 } msg.fullFiles
      rw [failed] at touched
      dsimp only at touched
      exact ⟨by rw [← same.log, touched], by rw [← same.commitIndex, touched], by rw [← same.lastApplied, touched]⟩
  · have exactly := receiveLog_gap_iff msg.logEntries failed
    exact ⟨exactly.mpr, exactly.mp⟩

end Update

end Server

def oneFileSync : UpdateMessage := ⟨true, [], [⟨"output/a", 1, [50, 10]⟩]⟩

def twoFileSync : UpdateMessage := ⟨true, [], [⟨"output/a", 1, [50, 10]⟩, ⟨"output/b", 1, [51, 10]⟩]⟩

def gapUpdate : UpdateMessage := ⟨false, [firstEntry.wire, ⟨3, "WRITE", "output/a", [], 4⟩], []⟩

def oneFileBackup : Server := (freshBackup.applyUpdate {} oneFileSync).1

def loggedBackup : Server := (freshBackup.appendEntries {} (sendAppendEntry "1" firstEntry 0)).1

def secondRefused : DiskIO := { write := fun position => if position = 0 then .done else .refused }

theorem refused_sync_changes_nothing :
    (∃ next reason, oneFileBackup.applyUpdate secondRefused twoFileSync = (next, some reason) ∧
      Server.AsBefore oneFileBackup next) ∧
      ∃ next, loggedBackup.log = [firstEntry] ∧ loggedBackup.applyUpdate {} gapUpdate = (next, some "log gap") ∧
        Server.AsBefore loggedBackup next := by
  constructor
  · have failed : (oneFileBackup.applyUpdate secondRefused twoFileSync).2 = some "input/output error" := by decide +kernel
    have same := Prod.ext (rfl : _ = (oneFileBackup.applyUpdate secondRefused twoFileSync).1) failed
    have writes : secondRefused.write 0 = .done ∧ Openable oneFileBackup.tree (oneFileBackup.path "output/a") := by
      decide +kernel
    have refused : ¬ (secondRefused.write 1 = .done ∧ Openable oneFileBackup.tree (oneFileBackup.path "output/b")) := by
      decide +kernel
    have clean : oneFileBackup.FailsClean secondRefused 0 twoFileSync.fullFiles := by
      rw [twoFileSync, Server.FailsClean, if_pos writes, Server.FailsClean, if_neg refused]
      exact ⟨⟨by decide +kernel, _, _, rfl, rfl, rfl⟩, nofun⟩
    exact ⟨_, _, same, (Server.failed_update_changes_nothing _ oneFileBackup _ twoFileSync _ same).1
      ⟨⟨by decide +kernel, by decide +kernel, by decide +kernel⟩, clean⟩⟩
  · have failed : (loggedBackup.applyUpdate {} gapUpdate).2 = some "log gap" := by decide +kernel
    have same := Prod.ext (rfl : _ = (loggedBackup.applyUpdate {} gapUpdate).1) failed
    have gap : Server.GapFirst loggedBackup.log.length gapUpdate.logEntries := by decide +kernel
    exact ⟨_, by decide +kernel, same, (Server.failed_update_changes_nothing _ loggedBackup _ gapUpdate _ same).1 gap⟩

theorem gap_found_behind_new_entry :
    freshBackup.log = [] ∧ (freshBackup.applyUpdate {} gapUpdate).2 = some "log gap" ∧
      (freshBackup.applyUpdate {} gapUpdate).1.log = [firstEntry] := by
  decide +kernel

end Ikkat
