import Ikkat.Backup
import Ikkat.Recovery
import Ikkat.Shared.Store

set_option autoImplicit false

namespace Ikkat

variable {entries : List LogEntry} {tree : Tree}

def LogEntry.stored (rootDir : String) (tree : Tree) (entry : LogEntry) : Option Tree :=
  tree.store (join rootDir entry.filename) entry.content

def LogEntry.isWrite (entry : LogEntry) : Bool := entry.op = "WRITE"

theorem applyTree_ok (rootDir : String) (entry : LogEntry) (tree : Tree) :
    applyTree .ok rootDir entry tree =
      if entry.isWrite then (entry.stored rootDir tree).getD tree else tree := by
  unfold applyTree LogEntry.isWrite LogEntry.stored FileTree.Tree.store
  simp only [decide_eq_true_eq, ApplyIO.ok]
  split
  case isFalse => rfl
  case isTrue =>
    generalize join rootDir entry.filename = path
    cases dirs : tree.mkdirAll path.dropLast with
    | none => rfl
    | some made =>
      cases written : made.writeFile path entry.content with
      | some next => simp [osWriteFile, written]
      | none =>
        simp only [osWriteFile, written, Option.bind_eq_bind, Option.bind_some]
        exact tree.mkdirAll_of_refused dirs written

theorem applyAll_ok (rootDir : String) (position : Nat) (entries : List LogEntry) (tree : Tree) :
    applyAll (fun _ => .ok) rootDir position entries tree =
      (entries.filter LogEntry.isWrite).foldl
        (fun tree entry => (entry.stored rootDir tree).getD tree) tree := by
  induction entries generalizing position tree with
  | nil => rfl
  | cons entry rest ih =>
    rw [applyAll, ih, applyTree_ok, List.filter_cons]
    split <;> rfl

theorem applyAll_append (io : Nat → ApplyIO) (rootDir : String) (position : Nat)
    (first second : List LogEntry) (tree : Tree) :
    applyAll io rootDir position (first ++ second) tree =
      applyAll io rootDir (position + first.length) second (applyAll io rootDir position first tree) := by
  induction first generalizing position tree with
  | nil => rfl
  | cons entry rest ih =>
    rw [List.cons_append, applyAll, ih, applyAll, List.length_cons, Nat.add_assoc, Nat.add_comm 1]

section Backup

-- applyCommitted with a note of every entry it applies and of the entry's position in the log.
def applyLoopNoting (io : Nat → ApplyIO) :
    Nat → Server → List (LogEntry × Nat) → Server × List (LogEntry × Nat)
  | 0, s, noted => (s, noted)
  | fuel + 1, s, noted =>
      if s.lastApplied < s.commitIndex then
        match s.log[s.lastApplied]? with
        | none => (s, noted)
        | some entry =>
            applyLoopNoting io fuel
              (Server.apply (io s.lastApplied) { s with lastApplied := s.lastApplied + 1 } entry)
              (noted ++ [(entry, s.lastApplied)])
      else (s, noted)

theorem applyLoopNoting_server (io : Nat → ApplyIO) (fuel : Nat) (s : Server)
    (noted : List (LogEntry × Nat)) : (applyLoopNoting io fuel s noted).1 = s.applyLoop io fuel := by
  induction fuel generalizing s noted with
  | zero => rfl
  | succ fuel ih =>
    unfold applyLoopNoting Server.applyLoop
    split_ifs
    · cases s.log[s.lastApplied]? with
      | none => rfl
      | some entry => exact ih _ _
    · rfl

theorem applyLoopNoting_noted (io : Nat → ApplyIO) (fuel : Nat) (s : Server)
    (noted : List (LogEntry × Nat)) (enough : s.log.length ≤ s.lastApplied + fuel) :
    (applyLoopNoting io fuel s noted).2 = noted ++ s.pending.zipIdx s.lastApplied := by
  induction fuel generalizing s noted with
  | zero => simp [applyLoopNoting, s.pending_none (.inr (by omega))]
  | succ fuel ih =>
    unfold applyLoopNoting
    split_ifs with behind
    · cases found : s.log[s.lastApplied]? with
      | none => simp [s.pending_none (.inr (List.getElem?_eq_none_iff.mp found))]
      | some entry =>
        rw [ih _ _ (by simp only [Server.apply]; omega), Server.pending_next behind found]
        simp [Server.apply, Server.pending]
    · simp [s.pending_none (.inl (by omega))]

structure Observed where
  server : Server
  noted : List (LogEntry × Nat)

def Observed.receive [LogCodec] (o : Observed) (call : DiskIO × AppendEntriesRequest) : Observed :=
  let s := call.2.entries.foldl (Server.receiveEntry call.1) o.server
  let s := s.raiseCommit call.2.leaderCommit
  let done := applyLoopNoting call.1.apply (s.log.length - s.lastApplied) s o.noted
  ⟨done.1, done.2⟩

theorem receive_server [LogCodec] (o : Observed) (call : DiskIO × AppendEntriesRequest) :
    (o.receive call).server = (o.server.appendEntries call.1 call.2).1 :=
  applyLoopNoting_server ..

structure Folded (root : String) (tree : Tree) (commits : List Int32) (o : Observed) : Prop where
  rootDir : o.server.rootDir = root
  applied : o.server.lastApplied = min o.server.commitIndex o.server.log.length
  commit : (o.server.commitIndex : Int) = (commits.map Int32.toInt).foldl max 0
  once : o.noted = (o.server.log.take o.server.lastApplied).zipIdx
  files : o.server.tree =
    applyAll (fun _ => .ok) root 0 (o.server.log.take o.server.lastApplied) tree

theorem folded_receive [LogCodec] {root : String} {commits : List Int32} {o : Observed}
    (folded : Folded root tree commits o) (call : DiskIO × AppendEntriesRequest)
    (writes : ∀ position, call.1.apply position = .ok) :
    Folded root tree (commits ++ [call.2.leaderCommit]) (o.receive call) := by
  obtain ⟨logFile, same⟩ := receiveEntries_eq call.1 call.2.entries o.server
  obtain ⟨suffix, grown⟩ := extend_grows o.server.log call.2.entries
  let s : Server :=
    { o.server with
      log := extend o.server.log call.2.entries
      commitIndex := max o.server.commitIndex call.2.leaderCommit.toInt.toNat
      logFile := logFile }
  have server : (o.receive call).server = s.applied (fun _ => .ok) := by
    rw [receive_server, Server.appendEntries, same, raiseCommit_eq, Server.applyCommitted_eq]
    have io : call.1.apply = fun _ => .ok := funext writes
    rw [io]
  have noted : (o.receive call).noted = o.noted ++ s.pending.zipIdx s.lastApplied := by
    simp only [Observed.receive, same, raiseCommit_eq]
    exact applyLoopNoting_noted _ _ s _ (by simp only [s]; omega)
  have before := folded.applied
  have length : s.log.length = o.server.log.length + suffix.length := by
    simp only [s, ← grown, List.length_append]
  have bounds : o.server.commitIndex ≤ s.commitIndex := Nat.le_max_left _ _
  have reached : (s.applied fun _ => .ok).lastApplied = min s.commitIndex s.log.length := by
    change max o.server.lastApplied (min s.commitIndex s.log.length) = _
    omega
  have cut : s.log.take (min s.commitIndex s.log.length) =
      o.server.log.take o.server.lastApplied ++ s.pending := by
    have front : (s.log.take s.commitIndex).take o.server.lastApplied =
        o.server.log.take o.server.lastApplied := by
      rw [List.take_take, Nat.min_eq_left (by omega)]
      simp only [s, ← grown]
      rw [List.take_append_of_le_length (by omega)]
    rw [← front, ← List.take_eq_take_min]
    exact (List.take_append_drop _ _).symm
  have shorter : (o.server.log.take o.server.lastApplied).length = o.server.lastApplied := by
    rw [List.length_take]
    omega
  constructor
  · rw [server]
    exact folded.rootDir
  · rw [server]
    exact reached
  · rw [server, List.map_append, List.foldl_append, ← folded.commit]
    change ((max o.server.commitIndex call.2.leaderCommit.toInt.toNat : Nat) : Int) = _
    simp only [List.map_cons, List.map_nil, List.foldl_cons, List.foldl_nil]
    omega
  · rw [noted, server, reached]
    change _ = (s.log.take _).zipIdx
    rw [cut, List.zipIdx_append, shorter, folded.once, Nat.zero_add]
  · rw [server, reached]
    change applyAll _ o.server.rootDir o.server.lastApplied s.pending o.server.tree =
      applyAll _ root 0 (s.log.take _) tree
    rw [cut, applyAll_append, shorter, ← folded.files, folded.rootDir, Nat.zero_add]

theorem backup_files_fold_applied_log [LogCodec] (s : Server) (empty : s.log = [])
    (uncommitted : s.commitIndex = 0) (unapplied : s.lastApplied = 0)
    (calls : List (Prod DiskIO AppendEntriesRequest))
    (writes : ∀ call ∈ calls, ∀ position, call.1.apply position = .ok) :
    let o := calls.foldl Observed.receive ⟨s, []⟩
    o.server = calls.foldl (fun s call => (s.appendEntries call.1 call.2).1) s ∧
    o.server.lastApplied = min o.server.commitIndex o.server.log.length ∧
    (o.server.commitIndex : Int) = (calls.map fun call => call.2.leaderCommit.toInt).foldl max 0 ∧
    o.noted = (o.server.log.take o.server.lastApplied).zipIdx ∧
    o.server.tree = ((o.server.log.take o.server.lastApplied).filter LogEntry.isWrite).foldl
      (fun tree entry => (entry.stored s.rootDir tree).getD tree) s.tree := by
  have folded : Folded s.rootDir s.tree (calls.map fun call => call.2.leaderCommit)
      (calls.foldl Observed.receive ⟨s, []⟩) := by
    induction calls using List.reverseRecOn with
    | nil => exact ⟨rfl, by simp [empty, uncommitted, unapplied], by simp [uncommitted], by simp [empty],
        by simp [empty, applyAll]⟩
    | append_singleton earlier call ih =>
      rw [List.foldl_append, List.map_append]
      exact folded_receive (ih fun other member => writes other (by simp [member])) call
        (writes call (by simp))
  have erased : ∀ o : Observed, (calls.foldl Observed.receive o).server =
      calls.foldl (fun s call => (s.appendEntries call.1 call.2).1) o.server := by
    clear folded writes
    induction calls with
    | nil => exact fun _ => rfl
    | cons call rest ih =>
      intro o
      rw [List.foldl_cons, ih, receive_server, List.foldl_cons]
  refine ⟨erased ⟨s, []⟩, folded.applied, ?_, folded.once, ?_⟩
  · rw [folded.commit, List.map_map]
    rfl
  · rw [folded.files, applyAll_ok]

def aheadCalls : List (Prod DiskIO AppendEntriesRequest) :=
  [({}, ⟨"1", [firstEntry.wire, firstEntry.wire], 0⟩), ({}, ⟨"1", [secondEntry.wire], 5⟩), ({}, ⟨"1", [], -1⟩)]

theorem aheadCalls_folded :
    (aheadCalls.foldl Observed.receive ⟨blankServer "2", []⟩).server.lastApplied = 2 ∧
      (aheadCalls.foldl Observed.receive ⟨blankServer "2", []⟩).noted = [(firstEntry, 0), (secondEntry, 1)] ∧
      ((aheadCalls.foldl Observed.receive ⟨blankServer "2", []⟩).server.commitIndex : Int) =
        (aheadCalls.map fun call => call.2.leaderCommit.toInt).foldl max 0 := by
  have folded := backup_files_fold_applied_log (blankServer "2") rfl rfl rfl aheadCalls
    (by simp [aheadCalls])
  exact ⟨by decide +kernel, by decide +kernel, folded.2.2.1⟩

end Backup

section Replay

variable {root : String}

def lastWrite (root : String) (path : Path) (entries : List LogEntry) : Option LogEntry :=
  entries.reverse.find? fun entry => entry.isWrite ∧ join root entry.filename = path

def NonNested (root : String) (entries : List LogEntry) : Prop :=
  ∀ first ∈ entries, ∀ second ∈ entries,
    join root first.filename <+: join root second.filename → first.filename = second.filename

def WritesSucceed (root : String) : List LogEntry → Tree → Prop
  | [], _ => True
  | entry :: rest, tree =>
      (entry.isWrite → ∃ next, entry.stored root tree = some next) ∧
        WritesSucceed root rest (applyTree .ok root entry tree)

def replayed (root : String) (entries : List LogEntry) (tree : Tree) (path : Path) :
    Option (FileTree.Node Bytes) :=
  match lastWrite root path entries with
  | some entry => some (.file entry.content)
  | none =>
      if ∃ entry ∈ entries, entry.isWrite ∧ path <+: (join root entry.filename).dropLast then some .dir
      else tree.find path

theorem NonNested.tail {entry : LogEntry} {rest : List LogEntry} (apart : NonNested root (entry :: rest)) :
    NonNested root rest :=
  fun first inFirst second inSecond => apart first (by simp [inFirst]) second (by simp [inSecond])

theorem NonNested.apart (nonNested : NonNested root entries)
    {first second : LogEntry} (inFirst : first ∈ entries) (inSecond : second ∈ entries)
    (runs : join root first.filename <+: join root second.filename) :
    join root first.filename = join root second.filename :=
  congrArg (join root) (nonNested first inFirst second inSecond runs)

theorem writesSucceed_iff (apart : NonNested root entries) :
    WritesSucceed root entries tree ↔
      ∀ entry ∈ entries, entry.isWrite → tree.Clear (join root entry.filename) := by
  induction entries generalizing tree with
  | nil => simp [WritesSucceed]
  | cons entry rest ih =>
    rw [WritesSucceed, ih apart.tail, List.forall_mem_cons, applyTree_ok]
    by_cases write : entry.isWrite
    · simp only [write, forall_const]
      have later {next : Tree} (stored : entry.stored root tree = some next) (other : LogEntry)
          (member : other ∈ rest) :
          next.Clear (join root other.filename) ↔ tree.Clear (join root other.filename) :=
        FileTree.Tree.clear_store_iff stored (apart.apart (by simp [member]) (by simp))
          fun runs => (apart.apart (by simp) (by simp [member]) runs).symm
      constructor
      · rintro ⟨⟨next, stored⟩, clear⟩
        rw [stored] at clear
        exact ⟨FileTree.Tree.clear_of_store stored,
          fun other member isWrite => (later stored other member).mp (clear other member isWrite)⟩
      · rintro ⟨own, clear⟩
        obtain ⟨next, stored⟩ : ∃ next, entry.stored root tree = some next := own.store entry.content
        rw [stored]
        exact ⟨⟨next, rfl⟩,
          fun other member isWrite => (later stored other member).mpr (clear other member isWrite)⟩
    · simp [write]

theorem lastWrite_cons (path : Path) (entry : LogEntry) (rest : List LogEntry) :
    lastWrite root path (entry :: rest) = (lastWrite root path rest).or
      (if entry.isWrite ∧ join root entry.filename = path then some entry else none) := by
  rw [lastWrite, lastWrite]
  simp

theorem find_applyAll (position : Nat) (path : Path)
    (apart : NonNested root entries) (succeed : WritesSucceed root entries tree) :
    (applyAll (fun _ => .ok) root position entries tree).find path = replayed root entries tree path := by
  induction entries generalizing tree position with
  | nil => simp [applyAll, replayed, lastWrite]
  | cons entry rest ih =>
    rw [applyAll, ih (position + 1) apart.tail succeed.2, replayed, replayed, lastWrite_cons]
    cases lastWrite root path rest with
    | some last => rfl
    | none =>
      rw [applyTree_ok]
      by_cases write : entry.isWrite
      · obtain ⟨next, stored⟩ := succeed.1 write
        have found := FileTree.Tree.find_store stored path
        simp only [write, if_true, stored, Option.getD_some, found, List.exists_mem_cons_iff]
        by_cases own : join root entry.filename = path
        · -- nothing later runs through the file
          have free : ¬ ∃ other ∈ rest, other.isWrite ∧ path <+: (join root other.filename).dropLast := by
            rintro ⟨other, member, isWrite, above⟩
            subst own
            have equal := apart.apart (by simp) (by simp [member]) (above.trans (List.dropLast_prefix _))
            have clear := (writesSucceed_iff apart).mp succeed other (by simp [member]) isWrite
            exact absurd (equal ▸ above) (FileTree.Tree.not_prefix_dropLast clear.nonempty)
          simp [own, free]
        · have other : path ≠ join root entry.filename := fun same => own same.symm
          simp only [own, other]
          by_cases above : path <+: (join root entry.filename).dropLast
          · simp [above]
          · simp [above]
      · simp [write]

variable {first : List LogEntry}

theorem clear_applyAll (position : Nat)
    (apart : NonNested root entries) (taken : first ⊆ entries) {other : LogEntry} (member : other ∈ entries)
    (clear : tree.Clear (join root other.filename)) :
    (applyAll (fun _ => .ok) root position first tree).Clear (join root other.filename) := by
  induction first generalizing tree position with
  | nil => exact clear
  | cons entry rest ih =>
    rw [List.cons_subset] at taken
    refine ih (position + 1) taken.2 ?_
    rw [applyTree_ok]
    split
    · cases stored : entry.stored root tree with
      | none => exact clear
      | some next =>
        exact (FileTree.Tree.clear_store_iff stored (apart.apart member taken.1)
          fun runs => (apart.apart taken.1 member runs).symm).mpr clear
    · exact clear

theorem replayed_again {middle : Tree} (taken : first ⊆ entries)
    (left : ∀ path, middle.find path = replayed root first tree path) (path : Path) :
    replayed root entries middle path = replayed root entries tree path := by
  unfold replayed
  cases last : lastWrite root path entries with
  | some entry => rfl
  | none =>
    split_ifs with above
    · rfl
    · have earlier : lastWrite root path first = none := by
        rw [lastWrite, List.find?_eq_none] at last ⊢
        exact fun entry member => last entry (by simpa using taken (by simpa using member))
      have below : ¬ ∃ entry ∈ first, entry.isWrite ∧ path <+: (join root entry.filename).dropLast :=
        fun ⟨entry, member, rest⟩ => above ⟨entry, taken member, rest⟩
      rw [left, replayed, earlier]
      exact if_neg below

def Server.replay [LogCodec] (s : Server) (entries : List LogEntry) : Server :=
  (entries.map LogCodec.marshal).foldl (Server.recoverEntry fun _ => .ok) s

theorem replay_eq [LogCodec] (s : Server) (entries : List LogEntry) : (s.replay entries).rootDir = s.rootDir ∧
      (s.replay entries).tree = applyAll (fun _ => .ok) s.rootDir s.log.length entries s.tree := by
  obtain ⟨commitIndex, lastApplied, same⟩ :=
    recoverLines_eq (fun _ => .ok) (entries.map LogCodec.marshal) s
  rw [unmarshal_lines] at same
  rw [Server.replay, same]
  exact ⟨rfl, rfl⟩

theorem replay_last_writer_wins [LogCodec] (s : Server) (entries : List LogEntry)
    (apart : NonNested s.rootDir entries) (succeed : WritesSucceed s.rootDir entries s.tree) :
    (∀ before entry later, entries = before ++ entry :: later → entry.op = "WRITE" →
      (∀ other ∈ later, other.op = "WRITE" → other.filename ≠ entry.filename) →
      (s.replay entries).tree.find (join s.rootDir entry.filename) = some (.file entry.content)) ∧
    (∀ path content, (∀ entry ∈ entries, entry.op = "WRITE" → join s.rootDir entry.filename ≠ path) →
      ((s.replay entries).tree.find path = some (.file content) ↔ s.tree.find path = some (.file content))) ∧
    (∀ path, ((s.replay entries).replay entries).tree.find path = (s.replay entries).tree.find path) ∧
    (∀ first, first <+: entries → ∀ path,
      ((s.replay first).replay entries).tree.find path = (s.replay entries).tree.find path) ∧
    (∀ first, first <+: entries → ∀ restarted : Server, restarted.rootDir = s.rootDir →
      restarted.tree = (s.replay first).tree → recorded restarted.logFile = entries → ∀ path,
      (restarted.recoverFromLog fun _ => .ok).1.tree.find path = (s.replay entries).tree.find path) := by
  have clear := (writesSucceed_iff apart).mp succeed
  have resumed (first : List LogEntry) (cut : first <+: entries) (position : Nat) (path : Path) :
      (applyAll (fun _ => .ok) s.rootDir position entries (s.replay first).tree).find path =
        (s.replay entries).tree.find path := by
    have sub : NonNested s.rootDir first :=
      fun one inOne two inTwo => apart one (cut.subset inOne) two (cut.subset inTwo)
    have begun : WritesSucceed s.rootDir first s.tree :=
      (writesSucceed_iff sub).mpr fun entry member => clear entry (cut.subset member)
    have again : WritesSucceed s.rootDir entries (s.replay first).tree := by
      rw [writesSucceed_iff apart, (replay_eq s first).2]
      exact fun entry member isWrite => clear_applyAll _ apart cut.subset member (clear entry member isWrite)
    rw [find_applyAll position path apart again, (replay_eq s entries).2,
      find_applyAll _ path apart succeed]
    refine replayed_again cut.subset (fun path => ?_) path
    rw [(replay_eq s first).2, find_applyAll _ path sub begun]
  have after (first : List LogEntry) (cut : first <+: entries) (path : Path) :
      ((s.replay first).replay entries).tree.find path = (s.replay entries).tree.find path := by
    rw [(replay_eq (s.replay first) entries).2, (replay_eq s first).1]
    exact resumed first cut _ path
  have final (path : Path) : (s.replay entries).tree.find path = replayed s.rootDir entries s.tree path := by
    rw [(replay_eq s entries).2, find_applyAll _ path apart succeed]
  refine ⟨?_, ?_, after entries List.prefix_rfl, after, ?_⟩
  · intro before entry later split write last
    have won : lastWrite s.rootDir (join s.rootDir entry.filename) entries = some entry := by
      have overtaken : (later.reverse.find? fun other =>
          other.isWrite ∧ join s.rootDir other.filename = join s.rootDir entry.filename) = none := by
        rw [List.find?_eq_none]
        intro other member hit
        obtain ⟨isWrite, same⟩ : other.isWrite ∧ _ := of_decide_eq_true hit
        have inLater : other ∈ later := List.mem_reverse.mp member
        exact last other inLater (of_decide_eq_true isWrite)
          (apart other (by simp [split, inLater]) entry (by simp [split]) (by rw [same]))
      rw [lastWrite, split, List.reverse_append, List.reverse_cons, List.append_assoc,
        List.find?_append, overtaken]
      simp [LogEntry.isWrite, write]
    rw [final, replayed, won]
  · intro path content unnamed
    have never : lastWrite s.rootDir path entries = none := by
      rw [lastWrite, List.find?_eq_none]
      intro entry member hit
      obtain ⟨isWrite, same⟩ : entry.isWrite ∧ _ := of_decide_eq_true hit
      exact unnamed entry (List.mem_reverse.mp member) (of_decide_eq_true isWrite) same
    rw [final, replayed, never]
    dsimp only
    split_ifs with above
    · obtain ⟨entry, member, isWrite, runs⟩ := above
      simp [(clear entry member isWrite).above path runs content]
    · rfl
  · intro first cut restarted rootDir tree lines path
    obtain ⟨_, _, _, same⟩ := recoverFromLog_eq (fun _ => .ok) restarted
    rw [same, lines, rootDir, tree]
    exact resumed first cut _ path

theorem overwritten_entry_replayed :
    NonNested (blankServer "2").rootDir [firstEntry, secondEntry] ∧
      ((blankServer "2").replay [firstEntry, secondEntry]).tree.find ["storage", "output", "a"] =
        some (.file secondEntry.content) := by
  have apart : NonNested (blankServer "2").rootDir [firstEntry, secondEntry] := by
    simp [NonNested, firstEntry, secondEntry]
  have succeed : WritesSucceed (blankServer "2").rootDir [firstEntry, secondEntry] (blankServer "2").tree := by
    refine ⟨fun _ => Option.isSome_iff_exists.mp ?_, fun _ => Option.isSome_iff_exists.mp ?_, trivial⟩ <;>
      decide +kernel
  have path : join (blankServer "2").rootDir secondEntry.filename = ["storage", "output", "a"] := by
    decide +kernel
  have wins := (replay_last_writer_wins (blankServer "2") _ apart succeed).1 [firstEntry] secondEntry [] rfl rfl
    (by simp)
  exact ⟨apart, path ▸ wins⟩

end Replay

end Ikkat
