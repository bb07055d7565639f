import Ikkat.Election
import Ikkat.Rpc

set_option autoImplicit false

namespace Ikkat

def chunkSize : Nat := 64 * 1024

-- A write below the end of another writer's truncation leaves a hole of zeros, as the file system does.
def writeAt (content : Bytes) (offset : Nat) (data : Bytes) : Bytes :=
  content.take offset ++ List.replicate (offset - content.length) 0 ++ data ++ content.drop (offset + data.length)

inductive FileWork
  | rewrite (data : Bytes)
  | writing (offset : Nat) (rest : Bytes)
  | append (rest : Bytes)
  deriving DecidableEq, Repr

structure FileCommit where
  work : List FileWork
  touched : Bool
  deriving DecidableEq, Repr

def FileCommit.halfDone (commit : FileCommit) : Bool :=
  commit.touched && !commit.work.isEmpty

inductive ReadPhase
  | reading
  | ended (status : Option Status)
  deriving DecidableEq, Repr

structure Reading where
  offset : Nat
  sent : List Bytes
  phase : ReadPhase
  deriving DecidableEq, Repr

def FileCommit.plan (contents : List Bytes) (lines : Option Bytes) : FileCommit :=
  ⟨contents.map .rewrite ++ lines.toList.map .append, false⟩

structure OpenFile where
  content : Bytes
  reads : Map Nat Reading
  commits : Map Nat FileCommit
  deriving DecidableEq

inductive FileAction
  | start (id : Nat)
  | chunk (id count : Nat)
  | endOfFile (id : Nat)
  | stop (id : Nat) (status : Status)
  | commit (id : Nat) (contents : List Bytes) (lines : Option Bytes)
  | truncate (id : Nat)
  | write (id count : Nat)
  | close (id : Nat)
  deriving DecidableEq, Repr

namespace OpenFile

def start (content : Bytes) : OpenFile := ⟨content, ∅, ∅⟩

def setRead (f : OpenFile) (id : Nat) (reading : Reading) : OpenFile :=
  { f with reads := f.reads.insert id reading }

def setCommit (f : OpenFile) (id : Nat) (commit : FileCommit) : OpenFile :=
  { f with commits := f.commits.insert id commit }

def reading (f : OpenFile) (id : Nat) : Option Reading :=
  (f.reads.lookup id).filter fun reading => reading.phase = .reading

def step (f : OpenFile) : FileAction → Option OpenFile
  | .start id => if f.reads.lookup id = none then some (f.setRead id ⟨0, [], .reading⟩) else none
  | .chunk id count =>
      (f.reading id).bind fun reading =>
        if 0 < count ∧ count ≤ chunkSize ∧ reading.offset + count ≤ f.content.length then
          some (f.setRead id { reading with
            offset := reading.offset + count
            sent := reading.sent ++ [(f.content.drop reading.offset).take count] })
        else none
  | .endOfFile id =>
      (f.reading id).bind fun reading =>
        if f.content.length ≤ reading.offset then some (f.setRead id { reading with phase := .ended none }) else none
  | .stop id status =>
      (f.reading id).map fun reading => f.setRead id { reading with phase := .ended (some status) }
  | .commit id contents lines =>
      if f.commits.lookup id = none then some (f.setCommit id (.plan contents lines)) else none
  | .truncate id =>
      match f.commits.lookup id with
      | some ⟨.rewrite data :: rest, _⟩ =>
          some { f.setCommit id ⟨.writing 0 data :: rest, true⟩ with content := [] }
      | _ => none
  | .write id count =>
      match f.commits.lookup id with
      | some ⟨.writing offset data :: rest, _⟩ =>
          if 0 < count ∧ count ≤ data.length then
            some { f.setCommit id ⟨.writing (offset + count) (data.drop count) :: rest, true⟩ with
              content := writeAt f.content offset (data.take count) }
          else none
      | some ⟨.append data :: rest, _⟩ =>
          if 0 < count ∧ count ≤ data.length then
            some { f.setCommit id ⟨.append (data.drop count) :: rest, true⟩ with
              content := f.content ++ data.take count }
          else none
      | _ => none
  | .close id =>
      match f.commits.lookup id with
      | some ⟨.writing _ [] :: rest, touched⟩ => some (f.setCommit id ⟨rest, touched⟩)
      | some ⟨.append [] :: rest, touched⟩ => some (f.setCommit id ⟨rest, touched⟩)
      | _ => none

variable {f next : OpenFile}

def Settled (f : OpenFile) : Prop :=
  ∀ id commit, f.commits.lookup id = some commit → commit.halfDone = false

def Undisturbed (f : OpenFile) : FileAction → Prop
  | .chunk _ _ | .endOfFile _ => f.Settled
  | .truncate _ | .write _ _ => ∀ id reading, f.reading id = some reading → reading.offset = 0
  | _ => True

def Whole (f : OpenFile) : Prop :=
  ∀ id reading, f.reading id = some reading → reading.sent.flatten = f.content.take reading.offset

theorem reading_setRead (id other : Nat) (reading : Reading) : (f.setRead id reading).reading other =
      if other = id then (if reading.phase = .reading then some reading else none) else f.reading other := by
  by_cases same : other = id
  · subst same
    by_cases phase : reading.phase = .reading <;> simp [OpenFile.reading, setRead, phase]
  · simp [OpenFile.reading, setRead, same]

theorem Whole.setRead (whole : f.Whole) (id : Nat) (reading : Reading)
    (kept : reading.phase = .reading → reading.sent.flatten = f.content.take reading.offset) :
    (f.setRead id reading).Whole := by
  intro other found there
  rw [reading_setRead] at there
  by_cases same : other = id
  · rw [if_pos same] at there
    by_cases phase : reading.phase = .reading
    · rw [if_pos phase, Option.some.injEq] at there
      exact there ▸ kept phase
    · simp [phase] at there
  · rw [if_neg same] at there
    exact whole other found there

theorem Whole.changed (whole : f.Whole) (reads : next.reads = f.reads)
    (fresh : ∀ id reading, f.reading id = some reading → reading.offset = 0) : next.Whole := by
  intro id reading there
  have before : f.reading id = some reading := by
    rw [← there, OpenFile.reading, OpenFile.reading, reads]
  have sent := whole id reading before
  rw [fresh id reading before, List.take_zero] at sent
  rw [sent, fresh id reading before, List.take_zero]

theorem step_truncate {id : Nat} (moved : f.step (.truncate id) = some next) : next.reads = f.reads := by
  simp only [step] at moved
  split at moved
  · cases moved
    rfl
  · cases moved

theorem step_write {id count : Nat} (moved : f.step (.write id count) = some next) : next.reads = f.reads := by
  simp only [step] at moved
  split at moved
  · split at moved
    · cases moved
      rfl
    · cases moved
  · split at moved
    · cases moved
      rfl
    · cases moved
  · cases moved

theorem step_close {id : Nat} (moved : f.step (.close id) = some next) :
    next.reads = f.reads ∧ next.content = f.content := by
  simp only [step] at moved
  split at moved
  · cases moved
    exact ⟨rfl, rfl⟩
  · cases moved
    exact ⟨rfl, rfl⟩
  · cases moved

theorem Whole.step (action : FileAction) (whole : f.Whole) (undisturbed : f.Undisturbed action)
    (moved : f.step action = some next) : next.Whole := by
  cases action with
  | start id =>
    simp only [OpenFile.step, Option.ite_none_right_eq_some, Option.some.injEq] at moved
    exact moved.2 ▸ whole.setRead id _ fun _ => rfl
  | chunk id count =>
    obtain ⟨reading, there, moved⟩ := Option.bind_eq_some_iff.mp moved
    simp only [Option.ite_none_right_eq_some, Option.some.injEq] at moved
    refine moved.2 ▸ whole.setRead id _ fun _ => ?_
    simp only [List.flatten_append, List.flatten_singleton, whole id reading there, List.take_add]
  | endOfFile id =>
    obtain ⟨reading, there, moved⟩ := Option.bind_eq_some_iff.mp moved
    simp only [Option.ite_none_right_eq_some, Option.some.injEq] at moved
    exact moved.2 ▸ whole.setRead id _ nofun
  | stop id status =>
    obtain ⟨reading, there, moved⟩ := Option.map_eq_some_iff.mp moved
    exact moved ▸ whole.setRead id _ nofun
  | commit id contents lines =>
    simp only [OpenFile.step, Option.ite_none_right_eq_some, Option.some.injEq] at moved
    exact moved.2 ▸ whole
  | truncate id => exact whole.changed (step_truncate moved) undisturbed
  | write id count => exact whole.changed (step_write moved) undisturbed
  | close id =>
    obtain ⟨reads, content⟩ := step_close moved
    intro other reading there
    rw [content]
    exact whole other reading (by rw [← there, OpenFile.reading, OpenFile.reading, reads])

theorem writeAt_end (content data : Bytes) : writeAt content content.length data = content ++ data := by
  simp [writeAt]

theorem rewrite_pieces {id : Nat} (data : Bytes) (counts : List Nat) (offset : Nat) (rest : List FileWork)
    (bounded : offset ≤ data.length) (content : f.content = data.take offset)
    (there : f.commits.lookup id = some ⟨.writing offset (data.drop offset) :: rest, true⟩)
    (reached : Transition.run step f (counts.map (.write id) ++ [.close id]) = some next) : next.content = data := by
  induction counts generalizing f offset with
  | nil =>
    have moved := (Transition.run_singleton ..).mp reached
    simp only [step, there] at moved
    split at moved
    case h_1 left _ found =>
      simp only [Option.some.injEq, FileCommit.mk.injEq, List.cons.injEq, FileWork.writing.injEq] at found
      have all : data.length ≤ offset := by simpa using found.1.1.2
      cases moved
      exact content.trans (List.take_of_length_le all)
    case h_2 found => simp at found
    case h_3 => cases moved
  | cons count counts ih =>
    obtain ⟨middle, moved, later⟩ := (Transition.run_cons ..).mp reached
    simp only [step, there, Option.ite_none_right_eq_some, Option.some.injEq, List.length_drop] at moved
    obtain ⟨⟨_, fits⟩, rfl⟩ := moved
    have atEnd : f.content.length = offset := by rw [content, List.length_take, Nat.min_eq_left bounded]
    refine ih (offset + count) (by omega) ?_ ?_ later
    · simp only [← atEnd, writeAt_end]
      rw [atEnd, content, List.take_add]
    · simp [setCommit]

theorem append_pieces {id : Nat} (data : Bytes) (counts : List Nat) (rest : List FileWork) (touched : Bool)
    (there : f.commits.lookup id = some ⟨.append data :: rest, touched⟩)
    (reached : Transition.run step f (counts.map (.write id) ++ [.close id]) = some next) :
    next.content = f.content ++ data := by
  induction counts generalizing f data touched with
  | nil =>
    have moved := (Transition.run_singleton ..).mp reached
    simp only [step, there] at moved
    split at moved
    case h_1 found => simp at found
    case h_2 found =>
      simp only [Option.some.injEq, FileCommit.mk.injEq, List.cons.injEq, FileWork.append.injEq] at found
      cases moved
      simp [setCommit, found.1.1]
    case h_3 => cases moved
  | cons count counts ih =>
    obtain ⟨middle, moved, later⟩ := (Transition.run_cons ..).mp reached
    simp only [step, there, Option.ite_none_right_eq_some, Option.some.injEq] at moved
    obtain ⟨_, rfl⟩ := moved
    have done := ih (data.drop count) true (by simp [setCommit]) later
    rw [done, List.append_assoc, List.take_append_drop]

theorem step_ended (action : FileAction) (moved : f.step action = some next) (id : Nat) (ended : Reading)
    (there : next.reads.lookup id = some ended) (clean : ended.phase = .ended none) :
    f.reads.lookup id = some ended ∨
      action = .endOfFile id ∧ ∃ reading, f.reading id = some reading ∧ f.content.length ≤ reading.offset ∧
        ended.sent = reading.sent := by
  have other (key : Nat) (reading : Reading) (next_eq : next = f.setRead key reading)
      (unended : reading.phase ≠ .ended none) : f.reads.lookup id = some ended := by
    rw [next_eq, setRead] at there
    by_cases same : id = key
    · rw [same, AList.lookup_insert, Option.some.injEq] at there
      exact absurd clean (there ▸ unended)
    · rwa [AList.lookup_insert_ne same] at there
  cases action with
  | start key =>
    simp only [step, Option.ite_none_right_eq_some, Option.some.injEq] at moved
    exact .inl (other key _ moved.2.symm nofun)
  | chunk key count =>
    obtain ⟨reading, found, moved⟩ := Option.bind_eq_some_iff.mp moved
    simp only [Option.ite_none_right_eq_some, Option.some.injEq] at moved
    refine .inl (other key _ moved.2.symm ?_)
    have phase := (Option.filter_eq_some_iff.mp found).2
    simp only [decide_eq_true_eq] at phase
    simp [phase]
  | endOfFile key =>
    obtain ⟨reading, found, moved⟩ := Option.bind_eq_some_iff.mp moved
    simp only [Option.ite_none_right_eq_some, Option.some.injEq] at moved
    rw [← moved.2, setRead] at there
    by_cases same : id = key
    · rw [same, AList.lookup_insert, Option.some.injEq] at there
      exact .inr ⟨by rw [same], reading, by rw [same, found], moved.1, there ▸ rfl⟩
    · exact .inl (by rwa [AList.lookup_insert_ne same] at there)
  | stop key status =>
    obtain ⟨reading, found, moved⟩ := Option.map_eq_some_iff.mp moved
    exact .inl (other key _ moved.symm nofun)
  | commit key contents lines =>
    simp only [step, Option.ite_none_right_eq_some, Option.some.injEq] at moved
    exact .inl (by rwa [← moved.2] at there)
  | truncate key => exact .inl (step_truncate moved ▸ there)
  | write key count => exact .inl (step_write moved ▸ there)
  | close key => exact .inl ((step_close moved).1 ▸ there)

theorem apply_rewrites (s : Server) (entry : LogEntry) (write : entry.op = "WRITE") (content : Bytes)
    (present : s.bytes entry.filename = some content) (id : Nat) (counts : List Nat)
    (reached : Transition.run step ((start content).setCommit id (.plan [entry.content] none))
      (.truncate id :: (counts.map (.write id) ++ [.close id])) = some next) :
    (s.apply .ok entry).bytes entry.filename = some next.content := by
  obtain ⟨truncated, moved, later⟩ := (Transition.run_cons ..).mp reached
  simp only [step, setCommit, start, AList.lookup_insert, FileCommit.plan, List.map_cons, List.map_nil,
    Option.toList_none, List.append_nil, Option.some.injEq] at moved
  have written : next.content = entry.content := by
    refine rewrite_pieces entry.content counts 0 [] (Nat.zero_le _) ?_ ?_ later
    · rw [← moved, List.take_zero]
    · rw [← moved]
      exact AList.lookup_insert ..
  rw [written, Server.bytes_eq]
  exact applyTree_written s.rootDir s.tree content write ((s.bytes_eq ..).mp present)

theorem entry_rewrites : ∃ next, Transition.run step ((start []).setCommit 0 (.plan [[50, 10]] none))
      [.truncate 0, .write 0 1, .write 0 1, .close 0] = some next ∧
    (firstOpened.apply .ok ⟨1, "WRITE", "output/a", [50, 10], 1⟩).bytes "output/a" = some next.content :=
  ⟨_, rfl, apply_rewrites firstOpened ⟨1, "WRITE", "output/a", [50, 10], 1⟩ rfl [] (by decide +kernel) 0 [1, 1] rfl⟩

theorem osAppend_appends (tree : Tree) (path : Path) (content lines : Bytes)
    (present : tree.find path = some (.file content)) (id : Nat) (counts : List Nat)
    (reached : Transition.run step ((start content).setCommit id (.plan [] (some lines)))
      (counts.map (.write id) ++ [.close id]) = some next) :
    (Server.osAppend tree path lines).find path = some (.file next.content) := by
  have appended := append_pieces lines counts [] false (by simp [setCommit, FileCommit.plan]) reached
  obtain ⟨written, stored⟩ := tree.writeFile_over path content (content ++ lines) present
  rw [appended]
  simp [Server.osAppend, present, stored, FileTree.Tree.find_writeFile _ stored, setCommit, start]

theorem lines_append : ∃ next, Transition.run step ((start []).setCommit 0 (.plan [] (some [50, 10])))
      [.write 0 1, .write 0 1, .close 0] = some next ∧
    (Server.osAppend firstOpened.tree (firstOpened.path "output/a") [50, 10]).find (firstOpened.path "output/a") =
      some (.file next.content) :=
  ⟨_, rfl, osAppend_appends firstOpened.tree _ [] [50, 10] (by decide +kernel) 0 [1, 1] rfl⟩

def SeenBy (first : OpenFile) (actions : List FileAction) (id : Nat) (content : Bytes) : Prop :=
  ∃ before after point, actions = before ++ after ∧ Transition.run step first before = some point ∧
    (∃ reading, point.reading id = some reading) ∧ point.Settled ∧ point.content = content

variable {actions : List FileAction}

theorem SeenBy.later {first : OpenFile} {id : Nat} {content : Bytes}
    (more : List FileAction) (seen : SeenBy first actions id content) : SeenBy first (actions ++ more) id content := by
  obtain ⟨before, after, point, rfl, facts⟩ := seen
  exact ⟨before, after ++ more, point, List.append_assoc .., facts⟩

def settled (f : OpenFile) : Bool :=
  f.commits.entries.all fun item => !item.2.halfDone

theorem settled_iff : f.settled = true ↔ f.Settled := by
  rw [settled, List.all_eq_true]
  constructor
  · intro all id commit there
    simpa using all ⟨id, commit⟩ (AList.mem_lookup_iff.mp there)
  · intro each item member
    simpa using each item.1 item.2 (AList.mem_lookup_iff.mpr member)

def seen (first : OpenFile) (actions : List FileAction) (id : Nat) (content : Bytes) : Bool :=
  (List.range (actions.length + 1)).any fun count =>
    (Transition.run step first (actions.take count)).any fun point =>
      (point.reading id).isSome && point.settled && point.content = content

theorem SeenBy.seen {first : OpenFile} {id : Nat} {content : Bytes}
    (here : SeenBy first actions id content) : first.seen actions id content = true := by
  obtain ⟨before, after, point, rfl, reached, ⟨reading, there⟩, settled, same⟩ := here
  refine List.any_eq_true.mpr ⟨before.length, List.mem_range.mpr (by rw [List.length_append]; omega), ?_⟩
  rw [List.take_left, reached]
  simp [there, settled_iff.mpr settled, same]

def undisturbedStep (f : OpenFile) : FileAction → Bool
  | .chunk _ _ | .endOfFile _ => f.settled
  | .truncate _ | .write _ _ => f.reads.entries.all fun item => item.2.phase ≠ .reading || item.2.offset = 0
  | _ => true

theorem undisturbedStep_undisturbed (action : FileAction) (quiet : f.undisturbedStep action = true) :
    f.Undisturbed action := by
  have fresh (all : (f.reads.entries.all fun item => item.2.phase ≠ .reading || item.2.offset = 0) = true) (id : Nat)
      (reading : Reading) (there : f.reading id = some reading) : reading.offset = 0 := by
    obtain ⟨found, phase⟩ := Option.filter_eq_some_iff.mp there
    have each := List.all_eq_true.mp all ⟨id, reading⟩ (AList.mem_lookup_iff.mp found)
    simp_all
  cases action with
  | chunk | endOfFile => exact settled_iff.mp quiet
  | truncate => exact fresh quiet
  | write => exact fresh quiet
  | _ => trivial

end OpenFile

theorem read_sees_one_content (content : Bytes) (actions : List FileAction) (final : OpenFile)
    (undisturbed : Transition.Meets OpenFile.step OpenFile.Undisturbed (.start content) actions)
    (reached : Transition.run OpenFile.step (.start content) actions = some final) (id : Nat) (ended : Reading)
    (there : final.reads.lookup id = some ended) (clean : ended.phase = .ended none) :
    OpenFile.SeenBy (.start content) actions id ended.sent.flatten := by
  -- Backwards from the end of the run to the step at which this Read found the end of the file.
  induction actions using List.reverseRecOn generalizing final with
  | nil =>
    cases reached
    cases there
  | append_singleton earlier action ih =>
    obtain ⟨point, before, last⟩ := (Transition.run_append ..).mp reached
    obtain ⟨orderly, quiet⟩ := (Transition.meets_append _ _ _ _ before).mp undisturbed
    have moved := (Transition.run_singleton ..).mp last
    rcases point.step_ended action moved id ended there clean with present | ⟨rfl, reading, found, atEnd, sent⟩
    · exact (ih point orderly before present).later [action]
    · have whole := Transition.run_invariant OpenFile.Undisturbed OpenFile.Whole
        (fun _ action _ whole undisturbed moved => whole.step action undisturbed moved) (.start content)
        (fun _ _ absent => by cases absent) earlier orderly before
      refine ⟨earlier, [.endOfFile id], point, rfl, before, ⟨reading, found⟩, quiet.1, ?_⟩
      rw [sent, whole id reading found, List.take_of_length_le atEnd]

def readsAroundCommit : List FileAction :=
  [.start 0, .chunk 0 1, .chunk 0 1, .endOfFile 0, .commit 0 [[51, 10]] (some [53, 10]), .truncate 0, .write 0 2,
    .close 0, .write 0 2, .close 0, .start 1, .chunk 1 4, .endOfFile 1]

theorem readsAroundCommit_see_contents :
    OpenFile.SeenBy (.start [50, 10]) readsAroundCommit 0 [50, 10] ∧
      OpenFile.SeenBy (.start [50, 10]) readsAroundCommit 1 [51, 10, 53, 10] := by
  have outcome : (Transition.run OpenFile.step (.start [50, 10]) readsAroundCommit).map (fun final =>
      (final.reads.lookup 0, final.reads.lookup 1)) =
        some (some ⟨2, [[50], [10]], .ended none⟩, some ⟨4, [[51, 10, 53, 10]], .ended none⟩) := by decide +kernel
  obtain ⟨final, reached, facts⟩ := Option.map_eq_some_iff.mp outcome
  obtain ⟨first, second⟩ := Prod.mk.inj facts
  have undisturbed : Transition.Meets OpenFile.step OpenFile.Undisturbed (.start [50, 10]) readsAroundCommit :=
    Transition.meets_of_check _ _ OpenFile.undisturbedStep
      (fun f action _ quiet => f.undisturbedStep_undisturbed action quiet) (by decide +kernel)
  exact ⟨read_sees_one_content [50, 10] _ final undisturbed reached 0 _ first rfl,
    read_sees_one_content [50, 10] _ final undisturbed reached 1 _ second rfl⟩

-- A Read between the truncation and the write of a commit sends nothing and ends without error, though the file held
-- two bytes before the commit and holds two after it.
theorem read_during_commit_sees_nothing :
    ∃ final, Transition.run OpenFile.step (.start [50, 10])
        [.commit 0 [[51, 10]] none, .truncate 0, .start 0, .endOfFile 0, .write 0 2, .close 0] = some final ∧
      final.content = [51, 10] ∧ final.reads.lookup 0 = some ⟨0, [], .ended none⟩ ∧
      ¬OpenFile.SeenBy (.start [50, 10])
        [.commit 0 [[51, 10]] none, .truncate 0, .start 0, .endOfFile 0, .write 0 2, .close 0] 0 [] := by
  have outcome : (Transition.run OpenFile.step (.start [50, 10])
      [.commit 0 [[51, 10]] none, .truncate 0, .start 0, .endOfFile 0, .write 0 2, .close 0]).map (fun final =>
        (final.content, final.reads.lookup 0)) = some ([51, 10], some ⟨0, [], .ended none⟩) := by decide +kernel
  obtain ⟨final, reached, facts⟩ := Option.map_eq_some_iff.mp outcome
  obtain ⟨content, there⟩ := Prod.mk.inj facts
  exact ⟨final, reached, content, there, fun here => absurd here.seen (by decide +kernel)⟩

end Ikkat
