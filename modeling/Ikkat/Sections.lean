import Ikkat.Discipline

set_option autoImplicit false

namespace Ikkat

variable {m : Memory} {locals : Nat → Option Locals} {s : Server}

open ReaderWriter (Counters change moveTo)

def FileEntry.counters (entry : FileEntry) : Counters := ⟨entry.activeReaders, entry.activeWriter⟩

def Memory.locks (m : Memory) : ReaderWriter.Locks Ref := fun ref => (m.entry ref).map FileEntry.counters

def Locals.inside (l : Locals) : Option (Ref × Access) :=
  l.entry.bind fun ref => l.access.map fun access => (ref, access)

def sections (locals : Nat → Option Locals) : ReaderWriter.Sections Ref := fun id => (locals id).bind Locals.inside

def Points (locals : Nat → Option Locals) (id : Nat) (ref : Ref) : Prop :=
  ∃ l, locals id = some l ∧ l.entry = some ref

theorem points_of_inside {id : Nat} {ref : Ref} {access : Access}
    (inside : sections locals id = some (ref, access)) : Points locals id ref := by
  obtain ⟨l, known, here⟩ := Option.bind_eq_some_iff.mp inside
  obtain ⟨own, entry, mode⟩ := Option.bind_eq_some_iff.mp here
  obtain ⟨_, -, equal⟩ := Option.map_eq_some_iff.mp mode
  exact ⟨l, known, (Prod.mk.inj equal).1 ▸ entry⟩

theorem sections_update (locals : Nat → Option Locals) (id : Nat) (l : Locals) :
    sections (Function.update locals id (some l)) = Function.update (sections locals) id l.inside := by
  funext other
  by_cases same : other = id
  · subst same
    simp [sections]
  · simp [sections, Function.update_of_ne same]

theorem points_update (locals : Nat → Option Locals) (id other : Nat) (l : Locals) (ref : Ref) :
    Points (Function.update locals id (some l)) other ref ↔
      if other = id then l.entry = some ref else Points locals other ref := by
  by_cases same : other = id
  · subst same
    simp [Points]
  · simp [Points, same]

namespace Memory

theorem locks_setEntry (m : Memory) (ref : Ref) (update : FileEntry → FileEntry) (counters : Counters → Counters)
    (counted : ∀ entry : FileEntry, (update entry).counters = counters entry.counters) :
    (m.setEntry ref update).locks = change m.locks ref counters := by
  funext other
  by_cases same : other = ref
  · subst same
    rw [locks, entry_setEntry, if_pos rfl, change, Function.update_self, locks, Option.map_map, Option.map_map]
    exact congrArg (Option.map · (m.entry other)) (funext counted)
  · rw [locks, entry_setEntry, if_neg same, change, Function.update_of_ne same, locks]

theorem locks_update (m : Memory) (ref : Ref) (access : Option Access) (update : FileEntry → FileEntry)
    (counters : Counters → Counters)
    (counted : ∀ entry : FileEntry, (update entry).counters = counters entry.counters) :
    (m.update ⟨some ref, access⟩ update).locks = change m.locks ref counters :=
  m.locks_setEntry ref update counters counted

theorem locks_same (m : Memory) (l : Locals) {update : FileEntry → FileEntry}
    (counted : ∀ entry : FileEntry, (update entry).counters = entry.counters) :
    (m.update l update).locks = m.locks := by
  unfold Memory.update
  split
  · rfl
  · rw [m.locks_setEntry _ update id counted, change, Option.map_id_fun, id_eq, Function.update_eq_self]

theorem locks_data (m : Memory) (same : s.table = m.server.table) :
    ({ m with server := s } : Memory).locks = m.locks := by
  unfold locks entry current
  rw [same]

end Memory

structure Grounded (m : Memory) (locals : Nat → Option Locals) : Prop where
  known : ∀ id ref, Points locals id ref → (m.entry ref).isSome
  fresh : ∀ name generation, m.generation name ≤ generation → m.detached ⟨name, generation⟩ = none

def Op.intruded (l : Locals) : Op → Option Ref
  | .releaseWrite | .releaseRead => if l.access = none then l.entry else none
  | _ => none

namespace Memory

theorem entry_newest (grounded : Grounded m locals) (name : String) :
    m.entry ⟨name, m.generation name + 1⟩ = none := by
  rw [entry, if_neg]
  · exact grounded.fresh name _ (Nat.le_succ _)
  · simp [current]

theorem locks_replace (grounded : Grounded m locals) {name : String}
    (others : ∀ other ≠ name, s.table.lookup other = m.server.table.lookup other)
    (idle : ∀ entry, s.table.lookup name = some entry → entry.counters = .idle) :
    (m.replace name s).locks = m.locks ∨ (m.replace name s).locks =
      Function.update m.locks ⟨name, m.generation name + 1⟩ (some .idle) := by
  have newest := entry_newest grounded name
  cases found : s.table.lookup name with
  | none =>
    left
    funext ref
    rw [locks, entry_replace m ref name s others]
    split_ifs with same
    · rw [found, same, locks, newest]
    · rfl
  | some entry =>
    right
    funext ref
    rw [locks, entry_replace m ref name s others]
    split_ifs with same
    · rw [found, same, Function.update_self, Option.map_some, idle entry found]
    · rw [Function.update_of_ne same, locks]

theorem locks_getFileEntry (m : Memory) (name : String) :
    ({ m with server := (m.server.getFileEntry name).1 } : Memory).locks = m.locks ∨
      m.locks (m.current name) = none ∧ ({ m with server := (m.server.getFileEntry name).1 } : Memory).locks =
        Function.update m.locks (m.current name) (some .idle) := by
  have here := m.entry_current name
  cases found : m.server.table.lookup name with
  | none =>
    right
    refine ⟨by rw [locks, here, found, Option.map_none], funext fun ref => ?_⟩
    rw [locks, entry_getFileEntry, Server.getFileEntry_entry, found]
    split_ifs with same
    · rw [same, Function.update_self]
      rfl
    · rw [Function.update_of_ne same, locks]
  | some entry =>
    left
    funext ref
    rw [locks, entry_getFileEntry, Server.getFileEntry_entry]
    split_ifs with same
    · rw [same, locks, here, found]
      rfl
    · rfl

end Memory

namespace Memory

theorem receiveMeta_cases (outcome : Outcome) (m : Memory) (f : Replication) :
    (∃ s, m.receiveMeta outcome f = { m with server := s } ∧ s.table = m.server.table ∧
        s.rootDir = m.server.rootDir) ∨
      ∃ s entry, m.receiveMeta outcome f = m.replace f.filename s ∧ entry.counters = .idle ∧
        s.table = m.server.table.insert f.filename entry ∧ s.rootDir = m.server.rootDir := by
  unfold receiveMeta
  dsimp only
  generalize found : Server.getOrCreateFileMeta _ f.filename = pair
  obtain ⟨s, fd⟩ := pair
  obtain ⟨files, same⟩ := s.setMetaVersion_eq fd f.version
  have cases := Server.getOrCreateFileMeta_cases { m.server with
    tree := (osWriteFile outcome m.server.tree (m.server.path f.filename) f.content).1 } f.filename
  rw [found] at cases
  rw [same]
  split_ifs with written known
  · rcases cases with rfl | ⟨tree, files, rfl⟩
    · exact .inl ⟨_, rfl, rfl, rfl⟩
    · simp at known
  · rcases cases with rfl | ⟨tree, files, rfl⟩
    · exact absurd rfl known
    · exact .inr ⟨_, _, rfl, rfl, rfl, rfl⟩
  · exact .inl ⟨_, rfl, rfl, rfl⟩

end Memory

theorem inside_none (entry : Option Ref) : Locals.inside ⟨entry, none⟩ = none := by
  cases entry <;> rfl

theorem sections_moveTo (locals : Nat → Option Locals) (id : Nat) (ref : Ref) (access : Option Access) :
    sections (Function.update locals id (some ⟨some ref, access⟩)) = moveTo (sections locals) id ref access := by
  rw [sections_update]
  rfl

theorem sections_outside {id : Nat} {entry : Option Ref} (next : Option Ref) (known : locals id = some ⟨entry, none⟩) :
    sections (Function.update locals id (some ⟨next, none⟩)) = sections locals := by
  have outside : sections locals id = none := by rw [sections, known, Option.bind_some, inside_none]
  rw [sections_update, inside_none, ← outside, Function.update_eq_self]

theorem FileEntry.counters_idle (entry : FileEntry) (free : entry.canWrite = true) : entry.counters = .idle := by
  simp only [FileEntry.canWrite, Bool.and_eq_true, Bool.not_eq_true', beq_iff_eq] at free
  rw [FileEntry.counters, free.1, free.2]
  rfl

theorem guarded (m : Memory) (entry : Option Ref) (test : FileEntry → Bool)
    (holds : (entry.bind m.entry).any test = true) :
    ∃ ref found, entry = some ref ∧ m.locks ref = some found.counters ∧ test found = true := by
  cases entry with
  | none => cases holds
  | some ref =>
    rw [Option.bind_some] at holds
    cases here : m.entry ref with
    | none =>
      rw [here] at holds
      cases holds
    | some found =>
      rw [here] at holds
      exact ⟨ref, found, rfl, by rw [Memory.locks, here, Option.map_some], holds⟩

theorem exec_step (m : Memory) (locals : Nat → Option Locals) (grounded : Grounded m locals) (id : Nat) (l : Locals)
    (known : locals id = some l) (op : Op) (allowed : op.Allowed l ∨ op.Waits l ∧ m.guard op l = true) :
    ReaderWriter.Step m.locks (sections locals) id (op.intruded l) (m.exec op l).2.locks
      (sections (Function.update locals id (some (m.exec op l).1))) := by
  obtain ⟨entry, access⟩ := l
  -- An operation that leaves the variables of the handler and the counters alone.
  have still (next : Memory) (locks : next.locks = m.locks) :
      ReaderWriter.Step m.locks (sections locals) id none next.locks
        (sections (Function.update locals id (some ⟨entry, access⟩))) := by
    rw [← known, Function.update_eq_self, locks]
    exact .stay
  have here (ref : Ref) (pointed : entry = some ref) : sections locals id = access.map fun access => (ref, access) := by
    rw [sections, known, pointed]
    rfl
  have outside (free : access = none) : sections locals id = none := by
    rw [sections, known, free, Option.bind_some, inside_none]
  have enters (ready : (entry.bind m.entry).any FileEntry.canWrite = true) (free : access = none)
      (update : FileEntry → FileEntry)
      (counted : ∀ entry : FileEntry, (update entry).counters = { entry.counters with writer := true }) :
      ReaderWriter.Step m.locks (sections locals) id none (m.update ⟨entry, access⟩ update).locks
        (sections (Function.update locals id (some ⟨entry, some .writing⟩))) := by
    obtain ⟨ref, found, rfl, present, writable⟩ := guarded m entry _ ready
    rw [m.locks_update ref access update (fun counters => { counters with writer := true }) counted, sections_moveTo]
    exact .enterWrite ref (outside free) (found.counters_idle writable ▸ present)
  have vacant (ref : Ref) (absent : m.locks ref = none) (other : Nat) (access : Access) :
      sections locals other ≠ some (ref, access) := by
    intro inside
    have present := grounded.known other _ (points_of_inside inside)
    rw [Memory.locks, Option.map_eq_none_iff] at absent
    rw [absent] at present
    cases present
  have replaced (name : String) (s : Server)
      (others : ∀ other ≠ name, s.table.lookup other = m.server.table.lookup other)
      (idle : ∀ entry, s.table.lookup name = some entry → entry.counters = .idle) :
      ReaderWriter.Step m.locks (sections locals) id none (m.replace name s).locks
        (sections (Function.update locals id (some ⟨entry, access⟩))) := by
    rcases Memory.locks_replace grounded others idle with same | added
    · exact still _ same
    · have absent : m.locks ⟨name, m.generation name + 1⟩ = none := by
        rw [Memory.locks, Memory.entry_newest grounded name, Option.map_none]
      rw [← known, Function.update_eq_self, added]
      exact .fresh _ absent (vacant _ absent)
  have nowhere (absent : entry = none) (update : FileEntry → FileEntry) (intruded : Option Ref)
      (nothing : intruded = none) :
      ReaderWriter.Step m.locks (sections locals) id intruded (m.update ⟨entry, access⟩ update).locks
        (sections (Function.update locals id (some ⟨entry, none⟩))) := by
    subst absent nothing
    have outside : sections locals id = none := by
      rw [sections, known]
      rfl
    rw [sections_update, inside_none, ← outside, Function.update_eq_self]
    exact .stay
  cases op with
  | look => exact still m rfl
  | data update => exact still _ (m.locks_data rfl)
  | getFileEntry name =>
    obtain rfl : access = none := allowed.resolve_right (fun waits => waits.1)
    change ReaderWriter.Step _ _ id none _ (sections (Function.update locals id (some ⟨_, none⟩)))
    rw [sections_outside _ known]
    rcases m.locks_getFileEntry name with same | ⟨absent, added⟩
    · exact same ▸ .stay
    · exact added ▸ .fresh (m.current name) absent (vacant _ absent)
  | findEntry | forget =>
    obtain rfl : access = none := allowed.resolve_right (fun waits => waits.1)
    change ReaderWriter.Step _ _ id none _ (sections (Function.update locals id (some ⟨_, none⟩)))
    rw [sections_outside _ known]
    exact .stay
  | announceWriter => exact still _ (m.locks_same _ fun _ => rfl)
  | acquireWrite =>
    obtain ⟨free, ready⟩ := allowed.resolve_left fun never => never
    exact enters ready free _ fun _ => rfl
  | acquireReadNoPriority =>
    obtain ⟨free, ready⟩ := allowed.resolve_left fun never => never
    obtain ⟨ref, found, rfl, present, unlocked⟩ := guarded m entry _ ready
    change ReaderWriter.Step _ _ id none (m.update _ _).locks _
    rw [m.locks_update ref access _ (fun counters => { counters with readers := counters.readers + 1 }) fun _ => rfl]
    change ReaderWriter.Step _ _ id none _ (sections (Function.update locals id (some ⟨some ref, some .reading⟩)))
    rw [sections_moveTo]
    exact .enterRead ref found.counters (outside free) present (Bool.not_eq_true' _ |>.mp unlocked)
  | claimWrite =>
    have free : access = none := allowed.resolve_right (fun waits => waits.1)
    unfold Memory.exec
    split_ifs with ready
    · exact enters ready free _ fun _ => rfl
    · exact still m rfl
  | releaseWrite =>
    have mine : access ≠ some .reading := allowed.resolve_right fun waits => waits.1
    cases entry with
    | none => exact nowhere rfl (fun entry => { entry with activeWriter := false }) _ (ite_self _)
    | some ref =>
      have changed := m.locks_update ref access (fun entry => { entry with activeWriter := false })
        (fun counters => { counters with writer := false }) fun _ => rfl
      cases access with
      | none =>
        refine .of_eq (.freeWrite ref (outside rfl)) changed ?_
        exact sections_outside (some ref) known
      | some access =>
        have moved := sections_moveTo locals id ref none
        cases access with
        | reading => exact absurd rfl mine
        | writing => exact .of_eq (.leaveWrite ref (here ref rfl)) changed moved
  | releaseRead =>
    have mine : access ≠ some .writing := allowed.resolve_right fun waits => waits.1
    cases entry with
    | none => exact nowhere rfl (fun entry => { entry with activeReaders := entry.activeReaders - 1 }) _ (ite_self _)
    | some ref =>
      have changed := m.locks_update ref access (fun entry => { entry with activeReaders := entry.activeReaders - 1 })
        (fun counters => { counters with readers := counters.readers - 1 }) fun _ => rfl
      cases access with
      | none =>
        refine .of_eq (.freeRead ref (outside rfl)) changed ?_
        exact sections_outside (some ref) known
      | some access =>
        have moved := sections_moveTo locals id ref none
        cases access with
        | writing => exact absurd rfl mine
        | reading => exact .of_eq (.leaveRead ref (here ref rfl)) changed moved
  | setVersion update => exact still _ (m.locks_same _ fun _ => rfl)
  | dropEntry name =>
    refine replaced name _ (fun other different => AList.lookup_erase_ne different) fun entry present => ?_
    rw [AList.lookup_erase] at present
    cases present
  | getOrCreateFileMeta outcome f =>
    change ReaderWriter.Step _ _ id none (m.receiveMeta outcome f).locks _
    rcases m.receiveMeta_cases outcome f with ⟨s, same, table, -⟩ | ⟨s, entry, same, idle, table, -⟩
    · rw [same]
      exact still _ (m.locks_data table)
    · rw [same]
      refine replaced f.filename s (fun other different => ?_) fun found present => ?_
      · rw [table, AList.lookup_insert_ne different]
      · rw [table, AList.lookup_insert] at present
        exact Option.some.inj present ▸ idle

theorem exec_points {l : Locals} {op : Op} {ref : Ref} (pointed : (m.exec op l).1.entry = some ref) :
    l.entry = some ref ∨ ref = m.current ref.name ∧ ((m.exec op l).2.entry ref).isSome ∧
      (op = .getFileEntry ref.name ∨ op = .findEntry ref.name) := by
  cases op with
  | getFileEntry name =>
    obtain rfl : m.current name = ref := Option.some.inj pointed
    refine .inr ⟨rfl, ?_, .inl rfl⟩
    change (({ m with server := (m.server.getFileEntry name).1 } : Memory).entry (m.current name)).isSome
    rw [m.entry_getFileEntry, if_pos rfl, Option.isSome_some]
  | findEntry name =>
    obtain ⟨entry, found, rfl⟩ := Option.map_eq_some_iff.mp pointed
    refine .inr ⟨rfl, ?_, .inr rfl⟩
    change (m.entry (m.current name)).isSome
    rw [m.entry_current, found, Option.isSome_some]
  | claimWrite =>
    unfold Memory.exec at pointed
    split_ifs at pointed <;> exact .inl pointed
  | forget => cases pointed
  | look | data | announceWriter | acquireWrite | acquireReadNoPriority | releaseWrite | releaseRead | setVersion
  | dropEntry | getOrCreateFileMeta => exact .inl pointed

theorem exec_fresh (l : Locals) (op : Op)
    (fresh : ∀ name generation, m.generation name ≤ generation → m.detached ⟨name, generation⟩ = none) :
    ∀ name generation, (m.exec op l).2.generation name ≤ generation →
      (m.exec op l).2.detached ⟨name, generation⟩ = none := by
  have updated (update : FileEntry → FileEntry) (name : String) (generation : Nat)
      (later : (m.update l update).generation name ≤ generation) :
      (m.update l update).detached ⟨name, generation⟩ = none := by
    revert later
    unfold Memory.update
    split
    · exact fresh name generation
    case h_2 ref _ =>
      intro later
      rw [m.generation_setEntry] at later
      have same := m.detached_setEntry ref ⟨name, generation⟩ update
      rwa [fresh name generation later, Option.isSome_none, Option.isSome_eq_false_iff, Option.isNone_iff_eq_none] at same
  have replaced (target : String) (s : Server) (name : String) (generation : Nat)
      (later : (m.replace target s).generation name ≤ generation) :
      (m.replace target s).detached ⟨name, generation⟩ = none := by
    by_cases same : name = target
    · subst same
      rw [m.generation_replace, if_pos rfl] at later
      rw [m.detached_replace]
      · exact fresh name generation (Nat.le_of_succ_le later)
      · simp [Memory.current, Nat.ne_of_gt later]
    · rw [m.generation_replace, if_neg same] at later
      rw [m.detached_replace]
      · exact fresh name generation later
      · simp [Memory.current, same]
  cases op with
  | look | data | getFileEntry | findEntry | forget => exact fresh
  | announceWriter | acquireWrite | acquireReadNoPriority | releaseWrite | releaseRead | setVersion => exact updated _
  | claimWrite =>
    unfold Memory.exec
    split_ifs
    · exact updated _
    · exact fresh
  | dropEntry name => exact replaced name _
  | getOrCreateFileMeta outcome f =>
    change ∀ name generation, (m.receiveMeta outcome f).generation name ≤ generation →
      (m.receiveMeta outcome f).detached ⟨name, generation⟩ = none
    rcases m.receiveMeta_cases outcome f with ⟨s, same, -⟩ | ⟨s, entry, same, -⟩
    · rw [same]
      exact fresh
    · rw [same]
      exact replaced f.filename s

theorem exec_grounded (grounded : Grounded m locals) {id : Nat} {l : Locals}
    (known : locals id = some l) (op : Op) (allowed : op.Allowed l ∨ op.Waits l ∧ m.guard op l = true) :
    Grounded (m.exec op l).2 (Function.update locals id (some (m.exec op l).1)) where
  known := by
    have kept (ref : Ref) (present : (m.entry ref).isSome) : ((m.exec op l).2.entry ref).isSome := by
      have still := (exec_step m locals grounded id l known op allowed).kept ref
      rw [Memory.locks, Option.isSome_map, Memory.locks, Option.isSome_map] at still
      exact still present
    intro other ref points
    rw [points_update] at points
    split_ifs at points with same
    · rcases exec_points points with before | ⟨-, found, -⟩
      · exact kept ref (grounded.known id ref ⟨l, known, before⟩)
      · exact found
    · exact kept ref (grounded.known other ref points)
  fresh := exec_fresh l op grounded.fresh

def Server.Idle (s : Server) : Prop :=
  ∀ name entry, s.table.lookup name = some entry → entry.counters = .idle

abbrev System := Threads.Machine Lock Mutex Op Locals Memory Answer

abbrev System.step [LogCodec] : System → Threads.Action Job → Option System := Threads.Machine.step meaning Job.program

theorem grounded_start (s : Server) : Grounded (.start s) fun _ => none where
  known := by
    rintro id ref ⟨l, absent, -⟩
    cases absent
  fresh := fun _ _ _ => rfl

theorem backed_start (idle : s.Idle) :
    ReaderWriter.Backed (Memory.start s).locks (sections fun _ => none) := by
  have empty (ref : Ref) (counters : Counters) (found : (Memory.start s).locks ref = some counters) :
      counters = .idle := by
    obtain ⟨entry, present, rfl⟩ := Option.map_eq_some_iff.mp found
    unfold Memory.entry at present
    split_ifs at present
    · exact idle ref.name entry present
    · cases present
  refine ⟨fun ref counters found taken => ?_, fun ref counters found => ⟨∅, fun id => ?_, ?_⟩⟩
  · rw [empty ref counters found] at taken
    cases taken
  · exact iff_of_false (by simp) (by simp [sections])
  · simp [empty ref counters found, Counters.idle]

-- A step of the server is a step of its reader/writer locks, and only a release from outside intrudes.
theorem moves_step {system next : System} {action : Threads.Action Job} (grounded : Grounded system.state system.locals)
    (moves : Threads.Moves meaning rules system next action) :
    Grounded next.state next.locals ∧ ∃ id intruded, ReaderWriter.Step system.state.locks (sections system.locals) id
      intruded next.state.locks (sections next.locals) ∧ ∀ ref, intruded = some ref →
        action = .run id ∧ ∃ l op, system.pending id = some (l, op) ∧ op.intruded l = some ref := by
  cases moves with
  | spawned id job free state locals =>
    have same : sections next.locals = sections system.locals := by
      have outside : sections system.locals id = none := by
        rw [sections, free]
        rfl
      rw [locals, sections_update, show meaning.start.inside = none from rfl, ← outside, Function.update_eq_self]
    rw [same, state]
    refine ⟨⟨fun other ref points => ?_, grounded.fresh⟩, id, none, .stay, fun _ absent => by cases absent⟩
    rw [locals, points_update] at points
    split_ifs at points
    · cases points
    · exact grounded.known other ref points
  | still id state locals =>
    rw [state, locals]
    exact ⟨grounded, id, none, .stay, fun _ absent => by cases absent⟩
  | acts id mine op known pending allowed state locals =>
    rw [state, locals]
    exact ⟨exec_grounded grounded known op (.inl allowed), id, op.intruded mine,
      exec_step _ _ grounded id mine known op (.inl allowed), fun ref here => ⟨rfl, mine, op, pending, here⟩⟩
  | passes id mine op known pending waits guard state locals =>
    rw [state, locals]
    exact ⟨exec_grounded grounded known op (.inr ⟨waits, guard⟩), id, op.intruded mine,
      exec_step _ _ grounded id mine known op (.inr ⟨waits, guard⟩), fun ref here => ⟨rfl, mine, op, pending, here⟩⟩

end Ikkat
