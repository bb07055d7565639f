import Ikkat.Sections

set_option autoImplicit false

namespace Ikkat

variable {m : Memory} {locals : Nat → Option Locals} {system : System}

def OneWriter (system : System) : Prop :=
  ∀ first second ref other mine yours, first ≠ second →
    sections system.locals first = some (ref, mine) → sections system.locals second = some (other, yours) →
    system.state.server.path ref.name = system.state.server.path other.name →
    mine = .reading ∧ yours = .reading

-- Nobody else is in the way of the operation. A name is looked up while everybody who points at an entry
-- of its path points at the entry that the table has under it; an entry leaves the table while nobody
-- else points at it; and a lock is released for somebody else while nobody is inside.
def Undisturbed (m : Memory) (locals : Nat → Option Locals) (id : Nat) (l : Locals) : Op → Prop
  | .getFileEntry name | .findEntry name => ∀ other ref, other ≠ id → Points locals other ref →
      m.server.path ref.name = m.server.path name → ref = m.current name
  | .dropEntry name => ∀ other ref, other ≠ id → Points locals other ref → ref.name ≠ name
  | .getOrCreateFileMeta _ f => ∀ other ref, Points locals other ref → ref.name ≠ f.filename
  | .releaseWrite | .releaseRead => l.access = none → ∀ ref, l.entry = some ref →
      ∀ other access, sections locals other ≠ some (ref, access)
  | _ => True

def Orderly (system : System) : Threads.Action Job → Prop
  | .spawn _ _ => True
  | .run id => ∀ l op, system.pending id = some (l, op) → Undisturbed system.state system.locals id l op

structure Placed (m : Memory) (locals : Nat → Option Locals) : Prop where
  current : ∀ id ref, Points locals id ref → ref = m.current ref.name ∨
    ∀ other target, other ≠ id → Points locals other target → target.name ≠ ref.name
  named : ∀ first second ref other, first ≠ second → Points locals first ref → Points locals second other →
    m.server.path ref.name = m.server.path other.name → ref.name = other.name

theorem Placed.mono {next : Memory} {before after : Nat → Option Locals} (placed : Placed m before)
    (generation : next.generation = m.generation) (root : next.server.rootDir = m.server.rootDir)
    (fewer : ∀ id ref, Points after id ref → Points before id ref) : Placed next after where
  current := by
    intro id ref points
    rw [Memory.current, generation]
    exact (placed.current id ref (fewer id ref points)).imp_right fun alone other target different there =>
      alone other target different (fewer other target there)
  named := by
    intro first second ref other different here there same
    rw [Server.path, Server.path, root] at same
    exact placed.named first second ref other different (fewer _ _ here) (fewer _ _ there) same

theorem Placed.look {next : Memory} (placed : Placed m locals) (id : Nat) (l : Locals)
    (name : String) (generation : next.generation = m.generation) (root : next.server.rootDir = m.server.rootDir)
    (found : l.entry = none ∨ l.entry = some (m.current name))
    (calm : ∀ other ref, other ≠ id → Points locals other ref →
      m.server.path ref.name = m.server.path name → ref = m.current name) :
    Placed next (Function.update locals id (some l)) := by
  have mine (ref : Ref) (points : l.entry = some ref) : ref = m.current name := by
    rcases found with nothing | found
    · rw [nothing] at points
      cases points
    · exact Option.some.inj (points.symm.trans found)
  refine ⟨fun holder ref points => ?_, fun first second ref other different here there same => ?_⟩
  · rw [Memory.current, generation]
    rw [points_update] at points
    split_ifs at points with own
    · obtain rfl := mine ref points
      exact .inl rfl
    · rcases placed.current holder ref points with current | alone
      · exact .inl current
      · by_cases here : ref.name = name
        · obtain rfl := calm holder ref own points (congrArg _ here)
          exact .inl rfl
        · refine .inr fun other target apart there => ?_
          rw [points_update] at there
          split_ifs at there with own'
          · rw [mine target there]
            exact fun same => here same.symm
          · exact alone other target apart there
  · rw [Server.path, Server.path, root] at same
    rw [points_update] at here there
    split_ifs at here there with own own'
    · exact absurd (own.trans own'.symm) different
    · rw [mine ref here] at same ⊢
      rw [calm second other own' there same.symm]
    · rw [mine other there] at same ⊢
      rw [calm first ref own here same]
    · exact placed.named first second ref other different here there same

theorem Placed.replace (placed : Placed m locals) (id : Nat)
    (name : String) (s : Server) (root : s.rootDir = m.server.rootDir)
    (calm : ∀ other ref, other ≠ id → Points locals other ref → ref.name ≠ name) :
    Placed (m.replace name s) locals where
  current := by
    intro holder ref points
    by_cases here : ref.name = name
    · have own : holder = id := by
        by_contra other
        exact calm holder ref other points here
      subst own
      exact .inr fun other target apart there => here ▸ calm other target apart there
    · refine (placed.current holder ref points).imp_left fun current => ?_
      rw [Memory.current, m.generation_replace, if_neg here]
      exact current
  named := by
    intro first second ref other different here there same
    rw [Server.path, Server.path, show (m.replace name s).server.rootDir = m.server.rootDir from root] at same
    exact placed.named first second ref other different here there same

theorem exec_placed (placed : Placed m locals) {id : Nat} {l : Locals}
    (known : locals id = some l) {op : Op} (calm : Undisturbed m locals id l op) :
    Placed (m.exec op l).2 (Function.update locals id (some (m.exec op l).1)) := by
  have fewer (after : Locals) (kept : after.entry = none ∨ after.entry = l.entry) (other : Nat) (ref : Ref)
      (points : Points (Function.update locals id (some after)) other ref) : Points locals other ref := by
    rw [points_update] at points
    split_ifs at points with own
    · subst own
      rcases kept with nothing | same
      · rw [nothing] at points
        cases points
      · exact ⟨l, known, same.symm.trans points⟩
    · exact points
  have updated (after : Locals) (kept : after.entry = none ∨ after.entry = l.entry)
      (update : FileEntry → FileEntry) :
      Placed (m.update l update) (Function.update locals id (some after)) := by
    unfold Memory.update
    split
    · exact placed.mono rfl rfl (fewer after kept)
    · exact placed.mono (m.generation_setEntry ..) (m.rootDir_setEntry ..) (fewer after kept)
  cases op with
  | look | data => exact placed.mono rfl rfl (fewer l (.inr rfl))
  | getFileEntry name =>
    obtain ⟨table, same⟩ := m.server.getFileEntry_eq name
    refine placed.look id _ name rfl ?_ (.inr rfl) calm
    change (m.server.getFileEntry name).1.rootDir = _
    rw [same]
  | findEntry name =>
    have found : (m.server.table.lookup name).map (fun _ => m.current name) = none ∨
        (m.server.table.lookup name).map (fun _ => m.current name) = some (m.current name) := by
      cases m.server.table.lookup name with
      | none => exact .inl rfl
      | some entry => exact .inr rfl
    exact placed.look id _ name rfl rfl found calm
  | announceWriter | acquireWrite | acquireReadNoPriority | releaseWrite | releaseRead | setVersion =>
    refine updated _ ?_ _
    exact .inr rfl
  | claimWrite =>
    unfold Memory.exec
    split_ifs
    · refine updated _ ?_ _
      exact .inr rfl
    · exact placed.mono rfl rfl (fewer l (.inr rfl))
  | dropEntry name =>
    exact (placed.replace id name _ rfl calm).mono rfl rfl (fewer l (.inr rfl))
  | getOrCreateFileMeta outcome f =>
    change Placed (m.receiveMeta outcome f) _
    rcases m.receiveMeta_cases outcome f with ⟨s, same, -, root⟩ | ⟨s, entry, same, -, -, root⟩
    · rw [same]
      exact placed.mono rfl root (fewer l (.inr rfl))
    · rw [same]
      exact (placed.replace id f.filename s root fun other ref _ => calm other ref).mono rfl rfl (fewer l (.inr rfl))
  | forget => exact placed.mono rfl rfl (fewer _ (.inl rfl))

structure Exclusive (m : Memory) (locals : Nat → Option Locals) : Prop where
  grounded : Grounded m locals
  placed : Placed m locals
  accounted : ReaderWriter.Accounted m.locks (sections locals)

theorem exclusive_start {s : Server} (idle : s.Idle) : Exclusive (.start s) fun _ => none where
  grounded := grounded_start s
  placed := by
    constructor
    · rintro id ref ⟨l, absent, -⟩
      cases absent
    · rintro first second ref other - ⟨l, absent, -⟩
      cases absent
  accounted := by
    refine ⟨fun id ref access inside => ?_, fun id ref counters inside => ?_, fun first second ref inside => ?_, ?_⟩
    · cases inside
    · cases inside
    · cases inside
    · intro ref counters found
      obtain ⟨ids, reads, count⟩ := (backed_start idle).readers ref counters found
      have empty : ids = ∅ := Finset.eq_empty_of_forall_notMem fun id member => by cases (reads id).mp member
      rw [empty, Finset.card_empty, Nat.le_zero] at count
      exact ⟨ids, reads, by rw [empty, Finset.card_empty, count]⟩

variable {action : Threads.Action Job}

theorem moves_exclusive {next : System}
    (exclusive : Exclusive system.state system.locals) (orderly : Orderly system action)
    (moves : Threads.Moves meaning rules system next action) : Exclusive next.state next.locals := by
  obtain ⟨grounded, id, intruded, step, cause⟩ := moves_step exclusive.grounded moves
  refine ⟨grounded, ?_, exclusive.accounted.step step fun ref intrudes => ?_⟩
  · cases moves with
    | spawned id job free state locals =>
      rw [state, locals]
      refine exclusive.placed.mono rfl rfl fun other ref points => ?_
      rw [points_update] at points
      split_ifs at points
      · cases points
      · exact points
    | still id state locals =>
      rw [state, locals]
      exact exclusive.placed
    | acts id mine op known pending allowed state locals | passes id mine op known pending waits guard state locals =>
      rw [state, locals]
      exact exec_placed exclusive.placed known (orderly mine op pending)
  · obtain ⟨rfl, l, op, pending, here⟩ := cause ref intrudes
    have calm := orderly l op pending
    cases op with
    | releaseWrite | releaseRead =>
      unfold Op.intruded at here
      split_ifs at here with outside
      exact calm outside ref here
    | _ => cases here

theorem Exclusive.oneWriter (exclusive : Exclusive system.state system.locals) : OneWriter system := by
  intro first second ref other mine yours different here there same
  have points := points_of_inside here
  have points' := points_of_inside there
  have named := exclusive.placed.named first second ref other different points points' same
  -- Both entries are the one the table has, so the counters of one entry speak of both handlers.
  have one : ref = other := by
    rcases exclusive.placed.current first ref points with current | alone
    · rcases exclusive.placed.current second other points' with current' | alone
      · rw [current, current', named]
      · exact absurd named (alone first ref different points)
    · exact absurd named.symm (alone second other different.symm points')
  subst one
  exact exclusive.accounted.apart first second different ref mine yours here there

theorem one_writer_per_path [LogCodec] (s : Server) (idle : s.Idle) (actions : List (Threads.Action Job))
    (final : System)
    (orderly : Transition.Meets System.step Orderly (.start (.start s)) actions)
    (reached : Transition.run System.step (.start (.start s)) actions = some final) :
    OneWriter final := by
  have kept := Threads.run_keeps Job.follows Orderly Exclusive
    (fun system next action exclusive meets moves => moves_exclusive exclusive meets moves)
    (exclusive_start idle) orderly reached
  exact kept.2.oneWriter

def turns (id count : Nat) : List (Threads.Action Job) := List.replicate count (.run id)

def writeA : Job := .serve {} (.write ⟨"r2", 0, true, 0, [51, 10], "c"⟩)

def createB : Job := .serve {} (.create ⟨"r4", "output/a", "d", .write⟩)

def contendedRun : List (Threads.Action Job) :=
  [.spawn 0 writeA, .spawn 1 createB] ++ turns 0 12 ++ turns 1 10

theorem firstOpened_idle : firstOpened.Idle := by
  intro name entry found
  have only : firstOpened.table.entries.all (fun item => item.2.counters = .idle) = true := by decide +kernel
  have listed := AList.mem_lookup_iff.mp found
  simpa using List.all_eq_true.mp only ⟨name, entry⟩ listed

def calmStep (system : System) : Threads.Action Job → Bool
  | .spawn _ _ => true
  | .run id =>
      match system.pending id with
      | some (_, .getFileEntry name) =>
          (List.range 2).all fun other =>
            (system.locals other).all fun l => l.entry.all fun ref => ref = system.state.current name
      | some (_, .look) | some (_, .data _) | some (_, .announceWriter) | some (_, .acquireWrite) | none => true
      | _ => false

theorem calmStep_orderly
    (few : ∀ id, 2 ≤ id → system.threads id = none) (calm : calmStep system action = true) : Orderly system action := by
  cases action with
  | spawn id job => trivial
  | run id =>
    intro l op pending
    unfold calmStep at calm
    dsimp only at calm
    rw [pending] at calm
    cases op with
    | getFileEntry name =>
      rintro other ref - ⟨l, known, points⟩ -
      have small : other < 2 := by
        by_contra large
        rw [Threads.Machine.locals, few other (by omega)] at known
        cases known
      have checked := List.all_eq_true.mp calm other (List.mem_range.mpr small)
      rw [known, Option.all_some, points, Option.all_some, decide_eq_true_eq] at checked
      exact checked
    | look | data | announceWriter | acquireWrite => trivial
    | _ => cases calm

theorem contendedRun_oneWriter :
    ∃ final, Transition.run System.step (.start (.start firstOpened)) contendedRun =
        some final ∧ OneWriter final ∧ sections final.locals 0 = some (⟨"output/a", 0⟩, .writing) ∧
      (final.threads 1).map Threads.Thread.asleep = some (some (.entry (some ⟨"output/a", 0⟩))) := by
  have outcome : (Transition.run System.step (.start (.start firstOpened))
      contendedRun).map (fun final => (sections final.locals 0, (final.threads 1).map Threads.Thread.asleep)) =
        some (some (⟨"output/a", 0⟩, .writing), some (some (.entry (some ⟨"output/a", 0⟩)))) ∧
      Transition.check System.step calmStep (.start (.start firstOpened)) contendedRun =
        true := by decide +kernel
  obtain ⟨outcome, checked⟩ := outcome
  obtain ⟨final, reached, facts⟩ := Option.map_eq_some_iff.mp outcome
  obtain ⟨inside, asleep⟩ := Prod.mk.inj facts
  have orderly : Transition.Meets System.step Orderly (.start (.start firstOpened))
      contendedRun := by
    refine Transition.meets_along _ calmStep (fun system =>
      ∀ id, 2 ≤ id → system.threads id = none) _ _ ?_ ?_ (fun _ _ => rfl) checked
    · intro system next action member few _ stepped id large
      refine Threads.Machine.absent_of_prog (Threads.Machine.step_others stepped ?_) (few id large)
      have small : contendedRun.all fun action => decide (action.thread < 2) := by decide +kernel
      have below := List.all_eq_true.mp small action member
      simp only [decide_eq_true_eq] at below
      omega
    · exact fun system action _ few checked => calmStep_orderly few checked
  exact ⟨final, reached, one_writer_per_path firstOpened firstOpened_idle contendedRun final orderly reached, inside,
    asleep⟩

-- A Write that has looked its entry up waits behind a Delete, which takes the entry out of the table; and
-- cleanupLeases releases the lock of a Write whose client has been quiet for too long.
theorem two_writers_one_path :
    (∃ final, Transition.run System.step (.start (.start firstOpened))
      ([.spawn 1 writeA] ++ turns 1 8 ++ [.spawn 2 (.serve {} (.delete ⟨"r3", "output/a"⟩))] ++ turns 2 21 ++
        [.spawn 3 createB] ++ turns 3 11 ++ turns 1 4) = some final ∧ ¬OneWriter final) ∧
    ∃ final, Transition.run System.step (.start (.start firstOpened))
      ([.spawn 1 writeA] ++ turns 1 12 ++ [.spawn 2 (.cleanupLeases (11 * 60 * second))] ++ turns 2 14 ++
        [.spawn 3 createB] ++ turns 3 11) = some final ∧ ¬OneWriter final := by
  have both (actions : List (Threads.Action Job)) (generation : Nat)
      (outcome : (Transition.run System.step (.start (.start firstOpened)) actions).map
        (fun final => (sections final.locals 1, sections final.locals 3)) =
          some (some (⟨"output/a", 0⟩, .writing), some (⟨"output/a", generation⟩, .writing))) :
      ∃ final, Transition.run System.step (.start (.start firstOpened)) actions =
        some final ∧ ¬OneWriter final := by
    obtain ⟨final, reached, facts⟩ := Option.map_eq_some_iff.mp outcome
    obtain ⟨here, there⟩ := Prod.mk.inj facts
    refine ⟨final, reached, fun one => ?_⟩
    cases (one 1 3 _ _ _ _ (by decide) here there rfl).1
  exact ⟨both _ 1 (by decide +kernel), both _ 0 (by decide +kernel)⟩

end Ikkat
