import Mathlib.Data.Set.Card
import Ikkat.Sections

set_option autoImplicit false

namespace Ikkat

namespace EntryLock

open Threads.Prog

-- Where a thread stands towards the entry; `announced` is between the two updates of waitingWriters in AcquireWrite.
inductive Post where
  | outside
  | announced
  | reading
  | writing
  deriving DecidableEq, Repr

inductive LockOp where
  | announceWriter
  | acquireWrite
  | acquireRead
  | acquireReadNoPriority
  | claimWrite
  | releaseWrite
  | releaseRead
  deriving DecidableEq, Repr

def guard (op : LockOp) (_ : Post) (entry : FileEntry) : Bool :=
  match op with
  | .acquireWrite => entry.canWrite
  | .acquireRead => entry.canRead
  | .acquireReadNoPriority => !entry.activeWriter
  | _ => true

def exec (op : LockOp) (post : Post) (entry : FileEntry) : Post × FileEntry :=
  match op with
  | .announceWriter => (.announced, { entry with waitingWriters := entry.waitingWriters + 1 })
  | .acquireWrite => (.writing, { entry with waitingWriters := entry.waitingWriters - 1, activeWriter := true })
  | .acquireRead | .acquireReadNoPriority => (.reading, { entry with activeReaders := entry.activeReaders + 1 })
  | .claimWrite => if entry.canWrite then (.writing, { entry with activeWriter := true }) else (post, entry)
  | .releaseWrite => (.outside, { entry with activeWriter := false })
  | .releaseRead => (.outside, { entry with activeReaders := entry.activeReaders - 1 })

def meaning : Threads.Meaning Unit Unit LockOp Post FileEntry where
  start := .outside
  mutex _ _ := ()
  guard := guard
  exec := exec

abbrev LockProgram := Threads.Prog Unit LockOp Post FileEntry Unit

abbrev LockSystem := Threads.Machine Unit Unit LockOp Post FileEntry Unit

def acquireRead (next : LockProgram) : LockProgram := lock () <| await () .acquireRead <| unlock () next

def acquireReadNoPriority (next : LockProgram) : LockProgram :=
  lock () <| await () .acquireReadNoPriority <| unlock () next

def releaseRead (next : LockProgram) : LockProgram :=
  lock () <| act .releaseRead fun _ _ => broadcast () <| unlock () next

def acquireWrite (next : LockProgram) : LockProgram :=
  lock () <| act .announceWriter fun _ _ => await () .acquireWrite <| unlock () next

def releaseWrite (next : LockProgram) : LockProgram :=
  lock () <| act .releaseWrite fun _ _ => broadcast () <| unlock () next

def tryAcquire (claimed refused : LockProgram) : LockProgram :=
  lock () <| act .claimWrite fun post _ => unlock () <| if post = .writing then claimed else refused

inductive Visit where
  | read
  | readNoPriority
  | write
  | delete
  deriving DecidableEq, Repr

def visits : List Visit → LockProgram
  | [] => done ()
  | .read :: rest => acquireRead (releaseRead (visits rest))
  | .readNoPriority :: rest => acquireReadNoPriority (releaseRead (visits rest))
  | .write :: rest => acquireWrite (releaseWrite (visits rest))
  | .delete :: rest => tryAcquire (releaseWrite (visits rest)) (visits rest)

def step (system : LockSystem) (action : Threads.Action (List Visit)) : Option LockSystem :=
  Threads.Machine.step meaning visits system action

def newFileEntry (fd version : Int32) : FileEntry := { fd := fd, cond := true, version := version }

def Allowed (post : Post) : LockOp → Prop
  | .announceWriter | .claimWrite => post = .outside
  | .releaseWrite => post = .writing
  | .releaseRead => post = .reading
  | .acquireWrite | .acquireRead | .acquireReadNoPriority => False

def Waits (post : Post) : LockOp → Prop
  | .acquireWrite => post = .announced
  | .acquireRead | .acquireReadNoPriority => post = .outside
  | _ => False

def rules : Threads.Rules LockOp Post where
  allowed := Allowed
  waits := Waits
  rests post := post = .outside

def Post.access : Post → Option Access
  | .outside | .announced => none
  | .reading => some .reading
  | .writing => some .writing

def locks (entry : FileEntry) : ReaderWriter.Locks Unit := fun _ => some entry.counters

def sections (posts : Nat → Option Post) : ReaderWriter.Sections Unit :=
  fun id => ((posts id).bind Post.access).map fun access => ((), access)

abbrev Tidy (program : LockProgram) (held : Finset Unit) (post : Post) : Prop :=
  Threads.Follows meaning rules program held post

section Programs

variable (next : LockProgram)

theorem tidy_acquireRead (later : Tidy next ∅ .reading) : Tidy (acquireRead next) ∅ .outside := by
  refine fun _ => ⟨Finset.mem_insert_self .., rfl, fun _ _ => ⟨Finset.mem_insert_self .., ?_⟩⟩
  exact later

theorem tidy_acquireReadNoPriority (later : Tidy next ∅ .reading) :
    Tidy (acquireReadNoPriority next) ∅ .outside := by
  refine fun _ => ⟨Finset.mem_insert_self .., rfl, fun _ _ => ⟨Finset.mem_insert_self .., ?_⟩⟩
  exact later

theorem tidy_acquireWrite (later : Tidy next ∅ .writing) : Tidy (acquireWrite next) ∅ .outside := by
  refine fun _ => ⟨rfl, fun _ => ⟨Finset.mem_insert_self .., rfl, fun _ _ => ⟨Finset.mem_insert_self .., ?_⟩⟩⟩
  exact later

theorem tidy_releaseRead (later : Tidy next ∅ .outside) : Tidy (releaseRead next) ∅ .reading := by
  refine fun _ => ⟨rfl, fun _ => ⟨Finset.mem_insert_self .., ?_⟩⟩
  exact later

theorem tidy_releaseWrite (later : Tidy next ∅ .outside) : Tidy (releaseWrite next) ∅ .writing := by
  refine fun _ => ⟨rfl, fun _ => ⟨Finset.mem_insert_self .., ?_⟩⟩
  exact later

theorem tidy_tryAcquire {refused : LockProgram} (claimed : Tidy next ∅ .writing) (busy : Tidy refused ∅ .outside) :
    Tidy (tryAcquire next refused) ∅ .outside := by
  refine fun _ => ⟨rfl, fun entry => ⟨Finset.mem_insert_self .., ?_⟩⟩
  change Tidy (if (exec .claimWrite .outside entry).1 = .writing then next else refused) ∅
    (exec .claimWrite .outside entry).1
  unfold exec
  dsimp only
  split
  · exact claimed
  · exact busy

end Programs

theorem visits_tidy (list : List Visit) : Tidy (visits list) ∅ .outside := by
  induction list with
  | nil => exact ⟨rfl, rfl⟩
  | cons visit rest ih =>
    cases visit with
    | read => exact tidy_acquireRead _ (tidy_releaseRead _ ih)
    | readNoPriority => exact tidy_acquireReadNoPriority _ (tidy_releaseRead _ ih)
    | write => exact tidy_acquireWrite _ (tidy_releaseWrite _ ih)
    | delete => exact tidy_tryAcquire _ (tidy_releaseWrite _ ih) ih

theorem sections_update (posts : Nat → Option Post) (id : Nat) (post : Post) :
    sections (Function.update posts id (some post)) = ReaderWriter.moveTo (sections posts) id () post.access := by
  funext other
  by_cases same : other = id
  · subst same
    simp [sections, ReaderWriter.moveTo]
  · simp [sections, ReaderWriter.moveTo, Function.update_of_ne same]

variable {posts : Nat → Option Post} {after entry : FileEntry} {system : LockSystem}

theorem sections_at {id : Nat} {post : Post} (known : posts id = some post) :
    sections posts id = post.access.map fun access => ((), access) := by
  rw [sections, known, Option.bind_some]

theorem locks_change (before : FileEntry) {update : ReaderWriter.Counters → ReaderWriter.Counters}
    (counted : after.counters = update before.counters) : locks after = ReaderWriter.change (locks before) () update := by
  funext key
  simp [locks, ReaderWriter.change, counted]

theorem exec_step (entry : FileEntry) (posts : Nat → Option Post) (id : Nat) (post : Post) (op : LockOp)
    (known : posts id = some post) (may : Allowed post op ∨ Waits post op ∧ guard op post entry = true) :
    ReaderWriter.Step (locks entry) (sections posts) id none (locks (exec op post entry).2)
      (sections (Function.update posts id (some (exec op post entry).1))) := by
  have here := sections_at known
  have still (next : Post) (after : FileEntry) (counters : after.counters = entry.counters)
      (access : next.access = post.access) : ReaderWriter.Step (locks entry) (sections posts) id none (locks after)
        (sections (Function.update posts id (some next))) := by
    refine ReaderWriter.Step.stay.of_eq (funext fun _ => congrArg some counters) ?_
    rw [sections_update, ReaderWriter.moveTo, access, ← here, Function.update_eq_self]
  have writes (free : entry.canWrite = true) (out : post.access = none) (after : FileEntry)
      (counted : after.counters = { entry.counters with writer := true }) :
      ReaderWriter.Step (locks entry) (sections posts) id none (locks after)
        (sections (Function.update posts id (some .writing))) := by
    have outside : sections posts id = none := by rw [here, out, Option.map_none]
    have idle : locks entry () = some .idle := congrArg some (entry.counters_idle free)
    exact (ReaderWriter.Step.enterWrite () outside idle).of_eq (locks_change entry counted)
      (sections_update posts id .writing)
  have reads (free : entry.activeWriter = false) (out : post = .outside) :
      ReaderWriter.Step (locks entry) (sections posts) id none
        (locks { entry with activeReaders := entry.activeReaders + 1 })
        (sections (Function.update posts id (some .reading))) := by
    have outside : sections posts id = none := by rw [here, out, Post.access, Option.map_none]
    exact (ReaderWriter.Step.enterRead () entry.counters outside rfl free).of_eq (locks_change entry rfl)
      (sections_update posts id .reading)
  cases op with
  | announceWriter =>
    obtain rfl : post = .outside := may.resolve_right fun waits => waits.1
    exact still .announced _ rfl rfl
  | acquireWrite =>
    obtain ⟨rfl, free⟩ : post = .announced ∧ entry.canWrite = true := may.resolve_left not_false
    exact writes free rfl _ rfl
  | acquireRead =>
    obtain ⟨rfl, free⟩ : post = .outside ∧ entry.canRead = true := may.resolve_left not_false
    simp only [FileEntry.canRead, Bool.and_eq_true, Bool.not_eq_true'] at free
    exact reads free.1 rfl
  | acquireReadNoPriority =>
    obtain ⟨rfl, free⟩ : post = .outside ∧ (!entry.activeWriter) = true := may.resolve_left not_false
    exact reads (by simpa using free) rfl
  | claimWrite =>
    obtain rfl : post = .outside := may.resolve_right fun waits => waits.1
    unfold exec
    dsimp only
    split
    · exact writes ‹_› rfl _ rfl
    · exact still .outside entry rfl rfl
  | releaseWrite =>
    obtain rfl : post = .writing := may.resolve_right fun waits => waits.1
    exact (ReaderWriter.Step.leaveWrite () here).of_eq (locks_change entry rfl) (sections_update posts id .outside)
  | releaseRead =>
    obtain rfl : post = .reading := may.resolve_right fun waits => waits.1
    exact (ReaderWriter.Step.leaveRead () here).of_eq (locks_change entry rfl) (sections_update posts id .outside)

def Queued (entry : FileEntry) (posts : Nat → Option Post) : Prop :=
  ∃ ids : Finset Nat, (∀ id, id ∈ ids ↔ posts id = some .announced) ∧ entry.waitingWriters = ids.card

theorem Queued.unchanged (queued : Queued entry posts) (id : Nat)
    (post : Post) (count : after.waitingWriters = entry.waitingWriters) (old : posts id ≠ some .announced)
    (new : post ≠ .announced) : Queued after (Function.update posts id (some post)) := by
  obtain ⟨ids, announced, counted⟩ := queued
  refine ⟨ids, fun other => ?_, count.trans counted⟩
  rw [announced]
  by_cases same : other = id
  · subst same
    rw [Function.update_self]
    exact iff_of_false old fun wrong => new (Option.some.inj wrong)
  · rw [Function.update_of_ne same]

theorem exec_queued (queued : Queued entry posts) {id : Nat} {post : Post}
    {op : LockOp} (known : posts id = some post) (may : Allowed post op ∨ Waits post op ∧ guard op post entry = true) :
    Queued (exec op post entry).2 (Function.update posts id (some (exec op post entry).1)) := by
  have quiet (after : FileEntry) (next : Post) (count : after.waitingWriters = entry.waitingWriters)
      (old : post ≠ .announced) (new : next ≠ .announced) : Queued after (Function.update posts id (some next)) :=
    queued.unchanged id next count (fun here => old (Option.some.inj (known.symm.trans here))) new
  have allowed (fits : ¬ Waits post op) : Allowed post op := may.resolve_right fun waits => fits waits.1
  cases op with
  | announceWriter =>
    obtain rfl : post = .outside := allowed not_false
    obtain ⟨ids, announced, counted⟩ := queued
    have absent : id ∉ ids := by rw [announced, known]; decide
    refine ⟨insert id ids, fun other => ?_, ?_⟩
    · by_cases same : other = id
      · simp [same, exec]
      · simp [same, announced]
    · rw [Finset.card_insert_of_notMem absent, ← counted]
      rfl
  | acquireWrite =>
    obtain ⟨rfl, -⟩ : post = .announced ∧ entry.canWrite = true := may.resolve_left not_false
    obtain ⟨ids, announced, counted⟩ := queued
    have present : id ∈ ids := (announced id).mpr known
    refine ⟨ids.erase id, fun other => ?_, ?_⟩
    · by_cases same : other = id
      · simp [same, exec]
      · simp [same, announced]
    · rw [Finset.card_erase_of_mem present, ← counted]
      rfl
  | acquireRead | acquireReadNoPriority =>
    obtain ⟨rfl, -⟩ : post = .outside ∧ _ := may.resolve_left not_false
    exact quiet _ .reading rfl (by decide) (by decide)
  | claimWrite =>
    obtain rfl : post = .outside := allowed not_false
    unfold exec
    dsimp only
    split
    · exact quiet _ .writing rfl (by decide) (by decide)
    · exact quiet entry .outside rfl (by decide) (by decide)
  | releaseWrite =>
    obtain rfl : post = .writing := allowed not_false
    exact quiet _ .outside rfl (by decide) (by decide)
  | releaseRead =>
    obtain rfl : post = .reading := allowed not_false
    exact quiet _ .outside rfl (by decide) (by decide)

structure Balanced (entry : FileEntry) (posts : Nat → Option Post) : Prop where
  backed : ReaderWriter.Backed (locks entry) (sections posts)
  accounted : ReaderWriter.Accounted (locks entry) (sections posts)
  queued : Queued entry posts

theorem balanced_start (fd version : Int32) : Balanced (newFileEntry fd version) fun _ => none where
  backed := by
    refine ⟨fun _ _ found taken => ?_, fun _ counters found => ⟨∅, by simp [sections], ?_⟩⟩
    · obtain rfl := Option.some.inj found
      cases taken
    · obtain rfl := Option.some.inj found
      exact Nat.le_refl 0
  accounted := by
    refine ⟨by simp [sections], by simp [sections], by simp [sections],
      fun _ counters found => ⟨∅, by simp [sections], ?_⟩⟩
    obtain rfl := Option.some.inj found
    rfl
  queued := ⟨∅, by simp, rfl⟩

theorem Balanced.moves {next : LockSystem} {action : Threads.Action (List Visit)}
    (balanced : Balanced system.state system.locals) (moves : Threads.Moves meaning rules system next action) :
    Balanced next.state next.locals := by
  have operates (id : Nat) (post : Post) (op : LockOp) (known : system.locals id = some post)
      (may : Allowed post op ∨ Waits post op ∧ guard op post system.state = true) :
      Balanced (exec op post system.state).2
        (Function.update system.locals id (some (exec op post system.state).1)) := by
    have step := exec_step system.state system.locals id post op known may
    exact ⟨balanced.backed.step step, balanced.accounted.step step (by simp),
      exec_queued balanced.queued known may⟩
  cases moves with
  | spawned id job free state locals =>
    have same : sections next.locals = sections system.locals := by
      have outside : sections system.locals id = none := by rw [sections, free]; rfl
      rw [locals, sections_update]
      exact ReaderWriter.moveTo_outside () outside
    rw [state]
    refine ⟨same ▸ balanced.backed, same ▸ balanced.accounted, ?_⟩
    rw [locals]
    exact balanced.queued.unchanged id .outside rfl (by simp [free]) (by decide)
  | still id state locals =>
    rw [state, locals]
    exact balanced
  | acts id post op known pending allowed state locals =>
    rw [state, locals]
    exact operates id post op known (.inl allowed)
  | passes id post op known pending waits guard state locals =>
    rw [state, locals]
    exact operates id post op known (.inr ⟨waits, guard⟩)

def InLoop : LockProgram → Prop
  | .await _ op _ => op = .acquireWrite
  | _ => False

def Parks : LockProgram → Post → Prop
  | .done _, post => post ≠ .announced
  | .panic, post => post ≠ .announced
  | .lock _ next, post => (post = .announced → InLoop next) ∧ Parks next post
  | .unlock _ next, post => post ≠ .announced ∧ Parks next post
  | .act op next, post =>
      post ≠ .announced ∧ ∀ entry, Parks (next (exec op post entry).1 entry) (exec op post entry).1
  | .await _ op next, post =>
      (post = .announced → op = .acquireWrite) ∧ ∀ entry, Parks next (exec op post entry).1
  | .broadcast _ next, post => post ≠ .announced ∧ Parks next post

theorem visits_park (list : List Visit) : Parks (visits list) .outside := by
  induction list with
  | nil => simp [visits, Parks]
  | cons visit rest ih =>
    cases visit with
    | read => simp [visits, acquireRead, releaseRead, Parks, exec, ih]
    | readNoPriority => simp [visits, acquireReadNoPriority, releaseRead, Parks, exec, ih]
    | write => simp [visits, acquireWrite, releaseWrite, Parks, exec, ih]
    | delete =>
      refine ⟨by simp, by simp, fun entry => ?_⟩
      unfold exec
      dsimp only
      split
      · simp [releaseWrite, Parks, exec, ih]
      · simp [Parks, ih]

theorem parks_stepwise : Threads.Stepwise meaning (fun _ _ _ _ => True)
    fun _ program held post => Tidy program held post ∧ Parks program post where
  lock _ _ _ _ _ both absent := ⟨both.1 absent, both.2.2⟩
  unlock _ _ _ _ _ both := ⟨both.1.1, both.1.2, both.2.2⟩
  act _ _ _ _ _ state both _ := ⟨both.1.2 state, both.2.2 state⟩
  pass _ _ _ _ _ _ state both ready := ⟨both.1.2.2 state ready, both.2.2 state⟩
  sleep id lock op next held post both :=
    ⟨both.1.1, (Threads.follows_stepwise.sleep id lock op next held post both.1).2, both.2.1, both.2⟩
  broadcast _ _ _ _ _ both := ⟨both.1, both.2.2⟩

def Blocked (system : LockSystem) (id : Nat) : Prop :=
  ∃ next post asleep, system.threads id = some ⟨.lock () (.await () .acquireWrite next), post, asleep⟩

theorem blocked_iff
    (upheld : Threads.Upheld (fun _ program held post => Tidy program held post ∧ Parks program post) system)
    (free : system.owner () = none) (id : Nat) : Blocked system id ↔ system.locals id = some .announced := by
  have nothing (thread : Threads.Thread Unit Unit LockOp Post FileEntry Unit) (present : system.threads id = some thread) :
      Tidy thread.prog ∅ thread.locals ∧ Parks thread.prog thread.locals := by
    obtain ⟨held, owns, both⟩ := upheld.holds id thread present
    have empty : held = ∅ := by
      refine Finset.eq_empty_of_forall_notMem fun mutex member => ?_
      rw [← owns mutex, free] at member
      cases member
    rwa [empty] at both
  constructor
  · rintro ⟨next, post, asleep, present⟩
    have waits : post = .announced := ((nothing _ present).1 (Finset.notMem_empty ())).2.1
    rw [Threads.Machine.locals, present, Option.map_some, waits]
  · intro known
    obtain ⟨⟨program, post, asleep⟩, present, rfl⟩ := Option.map_eq_some_iff.mp known
    obtain ⟨tidy, parks⟩ := nothing _ present
    cases program with
    | done | panic => exact absurd rfl parks
    | unlock | act | broadcast => exact absurd rfl parks.1
    | await lock op next => exact absurd tidy.1 (Finset.notMem_empty _)
    | lock lock next =>
      have inside := parks.1 rfl
      cases next with
      | await again op rest =>
        obtain rfl : op = .acquireWrite := inside
        exact ⟨rest, .announced, asleep, present⟩
      | done | panic | lock | unlock | act | broadcast => exact inside.elim

structure Sound (system : LockSystem) : Prop where
  readers : (system.state.activeReaders : ℕ∞) = {id | system.locals id = some .reading}.encard
  writer : {id | system.locals id = some .writing}.encard = if system.state.activeWriter then 1 else 0
  apart : system.state.activeWriter = true → system.state.activeReaders = 0
  announced : (system.state.waitingWriters : ℕ∞) = {id | system.locals id = some .announced}.encard
  blocked : system.owner () = none → (system.state.waitingWriters : ℕ∞) = {id | Blocked system id}.encard
  priority : ∀ id next, system.pending id = some (.outside, .acquireRead) → step system (.run id) = some next →
    next.locals id = some .reading → system.state.waitingWriters = 0 ∧ next.state.waitingWriters = 0

theorem sections_reading (posts : Nat → Option Post) (id : Nat) :
    sections posts id = some ((), .reading) ↔ posts id = some .reading := by
  cases known : posts id with
  | none => simp [sections, known]
  | some post => cases post <;> simp [sections, known, Post.access]

theorem sections_writing (posts : Nat → Option Post) (id : Nat) :
    sections posts id = some ((), .writing) ↔ posts id = some .writing := by
  cases known : posts id with
  | none => simp [sections, known]
  | some post => cases post <;> simp [sections, known, Post.access]

theorem encard_of_iff {p : Nat → Prop} (ids : Finset Nat) (members : ∀ id, id ∈ ids ↔ p id) :
    {id | p id}.encard = ids.card := by
  rw [← Set.encard_coe_eq_coe_finsetCard]
  exact congrArg Set.encard (Set.ext fun id => (members id).symm)

theorem Balanced.readers (balanced : Balanced entry posts) :
    (entry.activeReaders : ℕ∞) = {id | posts id = some .reading}.encard := by
  obtain ⟨ids, reads, count⟩ := balanced.accounted.readers () entry.counters rfl
  rw [encard_of_iff ids fun id => (reads id).trans (sections_reading posts id), ← count]
  rfl

theorem Balanced.writer (balanced : Balanced entry posts) :
    {id | posts id = some .writing}.encard = if entry.activeWriter then 1 else 0 := by
  split_ifs with taken
  · obtain ⟨id, inside⟩ := balanced.backed.writer () entry.counters rfl taken
    rw [Set.encard_eq_one]
    refine ⟨id, Set.ext fun other => ⟨fun writes => ?_, ?_⟩⟩
    · exact balanced.accounted.single other id () ((sections_writing posts other).mpr writes) inside
    · rintro rfl
      exact (sections_writing posts other).mp inside
  · rw [Set.encard_eq_zero, Set.eq_empty_iff_forall_notMem]
    intro id writes
    exact taken (balanced.accounted.writer id () entry.counters ((sections_writing posts id).mpr writes) rfl).1

theorem Balanced.apart (balanced : Balanced entry posts)
    (taken : entry.activeWriter = true) : entry.activeReaders = 0 := by
  obtain ⟨id, inside⟩ := balanced.backed.writer () entry.counters rfl taken
  exact (balanced.accounted.writer id () entry.counters inside rfl).2

theorem priority (system next : LockSystem) (disciplined : Threads.Disciplined meaning rules system) (id : Nat)
    (pending : system.pending id = some (.outside, .acquireRead)) (stepped : step system (.run id) = some next)
    (reads : next.locals id = some .reading) : system.state.waitingWriters = 0 ∧ next.state.waitingWriters = 0 := by
  have known : system.locals id = some .outside := Threads.Machine.locals_of_pending pending
  cases Threads.step_moves disciplined (.run id) stepped with
  | still _ _ locals =>
    rw [locals, known] at reads
    cases reads
  | acts _ post op _ expected allowed =>
    obtain ⟨rfl, rfl⟩ := Prod.mk.inj (Option.some.inj (expected.symm.trans pending))
    exact allowed.elim
  | passes _ post op _ expected _ free state =>
    obtain ⟨rfl, rfl⟩ := Prod.mk.inj (Option.some.inj (expected.symm.trans pending))
    have nobody : system.state.waitingWriters = 0 := by
      have can : system.state.canRead = true := free
      simp only [FileEntry.canRead, Bool.and_eq_true, beq_iff_eq] at can
      exact can.2
    exact ⟨nobody, by rw [state]; exact nobody⟩

theorem entry_lock_sound (fd version : Int32) (actions : List (Threads.Action (List Visit))) (final : LockSystem)
    (reached : Transition.run step (.start (newFileEntry fd version)) actions = some final) : Sound final := by
  obtain ⟨disciplined, balanced⟩ := Threads.run_keeps visits_tidy (fun _ _ => True) Balanced
    (fun _ _ _ balanced _ moves => balanced.moves moves) (balanced_start fd version)
    (Transition.meets_any ..) reached
  have upheld := Transition.run_invariant (fun _ _ => True)
    (Threads.Upheld fun _ program held post => Tidy program held post ∧ Parks program post)
    (fun _ action _ upheld _ stepped => upheld.step parks_stepwise action
      (fun _ job _ => ⟨visits_tidy job, visits_park job⟩) (fun _ _ _ _ _ => trivial) stepped) _
    (.start _) actions (Transition.meets_any ..) reached
  obtain ⟨ids, announced, count⟩ := balanced.queued
  have waiting : (final.state.waitingWriters : ℕ∞) = {id | final.locals id = some .announced}.encard := by
    rw [encard_of_iff ids announced, count]
  refine ⟨balanced.readers, balanced.writer, balanced.apart, waiting, fun free => ?_, fun id next =>
    priority final next disciplined id⟩
  rw [waiting]
  exact congrArg Set.encard (Set.ext fun id => (blocked_iff upheld free id).symm)

def crowd : List (Threads.Action (List Visit)) :=
  [.spawn 0 [.write], .spawn 1 [.write], .spawn 2 [.read]] ++ List.replicate 4 (.run 0) ++
    List.replicate 3 (.run 1) ++ List.replicate 2 (.run 2)

theorem crowd_sound : ∃ final : LockSystem, Transition.run step (.start (newFileEntry 0 1)) crowd = some final ∧
    final.state.activeWriter = true ∧ {id | Blocked final id}.encard = 1 := by
  have outcome : (Transition.run step (.start (newFileEntry 0 1)) crowd).map
      (fun final => (final.state, final.owner ())) = some (⟨0, true, 0, true, 1, 1⟩, none) := by decide +kernel
  obtain ⟨final, reached, ends⟩ := Option.map_eq_some_iff.mp outcome
  obtain ⟨state, free⟩ := Prod.mk.inj ends
  refine ⟨final, reached, by rw [state], ?_⟩
  have sound := entry_lock_sound 0 1 crowd final reached
  rw [← sound.blocked free, state]
  rfl

end EntryLock

end Ikkat
