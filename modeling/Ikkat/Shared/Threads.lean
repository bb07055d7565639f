import Mathlib.Data.Finset.Basic
import Mathlib.Logic.Function.Basic
import Ikkat.Shared.Run

set_option autoImplicit false

namespace Threads

-- What is left of a thread. A lock is named from inside the thread. What follows an operation depends on
-- the thread's own variables after it and on the state it found. `await` is the loop around cond.Wait
-- together with the assignment behind it, both under the lock of the condition variable.
inductive Prog (Lock Op Local State Result : Type) where
  | done (result : Result)
  | panic
  | lock (lock : Lock) (next : Prog Lock Op Local State Result)
  | unlock (lock : Lock) (next : Prog Lock Op Local State Result)
  | act (op : Op) (next : Local → State → Prog Lock Op Local State Result)
  | await (lock : Lock) (op : Op) (next : Prog Lock Op Local State Result)
  | broadcast (lock : Lock) (next : Prog Lock Op Local State Result)

structure Meaning (Lock Mutex Op Local State : Type) where
  start : Local
  mutex : Local → Lock → Mutex
  guard : Op → Local → State → Bool
  exec : Op → Local → State → Local × State

structure Thread (Lock Mutex Op Local State Result : Type) where
  prog : Prog Lock Op Local State Result
  locals : Local
  asleep : Option Mutex

structure Machine (Lock Mutex Op Local State Result : Type) where
  state : State
  owner : Mutex → Option Nat
  threads : Nat → Option (Thread Lock Mutex Op Local State Result)

inductive Action (Job : Type) where
  | spawn (id : Nat) (job : Job)
  | run (id : Nat)

def Action.thread {Job : Type} : Action Job → Nat
  | .spawn id _ => id
  | .run id => id

section Steps

variable {Lock Mutex Op Local State Result Job : Type}

namespace Machine

def start (state : State) : Machine Lock Mutex Op Local State Result :=
  ⟨state, fun _ => none, fun _ => none⟩

section

variable (machine : Machine Lock Mutex Op Local State Result) (id other : Nat)
  (thread : Thread Lock Mutex Op Local State Result)

def setThread : Machine Lock Mutex Op Local State Result :=
  { machine with threads := Function.update machine.threads id (some thread) }

def locals : Option Local := (machine.threads id).map Thread.locals

def pending : Option (Local × Op) :=
  match machine.threads id with
  | some ⟨.act op _, locals, _⟩ => some (locals, op)
  | some ⟨.await _ op _, locals, _⟩ => some (locals, op)
  | _ => none

def Quiet : Prop := ∀ id thread, machine.threads id = some thread → ∃ result, thread.prog = .done result

theorem threads_setThread :
    (machine.setThread id thread).threads other = if other = id then some thread else machine.threads other :=
  Function.update_apply ..

theorem locals_setThread :
    (machine.setThread id thread).locals = Function.update machine.locals id (some thread.locals) := by
  funext other
  by_cases same : other = id
  · subst same
    simp [locals, setThread]
  · simp [locals, setThread, Function.update_of_ne same]

variable {id other} in
theorem map_setThread {α : Type} (look : Thread Lock Mutex Op Local State Result → α) (different : other ≠ id) :
    ((machine.setThread id thread).threads other).map look = (machine.threads other).map look := by
  rw [threads_setThread, if_neg different]

variable [DecidableEq Mutex] (mutex : Mutex)

def setOwner (owner : Option Nat) : Machine Lock Mutex Op Local State Result :=
  { machine with owner := Function.update machine.owner mutex owner }

def wake : Machine Lock Mutex Op Local State Result :=
  { machine with
    threads := fun id => (machine.threads id).map fun thread =>
      if thread.asleep = some mutex then { thread with asleep := none } else thread }

theorem map_wake {α : Type} (look : Thread Lock Mutex Op Local State Result → α)
    (blind : ∀ thread, look { thread with asleep := none } = look thread) :
    ((machine.wake mutex).threads id).map look = (machine.threads id).map look := by
  unfold wake
  dsimp only
  cases machine.threads id with
  | none => rfl
  | some thread =>
    rw [Option.map_some]
    split_ifs
    · exact congrArg some (blind thread)
    · rfl

theorem locals_wake : (machine.wake mutex).locals = machine.locals :=
  funext fun id => machine.map_wake id mutex Thread.locals fun _ => rfl

end

variable {machine next final : Machine Lock Mutex Op Local State Result} {id other : Nat}

theorem locals_of_pending {next : Local × Op} (pending : machine.pending id = some next) :
    machine.locals id = some next.1 := by
  unfold Machine.pending at pending
  unfold locals
  split at pending
  · rename_i present
    rw [present]
    cases pending
    rfl
  · rename_i present
    rw [present]
    cases pending
    rfl
  · cases pending

theorem absent_of_prog (same : (next.threads id).map Thread.prog = (machine.threads id).map Thread.prog)
    (absent : machine.threads id = none) : next.threads id = none := by
  rwa [absent, Option.map_none, Option.map_eq_none_iff] at same

variable [DecidableEq Mutex]

-- One step of a thread that is not asleep. A thread that has panicked stays where it is.
def advance (meaning : Meaning Lock Mutex Op Local State) (machine : Machine Lock Mutex Op Local State Result)
    (id : Nat) (locals : Local) : Prog Lock Op Local State Result →
      Option (Machine Lock Mutex Op Local State Result)
  | .done _ => none
  | .panic => none
  | .lock lock next =>
      if machine.owner (meaning.mutex locals lock) = none then
        some ((machine.setOwner (meaning.mutex locals lock) (some id)).setThread id ⟨next, locals, none⟩)
      else none
  | .unlock lock next =>
      if machine.owner (meaning.mutex locals lock) = none then none
      else some ((machine.setOwner (meaning.mutex locals lock) none).setThread id ⟨next, locals, none⟩)
  | .act op next =>
      let after := meaning.exec op locals machine.state
      some ({ machine with state := after.2 }.setThread id ⟨next after.1 machine.state, after.1, none⟩)
  | .await lock op next =>
      let mutex := meaning.mutex locals lock
      if meaning.guard op locals machine.state then
        let after := meaning.exec op locals machine.state
        some ({ machine with state := after.2 }.setThread id ⟨next, after.1, none⟩)
      else some ((machine.setOwner mutex none).setThread id ⟨.lock lock (.await lock op next), locals, some mutex⟩)
  | .broadcast lock next => some ((machine.wake (meaning.mutex locals lock)).setThread id ⟨next, locals, none⟩)

def step (meaning : Meaning Lock Mutex Op Local State) (program : Job → Prog Lock Op Local State Result)
    (machine : Machine Lock Mutex Op Local State Result) :
    Action Job → Option (Machine Lock Mutex Op Local State Result)
  | .spawn id job =>
      if (machine.threads id).isSome then none
      else some (machine.setThread id ⟨program job, meaning.start, none⟩)
  | .run id =>
      match machine.threads id with
      | none => none
      | some thread => if thread.asleep.isSome then none else machine.advance meaning id thread.locals thread.prog

variable {meaning : Meaning Lock Mutex Op Local State} {program : Job → Prog Lock Op Local State Result}
  {action : Action Job} {actions : List (Action Job)}

theorem step_others (stepped : machine.step meaning program action = some next) (different : other ≠ action.thread) :
    (next.threads other).map Thread.prog = (machine.threads other).map Thread.prog := by
  cases action with
  | spawn id job =>
    simp only [step] at stepped
    split_ifs at stepped
    cases stepped
    exact machine.map_setThread _ _ different
  | run id =>
    simp only [step] at stepped
    split at stepped
    case h_1 => cases stepped
    case h_2 thread _ =>
      split_ifs at stepped
      cases prog : thread.prog with
      | done | panic =>
        rw [prog] at stepped
        cases stepped
      | lock lock rest | unlock lock rest =>
        simp only [prog, advance] at stepped
        split_ifs at stepped
        cases stepped
        exact (machine.setOwner _ _).map_setThread _ _ different
      | act op rest =>
        rw [prog] at stepped
        cases stepped
        exact map_setThread { machine with state := _ } _ _ different
      | await lock op rest =>
        simp only [prog, advance] at stepped
        split_ifs at stepped
        · cases stepped
          exact map_setThread { machine with state := _ } _ _ different
        · cases stepped
          exact (machine.setOwner _ _).map_setThread _ _ different
      | broadcast lock rest =>
        rw [prog] at stepped
        cases stepped
        exact ((machine.wake _).map_setThread _ _ different).trans (machine.map_wake _ _ _ fun _ => rfl)

theorem run_others (reached : Transition.run (step meaning program) machine actions = some final)
    (different : ∀ action ∈ actions, other ≠ action.thread) :
    (final.threads other).map Thread.prog = (machine.threads other).map Thread.prog := by
  induction actions generalizing machine with
  | nil =>
    obtain rfl : machine = final := Option.some.inj reached
    rfl
  | cons action rest ih =>
    obtain ⟨next, stepped, reached⟩ := (Transition.run_cons ..).mp reached
    rw [ih reached fun later member => different later (by simp [member])]
    exact step_others stepped (different action (by simp))

theorem quiet_after (id : Nat) (quiet : machine.Quiet)
    (reached : Transition.run (step meaning program) machine actions = some final)
    (own : ∀ action ∈ actions, action.thread = id) {result : Result} {locals : Local} {asleep : Option Mutex}
    (ended : final.threads id = some ⟨.done result, locals, asleep⟩) : final.Quiet := by
  intro other thread present
  by_cases same : other = id
  · rw [same, ended] at present
    obtain rfl := Option.some.inj present
    exact ⟨result, rfl⟩
  · have kept := run_others reached fun action member => own action member ▸ same
    rw [present, Option.map_some] at kept
    obtain ⟨before, here, prog⟩ := Option.map_eq_some_iff.mp kept.symm
    exact prog ▸ quiet other before here

end Machine

end Steps

section Upheld

variable {Lock Mutex Op Local State Result Job : Type}

structure Upheld (P : Nat → Prog Lock Op Local State Result → Finset Mutex → Local → Prop)
    (machine : Machine Lock Mutex Op Local State Result) : Prop where
  holds : ∀ id thread, machine.threads id = some thread →
    ∃ held : Finset Mutex, (∀ mutex, machine.owner mutex = some id ↔ mutex ∈ held) ∧ P id thread.prog held thread.locals
  alive : ∀ mutex id, machine.owner mutex = some id → (machine.threads id).isSome

variable {P : Nat → Prog Lock Op Local State Result → Finset Mutex → Local → Prop}
  {machine next : Machine Lock Mutex Op Local State Result} (upheld : Upheld P machine) (id : Nat)
  (thread : Thread Lock Mutex Op Local State Result)

theorem Upheld.start (state : State) : Upheld P (Machine.start state : Machine Lock Mutex Op Local State Result) where
  holds := fun _ _ absent => by cases absent
  alive := fun _ _ absent => by cases absent

include upheld

theorem Upheld.replace (next : Machine Lock Mutex Op Local State Result) (held : Finset Mutex)
    (mine : next.threads id = some thread)
    (others : ∀ other ≠ id, (next.threads other).map (fun thread => (thread.prog, thread.locals)) =
      (machine.threads other).map fun thread => (thread.prog, thread.locals))
    (owners : ∀ other ≠ id, ∀ mutex, next.owner mutex = some other ↔ machine.owner mutex = some other)
    (owned : ∀ mutex, next.owner mutex = some id ↔ mutex ∈ held) (holds : P id thread.prog held thread.locals) :
    Upheld P next where
  holds := by
    intro other after there
    by_cases same : other = id
    · subst same
      rw [mine, Option.some.injEq] at there
      exact there ▸ ⟨held, owned, holds⟩
    · have kept := others other same
      rw [there, Option.map_some] at kept
      obtain ⟨before, earlier, equal⟩ := Option.map_eq_some_iff.mp kept.symm
      obtain ⟨held, owns, holds⟩ := upheld.holds other before earlier
      rw [Prod.mk.injEq] at equal
      refine ⟨held, fun mutex => (owners other same mutex).trans (owns mutex), ?_⟩
      rw [← equal.1, ← equal.2]
      exact holds
  alive := by
    intro mutex other owner
    by_cases same : other = id
    · rw [same, mine, Option.isSome_some]
    · have before := upheld.alive mutex other ((owners other same mutex).mp owner)
      have kept := congrArg Option.isSome (others other same)
      rwa [Option.isSome_map, Option.isSome_map, Bool.eq_iff_iff, iff_true_right before] at kept

theorem Upheld.moved (state : State) (owner : Mutex → Option Nat) (held : Finset Mutex)
    (owners : ∀ other ≠ id, ∀ mutex, owner mutex = some other ↔ machine.owner mutex = some other)
    (owned : ∀ mutex, owner mutex = some id ↔ mutex ∈ held) (holds : P id thread.prog held thread.locals) :
    Upheld P (Machine.setThread ⟨state, owner, machine.threads⟩ id thread) := by
  refine upheld.replace id thread _ held (Function.update_self ..) ?_ owners owned holds
  exact fun other different => Machine.map_setThread _ _ _ different

omit upheld

variable [DecidableEq Mutex]

structure Stepwise (meaning : Meaning Lock Mutex Op Local State) (welcome : Nat → Op → Local → State → Prop)
    (P : Nat → Prog Lock Op Local State Result → Finset Mutex → Local → Prop) : Prop where
  lock : ∀ id lock next held locals, P id (.lock lock next) held locals → meaning.mutex locals lock ∉ held →
    P id next (insert (meaning.mutex locals lock) held) locals
  unlock : ∀ id lock next held locals, P id (.unlock lock next) held locals →
    meaning.mutex locals lock ∈ held ∧ P id next (held.erase (meaning.mutex locals lock)) locals
  act : ∀ id op next held locals state, P id (.act op next) held locals → welcome id op locals state →
    P id (next (meaning.exec op locals state).1 state) held (meaning.exec op locals state).1
  pass : ∀ id lock op next held locals state, P id (.await lock op next) held locals →
    meaning.guard op locals state = true → P id next held (meaning.exec op locals state).1
  sleep : ∀ id lock op next held locals, P id (.await lock op next) held locals → meaning.mutex locals lock ∈ held ∧
    P id (.lock lock (.await lock op next)) (held.erase (meaning.mutex locals lock)) locals
  broadcast : ∀ id lock next held locals, P id (.broadcast lock next) held locals → P id next held locals

variable {meaning : Meaning Lock Mutex Op Local State} {welcome : Nat → Op → Local → State → Prop}

include upheld

theorem Upheld.advance (stepwise : Stepwise meaning welcome P) (present : machine.threads id = some thread)
    (calm : ∀ locals op, machine.pending id = some (locals, op) → welcome id op locals machine.state)
    (moved : machine.advance meaning id thread.locals thread.prog = some next) : Upheld P next := by
  obtain ⟨held, owns, holds⟩ := upheld.holds id thread present
  have acquired (mutex : Mutex) (free : machine.owner mutex = none) (other : Nat) (different : other ≠ id)
      (target : Mutex) : Function.update machine.owner mutex (some id) target = some other ↔
        machine.owner target = some other := by
    by_cases same : target = mutex
    · subst same
      simp [free, Ne.symm different]
    · rw [Function.update_of_ne same]
  have released (mutex : Mutex) (mine : mutex ∈ held) (other : Nat) (different : other ≠ id)
      (target : Mutex) : Function.update machine.owner mutex none target = some other ↔
        machine.owner target = some other := by
    by_cases same : target = mutex
    · subst same
      simp [(owns target).mpr mine, Ne.symm different]
    · rw [Function.update_of_ne same]
  have left (mutex : Mutex) (target : Mutex) :
      Function.update machine.owner mutex none target = some id ↔ target ∈ held.erase mutex := by
    by_cases same : target = mutex
    · simp [same]
    · rw [Function.update_of_ne same, owns, Finset.mem_erase, and_iff_right same]
  obtain ⟨prog, locals, asleep⟩ := thread
  cases prog with
  | done result => cases moved
  | panic => cases moved
  | lock lock rest =>
    simp only [Machine.advance] at moved
    split_ifs at moved with free
    cases moved
    have mine : meaning.mutex locals lock ∉ held := by
      rw [← owns, free]
      exact (Option.some_ne_none id).symm
    refine upheld.moved id _ _ _ (insert (meaning.mutex locals lock) held) (acquired _ free) ?_
      (stepwise.lock _ _ _ _ _ holds mine)
    intro target
    by_cases same : target = meaning.mutex locals lock
    · simp [same]
    · simp [owns, same]
  | unlock lock rest =>
    simp only [Machine.advance] at moved
    split_ifs at moved
    cases moved
    obtain ⟨mine, later⟩ := stepwise.unlock _ _ _ _ _ holds
    exact upheld.moved id _ _ _ _ (released _ mine) (left _) later
  | act op rest =>
    have welcomed := calm locals op (by rw [Machine.pending, present])
    cases moved
    exact upheld.moved id _ _ _ held (fun _ _ _ => Iff.rfl) owns (stepwise.act _ _ _ _ _ machine.state holds welcomed)
  | await lock op rest =>
    simp only [Machine.advance] at moved
    split_ifs at moved with ready
    · cases moved
      exact upheld.moved id _ _ _ held (fun _ _ _ => Iff.rfl) owns
        (stepwise.pass _ _ _ _ _ _ machine.state holds ready)
    · cases moved
      obtain ⟨mine, later⟩ := stepwise.sleep _ _ _ _ _ _ holds
      exact upheld.moved id _ _ _ _ (released _ mine) (left _) later
  | broadcast lock rest =>
    cases moved
    refine upheld.replace id _ _ held (Function.update_self ..) ?_ (fun _ _ _ => Iff.rfl) owns
      (stepwise.broadcast _ _ _ _ _ holds)
    exact fun other different => (Machine.map_setThread _ _ _ different).trans (machine.map_wake _ _ _ fun _ => rfl)

omit id thread in
theorem Upheld.step {program : Job → Prog Lock Op Local State Result} (stepwise : Stepwise meaning welcome P)
    (action : Action Job)
    (fresh : ∀ id job, action = .spawn id job → P id (program job) ∅ meaning.start)
    (calm : ∀ id locals op, action = .run id → machine.pending id = some (locals, op) →
      welcome id op locals machine.state)
    (stepped : machine.step meaning program action = some next) : Upheld P next := by
  cases action with
  | spawn id job =>
    simp only [Machine.step] at stepped
    split_ifs at stepped with taken
    cases stepped
    refine upheld.moved id _ _ _ ∅ (fun _ _ _ => Iff.rfl) (fun mutex => ?_) (fresh id job rfl)
    rw [iff_false_right (Finset.notMem_empty mutex)]
    exact fun owner => taken (upheld.alive mutex id owner)
  | run id =>
    simp only [Machine.step] at stepped
    split at stepped
    case h_1 => cases stepped
    case h_2 thread present =>
      split_ifs at stepped
      exact upheld.advance id thread stepwise present (fun locals op => calm id locals op rfl) stepped

end Upheld

structure Rules (Op Local : Type) where
  allowed : Local → Op → Prop
  waits : Local → Op → Prop
  rests : Local → Prop

section Discipline

variable {Lock Mutex Op Local State Result Job : Type} [DecidableEq Mutex]
variable (meaning : Meaning Lock Mutex Op Local State) (rules : Rules Op Local)

-- Whatever the state is, the program keeps the rules, unlocks what it has locked and nothing else. A
-- second lock of a mutex it holds never succeeds, so nothing is asked of what stands behind it.
def Follows : Prog Lock Op Local State Result → Finset Mutex → Local → Prop
  | .done _, held, locals => held = ∅ ∧ rules.rests locals
  | .panic, _, _ => True
  | .lock lock next, held, locals =>
      meaning.mutex locals lock ∉ held → Follows next (insert (meaning.mutex locals lock) held) locals
  | .unlock lock next, held, locals =>
      meaning.mutex locals lock ∈ held ∧ Follows next (held.erase (meaning.mutex locals lock)) locals
  | .act op next, held, locals =>
      rules.allowed locals op ∧ ∀ state,
        Follows (next (meaning.exec op locals state).1 state) held (meaning.exec op locals state).1
  | .await lock op next, held, locals =>
      meaning.mutex locals lock ∈ held ∧ rules.waits locals op ∧
        ∀ state, meaning.guard op locals state = true → Follows next held (meaning.exec op locals state).1
  | .broadcast _ next, held, locals => Follows next held locals

abbrev Disciplined : Machine Lock Mutex Op Local State Result → Prop := Upheld fun _ => Follows meaning rules

inductive Moves (machine next : Machine Lock Mutex Op Local State Result) : Action Job → Prop where
  | spawned (id : Nat) (job : Job) (free : machine.locals id = none) (state : next.state = machine.state)
      (locals : next.locals = Function.update machine.locals id (some meaning.start)) :
      Moves machine next (.spawn id job)
  | still (id : Nat) (state : next.state = machine.state) (locals : next.locals = machine.locals) :
      Moves machine next (.run id)
  | acts (id : Nat) (mine : Local) (op : Op) (known : machine.locals id = some mine)
      (pending : machine.pending id = some (mine, op)) (allowed : rules.allowed mine op)
      (state : next.state = (meaning.exec op mine machine.state).2)
      (locals : next.locals = Function.update machine.locals id (some (meaning.exec op mine machine.state).1)) :
      Moves machine next (.run id)
  | passes (id : Nat) (mine : Local) (op : Op) (known : machine.locals id = some mine)
      (pending : machine.pending id = some (mine, op)) (waits : rules.waits mine op)
      (guard : meaning.guard op mine machine.state = true)
      (state : next.state = (meaning.exec op mine machine.state).2)
      (locals : next.locals = Function.update machine.locals id (some (meaning.exec op mine machine.state).1)) :
      Moves machine next (.run id)

variable {meaning rules}

variable {program : Job → Prog Lock Op Local State Result} {machine next : Machine Lock Mutex Op Local State Result}
  (disciplined : Disciplined meaning rules machine)

theorem follows_stepwise : Stepwise meaning (fun _ _ _ _ => True) fun _ : Nat =>
    (Follows meaning rules : Prog Lock Op Local State Result → Finset Mutex → Local → Prop) where
  lock _ _ _ _ _ follows := follows
  unlock _ _ _ _ _ follows := follows
  act _ _ _ _ _ state follows _ := follows.2 state
  pass _ _ _ _ _ _ state follows ready := follows.2.2 state ready
  sleep _ lock op next held locals follows := by
    refine ⟨follows.1, fun _ => ?_⟩
    rw [Finset.insert_erase follows.1]
    exact follows
  broadcast _ _ _ _ _ follows := follows

include disciplined

theorem Disciplined.step (welcome : ∀ job, Follows meaning rules (program job) ∅ meaning.start) (action : Action Job)
    (stepped : machine.step meaning program action = some next) : Disciplined meaning rules next :=
  Upheld.step disciplined follows_stepwise action (fun _ job _ => welcome job) (fun _ _ _ _ _ => trivial) stepped

theorem advance_moves {id : Nat} {thread : Thread Lock Mutex Op Local State Result}
    (present : machine.threads id = some thread)
    (moved : machine.advance meaning id thread.locals thread.prog = some next) :
    Moves meaning rules machine next (.run id : Action Job) := by
  obtain ⟨held, owns, follows⟩ := disciplined.holds id thread present
  obtain ⟨prog, locals, asleep⟩ := thread
  have known : machine.locals id = some locals := by rw [Machine.locals, present, Option.map_some]
  have stays (before : Machine Lock Mutex Op Local State Result) (same : before.locals = machine.locals)
      (rest : Prog Lock Op Local State Result) (asleep : Option Mutex) :
      (before.setThread id ⟨rest, locals, asleep⟩).locals = machine.locals := by
    rw [Machine.locals_setThread, same, ← known, Function.update_eq_self]
  cases prog with
  | done result => cases moved
  | panic => cases moved
  | lock lock rest | unlock lock rest =>
    simp only [Machine.advance] at moved
    split_ifs at moved
    cases moved
    exact .still id rfl (stays (machine.setOwner _ _) rfl _ _)
  | act op rest =>
    cases moved
    exact .acts id locals op known (by rw [Machine.pending, present]) follows.1 rfl
      (Machine.locals_setThread ..)
  | await lock op rest =>
    simp only [Machine.advance] at moved
    split_ifs at moved with ready
    · cases moved
      exact .passes id locals op known (by rw [Machine.pending, present]) follows.2.1 ready rfl
        (Machine.locals_setThread ..)
    · cases moved
      exact .still id rfl (stays (machine.setOwner _ _) rfl _ _)
  | broadcast lock rest =>
    cases moved
    exact .still id rfl (stays (machine.wake _) (machine.locals_wake _) _ _)

theorem step_moves (action : Action Job)
    (stepped : machine.step meaning program action = some next) :
    Moves meaning rules machine next action := by
  cases action with
  | spawn id job =>
    simp only [Machine.step] at stepped
    split_ifs at stepped with taken
    cases stepped
    have free : machine.threads id = none := by simpa using taken
    exact .spawned id job (by rw [Machine.locals, free, Option.map_none]) rfl (Machine.locals_setThread ..)
  | run id =>
    simp only [Machine.step] at stepped
    split at stepped
    case h_1 => cases stepped
    case h_2 thread present =>
      split_ifs at stepped
      exact advance_moves disciplined present stepped

omit disciplined in
theorem run_keeps (welcome : ∀ job, Follows meaning rules (program job) ∅ meaning.start)
    (condition : Machine Lock Mutex Op Local State Result → Action Job → Prop)
    (Invariant : State → (Nat → Option Local) → Prop)
    (kept : ∀ machine next action, Invariant machine.state machine.locals → condition machine action →
      Moves meaning rules machine next action → Invariant next.state next.locals)
    {state : State} (initial : Invariant state fun _ => none) {actions : List (Action Job)}
    {final : Machine Lock Mutex Op Local State Result}
    (meets : Transition.Meets (Machine.step meaning program) condition (.start state) actions)
    (reached : Transition.run (Machine.step meaning program) (.start state) actions = some final) :
    Disciplined meaning rules final ∧ Invariant final.state final.locals := by
  refine Transition.run_invariant condition
    (fun machine => Disciplined meaning rules machine ∧ Invariant machine.state machine.locals) ?_ (.start state)
    ⟨Upheld.start state, initial⟩ actions meets reached
  rintro machine action next ⟨disciplined, holds⟩ meets stepped
  exact ⟨Disciplined.step disciplined welcome action stepped,
    kept machine next action holds meets (step_moves disciplined action stepped)⟩

theorem Disciplined.free (quiet : machine.Quiet) (mutex : Mutex) :
    machine.owner mutex = none := by
  cases taken : machine.owner mutex with
  | none => rfl
  | some id =>
    obtain ⟨thread, present⟩ := Option.isSome_iff_exists.mp (disciplined.alive mutex id taken)
    obtain ⟨held, owns, follows⟩ := disciplined.holds id thread present
    obtain ⟨result, ended⟩ := quiet id thread present
    rw [ended] at follows
    have empty : held = ∅ := follows.1
    rw [owns, empty] at taken
    cases taken

theorem Disciplined.rests (quiet : machine.Quiet) (id : Nat) (mine : Local)
    (known : machine.locals id = some mine) : rules.rests mine := by
  obtain ⟨thread, present, rfl⟩ := Option.map_eq_some_iff.mp known
  obtain ⟨held, owns, follows⟩ := disciplined.holds id thread present
  obtain ⟨result, ended⟩ := quiet id thread present
  rw [ended] at follows
  exact follows.2

end Discipline

inductive Verdict (Local State Result : Type) where
  | returned (result : Result) (locals : Local) (state : State)
  | panicked
  | blocked

section Alone

variable {Lock Mutex Op Local State Result Job : Type} [DecidableEq Mutex]

-- The program run from here to its end by a thread that nobody disturbs and nobody will wake.
def alone (meaning : Meaning Lock Mutex Op Local State) : Prog Lock Op Local State Result → Finset Mutex →
    Local → State → Verdict Local State Result
  | .done result, _, locals, state => .returned result locals state
  | .panic, _, _, _ => .panicked
  | .lock lock next, held, locals, state =>
      if meaning.mutex locals lock ∈ held then .blocked
      else alone meaning next (insert (meaning.mutex locals lock) held) locals state
  | .unlock lock next, held, locals, state =>
      if meaning.mutex locals lock ∈ held then
        alone meaning next (held.erase (meaning.mutex locals lock)) locals state
      else .panicked
  | .act op next, held, locals, state =>
      let after := meaning.exec op locals state
      alone meaning (next after.1 state) held after.1 after.2
  | .await _ op next, held, locals, state =>
      if meaning.guard op locals state then
        let after := meaning.exec op locals state
        alone meaning next held after.1 after.2
      else .blocked
  | .broadcast _ next, held, locals, state => alone meaning next held locals state

variable (meaning : Meaning Lock Mutex Op Local State) (program : Job → Prog Lock Op Local State Result)

def Finishes (machine : Machine Lock Mutex Op Local State Result) (id : Nat) (result : Result) (locals : Local)
    (state : State) : Prop :=
  ∃ count final, Transition.run (Machine.step meaning program) machine (List.replicate count (.run id)) = some final ∧
    final.state = state ∧ final.threads id = some ⟨.done result, locals, none⟩

def Machine.Panicked (machine : Machine Lock Mutex Op Local State Result) (id : Nat) : Prop :=
  ∃ mine, machine.threads id = some ⟨.panic, mine, none⟩ ∨
    ∃ lock next, machine.threads id = some ⟨.unlock lock next, mine, none⟩ ∧
      machine.owner (meaning.mutex mine lock) = none

def Machine.Waiting (machine : Machine Lock Mutex Op Local State Result) (id : Nat) : Prop :=
  ∃ lock next mine asleep, machine.threads id = some ⟨.lock lock next, mine, asleep⟩ ∧
    (asleep = none → machine.owner (meaning.mutex mine lock) ≠ none)

def Ended (machine : Machine Lock Mutex Op Local State Result) (id : Nat) : Verdict Local State Result → Prop
  | .returned result locals state => machine.state = state ∧ machine.threads id = some ⟨.done result, locals, none⟩
  | .panicked => machine.Panicked meaning id
  | .blocked => machine.Waiting meaning id

def Ends (machine : Machine Lock Mutex Op Local State Result) (id : Nat) (verdict : Verdict Local State Result) : Prop :=
  ∃ count final, Transition.run (Machine.step meaning program) machine (List.replicate count (.run id)) = some final ∧
    Ended meaning final id verdict

def Panics (machine : Machine Lock Mutex Op Local State Result) (id : Nat) : Prop :=
  ∃ count final, Transition.run (Machine.step meaning program) machine (List.replicate count (.run id)) = some final ∧
    final.Panicked meaning id

variable {meaning program} {machine next : Machine Lock Mutex Op Local State Result} {id : Nat}
  {prog : Prog Lock Op Local State Result} {mine : Local} {verdict other : Verdict Local State Result}

theorem step_present (present : machine.threads id = some ⟨prog, mine, none⟩) :
    machine.step meaning program (.run id) = machine.advance meaning id mine prog := by
  simp [Machine.step, present]

theorem Ended.stuck (ended : Ended meaning machine id verdict) : machine.step meaning program (.run id) = none := by
  cases verdict with
  | returned result mine state => exact step_present ended.2
  | panicked =>
    obtain ⟨mine, present | ⟨lock, next, present, free⟩⟩ := ended
    · exact step_present present
    · rw [step_present present, Machine.advance, if_pos free]
  | blocked =>
    obtain ⟨lock, next, mine, asleep, present, taken⟩ := ended
    cases asleep with
    | none => rw [step_present present, Machine.advance, if_neg (taken rfl)]
    | some mutex => simp [Machine.step, present]

omit [DecidableEq Mutex] in
theorem Ended.unique (first : Ended meaning machine id verdict) (second : Ended meaning machine id other) :
    verdict = other := by
  cases verdict <;> cases other <;> simp only [Ended, Machine.Panicked, Machine.Waiting] at first second <;> grind

theorem stuck_unique (machine : Machine Lock Mutex Op Local State Result)
    {one other : Machine Lock Mutex Op Local State Result} (first second : Nat)
    (reached : Transition.run (Machine.step meaning program) machine (List.replicate first (.run id)) = some one)
    (again : Transition.run (Machine.step meaning program) machine (List.replicate second (.run id)) = some other)
    (stuck : one.step meaning program (.run id) = none) (still : other.step meaning program (.run id) = none) :
    one = other := by
  induction first generalizing machine second with
  | zero =>
    obtain rfl : machine = one := Option.some.inj reached
    cases second with
    | zero => exact Option.some.inj again
    | succ second =>
      obtain ⟨middle, stepped, -⟩ := (Transition.run_cons ..).mp again
      rw [stuck] at stepped
      cases stepped
  | succ first ih =>
    obtain ⟨middle, stepped, later⟩ := (Transition.run_cons ..).mp reached
    cases second with
    | zero =>
      obtain rfl : machine = other := Option.some.inj again
      rw [still] at stepped
      cases stepped
    | succ second =>
      obtain ⟨next, same, rest⟩ := (Transition.run_cons ..).mp again
      obtain rfl : middle = next := Option.some.inj (stepped.symm.trans same)
      exact ih middle second later rest

theorem ends_advance (present : machine.threads id = some ⟨prog, mine, none⟩)
    (moved : machine.advance meaning id mine prog = some next) (ends : Ends meaning program next id verdict) :
    Ends meaning program machine id verdict := by
  obtain ⟨count, final, reached, ended⟩ := ends
  have stepped : machine.step meaning program (.run id) = some next :=
    (step_present present).trans moved
  exact ⟨count + 1, final, (Transition.run_cons ..).mpr ⟨next, stepped, reached⟩, ended⟩

theorem alone_ends (prog : Prog Lock Op Local State Result) (machine : Machine Lock Mutex Op Local State Result)
    (id : Nat) (held : Finset Mutex) (mine : Local) (present : machine.threads id = some ⟨prog, mine, none⟩)
    (owners : ∀ mutex, machine.owner mutex = if mutex ∈ held then some id else none) :
    Ends meaning program machine id (alone meaning prog held mine machine.state) := by
  have now (before : Machine Lock Mutex Op Local State Result) (thread : Thread Lock Mutex Op Local State Result) :
      (before.setThread id thread).threads id = some thread := Function.update_self ..
  -- Everything but a wait is a step to a machine the induction hypothesis speaks of.
  induction prog generalizing machine held mine with
  | done value => exact ⟨0, machine, rfl, rfl, present⟩
  | panic => exact ⟨0, machine, rfl, mine, .inl present⟩
  | lock lock rest ih =>
    rw [alone]
    split_ifs with taken
    · exact ⟨0, machine, rfl, lock, rest, mine, none, present, fun _ => by simp [owners, taken]⟩
    · have free : machine.owner (meaning.mutex mine lock) = none := by rw [owners, if_neg taken]
      refine ends_advance present (if_pos free) (ih _ _ mine (now ..) fun target => ?_)
      by_cases same : target = meaning.mutex mine lock
      · simp [Machine.setThread, Machine.setOwner, same]
      · simp [Machine.setThread, Machine.setOwner, same, owners]
  | unlock lock rest ih =>
    rw [alone]
    split_ifs with taken
    · have owned : machine.owner (meaning.mutex mine lock) ≠ none := by simp [owners, taken]
      refine ends_advance present (if_neg owned) (ih _ _ mine (now ..) fun target => ?_)
      by_cases same : target = meaning.mutex mine lock
      · simp [Machine.setThread, Machine.setOwner, same]
      · simp [Machine.setThread, Machine.setOwner, same, owners]
    · exact ⟨0, machine, rfl, mine, .inr ⟨lock, rest, present, by rw [owners, if_neg taken]⟩⟩
  | act op rest ih => exact ends_advance present rfl (ih _ _ _ held _ (now ..) owners)
  | await lock op rest ih =>
    rw [alone]
    split_ifs with ready
    · exact ends_advance present (if_pos ready) (ih _ held _ (now ..) owners)
    · refine ends_advance present (if_neg ready) ⟨0, _, rfl, lock, _, mine, _, now .., ?_⟩
      exact fun awake => by cases awake
  | broadcast lock rest ih => exact ends_advance present rfl (ih _ held _ (now ..) owners)

variable (prog machine id mine) (held : Finset Mutex) (present : machine.threads id = some ⟨prog, mine, none⟩)
  (owners : ∀ mutex, machine.owner mutex = if mutex ∈ held then some id else none)

include present owners

theorem ends_iff (verdict : Verdict Local State Result) :
    Ends meaning program machine id verdict ↔ alone meaning prog held mine machine.state = verdict := by
  obtain ⟨first, one, reached, ended⟩ := alone_ends prog machine id held mine present owners
  constructor
  · rintro ⟨second, other, again, stops⟩
    obtain rfl := stuck_unique machine first second reached again ended.stuck stops.stuck
    exact ended.unique stops
  · rintro rfl
    exact ⟨first, one, reached, ended⟩

theorem finishes_iff (result : Result) (locals : Local) (state : State) :
    Finishes meaning program machine id result locals state ↔
      alone meaning prog held mine machine.state = .returned result locals state :=
  ends_iff machine id prog mine held present owners (.returned result locals state)

theorem panics_iff : Panics meaning program machine id ↔ alone meaning prog held mine machine.state = .panicked :=
  ends_iff machine id prog mine held present owners .panicked

end Alone

end Threads
