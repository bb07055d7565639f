import Mathlib.Data.Set.Basic
import Ikkat.Shared.Threads

set_option autoImplicit false

namespace Threads

variable {Lock Mutex Op Local State Result Job : Type} [DecidableEq Mutex]

-- The program takes mutexes in the order of their ranks, as long as its operations meet only calm states. A second
-- lock of a mutex it holds never succeeds.
def Ordered (meaning : Meaning Lock Mutex Op Local State) (rank : Mutex → Nat) (calm : Op → Local → State → Prop) :
    Prog Lock Op Local State Result → Finset Mutex → Local → Prop
  | .done _, _, _ => True
  | .panic, _, _ => True
  | .lock lock next, held, locals =>
      meaning.mutex locals lock ∉ held → (∀ mutex ∈ held, rank mutex < rank (meaning.mutex locals lock)) ∧
        Ordered meaning rank calm next (insert (meaning.mutex locals lock) held) locals
  | .unlock lock next, held, locals => Ordered meaning rank calm next (held.erase (meaning.mutex locals lock)) locals
  | .act op next, held, locals =>
      ∀ state, calm op locals state →
        Ordered meaning rank calm (next (meaning.exec op locals state).1 state) held (meaning.exec op locals state).1
  | .await lock op next, held, locals =>
      (∀ mutex ∈ held.erase (meaning.mutex locals lock), rank mutex < rank (meaning.mutex locals lock)) ∧
        ∀ state, meaning.guard op locals state = true →
          Ordered meaning rank calm next held (meaning.exec op locals state).1
  | .broadcast _ next, held, locals => Ordered meaning rank calm next held locals

structure Crew (Lock Mutex Op Local State Result Job : Type) where
  machine : Machine Lock Mutex Op Local State Result
  job : Nat → Option Job

namespace Crew

def start (state : State) : Crew Lock Mutex Op Local State Result Job := ⟨.start state, fun _ => none⟩

def assign (crew : Crew Lock Mutex Op Local State Result Job) : Action Job → Nat → Option Job
  | .spawn id job => Function.update crew.job id (some job)
  | .run _ => crew.job

def step (meaning : Meaning Lock Mutex Op Local State) (program : Job → Prog Lock Op Local State Result)
    (crew : Crew Lock Mutex Op Local State Result Job) (action : Action Job) :
    Option (Crew Lock Mutex Op Local State Result Job) :=
  (crew.machine.step meaning program action).map fun next => ⟨next, crew.assign action⟩

def Calm (calm : Job → Op → Local → State → Prop) (crew : Crew Lock Mutex Op Local State Result Job)
    (action : Action Job) : Prop :=
  ∀ id job locals op, action = .run id → crew.job id = some job → crew.machine.pending id = some (locals, op) →
    calm job op locals crew.machine.state

instance (calm : Job → Op → Local → State → Prop) [∀ job op locals state, Decidable (calm job op locals state)]
    (crew : Crew Lock Mutex Op Local State Result Job) (action : Action Job) : Decidable (crew.Calm calm action) :=
  match action with
  | .spawn _ _ => isTrue nofun
  | .run id =>
      match assigned : crew.job id, next : crew.machine.pending id with
      | some job, some (locals, op) =>
          decidable_of_iff (calm job op locals crew.machine.state)
            ⟨by
              rintro quiet _ _ _ _ ⟨⟩ same known
              cases assigned.symm.trans same
              cases next.symm.trans known
              exact quiet, fun quiet => quiet id job locals op rfl assigned next⟩
      | none, _ => isTrue (by rintro _ _ _ _ ⟨⟩ same; cases assigned.symm.trans same)
      | _, none => isTrue (by rintro _ _ _ _ ⟨⟩ _ known; cases next.symm.trans known)

end Crew

namespace Machine

def wanted (meaning : Meaning Lock Mutex Op Local State) (machine : Machine Lock Mutex Op Local State Result) (id : Nat) :
    Option Mutex :=
  match machine.threads id with
  | some ⟨.lock lock _, locals, none⟩ => some (meaning.mutex locals lock)
  | _ => none

def WaitsFor (meaning : Meaning Lock Mutex Op Local State) (machine : Machine Lock Mutex Op Local State Result)
    (id other : Nat) : Prop :=
  (machine.wanted meaning id).bind machine.owner = some other

def Deadlocked (meaning : Meaning Lock Mutex Op Local State) (machine : Machine Lock Mutex Op Local State Result) : Prop :=
  ∃ ids : Set Nat, ids.Nonempty ∧ ∀ id ∈ ids, ∃ other ∈ ids, other ≠ id ∧ machine.WaitsFor meaning id other

end Machine

variable {meaning : Meaning Lock Mutex Op Local State} {rules : Rules Op Local} {rank : Mutex → Nat}
  {calm : Job → Op → Local → State → Prop} {program : Job → Prog Lock Op Local State Result}

def Sorted (meaning : Meaning Lock Mutex Op Local State) (rules : Rules Op Local) (rank : Mutex → Nat)
    (calm : Job → Op → Local → State → Prop) (jobs : Nat → Option Job) (id : Nat)
    (prog : Prog Lock Op Local State Result) (held : Finset Mutex) (locals : Local) : Prop :=
  Follows meaning rules prog held locals ∧ ∃ job, jobs id = some job ∧ Ordered meaning rank (calm job) prog held locals

theorem sorted_stepwise (jobs : Nat → Option Job) :
    Stepwise meaning (fun id op locals state => ∀ job, jobs id = some job → calm job op locals state)
      (Sorted meaning rules rank calm jobs :
        Nat → Prog Lock Op Local State Result → Finset Mutex → Local → Prop) where
  lock id lock next held locals := by
    rintro ⟨follows, job, assigned, ordered⟩ free
    exact ⟨follows free, job, assigned, (ordered free).2⟩
  unlock id lock next held locals := by
    rintro ⟨follows, job, assigned, ordered⟩
    exact ⟨follows.1, follows.2, job, assigned, ordered⟩
  act id op next held locals state := by
    rintro ⟨follows, job, assigned, ordered⟩ calm
    exact ⟨follows.2 state, job, assigned, ordered state (calm job assigned)⟩
  pass id lock op next held locals state := by
    rintro ⟨follows, job, assigned, ordered⟩ ready
    exact ⟨follows.2.2 state ready, job, assigned, ordered.2 state ready⟩
  sleep id lock op next held locals := by
    rintro ⟨follows, job, assigned, ordered⟩
    refine ⟨follows.1, fun _ => ?_, job, assigned, fun _ => ⟨ordered.1, ?_⟩⟩
    · rw [Finset.insert_erase follows.1]
      exact follows
    · rw [Finset.insert_erase follows.1]
      exact ordered
  broadcast id lock next held locals := by
    rintro ⟨follows, job, assigned, ordered⟩
    exact ⟨follows, job, assigned, ordered⟩

theorem ranked_wanted {jobs : Nat → Option Job} {machine : Machine Lock Mutex Op Local State Result}
    (upheld : Upheld (Sorted meaning rules rank calm jobs) machine) {id : Nat} {mine other : Mutex}
    (owned : machine.owner mine = some id) (wants : machine.wanted meaning id = some other)
    (foreign : machine.owner other ≠ some id) : rank mine < rank other := by
  unfold Machine.wanted at wants
  split at wants
  · rename_i lock next locals present
    cases wants
    obtain ⟨held, owns, _, job, _, ordered⟩ := upheld.holds id _ present
    have free : meaning.mutex locals lock ∉ held := fun own => foreign ((owns _).mpr own)
    exact (ordered free).1 mine ((owns mine).mp owned)
  · cases wants

-- Along a chain of waits the rank of what is waited for rises.
theorem not_deadlocked {top : Nat} (bounded : ∀ mutex, rank mutex ≤ top) {jobs : Nat → Option Job}
    {machine : Machine Lock Mutex Op Local State Result} (upheld : Upheld (Sorted meaning rules rank calm jobs) machine) :
    ¬ machine.Deadlocked meaning := by
  rintro ⟨ids, ⟨first, member⟩, waiting⟩
  have rising (count : Nat) : ∀ id ∈ ids, ∀ mutex, machine.wanted meaning id = some mutex → rank mutex + count ≤ top := by
    induction count with
    | zero => exact fun _ _ mutex _ => bounded mutex
    | succ count ih =>
      intro id inside mutex wants
      obtain ⟨other, among, _, waits⟩ := waiting id inside
      have taken : machine.owner mutex = some other := by rwa [Machine.WaitsFor, wants] at waits
      obtain ⟨third, _, apart, blocked⟩ := waiting other among
      obtain ⟨next, asks, has⟩ := Option.bind_eq_some_iff.mp blocked
      have below : rank mutex < rank next := by
        refine ranked_wanted upheld taken asks ?_
        rw [has]
        exact fun same => apart (Option.some.inj same)
      have above := ih other among next asks
      omega
  obtain ⟨other, _, _, waits⟩ := waiting first member
  obtain ⟨mutex, wants, _⟩ := Option.bind_eq_some_iff.mp waits
  have := rising (top + 1) first member mutex wants
  omega

theorem Upheld.crew_step (tidy : ∀ job, Follows meaning rules (program job) ∅ meaning.start)
    (ordered : ∀ job, Ordered meaning rank (calm job) (program job) ∅ meaning.start)
    {crew : Crew Lock Mutex Op Local State Result Job} {next : Machine Lock Mutex Op Local State Result}
    (upheld : Upheld (Sorted meaning rules rank calm crew.job) crew.machine) {action : Action Job}
    (quiet : crew.Calm calm action) (moved : crew.machine.step meaning program action = some next) :
    Upheld (Sorted meaning rules rank calm (crew.assign action)) next := by
  have known : Upheld (Sorted meaning rules rank calm (crew.assign action)) crew.machine := by
    refine ⟨fun id thread present => ?_, upheld.alive⟩
    obtain ⟨held, owns, follows, job, assigned, sorted⟩ := upheld.holds id thread present
    refine ⟨held, owns, follows, job, ?_, sorted⟩
    cases action with
    | run => exact assigned
    | spawn other new =>
      have different : id ≠ other := by
        rintro rfl
        simp [Machine.step, present] at moved
      exact (Function.update_of_ne different ..).trans assigned
  refine known.step (sorted_stepwise _) action ?_ ?_ moved
  · rintro id job rfl
    exact ⟨tidy job, job, Function.update_self .., ordered job⟩
  · rintro id locals op rfl pending job assigned
    exact quiet id job locals op rfl assigned pending

theorem ordered_never_deadlocks {top : Nat} (bounded : ∀ mutex, rank mutex ≤ top)
    (tidy : ∀ job, Follows meaning rules (program job) ∅ meaning.start)
    (ordered : ∀ job, Ordered meaning rank (calm job) (program job) ∅ meaning.start) {state : State}
    {actions : List (Action Job)} {final : Crew Lock Mutex Op Local State Result Job}
    (meets : Transition.Meets (Crew.step meaning program) (Crew.Calm calm) (.start state) actions)
    (reached : Transition.run (Crew.step meaning program) (.start state) actions = some final) :
    ¬ final.machine.Deadlocked meaning := by
  have sorted : Upheld (Sorted meaning rules rank calm final.job) final.machine := by
    refine Transition.run_invariant (Crew.Calm calm)
      (fun crew => Upheld (Sorted meaning rules rank calm crew.job) crew.machine) ?_ _ (Upheld.start state) actions
      meets reached
    intro crew action next upheld quiet stepped
    obtain ⟨machine, moved, rfl⟩ := Option.map_eq_some_iff.mp stepped
    exact upheld.crew_step tidy ordered quiet moved
  exact not_deadlocked bounded sorted

end Threads
