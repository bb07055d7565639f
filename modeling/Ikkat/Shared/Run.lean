import Mathlib.Data.List.Induction

set_option autoImplicit false

namespace Transition

variable {State Action : Type}

-- A step answers `none` where the action is not enabled; all choice sits in the action.
def run (step : State → Action → Option State) : State → List Action → Option State
  | state, [] => some state
  | state, action :: rest => (step state action).bind fun next => run step next rest

@[simp] theorem run_nil (step : State → Action → Option State) (state : State) :
    run step state [] = some state := rfl

theorem run_cons (step : State → Action → Option State) (state : State) (action : Action)
    (rest : List Action) (final : State) :
    run step state (action :: rest) = some final ↔
      ∃ next, step state action = some next ∧ run step next rest = some final := by
  simp [run, Option.bind_eq_some_iff]

theorem run_append (step : State → Action → Option State) (state : State) (first second : List Action) (final : State) :
    run step state (first ++ second) = some final ↔
      ∃ middle, run step state first = some middle ∧ run step middle second = some final := by
  induction first generalizing state with
  | nil => simp
  | cons action rest ih =>
    rw [List.cons_append, run_cons]
    constructor
    · rintro ⟨next, stepped, later⟩
      obtain ⟨middle, reached, finished⟩ := (ih next).mp later
      exact ⟨middle, (run_cons ..).mpr ⟨next, stepped, reached⟩, finished⟩
    · rintro ⟨middle, reached, finished⟩
      obtain ⟨next, stepped, later⟩ := (run_cons ..).mp reached
      exact ⟨next, stepped, (ih next).mpr ⟨middle, later, finished⟩⟩

theorem run_singleton (step : State → Action → Option State) (state : State) (action : Action)
    (final : State) : run step state [action] = some final ↔ step state action = some final := by
  simp [run_cons]

def Reaches (step : State → Action → Option State) (state final : State) : Prop :=
  ∃ actions, run step state actions = some final

theorem Reaches.refl (step : State → Action → Option State) (state : State) : Reaches step state state :=
  ⟨[], rfl⟩

theorem Reaches.trans {step : State → Action → Option State} {state middle final : State}
    (first : Reaches step state middle) (second : Reaches step middle final) : Reaches step state final := by
  obtain ⟨before, reached⟩ := first
  obtain ⟨after, finished⟩ := second
  exact ⟨before ++ after, (run_append ..).mpr ⟨middle, reached, finished⟩⟩

theorem Reaches.single {step : State → Action → Option State} {state final : State} (action : Action)
    (stepped : step state action = some final) : Reaches step state final :=
  ⟨[action], (run_singleton ..).mpr stepped⟩

-- Every action of the run meets the condition in the state it is taken from.
def Meets (step : State → Action → Option State) (condition : State → Action → Prop) :
    State → List Action → Prop
  | _, [] => True
  | state, action :: rest =>
      condition state action ∧ ∀ next, step state action = some next → Meets step condition next rest

theorem meets_append {step : State → Action → Option State} (condition : State → Action → Prop)
    (state : State) {middle : State} (first second : List Action) (reached : run step state first = some middle) :
    Meets step condition state (first ++ second) ↔
      Meets step condition state first ∧ Meets step condition middle second := by
  induction first generalizing state with
  | nil => simp_all [Meets]
  | cons action rest ih =>
    obtain ⟨next, stepped, later⟩ := (run_cons ..).mp reached
    simp [Meets, stepped, ih next later, and_assoc]

def check (step : State → Action → Option State) (holds : State → Action → Bool) : State → List Action → Bool
  | _, [] => true
  | state, action :: rest =>
      holds state action && (step state action).all fun next => check step holds next rest

theorem meets_along {step : State → Action → Option State} (condition : State → Action → Prop)
    (holds : State → Action → Bool) (Invariant : State → Prop) (state : State) (actions : List Action)
    (kept : ∀ state next, ∀ action ∈ actions, Invariant state → holds state action = true →
      step state action = some next → Invariant next)
    (sound : ∀ state, ∀ action ∈ actions, Invariant state → holds state action = true → condition state action)
    (initial : Invariant state) (checked : check step holds state actions = true) :
    Meets step condition state actions := by
  induction actions generalizing state with
  | nil => trivial
  | cons action rest ih =>
    rw [check, Bool.and_eq_true] at checked
    refine ⟨sound state action (by simp) initial checked.1, fun next stepped => ?_⟩
    rw [stepped] at checked
    refine ih next (fun state next later member => kept state next later (by simp [member]))
      (fun state later member => sound state later (by simp [member])) ?_ checked.2
    exact kept state next action (by simp) initial checked.1 stepped

theorem meets_of_check (step : State → Action → Option State) (condition : State → Action → Prop)
    (holds : State → Action → Bool) {state : State} {actions : List Action}
    (sound : ∀ state, ∀ action ∈ actions, holds state action = true → condition state action)
    (checked : check step holds state actions = true) : Meets step condition state actions :=
  meets_along condition holds (fun _ => True) state actions (fun _ _ _ _ _ _ _ => trivial)
    (fun state action member _ => sound state action member) trivial checked

theorem meets_any (step : State → Action → Option State) (state : State) (actions : List Action) :
    Meets step (fun _ _ => True) state actions := by
  induction actions generalizing state with
  | nil => trivial
  | cons action rest ih => exact ⟨trivial, fun next _ => ih next⟩

theorem run_invariant {step : State → Action → Option State} (condition : State → Action → Prop)
    (Invariant : State → Prop) (preserved : ∀ state action next, Invariant state → condition state action →
      step state action = some next → Invariant next)
    (state : State) (initial : Invariant state) (actions : List Action) {final : State}
    (meets : Meets step condition state actions) (reached : run step state actions = some final) :
    Invariant final := by
  induction actions generalizing state with
  | nil => simp_all
  | cons action rest ih =>
    obtain ⟨next, stepped, later⟩ := (run_cons ..).mp reached
    exact ih next (preserved _ _ _ initial meets.1 stepped) (meets.2 next stepped) later

def Everywhere (step : State → Action → Option State) (property : State → Prop) :
    State → List Action → Prop
  | state, [] => property state
  | state, action :: rest =>
      property state ∧ ∀ next, step state action = some next → Everywhere step property next rest

-- When one step keeps the property exactly where it meets the condition, so does a whole run.
theorem everywhere_iff_meets {step : State → Action → Option State} (condition : State → Action → Prop)
    (Invariant : State → Prop) {property : State → Prop}
    (kept : ∀ state action next, Invariant state → property state → property next →
      step state action = some next → Invariant next)
    (exact_step : ∀ state action next, Invariant state → property state →
      step state action = some next → (property next ↔ condition state action))
    (state : State) (initial : Invariant state) (holds : property state) (actions : List Action)
    {final : State} (reached : run step state actions = some final) :
    Everywhere step property state actions ↔ Meets step condition state actions := by
  induction actions generalizing state with
  | nil => simp [Everywhere, Meets, holds]
  | cons action rest ih =>
    obtain ⟨next, stepped, later⟩ := (run_cons ..).mp reached
    have head := exact_step state action next initial holds stepped
    have tail (fine : property next) := ih next (kept _ _ _ initial holds fine stepped) fine later
    simp only [Everywhere, Meets, stepped, Option.some.injEq, forall_eq', holds, true_and]
    constructor
    · intro all
      have fine : property next := by cases rest <;> first | exact all | exact all.1
      exact ⟨head.mp fine, (tail fine).mp all⟩
    · rintro ⟨meets, others⟩
      exact (tail (head.mpr meets)).mpr others

def Once (step : State → Action → Option State) (property : State → Prop) : State → List Action → Prop
  | state, [] => property state
  | state, action :: rest =>
      property state ∨ ∃ next, step state action = some next ∧ Once step property next rest

instance decidableOnce (step : State → Action → Option State) (property : State → Prop)
    [DecidablePred property] : (state : State) → (actions : List Action) →
      Decidable (Once step property state actions)
  | state, [] => inferInstanceAs (Decidable (property state))
  | state, action :: rest =>
      match stepped : step state action with
      | none => decidable_of_iff (property state) (by simp [Once, stepped])
      | some next =>
          have := decidableOnce step property next rest
          decidable_of_iff (property state ∨ Once step property next rest) (by simp [Once, stepped])

theorem once_append {step : State → Action → Option State} {property : State → Prop} (state : State)
    (first second : List Action) (once : Once step property state first) :
    Once step property state (first ++ second) := by
  induction first generalizing state with
  | nil => cases second <;> first | exact once | exact .inl once
  | cons action rest ih => exact once.imp id fun ⟨next, stepped, later⟩ => ⟨next, stepped, ih next later⟩

theorem once_mono {step : State → Action → Option State} {strong weak : State → Prop}
    (weaker : ∀ state, strong state → weak state) (state : State) (actions : List Action)
    (once : Once step strong state actions) : Once step weak state actions := by
  induction actions generalizing state with
  | nil => exact weaker state once
  | cons action rest ih =>
    exact once.imp (weaker state) fun ⟨next, stepped, later⟩ => ⟨next, stepped, ih next later⟩

theorem once_final {step : State → Action → Option State} {property : State → Prop} (state : State) {final : State}
    (actions : List Action) (reached : run step state actions = some final) (holds : property final) :
    Once step property state actions := by
  induction actions generalizing state with
  | nil =>
    rw [run_nil, Option.some.injEq] at reached
    exact reached ▸ holds
  | cons action rest ih =>
    obtain ⟨next, stepped, later⟩ := (run_cons ..).mp reached
    exact .inr ⟨next, stepped, ih next later⟩

theorem run_history {step : State → Action → Option State} {condition : State → Action → Prop}
    (Invariant : List Action → State → Prop) {state : State} (initial : Invariant [] state)
    (preserved : ∀ done current action next, run step state done = some current → Invariant done current →
      condition current action → step current action = some next → Invariant (done ++ [action]) next)
    (actions : List Action) (final : State) (meets : Meets step condition state actions)
    (reached : run step state actions = some final) : Invariant actions final := by
  induction actions using List.reverseRecOn generalizing final with
  | nil =>
    rw [run_nil, Option.some.injEq] at reached
    exact reached ▸ initial
  | append_singleton done action ih =>
    obtain ⟨current, before, last⟩ := (run_append ..).mp reached
    obtain ⟨earlier, now⟩ := (meets_append condition state done [action] before).mp meets
    exact preserved done current action final before (ih current earlier before) now.1
      ((run_singleton ..).mp last)

end Transition
