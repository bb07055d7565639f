import Mathlib.Order.Lattice
import Mathlib.Data.List.Perm.Basic

set_option autoImplicit false

namespace Least

variable {α : Type} [LinearOrder α]

def keep (blank value next : α) : α :=
  if value = blank ∨ next < value then next else value

def Of (blank : α) (seen : List α) (value : α) : Prop :=
  seen = [] ∧ value = blank ∨ value ∈ seen ∧ ∀ other ∈ seen, value ≤ other

variable {blank value next : α} {seen : List α}

theorem of_keep (named : ∀ other ∈ seen, other ≠ blank) (least : Of blank seen value) :
    Of blank (seen ++ [next]) (keep blank value next) := by
  right
  unfold keep
  rcases least with ⟨rfl, rfl⟩ | ⟨member, lower⟩
  · simp
  · have present : value ≠ blank := named value member
    split_ifs with better
    · have less : next < value := better.resolve_left present
      refine ⟨by simp, fun other inside => ?_⟩
      rcases List.mem_append.mp inside with old | new
      · exact le_trans (le_of_lt less) (lower other old)
      · rw [List.mem_singleton.mp new]
    · refine ⟨by simp [member], fun other inside => ?_⟩
      rcases List.mem_append.mp inside with old | new
      · exact lower other old
      · rw [List.mem_singleton.mp new]
        exact not_lt.mp fun less => better (.inr less)

theorem of_foldl (more : List α) (named : ∀ other ∈ seen ++ more, other ≠ blank) (least : Of blank seen value) :
    Of blank (seen ++ more) (more.foldl (keep blank) value) := by
  induction more generalizing seen value with
  | nil => simpa using least
  | cons next more ih =>
    have first : Of blank (seen ++ [next]) (keep blank value next) :=
      of_keep (fun other inside => named other (by simp [inside])) least
    rw [List.append_cons] at named ⊢
    exact ih named first

theorem of_unique {others : List α} {other : α} (same : ∀ item, item ∈ seen ↔ item ∈ others)
    (left : Of blank seen value) (right : Of blank others other) : value = other := by
  rcases left with ⟨rfl, rfl⟩ | ⟨member, lower⟩
  · rcases right with ⟨_, rfl⟩ | ⟨inside, _⟩
    · rfl
    · exact absurd ((same other).mpr inside) List.not_mem_nil
  · rcases right with ⟨rfl, _⟩ | ⟨inside, below⟩
    · exact absurd ((same value).mp member) List.not_mem_nil
    · exact le_antisymm (lower other ((same other).mpr inside)) (below value ((same value).mp member))

theorem of_le_iff (named : ∀ other ∈ seen, other ≠ blank) (least : Of blank seen value) :
    ¬ (value ≠ blank ∧ value < next) ↔ ∀ other ∈ seen, next ≤ other := by
  rcases least with ⟨rfl, rfl⟩ | ⟨member, lower⟩
  · simp
  · have present : value ≠ blank := named value member
    constructor
    · intro refused other inside
      exact le_trans (not_lt.mp fun less => refused ⟨present, less⟩) (lower other inside)
    · rintro below ⟨_, less⟩
      exact absurd less (not_lt.mpr (below value member))

theorem of_blank_iff (named : ∀ other ∈ seen, other ≠ blank) (least : Of blank seen value) :
    value = blank ↔ seen = [] := by
  rcases least with ⟨rfl, rfl⟩ | ⟨member, _⟩
  · simp
  · refine ⟨fun none => absurd none (named value member), ?_⟩
    rintro rfl
    cases member

end Least
