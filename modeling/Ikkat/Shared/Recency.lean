import Mathlib.Data.List.Basic

set_option autoImplicit false

namespace Recency

variable {Key : Type} [DecidableEq Key] {uses recent : List Key}

def touch (recent : List Key) (key : Key) : List Key := recent.erase key ++ [key]

-- The last use stands first in uses, and last in recent.
structure Sorted (uses recent : List Key) : Prop where
  distinct : recent.Nodup
  used : ∀ key ∈ recent, key ∈ uses
  ordered : recent.Pairwise fun earlier later => uses.idxOf later < uses.idxOf earlier

theorem mem_touch (recent : List Key) (key : Key) : key ∈ touch recent key := by
  simp [touch]

theorem mem_touch_of_mem {recent : List Key} (key : Key) {other : Key} (listed : other ∈ recent) : other ∈ touch recent key := by
  by_cases same : other = key
  · exact same ▸ mem_touch recent key
  · exact List.mem_append_left _ ((List.mem_erase_of_ne same).mpr listed)

theorem sorted_nil : Sorted ([] : List Key) [] := ⟨List.nodup_nil, by simp, .nil⟩

theorem Sorted.sublist (sorted : Sorted uses recent) (left : List Key) (kept : left.Sublist recent) :
    Sorted uses left :=
  ⟨sorted.distinct.sublist kept, fun key listed => sorted.used key (kept.subset listed), sorted.ordered.sublist kept⟩

theorem Sorted.touch (sorted : Sorted uses recent) (key : Key) : Sorted (key :: uses) (touch recent key) := by
  have others (other : Key) (listed : other ∈ recent.erase key) : other ∈ recent ∧ other ≠ key :=
    ((sorted.distinct.mem_erase_iff).mp listed).symm
  have later (other : Key) (listed : other ∈ recent.erase key) : (key :: uses).idxOf other = uses.idxOf other + 1 :=
    List.idxOf_cons_ne _ (others other listed).2.symm
  refine ⟨List.nodup_append.mpr ⟨sorted.distinct.erase key, List.pairwise_singleton .., ?_⟩, ?_,
    List.pairwise_append.mpr ⟨?_, List.pairwise_singleton .., ?_⟩⟩
  · rintro other listed last only rfl
    exact (others other listed).2 (List.mem_singleton.mp only)
  · intro other listed
    rcases List.mem_append.mp listed with before | only
    · exact List.mem_cons_of_mem _ (sorted.used other (others other before).1)
    · exact List.mem_singleton.mp only ▸ List.mem_cons_self
  · refine List.Pairwise.imp_of_mem ?_ (sorted.ordered.sublist List.erase_sublist)
    intro first second listed listed' before
    rw [later first listed, later second listed']
    exact Nat.succ_lt_succ before
  · intro other listed last only
    obtain rfl := List.mem_singleton.mp only
    rw [later other listed, List.idxOf_cons_self]
    exact Nat.succ_pos _

end Recency
