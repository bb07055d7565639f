import Mathlib.Data.Finset.Card
import Mathlib.Data.List.Infix

set_option autoImplicit false

namespace Quorum

variable {Node Entry : Type} [DecidableEq Node]

def Majority (members quorum : Finset Node) : Prop :=
  quorum ⊆ members ∧ members.card / 2 + 1 ≤ quorum.card

theorem majorities_meet (members first second : Finset Node) (left : Majority members first)
    (right : Majority members second) : (first ∩ second).Nonempty := by
  apply Finset.inter_nonempty_of_card_lt_card_add_card left.1 right.1
  have enough := Nat.add_le_add left.2 right.2
  omega

def Backed (members : Finset Node) (logs : Node → List Entry) (entries : List Entry) : Prop :=
  ∃ quorum, Majority members quorum ∧ ∀ node ∈ quorum, entries <+: logs node

theorem backed_comparable {members : Finset Node} {logs : Node → List Entry} {left right : List Entry}
    (first : Backed members logs left) (second : Backed members logs right) :
    left <+: right ∨ right <+: left := by
  obtain ⟨one, large, holds⟩ := first
  obtain ⟨two, big, has⟩ := second
  obtain ⟨node, member⟩ := majorities_meet members one two large big
  rw [Finset.mem_inter] at member
  exact List.prefix_or_prefix_of_prefix (holds node member.1) (has node member.2)

omit [DecidableEq Node] in
theorem backed_nil (members : Finset Node) (logs : Node → List Entry) (some_ : members.Nonempty) :
    Backed members logs [] := by
  have positive := some_.card_pos
  exact ⟨members, ⟨Finset.Subset.refl members, by omega⟩, fun _ _ => List.nil_prefix⟩

omit [DecidableEq Node] in
theorem backed_mono {members : Finset Node} {before after : Node → List Entry} {entries : List Entry}
    (grown : ∀ node, before node <+: after node) (backed : Backed members before entries) :
    Backed members after entries := by
  obtain ⟨quorum, large, holds⟩ := backed
  exact ⟨quorum, large, fun node member => (holds node member).trans (grown node)⟩

end Quorum
