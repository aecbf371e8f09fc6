import Mathlib.Data.Finset.Card

/-! Majorities of a group of replicas: two of them share a member. -/

namespace Abcperf.Lib

structure Majority (n quorum : Nat) (members : Finset Nat) : Prop where
  below : members ⊆ Finset.range n
  enough : quorum ≤ members.card

namespace Majority

variable {n quorum : Nat} {left right : Finset Nat}

theorem meets (isLeft : Majority n quorum left) (isRight : Majority n quorum right)
    (overlapping : n < 2 * quorum) : ∃ id ∈ left, id ∈ right := by
  have many : (Finset.range n).card < left.card + right.card := by
    have := isLeft.enough
    have := isRight.enough
    rw [Finset.card_range]
    omega
  obtain ⟨id, both⟩ :=
    Finset.inter_nonempty_of_card_lt_card_add_card isLeft.below isRight.below many
  exact ⟨id, Finset.mem_inter.mp both⟩

theorem of_votes {Vote : Type} {voter : Vote → Nat} {votes : List Vote}
    (below : ∀ vote ∈ votes, voter vote < n) (distinct : (votes.map voter).Nodup)
    (enough : quorum ≤ votes.length) : Majority n quorum (votes.map voter).toFinset where
  below id member := by
    obtain ⟨vote, isVote, rfl⟩ := List.mem_map.mp (List.mem_toFinset.mp member)
    exact Finset.mem_range.mpr (below vote isVote)
  enough := by
    rwa [List.toFinset_card_of_nodup distinct, List.length_map]

end Majority

end Abcperf.Lib
