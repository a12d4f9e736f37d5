import Mathlib.Data.Finset.Card
import Mathlib.Data.Fintype.Card

/-!
# Quorum — majorities of a finite set of servers
-/

namespace Lab6824.Lib

variable {α : Type*} [Fintype α] [DecidableEq α]

/-- More than half of all servers. -/
def Majority (Q : Finset α) : Prop :=
  Fintype.card α < 2 * Q.card

/-- Two majorities share a server. -/
theorem Majority.inter {Q R : Finset α} (hQ : Majority Q) (hR : Majority R) :
    ∃ z, z ∈ Q ∧ z ∈ R := by
  unfold Majority at hQ hR
  have hlt : (Finset.univ : Finset α).card < Q.card + R.card := by
    rw [Finset.card_univ]
    omega
  obtain ⟨z, hz⟩ := Finset.inter_nonempty_of_card_lt_card_add_card (Finset.subset_univ Q)
    (Finset.subset_univ R) hlt
  exact ⟨z, Finset.mem_inter.mp hz⟩

end Lab6824.Lib
