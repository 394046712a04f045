import Mathlib.Data.Finset.Card
import Mathlib.Data.Finset.Range
import Mathlib.Tactic.Common

/-! Quorums of `n - f` members out of `n`, with `f = (n - 1) / 3`. -/

namespace UtispaceChain.Lib

def faultBound (n : Nat) : Nat := (n - 1) / 3

def quorumSize (n : Nat) : Nat := n - faultBound n

theorem faultBound_lt (n : Nat) (some : 1 ≤ n) : 3 * faultBound n < n := by
  unfold faultBound
  omega

theorem quorum_overlap (n : Nat) (some : 1 ≤ n) (left right : Finset Nat)
    (leftMembers : left ⊆ Finset.range n) (rightMembers : right ⊆ Finset.range n)
    (leftSize : quorumSize n ≤ left.card) (rightSize : quorumSize n ≤ right.card) :
    faultBound n < (left ∩ right).card := by
  have total : (left ∪ right).card ≤ n := by
    have inside := Finset.card_le_card (Finset.union_subset leftMembers rightMembers)
    simpa using inside
  have counted := Finset.card_union_add_card_inter left right
  have third := faultBound_lt n some
  unfold quorumSize at leftSize rightSize
  omega

theorem quorum_common_honest (n : Nat) (some : 1 ≤ n) (left right faulty : Finset Nat)
    (leftMembers : left ⊆ Finset.range n) (rightMembers : right ⊆ Finset.range n)
    (leftSize : quorumSize n ≤ left.card) (rightSize : quorumSize n ≤ right.card)
    (few : faulty.card ≤ faultBound n) :
    ∃ member, member ∈ left ∧ member ∈ right ∧ member ∉ faulty := by
  have overlap := quorum_overlap n some left right leftMembers rightMembers leftSize rightSize
  obtain ⟨member, inside, outside⟩ :=
    Finset.exists_mem_notMem_of_card_lt_card (lt_of_le_of_lt few overlap)
  have both := Finset.mem_inter.mp inside
  exact ⟨member, both.1, both.2, outside⟩

end UtispaceChain.Lib
