import Mathlib.Data.List.TakeWhile
import Mathlib.Order.Lattice
import Mathlib.Tactic.Common

/-! Lists that are sorted by a key: what is below a bound stands in front, and the first elements
are the least. -/

namespace UtispaceChain.Lib

variable {K A : Type} [LinearOrder K] (key : A → K) {l : List A}
    (sorted : l.Pairwise fun a b => key a ≤ key b)

include sorted

theorem takeWhile_sorted (p : A → Bool) (below : ∀ a b, key a ≤ key b → p b = true → p a = true) :
    l.takeWhile p = l.filter p ∧ l.dropWhile p = l.filter fun x => !p x := by
  induction l with
  | nil => exact ⟨rfl, rfl⟩
  | cons a l ih =>
      rcases List.pairwise_cons.mp sorted with ⟨first, rest⟩
      by_cases here : p a = true
      · rcases ih rest with ⟨front, back⟩
        simp only [List.takeWhile_cons, List.dropWhile_cons, List.filter_cons, here, front, back,
          if_true, Bool.not_true, Bool.false_eq_true, if_false, and_self]
      · have none : ∀ b ∈ l, p b = false := fun b member => by
          by_contra there
          exact here (below a b (first b member) (by simpa using there))
        have away : l.filter p = [] :=
          List.filter_eq_nil_iff.mpr fun b member => by simp [none b member]
        have kept : l.filter (fun x => !p x) = l :=
          List.filter_eq_self.mpr fun b member => by simp [none b member]
        simp [here, away, kept]

theorem take_least (k : Nat) {x : A} (left : x ∈ l.drop k) : (l.take k).length = k ∧
    ∀ y ∈ l.take k, key y ≤ key x := by
  have more := List.length_pos_of_mem left
  rw [List.length_drop] at more
  refine ⟨List.length_take_of_le (by omega), fun y taken => ?_⟩
  rw [← List.take_append_drop k l] at sorted
  exact (List.pairwise_append.mp sorted).2.2 y taken x left

theorem take_bounded_iff (k : Nat) (bound : K) :
    ((l.take k).length = k ∧ ∀ y ∈ l.take k, key y ≤ bound) ↔
    k ≤ (l.filter fun y => decide (key y ≤ bound)).length := by
  constructor
  · rintro ⟨full, within⟩
    have all : (l.take k).filter (fun y => decide (key y ≤ bound)) = l.take k :=
      List.filter_eq_self.mpr fun y taken => decide_eq_true (within y taken)
    have part := ((List.take_sublist k l).filter fun y => decide (key y ≤ bound)).length_le
    rw [all, full] at part
    exact part
  · intro many
    have front := (takeWhile_sorted key sorted (fun y => decide (key y ≤ bound)) fun a b le there =>
      decide_eq_true (le_trans le (of_decide_eq_true there))).1
    rw [← front] at many
    have cut : l.take k = (l.takeWhile fun y => decide (key y ≤ bound)).take k := by
      conv_lhs =>
        rw [← List.takeWhile_append_dropWhile (p := fun y => decide (key y ≤ bound)) (l := l)]
      exact List.take_append_of_le_length many
    refine ⟨by rw [cut, List.length_take_of_le many], fun y taken => ?_⟩
    rw [cut] at taken
    have within :=
      List.mem_takeWhile_imp (p := fun y => decide (key y ≤ bound)) (List.mem_of_mem_take taken)
    exact of_decide_eq_true within

end UtispaceChain.Lib
