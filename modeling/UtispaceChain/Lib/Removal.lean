import Mathlib.Algebra.GroupWithZero.Nat
import Mathlib.Data.List.TakeWhile

/-! Removing from an array in place: what is kept is shifted to the front by moves, and the places
behind it hold what was there, or what a move has left of it. -/

namespace UtispaceChain.Lib

variable {A : Type} (moved : A → A) (p : A → Bool) (q : List A)

def removeIf : List A × List A :=
  let kept := q.filter fun x => !p x
  (kept, (q.drop kept.length).map fun x => if p x then x else moved x)

def removesTail : Bool := (q.dropWhile fun x => !p x).all p

theorem removeIf_kept_sublist : (removeIf moved p q).1.Sublist q := List.filter_sublist

theorem removeIf_length : (removeIf moved p q).1.length + (removeIf moved p q).2.length =
    q.length := by
  have shorter : (q.filter fun x => !p x).length ≤ q.length := List.length_filter_le _ _
  simp only [removeIf, List.length_map, List.length_drop]
  omega

theorem removeIf_none (h : (removeIf moved p q).2 = []) : (removeIf moved p q).1 = q := by
  have full := removeIf_length moved p q
  rw [h, List.length_nil, Nat.add_zero] at full
  exact (removeIf_kept_sublist moved p q).eq_of_length full

theorem removesTail_split (h : removesTail p q = true) :
    ∃ kept gone, q = kept ++ gone ∧ (∀ x ∈ kept, p x = false) ∧ ∀ x ∈ gone, p x = true := by
  refine ⟨q.takeWhile fun x => !p x, q.dropWhile fun x => !p x, ?_, fun x hx => ?_,
    List.all_eq_true.mp h⟩
  · exact (List.takeWhile_append_dropWhile).symm
  · have stays := List.mem_takeWhile_imp (p := fun x => !p x) hx
    simpa using stays

theorem removeIf_append (kept gone : List A) (stays : ∀ x ∈ kept, p x = false)
    (goes : ∀ x ∈ gone, p x = true) :
    removeIf moved p (kept ++ gone) = (kept, gone) := by
  have front : (kept ++ gone).filter (fun x => !p x) = kept := by
    rw [List.filter_append, List.filter_eq_self.mpr, List.filter_eq_nil_iff.mpr, List.append_nil]
    · intro x hx
      simp [goes x hx]
    · intro x hx
      simp [stays x hx]
  have behind : gone.map (fun x => if p x then x else moved x) = gone := by
    calc
      _ = gone.map id := List.map_congr_left fun x hx => by simp [goes x hx]
      _ = gone := List.map_id gone
  simp only [removeIf, front, List.drop_left, behind]

/-- What is removed but stands in front of the last places: moves write over it. -/
def overwritten : List A := (q.take (q.filter fun x => !p x).length).filter p

theorem removesTail_iff : removesTail p q = true ↔
    ∀ x ∈ q.drop (q.filter fun x => !p x).length, p x = true := by
  constructor
  · intro h x member
    rcases removesTail_split p q h with ⟨kept, gone, rfl, stays, goes⟩
    have front : (kept ++ gone).filter (fun x => !p x) = kept :=
      congrArg Prod.fst (removeIf_append id p kept gone stays goes)
    rw [front, List.drop_left] at member
    exact goes x member
  · intro h
    have behind : (q.drop (q.filter fun x => !p x).length).filter (fun x => !p x) = [] :=
      List.filter_eq_nil_iff.mpr fun x member => by simp [h x member]
    have split : q.filter (fun x => !p x) = (q.take (q.filter fun x => !p x).length).filter
        fun x => !p x := by
      calc
        _ = ((q.take (q.filter fun x => !p x).length) ++
          q.drop (q.filter fun x => !p x).length).filter fun x => !p x := by
          rw [List.take_append_drop]
        _ = _ := by rw [List.filter_append, behind, List.append_nil]
    have full : ((q.take (q.filter fun x => !p x).length).filter fun x => !p x).length =
        (q.take (q.filter fun x => !p x).length).length := by
      rw [← split, List.length_take, Nat.min_eq_left (List.length_filter_le _ _)]
    have stays := List.length_filter_eq_length_iff.mp full
    have tail : q.dropWhile (fun x => !p x) = (q.drop (q.filter fun x => !p x).length).dropWhile
        fun x => !p x := by
      calc
        _ = ((q.take (q.filter fun x => !p x).length) ++
          q.drop (q.filter fun x => !p x).length).dropWhile fun x => !p x := by
          rw [List.take_append_drop]
        _ = _ := List.dropWhile_append_of_pos stays
    rw [removesTail, tail]
    exact List.all_eq_true.mpr fun x member => h x (List.dropWhile_sublist _ |>.subset member)

theorem overwritten_of_tail (h : removesTail p q = true) : overwritten p q = [] := by
  rcases removesTail_split p q h with ⟨kept, gone, rfl, stays, goes⟩
  have front : (kept ++ gone).filter (fun x => !p x) = kept :=
    congrArg Prod.fst (removeIf_append id p kept gone stays goes)
  rw [overwritten, front, List.take_left]
  exact List.filter_eq_nil_iff.mpr fun x member => by simp [stays x member]

theorem removeIf_exact (blind : ∀ x, p (moved x) = p x) :
    (removeIf moved p q).2 = q.filter p ↔ removesTail p q = true := by
  constructor
  · intro same
    rw [removesTail_iff]
    intro x member
    have there : (if p x then x else moved x) ∈ (removeIf moved p q).2 := List.mem_map_of_mem member
    rw [same] at there
    have taken := (List.mem_filter.mp there).2
    by_cases here : p x = true
    · exact here
    · rw [if_neg here, blind] at taken
      exact taken
  · intro h
    rcases removesTail_split p q h with ⟨kept, gone, rfl, stays, goes⟩
    rw [removeIf_append moved p kept gone stays goes, List.filter_append,
      List.filter_eq_nil_iff.mpr (by simpa using stays), List.filter_eq_self.mpr goes,
      List.nil_append]

theorem removeIf_weight (weight : A → Nat) (light : ∀ x, weight (moved x) = 0) :
    ((removeIf moved p q).2.map weight).sum + ((overwritten p q).map weight).sum =
      ((q.filter p).map weight).sum := by
  have places : ∀ l : List A, ((l.map fun x => if p x then x else moved x).map weight).sum =
      ((l.filter p).map weight).sum := by
    intro l
    induction l with
    | nil => rfl
    | cons x l ih =>
        by_cases here : p x = true
        · simp [here, ← ih]
        · simp [here, light, ← ih]
  rw [removeIf, places, overwritten, Nat.add_comm, ← List.sum_append, ← List.map_append,
    ← List.filter_append, List.take_append_drop]

end UtispaceChain.Lib
