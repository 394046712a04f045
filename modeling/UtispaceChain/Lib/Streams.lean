import Mathlib.Data.List.Basic
import Mathlib.Logic.Function.Basic
import Mathlib.Tactic.Common

/-! Streams that share a channel: a table with an entry for each that is in progress, and what they
merge to. -/

namespace UtispaceChain.Lib

/-! A table whose entries have owners of their own -/

variable {ι K V : Type}

structure Owned (owners : ι → Option (K × V)) (table : K → Option V) : Prop where
  entry : ∀ k v, table k = some v ↔ ∃ i, owners i = some (k, v)
  apart : ∀ i j k v w, owners i = some (k, v) → owners j = some (k, w) → i = j

theorem owned_none : Owned (fun _ : ι => (none : Option (K × V))) fun _ => none :=
  ⟨by simp, by simp⟩

namespace Owned

variable {owners : ι → Option (K × V)} {table : K → Option V}

theorem absent (owned : Owned owners table) {k : K} (free : ∀ i v, owners i ≠ some (k, v)) :
    table k = none := by
  cases held : table k with
  | none => rfl
  | some v =>
      rcases (owned.entry k v).mp held with ⟨i, mine⟩
      exact absurd mine (free i v)

variable [DecidableEq ι] [DecidableEq K]

theorem set (owned : Owned owners table) {i : ι} {k : K} (v : V)
    (mine : ∀ k' w, owners i = some (k', w) → k' = k)
    (free : ∀ j w, owners j = some (k, w) → j = i) :
    Owned (Function.update owners i (some (k, v))) (Function.update table k (some v)) := by
  constructor
  · intro k' w
    by_cases here : k' = k
    · subst here
      rw [Function.update_self]
      constructor
      · rintro held
        cases held
        exact ⟨i, Function.update_self ..⟩
      · rintro ⟨j, owner⟩
        by_cases same : j = i
        · subst same
          rw [Function.update_self] at owner
          cases owner
          rfl
        · rw [Function.update_of_ne same] at owner
          exact absurd (free j w owner) same
    · rw [Function.update_of_ne here, owned.entry]
      constructor
      · rintro ⟨j, owner⟩
        have other : j ≠ i := by
          rintro rfl
          exact here (mine k' w owner)
        exact ⟨j, by rw [Function.update_of_ne other, owner]⟩
      · rintro ⟨j, owner⟩
        by_cases same : j = i
        · subst same
          rw [Function.update_self] at owner
          cases owner
          exact absurd rfl here
        · rw [Function.update_of_ne same] at owner
          exact ⟨j, owner⟩
  · intro a b k' w w' left right
    by_cases first : a = i
    · by_cases second : b = i
      · rw [first, second]
      · rw [first, Function.update_self] at left
        rw [Function.update_of_ne second] at right
        cases left
        exact absurd (free b w' right) second
    · by_cases second : b = i
      · rw [second, Function.update_self] at right
        rw [Function.update_of_ne first] at left
        cases right
        exact absurd (free a w left) first
      · rw [Function.update_of_ne first] at left
        rw [Function.update_of_ne second] at right
        exact owned.apart a b k' w w' left right

theorem clear (owned : Owned owners table) {i : ι} {k : K} {v : V} (mine : owners i = some (k, v)) :
    Owned (Function.update owners i none) (Function.update table k none) := by
  have others {j : ι} {k' : K} {w : V} (owner : Function.update owners i none j = some (k', w)) :
      j ≠ i ∧ owners j = some (k', w) := by
    by_cases same : j = i
    · rw [same, Function.update_self] at owner
      cases owner
    · exact ⟨same, by rwa [Function.update_of_ne same] at owner⟩
  constructor
  · intro k' w
    by_cases here : k' = k
    · subst here
      rw [Function.update_self]
      constructor
      · rintro held
        cases held
      · rintro ⟨j, owner⟩
        exact absurd (owned.apart j i k' w v (others owner).2 mine) (others owner).1
    · rw [Function.update_of_ne here, owned.entry]
      constructor
      · rintro ⟨j, owner⟩
        have other : j ≠ i := by
          rintro rfl
          rw [mine] at owner
          cases owner
          exact here rfl
        exact ⟨j, by rw [Function.update_of_ne other, owner]⟩
      · rintro ⟨j, owner⟩
        exact ⟨j, (others owner).2⟩
  · intro a b k' w w' left right
    exact owned.apart a b k' w w' (others left).2 (others right).2

end Owned

/-! Merged lists, in which each part keeps its order -/

variable {α : Type} [DecidableEq ι]

def Interleaves (parts : ι → List α) (merged : List α) : Prop :=
  ∃ labelled : List (ι × α), merged = labelled.map Prod.snd ∧
    ∀ i, parts i = (labelled.filter fun entry => entry.1 = i).map Prod.snd

theorem interleaves_nil : Interleaves (fun _ : ι => ([] : List α)) [] := ⟨[], rfl, fun _ => rfl⟩

theorem Interleaves.append {parts : ι → List α} {merged : List α}
    (interleaves : Interleaves parts merged) (i : ι) (more : List α) :
    Interleaves (Function.update parts i (parts i ++ more)) (merged ++ more) := by
  rcases interleaves with ⟨labelled, rfl, order⟩
  have back : (more.map (Prod.mk i)).map Prod.snd = more := by
    rw [List.map_map]
    exact List.map_id more
  refine ⟨labelled ++ more.map (Prod.mk i), ?_, ?_⟩
  · rw [List.map_append, back]
  · intro j
    rw [List.filter_append, List.map_append, ← order j]
    by_cases same : j = i
    · subst same
      rw [Function.update_self, List.filter_eq_self.mpr (by simp), back]
    · have others : (more.map (Prod.mk i)).filter (fun entry => entry.1 = j) = [] := by
        simp [List.filter_eq_nil_iff, Ne.symm same]
      rw [Function.update_of_ne same, others, List.map_nil, List.append_nil]

theorem Interleaves.mem {parts : ι → List α} {merged : List α}
    (interleaves : Interleaves parts merged) {a : α} (member : a ∈ merged) : ∃ i, a ∈ parts i := by
  rcases interleaves with ⟨labelled, rfl, order⟩
  rcases List.mem_map.mp member with ⟨⟨i, a⟩, entry, rfl⟩
  refine ⟨i, ?_⟩
  rw [order i]
  exact List.mem_map.mpr ⟨(i, a), List.mem_filter.mpr ⟨entry, by simp⟩, rfl⟩

end UtispaceChain.Lib
