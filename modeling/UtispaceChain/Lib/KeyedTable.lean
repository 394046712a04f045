import Mathlib.Data.List.Nodup
import Mathlib.Data.Finset.Card
import Mathlib.Tactic.Common

/-! Finite tables whose entries determine their own key.

A map that is only ever written as `table[key a] = a` is the list of its
values with pairwise distinct keys. -/

namespace UtispaceChain.Lib

structure KeyedTable (α : Type) {κ : Type} (key : α → κ) where
  entries : List α
  nodup : (entries.map key).Nodup

namespace KeyedTable

variable {α κ : Type} {key : α → κ}

def empty : KeyedTable α key := ⟨[], List.nodup_nil⟩

def size (table : KeyedTable α key) (p : α → Bool) : Nat :=
  (table.entries.filter p).length

/-- Keep the entries that satisfy `p`. -/
def keep (table : KeyedTable α key) (p : α → Bool) : KeyedTable α key :=
  ⟨table.entries.filter p, (table.nodup.sublist ((List.filter_sublist).map key))⟩

variable [DecidableEq κ]

def contains (table : KeyedTable α key) (k : κ) : Bool :=
  table.entries.any (fun a => decide (key a = k))

/-- Assignment through the subscript operator: the old value of the key is replaced. -/
def insert (table : KeyedTable α key) (a : α) : KeyedTable α key where
  entries := a :: table.entries.filter (fun b => decide (key b ≠ key a))
  nodup := by
    have rest := table.nodup.sublist ((List.filter_sublist
      (p := fun b => decide (key b ≠ key a)) (l := table.entries)).map key)
    rw [List.map_cons]
    refine List.nodup_cons.mpr ⟨?_, rest⟩
    intro member
    obtain ⟨b, inside, same⟩ := List.mem_map.mp member
    exact (of_decide_eq_true (List.mem_filter.mp inside).2) same

omit [DecidableEq κ] in
@[simp] theorem entries_empty : (empty : KeyedTable α key).entries = [] := rfl

omit [DecidableEq κ] in
@[simp] theorem size_empty (p : α → Bool) : (empty : KeyedTable α key).size p = 0 := rfl

omit [DecidableEq κ] in
@[simp] theorem mem_keep (table : KeyedTable α key) (p : α → Bool) (a : α) :
    a ∈ (table.keep p).entries ↔ a ∈ table.entries ∧ p a = true := by
  simp [keep]

theorem mem_insert (table : KeyedTable α key) (a b : α) :
    b ∈ (table.insert a).entries ↔ b = a ∨ (b ∈ table.entries ∧ key b ≠ key a) := by
  simp [insert]

theorem contains_iff (table : KeyedTable α key) (k : κ) :
    table.contains k = true ↔ ∃ a ∈ table.entries, key a = k := by
  simp [contains]

omit [DecidableEq κ] in
theorem size_keep (table : KeyedTable α key) (p q : α → Bool)
    (kept : ∀ a ∈ table.entries, p a = true → q a = true) :
    (table.keep q).size p = table.size p := by
  have same : (table.entries.filter q).filter p = table.entries.filter p := by
    rw [List.filter_filter]
    apply List.filter_congr
    intro a member
    cases counted : p a with
    | false => simp
    | true => simp [kept a member counted]
  simp only [size, keep, same]

theorem size_insert (table : KeyedTable α key) (p : α → Bool) (a : α)
    (fresh : ∀ b ∈ table.entries, key b ≠ key a) :
    (table.insert a).size p = table.size p + (if p a then 1 else 0) := by
  have same : table.entries.filter (fun b => decide (key b ≠ key a)) = table.entries := by
    apply List.filter_eq_self.mpr
    intro b member
    exact decide_eq_true (fresh b member)
  simp only [size, insert, same, List.filter_cons]
  cases p a <;> simp

omit [DecidableEq κ] in
theorem eq_of_key (table : KeyedTable α key) {a b : α} (left : a ∈ table.entries)
    (right : b ∈ table.entries) (same : key a = key b) : a = b :=
  List.inj_on_of_nodup_map table.nodup left right same

omit [DecidableEq κ] in
theorem size_pos_iff (table : KeyedTable α key) (p : α → Bool) :
    0 < table.size p ↔ ∃ a ∈ table.entries, p a = true := by
  rw [size, List.length_pos_iff_exists_mem]
  simp only [List.mem_filter]

omit [DecidableEq κ] in
theorem size_eq_one (table : KeyedTable α key) (p : α → Bool) (a : α) (member : a ∈ table.entries)
    (counted : p a = true) (alone : ∀ b ∈ table.entries, p b = true → b = a) :
    table.size p = 1 := by
  have nodup : (table.entries.filter p).Nodup := (List.Nodup.of_map key table.nodup).filter p
  have inside : a ∈ table.entries.filter p := List.mem_filter.mpr ⟨member, counted⟩
  have all : ∀ b ∈ table.entries.filter p, b = a := by
    intro b found
    exact alone b (List.mem_filter.mp found).1 (List.mem_filter.mp found).2
  have repeated := List.eq_replicate_of_mem all
  have small : (table.entries.filter p).length ≤ 1 := by
    rw [repeated] at nodup
    exact List.nodup_replicate.mp nodup
  have large := List.length_pos_of_mem inside
  rw [size]
  omega

end KeyedTable

end UtispaceChain.Lib
