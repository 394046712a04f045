import Mathlib.Data.List.Forall2
import Mathlib.Tactic.Common

/-! Records of slots and tails: the slot of an item holds a word, or tells where the tail of the
item begins. -/

namespace UtispaceChain.Lib

inductive Item (α : Type)
  | word (slot : List α)
  | tail (data : List α)

namespace Item

variable {α : Type} {place place' : Nat → List α} {width start : Nat} {items : List (Item α)}

def tailed : Item α → List α
  | .word _ => []
  | .tail data => data

def tails (items : List (Item α)) : List α := items.flatMap tailed

/-- The slots, when the next tail begins at `start`. -/
def slots (place : Nat → List α) : Nat → List (Item α) → List (List α)
  | _, [] => []
  | start, .word slot :: items => slot :: slots place start items
  | start, .tail data :: items => place start :: slots place (start + data.length) items

def starts : Nat → List (Item α) → List Nat
  | _, [] => []
  | start, .word _ :: items => starts start items
  | start, .tail data :: items => start :: starts (start + data.length) items

def record (place : Nat → List α) (width : Nat) (items : List (Item α)) : List α :=
  (slots place (width * items.length) items).flatten ++ tails items

def Wide (width : Nat) (items : List (Item α)) : Prop :=
  ∀ slot, .word slot ∈ items → slot.length = width

@[simp] theorem tails_nil : tails ([] : List (Item α)) = [] := rfl

@[simp] theorem tails_word (slot : List α) (items : List (Item α)) :
    tails (.word slot :: items) = tails items := rfl

@[simp] theorem tails_tail (data : List α) (items : List (Item α)) :
    tails (.tail data :: items) = data ++ tails items := rfl

@[simp] theorem length_slots (place : Nat → List α) (start : Nat) (items : List (Item α)) :
    (slots place start items).length = items.length := by
  induction items generalizing start with
  | nil => rfl
  | cons item items ih => cases item <;> simp [slots, ih]

theorem Wide.tail {item : Item α} (wide : Wide width (item :: items)) : Wide width items :=
  fun slot member => wide slot (List.mem_cons_of_mem _ member)

theorem length_flatten_slots (placed : ∀ n, (place n).length = width) (wide : Wide width items)
    (start : Nat) :
    (slots place start items).flatten.length = width * items.length := by
  induction items generalizing start with
  | nil => rfl
  | cons item items ih =>
      cases item with
      | word slot =>
          rw [slots, List.flatten_cons, List.length_append, ih wide.tail,
            wide slot List.mem_cons_self, List.length_cons, Nat.mul_succ, Nat.add_comm]
      | tail data =>
          rw [slots, List.flatten_cons, List.length_append, ih wide.tail, placed, List.length_cons,
            Nat.mul_succ, Nat.add_comm]

theorem slots_congr (same : ∀ n ∈ starts start items, place n = place' n) :
    slots place start items = slots place' start items := by
  induction items generalizing start with
  | nil => rfl
  | cons item items ih =>
      cases item with
      | word slot => rw [slots, slots, ih same]
      | tail data =>
          rw [slots, slots, same start List.mem_cons_self,
            ih fun n member => same n (List.mem_cons_of_mem _ member)]

theorem le_of_mem_starts {n : Nat} (member : n ∈ starts start items) :
    n ≤ start + (tails items).length := by
  induction items generalizing start with
  | nil => cases member
  | cons item items ih =>
      cases item with
      | word slot => exact ih member
      | tail data =>
          rw [tails_tail, List.length_append]
          rcases List.mem_cons.mp member with rfl | later
          · exact Nat.le_add_right _ _
          · have bound := ih later
            omega

/-! Reading a record item by item -/

/-- In the record, the slots of these items stand from the slot with this index on, and their tails
at `start`. -/
structure Stands (place : Nat → List α) (width : Nat) (whole : List α) (index start : Nat)
    (items : List (Item α)) :
    Prop where
  heads : ∃ front back, whole = front ++ ((slots place start items).flatten ++ back) ∧
    front.length = width * index
  tailed : ∃ front, whole = front ++ tails items ∧ front.length = start

theorem stands_record (placed : ∀ n, (place n).length = width) (wide : Wide width items) :
    Stands place width (record place width items) 0 (width * items.length) items where
  heads := ⟨[], tails items, rfl, rfl⟩
  tailed := ⟨_, rfl, length_flatten_slots placed wide _⟩

variable {whole : List α} {index : Nat}

theorem Stands.word {slot : List α}
    (stands : Stands place width whole index start (.word slot :: items))
    (wide : slot.length = width) :
    (∃ front back, whole = front ++ (slot ++ back) ∧ front.length = width * index) ∧
      Stands place width whole (index + 1) start items := by
  rcases stands.heads with ⟨front, back, split, size⟩
  have apart : whole = front ++ (slot ++ ((slots place start items).flatten ++ back)) := by
    rw [split, slots, List.flatten_cons, List.append_assoc]
  refine ⟨⟨front, _, apart, size⟩, ⟨⟨front ++ slot, back, ?_, ?_⟩, stands.tailed⟩⟩
  · rw [apart, List.append_assoc]
  · rw [List.length_append, size, wide, Nat.mul_succ]

theorem Stands.tail {data : List α}
    (stands : Stands place width whole index start (.tail data :: items))
    (placed : ∀ n, (place n).length = width) :
    (∃ front back, whole = front ++ (place start ++ back) ∧ front.length = width * index) ∧
      (∃ front back, whole = front ++ (data ++ back) ∧ front.length = start) ∧
      Stands place width whole (index + 1) (start + data.length) items := by
  rcases stands.heads with ⟨front, back, split, size⟩
  rcases stands.tailed with ⟨before, split', size'⟩
  have apart : whole =
      front ++ (place start ++ ((slots place (start + data.length) items).flatten ++ back)) := by
    rw [split, slots, List.flatten_cons, List.append_assoc]
  refine ⟨⟨front, _, apart, size⟩, ⟨before, _, split', size'⟩,
    ⟨⟨front ++ place start, back, ?_, ?_⟩, before ++ data, ?_, ?_⟩⟩
  · rw [apart, List.append_assoc]
  · rw [List.length_append, size, placed, Nat.mul_succ]
  · rw [split', tails_tail, List.append_assoc]
  · rw [List.length_append, size']

/-! Slots that are not of the same width -/

/-- Where the second stands behind the start of the first, the first ends before the second. -/
def Lags (a b : List α) : Prop :=
  ∀ front back back', a ++ back = front ++ (b ++ back') → a.length < front.length + b.length

theorem slots_eq_of_record_eq {as bs : List (List α)}
    (paired : List.Forall₂ (fun a b => a.length = b.length ∨ Lags a b) as bs) (front back : List α)
    (same : as.flatten ++ back = front ++ (bs.flatten ++ back)) : front = [] ∧ as = bs := by
  induction paired generalizing front with
  | nil => exact ⟨List.self_eq_append_left.mp same, rfl⟩
  | @cons a b as bs pair _ ih =>
      rw [List.flatten_cons, List.flatten_cons, List.append_assoc, List.append_assoc] at same
      have within : a.length ≤ (front ++ b).length := by
        rw [List.length_append]
        rcases pair with same_width | lags
        · omega
        · exact Nat.le_of_lt (lags front _ _ same)
      -- what the second has shown and the first has not
      have later : as.flatten ++ back = (front ++ b).drop a.length ++ (bs.flatten ++ back) := by
        have dropped := congrArg (List.drop a.length) same
        rw [List.drop_left, ← List.append_assoc, List.drop_append_of_le_length within] at dropped
        exact dropped
      rcases ih _ later with ⟨none_, rfl⟩
      have ahead : (front ++ b).length ≤ a.length := List.drop_eq_nil_iff.mp none_
      rw [List.length_append] at ahead
      rcases pair with same_width | lags
      · have empty : front = [] := List.eq_nil_of_length_eq_zero (by omega)
        subst empty
        exact ⟨rfl, congrArg (· :: as) (List.append_inj_left same same_width)⟩
      · exact absurd (lags front _ _ same) (Nat.not_lt.mpr (by omega))

end Item

end UtispaceChain.Lib
