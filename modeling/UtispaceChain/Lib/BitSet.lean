import Mathlib.Data.Nat.Bitwise
import Mathlib.Tactic.Common

/-! Finite sets of bits as natural numbers, united by `|||`. -/

namespace UtispaceChain.Lib

/-- All bits of `part` are set in `whole`. -/
def contains (whole part : Nat) : Bool := decide (whole &&& part = part)

theorem contains_iff_testBit (whole part : Nat) :
    contains whole part = true ↔ ∀ i, part.testBit i = true → whole.testBit i = true := by
  rw [contains, decide_eq_true_iff]
  constructor
  · intro same i set
    rw [← same, Nat.testBit_and, Bool.and_eq_true] at set
    exact set.1
  · intro below
    apply Nat.eq_of_testBit_eq
    intro i
    rw [Nat.testBit_and]
    cases set : part.testBit i with
    | false => simp
    | true => simp [below i set]

theorem contains_refl (whole : Nat) : contains whole whole = true :=
  (contains_iff_testBit _ _).mpr fun _ set => set

theorem contains_zero (whole : Nat) : contains whole 0 = true :=
  (contains_iff_testBit _ _).mpr fun i set => absurd set (by simp)

theorem contains_trans {whole middle part : Nat} (outer : contains whole middle = true)
    (inner : contains middle part = true) : contains whole part = true := by
  rw [contains_iff_testBit] at outer inner ⊢
  exact fun i set => outer i (inner i set)

@[simp] theorem contains_or (whole left right : Nat) :
    contains whole (left ||| right) = true ↔ contains whole left = true ∧
    contains whole right = true := by
  simp only [contains_iff_testBit, Nat.testBit_or, Bool.or_eq_true]
  constructor
  · exact fun both => ⟨fun i set => both i (Or.inl set), fun i set => both i (Or.inr set)⟩
  · rintro ⟨first, second⟩ i (set | set)
    · exact first i set
    · exact second i set

variable {α : Type} (bits : α → Nat)

def unite (start : Nat) (items : List α) : Nat :=
  items.foldl (fun set item => set ||| bits item) start

theorem unite_cons (start : Nat) (item : α) (items : List α) :
    unite bits start (item :: items) = unite bits (start ||| bits item) items := rfl

theorem contains_unite (whole start : Nat) (items : List α) :
    contains whole (unite bits start items) = true ↔
    contains whole start = true ∧ ∀ item ∈ items, contains whole (bits item) = true := by
  induction items generalizing start with
  | nil => simp [unite]
  | cons item items ih =>
      rw [unite_cons, ih, contains_or, List.forall_mem_cons, and_assoc]

theorem unite_contains_start (start : Nat) (items : List α) :
    contains (unite bits start items) start = true :=
  ((contains_unite bits _ start items).mp (contains_refl _)).1

theorem unite_contains (start : Nat) {items : List α} {item : α} (member : item ∈ items) :
    contains (unite bits start items) (bits item) = true :=
  ((contains_unite bits _ start items).mp (contains_refl _)).2 item member

end UtispaceChain.Lib
