import Mathlib.Algebra.Group.Int.Defs
import Mathlib.Algebra.Group.Nat.Defs
import Mathlib.Tactic.Common

/-! Integers of a fixed width that keep their sign beside their magnitude. -/

namespace UtispaceChain.Lib

/-- A type of integers that cuts an integer down to what it can hold. -/
class FixedWidth (S : Type) where
  value : S → Int
  cut : Int → S

instance {w : Nat} : FixedWidth (BitVec w) := ⟨fun a => a.toNat, BitVec.ofInt w⟩

structure SignMagnitude (w : Nat) where
  value : Int
  small : value.natAbs < 2 ^ w

namespace SignMagnitude

variable {w : Nat} {v : Int}

theorem natAbs_cut (w : Nat) (v : Int) : (v.sign * (v.natAbs % 2 ^ w : Nat)).natAbs < 2 ^ w := by
  have low : v.natAbs % 2 ^ w < 2 ^ w := Nat.mod_lt _ (Nat.two_pow_pos w)
  rw [Int.natAbs_mul, Int.natAbs_natCast]
  rcases Int.lt_trichotomy v 0 with negative | rfl | positive
  · rwa [Int.sign_eq_neg_one_of_neg negative, Int.natAbs_neg, Int.natAbs_one, Nat.one_mul]
  · simpa using Nat.two_pow_pos w
  · rwa [Int.sign_eq_one_of_pos positive, Int.natAbs_one, Nat.one_mul]

def ofInt (w : Nat) (v : Int) : SignMagnitude w :=
  ⟨v.sign * (v.natAbs % 2 ^ w : Nat), natAbs_cut w v⟩

instance : FixedWidth (SignMagnitude w) := ⟨value, ofInt w⟩

def div (a b : SignMagnitude w) : SignMagnitude w := ofInt w (a.value.tdiv b.value)

def mod (a b : SignMagnitude w) : SignMagnitude w := ofInt w (a.value.tmod b.value)

theorem value_ofInt (small : v.natAbs < 2 ^ w) : (ofInt w v).value = v := by
  change v.sign * (v.natAbs % 2 ^ w : Nat) = v
  rw [Nat.mod_eq_of_lt small]
  exact Int.sign_mul_natAbs v

theorem value_div (a b : SignMagnitude w) : (a.div b).value = a.value.tdiv b.value := by
  apply value_ofInt
  rw [Int.natAbs_tdiv]
  exact Nat.lt_of_le_of_lt (Nat.div_le_self _ _) a.small

theorem value_mod (a b : SignMagnitude w) : (a.mod b).value = a.value.tmod b.value := by
  apply value_ofInt
  rw [Int.natAbs_tmod]
  exact Nat.lt_of_le_of_lt (Nat.mod_le _ _) a.small

end SignMagnitude

end UtispaceChain.Lib
