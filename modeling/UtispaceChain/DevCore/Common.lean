import UtispaceChain.Lib.SignMagnitude

/-! `libdevcore/Common`: the signed numbers, and two's complement. -/

namespace UtispaceChain

open Lib

abbrev S256 := SignMagnitude 256

abbrev S512 := SignMagnitude 512

/-- `c_end`. -/
def wordEnd : Int := 2 ^ 256

def u2s (u : BitVec 256) : S256 :=
  if u.getLsbD 255 then .ofInt 256 (-(wordEnd - u.toNat)) else .ofInt 256 u.toNat

def s2u (u : S256) : BitVec 256 :=
  if 0 ≤ u.value then BitVec.ofInt 256 u.value else BitVec.ofInt 256 (wordEnd + u.value)

theorem value_u2s (u : BitVec 256) : (u2s u).value = u.toInt := by
  have width : u.toNat < 2 ^ 256 := u.isLt
  have sign : u.getLsbD 255 = decide (2 ^ 255 ≤ u.toNat) := u.msb_eq_decide
  rw [BitVec.toInt_eq_toNat_cond]
  unfold u2s wordEnd
  by_cases negative : 2 ^ 255 ≤ u.toNat
  · rw [sign, decide_eq_true negative, if_pos rfl, if_neg (by omega),
      SignMagnitude.value_ofInt (by omega)]
    omega
  · rw [sign, decide_eq_false negative, if_neg Bool.false_ne_true, if_pos (by omega),
      SignMagnitude.value_ofInt (by omega)]

theorem s2u_eq (u : S256) : s2u u = BitVec.ofInt 256 u.value := by
  unfold s2u wordEnd
  split
  case isTrue => rfl
  case isFalse =>
    apply BitVec.eq_of_toInt_eq
    rw [BitVec.toInt_ofInt, BitVec.toInt_ofInt]
    exact Int.add_bmod_left (2 ^ 256) u.value

end UtispaceChain
