import Mathlib.Data.Nat.Digits.Lemmas
import Mathlib.Tactic.Common
import Mathlib.Tactic.Ring

/-! Big-endian byte strings of natural numbers. -/

namespace UtispaceChain

abbrev Bytes := List UInt8

instance : LawfulBEq Bytes := inferInstance

namespace Lib

def fromBigEndian (bytes : Bytes) : Nat :=
  bytes.foldl (fun value byte => value * 256 + byte.toNat) 0

/-- The shortest big-endian string of a number; zero is the empty string. -/
def toCompactBigEndian (n : Nat) : Bytes :=
  (Nat.digits 256 n).reverse.map UInt8.ofNat

/-- The last `width` bytes of the big-endian expansion. -/
def toBigEndian (width n : Nat) : Bytes :=
  (List.range width).map fun i => UInt8.ofNat (n / 256 ^ (width - 1 - i))

@[simp] theorem toBigEndian_length (width n : Nat) : (toBigEndian width n).length = width := by
  simp [toBigEndian]

theorem toBigEndian_succ (width n : Nat) :
    toBigEndian (width + 1) n = toBigEndian width (n / 256) ++ [UInt8.ofNat n] := by
  unfold toBigEndian
  rw [List.range_succ, List.map_append]
  congr 1
  · refine List.map_congr_left fun i member => ?_
    have inside : i < width := List.mem_range.mp member
    have power : width + 1 - 1 - i = (width - 1 - i) + 1 := by omega
    rw [power, Nat.pow_succ', Nat.div_div_eq_div_mul]
  · simp

theorem fromBigEndian_append_singleton (bytes : Bytes) (byte : UInt8) :
    fromBigEndian (bytes ++ [byte]) = fromBigEndian bytes * 256 + byte.toNat := by
  simp [fromBigEndian]

theorem fromBigEndian_toBigEndian (width n : Nat) (bound : n < 256 ^ width) :
    fromBigEndian (toBigEndian width n) = n := by
  induction width generalizing n with
  | zero =>
      have zero : n = 0 := by simpa using bound
      rw [zero]
      rfl
  | succ width ih =>
      have quotient : n / 256 < 256 ^ width := by
        rw [Nat.div_lt_iff_lt_mul (by decide), ← Nat.pow_succ]
        exact bound
      have digit : (UInt8.ofNat n).toNat = n % 256 := UInt8.toNat_ofNat'
      rw [toBigEndian_succ, fromBigEndian_append_singleton, ih _ quotient, digit]
      omega

theorem toBigEndian_fromBigEndian (bytes : Bytes) :
    toBigEndian bytes.length (fromBigEndian bytes) = bytes := by
  induction bytes using List.reverseRecOn with
  | nil => rfl
  | append_singleton front last ih =>
      have bound : last.toNat < 256 := last.toNat_lt
      have quotient : (fromBigEndian front * 256 + last.toNat) / 256 = fromBigEndian front := by
        omega
      have byte : UInt8.ofNat (fromBigEndian front * 256 + last.toNat) = last := by
        apply UInt8.toNat_inj.mp
        rw [UInt8.toNat_ofNat']
        omega
      rw [List.length_append, List.length_singleton, fromBigEndian_append_singleton,
        toBigEndian_succ, quotient, ih, byte]

theorem toCompactBigEndian_zero : toCompactBigEndian 0 = [] := rfl

theorem toCompactBigEndian_pos (n : Nat) (pos : 0 < n) :
    toCompactBigEndian n = toCompactBigEndian (n / 256) ++ [UInt8.ofNat n] := by
  unfold toCompactBigEndian
  rw [Nat.digits_def' (by decide) pos]
  have byte : UInt8.ofNat (n % 256) = UInt8.ofNat n := by
    apply UInt8.toNat_inj.mp
    simp
  simp [byte]

theorem fromBigEndian_toCompact (n : Nat) : fromBigEndian (toCompactBigEndian n) = n := by
  induction n using Nat.strongRecOn with
  | ind n ih =>
      rcases Nat.eq_zero_or_pos n with zero | pos
      · subst n
        rfl
      · rw [toCompactBigEndian_pos n pos, fromBigEndian_append_singleton, ih (n / 256) (by omega),
          UInt8.toNat_ofNat']
        omega

theorem toCompactBigEndian_injective : Function.Injective toCompactBigEndian := by
  intro m n same
  rw [← fromBigEndian_toCompact m, ← fromBigEndian_toCompact n, same]

theorem toCompactBigEndian_length_le (width n : Nat) (bound : n < 256 ^ width) :
    (toCompactBigEndian n).length ≤ width := by
  rw [toCompactBigEndian, List.length_map, List.length_reverse]
  exact (Nat.digits_length_le_iff (by decide) n).mpr bound

theorem fromBigEndian_cons (byte : UInt8) (bytes : Bytes) :
    fromBigEndian (byte :: bytes) = byte.toNat * 256 ^ bytes.length + fromBigEndian bytes := by
  induction bytes using List.reverseRecOn with
  | nil => simp [fromBigEndian]
  | append_singleton front last ih =>
      rw [← List.cons_append, fromBigEndian_append_singleton, ih, fromBigEndian_append_singleton,
        List.length_append, List.length_singleton, Nat.pow_succ]
      ring

theorem fromBigEndian_lt (bytes : Bytes) : fromBigEndian bytes < 256 ^ bytes.length := by
  induction bytes using List.reverseRecOn with
  | nil => decide
  | append_singleton front last ih =>
      rw [fromBigEndian_append_singleton, List.length_append, List.length_singleton, Nat.pow_succ]
      have bound : last.toNat < 256 := last.toNat_lt
      omega

theorem toCompact_fromBigEndian (bytes : Bytes)
    (leading : ∀ byte rest, bytes = byte :: rest → byte ≠ 0) :
    toCompactBigEndian (fromBigEndian bytes) = bytes := by
  induction bytes using List.reverseRecOn with
  | nil => rfl
  | append_singleton front last ih =>
      have bound : last.toNat < 256 := last.toNat_lt
      have frontLeading : ∀ byte rest, front = byte :: rest → byte ≠ 0 := by
        intro byte rest shape
        exact leading byte (rest ++ [last]) (by rw [shape, List.cons_append])
      have positive : 0 < fromBigEndian front * 256 + last.toNat := by
        cases front with
        | nil =>
            have nonzero : last ≠ 0 := leading last [] rfl
            have value : last.toNat ≠ 0 :=
              fun zero => nonzero (UInt8.toNat_inj.mp (by simpa using zero))
            omega
        | cons first rest =>
            have nonzero : first ≠ 0 := frontLeading first rest rfl
            have value : first.toNat ≠ 0 :=
              fun zero => nonzero (UInt8.toNat_inj.mp (by simpa using zero))
            have power : 0 < 256 ^ rest.length := Nat.pow_pos (by decide)
            have product : 0 < first.toNat * 256 ^ rest.length :=
              Nat.mul_pos (Nat.pos_of_ne_zero value) power
            rw [fromBigEndian_cons]
            omega
      have quotient : (fromBigEndian front * 256 + last.toNat) / 256 = fromBigEndian front := by
        omega
      have byte : UInt8.ofNat (fromBigEndian front * 256 + last.toNat) = last := by
        apply UInt8.toNat_inj.mp
        rw [UInt8.toNat_ofNat']
        omega
      rw [fromBigEndian_append_singleton, toCompactBigEndian_pos _ positive, quotient, byte,
        ih frontLeading]

theorem toCompact_leading (n : Nat) (byte : UInt8) (rest : Bytes)
    (shape : toCompactBigEndian n = byte :: rest) : byte ≠ 0 := by
  intro zero
  have value : fromBigEndian rest = n := by
    have whole := fromBigEndian_toCompact n
    rw [shape, fromBigEndian_cons, zero] at whole
    simpa using whole
  have shorter : (toCompactBigEndian n).length ≤ rest.length :=
    toCompactBigEndian_length_le rest.length n (value ▸ fromBigEndian_lt rest)
  rw [shape, List.length_cons] at shorter
  omega

end Lib

end UtispaceChain
