import UtispaceChain.Lib.BigEndian

/-! Hashes, keys and signatures. The three primitives come from libraries; a
fixed-size value is the number its bytes spell. -/

namespace UtispaceChain

abbrev H256 := Nat
abbrev Public := Nat
abbrev Secret := Nat
abbrev Signature := Nat

def Invalid256 : Nat := 2 ^ 256 - 1

def u256Add (a b : Nat) : Nat := (a + b) % 2 ^ 256

def u256Sub (a b : Nat) : Nat := if b ≤ a then a - b else a + (2 ^ 256 - b)

structure Crypto where
  sha3 : Bytes → H256
  recover : Signature → H256 → Public
  sign : Secret → H256 → Signature

def Crypto.verify (C : Crypto) (p : Public) (s : Signature) (hash : H256) : Bool :=
  if p = 0 then false else decide (p = C.recover s hash)

theorem Crypto.verify_iff (C : Crypto) (p : Public) (s : Signature) (hash : H256) :
    C.verify p s hash = true ↔ p ≠ 0 ∧ p = C.recover s hash := by
  unfold Crypto.verify
  by_cases zero : p = 0 <;> simp [zero]

theorem Crypto.verify_unique (C : Crypto) (p q : Public) (s : Signature) (hash : H256)
    (first : C.verify p s hash = true) (second : C.verify q s hash = true) : p = q := by
  have left := (C.verify_iff p s hash).mp first
  have right := (C.verify_iff q s hash).mp second
  rw [left.2, right.2]

namespace Crypto

/-- A small instance in which a key holder has four signatures of every hash, as ECDSA key
holders have many. Keys are below 16 and public. -/
def toy : Crypto where
  sha3 bytes := Lib.fromBigEndian (1 :: bytes)
  recover s hash := if s / 64 = hash then s % 16 else 0
  sign k hash := 64 * hash + k

theorem toy_sha3_injective : Function.Injective toy.sha3 := by
  intro left right same
  have leading : ∀ byte rest (tail : Bytes), 1 :: tail = byte :: rest → byte ≠ 0 := by
    intro byte rest tail shape
    rw [← (List.cons.inj shape).1]
    decide
  have first := Lib.toCompact_fromBigEndian (1 :: left) (fun byte rest => leading byte rest left)
  have second := Lib.toCompact_fromBigEndian (1 :: right) (fun byte rest => leading byte rest right)
  have digits : (1 :: left : Bytes) = 1 :: right := by
    rw [← first, ← second]
    exact congrArg Lib.toCompactBigEndian same
  exact (List.cons.inj digits).2

theorem toy_sha3_ne_zero (bytes : Bytes) : toy.sha3 bytes ≠ 0 := by
  have leading : 0 < 256 ^ bytes.length := Nat.pow_pos (by decide)
  have value : toy.sha3 bytes = 1 * 256 ^ bytes.length + Lib.fromBigEndian bytes :=
    Lib.fromBigEndian_cons 1 bytes
  rw [value, Nat.one_mul]
  exact Nat.ne_of_gt (Nat.add_pos_left leading _)

end Crypto

end UtispaceChain
