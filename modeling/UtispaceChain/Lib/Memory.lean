import Mathlib.Tactic.Common
import UtispaceChain.Lib.BigEndian

/-! A byte memory that grows with zeros, over an unbounded memory that starts with zeros. -/

namespace UtispaceChain.Lib

def readBytes (byte : Nat → UInt8) (offset size : Nat) : Bytes :=
  (List.range size).map fun i => byte (offset + i)

def writeBytes (byte : Nat → UInt8) (offset : Nat) (bytes : Bytes) : Nat → UInt8 := fun i =>
  if offset ≤ i ∧ i < offset + bytes.length then bytes.getD (i - offset) 0 else byte i

structure Memory where
  size : Nat
  byte : Nat → UInt8
  zero : ∀ i, size ≤ i → byte i = 0

namespace Memory

def empty : Memory := ⟨0, fun _ => 0, fun _ _ => rfl⟩

def grow (size : Nat) (m : Memory) : Memory where
  size := max m.size size
  byte := m.byte
  zero i bound := m.zero i ((Nat.le_max_left _ _).trans bound)

def read (offset size : Nat) (m : Memory) : Bytes := readBytes m.byte offset size

def write (offset : Nat) (bytes : Bytes) (m : Memory) : Memory where
  size := m.size
  byte i := if i < m.size then writeBytes m.byte offset bytes i else 0
  zero _ bound := if_neg (Nat.not_lt.mpr bound)

@[simp] theorem grow_size (size : Nat) (m : Memory) : (m.grow size).size = max m.size size := rfl

@[simp] theorem grow_byte (size : Nat) (m : Memory) : (m.grow size).byte = m.byte := rfl

@[simp] theorem write_size (offset : Nat) (bytes : Bytes) (m : Memory) :
    (m.write offset bytes).size = m.size := rfl

theorem write_byte (offset : Nat) (bytes : Bytes) (m : Memory)
    (inside : bytes = [] ∨ offset + bytes.length ≤ m.size) :
    (m.write offset bytes).byte = writeBytes m.byte offset bytes := by
  funext i
  change (if i < m.size then writeBytes m.byte offset bytes i else 0) = _
  split
  case isTrue => rfl
  case isFalse outside =>
    rcases inside with rfl | inside
    · have never : ¬(offset ≤ i ∧ i < offset + ([] : Bytes).length) := by
        rintro ⟨low, high⟩
        rw [List.length_nil] at high
        omega
      rw [writeBytes, if_neg never, m.zero i (Nat.le_of_not_lt outside)]
    · have beyond : ¬(offset ≤ i ∧ i < offset + bytes.length) := by omega
      rw [writeBytes, if_neg beyond, m.zero i (Nat.le_of_not_lt outside)]

theorem length_read (offset size : Nat) (m : Memory) : (m.read offset size).length = size := by
  simp [read, readBytes]

end Memory

end UtispaceChain.Lib
