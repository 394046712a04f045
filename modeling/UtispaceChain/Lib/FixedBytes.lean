import UtispaceChain.Lib.BigEndian

/-! Byte strings of a fixed length, and byte strings combined bit by bit. -/

namespace UtispaceChain.Lib

abbrev FixedBytes (N : Nat) := {bytes : Bytes // bytes.length = N}

def zeros (count : Nat) : Bytes := List.replicate count 0

@[simp] theorem length_zeros (count : Nat) : (zeros count).length = count := List.length_replicate

/-- So many bytes of the source, with zeros behind them where it is shorter. -/
def populate (source : Bytes) (count : Nat) : FixedBytes count :=
  ⟨source.take count ++ List.replicate (count - source.length) 0, by
    rw [List.length_append, List.length_take, List.length_replicate]
    omega⟩

theorem populate_self {source : Bytes} {count : Nat} (size : source.length = count) :
    (populate source count).val = source := by
  simp only [populate]
  rw [List.take_of_length_le (Nat.le_of_eq size), size, Nat.sub_self, List.replicate_zero,
    List.append_nil]

theorem populate_val {N : Nat} (value : FixedBytes N) : populate value.val N = value :=
  Subtype.ext (populate_self value.property)

namespace FixedBytes

variable {N : Nat}

def xor (a b : FixedBytes N) : FixedBytes N := ⟨List.zipWith (· ^^^ ·) a.val b.val, by
  rw [List.length_zipWith, a.property, b.property, Nat.min_self]⟩

theorem xor_xor_cancel (a b : FixedBytes N) : (a.xor b).xor b = a := by
  apply Subtype.ext
  apply List.ext_getElem
  · rw [(a.xor b |>.xor b).property, a.property]
  · intro i _ _
    simp only [xor, List.getElem_zipWith, UInt8.xor_assoc, UInt8.xor_self, UInt8.xor_zero]

end FixedBytes

/-! A stream cipher: each byte is combined with the byte of the key stream at its position -/

def xorAt (keystream : Nat → UInt8) (position : Nat) (bytes : Bytes) : Bytes :=
  bytes.mapIdx fun i byte => byte ^^^ keystream (position + i)

variable {keystream : Nat → UInt8}

@[simp] theorem length_xorAt (position : Nat) (bytes : Bytes) :
    (xorAt keystream position bytes).length = bytes.length :=
  List.length_mapIdx

theorem xorAt_append (position : Nat) (front back : Bytes) :
    xorAt keystream position (front ++ back) =
    xorAt keystream position front ++ xorAt keystream (position + front.length) back := by
  simp only [xorAt, List.mapIdx_append, Nat.add_assoc, Nat.add_comm front.length]

theorem xorAt_xorAt (position : Nat) (bytes : Bytes) :
    xorAt keystream position (xorAt keystream position bytes) = bytes := by
  apply List.ext_getElem
  · simp only [length_xorAt]
  · intro i _ _
    simp only [xorAt, List.getElem_mapIdx, UInt8.xor_assoc, UInt8.xor_self, UInt8.xor_zero]

end UtispaceChain.Lib
