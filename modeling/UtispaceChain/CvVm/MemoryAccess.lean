import Mathlib.Data.BitVec
import UtispaceChain.CvVm.Steps

/-! What an instruction reads of the memory and writes there, against an unbounded memory and whole
operands. -/

namespace UtispaceChain.Evm

open Lib Accounts

/-- A part of the memory that an instruction reads or writes. What a call gives back may be shorter
than the place for it. -/
structure Region where
  writes : Bool
  whole : Bool
  offset : Nat
  size : Nat

/-- The regions of an instruction by its operands, where `place` tells the offset of a word or a
byte. -/
def Instruction.regions (place : U256 → Nat) (item : Nat → U256) : Instruction → List Region
  | .mload => [⟨false, true, place (item 0), 32⟩]
  | .mstore => [⟨true, true, place (item 0), 32⟩]
  | .mstore8 => [⟨true, true, place (item 0), 1⟩]
  | .sha3 | .log _ | .return => [⟨false, true, (item 0).toNat, (item 1).toNat⟩]
  | .create => [⟨false, true, (item 1).toNat, (item 2).toNat⟩]
  | .calldatacopy | .codecopy => [⟨true, true, (item 0).toNat, (item 2).toNat⟩]
  | .extcodecopy => [⟨true, true, (item 1).toNat, (item 3).toNat⟩]
  | .call | .callcode =>
      [⟨false, true, (item 3).toNat, (item 4).toNat⟩, ⟨true, false, (item 5).toNat, (item 6).toNat⟩]
  | .delegatecall =>
      [⟨false, true, (item 2).toNat, (item 3).toNat⟩, ⟨true, false, (item 4).toNat, (item 5).toNat⟩]
  | _ => []

def Instruction.Frames (op : Instruction) : Prop := op = .create ∨ op = .call ∨ op = .callcode ∨
  op = .delegatecall

/-- The access is to the bytes of the region and no others; a region of no bytes is nowhere. -/
structure Region.Served (before : Nat → UInt8) (r : Region) (a : Access) : Prop where
  writes : a.writes = r.writes
  short : a.bytes.length ≤ r.size
  whole : r.whole = true → a.bytes.length = r.size
  offset : a.bytes ≠ [] → a.offset = r.offset
  read : r.writes = false → a.bytes = readBytes before r.offset r.size

def Access.apply (byte : Nat → UInt8) (a : Access) : Nat → UInt8 :=
  if a.writes then writeBytes byte a.offset a.bytes else byte

/-- The memory is accessed as the regions say, and nowhere else, and within its size. -/
structure Accessed (regions : List Region) (before after : Memory) (accesses : List Access) :
    Prop where
  served : List.Forall₂ (Region.Served before.byte) regions accesses
  byte : after.byte = accesses.foldl Access.apply before.byte
  inside : ∀ a ∈ accesses, a.bytes = [] ∨ a.offset + a.bytes.length ≤ after.size

section Regions

variable {before mid after : Memory} {offset place size : Nat} {bytes : Bytes}

theorem accessed_none (same : after.byte = before.byte) : Accessed [] before after [] :=
  ⟨.nil, same, nofun⟩

theorem writeBytes_nil (byte : Nat → UInt8) (offset : Nat) : writeBytes byte offset [] = byte := by
  funext i
  unfold writeBytes
  rw [if_neg]
  rintro ⟨low, high⟩
  rw [List.length_nil] at high
  omega

theorem served_read (same : mid.byte = before.byte) (exact : 0 < size → offset = place) :
    Region.Served before.byte ⟨false, true, place, size⟩ ⟨false, offset, mid.read offset size⟩ := by
  have length : (mid.read offset size).length = size := mid.length_read offset size
  have there : size = 0 ∨ offset = place := by
    rcases Nat.eq_zero_or_pos size with none | some
    · exact .inl none
    · exact .inr (exact some)
  refine ⟨rfl, length.le, fun _ => length, fun some => ?_, fun _ => ?_⟩
  · refine there.resolve_left fun none => some ?_
    exact List.eq_nil_of_length_eq_zero (length.trans none)
  · change readBytes mid.byte offset size = _
    rw [same]
    rcases there with rfl | rfl <;> rfl

theorem accessed_read (same : after.byte = before.byte) (exact : 0 < size → offset = place)
    (inside : 0 < size → offset + size ≤ after.size) :
    Accessed [⟨false, true, place, size⟩] before after
      [⟨false, offset, after.read offset size⟩] := by
  refine ⟨.cons (served_read same exact) .nil, same, fun a member => ?_⟩
  rw [List.mem_singleton.mp member]
  have length : (after.read offset size).length = size := after.length_read offset size
  rcases Nat.eq_zero_or_pos size with none | some
  · exact .inl (List.eq_nil_of_length_eq_zero (length.trans none))
  · rw [length]
    exact .inr (inside some)

theorem write_inside (same : mid.byte = before.byte)
    (inside : bytes ≠ [] → offset + bytes.length ≤ mid.size) :
    (mid.write offset bytes).byte = writeBytes before.byte offset bytes := by
  rw [← same]
  refine mid.write_byte offset bytes ?_
  by_cases none : bytes = []
  · exact .inl none
  · exact .inr (inside none)

theorem accessed_write (same : mid.byte = before.byte) (length : bytes.length = size)
    (exact : 0 < size → offset = place) (inside : 0 < size → offset + size ≤ mid.size) :
    Accessed [⟨true, true, place, size⟩] before (mid.write offset bytes)
      [⟨true, offset, bytes⟩] := by
  have some : bytes ≠ [] → 0 < size := by
    intro some
    rw [← length]
    exact List.length_pos_iff.mpr some
  have within : bytes ≠ [] → offset + bytes.length ≤ mid.size :=
    fun bytes => length ▸ inside (some bytes)
  refine ⟨.cons ⟨rfl, length.le, fun _ => length, fun bytes => exact (some bytes), nofun⟩ .nil, ?_,
    ?_⟩
  · exact write_inside same within
  · intro a member
    rw [List.mem_singleton.mp member]
    by_cases none : bytes = []
    · exact .inl none
    · exact .inr (within none)

theorem accessed_exchange {inOff inPlace inSize outOff outPlace outSize : Nat}
    (same : mid.byte = before.byte) (input : 0 < inSize → inOff = inPlace ∧
      inPlace + inSize ≤ mid.size) (short : bytes.length ≤ outSize)
    (output : 0 < outSize → outOff = outPlace ∧ outPlace + outSize ≤ mid.size) :
    Accessed [⟨false, true, inPlace, inSize⟩, ⟨true, false, outPlace, outSize⟩] before
      (mid.write outOff bytes)
      [⟨false, inOff, mid.read inOff inSize⟩, ⟨true, outOff, bytes⟩] := by
  have length : (mid.read inOff inSize).length = inSize := mid.length_read inOff inSize
  have some : bytes ≠ [] → 0 < outSize := fun some => (List.length_pos_iff.mpr some).trans_le short
  have within : bytes ≠ [] → outOff + bytes.length ≤ mid.size := by
    intro bytes
    have place := output (some bytes)
    omega
  refine ⟨.cons (served_read same fun some => (input some).1) (.cons ?_ .nil),
    write_inside same within, ?_⟩
  · exact ⟨rfl, short, nofun, fun bytes => (output (some bytes)).1, nofun⟩
  · intro a member
    rcases List.mem_cons.mp member with rfl | member
    · rcases Nat.eq_zero_or_pos inSize with none | positive
      · exact .inl (List.eq_nil_of_length_eq_zero (length.trans none))
      · have place := input positive
        change _ ∨ inOff + (mid.read inOff inSize).length ≤ mid.size
        rw [length, place.1]
        exact .inr place.2
    · rw [List.mem_singleton.mp member]
      by_cases none : bytes = []
      · exact .inl none
      · exact .inr (within none)

end Regions

section Rules

variable {σ α : Type} {m n : VM σ} {face : Face σ}

/-- The memory has been made large enough; the operands are the same. -/
structure Grown (size : Nat) (m n : VM σ) : Prop where
  stack : n.stack = m.stack
  sp : n.sp = m.sp
  accesses : n.accesses = m.accesses
  mem : n.mem = m.mem.grow ((size + 31) / 32 * 32)

/-- The first `d` operands have been taken. -/
structure Shifted (d : Nat) (m n : VM σ) : Prop where
  item : ∀ k, n.item k = m.item (d + k)
  mem : n.mem = m.mem
  accesses : n.accesses = m.accesses

theorem Shifted.refl (m : VM σ) : Shifted 0 m m := ⟨fun k => by rw [Nat.zero_add], rfl, rfl⟩

theorem Shifted.trans {d e : Nat} {o : VM σ} (first : Shifted d m n) (second : Shifted e n o) :
    Shifted (d + e) m o :=
  ⟨fun k => by rw [second.item, first.item, Nat.add_assoc], second.mem.trans first.mem,
    second.accesses.trans first.accesses⟩

theorem ends_updateMem_grown {Q : Unit → VM σ → Prop} (small : m.newMemSize + 31 < 2 ^ 64)
    (good : ∀ n, Grown m.newMemSize m n → Q () n) : Ends (updateMem face) m Q fun _ _ => True := by
  have left : Leaves (fun n : VM σ => (n.stack, n.sp, n.accesses, n.mem, n.newMemSize))
      (updateGas face) :=
    leaves_updateGas face fun _ _ _ => rfl
  unfold updateMem setNewMemSize
  rw [ends_bind, ends_get, ends_bind]
  refine ends_add64 small ?_
  rw [ends_bind, ends_modify]
  refine left.next (fun _ n same => ?_) fun _ _ _ => trivial
  rw [ends_modify]
  refine good _ ⟨congrArg (fun v => v.1) same, congrArg (fun v => v.2.1) same,
    congrArg (fun v => v.2.2.1) same, ?_⟩
  have mem : n.mem = m.mem := congrArg (fun v => v.2.2.2.1) same
  have size : n.newMemSize = (m.newMemSize + 31) / 32 * 32 := congrArg (fun v => v.2.2.2.2) same
  change n.mem.grow n.newMemSize = _
  rw [mem, size]

theorem Grown.item {size : Nat} (grown : Grown size m n) (k : Nat) : n.item k = m.item k := by
  unfold VM.item
  rw [grown.stack, grown.sp]

theorem ends_grown {need : Nat} {f : Unit → M σ α} {Q : α → VM σ → Prop}
    (small : need + 31 < 2 ^ 64) (good : ∀ n, Grown need m n → Ends (f ()) n Q fun _ _ => True) :
    Ends (do setNewMemSize need; updateMem face; let u ← charge; f u) m Q fun _ _ => True := by
  unfold setNewMemSize
  rw [ends_bind, ends_modify, ends_bind]
  refine ends_updateMem_grown small fun n grown => ?_
  rw [ends_bind]
  refine ends_charge (fun _ => trivial) fun _ => good _ ?_
  exact ⟨grown.stack, grown.sp, grown.accesses, grown.mem⟩

def VM.bench (m : VM σ) : (Int → U256) × Int × Memory × List Access :=
  (m.stack, m.sp, m.mem, m.accesses)

theorem shifted_of_bench (same : n.bench = m.bench) : Shifted 0 m n := by
  have stack : n.stack = m.stack := congrArg (fun v => v.1) same
  have sp : n.sp = m.sp := congrArg (fun v => v.2.1) same
  refine ⟨fun k => ?_, congrArg (fun v => v.2.2.1) same, congrArg (fun v => v.2.2.2) same⟩
  unfold VM.item
  rw [stack, sp, Nat.zero_add]

theorem ends_bench {x : M σ α} {β : Type} {f : α → M σ β} {Q : β → VM σ → Prop}
    (leaves : Leaves VM.bench x) (good : ∀ a n, Shifted 0 m n → Ends (f a) n Q fun _ _ => True) :
    Ends (x >>= f) m Q fun _ _ => True :=
  leaves.next (fun a _ same => good a _ (shifted_of_bench same)) fun _ _ _ => trivial

theorem ends_peeked {β : Type} {k : Nat} {f : U256 → M σ β} {Q : β → VM σ → Prop}
    (good : ∀ n, Shifted 0 m n → Ends (f (m.item k)) n Q fun _ _ => True) :
    Ends (peek k >>= f) m Q fun _ _ => True := by
  rw [ends_bind, ends_peek]
  exact good _ (shifted_of_bench rfl)

theorem shifted_drop (m : VM σ) (d : Nat) (slots : List Int) :
    Shifted d m { m with sp := m.sp - d, slots } := by
  refine ⟨fun k => ?_, rfl, rfl⟩
  change m.stack (m.sp - d - k) = m.stack (m.sp - (d + k : Nat))
  congr 1
  omega

theorem ends_take {β : Type} {f : U256 → M σ β} {Q : β → VM σ → Prop}
    (good : ∀ n, Shifted 1 m n → Ends (f (m.item 0)) n Q fun _ _ => True) :
    Ends (take >>= f) m Q fun _ _ => True := by
  unfold take
  rw [ends_bind, ends_bind, ends_peek, ends_bind, ends_drop, ends_pure]
  exact good _ (shifted_drop m 1 _)

structure Sized (before after : Memory) : Prop where
  grows : before.size ≤ after.size
  words : 32 ∣ before.size → 32 ∣ after.size

theorem Sized.refl (before : Memory) : Sized before before := ⟨le_rfl, id⟩

theorem Grown.sized {size : Nat} (grown : Grown size m n) : Sized m.mem n.mem := by
  rw [grown.mem]
  refine ⟨le_max_left _ _, fun words => ?_⟩
  rcases max_choice m.mem.size ((size + 31) / 32 * 32) with same | same
  · rw [Memory.grow_size, same]
    exact words
  · rw [Memory.grow_size, same]
    exact Nat.dvd_mul_left 32 _

theorem Grown.byte {size : Nat} (grown : Grown size m n) : n.mem.byte = m.mem.byte := by
  rw [grown.mem]
  rfl

theorem Grown.enough {size : Nat} (grown : Grown size m n) : size ≤ n.mem.size := by
  rw [grown.mem, Memory.grow_size]
  have rounded : size ≤ (size + 31) / 32 * 32 := by omega
  exact rounded.trans (le_max_right _ _)

def VM.shelf (m : VM σ) : Memory × List Access := (m.mem, m.accesses)

structure Stored (need : Nat) (m o : VM σ) : Prop where
  accesses : o.accesses = m.accesses
  byte : o.mem.byte = m.mem.byte
  sized : Sized m.mem o.mem
  enough : need ≤ o.mem.size

theorem Stored.kept {need : Nat} {o : VM σ} (stored : Stored need m n) (same : o.shelf = n.shelf) :
    Stored need m o := by
  have mem : o.mem = n.mem := congrArg (fun v => v.1) same
  have accesses : o.accesses = n.accesses := congrArg (fun v => v.2) same
  exact ⟨accesses.trans stored.accesses, mem ▸ stored.byte, mem ▸ stored.sized, mem ▸ stored.enough⟩

structure Prepared (need d : Nat) (m o : VM σ) : Prop extends Stored need m o where
  item : ∀ k, o.item k = m.item (d + k)

theorem Shifted.grown {d need : Nat} {o : VM σ} (shifted : Shifted d m n) (grown : Grown need n o) :
    Prepared need d m o where
  item k := (grown.item k).trans (shifted.item k)
  accesses := grown.accesses.trans shifted.accesses
  byte := grown.byte.trans (congrArg Memory.byte shifted.mem)
  sized := shifted.mem ▸ grown.sized
  enough := grown.enough

theorem Prepared.shift {d e need : Nat} {o : VM σ} (prepared : Prepared need d m n)
    (shifted : Shifted e n o) :
    Prepared need (d + e) m o where
  toStored := prepared.kept (Prod.ext shifted.mem shifted.accesses)
  item k := by rw [shifted.item, prepared.item, Nat.add_assoc]

theorem Shifted.prepared {d e need : Nat} {o : VM σ} (shifted : Shifted d m n)
    (prepared : Prepared need e n o) :
    Prepared need (d + e) m o where
  accesses := prepared.accesses.trans shifted.accesses
  byte := prepared.byte.trans (congrArg Memory.byte shifted.mem)
  sized := shifted.mem ▸ prepared.sized
  enough := prepared.enough
  item k := by rw [prepared.item, shifted.item, Nat.add_assoc]

structure Needed (offset size : U256) (need : Nat) : Prop where
  bound : need ≤ 2 ^ 63 - 1
  sized : low64 size = size.toNat
  placed : 0 < size.toNat → low64 offset = offset.toNat
  inside : 0 < size.toNat → offset.toNat + size.toNat ≤ need

theorem ends_needed {offset size : U256} {β : Type} {f : Nat → M σ β} {Q : β → VM σ → Prop}
    (good : ∀ need, Needed offset size need → Ends (f need) m Q fun _ _ => True) :
    Ends (memNeed offset size >>= f) m Q fun _ _ => True := by
  rw [ends_bind]
  refine ends_memNeed trivial fun need same bound => good need ?_
  have word : size.toNat = 0 ↔ size = 0 := by
    constructor
    · intro none
      exact BitVec.eq_of_toNat_eq (none.trans rfl)
    · intro none
      rw [none]
      rfl
  by_cases none : size = 0
  · have zero : size.toNat = 0 := word.mpr none
    refine ⟨bound, ?_, fun some => absurd zero some.ne', fun some => absurd zero some.ne'⟩
    unfold low64
    rw [zero]
    rfl
  · rw [if_neg none] at same
    refine ⟨bound, Nat.mod_eq_of_lt (by omega), fun _ => Nat.mod_eq_of_lt (by omega),
      fun _ => same.ge⟩

end Rules

section Instructions

variable {σ α : Type} {m n : VM σ} (C : Crypto) (face : Face σ)

def Does (regions : List Region) (x : M σ α) (m : VM σ) : Prop :=
  Ends x m (fun _ n => Sized m.mem n.mem ∧ Accessed regions m.mem n.mem n.accesses) fun _ _ => True

theorem does_onward {regions : List Region} {x : M σ Unit} (does : Does regions x m) :
    Does regions (onward x) m := by
  unfold Does onward
  rw [ends_bind]
  exact Ends.mono does (fun _ _ done => done) fun _ _ _ => trivial

theorem shelf_blind : Blind (VM.shelf : VM σ → Memory × List Access) := fun _ _ _ _ _ => rfl

theorem does_nothing {x : M σ α} (fresh : m.accesses = []) (leaves : Leaves VM.shelf x) :
    Does [] x m := by
  refine (leaves m).mono (fun _ n same => ?_) fun _ _ _ => trivial
  have mem : n.mem = m.mem := congrArg (fun v => v.1) same
  have accesses : n.accesses = [] := (congrArg (fun v => v.2) same).trans fresh
  rw [mem, accesses]
  exact ⟨.refl _, accessed_none rfl⟩

theorem shelf_charge : Leaves VM.shelf (charge : M σ Unit) := leaves_charge fun _ _ => rfl

theorem shelf_onward {x : M σ Unit} (leaves : Leaves VM.shelf x) : Leaves VM.shelf (onward x) :=
  leaves_bind leaves fun _ => leaves_bind (leaves_advance (fun _ _ => rfl) 1) fun _ =>
    leaves_pure true

theorem shelf_plain {x : M σ Unit} (leaves : Leaves VM.shelf x) : Leaves VM.shelf (plain x) :=
  shelf_onward (leaves_bind shelf_charge fun _ => leaves)

theorem shelf_priced (gas : Nat) {x : M σ Unit} (leaves : Leaves VM.shelf x) :
    Leaves VM.shelf (priced gas x) := by
  unfold priced setRunGas
  refine shelf_onward
    (leaves_bind (leaves_toUint64 _) fun _ => leaves_bind (leaves_modify fun _ => rfl) fun _ => ?_)
  exact leaves_bind shelf_charge fun _ => leaves

theorem ends_access {k : Nat} {f : Unit → M σ α} {Q : α → VM σ → Prop} (short : k ≤ 32)
    (good : ∀ n, Grown ((m.item 0).toNat + k) m n → Ends (f ()) n Q fun _ _ => True) :
    Ends (do
      let a ← peek 0
      let offset ← toUint64 a.toNat
      let need ← add64 offset k
      setNewMemSize need
      updateMem face
      let u ← charge
      f u) m Q fun _ _ => True := by
  rw [ends_bind, ends_peek, ends_bind]
  refine ends_toUint64 (fun _ => trivial) fun small => ?_
  rw [ends_bind]
  refine ends_add64 (by omega) (ends_grown (by omega) fun n grown => good n ?_)
  exact ⟨grown.stack, grown.sp, grown.accesses, grown.mem⟩

theorem ends_read {need : Nat} {offset size : U256} {o : VM σ} {f : Bytes → M σ α}
    (fresh : m.accesses = []) (stored : Stored need m o) (needed : Needed offset size need)
    (rest : ∀ bytes, Leaves VM.shelf (f bytes)) :
    Ends (readMem (low64 offset) (low64 size) >>= f) o
      (fun _ p => Sized m.mem p.mem ∧
        Accessed [⟨false, true, offset.toNat, size.toNat⟩] m.mem p.mem p.accesses)
      fun _ _ => True := by
  rw [ends_bind, ends_readMem]
  refine (rest _ _).mono (fun _ p same => ?_) fun _ _ _ => trivial
  have mem : p.mem = o.mem := congrArg (fun v => v.1) same
  have accesses : p.accesses = o.accesses ++
      [⟨false, low64 offset, o.mem.read (low64 offset) (low64 size)⟩] :=
    congrArg (fun v => v.2) same
  rw [mem, accesses, stored.accesses, fresh, needed.sized]
  refine ⟨stored.sized, accessed_read stored.byte needed.placed fun some => ?_⟩
  rw [needed.placed some]
  exact (needed.inside some).trans stored.enough

theorem ends_write {need : Nat} {offset size : U256} {bytes : Bytes} {o : VM σ}
    (fresh : m.accesses = []) (stored : Stored need m o) (needed : Needed offset size need)
    (length : bytes.length = low64 size) :
    Ends (writeMem (low64 offset) bytes) o
      (fun _ p => Sized m.mem p.mem ∧
        Accessed [⟨true, true, offset.toNat, size.toNat⟩] m.mem p.mem p.accesses)
      fun _ _ => True := by
  rw [ends_writeMem]
  change Sized m.mem (o.mem.write _ _) ∧ Accessed _ m.mem (o.mem.write _ _) (o.accesses ++ _)
  rw [stored.accesses, fresh]
  refine ⟨⟨stored.sized.grows, stored.sized.words⟩, ?_⟩
  refine accessed_write stored.byte (length.trans needed.sized) needed.placed fun some => ?_
  rw [needed.placed some]
  exact (needed.inside some).trans stored.enough

theorem low32_le (a : U256) : low32 a ≤ a.toNat := Nat.mod_le _ _

theorem does_mload (fresh : m.accesses = []) :
    Does [⟨false, true, low32 (m.item 0), 32⟩] (mload face) m := by
  refine does_onward (ends_access face (by decide) fun n grown => ?_)
  rw [ends_bind, ends_peek, ends_bind, ends_readMem, ends_poke]
  refine ⟨grown.sized, ?_⟩
  change Accessed _ m.mem n.mem
    (n.accesses ++ [⟨false, low32 (n.item 0), n.mem.read (low32 (n.item 0)) 32⟩])
  rw [grown.accesses, fresh, grown.item]
  refine accessed_read grown.byte (fun _ => rfl) fun _ => ?_
  exact (Nat.add_le_add_right (low32_le _) 32).trans grown.enough

theorem length_bytesOf (v : U256) : (bytesOf v).length = 32 := by
  unfold bytesOf
  exact toBigEndian_length _ _

theorem does_mstore (fresh : m.accesses = []) :
    Does [⟨true, true, low32 (m.item 0), 32⟩] (mstore face) m := by
  refine does_onward (ends_access face (by decide) fun n grown => ?_)
  rw [ends_bind, ends_peek, ends_bind, ends_peek, ends_bind, ends_writeMem, ends_drop]
  refine ⟨⟨grown.sized.grows, grown.sized.words⟩, ?_⟩
  change Accessed _ m.mem (n.mem.write (low32 (n.item 0)) (bytesOf (n.item 1)))
    (n.accesses ++ [⟨true, low32 (n.item 0), bytesOf (n.item 1)⟩])
  rw [grown.accesses, fresh, grown.item 0]
  refine accessed_write grown.byte (length_bytesOf _) (fun _ => rfl) fun _ => ?_
  exact (Nat.add_le_add_right (low32_le _) 32).trans grown.enough

theorem does_mstore8 (fresh : m.accesses = []) :
    Does [⟨true, true, low32 (m.item 0), 1⟩] (mstore8 face) m := by
  refine does_onward (ends_access face (by decide) fun n grown => ?_)
  rw [ends_bind, ends_peek, ends_bind, ends_peek, ends_bind, ends_writeMem, ends_drop]
  refine ⟨⟨grown.sized.grows, grown.sized.words⟩, ?_⟩
  change Accessed _ m.mem (n.mem.write (low32 (n.item 0)) [UInt8.ofNat (n.item 1 &&& 0xff).toNat])
    (n.accesses ++ [⟨true, low32 (n.item 0), [UInt8.ofNat (n.item 1 &&& 0xff).toNat]⟩])
  rw [grown.accesses, fresh, grown.item 0]
  refine accessed_write grown.byte rfl (fun _ => rfl) fun _ => ?_
  exact (Nat.add_le_add_right (low32_le _) 1).trans grown.enough

theorem bench_setRunGas (gas : Nat) : Leaves VM.bench (setRunGas gas : M σ Unit) :=
  leaves_modify fun _ => rfl

theorem bench_setCopyMemSize (size : Nat) : Leaves VM.bench (setCopyMemSize size : M σ Unit) :=
  leaves_modify fun _ => rfl

theorem does_sha3 (fresh : m.accesses = []) :
    Does [⟨false, true, (m.item 0).toNat, (m.item 1).toNat⟩] (sha3 C face) m := by
  refine does_onward (ends_peeked fun n₁ s₁ => ends_bench (leaves_toUint64 _) fun gas n₂ s₂ => ?_)
  refine ends_bench (bench_setRunGas _) fun _ n₃ s₃ => ends_peeked fun n₄ s₄ => ends_peeked
    fun n₅ s₅ => ?_
  have to₃ := (s₁.trans s₂).trans s₃
  have to₅ := (to₃.trans s₄).trans s₅
  rw [(to₃.trans s₄).item, to₃.item]
  refine ends_needed fun need needed => ends_grown (by have := needed.bound; omega)
    fun n grown => ?_
  refine ends_take fun n₆ s₆ => ends_take fun n₇ s₇ => ?_
  have prepared := to₅.grown grown
  rw [s₆.item, prepared.item, prepared.item]
  exact ends_read fresh ((prepared.shift s₆).shift s₇).toStored needed fun _ => shelf_blind.put _

theorem bench_topics (count k : Nat) : Leaves VM.bench (topics count k : M σ (List H256)) := by
  induction count generalizing k with
  | zero => exact leaves_pure _
  | succ count ih =>
      exact leaves_bind (leaves_peek (fun _ _ => rfl) k) fun t => leaves_bind (ih _) fun rest =>
        leaves_pure _

theorem does_log (fresh : m.accesses = []) (k : Nat) :
    Does [⟨false, true, (m.item 0).toNat, (m.item 1).toNat⟩] (log face k) m := by
  refine does_onward ?_
  unfold Does logGasMem
  rw [ends_bind]
  refine ends_peeked fun n₁ s₁ => ends_peeked fun n₂ s₂ => ends_bench (leaves_toUint64 _)
    fun gas n₃ s₃ => ?_
  refine ends_bench (bench_setRunGas _) fun _ n₄ s₄ => ends_needed fun need needed => ?_
  unfold setNewMemSize
  rw [ends_bind, ends_modify]
  have to₄ := ((s₁.trans s₂).trans s₃).trans s₄
  have small : need + 31 < 2 ^ 64 := by
    have := needed.bound
    omega
  refine ends_updateMem_grown small fun n grown => ?_
  rw [ends_bind]
  refine ends_charge (fun _ => trivial) fun _ => ends_bench (bench_topics k 2) fun ts n₅ s₅ => ?_
  refine ends_peeked fun n₆ s₆ => ends_peeked fun n₇ s₇ => ?_
  have prepared : Prepared need _ m n :=
    to₄.grown ⟨grown.stack, grown.sp, grown.accesses, grown.mem⟩
  have prepared₅ : Prepared need _ m n₅ := prepared.shift ⟨s₅.item, s₅.mem, s₅.accesses⟩
  rw [s₆.item, prepared₅.item, prepared₅.item]
  rw [s₁.item] at needed
  refine ends_read fresh ((prepared₅.shift s₆).shift s₇).toStored needed fun _ => ?_
  exact leaves_bind (shelf_blind.ask _) fun _ => shelf_blind.drop _

theorem length_copied (data : Bytes) (index size : Nat) :
    (copied data index size).length = size := by
  have low : index % 2 ^ 64 ≤ index := Nat.mod_le _ _
  unfold copied
  simp only [List.length_append, List.length_take, List.length_drop, List.length_replicate]
  split
  · split
    · omega
    · omega
  · omega

theorem ends_copyDataToMemory {need d : Nat} {o : VM σ} (fresh : m.accesses = [])
    (prepared : Prepared need d m o) (needed : Needed (m.item d) (m.item (d + 2)) need)
    (data : Bytes) :
    Ends (copyDataToMemory data) o
      (fun _ p => Sized m.mem p.mem ∧
        Accessed [⟨true, true, (m.item d).toNat, (m.item (d + 2)).toNat⟩] m.mem p.mem p.accesses)
          fun _ _ => True := by
  unfold copyDataToMemory
  refine ends_take fun o₁ s₁ => ends_take fun o₂ s₂ => ends_take fun o₃ s₃ => ?_
  simp only [s₂.item, s₁.item, prepared.item]
  exact ends_write fresh (((prepared.shift s₁).shift s₂).shift s₃).toStored needed
    (length_copied _ _ _)

theorem does_copy (fresh : m.accesses = []) (data : Bytes) :
    Does [⟨true, true, (m.item 0).toNat, (m.item 2).toNat⟩] (copy face data) m := by
  refine does_onward (ends_peeked fun n₁ s₁ => ends_bench (leaves_toUint64 _) fun size n₂ s₂ => ?_)
  refine ends_bench (bench_setCopyMemSize _) fun _ n₃ s₃ => ends_peeked fun n₄ s₄ => ends_peeked
    fun n₅ s₅ => ?_
  have to₃ := (s₁.trans s₂).trans s₃
  have to₅ := (to₃.trans s₄).trans s₅
  rw [(to₃.trans s₄).item, to₃.item]
  refine ends_needed fun need needed => ends_grown (by have := needed.bound; omega)
    fun n grown => ?_
  exact ends_copyDataToMemory fresh (to₅.grown grown) needed data

theorem does_extcodecopy (fresh : m.accesses = []) :
    Does [⟨true, true, (m.item 1).toNat, (m.item 3).toNat⟩] (extcodecopy face) m := by
  refine does_onward (ends_bench (leaves_toUint64 _) fun gas n₁ s₁ => ends_bench (bench_setRunGas _)
    fun _ n₂ s₂ => ?_)
  refine ends_peeked fun n₃ s₃ => ends_bench (leaves_toUint64 _) fun size n₄ s₄ => ?_
  refine ends_bench (bench_setCopyMemSize _) fun _ n₅ s₅ => ends_peeked fun n₆ s₆ => ends_peeked
    fun n₇ s₇ => ?_
  have to₅ := (((s₁.trans s₂).trans s₃).trans s₄).trans s₅
  have to₇ := (to₅.trans s₆).trans s₇
  rw [(to₅.trans s₆).item, to₅.item]
  refine ends_needed fun need needed => ends_grown (by have := needed.bound; omega)
    fun n grown => ?_
  refine ends_peeked fun n₈ s₈ => ?_
  rw [ends_bind, ends_drop]
  have dropped := shifted_drop n₈ 1 n₈.slots
  have prepared := ((to₇.grown grown).shift s₈).shift dropped
  refine ends_bench (leaves_ask (fun _ _ => rfl) _) fun data n₉ s₉ => ?_
  exact ends_copyDataToMemory fresh (prepared.shift s₉) needed data

theorem does_return (fresh : m.accesses = []) :
    Does [⟨false, true, (m.item 0).toNat, (m.item 1).toNat⟩] (return_ face) m := by
  refine ends_peeked fun n₁ s₁ => ends_peeked fun n₂ s₂ => ?_
  rw [s₁.item]
  refine ends_needed fun need needed => ends_grown (by have := needed.bound; omega)
    fun n grown => ?_
  refine ends_take fun n₃ s₃ => ends_take fun n₄ s₄ => ?_
  have prepared := (s₁.trans s₂).grown grown
  rw [s₃.item, prepared.item, prepared.item]
  refine ends_read fresh ((prepared.shift s₃).shift s₄).toStored needed fun _ => ?_
  exact leaves_bind (leaves_modify fun _ => rfl) fun _ => leaves_pure false

/-- A frame is started, and has its memory, or it is refused and has none. -/
def Framed (regions : List Region) (x : M σ α) (m : VM σ) : Prop :=
  Ends x m (fun _ n => Sized m.mem n.mem ∧
    (Accessed regions m.mem n.mem n.accesses ∨ Accessed [] m.mem n.mem n.accesses)) fun _ _ => True

theorem framed_onward {regions : List Region} {x : M σ Unit} (framed : Framed regions x m) :
    Framed regions (onward x) m := by
  unfold Framed onward
  rw [ends_bind]
  exact Ends.mono framed (fun _ _ done => done) fun _ _ _ => trivial

theorem refused {need : Nat} {o : VM σ} {x : M σ α} (fresh : m.accesses = [])
    (stored : Stored need m o) (leaves : Leaves VM.shelf x) :
    Ends x o (fun _ p => Sized m.mem p.mem ∧ Accessed [] m.mem p.mem p.accesses)
      fun _ _ => True := by
  refine (leaves o).mono (fun _ p same => ?_) fun _ _ _ => trivial
  have after := stored.kept same
  rw [after.accesses, fresh]
  exact ⟨after.sized, accessed_none after.byte⟩

theorem ends_kept {need : Nat} {o : VM σ} {x : M σ α} {β : Type} {f : α → M σ β}
    {Q : β → VM σ → Prop} (stored : Stored need m o) (leaves : Leaves VM.shelf x)
    (good : ∀ a p, Stored need m p → Ends (f a) p Q fun _ _ => True) :
    Ends (x >>= f) o Q fun _ _ => True :=
  leaves.next (fun a _ same => good a _ (stored.kept same)) fun _ _ _ => trivial

theorem ends_createFrame {need : Nat} {offset size : U256} {o : VM σ} (fresh : m.accesses = [])
    (stored : Stored need m o) (needed : Needed offset size need) (endowment : U256) :
    Ends (createFrame face endowment (low64 offset) (low64 size)) o
      (fun _ p => Sized m.mem p.mem ∧
        Accessed [⟨false, true, offset.toNat, size.toNat⟩] m.mem p.mem p.accesses)
      fun _ _ => True := by
  unfold createFrame
  refine ends_kept stored (leaves_modify fun _ => rfl) fun _ o₁ stored₁ => ?_
  refine ends_kept stored₁ leaves_get fun _ o₂ stored₂ =>
    ends_kept stored₂ (leaves_modify fun _ => rfl) fun _ o₃ stored₃ => ?_
  refine ends_read fresh stored₃ needed fun _ => leaves_bind (shelf_blind.ask _) fun made => ?_
  refine leaves_bind (shelf_blind.poke 0 _) fun _ => leaves_bind (leaves_modify fun _ => rfl)
    fun _ => ?_
  exact leaves_modify fun _ => rfl

theorem framed_caseCreate (fresh : m.accesses = []) :
    Framed [⟨false, true, (m.item 1).toNat, (m.item 2).toNat⟩] (caseCreate face) m := by
  refine framed_onward (ends_peeked fun n₁ s₁ => ends_peeked fun n₂ s₂ => ?_)
  rw [s₁.item]
  refine ends_needed fun need needed => ?_
  unfold setNewMemSize
  rw [ends_bind, ends_modify, ends_bind]
  refine ends_toUint64 (fun _ => trivial) fun _ => ?_
  unfold setRunGas
  rw [ends_bind, ends_modify, ends_bind]
  have small : need + 31 < 2 ^ 64 := by
    have := needed.bound
    omega
  refine ends_updateMem_grown small fun n grown => ?_
  rw [ends_bind]
  refine ends_charge (fun _ => trivial) fun _ => ends_take fun n₃ s₃ => ends_take fun n₄ s₄ =>
    ends_take fun n₅ s₅ => ?_
  have prepared : Prepared need _ m n :=
    (s₁.trans s₂).grown ⟨grown.stack, grown.sp, grown.accesses, grown.mem⟩
  have prepared₃ : Prepared need _ m n₃ := prepared.shift ⟨s₃.item, s₃.mem, s₃.accesses⟩
  refine ends_bench (leaves_ask (fun _ _ => rfl) _) fun balance n₆ s₆ => ?_
  have prepared₆ := ((prepared₃.shift s₄).shift s₅).shift s₆
  rw [s₄.item, prepared₃.item, prepared₃.item]
  split
  · refine (ends_createFrame face fresh prepared₆.toStored needed _).mono
      (fun _ _ done => ⟨done.1, .inl done.2⟩)
      fun _ _ _ => trivial
  · refine (refused fresh prepared₆.toStored (shelf_blind.put 0)).mono
      (fun _ _ done => ⟨done.1, .inr done.2⟩)
      fun _ _ _ => trivial

theorem bench_callStaticGas (op : Instruction) : Leaves VM.bench (callStaticGas face op) := by
  have peeks : ∀ k, Leaves VM.bench (peek k : M σ U256) := leaves_peek fun _ _ => rfl
  have adds : ∀ gas, Leaves VM.bench (addRunGas gas : M σ Unit) := leaves_addRunGas fun _ _ _ => rfl
  unfold callStaticGas
  refine leaves_bind (leaves_toUint64 _) fun gas => leaves_bind (bench_setRunGas _) fun _ =>
    leaves_ite ?_ (leaves_pure _)
  refine leaves_bind (peeks 1) fun a => leaves_bind (leaves_ask (fun _ _ => rfl) _)
    fun existing => ?_
  refine leaves_bind (peeks 2) fun value => leaves_ite ?_ (leaves_pure _)
  exact leaves_bind (leaves_toUint64 _) adds

theorem bench_callValueGas (op : Instruction) : Leaves VM.bench (callValueGas face op) := by
  have adds : ∀ gas, Leaves VM.bench (addRunGas gas : M σ Unit) := leaves_addRunGas fun _ _ _ => rfl
  unfold callValueGas
  refine leaves_ite (leaves_pure _) (leaves_bind (leaves_peek (fun _ _ => rfl) 2)
    fun value => leaves_ite ?_ (leaves_pure _))
  exact leaves_bind (leaves_toUint64 _) adds

theorem bench_callGas : Leaves VM.bench (callGas face) :=
  leaves_bind leaves_get fun _ => leaves_bind (leaves_peek (fun _ _ => rfl) 0) fun _ =>
    leaves_pure _

theorem bench_callStipend (op : Instruction) (gas : U256) :
    Leaves VM.bench (callStipend face op gas) :=
  leaves_ite (leaves_pure _) (leaves_bind (leaves_peek (fun _ _ => rfl) 2) fun _ => leaves_pure _)

theorem Needed.more {offset size : U256} {need more : Nat} (needed : Needed offset size need)
    (le : need ≤ more) (bound : more ≤ 2 ^ 63 - 1) : Needed offset size more :=
  ⟨bound, needed.sized, needed.placed, fun some => (needed.inside some).trans le⟩

/-- The memory of a call is large enough for what it reads and for what it writes. -/
structure Arranged (k : Nat) (m : VM σ) (setup : CallSetup) (o : VM σ) : Prop where
  stored : ∃ need, Stored need m o ∧ Needed (m.item k) (m.item (k + 1)) need ∧
    Needed (m.item (k + 2)) (m.item (k + 3)) need
  input : setup.inOff = low64 (m.item k) ∧ setup.inSize = low64 (m.item (k + 1))
  output : setup.outOff = low64 (m.item (k + 2)) ∧ setup.outSize = low64 (m.item (k + 3))

theorem ends_callMem_grown {k : Nat} {β : Type} {f : Unit → M σ β} {Q : β → VM σ → Prop}
    (good : ∀ need n, Prepared need 0 m n → Needed (m.item (k + 2)) (m.item (k + 3)) need →
      Needed (m.item (k + 4)) (m.item (k + 5)) need → Ends (f ()) n Q fun _ _ => True) :
    Ends (do callMem (k + 3); updateMem face; let u ← charge; f u) m Q fun _ _ => True := by
  unfold callMem
  rw [ends_bind]
  refine ends_peeked fun n₁ s₁ => ends_peeked fun n₂ s₂ => ends_needed fun outNeed output => ?_
  refine ends_peeked fun n₃ s₃ => ends_peeked fun n₄ s₄ => ends_needed fun inNeed input => ?_
  have to₂ := s₁.trans s₂
  have to₃ := to₂.trans s₃
  rw [s₁.item, Nat.zero_add] at output
  rw [to₂.item, to₃.item, Nat.zero_add, Nat.zero_add] at input
  have bound : max outNeed inNeed ≤ 2 ^ 63 - 1 := max_le output.bound input.bound
  have small : max outNeed inNeed + 31 < 2 ^ 64 := by omega
  unfold setNewMemSize
  rw [ends_modify, ends_bind]
  refine ends_updateMem_grown small fun n grown => ?_
  rw [ends_bind]
  refine ends_charge (fun _ => trivial) fun _ => ?_
  have prepared : Prepared (max outNeed inNeed) _ m n :=
    (to₃.trans s₄).grown ⟨grown.stack, grown.sp, grown.accesses, grown.mem⟩
  refine good (max outNeed inNeed) _ ?_ (input.more (le_max_right _ _) bound)
    (output.more (le_max_left _ _) bound)
  exact ⟨prepared.toStored.kept rfl, prepared.item⟩

theorem ends_callValue (op : Instruction) {β : Type} {f : U256 × U256 → M σ β} {Q : β → VM σ → Prop}
    (good : ∀ v n, Shifted (if op = .delegatecall then 0 else 1) m n →
      Ends (f v) n Q fun _ _ => True) :
    Ends (callValue face op >>= f) m Q fun _ _ => True := by
  unfold callValue
  rw [ends_bind]
  split
  case isTrue same => exact good _ m (by rw [if_pos same]; exact .refl m)
  case isFalse other =>
    exact ends_take fun n shifted => good _ n (by rw [if_neg other]; exact shifted)

theorem ends_caseCallSetup_arranged (op : Instruction) :
    Ends (caseCallSetup face op) m (Arranged (if op = .delegatecall then 2 else 3) m)
      fun _ _ => True := by
  have sizes : (if op = .delegatecall then 3 else 4) = (if op = .delegatecall then 0 else 1) +
      3 := by split <;> rfl
  have first : (if op = .delegatecall then 2 else 3) = (if op = .delegatecall then 0 else 1) +
      2 := by split <;> rfl
  unfold caseCallSetup
  rw [sizes, first]
  refine ends_bench (bench_callStaticGas face op) fun _ n₁ s₁ =>
    ends_bench (bench_callValueGas face op) fun _ n₂ s₂ => ?_
  refine ends_callMem_grown face fun need n₃ prepared input output => ?_
  generalize shift : (if op = .delegatecall then 0 else 1) = e at *
  have items : ∀ k, n₂.item k = m.item k := fun k => by rw [(s₁.trans s₂).item, Nat.zero_add]
  rw [items, items] at input output
  refine ends_bench (bench_callGas face) fun gas n₄ s₄ => ends_bench (leaves_toUint64 _)
    fun runGas n₅ s₅ => ?_
  refine ends_bench (bench_setRunGas _) fun _ n₆ s₆ => ends_bench (leaves_charge fun _ _ => rfl)
    fun _ n₇ s₇ => ?_
  refine ends_bench (bench_callStipend face op gas) fun gas n₈ s₈ => ?_
  rw [ends_bind, ends_drop]
  refine ends_take fun n₉ s₉ => ends_callValue face op fun values n₁₀ s₁₀ => ?_
  refine ends_take fun n₁₁ s₁₁ => ends_take fun n₁₂ s₁₂ => ends_take fun n₁₃ s₁₃ => ends_take
    fun n₁₄ s₁₄ => ?_
  refine ends_bench (leaves_ask (fun _ _ => rfl) _) fun balance n₁₅ s₁₅ => ?_
  rw [shift] at s₁₀
  have to₈ := ((((s₁.trans s₂).prepared prepared).shift s₄).shift s₅).shift s₆
  have to₁₀ := ((((to₈.shift s₇).shift s₈).shift (shifted_drop n₈ 1 n₈.slots)).shift s₉).shift s₁₀
  have to₁₃ := ((to₁₀.shift s₁₁).shift s₁₂).shift s₁₃
  refine ⟨⟨need, ((to₁₃.shift s₁₄).shift s₁₅).toStored, input, output⟩, ⟨?_, ?_⟩, ?_, ?_⟩
  · exact congrArg low64 ((to₁₀.item 0).trans (congrArg m.item (by omega)))
  · exact congrArg low64 (((to₁₀.shift s₁₁).item 0).trans (congrArg m.item (by omega)))
  · exact congrArg low64 ((((to₁₀.shift s₁₁).shift s₁₂).item 0).trans (congrArg m.item (by omega)))
  · exact congrArg low64 ((to₁₃.item 0).trans (congrArg m.item (by omega)))

/-- What a call reads, and where what it gives back is put. -/
def callRegions (k : Nat) (item : Nat → U256) : List Region :=
  [⟨false, true, (item k).toNat, (item (k + 1)).toNat⟩,
    ⟨true, false, (item (k + 2)).toNat, (item (k + 3)).toNat⟩]

theorem ends_callFrame_arranged {k : Nat} {setup : CallSetup} {o : VM σ} (fresh : m.accesses = [])
    (arranged : Arranged k m setup o) :
    Ends (callFrame face setup) o
      (fun _ p => Sized m.mem p.mem ∧ Accessed (callRegions k m.item) m.mem p.mem p.accesses)
        fun _ _ => True := by
  rcases arranged.stored with ⟨need, stored, input, output⟩
  have placed : ∀ {offset size : U256}, Needed offset size need → 0 < size.toNat →
      low64 offset = offset.toNat ∧ offset.toNat + size.toNat ≤ o.mem.size := fun needed some =>
    ⟨needed.placed some, (needed.inside some).trans stored.enough⟩
  unfold callFrame
  rw [arranged.input.1, arranged.input.2, arranged.output.1, arranged.output.2, input.sized,
    output.sized, ends_bind, ends_readMem, ends_bind]
  refine ends_ask (fun _ => trivial) fun answer ext _ => ?_
  rw [ends_bind, ends_writeMem]
  have rest : Leaves VM.shelf (do put (ofBool answer.1); pure answer.2.1 : M σ U256) :=
    leaves_bind (shelf_blind.put _) fun _ => leaves_pure _
  refine (rest _).mono (fun _ p same => ?_) fun _ _ _ => trivial
  have mem : p.mem =
      o.mem.write (low64 (m.item (k + 2))) (answer.2.2.take (m.item (k + 3)).toNat) :=
    congrArg (fun v => v.1) same
  have accesses : p.accesses = o.accesses ++
      [⟨false, low64 (m.item k), o.mem.read (low64 (m.item k)) (m.item (k + 1)).toNat⟩] ++
      [⟨true, low64 (m.item (k + 2)), answer.2.2.take (m.item (k + 3)).toNat⟩] :=
        congrArg (fun v => v.2) same
  rw [mem, accesses, stored.accesses, fresh]
  refine ⟨⟨stored.sized.grows, stored.sized.words⟩, ?_⟩
  exact accessed_exchange stored.byte (placed input) (List.length_take_le _ _) (placed output)

theorem framed_caseCall (fresh : m.accesses = []) (op : Instruction) :
    Framed (callRegions (if op = .delegatecall then 2 else 3) m.item) (caseCall face op) m := by
  have gained : ∀ gas : U256, Leaves VM.shelf (do
      let m ← get
      let sum ← add64 m.ioGas (low64 gas)
      modify fun m => { m with ioGas := sum } : M σ Unit) := by
    intro gas
    exact leaves_bind leaves_get fun _ => leaves_bind (leaves_add64 (fun _ _ => rfl) _ _) fun _ =>
      leaves_modify fun _ => rfl
  unfold caseCall
  refine framed_onward ?_
  unfold Framed
  rw [ends_bind]
  refine (ends_caseCallSetup_arranged face op).mono (fun setup o arranged => ?_)
    fun _ _ _ => trivial
  rcases arranged.stored with ⟨need, stored, -, -⟩
  dsimp only
  split
  · rw [ends_bind]
    refine (ends_callFrame_arranged face fresh arranged).mono (fun gas p done => ?_)
      fun _ _ _ => trivial
    refine (gained gas p).mono (fun _ q same => ?_) fun _ _ _ => trivial
    have mem : q.mem = p.mem := congrArg (fun v => v.1) same
    have accesses : q.accesses = p.accesses := congrArg (fun v => v.2) same
    rw [mem, accesses]
    exact ⟨done.1, .inl done.2⟩
  · have rest :=
      leaves_bind (shelf_blind.put 0) fun _ => leaves_bind (leaves_pure setup.params.gas) gained
    exact (refused fresh stored rest).mono (fun _ _ done => ⟨done.1, .inr done.2⟩)
      fun _ _ _ => trivial

theorem shelf_jumpTo (dest : U256) (k : Nat) :
    Leaves VM.shelf (do
      let pc ← verifyJumpDest dest
      modify fun m => { m with pc }
      drop k
      pure true : M σ Bool) := by
  unfold verifyJumpDest
  refine leaves_bind (leaves_bind leaves_get fun m => leaves_ite (leaves_pure _) (leaves_throw _))
    fun pc => ?_
  refine leaves_bind (leaves_modify fun _ => rfl) fun _ => ?_
  exact leaves_bind (shelf_blind.drop k) fun _ => leaves_pure true

theorem shelf_push (k : Nat) : Leaves VM.shelf (push k : M σ Bool) := by
  refine leaves_bind shelf_charge fun _ => leaves_bind leaves_get fun m =>
    leaves_bind (shelf_blind.put _) fun _ => ?_
  exact leaves_bind (leaves_advance (fun _ _ => rfl) _) fun _ => leaves_pure true

theorem shelf_jump : Leaves VM.shelf (jump : M σ Bool) :=
  leaves_bind shelf_charge fun _ => leaves_bind (shelf_blind.peek 0) fun dest => shelf_jumpTo dest 1

theorem shelf_jumpi : Leaves VM.shelf (jumpi : M σ Bool) := by
  refine leaves_bind shelf_charge fun _ => leaves_bind (shelf_blind.peek 1) fun condition =>
    leaves_ite ?_ ?_
  · refine leaves_bind (leaves_advance (fun _ _ => rfl) 1) fun _ => ?_
    exact leaves_bind (shelf_blind.drop 2) fun _ => leaves_pure true
  · exact leaves_bind (shelf_blind.peek 0) fun dest => shelf_jumpTo dest 2

theorem shelf_setRunGas (gas : Nat) : Leaves VM.shelf (setRunGas gas : M σ Unit) :=
  leaves_modify fun _ => rfl

theorem shelf_exp : Leaves VM.shelf (exp face) := by
  refine shelf_onward (leaves_bind (shelf_blind.peek 1) fun expon => leaves_bind (leaves_toUint64 _)
    fun gas => ?_)
  refine leaves_bind (shelf_setRunGas _) fun _ => leaves_bind shelf_charge fun _ => ?_
  exact leaves_bind shelf_blind.take fun base => shelf_blind.poke 0 _

theorem shelf_sstore : Leaves VM.shelf (sstore face) := by
  have gas : Leaves VM.shelf (sstoreGas face) := by
    refine leaves_bind (shelf_blind.peek 0) fun key => leaves_bind (shelf_blind.ask _) fun old => ?_
    refine leaves_bind (shelf_blind.peek 1) fun v => leaves_ite (leaves_toUint64 _) ?_
    refine leaves_bind (shelf_blind.ask _) fun old => leaves_ite ?_ (leaves_toUint64 _)
    exact leaves_bind (leaves_toUint64 _) fun gas => leaves_bind (shelf_blind.ask _) fun _ =>
      leaves_pure gas
  refine shelf_onward (leaves_bind gas fun _ => leaves_bind (shelf_setRunGas _) fun _ => ?_)
  refine leaves_bind shelf_charge fun _ => leaves_bind (shelf_blind.peek 0) fun key => ?_
  exact leaves_bind (shelf_blind.peek 1) fun v => leaves_bind (shelf_blind.ask _) fun _ =>
    shelf_blind.drop 2

theorem shelf_suicide : Leaves VM.shelf (suicide face) := by
  have gas : ∀ dest, Leaves VM.shelf (suicideNewAccountGas face dest) := by
    intro dest
    refine leaves_bind (shelf_blind.ask _) fun balance => leaves_ite ?_ (leaves_pure 0)
    exact leaves_bind (shelf_blind.ask _) fun existing => leaves_pure _
  refine leaves_bind (leaves_toUint64 _) fun _ => leaves_bind (shelf_setRunGas _) fun _ => ?_
  refine leaves_bind (shelf_blind.peek 0) fun dest => leaves_bind (gas _) fun more => ?_
  refine leaves_bind (leaves_addRunGas (fun _ _ _ => rfl) _) fun _ =>
    leaves_bind shelf_charge fun _ => ?_
  exact leaves_bind (shelf_blind.ask _) fun _ => leaves_pure false

theorem interpretCases_accesses (fresh : m.accesses = []) (op : Instruction) :
    Ends (interpretCases C face op) m (fun _ n => Sized m.mem n.mem ∧
      (Accessed (op.regions low32 m.item) m.mem n.mem n.accesses ∨
        op.Frames ∧ Accessed [] m.mem n.mem n.accesses)) fun _ _ => True := by
  have does : ∀ {regions : List Region} {x : M σ Bool}, Does regions x m →
      Ends x m (fun _ n => Sized m.mem n.mem ∧
        (Accessed regions m.mem n.mem n.accesses ∨ op.Frames ∧ Accessed [] m.mem n.mem n.accesses))
          fun _ _ => True :=
    fun does => Ends.mono does (fun _ _ done => ⟨done.1, .inl done.2⟩) fun _ _ _ => trivial
  have frames : op.Frames → ∀ {regions : List Region} {x : M σ Bool}, Framed regions x m →
      Ends x m (fun _ n => Sized m.mem n.mem ∧
        (Accessed regions m.mem n.mem n.accesses ∨ op.Frames ∧ Accessed [] m.mem n.mem n.accesses))
          fun _ _ => True :=
    fun frame _ _ framed =>
      Ends.mono framed (fun _ _ done => ⟨done.1, done.2.imp id fun none => ⟨frame, none⟩⟩)
      fun _ _ _ => trivial
  have none : ∀ {x : M σ Bool}, Leaves VM.shelf x → Does [] x m := does_nothing fresh
  cases op with
  | create => exact frames (.inl rfl) (framed_caseCreate face fresh)
  | call => exact frames (.inr (.inl rfl)) (framed_caseCall face fresh .call)
  | callcode => exact frames (.inr (.inr (.inl rfl))) (framed_caseCall face fresh .callcode)
  | delegatecall =>
      change Ends (if face.schedule.haveDelegateCall = true then _ else _) m _ _
      split
      · exact frames (.inr (.inr (.inr rfl))) (framed_caseCall face fresh .delegatecall)
      · trivial
  | «return» => exact does (does_return face fresh)
  | mload => exact does (does_mload face fresh)
  | mstore => exact does (does_mstore face fresh)
  | mstore8 => exact does (does_mstore8 face fresh)
  | sha3 => exact does (does_sha3 C face fresh)
  | log k => exact does (does_log face fresh k)
  | calldatacopy => exact does (does_copy face fresh _)
  | codecopy => exact does (does_copy face fresh _)
  | extcodecopy => exact does (does_extcodecopy face fresh)
  | stop => exact does (none (leaves_bind shelf_charge fun _ => leaves_pure false))
  | suicide => exact does (none (shelf_suicide face))
  | exp => exact does (none (shelf_exp face))
  | sstore => exact does (none (shelf_sstore face))
  | push k => exact does (none (shelf_push _))
  | jump => exact does (none shelf_jump)
  | jumpi => exact does (none shelf_jumpi)
  | balance => exact does (none (shelf_priced _ (shelf_blind.looked _)))
  | extcodesize => exact does (none (shelf_priced _ (shelf_blind.looked _)))
  | sload => exact does (none (shelf_priced _ (shelf_blind.looked _)))
  | jumpdest => exact does (none (shelf_priced _ (leaves_pure _)))
  | blockhash => exact does (none (shelf_plain (shelf_blind.looked _)))
  | pop => exact does (none (shelf_plain (shelf_blind.drop 1)))
  | dup k => exact does (none (shelf_plain (shelf_blind.dup _)))
  | swap k => exact does (none (shelf_plain (shelf_blind.swap _)))
  | pc | msize | gas =>
      exact does (none (shelf_plain (leaves_bind leaves_get fun _ => shelf_blind.put _)))
  | not | iszero | calldataload => exact does (none (shelf_plain (shelf_blind.unary _)))
  | addmod | mulmod => exact does (none (shelf_plain (shelf_blind.ternary _)))
  | add | mul | sub | div | sdiv | mod | smod | signextend =>
      exact does (none (shelf_plain (shelf_blind.binary _)))
  | lt | gt | slt | sgt | eq | and | or | xor | byte =>
      exact does (none (shelf_plain (shelf_blind.binary _)))
  | address | origin | caller | callvalue => exact does (none (shelf_plain (shelf_blind.put _)))
  | calldatasize | codesize | gasprice => exact does (none (shelf_plain (shelf_blind.put _)))
  | coinbase | timestamp | number => exact does (none (shelf_plain (shelf_blind.put _)))
  | difficulty | gaslimit => exact does (none (shelf_plain (shelf_blind.put _)))
  | jumpto | jumpif | jumpv | jumpsub | jumpsubv | returnsub => trivial
  | beginsub | begindata | pushc | jumpc | jumpci | bad | ethcall | other => trivial

end Instructions

section Runs

variable {σ : Type} {C : Crypto} {face : Face σ} {gas : U256} {ext : σ} {m m' : VM σ} {on : Bool}

/-- The instructions that have one offset, for a word or a byte. -/
def Instruction.Words (op : Instruction) : Prop := op = .mload ∨ op = .mstore ∨ op = .mstore8

/-- An instruction accesses what its whole operands say, unless it is a frame that is refused. -/
def Exact (m m' : VM σ) : Prop :=
  Accessed (m.fetched.regions BitVec.toNat m.item) m.mem m'.mem m'.accesses ∨
    m.fetched.Frames ∧ Accessed [] m.mem m'.mem m'.accesses

theorem step_accesses (C : Crypto) (face : Face σ) (m : VM σ) :
    Ends (step C face) m (fun _ n => Sized m.mem n.mem ∧
      (Accessed (m.fetched.regions low32 m.item) m.mem n.mem n.accesses ∨
        m.fetched.Frames ∧ Accessed [] m.mem n.mem n.accesses)) fun _ _ => True := by
  refine ends_step (fun _ => trivial) (fun _ _ => trivial) (fun _ => trivial) fun _ _ _ => ?_
  exact interpretCases_accesses C face (m := m.ready face) rfl m.fetched

theorem regions_of_not_words {op : Instruction} (other : ¬op.Words) (item : Nat → U256) :
    op.regions low32 item = op.regions BitVec.toNat item := by
  cases op with
  | mload => exact absurd (.inl rfl) other
  | mstore => exact absurd (.inr (.inl rfl)) other
  | mstore8 => exact absurd (.inr (.inr rfl)) other
  | _ => rfl

theorem low32_eq_iff (a : U256) : low32 a = a.toNat ↔ a.toNat < 2 ^ 32 := by
  constructor
  · intro same
    rw [← same]
    exact Nat.mod_lt _ (by decide)
  · exact Nat.mod_eq_of_lt

theorem served_once {before after : Memory} {writes : Bool} {place place' size : Nat}
    {accesses : List Access} (some : 0 < size)
    (first : Accessed [⟨writes, true, place, size⟩] before after accesses)
    (second : Accessed [⟨writes, true, place', size⟩] before after accesses) : place = place' := by
  rcases List.forall₂_cons_left_iff.mp first.served with ⟨a, rest, served, -, rfl⟩
  rcases List.forall₂_cons_left_iff.mp second.served with ⟨b, rest', served', -, same⟩
  cases same
  have bytes : a.bytes ≠ [] := by
    intro none
    have length : a.bytes.length = size := served.whole rfl
    rw [none] at length
    exact some.ne length
  exact (served.offset bytes).symm.trans (served'.offset bytes)

theorem exact_iff (went : step C face m = .ok on m') : Exact m m' ↔
    (m.fetched.Words → (m.item 0).toNat < 2 ^ 32) := by
  have done := ((step_accesses C face m).ok went).2
  by_cases words : m.fetched.Words
  · have plain : ¬m.fetched.Frames := by
      rintro (frame | frame | frame | frame) <;> rw [frame] at words <;>
        rcases words with same | same | same <;>
        cases same
    have cut := done.resolve_right fun frame => plain frame.1
    have exact : Exact m m' ↔
        Accessed (m.fetched.regions BitVec.toNat m.item) m.mem m'.mem m'.accesses :=
      ⟨fun exact => exact.resolve_right fun frame => plain frame.1, .inl⟩
    rw [exact, ← low32_eq_iff]
    constructor
    · intro whole _
      rcases words with same | same | same <;> rw [same] at cut whole
      · exact served_once (by decide) cut whole
      · exact served_once (by decide) cut whole
      · exact served_once (by decide) cut whole
    · intro small
      have place := small words
      rcases words with same | same | same <;> rw [same] at cut ⊢ <;>
        exact (congrArg (fun p => Accessed [⟨_, true, p, _⟩] m.mem m'.mem m'.accesses) place).mp cut
  · rw [regions_of_not_words words] at done
    exact ⟨fun _ other => absurd other words, fun _ => done⟩

theorem Reached.words (reached : Reached C face gas ext m) : 32 ∣ m.mem.size := by
  induction reached with
  | start => exact dvd_zero 32
  | step _ went ih => exact ((step_accesses C face _).ok went).1.words ih

/-- In every run the memory is kept in words and never shrinks, and an instruction that does not
throw accesses exactly the bytes of its whole operands if the offset of a word or a byte fits into
32 bits, and only then. -/
theorem memory_accessed_exactly (C : Crypto) (face : Face σ) (gas : U256) (ext : σ)
    (m m' : VM σ) (on : Bool) (reached : Reached C face gas ext m)
    (went : step C face m = .ok on m') :
    32 ∣ m.mem.size ∧ 32 ∣ m'.mem.size ∧ m.mem.size ≤ m'.mem.size ∧
      (Exact m m' ↔ (m.fetched.Words → (m.item 0).toNat < 2 ^ 32)) := by
  have sized := ((step_accesses C face m).ok went).1
  exact ⟨reached.words, sized.words reached.words, sized.grows, exact_iff went⟩

end Runs

/-- `PUSH1 0x20, MLOAD`. -/
theorem low_word_accessed_exactly :
    Exact (machine .toy (.alone [0x60, 0x20, 0x51]) 100 () 1)
      (machine .toy (.alone [0x60, 0x20, 0x51]) 100 () 2) := by
  have reached : Reached .toy (.alone [0x60, 0x20, 0x51]) 100 ()
      (machine .toy (.alone [0x60, 0x20, 0x51]) 100 () 1) :=
    .step .start rfl
  have exact := memory_accessed_exactly .toy (.alone [0x60, 0x20, 0x51]) 100 () _
    (machine .toy (.alone [0x60, 0x20, 0x51]) 100 () 2) true reached rfl
  exact exact.2.2.2.mpr fun _ => by decide

/-- `PUSH5 0x0100000000, MLOAD` with enough gas for the memory: it reads the bytes from 0 on. -/
theorem high_word_not_accessed :
    ∃ m m' :
    VM Unit, Reached .toy (.alone [0x64, 0x01, 0x00, 0x00, 0x00, 0x00, 0x51]) (2 ^ 46) () m ∧
      step .toy (.alone [0x64, 0x01, 0x00, 0x00, 0x00, 0x00, 0x51]) m = .ok true m' ∧
      m.fetched = .mload ∧
      ¬Exact m m' := by
  have went : step .toy (.alone [0x64, 0x01, 0x00, 0x00, 0x00, 0x00, 0x51])
      (machine .toy (.alone [0x64, 0x01, 0x00, 0x00, 0x00, 0x00, 0x51]) (2 ^ 46) () 1) =
      .ok true (machine .toy (.alone [0x64, 0x01, 0x00, 0x00, 0x00, 0x00, 0x51]) (2 ^ 46) () 2) :=
        rfl
  refine ⟨_, _, .step .start rfl, went, rfl, fun exact => ?_⟩
  have small := (exact_iff went).mp exact (.inl rfl)
  revert small
  decide

end UtispaceChain.Evm
