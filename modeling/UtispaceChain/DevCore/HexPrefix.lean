import UtispaceChain.DevCore.TrieDB

/-! The three overloads of `hexPrefixEncode`, and what reads a key back. -/

namespace UtispaceChain

namespace Trie

open Lib

/-- Where the overload for a vector stops: `size() + 1 + _end` of 64 bits is cut to an
`unsigned`. -/
def hexVectorEnd (size : Nat) (stop : Int) : Nat :=
  if stop < 0 then unsigned (size + 1 + stop) else unsigned stop

def hexPairs (hexVector : Bytes) : (turns i : Nat) → Option Bytes
  | 0, _ => some []
  | turns + 1, i =>
      (hexVector[i]?).bind fun a => (hexVector[i + 1]?).bind fun b =>
        (hexPairs hexVector turns (i + 2)).map (UInt8.ofNat (a.toNat * 16 + b.toNat) :: ·)

/-- `hexPrefixEncode` of a vector with one nibble a byte. -/
def hexPrefixVector (hexVector : Bytes) (leaf : Bool) (start stop : Int) : Option Bytes :=
  let first := unsigned start
  let last := hexVectorEnd hexVector.length stop
  let odd := decide (unsigned (last - first) % 2 ≠ 0)
  let flags := UInt8.ofNat (hexFlags leaf odd * 16)
  if odd then
    (hexVector[first]?).bind fun n =>
      let first := unsigned (first + 1)
      (hexPairs hexVector ((last - first) / 2) first).map ((flags ||| n) :: ·)
  else (hexPairs hexVector ((last - first) / 2) first).map (flags :: ·)

/-- The nibble that an end stands for: the negative ones count from behind. -/
def endOf (count : Nat) (stop : Int) : Int := if stop < 0 then count + 1 + stop else stop

structure Part (whole : List Nibble) (start : Nat) (stop : Int) (ns : List Nibble) : Prop where
  order : (start : Int) ≤ endOf whole.length stop
  inside : endOf whole.length stop ≤ whole.length
  cut : (whole.take (endOf whole.length stop).toNat).drop start = ns

def hexVectorOf (ns : List Nibble) : Bytes := ns.map fun n : Nibble => UInt8.ofNat n

theorem hexVectorOf_getElem? (ns : List Nibble) (i : Nat) :
    (hexVectorOf ns)[i]? = (ns[i]?).map fun n : Nibble => UInt8.ofNat n := List.getElem?_map

theorem nibble_byte : ∀ a b : Nibble,
    UInt8.ofNat ((UInt8.ofNat a).toNat * 16 + (UInt8.ofNat b).toNat) =
      UInt8.ofNat (a * 16 + b) := by
  decide

theorem hexPairs_eq (whole : List Nibble) (turns i : Nat) (inside : i + 2 * turns ≤ whole.length) :
    hexPairs (hexVectorOf whole) turns i =
      some (packNibbles ((whole.drop i).take (2 * turns))) := by
  induction turns generalizing i with
  | zero => rfl
  | succ turns ih =>
      have one : i < whole.length := by omega
      have two : i + 1 < whole.length := by omega
      have size : 2 * (turns + 1) = 2 * turns + 1 + 1 := by omega
      rw [hexPairs, hexVectorOf_getElem?, hexVectorOf_getElem?, List.getElem?_eq_getElem one,
        List.getElem?_eq_getElem two, ih (i + 2) (by omega), List.drop_eq_getElem_cons one,
        List.drop_eq_getElem_cons two, size, List.take_succ_cons, List.take_succ_cons, packNibbles]
      simp only [Option.map_some, Option.bind_some, nibble_byte]

theorem Part.length {whole ns : List Nibble} {start : Nat} {stop : Int}
    (part : Part whole start stop ns) :
    ((start + ns.length : Nat) : Int) = endOf whole.length stop := by
  have order := part.order
  have inside := part.inside
  rw [← part.cut, List.length_drop, List.length_take]
  omega

theorem Part.vector {whole ns : List Nibble} {start : Nat} {stop : Int}
    (part : Part whole start stop ns) (range : endOf whole.length stop < 2 ^ 32) (leaf : Bool) :
    hexPrefixVector (hexVectorOf whole) leaf start stop = some (hexPrefix leaf ns) := by
  have total := part.length
  have inside := part.inside
  have first : unsigned (start : Int) = start := unsigned_of_lt (by omega)
  have last : hexVectorEnd (hexVectorOf whole).length stop = start + ns.length := by
    have size : (hexVectorOf whole).length = whole.length := by rw [hexVectorOf, List.length_map]
    unfold endOf at total range
    unfold hexVectorEnd unsigned
    rw [size]
    by_cases behind : stop < 0
    · rw [if_pos behind] at total range ⊢
      omega
    · rw [if_neg behind] at total range ⊢
      omega
  have count : unsigned (((start + ns.length : Nat) : Int) - (start : Int)) = ns.length := by
    unfold unsigned
    omega
  have here : (whole.drop start).take ns.length = ns := by
    have split := part.cut
    rw [← total, Int.toNat_natCast, List.drop_take, Nat.add_sub_cancel_left] at split
    exact split
  unfold hexPrefixVector
  simp only [first, last, count]
  by_cases odd : ns.length % 2 = 1
  · cases shape : ns with
    | nil =>
        rw [shape] at odd
        cases odd
    | cons n rest =>
        have size : ns.length = rest.length + 1 := by rw [shape, List.length_cons]
        have below : start < whole.length := by omega
        have next : unsigned ((start : Int) + 1) = start + 1 := by
          unfold unsigned
          omega
        rw [shape, List.length_cons, List.drop_eq_getElem_cons below, List.take_succ_cons,
          List.cons.injEq] at here
        have turns : 2 * ((start + ns.length - (start + 1)) / 2) = rest.length := by omega
        have pairs :=
          hexPairs_eq whole ((start + ns.length - (start + 1)) / 2) (start + 1) (by omega)
        rw [turns, here.2] at pairs
        have flag : decide (ns.length % 2 ≠ 0) = true := decide_eq_true (by omega)
        rw [← shape]
        rw [flag, if_pos rfl, hexVectorOf_getElem?, List.getElem?_eq_getElem below, here.1,
          Option.map_some, Option.bind_some, next, pairs, Option.map_some, hexPrefix, if_pos odd,
          shape, List.headD_cons, List.tail_cons]
        cases leaf
        · exact congrArg (fun b => some (b :: packNibbles rest)) (merge_nibbles 1 n)
        · exact congrArg (fun b => some (b :: packNibbles rest)) (merge_nibbles 3 n)
  · have turns : 2 * ((start + ns.length - start) / 2) = ns.length := by omega
    have pairs := hexPairs_eq whole ((start + ns.length - start) / 2) start (by omega)
    rw [turns, here] at pairs
    have flag : decide (ns.length % 2 ≠ 0) = false := decide_eq_false (by omega)
    rw [flag, if_neg Bool.false_ne_true, pairs, Option.map_some, hexPrefix, if_neg odd]

namespace NibbleSlice

theorem Fits.part {s : NibbleSlice} (fits : s.Fits) {ns : List Nibble} {start : Nat} {stop : Int}
    (part : Part s.toList start stop ns)
    (range : stop < 0 → s.toList.length + 1 < 2 ^ 31 ∨ 2 ^ 31 ≤ endOf s.toList.length stop)
    (leaf : Bool) :
    s.encode leaf start stop = some (hexPrefix leaf ns) := by
  have total := part.length
  have inside := part.inside
  have whole := fits.encode_part leaf (Nat.le_add_right start ns.length) (by omega)
  have cut := part.cut
  rw [← total, Int.toNat_natCast] at cut
  rw [cut] at whole
  unfold endOf at total range
  by_cases behind : stop < 0
  · rw [if_pos behind] at total range
    have last := fits.endNibble behind total.symm (by have range := range behind; omega)
    rw [NibbleSlice.encode, hexPrefixEncode] at whole ⊢
    rw [last]
    exact whole
  · rw [if_neg behind] at total
    rw [← total]
    exact whole

end NibbleSlice

/-- The three overloads agree on the nibbles, a node under that key gives the nibbles and the flag
back, and slices compare as the nibbles that they stand for. -/
theorem hexPrefix_codec (leaf : Bool) {ns : List Nibble} (short : ns.length + 2 < 2 ^ 32)
    {whole : List Nibble} {start : Nat} {stop : Int} (vector : Part whole start stop ns)
    (range : endOf whole.length stop < 2 ^ 32)
    {s : NibbleSlice} (fits : s.Fits) {first : Nat} {last : Int}
    (slice : Part s.toList first last ns) (int : last < 0 → s.toList.length + 1 < 2 ^ 31 ∨
      2 ^ 31 ≤ endOf s.toList.length last) {a b : NibbleSlice} (fitsFront : a.Fits)
      (fitsBack : b.Fits) (joined : a.toList ++ b.toList = ns) {x y : NibbleSlice}
      (fitsLeft : x.Fits) (fitsRight : y.Fits) :
    (∃ key, hexPrefixVector (hexVectorOf whole) leaf start stop = some key ∧
      s.encode leaf first last = some key ∧
      hexPrefixJoin a b leaf = some key ∧ (keyOfHex key).toList = ns ∧
      ∀ value node, Rlp.Item value → ListOf [Rlp.appendBytes key, value] node →
        (∃ part, keyOf node = some part ∧ part.Fits ∧ part.toList = ns) ∧ isLeaf node = some leaf) ∧
    x.shared y = Lib.shared x.toList y.toList ∧ x.contains y = decide (y.toList <+: x.toList) ∧
      ∀ i ≤ x.toList.length, (x.mid i).Fits ∧ (x.mid i).toList = x.toList.drop i := by
  refine ⟨⟨hexPrefix leaf ns, vector.vector range leaf, fits.part slice int leaf, ?_,
    (keyOfHex_hexPrefix leaf ns short).2, fun value node item encoded => ?_⟩,
    fitsLeft.shared fitsRight, fitsLeft.contains fitsRight, fun i inside => fitsLeft.mid inside⟩
  · rw [fitsFront.join fitsBack, joined]
  · rcases encoded.readsPair item short with ⟨part, reads⟩
    exact ⟨⟨part, reads.keyOf, reads.fits, reads.toList⟩, reads.isLeaf⟩

/-- Three nibbles: inside a vector, up to the end of a slice with an odd offset, and as one nibble
before a byte. -/
theorem hexPrefix_codec_odd :
    (∃ key, hexPrefixVector (hexVectorOf [9, 1, 2, 3, 9]) true (1 : Nat) (-2) = some key ∧
      (⟨[0x91, 0x23], 1⟩ : NibbleSlice).encode true 0 (-1) = some key ∧
        hexPrefixJoin ⟨[0x01], 1⟩ ⟨[0x23], 0⟩ true = some key ∧
      (keyOfHex key).toList = [1, 2, 3] ∧
      ∀ value node, Rlp.Item value → ListOf [Rlp.appendBytes key, value] node →
        (∃ part, keyOf node = some part ∧ part.Fits ∧ part.toList = [1, 2, 3]) ∧
          isLeaf node = some true) ∧
    (⟨[0x12, 0x34], 1⟩ : NibbleSlice).shared ⟨[0x23], 0⟩ =
        Lib.shared (⟨[0x12, 0x34], 1⟩ : NibbleSlice).toList (⟨[0x23], 0⟩ : NibbleSlice).toList ∧
      (⟨[0x12, 0x34], 1⟩ : NibbleSlice).contains ⟨[0x23], 0⟩ =
        decide ((⟨[0x23], 0⟩ : NibbleSlice).toList <+: (⟨[0x12, 0x34], 1⟩ : NibbleSlice).toList) ∧
      ∀ i ≤ (⟨[0x12, 0x34], 1⟩ : NibbleSlice).toList.length,
      ((⟨[0x12, 0x34], 1⟩ : NibbleSlice).mid i).Fits ∧
        ((⟨[0x12, 0x34], 1⟩ : NibbleSlice).mid i).toList =
          (⟨[0x12, 0x34], 1⟩ : NibbleSlice).toList.drop i :=
  hexPrefix_codec true (by decide) ⟨by decide, by decide, by decide⟩ (by decide)
    ⟨by decide, by decide⟩
    ⟨by decide, by decide, by decide⟩ (by decide) ⟨by decide, by decide⟩
      ⟨by decide, by decide⟩ (by decide)
    ⟨by decide, by decide⟩ ⟨by decide, by decide⟩

theorem hexPrefixVector_wraps {whole : List Nibble} (size : whole.length = 2 ^ 32) :
    Part whole 0 (-1) whole ∧ hexPrefixVector (hexVectorOf whole) false 0 (-1) = some [0x00] := by
  have length : (hexVectorOf whole).length = 2 ^ 32 := by rw [hexVectorOf, List.length_map, size]
  have none : hexVectorEnd (2 ^ 32) (-1) = 0 := by decide
  have all : (endOf (2 ^ 32) (-1)).toNat = 2 ^ 32 := by decide
  refine ⟨⟨?_, ?_, ?_⟩, ?_⟩
  · rw [size]
    decide
  · rw [size]
    decide
  · rw [size, all, ← size, List.take_length, List.drop_zero]
  · rw [hexPrefixVector, length, none]
    rfl

theorem encode_overflows {data : Bytes} (size : data.length = 2 ^ 30) :
    (⟨data, 1⟩ : NibbleSlice).Fits ∧ (⟨data, 1⟩ : NibbleSlice).encode false 0 (-1) = none := by
  have stop : endNibble (2 ^ 30) (-1) 1 = none := by decide
  refine ⟨⟨?_, ?_⟩, ?_⟩
  · rw [size]
    decide
  · change 1 ≤ 2 * data.length
    omega
  · rw [NibbleSlice.encode, hexPrefixEncode, size, stop]
    rfl

/-- Keys too long for the integers of the code. -/
theorem long_keys_lost :
    Part (List.replicate (2 ^ 32) 0) 0 (-1) (List.replicate (2 ^ 32) 0) ∧
      hexPrefixVector (hexVectorOf (List.replicate (2 ^ 32) 0)) false 0 (-1) = some [0x00] ∧
      (keyOfHex [0x00]).toList ≠ List.replicate (2 ^ 32) 0 ∧
      (⟨List.replicate (2 ^ 30) 0, 1⟩ : NibbleSlice).Fits ∧
      (⟨List.replicate (2 ^ 30) 0, 1⟩ : NibbleSlice).encode false 0 (-1) = none := by
  rcases hexPrefixVector_wraps (List.length_replicate (n := 2 ^ 32) (a := 0)) with ⟨part, vector⟩
  rcases encode_overflows (List.length_replicate (n := 2 ^ 30) (a := 0)) with ⟨fits, slice⟩
  refine ⟨part, vector, ?_, fits, slice⟩
  have read : (keyOfHex [0x00]).toList = [] := by decide
  rw [read]
  intro same
  have length := congrArg List.length same
  rw [List.length_replicate, List.length_nil] at length
  exact absurd length (by decide)

end Trie

end UtispaceChain
