import UtispaceChain.Lib.Patricia
import UtispaceChain.DevCore.RlpItems

/-! `TrieCommon`: strings of nibbles as slices of bytes, and the hex prefix form.

What reads outside of the bytes or overflows an `int` is `none`. -/

namespace UtispaceChain

namespace Rlp

def isEmpty : Bytes → Bool
  | [] => false
  | n :: _ => decide (n = 0x80 ∨ n = 0xc0)

/-- `toHash<h256>()` with the default `Strict` flags: shorter strings are padded on the left. -/
def toHashStrict (size : Nat) (d : Bytes) : Option Nat :=
  (requireGood d).bind fun _ => (payload d).bind fun p =>
    if isData d = true ∧ p.length ≤ size then some (Lib.fromBigEndian p) else none

end Rlp

namespace Trie

open Lib

abbrev Nibble := Fin 16

def unsigned (n : Int) : Nat := (n % 2 ^ 32).toNat

def highNibble (b : UInt8) : Nibble := Fin.ofNat 16 (b.toNat / 16)

def lowNibble (b : UInt8) : Nibble := Fin.ofNat 16 (b.toNat % 16)

def asNibbles : Bytes → List Nibble
  | [] => []
  | b :: bytes => highNibble b :: lowNibble b :: asNibbles bytes

def nibble (data : Bytes) (i : Nat) : Option Nibble :=
  (data[i / 2]?).map fun b => if i % 2 = 1 then lowNibble b else highNibble b

/-- The loop of `sharedNibbles`; `left` turns are enough when the first end is that far. -/
def sharedFrom (first : Bytes) (endFirst : Nat) (second : Bytes) (endSecond : Nat) :
    (left beginFirst beginSecond : Nat) → Nat
  | 0, _, _ => 0
  | left + 1, beginFirst, beginSecond =>
      if beginFirst < endFirst ∧ beginSecond < endSecond ∧
        nibble first beginFirst = nibble second beginSecond then
        sharedFrom first endFirst second endSecond left (beginFirst + 1) (beginSecond + 1) + 1
      else 0

def sharedNibbles (first : Bytes) (beginFirst endFirst : Nat) (second : Bytes)
    (beginSecond endSecond : Nat) : Nat :=
  sharedFrom first endFirst second endSecond (endFirst - beginFirst) beginFirst beginSecond

structure NibbleSlice where
  data : Bytes
  offset : Nat := 0
  deriving DecidableEq, Repr

namespace NibbleSlice

variable (s : NibbleSlice)

def get (index : Nat) : Option Nibble := nibble s.data (unsigned (s.offset + index))

def size : Nat := unsigned (2 * s.data.length - s.offset)

def mid (index : Nat) : NibbleSlice := ⟨s.data, unsigned (s.offset + index)⟩

def shared (k : NibbleSlice) : Nat :=
  sharedNibbles s.data s.offset (unsigned (s.offset + s.size)) k.data k.offset
    (unsigned (k.offset + k.size))

def contains (k : NibbleSlice) : Bool := decide (s.shared k = k.size)

/-- `operator==`. -/
def same (k : NibbleSlice) : Bool := decide (k.size = s.size) && decide (s.shared k = k.size)

end NibbleSlice

/-- An `unsigned` read as an `int`. -/
def signed (n : Nat) : Int := if n < 2 ^ 31 then n else n - 2 ^ 32

/-- Where `hexPrefixEncode` stops: the `int` sums must not overflow. -/
def endNibble (size : Nat) (stop : Int) (offset : Nat) : Option Nat :=
  if stop < 0 then
    let n := signed (unsigned (2 * size - offset))
    if n + 1 < 2 ^ 31 ∧ -2 ^ 31 ≤ n + 1 + stop then some (unsigned (n + 1 + stop + offset))
      else none
  else some (unsigned (stop + offset))

/-- The bytes so far, and whether the next nibble goes into the last of them. -/
def pushNibble (ret : Bytes × Bool) (n : Nibble) : Bytes × Bool :=
  if ret.2 then (ret.1.dropLast ++ [ret.1.getLastD 0 ||| UInt8.ofNat n], false)
  else (ret.1 ++ [UInt8.ofNat (n * 16)], true)

def hexFlags (leaf odd : Bool) : Nat := (if leaf then 2 else 0) + if odd then 1 else 0

def pushNibbles (leaf odd : Bool) (ns : List Nibble) : Bytes :=
  (ns.foldl pushNibble ([UInt8.ofNat (hexFlags leaf odd * 16)], odd)).1

def nibbles (data : Bytes) (start stop : Nat) : Option (List Nibble) :=
  (List.range' start (stop - start)).mapM (nibble data)

def hexPrefixEncode (data : Bytes) (leaf : Bool) (beginNibble stop : Int) (offset : Nat) :
    Option Bytes :=
  let start := unsigned (beginNibble + offset)
  (endNibble data.length stop offset).bind fun stop =>
    (nibbles data start stop).map (pushNibbles leaf (decide (unsigned (stop - start) % 2 = 1)))

def hexPrefixJoin (s₁ s₂ : NibbleSlice) (leaf : Bool) : Option Bytes :=
  let end₁ := unsigned (2 * s₁.data.length)
  let end₂ := unsigned (2 * s₂.data.length)
  (nibbles s₁.data s₁.offset end₁).bind fun first =>
    (nibbles s₂.data s₂.offset end₂).map fun second =>
      pushNibbles leaf (decide (unsigned (end₁ - s₁.offset + end₂ - s₂.offset) % 2 = 1))
        (first ++ second)

def NibbleSlice.encode (s : NibbleSlice) (leaf : Bool) (start : Nat) (stop : Int) : Option Bytes :=
  hexPrefixEncode s.data leaf start stop s.offset

/-- `keyOf` of the payload. -/
def keyOfHex : Bytes → NibbleSlice
  | [] => ⟨[], 0⟩
  | b :: bytes => ⟨b :: bytes, if b &&& 0x10 ≠ 0 then 1 else 2⟩

def keyOf (twoItem : Bytes) : Option NibbleSlice :=
  (Rlp.item twoItem 0).bind fun key => (Rlp.payload key).map keyOfHex

def isLeaf (twoItem : Bytes) : Option Bool :=
  (Rlp.items twoItem).bind fun items =>
    if Rlp.isList twoItem = true ∧ items.length = 2 then
      (Rlp.item twoItem 0).bind fun key => (Rlp.payload key).bind fun pl =>
        pl.head?.map fun b => decide (b &&& 0x20 ≠ 0)
    else none

/-- The loop of `uniqueInUse`; 255 stands for none, or more than one. -/
def uniqueFrom (orig : Bytes) (omitted : Nat) : (left i used : Nat) → Option Nat
  | 0, _, used => some used
  | left + 1, i, used =>
      if i = omitted then uniqueFrom orig omitted left (i + 1) used
      else (Rlp.item orig i).bind fun n =>
        if Rlp.isEmpty n then uniqueFrom orig omitted left (i + 1) used
        else if used = 255 then uniqueFrom orig omitted left (i + 1) i
        else some 255

def uniqueInUse (orig : Bytes) (omitted : Nat) : Option Nat := uniqueFrom orig omitted 17 0 255

/-! What a slice stands for -/

theorem unsigned_of_lt {n : Nat} (small : n < 2 ^ 32) : unsigned n = n := by
  unfold unsigned
  omega

theorem length_asNibbles (bytes : Bytes) : (asNibbles bytes).length = 2 * bytes.length := by
  induction bytes with
  | nil => rfl
  | cons b bytes ih =>
      rw [asNibbles, List.length_cons, List.length_cons, List.length_cons, ih]
      omega

theorem nibble_eq (data : Bytes) (i : Nat) : nibble data i = (asNibbles data)[i]? := by
  induction data generalizing i with
  | nil => rfl
  | cons b data ih =>
      match i with
      | 0 => rfl
      | 1 => rfl
      | i + 2 =>
          have half : (i + 2) / 2 = i / 2 + 1 := by omega
          have parity : (i + 2) % 2 = i % 2 := by omega
          rw [nibble, half, parity]
          exact ih i

namespace NibbleSlice

def Fits (s : NibbleSlice) : Prop := 2 * s.data.length < 2 ^ 32 ∧ s.offset ≤ 2 * s.data.length

def toList (s : NibbleSlice) : List Nibble := (asNibbles s.data).drop s.offset

variable {s k : NibbleSlice}

theorem Fits.length (fits : s.Fits) : s.toList.length + s.offset = 2 * s.data.length := by
  have inside := fits.2
  rw [toList, List.length_drop, length_asNibbles]
  omega

theorem Fits.size (fits : s.Fits) : s.size = s.toList.length := by
  have total := fits.length
  have small := fits.1
  unfold NibbleSlice.size unsigned
  omega

theorem Fits.mid (fits : s.Fits) {i : Nat} (inside : i ≤ s.toList.length) :
    (s.mid i).Fits ∧ (s.mid i).toList = s.toList.drop i := by
  have total := fits.length
  have small := fits.1
  have moved : (s.mid i).offset = s.offset + i := by
    unfold NibbleSlice.mid
    exact unsigned_of_lt (by omega)
  refine ⟨⟨small, ?_⟩, ?_⟩
  · rw [moved]
    change s.offset + i ≤ 2 * s.data.length
    omega
  · rw [toList, toList, List.drop_drop, moved]
    rfl

theorem Fits.get (fits : s.Fits) {i : Nat} (inside : i < s.toList.length) :
    s.get i = s.toList[i]? := by
  have total := fits.length
  have small := fits.1
  have place : unsigned (s.offset + i) = s.offset + i := unsigned_of_lt (by omega)
  rw [NibbleSlice.get, place, nibble_eq, toList, List.getElem?_drop]

theorem sharedFrom_eq (first second : Bytes) (left beginFirst beginSecond : Nat)
    (enough : 2 * first.length ≤ beginFirst + left) :
    sharedFrom first (2 * first.length) second (2 * second.length) left beginFirst beginSecond =
      Lib.shared ((asNibbles first).drop beginFirst) ((asNibbles second).drop beginSecond) := by
  induction left generalizing beginFirst beginSecond with
  | zero =>
      have spent : (asNibbles first).drop beginFirst = [] := by
        apply List.drop_eq_nil_of_le
        rw [length_asNibbles]
        omega
      rw [sharedFrom, spent]
      cases (asNibbles second).drop beginSecond <;> rfl
  | succ left ih =>
      rw [sharedFrom]
      by_cases inFirst : beginFirst < 2 * first.length
      · by_cases inSecond : beginSecond < 2 * second.length
        · have one : beginFirst < (asNibbles first).length := by
            rw [length_asNibbles]; exact inFirst
          have two : beginSecond < (asNibbles second).length := by
            rw [length_asNibbles]; exact inSecond
          rw [List.drop_eq_getElem_cons one, List.drop_eq_getElem_cons two, Lib.shared,
            nibble_eq, nibble_eq, List.getElem?_eq_getElem one, List.getElem?_eq_getElem two,
            ih _ _ (by omega)]
          simp [inFirst, inSecond]
        · have spent : (asNibbles second).drop beginSecond = [] := by
            apply List.drop_eq_nil_of_le
            rw [length_asNibbles]
            omega
          rw [if_neg (fun both => inSecond both.2.1), spent, Lib.shared_nil]
      · have spent : (asNibbles first).drop beginFirst = [] := by
          apply List.drop_eq_nil_of_le
          rw [length_asNibbles]
          omega
        rw [if_neg (fun both => inFirst both.1), spent]
        cases (asNibbles second).drop beginSecond <;> rfl

theorem Fits.stop (fits : s.Fits) : unsigned (s.offset + s.size) = 2 * s.data.length := by
  have total := fits.length
  have small := fits.1
  rw [fits.size]
  unfold unsigned
  omega

theorem Fits.shared (fits : s.Fits) (fitsKey : k.Fits) :
    s.shared k = Lib.shared s.toList k.toList := by
  have inside := fits.2
  rw [NibbleSlice.shared, fits.stop, fitsKey.stop, sharedNibbles]
  exact sharedFrom_eq s.data k.data _ _ _ (by omega)

theorem Fits.contains (fits : s.Fits) (fitsKey : k.Fits) :
    s.contains k = decide (k.toList <+: s.toList) := by
  rw [NibbleSlice.contains, fits.shared fitsKey, fitsKey.size]
  exact decide_eq_decide.mpr (Lib.shared_eq_length_iff _ _)

theorem Fits.same (fits : s.Fits) (fitsKey : k.Fits) : s.same k = decide (s.toList = k.toList) := by
  rw [NibbleSlice.same, fits.shared fitsKey, fitsKey.size, fits.size, ← Bool.decide_and]
  apply decide_eq_decide.mpr
  rw [Lib.shared_eq_length_iff]
  constructor
  · rintro ⟨length, start⟩
    exact (start.eq_of_length length).symm
  · intro equal
    rw [equal]
    exact ⟨rfl, List.prefix_rfl⟩

end NibbleSlice

/-! The hex prefix form -/

def packNibbles : List Nibble → Bytes
  | a :: b :: ns => UInt8.ofNat (a * 16 + b) :: packNibbles ns
  | _ => []

/-- The form that `hexPrefixEncode` writes. -/
def hexPrefix (leaf : Bool) (ns : List Nibble) : Bytes :=
  if ns.length % 2 = 1 then
    UInt8.ofNat (hexFlags leaf true * 16 + (ns.headD 0).val) :: packNibbles ns.tail
  else UInt8.ofNat (hexFlags leaf false * 16) :: packNibbles ns

theorem merge_nibbles : ∀ a b : Nibble, UInt8.ofNat (a * 16) ||| UInt8.ofNat b =
    UInt8.ofNat (a * 16 + b) := by
  decide

theorem pushNibble_pack (ret : Bytes) (ns : List Nibble) (even : ns.length % 2 = 0) :
    ns.foldl pushNibble (ret, false) = (ret ++ packNibbles ns, false) := by
  match ns, even with
  | [], _ => simp [packNibbles]
  | a :: b :: ns, even =>
      have rest : ns.length % 2 = 0 := by
        simp only [List.length_cons] at even
        omega
      have two : pushNibble (pushNibble (ret, false) a) b =
          (ret ++ [UInt8.ofNat (a * 16 + b)], false) := by
        change ((ret ++ [UInt8.ofNat (a * 16)]).dropLast ++
          [(ret ++ [UInt8.ofNat (a * 16)]).getLastD 0 ||| UInt8.ofNat b],
          false) = _
        rw [List.dropLast_concat, List.getLastD_concat, merge_nibbles]
      rw [List.foldl_cons, List.foldl_cons, two, pushNibble_pack _ ns rest, packNibbles]
      simp

theorem pushNibbles_eq (leaf : Bool) (ns : List Nibble) :
    pushNibbles leaf (decide (ns.length % 2 = 1)) ns = hexPrefix leaf ns := by
  unfold pushNibbles hexPrefix
  by_cases odd : ns.length % 2 = 1
  · match ns, odd with
    | d :: rest, odd =>
        have even : rest.length % 2 = 0 := by
          simp only [List.length_cons] at odd
          omega
        have first : pushNibble ([UInt8.ofNat (hexFlags leaf true * 16)], true) d =
            ([UInt8.ofNat (hexFlags leaf true * 16 + d)], false) := by
          cases leaf
          · exact congrArg (fun b => ([b], false)) (merge_nibbles 1 d)
          · exact congrArg (fun b => ([b], false)) (merge_nibbles 3 d)
        rw [if_pos odd, decide_eq_true odd, List.foldl_cons, first, pushNibble_pack _ _ even]
        rfl
  · have even : ns.length % 2 = 0 := by omega
    rw [if_neg odd, decide_eq_false odd, pushNibble_pack _ _ even]
    rfl

theorem nibbles_eq (data : Bytes) (start stop : Nat) (inside : stop ≤ 2 * data.length) :
    nibbles data start stop = some (((asNibbles data).drop start).take (stop - start)) := by
  have each : ∀ count start, start + count ≤ 2 * data.length →
      (List.range' start count).mapM (nibble data) =
        some (((asNibbles data).drop start).take count) := by
    intro count
    induction count with
    | zero => intro start _; simp
    | succ count ih =>
        intro start fits
        have here : start < (asNibbles data).length := by rw [length_asNibbles]; omega
        rw [List.range'_succ, List.mapM_cons, nibble_eq, List.getElem?_eq_getElem here,
          ih (start + 1) (by omega), List.drop_eq_getElem_cons here, List.take_succ_cons]
        rfl
  by_cases order : start ≤ stop
  · exact each _ _ (by omega)
  · have none : stop - start = 0 := by omega
    simp [nibbles, none]

namespace NibbleSlice

variable {s : NibbleSlice}

theorem Fits.encode_part (fits : s.Fits) (leaf : Bool) {start stop : Nat} (order : start ≤ stop)
    (inside : stop ≤ s.toList.length) :
    s.encode leaf start stop = some (hexPrefix leaf ((s.toList.take stop).drop start)) := by
  have total := fits.length
  have small := fits.1
  have first : unsigned ((start : Int) + s.offset) = start + s.offset :=
    unsigned_of_lt (n := start + s.offset) (by omega)
  have last : endNibble s.data.length stop s.offset = some (stop + s.offset) := by
    rw [endNibble, if_neg (by omega)]
    exact congrArg some (unsigned_of_lt (n := stop + s.offset) (by omega))
  have count : unsigned (((stop + s.offset : Nat) : Int) - ((start + s.offset : Nat) : Int)) =
      stop - start := by
    unfold unsigned
    omega
  have cut : ((asNibbles s.data).drop (start + s.offset)).take
    (stop + s.offset - (start + s.offset)) =
      (s.toList.take stop).drop start := by
    rw [toList, List.drop_take, List.drop_drop]
    congr 1
    · omega
    · rw [Nat.add_comm]
  have length : ((s.toList.take stop).drop start).length = stop - start := by
    rw [List.length_drop, List.length_take]
    omega
  rw [encode, hexPrefixEncode]
  simp only [first, last, Option.bind_some, count]
  rw [nibbles_eq _ _ _ (by omega), cut, Option.map_some, ← pushNibbles_eq, length]

theorem Fits.endNibble (fits : s.Fits) {stop : Nat} {behind : Int} (negative : behind < 0)
    (place : (s.toList.length : Int) + 1 + behind = stop)
    (range : s.toList.length + 1 < 2 ^ 31 ∨ 2 ^ 31 ≤ stop) :
    Trie.endNibble s.data.length behind s.offset = Trie.endNibble s.data.length stop s.offset := by
  have total := fits.length
  have small := fits.1
  have count : unsigned (2 * s.data.length - s.offset) = s.toList.length := by
    unfold unsigned
    omega
  have part : ¬ (stop : Int) < 0 := by omega
  rw [Trie.endNibble, Trie.endNibble, if_pos negative, if_neg part]
  simp only [count]
  unfold signed
  by_cases low : s.toList.length < 2 ^ 31
  · rw [if_pos low, if_pos (by omega)]
    congr 2
    omega
  · rw [if_neg low, if_pos (by omega)]
    unfold unsigned
    congr 1
    omega

theorem Fits.encode (fits : s.Fits) (leaf : Bool) {start : Nat} (inside : start ≤ s.toList.length)
    (count : s.toList.length ≠ 2 ^ 31 - 1) :
    s.encode leaf start (-1) = some (hexPrefix leaf (s.toList.drop start)) := by
  have stop := (fits.endNibble (by decide) (by omega) (by omega) :
    Trie.endNibble s.data.length (-1) s.offset =
      Trie.endNibble s.data.length s.toList.length s.offset)
  have whole := fits.encode_part leaf inside le_rfl
  rw [List.take_of_length_le le_rfl, NibbleSlice.encode, hexPrefixEncode] at whole
  rw [NibbleSlice.encode, hexPrefixEncode, stop]
  exact whole

theorem Fits.join {k : NibbleSlice} (fits : s.Fits) (fitsKey : k.Fits) (leaf : Bool) :
    hexPrefixJoin s k leaf = some (hexPrefix leaf (s.toList ++ k.toList)) := by
  have total := fits.length
  have small := fits.1
  have totalKey := fitsKey.length
  have smallKey := fitsKey.1
  have first : unsigned (2 * s.data.length) = 2 * s.data.length :=
    unsigned_of_lt (n := 2 * s.data.length) (by omega)
  have second : unsigned (2 * k.data.length) = 2 * k.data.length :=
    unsigned_of_lt (n := 2 * k.data.length) (by omega)
  have all : ∀ t : NibbleSlice, t.Fits →
      ((asNibbles t.data).drop t.offset).take (2 * t.data.length - t.offset) = t.toList := by
    intro t fits
    have total := fits.length
    have inside := fits.2
    rw [toList]
    apply List.take_of_length_le
    rw [List.length_drop, length_asNibbles]
  have parity : (unsigned (((2 * s.data.length : Nat) : Int) - s.offset +
    ((2 * k.data.length : Nat) : Int) - k.offset) % 2 = 1) =
      ((s.toList ++ k.toList).length % 2 = 1) := by
    rw [List.length_append]
    unfold unsigned
    congr 1
    omega
  rw [hexPrefixJoin]
  simp only [first, second]
  rw [nibbles_eq _ _ _ le_rfl, nibbles_eq _ _ _ le_rfl, all s fits, all k fitsKey, Option.bind_some,
    Option.map_some]
  simp only [parity]
  rw [pushNibbles_eq]

end NibbleSlice

theorem length_packNibbles (ns : List Nibble) : (packNibbles ns).length = ns.length / 2 := by
  match ns with
  | [] => rfl
  | [_] => simp [packNibbles]
  | a :: b :: ns =>
      rw [packNibbles, List.length_cons, length_packNibbles ns, List.length_cons, List.length_cons]
      omega

theorem length_hexPrefix (leaf : Bool) (ns : List Nibble) :
    (hexPrefix leaf ns).length = ns.length / 2 + 1 := by
  unfold hexPrefix
  split
  · rw [List.length_cons, length_packNibbles, List.length_tail]
    omega
  · rw [List.length_cons, length_packNibbles]

theorem split_nibbles : ∀ a b : Nibble, highNibble (UInt8.ofNat (a * 16 + b)) = a ∧
    lowNibble (UInt8.ofNat (a * 16 + b)) = b := by
  decide

theorem asNibbles_pack (ns : List Nibble) (even : ns.length % 2 = 0) :
    asNibbles (packNibbles ns) = ns := by
  match ns, even with
  | [], _ => rfl
  | a :: b :: ns, even =>
      have rest : ns.length % 2 = 0 := by
        simp only [List.length_cons] at even
        omega
      rw [packNibbles, asNibbles, (split_nibbles a b).1, (split_nibbles a b).2,
        asNibbles_pack ns rest]

theorem hexFlags_odd : ∀ (leaf : Bool) (d : Nibble),
    UInt8.ofNat (hexFlags leaf true * 16 + d) &&& 0x10 ≠ 0 ∧
      decide (UInt8.ofNat (hexFlags leaf true * 16 + d) &&& 0x20 ≠ 0) = leaf ∧
        lowNibble (UInt8.ofNat (hexFlags leaf true * 16 + d)) = d := by
  decide

theorem hexFlags_even : ∀ leaf : Bool,
    UInt8.ofNat (hexFlags leaf false * 16) &&& 0x10 = 0 ∧
      decide (UInt8.ofNat (hexFlags leaf false * 16) &&& 0x20 ≠ 0) = leaf := by
  decide

theorem keyOfHex_hexPrefix (leaf : Bool) (ns : List Nibble) (bound : ns.length + 2 < 2 ^ 32) :
    (keyOfHex (hexPrefix leaf ns)).Fits ∧ (keyOfHex (hexPrefix leaf ns)).toList = ns := by
  have length := length_hexPrefix leaf ns
  unfold hexPrefix at length ⊢
  by_cases odd : ns.length % 2 = 1
  · match ns, odd with
    | d :: rest, odd =>
        have even : rest.length % 2 = 0 := by
          simp only [List.length_cons] at odd
          omega
        rcases hexFlags_odd leaf d with ⟨flag, -, low⟩
        rw [if_pos odd] at length ⊢
        simp only [List.headD_cons, List.tail_cons] at length ⊢
        rw [keyOfHex, if_pos flag]
        refine ⟨⟨?_, ?_⟩, ?_⟩
        · change 2 * (_ :: packNibbles rest).length < 2 ^ 32
          rw [length]
          simp only [List.length_cons] at bound odd ⊢
          omega
        · change 1 ≤ 2 * (_ :: packNibbles rest).length
          rw [length]
          omega
        · rw [NibbleSlice.toList]
          change (asNibbles (_ :: packNibbles rest)).drop 1 = _
          rw [asNibbles, asNibbles_pack rest even, low]
          rfl
  · have even : ns.length % 2 = 0 := by omega
    rw [if_neg odd] at length ⊢
    have flag : ¬ UInt8.ofNat (hexFlags leaf false * 16) &&& 0x10 ≠ 0 :=
      not_not.mpr (hexFlags_even leaf).1
    rw [keyOfHex, if_neg flag]
    refine ⟨⟨?_, ?_⟩, ?_⟩
    · change 2 * (_ :: packNibbles ns).length < 2 ^ 32
      rw [length]
      omega
    · change 2 ≤ 2 * (_ :: packNibbles ns).length
      rw [length]
      omega
    · rw [NibbleSlice.toList]
      change (asNibbles (_ :: packNibbles ns)).drop 2 = _
      rw [asNibbles, asNibbles_pack ns even]
      rfl

theorem leafFlag_hexPrefix (leaf : Bool) (ns : List Nibble) :
    ((hexPrefix leaf ns).head?.map fun b => decide (b &&& 0x20 ≠ 0)) = some leaf := by
  unfold hexPrefix
  split
  · exact congrArg some (hexFlags_odd leaf _).2.1
  · exact congrArg some (hexFlags_even leaf).2

end Trie

end UtispaceChain
