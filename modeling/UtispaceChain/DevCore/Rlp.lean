import UtispaceChain.Lib.BigEndian

/-! Recursive length prefix format, as `RLPStream` writes it and `RLP` reads it.

A reader value is its bare data; a thrown exception is `none`. -/

namespace UtispaceChain.Rlp

open Lib

/-! Writer -/

def pushCount (count base : Nat) : Bytes :=
  UInt8.ofNat ((toCompactBigEndian count).length + base) :: toCompactBigEndian count

def appendBytes (s : Bytes) : Bytes :=
  if s.length = 1 ∧ (s.headD 0).toNat < 0x80 then s
  else if s.length < 56 then UInt8.ofNat (s.length + 0x80) :: s
  else pushCount s.length 0xb7 ++ s

def appendInt (n : Nat) : Bytes :=
  if n = 0 then [0x80]
  else if n < 0x80 then [UInt8.ofNat n]
  else
    let digits := toCompactBigEndian n
    if digits.length < 56 then UInt8.ofNat (digits.length + 0x80) :: digits
    else pushCount digits.length 0xb7 ++ digits

def appendList (payload : Bytes) : Bytes :=
  if payload.length < 56 then UInt8.ofNat (payload.length + 0xc0) :: payload
  else pushCount payload.length 0xf7 ++ payload

/-! Reader -/

def isData : Bytes → Bool
  | [] => false
  | n :: _ => decide (n.toNat < 0xc0)

def isList : Bytes → Bool
  | [] => false
  | n :: _ => decide (0xc0 ≤ n.toNat)

def requireGood : Bytes → Option Unit
  | [] => none
  | n :: rest =>
      if n.toNat ≠ 0x81 then some ()
      else match rest with
        | [] => none
        | b :: _ => if b.toNat < 0x80 then none else some ()

/-- The length field of the long forms: no leading zero, at least 56, and small
enough that adding the payload offset cannot overflow. -/
def longLength (lengthSize : Nat) (rest : Bytes) : Option Nat :=
  if rest.length < lengthSize then none
  else if rest.head? = some 0 then none
  else if 8 < lengthSize then none
  else
    let ret := fromBigEndian (rest.take lengthSize)
    if ret < 56 then none
    else if 2 ^ 64 - 1 - 0x100 ≤ ret then none
    else some ret

def length : Bytes → Option Nat
  | [] => some 0
  | n :: rest =>
      (requireGood (n :: rest)).bind fun _ =>
        if n.toNat < 0x80 then some 1
        else if n.toNat ≤ 0xb7 then some (n.toNat - 0x80)
        else if n.toNat < 0xc0 then longLength (n.toNat - 0xb7) rest
        else if n.toNat ≤ 0xf7 then some (n.toNat - 0xc0)
        else longLength (n.toNat - 0xf7) rest

def payloadOffset : Bytes → Nat
  | [] => 1
  | n :: _ =>
      if n.toNat < 0x80 then 0
      else if n.toNat ≤ 0xb7 then 1
      else if n.toNat < 0xc0 then 1 + (n.toNat - 0xb7)
      else if n.toNat ≤ 0xf7 then 1
      else 1 + (n.toNat - 0xf7)

def cropped (d : Bytes) (start count : Nat) : Bytes :=
  if start + count ≤ d.length then (d.drop start).take count else []

def payload (d : Bytes) : Option Bytes :=
  (length d).bind fun l => if d.length < l then none else some (cropped d (payloadOffset d) l)

def actualSize : Bytes → Option Nat
  | [] => some 0
  | n :: rest =>
      if n.toNat < 0x80 then some 1
      else (length (n :: rest)).map fun l => payloadOffset (n :: rest) + l

def sizeAsEncoded (d : Bytes) : Option Nat :=
  (actualSize d).bind fun size => if d.length < size then none else some size

/-- Construction with `VeryStrict`: the data is exactly one item, or null. -/
def construct (d : Bytes) : Option Bytes :=
  (actualSize d).bind fun size => if size = d.length then some d else none

def itemsOf : Nat → Bytes → Option (List Bytes)
  | _, [] => some []
  | 0, _ :: _ => none
  | fuel + 1, d =>
      (sizeAsEncoded d).bind fun size =>
        (itemsOf fuel (d.drop size)).map fun rest => d.take size :: rest

def items (d : Bytes) : Option (List Bytes) :=
  if isList d then (payload d).bind fun p => itemsOf p.length p else some []

/-- The subscript operator on a payload: later items are not looked at. -/
def nthItem : Nat → Bytes → Option Bytes
  | 0, p => (sizeAsEncoded p).map fun size => p.take size
  | i + 1, p => (sizeAsEncoded p).bind fun size =>
      if size = 0 then some [] else nthItem i (p.drop size)

def item (d : Bytes) (i : Nat) : Option Bytes := (payload d).bind (nthItem i)

def isInt : Bytes → Option Bool
  | [] => some false
  | n :: rest =>
      (requireGood (n :: rest)).bind fun _ =>
        if n.toNat < 0x80 then some (n ≠ 0)
        else if n.toNat = 0x80 then some true
        else if n.toNat ≤ 0xb7 then rest.head?.map (fun b => decide (b ≠ 0))
        else if n.toNat < 0xc0 then (rest[n.toNat - 0xb7]?).map (fun b => decide (b ≠ 0))
        else some false

/-- `toInt<T>()` with the default `Strict` flags, `maxSize` the byte width of `T`. -/
def toInt (maxSize : Nat) (d : Bytes) : Option Nat :=
  (requireGood d).bind fun _ => (isInt d).bind fun canonical =>
    if canonical = false ∨ isList d = true then none
    else (payload d).bind fun p => if maxSize < p.length then none else some (fromBigEndian p)

/-- `toHash<T>(VeryStrict)` for a hash type of `size` bytes. -/
def toHash (size : Nat) (d : Bytes) : Option Nat :=
  (requireGood d).bind fun _ => (payload d).bind fun p =>
    if isData d = true ∧ p.length = size then some (fromBigEndian p) else none

/-- `toHash<T>(LaissezFaire)`: a list reads as the zero hash, other lengths are cropped
or padded on the left. -/
def toHashLax (size : Nat) (d : Bytes) : Option Nat :=
  (requireGood d).bind fun _ => (payload d).map fun p =>
    if isData d then fromBigEndian (p.take size) else 0

/-- `toBytes()` with the default `LaissezFaire` flags: a list reads as the empty string. -/
def toBytes (d : Bytes) : Option Bytes :=
  if isData d then payload d else some []

/-! Complete items -/

def Item (d : Bytes) : Prop := d ≠ [] ∧ actualSize d = some d.length

instance (d : Bytes) : Decidable (Item d) :=
  inferInstanceAs (Decidable (d ≠ [] ∧ actualSize d = some d.length))

theorem longLength_some (k : Nat) (rest : Bytes) (l : Nat) (read : longLength k rest = some l) :
    k ≤ rest.length ∧ rest.head? ≠ some 0 ∧ k ≤ 8 ∧ l = fromBigEndian (rest.take k) ∧
      56 ≤ l ∧ l < 2 ^ 64 - 1 - 0x100 := by
  simp only [longLength] at read
  split at read
  · cases read
  split at read
  · cases read
  split at read
  · cases read
  split at read
  · cases read
  split at read
  · cases read
  cases read
  exact ⟨by omega, by assumption, by omega, rfl, by omega, by omega⟩

theorem longLength_append (k : Nat) (rest r : Bytes) (enough : k ≤ rest.length) (pos : 0 < k) :
    longLength k (rest ++ r) = longLength k rest := by
  have head : (rest ++ r).head? = rest.head? := by
    cases rest with
    | nil => simp at enough; omega
    | cons b rest => rfl
  have front : (rest ++ r).take k = rest.take k := List.take_append_of_le_length enough
  have short : ¬ rest.length < k := by omega
  have long : ¬ (rest ++ r).length < k := by
    rw [List.length_append]
    omega
  simp only [longLength, head, front, short, long, if_false]

theorem requireGood_append (n : UInt8) (rest r : Bytes)
    (enough : n.toNat = 0x81 → rest ≠ []) :
    requireGood (n :: (rest ++ r)) = requireGood (n :: rest) := by
  cases rest with
  | nil =>
      have other : n.toNat ≠ 0x81 := fun h => enough h rfl
      simp [requireGood, other]
  | cons b rest => rfl

theorem Item.forms (n : UInt8) (rest : Bytes) (whole : Item (n :: rest)) :
    (n.toNat < 0x80 ∧ rest = []) ∨
    (0x80 ≤ n.toNat ∧ n.toNat ≤ 0xb7 ∧ requireGood (n :: rest) = some () ∧
      rest.length = n.toNat - 0x80) ∨
    (0xb8 ≤ n.toNat ∧ n.toNat ≤ 0xbf ∧ ∃ l, longLength (n.toNat - 0xb7) rest = some l ∧
      rest.length = (n.toNat - 0xb7) + l) ∨
    (0xc0 ≤ n.toNat ∧ n.toNat ≤ 0xf7 ∧ rest.length = n.toNat - 0xc0) ∨
    (0xf8 ≤ n.toNat ∧ ∃ l, longLength (n.toNat - 0xf7) rest = some l ∧
      rest.length = (n.toNat - 0xf7) + l) := by
  have size := whole.2
  simp only [actualSize, length, payloadOffset] at size
  by_cases single : n.toNat < 0x80
  · rw [if_pos single] at size
    left
    have one : (n :: rest).length = 1 := by simpa using size.symm
    exact ⟨single, by simpa using one⟩
  rw [if_neg single] at size
  cases good : requireGood (n :: rest) with
  | none => simp [good] at size
  | some u =>
      simp only [good, Option.bind_some, if_neg single] at size
      by_cases short : n.toNat ≤ 0xb7
      · simp only [if_pos short, Option.map_some, Option.some.injEq, List.length_cons] at size
        exact Or.inr (Or.inl ⟨by omega, short, rfl, by omega⟩)
      by_cases data : n.toNat < 0xc0
      · simp only [if_neg short, if_pos data] at size
        obtain ⟨l, read, total⟩ := Option.map_eq_some_iff.mp size
        rw [List.length_cons] at total
        exact Or.inr (Or.inr (Or.inl ⟨by omega, by omega, l, read, by omega⟩))
      by_cases list : n.toNat ≤ 0xf7
      · simp only [if_neg short, if_neg data, if_pos list, Option.map_some, Option.some.injEq,
          List.length_cons] at size
        exact Or.inr (Or.inr (Or.inr (Or.inl ⟨by omega, list, by omega⟩)))
      · simp only [if_neg short, if_neg data, if_neg list] at size
        obtain ⟨l, read, total⟩ := Option.map_eq_some_iff.mp size
        rw [List.length_cons] at total
        exact Or.inr (Or.inr (Or.inr (Or.inr ⟨by omega, l, read, by omega⟩)))

theorem Item.read (d : Bytes) (whole : Item d) :
    ∃ o l, d.length = o + l ∧
      ∀ r, length (d ++ r) = some l ∧ payloadOffset (d ++ r) = o ∧
      actualSize (d ++ r) = some (o + l) := by
  cases d with
  | nil => exact absurd rfl whole.1
  | cons n rest =>
      rcases Item.forms n rest whole with ⟨single, empty⟩ | ⟨low, high, good, size⟩ |
        ⟨low, high, l, read, size⟩ | ⟨low, high, size⟩ | ⟨low, l, read, size⟩
      · subst empty
        refine ⟨0, 1, rfl, ?_⟩
        intro r
        have other : n.toNat ≠ 0x81 := by omega
        simp [length, payloadOffset, actualSize, requireGood, single, other]
      · refine ⟨1, n.toNat - 0x80, by rw [List.length_cons]; omega, ?_⟩
        intro r
        have single : ¬ n.toNat < 0x80 := by omega
        have same := requireGood_append n rest r (by
          intro shape empty
          rw [empty, List.length_nil] at size
          omega)
        simp [length, payloadOffset, actualSize, same, good, single, high]
      · obtain ⟨enough, -⟩ := longLength_some _ _ _ read
        refine ⟨1 + (n.toNat - 0xb7), l, by rw [List.length_cons]; omega, ?_⟩
        intro r
        have single : ¬ n.toNat < 0x80 := by omega
        have short : ¬ n.toNat ≤ 0xb7 := by omega
        have data : n.toNat < 0xc0 := by omega
        have other : n.toNat ≠ 0x81 := by omega
        have same := longLength_append (n.toNat - 0xb7) rest r enough (by omega)
        simp [length, payloadOffset, actualSize, requireGood, same, read, single, short,
          data, other]
      · refine ⟨1, n.toNat - 0xc0, by rw [List.length_cons]; omega, ?_⟩
        intro r
        have single : ¬ n.toNat < 0x80 := by omega
        have short : ¬ n.toNat ≤ 0xb7 := by omega
        have data : ¬ n.toNat < 0xc0 := by omega
        have other : n.toNat ≠ 0x81 := by omega
        simp [length, payloadOffset, actualSize, requireGood, single, short, data, high, other]
      · obtain ⟨enough, -⟩ := longLength_some _ _ _ read
        refine ⟨1 + (n.toNat - 0xf7), l, by rw [List.length_cons]; omega, ?_⟩
        intro r
        have single : ¬ n.toNat < 0x80 := by omega
        have short : ¬ n.toNat ≤ 0xb7 := by omega
        have data : ¬ n.toNat < 0xc0 := by omega
        have list : ¬ n.toNat ≤ 0xf7 := by omega
        have other : n.toNat ≠ 0x81 := by omega
        have same := longLength_append (n.toNat - 0xf7) rest r enough (by omega)
        simp [length, payloadOffset, actualSize, requireGood, same, read, single, short, data, list,
          other]

theorem Item.actualSize_append (d r : Bytes) (whole : Item d) :
    actualSize (d ++ r) = some d.length := by
  obtain ⟨o, l, size, read⟩ := whole.read
  rw [(read r).2.2, size]

theorem Item.append_inj (d e r s : Bytes) (left : Item d) (right : Item e)
    (same : d ++ r = e ++ s) : d = e ∧ r = s := by
  have leftSize := left.actualSize_append d r
  have rightSize := right.actualSize_append e s
  rw [same, rightSize] at leftSize
  exact List.append_inj same (Option.some.inj leftSize).symm

/-! The reader accepts only what the writer emits -/

theorem payload_of_item (d : Bytes) (whole : Item d) :
    payload d = some (d.drop (payloadOffset d)) := by
  obtain ⟨o, l, size, read⟩ := whole.read
  have here := read []
  rw [List.append_nil] at here
  have fits : ¬ d.length < l := by omega
  have inside : o + l ≤ d.length := by omega
  have rest : (d.drop o).take l = d.drop o := by
    apply List.take_of_length_le
    rw [List.length_drop]
    omega
  simp only [payload, here.1, here.2.1, Option.bind_some, if_neg fits, cropped, if_pos inside, rest]

theorem ofNat_toNat_add (n : UInt8) (count base : Nat) (value : n.toNat = count + base) :
    UInt8.ofNat (count + base) = n := by
  rw [← value]
  exact UInt8.ofNat_toNat

theorem long_header (n : UInt8) (rest : Bytes) (base l : Nat)
    (read : longLength (n.toNat - base) rest = some l) (above : base < n.toNat)
    (size : rest.length = (n.toNat - base) + l) :
    n :: rest = pushCount (rest.drop (n.toNat - base)).length base ++
      rest.drop (n.toNat - base) := by
  obtain ⟨enough, leading, -, value, -, -⟩ := longLength_some _ _ _ read
  have payloadSize : (rest.drop (n.toNat - base)).length = l := by
    rw [List.length_drop]
    omega
  have digits : toCompactBigEndian l = rest.take (n.toNat - base) := by
    rw [value]
    apply toCompact_fromBigEndian
    intro byte tail shape zero
    apply leading
    cases rest with
    | nil => simp at shape
    | cons first more =>
        rw [List.take_cons (by omega)] at shape
        have same : first = byte := (List.cons.inj shape).1
        rw [List.head?_cons, same, zero]
  have width : (rest.take (n.toNat - base)).length = n.toNat - base := by
    rw [List.length_take]
    omega
  have first : UInt8.ofNat ((n.toNat - base) + base) = n := ofNat_toNat_add n _ _ (by omega)
  rw [payloadSize, pushCount, digits, width, first, List.cons_append, List.take_append_drop]

theorem Item.eq_appendBytes (d : Bytes) (whole : Item d) (data : isData d = true) :
    ∃ p, payload d = some p ∧ d = appendBytes p := by
  refine ⟨d.drop (payloadOffset d), payload_of_item d whole, ?_⟩
  cases d with
  | nil => exact absurd rfl whole.1
  | cons n rest =>
      have below : n.toNat < 0xc0 := by simpa [isData] using data
      rcases Item.forms n rest whole with ⟨single, empty⟩ | ⟨low, high, good, size⟩ |
        ⟨low, high, l, read, size⟩ | ⟨low, high, size⟩ | ⟨low, l, read, size⟩
      · subst empty
        simp [payloadOffset, appendBytes, single]
      · have notSingle : ¬ n.toNat < 0x80 := by omega
        have tail : (n :: rest).drop (payloadOffset (n :: rest)) = rest := by
          simp [payloadOffset, notSingle, high]
        have wide : ¬ (rest.length = 1 ∧ (rest.headD 0).toNat < 0x80) := by
          intro ⟨one, small⟩
          have shape : n.toNat = 0x81 := by omega
          cases rest with
          | nil => cases one
          | cons b more =>
              have lower : b.toNat < 0x80 := small
              simp [requireGood, shape, lower] at good
        have short : rest.length < 56 := by omega
        have first : UInt8.ofNat (rest.length + 0x80) = n := ofNat_toNat_add n _ _ (by omega)
        rw [tail, appendBytes, if_neg wide, if_pos short, first]
      · obtain ⟨enough, -, -, -, large, -⟩ := longLength_some _ _ _ read
        have single : ¬ n.toNat < 0x80 := by omega
        have short : ¬ n.toNat ≤ 0xb7 := by omega
        have tail : (n :: rest).drop (payloadOffset (n :: rest)) = rest.drop (n.toNat - 0xb7) := by
          simp [payloadOffset, single, short, below, Nat.add_comm 1]
        have length : (rest.drop (n.toNat - 0xb7)).length = l := by
          rw [List.length_drop]
          omega
        have wide : ¬ ((rest.drop (n.toNat - 0xb7)).length = 1 ∧
            ((rest.drop (n.toNat - 0xb7)).headD 0).toNat < 0x80) := by omega
        have long : ¬ (rest.drop (n.toNat - 0xb7)).length < 56 := by omega
        rw [tail, appendBytes, if_neg wide, if_neg long]
        exact long_header n rest 0xb7 l read (by omega) size
      · omega
      · omega

theorem Item.eq_appendList (d : Bytes) (whole : Item d) (list : isList d = true) :
    ∃ p, payload d = some p ∧ d = appendList p := by
  refine ⟨d.drop (payloadOffset d), payload_of_item d whole, ?_⟩
  cases d with
  | nil => exact absurd rfl whole.1
  | cons n rest =>
      have above : 0xc0 ≤ n.toNat := by simpa [isList] using list
      have single : ¬ n.toNat < 0x80 := by omega
      have shortData : ¬ n.toNat ≤ 0xb7 := by omega
      have data : ¬ n.toNat < 0xc0 := by omega
      rcases Item.forms n rest whole with ⟨low, -⟩ | ⟨-, high, -⟩ | ⟨-, high, -⟩ |
        ⟨low, high, size⟩ | ⟨low, l, read, size⟩
      · omega
      · omega
      · omega
      · have tail : (n :: rest).drop (payloadOffset (n :: rest)) = rest := by
          simp [payloadOffset, single, shortData, data, high]
        have short : rest.length < 56 := by omega
        have first : UInt8.ofNat (rest.length + 0xc0) = n := ofNat_toNat_add n _ _ (by omega)
        rw [tail, appendList, if_pos short, first]
      · obtain ⟨enough, -, -, -, large, -⟩ := longLength_some _ _ _ read
        have shortList : ¬ n.toNat ≤ 0xf7 := by omega
        have tail : (n :: rest).drop (payloadOffset (n :: rest)) = rest.drop (n.toNat - 0xf7) := by
          simp [payloadOffset, single, shortData, data, shortList, Nat.add_comm 1]
        have length : (rest.drop (n.toNat - 0xf7)).length = l := by
          rw [List.length_drop]
          omega
        have long : ¬ (rest.drop (n.toNat - 0xf7)).length < 56 := by omega
        rw [tail, appendList, if_neg long]
        exact long_header n rest 0xf7 l read (by omega) size

/-! What the writer emits is one item -/

def maxLength : Nat := 2 ^ 64 - 1 - 0x100

theorem compact_width (count : Nat) (large : 56 ≤ count) (bound : count < maxLength) :
    1 ≤ (toCompactBigEndian count).length ∧ (toCompactBigEndian count).length ≤ 8 := by
  constructor
  · rcases Nat.eq_zero_or_pos (toCompactBigEndian count).length with zero | pos
    · have empty : toCompactBigEndian count = [] := List.length_eq_zero_iff.mp zero
      have value := fromBigEndian_toCompact count
      rw [empty] at value
      simp [fromBigEndian] at value
      omega
    · exact pos
  · apply toCompactBigEndian_length_le
    have top : maxLength < 256 ^ 8 := by decide
    omega

theorem longLength_compact (count : Nat) (large : 56 ≤ count) (bound : count < maxLength)
    (r : Bytes) :
    longLength (toCompactBigEndian count).length (toCompactBigEndian count ++ r) = some count := by
  obtain ⟨least, most⟩ := compact_width count large bound
  have enough : ¬ (toCompactBigEndian count ++ r).length < (toCompactBigEndian count).length := by
    rw [List.length_append]
    omega
  have leading : (toCompactBigEndian count ++ r).head? ≠ some 0 := by
    cases shape : toCompactBigEndian count with
    | nil => rw [shape] at least; simp at least
    | cons byte rest =>
        have nonzero := toCompact_leading count byte rest shape
        simp [nonzero]
  have narrow : ¬ 8 < (toCompactBigEndian count).length := by omega
  have small : ¬ count < 56 := by omega
  have below : ¬ 2 ^ 64 - 1 - 0x100 ≤ count := by
    unfold maxLength at bound
    omega
  simp only [longLength, if_neg enough, if_neg leading, if_neg narrow, List.take_left',
    fromBigEndian_toCompact, if_neg small, if_neg below]

theorem ofNat_toNat_lt (k : Nat) (bound : k < 256) : (UInt8.ofNat k).toNat = k := by
  rw [UInt8.toNat_ofNat']
  omega

theorem item_appendBytes (s : Bytes) (bound : s.length < maxLength) :
    Item (appendBytes s) ∧ isData (appendBytes s) = true := by
  unfold appendBytes
  by_cases single : s.length = 1 ∧ (s.headD 0).toNat < 0x80
  · rw [if_pos single]
    obtain ⟨b, shape⟩ := List.length_eq_one_iff.mp single.1
    subst shape
    have small : b.toNat < 0x80 := single.2
    have data : b.toNat < 0xc0 := by omega
    simp [Item, actualSize, isData, small, data]
  rw [if_neg single]
  by_cases short : s.length < 56
  · rw [if_pos short]
    have first := ofNat_toNat_lt (s.length + 0x80) (by omega)
    have notSingle : ¬ s.length + 0x80 < 0x80 := by omega
    have high : s.length + 0x80 ≤ 0xb7 := by omega
    have data : s.length + 0x80 < 0xc0 := by omega
    have good : requireGood (UInt8.ofNat (s.length + 0x80) :: s) = some () := by
      by_cases one : s.length = 1
      · obtain ⟨b, shape⟩ := List.length_eq_one_iff.mp one
        subst shape
        have large : ¬ b.toNat < 0x80 := fun small => single ⟨rfl, small⟩
        simp [requireGood, large]
      · have other : s.length + 0x80 ≠ 0x81 := by omega
        simp only [requireGood, first, if_pos other]
    refine ⟨⟨List.cons_ne_nil _ _, ?_⟩, ?_⟩
    · simp only [actualSize, length, payloadOffset, good, first, if_neg notSingle, if_pos high,
        Option.bind_some, Option.map_some, List.length_cons, Option.some.injEq]
      omega
    · simp only [isData, first, data, decide_true]
  · rw [if_neg short]
    obtain ⟨least, most⟩ := compact_width s.length (by omega) bound
    have first := ofNat_toNat_lt ((toCompactBigEndian s.length).length + 0xb7) (by omega)
    have read := longLength_compact s.length (by omega) bound s
    have notSingle : ¬ (toCompactBigEndian s.length).length + 0xb7 < 0x80 := by omega
    have notShort : ¬ (toCompactBigEndian s.length).length + 0xb7 ≤ 0xb7 := by omega
    have data : (toCompactBigEndian s.length).length + 0xb7 < 0xc0 := by omega
    have other : (toCompactBigEndian s.length).length + 0xb7 ≠ 0x81 := by omega
    have width : (toCompactBigEndian s.length).length + 0xb7 - 0xb7 =
        (toCompactBigEndian s.length).length := by omega
    refine ⟨⟨List.cons_ne_nil _ _, ?_⟩, ?_⟩
    · simp only [pushCount, List.cons_append, actualSize, length, payloadOffset, requireGood, first,
        if_neg notSingle, if_neg notShort, if_pos data, if_pos other, width, read, Option.bind_some,
        Option.map_some, List.length_cons, List.length_append, Option.some.injEq]
      omega
    · simp only [pushCount, List.cons_append, isData, first, data, decide_true]

theorem item_appendList (s : Bytes) (bound : s.length < maxLength) :
    Item (appendList s) ∧ isList (appendList s) = true := by
  unfold appendList
  by_cases short : s.length < 56
  · rw [if_pos short]
    have first := ofNat_toNat_lt (s.length + 0xc0) (by omega)
    have notSingle : ¬ s.length + 0xc0 < 0x80 := by omega
    have notShort : ¬ s.length + 0xc0 ≤ 0xb7 := by omega
    have notData : ¬ s.length + 0xc0 < 0xc0 := by omega
    have high : s.length + 0xc0 ≤ 0xf7 := by omega
    have list : 0xc0 ≤ s.length + 0xc0 := by omega
    have other : s.length + 0xc0 ≠ 0x81 := by omega
    refine ⟨⟨List.cons_ne_nil _ _, ?_⟩, ?_⟩
    · simp only [actualSize, length, payloadOffset, requireGood, first, if_neg notSingle,
        if_neg notShort, if_neg notData, if_pos high, if_pos other, Option.bind_some,
        Option.map_some, List.length_cons, Option.some.injEq]
      omega
    · simp only [isList, first, list, decide_true]
  · rw [if_neg short]
    obtain ⟨least, most⟩ := compact_width s.length (by omega) bound
    have first := ofNat_toNat_lt ((toCompactBigEndian s.length).length + 0xf7) (by omega)
    have read := longLength_compact s.length (by omega) bound s
    have notSingle : ¬ (toCompactBigEndian s.length).length + 0xf7 < 0x80 := by omega
    have notShort : ¬ (toCompactBigEndian s.length).length + 0xf7 ≤ 0xb7 := by omega
    have notData : ¬ (toCompactBigEndian s.length).length + 0xf7 < 0xc0 := by omega
    have notShortList : ¬ (toCompactBigEndian s.length).length + 0xf7 ≤ 0xf7 := by omega
    have list : 0xc0 ≤ (toCompactBigEndian s.length).length + 0xf7 := by omega
    have other : (toCompactBigEndian s.length).length + 0xf7 ≠ 0x81 := by omega
    have width : (toCompactBigEndian s.length).length + 0xf7 - 0xf7 =
        (toCompactBigEndian s.length).length := by omega
    refine ⟨⟨List.cons_ne_nil _ _, ?_⟩, ?_⟩
    · simp only [pushCount, List.cons_append, actualSize, length, payloadOffset, requireGood, first,
        if_neg notSingle, if_neg notShort, if_neg notData, if_neg notShortList, if_pos other, width,
        read, Option.bind_some, Option.map_some, List.length_cons, List.length_append,
        Option.some.injEq]
      omega
    · simp only [pushCount, List.cons_append, isList, first, list, decide_true]

theorem payload_appendBytes (s : Bytes) (bound : s.length < maxLength) :
    payload (appendBytes s) = some s := by
  rw [payload_of_item _ (item_appendBytes s bound).1]
  unfold appendBytes
  by_cases single : s.length = 1 ∧ (s.headD 0).toNat < 0x80
  · rw [if_pos single]
    obtain ⟨b, shape⟩ := List.length_eq_one_iff.mp single.1
    subst shape
    have small : b.toNat < 0x80 := single.2
    simp [payloadOffset, small]
  rw [if_neg single]
  by_cases short : s.length < 56
  · have first := ofNat_toNat_lt (s.length + 0x80) (by omega)
    have notSingle : ¬ s.length + 0x80 < 0x80 := by omega
    have high : s.length + 0x80 ≤ 0xb7 := by omega
    simp only [if_pos short, payloadOffset, first, if_neg notSingle, if_pos high,
      List.drop_succ_cons, List.drop_zero]
  · obtain ⟨least, most⟩ := compact_width s.length (by omega) bound
    have first := ofNat_toNat_lt ((toCompactBigEndian s.length).length + 0xb7) (by omega)
    have notSingle : ¬ (toCompactBigEndian s.length).length + 0xb7 < 0x80 := by omega
    have notShort : ¬ (toCompactBigEndian s.length).length + 0xb7 ≤ 0xb7 := by omega
    have data : (toCompactBigEndian s.length).length + 0xb7 < 0xc0 := by omega
    simp only [if_neg short, pushCount, List.cons_append, payloadOffset, first, if_neg notSingle,
      if_neg notShort, if_pos data, Nat.add_sub_cancel, Nat.add_comm 1, List.drop_succ_cons,
      List.drop_left']

theorem payload_appendList (s : Bytes) (bound : s.length < maxLength) :
    payload (appendList s) = some s := by
  rw [payload_of_item _ (item_appendList s bound).1]
  unfold appendList
  by_cases short : s.length < 56
  · have first := ofNat_toNat_lt (s.length + 0xc0) (by omega)
    have notSingle : ¬ s.length + 0xc0 < 0x80 := by omega
    have notShort : ¬ s.length + 0xc0 ≤ 0xb7 := by omega
    have notData : ¬ s.length + 0xc0 < 0xc0 := by omega
    have high : s.length + 0xc0 ≤ 0xf7 := by omega
    simp only [if_pos short, payloadOffset, first, if_neg notSingle, if_neg notShort,
      if_neg notData, if_pos high, List.drop_succ_cons, List.drop_zero]
  · obtain ⟨least, most⟩ := compact_width s.length (by omega) bound
    have first := ofNat_toNat_lt ((toCompactBigEndian s.length).length + 0xf7) (by omega)
    have notSingle : ¬ (toCompactBigEndian s.length).length + 0xf7 < 0x80 := by omega
    have notShort : ¬ (toCompactBigEndian s.length).length + 0xf7 ≤ 0xb7 := by omega
    have notData : ¬ (toCompactBigEndian s.length).length + 0xf7 < 0xc0 := by omega
    have notShortList : ¬ (toCompactBigEndian s.length).length + 0xf7 ≤ 0xf7 := by omega
    simp only [if_neg short, pushCount, List.cons_append, payloadOffset, first, if_neg notSingle,
      if_neg notShort, if_neg notData, if_neg notShortList, Nat.add_sub_cancel, Nat.add_comm 1,
      List.drop_succ_cons, List.drop_left']

theorem appendInt_eq (n : Nat) : appendInt n = appendBytes (toCompactBigEndian n) := by
  rcases Nat.eq_zero_or_pos n with zero | pos
  · subst zero
    rfl
  have nonzero : n ≠ 0 := by omega
  by_cases small : n < 0x80
  · have digits : toCompactBigEndian n = [UInt8.ofNat n] := by
      rw [toCompactBigEndian_pos n pos, Nat.div_eq_of_lt (by omega), toCompactBigEndian_zero,
        List.nil_append]
    have byte := ofNat_toNat_lt n (by omega)
    simp [appendInt, appendBytes, digits, nonzero, small, Nat.mod_eq_of_lt (show n < 256 by omega)]
  · have wide : ¬ ((toCompactBigEndian n).length = 1 ∧
        ((toCompactBigEndian n).headD 0).toNat < 0x80) := by
      intro ⟨one, low⟩
      obtain ⟨b, shape⟩ := List.length_eq_one_iff.mp one
      have value := fromBigEndian_toCompact n
      rw [shape] at value low
      have lower : b.toNat < 0x80 := low
      have equal : b.toNat = n := by simpa [fromBigEndian] using value
      omega
    simp only [appendInt, if_neg nonzero, if_neg small, appendBytes, if_neg wide]

theorem item_appendInt (n : Nat) (bound : n < 2 ^ 256) : Item (appendInt n) := by
  rw [appendInt_eq]
  have width : (toCompactBigEndian n).length ≤ 32 :=
    toCompactBigEndian_length_le 32 n (by simpa using bound)
  have room : 32 < maxLength := by decide
  exact (item_appendBytes _ (by omega)).1

theorem appendInt_append_inj (m n : Nat) (r s : Bytes) (left : m < 2 ^ 256) (right : n < 2 ^ 256)
    (same : appendInt m ++ r = appendInt n ++ s) : m = n ∧ r = s := by
  obtain ⟨first, rest⟩ :=
    Item.append_inj _ _ r s (item_appendInt m left) (item_appendInt n right) same
  refine ⟨?_, rest⟩
  have room : 32 < maxLength := by decide
  have leftWidth : (toCompactBigEndian m).length ≤ 32 :=
    toCompactBigEndian_length_le 32 m (by simpa using left)
  have rightWidth : (toCompactBigEndian n).length ≤ 32 :=
    toCompactBigEndian_length_le 32 n (by simpa using right)
  have leftPayload := payload_appendBytes (toCompactBigEndian m) (by omega)
  have rightPayload := payload_appendBytes (toCompactBigEndian n) (by omega)
  rw [← appendInt_eq, first, appendInt_eq, rightPayload] at leftPayload
  exact (toCompactBigEndian_injective (Option.some.inj leftPayload)).symm

end UtispaceChain.Rlp
