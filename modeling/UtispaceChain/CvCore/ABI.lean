import UtispaceChain.Lib.FixedBytes
import UtispaceChain.Lib.HeadTail

/-! The arguments and results of calls of the system contracts, in the two codecs that the node has
for them. -/

namespace UtispaceChain.Abi

open Lib

inductive Value
  | u256 (value : BitVec 256)
  | u160 (value : BitVec 160)
  | byte (value : UInt8)
  | string32 (value : FixedBytes 32)
  | string (value : Bytes)
  | bool (value : Bool)
  | fixedHash (N : Nat) (small : 0 < N ∧ N ≤ 32) (value : FixedBytes N)
  deriving DecidableEq

inductive ValueType
  | u256
  | u160
  | byte
  | string32
  | string
  | bool
  | fixedHash (N : Nat) (small : 0 < N ∧ N ≤ 32)
  deriving DecidableEq

def Value.type : Value → ValueType
  | .u256 _ => .u256
  | .u160 _ => .u160
  | .byte _ => .byte
  | .string32 _ => .string32
  | .string _ => .string
  | .bool _ => .bool
  | .fixedHash N small _ => .fixedHash N small

/-! Views of bytes -/

def sizeT (n : Nat) : Nat := n % 2 ^ 64

/-- `vector_ref::cropped`; `none` if it does not lie within the bytes that it is taken of. -/
def cropped (data : Bytes) (start count : Nat) : Option Bytes :=
  if start ≤ data.length ∧ count ≤ data.length ∧ sizeT (start + count) ≤ data.length then
    if start + count ≤ data.length then some ((data.drop start).take count) else none
  else some []

/-- The length of a string and its bytes, up to a multiple of 32. -/
def stringData (s : Bytes) : Bytes :=
  toBigEndian 32 s.length ++ (populate s ((s.length + 31) / 32 * 32)).val

/-! What the bytes of a call are: a slot of 32 bytes for each argument, and behind them the
strings -/

def Value.item : Value → Item UInt8
  | .u256 value => .word (toBigEndian 32 value.toNat)
  | .u160 value => .word (zeros 12 ++ toBigEndian 20 value.toNat)
  | .byte value => .word (zeros 31 ++ [value])
  | .string32 value => .word value.val
  | .string value => .tail (stringData value)
  | .bool value => .word (zeros 31 ++ [value.toUInt8])
  | .fixedHash N _ value => .word (zeros (32 - N) ++ value.val)

def layout (values : List Value) : Bytes := Item.record (toBigEndian 32) 32 (values.map Value.item)

def selector (sha3 : Bytes → FixedBytes 32) (id : Bytes) : Bytes := (sha3 id).val.take 4

/-! The class `ContractABI` -/

structure DynamicItem where
  data : Bytes
  offset : Nat

structure ContractABI where
  fixedItems : List Bytes := []
  dynamicItems : List DynamicItem := []

namespace ContractABI

/-- There is a `serialise` for it. -/
def Takes : Value → Bool
  | .bool _ | .fixedHash _ _ _ => false
  | _ => true

abbrev Argument := {value : Value // Takes value = true}

def pushItem (slot : Bytes) (abi : ContractABI) : ContractABI :=
  { abi with fixedItems := abi.fixedItems ++ [slot] }

def serialise (abi : ContractABI) : Argument → ContractABI
  | ⟨.u256 value, _⟩ => abi.pushItem (toBigEndian 32 value.toNat)
  -- `bytes(_t)` is a vector of `_t` zeros
  | ⟨.byte value, _⟩ => abi.pushItem (zeros 31 ++ zeros value.toNat)
  | ⟨.u160 value, _⟩ => abi.pushItem (zeros 12 ++ toBigEndian 20 value.toNat)
  -- the vector that is populated has no bytes
  | ⟨.string32 value, _⟩ => abi.pushItem (populate value.val 0).val
  | ⟨.string value, _⟩ =>
      let item : DynamicItem := { data := stringData value, offset := abi.fixedItems.length }
      let abi := abi.pushItem (toBigEndian 32 0)
      { abi with dynamicItems := abi.dynamicItems ++ [item] }

def abiInAux (abi : ContractABI) (arguments : List Argument) : ContractABI :=
  arguments.foldl serialise abi

/-- `h256(offset)` takes the offset as an `unsigned`. -/
def offsetHash (offset : Nat) : Bytes := toBigEndian 32 (UInt32.ofNat offset).toNat

def patch (abi : ContractABI) : ContractABI :=
  { abi with fixedItems := (abi.dynamicItems.foldl (fun sofar it =>
      (sofar.1.set it.offset (offsetHash sofar.2), sofar.2 + it.data.length))
      (abi.fixedItems, abi.fixedItems.length * 32)).1 }

def abiIn (sha3 : Bytes → FixedBytes 32) (id : Bytes) (arguments : List Argument) : Bytes :=
  let abi := (abiInAux {} arguments).patch
  selector sha3 id ++ abi.fixedItems.flatten ++ abi.dynamicItems.flatMap DynamicItem.data

def deserialise (data : Bytes) (decodeOffset : Nat) : ValueType → Option Value
  | .fixedHash N small =>
      (cropped data (decodeOffset * 32 + 32 - N) N).map fun view =>
        .fixedHash N small (populate view N)
  | .u256 => (cropped data (decodeOffset * 32) 32).map fun view =>
      .u256 (BitVec.ofNat 256 (fromBigEndian view))
  | .u160 => (cropped data (decodeOffset * 32 + 12) 20).map fun view =>
      .u160 (BitVec.ofNat 160 (fromBigEndian view))
  | .byte => (cropped data (decodeOffset * 32 + 31) 1).map fun view =>
      .byte (UInt8.ofNat (fromBigEndian view))
  | .string32 => (cropped data 0 32).map fun view => .string32 (populate view 32)
  | .bool => (cropped data 0 32).map fun view => .bool (decide (0 < fromBigEndian view))
  | .string =>
      (cropped data (decodeOffset * 32) 32).bind fun offset =>
        (cropped data (sizeT (fromBigEndian offset)) 32).bind fun len =>
          (cropped data (sizeT (sizeT (fromBigEndian offset) + 32)) (sizeT (fromBigEndian len))).map
            .string

def abiOutAux (data : Bytes) : Nat → List ValueType → Option (List Value)
  | _, [] => some []
  | decodeOffset, type :: types =>
      (deserialise data decodeOffset type).bind fun value =>
        (abiOutAux data (decodeOffset + 1) types).map (value :: ·)

def abiOut (data : Bytes) (types : List ValueType) : Option (List Value) := abiOutAux data 0 types

end ContractABI

/-! The free functions -/

namespace ABISerialiser

/-- There is an `ABISerialiser` for it. -/
def Takes : Value → Bool
  | .bool _ | .byte _ => false
  | _ => true

abbrev Argument := {value : Value // Takes value = true}

def serialise : Argument → Bytes
  | ⟨.fixedHash N _ value, _⟩ => zeros (32 - N) ++ value.val
  | ⟨.u256 value, _⟩ => toBigEndian 32 value.toNat
  | ⟨.u160 value, _⟩ => zeros 12 ++ toBigEndian 20 value.toNat
  | ⟨.string32 value, _⟩ => (populate value.val 0).val
  | ⟨.string value, _⟩ => toBigEndian 32 32 ++ stringData value

def abiInAux (arguments : List Argument) : Bytes := arguments.flatMap serialise

def abiIn (sha3 : Bytes → FixedBytes 32) (id : Bytes) (arguments : List Argument) : Bytes :=
  selector sha3 id ++ abiInAux arguments

end ABISerialiser

namespace ABIDeserialiser

/-- There is no `ABIDeserialiser` for a byte. -/
abbrev Result := {type : ValueType // type ≠ .byte}

/-- `h256` of a view, which is zero unless the view has 32 bytes; as a number, with 16 bits kept. -/
def low16 (view : Bytes) : Nat :=
  (fromBigEndian (if view.length = 32 then view else zeros 32)) % 2 ^ 16

def deserialise (io : Bytes) : Result → Option (Value × Bytes)
  | ⟨.fixedHash N small, _⟩ =>
      (cropped io (32 - N) N).map fun view => (.fixedHash N small (populate view N), io.drop 32)
  | ⟨.u256, _⟩ =>
      (cropped io 0 32).map fun view => (.u256 (BitVec.ofNat 256 (fromBigEndian view)), io.drop 32)
  | ⟨.u160, _⟩ =>
      (cropped io 12 20).map fun view => (.u160 (BitVec.ofNat 160 (fromBigEndian view)), io.drop 32)
  | ⟨.string32, _⟩ => (cropped io 0 32).map fun view => (.string32 (populate view 32), io.drop 32)
  | ⟨.bool, _⟩ =>
      (cropped io 0 32).map fun view => (.bool (decide (0 < fromBigEndian view)), io.drop 32)
  | ⟨.string, _⟩ =>
      (cropped io 0 32).bind fun offset =>
        (cropped io (low16 offset) 32).bind fun size =>
          (cropped io (low16 offset + 32) (low16 size)).map fun view =>
            (.string (populate view (low16 size)).val, io.drop 32)

/-- `abiOut` again and again, with the view that it advances. -/
def abiOut : Bytes → List Result → Option (List Value)
  | _, [] => some []
  | io, type :: types =>
      (deserialise io type).bind fun next => (abiOut next.2 types).map (next.1 :: ·)

end ABIDeserialiser

/-! Views within their bytes -/

def Addressable (data : Bytes) : Prop := data.length < 2 ^ 63

theorem sizeT_eq {n : Nat} (small : n < 2 ^ 64) : sizeT n = n := Nat.mod_eq_of_lt small

theorem isSome_cropped {data : Bytes} (addressable : Addressable data) (start count : Nat) :
    (cropped data start count).isSome = true := by
  unfold cropped
  split_ifs with inside within
  · rfl
  · have bound : data.length < 2 ^ 63 := addressable
    rw [sizeT_eq (by omega)] at inside
    exact absurd inside.2.2 within
  · rfl

theorem cropped_append {front view back : Bytes}
    (addressable : Addressable (front ++ (view ++ back))) {start count : Nat}
    (begins : front.length = start) (size : view.length = count) :
    cropped (front ++ (view ++ back)) start count = some view := by
  have bound : (front ++ (view ++ back)).length < 2 ^ 63 := addressable
  have total : (front ++ (view ++ back)).length = start + (count + back.length) := by
    rw [List.length_append, List.length_append, begins, size]
  have small : sizeT (start + count) = start + count := sizeT_eq (by omega)
  unfold cropped
  rw [if_pos (by rw [small]; omega), if_pos (by omega), List.drop_left' begins,
    List.take_left' size]

theorem cropped_front {view back : Bytes} (addressable : Addressable (view ++ back)) {count : Nat}
    (size : view.length = count) : cropped (view ++ back) 0 count = some view :=
  @cropped_append [] view back addressable 0 count List.length_nil size

theorem stringData_eq (s : Bytes) :
    ∃ padding, stringData s = toBigEndian 32 s.length ++ (s ++ padding) := by
  refine ⟨List.replicate ((s.length + 31) / 32 * 32 - s.length) 0, ?_⟩
  simp only [stringData, populate]
  rw [List.take_of_length_le (by omega)]

theorem length_stringData (s : Bytes) : s.length + 32 ≤ (stringData s).length := by
  rcases stringData_eq s with ⟨padding, data⟩
  rw [data, List.length_append, List.length_append, toBigEndian_length]
  omega

theorem fromBigEndian_word {n : Nat} (small : n < 2 ^ 256) : fromBigEndian (toBigEndian 32 n) = n :=
  fromBigEndian_toBigEndian 32 n small

theorem toBigEndian_word_inj {n m : Nat} (small : n < 2 ^ 256) (small' : m < 2 ^ 256) :
    toBigEndian 32 n = toBigEndian 32 m ↔ n = m := by
  constructor
  · intro same
    have values := congrArg fromBigEndian same
    rw [fromBigEndian_word small, fromBigEndian_word small'] at values
    exact values
  · rintro rfl
    rfl

/-! What is read back from its slot -/

theorem u256_word (value : BitVec 256) :
    BitVec.ofNat 256 (fromBigEndian (toBigEndian 32 value.toNat)) = value := by
  rw [fromBigEndian_word value.isLt, BitVec.ofNat_toNat, BitVec.setWidth_eq]

theorem u160_word (value : BitVec 160) :
    BitVec.ofNat 160 (fromBigEndian (toBigEndian 20 value.toNat)) = value := by
  rw [fromBigEndian_toBigEndian 20 _ value.isLt, BitVec.ofNat_toNat, BitVec.setWidth_eq]

theorem length_item {value : Value} {slot : Bytes} (word : value.item = .word slot) :
    slot.length = 32 := by
  cases value with
  | string value => cases word
  | fixedHash N small value =>
      cases word
      rw [List.length_append, length_zeros, value.property]
      omega
  | string32 value =>
      cases word
      exact value.property
  | u256 value => cases word; rw [toBigEndian_length]
  | u160 value => cases word; rw [List.length_append, length_zeros, toBigEndian_length]
  | byte value => cases word; rw [List.length_append, length_zeros, List.length_singleton]
  | bool value => cases word; rw [List.length_append, length_zeros, List.length_singleton]

theorem wide_items (values : List Value) : Item.Wide 32 (values.map Value.item) := by
  intro slot member
  rcases List.mem_map.mp member with ⟨value, _, word⟩
  exact length_item word

theorem length_layout (values : List Value) :
    (layout values).length = 32 * values.length + (Item.tails (values.map Value.item)).length := by
  rw [layout, Item.record, List.length_append,
    Item.length_flatten_slots (toBigEndian_length 32) (wide_items values), List.length_map]

theorem length_selector (sha3 : Bytes → FixedBytes 32) (id : Bytes) :
    (selector sha3 id).length = 4 := by
  rw [selector, List.length_take, (sha3 id).property]
  rfl

/-! The class puts its items together as a record -/

namespace ContractABI

def item : Argument → Item UInt8
  | ⟨.byte value, _⟩ => .word (zeros 31 ++ zeros value.toNat)
  | ⟨.string32 _, _⟩ => .word []
  | ⟨value, _⟩ => value.item

/-- The dynamic items for some items, with the index of the first. -/
def dynamics : Nat → List (Item UInt8) → List DynamicItem
  | _, [] => []
  | index, .word _ :: items => dynamics (index + 1) items
  | index, .tail data :: items => { data, offset := index } :: dynamics (index + 1) items

def blank (items : List (Item UInt8)) : List Bytes := Item.slots (fun _ => toBigEndian 32 0) 0 items

theorem blank_cons (item : Item UInt8) (items : List (Item UInt8)) :
    blank (item :: items) = blank [item] ++ blank items := by
  cases item with
  | word slot => rfl
  | tail data =>
      simp only [blank, Item.slots, List.singleton_append, List.cons.injEq, true_and]
      have anywhere : ∀ start start', Item.slots (fun _ => toBigEndian 32 0) start items =
          Item.slots (fun _ => toBigEndian 32 0) start' items := by
        induction items with
        | nil => intros; rfl
        | cons item items ih =>
            intro start start'
            cases item with
            | word slot => rw [Item.slots, Item.slots, ih start start']
            | tail data =>
                rw [Item.slots, Item.slots, ih (start + data.length) (start' + data.length)]
      exact anywhere _ _

theorem serialise_eq (abi : ContractABI) (argument : Argument) : abi.serialise argument =
    { fixedItems := abi.fixedItems ++ blank [item argument]
      dynamicItems := abi.dynamicItems ++ dynamics abi.fixedItems.length [item argument] } := by
  rcases argument with ⟨value, takes⟩
  cases value with
  | bool _ => cases takes
  | fixedHash _ _ _ => cases takes
  | string _ => rfl
  | string32 _ => simp [serialise, pushItem, populate, blank, item, dynamics, Item.slots]
  | u256 _ => simp [serialise, pushItem, blank, item, dynamics, Item.slots, Value.item]
  | u160 _ => simp [serialise, pushItem, blank, item, dynamics, Item.slots, Value.item]
  | byte _ => simp [serialise, pushItem, blank, item, dynamics, Item.slots]

theorem dynamics_cons (index : Nat) (item : Item UInt8) (items : List (Item UInt8)) :
    dynamics index (item :: items) = dynamics index [item] ++ dynamics (index + 1) items := by
  cases item <;> rfl

theorem length_blank (items : List (Item UInt8)) : (blank items).length = items.length :=
  Item.length_slots _ _ _

theorem abiInAux_eq (abi : ContractABI) (arguments : List Argument) : abi.abiInAux arguments =
    { fixedItems := abi.fixedItems ++ blank (arguments.map item)
      dynamicItems := abi.dynamicItems ++
        dynamics abi.fixedItems.length (arguments.map item) } := by
  induction arguments generalizing abi with
  | nil => simp [abiInAux, blank, dynamics, Item.slots]
  | cons argument arguments ih =>
      rw [abiInAux, List.foldl_cons, ← abiInAux, ih, serialise_eq, List.map_cons,
        blank_cons _ (arguments.map item), dynamics_cons _ _ (arguments.map item)]
      simp only [List.append_assoc, List.length_append, length_blank, List.length_singleton]

theorem dynamics_data (index : Nat) (items : List (Item UInt8)) :
    (dynamics index items).flatMap DynamicItem.data = Item.tails items := by
  induction items generalizing index with
  | nil => rfl
  | cons item items ih =>
      cases item with
      | word slot => exact ih (index + 1)
      | tail data => rw [dynamics, List.flatMap_cons, ih, Item.tails_tail]

theorem patched (items : List (Item UInt8)) (front : List Bytes) (start : Nat) :
    ((dynamics front.length items).foldl (fun sofar it =>
      (sofar.1.set it.offset (offsetHash sofar.2), sofar.2 + it.data.length))
        (front ++ blank items, start)).1 =
      front ++ Item.slots offsetHash start items := by
  induction items generalizing front start with
  | nil => rfl
  | cons item items ih =>
      cases item with
      | word slot =>
          have next := ih (front ++ [slot]) start
          rw [List.length_append, List.length_singleton, List.append_assoc,
            List.append_assoc] at next
          rw [dynamics, blank_cons]
          exact next
      | tail data =>
          have next := ih (front ++ [offsetHash start]) (start + data.length)
          rw [List.length_append, List.length_singleton, List.append_assoc,
            List.append_assoc] at next
          rw [dynamics, List.foldl_cons, blank_cons]
          simp only [blank, Item.slots, List.singleton_append,
            List.set_append_right _ _ (Nat.le_refl _), Nat.sub_self, List.set_cons_zero] at next ⊢
          exact next

theorem abiIn_eq (sha3 : Bytes → FixedBytes 32) (id : Bytes) (arguments : List Argument) :
    abiIn sha3 id arguments = selector sha3 id ++
      Item.record offsetHash 32 (arguments.map item) := by
  have loop := patched (arguments.map item) [] (32 * arguments.length)
  have size : (blank (arguments.map item)).length * 32 = 32 * arguments.length := by
    rw [length_blank, List.length_map, Nat.mul_comm]
  rw [List.length_nil, List.nil_append, List.nil_append] at loop
  simp only [abiIn, abiInAux_eq, patch, List.nil_append, List.length_nil, size, loop, dynamics_data]
  rw [Item.record, List.length_map, List.append_assoc]

/-! When the record is the layout -/

def Narrow : Value → Bool
  | .byte _ | .string32 _ => true
  | _ => false

/-- Neither a byte nor a fixed string, and every string begins below 2^32. -/
def Plain (arguments : List Argument) : Prop :=
  (∀ argument ∈ arguments, Narrow argument.val = false) ∧
    ∀ start ∈ Item.starts (32 * arguments.length) (arguments.map fun argument => argument.val.item),
    start < 2 ^ 32

theorem item_plain {argument : Argument} (plain : Narrow argument.val = false) :
    item argument = argument.val.item := by
  rcases argument with ⟨value, takes⟩
  cases value with
  | byte _ => cases plain
  | string32 _ => cases plain
  | _ => rfl

theorem tailed_item (argument : Argument) : (item argument).tailed = argument.val.item.tailed := by
  rcases argument with ⟨value, takes⟩
  cases value <;> rfl

theorem tails_items (arguments : List Argument) :
    Item.tails (arguments.map item) =
      Item.tails (arguments.map fun argument => argument.val.item) := by
  simp only [Item.tails, List.flatMap_map, tailed_item]

theorem lags_byte (value : UInt8) :
    Item.Lags (zeros 31 ++ zeros value.toNat) (zeros 31 ++ [value]) := by
  intro front back back' same
  by_contra ahead
  rw [List.length_append, List.length_append, length_zeros, length_zeros, List.length_singleton,
    Nat.not_lt] at ahead
  have position : (zeros 31 ++ zeros value.toNat ++ back)[front.length + 31]? = some value := by
    rw [same, List.getElem?_append_right (by omega), Nat.add_sub_cancel_left, List.append_assoc,
      List.getElem?_append_right (by rw [length_zeros]), length_zeros]
    rfl
  have zero : (zeros 31 ++ zeros value.toNat ++ back)[front.length + 31]? = some 0 := by
    rw [List.getElem?_append_left (by simp; omega), zeros, zeros, ← List.replicate_add]
    exact List.getElem?_replicate_of_lt (by omega)
  rw [zero] at position
  cases position
  exact absurd ahead (by simp)

theorem paired (arguments : List Argument) (start : Nat) :
    List.Forall₂ (fun a b => a.length = b.length ∨ Item.Lags a b)
      (Item.slots offsetHash start (arguments.map item))
      (Item.slots (toBigEndian 32) start (arguments.map fun argument => argument.val.item)) := by
  induction arguments generalizing start with
  | nil => exact .nil
  | cons argument arguments ih =>
      rcases argument with ⟨value, takes⟩
      cases value with
      | bool _ => cases takes
      | fixedHash _ _ _ => cases takes
      | byte value => exact .cons (.inr (lags_byte value)) (ih start)
      | string32 value =>
          refine .cons (.inr fun front back back' _ => ?_) (ih start)
          rw [value.property]
          exact Nat.lt_of_lt_of_le (by decide) (Nat.le_add_left 32 _)
      | string s =>
          exact .cons (.inl (by rw [offsetHash, toBigEndian_length, toBigEndian_length])) (ih _)
      | u256 value => exact .cons (.inl rfl) (ih start)
      | u160 value => exact .cons (.inl rfl) (ih start)

theorem offsetHash_eq_iff {offset : Nat} (small : offset < 2 ^ 256) :
    offsetHash offset = toBigEndian 32 offset ↔ offset < 2 ^ 32 := by
  have cut : (UInt32.ofNat offset).toNat = offset % 2 ^ 32 := UInt32.toNat_ofNat'
  rw [offsetHash, toBigEndian_word_inj (by omega) small, cut]
  constructor
  · intro same
    exact same ▸ Nat.mod_lt _ (by decide)
  · exact Nat.mod_eq_of_lt

theorem slots_eq_iff (arguments : List Argument) (start : Nat)
    (small : ∀ begins ∈ Item.starts start (arguments.map fun argument => argument.val.item),
      begins < 2 ^ 256) :
    Item.slots offsetHash start (arguments.map item) =
        Item.slots (toBigEndian 32) start (arguments.map fun argument => argument.val.item) ↔
      (∀ argument ∈ arguments, Narrow argument.val = false) ∧
        ∀ begins ∈ Item.starts start (arguments.map fun argument => argument.val.item), begins <
          2 ^ 32 := by
  constructor
  · intro same
    induction arguments generalizing start with
    | nil =>
        exact ⟨fun _ member => absurd member List.not_mem_nil,
          fun _ member => absurd member List.not_mem_nil⟩
    | cons argument arguments ih =>
        rcases argument with ⟨value, takes⟩
        cases value with
        | bool _ => cases takes
        | fixedHash _ _ _ => cases takes
        | byte value =>
            have slot := (List.cons.inj same).1
            have digit : zeros value.toNat = [value] := List.append_cancel_left slot
            have one : value.toNat = 1 := by
              rw [← length_zeros value.toNat, digit, List.length_singleton]
            rw [one] at digit
            cases digit
            cases one
        | string32 value =>
            have slot := (List.cons.inj same).1
            have none_ : (32 : Nat) = 0 := by rw [← value.property, ← slot, List.length_nil]
            cases none_
        | string s =>
            rcases List.cons.inj same with ⟨slot, later⟩
            rcases ih _ (fun begins member => small begins (List.mem_cons_of_mem _ member)) later
              with ⟨plain, fits⟩
            have here := (offsetHash_eq_iff (small start List.mem_cons_self)).mp slot
            exact ⟨List.forall_mem_cons.mpr ⟨rfl, plain⟩, List.forall_mem_cons.mpr ⟨here, fits⟩⟩
        | u256 value =>
            rcases ih start small (List.cons.inj same).2 with ⟨plain, fits⟩
            exact ⟨List.forall_mem_cons.mpr ⟨rfl, plain⟩, fits⟩
        | u160 value =>
            rcases ih start small (List.cons.inj same).2 with ⟨plain, fits⟩
            exact ⟨List.forall_mem_cons.mpr ⟨rfl, plain⟩, fits⟩
  · rintro ⟨plain, fits⟩
    rw [List.map_congr_left fun argument member => item_plain (plain argument member)]
    exact Item.slots_congr fun begins member => (offsetHash_eq_iff (small begins member)).mpr
      (fits begins member)

theorem starts_small (values : List Value) {begins : Nat}
    (member : begins ∈ Item.starts (32 * values.length) (values.map Value.item)) :
    begins ≤ (layout values).length := by
  rw [length_layout]
  exact Item.le_of_mem_starts member

theorem abiIn_eq_iff (sha3 : Bytes → FixedBytes 32) (id : Bytes) {arguments : List Argument}
    (addressable : Addressable (layout (arguments.map Subtype.val))) :
    abiIn sha3 id arguments = selector sha3 id ++ layout (arguments.map Subtype.val) ↔
    Plain arguments := by
  have items : (arguments.map Subtype.val).map Value.item = arguments.map fun argument =>
      argument.val.item :=
    List.map_map
  have bound : (layout (arguments.map Subtype.val)).length < 2 ^ 63 := addressable
  have small : ∀ begins ∈ Item.starts (32 * arguments.length)
    (arguments.map fun argument => argument.val.item),
      begins < 2 ^ 256 := by
    intro begins member
    have within :=
      starts_small (arguments.map Subtype.val) (by rw [items, List.length_map]; exact member)
    omega
  rw [abiIn_eq, List.append_cancel_left_eq, layout, items, Plain, ← slots_eq_iff arguments _ small,
    Item.record, Item.record, tails_items, List.length_map, List.length_map]
  constructor
  · intro same
    exact (Item.slots_eq_of_record_eq (paired arguments _) [] _ same).2
  · intro same
    rw [same]

theorem deserialise_stands {data : Bytes} (addressable : Addressable data) {argument : Argument}
    (plain : Narrow argument.val = false) {index start : Nat} {items : List (Item UInt8)}
    (stands : Item.Stands (toBigEndian 32) 32 data index start (argument.val.item :: items)) :
    deserialise data index argument.val.type = some argument.val ∧
      Item.Stands (toBigEndian 32) 32 data (index + 1)
        (start + argument.val.item.tailed.length) items := by
  rcases argument with ⟨value, takes⟩
  cases value with
  | bool _ => cases takes
  | fixedHash _ _ _ => cases takes
  | byte _ => cases plain
  | string32 _ => cases plain
  | u256 value =>
      rcases stands.word (toBigEndian_length _ _) with ⟨⟨front, back, rfl, size⟩, next⟩
      refine ⟨?_, next⟩
      simp only [deserialise, Value.type]
      rw [cropped_append addressable (size.trans (Nat.mul_comm _ _)) (toBigEndian_length _ _),
        Option.map_some, u256_word]
  | u160 value =>
      rcases stands.word (by rw [List.length_append, length_zeros, toBigEndian_length]) with
        ⟨⟨front, back, split, size⟩, next⟩
      refine ⟨?_, next⟩
      have apart : data = (front ++ zeros 12) ++ (toBigEndian 20 value.toNat ++ back) := by
        rw [split, List.append_assoc, List.append_assoc]
      subst apart
      have position : (front ++ zeros 12).length = index * 32 + 12 := by
        rw [List.length_append, length_zeros, size, Nat.mul_comm]
      simp only [deserialise, Value.type]
      rw [cropped_append addressable position (toBigEndian_length _ _), Option.map_some, u160_word]
  | string s =>
      rcases stands.tail (toBigEndian_length 32) with
        ⟨⟨front, back, split, size⟩, ⟨before, after, split', size'⟩, next⟩
      refine ⟨?_, next⟩
      rcases stringData_eq s with ⟨padding, written⟩
      have bound : data.length < 2 ^ 63 := addressable
      have total : data.length = start + ((stringData s).length + after.length) := by
        rw [split', List.length_append, List.length_append, size']
      have longer := length_stringData s
      have offset : cropped data (index * 32) 32 = some (toBigEndian 32 start) := by
        rw [split] at addressable ⊢
        exact cropped_append addressable (size.trans (Nat.mul_comm _ _)) (toBigEndian_length _ _)
      have len : cropped data start 32 = some (toBigEndian 32 s.length) := by
        rw [split', written, List.append_assoc] at addressable ⊢
        exact cropped_append addressable size' (toBigEndian_length _ _)
      have body : cropped data (start + 32) s.length = some s := by
        have apart : data = (before ++ toBigEndian 32 s.length) ++ (s ++ (padding ++ after)) := by
          rw [split', written]
          simp only [List.append_assoc]
        rw [apart] at addressable ⊢
        exact cropped_append addressable (by rw [List.length_append, size', toBigEndian_length]) rfl
      simp only [deserialise, Value.type]
      rw [offset, Option.bind_some, fromBigEndian_word (by omega), sizeT_eq (by omega), len,
        Option.bind_some, fromBigEndian_word (by omega), sizeT_eq (by omega), sizeT_eq (by omega),
        body, Option.map_some]

theorem abiOutAux_stands {data : Bytes} (addressable : Addressable data) {arguments : List Argument}
    (plain : ∀ argument ∈ arguments, Narrow argument.val = false) {index start : Nat}
    (stands : Item.Stands (toBigEndian 32) 32 data index start
      (arguments.map fun argument => argument.val.item)) :
    abiOutAux data index (arguments.map fun argument => argument.val.type) =
      some (arguments.map Subtype.val) := by
  induction arguments generalizing index start with
  | nil => rfl
  | cons argument arguments ih =>
      rcases deserialise_stands addressable (plain argument List.mem_cons_self) stands with
        ⟨read, next⟩
      simp only [List.map_cons, abiOutAux]
      rw [read, Option.bind_some,
        ih (fun other member => plain other (List.mem_cons_of_mem _ member)) next, Option.map_some]

/-- The bytes are the selector and the layout, and the arguments are read back from what stands
behind the selector. -/
def RoundTrips (sha3 : Bytes → FixedBytes 32) (id : Bytes) (arguments : List Argument) : Prop :=
  abiIn sha3 id arguments = selector sha3 id ++ layout (arguments.map Subtype.val) ∧
    abiOut ((abiIn sha3 id arguments).drop 4) (arguments.map fun argument => argument.val.type) =
      some (arguments.map Subtype.val)

theorem roundTrips_iff (sha3 : Bytes → FixedBytes 32) (id : Bytes) {arguments : List Argument}
    (addressable : Addressable (layout (arguments.map Subtype.val))) :
    RoundTrips sha3 id arguments ↔ Plain arguments := by
  constructor
  · rintro ⟨written, _⟩
    exact (abiIn_eq_iff sha3 id addressable).mp written
  · intro plain
    have written := (abiIn_eq_iff sha3 id addressable).mpr plain
    refine ⟨written, ?_⟩
    have items : (arguments.map Subtype.val).map Value.item = arguments.map fun argument =>
        argument.val.item :=
      List.map_map
    have stands :=
      Item.stands_record (toBigEndian_length 32) (wide_items (arguments.map Subtype.val))
    rw [items] at stands
    rw [written, List.drop_left' (length_selector sha3 id), abiOut]
    rw [layout, items] at addressable ⊢
    exact abiOutAux_stands addressable plain.1 stands

theorem isSome_deserialise {data : Bytes} (addressable : Addressable data) (decodeOffset : Nat)
    (type : ValueType) :
    (deserialise data decodeOffset type).isSome = true := by
  have crop : ∀ start count, ∃ view, cropped data start count = some view :=
    fun start count => Option.isSome_iff_exists.mp (isSome_cropped addressable start count)
  cases type with
  | string =>
      rcases crop (decodeOffset * 32) 32 with ⟨offset, first⟩
      rcases crop (sizeT (fromBigEndian offset)) 32 with ⟨len, second⟩
      simp only [deserialise]
      rw [first, Option.bind_some, second, Option.bind_some, Option.isSome_map]
      exact isSome_cropped addressable _ _
  | _ =>
      simp only [deserialise]
      rw [Option.isSome_map]
      exact isSome_cropped addressable _ _

theorem isSome_abiOutAux {data : Bytes} (addressable : Addressable data) (decodeOffset : Nat)
    (types : List ValueType) :
    (abiOutAux data decodeOffset types).isSome = true := by
  induction types generalizing decodeOffset with
  | nil => rfl
  | cons type types ih =>
      rcases Option.isSome_iff_exists.mp (isSome_deserialise addressable decodeOffset type) with
        ⟨value, read⟩
      rw [abiOutAux, read, Option.bind_some, Option.isSome_map]
      exact ih (decodeOffset + 1)

end ContractABI

/-! The free functions write one item behind the other -/

namespace ABISerialiser

def IsString32 : Value → Bool
  | .string32 _ => true
  | _ => false

def IsString : Value → Bool
  | .string _ => true
  | _ => false

/-- No fixed string, and a string only as the one argument, of less than 2^16 bytes. -/
def Plain (arguments : List Argument) : Prop :=
  (∀ argument ∈ arguments, IsString32 argument.val = false) ∧
    ((∀ argument ∈ arguments, IsString argument.val = false) ∨
      ∃ s : Bytes, arguments.map Subtype.val = [.string s] ∧ s.length < 2 ^ 16)

theorem item_eq {argument : Argument} (fixed : IsString32 argument.val = false)
    (word : IsString argument.val = false) :
    argument.val.item = .word (serialise argument) := by
  rcases argument with ⟨value, takes⟩
  cases value with
  | bool _ => cases takes
  | byte _ => cases takes
  | string32 _ => cases fixed
  | string _ => cases word
  | _ => rfl

theorem length_serialise (argument : Argument) :
    (serialise argument).length + (if IsString32 argument.val then 32 else 0) =
      32 + argument.val.item.tailed.length := by
  rcases argument with ⟨value, takes⟩
  cases value with
  | bool _ => cases takes
  | byte _ => cases takes
  | string32 value =>
      rw [serialise, (populate value.val 0).property]
      rfl
  | string s =>
      simp only [serialise, Value.item, Item.tailed, List.length_append, toBigEndian_length]
      rfl
  | u256 value => exact toBigEndian_length 32 _
  | u160 value => exact @length_item (.u160 value) _ rfl
  | fixedHash N small value => exact @length_item (.fixedHash N small value) _ rfl

theorem length_abiInAux (arguments : List Argument) :
    (abiInAux arguments).length + 32 * arguments.countP (fun argument => IsString32 argument.val) =
      32 * arguments.length +
        (Item.tails (arguments.map fun argument => argument.val.item)).length := by
  induction arguments with
  | nil => rfl
  | cons argument arguments ih =>
      have here := length_serialise argument
      rw [abiInAux, List.flatMap_cons, ← abiInAux, List.map_cons, Item.tails, List.flatMap_cons,
        ← Item.tails, List.length_append, List.length_append, List.countP_cons, List.length_cons]
      split_ifs at here ⊢ <;> omega

theorem start_eq (arguments : List Argument)
    (fixed : ∀ argument ∈ arguments, IsString32 argument.val = false)
    {start : Nat} (small : start < 2 ^ 256) {back : Bytes}
    (same : (Item.slots (toBigEndian 32) start
      (arguments.map fun argument => argument.val.item)).flatten ++ back =
      abiInAux arguments) : (∀ argument ∈ arguments, IsString argument.val = false) ∨
      start = 32 := by
  induction arguments generalizing back with
  | nil => exact .inl fun _ member => absurd member List.not_mem_nil
  | cons argument arguments ih =>
      have others : ∀ other ∈ arguments, IsString32 other.val = false :=
        fun other member => fixed other (List.mem_cons_of_mem _ member)
      rw [abiInAux, List.flatMap_cons, ← abiInAux, List.map_cons] at same
      cases string : IsString argument.val with
      | false =>
          rw [item_eq (fixed argument List.mem_cons_self) string, Item.slots, List.flatten_cons,
            List.append_assoc] at same
          rcases ih others (List.append_cancel_left same) with none_ | here
          · exact .inl (List.forall_mem_cons.mpr ⟨string, none_⟩)
          · exact .inr here
      | true =>
          rcases argument with ⟨value, takes⟩
          cases value with
          | string s =>
              rw [Value.item, Item.slots, List.flatten_cons, List.append_assoc, serialise,
                List.append_assoc] at same
              have words :=
                List.append_inj_left same (by rw [toBigEndian_length, toBigEndian_length])
              exact .inr ((toBigEndian_word_inj small (by decide)).mp words)
          | _ => cases string

theorem words_eq (arguments : List Argument)
    (fixed : ∀ argument ∈ arguments, IsString32 argument.val = false)
    (words : ∀ argument ∈ arguments, IsString argument.val = false) (start : Nat) :
    (Item.slots (toBigEndian 32) start (arguments.map fun argument => argument.val.item)).flatten ++
      Item.tails (arguments.map fun argument => argument.val.item) = abiInAux arguments := by
  induction arguments with
  | nil => rfl
  | cons argument arguments ih =>
      have later := ih (fun other member => fixed other (List.mem_cons_of_mem _ member))
        (fun other member => words other (List.mem_cons_of_mem _ member))
      rw [List.map_cons,
        item_eq (fixed argument List.mem_cons_self) (words argument List.mem_cons_self), Item.slots,
        List.flatten_cons, Item.tails_word, List.append_assoc, later]
      rfl

def result (argument : Argument) : ABIDeserialiser.Result := ⟨argument.val.type, by
  rcases argument with ⟨value, takes⟩
  cases value with
  | byte _ => cases takes
  | _ => exact nofun⟩

/-- The bytes are the selector and the layout, and the arguments are read back from what stands
behind the selector. -/
def RoundTrips (sha3 : Bytes → FixedBytes 32) (id : Bytes) (arguments : List Argument) : Prop :=
  abiIn sha3 id arguments = selector sha3 id ++ layout (arguments.map Subtype.val) ∧
    ABIDeserialiser.abiOut ((abiIn sha3 id arguments).drop 4) (arguments.map result) =
      some (arguments.map Subtype.val)

theorem layout_eq (arguments : List Argument) : layout (arguments.map Subtype.val) =
    (Item.slots (toBigEndian 32) (32 * arguments.length)
      (arguments.map fun argument => argument.val.item)).flatten ++
      Item.tails (arguments.map fun argument => argument.val.item) := by
  have items : (arguments.map Subtype.val).map Value.item = arguments.map fun argument =>
      argument.val.item :=
    List.map_map
  rw [layout, items, Item.record, List.length_map]

theorem deserialise_word {argument : Argument} (fixed : IsString32 argument.val = false)
    (word : IsString argument.val = false) {back : Bytes}
    (addressable : Addressable (serialise argument ++ back)) :
    ABIDeserialiser.deserialise (serialise argument ++ back) (result argument) =
      some (argument.val, back) := by
  have size : (serialise argument).length = 32 := length_item (item_eq fixed word)
  rcases argument with ⟨value, takes⟩
  cases value with
  | bool _ => cases takes
  | byte _ => cases takes
  | string32 _ => cases fixed
  | string _ => cases word
  | u256 value =>
      simp only [result, Value.type, ABIDeserialiser.deserialise]
      rw [cropped_front addressable size, Option.map_some, List.drop_left' size,
        serialise, u256_word]
  | u160 value =>
      have split : serialise ⟨.u160 value, takes⟩ ++ back =
          zeros 12 ++ (toBigEndian 20 value.toNat ++ back) :=
        List.append_assoc _ _ _
      have rest : (serialise ⟨.u160 value, takes⟩ ++ back).drop 32 = back := List.drop_left' size
      rw [split] at addressable rest ⊢
      simp only [result, Value.type, ABIDeserialiser.deserialise]
      rw [cropped_append addressable (length_zeros 12) (toBigEndian_length _ _), Option.map_some,
        rest, u160_word]
  | fixedHash N small value =>
      have split : serialise ⟨.fixedHash N small value, takes⟩ ++ back = zeros (32 - N) ++
          (value.val ++ back) :=
        List.append_assoc _ _ _
      have rest : (serialise ⟨.fixedHash N small value, takes⟩ ++ back).drop 32 = back :=
        List.drop_left' size
      rw [split] at addressable rest ⊢
      simp only [result, Value.type, ABIDeserialiser.deserialise]
      rw [cropped_append addressable (length_zeros _) value.property, Option.map_some, rest,
        populate_val]

theorem addressable_right {front back : Bytes} (addressable : Addressable (front ++ back)) :
    Addressable back := by
  have total : (front ++ back).length < 2 ^ 63 := addressable
  rw [List.length_append] at total
  exact Nat.lt_of_le_of_lt (Nat.le_add_left _ _) total

theorem abiOut_words (arguments : List Argument)
    (fixed : ∀ argument ∈ arguments, IsString32 argument.val = false)
    (words : ∀ argument ∈ arguments, IsString argument.val = false)
    (addressable : Addressable (abiInAux arguments)) :
    ABIDeserialiser.abiOut (abiInAux arguments) (arguments.map result) =
      some (arguments.map Subtype.val) := by
  induction arguments with
  | nil => rfl
  | cons argument arguments ih =>
      rw [abiInAux, List.flatMap_cons, ← abiInAux] at addressable ⊢
      have later := ih (fun other member => fixed other (List.mem_cons_of_mem _ member))
        (fun other member => words other (List.mem_cons_of_mem _ member))
        (addressable_right addressable)
      rw [List.map_cons, ABIDeserialiser.abiOut,
        deserialise_word (fixed argument List.mem_cons_self) (words argument List.mem_cons_self)
          addressable, Option.bind_some, later, Option.map_some, List.map_cons]

theorem low16_word {n : Nat} (small : n < 2 ^ 256) : ABIDeserialiser.low16 (toBigEndian 32 n) =
    n % 2 ^ 16 := by
  rw [ABIDeserialiser.low16, if_pos (toBigEndian_length 32 n), fromBigEndian_word small]

theorem deserialise_string (s : Bytes)
    (addressable : Addressable (toBigEndian 32 32 ++ stringData s)) :
    ∃ rest, ABIDeserialiser.deserialise (toBigEndian 32 32 ++ stringData s) ⟨.string, nofun⟩ =
      some (.string (s.take (s.length % 2 ^ 16)), rest) := by
  rcases stringData_eq s with ⟨padding, written⟩
  have bound : (stringData s).length < 2 ^ 63 := addressable_right addressable
  have longer := length_stringData s
  have shorter : s.length % 2 ^ 16 ≤ s.length := Nat.mod_le _ _
  have size : (s.take (s.length % 2 ^ 16)).length = s.length % 2 ^ 16 :=
    List.length_take_of_le shorter
  have second : toBigEndian 32 32 ++ stringData s = toBigEndian 32 32 ++
      (toBigEndian 32 s.length ++ (s ++ padding)) := by
    rw [written]
  have third : toBigEndian 32 32 ++ stringData s = (toBigEndian 32 32 ++ toBigEndian 32 s.length) ++
      (s.take (s.length % 2 ^ 16) ++ (s.drop (s.length % 2 ^ 16) ++ padding)) := by
    rw [second, ← List.append_assoc (s.take _), List.take_append_drop, List.append_assoc]
  have offset : cropped (toBigEndian 32 32 ++ stringData s) 0 32 = some (toBigEndian 32 32) :=
    cropped_front addressable (toBigEndian_length _ _)
  have count : cropped (toBigEndian 32 32 ++ stringData s) 32 32 =
      some (toBigEndian 32 s.length) := by
    rw [second] at addressable ⊢
    exact cropped_append addressable (toBigEndian_length _ _) (toBigEndian_length _ _)
  have body : cropped (toBigEndian 32 32 ++ stringData s) 64 (s.length % 2 ^ 16) =
      some (s.take (s.length % 2 ^ 16)) := by
    rw [third] at addressable ⊢
    exact cropped_append addressable
      (by rw [List.length_append, toBigEndian_length, toBigEndian_length]) size
  have constant : ABIDeserialiser.low16 (toBigEndian 32 32) = 32 := low16_word (by decide)
  refine ⟨(toBigEndian 32 32 ++ stringData s).drop 32, ?_⟩
  simp only [ABIDeserialiser.deserialise]
  rw [offset, Option.bind_some, constant, count, Option.bind_some, low16_word (by omega), body,
    Option.map_some, populate_self size]

theorem take_eq_self_iff {s : Bytes} {n : Nat} : s.take n = s ↔ s.length ≤ n := by
  constructor
  · intro same
    rw [← same]
    exact List.length_take_le n s
  · exact List.take_of_length_le

theorem roundTrips_iff (sha3 : Bytes → FixedBytes 32) (id : Bytes) {arguments : List Argument}
    (addressable : Addressable (layout (arguments.map Subtype.val))) :
    RoundTrips sha3 id arguments ↔ Plain arguments := by
  have bound : (layout (arguments.map Subtype.val)).length < 2 ^ 63 := addressable
  have slots : 32 * arguments.length < 2 ^ 63 := by
    rw [length_layout, List.length_map] at bound
    exact Nat.lt_of_le_of_lt (Nat.le_add_right _ _) bound
  have lone : ∀ s : Bytes, arguments.map Subtype.val = [.string s] →
      abiInAux arguments = layout (arguments.map Subtype.val) ∧
        (ABIDeserialiser.abiOut (abiInAux arguments) (arguments.map result) =
          some (arguments.map Subtype.val) ↔
          s.length < 2 ^ 16) := by
    intro s single
    rcases arguments with _ | ⟨argument, _ | ⟨other, others⟩⟩
    · cases single
    · rcases argument with ⟨value, takes⟩
      rcases List.cons.inj single with ⟨rfl, _⟩
      have written : abiInAux [⟨.string s, takes⟩] = toBigEndian 32 32 ++ stringData s :=
        List.append_nil _
      have same : abiInAux [⟨.string s, takes⟩] = layout [.string s] := by
        rw [written]
        simp [layout, Item.record, Item.slots, Value.item]
      refine ⟨same, ?_⟩
      rw [List.map_cons, List.map_nil, ← same, written] at addressable
      rcases deserialise_string s addressable with ⟨rest, read⟩
      have out : ABIDeserialiser.abiOut (abiInAux [⟨.string s, takes⟩])
        [result ⟨.string s, takes⟩] =
          some [.string (s.take (s.length % 2 ^ 16))] := by
        rw [ABIDeserialiser.abiOut, written]
        simp only [result, Value.type, read]
        rfl
      simp only [List.map_cons, List.map_nil, out, Option.some.injEq, List.cons.injEq,
        Value.string.injEq, and_true]
      rw [take_eq_self_iff]
      omega
    · exact absurd (List.cons.inj single).2 (List.cons_ne_nil _ _)
  rw [RoundTrips, abiIn, List.append_cancel_left_eq, List.drop_left' (length_selector sha3 id)]
  constructor
  · rintro ⟨written, read⟩
    have sizes := length_abiInAux arguments
    rw [written, length_layout, List.map_map, List.length_map] at sizes
    have fixed : ∀ argument ∈ arguments, IsString32 argument.val = false := by
      intro argument member
      have none_ : arguments.countP (fun argument => IsString32 argument.val) = 0 := by
        have same : (arguments.map (Value.item ∘ Subtype.val)) = arguments.map fun argument =>
            argument.val.item := rfl
        rw [same] at sizes
        omega
      exact Bool.eq_false_of_not_eq_true (List.countP_eq_zero.mp none_ argument member)
    refine ⟨fixed, ?_⟩
    rcases start_eq arguments fixed (by omega) ((layout_eq arguments).symm.trans written.symm) with
      words | single
    · exact .inl words
    · rcases arguments with _ | ⟨argument, _ | ⟨other, others⟩⟩
      · exact .inl fun _ member => absurd member List.not_mem_nil
      · rcases argument with ⟨value, takes⟩
        cases value with
        | string s => exact .inr ⟨s, rfl, ((lone s rfl).2).mp read⟩
        | _ =>
            refine .inl fun other member => ?_
            rw [List.mem_singleton.mp member]
            rfl
      · rw [List.length_cons, List.length_cons] at single
        omega
  · rintro ⟨fixed, words | ⟨s, single, short⟩⟩
    · have written : abiInAux arguments = layout (arguments.map Subtype.val) := by
        rw [layout_eq]
        exact (words_eq arguments fixed words _).symm
      refine ⟨written, abiOut_words arguments fixed words ?_⟩
      rw [written]
      exact addressable
    · exact ⟨(lone s single).1, ((lone s single).2).mpr short⟩

end ABISerialiser

namespace ABIDeserialiser

theorem isSome_deserialise {io : Bytes} (addressable : Addressable io) (type : Result) :
    ∃ value, deserialise io type = some (value, io.drop 32) := by
  have crop : ∀ start count, ∃ view, cropped io start count = some view :=
    fun start count => Option.isSome_iff_exists.mp (isSome_cropped addressable start count)
  rcases type with ⟨type, known⟩
  cases type with
  | byte => exact absurd rfl known
  | string =>
      rcases crop 0 32 with ⟨offset, first⟩
      rcases crop (low16 offset) 32 with ⟨size, second⟩
      rcases crop (low16 offset + 32) (low16 size) with ⟨view, third⟩
      simp only [deserialise]
      rw [first, Option.bind_some, second, Option.bind_some, third, Option.map_some]
      exact ⟨_, rfl⟩
  | u160 =>
      rcases crop 12 20 with ⟨view, read⟩
      simp only [deserialise]
      rw [read]
      exact ⟨_, rfl⟩
  | fixedHash N small =>
      rcases crop (32 - N) N with ⟨view, read⟩
      simp only [deserialise]
      rw [read]
      exact ⟨_, rfl⟩
  | _ =>
      rcases crop 0 32 with ⟨view, read⟩
      simp only [deserialise]
      rw [read]
      exact ⟨_, rfl⟩

theorem isSome_abiOut {io : Bytes} (addressable : Addressable io) (types : List Result) :
    (abiOut io types).isSome = true := by
  induction types generalizing io with
  | nil => rfl
  | cons type types ih =>
      rcases isSome_deserialise addressable type with ⟨value, read⟩
      rw [abiOut, read, Option.bind_some, Option.isSome_map]
      apply ih
      exact Nat.lt_of_le_of_lt (by rw [List.length_drop]; exact Nat.sub_le _ _) addressable

end ABIDeserialiser

/-- Just the plain arguments are written as the layout and read back, in each of the codecs, and
nothing is read outside the input. -/
theorem abi_codec_iff (sha3 : Bytes → FixedBytes 32) (id : Bytes) :
    (∀ arguments : List ContractABI.Argument, Addressable (layout (arguments.map Subtype.val)) →
      (ContractABI.RoundTrips sha3 id arguments ↔ ContractABI.Plain arguments)) ∧
    (∀ arguments : List ABISerialiser.Argument, Addressable (layout (arguments.map Subtype.val)) →
      (ABISerialiser.RoundTrips sha3 id arguments ↔ ABISerialiser.Plain arguments)) ∧
    (∀ data : Bytes, Addressable data → (∀ types, (ContractABI.abiOut data types).isSome = true) ∧
      ∀ types, (ABIDeserialiser.abiOut data types).isSome = true) :=
  ⟨fun _ addressable => ContractABI.roundTrips_iff sha3 id addressable,
    fun _ addressable => ABISerialiser.roundTrips_iff sha3 id addressable,
    fun _ addressable => ⟨fun types => ContractABI.isSome_abiOutAux addressable 0 types,
      fun types => ABIDeserialiser.isSome_abiOut addressable types⟩⟩

def toyHash : Bytes → FixedBytes 32 := fun _ => populate [] 32

theorem abi_codec_string_and_number :
    ContractABI.RoundTrips toyHash [103] [⟨.string [104, 105], rfl⟩, ⟨.u256 7, rfl⟩] :=
  ((abi_codec_iff toyHash [103]).1 _ (show _ < _ by decide +kernel)).mpr
    ⟨by decide, by decide +kernel⟩

/-- The class writes a byte of 5 as 36 zeros. -/
theorem byte_not_written : ¬ ContractABI.RoundTrips toyHash [] [⟨.byte 5, rfl⟩] := by
  intro written
  exact absurd written.1 (by decide +kernel)

end UtispaceChain.Abi
