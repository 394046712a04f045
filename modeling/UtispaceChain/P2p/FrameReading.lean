import UtispaceChain.P2p.FrameFilling
import UtispaceChain.P2p.Session

/-! What `demux` takes out of a frame. -/

namespace UtispaceChain

open Lib

namespace Rlp

/-! An item with bytes behind it -/

theorem Item.payload_append (d r : Bytes) (whole : Item d) : payload (d ++ r) = payload d := by
  rcases whole.read with ⟨start, size, length, read⟩
  rcases read r with ⟨behind, offset, _⟩
  have alone := read []
  rw [List.append_nil] at alone
  have inside : start + size ≤ (d ++ r).length := by
    rw [List.length_append]
    omega
  rw [payload, payload, behind, alone.1, Option.bind_some, Option.bind_some, offset, alone.2.1,
    if_neg (by omega), if_neg (by omega), cropped, cropped, if_pos inside, if_pos (by omega),
    List.drop_append_of_le_length (by omega), List.take_append_of_le_length
      (by rw [List.length_drop]; omega)]

theorem Item.items_append (d r : Bytes) (whole : Item d) : items (d ++ r) = items d := by
  have same : isList (d ++ r) = isList d := by
    cases d with
    | nil => exact absurd rfl whole.1
    | cons n rest => rfl
  rw [items, items, same, whole.payload_append]

theorem Item.item_append (d r : Bytes) (whole : Item d) (i : Nat) : item (d ++ r) i = item d i := by
  rw [item, item, whole.payload_append]

theorem Item.not_take (d : Bytes) (whole : Item d) (count : Nat) (pos : 0 < count)
    (cut : count < d.length) :
    ¬ actualSize (d.take count) = some (d.take count).length := by
  intro size
  have length : (d.take count).length = count := List.length_take_of_le (Nat.le_of_lt cut)
  have front : Item (d.take count) := by
    refine ⟨?_, size⟩
    apply List.ne_nil_of_length_pos
    omega
  have same : d ++ [] = d.take count ++ d.drop count := by
    rw [List.append_nil, List.take_append_drop]
  rw [(Item.append_inj d (d.take count) [] (d.drop count) whole front same).1, length] at cut
  exact Nat.lt_irrefl _ cut

end Rlp

namespace P2p

/-! The header -/

/-- The protocol, and in a sequence its id and at first the size of the packet. -/
inductive Numbers : List Nat → Prop
  | single {protocolId : Nat} (first : protocolId < 2 ^ 16) : Numbers [protocolId]
  | later {protocolId sequenceId : Nat} (first : protocolId < 2 ^ 16)
      (second : sequenceId < 2 ^ 16) :
      Numbers [protocolId, sequenceId]
  | start {protocolId sequenceId totalLength : Nat} (first : protocolId < 2 ^ 16)
      (second : sequenceId < 2 ^ 16)
      (third : totalLength < 2 ^ 32) : Numbers [protocolId, sequenceId, totalLength]

theorem length_appendInt (width n : Nat) (pos : 0 < width) (short : width < 56)
    (small : n < 256 ^ width) :
    (Rlp.appendInt n).length ≤ width + 1 := by
  have digits := toCompactBigEndian_length_le width n small
  rw [Rlp.appendInt_eq, Rlp.appendBytes]
  split_ifs with one compact
  · omega
  · rw [List.length_cons]
    omega
  · omega

theorem Numbers.length_flatten {numbers : List Nat} (inside : Numbers numbers) :
    (numbers.map Rlp.appendInt).flatten.length ≤ 11 := by
  cases inside with
  | single first =>
      have one := length_appendInt 2 _ (by decide) (by decide) first
      simp only [List.map_cons, List.map_nil, List.flatten_cons, List.flatten_nil,
        List.length_append, List.length_nil]
      omega
  | later first second =>
      have one := length_appendInt 2 _ (by decide) (by decide) first
      have two := length_appendInt 2 _ (by decide) (by decide) second
      simp only [List.map_cons, List.map_nil, List.flatten_cons, List.flatten_nil,
        List.length_append, List.length_nil]
      omega
  | start first second third =>
      have one := length_appendInt 2 _ (by decide) (by decide) first
      have two := length_appendInt 2 _ (by decide) (by decide) second
      have three := length_appendInt 4 _ (by decide) (by decide) third
      simp only [List.map_cons, List.map_nil, List.flatten_cons, List.flatten_nil,
        List.length_append, List.length_nil]
      omega

theorem Numbers.small {numbers : List Nat} (inside : Numbers numbers) :
    ∀ n ∈ numbers, n < 2 ^ 256 := by
  have wide : 2 ^ 32 < 2 ^ 256 := by decide
  cases inside <;>
    simp only [List.mem_cons, List.not_mem_nil, or_false, forall_eq_or_imp, forall_eq] <;> omega

theorem Numbers.items {numbers : List Nat} (inside : Numbers numbers) :
    Rlp.Items (numbers.map Rlp.appendInt) := by
  intro d member
  rcases List.mem_map.mp member with ⟨n, written, rfl⟩
  exact Rlp.item_appendInt n (inside.small n written)

def RLPXFrameInfo.ofNumbers (numbers : List Nat) (payload : Bytes) : RLPXFrameInfo where
  length := payload.length % 2 ^ 24
  padding := RLPXFrameCoder.paddingOf payload.length
  protocolId := numbers.getD 0 0
  multiFrame := decide (1 < numbers.length)
  sequenceId := numbers.getD 1 0
  totalLength := numbers.getD 2 0

theorem header_block (bytes : Bytes) (short : bytes.length ≤ 16) :
    (populate bytes 32).val.take 16 = bytes ++ zeros (16 - bytes.length) := by
  have whole : bytes.take 32 = bytes := List.take_of_length_le (Nat.le_trans short (by decide))
  simp only [populate, whole, List.take_append, List.take_of_length_le short, List.take_replicate,
    Nat.min_eq_left (show 16 - bytes.length ≤ 32 - bytes.length by omega)]
  rfl

theorem toInt_number (width n : Nat) (short : width < 56) (small : n < 256 ^ width) :
    Rlp.toInt width (Rlp.appendInt n) = some n :=
  Rlp.toInt_appendInt_of_length width n (toCompactBigEndian_length_le width n small)
    (Nat.lt_trans short (by decide))

theorem paddingOf_mod (length : Nat) : RLPXFrameCoder.paddingOf (length % 2 ^ 24) =
    RLPXFrameCoder.paddingOf length := by
  rw [RLPXFrameCoder.paddingOf, RLPXFrameCoder.paddingOf, Nat.mod_mod_of_dvd _ (by decide)]

theorem ofHeader_numbers {numbers : List Nat} (inside : Numbers numbers) (payload mac : Bytes) :
    RLPXFrameInfo.ofHeader ((populate (RLPXFrameCoder.lengthBytes payload ++
      Rlp.appendList (numbers.map Rlp.appendInt).flatten) 32).val.take 16 ++ mac) =
        some (.ofNumbers numbers payload) := by
  rcases lengthBytes_eq payload with ⟨high, middle, low, bytes, value⟩
  have size := inside.length_flatten
  have bound : (numbers.map Rlp.appendInt).flatten.length < Rlp.maxLength :=
    Nat.lt_of_le_of_lt size (by decide)
  have whole := (Rlp.item_appendList _ bound).1
  have length : (Rlp.appendList (numbers.map Rlp.appendInt).flatten).length ≤ 12 := by
    rw [Rlp.appendList, if_pos (Nat.lt_of_le_of_lt size (by decide)), List.length_cons]
    omega
  have block : (RLPXFrameCoder.lengthBytes payload ++
      Rlp.appendList (numbers.map Rlp.appendInt).flatten).length ≤ 16 := by
    rw [bytes, List.length_append, List.length_cons, List.length_cons, List.length_singleton]
    omega
  rw [header_block _ block, bytes]
  simp only [RLPXFrameInfo.ofHeader, List.cons_append, List.nil_append, List.getD_cons_zero,
    List.getD_cons_succ, List.drop_succ_cons, List.drop_zero, value, List.append_assoc,
    whole.actualSize_append, Option.bind_some, whole.item_append, whole.items_append,
    Rlp.items_appendList _ inside.items bound, Rlp.item_nth_appendList _ inside.items bound,
    List.length_map, paddingOf_mod]
  rw [if_neg (by simp)]
  cases inside with
  | single first => simp [toInt_number 2 _ (by decide) first, RLPXFrameInfo.ofNumbers]
  | later first second =>
      simp [toInt_number 2 _ (by decide) first, toInt_number 2 _ (by decide) second,
        RLPXFrameInfo.ofNumbers]
  | start first second third =>
      simp [toInt_number 2 _ (by decide) first, toInt_number 2 _ (by decide) second,
        toInt_number 4 _ (by decide) third, RLPXFrameInfo.ofNumbers]

/-! Items at the front -/

theorem nextRLP_append {d : Bytes} (size : Rlp.actualSize d = some d.length) (rest : Bytes)
    (behind : d = [] → rest = []) :
    nextRLP (d ++ rest) = d := by
  by_cases empty : d = []
  · rw [behind empty, List.append_nil, empty]
    rfl
  · have whole : Rlp.Item d := ⟨empty, size⟩
    rw [nextRLP, whole.actualSize_append]
    simp only
    rw [List.length_append, Nat.min_eq_left (Nat.le_add_right ..), List.take_left]

def RLPXPacket.handed (capId : UInt8) (p : RLPXPacket) : RLPXPacket := { p with m_cap := capId }

theorem RLPXPacket.ofBytes_type (capId : UInt8) {type : Bytes}
    (size : Rlp.actualSize type = some type.length) :
    RLPXPacket.ofBytes capId type = { m_cap := capId, m_type := type, m_data := [] } := by
  have whole := nextRLP_append size [] (fun _ => rfl)
  rw [List.append_nil] at whole
  rw [ofBytes, whole, List.drop_length]

/-- A packet without the end of its data, and the number of bytes that are still to come. -/
def RLPXPacket.part (capId : UInt8) (p : RLPXPacket) (count : Nat) : RLPXPacket × Nat :=
  ({ m_cap := capId, m_type := p.m_type, m_data := p.m_data.take count }, p.m_data.length - count)

theorem RLPXPacket.isValid_part {p : RLPXPacket} (valid : p.isValid = true) (capId : UInt8)
    {count : Nat} (pos : 0 < count) (cut : count < p.m_data.length) :
    (p.part capId count).1.isValid = false := by
  rcases (p.isValid_iff).mp valid with ⟨_, _, data⟩
  have whole : Rlp.Item p.m_data := ⟨List.ne_nil_of_length_pos (Nat.lt_trans pos cut), data⟩
  refine Bool.eq_false_iff.mpr fun accepted => ?_
  exact whole.not_take _ count pos cut ((RLPXPacket.isValid_iff _).mp accepted).2.2

theorem RLPXPacket.append_part (capId : UInt8) (p : RLPXPacket) (sent count : Nat) :
    (p.part capId sent).1.append ((p.m_data.drop sent).take count) =
      (p.part capId (sent + count)).1 := by
  simp only [part, append, ← List.take_add]

/-! What is in a frame -/

/-- Whole packets, or a part of one: of the data so many bytes, behind those that were sent
before. -/
inductive Portion
  | packed (packets : List RLPXPacket)
  | first (sequenceId : UInt16) (p : RLPXPacket) (count : Nat)
  | next (sequenceId : UInt16) (p : RLPXPacket) (sent count : Nat)

namespace Portion

def payload : Portion → Bytes
  | packed packets => Filling.wire packets
  | first _ p count => p.m_type ++ p.m_data.take count
  | next _ p sent count => (p.m_data.drop sent).take count

def numbers (protocolId : UInt16) : Portion → List Nat
  | packed _ => [protocolId.toNat]
  | first sequenceId p _ => [protocolId.toNat, sequenceId.toNat, p.size]
  | next sequenceId _ _ _ => [protocolId.toNat, sequenceId.toNat]

def complete : Portion → List RLPXPacket
  | packed packets => packets
  | first .. => []
  | next _ p sent count => if sent + count = p.m_data.length then [p] else []

def Proper : Portion → Prop
  | packed packets => packets ≠ [] ∧ (∀ p ∈ packets, p.isValid = true ∧ p.m_type ≠ []) ∧
      packets.IsChain fun p _ => p.m_data ≠ []
  | first _ p count => p.Sound ∧ p.m_type ≠ [] ∧ 0 < count ∧ count < p.m_data.length
  | next _ p sent count => p.Sound ∧ 0 < count ∧ sent + count ≤ p.m_data.length

def Known (r : RLPXFrameReader) : Portion → Prop
  | packed _ => True
  | first sequenceId _ _ => r.m_incomplete sequenceId.toNat = none
  | next sequenceId p sent _ =>
      r.m_incomplete sequenceId.toNat = some (p.part (UInt8.ofNat r.m_protocolType.toNat) sent)

def after (r : RLPXFrameReader) : Portion → RLPXFrameReader
  | packed _ => r
  | first sequenceId p count =>
      r.setIncomplete sequenceId.toNat (some (p.part (UInt8.ofNat r.m_protocolType.toNat) count))
  | next sequenceId p sent count => r.setIncomplete sequenceId.toNat
      (if sent + count = p.m_data.length then none
        else some (p.part (UInt8.ofNat r.m_protocolType.toNat) (sent + count)))

end Portion

namespace Portion

theorem Proper.payload {x : Portion} (proper : x.Proper) : x.payload ≠ [] := by
  cases x with
  | packed packets =>
      rcases proper with ⟨full, good, _⟩
      cases packets with
      | nil => exact absurd rfl full
      | cons p packets => simp [Portion.payload, Filling.wire, (good p List.mem_cons_self).2]
  | first sequenceId p count => simp [Portion.payload, proper.2.1]
  | next sequenceId p sent count =>
      rcases proper with ⟨_, pos, within⟩
      apply List.ne_nil_of_length_pos
      rw [Portion.payload, List.length_take, List.length_drop]
      omega

theorem Proper.numbers {x : Portion} (proper : x.Proper) (protocolId : UInt16) :
    Numbers (x.numbers protocolId) := by
  cases x with
  | packed packets => exact .single protocolId.toNat_lt
  | first sequenceId p count =>
      exact .start protocolId.toNat_lt sequenceId.toNat_lt (Nat.lt_trans proper.1.small (by decide))
  | next sequenceId p sent count => exact .later protocolId.toNat_lt sequenceId.toNat_lt

theorem Proper.fits {x : Portion} (proper : x.Proper) (protocolId : UInt16) :
    ¬ (decide (1 < (x.numbers protocolId).length) = true ∧ (x.numbers protocolId).getD 2 0 ≠ 0 ∧
      (x.numbers protocolId).getD 2 0 < x.payload.length) := by
  rintro ⟨multi, total, large⟩
  cases x with
  | packed packets => exact Bool.false_ne_true multi
  | first sequenceId p count =>
      rcases proper with ⟨sound, _, _, cut⟩
      have size := p.size_eq sound.valid
      have length : (p.m_data.take count).length = count :=
        List.length_take_of_le (Nat.le_of_lt cut)
      have large' : p.size < (p.m_type ++ p.m_data.take count).length := large
      rw [List.length_append, length] at large'
      omega
  | next sequenceId p sent count => exact total rfl

end Portion

namespace RLPXFrameReader

variable {r : RLPXFrameReader}

theorem unpack_nil (info : RLPXFrameInfo) (fuel : Nat) : r.unpack info fuel [] = some (r, []) := by
  cases fuel with
  | zero => rfl
  | succ fuel => exact if_pos rfl

theorem unpack_type (info : RLPXFrameInfo) (fuel : Nat) {type : Bytes} (whole : Rlp.Item type)
    (rest packet : Bytes) (cut : (if info.multiFrame = true then rest else nextRLP rest) = packet) :
    let p : RLPXPacket :=
  { m_cap := UInt8.ofNat r.m_protocolType.toNat, m_type := type, m_data := packet }
    let remaining := minus (minus info.totalLength type.length) packet.length % 2 ^ 32
    r.unpack info (fuel + 1) (type ++ rest) =
      if p.isValid then (r.unpack info fuel (rest.drop packet.length)).map fun (r, ret) =>
        (r, p :: ret)
      else if info.multiFrame = true ∧ remaining ≠ 0 then
        (r.setIncomplete info.sequenceId
          (some ((r.m_incomplete info.sequenceId).getD (p, remaining)))).unpack info fuel
          (rest.drop packet.length)
      else none := by
  have front := nextRLP_append whole.2 rest (fun empty => absurd empty whole.1)
  have full : type ++ rest ≠ [] := fun empty => whole.1 (List.append_eq_nil_iff.mp empty).1
  have joined : (if packet ≠ [] then
    (RLPXPacket.ofBytes (UInt8.ofNat r.m_protocolType.toNat) type).append packet
      else RLPXPacket.ofBytes (UInt8.ofNat r.m_protocolType.toNat) type) =
        { m_cap := UInt8.ofNat r.m_protocolType.toNat, m_type := type, m_data := packet } := by
    rw [RLPXPacket.ofBytes_type _ whole.2]
    by_cases empty : packet = []
    · rw [if_neg (not_not.mpr empty), empty]
    · rw [if_pos empty]
      rfl
  rw [unpack, if_neg full]
  simp only [front, if_neg whole.1, List.drop_left, cut, joined]

theorem unpack_wire {info : RLPXFrameInfo} (single : info.multiFrame = false)
    (packets : List RLPXPacket) (good : ∀ p ∈ packets, p.isValid = true ∧ p.m_type ≠ [])
    (chain : packets.IsChain fun p _ => p.m_data ≠ []) (fuel : Nat)
    (enough : (Filling.wire packets).length < fuel) :
    r.unpack info fuel (Filling.wire packets) =
      some (r, packets.map (RLPXPacket.handed (UInt8.ofNat r.m_protocolType.toNat))) := by
  induction packets generalizing fuel with
  | nil => exact unpack_nil info fuel
  | cons p packets ih =>
      rcases Nat.exists_eq_add_one_of_ne_zero (Nat.ne_of_gt (Nat.zero_lt_of_lt enough)) with
        ⟨fuel, rfl⟩
      rcases good p List.mem_cons_self with ⟨valid, typed⟩
      rcases (p.isValid_iff).mp valid with ⟨_, type, data⟩
      have bytes : Filling.wire (p :: packets) =
          p.m_type ++ (p.m_data ++ Filling.wire packets) := by
        rw [Filling.wire, List.map_cons, List.flatten_cons, List.append_assoc]
        rfl
      have last : p.m_data = [] → Filling.wire packets = [] := by
        intro empty
        cases packets with
        | nil => rfl
        | cons other packets => exact absurd empty (List.isChain_cons_cons.mp chain).1
      have cut : (if info.multiFrame = true then p.m_data ++ Filling.wire packets
          else nextRLP (p.m_data ++ Filling.wire packets)) = p.m_data := by
        rw [single, if_neg Bool.false_ne_true, nextRLP_append data _ last]
      have later :=
        ih (fun other member => good other (List.mem_cons_of_mem _ member)) chain.tail fuel (by
        have pos := List.length_pos_of_ne_nil typed
        rw [bytes, List.length_append, List.length_append] at enough
        omega)
      have accepted : (p.handed (UInt8.ofNat r.m_protocolType.toNat)).isValid = true := valid
      rw [bytes, unpack_type info fuel ⟨typed, type⟩ _ _ cut, List.drop_left, later]
      exact if_pos accepted

theorem unpack_first {info : RLPXFrameInfo} {p : RLPXPacket} {count : Nat} (sound : p.Sound)
    (typed : p.m_type ≠ []) (pos : 0 < count) (cut : count < p.m_data.length)
    (multi : info.multiFrame = true) (total : info.totalLength = p.size)
    (unknown : r.m_incomplete info.sequenceId = none) (fuel : Nat) :
    r.unpack info (fuel + 1) (p.m_type ++ p.m_data.take count) =
      some
        (r.setIncomplete info.sequenceId (some (p.part (UInt8.ofNat r.m_protocolType.toNat) count)),
          []) := by
  rcases (p.isValid_iff).mp sound.valid with ⟨_, type, _⟩
  have size := p.size_eq sound.valid
  have bound := sound.small
  have all : (if info.multiFrame = true then p.m_data.take count else nextRLP (p.m_data.take count))
    =
      p.m_data.take count := if_pos multi
  have length : (p.m_data.take count).length = count := List.length_take_of_le (Nat.le_of_lt cut)
  have rejected := RLPXPacket.isValid_part sound.valid (UInt8.ofNat r.m_protocolType.toNat) pos cut
  have remaining : minus (minus info.totalLength p.m_type.length) (p.m_data.take count).length %
    2 ^ 32 =
      p.m_data.length - count := by
    have data : minus p.size p.m_type.length = p.m_data.length := by
      rw [minus_eq (by omega) (by omega)]
      omega
    rw [length, total, data, minus_eq (by omega) (Nat.le_of_lt cut), Nat.mod_eq_of_lt (by omega)]
  have missing : p.m_data.length - count ≠ 0 := by omega
  rw [unpack_type info fuel ⟨typed, type⟩ _ _ all, remaining, List.drop_length, unknown]
  calc
    _ = _ := if_neg (Bool.eq_false_iff.mp rejected)
    _ = _ := if_pos (And.intro multi missing)
    _ = _ := unpack_nil info fuel

theorem populate_new {info : RLPXFrameInfo} {buffer : Bytes}
    (unknown : info.multiFrame = true → r.m_incomplete info.sequenceId = none) :
    r.populate info buffer = r.unpack info (buffer.length + 1) buffer := by
  have nothing : (if info.multiFrame = true then r.m_incomplete info.sequenceId else none) =
      none := by
    by_cases multi : info.multiFrame = true
    · rw [if_pos multi, unknown multi]
    · rw [if_neg multi]
  rw [populate, nothing]

theorem populate_next {info : RLPXFrameInfo} {p : RLPXPacket} {sent count : Nat} (sound : p.Sound)
    (pos : 0 < count) (within : sent + count ≤ p.m_data.length) (multi : info.multiFrame = true)
    (total : info.totalLength = 0) (known : r.m_incomplete info.sequenceId =
      some (p.part (UInt8.ofNat r.m_protocolType.toNat) sent)) :
    r.populate info ((p.m_data.drop sent).take count) =
      some (r.setIncomplete info.sequenceId (if sent + count = p.m_data.length then none
          else some (p.part (UInt8.ofNat r.m_protocolType.toNat) (sent + count))),
        if sent + count = p.m_data.length then [p.handed (UInt8.ofNat r.m_protocolType.toNat)]
          else []) := by
  have length : ((p.m_data.drop sent).take count).length = count := by
    rw [List.length_take, List.length_drop]
    omega
  have fits : info.totalLength = 0 ∧ 0 < count ∧ count ≤ p.m_data.length - sent :=
    ⟨total, pos, by omega⟩
  have joined := p.append_part (UInt8.ofNat r.m_protocolType.toNat) sent count
  have left : p.m_data.length - sent - count = p.m_data.length - (sent + count) := Nat.sub_sub ..
  rw [populate, if_pos multi, known]
  simp only [RLPXPacket.part, length] at joined ⊢
  rw [if_pos fits]
  simp only [joined, left]
  by_cases last : sent + count = p.m_data.length
  · have accepted : RLPXPacket.isValid
      { m_cap := UInt8.ofNat r.m_protocolType.toNat, m_type := p.m_type, m_data := p.m_data } =
        true := sound.valid
    simp only [last, List.take_length, Nat.sub_self, accepted, and_self, ne_eq, not_true_eq_false,
      List.cons_ne_nil, if_true, if_false]
    rfl
  · have more : p.m_data.length - (sent + count) ≠ 0 := by omega
    simp [more, last]

theorem populate_portion {x : Portion} (proper : x.Proper) (known : x.Known r)
    (protocolId : UInt16) :
    r.populate (.ofNumbers (x.numbers protocolId) x.payload) x.payload =
      some
        (x.after r, x.complete.map (RLPXPacket.handed (UInt8.ofNat r.m_protocolType.toNat))) := by
  cases x with
  | packed packets =>
      rcases proper with ⟨_, good, chain⟩
      rw [populate_new (fun multi => absurd multi Bool.false_ne_true)]
      exact unpack_wire rfl packets good chain _ (Nat.lt_succ_self _)
  | first sequenceId p count =>
      rcases proper with ⟨sound, typed, pos, cut⟩
      refine (populate_new ?_).trans (unpack_first sound typed pos cut rfl rfl ?_ _)
      · exact fun _ => known
      · exact known
  | next sequenceId p sent count =>
      rcases proper with ⟨sound, pos, within⟩
      have taken : r.populate
        (.ofNumbers ((Portion.next sequenceId p sent count).numbers protocolId)
          (Portion.next sequenceId p sent count).payload) ((p.m_data.drop sent).take count) = _ :=
        populate_next sound pos within rfl rfl known
      refine taken.trans ?_
      rw [Portion.complete, apply_ite (List.map _)]
      rfl

theorem length_authAndDecryptFrame {c : Crypto} {io out : Bytes} {reader reader' : RLPXFrameCoder}
    (read : RLPXFrameCoder.authAndDecryptFrame c io reader = some (reader', out)) :
    out.length = io.length := by
  rw [RLPXFrameCoder.authAndDecryptFrame] at read
  split_ifs at read
  cases read
  rw [List.length_append, length_xorAt, List.length_take, List.length_drop]
  omega

theorem receive_written {c : Crypto} {writer reader : RLPXFrameCoder}
    (inStep : RLPXFrameCoder.InStep writer reader) {x : Portion} (proper : x.Proper)
    (known : x.Known r) (short : x.payload.length < 2 ^ 32) (protocolId : UInt16) :
    ∃ reader', RLPXFrameCoder.InStep
      (RLPXFrameCoder.writeNumbered c (x.numbers protocolId) x.payload writer).1 reader' ∧
      r.receive c (RLPXFrameCoder.writeNumbered c (x.numbers protocolId) x.payload writer).2 reader
        =
        some (reader', x.after r,
          x.complete.map (RLPXPacket.handed (UInt8.ofNat r.m_protocolType.toNat))) := by
  have bytes := RLPXFrameCoder.length_writeHeader (c := c) (RLPXFrameCoder.lengthBytes x.payload ++
    Rlp.appendList ((x.numbers protocolId).map Rlp.appendInt).flatten) writer
  rcases inStep.header (c := c) (RLPXFrameCoder.lengthBytes x.payload ++
    Rlp.appendList ((x.numbers protocolId).map Rlp.appendInt).flatten)
      with ⟨inStep', mac, _, header⟩
  rcases inStep'.payload (c := c) x.payload with ⟨inStep'', back, frame⟩
  have length := length_authAndDecryptFrame frame
  rw [RLPXFrameCoder.length_writePayload] at length
  have full : x.payload ++ back ≠ [] :=
    fun empty => proper.payload (List.append_eq_nil_iff.mp empty).1
  have padding : RLPXFrameCoder.paddingOf x.payload.length < 16 := Nat.mod_lt _ (by decide)
  have size : minus (x.payload ++ back).length (16 + RLPXFrameCoder.paddingOf x.payload.length) =
      x.payload.length := by
    rw [length, minus_eq (by omega) (by omega)]
    omega
  have within : x.payload.length ≤ (x.payload ++ back).length := by
    rw [List.length_append]
    exact Nat.le_add_right ..
  refine ⟨_, inStep'', ?_⟩
  simp only [receive, RLPXFrameCoder.writeNumbered, RLPXFrameCoder.writeFrame,
    List.take_left' bytes, List.drop_left' bytes, header, Option.bind_some,
    ofHeader_numbers (proper.numbers protocolId), demux, frame]
  simp only [RLPXFrameInfo.ofNumbers, size]
  rw [if_neg, if_pos within, List.take_left]
  · have taken := populate_portion proper known protocolId
    rw [RLPXFrameInfo.ofNumbers] at taken
    rw [taken]
    rfl
  · rintro (empty | large)
    · exact full empty
    · exact proper.fits protocolId large

end RLPXFrameReader

end P2p

end UtispaceChain
