import UtispaceChain.P2p.RLPXFrameCoder

/-! Packets of a session, each in a frame of its own. -/

namespace UtispaceChain.P2p

open Lib

/-- What a function of the source comes to: a value, an exception, or a read outside its input. -/
inductive Outcome (α : Type)
  | value (a : α)
  | thrown
  | undefined
  deriving DecidableEq, Repr

/-- What ends the reading of a session, besides bytes that are still to come. -/
inductive SessionStatus
  | waiting
  | dropped
  | disconnected
  | thrown
  | undefined
  deriving DecidableEq, Repr

abbrev Packet := {msg : Bytes // msg ≠ []}

structure Delivery where
  protocolId : Nat
  packetType : Nat
  r : Bytes
  deriving DecidableEq, Repr

def Delivery.of (msg : Bytes) : Delivery :=
  { protocolId := 0, packetType := (msg.headD 0).toNat, r := msg.tail }

namespace Session

variable (c : Crypto)

/-- `RLP` throws unless what follows the type is one item. -/
def checkPacket : Bytes → Outcome Bool
  | [] => .undefined
  | first :: rest =>
      if 0x7f < first.toNat ∨ (first :: rest).length < 2 then .value false
      else
        match (Rlp.construct rest).bind Rlp.actualSize with
        | none => .thrown
        | some size => .value (decide (size + 1 = (first :: rest).length))

/-- An invalid packet is queued with a warning, and an exception leaves the queue as it was. -/
def send (m_writeQueue : List Bytes) (msg : Packet) : List Bytes :=
  match checkPacket msg.val with
  | .value _ => m_writeQueue ++ [msg.val]
  | _ => m_writeQueue

/-- The bytes that `write` sends for the packets in the queue, one after the other. -/
def write : RLPXFrameCoder → List Bytes → Bytes
  | _, [] => []
  | coder, packet :: queue =>
      let (coder, out) := RLPXFrameCoder.writeSingleFramePacket c packet coder
      out ++ write coder queue

/-- What a frame comes to: the packet that is handed on, or the end of the reading. -/
def readFrame (hProtocolId : Nat) (frame : Bytes) : SessionStatus ⊕ Delivery :=
  match checkPacket frame with
  | .undefined => .inl .undefined
  | .thrown => .inl .thrown
  | .value false => .inl .disconnected
  | .value true =>
      match (Rlp.construct (frame.take 1)).bind (Rlp.toInt 4), Rlp.construct (frame.drop 1) with
      | some packetType, some r => .inr { protocolId := hProtocolId, packetType, r }
      | _, _ => .inl .thrown

/-- One round of `doRead`: its end, or the coder, the delivery and the bytes that are left. -/
def round (coder : RLPXFrameCoder) (stream : Bytes) :
    SessionStatus ⊕ (RLPXFrameCoder × Delivery × Bytes) :=
  if stream.length < 32 then .inl .waiting
  else
    match RLPXFrameCoder.authAndDecryptHeader c (stream.take 32) coder with
    | none => .inl .dropped
    | some (coder, header) =>
        match RLPXFrameInfo.ofHeader header with
        | none => .inl .dropped
        | some info =>
            let tlen := info.length + info.padding + 16
            if (stream.drop 32).length < tlen then .inl .waiting
            else
              match RLPXFrameCoder.authAndDecryptFrame c ((stream.drop 32).take tlen) coder with
              | none => .inl .dropped
              | some (coder, io) =>
                  match readFrame info.protocolId (io.take info.length) with
                  | .inl status => .inl status
                  | .inr delivery => .inr (coder, delivery, (stream.drop 32).drop tlen)

/-- The rounds of `doRead`; a session whose packets are handled goes on reading. -/
def doRead : Nat → RLPXFrameCoder → Bytes → List Delivery × SessionStatus
  | 0, _, _ => ([], .waiting)
  | fuel + 1, coder, stream =>
      match round c coder stream with
      | .inl status => ([], status)
      | .inr (coder, delivery, rest) =>
          let later := doRead fuel coder rest
          (delivery :: later.1, later.2)

def received (coder : RLPXFrameCoder) (stream : Bytes) : List Delivery × SessionStatus :=
  doRead c (stream.length + 1) coder stream

end Session

/-! The header of a packet's frame -/

theorem lengthBytes_eq (payload : Bytes) : ∃ high middle low : UInt8,
    RLPXFrameCoder.lengthBytes payload = [high, middle, low] ∧
      (high.toNat * 256 + middle.toNat) * 256 + low.toNat = payload.length % 2 ^ 24 := by
  have cut : (UInt32.ofNat payload.length).toNat = payload.length % 2 ^ 32 := UInt32.toNat_ofNat'
  refine ⟨_, _, _, rfl, ?_⟩
  simp only [UInt8.toNat_ofNat', cut]
  omega

theorem payload_header (rest : Bytes) : Rlp.payload (0xc2 :: 0x80 :: 0x80 :: rest) =
    some [0x80, 0x80] := by
  have size : Rlp.length (0xc2 :: 0x80 :: 0x80 :: rest) = some 2 := rfl
  have start : Rlp.payloadOffset (0xc2 :: 0x80 :: 0x80 :: rest) = 1 := rfl
  rw [Rlp.payload, size, Option.bind_some, start, if_neg (by simp), Rlp.cropped, if_pos (by simp)]
  rfl

theorem ofHeader_packet (packet mac : Bytes) :
    RLPXFrameInfo.ofHeader
        ((populate (RLPXFrameCoder.lengthBytes packet ++ [0xc2, 0x80, 0x80]) 32).val.take 16 ++ mac)
          =
      some { length := packet.length % 2 ^ 24, padding :=
        RLPXFrameCoder.paddingOf (packet.length % 2 ^ 24)
             protocolId := 0, multiFrame := true, sequenceId := 0, totalLength := 0 } := by
  rcases lengthBytes_eq packet with ⟨high, middle, low, bytes, value⟩
  have shown : (populate (RLPXFrameCoder.lengthBytes packet ++ [0xc2, 0x80, 0x80]) 32).val.take 16 =
      [high, middle, low, 0xc2, 0x80, 0x80] ++ zeros 10 := by
    rw [bytes]
    rfl
  have size : ∀ rest, Rlp.actualSize (0xc2 :: 0x80 :: 0x80 :: rest) = some 3 := fun _ => rfl
  have list : ∀ rest, Rlp.isList (0xc2 :: 0x80 :: 0x80 :: rest) = true := fun _ => rfl
  have first : (Rlp.nthItem 0 [0x80, 0x80]).bind (Rlp.toInt 2) = some 0 := by decide
  have second : (Rlp.nthItem 1 [0x80, 0x80]).bind (Rlp.toInt 2) = some 0 := by decide
  have items : Rlp.itemsOf 2 [0x80, 0x80] = some [[0x80], [0x80]] := by decide
  rw [shown]
  simp only [RLPXFrameInfo.ofHeader, List.cons_append, List.nil_append, List.getD_cons_zero,
    List.getD_cons_succ, List.drop_succ_cons, List.drop_zero, value, size, Option.bind_some,
    Rlp.item, Rlp.items, payload_header, list, if_true, List.length_cons, List.length_nil, items,
    first, second]
  rw [if_neg (by omega)]
  rfl

namespace Session

variable {c : Crypto}

/-! What is handed on -/

/-- A packet that the receiver's own check lets through, with a type that is a number, and a length
of 24 bits. -/
structure Deliverable (msg : Bytes) : Prop where
  short : msg.length < 2 ^ 24
  valid : checkPacket msg = .value true
  type : msg.head? ≠ some 0

theorem toInt_type (first : UInt8) (low : ¬ 0x7f < first.toNat) :
    (Rlp.construct [first]).bind (Rlp.toInt 4) = if first = 0 then none else some first.toNat := by
  have small : first.toNat < 0x80 := by omega
  have whole : Rlp.construct [first] = some [first] := by
    rw [Rlp.construct, Rlp.actualSize, if_pos small]
    rfl
  have good : Rlp.requireGood [first] = some () := by
    rw [Rlp.requireGood, if_pos (by omega)]
  have int : Rlp.isInt [first] = some (decide (first ≠ 0)) := by
    rw [Rlp.isInt, good, Option.bind_some, if_pos small]
  have data : Rlp.isList [first] = false := by
    simp only [Rlp.isList]
    exact decide_eq_false (by omega)
  have size : Rlp.length [first] = some 1 := by
    rw [Rlp.length, good, Option.bind_some, if_pos small]
  have start : Rlp.payloadOffset [first] = 0 := by
    rw [Rlp.payloadOffset, if_pos small]
  have payload : Rlp.payload [first] = some [first] := by
    rw [Rlp.payload, size, Option.bind_some, start]
    rfl
  rw [whole, Option.bind_some, Rlp.toInt, good, Option.bind_some, int, Option.bind_some, data]
  by_cases zero : first = 0
  · rw [if_pos zero, if_pos (.inl (decide_eq_false (not_not.mpr zero)))]
  · rw [if_neg zero, decide_eq_true zero, if_neg (by simp), payload, Option.bind_some,
      if_neg (by simp)]
    simp [fromBigEndian]

theorem construct_eq {d : Bytes} {size : Nat}
    (whole : (Rlp.construct d).bind Rlp.actualSize = some size) :
    Rlp.construct d = some d := by
  rw [Rlp.construct] at whole ⊢
  cases read : Rlp.actualSize d with
  | none =>
      rw [read] at whole
      cases whole
  | some size =>
      rw [read, Option.bind_some] at whole
      rw [Option.bind_some]
      split_ifs at whole ⊢ with same
      · rfl
      · cases whole

theorem readFrame_eq (frame : Bytes) (valid : checkPacket frame = .value true) :
    readFrame 0 frame = if frame.head? = some 0 then .inl .thrown
      else .inr (Delivery.of frame) := by
  rw [readFrame, valid]
  cases frame with
  | nil => cases valid
  | cons first rest =>
      rw [checkPacket] at valid
      split_ifs at valid with bad
      · cases valid
      · have low : ¬ 0x7f < first.toNat := fun high => bad (.inl high)
        cases whole : (Rlp.construct rest).bind Rlp.actualSize with
        | none =>
            rw [whole] at valid
            cases valid
        | some size =>
            simp only [List.take_succ_cons, List.take_zero, List.drop_succ_cons, List.drop_zero,
              List.head?_cons, Option.some.injEq]
            rw [toInt_type first low, construct_eq whole]
            by_cases zero : first = 0
            · rw [if_pos zero, if_pos zero]
            · rw [if_neg zero, if_neg zero]
              rfl

theorem checkPacket_of_readFrame {protocolId : Nat} {frame : Bytes} {delivery : Delivery}
    (handed : readFrame protocolId frame = .inr delivery) :
    checkPacket frame = .value true ∧ delivery.r.length + 1 = frame.length := by
  rw [readFrame] at handed
  cases check : checkPacket frame with
  | undefined => rw [check] at handed; cases handed
  | thrown => rw [check] at handed; cases handed
  | value good =>
      cases good with
      | false => rw [check] at handed; cases handed
      | true =>
          refine ⟨rfl, ?_⟩
          rw [check] at handed
          simp only at handed
          split at handed
          · next r _ whole =>
              cases handed
              cases frame with
              | nil => cases check
              | cons first rest =>
                  rw [List.drop_succ_cons, List.drop_zero, Rlp.construct] at whole
                  rcases Option.bind_eq_some_iff.mp whole with ⟨size, _, same⟩
                  split_ifs at same
                  cases same
                  rfl
          · cases handed

theorem readFrame_inr {frame : Bytes} {delivery : Delivery}
    (handed : readFrame 0 frame = .inr delivery) :
    checkPacket frame = .value true ∧ frame.head? ≠ some 0 ∧ delivery = Delivery.of frame := by
  have valid := (checkPacket_of_readFrame handed).1
  rw [readFrame_eq frame valid] at handed
  split_ifs at handed with zero
  cases handed
  exact ⟨valid, zero, rfl⟩

/-! One packet -/

open RLPXFrameCoder

variable {writer reader : RLPXFrameCoder}

theorem length_writeSingleFramePacket (packet : Bytes) (writer : RLPXFrameCoder) :
    (writeSingleFramePacket c packet writer).2.length =
      32 + (packet.length + paddingOf packet.length + 16) := by
  simp only [writeSingleFramePacket, writeFrame, List.length_append, length_writeHeader,
    length_writePayload]

theorem round_short (inStep : InStep writer reader) {packet : Bytes}
    (short : packet.length < 2 ^ 24) (rest : Bytes) :
    ∃ reader', InStep (writeSingleFramePacket c packet writer).1 reader' ∧
      round c reader ((writeSingleFramePacket c packet writer).2 ++ rest) =
        (readFrame 0 packet).map id fun delivery => (reader', delivery, rest) := by
  rcases inStep.header (c := c) (lengthBytes packet ++ [0xc2, 0x80, 0x80]) with
    ⟨inStep', mac, _, header⟩
  rcases inStep'.payload (c := c) packet with ⟨inStep'', back, frame⟩
  have front := length_writeHeader (c := c) (lengthBytes packet ++ [0xc2, 0x80, 0x80]) writer
  have tail :=
    length_writePayload (c := c) packet
      (writeHeader c (lengthBytes packet ++ [0xc2, 0x80, 0x80]) writer).1
  refine ⟨_, inStep'', ?_⟩
  rw [round, if_neg (by rw [List.length_append, length_writeSingleFramePacket]; omega)]
  simp only [writeSingleFramePacket, writeFrame, List.append_assoc, List.take_left' front,
    List.drop_left' front, header, ofHeader_packet, Nat.mod_eq_of_lt short]
  rw [if_neg (by rw [List.length_append, tail]; omega)]
  simp only [List.take_left' tail, List.drop_left' tail, frame, List.take_left]
  cases readFrame 0 packet <;> rfl

theorem round_long (inStep : InStep writer reader) (packet rest : Bytes) {reader' : RLPXFrameCoder}
    {delivery : Delivery} {rest' : Bytes}
    (read : round c reader ((writeSingleFramePacket c packet writer).2 ++ rest) =
      .inr (reader', delivery, rest')) :
    delivery.r.length + 1 = packet.length % 2 ^ 24 := by
  rcases inStep.header (c := c) (lengthBytes packet ++ [0xc2, 0x80, 0x80]) with ⟨_, mac, _, header⟩
  have front := length_writeHeader (c := c) (lengthBytes packet ++ [0xc2, 0x80, 0x80]) writer
  rw [round, if_neg (by rw [List.length_append, length_writeSingleFramePacket]; omega)] at read
  simp only [writeSingleFramePacket, writeFrame, List.append_assoc, List.take_left' front,
    List.drop_left' front, header, ofHeader_packet] at read
  split_ifs at read with enough
  split at read
  · cases read
  · next coder io authentic =>
      split at read
      · cases read
      · next handed =>
          cases read
          rw [(checkPacket_of_readFrame handed).2, List.length_take]
          have size : io.length = packet.length % 2 ^ 24 + paddingOf (packet.length % 2 ^ 24) +
              16 := by
            rw [authAndDecryptFrame] at authentic
            split_ifs at authentic
            cases authentic
            rw [List.length_append, length_xorAt, List.length_take, List.length_drop,
              List.length_take]
            omega
          omega

/-! The whole queue -/

theorem doRead_iff (queue : List Bytes) {writer reader : RLPXFrameCoder}
    (inStep : InStep writer reader) (fuel : Nat) (enough : (write c writer queue).length < fuel) :
    doRead c fuel reader (write c writer queue) = (queue.map Delivery.of, .waiting) ↔
    ∀ msg ∈ queue, Deliverable msg := by
  induction queue generalizing writer reader fuel with
  | nil =>
      rcases Nat.exists_eq_add_one_of_ne_zero (Nat.ne_of_gt (Nat.zero_lt_of_lt enough)) with
        ⟨fuel, rfl⟩
      have waits : round c reader (write c writer []) = .inl .waiting :=
        if_pos (Nat.zero_lt_succ 31)
      rw [doRead, waits]
      simp
  | cons packet queue ih =>
      rcases Nat.exists_eq_add_one_of_ne_zero (Nat.ne_of_gt (Nat.zero_lt_of_lt enough)) with
        ⟨fuel, rfl⟩
      have bytes : write c writer (packet :: queue) = (writeSingleFramePacket c packet writer).2 ++
          write c (writeSingleFramePacket c packet writer).1 queue := rfl
      rw [bytes, List.length_append, length_writeSingleFramePacket] at enough
      rw [bytes, doRead, List.forall_mem_cons, List.map_cons]
      by_cases short : packet.length < 2 ^ 24
      · rcases round_short (c := c) inStep short
          (write c (writeSingleFramePacket c packet writer).1 queue) with
          ⟨reader', inStep', read⟩
        have later := ih inStep' fuel (by omega)
        rw [read]
        cases handed : readFrame 0 packet with
        | inl status =>
            have rejected : ¬ Deliverable packet := by
              intro deliverable
              rw [readFrame_eq packet deliverable.valid, if_neg deliverable.type] at handed
              cases handed
            simp [rejected]
        | inr delivery =>
            rcases readFrame_inr handed with ⟨valid, type, rfl⟩
            have deliverable : Deliverable packet := ⟨short, valid, type⟩
            simp only [Sum.map_inr, Prod.mk.injEq, List.cons.injEq, true_and, deliverable]
            rw [← later, Prod.ext_iff]
      · have rejected : ¬ Deliverable packet := fun deliverable => short deliverable.short
        cases read : round c reader ((writeSingleFramePacket c packet writer).2 ++
            write c (writeSingleFramePacket c packet writer).1 queue) with
        | inl status => simp [rejected]
        | inr next =>
            rcases next with ⟨reader', delivery, rest⟩
            have size := round_long inStep packet _ read
            have differs : delivery ≠ Delivery.of packet := by
              rintro rfl
              rw [Delivery.of, List.length_tail] at size
              omega
            simp [rejected, differs]

end Session

/-- Every packet that `send` has queued is delivered at the other end as it was sent. -/
def Session.RoundTrips (c : Crypto) (writer reader : RLPXFrameCoder) (msgs : List Packet) : Prop :=
  Session.received c reader (Session.write c writer (msgs.foldl Session.send [])) =
    ((msgs.foldl Session.send []).map Delivery.of, .waiting)

theorem Session.roundTrips_iff {c : Crypto} {writer reader : RLPXFrameCoder}
    (inStep : RLPXFrameCoder.InStep writer reader) (msgs : List Packet) :
    Session.RoundTrips c writer reader msgs ↔
    ∀ msg ∈ msgs.foldl Session.send [], Session.Deliverable msg :=
  Session.doRead_iff _ inStep _ (Nat.lt_succ_self _)

/-- The two ends of a handshake deliver what is sent, in either direction, just when each queued
packet is shorter than 2^24 bytes, and valid with a type that is not zero. -/
theorem session_framing_iff (c : Crypto) (originated : Bool)
    (ephemeralShared nonce nonce' : FixedBytes 32) (ackCipher authCipher : Bytes)
    (msgs : List Packet) :
    Session.RoundTrips c
      (RLPXFrameCoder.setup c originated ephemeralShared nonce' nonce ackCipher authCipher)
        (RLPXFrameCoder.setup c (!originated) ephemeralShared nonce nonce' ackCipher authCipher)
          msgs ↔
      ∀ msg ∈ msgs.foldl Session.send [], Session.Deliverable msg :=
  Session.roundTrips_iff
    (RLPXFrameCoder.setup_inStep originated ephemeralShared nonce nonce' ackCipher authCipher) msgs

def toyCrypto : Crypto where
  keccak := fun _ => populate [] 32
  aes := fun _ block => block

def longPacket : Packet := ⟨1 :: Rlp.appendBytes (List.replicate (2 ^ 24) 0), List.cons_ne_nil _ _⟩

theorem le_length_appendBytes (s : Bytes) : s.length ≤ (Rlp.appendBytes s).length := by
  rw [Rlp.appendBytes]
  split_ifs
  · exact Nat.le_refl _
  · exact Nat.le_succ _
  · rw [List.length_append]
    exact Nat.le_add_left _ _

theorem checkPacket_item {first : UInt8} (low : first.toNat ≤ 0x7f) {rest : Bytes}
    (whole : Rlp.Item rest) :
    Session.checkPacket (first :: rest) = .value true := by
  have construct : Rlp.construct rest = some rest := by
    rw [Rlp.construct, whole.2, Option.bind_some, if_pos rfl]
  have positive : 0 < rest.length := List.length_pos_iff.mpr whole.1
  rw [Session.checkPacket, if_neg (by rw [List.length_cons]; omega), construct,
    Option.bind_some, whole.2]
  simp

/-- A valid packet of more than 2^24 bytes is not delivered: three bytes do not hold its length. -/
theorem long_packet_lost : ¬ Session.RoundTrips toyCrypto
    (RLPXFrameCoder.setup toyCrypto true (populate [] 32) (populate [] 32) (populate [] 32) [] [])
    (RLPXFrameCoder.setup toyCrypto false (populate [] 32) (populate [] 32) (populate [] 32) [] [])
      [longPacket] := by
  intro delivered
  have deliverable :=
    (Session.roundTrips_iff (RLPXFrameCoder.setup_inStep true _ _ _ [] []) [longPacket]).mp
      delivered
  have small : (List.replicate (2 ^ 24) (0 : UInt8)).length < Rlp.maxLength := by
    rw [List.length_replicate]
    decide
  have valid : Session.checkPacket longPacket.val = .value true :=
    checkPacket_item (by decide) (Rlp.item_appendBytes _ small).1
  have queued : [longPacket].foldl Session.send [] = [longPacket.val] := by
    rw [List.foldl_cons, List.foldl_nil, Session.send, valid]
    rfl
  rw [queued] at deliverable
  have short := (deliverable longPacket.val List.mem_cons_self).short
  have long := le_length_appendBytes (List.replicate (2 ^ 24) 0)
  rw [List.length_replicate] at long
  rw [longPacket, List.length_cons] at short
  omega

end UtispaceChain.P2p
