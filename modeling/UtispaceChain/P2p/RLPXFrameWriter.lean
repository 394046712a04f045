import UtispaceChain.P2p.RLPXFrameCoder

/-! Packets that are packed into frames, or cut over several of them, and taken out of them
again. -/

namespace UtispaceChain.P2p

open Lib

/-- The item at the front of some bytes, cut to what is there; nothing where `RLP` throws. -/
def nextRLP (b : Bytes) : Bytes :=
  match Rlp.actualSize b with
  | some size => b.take (min size b.length)
  | none => []

structure RLPXPacket where
  m_cap : UInt8 := 0
  m_type : Bytes := []
  m_data : Bytes := []
  deriving DecidableEq, Repr

namespace RLPXPacket

def ofBytes (capId : UInt8) (b : Bytes) : RLPXPacket where
  m_cap := capId
  m_type := nextRLP b
  m_data := b.drop (nextRLP b).length

def size (p : RLPXPacket) : Nat :=
  (((Rlp.construct p.m_type).bind Rlp.actualSize).bind fun type =>
    (Rlp.actualSize p.m_data).map fun data => type + data).getD 0

def isValid (p : RLPXPacket) : Bool :=
  !(p.m_type.isEmpty && p.m_data.isEmpty) &&
    (Rlp.construct p.m_type).bind Rlp.actualSize == some p.m_type.length &&
    (Rlp.construct p.m_data).bind Rlp.actualSize == some p.m_data.length

def append (b : Bytes) (p : RLPXPacket) : RLPXPacket := { p with m_data := p.m_data ++ b }

end RLPXPacket

/-- A subtraction that went below zero, an assertion or a stated invariant that did not hold, and a
loop that was not followed to its end. -/
inductive Fault
  | wrapped
  | asserted
  | unfinished
  deriving DecidableEq, Repr

/-- `size_t` -/
def minus (a b : Nat) : Nat := (a + 2 ^ 64 - b) % 2 ^ 64

def wraps (a b : Nat) : List Fault := if a < b then [.wrapped] else []

def asserts (holds : Prop) [Decidable holds] : List Fault := if holds then [] else [.asserted]

/-- `writing` is a pointer to the first packet, or none. -/
structure WriterState where
  q : List RLPXPacket := []
  writing : Bool := false
  remaining : Nat := 0
  multiFrame : Bool := false
  sequence : UInt16 := 0xffff
  deriving DecidableEq, Repr

def c_blockSize : Nat := 16
def c_overhead : Nat := c_blockSize * 3

/-- The variables of the inner loop of `mux`, with all that went wrong. -/
structure Filling where
  qs : WriterState
  m_sequenceId : UInt16
  frameAllot : Nat
  offset : Nat := 0
  payload : Bytes := []
  ret : Nat := 0
  faults : List Fault := []
  deriving DecidableEq, Repr

namespace Filling

def blame (faults : List Fault) (s : Filling) : Filling := { s with faults := s.faults ++ faults }

/-- write packet-type; `false` where the loop ends -/
def writeType (s : Filling) : Filling × Bool :=
  if s.qs.writing then (s, true)
  else
    match s.qs.q with
    | [] => (s, false)
    | packet :: _ =>
        let multiFrame := decide (s.frameAllot < packet.size)
        let s := s.blame (asserts (packet.m_type ≠ []))
        if s.frameAllot < packet.m_type.length ∨ (multiFrame = true ∧ s.payload ≠ []) then
          ({ s with qs := { s.qs with writing := false, remaining := 0, multiFrame := false } },
            false)
        else
          let m_sequenceId := if multiFrame then s.m_sequenceId + 1 else s.m_sequenceId
          let sequence := if multiFrame then m_sequenceId else s.qs.sequence
          ({ s.blame (wraps s.frameAllot packet.m_type.length) with
              qs :=
              { s.qs with writing := true, multiFrame, sequence, remaining := packet.m_data.length }
              m_sequenceId
              frameAllot := minus s.frameAllot packet.m_type.length
              payload := s.payload ++ packet.m_type }, true)

def writePortion (s : Filling) : Filling :=
  let s := s.blame (asserts (s.qs.multiFrame = true ∨ s.qs.remaining ≤ s.frameAllot))
  if 0 < s.frameAllot ∧ 0 < s.qs.remaining then
    let data := (s.qs.q.headD {}).m_data
    let offset := minus data.length s.qs.remaining
    let length := if s.qs.remaining ≤ s.frameAllot then s.qs.remaining else s.frameAllot
    let portion := (data.drop offset).take length
    { s.blame (wraps data.length s.qs.remaining ++ wraps s.qs.remaining length ++
      wraps s.frameAllot portion.length) with
      qs := { s.qs with remaining := minus s.qs.remaining length }
      frameAllot := minus s.frameAllot portion.length
      offset
      payload := s.payload ++ portion }
  else s

def endPacket (s : Filling) : Filling :=
  let s := s.blame (asserts ((s.qs.remaining = 0 ∧ (0 < s.offset ∨ s.qs.multiFrame = false)) ∨
    (s.qs.remaining ≠ 0 ∧ s.qs.multiFrame = true)))
  if s.qs.remaining = 0 then
    { s with qs := { s.qs with writing := false, q := s.qs.q.tail }, ret := s.ret + 1 } else s

/-- The inner loop of `mux`. -/
def fill : Nat → Filling → Filling
  | 0, s => s.blame [.unfinished]
  | fuel + 1, s =>
      if s.frameAllot < c_blockSize then s
      else
        -- qs.writing && !payload.empty() is INVALID
        let s := s.blame (asserts (¬ (s.qs.writing = true ∧ s.payload ≠ [])))
        match s.writeType with
        | (s, false) => s
        | (s, true) =>
            let s := s.writePortion.endPacket
            if s.qs.multiFrame then s else fill fuel s

end Filling

/-- The queue of high priority is the first of `m_q`. -/
structure RLPXFrameWriter where
  m_protocolId : UInt16
  high : WriterState := {}
  low : WriterState := {}
  m_sequenceId : UInt16 := 0
  deriving DecidableEq, Repr

namespace RLPXFrameWriter

def queue (w : RLPXFrameWriter) (high : Bool) : WriterState := if high then w.high else w.low

def setQueue (high : Bool) (qs : WriterState) (w : RLPXFrameWriter) : RLPXFrameWriter :=
  if high then { w with high := qs } else { w with low := qs }

def enque (p : RLPXPacket) (high : Bool) (w : RLPXFrameWriter) : RLPXFrameWriter :=
  if !p.isValid then w else w.setQueue high { w.queue high with q := (w.queue high).q ++ [p] }

end RLPXFrameWriter

/-- `writeFrame` with the numbers of the header: the protocol and, in a sequence, its id and first
of all the size. -/
def RLPXFrameCoder.writeNumbered (c : Crypto) (numbers : List Nat) (payload : Bytes)
    (coder : RLPXFrameCoder) :
    RLPXFrameCoder × Bytes :=
  writeFrame c (lengthBytes payload ++ Rlp.appendList (numbers.map Rlp.appendInt).flatten)
    payload coder

/-- The variables of the outer loop of `mux`, with all that went wrong. -/
structure Muxing where
  writer : RLPXFrameWriter
  coder : RLPXFrameCoder
  frameLen : Nat
  swapQueues : Bool := false
  ret : Nat := 0
  o_toWrite : List Bytes := []
  faults : List Fault := []

namespace Muxing

variable (c : Crypto)

/-- first run when !swapQueues, high > low, otherwise low > high; `none` where nothing is pending -/
def chosen (m : Muxing) : Option Bool :=
  let highPending := !m.writer.high.q.isEmpty
  let lowPending := !m.writer.low.q.isEmpty
  if !highPending && !lowPending then none
  else some (if highPending && !m.swapQueues then true else !lowPending)

def shares (m : Muxing) : Bool :=
  !m.swapQueues && !m.writer.high.q.isEmpty && !m.writer.low.q.isEmpty

def room (m : Muxing) : Nat :=
  if m.shares then if 0 < minus (m.frameLen / 2) (c_overhead + c_blockSize) then m.frameLen / 2
    else m.frameLen
  else m.frameLen

def start (m : Muxing) (high : Bool) : Filling where
  qs := m.writer.queue high
  m_sequenceId := m.writer.m_sequenceId
  frameAllot := minus m.room c_overhead
  ret := m.ret
  faults :=
    m.faults ++ (if m.shares then wraps (m.frameLen / 2) (c_overhead + c_blockSize) else []) ++
    wraps m.room c_overhead

def filled (m : Muxing) (high : Bool) : Filling :=
  (m.start high).fill ((m.writer.queue high).q.length + 1)

def put (high : Bool) (s : Filling) (m : Muxing) : Muxing :=
  { m with writer := { m.writer.setQueue high s.qs with m_sequenceId := s.m_sequenceId }, ret :=
    s.ret, faults := s.faults }

def numbers (s : Filling) (m : Muxing) : List Nat :=
  if s.qs.multiFrame then
    if s.offset = 0 ∧ s.qs.writing = true then
      -- 1st frame of segmented packet writes total-size of packet
      [m.writer.m_protocolId.toNat, s.qs.sequence.toNat, (s.qs.q.headD {}).size % 2 ^ 32]
    else [m.writer.m_protocolId.toNat, s.qs.sequence.toNat]
  else [m.writer.m_protocolId.toNat]

def flush (high : Bool) (s : Filling) (m : Muxing) : Muxing :=
  let (coder, payload) := RLPXFrameCoder.writeNumbered c (m.numbers s) s.payload m.coder
  let qs := if s.qs.remaining = 0 ∧ s.qs.multiFrame = true then { s.qs with multiFrame := false }
    else s.qs
  { m.put high { s with qs } with
    coder
    frameLen := minus m.frameLen payload.length
    swapQueues := true
    o_toWrite := m.o_toWrite ++ [payload]
    faults := s.faults ++ asserts (payload.length ≤ m.frameLen) ++ wraps m.frameLen payload.length }

/-- The outer loop of `mux`. -/
def rounds : Nat → Muxing → Muxing
  | 0, m => { m with faults := m.faults ++ [.unfinished] }
  | fuel + 1, m =>
      if m.frameLen < c_overhead + c_blockSize then m
      else
        match m.chosen with
        | none => m
        | some high =>
            let s := m.filled high
            if s.payload ≠ [] then rounds fuel (m.flush c high s)
            else if m.swapQueues then m.put high s
            else rounds fuel { m.put high s with swapQueues := true }

end Muxing

/-- A round takes something off the queues or off the frame, or is the first. -/
def RLPXFrameWriter.mux (c : Crypto) (size : UInt32) (coder : RLPXFrameCoder)
    (w : RLPXFrameWriter) : Muxing :=
  let frameLen := size.toNat / 16 * 16
  let bytes := ((w.high.q ++ w.low.q).map fun p => p.m_type.length + p.m_data.length).sum
  if size.toNat < c_overhead + c_blockSize then { writer := w, coder, frameLen }
  else Muxing.rounds c (frameLen + bytes + 2) { writer := w, coder, frameLen }

/-- Incomplete packets by their sequences, with the bytes that are still to come. -/
structure RLPXFrameReader where
  m_protocolType : UInt16
  m_incomplete : Nat → Option (RLPXPacket × Nat) := fun _ => none

namespace RLPXFrameReader

def setIncomplete (seq : Nat) (value : Option (RLPXPacket × Nat)) (r : RLPXFrameReader) :
    RLPXFrameReader :=
  { r with m_incomplete := Function.update r.m_incomplete seq value }

/-- The last loop of `demux`, over the bytes that are left; `none` where it throws. -/
def unpack (info : RLPXFrameInfo) : Nat → Bytes → RLPXFrameReader →
    Option (RLPXFrameReader × List RLPXPacket)
  | 0, _, r => some (r, [])
  | fuel + 1, buffer, r =>
      if buffer = [] then some (r, [])
      else
        let type := nextRLP buffer
        if type = [] then some (r, [])
        else
          let buffer := buffer.drop type.length
          -- consume entire buffer if packet has sequence
          let packet := if info.multiFrame then buffer else nextRLP buffer
          let buffer := buffer.drop packet.length
          let p := RLPXPacket.ofBytes (UInt8.ofNat r.m_protocolType.toNat) type
          let p := if packet ≠ [] then p.append packet else p
          let remaining := minus (minus info.totalLength type.length) packet.length % 2 ^ 32
          if p.isValid then (unpack info fuel buffer r).map fun (r, ret) => (r, p :: ret)
          else if info.multiFrame = true ∧ remaining ≠ 0 then
            let value := (r.m_incomplete info.sequenceId).getD (p, remaining)
            unpack info fuel buffer (r.setIncomplete info.sequenceId (some value))
          else none

/-- `demux` behind the decryption, over the frame without its padding and digest. -/
def populate (info : RLPXFrameInfo) (buffer : Bytes) (r : RLPXFrameReader) :
    Option (RLPXFrameReader × List RLPXPacket) :=
  match if info.multiFrame then r.m_incomplete info.sequenceId else none with
  | none => r.unpack info (buffer.length + 1) buffer
  | some (p, remaining) =>
      if info.totalLength = 0 ∧ 0 < buffer.length ∧ buffer.length ≤ remaining then
        let remaining := remaining - buffer.length
        let p := p.append buffer
        let ret := if p.isValid ∧ remaining = 0 then [p] else []
        if remaining ≠ 0 then
          if ret ≠ [] then none
            else some (r.setIncomplete info.sequenceId (some (p, remaining)), ret)
        else if ret = [] then none
        else some (r.setIncomplete info.sequenceId none, ret)
      else (r.setIncomplete info.sequenceId none).unpack info (buffer.length + 1) buffer

/-- `none` where it throws. -/
def demux (c : Crypto) (info : RLPXFrameInfo) (frame : Bytes) (coder : RLPXFrameCoder)
    (r : RLPXFrameReader) :
    Option (RLPXFrameCoder × RLPXFrameReader × List RLPXPacket) :=
  (RLPXFrameCoder.authAndDecryptFrame c frame coder).bind fun (coder, frame) =>
    let size := minus frame.length (16 + info.padding)
    -- drop: bad frame (empty), bad frame (too large)
    if frame = [] ∨ (info.multiFrame = true ∧ info.totalLength ≠ 0 ∧ info.totalLength < size) then
      some (coder, r, [])
    else
      -- trim mac
      let buffer := if size ≤ frame.length then frame.take size else []
      (r.populate info buffer).map fun (r, ret) => (coder, r, ret)

/-- A frame as it comes: its header is read, and all that is behind it goes to `demux`. -/
def receive (c : Crypto) (frame : Bytes) (coder : RLPXFrameCoder) (r : RLPXFrameReader) :
    Option (RLPXFrameCoder × RLPXFrameReader × List RLPXPacket) :=
  (RLPXFrameCoder.authAndDecryptHeader c (frame.take 32) coder).bind fun (coder, header) =>
    (RLPXFrameInfo.ofHeader header).bind fun info => r.demux c info (frame.drop 32) coder

end RLPXFrameReader

end UtispaceChain.P2p
