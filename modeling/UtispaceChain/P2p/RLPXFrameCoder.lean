import UtispaceChain.DevCore.Rlp
import UtispaceChain.Lib.FixedBytes

/-! The frames of a connection between two nodes: encrypted, and authenticated by running digests.

Keccak and AES are not under `src/`; they are the functions of a `Crypto`. -/

namespace UtispaceChain.P2p

open Lib

/-- Keccak-256 of all bytes that were absorbed, and AES-256 of one block. -/
structure Crypto where
  keccak : Bytes → FixedBytes 32
  aes : FixedBytes 32 → FixedBytes 16 → FixedBytes 16

namespace Crypto

variable (c : Crypto)

/-- The key stream of the counter mode, from the zero vector on. -/
def keystream (key : FixedBytes 32) (position : Nat) : UInt8 :=
  (c.aes key ⟨toBigEndian 16 (position / 16), toBigEndian_length 16 _⟩).val.getD (position % 16) 0

/-- `TruncatedFinal` of a copy of the digest. -/
def digest (mac : Bytes) : FixedBytes 16 := ⟨(c.keccak mac).val.take 16, by
  rw [List.length_take, (c.keccak mac).property]
  rfl⟩

/-- Without a seed, the digest from before stands in for it. -/
def updateMAC (macEncKey : FixedBytes 32) (mac : Bytes) (seed : Option (FixedBytes 16)) : Bytes :=
  mac ++ ((c.aes macEncKey (c.digest mac)).xor (seed.getD (c.digest mac))).val

end Crypto

/-- The ciphers by their positions in the key stream, and the digests by all that they have
absorbed. -/
structure RLPXFrameCoder where
  frameEncKey : FixedBytes 32
  frameEnc : Nat
  frameDecKey : FixedBytes 32
  frameDec : Nat
  macEncKey : FixedBytes 32
  egressMac : Bytes
  ingressMac : Bytes
  deriving DecidableEq

namespace RLPXFrameCoder

variable (c : Crypto)

def setup (originated : Bool) (ephemeralShared remoteNonce nonce : FixedBytes 32)
    (ackCipher authCipher : Bytes) :
    RLPXFrameCoder :=
  let leftNonce := if originated then remoteNonce else nonce
  let rightNonce := if originated then nonce else remoteNonce
  let nonceMaterial := c.keccak (leftNonce.val ++ rightNonce.val)
  let sharedSecret := c.keccak (ephemeralShared.val ++ nonceMaterial.val)
  let aesSecret := c.keccak (ephemeralShared.val ++ sharedSecret.val)
  let macSecret := c.keccak (ephemeralShared.val ++ aesSecret.val)
  let keyMaterial := macSecret.xor remoteNonce
  { frameEncKey := aesSecret
    frameEnc := 0
    frameDecKey := aesSecret
    frameDec := 0
    macEncKey := macSecret
    egressMac := keyMaterial.val ++ (if originated then authCipher else ackCipher)
    ingressMac := ((keyMaterial.xor remoteNonce).xor nonce).val ++
      (if originated then ackCipher else authCipher) }

def paddingOf (length : Nat) : Nat := (16 - length % 16) % 16

/-- The first half of `writeFrame`: the header in one block, and its digest. -/
def writeHeader (header : Bytes) (coder : RLPXFrameCoder) : RLPXFrameCoder × Bytes :=
  let headerWithMac := (populate header 32).val
  let cipher := xorAt (c.keystream coder.frameEncKey) coder.frameEnc (headerWithMac.take 16)
  let mac := c.updateMAC coder.macEncKey coder.egressMac (some (populate cipher 16))
  ({ coder with frameEnc := coder.frameEnc + 16, egressMac := mac }, cipher ++ (c.digest mac).val)

/-- The second half of `writeFrame`: the payload in whole blocks, and its digest. -/
def writePayload (payload : Bytes) (coder : RLPXFrameCoder) : RLPXFrameCoder × Bytes :=
  let padding := paddingOf payload.length
  let packet := xorAt (c.keystream coder.frameEncKey) coder.frameEnc payload
  let packetWithPadding := packet ++
    xorAt (c.keystream coder.frameEncKey) (coder.frameEnc + payload.length) (zeros padding)
  let mac := c.updateMAC coder.macEncKey (coder.egressMac ++ packetWithPadding) none
  ({ coder with frameEnc := coder.frameEnc + payload.length + padding, egressMac := mac },
    packetWithPadding ++ (c.digest mac).val)

def writeFrame (header payload : Bytes) (coder : RLPXFrameCoder) : RLPXFrameCoder × Bytes :=
  let (coder, headerWithMac) := writeHeader c header coder
  let (coder, frame) := writePayload c payload coder
  (coder, headerWithMac ++ frame)

/-- The length that stands at the front of a header: of the 32 bits that it is cut to, the lower
24. -/
def lengthBytes (payload : Bytes) : Bytes := toBigEndian 3 (UInt32.ofNat payload.length).toNat

def writeSingleFramePacket (packet : Bytes) (coder : RLPXFrameCoder) : RLPXFrameCoder × Bytes :=
  writeFrame c (lengthBytes packet ++ [0xc2, 0x80, 0x80]) packet coder

/-- `none` when the digests differ. -/
def authAndDecryptHeader (io : Bytes) (coder : RLPXFrameCoder) : Option (RLPXFrameCoder × Bytes) :=
  let mac := c.updateMAC coder.macEncKey coder.ingressMac (some (populate (io.take 16) 16))
  if io.drop 16 ≠ (c.digest mac).val then none
  else some ({ coder with frameDec := coder.frameDec + 16, ingressMac := mac },
    xorAt (c.keystream coder.frameDecKey) coder.frameDec (io.take 16) ++ io.drop 16)

/-- `none` when the digests differ. -/
def authAndDecryptFrame (io : Bytes) (coder : RLPXFrameCoder) : Option (RLPXFrameCoder × Bytes) :=
  let cipherText := io.take (io.length - 16)
  let mac := c.updateMAC coder.macEncKey (coder.ingressMac ++ cipherText) none
  if io.drop (io.length - 16) ≠ (c.digest mac).val then none
  else some ({ coder with frameDec := coder.frameDec + (io.length - 16), ingressMac := mac },
    xorAt (c.keystream coder.frameDecKey) coder.frameDec cipherText ++ io.drop (io.length - 16))

end RLPXFrameCoder

structure RLPXFrameInfo where
  length : Nat
  padding : Nat
  protocolId : Nat
  multiFrame : Bool
  sequenceId : Nat
  totalLength : Nat
  deriving DecidableEq, Repr

/-- `none` when the constructor throws. -/
def RLPXFrameInfo.ofHeader (header : Bytes) : Option RLPXFrameInfo :=
  let length := ((header.getD 0 0).toNat * 256 + (header.getD 1 0).toNat) * 256 +
    (header.getD 2 0).toNat
  let data := header.drop 3
  (Rlp.actualSize data).bind fun size =>
    if data.length < size then none
    else
      ((Rlp.item data 0).bind (Rlp.toInt 2)).bind fun protocolId =>
        (Rlp.items data).bind fun items =>
          (if 1 < items.length then (Rlp.item data 1).bind (Rlp.toInt 2) else some 0).bind
            fun sequenceId =>
            (if items.length = 3 then (Rlp.item data 2).bind (Rlp.toInt 4) else some 0).map
              fun totalLength =>
              { length, padding := RLPXFrameCoder.paddingOf length, protocolId
                multiFrame := decide (1 < items.length), sequenceId, totalLength }

/-! A writer and a reader in step -/

namespace RLPXFrameCoder

variable {c : Crypto} {writer reader : RLPXFrameCoder}

/-- The reader is where the writer is in the key stream, and has absorbed the same. -/
structure InStep (writer reader : RLPXFrameCoder) : Prop where
  key : reader.frameDecKey = writer.frameEncKey
  position : reader.frameDec = writer.frameEnc
  macKey : reader.macEncKey = writer.macEncKey
  mac : reader.ingressMac = writer.egressMac

theorem setup_inStep (originated : Bool) (ephemeralShared nonce nonce' : FixedBytes 32)
    (ackCipher authCipher : Bytes) :
    InStep (setup c originated ephemeralShared nonce' nonce ackCipher authCipher)
      (setup c (!originated) ephemeralShared nonce nonce' ackCipher authCipher) := by
  cases originated with
  | false =>
      constructor
      · rfl
      · rfl
      · rfl
      · simp only [setup, FixedBytes.xor_xor_cancel]
        rfl
  | true =>
      constructor
      · rfl
      · rfl
      · rfl
      · simp only [setup, FixedBytes.xor_xor_cancel]
        rfl

theorem length_writeHeader (header : Bytes) (writer : RLPXFrameCoder) :
    (writeHeader c header writer).2.length = 32 := by
  simp only [writeHeader, List.length_append, length_xorAt, List.length_take,
    (populate header 32).property, (c.digest _).property]
  rfl

theorem length_writePayload (payload : Bytes) (writer : RLPXFrameCoder) :
    (writePayload c payload writer).2.length = payload.length + paddingOf payload.length + 16 := by
  simp only [writePayload, List.length_append, length_xorAt, length_zeros, (c.digest _).property]

def follow (writer reader : RLPXFrameCoder) : RLPXFrameCoder :=
  { reader with frameDec := writer.frameEnc, ingressMac := writer.egressMac }

theorem InStep.header (inStep : InStep writer reader) (header : Bytes) :
    InStep (writeHeader c header writer).1 (follow (writeHeader c header writer).1 reader) ∧
      ∃ mac, mac.length = 16 ∧ authAndDecryptHeader c (writeHeader c header writer).2 reader =
        some (follow (writeHeader c header writer).1 reader, (populate header 32).val.take 16 ++
          mac) := by
  have block : (xorAt (c.keystream writer.frameEncKey) writer.frameEnc
      ((populate header 32).val.take 16)).length = 16 := by
    rw [length_xorAt, List.length_take, (populate header 32).property]
    rfl
  refine ⟨⟨inStep.key, rfl, inStep.macKey, rfl⟩,
    (c.digest (writeHeader c header writer).1.egressMac).val, (c.digest _).property, ?_⟩
  simp only [authAndDecryptHeader, writeHeader, inStep.key, inStep.position,
    inStep.macKey, inStep.mac, List.take_left' block, List.drop_left' block]
  rw [if_neg (not_not.mpr rfl), xorAt_xorAt]
  simp only [follow, inStep.key, inStep.macKey]

theorem InStep.payload (inStep : InStep writer reader) (payload : Bytes) :
    InStep (writePayload c payload writer).1 (follow (writePayload c payload writer).1 reader) ∧
      ∃ back, authAndDecryptFrame c (writePayload c payload writer).2 reader =
        some (follow (writePayload c payload writer).1 reader, payload ++ back) := by
  have whole : xorAt (c.keystream writer.frameEncKey) writer.frameEnc payload ++
      xorAt (c.keystream writer.frameEncKey) (writer.frameEnc + payload.length)
        (zeros (paddingOf payload.length)) =
      xorAt (c.keystream writer.frameEncKey) writer.frameEnc
        (payload ++ zeros (paddingOf payload.length)) :=
    (xorAt_append _ _ _).symm
  have size : (writePayload c payload writer).2.length - 16 =
      payload.length + paddingOf payload.length := by
    rw [length_writePayload, Nat.add_sub_cancel]
  have length : (xorAt (c.keystream writer.frameEncKey) writer.frameEnc
    (payload ++ zeros (paddingOf payload.length))).length =
      payload.length + paddingOf payload.length := by
    rw [length_xorAt, List.length_append, length_zeros]
  refine ⟨⟨inStep.key, rfl, inStep.macKey, rfl⟩,
    zeros (paddingOf payload.length) ++ (c.digest (writePayload c payload writer).1.egressMac).val,
    ?_⟩
  rw [authAndDecryptFrame, size]
  simp only [writePayload, whole, inStep.key, inStep.position, inStep.macKey, inStep.mac,
    List.take_left' length, List.drop_left' length]
  rw [if_neg (not_not.mpr rfl), xorAt_xorAt, List.append_assoc, ← Nat.add_assoc]
  simp only [follow, inStep.key, inStep.macKey]

end RLPXFrameCoder

end UtispaceChain.P2p
