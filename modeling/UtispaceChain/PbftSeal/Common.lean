import UtispaceChain.DevCore.Rlp
import UtispaceChain.DevCrypto.Common

/-! The four consensus messages and their wire format. -/

namespace UtispaceChain

open Lib Rlp

structure PBFTMsg where
  height : Nat := Invalid256
  view : Nat := Invalid256
  idx : Nat := Invalid256
  timestamp : Nat := Invalid256
  blockHash : H256 := 0
  sig : Signature := 0
  sig2 : Signature := 0
  deriving DecidableEq, Repr

structure PrepareReq extends PBFTMsg where
  block : Bytes := []
  deriving DecidableEq, Repr

abbrev SignReq := PBFTMsg
abbrev CommitReq := PBFTMsg
abbrev ViewChangeReq := PBFTMsg

namespace PBFTMsg

def streamRLPFields (m : PBFTMsg) : Bytes :=
  appendInt m.height ++ (appendInt m.view ++ (appendInt m.idx ++ (appendInt m.timestamp ++
    (appendBytes (toBigEndian 32 m.blockHash) ++ (appendBytes (toBigEndian 65 m.sig) ++
      appendBytes (toBigEndian 65 m.sig2))))))

/-- `Signature(bytesConstRef)`: a string of any other length reads as zero. -/
def signatureOf (bytes : Bytes) : Signature :=
  if bytes.length = 65 then fromBigEndian bytes else 0

def populate (r : Bytes) : Option PBFTMsg :=
  ((item r 0).bind (toInt 32)).bind fun height =>
  ((item r 1).bind (toInt 32)).bind fun view =>
  ((item r 2).bind (toInt 32)).bind fun idx =>
  ((item r 3).bind (toInt 32)).bind fun timestamp =>
  ((item r 4).bind (toHash 32)).bind fun blockHash =>
  ((item r 5).bind toBytes).bind fun sig =>
  ((item r 6).bind toBytes).map fun sig2 =>
    ⟨height, view, idx, timestamp, blockHash, signatureOf sig, signatureOf sig2⟩

/-- Everything but the hash of the block, as signed by `sig2`. -/
def withoutBlock (m : PBFTMsg) : Bytes :=
  appendInt m.height ++ (appendInt m.view ++ (appendInt m.idx ++ appendInt m.timestamp))

def fieldsWithoutBlock (C : Crypto) (m : PBFTMsg) : H256 := C.sha3 m.withoutBlock

structure InRange (m : PBFTMsg) : Prop where
  height : m.height < 2 ^ 256
  view : m.view < 2 ^ 256
  idx : m.idx < 2 ^ 256
  timestamp : m.timestamp < 2 ^ 256

structure SameFields (m other : PBFTMsg) : Prop where
  height : m.height = other.height
  view : m.view = other.view
  idx : m.idx = other.idx
  timestamp : m.timestamp = other.timestamp

theorem fieldsWithoutBlock_inj (C : Crypto) (collisionFree : Function.Injective C.sha3)
    (m other : PBFTMsg) (left : m.InRange) (right : other.InRange)
    (same : m.fieldsWithoutBlock C = other.fieldsWithoutBlock C) : m.SameFields other := by
  have bytes : m.withoutBlock = other.withoutBlock := collisionFree same
  obtain ⟨height, afterHeight⟩ := appendInt_append_inj _ _ _ _ left.height right.height bytes
  obtain ⟨view, afterView⟩ := appendInt_append_inj _ _ _ _ left.view right.view afterHeight
  obtain ⟨idx, afterIdx⟩ := appendInt_append_inj _ _ _ _ left.idx right.idx afterView
  have last : appendInt m.timestamp ++ [] = appendInt other.timestamp ++ [] := by
    rw [afterIdx]
  obtain ⟨timestamp, -⟩ := appendInt_append_inj _ _ _ _ left.timestamp right.timestamp last
  exact ⟨height, view, idx, timestamp⟩

end PBFTMsg

namespace PrepareReq

def streamRLPFields (m : PrepareReq) : Bytes :=
  m.toPBFTMsg.streamRLPFields ++ appendBytes m.block

def populate (r : Bytes) : Option PrepareReq :=
  (PBFTMsg.populate r).bind fun m => ((item r 7).bind toBytes).map fun block => ⟨m, block⟩

/-- `clear` is inherited: the block data stays. -/
def clear (m : PrepareReq) : PrepareReq := { m with toPBFTMsg := {} }

end PrepareReq

inductive Packet
  | prepare (req : PrepareReq)
  | sign (req : SignReq)
  | commit (req : CommitReq)
  | viewChange (req : ViewChangeReq)
  deriving DecidableEq, Repr

namespace Packet

def msg : Packet → PBFTMsg
  | prepare req => req.toPBFTMsg
  | sign req => req
  | commit req => req
  | viewChange req => req

/-- The `switch` of `handleMsg`; an unknown id and a malformed message are dropped. -/
def decode (id : Nat) (r : Bytes) : Option Packet :=
  match id with
  | 0 => (PrepareReq.populate r).map prepare
  | 1 => (PBFTMsg.populate r).map sign
  | 2 => (PBFTMsg.populate r).map commit
  | 3 => (PBFTMsg.populate r).map viewChange
  | _ => none

end Packet

end UtispaceChain
