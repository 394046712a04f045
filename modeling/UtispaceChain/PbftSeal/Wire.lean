import UtispaceChain.DevCore.RlpStream
import UtispaceChain.PbftSeal.Lock

/-! The way of a message to another node, and into the backup database and back. -/

namespace UtispaceChain

open Lib Rlp

namespace PBFTMsg

/-- `streamRLPFields`, field by field. -/
def streamTo (m : PBFTMsg) (s : RLPStream) : Option RLPStream :=
  (s.appendInt m.height).bind fun s => (s.appendInt m.view).bind fun s =>
    (s.appendInt m.idx).bind fun s =>
  (s.appendInt m.timestamp).bind fun s => (s.append (toBigEndian 32 m.blockHash)).bind fun s =>
  (s.append (toBigEndian 65 m.sig)).bind fun s => s.append (toBigEndian 65 m.sig2)

structure Typed (m : PBFTMsg) : Prop extends m.InRange where
  blockHash : m.blockHash < 256 ^ 32
  sig : m.sig < 256 ^ 65
  sig2 : m.sig2 < 256 ^ 65

instance (m : PBFTMsg) : Decidable m.Typed :=
  decidable_of_iff ((m.height < 2 ^ 256 ∧ m.view < 2 ^ 256 ∧ m.idx < 2 ^ 256 ∧
    m.timestamp < 2 ^ 256) ∧
    m.blockHash < 256 ^ 32 ∧ m.sig < 256 ^ 65 ∧ m.sig2 < 256 ^ 65)
    ⟨fun all => ⟨⟨all.1.1, all.1.2.1, all.1.2.2.1, all.1.2.2.2⟩, all.2.1, all.2.2.1, all.2.2.2⟩,
      fun typed => ⟨⟨typed.height, typed.view, typed.idx, typed.timestamp⟩, typed.blockHash,
        typed.sig, typed.sig2⟩⟩

end PBFTMsg

namespace PrepareReq

def streamTo (m : PrepareReq) (s : RLPStream) : Option RLPStream :=
  (m.toPBFTMsg.streamTo s).bind fun s => s.append m.block

structure Typed (m : PrepareReq) : Prop where
  msg : m.toPBFTMsg.Typed
  block : m.block.length < 2 ^ 32

instance (m : PrepareReq) : Decidable m.Typed :=
  decidable_of_iff (m.toPBFTMsg.Typed ∧ m.block.length < 2 ^ 32)
    ⟨fun all => ⟨all.1, all.2⟩, fun typed => ⟨typed.msg, typed.block⟩⟩

end PrepareReq

/-! The wire -/

namespace Packet

/-- `PBFTPacketType`. -/
def id : Packet → Nat
  | prepare _ => 0
  | sign _ => 1
  | commit _ => 2
  | viewChange _ => 3

def streamTo : Packet → RLPStream → Option RLPStream
  | prepare req, s => req.streamTo s
  | sign req, s => req.streamTo s
  | commit req, s => req.streamTo s
  | viewChange req, s => req.streamTo s

def Typed : Packet → Prop
  | prepare req => req.Typed
  | sign req => req.Typed
  | commit req => req.Typed
  | viewChange req => req.Typed

end Packet

def sealedPacket (idOffset id : Nat) (data : Bytes) : Option Bytes :=
  (RLPStream.appendRaw {} [UInt8.ofNat (id + idOffset)] 1).bind fun s =>
    (s.appendList 1).bind fun s =>
    (s.append data).bind RLPStream.out

def readFrame (frame : Bytes) : Option Bytes := construct (frame.drop 1)

/-- `onPBFTMsg` queues the first item as it is. -/
def onPBFTMsg (r : Bytes) : Option Bytes := item r 0

/-- `workLoop` and `handleMsg`, up to the message. -/
def takenMsg (id : Nat) (data : Bytes) : Option Packet := (construct data).bind (Packet.decode id)

/-! The backup -/

def backupMsg (streamTo : RLPStream → Option RLPStream) : Option Bytes :=
  (streamTo {}).bind fun ts => ts.out.bind fun data =>
    (RLPStream.appendList {} 1).bind fun ts2 => (ts2.append data).bind RLPStream.out

/-- What the database has under the key is read over the message; an exception is `none`. -/
def reloadMsg {α : Type} (populate : Bytes → Option α) (stored : Option Bytes) (msg : α) :
    Option α :=
  match stored with
  | none => some msg
  | some data =>
      if data = [] then some msg else (construct data).bind fun rlp => (item rlp 0).bind populate

/-- The database after a part of the log: each lock is put under the one key. -/
def backedUp (db : Option Bytes) : List Effect → Option Bytes
  | [] => db
  | .locked raw _ :: log =>
      match backupMsg raw.streamTo with
      | some data => some data
      | none => backedUp db log
  | _ :: log => backedUp db log

/-! A string of items -/

theorem Rlp.item_nth_appendBytes (l : List Bytes) (whole : Items l)
    (bound : l.flatten.length < maxLength) (i : Nat) :
    item (appendBytes l.flatten) i = some ((l[i]?).getD []) := by
  rw [item, payload_appendBytes _ bound, Option.bind_some]
  exact nthItem_flatten l whole i

namespace PBFTMsg

def parts (m : PBFTMsg) : List Bytes :=
  [appendInt m.height, appendInt m.view, appendInt m.idx, appendInt m.timestamp,
    appendBytes (toBigEndian 32 m.blockHash), appendBytes (toBigEndian 65 m.sig),
    appendBytes (toBigEndian 65 m.sig2)]

variable {m : PBFTMsg}

theorem flatten_parts : m.parts.flatten = m.streamRLPFields := by
  simp [parts, streamRLPFields]

theorem appendInt_length (n : Nat) (bound : n < 2 ^ 256) : (appendInt n).length ≤ 74 := by
  have width : (toCompactBigEndian n).length ≤ 32 :=
    toCompactBigEndian_length_le 32 n (by simpa using bound)
  have length := appendBytes_length (toCompactBigEndian n) (by omega)
  rw [appendInt_eq]
  omega

theorem appendHash_length (size n : Nat) (small : size ≤ 65) :
    (appendBytes (toBigEndian size n)).length ≤ 74 := by
  have width : (toBigEndian size n).length = size := toBigEndian_length size n
  have length := appendBytes_length (toBigEndian size n) (by omega)
  omega

theorem item_appendHash (size n : Nat) (small : size ≤ 65) :
    Item (appendBytes (toBigEndian size n)) := by
  have room : 65 < maxLength := by decide
  apply (item_appendBytes _ _).1
  rw [toBigEndian_length]
  omega

theorem Typed.parts (typed : m.Typed) : ∀ part ∈ m.parts, Item part ∧ part.length ≤ 74 := by
  simp only [PBFTMsg.parts, List.forall_mem_cons, List.not_mem_nil, false_implies,
    implies_true, and_true]
  exact ⟨⟨item_appendInt _ typed.height, appendInt_length _ typed.height⟩,
    ⟨item_appendInt _ typed.view, appendInt_length _ typed.view⟩,
    ⟨item_appendInt _ typed.idx, appendInt_length _ typed.idx⟩,
    ⟨item_appendInt _ typed.timestamp, appendInt_length _ typed.timestamp⟩,
    ⟨item_appendHash 32 _ (by decide), appendHash_length 32 _ (by decide)⟩,
    ⟨item_appendHash 65 _ (by decide), appendHash_length 65 _ (by decide)⟩,
    ⟨item_appendHash 65 _ (by decide), appendHash_length 65 _ (by decide)⟩⟩

theorem Typed.length (typed : m.Typed) : m.streamRLPFields.length ≤ 7 * 74 := by
  rw [← flatten_parts]
  exact flatten_length_le m.parts 74 fun part member => (typed.parts part member).2

theorem append_int (bytes : Bytes) (n : Nat) (bound : n < 2 ^ 256) :
    RLPStream.appendInt ⟨bytes, []⟩ n = some ⟨bytes ++ appendInt n, []⟩ := by
  have width : (toCompactBigEndian n).length ≤ 32 :=
    toCompactBigEndian_length_le 32 n (by simpa using bound)
  rw [RLPStream.appendInt_eq _ _ (by omega)]
  rfl

theorem append_string (bytes s : Bytes) (bound : s.length < 2 ^ 64) :
    RLPStream.append ⟨bytes, []⟩ s = some ⟨bytes ++ appendBytes s, []⟩ := by
  rw [RLPStream.append_eq _ _ bound]
  rfl

theorem Typed.streamTo (typed : m.Typed) (bytes : Bytes) :
    m.streamTo ⟨bytes, []⟩ = some ⟨bytes ++ m.streamRLPFields, []⟩ := by
  have hash (size n : Nat) (small : size ≤ 65) : (toBigEndian size n).length < 2 ^ 64 := by
    rw [toBigEndian_length]
    omega
  simp only [PBFTMsg.streamTo, append_int _ _ typed.height, append_int _ _ typed.view,
    append_int _ _ typed.idx, append_int _ _ typed.timestamp,
    append_string _ _ (hash 32 m.blockHash (by decide)),
    append_string _ _ (hash 65 m.sig (by decide)), append_string _ _ (hash 65 m.sig2 (by decide)),
    Option.bind_some, streamRLPFields, List.append_assoc]

theorem signatureOf_toBigEndian (sig : Signature) (bound : sig < 256 ^ 65) :
    signatureOf (toBigEndian 65 sig) = sig := by
  rw [signatureOf, if_pos (toBigEndian_length 65 sig), fromBigEndian_toBigEndian 65 sig bound]

theorem Typed.populate (typed : m.Typed) (r : Bytes) (rest : List Bytes)
    (reads : ∀ i, item r i = some (((m.parts ++ rest)[i]?).getD [])) :
    PBFTMsg.populate r = some m := by
  have room : 65 < maxLength := by decide
  have hash := toHash_appendBytes 32 m.blockHash (by omega) typed.blockHash
  have signature (n : Nat) : toBytes (appendBytes (toBigEndian 65 n)) =
      some (toBigEndian 65 n) := by
    apply toBytes_appendBytes
    rw [toBigEndian_length]
    exact room
  simp [PBFTMsg.populate, reads, PBFTMsg.parts, toInt_appendInt _ typed.height,
    toInt_appendInt _ typed.view, toInt_appendInt _ typed.idx, toInt_appendInt _ typed.timestamp,
    hash, signature, signatureOf_toBigEndian _ typed.sig, signatureOf_toBigEndian _ typed.sig2]

end PBFTMsg

/-- A string of items that is long, but not too long for the lists around it. -/
structure Carried (l : List Bytes) : Prop where
  items : Items l
  bound : l.flatten.length < 2 ^ 33

namespace Carried

variable {l : List Bytes}

theorem string (carried : Carried l) : Item (appendBytes l.flatten) ∧
    (appendBytes l.flatten).length < 2 ^ 34 := by
  have bound := carried.bound
  have room : 2 ^ 33 < maxLength := by decide
  have length := appendBytes_length l.flatten (by omega)
  exact ⟨(item_appendBytes _ (by omega)).1, by omega⟩

theorem list (carried : Carried l) : Item (appendList (appendBytes l.flatten)) ∧
    item (appendList (appendBytes l.flatten)) 0 = some (appendBytes l.flatten) := by
  rcases carried.string with ⟨whole, bound⟩
  have room : 2 ^ 34 < maxLength := by decide
  have single : [appendBytes l.flatten].flatten = appendBytes l.flatten := by simp
  have first := item_nth_appendList [appendBytes l.flatten] (by simpa [Items] using whole)
    (by rw [single]; omega) 0
  rw [single] at first
  exact ⟨(item_appendList _ (by omega)).1, first⟩

theorem reads (carried : Carried l) (i : Nat) :
    item (appendBytes l.flatten) i = some ((l[i]?).getD []) := by
  have bound := carried.bound
  have room : 2 ^ 33 < maxLength := by decide
  exact item_nth_appendBytes l carried.items (by omega) i

theorem append (carried : Carried l) (front : Bytes) :
    ((RLPStream.appendList ⟨front, []⟩ 1).bind fun s => (s.append l.flatten).bind RLPStream.out) =
      some (front ++ appendList (appendBytes l.flatten)) := by
  have bound := carried.bound
  have small := carried.string.2
  have opened : RLPStream.appendList ⟨front, []⟩ 1 = some ⟨front, [(1, front.length)]⟩ := rfl
  rw [opened, Option.bind_some, RLPStream.append_eq _ _ (by omega),
    RLPStream.noteAppended_last front _ [] (by omega)]
  rfl

theorem sealedPacket (carried : Carried l) (idOffset id : Nat) :
    UtispaceChain.sealedPacket idOffset id l.flatten =
      some (UInt8.ofNat (id + idOffset) :: appendList (appendBytes l.flatten)) :=
  carried.append [UInt8.ofNat (id + idOffset)]

theorem received (carried : Carried l) (idOffset id : Nat) :
    (((UtispaceChain.sealedPacket idOffset id l.flatten).bind readFrame).bind onPBFTMsg).bind
      construct =
      some (appendBytes l.flatten) := by
  rcases carried.list with ⟨whole, first⟩
  rw [carried.sealedPacket, Option.bind_some, readFrame, List.drop_succ_cons, List.drop_zero,
    whole.construct, Option.bind_some, onPBFTMsg, first, Option.bind_some,
    carried.string.1.construct]

theorem reload {α : Type} (carried : Carried l) (populate : Bytes → Option α) (msg : α) :
    reloadMsg populate (some (appendList (appendBytes l.flatten))) msg =
      populate (appendBytes l.flatten) := by
  rcases carried.list with ⟨whole, first⟩
  rw [reloadMsg, if_neg whole.1, whole.construct, Option.bind_some, first, Option.bind_some]

end Carried

theorem PBFTMsg.Typed.carried {m : PBFTMsg} (typed : m.Typed) : Carried m.parts := by
  have length := typed.length
  refine ⟨fun part member => (typed.parts part member).1, ?_⟩
  rw [PBFTMsg.flatten_parts]
  omega

namespace PrepareReq

variable {m : PrepareReq}

def parts (m : PrepareReq) : List Bytes := m.toPBFTMsg.parts ++ [appendBytes m.block]

theorem flatten_parts : m.parts.flatten = m.streamRLPFields := by
  rw [parts, List.flatten_append, PBFTMsg.flatten_parts, streamRLPFields]
  simp

theorem Typed.carried (typed : m.Typed) : Carried m.parts := by
  have bound := typed.block
  have room : 2 ^ 32 < maxLength := by decide
  have length := typed.msg.length
  have long := appendBytes_length m.block (by omega)
  refine ⟨?_, ?_⟩
  · intro part member
    rcases List.mem_append.mp member with field | block
    · exact (typed.msg.parts part field).1
    · rw [List.mem_singleton.mp block]
      exact (item_appendBytes _ (by omega)).1
  · rw [flatten_parts, streamRLPFields, List.length_append]
    omega

theorem Typed.streamTo (typed : m.Typed) : m.streamTo {} = some ⟨m.streamRLPFields, []⟩ := by
  have bound := typed.block
  have fields := typed.msg.streamTo []
  rw [List.nil_append] at fields
  have empty : ({} : RLPStream) = ⟨[], []⟩ := rfl
  rw [PrepareReq.streamTo, empty, fields, Option.bind_some, PBFTMsg.append_string _ _ (by omega)]
  rfl

theorem Typed.populate (typed : m.Typed) (r : Bytes)
    (reads : ∀ i, item r i = some ((m.parts[i]?).getD [])) :
    PrepareReq.populate r = some m := by
  have bound := typed.block
  have room : 2 ^ 32 < maxLength := by decide
  have fields := typed.msg.populate r [appendBytes m.block] reads
  have block : item r 7 = some (appendBytes m.block) := reads 7
  have bytes := toBytes_appendBytes m.block (by omega)
  rw [PrepareReq.populate, fields, Option.bind_some, block, Option.bind_some, bytes,
    Option.map_some]

end PrepareReq

namespace Packet

variable {packet : Packet}

def parts : Packet → List Bytes
  | prepare req => req.parts
  | sign req => req.parts
  | commit req => req.parts
  | viewChange req => req.parts

theorem Typed.carried (typed : packet.Typed) : Carried packet.parts := by
  cases packet with
  | prepare req => exact PrepareReq.Typed.carried typed
  | sign req => exact PBFTMsg.Typed.carried typed
  | commit req => exact PBFTMsg.Typed.carried typed
  | viewChange req => exact PBFTMsg.Typed.carried typed

theorem stream_fields {m : PBFTMsg} (typed : m.Typed) :
    m.streamTo {} = some ⟨m.parts.flatten, []⟩ := by
  rw [PBFTMsg.flatten_parts]
  exact typed.streamTo []

theorem Typed.streamTo (typed : packet.Typed) :
    packet.streamTo {} = some ⟨packet.parts.flatten, []⟩ := by
  cases packet with
  | prepare req =>
      have streamed := PrepareReq.Typed.streamTo typed
      rw [← PrepareReq.flatten_parts] at streamed
      exact streamed
  | sign req => exact stream_fields typed
  | commit req => exact stream_fields typed
  | viewChange req => exact stream_fields typed

theorem populate_fields {m : PBFTMsg} (typed : m.Typed) :
    PBFTMsg.populate (appendBytes m.parts.flatten) = some m := by
  apply typed.populate _ []
  rw [List.append_nil]
  exact typed.carried.reads

theorem Typed.decode (typed : packet.Typed) :
    Packet.decode packet.id (appendBytes packet.parts.flatten) = some packet := by
  cases packet with
  | prepare req =>
      have read : PrepareReq.populate (appendBytes req.parts.flatten) = some req :=
        PrepareReq.Typed.populate typed _ (PrepareReq.Typed.carried typed).reads
      simp only [Packet.decode, Packet.id, parts, read, Option.map_some]
  | sign req => simp only [Packet.decode, Packet.id, parts, populate_fields typed, Option.map_some]
  | commit req =>
      simp only [Packet.decode, Packet.id, parts, populate_fields typed, Option.map_some]
  | viewChange req =>
      simp only [Packet.decode, Packet.id, parts, populate_fields typed, Option.map_some]

theorem Typed.wire (typed : packet.Typed) (idOffset : Nat) :
    ∃ data, (packet.streamTo {}).bind RLPStream.out = some data ∧
    ((((sealedPacket idOffset packet.id data).bind readFrame).bind onPBFTMsg).bind
      (takenMsg packet.id) = some packet) ∧
    (((sealedPacket idOffset packet.id data).bind readFrame).bind onPBFTMsg).bind toBytes =
      some data := by
  have carried := typed.carried
  refine ⟨packet.parts.flatten, ?_, ?_, ?_⟩
  · rw [typed.streamTo]
    rfl
  · have received := carried.received idOffset packet.id
    calc
      _ = ((((sealedPacket idOffset packet.id packet.parts.flatten).bind readFrame).bind
        onPBFTMsg).bind
          construct).bind (Packet.decode packet.id) :=
          (Option.bind_assoc _ construct (Packet.decode packet.id)).symm
      _ = some packet := by rw [received, Option.bind_some, typed.decode]
  · have bound := carried.bound
    have room : 2 ^ 33 < maxLength := by decide
    rcases carried.list with ⟨whole, first⟩
    rw [carried.sealedPacket, Option.bind_some, readFrame, List.drop_succ_cons, List.drop_zero,
      whole.construct, Option.bind_some, onPBFTMsg, first, Option.bind_some,
      toBytes_appendBytes _ (by omega)]

end Packet

theorem backupMsg_eq {l : List Bytes} (carried : Carried l)
    (streamTo : RLPStream → Option RLPStream) (streamed : streamTo {} = some ⟨l.flatten, []⟩) :
    backupMsg streamTo = some (appendList (appendBytes l.flatten)) := by
  have opened := carried.append []
  rw [List.nil_append] at opened
  rw [backupMsg, streamed, Option.bind_some]
  exact opened

theorem PBFTMsg.Typed.backup {m : PBFTMsg} (typed : m.Typed) (before : PBFTMsg) : ∃ data,
    backupMsg m.streamTo = some data ∧ reloadMsg PBFTMsg.populate (some data) before = some m := by
  refine ⟨_, backupMsg_eq typed.carried m.streamTo (Packet.stream_fields typed), ?_⟩
  rw [typed.carried.reload, Packet.populate_fields typed]

theorem PrepareReq.Typed.backup {m : PrepareReq} (typed : m.Typed) (before : PrepareReq) : ∃ data,
    backupMsg m.streamTo = some data ∧ reloadMsg PrepareReq.populate (some data) before =
      some m := by
  have streamed := typed.streamTo
  rw [← PrepareReq.flatten_parts] at streamed
  refine ⟨_, backupMsg_eq typed.carried m.streamTo streamed, ?_⟩
  rw [typed.carried.reload]
  exact typed.populate _ typed.carried.reads

/-! The backup of a running node -/

theorem backedUp_quiet (db : Option Bytes) (effects log : List Effect)
    (noLock : ∀ raw prepare, Effect.locked raw prepare ∉ effects) :
    backedUp db (effects ++ log) = backedUp db log := by
  induction effects with
  | nil => rfl
  | cons effect effects ih =>
      have rest := ih fun raw prepare member => noLock raw prepare (List.mem_cons_of_mem _ member)
      cases effect with
      | locked raw prepare => exact absurd List.mem_cons_self (noLock raw prepare)
      | _ => exact rest

def Backed (db : Option Bytes) (c : Core) : Prop :=
  c.committedPrepareCache.Typed →
    reloadMsg PrepareReq.populate (backedUp db c.log) {} = some c.committedPrepareCache

section Backup

variable {C : Crypto} {ctx : Ctx} {s : Node} {event : Event} {db : Option Bytes} {c d : Core}

theorem Backed.kept (backed : Backed db c) (effects : List Effect) (log : d.log = effects ++ c.log)
    (lock : d.committedPrepareCache = c.committedPrepareCache)
    (noLock : ∀ raw prepare, Effect.locked raw prepare ∉ effects) : Backed db d := by
  unfold Backed
  rw [lock, log, backedUp_quiet db effects c.log noLock]
  exact backed

theorem Backed.locked (c : Core) : Backed db c.locked := by
  intro typed
  have raw : c.rawPrepareCache.Typed := typed
  rcases raw.backup {} with ⟨data, stored, reloaded⟩
  have newest : backedUp db c.locked.log = some data := by
    change (match backupMsg c.rawPrepareCache.streamTo with
      | some data => some data
      | none => backedUp db c.log) = some data
    rw [stored]
  rw [newest]
  exact reloaded

theorem Backed.move (backed : Backed db c) (move : Micro C ctx s event c d) : Backed db d := by
  cases move with
  | lock => exact Backed.locked c
  | propose number hash block =>
      rw [Core.broadcastPrepareReq_eq]
      cases ctx.host with
      | false => exact backed.kept [.signed _] rfl rfl (by simp)
      | true => exact backed.kept [.sent _, .signed _] rfl rfl (by simp)
  | voteSign =>
      rw [Core.broadcastSignReq_eq]
      cases ctx.host with
      | false => exact backed.kept [.signed _] rfl rfl (by simp)
      | true => exact backed.kept [.sent _, .signed _] rfl rfl (by simp)
  | voteCommit =>
      rw [Core.broadcastCommitReq_eq]
      cases ctx.host with
      | false => exact backed.kept [.signed _] rfl rfl (by simp)
      | true => exact backed.kept [.sent _, .signed _] rfl rfl (by simp)
  | save =>
      rcases c.checkAndSave_cases with same | ⟨-, -, -, -, block, sealed⟩
      · rw [same]
        exact backed
      · rw [sealed]
        exact backed.kept [.onSealGenerated _ _ _ _] rfl rfl (by simp)
  | accept => exact backed.kept [.signed _] rfl rfl (by simp)
  | prepareOwn => exact backed.kept [.signed _] rfl rfl (by simp)
  | sign _ packet => exact backed.kept [.signed packet] rfl rfl (by simp)
  | send _ packet => exact backed.kept [.sent packet] rfl rfl (by simp)
  | callback => exact backed.kept [.onViewChange] rfl rfl (by simp)
  | _ => exact backed.kept [] rfl rfl (by simp)

theorem Backed.run (C : Crypto) (ctx : Ctx) (setup : Node.Setup) (calls : List (Ctx × Event))
    (started : reloadMsg PrepareReq.populate db {} = some (setup.backup.getD {})) :
    Backed db (Node.run C (Node.initEnv ctx setup) calls).toCore := by
  have initial : Backed db (Node.initEnv ctx setup).toCore := by
    intro _
    have backup := (Node.initEnv_prepare ctx setup).2
    have log := Node.initEnv_log ctx setup
    rw [backup, log]
    exact started
  refine run_invariant (Node.next C) (fun _ s => Backed db s.toCore)
    (fun _ _ => True) _ initial ?_ calls
    (fun _ _ => trivial)
  intro events call current before _
  apply moves_invariant (Backed db) Node.step_moves before
  intro a b held move
  exact held.move move

end Backup

/-- Every message survives the wire, and is relayed as it came; every message survives the backup;
and a node that starts with what the database has under the key has the lock of the node before. -/
theorem messages_survive (C : Crypto) (ctx later : Ctx) (setup : Node.Setup) (db : Option Bytes)
    (calls : List (Ctx × Event))
    (started : reloadMsg PrepareReq.populate db {} = some (setup.backup.getD {})) :
    (∀ packet : Packet, packet.Typed → ∀ idOffset, ∃ data, (packet.streamTo {}).bind RLPStream.out =
      some data ∧
      (((sealedPacket idOffset packet.id data).bind readFrame).bind onPBFTMsg).bind
        (takenMsg packet.id) =
        some packet ∧
      (((sealedPacket idOffset packet.id data).bind readFrame).bind onPBFTMsg).bind toBytes =
        some data) ∧
    (∀ m before : PBFTMsg, m.Typed → ∃ data, backupMsg m.streamTo = some data ∧
      reloadMsg PBFTMsg.populate (some data) before = some m) ∧
    (∀ m before : PrepareReq, m.Typed → ∃ data, backupMsg m.streamTo = some data ∧
      reloadMsg PrepareReq.populate (some data) before = some m) ∧
    let s := Node.run C (Node.initEnv ctx setup) calls
    s.committedPrepareCache.Typed →
      let reloaded := reloadMsg PrepareReq.populate (backedUp db s.log) {}
      reloaded.isSome = true ∧
        (Node.initEnv later { setup with backup := reloaded }).committedPrepareCache =
          s.committedPrepareCache := by
  refine ⟨fun packet typed idOffset => typed.wire idOffset,
    fun m before typed => typed.backup before, fun m before typed => typed.backup before, ?_⟩
  intro s typed reloaded
  have backed : reloaded = some s.committedPrepareCache :=
    Backed.run C ctx setup calls started typed
  have restored := (Node.initEnv_prepare later { setup with backup := reloaded }).2
  refine ⟨by rw [backed]; rfl, ?_⟩
  rw [restored, backed]
  rfl

def lockingCalls : List (Ctx × Event) := fromGenesis (.consecutive 4 0)
  [.prepare (toyPrepare 0 1 0 7), .sign (toyVote 0 0 1 0 8), .sign (toyVote 2 0 1 0 8)]

def toySetup : Node.Setup := { sec := 2, pub := 2, viewTimeout := 3000 }

/-- A node with an empty database locks the proposal of its leader and is started again. -/
theorem locked_proposal_restored :
    ∃ s, s = Node.run Crypto.toy (Node.initEnv (Ctx.quiet (.consecutive 4 0)) toySetup)
      lockingCalls ∧
      s.committedPrepareCache = toyPrepare 0 1 0 7 ∧ (toyPrepare 0 1 0 7).Typed ∧
      (Node.initEnv (Ctx.quiet (.consecutive 4 0)) { toySetup with
        backup := reloadMsg PrepareReq.populate (backedUp none s.log) {} }).committedPrepareCache =
          toyPrepare 0 1 0 7 := by
  have lock : (Node.run Crypto.toy (Node.initEnv (Ctx.quiet (.consecutive 4 0)) toySetup)
      lockingCalls).committedPrepareCache = toyPrepare 0 1 0 7 := by decide +kernel
  have typed : (toyPrepare 0 1 0 7).Typed := by decide +kernel
  have survive :=
    (messages_survive Crypto.toy (Ctx.quiet (.consecutive 4 0))
      (Ctx.quiet (.consecutive 4 0)) toySetup
    none lockingCalls rfl).2.2.2
  generalize Node.run Crypto.toy (Node.initEnv (Ctx.quiet (.consecutive 4 0)) toySetup) lockingCalls
    = s at lock survive ⊢
  have kept : s.committedPrepareCache.Typed := by
    rw [lock]
    exact typed
  exact ⟨s, rfl, lock, typed, (survive kept).2.trans lock⟩

end UtispaceChain
