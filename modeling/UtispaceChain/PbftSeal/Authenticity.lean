import UtispaceChain.PbftSeal.Membership

/-! What `checkSign` proves about the sender.

A message carries a signature of the block hash and one of the other fields; neither covers
the type of the message, nor the other hash. -/

namespace UtispaceChain

open Lib

/-- Both signatures of the message are the ones the key gives for its two hashes. -/
structure SignedBy (C : Crypto) (sec : Secret) (m : PBFTMsg) : Prop where
  block : m.sig = C.sign sec m.blockHash
  fields : m.sig2 = C.sign sec (m.fieldsWithoutBlock C)

def signedPackets (log : List Effect) : List Packet :=
  log.filterMap fun
    | .signed packet => some packet
    | _ => none

theorem mem_signedPackets (log : List Effect) (packet : Packet) :
    packet ∈ signedPackets log ↔ Effect.signed packet ∈ log := by
  unfold signedPackets
  rw [List.mem_filterMap]
  constructor
  · rintro ⟨effect, member, shape⟩
    cases effect <;> cases shape
    exact member
  · intro member
    exact ⟨.signed packet, member, rfl⟩

/-- The key has signed this hash, as one of the two hashes of some message. -/
def HasSigned (C : Crypto) (log : List Effect) (hash : H256) : Prop :=
  ∃ packet ∈ signedPackets log,
    hash = packet.msg.blockHash ∨ hash = packet.msg.fieldsWithoutBlock C

/-- A signature that verifies under the key is of a hash its owner has signed. -/
def Unforgeable (C : Crypto) (pub : Public) (log : List Effect) : Prop :=
  ∀ sig hash, C.verify pub sig hash = true → HasSigned C log hash

section Log

variable {C : Crypto} {ctx : Ctx} {s : Node} {event : Event} {c d : Core}

def OwnSignatures (C : Crypto) (c : Core) : Prop :=
  ∀ packet, Effect.signed packet ∈ c.log → SignedBy C c.sec packet.msg

theorem signMsg_signedBy (c : Core) (height view idx : Nat) (hash : H256) :
    SignedBy C c.sec (c.signMsg C ctx height view idx hash) := ⟨rfl, rfl⟩

theorem OwnSignatures.emit (own : OwnSignatures C c) (packet : Packet)
    (signed : SignedBy C c.sec packet.msg) : OwnSignatures C (c.emit (.signed packet)) := by
  intro other member
  rcases List.mem_cons.mp member with same | old
  · cases same
    exact signed
  · exact own other old

theorem OwnSignatures.grow (own : OwnSignatures C c) (effects : List Effect)
    (other : ∀ packet, Effect.signed packet ∉ effects) :
    OwnSignatures C { c with log := effects ++ c.log } := by
  intro packet member
  rcases List.mem_append.mp member with new | old
  · exact absurd new (other packet)
  · exact own packet old

theorem OwnSignatures.move (own : OwnSignatures C c) (move : Micro C ctx s event c d) :
    OwnSignatures C d := by
  cases move with
  | accept _ req self hash block =>
      exact own.emit (.prepare _) (signMsg_signedBy c req.height req.view req.idx hash)
  | propose number hash block =>
      rw [Core.broadcastPrepareReq_eq]
      refine OwnSignatures.grow (own.emit (.prepare _)
        (signMsg_signedBy s.toCore number s.view s.nodeIdx hash)) _ ?_
      intro packet
      cases ctx.host <;> simp
  | prepareOwn proposal number hash block =>
      exact own.emit (.prepare _) (signMsg_signedBy s.toCore number s.view s.nodeIdx hash)
  | voteSign =>
      rw [Core.broadcastSignReq_eq]
      refine OwnSignatures.grow (own.emit (.sign _) (signMsg_signedBy c c.prepareCache.height
        c.prepareCache.view c.nodeIdx c.prepareCache.blockHash)) _ ?_
      intro packet
      cases ctx.host <;> simp
  | lock => exact own.grow [.locked _ _] (by simp)
  | voteCommit =>
      rw [Core.broadcastCommitReq_eq]
      refine OwnSignatures.grow (own.emit (.commit _) (signMsg_signedBy c c.prepareCache.height
        c.prepareCache.view c.nodeIdx c.prepareCache.blockHash)) _ ?_
      intro packet
      cases ctx.host <;> simp
  | save =>
      rcases c.checkAndSave_cases with same | ⟨-, -, -, -, block, sealed⟩
      · rw [same]
        exact own
      · rw [sealed]
        exact own.grow [.onSealGenerated _ _ _ _] (by simp)
  | sign _ packet height view idx hash signed =>
      exact own.emit packet (signed ▸ signMsg_signedBy c height view idx hash)
  | send _ packet => exact own.grow [.sent packet] (by simp)
  | callback => exact own.grow [.onViewChange] (by simp)
  | _ => exact own

theorem OwnSignatures.run (C : Crypto) (ctx : Ctx) (setup : Node.Setup)
    (calls : List (Ctx × Event)) :
    OwnSignatures C (Node.run C (Node.initEnv ctx setup) calls).toCore := by
  refine run_invariant (Node.next C) (fun _ s => OwnSignatures C s.toCore) (fun _ _ => True) _ ?_ ?_
    calls (fun _ _ => trivial)
  · intro packet member
    rw [Node.initEnv_log] at member
    cases member
  · intro events call _ before _
    exact moves_invariant (OwnSignatures C) Node.step_moves before
      (fun _ _ own move => own.move move)

end Log

/-- What an accepted message proves of the owner of the key: it has signed this block hash in
some message, and these four fields in some message. The two messages and their types may
differ, and a hash signed in one role may be shown in the other. -/
theorem accepted_hashes_signed (C : Crypto) (collisionFree : Function.Injective C.sha3) (ctx : Ctx)
    (setup : Node.Setup) (calls : List (Ctx × Event)) (verifier : Ctx) (m : PBFTMsg)
    (known : verifier.nodes.getPublicKey m.idx = some setup.pub) (range : m.InRange)
    (typed : ∀ packet ∈ signedPackets (Node.run C (Node.initEnv ctx setup) calls).log,
      packet.msg.InRange)
    (unforgeable : Unforgeable C setup.pub (Node.run C (Node.initEnv ctx setup) calls).log)
    (accepted : Node.checkSign C verifier m = true) :
    let s := Node.run C (Node.initEnv ctx setup) calls
    (∃ packet ∈ signedPackets s.log, SignedBy C s.sec packet.msg ∧
      (m.blockHash = packet.msg.blockHash ∨ m.blockHash = packet.msg.fieldsWithoutBlock C)) ∧
    ∃ packet ∈ signedPackets s.log, SignedBy C s.sec packet.msg ∧
      (m.SameFields packet.msg ∨ m.fieldsWithoutBlock C = packet.msg.blockHash) := by
  intro s
  have own := OwnSignatures.run C ctx setup calls
  obtain ⟨node, found, block, fields⟩ := Node.checkSign_registered m accepted
  have key : node.nodeId = setup.pub := by
    simpa [NodeTable.getPublicKey, found] using known
  rw [key] at block fields
  obtain ⟨first, firstSigned, firstHash⟩ := unforgeable m.sig m.blockHash block
  obtain ⟨second, secondSigned, secondHash⟩ := unforgeable m.sig2 _ fields
  refine ⟨⟨first, firstSigned, own first ((mem_signedPackets _ _).mp firstSigned), firstHash⟩,
    ⟨second, secondSigned, own second ((mem_signedPackets _ _).mp secondSigned), ?_⟩⟩
  rcases secondHash with asBlock | asFields
  · exact Or.inr asBlock
  · exact Or.inl (PBFTMsg.fieldsWithoutBlock_inj C collisionFree m second.msg range
      (typed second secondSigned) asFields)

/-- The small signature scheme, with signatures under one key for the given hashes only. -/
def Crypto.onlySigned (pub : Public) (hashes : List H256) : Crypto :=
  { Crypto.toy with
    recover := fun s hash =>
      if Crypto.toy.recover s hash = pub ∧ hash ∉ hashes then 0 else Crypto.toy.recover s hash }

theorem Crypto.onlySigned_unforgeable (pub : Public) (hashes : List H256) (log : List Effect)
    (signed : ∀ hash ∈ hashes, HasSigned (Crypto.onlySigned pub hashes) log hash) :
    Unforgeable (Crypto.onlySigned pub hashes) pub log := by
  intro sig hash verified
  obtain ⟨nonzero, recovered⟩ := (Crypto.verify_iff _ pub sig hash).mp verified
  apply signed
  by_contra unsigned
  by_cases same : Crypto.toy.recover sig hash = pub
  · have none : (Crypto.onlySigned pub hashes).recover sig hash = 0 := if_pos ⟨same, unsigned⟩
    exact nonzero (recovered.trans none)
  · have other : (Crypto.onlySigned pub hashes).recover sig hash = Crypto.toy.recover sig hash :=
      if_neg (fun both => same both.1)
    exact same (recovered.trans other).symm

def twoTimeouts : List (Ctx × Event) :=
  let ctx := Ctx.quiet (.consecutive 4 0)
  [(ctx, .reportBlock { number := 0, hash := 5, timestamp := 1 }),
    ({ ctx with now := 10000 }, .checkTimeout),
    ({ ctx with now := 20000 }, .reportBlock { number := 1, hash := 6, timestamp := 2 }),
    ({ ctx with now := 40000 }, .checkTimeout)]

/-- The request for view 1 that node 1 signs at the given time on top of the given block. -/
def viewChangeOf (now number : Nat) (hash : H256) : PBFTMsg :=
  Core.signMsg Crypto.toy { Ctx.quiet (.consecutive 4 0) with now := now } { sec := 2, pub := 2 }
    number 1 1 hash

def twoTimeoutsCrypto : Crypto :=
  Crypto.onlySigned 2 [5, (viewChangeOf 10000 0 5).fieldsWithoutBlock Crypto.toy, 6,
    (viewChangeOf 40000 1 6).fieldsWithoutBlock Crypto.toy]

theorem twoTimeouts_signed :
    signedPackets (Node.run twoTimeoutsCrypto (toyNode (.consecutive 4 0)) twoTimeouts).log =
      [.viewChange (viewChangeOf 40000 1 6), .viewChange (viewChangeOf 10000 0 5)] := by
  decide +kernel

theorem twoTimeouts_unforgeable :
    Unforgeable twoTimeoutsCrypto 2
      (Node.run twoTimeoutsCrypto (toyNode (.consecutive 4 0)) twoTimeouts).log := by
  apply Crypto.onlySigned_unforgeable
  intro hash member
  unfold HasSigned
  rw [show signedPackets _ = _ from twoTimeouts_signed]
  revert hash
  decide +kernel

theorem accepted_viewChange_signed :
    Node.checkSign twoTimeoutsCrypto (Ctx.quiet (.consecutive 4 0)) (viewChangeOf 10000 0 5) =
      true ∧
    ∃ packet ∈ signedPackets
        (Node.run twoTimeoutsCrypto (toyNode (.consecutive 4 0)) twoTimeouts).log,
      SignedBy twoTimeoutsCrypto 2 packet.msg ∧
        ((viewChangeOf 10000 0 5).blockHash = packet.msg.blockHash ∨
          (viewChangeOf 10000 0 5).blockHash =
            packet.msg.fieldsWithoutBlock twoTimeoutsCrypto) := by
  have accepted : Node.checkSign twoTimeoutsCrypto (Ctx.quiet (.consecutive 4 0))
      (viewChangeOf 10000 0 5) = true := by decide +kernel
  refine ⟨accepted, ?_⟩
  refine (accepted_hashes_signed twoTimeoutsCrypto Crypto.toy_sha3_injective
    (Ctx.quiet (.consecutive 4 0)) { sec := 2, pub := 2, viewTimeout := 3000 } twoTimeouts
    (Ctx.quiet (.consecutive 4 0)) (viewChangeOf 10000 0 5) rfl ?_ ?_ twoTimeouts_unforgeable
    accepted).1
  · constructor <;> decide +kernel
  · intro packet member
    have cases : packet ∈ [_, _] := twoTimeouts_signed ▸ member
    rw [List.mem_pair] at cases
    rcases cases with rfl | rfl <;> constructor <;> decide +kernel

/-- Node 1 has signed two view change requests and nothing else. Accepted under its index are:
the first one as a message of any other type, the block hash of the first with the fields of
the second, and the field hash of the first in the place of a block hash. -/
theorem retyped_and_recombined_accepted :
    let first := viewChangeOf 10000 0 5
    let second := viewChangeOf 40000 1 6
    let recombined := { second with blockHash := first.blockHash, sig := first.sig }
    let displaced :=
      { first with blockHash := first.fieldsWithoutBlock twoTimeoutsCrypto, sig := first.sig2 }
    let s := Node.run twoTimeoutsCrypto (toyNode (.consecutive 4 0)) twoTimeouts
    let ctx := Ctx.quiet (.consecutive 4 0)
    Unforgeable twoTimeoutsCrypto 2 s.log ∧
      signedPackets s.log = [.viewChange second, .viewChange first] ∧
      Node.checkSign twoTimeoutsCrypto ctx (Packet.commit first).msg = true ∧
      (¬ ∃ req, Packet.commit req ∈ signedPackets s.log) ∧
      Node.checkSign twoTimeoutsCrypto ctx (Packet.viewChange recombined).msg = true ∧
      (¬ ∃ req, Packet.viewChange req ∈ signedPackets s.log ∧ req.height = recombined.height ∧
        req.blockHash = recombined.blockHash) ∧
      Node.checkSign twoTimeoutsCrypto ctx (Packet.viewChange displaced).msg = true ∧
      ¬ ∃ req, Packet.viewChange req ∈ signedPackets s.log ∧
      req.blockHash = displaced.blockHash := by
  intro first second recombined displaced s ctx
  have signed : signedPackets s.log = [.viewChange second, .viewChange first] := twoTimeouts_signed
  refine ⟨twoTimeouts_unforgeable, signed, by decide +kernel, ?_, by decide +kernel, ?_,
    by decide +kernel, ?_⟩
  · rw [signed]
    rintro ⟨req, member⟩
    simp at member
  · rw [signed]
    rintro ⟨req, member, height, hash⟩
    simp only [List.mem_cons, Packet.viewChange.injEq, List.not_mem_nil, or_false] at member
    rcases member with rfl | rfl
    · exact absurd hash (by decide +kernel)
    · exact absurd height (by decide +kernel)
  · rw [signed]
    rintro ⟨req, member, hash⟩
    simp only [List.mem_cons, Packet.viewChange.injEq, List.not_mem_nil, or_false] at member
    rcases member with rfl | rfl <;> exact absurd hash (by decide +kernel)

end UtispaceChain
