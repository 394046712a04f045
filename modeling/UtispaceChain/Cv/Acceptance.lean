import UtispaceChain.Cv.Block
import UtispaceChain.Cv.NodeConnParamsManager
import UtispaceChain.Cv.Packing

/-! Taking in a block that another node packed: `checkBlockValid`, and `import` up to its writes. -/

namespace UtispaceChain

open Lib Rlp NonceCheck

/-- `ValidSeal`, `CheckUncles`, `CheckTransactions`, `Parent` and `UncleParent`. -/
def ImportRequirements.everything : ImportRequirements where
  validSeal := true
  uncleBasic := true
  uncleSeals := true
  transactionBasic := true
  transactionSignatures := true
  parent := true
  uncleParent := true

/-- Why a block is not taken in. `corrupted` is a stored block without its details, where the node
exits. -/
inductive AcceptFault
  | badBlock
  | hashError
  | heightError
  | alreadyHaveBlock
  | unknownParent
  | futureTime
  | minerListError
  | corrupted
  | transientError
  | enactment (fault : BlockFault)
  deriving DecidableEq, Repr

/-- A node: its chain as the indices, `verifyBlock` and `enactOn` see it, the node tables, the
execution, the blocks it has executed with their difficulty, its settings, and the clock. -/
structure AcceptingNode (Trie Account : Type) where
  crypto : Crypto
  index : ChainIndex
  chain : BlockChain
  store : ChainStore
  nodes : NodeConnParamsManager
  storage : Storage Trie Account
  executor : Executor Trie Account
  kind : VMKind
  decode : Bytes → Transaction
  blockCache : H256 → Option (Block Trie Account × Nat)
  maxblocksize : Nat
  maxBlockLimit : Nat
  allowFutureBlocks : Bool
  now : Nat

theorem passed_check {ε α : Type} {c : Prop} [Decidable c] {fault : ε} {rest : Except ε α} {a : α}
    (result : (if c then .error fault else rest) = .ok a) : ¬c ∧ rest = .ok a := by
  by_cases failed : c
  · simp [failed] at result
  · exact ⟨failed, by simpa [failed] using result⟩

namespace AcceptingNode

variable {Trie Account : Type} (node : AcceptingNode Trie Account)

def future (h : BlockHeader) : Bool := decide (node.now < h.timestamp) && !node.allowFutureBlocks

def minersFor (h : BlockHeader) : Bool × List Public :=
  (node.nodes.getAllNodeConnInfo (asInt (u256Sub h.number 1))).getMinerList []

/-- `BlockChain::checkBlockValid`, with the block that comes out. -/
def checkBlockValid (hash : H256) (block : Bytes) (out : Block Trie Account) :
    Except AcceptFault (Block Trie Account) :=
  match node.chain.verifyBlock node.crypto block .everything with
  | none => .error .badBlock
  | some v =>
      if hash ≠ v.info.hash node.crypto .withSeal then .error .hashError
      else
        match node.store.info node.crypto node.store.currentHash with
        | none => .error (.enactment .blockNotFound)
        | some head =>
            if v.info.number ≤ head.number then .error .heightError
            else if node.index.isKnown (v.info.hash node.crypto .withSeal) true then
              .error .alreadyHaveBlock
            else if node.index.isKnown v.info.parentHash false = false ∨
                (node.index.details v.info.parentHash).isNone then .error .unknownParent
            else if node.future v.info then .error .futureTime
            else if (node.minersFor v.info).1 = false then .error .minerListError
            else if (node.minersFor v.info).2 ≠ v.info.nodeList then .error .minerListError
            else
              match Block.enactOn node.crypto node.storage node.executor node.kind node.store
                node.now v false
                  out with
              | .error fault => .error (.enactment fault)
              | .ok b => .ok b

/-- The part of `import` that can refuse a block. A block that was executed before is not executed
again. -/
def importable (mustBeNew : Bool) (v : VerifiedBlock) (tempBlock : Block Trie Account) :
    Except AcceptFault (Block Trie Account) :=
  let h := v.info.hash node.crypto .withSeal
  if node.index.isKnown h true = true ∧ mustBeNew = true then .error .alreadyHaveBlock
  else if node.index.isKnown v.info.parentHash false = false then .error .unknownParent
  else if (node.index.details v.info.parentHash).isNone then .error .corrupted
  else if node.future v.info then .error .futureTime
  else if (node.chain.verifyBlock node.crypto v.block
      { ImportRequirements.inOrderChecks with checkMinerSignatures := true }).isNone then
      .error .badBlock
  else
    match (node.blockCache h).filter fun cached => decide (cached.2 ≠ 0) with
    | some cached => .ok cached.1
    | none =>
        match Block.enactOn node.crypto node.storage node.executor node.kind node.store
          node.now v true
            tempBlock with
        | .error .rootNotFound => .error .transientError
        | .error fault => .error (.enactment fault)
        | .ok b => .ok b

/-- The node takes the block in, by `checkBlockValid` or by `import`. -/
def Accepts (hash : H256) (mustBeNew : Bool) (v : VerifiedBlock) (out : Block Trie Account) :
    Prop :=
  (node.chain.verifyBlock node.crypto v.block .everything = some v ∧
    ∃ b, node.checkBlockValid hash v.block out = .ok b) ∨
  ∃ b, node.importable mustBeNew v out = .ok b

def transactionsOf (head : H256) (n : Nat) : List Transaction :=
  node.index.transactions (node.index.parentOf^[node.index.numberOf head - n] head)

def nonceCheckOf (head : H256) : NonceCheck :=
  NonceCheck.init node.maxblocksize (node.index.numberOf head) (node.transactionsOf head)

def transactions (v : VerifiedBlock) : List Transaction := v.transactions.map node.decode

/-- No transaction of the block is a replay on the chain of its parent. -/
structure ReplayFree (v : VerifiedBlock) : Prop where
  window : ∀ t ∈ node.transactions v, generateKey t ∉
    window (node.transactionsOf v.info.parentHash)
      (max 1 (windowStart node.maxblocksize (node.index.numberOf v.info.parentHash)))
      (node.index.numberOf v.info.parentHash)
  once : ((node.transactions v).map generateKey).Nodup
  limits : ∀ t ∈ node.transactions v,
    blockLimitOk node.maxBlockLimit (node.index.numberOf v.info.parentHash) t = true

def leaderOf (v : VerifiedBlock) : ChainIndex :=
  { node.index with
    lastBlockHash := v.info.parentHash
    lastBlockNumber := node.index.numberOf v.info.parentHash
    nonceCheck := node.nonceCheckOf v.info.parentHash }

variable {node}

theorem checked_iff_replayFree (v : VerifiedBlock) :
    (node.leaderOf v).Checked node.maxBlockLimit (node.transactions v) ↔
      node.ReplayFree v ∧ ∀ t ∈ node.transactions v, t.randomid ≠ Invalid256 := by
  have window : (node.leaderOf v).nonceCheck.cache =
      window (node.transactionsOf v.info.parentHash)
        (max 1 (windowStart node.maxblocksize (node.index.numberOf v.info.parentHash)))
        (node.index.numberOf v.info.parentHash) :=
    updateCache_rebuild _ _ _ _
  constructor
  · intro checked
    have nonce := fun t member => (ChainIndex.isNonceOk_iff t).mp (checked.nonce t member)
    exact ⟨⟨fun t member => window ▸ (nonce t member).2, checked.distinct, checked.limit⟩,
      fun t member => (nonce t member).1⟩
  · rintro ⟨free, named⟩
    refine ⟨free.limits, ?_, free.once⟩
    intro t member
    exact (ChainIndex.isNonceOk_iff t).mpr ⟨named t member, window ▸ free.window t member⟩

/-- A header over a stored one, for a block with so many transactions. -/
def nextHeader (parent : H256) (number timestamp transactions : Nat) : BlockHeader :=
  { storedHeader parent number timestamp with
    transactionsRoot := transactions
    receiptsRoot := transactions
    sha3Uncles := numbered.sha3 [0xc0] }

def nextBlock (header : BlockHeader) (transactions : Bytes) : Bytes :=
  appendList ([header.streamRLP .withSeal, appendList transactions, [0xc0],
    appendBytes (toBigEndian 32 0), [0xc0]].flatten)

def toyNode (index : ChainIndex) : AcceptingNode Nat Nat where
  crypto := numbered
  index := index
  chain :=
    { headerData := (toyStore 1 []).headerData, trieRootOver := List.length
      checkTransaction := fun _ _ => true, signChecker := some fun _ _ => true }
  store := toyStore index.currentHash []
  nodes := NodeConnParamsManager.start (NodeConnParamsManager.toyConfig 0 0) []
  storage := toyStorage
  executor := Packing.quiet
  kind := .interpreter
  decode bytes := ⟨bytes.sum.toNat, 8, bytes.sum.toNat, 100⟩
  blockCache _ := none
  maxblocksize := 1000
  maxBlockLimit := 1000
  allowFutureBlocks := false
  now := 20

def toyBlock : Block Nat Nat := { state := ⟨0, []⟩, precommit := ⟨0, []⟩ }

theorem ok_of_toBool {ε α : Type} {result : Except ε α} (accepted : result.toBool = true) :
    ∃ a, result = .ok a := by
  cases result with
  | error fault => cases accepted
  | ok a => exact ⟨a, rfl⟩

def oneBlockNode : AcceptingNode Nat Nat :=
  toyNode ((ChainIndex.opened 1 10 0 1000).importBlock {} ⟨2, 1, 1, 10, 0, [⟨9, 8, 9, 100⟩]⟩)

end AcceptingNode

end UtispaceChain
