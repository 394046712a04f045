import UtispaceChain.Cv.BlockChain

/-! `Block`: the block a leader packs, executes and seals, and the block a follower plays back
from what the leader sent. -/

namespace UtispaceChain

open Lib Rlp

inductive VMKind
  | interpreter
  | jit
  | smart
  | dual
  deriving DecidableEq, Repr

inductive Permanence
  | reverted
  | committed
  | dry
  | onlyReceipt
  deriving DecidableEq, Repr

/-- Why no block comes out. `noReceipt` is `m_receipts.back()` on an empty vector. -/
inductive BlockFault
  | sealedBlock
  | execution
  | noReceipt
  | blockNotFound
  | rootNotFound
  | invalidHeader
  | invalidParentHash
  | invalidReceiptsRoot
  | invalidLogBloom
  | tooManyUncles
  | uncleInChain
  | unknownParent
  | uncleTooOld
  | uncleIsBrother
  | uncleParentNotInChain
  | invalidStateRoot
  | invalidGasUsed
  deriving DecidableEq, Repr

def found {α : Type} : Option α → Except BlockFault α
  | none => .error .blockNotFound
  | some a => .ok a

structure EnvInfo where
  number : Nat
  author : Nat
  timestamp : Nat
  difficulty : Nat
  gasLimit : Nat
  lastHashes : List H256
  gasUsed : Nat
  deriving DecidableEq, Repr

/-- Constructed from a header; the gas limit is cut to a signed 64-bit value. -/
def EnvInfo.ofHeader (current : BlockHeader) (lastHashes : List H256) (gasUsed : Nat) : EnvInfo :=
  { number := current.number, author := current.author, timestamp := current.timestamp
    difficulty := current.difficulty, gasLimit := min (current.gasLimit % 2 ^ 64) (2 ^ 63 - 1)
    lastHashes, gasUsed }

/-- What `Executive` leaves behind: gas used, encoded log entries, address of a new contract. -/
structure Outcome where
  gasUsed : Nat
  logs : List Bytes
  newAddress : Nat

structure Receipt where
  stateRoot : H256
  gasUsed : Nat
  contractAddress : Nat
  bloom : Nat
  log : List Bytes
  deriving DecidableEq, Repr

def Receipt.streamRLP (r : Receipt) : Bytes :=
  appendList (appendBytes (toBigEndian 32 r.stateRoot) ++ appendInt r.gasUsed ++
    appendBytes (toBigEndian 20 r.contractAddress) ++ appendBytes (toBigEndian 256 r.bloom) ++
    appendList r.log.flatten)

structure State (Trie Account : Type) where
  trie : Trie
  cache : List (Nat × Account)

/-- The state database, the tries over lists and maps, and the fixed chain parameters. -/
structure Storage (Trie Account : Type) where
  /-- The state trie with the given root, if the database has it. -/
  openRoot : H256 → Option Trie
  rootHash : Trie → H256
  isDirty : Account → Bool
  /-- Write an account, or take it away if it is dead. -/
  put : Nat → Account → Trie → Trie
  /-- Move the whole balance of an account to the refund contract. -/
  transferAll : Nat → State Trie Account → State Trie Account
  childDaos : List Nat
  daoHardforkBlock : Nat
  logBloom : List Bytes → Nat
  hash256 : List (Bytes × Bytes) → H256
  orderedTrieRoot : List Bytes → H256
  maxBlockHeadGas : Nat

/-- `Executive`: the virtual machine on one transaction, given by its encoding; `none` when it
throws. -/
abbrev Executor (Trie Account : Type) :=
  VMKind → EnvInfo → Bytes → State Trie Account → Option (State Trie Account × Outcome)

/-- `BlockHeader::operator==`: every field but the seal. -/
def BlockHeader.sameFields (h other : BlockHeader) : Bool :=
  decide ({ h with sealItems := [], memo := 0, memoWithout := 0 } =
    { other with sealItems := [], memo := 0, memoWithout := 0 })

def BlockHeader.cleared (C : Crypto) : BlockHeader :=
  { sha3Uncles := C.sha3 [0xc0], stateRoot := C.sha3 [0x80], transactionsRoot := C.sha3 [0x80]
    receiptsRoot := C.sha3 [0x80], genIdx := Invalid256 }

structure BlockDetails where
  parent : H256
  children : List H256

/-- What a node's chain answers about stored blocks; `uncles` are the items of the third part. -/
structure ChainStore where
  genesisHash : H256
  currentHash : H256
  isKnown : H256 → Bool
  headerData : H256 → Bytes
  uncles : H256 → List Bytes
  details : H256 → BlockDetails

namespace ChainStore

variable (C : Crypto) (bc : ChainStore)

/-- The stored header; reading it throws when the block is not there. -/
def info (hash : H256) : Option BlockHeader := BlockHeader.ofHeaderData C (bc.headerData hash) 0

/-- A hash and the hashes of its ancestors, `count` more of them, zero past the genesis block. -/
def hashesFrom : Nat → H256 → Option (List H256)
  | 0, hash => some [hash]
  | count + 1, hash =>
      (if hash = 0 then some 0 else (bc.info C hash).map (·.parentHash)).bind fun next =>
        (hashesFrom count next).map (hash :: ·)

def lastHashes (mostRecent : H256) : Option (List H256) := bc.hashesFrom C 255 mostRecent

def kinFrom : Nat → H256 → List H256
  | 0, _ => []
  | generations + 1, p =>
      if p = bc.genesisHash then []
      else (bc.details p).parent :: (bc.uncles p).map C.sha3 ++
        kinFrom generations (bc.details p).parent

def allKinFrom (parent : H256) (generations : Nat) : List H256 :=
  parent :: bc.kinFrom C generations parent

/-- The children of one ancestor that are not excluded, up to two uncles in all. -/
def pickChildren : List H256 → List H256 → List Bytes → Option (List H256 × List Bytes)
  | [], excluded, found => some (excluded, found)
  | u :: rest, excluded, found =>
      if u ∈ excluded then pickChildren rest excluded found
      else (bc.info C u).bind fun _ =>
        let found := found ++ [bc.headerData u]
        if found.length = 2 then some (excluded, found) else pickChildren rest (u :: excluded) found

def pickUncles : Nat → H256 → List H256 → List Bytes → Option (List Bytes)
  | 0, _, _, found => some found
  | gen + 1, p, excluded, found =>
      if p = bc.genesisHash ∨ 2 ≤ found.length then some found
      else (bc.pickChildren C (bc.details p).children excluded found).bind fun next =>
        pickUncles gen (bc.details p).parent next.1 next.2

/-- The uncles that `commitToSeal` finds for a block over the given parent. -/
def unclesFor (previous : BlockHeader) (parentHash : H256) : Option (List Bytes) :=
  if previous.number = 0 then some []
  else bc.pickUncles C 6 previous.parentHash (bc.allKinFrom C parentHash 6) []

def ancestor : Nat → H256 → H256
  | 0, hash => hash
  | steps + 1, hash => ancestor steps (bc.details hash).parent

variable (trieRootOver : List Bytes → H256)

def checkUncle (current : BlockHeader) (excluded : List H256) (data : Bytes) :
    Except BlockFault (List H256) := do
  let h := C.sha3 data
  if h ∈ excluded then .error .uncleInChain
  else
    match BlockHeader.ofHeaderData C data h with
    | none => .error .invalidHeader
    | some uncle =>
        if bc.isKnown uncle.parentHash = false then .error .unknownParent
        else do
          let uncleParent ← found (bc.info C uncle.parentHash)
          if uncle.number + 6 < current.number then .error .uncleTooOld
          else if current.number ≤ uncle.number then .error .uncleIsBrother
          else if bc.ancestor (current.number - uncle.number) current.parentHash ≠
              uncleParent.hash C .withSeal then .error .uncleParentNotInChain
          else if uncle.verify C trieRootOver .checkNothingNew uncleParent none = false then
            .error .invalidHeader
          else return h :: excluded

def checkUncles (current : BlockHeader) (block : Bytes) : Except BlockFault Unit :=
  match (item block 2).bind items with
  | none => .error .invalidHeader
  | some uncles =>
      if 2 < uncles.length then .error .tooManyUncles
      else do
        let _ ← uncles.foldlM (bc.checkUncle C trieRootOver current)
          (current.hash C .withSeal :: bc.allKinFrom C current.parentHash 6)
        return ()

end ChainStore

/-- A block under construction. `currentBytes` is empty until it is sealed. -/
structure Block (Trie Account : Type) where
  state : State Trie Account
  precommit : State Trie Account
  transactions : List Bytes := []
  receipts : List Receipt := []
  previous : BlockHeader := {}
  current : BlockHeader := {}
  currentTxs : Bytes := []
  currentUncles : Bytes := []
  currentBytes : Bytes := []
  author : Nat := 0
  committedToSeal : Bool := false

variable {Trie Account : Type}

namespace State

variable (db : Storage Trie Account) (X : Executor Trie Account)

def commit (s : State Trie Account) : State Trie Account where
  trie := (s.cache.filter fun entry => db.isDirty entry.2).foldl
    (fun trie entry => db.put entry.1 entry.2 trie) s.trie
  cache := []

/-- The receipt has the root of the trie as it stands, without the changes in the cache. -/
def execute (kind : VMKind) (env : EnvInfo) (t : Bytes) (p : Permanence) (s : State Trie Account) :
    Except BlockFault (State Trie Account × Receipt) :=
  match X kind env t s with
  | none => .error .execution
  | some (after, e) =>
      let after := if p = .reverted then { after with cache := [] } else after
      .ok (after,
        { stateRoot := db.rootHash after.trie, gasUsed := u256Add env.gasUsed e.gasUsed
          contractAddress := e.newAddress, bloom := db.logBloom e.logs, log := e.logs })

/-- At the block of the fork the balances of its accounts move. -/
def performIrregularModifications (number : Nat) (s : State Trie Account) : State Trie Account :=
  if db.daoHardforkBlock ≠ 0 ∧ number = db.daoHardforkBlock then
    (db.childDaos.foldl (fun s dao => db.transferAll dao s) s).commit db
  else s

end State

namespace Block

variable (C : Crypto) (db : Storage Trie Account) (X : Executor Trie Account) (kind : VMKind)

def gasUsed (b : Block Trie Account) : Nat :=
  match b.receipts.getLast? with
  | none => 0
  | some r => r.gasUsed

def logBloom (b : Block Trie Account) : Nat := b.receipts.foldl (fun bloom r => bloom ||| r.bloom) 0

def isSealed (b : Block Trie Account) : Bool := decide (b.currentBytes ≠ [])

def uncommitToSeal (b : Block Trie Account) : Block Trie Account :=
  if b.committedToSeal then { b with state := b.precommit, committedToSeal := false } else b

/-- `SealEngineFace::populateFromParent`; the parent hash is the remembered one. -/
def populateFromParent (h parent : BlockHeader) : BlockHeader :=
  { h with
    stateRoot := parent.stateRoot, number := u256Add parent.number 1, parentHash := parent.memo
    gasLimit := db.maxBlockHeadGas, difficulty := 1, gasUsed := 0 }

def resetCurrent (timestamp : Nat) (b : Block Trie Account) :
    Except BlockFault (Block Trie Account) :=
  let current := populateFromParent db
    { author := b.author, timestamp := max (u256Add b.previous.timestamp 1) timestamp } b.previous
  match db.openRoot b.previous.stateRoot with
  | none => .error .rootNotFound
  | some trie =>
      let state : State Trie Account := ⟨trie, []⟩
      .ok { b with
        state := state.performIrregularModifications db current.number, precommit := state
        transactions := [], receipts := [], currentBytes := [], current, committedToSeal := false }

/-- `Block::sync` to a stored block: the block mined here, the same parent as before, or another. -/
def sync (bc : ChainStore) (timestamp : Nat) (hash : H256) (b : Block Trie Account) :
    Except BlockFault (Block Trie Account) := do
  let bi ← found (bc.info C hash)
  if bi.sameFields b.current then resetCurrent db timestamp { b with previous := b.current }
  else if bi.sameFields b.previous then return b
  else if (db.openRoot bi.stateRoot).isNone then .error .invalidStateRoot
  else resetCurrent db timestamp { b with previous := bi }

def execute (lh : List H256) (t : Bytes) (p : Permanence) (b : Block Trie Account) :
    Except BlockFault (Block Trie Account) :=
  if b.isSealed then .error .sealedBlock
  else
    let b := b.uncommitToSeal
    let env := EnvInfo.ofHeader b.current lh b.gasUsed
    if kind = .dual then do
      let (jit, _) ← b.state.execute db X .jit env t .dry
      let (after, receipt) ← State.execute db X .interpreter env t p { jit with cache := [] }
      let b := { b with state := after.commit db }
      -- a receipt is kept for committed transactions only
      if p = .committed then
        return { b with transactions := b.transactions ++ [t], receipts := b.receipts ++ [receipt] }
      else return b
    else do
      let (after, receipt) ← b.state.execute db X kind env t p
      let b := { b with state := after }
      match p with
      | .committed =>
          return { b with transactions := b.transactions ++ [t], receipts := b.receipts ++
            [receipt] }
      | .onlyReceipt => return { b with receipts := b.receipts ++ [receipt] }
      | _ => return b

/-- The loop of `exec` and of `enact`: run each transaction and take the last receipt. -/
def executeAll (lh : List H256) (p : Permanence) :
    List Bytes → List Receipt → Block Trie Account →
    Except BlockFault (Block Trie Account × List Receipt)
  | [], taken, b => .ok (b, taken)
  | t :: rest, taken, b => do
      let b ← b.execute db X kind lh t p
      match b.receipts.getLast? with
      | none => .error .noReceipt
      | some receipt => executeAll lh p rest (taken ++ [receipt]) b

/-- `Block::exec`: run the packed transactions, on top of the head of the chain. -/
def exec (bc : ChainStore) (b : Block Trie Account) :
    Except BlockFault (Block Trie Account × List Receipt) :=
  if b.isSealed then .error .sealedBlock
  else do
    let lh ← found (bc.lastHashes C bc.currentHash)
    b.executeAll db X kind lh .onlyReceipt b.transactions []

/-- `Block::enact`, on the reset current block. -/
def enact (bc : ChainStore) (block : VerifiedBlock) (statusCheck : Bool) (b : Block Trie Account) :
    Except BlockFault (Block Trie Account) :=
  if b.current.parentHash ≠ b.previous.hash C .withSeal then .error .invalidParentHash
  else do
    let b := { b with current := block.info }
    let lh ← found (bc.lastHashes C b.current.parentHash)
    let (b, receipts) ← b.executeAll db X kind lh .committed block.transactions []
    if statusCheck = true ∧
        db.orderedTrieRoot (receipts.map Receipt.streamRLP) ≠ b.current.receiptsRoot then
      .error .invalidReceiptsRoot
    else if statusCheck = true ∧ b.current.logBloom ≠ b.logBloom then .error .invalidLogBloom
    else do
      let _ ← bc.checkUncles C db.orderedTrieRoot b.current block.block
      let b := { b with state := b.state.commit db }
      if statusCheck = true ∧ b.current.stateRoot ≠ b.previous.stateRoot ∧
          b.current.stateRoot ≠ db.rootHash b.state.trie then .error .invalidStateRoot
      else if statusCheck = true ∧ b.current.gasUsed ≠ b.gasUsed then .error .invalidGasUsed
      else return b

/-- `Block::enactOn`: play a verified block back on the state of its parent. -/
def enactOn (bc : ChainStore) (now : Nat) (block : VerifiedBlock) (statusCheck : Bool)
    (b : Block Trie Account) : Except BlockFault (Block Trie Account) := do
  let biParent ← found (bc.info C block.info.parentHash)
  if block.info.verify C db.orderedTrieRoot .checkNothingNew biParent none = false then
    .error .invalidHeader
  else do
    let _ ← if biParent.number = 0 then .ok biParent
      else found (bc.info C biParent.parentHash)
    let b ← b.sync C db bc now block.info.parentHash
    let b ← b.resetCurrent db now
    enact C db X kind bc block statusCheck { b with previous := biParent }

/-- The receipts of the transactions, those that have one, under their places. -/
def receiptsMap (b : Block Trie Account) : List (Bytes × Bytes) :=
  (List.range b.transactions.length).filterMap fun i =>
    (b.receipts[i]?).map fun r => (appendInt i, r.streamRLP)

def transactionsMap (b : Block Trie Account) : List (Bytes × Bytes) :=
  b.transactions.zipIdx.map fun entry => (appendInt entry.2, entry.1)

def commitToSeal (bc : ChainStore) (extraData : Bytes) (b : Block Trie Account) :
    Except BlockFault (Block Trie Account) :=
  if b.isSealed then .error .sealedBlock
  else do
    let b := if b.committedToSeal then b.uncommitToSeal else { b with precommit := b.state }
    let uncles ← found (bc.unclesFor C b.previous b.current.parentHash)
    let currentUncles := appendList uncles.flatten
    let state := b.state.commit db
    let current : BlockHeader :=
      { b.current with
        logBloom := b.logBloom, gasUsed := b.gasUsed
        transactionsRoot := db.hash256 b.transactionsMap, receiptsRoot := db.hash256 b.receiptsMap
        sha3Uncles := C.sha3 currentUncles, stateRoot := db.rootHash state.trie
        parentHash := b.previous.hash C .withSeal, extraData := extraData.take 32
        memo := 0, memoWithout := 0 }
    return { b with
      state, current, currentTxs := appendList b.transactions.flatten, currentUncles
      committedToSeal := true }

def commitToSealAfterExecTx (b : Block Trie Account) : Block Trie Account :=
  let receiptsMap := b.receipts.zipIdx.map fun entry => (appendInt entry.2, entry.1.streamRLP)
  let state := b.state.commit db
  { b with
    state, committedToSeal := true
    current :=
      { b.current with
        logBloom := b.logBloom, gasUsed := b.gasUsed, receiptsRoot := db.hash256 receiptsMap
        stateRoot := db.rootHash state.trie, memo := 0, memoWithout := 0 } }

/-- The block that `sealBlock` writes, with the given header and no signatures yet. -/
def sealBlock (header : Bytes) (b : Block Trie Account) : Bytes :=
  appendList (header ++ b.currentTxs ++ b.currentUncles ++
    appendBytes (toBigEndian 32 (b.current.hash C .withoutSeal)) ++ appendList [])

/-- As `handlePrepareMsg` makes it, over any state. -/
def fresh (state : State Trie Account) : Block Trie Account :=
  { state, precommit := state, previous := .cleared C, current := .cleared C }

end Block

/-- What `rejigSealing` packs: the working block as it was, the times of its reset and of the
packing, the transactions, and the fields the leader sets. -/
structure Packing (Trie Account : Type) where
  working : Block Trie Account
  resetTime : Nat
  time : Nat
  transactions : List Bytes
  index : Nat
  nodeList : List Public
  extraData : Bytes

namespace Packing

open Block

variable (C : Crypto) (db : Storage Trie Account) (kind : VMKind) (L F : ChainStore)
variable (p : Packing Trie Account)

def preExecution : Except BlockFault (Block Trie Account) := do
  let b ← p.working.resetCurrent db p.resetTime
  let current :=
    { b.current with
      timestamp := max (u256Add b.previous.timestamp 1) p.time, genIdx := p.index
      nodeList := p.nodeList, memo := 0, memoWithout := 0 }
  commitToSeal C db L p.extraData { b with transactions := p.transactions, current }

def leaderHeader (X : Executor Trie Account) : Except BlockFault BlockHeader := do
  let b ← p.preExecution C db L
  let (b, _) ← b.exec C db X kind L
  return (b.commitToSealAfterExecTx db).current

def received (b : Block Trie Account) : VerifiedBlock where
  info := { b.current with memo := C.sha3 (b.current.streamRLP .withoutSeal), memoWithout := 0 }
  transactions := b.transactions
  block := b.sealBlock C (b.current.streamRLP .withoutSeal)

/-- The header of the follower for the block that the leader sent. -/
def followerHeader (now : Nat) (state : State Trie Account) (X : Executor Trie Account) :
    Except BlockFault BlockHeader := do
  let sent ← p.preExecution C db L
  let b ← (fresh C state).enactOn C db X kind F now (received C sent) false
  let b ← b.commitToSeal C db F b.current.extraData
  return b.current

end Packing

section Playback

variable (db : Storage Trie Account) (X : Executor Trie Account) (kind : VMKind)

/-- The transactions of a block one after the other: the state after them, and their receipts. -/
def playback (header : BlockHeader) (lh : List H256) :
    List Bytes → Nat → State Trie Account → Except BlockFault (State Trie Account × List Receipt)
  | [], _, s => .ok (s, [])
  | t :: rest, gasUsed, s => do
      let (after, receipt) ← s.execute db X kind (EnvInfo.ofHeader header lh gasUsed) t .committed
      let (last, receipts) ← playback header lh rest receipt.gasUsed after
      return (last, receipt :: receipts)

def gasOf (receipts : List Receipt) : Nat :=
  match receipts.getLast? with
  | none => 0
  | some r => r.gasUsed

def executedHeader (header : BlockHeader) (s : State Trie Account) (receipts : List Receipt) :
    BlockHeader :=
  { header with
    logBloom := receipts.foldl (fun bloom r => bloom ||| r.bloom) 0, gasUsed := gasOf receipts
    receiptsRoot :=
      db.hash256 (receipts.zipIdx.map fun entry => (appendInt entry.2, entry.1.streamRLP))
    stateRoot := db.rootHash (s.commit db).trie, memo := 0, memoWithout := 0 }

theorem State.commit_commit (s : State Trie Account) : (s.commit db).commit db = s.commit db := rfl

theorem State.execute_kept (env : EnvInfo) (t : Bytes) (p : Permanence) (s : State Trie Account)
    (kept : p ≠ .reverted) :
    s.execute db X kind env t p = s.execute db X kind env t .committed := by
  simp [State.execute, kept]

theorem playback_memo (header : BlockHeader) (memo memoWithout : H256) (lh : List H256)
    (txs : List Bytes) (gasUsed : Nat) (s : State Trie Account) :
    playback db X kind { header with memo := memo, memoWithout := memoWithout } lh txs gasUsed s =
      playback db X kind header lh txs gasUsed s := by
  induction txs generalizing gasUsed s with
  | nil => rfl
  | cons t rest ih =>
      simp only [playback, ih]
      rfl

theorem playback_error (header : BlockHeader) (lh : List H256) (txs : List Bytes) (gasUsed : Nat)
    (s : State Trie Account) (fault : BlockFault)
    (failed : playback db X kind header lh txs gasUsed s = .error fault) : fault = .execution := by
  induction txs generalizing gasUsed s with
  | nil => cases failed
  | cons t rest ih =>
      simp only [playback, bind, Except.bind, pure, Except.pure] at failed
      split at failed
      · rename_i thrown ran
        cases failed
        unfold State.execute at ran
        split at ran
        · exact (Except.error.inj ran).symm
        · cases ran
      split at failed
      · rename_i later
        cases failed
        exact ih _ _ later
      · cases failed

theorem playback_length (header : BlockHeader) (lh : List H256) (txs : List Bytes) (gasUsed : Nat)
    (s last : State Trie Account) (receipts : List Receipt)
    (played : playback db X kind header lh txs gasUsed s = .ok (last, receipts)) :
    receipts.length = txs.length := by
  induction txs generalizing gasUsed s receipts with
  | nil =>
      cases played
      rfl
  | cons t rest ih =>
      simp only [playback, bind, Except.bind, pure, Except.pure] at played
      split at played
      · cases played
      split at played
      · cases played
      rename_i inner found
      cases played
      exact congrArg (· + 1) (ih _ _ _ found)

end Playback

namespace Block

variable (C : Crypto) (db : Storage Trie Account) (X : Executor Trie Account) (kind : VMKind)

theorem execute_uncommitted (lh : List H256) (t : Bytes) (p : Permanence) (b : Block Trie Account) :
    b.uncommitToSeal.execute db X kind lh t p = b.execute db X kind lh t p := by
  have bytes : b.uncommitToSeal.isSealed = b.isSealed := by
    unfold uncommitToSeal
    split_ifs <;> rfl
  have twice : b.uncommitToSeal.uncommitToSeal = b.uncommitToSeal := by
    unfold uncommitToSeal
    cases committed : b.committedToSeal <;> simp [committed]
  unfold execute
  rw [bytes, twice]

theorem execute_single (lh : List H256) (t : Bytes) (p : Permanence) (b : Block Trie Account)
    (kept : p = .committed ∨ p = .onlyReceipt) (single : kind ≠ .dual)
    (unsealed : b.currentBytes = []) (uncommitted : b.committedToSeal = false) :
    b.execute db X kind lh t p = do
      let (after, receipt) ←
        b.state.execute db X kind (EnvInfo.ofHeader b.current lh b.gasUsed) t .committed
      return { b with
        state := after, receipts := b.receipts ++ [receipt]
        transactions := if p = .committed then b.transactions ++ [t] else b.transactions } := by
  have same : b.uncommitToSeal = b := by simp [uncommitToSeal, uncommitted]
  have receiptOnly := State.execute_kept db X kind (EnvInfo.ofHeader b.current lh b.gasUsed) t
    .onlyReceipt b.state (by simp)
  unfold execute
  rw [same]
  rcases kept with rfl | rfl <;> simp [isSealed, unsealed, single, receiptOnly]

theorem executeAll_playback (lh : List H256) (p : Permanence)
    (kept : p = .committed ∨ p = .onlyReceipt) (txs : List Bytes) (taken : List Receipt)
    (b : Block Trie Account) (single : kind = .dual → txs = []) (unsealed : b.currentBytes = [])
    (uncommitted : b.committedToSeal = false) :
    b.executeAll db X kind lh p txs taken = do
      let (last, receipts) ← playback db X kind b.current lh txs b.gasUsed b.state
      return ({ b with
        state := last, receipts := b.receipts ++ receipts
        transactions := if p = .committed then b.transactions ++ txs else b.transactions },
        taken ++ receipts) := by
  induction txs generalizing b taken with
  | nil => simp [executeAll, playback, pure, Except.pure, bind, Except.bind]
  | cons t rest ih =>
      have notDual : kind ≠ .dual := fun dual => List.cons_ne_nil t rest (single dual)
      simp only [executeAll, playback]
      rw [execute_single db X kind lh t p b kept notDual unsealed uncommitted]
      cases run : b.state.execute db X kind (EnvInfo.ofHeader b.current lh b.gasUsed) t .committed
        with
      | error fault => rfl
      | ok result =>
          obtain ⟨after, receipt⟩ := result
          simp only [bind, Except.bind, pure, Except.pure, List.getLast?_append,
            List.getLast?_singleton, Option.some_or]
          let next : Block Trie Account :=
            { b with
              state := after, receipts := b.receipts ++ [receipt]
              transactions := if p = .committed then b.transactions ++ [t] else b.transactions }
          rw [ih (taken ++ [receipt]) next (fun dual => absurd dual notDual) unsealed uncommitted]
          simp only [next, gasUsed, List.getLast?_append, List.getLast?_singleton,
            Option.some_or, bind, Except.bind, pure, Except.pure]
          cases playback db X kind b.current lh rest receipt.gasUsed after with
          | error fault => rfl
          | ok rest =>
              rcases kept with rfl | rfl <;> simp [List.append_assoc]

theorem executeAll_uncommitted (lh : List H256) (p : Permanence) (t : Bytes) (rest : List Bytes)
    (taken : List Receipt) (b : Block Trie Account) :
    b.uncommitToSeal.executeAll db X kind lh p (t :: rest) taken =
      b.executeAll db X kind lh p (t :: rest) taken := by
  rw [executeAll, execute_uncommitted, ← executeAll]

theorem executeAll_dual (lh : List H256) (t : Bytes) (rest : List Bytes) (b : Block Trie Account)
    (runs : ∀ kind env t s, (X kind env t s).isSome) (unsealed : b.currentBytes = [])
    (empty : b.receipts = []) :
    b.executeAll db X .dual lh .onlyReceipt (t :: rest) [] = .error .noReceipt := by
  have ran : ∀ kind env p (s : State Trie Account), ∃ after receipt,
      s.execute db X kind env t p = .ok (after, receipt) := by
    intro kind env p s
    obtain ⟨⟨after, e⟩, result⟩ := Option.isSome_iff_exists.mp (runs kind env t s)
    exact ⟨_, _, by rw [State.execute, result]⟩
  have still : b.uncommitToSeal.receipts = [] := by
    unfold uncommitToSeal
    split_ifs <;> exact empty
  have open_ : b.isSealed = false := by simp [isSealed, unsealed]
  rw [executeAll, execute, open_]
  generalize b.uncommitToSeal = u at still
  obtain ⟨jit, receipt, first⟩ := ran .jit (EnvInfo.ofHeader u.current lh u.gasUsed) .dry u.state
  obtain ⟨after, other, second⟩ := ran .interpreter (EnvInfo.ofHeader u.current lh u.gasUsed)
    .onlyReceipt { jit with cache := [] }
  simp [first, second, still, bind, Except.bind, pure, Except.pure]

theorem filterMap_range {α β : Type} (f : Nat → α → β) (l : List α) :
    ((List.range l.length).filterMap fun i => (l[i]?).map (f i)) =
      l.zipIdx.map fun e => f e.2 e.1 := by
  induction l using List.reverseRecOn with
  | nil => rfl
  | append_singleton front a ih =>
      have before : ((List.range front.length).filterMap fun i => ((front ++ [a])[i]?).map (f i)) =
          (List.range front.length).filterMap fun i => (front[i]?).map (f i) := by
        refine List.filterMap_congr fun i member => ?_
        rw [List.getElem?_append_left (List.mem_range.mp member)]
      rw [List.length_append, List.length_singleton, List.range_succ, List.filterMap_append, before,
        ih, List.zipIdx_append, List.map_append]
      simp

theorem receiptsMap_complete (b : Block Trie Account)
    (same : b.receipts.length = b.transactions.length) :
    b.receiptsMap = b.receipts.zipIdx.map fun entry => (appendInt entry.2, entry.1.streamRLP) := by
  rw [receiptsMap, ← same]
  exact filterMap_range (fun i r => (appendInt i, Receipt.streamRLP r)) b.receipts

structure Started (parent : BlockHeader) (trie : Trie) (b : Block Trie Account) : Prop where
  state : b.state = State.performIrregularModifications db (u256Add parent.number 1) ⟨trie, []⟩
  previous : b.previous = parent
  parentHash : b.current.parentHash = parent.memo
  transactions : b.transactions = []
  receipts : b.receipts = []
  unsealed : b.currentBytes = []
  uncommitted : b.committedToSeal = false

theorem resetCurrent_started (now : Nat) (trie : Trie) (b : Block Trie Account)
    (stored : db.openRoot b.previous.stateRoot = some trie) :
    ∃ r, b.resetCurrent db now = .ok r ∧ r.Started db b.previous trie := by
  simp only [resetCurrent, stored]
  exact ⟨_, rfl, rfl, rfl, rfl, rfl, rfl, rfl, rfl⟩

theorem enact_unchecked (bc : ChainStore) (block : VerifiedBlock) (parent : BlockHeader)
    (trie : Trie) (b : Block Trie Account) (started : b.Started db parent trie)
    (hashed : parent.hash C .withSeal = parent.memo)
    (single : kind = .dual → block.transactions = []) :
    enact C db X kind bc block false b = do
      let lh ← found (bc.lastHashes C block.info.parentHash)
      let (last, receipts) ← playback db X kind block.info lh block.transactions 0
        (State.performIrregularModifications db (u256Add parent.number 1) ⟨trie, []⟩)
      let _ ← bc.checkUncles C db.orderedTrieRoot block.info block.block
      return { b with
        current := block.info, state := last.commit db, receipts
        transactions := block.transactions } := by
  have family : b.current.parentHash = b.previous.hash C .withSeal := by
    rw [started.parentHash, started.previous, hashed]
  let onto : Block Trie Account := { b with current := block.info }
  have run :=
    fun lh => executeAll_playback db X kind lh .committed (.inl rfl) block.transactions [] onto
    single started.unsealed started.uncommitted
  have noGas : onto.gasUsed = 0 := by simp [onto, Block.gasUsed, started.receipts]
  simp only [enact, family, ne_eq, not_true_eq_false, if_false, Bool.false_eq_true, false_and]
  refine bind_congr fun lh => ?_
  rw [run lh, noGas, ← started.state]
  simp only [bind, Except.bind, pure, Except.pure]
  cases playback db X kind onto.current lh block.transactions 0 onto.state with
  | error fault => rfl
  | ok result =>
      simp only [onto, started.receipts, started.transactions, List.nil_append, if_true]

end Block

namespace Packing

open Block

variable (C : Crypto) (db : Storage Trie Account) (kind : VMKind) (L F : ChainStore)
variable (p : Packing Trie Account)

structure Sent (uncles : List Bytes) (b : Block Trie Account) : Prop where
  start : ∃ trie, db.openRoot p.working.previous.stateRoot = some trie ∧ b.precommit =
    State.performIrregularModifications db (u256Add p.working.previous.number 1) ⟨trie, []⟩
  state : b.state = b.precommit.commit db
  committed : b.committedToSeal = true
  unsealed : b.currentBytes = []
  transactions : b.transactions = p.transactions
  receipts : b.receipts = []
  parentHash : b.current.parentHash = p.working.previous.hash C .withSeal
  number : b.current.number = u256Add p.working.previous.number 1
  timestamp : u256Add p.working.previous.timestamp 1 ≤ b.current.timestamp
  extraData : b.current.extraData.take 32 = b.current.extraData
  transactionsRoot : b.current.transactionsRoot = db.hash256 b.transactionsMap
  uncles : b.current.sha3Uncles = C.sha3 (appendList uncles.flatten)

theorem preExecution_of_uncles (trie : Trie) (uncles : List Bytes)
    (stored : db.openRoot p.working.previous.stateRoot = some trie)
    (picked : L.unclesFor C p.working.previous p.working.previous.memo = some uncles) :
    ∃ b, p.preExecution C db L = .ok b ∧ p.Sent C db uncles b := by
  cases result : p.preExecution C db L with
  | error fault =>
      simp [preExecution, resetCurrent, stored, populateFromParent, commitToSeal, isSealed,
        picked, found, bind, Except.bind, pure, Except.pure] at result
  | ok b =>
      simp only [preExecution, resetCurrent, stored, populateFromParent, commitToSeal,
        isSealed, picked, found, bind, Except.bind, pure, Except.pure, ne_eq, not_true_eq_false,
        decide_false, Bool.false_eq_true, if_false, Except.ok.injEq] at result
      subst result
      exact ⟨_, rfl, ⟨trie, stored, rfl⟩, rfl, rfl, rfl, rfl, rfl, rfl, rfl, le_max_left _ _,
        List.take_take.trans (by rw [min_self]), rfl, rfl⟩

theorem preExecution_no_uncles (trie : Trie)
    (stored : db.openRoot p.working.previous.stateRoot = some trie)
    (missing : L.unclesFor C p.working.previous p.working.previous.memo = none) :
    p.preExecution C db L = .error .blockNotFound := by
  simp [preExecution, resetCurrent, stored, populateFromParent, commitToSeal, isSealed,
    missing, found, bind, Except.bind]

theorem leaderHeader_eq (X : Executor Trie Account) (uncles : List Bytes) (b : Block Trie Account)
    (packed : p.preExecution C db L = .ok b) (sent : p.Sent C db uncles b)
    (single : kind = .dual → p.transactions = []) :
    p.leaderHeader C db kind L X = do
      let lh ← found (L.lastHashes C L.currentHash)
      let (last, receipts) ← playback db X kind b.current lh p.transactions 0 b.precommit
      return executedHeader db b.current last receipts := by
  have opened : b.isSealed = false := by simp [isSealed, sent.unsealed]
  simp only [leaderHeader, packed, exec, opened, bind, Except.bind, Bool.false_eq_true, if_false,
    sent.transactions]
  cases seen : L.lastHashes C L.currentHash with
  | none => rfl
  | some lh =>
      simp only [found]
      cases txs : p.transactions with
      | nil =>
          simp [executeAll, playback, commitToSealAfterExecTx, executedHeader,
            sent.receipts, sent.state, State.commit_commit, Block.logBloom, Block.gasUsed, gasOf,
            pure, Except.pure]
      | cons t rest =>
          let back : Block Trie Account := { b with state := b.precommit, committedToSeal := false }
          have rolled : b.uncommitToSeal = back := by simp [back, uncommitToSeal, sent.committed]
          rw [← executeAll_uncommitted, rolled,
            executeAll_playback db X kind lh .onlyReceipt (.inr rfl)
            (t :: rest) [] back (fun dual => txs ▸ single dual) sent.unsealed rfl]
          simp only [back, Block.gasUsed, sent.receipts, List.getLast?_nil, bind, Except.bind, pure,
            Except.pure]
          cases playback db X kind b.current lh (t :: rest) 0 b.precommit with
          | error fault => rfl
          | ok result => rfl

/-- A parent that the follower has too, with its state and its own parent. -/
structure KnownParent (parent : BlockHeader) : Prop where
  stored : F.info C parent.memo = some parent
  hashed : parent.memo ≠ 0
  filled : parent.timestamp < Invalid256
  number : u256Add parent.number 1 < 2 ^ 32
  state : ∃ trie, db.openRoot parent.stateRoot = some trie
  grandParent : parent.number ≠ 0 → ∃ h, F.info C parent.parentHash = some h

theorem KnownParent.hash {parent : BlockHeader} (known : KnownParent C db F parent) :
    parent.hash C .withSeal = parent.memo := if_neg known.hashed

theorem Sent.verify {uncles : List Bytes} {b : Block Trie Account} (sent : p.Sent C db uncles b)
    (known : KnownParent C db F p.working.previous) (memo memoWithout : H256) :
    ({ b.current with memo := memo, memoWithout := memoWithout } : BlockHeader).verify C
      db.orderedTrieRoot .checkNothingNew p.working.previous none = true := by
  have later : p.working.previous.timestamp < b.current.timestamp := by
    refine lt_of_lt_of_le ?_ sent.timestamp
    have filled := known.filled
    unfold Invalid256 at filled
    unfold u256Add
    omega
  have small : u256Add p.working.previous.number 1 < 4294967296 := known.number
  simp [BlockHeader.verify, sent.number, sent.parentHash, later, small]

theorem sync_fresh (now : Nat) (parent : BlockHeader) (known : KnownParent C db F parent)
    (state : State Trie Account) :
    (fresh C state).sync C db F now parent.memo =
      resetCurrent db now { fresh C state with previous := parent } := by
  obtain ⟨trie, opened⟩ := known.state
  have other : parent.sameFields (.cleared C) = false := by
    refine decide_eq_false fun same => ?_
    have times : parent.timestamp = Invalid256 := congrArg BlockHeader.timestamp same
    exact absurd times (ne_of_lt known.filled)
  simp [sync, known.stored, found, fresh, other, opened, bind, Except.bind]

theorem enactOn_fresh (X : Executor Trie Account) (now : Nat) (state : State Trie Account)
    (uncles : List Bytes) (b : Block Trie Account) (sent : p.Sent C db uncles b)
    (known : KnownParent C db F p.working.previous) (trie : Trie)
    (opened : db.openRoot p.working.previous.stateRoot = some trie) :
    ∃ r, r.Started db p.working.previous trie ∧
      (fresh C state).enactOn C db X kind F now (received C b) false =
        enact C db X kind F (received C b) false r := by
  obtain ⟨once, first, before⟩ := resetCurrent_started db now trie
    { fresh C state with previous := p.working.previous } opened
  obtain ⟨r, second, started⟩ := resetCurrent_started db now trie once
    (by rw [before.previous]; exact opened)
  rw [before.previous] at started
  have parentHash : (received C b).info.parentHash = p.working.previous.memo := by
    rw [← known.hash, ← sent.parentHash]
    rfl
  have verified : (received C b).info.verify C db.orderedTrieRoot .checkNothingNew
    p.working.previous
      none = true := sent.verify C db F p known _ _
  have same : { r with previous := p.working.previous } = r := by rw [← started.previous]
  refine ⟨r, started, ?_⟩
  simp only [enactOn, parentHash, known.stored, found, bind, Except.bind, verified,
    Bool.true_eq_false, if_false, sync_fresh C db F now _ known, first, second, same]
  split_ifs with genesis
  · rfl
  · obtain ⟨h, stored⟩ := known.grandParent genesis
    rw [stored]

theorem commitToSeal_played {trie : Trie} {uncles : List Bytes} {b r : Block Trie Account}
    (sent : p.Sent C db uncles b) (known : KnownParent C db F p.working.previous)
    (started : r.Started db p.working.previous trie) (last : State Trie Account)
    (receipts : List Receipt) (count : receipts.length = p.transactions.length) :
    (do
      let sealed_ ← commitToSeal C db F (received C b).info.extraData
        { r with
          current := (received C b).info, state := last.commit db, receipts
          transactions := p.transactions }
      return sealed_.current) = do
    let own ← found (F.unclesFor C p.working.previous p.working.previous.memo)
    return { executedHeader db b.current last receipts with
      sha3Uncles := C.sha3 (appendList own.flatten) } := by
  have parentHash : (received C b).info.parentHash = p.working.previous.memo := by
    rw [← known.hash, ← sent.parentHash]
    rfl
  simp only [commitToSeal, isSealed, started.unsealed, started.uncommitted,
    started.previous, parentHash, ne_eq, not_true_eq_false, decide_false, Bool.false_eq_true,
    if_false, bind, Except.bind]
  cases found (F.unclesFor C p.working.previous p.working.previous.memo) with
  | error fault => rfl
  | ok own =>
      have transactionsRoot := sent.transactionsRoot
      rw [transactionsMap, sent.transactions] at transactionsRoot
      have keyed := receiptsMap_complete
        { r with
          current := (received C b).info, state := last.commit db, receipts
          transactions := p.transactions } count
      simp only [pure, Except.pure, executedHeader, Except.ok.injEq, BlockHeader.mk.injEq]
      refine ⟨?_, trivial, rfl, rfl, ?_, ?_, rfl, rfl, rfl, rfl, rfl, rfl, ?_, rfl, rfl,
        rfl, trivial, trivial⟩
      · exact sent.parentHash.symm
      · exact transactionsRoot.symm
      · exact congrArg db.hash256 keyed
      · exact sent.extraData

theorem followerHeader_eq (X : Executor Trie Account) (now : Nat) (state : State Trie Account)
    (uncles : List Bytes) (b : Block Trie Account) (packed : p.preExecution C db L = .ok b)
    (sent : p.Sent C db uncles b) (known : KnownParent C db F p.working.previous)
    (single : kind = .dual → p.transactions = []) :
    p.followerHeader C db kind L F now state X = do
      let lh ← found (F.lastHashes C p.working.previous.memo)
      let (last, receipts) ← playback db X kind b.current lh p.transactions 0 b.precommit
      let _ ← F.checkUncles C db.orderedTrieRoot (received C b).info (received C b).block
      let own ← found (F.unclesFor C p.working.previous p.working.previous.memo)
      return { executedHeader db b.current last receipts with
        sha3Uncles := C.sha3 (appendList own.flatten) } := by
  have parentHash : b.current.parentHash = p.working.previous.memo := by
    rw [sent.parentHash, known.hash]
  obtain ⟨trie, opened, start⟩ := sent.start
  obtain ⟨r, started, played⟩ :=
    enactOn_fresh C db kind F p X now state uncles b sent known trie opened
  have txs : (received C b).transactions = p.transactions := sent.transactions
  have infoParent : (received C b).info.parentHash = p.working.previous.memo := parentHash
  have sameEnv : ∀ lh, playback db X kind (received C b).info lh p.transactions 0 b.precommit =
      playback db X kind b.current lh p.transactions 0 b.precommit := fun lh =>
    playback_memo db X kind b.current _ _ lh p.transactions 0 b.precommit
  simp only [followerHeader, packed, bind, Except.bind, played,
    enact_unchecked C db X kind F _ _ trie r started (known.hash C db F)
      (fun dual => txs.trans (single dual)), txs, ← start, infoParent, sameEnv]
  cases found (F.lastHashes C p.working.previous.memo) with
  | error fault => rfl
  | ok lh =>
      simp only
      cases run : playback db X kind b.current lh p.transactions 0 b.precommit with
      | error fault => rfl
      | ok result =>
          obtain ⟨last, receipts⟩ := result
          simp only
          cases checked : F.checkUncles C db.orderedTrieRoot (received C b).info
            (received C b).block with
          | error fault => rfl
          | ok _ =>
              have count : receipts.length = p.transactions.length :=
                playback_length db X kind _ lh _ 0 _ last receipts run
              have sealed_ := commitToSeal_played C db F p sent known started last receipts count
              exact sealed_

def quiet : Executor Trie Account := fun _ _ _ s => some (s, ⟨0, [], 0⟩)

/-- The first transaction uses one unit of gas or two, depending on the last hashes. -/
def metered (lh : List H256) : Executor Trie Account := fun _ env _ s =>
  some (s, ⟨if env.gasUsed = 0 then if env.lastHashes = lh then 1 else 2 else 0, [], 0⟩)

theorem execute_ok (X : Executor Trie Account) (env : EnvInfo) (t : Bytes)
    (s after : State Trie Account) (e : Outcome) (result : X kind env t s = some (after, e)) :
    ∃ receipt : Receipt, s.execute db X kind env t .committed = .ok (after, receipt) ∧
      receipt.gasUsed = u256Add env.gasUsed e.gasUsed := by
  simp only [State.execute, result, reduceCtorEq, if_false]
  exact ⟨_, rfl, rfl⟩

theorem playback_total (X : Executor Trie Account) (runs : ∀ kind env t s, (X kind env t s).isSome)
    (header : BlockHeader) (lh : List H256) (txs : List Bytes) (gasUsed : Nat)
    (s : State Trie Account) :
    ∃ last receipts, playback db X kind header lh txs gasUsed s = .ok (last, receipts) := by
  induction txs generalizing gasUsed s with
  | nil => exact ⟨s, [], rfl⟩
  | cons t rest ih =>
      obtain ⟨⟨after, e⟩, result⟩ := Option.isSome_iff_exists.mp
        (runs kind (EnvInfo.ofHeader header lh gasUsed) t s)
      obtain ⟨receipt, ran, -⟩ := execute_ok db kind X _ t s after e result
      obtain ⟨last, receipts, later⟩ := ih receipt.gasUsed after
      exact ⟨last, receipt :: receipts,
        by simp [playback, ran, later, bind, Except.bind, pure, Except.pure]⟩

theorem playback_metered (seen : List H256) (header : BlockHeader) (lh : List H256)
    (txs : List Bytes) (gasUsed : Nat) (s last : State Trie Account) (receipts : List Receipt)
    (before : gasUsed = 0 ∨ gasUsed = if lh = seen then 1 else 2)
    (played : playback db (metered seen) kind header lh txs gasUsed s = .ok (last, receipts)) :
    ∀ r ∈ receipts, r.gasUsed = if lh = seen then 1 else 2 := by
  induction txs generalizing gasUsed s receipts with
  | nil =>
      cases played
      exact fun r member => nomatch member
  | cons t rest ih =>
      have used : u256Add gasUsed (if gasUsed = 0 then if lh = seen then 1 else 2 else 0) =
          if lh = seen then 1 else 2 := by
        rcases before with rfl | rfl <;> split_ifs <;> simp [u256Add] at *
      obtain ⟨receipt, ran, gas⟩ :=
        execute_ok db kind (metered seen) (EnvInfo.ofHeader header lh gasUsed) t s
        s _ rfl
      have same : receipt.gasUsed = if lh = seen then 1 else 2 := gas.trans used
      simp only [playback, ran, bind, Except.bind, pure, Except.pure] at played
      split at played
      · cases played
      rename_i inner found
      cases played
      exact List.forall_mem_cons.mpr ⟨same, ih _ _ _ (.inr same) found⟩

theorem gasOf_eq (receipts : List Receipt) (gasUsed : Nat) (some_ : receipts ≠ [])
    (same : ∀ r ∈ receipts, r.gasUsed = gasUsed) : gasOf receipts = gasUsed := by
  rw [gasOf, List.getLast?_eq_some_getLast some_]
  exact same _ (List.getLast_mem some_)

theorem leaderHeader_dual (X : Executor Trie Account)
    (runs : ∀ kind env t s, (X kind env t s).isSome) (uncles : List Bytes) (b : Block Trie Account)
    (packed : p.preExecution C db L = .ok b) (sent : p.Sent C db uncles b)
    (some_ : p.transactions ≠ []) :
    ∃ fault, p.leaderHeader C db .dual L X = .error fault ∧ fault ≠ .execution := by
  obtain ⟨t, rest, txs⟩ := List.exists_cons_of_ne_nil some_
  have opened : b.isSealed = false := by simp [isSealed, sent.unsealed]
  simp only [leaderHeader, packed, exec, opened, bind, Except.bind, Bool.false_eq_true, if_false,
    sent.transactions, txs]
  cases L.lastHashes C L.currentHash with
  | none => exact ⟨_, rfl, by simp⟩
  | some lh =>
      simp only [found, executeAll_dual db X lh t rest b runs sent.unsealed sent.receipts]
      exact ⟨_, rfl, by simp⟩

/-- The two sides get one header from every executor that does not throw. -/
def Agree (now : Nat) (state : State Trie Account) : Prop :=
  ∀ X : Executor Trie Account, p.leaderHeader C db kind L X ≠ .error .execution →
    ∃ h, p.leaderHeader C db kind L X = .ok h ∧ p.followerHeader C db kind L F now state X = .ok h

/-- One virtual machine runs at a time, the head of the leader has not moved (to the last hashes),
the two chains know the same uncles, and the follower takes the uncles of the leader. -/
structure Aligned : Prop where
  single : kind = .dual → p.transactions = []
  head : ∃ seen played, L.lastHashes C L.currentHash = some seen ∧
    F.lastHashes C p.working.previous.memo = some played ∧ (seen = played ∨ p.transactions = [])
  uncles : ∃ theirs own, L.unclesFor C p.working.previous p.working.previous.memo = some theirs ∧
    F.unclesFor C p.working.previous p.working.previous.memo = some own ∧
    appendList theirs.flatten = appendList own.flatten
  accepted : ∀ b, p.preExecution C db L = .ok b →
    F.checkUncles C db.orderedTrieRoot (received C b).info (received C b).block = .ok ()

theorem Aligned.agree (known : KnownParent C db F p.working.previous)
    (aligned : p.Aligned C db kind L F) (now : Nat) (state : State Trie Account) :
    p.Agree C db kind L F now state := by
  intro X runs
  obtain ⟨theirs, own, picked, ownPicked, sameUncles⟩ := aligned.uncles
  obtain ⟨seen, played, leaderSaw, followerSaw, sameHead⟩ := aligned.head
  obtain ⟨trie, opened⟩ := known.state
  obtain ⟨b, packed, sent⟩ := p.preExecution_of_uncles C db L trie theirs opened picked
  have same : playback db X kind b.current seen p.transactions 0 b.precommit =
      playback db X kind b.current played p.transactions 0 b.precommit := by
    rcases sameHead with rfl | empty
    · rfl
    · rw [empty]
      rfl
  have leader := p.leaderHeader_eq C db kind L X theirs b packed sent aligned.single
  have follower :=
    p.followerHeader_eq C db kind L F X now state theirs b packed sent known aligned.single
  simp only [leaderSaw, found, bind, Except.bind, same] at leader
  simp only [followerSaw, ownPicked, aligned.accepted b packed, found, bind,
    Except.bind] at follower
  cases run : playback db X kind b.current played p.transactions 0 b.precommit with
  | error fault =>
      rw [run] at leader
      cases playback_error db X kind _ _ _ _ _ fault run
      exact absurd leader runs
  | ok result =>
      rw [run] at leader follower
      refine ⟨_, leader, follower.trans ?_⟩
      have uncles : C.sha3 (appendList own.flatten) = b.current.sha3Uncles := by
        rw [← sameUncles, sent.uncles]
      simp only [uncles]
      rfl

theorem Agree.sees (known : KnownParent C db F p.working.previous) (now : Nat)
    (state : State Trie Account) (agree : p.Agree C db kind L F now state) :
    ∃ theirs b, L.unclesFor C p.working.previous p.working.previous.memo = some theirs ∧
      p.preExecution C db L = .ok b ∧ p.Sent C db theirs b ∧
      (kind = .dual → p.transactions = []) := by
  obtain ⟨trie, opened⟩ := known.state
  cases picked : L.unclesFor C p.working.previous p.working.previous.memo with
  | none =>
      have packed := p.preExecution_no_uncles C db L trie opened picked
      obtain ⟨h, leader, -⟩ := agree quiet (by simp [leaderHeader, packed, bind, Except.bind])
      simp [leaderHeader, packed, bind, Except.bind] at leader
  | some theirs =>
      obtain ⟨b, packed, sent⟩ := p.preExecution_of_uncles C db L trie theirs opened picked
      refine ⟨theirs, b, rfl, packed, sent, ?_⟩
      rintro rfl
      by_contra some_
      obtain ⟨fault, leader, other⟩ :=
        p.leaderHeader_dual C db L quiet (fun _ _ _ _ => rfl) theirs b packed sent some_
      obtain ⟨h, result, -⟩ := agree quiet (by simp [leader, other])
      rw [leader] at result
      cases result

theorem Agree.headers (X : Executor Trie Account) (runs : ∀ kind env t s, (X kind env t s).isSome)
    (known : KnownParent C db F p.working.previous) (now : Nat) (state : State Trie Account)
    (agree : p.Agree C db kind L F now state) (theirs : List Bytes) (b : Block Trie Account)
    (packed : p.preExecution C db L = .ok b) (sent : p.Sent C db theirs b)
    (single : kind = .dual → p.transactions = []) :
    ∃ seen played own last last' receipts receipts', L.lastHashes C L.currentHash = some seen ∧
      F.lastHashes C p.working.previous.memo = some played ∧
      F.unclesFor C p.working.previous p.working.previous.memo = some own ∧
      F.checkUncles C db.orderedTrieRoot (received C b).info (received C b).block = .ok () ∧
      playback db X kind b.current seen p.transactions 0 b.precommit = .ok (last, receipts) ∧
      playback db X kind b.current played p.transactions 0 b.precommit = .ok (last', receipts') ∧
      executedHeader db b.current last receipts =
        { executedHeader db b.current last' receipts' with
          sha3Uncles := C.sha3 (appendList own.flatten) } := by
  have leader := p.leaderHeader_eq C db kind L X theirs b packed sent single
  have follower := p.followerHeader_eq C db kind L F X now state theirs b packed sent known single
  have quietly : p.leaderHeader C db kind L X ≠ .error .execution := by
    intro thrown
    rw [thrown] at leader
    cases seen : L.lastHashes C L.currentHash with
    | none => simp [seen, found, bind, Except.bind] at leader
    | some lh =>
        obtain ⟨last, receipts, ran⟩ :=
          playback_total db kind X runs b.current lh p.transactions 0 b.precommit
        simp [seen, found, ran, bind, Except.bind, pure, Except.pure] at leader
  obtain ⟨h, leaderGot, followerGot⟩ := agree X quietly
  rw [leaderGot] at leader
  rw [followerGot] at follower
  cases seen : L.lastHashes C L.currentHash with
  | none => simp [seen, found, bind, Except.bind] at leader
  | some lh =>
      cases played : F.lastHashes C p.working.previous.memo with
      | none => simp [played, found, bind, Except.bind] at follower
      | some lh' =>
          obtain ⟨last, receipts, ran⟩ :=
            playback_total db kind X runs b.current lh p.transactions 0 b.precommit
          obtain ⟨last', receipts', ran'⟩ :=
            playback_total db kind X runs b.current lh' p.transactions 0 b.precommit
          cases checked : F.checkUncles C db.orderedTrieRoot (received C b).info
            (received C b).block with
          | error fault => simp [played, found, ran', checked, bind, Except.bind] at follower
          | ok nothing =>
              cases picked : F.unclesFor C p.working.previous p.working.previous.memo with
              | none => simp [played, found, ran', checked, picked, bind, Except.bind] at follower
              | some own =>
                  simp only [seen, found, ran, bind, Except.bind, pure, Except.pure,
                    Except.ok.injEq] at leader
                  simp only [played, found, ran', checked, picked, bind, Except.bind, pure,
                    Except.pure, Except.ok.injEq] at follower
                  exact ⟨lh, lh', own, last, last', receipts, receipts', rfl, rfl, rfl,
                    rfl, ran, ran', leader.symm.trans follower⟩

/-- Leader and follower get the same header for every executor exactly when they are aligned. -/
theorem leader_and_follower_agree_iff (injective : Function.Injective C.sha3)
    (known : KnownParent C db F p.working.previous) (now : Nat) (state : State Trie Account) :
    p.Agree C db kind L F now state ↔ p.Aligned C db kind L F := by
  constructor
  swap
  · exact fun aligned => aligned.agree C db kind L F p known now state
  intro agree
  obtain ⟨theirs, b, picked, packed, sent, single⟩ := agree.sees C db kind L F p known now state
  obtain ⟨seen, played, own, last, last', receipts, receipts', leaderSaw, followerSaw,
    ownPicked, checked, -, -, headers⟩ :=
    agree.headers C db kind L F p quiet (fun _ _ _ _ => rfl) known now state theirs b
      packed sent single
  refine ⟨single, ⟨seen, played, leaderSaw, followerSaw, ?_⟩, ⟨theirs, own, picked, ownPicked, ?_⟩,
    ?_⟩
  · -- an executor that reads the last hashes tells the two runs apart by the gas used
    by_contra moved
    obtain ⟨different, some_⟩ := not_or.mp moved
    obtain ⟨seen', played', _, _, _, first, second, leaderSaw', followerSaw', -, -, ran,
        ran', spent⟩ :=
      agree.headers C db kind L F p (metered seen) (fun _ _ _ _ => rfl) known now state theirs
        b packed sent
        single
    cases leaderSaw.symm.trans leaderSaw'
    cases followerSaw.symm.trans followerSaw'
    have gas : ∀ lh (last : State Trie Account) receipts,
        playback db (Packing.metered seen) kind b.current lh p.transactions 0 b.precommit =
          .ok (last, receipts) → gasOf receipts = if lh = seen then 1 else 2 := by
      intro lh last receipts ran
      refine gasOf_eq receipts _ ?_
        (playback_metered db kind seen _ lh _ 0 _ last receipts (.inl rfl) ran)
      rintro rfl
      exact some_
        (List.length_eq_zero_iff.mp (playback_length db _ kind _ lh _ 0 _ last [] ran).symm)
    have used : gasOf first = gasOf second := congrArg BlockHeader.gasUsed spent
    rw [gas _ _ _ ran, gas _ _ _ ran', if_pos rfl, if_neg (Ne.symm different)] at used
    cases used
  · have uncles : b.current.sha3Uncles = C.sha3 (appendList own.flatten) :=
      congrArg BlockHeader.sha3Uncles headers
    rw [sent.uncles] at uncles
    exact injective uncles
  · intro b' packed'
    cases packed.symm.trans packed'
    exact checked

end Packing

section Toy

def storedHeader (parentHash : H256) (number timestamp : Nat) : BlockHeader :=
  { parentHash, number, timestamp }

def storedHeaders : List Bytes :=
  [storedHeader 0 0 1, storedHeader 1 1 2, storedHeader 2 2 3, storedHeader 2 2 4,
    storedHeader 3 3 5].map
    (BlockHeader.streamRLP · .withSeal)

/-- The five headers hash to 1, 2, 3, 4 and 5, and everything else to its own number. -/
def numbered : Crypto :=
  { Crypto.toy with
    sha3 := fun bytes =>
      if bytes ∈ storedHeaders then storedHeaders.idxOf bytes + 1 else Crypto.toy.sha3 bytes + 6 }

theorem numbered_sha3_injective : Function.Injective numbered.sha3 := by
  have bound : ∀ bytes, bytes ∈ storedHeaders → storedHeaders.idxOf bytes < 5 := fun bytes member =>
    List.idxOf_lt_length_of_mem member
  intro left right same
  simp only [numbered] at same
  by_cases inLeft : left ∈ storedHeaders <;> by_cases inRight : right ∈ storedHeaders
  · rw [if_pos inLeft, if_pos inRight] at same
    exact List.idxOf_inj inLeft |>.mp (Nat.add_right_cancel same)
  · rw [if_pos inLeft, if_neg inRight] at same
    have low := bound left inLeft
    have high : storedHeaders.idxOf left = Crypto.toy.sha3 right + 5 := Nat.add_right_cancel same
    omega
  · rw [if_neg inLeft, if_pos inRight] at same
    have low := bound right inRight
    have high : storedHeaders.idxOf right = Crypto.toy.sha3 left + 5 :=
      Nat.add_right_cancel same.symm
    omega
  · rw [if_neg inLeft, if_neg inRight] at same
    exact Crypto.toy_sha3_injective (Nat.add_right_cancel same)

def toyStorage : Storage Nat Nat where
  openRoot := some
  rootHash := id
  isDirty _ := true
  put _ account trie := trie + account
  transferAll _ s := s
  childDaos := []
  daoHardforkBlock := 0
  logBloom _ := 0
  hash256 entries := entries.length
  orderedTrieRoot l := l.length
  maxBlockHeadGas := 2000000000

def toyStore (head : H256) (seconds : List H256) : ChainStore where
  genesisHash := 1
  currentHash := head
  isKnown hash := decide (0 < hash ∧ hash ≤ 5)
  headerData hash := if hash = 0 then [] else storedHeaders.getD (hash - 1) []
  uncles _ := []
  details hash :=
    if hash = 1 then ⟨0, [2]⟩ else if hash = 2 then ⟨1, seconds⟩ else if hash = 5 then ⟨3, []⟩
      else ⟨2, []⟩

def toyPacking : Packing Nat Nat where
  working :=
    { state := ⟨0, []⟩, precommit := ⟨0, []⟩, previous := { storedHeader 2 2 3 with memo := 3 } }
  resetTime := 8
  time := 9
  transactions := [[1]]
  index := 0
  nodeList := []
  extraData := []

/-- The transaction writes an account, and uses the more gas the later block it sees. -/
def toyExecutor : Executor Nat Nat := fun _ env _ s =>
  some ({ s with cache := [(7, 1)] }, ⟨env.lastHashes.headD 0, [], 0⟩)

theorem toyPacking_known (seconds : List H256) (simple : seconds = [3]) :
    Packing.KnownParent numbered toyStorage (toyStore 3 seconds) toyPacking.working.previous := by
  subst simple
  refine ⟨by decide +kernel, by decide, by decide, by decide, ⟨0, rfl⟩, fun _ => ?_⟩
  exact Option.isSome_iff_exists.mp (by decide +kernel)

/-- Two nodes with the same chain, whose head is the parent. -/
theorem same_chain_agrees : toyPacking.Agree numbered toyStorage .interpreter (toyStore 3 [3])
    (toyStore 3 [3]) 20 ⟨0, []⟩ := by
  have accepted : (do
      let b ← toyPacking.preExecution numbered toyStorage (toyStore 3 [3])
      (toyStore 3 [3]).checkUncles numbered toyStorage.orderedTrieRoot
        (Packing.received numbered b).info
        (Packing.received numbered b).block) = .ok () := by decide +kernel
  have head : ((toyStore 3 [3]).lastHashes numbered 3).isSome := by decide +kernel
  obtain ⟨seen, found⟩ := Option.isSome_iff_exists.mp head
  refine (toyPacking.leader_and_follower_agree_iff numbered toyStorage .interpreter (toyStore 3 [3])
    (toyStore 3 [3]) numbered_sha3_injective (toyPacking_known [3] rfl) 20 ⟨0, []⟩).mpr
    ⟨by simp, ⟨seen, seen, found, found, .inl rfl⟩,
      ⟨[], [], by decide +kernel, by decide +kernel, rfl⟩, ?_⟩
  intro b packed
  simp only [packed, bind, Except.bind] at accepted
  exact accepted

/-- The head of the leader has moved on before it executes the block; or the leader knows of an
uncle that the follower has not seen; or both virtual machines are in use. -/
theorem diverging_headers :
    ¬ toyPacking.Agree numbered toyStorage .interpreter (toyStore 5 [3])
      (toyStore 3 [3]) 20 ⟨0, []⟩ ∧
    ¬ toyPacking.Agree numbered toyStorage .interpreter (toyStore 3 [3, 4])
      (toyStore 3 [3]) 20 ⟨0, []⟩ ∧
    ¬ toyPacking.Agree numbered toyStorage .dual (toyStore 3 [3]) (toyStore 3 [3]) 20 ⟨0, []⟩ := by
  have sides : ∀ kind L F, toyPacking.leaderHeader numbered toyStorage kind L toyExecutor ≠
        .error .execution →
      toyPacking.leaderHeader numbered toyStorage kind L toyExecutor ≠
        toyPacking.followerHeader numbered toyStorage kind L F 20 ⟨0, []⟩ toyExecutor →
      ¬ toyPacking.Agree numbered toyStorage kind L F 20 ⟨0, []⟩ := by
    intro kind L F runs differ agree
    obtain ⟨h, leader, follower⟩ := agree toyExecutor runs
    exact differ (leader.trans follower.symm)
  refine ⟨sides _ _ _ ?_ ?_, sides _ _ _ ?_ ?_, ?_⟩
  · decide +kernel
  · decide +kernel
  · decide +kernel
  · decide +kernel
  · intro agree
    have leader : toyPacking.leaderHeader numbered toyStorage .dual (toyStore 3 [3]) toyExecutor =
        .error .noReceipt := by decide +kernel
    obtain ⟨h, result, -⟩ := agree toyExecutor (by rw [leader]; decide)
    rw [leader] at result
    cases result

end Toy

end UtispaceChain
