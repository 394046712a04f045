import Mathlib.Logic.Function.Iterate
import UtispaceChain.DevCore.Rlp
import UtispaceChain.Lib.CachedTable
import UtispaceChain.Cv.NonceCheck

/-! The head and the indices of `BlockChain`: `import`, `rewind` and the reads. -/

namespace UtispaceChain

open Lib

/-- What `import` reads of a block. -/
structure ChainBlock where
  hash : H256
  parentHash : H256
  number : Nat
  difficulty : Nat
  gasUsed : Nat
  transactions : List Transaction
  deriving DecidableEq, Repr

structure FamilyDetails where
  number : Nat
  totalDifficulty : Nat
  parent : H256
  deriving DecidableEq, Repr

/-- The blocks and details rows do not change in the fields read here, so only the two indices
keep their caches. -/
structure ChainIndex where
  genesis : ChainBlock
  blocks : H256 → Option ChainBlock
  details : H256 → Option FamilyDetails
  blockHashes : CachedTable Nat H256
  transactionAddresses : CachedTable H256 (H256 × Nat)
  lastBlockHash : H256
  lastBlockNumber : Nat
  nonceCheck : NonceCheck

inductive Enactment
  | throws
  | throwsAfterwards
  | succeeds
  deriving DecidableEq, Repr

/-- The outside of one `import`: the settings, the clock, the checks of `verifyBlock` other than
those of the number, and the execution. -/
structure ImportRun where
  maxblocksize : Nat := 1000
  tieBreakingGas : Bool := false
  futureTime : Bool := false
  verified : Bool := true
  enacted : Enactment := .succeeds

/-- The hashes from one block up to the common ancestor, that ancestor, and from it down to the
other. -/
structure TreeRoute where
  ret : List H256
  common : H256
  deriving DecidableEq, Repr

namespace ChainIndex

variable (bc : ChainIndex)

def opened (genesisHash : H256) (difficulty gasUsed maxblocksize : Nat) : ChainIndex where
  genesis := ⟨genesisHash, 0, 0, difficulty, gasUsed, []⟩
  blocks :=
    Function.update (fun _ => none) genesisHash (some ⟨genesisHash, 0, 0, difficulty, gasUsed, []⟩)
  details := Function.update (fun _ => none) genesisHash (some ⟨0, difficulty, 0⟩)
  blockHashes := CachedTable.empty
  transactionAddresses := CachedTable.empty
  lastBlockHash := genesisHash
  lastBlockNumber := 0
  nonceCheck := NonceCheck.init maxblocksize 0 fun _ => []

def number : Nat := bc.lastBlockNumber

def currentHash : H256 := bc.lastBlockHash

/-- `isKnown`; a block above the head is not current. -/
def isKnown (hash : H256) (isCurrent : Bool) : Bool :=
  decide (hash = bc.genesis.hash) ||
    ((bc.blocks hash).isSome &&
      match bc.details hash with
      | none => false
      | some d => !isCurrent || decide (d.number ≤ bc.lastBlockNumber))

/-- `details(hash).parent`, zero for the null details. -/
def parentOf (hash : H256) : H256 :=
  match bc.details hash with
  | none => 0
  | some d => d.parent

def numberOf (hash : H256) : Nat :=
  match bc.details hash with
  | none => 0
  | some d => d.number

def numberHash (i : Nat) : H256 :=
  if i = 0 then bc.genesis.hash else (bc.blockHashes.query i).getD 0

/-- The location of a transaction; `none` is the null pair. -/
def transactionLocation (hash : H256) : Option (H256 × Nat) := bc.transactionAddresses.query hash

def transactions (hash : H256) : List Transaction :=
  match bc.blocks hash with
  | none => []
  | some b => b.transactions

def transactionsAt (i : Nat) : List Transaction := bc.transactions (bc.numberHash i)

/-- From a block up a number of ancestors: the hashes passed, and the ancestor. -/
def climb : Nat → H256 → List H256 → List H256 × H256
  | 0, hash, passed => (passed, hash)
  | steps + 1, hash, passed => climb steps (bc.parentOf hash) (passed ++ [hash])

/-- From two blocks of one height up to where they meet; the common one is kept with the first. -/
def meet : Nat → H256 → H256 → List H256 → List H256 → List H256 × List H256 × H256
  | 0, fromHash, _, ret, back => (ret ++ [fromHash], back, fromHash)
  | fuel + 1, fromHash, toHash, ret, back =>
      if fromHash = toHash then (ret ++ [fromHash], back, fromHash)
      else meet fuel (bc.parentOf fromHash) (bc.parentOf toHash) (ret ++ [fromHash])
        (back ++ [toHash])

/-- `treeRoute` with its default flags. Blocks of one height meet at the genesis block at the
latest. -/
def treeRoute (fromHash toHash : H256) : TreeRoute :=
  if fromHash = 0 ∨ toHash = 0 then ⟨[], 0⟩
  else
    let fn := bc.numberOf fromHash
    let tn := bc.numberOf toHash
    let first := bc.climb (fn - tn) fromHash []
    let second := bc.climb (tn - fn) toHash []
    let met := bc.meet (min fn tn) first.2 second.2 first.1 second.1
    ⟨met.1 ++ met.2.1.reverse, met.2.2⟩

def clearCachesDuringChainReversion (firstInvalid : Nat) : ChainIndex :=
  { bc with
    blockHashes := bc.blockHashes.forget fun i => decide (firstInvalid ≤ i ∧ i < bc.number + 1)
    transactionAddresses := bc.transactionAddresses.forget fun _ => true }

/-- The rows for the transactions of a block; a hash that occurs twice has the later place. -/
def addressRows (b : ChainBlock) : List (H256 × H256 × Nat) :=
  b.transactions.zipIdx.map fun entry => (entry.1.sha3, b.hash, entry.2)

/-- The index rows of one block that becomes part of the canonical chain. -/
def putRows (b : ChainBlock) : ChainIndex :=
  { bc with
    transactionAddresses := bc.transactionAddresses.putAll (addressRows b)
    blockHashes := bc.blockHashes.put b.number b.hash }

def insertBlock (b : ChainBlock) (totalDifficulty : Nat) : ChainIndex :=
  { bc with
    blocks := Function.update bc.blocks b.hash (some b)
    details := Function.update bc.details b.hash
      (some ⟨bc.numberOf b.parentHash + 1, totalDifficulty, b.parentHash⟩) }

/-- The blocks whose rows `import` writes, from the new head back to the common ancestor. -/
def freshBlocks (b : ChainBlock) (route : TreeRoute) : List H256 :=
  (route.ret ++ [b.hash]).reverse.takeWhile fun h => decide (h ≠ route.common)

/-- The rows of the blocks that become part of the canonical chain, in the order they are
written. -/
def putRoute (hashes : List H256) : ChainIndex :=
  hashes.foldl (fun bc h => match bc.blocks h with
    | none => bc
    | some tbi => bc.putRows tbi) bc

/-- `updateCache` reads the hashes of the blocks that left and of those that entered. -/
def updateNonceCheck (maxblocksize : Nat) (rebuild : Bool) : ChainIndex :=
  let start := NonceCheck.windowStart maxblocksize bc.number
  let old := bc.nonceCheck.startblk
  let first := max ((if rebuild then 0 else bc.nonceCheck.endblk) + 1) start
  let evicted := if rebuild then [] else List.range' old (start - old)
  let entered := List.range' first (bc.number + 1 - first)
  { bc with
    nonceCheck := bc.nonceCheck.updateCache maxblocksize bc.number bc.transactionsAt rebuild
    blockHashes := bc.blockHashes.readAll ((evicted ++ entered).filter fun i => decide (i ≠ 0)) }

/-- The new block has more total difficulty than the head, or as much with more gas used. -/
def isBest (run : ImportRun) (b : ChainBlock) (totalDifficulty : Nat) : Bool :=
  let last := match bc.details bc.lastBlockHash with
    | none => 0
    | some d => d.totalDifficulty
  let lastGas := match bc.blocks bc.lastBlockHash with
    | none => 0
    | some h => h.gasUsed
  decide (last < totalDifficulty) ||
    (run.tieBreakingGas && decide (totalDifficulty = last) && decide (lastGas < b.gasUsed))

/-- A stored block becomes the head: the caches are cleared on a switch, the rows of the route are
written while the head is still the old one, and the nonce check follows. -/
def adopt (run : ImportRun) (b : ChainBlock) (common : Nat) (fresh : List H256) (switched : Bool) :
    ChainIndex :=
  let cleared := if switched then bc.clearCachesDuringChainReversion (common + 1) else bc
  let rows := cleared.putRoute fresh
  let unset := { rows with nonceCheck := rows.nonceCheck.delCache b.transactions }
  if bc.currentHash ≠ b.hash then
    { unset with lastBlockHash := b.hash, lastBlockNumber := b.number }.updateNonceCheck
      run.maxblocksize switched
  else unset

/-- `import` of a block that passed every check. -/
def importValid (run : ImportRun) (b : ChainBlock) (pd : FamilyDetails) : ChainIndex :=
  let totalDifficulty := u256Add pd.totalDifficulty b.difficulty
  let stored := bc.insertBlock b totalDifficulty
  if bc.isBest run b totalDifficulty then
    let route := bc.treeRoute bc.currentHash b.parentHash
    stored.adopt run b (bc.numberOf route.common) (freshBlocks b route)
      (decide (route.common ≠ bc.currentHash))
  else { stored with nonceCheck := stored.nonceCheck.delCache b.transactions }

/-- The checks of `import` before the block is executed, with the details of the parent. -/
def checked (run : ImportRun) (b : ChainBlock) : Option FamilyDetails :=
  if bc.isKnown b.hash true then none
  else if bc.isKnown b.parentHash false = false then none
  else
    match bc.details b.parentHash with
    | none => none
    | some pd =>
        if run.futureTime then none
        -- the header against its parent's; at the largest unsigned number the import would not
        -- return
        else if run.verified = false ∨ 2 ^ 32 - 1 ≤ b.number ∨ b.number ≠ pd.number + 1 then none
        else some pd

/-- `import` of a new block; where it throws the state is as it was, but for the keys of
transactions that were already collected. -/
def importBlock (run : ImportRun) (b : ChainBlock) : ChainIndex :=
  match bc.checked run b with
  | none => bc
  | some pd =>
      match run.enacted with
      | .throws => bc
      | .throwsAfterwards => { bc with nonceCheck := bc.nonceCheck.delCache b.transactions }
      | .succeeds => bc.importValid run b pd

/-- What an `import` comes to. -/
inductive ImportKind
  | refused
  | collected
  | notBest
  | continues
  | switches
  deriving DecidableEq, Repr

def importKind (run : ImportRun) (b : ChainBlock) : ImportKind :=
  match bc.checked run b with
  | none => .refused
  | some pd =>
      match run.enacted with
      | .throws => .refused
      | .throwsAfterwards => .collected
      | .succeeds =>
          if bc.isBest run b (u256Add pd.totalDifficulty b.difficulty) then
            if (bc.treeRoute bc.lastBlockHash b.parentHash).common =
              bc.lastBlockHash then .continues
            else .switches
          else .notBest

def rewind (newHead : Nat) : ChainIndex :=
  if bc.lastBlockNumber ≤ newHead then bc
  else
    let cleared := bc.clearCachesDuringChainReversion (newHead + 1)
    { cleared with
      lastBlockHash := cleared.numberHash newHead
      lastBlockNumber := newHead
      blockHashes := if newHead = 0 then cleared.blockHashes else cleared.blockHashes.read newHead }

end ChainIndex

end UtispaceChain
