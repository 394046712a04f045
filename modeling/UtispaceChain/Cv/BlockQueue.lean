import Mathlib.Data.Finset.Union
import UtispaceChain.Cv.BlockChain
import UtispaceChain.Lib.Removal

/-! `BlockQueue`: the sets and queues, the operations on them, and what the verifier threads do
under its locks. -/

namespace UtispaceChain

open Lib Rlp

/-- A multimap, in the order of its keys; entries of one key stand as they were inserted. -/
abbrev SizedBlockMap := List (Nat × H256 × Bytes)

namespace SizedBlockMap

def insert (key : Nat) (hash : H256) (blockData : Bytes) : SizedBlockMap → SizedBlockMap
  | [] => [(key, hash, blockData)]
  | e :: m => if e.1 ≤ key then e :: insert key hash blockData m
      else (key, hash, blockData) :: e :: m

def removeByKeyEqual (key : Nat) (m : SizedBlockMap) : List (H256 × Bytes) × SizedBlockMap :=
  ((m.filter fun e => e.1 = key).map Prod.snd, m.filter fun e => e.1 ≠ key)

def removeByKeyNotGreater (key : Nat) (m : SizedBlockMap) : List (H256 × Bytes) × SizedBlockMap :=
  ((m.filter fun e => e.1 ≤ key).map Prod.snd, m.filter fun e => ¬ e.1 ≤ key)

end SizedBlockMap

structure UnverifiedBlock where
  hash : H256
  parentHash : H256
  blockData : Bytes

/-- Moving from a block leaves its hashes, and takes its data. -/
def UnverifiedBlock.movedFrom (b : UnverifiedBlock) : UnverifiedBlock := { b with blockData := [] }

/-- A block of `m_verifying` or `m_verified`. While it is verified, its data are empty and its
header has the hash as `sha3Uncles` and the parent's hash. -/
structure QueuedBlock where
  verified : VerifiedBlock
  blockData : Bytes

namespace QueuedBlock

variable (b : QueuedBlock)

def sha3Uncles : H256 := b.verified.info.sha3Uncles

def parentHash : H256 := b.verified.info.parentHash

def movedFrom : QueuedBlock := { b with blockData := [] }

def placeholder (work : UnverifiedBlock) : QueuedBlock :=
  ⟨⟨{ sha3Uncles := work.hash, parentHash := work.parentHash }, [], []⟩, []⟩

end QueuedBlock

inductive ImportResult
  | success
  | unknownParent
  | futureTimeKnown
  | futureTimeUnknown
  | alreadyInChain
  | alreadyKnown
  | malformed
  | badChain
  deriving DecidableEq, Repr

structure World where
  verifyBlock : Bytes → ImportRequirements → Option VerifiedBlock
  isKnown : H256 → Bool
  utcTime : Nat
  allowFutureBlocks : Bool

structure BlockQueue where
  drainingSet : Finset H256 := ∅
  readySet : Finset H256 := ∅
  unknownSet : Finset H256 := ∅
  unknown : SizedBlockMap := []
  knownBad : Finset H256 := ∅
  future : SizedBlockMap := []
  verified : List QueuedBlock := []
  verifying : List QueuedBlock := []
  unverified : List UnverifiedBlock := []

def ImportRequirements.outOfOrderChecks : ImportRequirements where
  validSeal := true
  uncleBasic := true
  uncleSeals := true
  transactionBasic := true
  transactionSignatures := true

def BlockHeader.headerHashFromBlock (C : Crypto) (block : Bytes) : H256 :=
  C.sha3 ((item block 0).getD [])

namespace BlockQueue

variable (C : Crypto)

def hashOf (b : QueuedBlock) : H256 := b.verified.info.hash C .withSeal

/-- The hash of a block of `m_verifying`. -/
def verifyingHash (b : QueuedBlock) : H256 := if b.blockData ≠ [] then hashOf C b else b.sha3Uncles

/-- The loop of `collectUnknownBad_WITH_BOTH_LOCKS`; each turn takes one from `badQueue`. -/
def collectFrom : Nat → List H256 → BlockQueue → BlockQueue
  | 0, _, s => s
  | _, [], s => s
  | turns + 1, bad :: badQueue, s =>
      let (removed, unknown) := s.unknown.removeByKeyEqual bad
      let hashes := removed.map Prod.fst
      collectFrom turns (badQueue ++ hashes)
        { s with unknown, unknownSet := s.unknownSet \ hashes.toFinset, knownBad :=
          s.knownBad ∪ hashes.toFinset }

def collectUnknownBad (bad : H256) (s : BlockQueue) : BlockQueue :=
  collectFrom (s.unknown.length + 1) [bad] s

def noteBad (s : BlockQueue) (hash : H256) : BlockQueue :=
  { s with knownBad := insert hash s.knownBad, readySet := s.readySet.erase hash }.collectUnknownBad
    hash

def isBadVerified (s : BlockQueue) (b : QueuedBlock) : Bool :=
  decide (b.parentHash ∈ s.knownBad) || decide (hashOf C b ∈ s.knownBad)

def isBadUnverified (s : BlockQueue) (b : UnverifiedBlock) : Bool :=
  decide (b.parentHash ∈ s.knownBad) || decide (b.hash ∈ s.knownBad)

def isBadVerifying (s : BlockQueue) (b : QueuedBlock) : Bool :=
  decide (b.parentHash ∈ s.knownBad) || decide (b.sha3Uncles ∈ s.knownBad)

/-- The three removals of a turn of `updateBad_WITH_LOCK`, and whether they gave any block. -/
def sweepVerified (s : BlockQueue) : Bool × BlockQueue :=
  let found := removeIf QueuedBlock.movedFrom (isBadVerified C s) s.verified
  (!found.2.isEmpty, (found.2.map (hashOf C)).foldl noteBad { s with verified := found.1 })

def sweepUnverified (s : BlockQueue) : Bool × BlockQueue :=
  let found := removeIf UnverifiedBlock.movedFrom (isBadUnverified s) s.unverified
  (!found.2.isEmpty, (found.2.map UnverifiedBlock.hash).foldl noteBad
    { s with unverified := found.1 })

def sweepVerifying (s : BlockQueue) : Bool × BlockQueue :=
  let found := removeIf QueuedBlock.movedFrom (isBadVerifying s) s.verifying
  (!found.2.isEmpty, (found.2.map (verifyingHash C)).foldl noteBad { s with verifying := found.1 })

/-- The loop of `updateBad_WITH_LOCK`. Every turn but the last takes a block out of a queue. -/
def sweep : Nat → BlockQueue → BlockQueue
  | 0, s => s
  | turns + 1, s =>
      let a := s.sweepVerified C
      let b := a.2.sweepUnverified
      let c := b.2.sweepVerifying C
      if a.1 || b.1 || c.1 then sweep turns c.2 else c.2

def queued (s : BlockQueue) : Nat := s.verified.length + s.unverified.length + s.verifying.length

def updateBad (bad : H256) (s : BlockQueue) : BlockQueue :=
  let s := s.collectUnknownBad bad
  s.sweep C (s.queued + 1)

/-- A block that has been verified, once it is at the front. -/
def release (b : QueuedBlock) (s : BlockQueue) : BlockQueue :=
  if b.parentHash ∈ s.knownBad then
    { s with readySet := s.readySet.erase (hashOf C b), knownBad := insert (hashOf C b) s.knownBad }
  else { s with verified := s.verified ++ [b] }

/-- The loop of `drainVerified_WITH_BOTH_LOCKS`. -/
def drainFrom : List QueuedBlock → BlockQueue → BlockQueue
  | [], s => { s with verifying := [] }
  | b :: rest, s =>
      if b.blockData = [] then { s with verifying := b :: rest } else drainFrom rest (s.release C b)

def drainVerified (s : BlockQueue) : BlockQueue := s.drainFrom C s.verifying

/-- The blocks that wait for a parent move on to `m_unverified`. -/
def promote (parent : H256) (s : BlockQueue) : BlockQueue :=
  let (removed, unknown) := s.unknown.removeByKeyEqual parent
  let hashes := removed.map Prod.fst
  { s with
    unknown
    unverified := s.unverified ++ removed.map fun e => UnverifiedBlock.mk e.1 parent e.2
    unknownSet := s.unknownSet \ hashes.toFinset
    readySet := s.readySet ∪ hashes.toFinset }

/-- The loop of `noteReady_WITH_LOCK`; each turn takes one from `goodQueue`. -/
def noteReadyFrom : Nat → List H256 → BlockQueue → BlockQueue
  | 0, _, s => s
  | _, [], s => s
  | turns + 1, parent :: goodQueue, s =>
      let removed := (s.unknown.removeByKeyEqual parent).1
      noteReadyFrom turns (goodQueue ++ removed.map Prod.fst) (s.promote parent)

def noteReady (good : H256) (s : BlockQueue) : BlockQueue :=
  noteReadyFrom (s.unknown.length + 1) [good] s

def retryFrom : Nat → BlockQueue → BlockQueue
  | 0, s => s
  | turns + 1, s =>
      match s.unknown with
      | [] => s
      | (parent, _) :: _ => retryFrom turns (s.promote parent)

def retryAllUnknown (s : BlockQueue) : BlockQueue := s.retryFrom s.unknown.length

def knows (h : H256) (s : BlockQueue) : Bool :=
  decide (h ∈ s.readySet) || decide (h ∈ s.drainingSet) || decide (h ∈ s.unknownSet) ||
  decide (h ∈ s.knownBad)

def importVerified (w : World) (block : Bytes) (s : BlockQueue) : ImportResult × BlockQueue :=
  let h := BlockHeader.headerHashFromBlock C block
  if s.knows h then (.alreadyKnown, s)
  else
    match w.verifyBlock block .outOfOrderChecks with
    | none => (.malformed, s)
    | some verified =>
        let res : QueuedBlock := ⟨verified, block⟩
        if w.isKnown h then (.alreadyInChain, s)
        else if res.parentHash ∈ s.knownBad then
          (.badChain, { s with knownBad := insert (hashOf C res) s.knownBad }.updateBad C
            (hashOf C res))
        else if w.isKnown res.parentHash = false then
          (.unknownParent,
            { s with
              unknown := s.unknown.insert res.parentHash h block
              unknownSet := insert h s.unknownSet })
        else if s.verified.any fun b => b.sha3Uncles = hashOf C res then (.alreadyKnown, s)
        else (.success, { s with verified := s.verified ++ [res] }.drainVerified C)

def orphan (w : World) (parentHash : H256) (s : BlockQueue) : Bool :=
  !decide (parentHash ∈ s.readySet) && !decide (parentHash ∈ s.drainingSet) && !w.isKnown parentHash

def importBlock (w : World) (block : Bytes) (isOurs : Bool) (s : BlockQueue) :
    ImportResult × BlockQueue :=
  let h := BlockHeader.headerHashFromBlock C block
  if s.knows h then (.alreadyKnown, s)
  else
    match w.verifyBlock block { postGenesis := true } with
    | none => (.malformed, s)
    | some verified =>
        let bi := verified.info
        if w.isKnown h then (.alreadyInChain, s)
        else if !w.allowFutureBlocks && decide (w.utcTime < bi.timestamp) && !isOurs then
          (if s.orphan w bi.parentHash then .futureTimeUnknown else .futureTimeKnown,
            { s with future := s.future.insert (bi.timestamp % 2 ^ 64) h block })
        else if bi.parentHash ∈ s.knownBad then
          (.badChain,
            { s with knownBad := insert (bi.hash C .withSeal) s.knownBad }.updateBad C
              (bi.hash C .withSeal))
        else if s.orphan w bi.parentHash then
          (.unknownParent,
            { s with
              unknown := s.unknown.insert bi.parentHash h block
              unknownSet := insert h s.unknownSet })
        else
          (.success,
            { s with
              unverified := s.unverified ++ [UnverifiedBlock.mk h bi.parentHash block]
              readySet := insert h s.readySet }.noteReady h)

/-- At most `max` blocks from the front, if none are being imported. -/
def drain (max : Nat) (s : BlockQueue) : List QueuedBlock × BlockQueue :=
  if s.drainingSet = ∅ then
    let out := s.verified.take max
    let hashes := (out.map (hashOf C)).toFinset
    (out,
      { s with
        verified := s.verified.drop max
        drainingSet := s.drainingSet ∪ hashes
        readySet := s.readySet \ hashes })
  else ([], s)

def clear (s : BlockQueue) : BlockQueue := { knownBad := s.knownBad }

/-- The verifying queue with the first placeholder of the hash replaced. -/
def replace (hash : H256) (res : QueuedBlock) : List QueuedBlock → List QueuedBlock
  | [] => []
  | b :: rest => if b.sha3Uncles = hash then res :: rest else b :: replace hash res rest

def finished (w : World) (work : UnverifiedBlock) (s : BlockQueue) : BlockQueue :=
  match w.verifyBlock work.blockData .outOfOrderChecks with
  | none =>
      { s with
        readySet := s.readySet.erase work.hash
        knownBad := insert work.hash s.knownBad
        verifying := s.verifying.filter fun b => b.sha3Uncles ≠ work.hash }.drainVerified C
  | some verified =>
      let res : QueuedBlock := ⟨verified, work.blockData⟩
      match s.verifying with
      | [] => s
      | next :: rest =>
          if next.sha3Uncles = work.hash then
            (release C res { s with verifying := rest }).drainVerified C
          else { s with verifying := replace work.hash res (next :: rest) }

end BlockQueue

open BlockQueue

/-- The queue with what the threads hold: the blocks that verifiers have taken, and the blocks that
`tick` has taken out of `m_future` and is still to import. -/
structure Running where
  queue : BlockQueue := {}
  working : List UnverifiedBlock := []
  past : List (H256 × Bytes) := []

namespace Running

variable (C : Crypto) (r : Running)

def takeWork : Running :=
  match r.queue.unverified with
  | [] => r
  | work :: rest =>
      { r with
        queue :=
        { r.queue with unverified := rest, verifying := r.queue.verifying ++ [.placeholder work] }
        working := r.working ++ [work] }

def finishWork (w : World) (i : Nat) : Running :=
  match r.working[i]? with
  | none => r
  | some work => { r with queue := r.queue.finished C w work, working := r.working.eraseIdx i }

def tick (w : World) : Running :=
  let (todo, future) := r.queue.future.removeByKeyNotGreater w.utcTime
  { r with queue := { r.queue with future }, past := r.past ++ todo }

def importPast (w : World) : Running :=
  match r.past with
  | [] => r
  | b :: rest => { r with queue := (r.queue.importBlock C w b.2 false).2, past := rest }

/-- The turns of the loop of `doneDrain`; verifiers may take work between them. -/
def updateBads : List (Nat × H256) → Running → Running
  | [], r => r
  | (takes, bad) :: rest, r =>
      let r := takeWork^[takes] r
      updateBads rest { r with queue := r.queue.updateBad C bad }

def doneDrain (bad : List (Nat × H256)) : Bool × Running :=
  let knownBad := r.queue.knownBad ∪ (bad.map Prod.snd).toFinset
  let r := updateBads C bad { r with queue := { r.queue with drainingSet := ∅, knownBad } }
  (decide (r.queue.readySet ≠ ∅), r)

end Running

/-- An operation, or what a verifier thread does under the locks. -/
inductive QueueEvent
  | importVerified (w : World) (block : Bytes)
  | importBlock (w : World) (block : Bytes) (isOurs : Bool)
  | tick (w : World)
  | importPast (w : World)
  | drain (max : Nat)
  | doneDrain (bad : List (Nat × H256))
  | noteReady (good : H256)
  | retryAllUnknown
  | clear
  | takeWork
  | finishWork (w : World) (i : Nat)

def Running.step (C : Crypto) (r : Running) : QueueEvent → Running
  | .importVerified w block => { r with queue := (r.queue.importVerified C w block).2 }
  | .importBlock w block isOurs => { r with queue := (r.queue.importBlock C w block isOurs).2 }
  | .tick w => r.tick w
  | .importPast w => r.importPast C w
  | .drain max => { r with queue := (r.queue.drain C max).2 }
  | .doneDrain bad => (r.doneDrain C bad).2
  | .noteReady good => { r with queue := r.queue.noteReady good }
  | .retryAllUnknown => { r with queue := r.queue.retryAllUnknown }
  | .clear => { r with queue := r.queue.clear }
  | .takeWork => r.takeWork
  | .finishWork w i => r.finishWork C w i

/-- What is known of hashes and blocks: the hashes of lists of uncles, the parent in the header of a
given hash, hashes of blocks that are always in the chain, and the blocks whose body fits the
header. -/
structure QueueFacts where
  uncleLists : Set H256
  parentOf : H256 → H256
  rooted : Set H256 := ∅
  whole : Set Bytes := Set.univ

structure World.Lawful (C : Crypto) (F : QueueFacts) (w : World) : Prop where
  hash : ∀ {b ir v}, w.verifyBlock b ir = some v →
    v.info.hash C .withSeal = BlockHeader.headerHashFromBlock C b
  data : ∀ ir, w.verifyBlock [] ir = none
  header : ∀ {b ir v}, w.verifyBlock b ir = some v → v.info.hash C .withSeal ∉ F.uncleLists
  uncles : ∀ {b ir v}, w.verifyBlock b ir = some v → ir.uncleBasic = true →
    v.info.sha3Uncles ∈ F.uncleLists
  parent : ∀ {b ir v}, w.verifyBlock b ir = some v →
    v.info.parentHash = F.parentOf (v.info.hash C .withSeal)
  rooted : ∀ h ∈ F.rooted, w.isKnown h = true
  whole : ∀ {b ir v}, w.verifyBlock b ir = some v → b ∈ F.whole

end UtispaceChain
