import UtispaceChain.Cv.Packing
import UtispaceChain.Cv.QueueConsistency

/-! `Block::sync` without execution: the block under construction and the queue that it is packed
from. -/

namespace UtispaceChain

open Lib NonceCheck

/-- What `sync` throws at a transaction that it then drops. -/
inductive Refusal
  | blockLimitCheckFail
  | nonceCheckFail
  deriving DecidableEq, Repr

/-- What `sync` reads and writes of a block. -/
structure WorkingBlock where
  transactions : List VerifiedTransaction
  transactionSet : Finset H256
  isSealed : Bool
  deriving DecidableEq

/-- The variables of the loop, and what the log says of each transaction that was looked at. -/
structure PackingLoop where
  block : WorkingBlock
  queue : TransactionQueue
  goodTxs : Nat
  log : List (VerifiedTransaction × Option Refusal)

namespace TransactionQueue

def allTransactions (q : TransactionQueue) : List VerifiedTransaction :=
  q.current.map QueueEntry.transaction

end TransactionQueue

namespace WorkingBlock

def resetCurrent : WorkingBlock where
  transactions := []
  transactionSet := ∅
  isSealed := false

def push (t : VerifiedTransaction) (b : WorkingBlock) : WorkingBlock :=
  { b with transactions := b.transactions ++ [t], transactionSet := insert t.sha3 b.transactionSet }

end WorkingBlock

section Definitions

variable (bc : ChainIndex) (maxBlockLimit : Nat)

def WorkingBlock.check (t : VerifiedTransaction) (b : WorkingBlock) : Option Refusal :=
  if bc.isBlockLimitOk maxBlockLimit t.toTransaction = false then some .blockLimitCheckFail
  else if bc.isNonceOk t.toTransaction = false then some .nonceCheckFail
  else if b.transactions.any fun p => p.sender = t.sender && p.randomid = t.randomid then
    some .nonceCheckFail
  else none

namespace PackingLoop

def pack (t : VerifiedTransaction) (p : PackingLoop) : Option PackingLoop :=
  match p.block.check bc maxBlockLimit t with
  | none =>
      some { p with block := p.block.push t, goodTxs := p.goodTxs + 1, log := p.log ++ [(t, none)] }
  | some refusal =>
      (p.queue.drop t.sha3).map fun queue => { p with queue, log := p.log ++ [(t, some refusal)] }

/-- The limit is looked at only after a transaction that the block did not contain. -/
def loop (limit : Nat) : List VerifiedTransaction → PackingLoop → Option PackingLoop
  | [], p => some p
  | t :: ts, p =>
      if t.sha3 ∈ p.block.transactionSet then loop limit ts p
      else (p.pack bc maxBlockLimit t).bind fun p => if limit ≤ p.goodTxs then some p
        else loop limit ts p

def added (p : PackingLoop) : List VerifiedTransaction :=
  (p.log.filter fun entry => entry.2.isNone).map Prod.fst

def rejected (p : PackingLoop) : List VerifiedTransaction :=
  (p.log.filter fun entry => entry.2.isSome).map Prod.fst

end PackingLoop

/-- `Block::sync` without execution, and whether it says that there is more. It throws at a sealed
block. -/
def WorkingBlock.sync (tq : TransactionQueue) (maxBlockTxs : Nat) (b : WorkingBlock) :
    Option (PackingLoop × Bool) :=
  if b.isSealed then none
  else
    let limit := maxSyncTxs maxBlockTxs b.transactions.length
    (PackingLoop.loop bc maxBlockLimit limit tq.allTransactions ⟨b, tq, 0, []⟩).map fun p =>
      (p, decide (limit ≤ p.goodTxs))

end Definitions

/-- What is done with the block of a leader: `sync` is given any chain and any queue. -/
inductive WorkingCall
  | resetCurrent
  | sync (bc : ChainIndex) (maxBlockLimit : Nat) (tq : TransactionQueue) (maxBlockTxs : Nat)
  | sealBlock

def WorkingCall.run (b : WorkingBlock) : WorkingCall → WorkingBlock
  | resetCurrent => .resetCurrent
  | sync bc maxBlockLimit tq maxBlockTxs =>
      (b.sync bc maxBlockLimit tq maxBlockTxs).elim b fun synced => synced.1.block
  | sealBlock => { b with isSealed := true }

def WorkingBlock.built (calls : List WorkingCall) : WorkingBlock :=
  calls.foldl WorkingCall.run .resetCurrent

/-- No sender and number comes twice, no hash comes twice, and the set is that of the hashes. -/
structure WorkingBlock.Sound (b : WorkingBlock) : Prop where
  apart : (b.transactions.map fun t => generateKey t.toTransaction).Nodup
  hashes : (b.transactions.map fun t => t.sha3).Nodup
  set : b.transactionSet = (b.transactions.map fun t => t.sha3).toFinset

/-- What `sync` makes of a block and of a queue. -/
structure WithinLimits (bc : ChainIndex) (maxBlockLimit maxBlockTxs : Nat) (b : WorkingBlock)
    (tq : TransactionQueue) (p : PackingLoop) (more : Bool) : Prop where
  size : p.block.transactions.length ≤ maxBlockTxs
  sound : p.block.Sound
  transactions : p.block.transactions = b.transactions ++ p.added
  passed : ∀ t ∈ p.added, bc.isBlockLimitOk maxBlockLimit t.toTransaction = true ∧
    bc.isNonceOk t.toTransaction = true
  refused : ∀ t ∈ p.rejected,
    bc.isBlockLimitOk maxBlockLimit t.toTransaction = false ∨ bc.isNonceOk t.toTransaction = false ∨
      ∃ u ∈ p.block.transactions, generateKey u.toTransaction = generateKey t.toTransaction
  gone : ∀ t ∈ p.rejected, ∀ u ∈ p.queue.allTransactions, u.sha3 ≠ t.sha3
  order : p.added.Sublist tq.allTransactions
  settled : more = false → ∀ t ∈ tq.allTransactions, t.sha3 ∈ p.block.transactionSet ∨
    t ∈ p.rejected

namespace TransactionQueue

variable {q q' : TransactionQueue} {h : H256}

theorem Sound.drop_offered (sound : q.Sound) (done : q.drop h = some q') :
    q'.allTransactions = q.allTransactions.filter fun t => t.sha3 ≠ h := by
  have unlisted : q.currentByHash[h]? = none → q.allTransactions = q.allTransactions.filter fun t =>
      t.sha3 ≠ h := by
    intro unlisted
    refine (List.filter_eq_self.mpr fun t member => ?_).symm
    rcases List.mem_map.mp member with ⟨e, present, rfl⟩
    refine decide_eq_true fun same => ?_
    have listed := (sound.inv.good.byHash _ _).mpr ⟨e, present, same, rfl⟩
    change q.currentByHash[h]? = _ at listed
    rw [unlisted] at listed
    cases listed
  unfold TransactionQueue.drop at done
  cases listed : q.currentByHash[h]? with
  | none =>
      split_ifs at done
      · rw [removeWithLock, listed] at done
        cases done
        exact unlisted listed
      · cases done
        exact unlisted listed
  | some handle =>
      rcases (sound.inv.good.byHash _ _).mp listed with ⟨e, present, rfl, -⟩
      rw [if_pos (sound.known _ (.inl ⟨e, present, rfl⟩))] at done
      have inv : ({ q with dropped := insert e.transaction.sha3 q.dropped } : TransactionQueue).Inv
          (q.limit + q.futureLimit) := ⟨sound.inv.good, sound.inv.slots, sound.inv.futures⟩
      rcases inv.removeWithLock present with ⟨removed, again, view, -⟩
      cases done.symm.trans again
      have current : q'.current = q.current.filter fun x => x.handle ≠ e.handle :=
        congrArg QueueView.current view
      rw [allTransactions, allTransactions, current, List.filter_map]
      refine congrArg _ (List.filter_congr fun x member => decide_eq_decide.mpr (not_congr ?_))
      exact ⟨fun same => congrArg (fun e => e.transaction.sha3)
        (sound.inv.good.eq_of_handle member present same), fun same => congrArg QueueEntry.handle
        (sound.inv.good.eq_of_hash member present same)⟩

end TransactionQueue

section Block

variable {bc : ChainIndex} {maxBlockLimit : Nat} {b : WorkingBlock} {t : VerifiedTransaction}

theorem WorkingBlock.check_none (passed : b.check bc maxBlockLimit t = none) :
    bc.isBlockLimitOk maxBlockLimit t.toTransaction = true ∧ bc.isNonceOk t.toTransaction = true ∧
      generateKey t.toTransaction ∉ b.transactions.map fun u => generateKey u.toTransaction := by
  unfold check at passed
  split_ifs at passed with limit nonce apart
  refine ⟨eq_true_of_ne_false limit, eq_true_of_ne_false nonce, fun present => apart ?_⟩
  rcases List.mem_map.mp present with ⟨u, member, same⟩
  have fields : u.sender = t.sender ∧ u.randomid = t.randomid := Prod.mk.inj same
  apply List.any_eq_true.mpr
  exact ⟨u, member, by simp [fields.1, fields.2]⟩

theorem WorkingBlock.check_some {refusal : Refusal}
    (refused : b.check bc maxBlockLimit t = some refusal) :
    bc.isBlockLimitOk maxBlockLimit t.toTransaction = false ∨ bc.isNonceOk t.toTransaction = false ∨
      ∃ u ∈ b.transactions, generateKey u.toTransaction = generateKey t.toTransaction := by
  unfold check at refused
  split_ifs at refused with limit nonce apart
  · exact .inl limit
  · exact .inr (.inl nonce)
  · rcases List.any_eq_true.mp apart with ⟨u, member, same⟩
    have fields : u.sender = t.sender ∧ u.randomid = t.randomid := by simpa using same
    exact .inr (.inr ⟨u, member, Prod.ext fields.1 fields.2⟩)

theorem WorkingBlock.Sound.push (sound : b.Sound) (new : t.sha3 ∉ b.transactionSet)
    (apart : generateKey t.toTransaction ∉ b.transactions.map
      fun u => generateKey u.toTransaction) :
    (b.push t).Sound where
  apart := by
    rw [WorkingBlock.push, List.map_append, List.map_singleton, ← List.concat_eq_append]
    exact sound.apart.concat apart
  hashes := by
    rw [sound.set, List.mem_toFinset] at new
    rw [WorkingBlock.push, List.map_append, List.map_singleton, ← List.concat_eq_append]
    exact sound.hashes.concat new
  set := by
    rw [WorkingBlock.push, List.map_append, List.toFinset_append, ← sound.set]
    exact (Finset.insert_eq _ _).trans (Finset.union_comm _ _)

namespace PackingLoop

variable {p p' : PackingLoop} {limit : Nat}

theorem pack_block (done : p.pack bc maxBlockLimit t = some p')
    (new : t.sha3 ∉ p.block.transactionSet) (sound : p.block.Sound) : p'.block.Sound := by
  unfold pack at done
  split at done
  · rename_i passed
    cases done
    exact sound.push new (WorkingBlock.check_none passed).2.2
  · rcases Option.map_eq_some_iff.mp done with ⟨queue, -, rfl⟩
    exact sound

theorem loop_block (ts : List VerifiedTransaction)
    (done : p.loop bc maxBlockLimit limit ts = some p') (sound : p.block.Sound) :
    p'.block.Sound := by
  induction ts generalizing p with
  | nil =>
      cases done
      exact sound
  | cons t ts ih =>
      unfold loop at done
      split_ifs at done with contained
      · exact ih done sound
      · rcases Option.bind_eq_some_iff.mp done with ⟨packed, first, rest⟩
        have packed_sound := pack_block first contained sound
        split_ifs at rest
        · cases rest
          exact packed_sound
        · exact ih rest packed_sound

end PackingLoop

theorem WorkingBlock.Sound.run (sound : b.Sound) (call : WorkingCall) : (call.run b).Sound := by
  cases call with
  | resetCurrent => exact ⟨List.nodup_nil, List.nodup_nil, rfl⟩
  | sealBlock => exact ⟨sound.apart, sound.hashes, sound.set⟩
  | sync bc maxBlockLimit tq maxBlockTxs =>
      change ((b.sync bc maxBlockLimit tq maxBlockTxs).elim b fun synced => synced.1.block).Sound
      cases synced : b.sync bc maxBlockLimit tq maxBlockTxs with
      | none => exact sound
      | some result =>
          unfold WorkingBlock.sync at synced
          split_ifs at synced
          rcases Option.map_eq_some_iff.mp synced with ⟨p, done, rfl⟩
          exact PackingLoop.loop_block _ done sound

theorem WorkingBlock.built_sound (calls : List WorkingCall) : (built calls).Sound := by
  induction calls using List.reverseRecOn with
  | nil => exact ⟨List.nodup_nil, List.nodup_nil, rfl⟩
  | append_singleton calls call ih =>
      rw [built, List.foldl_append]
      exact ih.run call

end Block

section Sync

variable {bc : ChainIndex} {maxBlockLimit maxBlockTxs limit : Nat} {b : WorkingBlock}
    {tq : TransactionQueue} {seen : List VerifiedTransaction} {p : PackingLoop}
    {t : VerifiedTransaction}

/-- What holds while the loop runs, of the transactions that it has come to. -/
structure PackingLoop.Kept (bc : ChainIndex) (maxBlockLimit : Nat) (b : WorkingBlock)
    (tq : TransactionQueue) (seen : List VerifiedTransaction) (p : PackingLoop) : Prop where
  block : p.block.Sound
  queue : p.queue.Sound
  transactions : p.block.transactions = b.transactions ++ p.added
  counted : p.goodTxs = p.added.length
  passed : ∀ t ∈ p.added, bc.isBlockLimitOk maxBlockLimit t.toTransaction = true ∧
    bc.isNonceOk t.toTransaction = true
  refused : ∀ t ∈ p.rejected,
    bc.isBlockLimitOk maxBlockLimit t.toTransaction = false ∨ bc.isNonceOk t.toTransaction = false ∨
      ∃ u ∈ p.block.transactions, generateKey u.toTransaction = generateKey t.toTransaction
  offered : p.queue.allTransactions = tq.allTransactions.filter fun t => t.sha3 ∉ p.rejected.map
    fun u => u.sha3
  order : p.added.Sublist seen
  settled : ∀ t ∈ seen, t.sha3 ∈ p.block.transactionSet ∨ t ∈ p.rejected

namespace PackingLoop

variable {p' : PackingLoop} {refusal : Refusal}

theorem added_packed (log : p'.log = p.log ++ [(t, none)]) : p'.added = p.added ++ [t] := by
  rw [added, log, List.filter_append, List.map_append]
  rfl

theorem rejected_packed (log : p'.log = p.log ++ [(t, none)]) : p'.rejected = p.rejected := by
  rw [rejected, log, List.filter_append, List.map_append]
  exact List.append_nil _

theorem added_dropped (log : p'.log = p.log ++ [(t, some refusal)]) : p'.added = p.added := by
  rw [added, log, List.filter_append, List.map_append]
  exact List.append_nil _

theorem rejected_dropped (log : p'.log = p.log ++ [(t, some refusal)]) :
    p'.rejected = p.rejected ++ [t] := by
  rw [rejected, log, List.filter_append, List.map_append]
  rfl

theorem Kept.start (sound : b.Sound) (queue : tq.Sound) :
    Kept bc maxBlockLimit b tq [] ⟨b, tq, 0, []⟩ where
  block := sound
  queue := queue
  transactions := (List.append_nil _).symm
  counted := rfl
  passed _ none := absurd none List.not_mem_nil
  refused _ none := absurd none List.not_mem_nil
  offered := (List.filter_eq_self.mpr fun _ _ => rfl).symm
  order := List.Sublist.slnil
  settled _ none := absurd none List.not_mem_nil

theorem Kept.contained (kept : Kept bc maxBlockLimit b tq seen p)
    (contained : t.sha3 ∈ p.block.transactionSet) :
    Kept bc maxBlockLimit b tq (seen ++ [t]) p :=
  { kept with
    order := kept.order.trans (List.sublist_append_left _ _)
    settled := by
      intro u member
      rcases List.mem_append.mp member with before | last
      · exact kept.settled u before
      · rw [List.mem_singleton.mp last]
        exact .inl contained }

theorem Kept.pack (kept : Kept bc maxBlockLimit b tq seen p)
    (new : t.sha3 ∉ p.block.transactionSet) :
    ∃ p', p.pack bc maxBlockLimit t = some p' ∧ Kept bc maxBlockLimit b tq (seen ++ [t]) p' ∧
      p'.goodTxs ≤ p.goodTxs + 1 := by
  unfold PackingLoop.pack
  cases checked : p.block.check bc maxBlockLimit t with
  | none =>
      let packed :=
        { p with block := p.block.push t, goodTxs := p.goodTxs + 1, log := p.log ++ [(t, none)] }
      have added : packed.added = p.added ++ [t] := added_packed rfl
      have rejected : packed.rejected = p.rejected := rejected_packed rfl
      refine ⟨packed, rfl, ?_, le_rfl⟩
      rcases WorkingBlock.check_none checked with ⟨limit, nonce, apart⟩
      constructor
      · exact kept.block.push new apart
      · exact kept.queue
      · rw [added, ← List.append_assoc, ← kept.transactions]
        rfl
      · rw [added, List.length_append, ← kept.counted]
        rfl
      · rw [added]
        intro u member
        rcases List.mem_append.mp member with before | last
        · exact kept.passed u before
        · rw [List.mem_singleton.mp last]
          exact ⟨limit, nonce⟩
      · rw [rejected]
        intro u member
        exact (kept.refused u member).imp_right (Or.imp_right fun ⟨v, packed, same⟩ =>
          ⟨v, List.mem_append_left _ packed, same⟩)
      · rw [rejected]
        exact kept.offered
      · rw [added]
        exact kept.order.append (List.Sublist.refl _)
      · rw [rejected]
        intro u member
        rcases List.mem_append.mp member with before | last
        · exact (kept.settled u before).imp_left (Finset.mem_insert_of_mem ·)
        · rw [List.mem_singleton.mp last]
          exact .inl (Finset.mem_insert_self _ _)
  | some refusal =>
      rcases kept.queue.drop t.sha3 with ⟨queue, done, sound, -⟩
      have offered := kept.queue.drop_offered done
      dsimp only
      rw [done, Option.map_some]
      let dropped := { p with queue, log := p.log ++ [(t, some refusal)] }
      have added : dropped.added = p.added := added_dropped rfl
      have rejected : dropped.rejected = p.rejected ++ [t] := rejected_dropped rfl
      refine ⟨dropped, rfl, ?_, Nat.le_succ _⟩
      constructor
      · exact kept.block
      · exact sound
      · rw [added]
        exact kept.transactions
      · rw [added]
        exact kept.counted
      · rw [added]
        exact kept.passed
      · rw [rejected]
        intro u member
        rcases List.mem_append.mp member with before | last
        · exact kept.refused u before
        · rw [List.mem_singleton.mp last]
          exact WorkingBlock.check_some checked
      · rw [rejected]
        refine offered.trans ?_
        rw [kept.offered, List.filter_filter]
        refine List.filter_congr fun u _ => ?_
        rw [← Bool.decide_and]
        apply decide_eq_decide.mpr
        rw [List.map_append, List.mem_append, not_or, List.map_singleton, List.mem_singleton]
        exact and_comm
      · rw [added]
        exact kept.order.trans (List.sublist_append_left _ _)
      · rw [rejected]
        intro u member
        rcases List.mem_append.mp member with before | last
        · exact (kept.settled u before).imp_right (List.mem_append_left _ ·)
        · rw [List.mem_singleton.mp last]
          exact .inr (List.mem_append_right _ List.mem_cons_self)

theorem Kept.loop (limit : Nat) (ts : List VerifiedTransaction)
    (kept : Kept bc maxBlockLimit b tq seen p) (below : p.goodTxs < max limit 1) :
    ∃ p' looked rest, p.loop bc maxBlockLimit limit ts = some p' ∧ ts = looked ++ rest ∧
      Kept bc maxBlockLimit b tq (seen ++ looked) p' ∧ p'.goodTxs ≤ max limit 1 ∧
      (rest = [] ∨ limit ≤ p'.goodTxs) := by
  induction ts generalizing seen p with
  | nil => exact ⟨p, [], [], rfl, rfl, (List.append_nil seen).symm ▸ kept, below.le, .inl rfl⟩
  | cons t ts ih =>
      unfold PackingLoop.loop
      split_ifs with contained
      · rcases ih (kept.contained contained) below with
          ⟨p', looked, rest, done, split, kept', few, full⟩
        refine ⟨p', t :: looked, rest, done, congrArg (t :: ·) split, ?_, few, full⟩
        rw [List.append_cons]
        exact kept'
      · rcases kept.pack contained with ⟨p₁, first, kept₁, more⟩
        rw [first, Option.bind_some]
        split_ifs with full
        · exact ⟨p₁, [t], ts, rfl, rfl, kept₁, by omega, .inr full⟩
        · rcases ih kept₁ (by omega) with ⟨p', looked, rest, done, split, kept', few, ended⟩
          refine ⟨p', t :: looked, rest, done, congrArg (t :: ·) split, ?_, few, ended⟩
          rw [List.append_cons]
          exact kept'

end PackingLoop

/-! The same loop as the one over a list of candidates, if every candidate can be executed. -/

theorem maxSyncTxs_room {packed : Nat} (room : packed < maxBlockTxs)
    (addressable : packed < 2 ^ 64) :
    packed + max (maxSyncTxs maxBlockTxs packed) 1 ≤ maxBlockTxs := by
  unfold maxSyncTxs
  split_ifs with unlimited
  · rw [unlimited, Invalid256]
    omega
  · have cut : toUnsigned (maxBlockTxs - packed) ≤ maxBlockTxs - packed := Nat.mod_le _ _
    omega

theorem WorkingBlock.sync_within (bc : ChainIndex) (maxBlockLimit : Nat) (sound : b.Sound)
    (queue : tq.Sound) (unsealed : b.isSealed = false) (room : b.transactions.length < maxBlockTxs)
    (addressable : b.transactions.length < 2 ^ 64) :
    ∃ p more, b.sync bc maxBlockLimit tq maxBlockTxs = some (p, more) ∧
      WithinLimits bc maxBlockLimit maxBlockTxs b tq p more := by
  have start : PackingLoop.Kept bc maxBlockLimit b tq [] ⟨b, tq, 0, []⟩ := .start sound queue
  rcases start.loop (maxSyncTxs maxBlockTxs b.transactions.length) tq.allTransactions
    (by change 0 < _; omega) with ⟨p, looked, rest, done, split, kept, few, ended⟩
  rw [List.nil_append] at kept
  unfold WorkingBlock.sync
  rw [unsealed, if_neg Bool.false_ne_true]
  dsimp only
  rw [done, Option.map_some]
  refine ⟨p, _, rfl, ?_⟩
  constructor
  · rw [kept.transactions, List.length_append, ← kept.counted]
    exact (Nat.add_le_add_left few _).trans (maxSyncTxs_room room addressable)
  · exact kept.block
  · exact kept.transactions
  · exact kept.passed
  · exact kept.refused
  · intro t rejected u offered same
    rw [kept.offered] at offered
    have apart := of_decide_eq_true (List.mem_filter.mp offered).2
    exact apart (List.mem_map.mpr ⟨t, rejected, same.symm⟩)
  · rw [split]
    exact kept.order.trans (List.sublist_append_left _ _)
  · intro all t member
    rw [split, ended.resolve_right (of_decide_eq_false all), List.append_nil] at member
    exact kept.settled t member

end Sync

/-- Over every queue and every block under construction with room left, `sync` packs within its
limits. -/
theorem sync_within_limits (limit futureLimit : Nat) (choice : Nat → Nat) (positive : 0 < limit)
    (fits : limit + futureLimit < 2 ^ 32) (queueCalls : List TransactionQueue.Call)
    (genuine : ∀ c ∈ queueCalls, c.Genuine) (blockCalls : List WorkingCall) (bc : ChainIndex)
    (maxBlockLimit maxBlockTxs : Nat) (unsealed : (WorkingBlock.built blockCalls).isSealed = false)
    (room : (WorkingBlock.built blockCalls).transactions.length < maxBlockTxs)
    (addressable : (WorkingBlock.built blockCalls).transactions.length < 2 ^ 64) :
    ∃ tq p more, (TransactionQueue.opened limit futureLimit choice).run queueCalls = some tq ∧
      (WorkingBlock.built blockCalls).sync bc maxBlockLimit tq maxBlockTxs = some (p, more) ∧
        WithinLimits bc maxBlockLimit maxBlockTxs (WorkingBlock.built blockCalls) tq p more := by
  have opened : (TransactionQueue.opened limit futureLimit choice).Sound :=
    TransactionQueue.sound_of_empty limit futureLimit 0 ∅ choice
  rcases opened.run queueCalls positive fits genuine with ⟨tq, reached, sound, -⟩
  rcases WorkingBlock.sync_within bc maxBlockLimit (WorkingBlock.built_sound blockCalls) sound
    unsealed room addressable with ⟨p, more, done, within⟩
  exact ⟨tq, p, more, reached, done, within⟩

def newChain : ChainIndex := .opened 1 10 0 1000

/-- The leader has packed a transaction; then its sender sends another with the same number, and one
more. -/
def packedOnce : List WorkingCall :=
  [.sync newChain 1000
    { TransactionQueue.opened 4 4 id with current := [⟨0, TransactionQueue.sentAt 9 7 1 5 1⟩] } 5]

def sentAgain : List TransactionQueue.Call :=
  [TransactionQueue.importing (TransactionQueue.sentAt 1 7 1 5 10),
    TransactionQueue.importing (TransactionQueue.sentAt 2 7 2 5 11),
    TransactionQueue.importing (TransactionQueue.sentAt 3 8 1 5 12)]

theorem sync_within_limits_sentAgain :
    ((TransactionQueue.opened 4 4 id).run sentAgain).bind (fun tq =>
      ((WorkingBlock.built packedOnce).sync newChain 1000 tq 2).map fun synced =>
        (synced.1.block.transactions.map fun t => t.sha3, synced.1.rejected.map fun t => t.sha3,
          synced.1.queue.allTransactions.map fun t => t.sha3, synced.2)) =
            some ([9, 2], [1], [2, 3], true) ∧
      ∃ tq p more, (TransactionQueue.opened 4 4 id).run sentAgain = some tq ∧
        (WorkingBlock.built packedOnce).sync newChain 1000 tq 2 = some (p, more) ∧
          WithinLimits newChain 1000 2 (WorkingBlock.built packedOnce) tq p more := by
  refine ⟨by decide +kernel,
    sync_within_limits 4 4 id (by decide) (by decide) sentAgain ?_ packedOnce newChain 1000 2
    (by decide +kernel) (by decide +kernel) (by decide +kernel)⟩
  intro c member
  simp only [sentAgain, List.mem_cons, List.not_mem_nil, or_false] at member
  rcases member with rfl | rfl | rfl
  all_goals rfl

end UtispaceChain
