import Mathlib.Data.List.Nodup
import UtispaceChain.CvCore.BlockHeader
import UtispaceChain.Cv.NonceWindow

/-! Packing: the checks of `Block::sync`, and the chains that grow by packed blocks only. -/

namespace UtispaceChain

open Lib NonceCheck

/-- `isBlockLimitOk` of a chain of the given height. -/
def blockLimitOk (maxBlockLimit number : Nat) (t : Transaction) : Bool :=
  !(decide (t.blockLimit = Invalid256) || decide (t.blockLimit ≤ number) ||
    decide (u256Add number maxBlockLimit < t.blockLimit))

/-- One call of `Block::sync`: the queue, the block size asked for, and whether a candidate can be
executed on top of what is packed. -/
structure SyncCall where
  candidates : List Transaction
  maxBlockTxs : Nat
  executes : List Transaction → Transaction → Bool

/-- A block packed in some calls, and the outside of its import. -/
structure SyncedBlock where
  calls : List SyncCall
  hash : H256
  difficulty : Nat
  gasUsed : Nat
  run : ImportRun

def maxSyncTxs (maxBlockTxs packed : Nat) : Nat :=
  if maxBlockTxs = Invalid256 then 100
  else toUnsigned (if packed < maxBlockTxs then maxBlockTxs - packed else 0)

namespace ChainIndex

section Definitions

variable (bc : ChainIndex) (maxBlockLimit : Nat)

def isBlockLimitOk (t : Transaction) : Bool := blockLimitOk maxBlockLimit bc.number t

def isNonceOk (t : Transaction) : Bool :=
  !decide (t.randomid = Invalid256) && (bc.nonceCheck.ok t false).1

/-- The checks of one candidate against the chain and against what is packed. -/
def admits (executes : List Transaction → Transaction → Bool) (packed : List Transaction)
    (t : Transaction) : Bool :=
  bc.isBlockLimitOk maxBlockLimit t && bc.isNonceOk t &&
    packed.all (fun p => !(decide (p.sender = t.sender) && decide (p.randomid = t.randomid))) &&
    executes packed t

/-- The loop of `Block::sync`; the limit is looked at after each candidate that was not packed
before. -/
def syncLoop (executes : List Transaction → Transaction → Bool) (limit : Nat) :
    List Transaction → Nat → List Transaction → List Transaction
  | [], _, packed => packed
  | t :: rest, goodTxs, packed =>
      if packed.any fun p => decide (p.sha3 = t.sha3) then
        syncLoop executes limit rest goodTxs packed
      else if bc.admits maxBlockLimit executes packed t then
        if limit ≤ goodTxs + 1 then packed ++ [t]
        else syncLoop executes limit rest (goodTxs + 1) (packed ++ [t])
      else if limit ≤ goodTxs then packed
      else syncLoop executes limit rest goodTxs packed

def syncCall (packed : List Transaction) (call : SyncCall) : List Transaction :=
  bc.syncLoop maxBlockLimit call.executes (maxSyncTxs call.maxBlockTxs packed.length)
    call.candidates 0
    packed

/-- On top of this chain some calls of `Block::sync` pack just these transactions. -/
def Packs (transactions : List Transaction) : Prop :=
  ∃ calls : List SyncCall, calls.foldl (bc.syncCall maxBlockLimit) [] = transactions

def packedBlock (p : SyncedBlock) : ChainBlock :=
  ⟨p.hash, bc.currentHash, bc.number + 1, p.difficulty, p.gasUsed,
    p.calls.foldl (bc.syncCall maxBlockLimit) []⟩

def packStep (maxblocksize : Nat) (p : SyncedBlock) : ChainIndex :=
  bc.importBlock { p.run with maxblocksize } (bc.packedBlock maxBlockLimit p)

/-- What tells a transaction apart, for every transaction of the chain above the genesis block. -/
def identities : List (Nat × Nat × Nat) :=
  (List.range' 1 bc.number).flatMap fun n =>
    (bc.transactionsAt n).map fun t => (t.sender, t.randomid, t.blockLimit)

end Definitions

/-- What the checks of `Block::sync` ask of the transactions of a block. -/
structure Checked (bc : ChainIndex) (maxBlockLimit : Nat) (transactions : List Transaction) :
    Prop where
  limit : ∀ t ∈ transactions, bc.isBlockLimitOk maxBlockLimit t = true
  nonce : ∀ t ∈ transactions, bc.isNonceOk t = true
  distinct : (transactions.map generateKey).Nodup

/-- What they make sure of. -/
structure Packable (bc : ChainIndex) (maxBlockLimit : Nat) (transactions : List Transaction) :
    Prop where
  limit : ∀ t ∈ transactions, bc.number < t.blockLimit ∧ t.blockLimit ≤ bc.number + maxBlockLimit
  fresh : ∀ t ∈ transactions, generateKey t ∉ bc.nonceCheck.cache
  distinct : (transactions.map generateKey).Nodup

section Packing

variable {bc : ChainIndex} {maxBlockLimit : Nat}

theorem blockLimitOk_spec (number : Nat) (t : Transaction)
    (passed : blockLimitOk maxBlockLimit number t = true) :
    number < t.blockLimit ∧ t.blockLimit ≤ number + maxBlockLimit := by
  simp only [blockLimitOk, Bool.not_eq_true', Bool.or_eq_false_iff, decide_eq_false_iff_not]
    at passed
  obtain ⟨⟨-, above⟩, below⟩ := passed
  have sum : u256Add number maxBlockLimit ≤ number + maxBlockLimit := Nat.mod_le _ _
  omega

theorem isNonceOk_iff (t : Transaction) :
    bc.isNonceOk t = true ↔ t.randomid ≠ Invalid256 ∧ generateKey t ∉ bc.nonceCheck.cache := by
  by_cases present : generateKey t ∈ bc.nonceCheck.cache <;> simp [isNonceOk, ok, present]

theorem Checked.packable {transactions : List Transaction}
    (checked : bc.Checked maxBlockLimit transactions) : bc.Packable maxBlockLimit transactions :=
  ⟨fun t member => blockLimitOk_spec bc.number t (checked.limit t member),
    fun t member => ((isNonceOk_iff t).mp (checked.nonce t member)).2, checked.distinct⟩

theorem admits_iff {packed : List Transaction} {t : Transaction}
    {executes : List Transaction → Transaction → Bool} :
    bc.admits maxBlockLimit executes packed t = true ↔
      bc.isBlockLimitOk maxBlockLimit t = true ∧ bc.isNonceOk t = true ∧
        generateKey t ∉ packed.map generateKey ∧ executes packed t = true := by
  have apart : (packed.all fun p => !(decide (p.sender = t.sender) &&
      decide (p.randomid = t.randomid))) = true ↔ generateKey t ∉ packed.map generateKey := by
    simp [generateKey, imp_iff_not_or]
  simp only [admits, Bool.and_eq_true, apart, and_assoc]

theorem Checked.append {packed : List Transaction} {t : Transaction}
    {executes : List Transaction → Transaction → Bool} (checked : bc.Checked maxBlockLimit packed)
    (admitted : bc.admits maxBlockLimit executes packed t = true) :
    bc.Checked maxBlockLimit (packed ++ [t]) := by
  obtain ⟨limit, nonce, apart, -⟩ := admits_iff.mp admitted
  refine ⟨?_, ?_, ?_⟩
  · exact List.forall_mem_append.mpr ⟨checked.limit, List.forall_mem_singleton.mpr limit⟩
  · exact List.forall_mem_append.mpr ⟨checked.nonce, List.forall_mem_singleton.mpr nonce⟩
  · rw [List.map_append, List.map_singleton, ← List.concat_eq_append]
    exact checked.distinct.concat apart

theorem Checked.syncLoop (executes : List Transaction → Transaction → Bool) (limit : Nat)
    (candidates : List Transaction) (goodTxs : Nat) (packed : List Transaction)
    (checked : bc.Checked maxBlockLimit packed) :
    bc.Checked maxBlockLimit
      (bc.syncLoop maxBlockLimit executes limit candidates goodTxs packed) := by
  induction candidates generalizing goodTxs packed with
  | nil => exact checked
  | cons t rest ih =>
      rw [ChainIndex.syncLoop]
      split_ifs with known admitted full full
      · exact ih goodTxs packed checked
      · exact checked.append admitted
      · exact ih (goodTxs + 1) (packed ++ [t]) (checked.append admitted)
      · exact checked
      · exact ih goodTxs packed checked

theorem Checked.calls (calls : List SyncCall) (packed : List Transaction)
    (checked : bc.Checked maxBlockLimit packed) :
    bc.Checked maxBlockLimit (calls.foldl (bc.syncCall maxBlockLimit) packed) := by
  induction calls generalizing packed with
  | nil => exact checked
  | cons call rest ih => exact ih _ (checked.syncLoop _ _ _ _ _)

theorem Checked.nil (bc : ChainIndex) (maxBlockLimit : Nat) : bc.Checked maxBlockLimit [] :=
  ⟨fun _ none => absurd none List.not_mem_nil, fun _ none => absurd none List.not_mem_nil,
    List.nodup_nil⟩

theorem packedBlock_packable (bc : ChainIndex) (maxBlockLimit : Nat) (p : SyncedBlock) :
    bc.Packable maxBlockLimit (bc.packedBlock maxBlockLimit p).transactions :=
  (Checked.calls p.calls [] (Checked.nil bc maxBlockLimit)).packable

/-- Transactions that pass are packed, one in a call. -/
theorem Checked.packed {packed rest : List Transaction}
    (checked : bc.Checked maxBlockLimit (packed ++ rest))
    (one : ∀ t ∈ packed ++ rest, ∀ u ∈ packed ++ rest, t.sha3 = u.sha3 → t = u) :
    (rest.map fun t => (⟨[t], Invalid256, fun _ _ => true⟩ : SyncCall)).foldl
      (bc.syncCall maxBlockLimit) packed = packed ++ rest := by
  induction rest generalizing packed with
  | nil => exact (List.append_nil packed).symm
  | cons t rest ih =>
      have whole : packed ++ t :: rest = (packed ++ [t]) ++ rest := by simp
      have inside : t ∈ packed ++ t :: rest := List.mem_append_right _ List.mem_cons_self
      have apart : generateKey t ∉ packed.map generateKey := by
        have distinct := checked.distinct
        rw [List.map_append, List.nodup_append] at distinct
        exact fun old => distinct.2.2 _ old _ (List.mem_map_of_mem List.mem_cons_self) rfl
      have new : (packed.any fun p => decide (p.sha3 = t.sha3)) = false := by
        rw [List.any_eq_false]
        intro p member same
        have equal := one p (List.mem_append_left _ member) t inside (of_decide_eq_true same)
        exact apart (equal ▸ List.mem_map_of_mem member)
      have admitted : bc.admits maxBlockLimit (fun _ _ => true) packed t = true :=
        admits_iff.mpr ⟨checked.limit t inside, checked.nonce t inside, apart, rfl⟩
      have packs : bc.syncCall maxBlockLimit packed ⟨[t], Invalid256, fun _ _ => true⟩ =
          packed ++ [t] := by
        simp [syncCall, ChainIndex.syncLoop, new, admitted]
      rw [List.map_cons, List.foldl_cons, packs, whole]
      rw [whole] at checked one
      exact ih checked one

theorem packs_iff {transactions : List Transaction}
    (one : ∀ t ∈ transactions, ∀ u ∈ transactions, t.sha3 = u.sha3 → t = u) :
    bc.Packs maxBlockLimit transactions ↔ bc.Checked maxBlockLimit transactions := by
  constructor
  · rintro ⟨calls, rfl⟩
    exact Checked.calls calls [] (Checked.nil bc maxBlockLimit)
  · intro checked
    have whole : bc.Checked maxBlockLimit ([] ++ transactions) := checked
    exact ⟨_, whole.packed one⟩

end Packing

section Growth

variable {bc : ChainIndex} {maxBlockLimit maxblocksize : Nat} {p : SyncedBlock}

theorem toUnsigned_twice (x : Nat) : toUnsigned (toUnsigned x) = toUnsigned x := Nat.mod_mod _ _

theorem updateNonceCheck_toUnsigned (bc : ChainIndex) (maxblocksize : Nat) (rebuild : Bool) :
    bc.updateNonceCheck (toUnsigned maxblocksize) rebuild =
      bc.updateNonceCheck maxblocksize rebuild := by
  simp only [updateNonceCheck, updateCache, windowStart, toUnsigned_twice]

theorem importBlock_toUnsigned (bc : ChainIndex) (run : ImportRun) (b : ChainBlock)
    (maxblocksize : Nat) :
    bc.importBlock { run with maxblocksize := toUnsigned maxblocksize } b =
      bc.importBlock { run with maxblocksize } b := by
  simp only [importBlock, importValid, adopt, updateNonceCheck_toUnsigned]
  rfl

theorem treeRoute_self (bc : ChainIndex) {h : H256} (nonzero : h ≠ 0) :
    (bc.treeRoute h h).common = h := by
  have level : bc.numberOf h - bc.numberOf h = 0 := Nat.sub_self _
  simp only [treeRoute, nonzero, or_self, if_false, level, climb]
  cases min (bc.numberOf h) (bc.numberOf h) with
  | zero => rfl
  | succ fuel => simp [meet]

theorem importKind_extends {run : ImportRun} {b : ChainBlock} (inv : bc.Indexed)
    (on : b.parentHash = bc.currentHash) : bc.importKind run b ≠ .switches := by
  have nonzero : bc.lastBlockHash ≠ 0 := by
    intro zero
    have head := inv.head
    rw [zero, inv.tree.nonzero] at head
    cases head
  have common : (bc.treeRoute bc.lastBlockHash b.parentHash).common = bc.lastBlockHash := by
    rw [on]
    exact bc.treeRoute_self nonzero
  intro kind
  unfold importKind at kind
  cases passed : bc.checked run b with
  | none => simp [passed] at kind
  | some pd =>
      cases enacted : run.enacted <;> simp [passed, enacted, common] at kind
      split at kind <;> cases kind

inductive Grows (bc s : ChainIndex) (b : ChainBlock) : Prop
  | same : s.number = bc.number → (∀ n ≤ bc.number, s.transactionsAt n = bc.transactionsAt n) →
  Grows bc s b
  | more : s.number = bc.number + 1 → bc.number + 1 < 2 ^ 32 - 1 →
      (∀ n ≤ bc.number, s.transactionsAt n = bc.transactionsAt n) →
      s.transactionsAt (bc.number + 1) = b.transactions → Grows bc s b

theorem importBlock_grows (inv : bc.Indexed) (run : ImportRun) (b : ChainBlock)
    (clear : bc.Unambiguous b) (on : b.parentHash = bc.currentHash)
    (next : b.number = bc.number + 1) :
    Grows bc (bc.importBlock run b) b := by
  have after := inv.importBlock run b clear.1 clear.2
  have result := importBlock_cases inv run b clear.1 clear.2
  cases kind : bc.importKind run b with
  | refused =>
      simp only [kind] at result
      rw [result]
      exact Grows.same rfl fun _ _ => rfl
  | collected =>
      simp only [kind] at result
      rw [result]
      exact Grows.same rfl fun _ _ => rfl
  | notBest =>
      simp only [kind] at result
      obtain ⟨fits, td, result⟩ := result
      rw [result]
      exact Grows.same rfl fun n bound => fits.transactions_insert td
        (inv.numberHash_stored n bound)
  | continues =>
      have small : bc.number + 1 < 2 ^ 32 - 1 := by
        cases passed : bc.checked run b with
        | none => simp [importKind, passed] at kind
        | some pd => exact next ▸ (checked_spec inv run b clear.1 clear.2 pd passed).2.2
      simp only [kind] at result
      obtain ⟨fits, td, joined, adopts⟩ := result
      refine Grows.more (adopts.number.trans next) small
        (fun n bound => joined.transactionsAt_eq inv after fits adopts n bound) ?_
      rw [← next]
      exact adopts.transactionsAt_new after
  | switches => exact absurd kind (importKind_extends inv on)

theorem Indexed.transactionsAt_genesis (inv : bc.Indexed) : bc.transactionsAt 0 = [] := by
  have hash : bc.numberHash 0 = bc.genesis.hash := rfl
  simp only [transactionsAt, transactions, hash, inv.tree.genesis]
  exact inv.tree.origin.2

/-- What packing keeps of a chain: the window of the nonce check, the range of the block limits, and
keys that are apart as long as both blocks are in the window. -/
structure Packed (bc : ChainIndex) (maxBlockLimit maxblocksize : Nat) : Prop where
  indexed : bc.Indexed
  window : bc.WindowExact (toUnsigned maxblocksize)
  limits : ∀ n ≤ bc.number, ∀ t ∈ bc.transactionsAt n, n ≤ t.blockLimit ∧
    t.blockLimit < n + maxBlockLimit
  apart : ∀ i j, i < j → j ≤ bc.number → j ≤ i + toUnsigned maxblocksize + 1 →
    Disjoint (keysOf (bc.transactionsAt i)) (keysOf (bc.transactionsAt j))
  distinct : ∀ n ≤ bc.number, ((bc.transactionsAt n).map generateKey).Nodup
  height : bc.number < 2 ^ 32 - 1

theorem windowStart_toUnsigned (maxblocksize lastnumber : Nat) :
    windowStart (toUnsigned maxblocksize) lastnumber = lastnumber - toUnsigned maxblocksize := by
  rw [windowStart, toUnsigned_twice]
  split_ifs <;> omega

theorem Packable.disjoint {transactions : List Transaction}
    (packable : bc.Packable maxBlockLimit transactions) :
    Disjoint (keysOf transactions) bc.nonceCheck.cache := by
  rw [Finset.disjoint_left]
  intro key member
  obtain ⟨t, inside, rfl⟩ := List.mem_map.mp (List.mem_toFinset.mp member)
  exact packable.fresh t inside

theorem Packed.keepsWindow (packed : bc.Packed maxBlockLimit maxblocksize) (run : ImportRun)
    (size : run.maxblocksize = toUnsigned maxblocksize) (p : SyncedBlock) :
    bc.KeepsWindow run (bc.packedBlock maxBlockLimit p) := by
  have packable := packedBlock_packable bc maxBlockLimit p
  have start : bc.nonceCheck.startblk = bc.number - run.maxblocksize := by
    rw [size]
    exact packed.window.startblk
  have next : (bc.packedBlock maxBlockLimit p).number = bc.number + 1 := rfl
  have moved : windowStart run.maxblocksize (bc.number + 1) = bc.number + 1 - run.maxblocksize := by
    rw [size]
    exact windowStart_toUnsigned maxblocksize (bc.number + 1)
  unfold KeepsWindow
  rw [next]
  cases bc.importKind run (bc.packedBlock maxBlockLimit p) with
  | refused => exact start
  | collected => exact ⟨start, packable.disjoint⟩
  | notBest => exact ⟨start, packable.disjoint⟩
  | switches => exact moved
  | continues =>
      refine ⟨moved, ?_, ?_⟩
      · intro i j first leaves stays last key here there
        -- the block that leaves and the ones that stay were in one window
        have together := packed.apart i j (by omega) last (by omega)
        exact absurd there (Finset.disjoint_left.mp together here)
      · intro i _ low high
        omega

theorem Packed.packStep (packed : bc.Packed maxBlockLimit maxblocksize)
    (clear : bc.Unambiguous (bc.packedBlock maxBlockLimit p)) :
    (bc.packStep maxBlockLimit maxblocksize p).Packed maxBlockLimit maxblocksize := by
  have packable := packedBlock_packable bc maxBlockLimit p
  have run : bc.packStep maxBlockLimit maxblocksize p =
      bc.importBlock { p.run with maxblocksize := toUnsigned maxblocksize }
        (bc.packedBlock maxBlockLimit p) := (importBlock_toUnsigned bc p.run _ maxblocksize).symm
  have window := packed.window.importBlock packed.indexed clear
    (packed.keepsWindow { p.run with maxblocksize := toUnsigned maxblocksize } rfl p)
  have grows :=
    importBlock_grows packed.indexed { p.run with maxblocksize := toUnsigned maxblocksize }
    (bc.packedBlock maxBlockLimit p) clear rfl rfl
  rw [run]
  have indexed := packed.indexed.importBlock { p.run with maxblocksize := toUnsigned maxblocksize }
    (bc.packedBlock maxBlockLimit p) clear.1 clear.2
  cases grows with
  | same number stays =>
      refine ⟨indexed, window, ?_, ?_, ?_, number ▸ packed.height⟩
      · intro n bound
        rw [number] at bound
        rw [stays n bound]
        exact packed.limits n bound
      · intro i j order bound near
        rw [number] at bound
        rw [stays i (by omega), stays j bound]
        exact packed.apart i j order bound near
      · intro n bound
        rw [number] at bound
        rw [stays n bound]
        exact packed.distinct n bound
  | more number small stays new =>
      refine ⟨indexed, window, ?_, ?_, ?_, number ▸ small⟩
      · intro n bound t member
        by_cases old : n ≤ bc.number
        · rw [stays n old] at member
          exact packed.limits n old t member
        · have top : n = bc.number + 1 := by omega
          rw [top, new] at member
          have limit := packable.limit t member
          omega
      · intro i j order bound near
        rw [stays i (by omega)]
        by_cases old : j ≤ bc.number
        · rw [stays j old]
          exact packed.apart i j order old near
        · have top : j = bc.number + 1 := by omega
          rw [top, new]
          -- the keys of the earlier block are still in the cache
          refine (packable.disjoint.mono_right ?_).symm
          intro key member
          by_cases genesis : i = 0
          · rw [genesis, packed.indexed.transactionsAt_genesis] at member
            cases member
          have start := packed.window.startblk
          rw [packed.window.cache, mem_window, packed.window.endblk]
          exact ⟨i, by omega, by omega, member⟩
      · intro n bound
        by_cases old : n ≤ bc.number
        · rw [stays n old]
          exact packed.distinct n old
        · have top : n = bc.number + 1 := by omega
          rw [top, new]
          exact packable.distinct

theorem Packed.opened (genesisHash : H256) (difficulty gasUsed : Nat) (nonzero : genesisHash ≠ 0) :
    (opened genesisHash difficulty gasUsed maxblocksize).Packed maxBlockLimit maxblocksize := by
  have indexed := Indexed.opened genesisHash difficulty gasUsed maxblocksize nonzero
  have genesis := indexed.transactionsAt_genesis
  refine ⟨indexed, ⟨⟨rfl, ?_⟩, ?_⟩, ?_, ?_, ?_, ?_⟩
  · rfl
  · have start : windowStart maxblocksize 0 = 0 := Nat.le_zero.mp (windowStart_le maxblocksize 0)
    exact start.trans (Nat.zero_sub _).symm
  · intro n bound t member
    rw [Nat.le_zero.mp bound, genesis] at member
    cases member
  · intro i j order bound
    exact absurd (Nat.le_zero.mp bound) (by omega)
  · intro n bound
    rw [Nat.le_zero.mp bound, genesis]
    exact List.nodup_nil
  · exact (by decide : 0 < 2 ^ 32 - 1)

def Covered (maxBlockLimit maxblocksize : Nat) : Prop :=
  maxBlockLimit ≤ toUnsigned maxblocksize + 2 ∨ 2 ^ 32 ≤ toUnsigned maxblocksize + 4

theorem Packed.identities (packed : bc.Packed maxBlockLimit maxblocksize)
    (covered : Covered maxBlockLimit maxblocksize) : bc.identities.Nodup := by
  have height := packed.height
  rw [ChainIndex.identities, List.nodup_flatMap]
  constructor
  · intro n member
    have bound : n ≤ bc.number := by
      have range := List.mem_range'_1.mp member
      omega
    have keys := packed.distinct n bound
    refine List.Nodup.of_map (fun identity => (identity.1, identity.2.1)) ?_
    rw [List.map_map]
    exact keys
  · refine List.Pairwise.imp_of_mem ?_ List.pairwise_lt_range'
    intro i j first second order
    have low := List.mem_range'_1.mp first
    have high := List.mem_range'_1.mp second
    rw [Function.onFun, List.disjoint_left]
    intro identity here there
    obtain ⟨t, inI, rfl⟩ := List.mem_map.mp here
    obtain ⟨u, inJ, same⟩ := List.mem_map.mp there
    simp only [Prod.mk.injEq] at same
    have early := packed.limits i (by omega) t inI
    have late := packed.limits j (by omega) u inJ
    have near : j ≤ i + toUnsigned maxblocksize + 1 := by
      rcases covered with wide | whole <;> omega
    have disjoint := packed.apart i j order (by omega) near
    have key : generateKey u = generateKey t := Prod.ext same.1 same.2.1
    refine Finset.disjoint_left.mp disjoint (List.mem_toFinset.mpr (List.mem_map.mpr ⟨t, inI, rfl⟩))
      ?_
    exact List.mem_toFinset.mpr (List.mem_map.mpr ⟨u, inJ, key⟩)

end Growth

/-- No transaction is packed twice into a chain whose nonce window covers the block limits. -/
theorem packed_chain_never_repeats (genesisHash : H256)
    (difficulty gasUsed maxBlockLimit maxblocksize : Nat) (nonzero : genesisHash ≠ 0)
    (covered : Covered maxBlockLimit maxblocksize) (packings : List SyncedBlock)
    (clear : ∀ entry ∈ trace (fun bc p => bc.packStep maxBlockLimit maxblocksize p)
      (opened genesisHash difficulty gasUsed maxblocksize) packings,
      entry.1.Unambiguous (entry.1.packedBlock maxBlockLimit entry.2)) :
    (run (fun bc p => bc.packStep maxBlockLimit maxblocksize p)
      (opened genesisHash difficulty gasUsed maxblocksize) packings).identities.Nodup := by
  have packed := run_invariant (fun bc p => bc.packStep maxBlockLimit maxblocksize p)
    (fun _ bc => bc.Packed maxBlockLimit maxblocksize)
    (fun bc p => bc.Unambiguous (bc.packedBlock maxBlockLimit p))
    (opened genesisHash difficulty gasUsed maxblocksize)
    (Packed.opened genesisHash difficulty gasUsed nonzero)
    (fun _ _ before admitted => Packed.packStep before admitted) packings clear
  exact packed.identities covered

def packAll (candidates : List Transaction) (hash : H256) : SyncedBlock :=
  ⟨[⟨candidates, Invalid256, fun _ _ => true⟩], hash, 10, 0, {}⟩

theorem packed_chain_never_repeats_two_blocks :
    (run (fun bc p => bc.packStep 1000 1000 p) (opened 1 10 0 1000)
      [packAll [⟨7, 8, 9, 100⟩] 2,
        packAll [⟨7, 8, 9, 100⟩, ⟨5, 8, 6, 100⟩] 3]).identities.Nodup := by
  refine packed_chain_never_repeats 1 10 0 1000 1000 (by decide) (Or.inl (by decide))
    [packAll [⟨7, 8, 9, 100⟩] 2, packAll [⟨7, 8, 9, 100⟩, ⟨5, 8, 6, 100⟩] 3] ?_
  simp only [trace, List.forall_mem_cons]
  refine ⟨⟨by decide, ?_⟩, ⟨by decide, ?_⟩, fun entry none => absurd none List.not_mem_nil⟩
  · intro other found
    cases found
  · intro other found
    have vacant : ((opened 1 10 0 1000).packStep 1000 1000 (packAll [⟨7, 8, 9, 100⟩] 2)).blocks 3 =
        none := by
      decide +kernel
    cases vacant.symm.trans found

/-- With a window of `2 ^ 32` blocks, which counts as none, the third block repeats the first one's
transaction. -/
theorem wide_window_repeats : ¬ ∀ (maxBlockLimit maxblocksize : Nat) (packings : List SyncedBlock),
    maxBlockLimit ≤ maxblocksize →
      (run (fun bc p => bc.packStep maxBlockLimit maxblocksize p) (opened 1 10 0 maxblocksize)
        packings).identities.Nodup := by
  intro always
  have distinct := always 1000 (2 ^ 32)
    [packAll [⟨7, 8, 9, 100⟩] 2, packAll [] 3, packAll [⟨7, 8, 9, 100⟩] 4] (by decide)
  revert distinct
  decide +kernel

end ChainIndex

end UtispaceChain
