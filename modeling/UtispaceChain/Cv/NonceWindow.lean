import UtispaceChain.Lib.Run
import UtispaceChain.Cv.CanonChain

/-! The cache of `NonceCheck` against the last blocks of the canonical chain, over runs of
`import`. -/

namespace UtispaceChain

open Lib NonceCheck

namespace ChainIndex

/-- The hash of a block is not zero, and no other stored block has it. -/
def Unambiguous (bc : ChainIndex) (b : ChainBlock) : Prop :=
  b.hash ≠ 0 ∧ ∀ other, bc.blocks b.hash = some other → other = b

/-- The cache holds the keys of the canonical blocks from its oldest to its newest one. -/
structure Windowed (bc : ChainIndex) : Prop where
  endblk : bc.nonceCheck.endblk = bc.number
  cache : bc.nonceCheck.cache =
    window bc.transactionsAt (max 1 bc.nonceCheck.startblk) bc.nonceCheck.endblk

structure WindowExact (bc : ChainIndex) (maxblocksize : Nat) : Prop extends bc.Windowed where
  startblk : bc.nonceCheck.startblk = bc.number - maxblocksize

/-- An `import` keeps the cache on the window. One that changes no head leaves the window as it was
and takes no key of it out; one that extends the chain takes out no key that a block of the window
still has, and brings no older block back in. -/
def KeepsWindow (bc : ChainIndex) (run : ImportRun) (b : ChainBlock) : Prop :=
  match bc.importKind run b with
  | .refused => bc.nonceCheck.startblk = bc.number - run.maxblocksize
  | .collected | .notBest => bc.nonceCheck.startblk = bc.number - run.maxblocksize ∧
      Disjoint (keysOf b.transactions) bc.nonceCheck.cache
  | .continues => windowStart run.maxblocksize b.number = b.number - run.maxblocksize ∧
      (∀ i j, bc.nonceCheck.startblk ≤ i → i < b.number - run.maxblocksize →
        b.number - run.maxblocksize ≤ j → j ≤ bc.number → ∀ key ∈ keysOf (bc.transactionsAt i),
          key ∈ keysOf (bc.transactionsAt j) → key ∈ keysOf b.transactions) ∧
      (∀ i, 0 < i → b.number - run.maxblocksize ≤ i → i < bc.nonceCheck.startblk →
        ∀ key ∈ keysOf (bc.transactionsAt i), key ∈ keysOf b.transactions ∨
          ∃ j, bc.nonceCheck.startblk ≤ j ∧ j ≤ bc.number ∧ key ∈ keysOf (bc.transactionsAt j))
  | .switches => windowStart run.maxblocksize b.number = b.number - run.maxblocksize

section Step

variable {bc s : ChainIndex} {run : ImportRun} {b : ChainBlock}

theorem Fits.transactions_insert (fits : bc.Fits b) (td : Nat) {h : H256}
    (known : (bc.blocks h).isSome = true) :
    (bc.insertBlock b td).transactions h = bc.transactions h := by
  by_cases same : h = b.hash
  · subst same
    obtain ⟨other, found⟩ := Option.isSome_iff_exists.mp known
    simp [transactions, insertBlock, found, fits.unique other found]
  · simp [transactions, insertBlock, same]

theorem Indexed.numberHash_stored (inv : bc.Indexed) (n : Nat) (bound : n ≤ bc.number) :
    (bc.blocks (bc.numberHash n)).isSome = true := by
  rw [inv.numberHash_eq n bound]
  exact (inv.tree.ancestor inv.head _ (by rw [inv.height]; exact Nat.sub_le _ _)).1

theorem Joined.transactionsAt_eq (inv : bc.Indexed) (after : s.Indexed) (fits : bc.Fits b)
    {td common : Nat} {fresh : List H256} {switched : Bool} (joined : Joined bc s b common fresh)
    (adopts : Adopts (bc.insertBlock b td) s run b common fresh switched) (n : Nat)
    (bound : n ≤ common) :
    s.transactionsAt n = bc.transactionsAt n := by
  have number : s.number = b.number := adopts.number
  have new := joined.new
  have same : s.numberHash n = bc.numberHash n := by
    rw [after.numberHash_eq n (by omega), inv.numberHash_eq n (bound.trans joined.old)]
    exact joined.below n bound
  have stored : s.transactions = (bc.insertBlock b td).transactions := by
    funext h
    simp [transactions, adopts.blocks]
  rw [transactionsAt, transactionsAt, same, stored,
    fits.transactions_insert td (inv.numberHash_stored n (bound.trans joined.old))]

theorem Adopts.transactionsAt_new (after : s.Indexed) {td common : Nat} {fresh : List H256}
    {switched : Bool} (adopts : Adopts (bc.insertBlock b td) s run b common fresh switched) :
    s.transactionsAt b.number = b.transactions := by
  have number : s.number = b.number := adopts.number
  have top := after.numberHash_eq b.number number.ge
  have steps : s.number - b.number = 0 := by omega
  rw [steps, Function.iterate_zero_apply] at top
  have current : s.currentHash = b.hash := adopts.hash
  simp [transactionsAt, transactions, top, current, adopts.blocks, insertBlock]

theorem window_congr {left right : Nat → List Transaction} {first last : Nat}
    (same : ∀ i ≤ last, left i = right i) : window left first last = window right first last := by
  ext key
  rw [mem_window, mem_window]
  constructor
  · rintro ⟨i, above, below, inside⟩
    exact ⟨i, above, below, same i below ▸ inside⟩
  · rintro ⟨i, above, below, inside⟩
    exact ⟨i, above, below, (same i below).symm ▸ inside⟩

theorem Windowed.continued (inv : bc.Indexed) (win : bc.Windowed) (after : s.Indexed)
    (fits : bc.Fits b) {td : Nat} {fresh : List H256}
    (joined : Joined bc s b bc.lastBlockNumber fresh)
    (adopts : Adopts (bc.insertBlock b td) s run b bc.lastBlockNumber fresh false)
    (start : windowStart run.maxblocksize b.number = b.number - run.maxblocksize)
    (lost : ∀ i j, bc.nonceCheck.startblk ≤ i → i < b.number - run.maxblocksize →
      b.number - run.maxblocksize ≤ j → j ≤ bc.number → ∀ key ∈ keysOf (bc.transactionsAt i),
        key ∈ keysOf (bc.transactionsAt j) → key ∈ keysOf b.transactions)
    (gained : ∀ i, 0 < i → b.number - run.maxblocksize ≤ i → i < bc.nonceCheck.startblk →
      ∀ key ∈ keysOf (bc.transactionsAt i), key ∈ keysOf b.transactions ∨
        ∃ j, bc.nonceCheck.startblk ≤ j ∧ j ≤ bc.number ∧ key ∈ keysOf (bc.transactionsAt j)) :
    s.nonceCheck.cache =
      window s.transactionsAt (max 1 (b.number - run.maxblocksize)) b.number := by
  have old : ∀ i ≤ bc.number, s.transactionsAt i = bc.transactionsAt i := fun i bound =>
    joined.transactionsAt_eq inv after fits adopts i bound
  have new : s.transactionsAt b.number = b.transactions := adopts.transactionsAt_new after
  have above : bc.number < b.number := joined.new
  have ends : bc.nonceCheck.endblk = bc.number := win.endblk
  have genesis : keysOf (bc.transactionsAt 0) = ∅ := by
    have none : bc.transactionsAt 0 = [] := by
      have hash : bc.numberHash 0 = bc.genesis.hash := rfl
      simp only [transactionsAt, transactions, hash, inv.tree.genesis]
      exact inv.tree.origin.2
    rw [none]
    rfl
  ext key
  rw [adopts.nonces, mem_updateCache, mem_window, start]
  simp only [delCache, eraseAll_eq, Finset.mem_sdiff]
  have inserted : (bc.insertBlock b td).nonceCheck = bc.nonceCheck := rfl
  rw [inserted, win.cache, mem_window, ends]
  constructor
  · rintro (⟨⟨⟨i, first, last, inside⟩, fresh⟩, stays⟩ | ⟨i, entered, low, high, inside⟩)
    · -- a key that stays is that of a block which does not leave
      have later : b.number - run.maxblocksize ≤ i := by
        by_contra early
        exact stays i (by omega) (by omega) (old i last ▸ inside)
      exact ⟨i, by omega, by omega, (old i last).symm ▸ inside⟩
    · exact ⟨i, by omega, high, inside⟩
  · rintro ⟨i, first, last, inside⟩
    by_cases mine : key ∈ keysOf b.transactions
    · exact Or.inr ⟨b.number, above, by omega, le_refl _, new.symm ▸ mine⟩
    by_cases entered : bc.number < i
    · exact Or.inr ⟨i, entered, by omega, last, inside⟩
    have here : i ≤ bc.number := by omega
    rw [old i here] at inside
    -- a block of the old window that has the key
    obtain ⟨j, from_, to_, present⟩ : ∃ j, max 1 bc.nonceCheck.startblk ≤ j ∧ j ≤ bc.number ∧
        key ∈ keysOf (bc.transactionsAt j) := by
      by_cases inner : bc.nonceCheck.startblk ≤ i
      · exact ⟨i, by omega, here, inside⟩
      · rcases gained i (by omega) (by omega) (by omega) key inside with
          again | ⟨j, low, high, again⟩
        · exact absurd again mine
        · refine ⟨j, ?_, high, again⟩
          have positive : j ≠ 0 := by
            rintro rfl
            rw [genesis] at again
            cases again
          omega
    refine Or.inl ⟨⟨⟨j, from_, to_, present⟩, mine⟩, ?_⟩
    intro k low high leaves
    rw [old k (by omega)] at leaves
    exact mine (lost k i low high (by omega) here key leaves inside)

theorem Windowed.importBlock (inv : bc.Indexed) (win : bc.Windowed) (clear : bc.Unambiguous b)
    (keeps : bc.KeepsWindow run b) : (bc.importBlock run b).WindowExact run.maxblocksize := by
  have after := inv.importBlock run b clear.1 clear.2
  have result := importBlock_cases inv run b clear.1 clear.2
  unfold KeepsWindow at keeps
  cases kind : bc.importKind run b with
  | refused =>
      simp only [kind] at result keeps
      rw [result]
      exact ⟨win, keeps⟩
  | collected =>
      simp only [kind] at result keeps
      rw [result]
      refine ⟨⟨win.endblk, ?_⟩, keeps.1⟩
      have kept : eraseAll b.transactions bc.nonceCheck.cache = bc.nonceCheck.cache := by
        rw [eraseAll_eq]
        exact Finset.sdiff_eq_self_of_disjoint keeps.2.symm
      exact kept.trans win.cache
  | notBest =>
      simp only [kind] at result keeps
      obtain ⟨fits, td, result⟩ := result
      rw [result]
      refine ⟨⟨win.endblk, ?_⟩, keeps.1⟩
      have kept : eraseAll b.transactions bc.nonceCheck.cache = bc.nonceCheck.cache := by
        rw [eraseAll_eq]
        exact Finset.sdiff_eq_self_of_disjoint keeps.2.symm
      refine kept.trans (win.cache.trans (window_congr ?_))
      intro i bound
      exact (fits.transactions_insert td (inv.numberHash_stored i (win.endblk ▸ bound))).symm
  | continues =>
      simp only [kind] at result keeps
      obtain ⟨fits, td, joined, adopts⟩ := result
      obtain ⟨start, lost, gained⟩ := keeps
      have cache := win.continued inv after fits joined adopts start lost gained
      have number : (bc.importBlock run b).number = b.number := adopts.number
      have first : (bc.importBlock run b).nonceCheck.startblk = b.number - run.maxblocksize := by
        rw [adopts.nonces, updateCache_startblk, start]
      have last : (bc.importBlock run b).nonceCheck.endblk = b.number := by
        rw [adopts.nonces, updateCache_endblk]
      exact ⟨⟨last.trans number.symm, by rw [first, last]; exact cache⟩, by rw [first, number]⟩
  | switches =>
      simp only [kind] at result keeps
      obtain ⟨fits, td, joined, adopts⟩ := result
      have number : (bc.importBlock run b).number = b.number := adopts.number
      have first : (bc.importBlock run b).nonceCheck.startblk = b.number - run.maxblocksize := by
        rw [adopts.nonces, updateCache_startblk, keeps]
      have last : (bc.importBlock run b).nonceCheck.endblk = b.number := by
        rw [adopts.nonces, updateCache_endblk]
      refine ⟨⟨last.trans number.symm, ?_⟩, by rw [first, number]⟩
      rw [first, last, adopts.nonces, updateCache_rebuild, keeps]

end Step

def importStep (bc : ChainIndex) (event : ImportRun × ChainBlock) : ChainIndex :=
  bc.importBlock event.1 event.2

/-- After every import of a run that keeps the window, the cache is the window. -/
theorem nonce_window_exact (start : ChainIndex) (maxblocksize : Nat) (inv : start.Indexed)
    (init : start.nonceCheck = NonceCheck.init maxblocksize start.number start.transactionsAt)
    (events : List (ImportRun × ChainBlock))
    (clear : ∀ entry ∈ trace importStep start events, entry.1.Unambiguous entry.2.2)
    (keeps : ∀ entry ∈ trace importStep start events, entry.1.KeepsWindow entry.2.1 entry.2.2) :
    ∀ entry ∈ trace importStep start events,
      (importStep entry.1 entry.2).WindowExact entry.2.1.maxblocksize := by
  have whole := run_invariant importStep
    (fun history s => s.Indexed ∧ s.Windowed ∧
      ∀ entry ∈ history, (importStep entry.1 entry.2).WindowExact entry.2.1.maxblocksize)
    (fun s event => s.Unambiguous event.2 ∧ s.KeepsWindow event.1 event.2) start
  refine (whole ?_ ?_ events fun entry member => ⟨clear entry member, keeps entry member⟩).2.2
  · have first : start.Windowed := by
      constructor
      · rw [init]
        rfl
      · rw [init, NonceCheck.init, updateCache_rebuild, updateCache_startblk, updateCache_endblk]
    exact ⟨inv, first, fun entry member => absurd member List.not_mem_nil⟩
  · intro events event
    rintro before ⟨indexed, window, earlier⟩ ⟨unique, kept⟩
    have exact : (importStep before event).WindowExact event.1.maxblocksize :=
      window.importBlock indexed unique kept
    refine ⟨indexed.importBlock event.1 event.2 unique.1 unique.2, exact.toWindowed, ?_⟩
    intro entry member
    rcases List.mem_append.mp member with old | last
    · exact earlier entry old
    · rw [List.mem_singleton.mp last]
      exact exact

def oneBlock : ChainBlock := ⟨2, 1, 1, 10, 0, [⟨7, 8, 9, 100⟩]⟩

def sibling : ChainBlock := ⟨3, 1, 1, 10, 0, [⟨7, 8, 9, 100⟩]⟩

def twoImports : List (ImportRun × ChainBlock) :=
  [({ maxblocksize := 1 }, oneBlock), ({ maxblocksize := 1 }, ⟨4, 2, 2, 10, 0, [⟨5, 8, 6, 100⟩]⟩)]

theorem nonce_window_exact_two_imports :
    (run importStep (ChainIndex.opened 1 10 0 1) twoImports).number = 2 ∧
      ∀ entry ∈ trace importStep (ChainIndex.opened 1 10 0 1) twoImports,
        (importStep entry.1 entry.2).WindowExact entry.2.1.maxblocksize := by
  refine ⟨by decide +kernel, ?_⟩
  refine nonce_window_exact (ChainIndex.opened 1 10 0 1) 1 (Indexed.opened 1 10 0 1 (by decide)) ?_
    twoImports ?_ ?_
  · decide +kernel
  · simp only [twoImports, trace, List.forall_mem_cons]
    refine ⟨⟨by decide, ?_⟩, ⟨by decide, ?_⟩, fun entry none => absurd none List.not_mem_nil⟩
    · intro other found
      cases found
    · intro other found
      have vacant : (importStep (ChainIndex.opened 1 10 0 1) ({ maxblocksize := 1 },
        oneBlock)).blocks 4 =
          none := by decide +kernel
      rw [vacant] at found
      cases found
  · simp only [twoImports, trace, List.forall_mem_cons]
    refine ⟨?_, ?_, fun entry none => absurd none List.not_mem_nil⟩
    · have kind : (ChainIndex.opened 1 10 0 1).importKind { maxblocksize := 1 } oneBlock =
          .continues := by
        decide +kernel
      simp only [KeepsWindow, kind]
      refine ⟨by decide, ?_, ?_⟩
      · intro i j _ below
        exact absurd below (Nat.not_lt_zero i)
      · intro i _ _ below
        exact absurd below (Nat.not_lt_zero i)
    · have kind : (importStep (ChainIndex.opened 1 10 0 1) ({ maxblocksize := 1 },
        oneBlock)).importKind
          { maxblocksize := 1 } ⟨4, 2, 2, 10, 0, [⟨5, 8, 6, 100⟩]⟩ = .continues := by decide +kernel
      have start : (importStep (ChainIndex.opened 1 10 0 1)
          ({ maxblocksize := 1 }, oneBlock)).nonceCheck.startblk = 0 := by decide +kernel
      have genesis : keysOf ((importStep (ChainIndex.opened 1 10 0 1)
          ({ maxblocksize := 1 }, oneBlock)).transactionsAt 0) = ∅ := by decide +kernel
      simp only [KeepsWindow, kind]
      refine ⟨by decide, ?_, ?_⟩
      · intro i j _ below _ _ key evicted
        have zero : i = 0 := Nat.lt_one_iff.mp below
        rw [zero, genesis] at evicted
        cases evicted
      · intro i _ _ below
        rw [start] at below
        exact absurd below (Nat.not_lt_zero i)

/-- The sibling does not become the head, but the key of the transaction is gone. -/
theorem sibling_empties_nonce_window : ¬ ∀ (events : List (ImportRun × ChainBlock)),
    ∀ entry ∈ trace importStep (ChainIndex.opened 1 10 0 1000) events,
      (importStep entry.1 entry.2).WindowExact entry.2.1.maxblocksize := by
  intro always
  have exact := always [({}, oneBlock), ({}, sibling)] _ (List.mem_cons_of_mem _ List.mem_cons_self)
  have cache := exact.cache
  revert cache
  decide +kernel

end ChainIndex

end UtispaceChain
