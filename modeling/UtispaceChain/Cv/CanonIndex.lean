import UtispaceChain.Cv.NonceWindow

/-! The two indices against the canonical chain, over imports, rewinds and reads. -/

namespace UtispaceChain

open Lib

inductive IndexEvent
  | imports (run : ImportRun) (b : ChainBlock)
  | rewinds (newHead : Nat)
  | readsNumberHash (i : Nat)
  | readsLocation (hash : H256)
  | readsDetails (hash : H256)

namespace ChainIndex

section Definitions

variable (bc : ChainIndex)

def indexStep : IndexEvent → ChainIndex
  | .imports run b => bc.importBlock run b
  | .rewinds newHead => bc.rewind newHead
  | .readsNumberHash i => if i = 0 then bc else { bc with blockHashes := bc.blockHashes.read i }
  | .readsLocation hash => { bc with transactionAddresses := bc.transactionAddresses.read hash }
  | .readsDetails _ => bc

def ancestorAt (n : Nat) : H256 := bc.parentOf^[bc.number - n] bc.currentHash

/-- A location is on the canonical chain and has the transaction. -/
structure Names (h : H256) (place : H256 × Nat) : Prop where
  canonical : ∃ n ≤ bc.number, place.1 = bc.ancestorAt n
  present : ∃ t, (bc.transactions place.1)[place.2]? = some t ∧ t.sha3 = h

structure Canonical : Prop where
  numbers : ∀ n ≤ bc.number, bc.numberHash n = bc.ancestorAt n
  locations : ∀ h place, bc.transactionLocation h = some place → bc.Names h place

/-- Every location that is recorded, on disk or in memory, is right. -/
structure Located : Prop where
  rows : ∀ h place, bc.transactionAddresses.rows h = some place → bc.Names h place
  cache : ∀ h place, bc.transactionAddresses.cache h = some place → bc.Names h place

/-- A step leaves nothing stale behind. A switch records anew every transaction that was recorded in
a block it abandons, a rewind abandons no block with a recorded transaction, and no row above the
head is read. -/
def KeepsIndices : IndexEvent → Prop
  | .imports run b => bc.importKind run b = .switches →
      let route := bc.treeRoute bc.lastBlockHash b.parentHash
      ∀ h place, bc.transactionAddresses.rows h = some place →
        (∃ n ≤ bc.numberOf route.common, place.1 = bc.ancestorAt n) ∨
          ∃ f ∈ freshBlocks b route, ∃ t ∈ (bc.insertBlock b 0).transactions f, t.sha3 = h
  | .rewinds newHead => newHead < bc.number →
      ∀ h place, bc.transactionAddresses.rows h = some place →
      ∃ n ≤ newHead, place.1 = bc.ancestorAt n
  | .readsNumberHash i => bc.number < i → bc.blockHashes.rows i = none
  | _ => True

end Definitions

section Step

variable {bc s : ChainIndex} {run : ImportRun} {b : ChainBlock}

theorem Indexed.canonical (inv : bc.Indexed) (located : bc.Located) : bc.Canonical := by
  refine ⟨inv.numberHash_eq, ?_⟩
  intro h place answer
  unfold transactionLocation CachedTable.query at answer
  cases cached : bc.transactionAddresses.cache h with
  | none =>
      rw [cached] at answer
      exact located.rows h place answer
  | some other =>
      rw [cached] at answer
      exact located.cache h place (cached.trans answer)

theorem Indexed.ancestorAt_stored (inv : bc.Indexed) (n : Nat) :
    (bc.blocks (bc.ancestorAt n)).isSome = true :=
  (inv.tree.ancestor inv.head _ (by rw [inv.height]; exact Nat.sub_le _ _)).1

theorem Names.carry (inv : bc.Indexed) {h : H256} {place : H256 × Nat} (names : bc.Names h place)
    {common : Nat} (stays : ∃ n ≤ common, place.1 = bc.ancestorAt n) (bound : common ≤ s.number)
    (same : ∀ n ≤ common, s.ancestorAt n = bc.ancestorAt n)
    (transactions : ∀ h, (bc.blocks h).isSome = true → s.transactions h = bc.transactions h) :
    s.Names h place := by
  obtain ⟨n, low, here⟩ := stays
  refine ⟨⟨n, low.trans bound, here.trans (same n low).symm⟩, ?_⟩
  rw [transactions place.1 (here ▸ inv.ancestorAt_stored n)]
  exact names.present

theorem mem_addressRows (t : ChainBlock) (h : H256) (place : H256 × Nat) :
    (h, place) ∈ addressRows t ↔
      place.1 = t.hash ∧ ∃ tx, t.transactions[place.2]? = some tx ∧ tx.sha3 = h := by
  rw [addressRows, List.mem_map]
  constructor
  · rintro ⟨⟨tx, i⟩, member, row⟩
    obtain ⟨rfl, rfl⟩ := Prod.mk.inj row
    exact ⟨rfl, tx, List.mem_zipIdx_iff_getElem?.mp member, rfl⟩
  · rintro ⟨hash, tx, here, rfl⟩
    refine ⟨(tx, place.2), List.mem_zipIdx_iff_getElem?.mpr here, ?_⟩
    rw [← hash]

theorem mem_routeAddresses (bc : ChainIndex) (hashes : List H256) (h : H256) (place : H256 × Nat) :
    (h, place) ∈ bc.routeAddresses hashes ↔
      ∃ f ∈ hashes, ∃ t, bc.blocks f = some t ∧ (h, place) ∈ addressRows t := by
  rw [routeAddresses, List.mem_flatMap]
  constructor
  · rintro ⟨f, member, row⟩
    cases found : bc.blocks f with
    | none => simp [found] at row
    | some t => exact ⟨f, member, t, found, by simpa [found] using row⟩
  · rintro ⟨f, member, t, found, row⟩
    exact ⟨f, member, by simpa [found] using row⟩

theorem recorded (bc : ChainIndex) (hashes : List H256) (h : H256)
    (adopted : ∃ f ∈ hashes, ∃ t ∈ bc.transactions f, t.sha3 = h) :
    ∃ place, (h, place) ∈ bc.routeAddresses hashes := by
  obtain ⟨f, member, t, inside, rfl⟩ := adopted
  unfold transactions at inside
  cases found : bc.blocks f with
  | none => simp [found] at inside
  | some block =>
      rw [found] at inside
      obtain ⟨i, here⟩ := List.getElem?_of_mem inside
      exact ⟨(block.hash, i), (bc.mem_routeAddresses hashes _ _).mpr
        ⟨f, member, block, found, (mem_addressRows block _ _).mpr ⟨rfl, t, here, rfl⟩⟩⟩

theorem Located.adopted (inv : bc.Indexed) (located : bc.Located) (after : s.Indexed)
    (fits : bc.Fits b) {td common : Nat} {fresh : List H256} {switched : Bool}
    (joined : Joined bc s b common fresh) (kept : switched = false → common = bc.lastBlockNumber)
    (adopts : Adopts (bc.insertBlock b td) s run b common fresh switched)
    (renewed : switched = true → ∀ h place, bc.transactionAddresses.rows h = some place →
      (∃ n ≤ common, place.1 = bc.ancestorAt n) ∨
        ∃ f ∈ fresh, ∃ t ∈ (bc.insertBlock b td).transactions f, t.sha3 = h) : s.Located := by
  have number : s.number = b.number := adopts.number
  have current : s.currentHash = b.hash := adopts.hash
  have new := joined.new
  have same : ∀ n ≤ common, s.ancestorAt n = bc.ancestorAt n := joined.below
  have transactions : ∀ h, (bc.blocks h).isSome = true → s.transactions h = bc.transactions h := by
    intro h known
    have stored : s.transactions h = (bc.insertBlock b td).transactions h := by
      simp [ChainIndex.transactions, adopts.blocks]
    exact stored.trans (fits.transactions_insert td known)
  have table := adopts.addresses
  constructor
  · intro h place row
    rw [table] at row
    by_cases written : ∃ w, (h, w) ∈ (bc.insertBlock b td).routeAddresses fresh
    · obtain ⟨w, member⟩ := written
      obtain ⟨last, present, recorded⟩ := CachedTable.rows_putAll_present _ _ h w member
      have this : last = place := Option.some.inj (recorded.symm.trans row)
      subst this
      obtain ⟨f, inside, t, found, entry⟩ := (mem_routeAddresses _ _ _ _).mp present
      obtain ⟨hash, tx, here, id⟩ := (mem_addressRows t h last).mp entry
      rw [← adopts.blocks] at found
      have own : t.hash = f := after.tree.own f t found
      obtain ⟨n, -, below, place⟩ := (joined.above f).mp inside
      refine ⟨⟨n, below.trans number.ge, ?_⟩, tx, ?_, id⟩
      · rw [hash, own, place, ancestorAt, number, current]
      · have block : s.transactions last.1 = t.transactions := by
          simp [ChainIndex.transactions, hash, own, found]
        rw [block]
        exact here
    · have absent : ∀ w, (h, w) ∉ (bc.insertBlock b td).routeAddresses fresh := fun w member =>
        written ⟨w, member⟩
      rw [CachedTable.rows_putAll_absent _ _ h absent] at row
      cases switched with
      | false =>
          have names := located.rows h place row
          refine names.carry inv ?_ (new.le.trans number.ge) same transactions
          rw [kept rfl]
          exact names.canonical
      | true =>
          have names := located.rows h place row
          rcases renewed rfl h place row with stays | again
          · exact names.carry inv stays (new.le.trans number.ge) same transactions
          · obtain ⟨w, member⟩ := recorded _ fresh h again
            exact absurd member (absent w)
  · intro h place cached
    rw [table, CachedTable.putAll_cache] at cached
    cases switched with
    | false =>
        have names := located.cache h place cached
        refine names.carry inv ?_ (new.le.trans number.ge) same transactions
        rw [kept rfl]
        exact names.canonical
    | true => cases cached

theorem Located.importBlock (inv : bc.Indexed) (located : bc.Located) (clear : bc.Unambiguous b)
    (keeps : bc.KeepsIndices (.imports run b)) : (bc.importBlock run b).Located := by
  have after := inv.importBlock run b clear.1 clear.2
  have result := importBlock_cases inv run b clear.1 clear.2
  cases kind : bc.importKind run b with
  | refused =>
      simp only [kind] at result
      rw [result]
      exact located
  | collected =>
      simp only [kind] at result
      rw [result]
      exact ⟨fun h place row => ⟨(located.rows h place row).1, (located.rows h place row).2⟩,
        fun h place row => ⟨(located.cache h place row).1, (located.cache h place row).2⟩⟩
  | notBest =>
      simp only [kind] at result
      obtain ⟨fits, td, result⟩ := result
      rw [result]
      have same : ∀ n ≤ bc.number, (bc.insertBlock b td).ancestorAt n = bc.ancestorAt n :=
        fun n _ =>
        fits.ancestor_insert inv.tree td inv.head _ (by rw [inv.height]; exact Nat.sub_le _ _)
      have carry : ∀ h place, bc.Names h place → (bc.insertBlock b td).Names h place :=
        fun h place names =>
        names.carry inv names.canonical (le_refl _) same fun h known =>
          fits.transactions_insert td known
      exact ⟨fun h place row => ⟨(carry h place (located.rows h place row)).1,
          (carry h place (located.rows h place row)).2⟩,
        fun h place row => ⟨(carry h place (located.cache h place row)).1,
          (carry h place (located.cache h place row)).2⟩⟩
  | continues =>
      simp only [kind] at result
      obtain ⟨fits, td, joined, adopts⟩ := result
      exact located.adopted inv after fits joined (fun _ => rfl) adopts fun stays => by cases stays
  | switches =>
      simp only [kind] at result
      obtain ⟨fits, td, joined, adopts⟩ := result
      exact located.adopted inv after fits joined (fun stays => by cases stays) adopts
        fun _ => keeps kind

structure Rewinds (bc s : ChainIndex) (newHead : Nat) : Prop where
  genesis : s.genesis = bc.genesis
  blocks : s.blocks = bc.blocks
  details : s.details = bc.details
  hash : s.lastBlockHash = bc.ancestorAt newHead
  number : s.lastBlockNumber = newHead
  numbers : ∃ reads, (∀ i ∈ reads, i = newHead) ∧ s.blockHashes =
    (bc.blockHashes.forget fun i => decide (newHead + 1 ≤ i ∧ i < bc.number + 1)).readAll reads
  addresses : s.transactionAddresses = bc.transactionAddresses.forget fun _ => true

theorem Indexed.rewinds (inv : bc.Indexed) {newHead : Nat} (lower : newHead < bc.number) :
    Rewinds bc (bc.rewind newHead) newHead := by
  have below : ¬ bc.lastBlockNumber ≤ newHead := Nat.not_le.mpr lower
  rw [rewind, if_neg below]
  refine ⟨rfl, rfl, rfl, ?_, rfl, ?_, rfl⟩
  · have reached := inv.numberHash_eq newHead lower.le
    have stays : ¬(newHead + 1 ≤ newHead ∧ newHead < bc.number + 1) := fun range =>
      Nat.not_succ_le_self newHead range.1
    simp only [numberHash, clearCachesDuringChainReversion, CachedTable.query_forget,
      decide_eq_true_eq, if_neg stays]
    exact reached
  · by_cases bottom : newHead = 0
    · exact ⟨[], fun i none => absurd none List.not_mem_nil, by simp only [if_pos bottom]; rfl⟩
    · exact ⟨[newHead], fun i => List.mem_singleton.mp, by simp only [if_neg bottom]; rfl⟩

theorem rewind_higher (bc : ChainIndex) {newHead : Nat} (higher : ¬ newHead < bc.number) :
    bc.rewind newHead = bc := if_pos (Nat.le_of_not_lt higher)

theorem Rewinds.ancestorAt {newHead : Nat} (lower : newHead < bc.number)
    (rewinds : Rewinds bc s newHead) (n : Nat) (bound : n ≤ newHead) :
    s.ancestorAt n = bc.ancestorAt n := by
  have number : s.number = newHead := rewinds.number
  have hash : s.currentHash = bc.ancestorAt newHead := rewinds.hash
  have parents : s.parentOf = bc.parentOf := by
    funext h
    simp [parentOf, rewinds.details]
  have steps : bc.number - n = (newHead - n) + (bc.number - newHead) := by omega
  rw [ChainIndex.ancestorAt, hash, number, parents, ChainIndex.ancestorAt,
    ChainIndex.ancestorAt, steps, Function.iterate_add_apply]

theorem Indexed.rewound (inv : bc.Indexed) {newHead : Nat} (lower : newHead < bc.number)
    (rewinds : Rewinds bc s newHead) : s.Indexed := by
  obtain ⟨reads, here, table⟩ := rewinds.numbers
  have numberOf : s.numberOf = bc.numberOf := by
    funext h
    simp [ChainIndex.numberOf, rewinds.details]
  have whole : bc.number = bc.lastBlockNumber := rfl
  have height := (inv.tree.ancestor inv.head (bc.number - newHead)
    (by rw [inv.height]; exact Nat.sub_le _ _)).2
  have coherent : (bc.blockHashes.forget fun i =>
      decide (newHead + 1 ≤ i ∧ i < bc.number + 1)).Coherent := inv.coherent.forget _
  refine ⟨inv.tree.congr rewinds.genesis rewinds.blocks rewinds.details, ?_, ?_, ?_, ?_, ?_⟩
  · rw [rewinds.blocks, rewinds.hash]
    exact inv.ancestorAt_stored newHead
  · rw [numberOf, rewinds.hash, rewinds.number]
    rw [inv.height] at height
    exact height.trans (by omega)
  · intro n above bound
    rw [rewinds.number] at bound
    have same := rewinds.ancestorAt lower n bound
    have row := inv.rows n above (bound.trans lower.le)
    rw [table, CachedTable.readAll_rows, CachedTable.forget_rows, row]
    exact congrArg some same.symm
  · intro n h inside
    rw [table] at inside ⊢
    obtain ⟨answer, -⟩ := CachedTable.cache_readAll _ _ n h inside
    rw [CachedTable.readAll_rows, ← coherent.query]
    exact answer
  · intro n h inside
    rw [table] at inside
    rw [rewinds.number]
    obtain ⟨-, read | before⟩ := CachedTable.cache_readAll _ _ n h inside
    · exact (here n read).le
    · obtain ⟨outside, cached⟩ := Option.ite_none_left_eq_some.mp before
      have bound : n ≤ bc.number := inv.bounded n h cached
      rw [decide_eq_true_eq] at outside
      omega

theorem Located.rewound (inv : bc.Indexed) (located : bc.Located) {newHead : Nat}
    (lower : newHead < bc.number) (rewinds : Rewinds bc s newHead)
    (kept : ∀ h place, bc.transactionAddresses.rows h = some place →
      ∃ n ≤ newHead, place.1 = bc.ancestorAt n) : s.Located := by
  constructor
  · intro h place row
    rw [rewinds.addresses] at row
    refine (located.rows h place row).carry inv (kept h place row) ?_ (rewinds.ancestorAt lower) ?_
    · exact rewinds.number.ge
    · intro h _
      simp [ChainIndex.transactions, rewinds.blocks]
  · intro h place cached
    rw [rewinds.addresses] at cached
    cases cached

theorem Indexed.readsNumberHash (inv : bc.Indexed) {i : Nat}
    (keeps : bc.KeepsIndices (.readsNumberHash i)) :
    { bc with blockHashes := bc.blockHashes.read i }.Indexed := by
  refine ⟨inv.tree.congr rfl rfl rfl, inv.head, inv.height, inv.rows, inv.coherent.read i, ?_⟩
  intro n h inside
  rw [CachedTable.cache_read] at inside
  by_cases same : n = i
  · rw [if_pos same, inv.coherent.query] at inside
    rw [same]
    by_contra above
    have absent := keeps (Nat.lt_of_not_le above)
    rw [absent] at inside
    cases inside
  · rw [if_neg same] at inside
    exact inv.bounded n h inside

theorem Located.readsLocation (located : bc.Located) (hash : H256) :
    { bc with transactionAddresses := bc.transactionAddresses.read hash }.Located := by
  refine ⟨fun h place row => ⟨(located.rows h place row).1, (located.rows h place row).2⟩, ?_⟩
  intro h place cached
  rw [CachedTable.cache_read] at cached
  by_cases same : h = hash
  · rw [if_pos same] at cached
    have names : bc.Names h place := by
      unfold CachedTable.query at cached
      rw [same]
      cases before : bc.transactionAddresses.cache hash with
      | none =>
          rw [before] at cached
          exact located.rows hash place cached
      | some other =>
          rw [before] at cached
          exact located.cache hash place (before.trans cached)
    exact ⟨names.1, names.2⟩
  · rw [if_neg same] at cached
    exact ⟨(located.cache h place cached).1, (located.cache h place cached).2⟩

theorem indexStep_kept (event : IndexEvent) (inv : bc.Indexed) (located : bc.Located)
    (clear : ∀ run b, event = .imports run b → bc.Unambiguous b) (keeps : bc.KeepsIndices event) :
    (bc.indexStep event).Indexed ∧ (bc.indexStep event).Located := by
  cases event with
  | imports run b =>
      have unique := clear run b rfl
      exact ⟨inv.importBlock run b unique.1 unique.2, located.importBlock inv unique keeps⟩
  | rewinds newHead =>
      by_cases lower : newHead < bc.number
      · have rewinds := inv.rewinds lower
        exact ⟨inv.rewound lower rewinds, located.rewound inv lower rewinds (keeps lower)⟩
      · have same : bc.indexStep (.rewinds newHead) = bc := bc.rewind_higher lower
        rw [same]
        exact ⟨inv, located⟩
  | readsNumberHash i =>
      by_cases bottom : i = 0
      · have same : bc.indexStep (.readsNumberHash i) = bc := if_pos bottom
        rw [same]
        exact ⟨inv, located⟩
      · have read : bc.indexStep (.readsNumberHash i) =
            { bc with blockHashes := bc.blockHashes.read i } :=
          if_neg bottom
        rw [read]
        exact ⟨inv.readsNumberHash keeps,
          fun h place row => ⟨(located.rows h place row).1, (located.rows h place row).2⟩,
          fun h place row => ⟨(located.cache h place row).1, (located.cache h place row).2⟩⟩
  | readsLocation hash =>
      exact ⟨⟨inv.tree.congr rfl rfl rfl, inv.head, inv.height, inv.rows, inv.coherent,
        inv.bounded⟩, located.readsLocation hash⟩
  | readsDetails hash => exact ⟨inv, located⟩

end Step

theorem Located.opened (genesisHash : H256) (difficulty gasUsed maxblocksize : Nat) :
    (opened genesisHash difficulty gasUsed maxblocksize).Located := by
  constructor
  · intro h place row
    cases row
  · intro h place cached
    cases cached

/-- The indices follow the canonical chain through every run that leaves nothing stale behind. -/
theorem indices_follow_canonical_chain (genesisHash : H256) (difficulty gasUsed maxblocksize : Nat)
    (nonzero : genesisHash ≠ 0) (events : List IndexEvent)
    (clear : ∀ entry ∈ trace indexStep (opened genesisHash difficulty gasUsed maxblocksize) events,
      ∀ run b, entry.2 = .imports run b → entry.1.Unambiguous b)
    (keeps : ∀ entry ∈ trace indexStep (opened genesisHash difficulty gasUsed maxblocksize) events,
      entry.1.KeepsIndices entry.2) :
    (run indexStep (opened genesisHash difficulty gasUsed maxblocksize) events).Canonical := by
  have whole := run_invariant indexStep (fun _ s => s.Indexed ∧ s.Located)
    (fun s event => (∀ run b, event = .imports run b → s.Unambiguous b) ∧ s.KeepsIndices event)
    (opened genesisHash difficulty gasUsed maxblocksize)
    ⟨Indexed.opened genesisHash difficulty gasUsed maxblocksize nonzero,
      Located.opened genesisHash difficulty gasUsed maxblocksize⟩
    (fun _ event before admitted => indexStep_kept event before.1 before.2 admitted.1 admitted.2)
    events fun entry member => ⟨clear entry member, keeps entry member⟩
  exact whole.1.canonical whole.2

def oneImport : List IndexEvent :=
  [.imports {} oneBlock, .readsLocation 7, .rewinds 1, .readsNumberHash 1]

theorem indices_follow_canonical_chain_one_import :
    (run indexStep (opened 1 10 0 1000) oneImport).Canonical := by
  refine indices_follow_canonical_chain 1 10 0 1000 (by decide) oneImport ?_ ?_
  · simp only [oneImport, trace, List.forall_mem_cons]
    refine ⟨?_, ?_, ?_, ?_, fun entry none => absurd none List.not_mem_nil⟩
    · rintro run b same
      cases same
      exact ⟨by decide, fun other found => by cases found⟩
    all_goals
      rintro run b same
      cases same
  · simp only [oneImport, trace, List.forall_mem_cons]
    refine ⟨?_, trivial, ?_, ?_, fun entry none => absurd none List.not_mem_nil⟩
    · intro kind
      have other : (opened 1 10 0 1000).importKind {} oneBlock = .continues := by decide +kernel
      rw [other] at kind
      cases kind
    · intro lower
      have height : (run indexStep (opened 1 10 0 1000)
        [.imports {} oneBlock, .readsLocation 7]).number = 1 := by decide +kernel
      exact absurd lower (by rw [← height]; exact lt_irrefl _)
    · intro lower
      have height : (run indexStep (opened 1 10 0 1000)
        [.imports {} oneBlock, .readsLocation 7, .rewinds 1]).number = 1 := by decide +kernel
      exact absurd lower (by rw [← height]; exact lt_irrefl _)

/-- A rewind, a read of the row that it left above the head, and a block that takes its place: the
hash of block 1 is the abandoned one, and so is the location of its transaction. -/
theorem rewound_index_is_stale : ¬ ∀ events : List IndexEvent,
    (run indexStep (opened 1 10 0 1000) events).Canonical := by
  intro always
  have canonical := always [.imports {} oneBlock, .rewinds 0, .readsNumberHash 1,
    .imports {} ⟨3, 1, 1, 10, 0, []⟩]
  have first := canonical.numbers 1 (by decide +kernel)
  revert first
  decide +kernel

end ChainIndex

end UtispaceChain
