import UtispaceChain.Cv.ChainIndex

/-! The canonical chain: what the tree of stored blocks looks like, the route between two of them,
and that `import` keeps the index by number on the ancestors of the head. -/

namespace UtispaceChain

open Lib

namespace ChainIndex

/-- Every stored block hangs on a stored parent, down to the genesis block. -/
structure Tree (bc : ChainIndex) : Prop where
  genesis : bc.blocks bc.genesis.hash = some bc.genesis
  root : ∃ td, bc.details bc.genesis.hash = some ⟨0, td, 0⟩
  origin : bc.genesis.number = 0 ∧ bc.genesis.transactions = []
  nonzero : bc.blocks 0 = none
  own : ∀ h b, bc.blocks h = some b → b.hash = h
  filed : ∀ h b, bc.blocks h = some b → h ≠ bc.genesis.hash →
    (∃ td, bc.details h = some ⟨b.number, td, b.parentHash⟩) ∧
      b.number = bc.numberOf b.parentHash + 1 ∧ (bc.blocks b.parentHash).isSome = true
  stored : ∀ h d, bc.details h = some d → (bc.blocks h).isSome = true

section Ancestors

variable {bc : ChainIndex} (tree : bc.Tree)
include tree

theorem Tree.numberOf_genesis : bc.numberOf bc.genesis.hash = 0 := by
  obtain ⟨td, root⟩ := tree.root
  simp [numberOf, root]

theorem Tree.numberOf_eq {h : H256} {b : ChainBlock} (known : bc.blocks h = some b) :
    bc.numberOf h = b.number := by
  by_cases first : h = bc.genesis.hash
  · have same : bc.genesis = b := by
      rw [first, tree.genesis] at known
      exact Option.some.inj known
    rw [first, tree.numberOf_genesis, ← same, tree.origin.1]
  · obtain ⟨⟨td, row⟩, -⟩ := tree.filed h b known first
    simp [numberOf, row]

theorem Tree.parent {h : H256} (known : (bc.blocks h).isSome = true) (above : 0 < bc.numberOf h) :
    (bc.blocks (bc.parentOf h)).isSome = true ∧ bc.numberOf (bc.parentOf h) =
      bc.numberOf h - 1 := by
  obtain ⟨b, found⟩ := Option.isSome_iff_exists.mp known
  have other : h ≠ bc.genesis.hash := by
    intro first
    rw [first, tree.numberOf_genesis] at above
    exact absurd above (lt_irrefl 0)
  obtain ⟨⟨td, row⟩, next, stored⟩ := tree.filed h b found other
  have same : bc.parentOf h = b.parentHash := by simp [parentOf, row]
  rw [same, tree.numberOf_eq found, next]
  exact ⟨stored, rfl⟩

theorem Tree.ancestor {h : H256} (known : (bc.blocks h).isSome = true) (steps : Nat)
    (bound : steps ≤ bc.numberOf h) :
    (bc.blocks (bc.parentOf^[steps] h)).isSome = true ∧
      bc.numberOf (bc.parentOf^[steps] h) = bc.numberOf h - steps := by
  induction steps with
  | zero => exact ⟨known, rfl⟩
  | succ steps ih =>
      obtain ⟨stored, height⟩ := ih (Nat.le_of_succ_le bound)
      rw [Function.iterate_succ_apply']
      obtain ⟨parent, lower⟩ := tree.parent stored (by omega)
      exact ⟨parent, by omega⟩

theorem Tree.eq_genesis {h : H256} (known : (bc.blocks h).isSome = true)
    (bottom : bc.numberOf h = 0) :
    h = bc.genesis.hash := by
  by_contra other
  obtain ⟨b, found⟩ := Option.isSome_iff_exists.mp known
  obtain ⟨-, next, -⟩ := tree.filed h b found other
  rw [tree.numberOf_eq found] at bottom
  omega

theorem Tree.ancestor_genesis {h : H256} (known : (bc.blocks h).isSome = true) :
    bc.parentOf^[bc.numberOf h] h = bc.genesis.hash := by
  obtain ⟨stored, height⟩ := tree.ancestor known (bc.numberOf h) (le_refl _)
  exact tree.eq_genesis stored (by omega)

end Ancestors

section Route

variable (bc : ChainIndex)

theorem climb_eq (steps : Nat) (hash : H256) (passed : List H256) :
    bc.climb steps hash passed =
      (passed ++ (List.range steps).map (fun i => bc.parentOf^[i] hash),
        bc.parentOf^[steps] hash) := by
  induction steps generalizing hash passed with
  | zero => simp [climb]
  | succ steps ih =>
      rw [climb, ih, List.range_succ_eq_map]
      simp [Function.comp_def]

theorem meet_spec (fuel : Nat) (left right : H256) (ret back : List H256)
    (joined : bc.parentOf^[fuel] left = bc.parentOf^[fuel] right) :
    ∃ steps ≤ fuel, bc.parentOf^[steps] left = bc.parentOf^[steps] right ∧
      bc.meet fuel left right ret back =
        (ret ++ (List.range (steps + 1)).map (fun i => bc.parentOf^[i] left),
          back ++ (List.range steps).map (fun i => bc.parentOf^[i] right),
            bc.parentOf^[steps] left) := by
  induction fuel generalizing left right ret back with
  | zero => exact ⟨0, le_refl 0, joined, by simp [meet]⟩
  | succ fuel ih =>
      by_cases same : left = right
      · exact ⟨0, Nat.zero_le _, same, by simp [meet, same]⟩
      · obtain ⟨steps, bound, met, result⟩ :=
          ih (bc.parentOf left) (bc.parentOf right) (ret ++ [left]) (back ++ [right]) joined
        refine ⟨steps + 1, Nat.succ_le_succ bound, met, ?_⟩
        rw [meet, if_neg same, result, List.range_succ_eq_map (n := steps + 1),
          List.range_succ_eq_map (n := steps)]
        simp [Function.comp_def]

theorem ancestors_append (k l : Nat) (h : H256) :
    (List.range k).map (fun i => bc.parentOf^[i] h) ++
      (List.range l).map (fun i => bc.parentOf^[i] (bc.parentOf^[k] h)) =
        (List.range (k + l)).map (fun i => bc.parentOf^[i] h) := by
  rw [List.range_add, List.map_append, List.map_map]
  congr 1
  apply List.map_congr_left
  intro i _
  rw [← Function.iterate_add_apply, Nat.add_comm]
  rfl

variable {bc}

theorem Tree.treeRoute_spec (tree : bc.Tree) {left right : H256}
    (knownLeft : (bc.blocks left).isSome = true) (knownRight : (bc.blocks right).isSome = true) :
    ∃ up down, up ≤ bc.numberOf left ∧ down ≤ bc.numberOf right ∧
      bc.numberOf left - up = bc.numberOf right - down ∧
      bc.parentOf^[up] left = bc.parentOf^[down] right ∧
      bc.treeRoute left right =
        ⟨(List.range (up + 1)).map (fun i => bc.parentOf^[i] left) ++
          ((List.range down).map (fun i => bc.parentOf^[i] right)).reverse,
            bc.parentOf^[up] left⟩ := by
  have nonzero : ¬(left = 0 ∨ right = 0) := by
    rintro (zero | zero)
    · rw [zero, tree.nonzero] at knownLeft
      cases knownLeft
    · rw [zero, tree.nonzero] at knownRight
      cases knownRight
  let m := bc.numberOf left - bc.numberOf right
  let n := bc.numberOf right - bc.numberOf left
  obtain ⟨storedLeft, heightLeft⟩ := tree.ancestor knownLeft m (Nat.sub_le _ _)
  obtain ⟨storedRight, heightRight⟩ := tree.ancestor knownRight n (Nat.sub_le _ _)
  have level : bc.numberOf (bc.parentOf^[m] left) = min (bc.numberOf left) (bc.numberOf right) := by
    omega
  have level' : bc.numberOf (bc.parentOf^[n] right) =
      min (bc.numberOf left) (bc.numberOf right) := by
    omega
  have joined : bc.parentOf^[min (bc.numberOf left) (bc.numberOf right)] (bc.parentOf^[m] left) =
      bc.parentOf^[min (bc.numberOf left) (bc.numberOf right)] (bc.parentOf^[n] right) := by
    have first := tree.ancestor_genesis storedLeft
    have second := tree.ancestor_genesis storedRight
    rw [level] at first
    rw [level'] at second
    exact first.trans second.symm
  obtain ⟨steps, bound, met, result⟩ := bc.meet_spec _ _ _
    ((List.range m).map fun i => bc.parentOf^[i] left)
    ((List.range n).map fun i => bc.parentOf^[i] right)
    joined
  refine ⟨steps + m, steps + n, by omega, by omega, by omega, ?_, ?_⟩
  · rw [Function.iterate_add_apply, Function.iterate_add_apply]
    exact met
  · rw [treeRoute, if_neg nonzero]
    simp only [climb_eq, List.nil_append]
    rw [result, ancestors_append, ancestors_append, Function.iterate_add_apply]
    have first : m + (steps + 1) = steps + m + 1 := by omega
    rw [first, Nat.add_comm n steps]

end Route

/-- A block that fits on a stored parent; its hash is no other block's. -/
structure Fits (bc : ChainIndex) (b : ChainBlock) : Prop where
  next : b.number = bc.numberOf b.parentHash + 1
  parent : (bc.blocks b.parentHash).isSome = true
  nonzero : b.hash ≠ 0
  unique : ∀ other, bc.blocks b.hash = some other → other = b

theorem insertBlock_stored (bc : ChainIndex) (b : ChainBlock) (td : Nat) {h : H256}
    (known : (bc.blocks h).isSome = true) : ((bc.insertBlock b td).blocks h).isSome = true := by
  by_cases same : h = b.hash
  · simp [insertBlock, same]
  · simpa [insertBlock, same] using known

section Insert

variable {bc : ChainIndex} {b : ChainBlock} (tree : bc.Tree) (fits : bc.Fits b)
include tree fits

theorem Fits.ne_genesis : b.hash ≠ bc.genesis.hash := by
  intro same
  have stored : bc.genesis = b := fits.unique bc.genesis (same ▸ tree.genesis)
  have height := fits.next
  rw [← stored, tree.origin.1] at height
  omega

theorem Fits.numberOf_insert (td : Nat) {h : H256} (known : (bc.blocks h).isSome = true) :
    (bc.insertBlock b td).numberOf h = bc.numberOf h := by
  by_cases same : h = b.hash
  · subst same
    obtain ⟨other, found⟩ := Option.isSome_iff_exists.mp known
    rw [tree.numberOf_eq found, fits.unique other found, fits.next]
    simp [numberOf, insertBlock]
  · simp [numberOf, insertBlock, same]

theorem Fits.parentOf_insert (td : Nat) {h : H256} (known : (bc.blocks h).isSome = true) :
    (bc.insertBlock b td).parentOf h = bc.parentOf h := by
  by_cases same : h = b.hash
  · subst same
    obtain ⟨other, found⟩ := Option.isSome_iff_exists.mp known
    obtain ⟨⟨old, row⟩, -⟩ := tree.filed b.hash other found (fits.ne_genesis tree)
    have parent : bc.parentOf b.hash = b.parentHash := by
      rw [parentOf, row, fits.unique other found]
    rw [parent]
    simp [parentOf, insertBlock]
  · simp [parentOf, insertBlock, same]

theorem Fits.ancestor_insert (td : Nat) {h : H256} (known : (bc.blocks h).isSome = true)
    (steps : Nat) (bound : steps ≤ bc.numberOf h) :
    (bc.insertBlock b td).parentOf^[steps] h = bc.parentOf^[steps] h := by
  induction steps with
  | zero => rfl
  | succ steps ih =>
      have before := ih (Nat.le_of_succ_le bound)
      obtain ⟨stored, -⟩ := tree.ancestor known steps (Nat.le_of_succ_le bound)
      rw [Function.iterate_succ_apply', Function.iterate_succ_apply', before,
        fits.parentOf_insert tree td stored]

theorem Fits.insert (td : Nat) : (bc.insertBlock b td).Tree := by
  have other := fits.ne_genesis tree
  obtain ⟨old, root⟩ := tree.root
  refine ⟨?_, ⟨old, ?_⟩, tree.origin, ?_, ?_, ?_, ?_⟩
  · simpa [insertBlock, Function.update_of_ne other.symm] using tree.genesis
  · simpa [insertBlock, Function.update_of_ne other.symm] using root
  · simpa [insertBlock, Function.update_of_ne fits.nonzero.symm] using tree.nonzero
  · intro h c found
    by_cases same : h = b.hash
    · have itself : b = c := by simpa [insertBlock, same] using found
      rw [← itself, same]
    · exact tree.own h c (by simpa [insertBlock, same] using found)
  · intro h c found notFirst
    by_cases same : h = b.hash
    · have itself : b = c := by simpa [insertBlock, same] using found
      subst itself same
      refine ⟨⟨td, ?_⟩, ?_, bc.insertBlock_stored b td fits.parent⟩
      · simp [insertBlock, fits.next]
      · rw [fits.numberOf_insert tree td fits.parent]
        exact fits.next
    · have found : bc.blocks h = some c := by simpa [insertBlock, same] using found
      obtain ⟨⟨row, filed⟩, next, stored⟩ := tree.filed h c found notFirst
      refine ⟨⟨row, ?_⟩, ?_, bc.insertBlock_stored b td stored⟩
      · simpa [insertBlock, same] using filed
      · rw [fits.numberOf_insert tree td stored]
        exact next
  · intro h d row
    by_cases same : h = b.hash
    · simp [insertBlock, same]
    · have row : bc.details h = some d := by simpa [insertBlock, same] using row
      simpa [insertBlock, same] using tree.stored h d row

theorem Fits.ancestor_new (td : Nat) (steps : Nat) (bound : steps ≤ bc.numberOf b.parentHash) :
    (bc.insertBlock b td).parentOf^[steps + 1] b.hash = bc.parentOf^[steps] b.parentHash := by
  have parent : (bc.insertBlock b td).parentOf b.hash = b.parentHash := by
    simp [parentOf, insertBlock]
  rw [Function.iterate_succ_apply, parent, fits.ancestor_insert tree td fits.parent steps bound]

theorem Fits.freshBlocks_eq {last : H256} (known : (bc.blocks last).isSome = true) :
    ∃ up down, up ≤ bc.numberOf last ∧ down ≤ bc.numberOf b.parentHash ∧
      bc.numberOf last - up = bc.numberOf b.parentHash - down ∧
      bc.parentOf^[up] last = bc.parentOf^[down] b.parentHash ∧
      (bc.treeRoute last b.parentHash).common = bc.parentOf^[up] last ∧
      freshBlocks b (bc.treeRoute last b.parentHash) =
        b.hash :: (List.range down).map (fun i => bc.parentOf^[i] b.parentHash) := by
  obtain ⟨up, down, upBound, downBound, level, met, route⟩ := tree.treeRoute_spec known fits.parent
  obtain ⟨stored, height⟩ := tree.ancestor fits.parent down downBound
  have away : ∀ h ∈ b.hash :: (List.range down).map (fun i => bc.parentOf^[i] b.parentHash),
      h ≠ bc.parentOf^[up] last := by
    intro h member same
    rw [met] at same
    rcases List.mem_cons.mp member with rfl | below
    · rw [← same] at stored height
      obtain ⟨other, found⟩ := Option.isSome_iff_exists.mp stored
      rw [tree.numberOf_eq found, fits.unique other found, fits.next] at height
      omega
    · obtain ⟨i, inside, rfl⟩ := List.mem_map.mp below
      have small := List.mem_range.mp inside
      obtain ⟨-, other⟩ := tree.ancestor fits.parent i (by omega)
      rw [same] at other
      omega
  refine ⟨up, down, upBound, downBound, level, met, by rw [route], ?_⟩
  rw [freshBlocks, route]
  have order : ((List.range (up + 1)).map (fun i => bc.parentOf^[i] last) ++
      ((List.range down).map (fun i => bc.parentOf^[i] b.parentHash)).reverse ++ [b.hash]).reverse =
        (b.hash :: (List.range down).map (fun i => bc.parentOf^[i] b.parentHash)) ++
          (bc.parentOf^[up] last ::
            ((List.range up).map (fun i => bc.parentOf^[i] last)).reverse) := by
    simp [List.range_succ]
  rw [order, List.takeWhile_append_of_pos (fun h member => decide_eq_true (away h member))]
  simp

end Insert

/-- The rows of the index by number, and of the index by transaction, that a route writes. -/
def routeNumbers (bc : ChainIndex) (hashes : List H256) : List (Nat × H256) :=
  hashes.filterMap fun h => (bc.blocks h).map fun t => (t.number, t.hash)

def routeAddresses (bc : ChainIndex) (hashes : List H256) : List (H256 × H256 × Nat) :=
  hashes.flatMap fun h => match bc.blocks h with
    | none => []
    | some t => addressRows t

theorem putRoute_eq (bc : ChainIndex) (hashes : List H256) :
    bc.putRoute hashes =
      { bc with
        blockHashes := bc.blockHashes.putAll (bc.routeNumbers hashes)
        transactionAddresses := bc.transactionAddresses.putAll (bc.routeAddresses hashes) } := by
  induction hashes generalizing bc with
  | nil => rfl
  | cons h rest ih =>
      cases found : bc.blocks h with
      | none =>
          have skip : bc.putRoute (h :: rest) = bc.putRoute rest := by
            simp [putRoute, found]
          have numbers : bc.routeNumbers (h :: rest) = bc.routeNumbers rest := by
            simp [routeNumbers, found]
          have addresses : bc.routeAddresses (h :: rest) = bc.routeAddresses rest := by
            simp [routeAddresses, found]
          rw [skip, ih, numbers, addresses]
      | some t =>
          have step : bc.putRoute (h :: rest) = (bc.putRows t).putRoute rest := by
            simp [putRoute, found]
          have numbers : bc.routeNumbers (h :: rest) =
              (t.number, t.hash) :: bc.routeNumbers rest := by
            simp [routeNumbers, found]
          have addresses : bc.routeAddresses (h :: rest) = addressRows t ++
              bc.routeAddresses rest := by
            simp [routeAddresses, found]
          rw [step, ih, numbers, addresses, ← CachedTable.putAll_append]
          rfl

/-- The state after a stored block has become the new head. -/
structure Adopts (bc s : ChainIndex) (run : ImportRun) (b : ChainBlock) (common : Nat)
    (fresh : List H256) (switched : Bool) : Prop where
  genesis : s.genesis = bc.genesis
  blocks : s.blocks = bc.blocks
  details : s.details = bc.details
  hash : s.lastBlockHash = b.hash
  number : s.lastBlockNumber = b.number
  numbers : ∃ reads, (∀ i ∈ reads, i ≤ b.number) ∧
    s.blockHashes = ((if switched then bc.blockHashes.forget fun i =>
        decide (common + 1 ≤ i ∧ i < bc.number + 1) else bc.blockHashes).putAll
          (bc.routeNumbers fresh)).readAll reads
  addresses : s.transactionAddresses =
    (if switched then bc.transactionAddresses.forget fun _ => true
      else bc.transactionAddresses).putAll
      (bc.routeAddresses fresh)
  nonces : s.nonceCheck =
    (bc.nonceCheck.delCache b.transactions).updateCache run.maxblocksize b.number
    s.transactionsAt switched

theorem updateNonceCheck_transactionsAt (bc : ChainIndex) (maxblocksize : Nat) (rebuild : Bool) :
    (bc.updateNonceCheck maxblocksize rebuild).transactionsAt = bc.transactionsAt := by
  funext i
  simp only [transactionsAt, transactions, numberHash, updateNonceCheck, CachedTable.query_readAll]

theorem updateNonceCheck_reads (bc : ChainIndex) (maxblocksize : Nat) (rebuild : Bool) :
    ∃ reads, (∀ i ∈ reads, i ≤ bc.number) ∧
      (bc.updateNonceCheck maxblocksize rebuild).blockHashes = bc.blockHashes.readAll reads := by
  refine ⟨_, ?_, rfl⟩
  intro i member
  have bound := NonceCheck.windowStart_le maxblocksize bc.number
  rcases List.mem_append.mp (List.mem_filter.mp member).1 with left | entered
  · cases rebuild with
    | true => cases left
    | false =>
        have inside := List.mem_range'_1.mp left
        omega
  · have inside := List.mem_range'_1.mp entered
    omega

theorem adopt_adopts (bc : ChainIndex) (run : ImportRun) (b : ChainBlock) (common : Nat)
    (fresh : List H256) (switched : Bool) (other : bc.lastBlockHash ≠ b.hash) :
    Adopts bc (bc.adopt run b common fresh switched) run b common fresh switched := by
  let table := if switched then bc.blockHashes.forget fun i =>
    decide (common + 1 ≤ i ∧ i < bc.number + 1) else bc.blockHashes
  let addresses := if switched then bc.transactionAddresses.forget fun _ => true
    else bc.transactionAddresses
  let headed : ChainIndex :=
    { bc with
      blockHashes := table.putAll (bc.routeNumbers fresh)
      transactionAddresses := addresses.putAll (bc.routeAddresses fresh)
      lastBlockHash := b.hash, lastBlockNumber := b.number
      nonceCheck := bc.nonceCheck.delCache b.transactions }
  have result : bc.adopt run b common fresh switched =
      headed.updateNonceCheck run.maxblocksize switched := by
    rw [adopt]
    simp only [currentHash, if_pos other, putRoute_eq]
    cases switched <;> rfl
  obtain ⟨reads, bound, numbers⟩ := headed.updateNonceCheck_reads run.maxblocksize switched
  rw [result]
  refine ⟨rfl, rfl, rfl, rfl, rfl, ⟨reads, bound, numbers⟩, rfl, ?_⟩
  rw [updateNonceCheck_transactionsAt]
  rfl

theorem importValid_cases (bc : ChainIndex) (run : ImportRun) (b : ChainBlock) (pd : FamilyDetails)
    (other : bc.lastBlockHash ≠ b.hash) :
    let td := u256Add pd.totalDifficulty b.difficulty
    let route := bc.treeRoute bc.lastBlockHash b.parentHash
    (bc.isBest run b td = false ∧ bc.importValid run b pd =
      { bc.insertBlock b td with nonceCheck := bc.nonceCheck.delCache b.transactions }) ∨
    (bc.isBest run b td = true ∧ Adopts (bc.insertBlock b td) (bc.importValid run b pd) run b
      (bc.numberOf route.common) (freshBlocks b route)
        (decide (route.common ≠ bc.lastBlockHash))) := by
  intro td route
  cases best : bc.isBest run b td with
  | false =>
      refine Or.inl ⟨rfl, ?_⟩
      rw [importValid, best]
      rfl
  | true =>
      refine Or.inr ⟨rfl, ?_⟩
      rw [importValid, best]
      exact adopt_adopts (bc.insertBlock b td) run b _ _ _ other

theorem Tree.congr {bc s : ChainIndex} (tree : bc.Tree) (genesis : s.genesis = bc.genesis)
    (blocks : s.blocks = bc.blocks) (details : s.details = bc.details) : s.Tree := by
  have heights : s.numberOf = bc.numberOf := by
    funext h
    simp [numberOf, details]
  refine ⟨?_, ?_, ?_, ?_, ?_, ?_, ?_⟩
  · rw [genesis, blocks]
    exact tree.genesis
  · rw [genesis, details]
    exact tree.root
  · rw [genesis]
    exact tree.origin
  · rw [blocks]
    exact tree.nonzero
  · rw [blocks]
    exact tree.own
  · rw [genesis, blocks, details, heights]
    exact tree.filed
  · rw [blocks, details]
    exact tree.stored

/-- The rows by number are the ancestors of the head, and the cache holds none above it. -/
structure Indexed (bc : ChainIndex) : Prop where
  tree : bc.Tree
  head : (bc.blocks bc.lastBlockHash).isSome = true
  height : bc.numberOf bc.lastBlockHash = bc.lastBlockNumber
  rows : ∀ n, 0 < n → n ≤ bc.lastBlockNumber →
    bc.blockHashes.rows n = some (bc.parentOf^[bc.lastBlockNumber - n] bc.lastBlockHash)
  coherent : bc.blockHashes.Coherent
  bounded : ∀ n h, bc.blockHashes.cache n = some h → n ≤ bc.lastBlockNumber

theorem Indexed.numberHash_eq {bc : ChainIndex} (inv : bc.Indexed) (n : Nat)
    (bound : n ≤ bc.number) :
    bc.numberHash n = bc.parentOf^[bc.number - n] bc.currentHash := by
  unfold numberHash
  by_cases zero : n = 0
  · subst zero
    have bottom := inv.tree.ancestor_genesis inv.head
    rw [inv.height] at bottom
    exact bottom.symm
  · rw [if_neg zero, inv.coherent.query, inv.rows n (Nat.pos_of_ne_zero zero) bound]
    rfl

theorem Indexed.opened (genesisHash : H256) (difficulty gasUsed maxblocksize : Nat)
    (nonzero : genesisHash ≠ 0) : (opened genesisHash difficulty gasUsed maxblocksize).Indexed := by
  have blocks : ∀ h b, (ChainIndex.opened genesisHash difficulty gasUsed maxblocksize).blocks h =
    some b →
      h = genesisHash ∧ b = ⟨genesisHash, 0, 0, difficulty, gasUsed, []⟩ := by
    intro h b found
    by_cases same : h = genesisHash
    · exact ⟨same, (by simpa [ChainIndex.opened, same] using found.symm)⟩
    · simp [ChainIndex.opened, same] at found
  refine ⟨⟨?_, ⟨difficulty, ?_⟩, ⟨rfl, rfl⟩, ?_, ?_, ?_, ?_⟩, ?_, ?_, ?_, ?_, ?_⟩
  · simp [ChainIndex.opened]
  · simp [ChainIndex.opened]
  · simp [ChainIndex.opened, Function.update_of_ne nonzero.symm]
  · intro h b found
    obtain ⟨here, same⟩ := blocks h b found
    rw [here, same]
  · intro h b found other
    exact absurd (blocks h b found).1 other
  · intro h d row
    by_cases same : h = genesisHash
    · simp [ChainIndex.opened, same]
    · simp [ChainIndex.opened, same] at row
  · simp [ChainIndex.opened]
  · simp [ChainIndex.opened, numberOf]
  · intro n above below
    have zero : n ≤ 0 := below
    omega
  · intro n h cached
    cases cached
  · intro n h cached
    cases cached

section Adopted

variable {bc s : ChainIndex} {run : ImportRun} {b : ChainBlock}

/-- Where the old and the new chain part: the blocks at and below stay, and the ones above are the
new block and its ancestors. -/
structure Joined (bc s : ChainIndex) (b : ChainBlock) (common : Nat) (fresh : List H256) :
    Prop where
  old : common ≤ bc.number
  new : common < b.number
  below : ∀ n ≤ common, s.parentOf^[s.number - n] s.currentHash =
    bc.parentOf^[bc.number - n] bc.currentHash
  above : ∀ h, h ∈ fresh ↔ ∃ n, common < n ∧ n ≤ b.number ∧ h = s.parentOf^[b.number - n] b.hash
  height : ∀ n ≤ b.number, ∃ t, s.blocks (s.parentOf^[b.number - n] b.hash) = some t ∧ t.number = n

theorem Indexed.joined (inv : bc.Indexed) (fits : bc.Fits b) (td : Nat) {common : Nat}
    {fresh : List H256} {switched : Bool}
    (which : common = bc.numberOf (bc.treeRoute bc.lastBlockHash b.parentHash).common)
    (written : fresh = freshBlocks b (bc.treeRoute bc.lastBlockHash b.parentHash))
    (adopts : Adopts (bc.insertBlock b td) s run b common fresh switched) :
    Joined bc s b common fresh := by
  obtain ⟨up, down, upBound, downBound, level, met, ancestor, route⟩ :=
    fits.freshBlocks_eq inv.tree inv.head
  obtain ⟨-, height⟩ := inv.tree.ancestor inv.head up upBound
  have place : common = bc.numberOf bc.lastBlockHash - up := by
    rw [which, ancestor, height]
  have parents : s.parentOf = (bc.insertBlock b td).parentOf := by
    funext h
    simp [parentOf, adopts.details]
  have next := fits.next
  have reached : ∀ n < b.number, s.parentOf^[b.number - n] b.hash =
      bc.parentOf^[bc.numberOf b.parentHash - n] b.parentHash := by
    intro n small
    have steps : b.number - n = bc.numberOf b.parentHash - n + 1 := by omega
    rw [parents, steps, fits.ancestor_new inv.tree td _ (by omega)]
  have itself : s.parentOf^[b.number - b.number] b.hash = b.hash := by rw [Nat.sub_self]; rfl
  have tree : (bc.insertBlock b td).Tree := fits.insert inv.tree td
  have number : s.number = b.number := adopts.number
  have current : s.currentHash = b.hash := adopts.hash
  refine ⟨?_, by omega, ?_, ?_, ?_⟩
  · have whole : bc.number = bc.numberOf bc.lastBlockHash := inv.height.symm
    omega
  · intro n bound
    have whole : bc.number = bc.numberOf bc.lastBlockHash := inv.height.symm
    rw [number, current, reached n (by omega), whole]
    have first : bc.numberOf b.parentHash - n = (common - n) + down := by omega
    have second : bc.numberOf bc.lastBlockHash - n = (common - n) + up := by omega
    have start : bc.currentHash = bc.lastBlockHash := rfl
    rw [first, second, Function.iterate_add_apply, Function.iterate_add_apply, start, met]
  · intro h
    rw [written, route, List.mem_cons, List.mem_map]
    constructor
    · rintro (rfl | ⟨i, inside, rfl⟩)
      · exact ⟨b.number, by omega, le_refl _, itself.symm⟩
      · have small := List.mem_range.mp inside
        refine ⟨bc.numberOf b.parentHash - i, by omega, by omega, ?_⟩
        rw [reached _ (by omega)]
        congr 2
        omega
    · rintro ⟨n, above, below, rfl⟩
      by_cases top : n = b.number
      · rw [top, itself]
        exact Or.inl rfl
      · refine Or.inr ⟨bc.numberOf b.parentHash - n, List.mem_range.mpr (by omega), ?_⟩
        rw [reached n (by omega)]
  · intro n bound
    rw [adopts.blocks]
    by_cases top : n = b.number
    · rw [top, itself]
      exact ⟨b, by simp [insertBlock], rfl⟩
    · rw [reached n (by omega)]
      obtain ⟨stored, lower⟩ :=
        inv.tree.ancestor fits.parent (bc.numberOf b.parentHash - n) (by omega)
      obtain ⟨t, found⟩ := Option.isSome_iff_exists.mp (bc.insertBlock_stored b td stored)
      refine ⟨t, found, ?_⟩
      rw [← tree.numberOf_eq found, fits.numberOf_insert inv.tree td stored, lower]
      omega

theorem Joined.mem_routeNumbers {common : Nat} {fresh : List H256} (tree : s.Tree)
    (joined : Joined bc s b common fresh) (n : Nat) (w : H256) :
    (n, w) ∈ s.routeNumbers fresh ↔
      common < n ∧ n ≤ b.number ∧ w = s.parentOf^[b.number - n] b.hash := by
  rw [routeNumbers, List.mem_filterMap]
  constructor
  · rintro ⟨h, member, row⟩
    obtain ⟨m, above, below, place⟩ := (joined.above h).mp member
    obtain ⟨t, found, number⟩ := joined.height m below
    rw [← place] at found
    simp only [found, Option.map_some, Option.some.injEq, Prod.mk.injEq] at row
    obtain ⟨rfl, rfl⟩ := row
    rw [number]
    exact ⟨above, below, (tree.own h t found).trans place⟩
  · rintro ⟨above, below, rfl⟩
    obtain ⟨t, found, number⟩ := joined.height n below
    refine ⟨_, (joined.above _).mpr ⟨n, above, below, rfl⟩, ?_⟩
    rw [found, Option.map_some, number, tree.own _ t found]

theorem Indexed.adopted (inv : bc.Indexed) (fits : bc.Fits b) (td : Nat) {common : Nat}
    {fresh : List H256} {switched : Bool} (joined : Joined bc s b common fresh)
    (kept : switched = false → common = bc.lastBlockNumber)
    (adopts : Adopts (bc.insertBlock b td) s run b common fresh switched) : s.Indexed := by
  have tree : s.Tree := (fits.insert inv.tree td).congr adopts.genesis adopts.blocks adopts.details
  have routes : (bc.insertBlock b td).routeNumbers fresh = s.routeNumbers fresh := by
    rw [routeNumbers, routeNumbers, adopts.blocks]
  obtain ⟨reads, low, table⟩ := adopts.numbers
  let base := if switched then bc.blockHashes.forget fun i =>
    decide (common + 1 ≤ i ∧ i < bc.number + 1) else bc.blockHashes
  have table : s.blockHashes = (base.putAll (s.routeNumbers fresh)).readAll reads := by
    rw [table, routes]
    rfl
  have baseRows : base.rows = bc.blockHashes.rows := by
    cases switched <;> rfl
  have untouched : ∀ n ≤ common, (base.putAll (s.routeNumbers fresh)).rows n =
      bc.blockHashes.rows n := by
    intro n bound
    rw [CachedTable.rows_putAll_absent, baseRows]
    intro w member
    have above := ((joined.mem_routeNumbers tree n w).mp member).1
    omega
  -- what survives in the cache is at or below the common block
  have cached : ∀ n h, base.cache n = some h → n ≤ common ∧ bc.blockHashes.rows n = some h := by
    intro n h inside
    cases switched with
    | false =>
        have bound := inv.bounded n h inside
        have same := kept rfl
        exact ⟨by omega, inv.coherent n h inside⟩
    | true =>
        have split : (if decide (common + 1 ≤ n ∧ n < bc.number + 1) = true then none
            else bc.blockHashes.cache n) = some h := inside
        obtain ⟨outside, before⟩ := Option.ite_none_left_eq_some.mp split
        rw [decide_eq_true_eq] at outside
        have bound := inv.bounded n h before
        have number : bc.number = bc.lastBlockNumber := rfl
        exact ⟨by omega, inv.coherent n h before⟩
  have coherent : (base.putAll (s.routeNumbers fresh)).Coherent := by
    intro n h inside
    rw [CachedTable.putAll_cache] at inside
    obtain ⟨bound, row⟩ := cached n h inside
    rw [untouched n bound]
    exact row
  refine ⟨tree, ?_, ?_, ?_, ?_, ?_⟩
  · rw [adopts.blocks, adopts.hash]
    simp [insertBlock]
  · have found : s.blocks b.hash = some b := by
      rw [adopts.blocks]
      simp [insertBlock]
    rw [adopts.hash, adopts.number, tree.numberOf_eq found]
  · intro n above below
    rw [adopts.number] at below
    rw [table, CachedTable.readAll_rows, adopts.number, adopts.hash]
    by_cases high : common < n
    · obtain ⟨w, member, row⟩ := CachedTable.rows_putAll_present _ base n _
        ((joined.mem_routeNumbers tree n _).mpr ⟨high, below, rfl⟩)
      rw [row, ((joined.mem_routeNumbers tree n w).mp member).2.2]
    · have bound : n ≤ common := Nat.le_of_not_lt high
      have same := joined.below n bound
      have number : s.number = b.number := adopts.number
      have current : s.currentHash = b.hash := adopts.hash
      rw [number, current] at same
      rw [untouched n bound, inv.rows n above (bound.trans joined.old), same]
      rfl
  · intro n h inside
    rw [table] at inside ⊢
    obtain ⟨answer, -⟩ := CachedTable.cache_readAll _ _ n h inside
    rw [CachedTable.readAll_rows, ← coherent.query]
    exact answer
  · intro n h inside
    rw [table] at inside
    rw [adopts.number]
    obtain ⟨-, read | before⟩ := CachedTable.cache_readAll _ _ n h inside
    · exact low n read
    · rw [CachedTable.putAll_cache] at before
      have bound := (cached n h before).1
      have new := joined.new
      omega

end Adopted

theorem checked_spec {bc : ChainIndex} (inv : bc.Indexed) (run : ImportRun) (b : ChainBlock)
    (nonzero : b.hash ≠ 0) (unique : ∀ other, bc.blocks b.hash = some other → other = b)
    (pd : FamilyDetails) (passed : bc.checked run b = some pd) :
    bc.Fits b ∧ bc.lastBlockHash ≠ b.hash ∧ b.number < 2 ^ 32 - 1 := by
  unfold checked at passed
  obtain ⟨fresh, passed⟩ := Option.ite_none_left_eq_some.mp passed
  obtain ⟨-, passed⟩ := Option.ite_none_left_eq_some.mp passed
  cases row : bc.details b.parentHash with
  | none =>
      rw [row] at passed
      cases passed
  | some d =>
      rw [row] at passed
      obtain ⟨-, passed⟩ := Option.ite_none_left_eq_some.mp passed
      obtain ⟨header, -⟩ := Option.ite_none_left_eq_some.mp passed
      obtain ⟨-, small, next⟩ := not_or.mp header |>.imp_right not_or.mp
      have height : bc.numberOf b.parentHash = d.number := by simp [numberOf, row]
      refine ⟨⟨?_, inv.tree.stored _ _ row, nonzero, unique⟩, ?_, Nat.lt_of_not_le small⟩
      · rw [height]
        exact not_not.mp next
      · intro same
        -- the head is known, and not above itself
        obtain ⟨t, found⟩ := Option.isSome_iff_exists.mp inv.head
        apply fresh
        rw [← same]
        by_cases first : bc.lastBlockHash = bc.genesis.hash
        · simp [isKnown, first]
        · obtain ⟨⟨td, filed⟩, -⟩ := inv.tree.filed _ t found first
          have low : t.number ≤ bc.lastBlockNumber := by
            rw [← inv.tree.numberOf_eq found, inv.height]
          simp [isKnown, found, filed, low]

theorem importBlock_cases {bc : ChainIndex} (inv : bc.Indexed) (run : ImportRun) (b : ChainBlock)
    (nonzero : b.hash ≠ 0) (unique : ∀ other, bc.blocks b.hash = some other → other = b) :
    let s := bc.importBlock run b
    let route := bc.treeRoute bc.lastBlockHash b.parentHash
    match bc.importKind run b with
    | .refused => s = bc
    | .collected => s = { bc with nonceCheck := bc.nonceCheck.delCache b.transactions }
    | .notBest => bc.Fits b ∧ ∃ td, s =
        { bc.insertBlock b td with nonceCheck := bc.nonceCheck.delCache b.transactions }
    | .continues => bc.Fits b ∧ ∃ td, Joined bc s b bc.lastBlockNumber (freshBlocks b route) ∧
        Adopts (bc.insertBlock b td) s run b bc.lastBlockNumber (freshBlocks b route) false
    | .switches =>
        bc.Fits b ∧ ∃ td, Joined bc s b (bc.numberOf route.common) (freshBlocks b route) ∧
        Adopts (bc.insertBlock b td) s run b (bc.numberOf route.common)
          (freshBlocks b route) true := by
  intro s route
  cases passed : bc.checked run b with
  | none => simp [s, importKind, importBlock, passed]
  | some pd =>
      obtain ⟨fits, other, -⟩ := checked_spec inv run b nonzero unique pd passed
      cases enacted : run.enacted with
      | throws => simp [s, importKind, importBlock, passed, enacted]
      | throwsAfterwards => simp [s, importKind, importBlock, passed, enacted]
      | succeeds =>
          have result : s = bc.importValid run b pd := by simp [s, importBlock, passed, enacted]
          rw [result]
          rcases bc.importValid_cases run b pd other with ⟨best, filed⟩ | ⟨best, adopts⟩
          · have kind : bc.importKind run b = .notBest := by
              simp [importKind, passed, enacted, best]
            rw [kind]
            exact ⟨fits, _, filed⟩
          · have joined := inv.joined fits _ rfl rfl adopts
            by_cases same : (bc.treeRoute bc.lastBlockHash b.parentHash).common = bc.lastBlockHash
            · have kind : bc.importKind run b = .continues := by
                simp [importKind, passed, enacted, best, same]
              have place : bc.numberOf (bc.treeRoute bc.lastBlockHash b.parentHash).common =
                  bc.lastBlockNumber := by
                rw [same, inv.height]
              have stay : decide ((bc.treeRoute bc.lastBlockHash b.parentHash).common ≠
                bc.lastBlockHash) =
                  false := by simp [same]
              rw [place] at joined adopts
              rw [stay] at adopts
              rw [kind]
              exact ⟨fits, _, joined, adopts⟩
            · have kind : bc.importKind run b = .switches := by
                simp [importKind, passed, enacted, best, same]
              have move : decide ((bc.treeRoute bc.lastBlockHash b.parentHash).common ≠
                bc.lastBlockHash) =
                  true := by simp [same]
              rw [move] at adopts
              rw [kind]
              exact ⟨fits, _, joined, adopts⟩

theorem Indexed.importBlock {bc : ChainIndex} (inv : bc.Indexed) (run : ImportRun) (b : ChainBlock)
    (nonzero : b.hash ≠ 0) (unique : ∀ other, bc.blocks b.hash = some other → other = b) :
    (bc.importBlock run b).Indexed := by
  have result := importBlock_cases inv run b nonzero unique
  cases kind : bc.importKind run b with
  | refused =>
      simp only [kind] at result
      rw [result]
      exact inv
  | collected =>
      simp only [kind] at result
      rw [result]
      exact ⟨inv.tree.congr rfl rfl rfl, inv.head, inv.height, inv.rows, inv.coherent, inv.bounded⟩
  | notBest =>
      simp only [kind] at result
      obtain ⟨fits, td, result⟩ := result
      rw [result]
      refine ⟨(fits.insert inv.tree td).congr rfl rfl rfl, bc.insertBlock_stored b td inv.head,
        (fits.numberOf_insert inv.tree td inv.head).trans inv.height, ?_, inv.coherent, inv.bounded⟩
      intro n above below
      have same := fits.ancestor_insert inv.tree td inv.head (bc.lastBlockNumber - n)
        (by rw [inv.height]; omega)
      have row := inv.rows n above below
      rw [← same] at row
      exact row
  | continues =>
      simp only [kind] at result
      obtain ⟨fits, td, joined, adopts⟩ := result
      exact inv.adopted fits td joined (fun _ => rfl) adopts
  | switches =>
      simp only [kind] at result
      obtain ⟨fits, td, joined, adopts⟩ := result
      exact inv.adopted fits td joined (fun stay => by cases stay) adopts

end ChainIndex

end UtispaceChain
