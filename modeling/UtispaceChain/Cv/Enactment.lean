import UtispaceChain.Cv.Acceptance

/-! What a block that was played back has in common with its header. -/

namespace UtispaceChain

variable {Trie Account : Type}

namespace Block

variable (C : Crypto) (db : Storage Trie Account) (X : Executor Trie Account) (kind : VMKind)

/-- The results of executing a block are those its header gives. -/
structure MatchesHeader (info : BlockHeader) (b : Block Trie Account) : Prop where
  receiptsRoot : db.orderedTrieRoot (b.receipts.map Receipt.streamRLP) = info.receiptsRoot
  logBloom : b.logBloom = info.logBloom
  gasUsed : b.gasUsed = info.gasUsed
  stateRoot : db.rootHash b.state.trie = info.stateRoot

def playedRoot (bc : ChainStore) (block : VerifiedBlock) (b : Block Trie Account) :
    Except BlockFault H256 := do
  let lh ← found (bc.lastHashes C block.info.parentHash)
  let (after, _) ← executeAll db X kind lh .committed block.transactions []
    { b with current := block.info }
  return db.rootHash (after.state.commit db).trie

section Loop

variable {db X kind} {lh : List H256}

theorem execute_committed {t : Bytes} {b after : Block Trie Account}
    (ran : b.execute db X kind lh t .committed = .ok after) :
    (∃ receipt, after.receipts = b.receipts ++ [receipt]) ∧ after.current = b.current ∧
      after.previous = b.previous := by
  have kept : b.uncommitToSeal.receipts = b.receipts ∧ b.uncommitToSeal.current = b.current ∧
      b.uncommitToSeal.previous = b.previous := by
    unfold uncommitToSeal
    split_ifs <;> exact ⟨rfl, rfl, rfl⟩
  unfold execute at ran
  generalize b.uncommitToSeal = u at ran kept
  obtain ⟨-, ran⟩ := passed_check ran
  by_cases dual : kind = .dual
  · simp only [if_pos dual, if_true, bind, Except.bind, pure, Except.pure] at ran
    split at ran
    · cases ran
    split at ran
    · cases ran
    cases ran
    exact ⟨⟨_, congrArg (· ++ _) kept.1⟩, kept.2⟩
  · simp only [if_neg dual, bind, Except.bind, pure, Except.pure] at ran
    split at ran
    · cases ran
    cases ran
    exact ⟨⟨_, congrArg (· ++ _) kept.1⟩, kept.2⟩

theorem executeAll_committed {txs : List Bytes} {taken receipts : List Receipt}
    {b after : Block Trie Account} (ran : b.executeAll db X kind lh .committed txs taken =
      .ok (after, receipts)) (same : taken = b.receipts) :
    receipts = after.receipts ∧ after.current = b.current ∧ after.previous = b.previous := by
  induction txs generalizing b taken with
  | nil =>
      cases ran
      exact ⟨same, rfl, rfl⟩
  | cons t rest ih =>
      simp only [executeAll, bind, Except.bind] at ran
      split at ran
      · cases ran
      rename_i next run
      obtain ⟨⟨receipt, added⟩, current, previous⟩ := execute_committed run
      have last : next.receipts.getLast? = some receipt := by simp [added]
      rw [last] at ran
      obtain ⟨all, header, parent⟩ := ih ran (by rw [added, same])
      exact ⟨all, header.trans current, parent.trans previous⟩

end Loop

variable {C db X kind}

theorem enact_checked {bc : ChainStore} {block : VerifiedBlock} {b r : Block Trie Account}
    (reset : b.receipts = []) (enacted : enact C db X kind bc block true b = .ok r) :
    playedRoot C db X kind bc block b = .ok (db.rootHash r.state.trie) ∧
      db.orderedTrieRoot (r.receipts.map Receipt.streamRLP) = block.info.receiptsRoot ∧
      r.logBloom = block.info.logBloom ∧ r.gasUsed = block.info.gasUsed ∧
      (block.info.stateRoot ≠ b.previous.stateRoot → db.rootHash r.state.trie =
        block.info.stateRoot) := by
  unfold enact at enacted
  obtain ⟨-, enacted⟩ := passed_check enacted
  simp only [bind, Except.bind, true_and] at enacted
  split at enacted
  · cases enacted
  rename_i lh hashes
  split at enacted
  · cases enacted
  rename_i result run
  obtain ⟨after, receipts⟩ := result
  obtain ⟨rfl, current, previous⟩ := executeAll_committed run reset.symm
  obtain ⟨receiptsRoot, enacted⟩ := passed_check enacted
  obtain ⟨bloom, enacted⟩ := passed_check enacted
  split at enacted
  · cases enacted
  obtain ⟨state, enacted⟩ := passed_check enacted
  obtain ⟨gas, enacted⟩ := passed_check enacted
  cases enacted
  simp only [current, previous, not_and, not_not, ne_eq] at receiptsRoot bloom state gas
  refine ⟨?_, receiptsRoot, bloom.symm, gas.symm, fun changed => (state changed).symm⟩
  simp only [playedRoot, hashes, run, bind, Except.bind, pure, Except.pure]

/-- An enacted block has the results of its header exactly when the header has another state root
than the parent, or the transactions lead back to that root. -/
theorem enacted_matches_header_iff (bc : ChainStore) (block : VerifiedBlock)
    (b r : Block Trie Account) (reset : b.receipts = [])
    (enacted : enact C db X kind bc block true b = .ok r) :
    r.MatchesHeader db block.info ↔
      block.info.stateRoot ≠ b.previous.stateRoot ∨
        playedRoot C db X kind bc block b = .ok b.previous.stateRoot := by
  obtain ⟨played, receiptsRoot, bloom, gas, state⟩ := enact_checked reset enacted
  rw [played, Except.ok.injEq]
  constructor
  · intro matched
    by_cases changed : block.info.stateRoot = b.previous.stateRoot
    · exact Or.inr (matched.stateRoot.trans changed)
    · exact Or.inl changed
  · intro condition
    refine ⟨receiptsRoot, bloom, gas, ?_⟩
    by_cases changed : block.info.stateRoot = b.previous.stateRoot
    · have back := condition.resolve_left fun differs => differs changed
      exact back.trans changed.symm
    · exact state changed

def toyReset : Block Nat Nat :=
  { AcceptingNode.toyBlock with
    previous := { storedHeader 0 0 1 with memo := 1 }, current := { parentHash := 1 } }

def rootedBlock (stateRoot : H256) : VerifiedBlock where
  info := { storedHeader 1 1 2 with stateRoot, receiptsRoot := 1, gasUsed := 1 }
  transactions := [[1]]
  block := Rlp.appendList [0xc0, 0xc0, 0xc0]

theorem rooted_block_matches_header : ∃ r,
    enact numbered toyStorage toyExecutor .interpreter (toyStore 1 [])
      (rootedBlock 1) true toyReset =
      .ok r ∧ r.MatchesHeader toyStorage (rootedBlock 1).info := by
  have accepted : (enact numbered toyStorage toyExecutor .interpreter (toyStore 1 [])
    (rootedBlock 1) true
      toyReset).toBool = true := by decide +kernel
  obtain ⟨r, enacted⟩ := AcceptingNode.ok_of_toBool accepted
  exact ⟨r, enacted, (enacted_matches_header_iff _ _ _ r rfl enacted).mpr (Or.inl (by decide))⟩

/-- The header repeats the state root of the parent, while the transaction changes the state. -/
theorem repeated_root_accepted : ∃ r,
    enact numbered toyStorage toyExecutor .interpreter (toyStore 1 [])
      (rootedBlock 0) true toyReset =
      .ok r ∧ ¬ r.MatchesHeader toyStorage (rootedBlock 0).info := by
  have trie : (enact numbered toyStorage toyExecutor .interpreter (toyStore 1 [])
    (rootedBlock 0) true
      toyReset).map (fun r => r.state.trie) = .ok 1 := by decide +kernel
  cases enacted : enact numbered toyStorage toyExecutor .interpreter (toyStore 1 [])
    (rootedBlock 0) true
      toyReset with
  | error fault =>
      rw [enacted] at trie
      cases trie
  | ok r =>
      rw [enacted] at trie
      have root : r.state.trie = 1 := Except.ok.inj trie
      refine ⟨r, rfl, fun matched => ?_⟩
      have wrong : toyStorage.rootHash r.state.trie = 0 := matched.stateRoot
      rw [root] at wrong
      exact absurd wrong (by decide)

end Block

end UtispaceChain
