import UtispaceChain.Cv.CanonIndex

/-! The hashes that `BLOCKHASH` reads: the list that the chain remembers for one block, and whose
list each way to execute a transaction hands over. -/

namespace UtispaceChain

open Lib

namespace ChainIndex

variable (bc : ChainIndex)

/-- The loop of `lastHashes` from place `i` on, which stops where a header is missing. -/
def fillHashes : Nat → Nat → List H256 → List H256 × Bool
  | 0, _, hashes => (hashes, true)
  | count + 1, i, hashes =>
      let hash := hashes.getD i 0
      if hash = 0 then fillHashes count (i + 1) (hashes.set (i + 1) 0)
      else
        match bc.blocks hash with
        | none => (hashes, false)
        | some b => fillHashes count (i + 1) (hashes.set (i + 1) b.parentHash)

/-- `lastHashes`: the list that is remembered afterwards, and whether it comes back at all. -/
def lastHashes (parent : H256) (memo : List H256) : List H256 × Bool :=
  if memo.head? = some parent then (memo, true)
  else bc.fillHashes 255 0 (((memo ++ List.replicate 256 0).take 256).set 0 parent)

/-- The hash so many blocks above a block, zero above the genesis block. -/
def hashAbove (h : H256) (i : Nat) : H256 := if i ≤ bc.numberOf h then bc.parentOf^[i] h else 0

/-- The list of a block: its own hash, and those of its ancestors. -/
def Lists (h : H256) (hashes : List H256) : Prop :=
  hashes.length = 256 ∧ ∀ i < 256, hashes[i]? = some (bc.hashAbove h i)

end ChainIndex

/-- `ExtVMFace::blockHash`; nothing comes back for a place that is not in the list. -/
def blockHash (number : Nat) (lastHashes : List H256) (k : Nat) : Option H256 :=
  if k < number ∧ max 256 number - 256 ≤ k then lastHashes[(number - 1 - k) % 2 ^ 32]? else some 0

inductive ExecutionPath
  | enact
  | exec
  | call
  deriving DecidableEq, Repr

/-- The block whose list is asked for; the environment is one above `parent`. -/
def ExecutionPath.asks (bc : ChainIndex) (parent : H256) : ExecutionPath → H256
  | .enact => parent
  | .exec => bc.currentHash
  | .call => bc.currentHash

structure HashedChain where
  bc : ChainIndex
  memo : List H256 := []

inductive HashEvent
  | imports (run : ImportRun) (b : ChainBlock)
  | rewinds (newHead : Nat)
  | asks (parent : H256)

namespace HashedChain

def step (c : HashedChain) : HashEvent → HashedChain
  | .imports run b =>
      let moves := decide (c.bc.importKind run b = .continues ∨ c.bc.importKind run b = .switches)
      ⟨c.bc.importBlock run b, if moves then [] else c.memo⟩
  | .rewinds newHead => ⟨c.bc.rewind newHead, if newHead < c.bc.number then [] else c.memo⟩
  | .asks parent => { c with memo := (c.bc.lastHashes parent c.memo).1 }

/-- No two blocks have one hash, and the list is asked for of stored blocks. -/
def Admitted (c : HashedChain) : HashEvent → Prop
  | .imports _ b => c.bc.Unambiguous b
  | .rewinds _ => True
  | .asks parent => (c.bc.blocks parent).isSome = true

structure Sound (c : HashedChain) : Prop where
  indexed : c.bc.Indexed
  first : c.bc.genesis.parentHash = 0
  remembered : c.memo = [] ∨ ∃ h, (c.bc.blocks h).isSome = true ∧ c.bc.Lists h c.memo

end HashedChain

namespace ChainIndex

section Lists

variable {bc : ChainIndex} (tree : bc.Tree) (first : bc.genesis.parentHash = 0)
include tree

theorem Tree.ne_zero {h : H256} (known : (bc.blocks h).isSome = true) : h ≠ 0 := by
  rintro rfl
  rw [tree.nonzero] at known
  cases known

include first in
theorem Tree.parentHash_eq {h : H256} {b : ChainBlock} (known : bc.blocks h = some b) :
    b.parentHash = bc.parentOf h := by
  by_cases root : h = bc.genesis.hash
  · rcases tree.root with ⟨td, row⟩
    have same : bc.genesis = b := by
      rw [root, tree.genesis] at known
      exact Option.some.inj known
    rw [← same, first, root, parentOf, row]
  · rcases tree.filed h b known root with ⟨⟨td, row⟩, -⟩
    rw [parentOf, row]

include first in
theorem Tree.hashAbove_succ {h : H256} (known : (bc.blocks h).isSome = true) (i : Nat) :
    bc.hashAbove h (i + 1) =
      if bc.hashAbove h i = 0 then 0
        else ((bc.blocks (bc.hashAbove h i)).map (·.parentHash)).getD 0 := by
  by_cases inside : i ≤ bc.numberOf h
  · rcases tree.ancestor known i inside with ⟨stored, height⟩
    rcases Option.isSome_iff_exists.mp stored with ⟨b, found⟩
    have here : bc.hashAbove h i = bc.parentOf^[i] h := if_pos inside
    rw [here, if_neg (tree.ne_zero stored), found, Option.map_some, Option.getD_some,
      tree.parentHash_eq first found]
    unfold hashAbove
    split
    · rw [Function.iterate_succ_apply']
    case isFalse beyond =>
      -- it is the genesis block
      have root : bc.parentOf^[i] h = bc.genesis.hash := tree.eq_genesis stored (by omega)
      rcases tree.root with ⟨td, row⟩
      rw [root, parentOf, row]
  · have here : bc.hashAbove h i = 0 := if_neg inside
    rw [here, if_pos rfl, hashAbove, if_neg (by omega)]

include first in
theorem Tree.hashAbove_stored {h : H256} (known : (bc.blocks h).isSome = true) (i : Nat)
    (nonzero : bc.hashAbove h i ≠ 0) : ∃ b, bc.blocks (bc.hashAbove h i) = some b ∧
    b.parentHash = bc.hashAbove h (i + 1) := by
  have inside : i ≤ bc.numberOf h := by
    by_contra beyond
    exact nonzero (if_neg beyond)
  have here : bc.hashAbove h i = bc.parentOf^[i] h := if_pos inside
  rcases Option.isSome_iff_exists.mp (tree.ancestor known i inside).1 with ⟨b, found⟩
  refine ⟨b, by rw [here, found], ?_⟩
  rw [tree.hashAbove_succ first known, if_neg nonzero, here, found]
  rfl

include first in
theorem Tree.fillHashes_lists {h : H256} (known : (bc.blocks h).isSome = true) (count i : Nat)
    (hashes : List H256) (place : i + count = 255) (length : hashes.length = 256)
    (filled : ∀ j ≤ i, hashes[j]? = some (bc.hashAbove h j)) :
    ∃ memo, bc.fillHashes count i hashes = (memo, true) ∧ bc.Lists h memo := by
  induction count generalizing i hashes with
  | zero => exact ⟨hashes, rfl, length, fun j small => filled j (by omega)⟩
  | succ count ih =>
      have last : hashes.getD i 0 = bc.hashAbove h i := by
        rw [List.getD_eq_getElem?_getD, filled i (le_refl i), Option.getD_some]
      have next : ∀ v, v = bc.hashAbove h (i + 1) → ∀ j ≤ i + 1, (hashes.set (i + 1) v)[j]? =
          some (bc.hashAbove h j) := by
        intro v same j bound
        rw [List.getElem?_set]
        split
        case isTrue here => rw [if_pos (by omega), same, here]
        case isFalse other => exact filled j (by omega)
      have size : ∀ v, (hashes.set (i + 1) v).length = 256 :=
        fun v => by rw [List.length_set, length]
      unfold fillHashes
      rw [last]
      dsimp only
      by_cases zero : bc.hashAbove h i = 0
      · rw [if_pos zero]
        apply ih (i + 1) _ (by omega) (size 0) (next 0 _)
        rw [tree.hashAbove_succ first known, if_pos zero]
      · rcases tree.hashAbove_stored first known i zero with ⟨b, found, parent⟩
        rw [if_neg zero, found]
        exact ih (i + 1) _ (by omega) (size _) (next _ parent)

include first in
theorem Tree.lastHashes_lists {h : H256} (known : (bc.blocks h).isSome = true) {memo : List H256}
    (remembered : memo = [] ∨ ∃ h, (bc.blocks h).isSome = true ∧ bc.Lists h memo) :
    ∃ hashes, bc.lastHashes h memo = (hashes, true) ∧ bc.Lists h hashes := by
  unfold lastHashes
  split
  case isTrue same =>
    rcases remembered with rfl | ⟨other, -, lists⟩
    · cases same
    · -- the list of a block starts with its own hash
      have own : bc.hashAbove other 0 = other := if_pos (Nat.zero_le _)
      have front := lists.2 0 (by decide)
      rw [← List.head?_eq_getElem?, same, own] at front
      cases front
      exact ⟨memo, rfl, lists⟩
  case isFalse =>
    have room : ((memo ++ List.replicate 256 0).take 256).length = 256 := by
      rw [List.length_take, List.length_append, List.length_replicate]
      omega
    apply tree.fillHashes_lists first known 255 0 _ rfl
    · rw [List.length_set, room]
    · intro j bound
      have zero : j = 0 := Nat.le_zero.mp bound
      subst zero
      rw [List.getElem?_set_self (by omega)]
      exact congrArg some (if_pos (Nat.zero_le _)).symm

end Lists

theorem Lists.congr {bc s : ChainIndex} {h : H256} {hashes : List H256} (lists : bc.Lists h hashes)
    (same : ∀ i, s.hashAbove h i = bc.hashAbove h i) : s.Lists h hashes :=
  ⟨lists.1, fun i small => by rw [lists.2 i small, same i]⟩

end ChainIndex

namespace HashedChain

open ChainIndex

variable {c : HashedChain}

theorem Sound.step (sound : c.Sound) (event : HashEvent) (admitted : c.Admitted event) :
    (c.step event).Sound := by
  cases event with
  | imports run b =>
      have indexed := sound.indexed.importBlock run b admitted.1 admitted.2
      have result := importBlock_cases sound.indexed run b admitted.1 admitted.2
      cases kind : c.bc.importKind run b with
      | refused =>
          simp only [kind] at result
          refine ⟨indexed, ?_, ?_⟩
          · simp only [HashedChain.step, result]
            exact sound.first
          · simp only [HashedChain.step, kind, result]
            exact sound.remembered
      | collected =>
          simp only [kind] at result
          refine ⟨indexed, ?_, ?_⟩
          · simp only [HashedChain.step, result]
            exact sound.first
          · simp only [HashedChain.step, kind, result]
            exact sound.remembered
      | notBest =>
          simp only [kind] at result
          rcases result with ⟨fits, td, result⟩
          refine ⟨indexed, ?_, ?_⟩
          · simp only [HashedChain.step, result]
            exact sound.first
          · simp only [HashedChain.step, kind, result]
            rcases sound.remembered with none | ⟨h, known, lists⟩
            · exact .inl none
            · refine .inr ⟨h, c.bc.insertBlock_stored b td known, lists.congr fun i => ?_⟩
              have number : (c.bc.insertBlock b td).numberOf h = c.bc.numberOf h :=
                fits.numberOf_insert sound.indexed.tree td known
              change (if i ≤ (c.bc.insertBlock b td).numberOf h then
                (c.bc.insertBlock b td).parentOf^[i] h else 0) =
                if i ≤ c.bc.numberOf h then c.bc.parentOf^[i] h else 0
              rw [number]
              split
              case isTrue inside => exact fits.ancestor_insert sound.indexed.tree td known i inside
              case isFalse => rfl
      | continues =>
          simp only [kind] at result
          rcases result with ⟨-, td, -, adopts⟩
          refine ⟨indexed, ?_, ?_⟩
          · rw [← sound.first]
            exact congrArg ChainBlock.parentHash adopts.genesis
          · simp [HashedChain.step, kind]
      | switches =>
          simp only [kind] at result
          rcases result with ⟨-, td, -, adopts⟩
          refine ⟨indexed, ?_, ?_⟩
          · rw [← sound.first]
            exact congrArg ChainBlock.parentHash adopts.genesis
          · simp [HashedChain.step, kind]
  | rewinds newHead =>
      by_cases lower : newHead < c.bc.number
      · have rewinds := sound.indexed.rewinds lower
        refine ⟨sound.indexed.rewound lower rewinds, ?_, ?_⟩
        · rw [← sound.first]
          exact congrArg ChainBlock.parentHash rewinds.genesis
        · simp [HashedChain.step, lower]
      · have same : c.step (.rewinds newHead) = c := by
          rw [HashedChain.step, c.bc.rewind_higher lower, if_neg lower]
        rw [same]
        exact sound
  | asks parent =>
      rcases sound.indexed.tree.lastHashes_lists sound.first admitted sound.remembered with
        ⟨hashes, asked, lists⟩
      refine ⟨sound.indexed, sound.first, .inr ⟨parent, admitted, ?_⟩⟩
      simp only [HashedChain.step, asked]
      exact lists

theorem run_sound (genesisHash : H256) (difficulty gasUsed maxblocksize : Nat)
    (nonzero : genesisHash ≠ 0) (events : List HashEvent)
    (admitted : ∀ entry ∈
      trace HashedChain.step ⟨opened genesisHash difficulty gasUsed maxblocksize, []⟩ events,
      entry.1.Admitted entry.2) :
    (run HashedChain.step ⟨opened genesisHash difficulty gasUsed maxblocksize, []⟩ events).Sound :=
  run_invariant HashedChain.step (fun _ c => c.Sound) (fun c event => c.Admitted event)
    ⟨opened genesisHash difficulty gasUsed maxblocksize, []⟩
    ⟨Indexed.opened genesisHash difficulty gasUsed maxblocksize nonzero, rfl, .inl rfl⟩
    (fun _ event before admitted => before.step event admitted) events admitted

/-- For a block over `parent` every answer is the ancestor at that height, and zero outside of the
last 256. -/
def Consistent (bc : ChainIndex) (parent : H256) (hashes : List H256) : Prop :=
  ∀ k, blockHash (bc.numberOf parent + 1) hashes k =
    some (if max 256 (bc.numberOf parent + 1) - 256 ≤ k ∧ k < bc.numberOf parent + 1 then
      bc.parentOf^[bc.numberOf parent - k] parent else 0)

theorem blockHash_window {number k : Nat} {hashes : List H256} (inside : max 256 number - 256 ≤ k ∧
    k < number) :
    blockHash number hashes k = hashes[number - 1 - k]? := by
  have small : number - 1 - k < 2 ^ 32 := by omega
  rw [blockHash, if_pos inside.symm, Nat.mod_eq_of_lt small]

theorem blockHash_outside {number k : Nat} {hashes : List H256}
    (outside : ¬ (max 256 number - 256 ≤ k ∧ k < number)) :
    blockHash number hashes k = some 0 := if_neg fun inside => outside inside.symm

theorem consistent_of_lists {bc : ChainIndex} {parent : H256} {hashes : List H256}
    (lists : bc.Lists parent hashes) :
    Consistent bc parent hashes := by
  intro k
  by_cases inside : max 256 (bc.numberOf parent + 1) - 256 ≤ k ∧ k < bc.numberOf parent + 1
  · rw [blockHash_window inside, if_pos inside, Nat.add_sub_cancel, lists.2 _ (by omega), hashAbove,
      if_pos (Nat.sub_le _ _)]
  · rw [blockHash_outside inside, if_neg inside]

/-- The answers are the hashes of the ancestors exactly where the list is that of the parent: in
`enact`, or where the parent is the head. No answer is read outside of the list. -/
theorem block_hash_consistent_iff (genesisHash : H256) (difficulty gasUsed maxblocksize : Nat)
    (nonzero : genesisHash ≠ 0) (events : List HashEvent)
    (admitted : ∀ entry ∈
      trace HashedChain.step ⟨opened genesisHash difficulty gasUsed maxblocksize, []⟩ events,
      entry.1.Admitted entry.2) (path : ExecutionPath) (parent : H256) :
    let c := run HashedChain.step ⟨opened genesisHash difficulty gasUsed maxblocksize, []⟩ events
    (c.bc.blocks parent).isSome = true →
      ∃ hashes, c.bc.lastHashes (path.asks c.bc parent) c.memo = (hashes, true) ∧
        (∀ k, (blockHash (c.bc.numberOf parent + 1) hashes k).isSome = true) ∧
          (Consistent c.bc parent hashes ↔ path = .enact ∨ parent = c.bc.currentHash) := by
  intro c known
  have sound : c.Sound :=
    run_sound genesisHash difficulty gasUsed maxblocksize nonzero events admitted
  have stored : (c.bc.blocks (path.asks c.bc parent)).isSome = true := by
    cases path with
    | enact => exact known
    | exec => exact sound.indexed.head
    | call => exact sound.indexed.head
  rcases sound.indexed.tree.lastHashes_lists sound.first stored sound.remembered with
    ⟨hashes, asked, lists⟩
  refine ⟨hashes, asked, ?_, ?_, ?_⟩
  · intro k
    by_cases inside : max 256 (c.bc.numberOf parent + 1) - 256 ≤ k ∧ k < c.bc.numberOf parent + 1
    · rw [blockHash_window inside, lists.2 _ (by omega)]
      rfl
    · rw [blockHash_outside inside]
      rfl
  · intro consistent
    -- the first answer is the block whose list it is
    have window : max 256 (c.bc.numberOf parent + 1) - 256 ≤ c.bc.numberOf parent ∧
        c.bc.numberOf parent < c.bc.numberOf parent + 1 := by omega
    have answer := consistent (c.bc.numberOf parent)
    rw [blockHash_window window, if_pos window, Nat.add_sub_cancel, Nat.sub_self,
      lists.2 0 (by decide)] at answer
    have own : c.bc.hashAbove (path.asks c.bc parent) 0 = path.asks c.bc parent :=
      if_pos (Nat.zero_le _)
    rw [own] at answer
    have same : path.asks c.bc parent = parent := Option.some.inj answer
    cases path with
    | enact => exact .inl rfl
    | exec => exact .inr same.symm
    | call => exact .inr same.symm
  · intro right
    have same : path.asks c.bc parent = parent := by
      rcases right with rfl | head
      · rfl
      · rw [head]
        cases path <;> rfl
    rw [same] at lists
    exact consistent_of_lists lists

def secondBlock : ChainBlock := ⟨3, 2, 2, 10, 0, []⟩

def twoImports : List HashEvent := [.imports {} oneBlock, .imports {} secondBlock, .asks 2]

theorem twoImports_admitted :
    ∀ entry ∈ trace HashedChain.step ⟨opened 1 10 0 1000, []⟩ twoImports,
    entry.1.Admitted entry.2 := by
  simp only [twoImports, trace, List.forall_mem_cons]
  refine ⟨⟨by decide, fun other found => by cases found⟩, ⟨by decide, fun other found => ?_⟩, ?_,
    fun entry none => absurd none List.not_mem_nil⟩
  · have fresh : (HashedChain.step ⟨opened 1 10 0 1000, []⟩ (.imports {} oneBlock)).bc.blocks
        secondBlock.hash = none := by
      decide +kernel
    exact absurd (found.symm.trans fresh) (Option.some_ne_none other)
  · have stored : ((run HashedChain.step ⟨opened 1 10 0 1000, []⟩
        [.imports {} oneBlock, .imports {} secondBlock]).bc.blocks 2).isSome = true := by
        decide +kernel
    exact stored

/-- The block over block 2 is played back. -/
theorem block_hash_consistent_enact :
    let c := run HashedChain.step ⟨opened 1 10 0 1000, []⟩ twoImports
    ∃ hashes, c.bc.lastHashes 2 c.memo = (hashes, true) ∧ Consistent c.bc 2 hashes := by
  have known : ((run HashedChain.step ⟨opened 1 10 0 1000, []⟩ twoImports).bc.blocks 2).isSome =
      true := by
    decide +kernel
  rcases block_hash_consistent_iff 1 10 0 1000 (by decide) twoImports twoImports_admitted .enact
    2 known with
    ⟨hashes, asked, -, consistent⟩
  exact ⟨hashes, asked, consistent.mpr (.inl rfl)⟩

/-- A call on block 1 of two finds the head in the place of its parent, the genesis block. -/
theorem call_on_past_block_inconsistent :
    ¬ ∀ (events : List HashEvent) (path : ExecutionPath) (parent : H256),
      (∀ entry ∈ trace HashedChain.step ⟨opened 1 10 0 1000, []⟩ events, entry.1.Admitted entry.2) →
        let c := run HashedChain.step ⟨opened 1 10 0 1000, []⟩ events
        (c.bc.blocks parent).isSome = true →
          Consistent c.bc parent (c.bc.lastHashes (path.asks c.bc parent) c.memo).1 := by
  intro consistent
  have answer := consistent twoImports .call 1 twoImports_admitted (by decide +kernel) 0
  have sound := run_sound 1 10 0 1000 (by decide) twoImports twoImports_admitted
  rcases sound.indexed.tree.lastHashes_lists sound.first sound.indexed.head sound.remembered with
    ⟨hashes, asked, lists⟩
  have first := lists.2 0 (by decide)
  have head : (run HashedChain.step ⟨opened 1 10 0 1000, []⟩ twoImports).bc.currentHash = 3 ∧
      (run HashedChain.step ⟨opened 1 10 0 1000, []⟩ twoImports).bc.numberOf 1 = 0 := by
        decide +kernel
  generalize run HashedChain.step ⟨opened 1 10 0 1000, []⟩ twoImports = c at answer asked first head
  change blockHash (c.bc.numberOf 1 + 1) (c.bc.lastHashes c.bc.lastBlockHash c.memo).1 0
    = _ at answer
  rw [asked, head.2, blockHash_window (by decide), if_pos (by decide)] at answer
  have left : hashes[0]? = some 3 := by
    rw [first, ChainIndex.hashAbove, if_pos (Nat.zero_le _)]
    exact congrArg some head.1
  exact absurd (left.symm.trans answer) (by simp)

end HashedChain

end UtispaceChain
