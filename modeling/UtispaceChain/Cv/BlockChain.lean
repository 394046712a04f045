import UtispaceChain.PbftSeal.BlockSign

/-! `BlockChain::verifyBlock`, and the two hashes of the blocks it accepts. -/

namespace UtispaceChain

open Lib Rlp

/-- The bits of `ImportRequirements::value`. -/
structure ImportRequirements where
  validSeal : Bool := false
  uncleBasic : Bool := false
  transactionBasic : Bool := false
  uncleSeals : Bool := false
  transactionSignatures : Bool := false
  parent : Bool := false
  uncleParent : Bool := false
  postGenesis : Bool := false
  checkMinerSignatures : Bool := false
  deriving DecidableEq, Repr

namespace ImportRequirements

def inOrderChecks : ImportRequirements := { parent := true, uncleParent := true }

end ImportRequirements

/-- What `verifyBlock` asks of the rest of the node: stored headers, the root of a trie over a
list, the checks of one transaction, and the signature checker if one is set. -/
structure BlockChain where
  headerData : H256 → Bytes
  trieRootOver : List Bytes → H256
  checkTransaction : (signatures : Bool) → Bytes → Bool
  signChecker : Option (BlockHeader → List (Nat × Signature) → Bool)

structure VerifiedBlock where
  info : BlockHeader
  transactions : List Bytes
  block : Bytes

namespace BlockChain

variable (C : Crypto) (chain : BlockChain)

/-- The parent of a header when it is asked for, else the unset header. -/
def parentOf (wanted : Bool) (h : BlockHeader) : Option BlockHeader :=
  if wanted then
    if chain.headerData h.parentHash = [] then none
    else BlockHeader.ofHeaderData C (chain.headerData h.parentHash) h.parentHash
  else some {}

def verifyUncle (ir : ImportRequirements) (uncle : Bytes) : Bool :=
  match BlockHeader.ofHeaderData C uncle 0 with
  | none => false
  | some h =>
      match chain.parentOf C ir.uncleParent h with
      | none => false
      | some parent =>
          h.verify C chain.trieRootOver
            (if ir.uncleSeals then .checkEverything else .ignoreSeal) parent none

def verifyUncles (ir : ImportRequirements) (block : Bytes) : Bool :=
  if ir.uncleBasic || ir.uncleParent || ir.uncleSeals then
    match (item block 2).bind items with
    | none => false
    | some uncles => uncles.all (chain.verifyUncle C ir)
  else true

def verifyTransactions (ir : ImportRequirements) (block : Bytes) : Option (List Bytes) :=
  if ir.transactionBasic || ir.transactionSignatures then
    ((item block 1).bind items).bind fun transactions =>
      if transactions.all (chain.checkTransaction ir.transactionSignatures) then some transactions
      else none
  else some []

def verifySigns (ir : ImportRequirements) (h : BlockHeader) (block : Bytes) : Bool :=
  if ir.checkMinerSignatures then
    match chain.signChecker with
    | none => true
    | some check =>
        match (item block 4).bind (toVector (toPairLax 65)) with
        | none => false
        | some signList => check h signList
  else true

def verifyBlock (block : Bytes) (ir : ImportRequirements) : Option VerifiedBlock :=
  (BlockHeader.ofBlock C block).bind fun h =>
  if ir.postGenesis = true ∧ (h.parentHash = 0 ∨ h.number = 0) then none
  else (chain.parentOf C ir.parent h).bind fun parent =>
    if h.verify C chain.trieRootOver (if ir.validSeal then .checkEverything else .quickNonce) parent
        (some block) = false then none
    else if chain.verifyUncles C ir block = false then none
    else (chain.verifyTransactions ir block).bind fun transactions =>
      if chain.verifySigns ir h block = false then none else some ⟨h, transactions, block⟩

theorem verifyBlock_info (block : Bytes) (ir : ImportRequirements) (v : VerifiedBlock)
    (accepted : chain.verifyBlock C block ir = some v) :
    BlockHeader.ofBlock C block = some v.info := by
  obtain ⟨h, read, rest⟩ := Option.bind_eq_some_iff.mp accepted
  obtain ⟨-, rest⟩ := Option.ite_none_left_eq_some.mp rest
  obtain ⟨parent, -, rest⟩ := Option.bind_eq_some_iff.mp rest
  obtain ⟨-, rest⟩ := Option.ite_none_left_eq_some.mp rest
  obtain ⟨-, rest⟩ := Option.ite_none_left_eq_some.mp rest
  obtain ⟨transactions, -, rest⟩ := Option.bind_eq_some_iff.mp rest
  obtain ⟨-, rest⟩ := Option.ite_none_left_eq_some.mp rest
  cases rest
  exact read

theorem verifyBlock_intro (block : Bytes) (ir : ImportRequirements) (h parent : BlockHeader)
    (transactions : List Bytes) (read : BlockHeader.ofBlock C block = some h)
    (later : ir.postGenesis = false) (found : chain.parentOf C ir.parent h = some parent)
    (valid : h.verify C chain.trieRootOver (if ir.validSeal then .checkEverything
      else .quickNonce) parent
      (some block) = true) (uncles : chain.verifyUncles C ir block = true)
    (checked : chain.verifyTransactions ir block = some transactions)
    (signed : chain.verifySigns ir h block = true) :
    chain.verifyBlock C block ir = some ⟨h, transactions, block⟩ := by
  simp [verifyBlock, read, later, found, valid, uncles, checked, signed]

end BlockChain

def headerItem (block : Bytes) (i : Nat) : Option Bytes :=
  (BlockHeader.extractHeader block).bind fun header => item header i

section Identity

variable {C : Crypto} {block header : Bytes} {h : BlockHeader}

theorem extractHeader_item (found : BlockHeader.extractHeader block = some header) :
    Item header ∧ isList header = true ∧ header.length ≤ block.length := by
  obtain ⟨root, built, rest⟩ := Option.bind_eq_some_iff.mp found
  obtain ⟨size, -, same⟩ := Option.bind_eq_some_iff.mp built
  obtain ⟨-, same⟩ := Option.ite_none_right_eq_some.mp same
  cases same
  obtain ⟨-, rest⟩ := Option.ite_none_left_eq_some.mp rest
  obtain ⟨first, here, rest⟩ := Option.bind_eq_some_iff.mp rest
  obtain ⟨data, rest⟩ := Option.ite_none_left_eq_some.mp rest
  obtain ⟨transactions, -, rest⟩ := Option.bind_eq_some_iff.mp rest
  obtain ⟨-, rest⟩ := Option.ite_none_left_eq_some.mp rest
  obtain ⟨uncles, -, rest⟩ := Option.bind_eq_some_iff.mp rest
  obtain ⟨-, rest⟩ := Option.ite_none_left_eq_some.mp rest
  cases rest
  have list : isList header = true := by simpa using data
  obtain ⟨p, payloadRead, nth⟩ := Option.bind_eq_some_iff.mp here
  obtain ⟨size, encoded, rfl⟩ := Option.map_eq_some_iff.mp nth
  have full : p ≠ [] := by
    rintro rfl
    simp [isList] at list
  refine ⟨item_take p size full encoded, list, ?_⟩
  have inner := payload_length block p payloadRead
  rw [List.length_take]
  omega

theorem ofBlock_spec (read : BlockHeader.ofBlock C block = some h)
    (nonzero : ∀ bytes, C.sha3 bytes ≠ 0) (small : block.length < 2 ^ 57) :
    ∃ all, h.ReadFrom all ∧ (∀ i, headerItem block i = some ((all[i]?).getD [])) ∧
      all.flatten.length < 2 ^ 57 ∧ h.hash C .withSeal = C.sha3 (appendList all.flatten) := by
  obtain ⟨header, found, rest⟩ := Option.bind_eq_some_iff.mp read
  obtain ⟨bare, populated, rfl⟩ := Option.map_eq_some_iff.mp rest
  obtain ⟨whole, list, size⟩ := extractHeader_item found
  obtain ⟨all, split, from_⟩ := BlockHeader.populate_readFrom header bare whole list populated
  obtain ⟨shape, -, nth⟩ := items_spec header all whole list split
  have inner : all.flatten.length ≤ header.length := by
    obtain ⟨p, payloadRead, -⟩ := whole.eq_appendList header list
    have bound := payload_length header p payloadRead
    rw [items, if_pos list, payloadRead, Option.bind_some] at split
    rw [← (itemsOf_spec _ p all split).1]
    exact bound
  refine ⟨all, ⟨from_.whole, from_.fixed, from_.extraData, from_.nodeList⟩, ?_, by omega, ?_⟩
  · intro i
    rw [headerItem, found, Option.bind_some]
    exact nth i
  · rw [BlockHeader.hash, if_neg (nonzero header), ← shape]

theorem list_eq_of_items (l m : List Bytes) (left : Items l) (right : Items m)
    (same : ∀ i : Nat, (l[i]?).getD [] = (m[i]?).getD []) : l = m := by
  refine List.ext_getElem? fun i => ?_
  have equal := same i
  cases here : l[i]? with
  | none =>
      cases there : m[i]? with
      | none => rfl
      | some e =>
          rw [here, there] at equal
          exact absurd equal.symm (right e (List.mem_of_getElem? there)).1
  | some d =>
      cases there : m[i]? with
      | none =>
          rw [here, there] at equal
          exact absurd equal (left d (List.mem_of_getElem? here)).1
      | some e =>
          rw [here, there] at equal
          exact congrArg some equal

theorem ofBlock_written (C : Crypto) (h : BlockHeader) (range : h.InRange) (parts : List Bytes)
    (whole : Items parts) (transactions uncles : Bytes) (first : parts[0]? = some transactions)
    (second : parts[1]? = some uncles) (txList : isList transactions = true)
    (uncleList : isList uncles = true)
    (bound : (h.streamRLP .withSeal :: parts).flatten.length < maxLength) :
    BlockHeader.ofBlock C (appendList (h.streamRLP .withSeal :: parts).flatten) =
      some { h with memo := C.sha3 (h.streamRLP .withSeal), memoWithout := 0 } := by
  obtain ⟨complete, header⟩ := item_appendList _ range.size
  have all : Items (h.streamRLP .withSeal :: parts) := List.forall_mem_cons.mpr ⟨complete, whole⟩
  obtain ⟨block, list⟩ := item_appendList _ bound
  have nth := item_nth_appendList _ all bound
  have found : BlockHeader.extractHeader (appendList (h.streamRLP .withSeal :: parts).flatten) =
      some (h.streamRLP .withSeal) := by
    have head : isList (h.streamRLP .withSeal) = true := header
    simp only [BlockHeader.extractHeader, block.construct, Option.bind_some, list, nth,
      List.getElem?_cons_zero, List.getElem?_cons_succ, first, second, Option.getD_some,
      head, txList, uncleList, Bool.true_eq_false, if_false]
  rw [BlockHeader.ofBlock, found, Option.bind_some, BlockHeader.populate_streamRLP h range,
    Option.map_some]

end Identity

/-- Two accepted blocks whose signatures are of the same hash have the same identity exactly
when their headers agree, as they stand, in the extra data, in the node list and in every item
after it. -/
theorem certificate_binds_iff (C : Crypto) (chain : BlockChain)
    (injective : Function.Injective C.sha3) (nonzero : ∀ bytes, C.sha3 bytes ≠ 0)
    (ir ir' : ImportRequirements) (left right : Bytes) (leftSmall : left.length < 2 ^ 57)
    (rightSmall : right.length < 2 ^ 57) (v w : VerifiedBlock)
    (first : chain.verifyBlock C left { ir with checkMinerSignatures := true } = some v)
    (second : chain.verifyBlock C right { ir' with checkMinerSignatures := true } = some w)
    (signed : v.info.hash C .withoutSeal = w.info.hash C .withoutSeal) :
    v.info.hash C .withSeal = w.info.hash C .withSeal ↔
      ∀ i, i = 12 ∨ 14 ≤ i → headerItem left i = headerItem right i := by
  obtain ⟨l, lRead, lItems, lSmall, lHash⟩ :=
    ofBlock_spec (chain.verifyBlock_info C left _ v first) nonzero leftSmall
  obtain ⟨r, rRead, rItems, rSmall, rHash⟩ :=
    ofBlock_spec (chain.verifyBlock_info C right _ w second) nonzero rightSmall
  obtain ⟨lWritten, lRoom⟩ := lRead.written lSmall
  obtain ⟨rWritten, rRoom⟩ := rRead.written rSmall
  have fields : v.info.fieldItems = w.info.fieldItems := by
    rw [BlockHeader.ofBlock_hash C (chain.verifyBlock_info C left _ v first),
      BlockHeader.ofBlock_hash C (chain.verifyBlock_info C right _ w second)] at signed
    have lists : appendList v.info.streamRLPFields = appendList w.info.streamRLPFields :=
      injective signed
    have lPayload := payload_appendList _ lRoom
    have rPayload := payload_appendList _ rRoom
    rw [lists, rPayload] at lPayload
    exact flatten_inj _ _ lWritten rWritten (Option.some.inj lPayload).symm
  have identity : v.info.hash C .withSeal = w.info.hash C .withSeal ↔ l = r := by
    rw [lHash, rHash]
    constructor
    · intro same
      have lPayload := payload_appendList l.flatten (by unfold maxLength; omega)
      have rPayload := payload_appendList r.flatten (by unfold maxLength; omega)
      rw [injective same, rPayload] at lPayload
      exact flatten_inj l r lRead.whole rRead.whole (Option.some.inj lPayload).symm
    · rintro rfl
      rfl
  rw [identity]
  constructor
  · rintro rfl i _
    rw [lItems, rItems]
  · intro same
    refine list_eq_of_items l r lRead.whole rRead.whole fun i => ?_
    by_cases free : i = 12 ∨ 14 ≤ i
    · have equal := same i free
      rw [lItems, rItems] at equal
      exact Option.some.inj equal
    · rw [lRead.fixed i (by omega) (by omega), rRead.fixed i (by omega) (by omega), fields]

/-- As `Crypto.toy`, with signatures that fit their 65 bytes. -/
def shortToy : Crypto :=
  { Crypto.toy with
    recover := fun s hash => if s / 64 = hash % 2 ^ 500 then s % 16 else 0
    sign := fun k hash => 64 * (hash % 2 ^ 500) + k }

/-- A header of block 1 over the genesis header 5, with the given items after the node list. -/
def sealedHeader (sealItems : List Bytes) : BlockHeader :=
  { parentHash := 5, sha3Uncles := shortToy.sha3 [0xc0], number := 1, timestamp := 2
    nodeList := [1, 2, 3, 4], sealItems := sealItems }

def sealedParts (sealItems : List Bytes) (signers : List Nat) : List Bytes :=
  let h := sealedHeader sealItems
  let sign := fun idx => appendList (appendInt idx ++
    appendBytes (toBigEndian 65 (shortToy.sign (idx + 1) (h.hash shortToy .withoutSeal))))
  [[0xc0], [0xc0], appendBytes (toBigEndian 32 (h.hash shortToy .withSeal)),
    appendList (signers.map sign).flatten]

def sealedBlock (sealItems : List Bytes) (signers : List Nat) : Bytes :=
  appendList ((sealedHeader sealItems).streamRLP .withSeal :: sealedParts sealItems signers).flatten

def genesisHeader : BlockHeader := { number := 0, timestamp := 1 }

def toyChain : BlockChain where
  headerData hash := if hash = 5 then genesisHeader.streamRLP .withSeal else []
  trieRootOver _ := 0
  checkTransaction _ _ := true
  signChecker := some (checkBlockSign shortToy fun _ => NodeTable.consecutive 4 0)

def toyVerify (block : Bytes) : Option VerifiedBlock :=
  toyChain.verifyBlock shortToy block
    { ImportRequirements.inOrderChecks with checkMinerSignatures := true }

theorem genesisHeader_inRange : genesisHeader.InRange := by
  refine ⟨?_, ?_, ?_, ?_, ?_, ?_, ?_, ?_, ?_, ?_, ?_, ?_, ?_, ?_, ?_, ?_⟩ <;> decide +kernel

theorem sealedHeader_inRange : (sealedHeader []).InRange ∧ (sealedHeader [[0x07]]).InRange := by
  constructor <;>
  · refine ⟨?_, ?_, ?_, ?_, ?_, ?_, ?_, ?_, ?_, ?_, ?_, ?_, ?_, ?_, ?_, ?_⟩ <;> decide +kernel

theorem sealedHeader_verify (sealItems : List Bytes) (memo : H256) (block : Bytes)
    (transactions : item block 1 = some [0xc0]) (uncles : item block 2 = some [0xc0]) :
    ({ sealedHeader sealItems with memo := memo } : BlockHeader).verify shortToy
      toyChain.trieRootOver
      .quickNonce { genesisHeader with memo := 5 } (some block) = true := by
  have none : items [0xc0] = some [] := by decide
  simp [BlockHeader.verify, BlockHeader.verifyBody, transactions, uncles, none,
    sealedHeader, toyChain, genesisHeader, BlockHeader.isSet, BlockHeader.hash, Invalid256, u256Add]

theorem genesisHeader_found (sealItems : List Bytes) (memo : H256) :
    toyChain.parentOf shortToy true { sealedHeader sealItems with memo := memo } =
      some { genesisHeader with memo := 5 } := by
  have stored : Item (genesisHeader.streamRLP .withSeal) :=
    (item_appendList _ genesisHeader_inRange.size).1
  simp [BlockChain.parentOf, toyChain, sealedHeader, stored.1, BlockHeader.ofHeaderData,
    stored.construct, BlockHeader.populate_streamRLP _ genesisHeader_inRange]
  rfl

theorem toyVerify_sealedBlock (sealItems : List Bytes) (signers : List Nat)
    (range : (sealedHeader sealItems).InRange) (whole : Items (sealedParts sealItems signers))
    (bound : ((sealedHeader sealItems).streamRLP .withSeal ::
      sealedParts sealItems signers).flatten.length < maxLength)
    (signs : Bytes) (list : (sealedParts sealItems signers)[3]? = some signs)
    (checked : (toVector (toPairLax 65) signs).map (checkBlockSign shortToy
      (fun _ => NodeTable.consecutive 4 0) (sealedHeader sealItems)) = some true) :
    toyVerify (sealedBlock sealItems signers) = some
      ⟨{ sealedHeader sealItems with
          memo := shortToy.sha3 ((sealedHeader sealItems).streamRLP .withSeal) }, [],
        sealedBlock sealItems signers⟩ := by
  have read :=
    ofBlock_written shortToy (sealedHeader sealItems) range (sealedParts sealItems signers)
    whole [0xc0] [0xc0] rfl rfl rfl rfl bound
  have complete : Item ((sealedHeader sealItems).streamRLP .withSeal) :=
    (item_appendList _ range.size).1
  have nth := item_nth_appendList _ (List.forall_mem_cons.mpr ⟨complete, whole⟩) bound
  rw [← sealedBlock] at read
  have part : ∀ (i : Nat) d, (sealedParts sealItems signers)[i]? = some d →
      item (sealedBlock sealItems signers) (i + 1) = some d := by
    intro i d here
    rw [sealedBlock, nth, List.getElem?_cons_succ, here, Option.getD_some]
  have none : items [0xc0] = some [] := by decide
  have transactions := part 0 [0xc0] rfl
  have uncles := part 1 [0xc0] rfl
  have signList := part 3 signs list
  generalize sealedBlock sealItems signers = block at *
  generalize shortToy.sha3 ((sealedHeader sealItems).streamRLP .withSeal) = memo at *
  obtain ⟨pairs, found, accepted⟩ := Option.map_eq_some_iff.mp checked
  refine toyChain.verifyBlock_intro shortToy block _ _ _ [] read rfl
    (genesisHeader_found sealItems memo)
    (sealedHeader_verify sealItems memo block transactions uncles) ?_ rfl ?_
  · simp [BlockChain.verifyUncles, uncles, none]
  · simp only [BlockChain.verifySigns, if_true, toyChain, signList, Option.bind_some, found]
    exact accepted

/-- Two certificates of one header. -/
theorem recertified_block_same_identity :
    let left := sealedBlock [[0x07]] [0, 1, 2]
    let right := sealedBlock [[0x07]] [1, 2, 3]
    ∃ v w, toyVerify left = some v ∧ toyVerify right = some w ∧ v.block ≠ w.block ∧
      v.info.hash shortToy .withSeal = w.info.hash shortToy .withSeal := by
  intro left right
  have first := toyVerify_sealedBlock [[0x07]] [0, 1, 2] sealedHeader_inRange.2 (by decide +kernel)
    (by decide +kernel) _ rfl (by decide +kernel)
  have second := toyVerify_sealedBlock [[0x07]] [1, 2, 3] sealedHeader_inRange.2 (by decide +kernel)
    (by decide +kernel) _ rfl (by decide +kernel)
  refine ⟨_, _, first, second, by decide +kernel, ?_⟩
  have headers : BlockHeader.extractHeader left = BlockHeader.extractHeader right := by
    decide +kernel
  refine (certificate_binds_iff shortToy toyChain Crypto.toy_sha3_injective
    Crypto.toy_sha3_ne_zero _ _
    left right (by decide +kernel) (by decide +kernel) _ _ first second rfl).mpr ?_
  intro i _
  rw [headerItem, headerItem, headers]

/-- A seal item added after the signatures were made changes the identity of the block, and
the same signatures are accepted. -/
theorem added_seal_changes_identity :
    ∃ v w, toyVerify (sealedBlock [] [0, 1, 2]) = some v ∧
      toyVerify (sealedBlock [[0x07]] [0, 1, 2]) = some w ∧
      v.info.hash shortToy .withoutSeal = w.info.hash shortToy .withoutSeal ∧
      v.info.hash shortToy .withSeal ≠ w.info.hash shortToy .withSeal := by
  have first := toyVerify_sealedBlock [] [0, 1, 2] sealedHeader_inRange.1 (by decide +kernel)
    (by decide +kernel) _ rfl (by decide +kernel)
  have second := toyVerify_sealedBlock [[0x07]] [0, 1, 2] sealedHeader_inRange.2 (by decide +kernel)
    (by decide +kernel) _ rfl (by decide +kernel)
  exact ⟨_, _, first, second, by decide +kernel, by decide +kernel⟩

end UtispaceChain
