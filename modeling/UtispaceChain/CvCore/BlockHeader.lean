import UtispaceChain.DevCore.RlpItems
import UtispaceChain.DevCrypto.Common

/-! Block headers: reading them from a block, writing them back, and their two hashes. -/

namespace UtispaceChain

open Lib Rlp

inductive IncludeSeal
  | withoutSeal
  | withSeal
  | onlySeal
  deriving DecidableEq, Repr

inductive Strictness
  | checkEverything
  | justSeal
  | quickNonce
  | ignoreSeal
  | checkNothingNew
  deriving DecidableEq, Repr

/-- `memo` is `m_hash` and `memoWithout` is `m_hashWithout`; zero stands for none. -/
structure BlockHeader where
  parentHash : H256 := 0
  sha3Uncles : H256 := 0
  author : Nat := 0
  stateRoot : H256 := 0
  transactionsRoot : H256 := 0
  receiptsRoot : H256 := 0
  logBloom : Nat := 0
  difficulty : Nat := 0
  number : Nat := Invalid256
  gasLimit : Nat := 0
  gasUsed : Nat := 0
  timestamp : Nat := Invalid256
  extraData : Bytes := []
  genIdx : Nat := 0
  nodeList : List Public := []
  sealItems : List Bytes := []
  memo : H256 := 0
  memoWithout : H256 := 0
  deriving DecidableEq, Repr

namespace BlockHeader

/-- The fixed fields, one item each, in the order of `streamRLPFields`. -/
def fieldItems (h : BlockHeader) : List Bytes :=
  [appendBytes (toBigEndian 32 h.parentHash), appendBytes (toBigEndian 32 h.sha3Uncles),
    appendBytes (toBigEndian 20 h.author), appendBytes (toBigEndian 32 h.stateRoot),
    appendBytes (toBigEndian 32 h.transactionsRoot), appendBytes (toBigEndian 32 h.receiptsRoot),
    appendBytes (toBigEndian 256 h.logBloom), appendInt h.difficulty, appendInt h.number,
    appendInt h.gasLimit, appendInt h.gasUsed, appendInt h.timestamp, appendBytes h.extraData,
    appendInt h.genIdx,
    appendList (h.nodeList.map fun key => appendBytes (toBigEndian 64 key)).flatten]

def streamRLPFields (h : BlockHeader) : Bytes := h.fieldItems.flatten

def streamRLP (h : BlockHeader) : IncludeSeal → Bytes
  | .withoutSeal => appendList h.streamRLPFields
  | .withSeal => appendList (h.streamRLPFields ++ h.sealItems.flatten)
  | .onlySeal => h.sealItems.flatten

variable (C : Crypto)

def hash (h : BlockHeader) : IncludeSeal → H256
  | .withSeal => if h.memo = 0 then C.sha3 (h.streamRLP .withSeal) else h.memo
  | .withoutSeal =>
      if h.memoWithout = 0 then C.sha3 (h.streamRLP .withoutSeal) else h.memoWithout
  | .onlySeal => C.sha3 (h.streamRLP .onlySeal)

def populate (header : Bytes) : Option BlockHeader :=
  ((item header 0).bind (toHash 32)).bind fun parentHash =>
  ((item header 1).bind (toHash 32)).bind fun sha3Uncles =>
  ((item header 2).bind (toHash 20)).bind fun author =>
  ((item header 3).bind (toHash 32)).bind fun stateRoot =>
  ((item header 4).bind (toHash 32)).bind fun transactionsRoot =>
  ((item header 5).bind (toHash 32)).bind fun receiptsRoot =>
  ((item header 6).bind (toHash 256)).bind fun logBloom =>
  ((item header 7).bind (toInt 32)).bind fun difficulty =>
  ((item header 8).bind (toInt 32)).bind fun number =>
  ((item header 9).bind (toInt 32)).bind fun gasLimit =>
  ((item header 10).bind (toInt 32)).bind fun gasUsed =>
  ((item header 11).bind (toInt 32)).bind fun timestamp =>
  ((item header 12).bind toBytes).bind fun extraData =>
  ((item header 13).bind (toInt 32)).bind fun genIdx =>
  ((item header 14).bind (toVector (toHashLax 64))).bind fun nodeList =>
  (items header).map fun all =>
    { parentHash, sha3Uncles, author, stateRoot, transactionsRoot, receiptsRoot,
      logBloom, difficulty, number, gasLimit, gasUsed, timestamp, extraData, genIdx, nodeList,
      sealItems := all.drop 15 }

/-- The constructor from header data; `hashWith` overrides the hash unless it is zero. -/
def ofHeaderData (header : Bytes) (hashWith : H256) : Option BlockHeader :=
  (construct header).bind fun data => (populate data).map fun h =>
    { h with memo := if hashWith = 0 then C.sha3 data else hashWith }

/-- The parts of a block that are its own header, transactions and uncles. -/
def extractHeader (block : Bytes) : Option Bytes :=
  (construct block).bind fun root =>
    if isList root = false then none
    else (item root 0).bind fun header =>
      if isList header = false then none
      else (item root 1).bind fun transactions =>
        if isList transactions = false then none
        else (item root 2).bind fun uncles =>
          if isList uncles = false then none else some header

def ofBlock (block : Bytes) : Option BlockHeader :=
  (extractHeader block).bind fun header => (populate header).map fun h =>
    { h with memo := C.sha3 header }

def isSet (h : BlockHeader) : Bool := decide (h.timestamp ≠ Invalid256)

variable (trieRootOver : List Bytes → H256)

/-- The transactions and uncles of a block are the ones its header commits to. -/
def verifyBody (h : BlockHeader) (block : Bytes) : Bool :=
  match (item block 1).bind items, item block 2 with
  | some transactions, some uncles =>
      decide (h.transactionsRoot = trieRootOver transactions) &&
        decide (h.sha3Uncles = C.sha3 uncles)
  | _, _ => false

def verify (strictness : Strictness) (h parent : BlockHeader) (block : Option Bytes) : Bool :=
  decide (h.number < 2 ^ 32) &&
  (decide (strictness = .checkNothingNew) || decide (h.gasUsed ≤ h.gasLimit)) &&
  (!parent.isSet ||
    ((decide (h.parentHash = 0) || decide (parent.hash C .withSeal = h.parentHash)) &&
      decide (parent.timestamp < h.timestamp) && decide (h.number = u256Add parent.number 1))) &&
  (match block with
    | none => true
    | some block => h.verifyBody C trieRootOver block)

theorem populate_forgets {header : Bytes} {h : BlockHeader} (read : populate header = some h) :
    h.memo = 0 ∧ h.memoWithout = 0 := by
  iterate 15 obtain ⟨_, -, read⟩ := Option.bind_eq_some_iff.mp read
  obtain ⟨all, -, rfl⟩ := Option.map_eq_some_iff.mp read
  exact ⟨rfl, rfl⟩

/-- A header read from a block does not remember its hash without the seal. -/
theorem ofBlock_hash {block : Bytes} {h : BlockHeader} (read : ofBlock C block = some h) :
    h.hash C .withoutSeal = C.sha3 (h.streamRLP .withoutSeal) := by
  obtain ⟨header, -, read⟩ := Option.bind_eq_some_iff.mp read
  obtain ⟨bare, populated, rfl⟩ := Option.map_eq_some_iff.mp read
  exact if_pos (populate_forgets populated).2

/-! What a header read from a block is bound to -/

structure ReadFrom (h : BlockHeader) (all : List Bytes) : Prop where
  whole : Items all
  -- the strictly read fields have one encoding
  fixed : ∀ k, k < 14 → k ≠ 12 → all[k]? = h.fieldItems[k]?
  extraData : toBytes ((all[12]?).getD []) = some h.extraData
  nodeList : toVector (toHashLax 64) ((all[14]?).getD []) = some h.nodeList

theorem populate_readFrom (header : Bytes) (h : BlockHeader) (whole : Item header)
    (list : isList header = true) (read : populate header = some h) :
    ∃ all, items header = some all ∧ h.ReadFrom all := by
  obtain ⟨f0, r0, read⟩ := Option.bind_eq_some_iff.mp read
  obtain ⟨f1, r1, read⟩ := Option.bind_eq_some_iff.mp read
  obtain ⟨f2, r2, read⟩ := Option.bind_eq_some_iff.mp read
  obtain ⟨f3, r3, read⟩ := Option.bind_eq_some_iff.mp read
  obtain ⟨f4, r4, read⟩ := Option.bind_eq_some_iff.mp read
  obtain ⟨f5, r5, read⟩ := Option.bind_eq_some_iff.mp read
  obtain ⟨f6, r6, read⟩ := Option.bind_eq_some_iff.mp read
  obtain ⟨f7, r7, read⟩ := Option.bind_eq_some_iff.mp read
  obtain ⟨f8, r8, read⟩ := Option.bind_eq_some_iff.mp read
  obtain ⟨f9, r9, read⟩ := Option.bind_eq_some_iff.mp read
  obtain ⟨f10, r10, read⟩ := Option.bind_eq_some_iff.mp read
  obtain ⟨f11, r11, read⟩ := Option.bind_eq_some_iff.mp read
  obtain ⟨f12, r12, read⟩ := Option.bind_eq_some_iff.mp read
  obtain ⟨f13, r13, read⟩ := Option.bind_eq_some_iff.mp read
  obtain ⟨f14, r14, read⟩ := Option.bind_eq_some_iff.mp read
  obtain ⟨all, found, rfl⟩ := Option.map_eq_some_iff.mp read
  obtain ⟨-, split, nth⟩ := items_spec header all whole list found
  have hashItem : ∀ (i size : Nat) value, (item header i).bind (toHash size) = some value →
      all[i]? = some (appendBytes (toBigEndian size value)) := by
    intro i size value strict
    rw [nth, Option.bind_some] at strict
    obtain ⟨d, here, complete, again⟩ := read_nth (toHash size) rfl all split i value strict
    rw [here, toHash_canonical size d value complete again]
  have intItem : ∀ (i : Nat) value, (item header i).bind (toInt 32) = some value →
      all[i]? = some (appendInt value) := by
    intro i value strict
    rw [nth, Option.bind_some] at strict
    obtain ⟨d, here, complete, again⟩ := read_nth (toInt 32) rfl all split i value strict
    rw [here, toInt_canonical 32 d value complete again]
  rw [nth, Option.bind_some] at r12 r14
  refine ⟨all, found, split, ?_, r12, r14⟩
  intro k bound other
  interval_cases k
  · exact hashItem 0 32 f0 r0
  · exact hashItem 1 32 f1 r1
  · exact hashItem 2 20 f2 r2
  · exact hashItem 3 32 f3 r3
  · exact hashItem 4 32 f4 r4
  · exact hashItem 5 32 f5 r5
  · exact hashItem 6 256 f6 r6
  · exact intItem 7 f7 r7
  · exact intItem 8 f8 r8
  · exact intItem 9 f9 r9
  · exact intItem 10 f10 r10
  · exact intItem 11 f11 r11
  · exact absurd rfl other
  · exact intItem 13 f13 r13

theorem mapM_length {α : Type} (read : Bytes → Option α) (l : List Bytes) (values : List α)
    (found : l.mapM read = some values) : values.length = l.length := by
  induction l generalizing values with
  | nil =>
      cases found
      rfl
  | cons d rest ih =>
      rw [List.mapM_cons] at found
      obtain ⟨first, -, later⟩ := Option.bind_eq_some_iff.mp found
      obtain ⟨others, tail, shape⟩ := Option.bind_eq_some_iff.mp later
      cases shape
      rw [List.length_cons, List.length_cons, ih others tail]

theorem toVector_length {α : Type} (read : Bytes → Option α) (d : Bytes) (values : List α)
    (whole : d = [] ∨ Item d) (found : toVector read d = some values) :
    values.length ≤ d.length := by
  unfold toVector at found
  by_cases list : isList d = true
  swap
  · rw [if_neg list] at found
    cases found
    exact Nat.zero_le _
  rw [if_pos list] at found
  obtain ⟨l, split, mapped⟩ := Option.bind_eq_some_iff.mp found
  have full : Item d := by
    rcases whole with rfl | complete
    · cases list
    · exact complete
  obtain ⟨p, payloadRead, -⟩ := full.eq_appendList d list
  have inner := payload_length d p payloadRead
  rw [items, if_pos list, payloadRead, Option.bind_some] at split
  obtain ⟨joined, complete⟩ := itemsOf_spec _ p l split
  have count := Items.length_le l complete
  rw [← joined] at count
  rw [mapM_length read l values mapped]
  omega

theorem ReadFrom.written {h : BlockHeader} {all : List Bytes} (read : h.ReadFrom all)
    (small : all.flatten.length < 2 ^ 57) :
    Items h.fieldItems ∧ h.streamRLPFields.length < maxLength := by
  have nth : ∀ i : Nat, (all[i]?).getD [] = [] ∨ Item ((all[i]?).getD []) := by
    intro i
    cases here : all[i]? with
    | none => exact Or.inl rfl
    | some d => exact Or.inr (read.whole d (List.mem_of_getElem? here))
  have short : ∀ i : Nat, ((all[i]?).getD []).length < 2 ^ 57 := by
    intro i
    cases here : all[i]? with
    | none =>
        rw [Option.getD_none, List.length_nil]
        omega
    | some d => exact (length_le_flatten all d (List.mem_of_getElem? here)).trans_lt small
  have fixed : ∀ (k : Nat) d, k < 14 → k ≠ 12 → h.fieldItems[k]? = some d → Item d ∧
      d.length < 2 ^ 57 := by
    intro k d bound other here
    have there := (read.fixed k bound other).trans here
    have size := short k
    rw [there, Option.getD_some] at size
    exact ⟨read.whole d (List.mem_of_getElem? there), size⟩
  have extra : h.extraData.length < 2 ^ 57 := by
    have source := read.extraData
    unfold toBytes at source
    split_ifs at source with data
    · exact (payload_length _ _ source).trans_lt (short 12)
    · rw [← Option.some.inj source, List.length_nil]
      omega
  have keys : h.nodeList.length < 2 ^ 57 :=
    (toVector_length _ _ _ (nth 14) read.nodeList).trans_lt (short 14)
  have keySize : ∀ key, (appendBytes (toBigEndian 64 key)).length = 66 := by
    intro key
    have one : (toCompactBigEndian 64).length = 1 := by decide
    simp [appendBytes, pushCount, one]
  have payloadSize : (h.nodeList.map fun key => appendBytes (toBigEndian 64 key)).flatten.length =
      66 * h.nodeList.length := by
    induction h.nodeList with
    | nil => rfl
    | cons key rest ih =>
        rw [List.map_cons, List.flatten_cons, List.length_append, keySize, ih, List.length_cons]
        omega
  have room : 81 * 2 ^ 57 < maxLength := by decide
  have extraItem := (item_appendBytes h.extraData (by omega)).1
  have listItem := (item_appendList (h.nodeList.map fun key =>
    appendBytes (toBigEndian 64 key)).flatten (by omega)).1
  have extraSize := appendBytes_length h.extraData (by omega)
  have listSize := (appendList_length (h.nodeList.map fun key =>
    appendBytes (toBigEndian 64 key)).flatten (by omega))
  constructor
  · intro d member
    obtain ⟨k, here⟩ := List.mem_iff_getElem?.mp member
    by_cases bound : k < 14
    · by_cases other : k = 12
      · subst other
        cases here
        exact extraItem
      · exact (fixed k d bound other here).1
    · have last : k = 14 := by
        have inside := (List.getElem?_eq_some_iff.mp here).1
        simp only [fieldItems, List.length_cons, List.length_nil] at inside
        omega
      subst last
      cases here
      exact listItem
  · have front : (h.fieldItems.take 12).flatten.length ≤ 12 * 2 ^ 57 := by
      refine flatten_length_le (h.fieldItems.take 12) (2 ^ 57) ?_
      intro d member
      obtain ⟨k, here⟩ := List.mem_iff_getElem?.mp member
      have inside : k < 12 := (List.getElem?_eq_some_iff.mp here).1
      rw [List.getElem?_take_of_lt inside] at here
      exact (fixed k d (by omega) (by omega) here).2.le
    have genIdx := (fixed 13 _ (by decide) (by decide) rfl).2
    have split : h.streamRLPFields = (h.fieldItems.take 12).flatten ++ (appendBytes h.extraData ++
        (appendInt h.genIdx ++ appendList (h.nodeList.map fun key =>
          appendBytes (toBigEndian 64 key)).flatten)) := by
      simp [streamRLPFields, fieldItems]
    rw [split, List.length_append, List.length_append, List.length_append]
    omega

/-! A written header is read back -/

/-- The fields fit their types, the seal is made of items, and the whole fits a length field. -/
structure InRange (h : BlockHeader) : Prop where
  parentHash : h.parentHash < 256 ^ 32
  sha3Uncles : h.sha3Uncles < 256 ^ 32
  author : h.author < 256 ^ 20
  stateRoot : h.stateRoot < 256 ^ 32
  transactionsRoot : h.transactionsRoot < 256 ^ 32
  receiptsRoot : h.receiptsRoot < 256 ^ 32
  logBloom : h.logBloom < 256 ^ 256
  difficulty : h.difficulty < 2 ^ 256
  number : h.number < 2 ^ 256
  gasLimit : h.gasLimit < 2 ^ 256
  gasUsed : h.gasUsed < 2 ^ 256
  timestamp : h.timestamp < 2 ^ 256
  genIdx : h.genIdx < 2 ^ 256
  nodeList : ∀ key ∈ h.nodeList, key < 256 ^ 64
  sealed : Items h.sealItems
  size : (h.streamRLPFields ++ h.sealItems.flatten).length < maxLength

theorem InRange.sizes {h : BlockHeader} (range : h.InRange) : h.extraData.length < maxLength ∧
    (h.nodeList.map fun key => appendBytes (toBigEndian 64 key)).flatten.length < maxLength := by
  have total := range.size
  rw [List.length_append] at total
  have extra := length_le_flatten h.fieldItems (appendBytes h.extraData) (by simp [fieldItems])
  have nodes := length_le_flatten h.fieldItems (appendList (h.nodeList.map fun key =>
    appendBytes (toBigEndian 64 key)).flatten) (by simp [fieldItems])
  have extraSize := length_le_appendBytes h.extraData
  have nodesSize := length_le_appendList (h.nodeList.map fun key =>
    appendBytes (toBigEndian 64 key)).flatten
  unfold streamRLPFields at total
  omega

theorem item_hash (size value : Nat) (room : size < maxLength) :
    Item (appendBytes (toBigEndian size value)) :=
  (item_appendBytes _ (by rw [toBigEndian_length]; exact room)).1

theorem InRange.items {h : BlockHeader} (range : h.InRange) :
    Items (h.fieldItems ++ h.sealItems) := by
  obtain ⟨extra, nodes⟩ := range.sizes
  have room : 32 < maxLength := by decide
  have fields : Items h.fieldItems := by
    simp only [Items, fieldItems, List.forall_mem_cons]
    exact ⟨item_hash 32 _ room, item_hash 32 _ room, item_hash 20 _ (by decide),
      item_hash 32 _ room, item_hash 32 _ room, item_hash 32 _ room, item_hash 256 _ (by decide),
      item_appendInt _ range.difficulty, item_appendInt _ range.number,
      item_appendInt _ range.gasLimit, item_appendInt _ range.gasUsed,
      item_appendInt _ range.timestamp, (item_appendBytes _ extra).1,
      item_appendInt _ range.genIdx, (item_appendList _ nodes).1, fun _ member => nomatch member⟩
  intro d member
  rcases List.mem_append.mp member with field | other
  · exact fields d field
  · exact range.sealed d other

theorem populate_streamRLP (h : BlockHeader) (range : h.InRange) :
    populate (h.streamRLP .withSeal) = some { h with memo := 0, memoWithout := 0 } := by
  obtain ⟨extra, nodes⟩ := range.sizes
  have joined : h.streamRLP .withSeal = appendList (h.fieldItems ++ h.sealItems).flatten := by
    rw [List.flatten_append]
    rfl
  have size : (h.fieldItems ++ h.sealItems).flatten.length < maxLength := by
    rw [List.flatten_append]
    exact range.size
  rw [joined]
  have field : ∀ (i : Nat) d, h.fieldItems[i]? = some d →
      item (appendList (h.fieldItems ++ h.sealItems).flatten) i = some d := by
    intro i d here
    have inside := (List.getElem?_eq_some_iff.mp here).1
    rw [item_nth_appendList _ range.items size i, List.getElem?_append_left inside, here,
      Option.getD_some]
  have keys : toVector (toHashLax 64) (appendList (h.nodeList.map fun key =>
      appendBytes (toBigEndian 64 key)).flatten) = some h.nodeList := by
    refine toVector_appendList (toHashLax 64) _ h.nodeList ?_ nodes ?_
    · intro d member
      obtain ⟨key, -, rfl⟩ := List.mem_map.mp member
      exact item_hash 64 key (by decide)
    · intro key member
      exact toHashLax_appendBytes 64 key (by decide) (range.nodeList key member)
  have room : 32 < maxLength := by decide
  have rest : (h.fieldItems ++ h.sealItems).drop 15 = h.sealItems := rfl
  unfold populate
  rw [field 0 _ rfl, Option.bind_some, toHash_appendBytes 32 _ room range.parentHash,
    Option.bind_some, field 1 _ rfl, Option.bind_some,
    toHash_appendBytes 32 _ room range.sha3Uncles, Option.bind_some,
    field 2 _ rfl, Option.bind_some, toHash_appendBytes 20 _ (by decide) range.author,
    Option.bind_some, field 3 _ rfl, Option.bind_some, toHash_appendBytes 32 _ room range.stateRoot,
    Option.bind_some, field 4 _ rfl, Option.bind_some,
    toHash_appendBytes 32 _ room range.transactionsRoot, Option.bind_some,
    field 5 _ rfl, Option.bind_some, toHash_appendBytes 32 _ room range.receiptsRoot,
    Option.bind_some, field 6 _ rfl, Option.bind_some,
    toHash_appendBytes 256 _ (by decide) range.logBloom, Option.bind_some,
    field 7 _ rfl, Option.bind_some, toInt_appendInt _ range.difficulty, Option.bind_some,
    field 8 _ rfl, Option.bind_some, toInt_appendInt _ range.number, Option.bind_some,
    field 9 _ rfl, Option.bind_some, toInt_appendInt _ range.gasLimit, Option.bind_some,
    field 10 _ rfl, Option.bind_some, toInt_appendInt _ range.gasUsed, Option.bind_some,
    field 11 _ rfl, Option.bind_some, toInt_appendInt _ range.timestamp, Option.bind_some,
    field 12 _ rfl, Option.bind_some, toBytes_appendBytes _ extra, Option.bind_some,
    field 13 _ rfl, Option.bind_some, toInt_appendInt _ range.genIdx, Option.bind_some,
    field 14 _ rfl, Option.bind_some, keys, Option.bind_some,
    items_appendList _ range.items size, Option.map_some, rest]

def Remembers (h : BlockHeader) : Prop := h.memo = 0 ∨ h.memo = C.sha3 (h.streamRLP .withSeal)

theorem hash_withSeal {h : BlockHeader} (remembers : h.Remembers C) :
    h.hash C .withSeal = C.sha3 (h.streamRLP .withSeal) := by
  rw [hash]
  rcases remembers with none | same
  · rw [if_pos none]
  · split_ifs with zero
    · rfl
    · exact same

theorem construct_streamRLP {h : BlockHeader} (range : h.InRange) :
    construct (h.streamRLP .withSeal) = some (h.streamRLP .withSeal) :=
  (item_appendList _ range.size).1.construct

theorem ofHeaderData_streamRLP {h : BlockHeader} (range : h.InRange) :
    ofHeaderData C (h.streamRLP .withSeal) 0 =
      some { h with memo := C.sha3 (h.streamRLP .withSeal), memoWithout := 0 } := by
  rw [ofHeaderData, construct_streamRLP range, Option.bind_some, populate_streamRLP h range,
    Option.map_some, if_pos rfl]

end BlockHeader

end UtispaceChain
