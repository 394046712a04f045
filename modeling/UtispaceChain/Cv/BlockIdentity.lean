import UtispaceChain.Cv.BlockQueue

/-! What `verifyBlock` guarantees of the hashes in the headers it returns. -/

namespace UtispaceChain

open Lib Rlp

def BlockChain.world (C : Crypto) (chain : BlockChain) (isKnown : H256 → Bool) (utcTime : Nat)
    (allowFutureBlocks : Bool) : World where
  verifyBlock := chain.verifyBlock C
  isKnown
  utcTime
  allowFutureBlocks

def Crypto.uncleLists (C : Crypto) : Set H256 :=
  { u | ∃ d uncles, items d = some uncles ∧
    (∀ x ∈ uncles, ∃ h, BlockHeader.ofHeaderData C x 0 = some h) ∧
    u = C.sha3 d }

theorem toHash_length {size value : Nat} {d : Bytes} (large : 1 < size)
    (read : toHash size d = some value) :
    size < d.length := by
  obtain ⟨good, -, rest⟩ := Option.bind_eq_some_iff.mp read
  obtain ⟨p, found, checked⟩ := Option.bind_eq_some_iff.mp rest
  obtain ⟨strict, -⟩ := Option.ite_none_right_eq_some.mp checked
  obtain ⟨l, measured, cut⟩ := Option.bind_eq_some_iff.mp found
  obtain ⟨-, cut⟩ := Option.ite_none_left_eq_some.mp cut
  cases cut
  have fits : payloadOffset d + l ≤ d.length := by
    by_contra beyond
    have empty : cropped d (payloadOffset d) l = [] := by rw [cropped, if_neg beyond]
    rw [empty, List.length_nil] at strict
    omega
  have long : (cropped d (payloadOffset d) l).length ≤ l := by
    rw [cropped, if_pos fits]
    exact List.length_take_le _ _
  have offset : 0 < payloadOffset d ∨ l = 1 := by
    cases d with
    | nil => exact .inl Nat.one_pos
    | cons n rest =>
        by_cases single : n.toNat < 0x80
        · obtain ⟨-, -, e⟩ := Option.bind_eq_some_iff.mp measured
          rw [if_pos single] at e
          exact .inr (Option.some.inj e).symm
        · refine .inl ?_
          simp only [payloadOffset, if_neg single]
          split
          · exact Nat.one_pos
          · split
            · exact Nat.add_pos_left Nat.one_pos _
            · split
              · exact Nat.one_pos
              · exact Nat.add_pos_left Nat.one_pos _
  omega

theorem BlockHeader.populate_payload {d : Bytes} {h : BlockHeader}
    (read : BlockHeader.populate d = some h) :
    ∃ p, payload d = some p ∧ 32 < p.length := by
  obtain ⟨value, first, -⟩ := Option.bind_eq_some_iff.mp read
  obtain ⟨x, found, hash⟩ := Option.bind_eq_some_iff.mp first
  obtain ⟨p, here, nth⟩ := Option.bind_eq_some_iff.mp found
  obtain ⟨size, -, rfl⟩ := Option.map_eq_some_iff.mp nth
  have long := toHash_length (by omega) hash
  rw [List.length_take] at long
  exact ⟨p, here, by omega⟩

section Laws

variable {C : Crypto} {chain : BlockChain} {block header : Bytes} {h : BlockHeader}

theorem ofBlock_header (read : BlockHeader.ofBlock C block = some h) :
    ∃ header bare, BlockHeader.extractHeader block = some header ∧
    BlockHeader.populate header = some bare ∧
      h = { bare with memo := C.sha3 header } := by
  obtain ⟨header, found, rest⟩ := Option.bind_eq_some_iff.mp read
  obtain ⟨bare, populated, e⟩ := Option.map_eq_some_iff.mp rest
  exact ⟨header, bare, found, populated, e.symm⟩

theorem extractHeader_first (found : BlockHeader.extractHeader block = some header) :
    item block 0 = some header := by
  obtain ⟨root, built, rest⟩ := Option.bind_eq_some_iff.mp found
  obtain ⟨size, -, same⟩ := Option.bind_eq_some_iff.mp built
  obtain ⟨-, same⟩ := Option.ite_none_right_eq_some.mp same
  cases same
  obtain ⟨-, rest⟩ := Option.ite_none_left_eq_some.mp rest
  obtain ⟨first, here, rest⟩ := Option.bind_eq_some_iff.mp rest
  obtain ⟨-, rest⟩ := Option.ite_none_left_eq_some.mp rest
  obtain ⟨transactions, -, rest⟩ := Option.bind_eq_some_iff.mp rest
  obtain ⟨-, rest⟩ := Option.ite_none_left_eq_some.mp rest
  obtain ⟨uncles, -, rest⟩ := Option.bind_eq_some_iff.mp rest
  obtain ⟨-, rest⟩ := Option.ite_none_left_eq_some.mp rest
  cases rest
  exact here

theorem ofBlock_hash (nonzero : ∀ bytes, C.sha3 bytes ≠ 0)
    (read : BlockHeader.ofBlock C block = some h) :
    h.hash C .withSeal = BlockHeader.headerHashFromBlock C block := by
  obtain ⟨header, bare, found, -, rfl⟩ := ofBlock_header read
  rw [BlockHeader.hash, if_neg (nonzero header), BlockHeader.headerHashFromBlock,
    extractHeader_first found]
  rfl

theorem ofBlock_hash_not_uncles (injective : Function.Injective C.sha3)
    (nonzero : ∀ bytes, C.sha3 bytes ≠ 0) (read : BlockHeader.ofBlock C block = some h) :
    h.hash C .withSeal ∉ C.uncleLists := by
  rintro ⟨d, uncles, split, headers, same⟩
  obtain ⟨header, bare, found, populated, rfl⟩ := ofBlock_header read
  rw [BlockHeader.hash, if_neg (nonzero header)] at same
  obtain rfl := injective same
  obtain ⟨whole, list, -⟩ := extractHeader_item found
  obtain ⟨all, split', readFrom⟩ := BlockHeader.populate_readFrom header bare whole list populated
  rw [split] at split'
  cases split'
  have first := readFrom.fixed 0 (by omega) (by omega)
  simp only [BlockHeader.fieldItems, List.getElem?_cons_zero] at first
  obtain ⟨g, parsed⟩ := headers _ (List.mem_of_getElem? first)
  obtain ⟨data, built, populated'⟩ := Option.bind_eq_some_iff.mp parsed
  obtain ⟨size, -, e⟩ := Option.bind_eq_some_iff.mp built
  obtain ⟨-, e⟩ := Option.ite_none_right_eq_some.mp e
  cases e
  obtain ⟨bare', populated', -⟩ := Option.map_eq_some_iff.mp populated'
  obtain ⟨p, here, long⟩ := BlockHeader.populate_payload populated'
  rw [payload_appendBytes _ (by rw [toBigEndian_length]; decide)] at here
  cases here
  rw [toBigEndian_length] at long
  omega

theorem verifyBlock_uncles {ir : ImportRequirements} {v : VerifiedBlock}
    (accepted : chain.verifyBlock C block ir = some v) (asked : ir.uncleBasic = true) :
    v.info.sha3Uncles ∈ C.uncleLists := by
  obtain ⟨h, read, rest⟩ := Option.bind_eq_some_iff.mp accepted
  obtain ⟨-, rest⟩ := Option.ite_none_left_eq_some.mp rest
  obtain ⟨parent, -, rest⟩ := Option.bind_eq_some_iff.mp rest
  obtain ⟨valid, rest⟩ := Option.ite_none_left_eq_some.mp rest
  obtain ⟨uncles, rest⟩ := Option.ite_none_left_eq_some.mp rest
  obtain ⟨transactions, -, rest⟩ := Option.bind_eq_some_iff.mp rest
  obtain ⟨-, rest⟩ := Option.ite_none_left_eq_some.mp rest
  cases rest
  simp only [BlockHeader.verify, Bool.and_eq_false_iff, not_or, Bool.not_eq_false] at valid
  have body := valid.2
  simp only [BlockHeader.verifyBody] at body
  split at body
  case h_2 => simp at body
  case h_1 transactions' d _ here =>
    simp only [Bool.and_eq_true, decide_eq_true_eq] at body
    simp only [BlockChain.verifyUncles, asked, Bool.true_or, if_true, here,
      Option.bind_some] at uncles
    cases split : items d with
    | none => simp [split] at uncles
    | some l =>
        simp only [split, Bool.not_eq_false, List.all_eq_true] at uncles
        refine ⟨d, l, split, fun x hx => ?_, body.2⟩
        have checked := uncles x hx
        unfold BlockChain.verifyUncle at checked
        cases parsed : BlockHeader.ofHeaderData C x 0 with
        | none => simp [parsed] at checked
        | some g => exact ⟨g, rfl⟩

theorem ofBlock_unique (injective : Function.Injective C.sha3) (nonzero : ∀ bytes, C.sha3 bytes ≠ 0)
    {block' : Bytes} {h' : BlockHeader} (read : BlockHeader.ofBlock C block = some h)
    (read' : BlockHeader.ofBlock C block' = some h')
    (same : h.hash C .withSeal = h'.hash C .withSeal) : h = h' := by
  obtain ⟨header, bare, found, populated, rfl⟩ := ofBlock_header read
  obtain ⟨header', bare', found', populated', rfl⟩ := ofBlock_header read'
  rw [BlockHeader.hash, if_neg (nonzero header), BlockHeader.hash, if_neg (nonzero header')] at same
  obtain rfl := injective same
  rw [populated] at populated'
  cases populated'
  rfl

open Classical in
/-- The parent in the header of the given hash, if a block has such a header. -/
noncomputable def Crypto.parentOf (C : Crypto) (hash : H256) : H256 :=
  if found : ∃ h, (∃ block, BlockHeader.ofBlock C block = some h) ∧ h.hash C .withSeal = hash
    then found.choose.parentHash else 0

theorem parentOf_hash (injective : Function.Injective C.sha3) (nonzero : ∀ bytes, C.sha3 bytes ≠ 0)
    (read : BlockHeader.ofBlock C block = some h) :
    h.parentHash = C.parentOf (h.hash C .withSeal) := by
  have found : ∃ g, (∃ block, BlockHeader.ofBlock C block = some g) ∧
      g.hash C .withSeal = h.hash C .withSeal :=
    ⟨h, ⟨block, read⟩, rfl⟩
  obtain ⟨⟨block', read'⟩, same⟩ := found.choose_spec
  rw [Crypto.parentOf, dif_pos found]
  exact congrArg BlockHeader.parentHash (ofBlock_unique injective nonzero read read' same.symm)

noncomputable def Crypto.facts (C : Crypto) : QueueFacts where
  uncleLists := C.uncleLists
  parentOf := C.parentOf

theorem BlockChain.world_lawful (injective : Function.Injective C.sha3)
    (nonzero : ∀ bytes, C.sha3 bytes ≠ 0) (isKnown : H256 → Bool) (utcTime : Nat)
    (allowFutureBlocks : Bool) {rooted : Set H256} {whole : Set Bytes}
    (there : ∀ h ∈ rooted, isKnown h = true)
    (fits : ∀ b ir v, chain.verifyBlock C b ir = some v → b ∈ whole) :
    (chain.world C isKnown utcTime allowFutureBlocks).Lawful C { C.facts with rooted, whole } where
  hash accepted := ofBlock_hash nonzero (chain.verifyBlock_info C _ _ _ accepted)
  data ir := by
    have read : BlockHeader.ofBlock C [] = none := by
      simp [BlockHeader.ofBlock, BlockHeader.extractHeader, construct, actualSize, isList,
        item, payload, Rlp.length, nthItem, cropped, sizeAsEncoded]
    simp [BlockChain.world, BlockChain.verifyBlock, read]
  header accepted :=
    ofBlock_hash_not_uncles injective nonzero (chain.verifyBlock_info C _ _ _ accepted)
  uncles accepted asked := verifyBlock_uncles accepted asked
  parent accepted := parentOf_hash injective nonzero (chain.verifyBlock_info C _ _ _ accepted)
  rooted := there
  whole accepted := fits _ _ _ accepted

end Laws

def World.OfChain (C : Crypto) (w : World) : Prop :=
  ∃ (chain : BlockChain) (isKnown : H256 → Bool) (utcTime : Nat) (allowFutureBlocks : Bool),
    w = chain.world C isKnown utcTime allowFutureBlocks

theorem World.OfChain.lawful {C : Crypto} (injective : Function.Injective C.sha3)
    (nonzero : ∀ bytes, C.sha3 bytes ≠ 0) {w : World} (given : w.OfChain C) :
    w.Lawful C C.facts := by
  obtain ⟨chain, isKnown, utcTime, allowFutureBlocks, rfl⟩ := given
  exact chain.world_lawful injective nonzero isKnown utcTime allowFutureBlocks (by nofun)
    fun _ _ _ _ => trivial

end UtispaceChain
