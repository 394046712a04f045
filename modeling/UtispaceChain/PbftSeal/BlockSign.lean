import Mathlib.Data.Finset.Card
import Mathlib.Data.List.GetD
import UtispaceChain.CvCore.BlockHeader
import UtispaceChain.Cv.NodeConnParams

/-! The certificate of a block: signatures of its miners over the header without the seal. -/

namespace UtispaceChain

open Lib

/-- `static_cast<int>` of a `u256`: the low limb, cut off at the largest `int`. -/
def asInt (x : Nat) : Nat := min (x % 2 ^ 64) (2 ^ 31 - 1)

/-- The number of signatures asked of a list of `n` miners; `n - 1` wraps around for none. -/
def signQuorum (n : Nat) : Nat := if n = 0 then 2 ^ 64 - (2 ^ 64 - 1) / 3 else n - (n - 1) / 3

section Check

variable (C : Crypto) (getAllNodeConnInfo : Int → NodeTable)

/-- The index is in bounds and the signature is of the miner it names. -/
def checkSignEntry (miners : List Public) (hash : H256) (entry : Nat × Signature) : Bool :=
  decide (entry.1 < miners.length) && C.verify (miners.getD (asInt entry.1) 0) entry.2 hash

def checkBlockSign (header : BlockHeader) (signList : List (Nat × Signature)) : Bool :=
  let listed := (getAllNodeConnInfo (asInt (u256Sub header.number 1))).getMinerList []
  if listed.1 = false then false
  else if header.nodeList ≠ listed.2 then false
  else if signList.length < signQuorum listed.2.length then false
  else signList.all (checkSignEntry C listed.2 (header.hash C .withoutSeal))

/-- The miners of the list with a signature of the hash among the entries. -/
def certifiers (miners : List Public) (hash : H256) (signList : List (Nat × Signature)) :
    Finset Public :=
  miners.toFinset.filter fun key => ∃ entry ∈ signList, C.verify key entry.2 hash = true

end Check

def places (signList : List (Nat × Signature)) : Finset Nat :=
  (signList.map fun entry => asInt entry.1).toFinset

theorem asInt_le (x : Nat) : asInt x ≤ x :=
  (Nat.min_le_left _ _).trans (Nat.mod_le x _)

namespace NodeTable

theorem fillMinerList_slot (minerNum : Nat) (nodes : List NodeConnParams) (list : List Public)
    (i : Nat) (key : Public) (nonzero : key ≠ 0)
    (slot : (fillMinerList minerNum nodes list).2.getD i 0 = key) :
    list.getD i 0 = key ∨ ∃ node ∈ nodes, node.idx % 2 ^ 32 = i ∧ node.nodeId = key := by
  induction nodes generalizing list with
  | nil => exact Or.inl slot
  | cons node rest ih =>
      unfold fillMinerList at slot
      generalize place : node.idx % 2 ^ 32 = idx at slot
      by_cases outside : minerNum ≤ idx
      · rw [if_pos outside] at slot
        exact Or.inl slot
      rw [if_neg outside] at slot
      rcases ih _ slot with old | ⟨later, member, found⟩
      · by_cases here : idx = i
        · subst here
          by_cases inside : idx < list.length
          · refine Or.inr ⟨node, List.mem_cons_self, place, ?_⟩
            rwa [List.getD_eq_getElem _ _ (by simpa using inside), List.getElem_set_self] at old
          · have empty : (list.set idx node.nodeId).getD idx 0 = 0 :=
              List.getD_eq_default _ _ (by simpa using inside)
            exact absurd (empty.symm.trans old).symm nonzero
        · refine Or.inl ?_
          rwa [List.getD_eq_getElem?_getD, List.getElem?_set_ne here, ← List.getD_eq_getElem?_getD]
          at old
      · exact Or.inr ⟨later, List.mem_cons_of_mem _ member, found⟩

theorem getMinerList_injective (nodes : NodeTable) (i j : Nat) (key : Public) (nonzero : key ≠ 0)
    (left : (nodes.getMinerList []).2.getD i 0 = key)
    (right : (nodes.getMinerList []).2.getD j 0 = key) : i = j := by
  have blank : ∀ k, (resize [] nodes.getMinerNum).getD k 0 ≠ key := by
    intro k filled
    have zero : (resize [] nodes.getMinerNum).getD k 0 = 0 := by
      simp only [resize, List.take_nil, List.nil_append, List.length_nil, Nat.sub_zero,
        List.getD_eq_getElem?_getD, List.getElem?_replicate]
      split_ifs <;> rfl
    exact nonzero (filled.symm.trans zero)
  obtain ⟨a, aMember, aIdx, aKey⟩ :=
    (fillMinerList_slot _ _ _ i key nonzero left).resolve_left (blank i)
  obtain ⟨b, bMember, bIdx, bKey⟩ :=
    (fillMinerList_slot _ _ _ j key nonzero right).resolve_left (blank j)
  have distinct : (nodes.entries.map NodeConnParams.nodeId).Nodup :=
    nodes.sorted.imp (fun less => Nat.ne_of_lt less)
  have same : a = b := List.inj_on_of_nodup_map distinct (List.mem_of_mem_filter aMember)
    (List.mem_of_mem_filter bMember) (aKey.trans bKey.symm)
  rw [← aIdx, ← bIdx, same]

end NodeTable

section Certificate

variable {C : Crypto} {miners : List Public} {hash : H256} {signList : List (Nat × Signature)}

theorem certifiers_eq_image
    (checked : ∀ entry ∈ signList, checkSignEntry C miners hash entry = true) :
    certifiers C miners hash signList = (places signList).image (fun i => miners.getD i 0) := by
  ext key
  simp only [certifiers, places, Finset.mem_filter, Finset.mem_image, List.mem_toFinset,
    List.mem_map]
  constructor
  · rintro ⟨-, entry, member, signed⟩
    have valid := checked entry member
    rw [checkSignEntry, Bool.and_eq_true] at valid
    exact ⟨asInt entry.1, ⟨entry, member, rfl⟩, C.verify_unique _ _ _ _ valid.2 signed⟩
  · rintro ⟨i, ⟨entry, member, rfl⟩, rfl⟩
    have valid := checked entry member
    rw [checkSignEntry, Bool.and_eq_true, decide_eq_true_eq] at valid
    have inside : asInt entry.1 < miners.length := (asInt_le entry.1).trans_lt valid.1
    refine ⟨?_, entry, member, valid.2⟩
    rw [List.getD_eq_getElem _ _ inside]
    exact List.getElem_mem inside

theorem card_certifiers (nodes : NodeTable) (listed : (nodes.getMinerList []).2 = miners)
    (checked : ∀ entry ∈ signList, checkSignEntry C miners hash entry = true) :
    (certifiers C miners hash signList).card = (places signList).card := by
  rw [certifiers_eq_image checked]
  refine Finset.card_image_of_injOn ?_
  intro i iMember j jMember same
  obtain ⟨entry, member, rfl⟩ := List.mem_map.mp (List.mem_toFinset.mp (Finset.mem_coe.mp iMember))
  have valid := checked entry member
  rw [checkSignEntry, Bool.and_eq_true] at valid
  have nonzero : miners.getD (asInt entry.1) 0 ≠ 0 := ((C.verify_iff _ _ _).mp valid.2).1
  subst listed
  exact nodes.getMinerList_injective _ j _ nonzero rfl same.symm

end Certificate

/-- An accepted block carries signatures of a quorum of distinct miners exactly when its
entries name that many different places, unless the list is refused on another ground: the
header's node list is another one, the list is too short, or one of its entries fails. -/
theorem certificate_sound_iff (C : Crypto) (getAllNodeConnInfo : Int → NodeTable)
    (header : BlockHeader) (signList : List (Nat × Signature)) (miners : List Public)
    (listed : (getAllNodeConnInfo (asInt (u256Sub header.number 1))).getMinerList [] =
      (true, miners)) (nonempty : 1 ≤ miners.length) :
    (checkBlockSign C getAllNodeConnInfo header signList = true →
      miners.length - (miners.length - 1) / 3 ≤
        (certifiers C miners (header.hash C .withoutSeal) signList).card) ↔
    header.nodeList ≠ miners ∨ signList.length < miners.length - (miners.length - 1) / 3 ∨
      (∃ entry ∈ signList, checkSignEntry C miners (header.hash C .withoutSeal) entry = false) ∨
      miners.length - (miners.length - 1) / 3 ≤ (places signList).card := by
  have quorum : signQuorum miners.length = miners.length - (miners.length - 1) / 3 :=
    if_neg (by omega)
  have passes : checkBlockSign C getAllNodeConnInfo header signList = true ↔
      header.nodeList = miners ∧ miners.length - (miners.length - 1) / 3 ≤ signList.length ∧
        ∀ entry ∈ signList, checkSignEntry C miners (header.hash C .withoutSeal) entry = true := by
    unfold checkBlockSign
    rw [listed]
    simp only [Bool.true_eq_false, if_false, quorum]
    split_ifs with other short
    · simp [other]
    · simp only [false_iff]
      intro all
      omega
    · have same : header.nodeList = miners := not_not.mp other
      simp only [List.all_eq_true, same, true_and]
      exact ⟨fun all => ⟨by omega, all⟩, fun both => both.2⟩
  constructor
  · intro sound
    by_contra refused
    push Not at refused
    obtain ⟨same, long, entries, few⟩ := refused
    have checked : ∀ entry ∈ signList,
        checkSignEntry C miners (header.hash C .withoutSeal) entry = true :=
      fun entry member => by simpa using entries entry member
    have enough := sound (passes.mpr ⟨same, by omega, checked⟩)
    rw [card_certifiers _ (congrArg Prod.snd listed) checked] at enough
    omega
  · intro condition accepted
    obtain ⟨same, long, checked⟩ := passes.mp accepted
    rw [card_certifiers _ (congrArg Prod.snd listed) checked]
    rcases condition with other | short | ⟨entry, member, failed⟩ | enough
    · exact absurd same other
    · omega
    · rw [checked entry member] at failed
      cases failed
    · exact enough

def toyHeader : BlockHeader :=
  { number := 1, timestamp := 1, nodeList := [1, 2, 3, 4] }

/-- The signature of miner `idx` in a certificate of `toyHeader`. -/
def toySign (idx : Nat) : Nat × Signature :=
  (idx, Crypto.toy.sign (idx + 1) (toyHeader.hash Crypto.toy .withoutSeal))

theorem three_signers_certify :
    let nodes := fun _ => NodeTable.consecutive 4 0
    let signList := [toySign 0, toySign 2, toySign 3]
    checkBlockSign Crypto.toy nodes toyHeader signList = true ∧
      3 ≤ (certifiers Crypto.toy [1, 2, 3, 4] (toyHeader.hash Crypto.toy .withoutSeal)
        signList).card := by
  intro nodes signList
  have accepted : checkBlockSign Crypto.toy nodes toyHeader signList = true := by decide +kernel
  refine ⟨accepted, ?_⟩
  exact (certificate_sound_iff Crypto.toy nodes toyHeader signList [1, 2, 3, 4] (by decide +kernel)
    (by decide)).mpr (Or.inr (Or.inr (Or.inr (by decide +kernel)))) accepted

/-- One signature, three times, is accepted as a quorum of four miners. -/
theorem one_signer_certifies :
    let nodes := fun _ => NodeTable.consecutive 4 0
    let signList := [toySign 0, toySign 0, toySign 0]
    checkBlockSign Crypto.toy nodes toyHeader signList = true ∧
      ((nodes 0).getMinerList []).2 = [1, 2, 3, 4] ∧
      (certifiers Crypto.toy [1, 2, 3, 4] (toyHeader.hash Crypto.toy .withoutSeal) signList).card =
        1 ∧
      ¬ 4 - (4 - 1) / 3 ≤ 1 := by
  decide +kernel

end UtispaceChain
