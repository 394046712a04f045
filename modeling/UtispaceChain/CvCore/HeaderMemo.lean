import Mathlib.Logic.Function.Basic
import UtispaceChain.CvCore.BlockHeader
import UtispaceChain.Lib.Run

/-! The two remembered hashes of a header through its setters, copies and queries. -/

namespace UtispaceChain

open Lib Rlp

/-- The setters of the class, and `clear`. The value of a seal field is already encoded. -/
inductive Setter
  | setParentHash (v : H256)
  | setSha3Uncles (v : H256)
  | setTimestamp (v : Nat)
  | setAuthor (v : Nat)
  | setRoots (t r u s : H256)
  | setGasUsed (v : Nat)
  | setNumber (v : Nat)
  | setGasLimit (v : Nat)
  | setExtraData (v : Bytes)
  | setLogBloom (v : Nat)
  | setDifficulty (v : Nat)
  | setSeal (offset : Nat) (value : Bytes)
  | setIndex (idx : Nat)
  | setNodeList (list : List Public)
  | clear

variable (C : Crypto)

def EmptyListSHA3 : H256 := C.sha3 (appendList [])

def EmptyTrie : H256 := C.sha3 (appendBytes [])

def Setter.update (h : BlockHeader) : Setter → BlockHeader
  | setParentHash v => { h with parentHash := v }
  | setSha3Uncles v => { h with sha3Uncles := v }
  | setTimestamp v => { h with timestamp := v }
  | setAuthor v => { h with author := v }
  | setRoots t r u s =>
      { h with transactionsRoot := t, receiptsRoot := r, stateRoot := s, sha3Uncles := u }
  | setGasUsed v => { h with gasUsed := v }
  | setNumber v => { h with number := v }
  | setGasLimit v => { h with gasLimit := v }
  | setExtraData v => { h with extraData := v }
  | setLogBloom v => { h with logBloom := v }
  | setDifficulty v => { h with difficulty := v }
  | setSeal offset value =>
      let resized := h.sealItems ++ List.replicate (offset + 1 - h.sealItems.length) []
      { h with sealItems := resized.set offset value }
  | setIndex idx => { h with genIdx := idx }
  | setNodeList list => { h with nodeList := list }
  | clear =>
      { h with
        parentHash := 0, sha3Uncles := EmptyListSHA3 C, author := 0, stateRoot := EmptyTrie C
        transactionsRoot := EmptyTrie C, receiptsRoot := EmptyTrie C, logBloom := 0, difficulty := 0
        number := Invalid256, gasLimit := 0, gasUsed := 0, timestamp := Invalid256, extraData :=
          [], sealItems := []
        genIdx := Invalid256, nodeList := [] }

namespace BlockHeader

theorem streamRLP_filter (h : BlockHeader) :
    { h with sealItems := h.sealItems.filter fun item => !item.isEmpty }.streamRLP .withSeal =
      h.streamRLP .withSeal := by
  simp only [streamRLP, List.flatten_filter_not_isEmpty]
  rfl

theorem streamRLP_unsealed (h : BlockHeader) :
    { h with sealItems := [] }.streamRLP .withSeal = h.streamRLP .withoutSeal := by
  simp only [streamRLP, List.flatten_nil, List.append_nil]
  rfl

theorem InRange.unsealed {h : BlockHeader} (range : h.InRange) :
    { h with sealItems := [] }.InRange where
  parentHash := range.parentHash
  sha3Uncles := range.sha3Uncles
  author := range.author
  stateRoot := range.stateRoot
  transactionsRoot := range.transactionsRoot
  receiptsRoot := range.receiptsRoot
  logBloom := range.logBloom
  difficulty := range.difficulty
  number := range.number
  gasLimit := range.gasLimit
  gasUsed := range.gasUsed
  timestamp := range.timestamp
  genIdx := range.genIdx
  nodeList := range.nodeList
  sealed := fun _ member => nomatch member
  size := by
    have size := range.size
    rw [List.length_append] at size
    simpa [streamRLPFields, fieldItems] using Nat.lt_of_le_of_lt (Nat.le_add_right _ _) size

def noteDirty (h : BlockHeader) : BlockHeader := { h with memo := 0, memoWithout := 0 }

def set (h : BlockHeader) (setter : Setter) : BlockHeader := noteDirty (setter.update C h)

/-- The header after it was asked for a hash. -/
def remembered (h : BlockHeader) : IncludeSeal → BlockHeader
  | .withSeal => { h with memo := h.hash C .withSeal }
  | .withoutSeal => { h with memoWithout := h.hash C .withoutSeal }
  | .onlySeal => h

variable (maxBlockHeadGas : Nat)

def populateFromParent (h parent : BlockHeader) : BlockHeader :=
  { h with
    stateRoot := parent.stateRoot, number := u256Add parent.number 1, parentHash := parent.memo
    gasLimit := maxBlockHeadGas, difficulty := 1, gasUsed := 0 }

inductive Call
  | construct (i : Nat)
  | decode (i : Nat) (header : Bytes)
  | set (i : Nat) (setter : Setter)
  | populateFromParent (i parent : Nat)
  | copy (i source : Nat)
  | hash (i : Nat) (part : IncludeSeal)

abbrev Objects := Nat → BlockHeader

/-- A header that is not read throws, and there is no new object. -/
def step (objects : Objects) : Call → Objects
  | .construct i => Function.update objects i {}
  | .decode i header =>
      match ofHeaderData C header 0 with
      | none => objects
      | some h => Function.update objects i h
  | .set i setter => Function.update objects i ((objects i).set C setter)
  | .populateFromParent i parent =>
      Function.update objects i ((objects i).populateFromParent maxBlockHeadGas (objects parent))
  | .copy i source => Function.update objects i (objects source)
  | .hash i part => Function.update objects i ((objects i).remembered C part)

variable {C maxBlockHeadGas}

/-- Each remembered hash is none or that of the present fields. -/
structure Coherent (C : Crypto) (h : BlockHeader) : Prop where
  withSeal : h.Remembers C
  withoutSeal : h.memoWithout = 0 ∨ h.memoWithout = C.sha3 (h.streamRLP .withoutSeal)

/-- Some header is written so, whose seal may have entries that were left empty. -/
def Written (header : Bytes) : Prop :=
  ∃ (h : BlockHeader) (part : IncludeSeal), part ≠ .onlySeal ∧
    { h with sealItems := h.sealItems.filter fun item => !item.isEmpty }.InRange ∧
    header = h.streamRLP part

def Exact (C : Crypto) (objects : Objects) : Prop :=
  ∀ i part, (objects i).hash C part = C.sha3 ((objects i).streamRLP part)

theorem Coherent.hash_eq {h : BlockHeader} (coherent : h.Coherent C) (part : IncludeSeal) :
    h.hash C part = C.sha3 (h.streamRLP part) := by
  have kept : ∀ memo value : H256, memo = 0 ∨ memo = value →
      (if memo = 0 then value else memo) = value := by
    rintro memo value (none | same)
    · rw [if_pos none]
    · rw [same, ite_self]
  cases part with
  | withSeal => exact kept _ _ coherent.withSeal
  | withoutSeal => exact kept _ _ coherent.withoutSeal
  | onlySeal => rfl

theorem coherent_dirty (h : BlockHeader) : h.noteDirty.Coherent C :=
  ⟨Or.inl rfl, Or.inl rfl⟩

theorem Coherent.remembered {h : BlockHeader} (coherent : h.Coherent C) (part : IncludeSeal) :
    (h.remembered C part).Coherent C := by
  cases part with
  | withSeal => exact ⟨Or.inr (coherent.hash_eq .withSeal), coherent.withoutSeal⟩
  | withoutSeal => exact ⟨coherent.withSeal, Or.inr (coherent.hash_eq .withoutSeal)⟩
  | onlySeal => exact coherent

theorem Written.exists_range {header : Bytes} (written : Written header) :
    ∃ h : BlockHeader, h.InRange ∧ header = h.streamRLP .withSeal := by
  rcases written with ⟨h, part, whole, range, rfl⟩
  cases part with
  | withSeal => exact ⟨_, range, (h.streamRLP_filter).symm⟩
  | withoutSeal => exact ⟨_, range.unsealed, (h.streamRLP_unsealed).symm⟩
  | onlySeal => exact absurd rfl whole

theorem Written.coherent {header : Bytes} (written : Written header) :
    ∃ h, ofHeaderData C header 0 = some h ∧ h.Coherent C ∧ h.streamRLP .withSeal = header := by
  obtain ⟨h, range, rfl⟩ := written.exists_range
  rw [ofHeaderData_streamRLP C range]
  exact ⟨_, rfl, ⟨Or.inr rfl, Or.inl rfl⟩, rfl⟩

structure Populated (maxBlockHeadGas : Nat) (h parent : BlockHeader) : Prop where
  stateRoot : h.stateRoot = parent.stateRoot
  number : h.number = u256Add parent.number 1
  parentHash : h.parentHash = parent.memo
  gasLimit : h.gasLimit = maxBlockHeadGas
  difficulty : h.difficulty = 1
  gasUsed : h.gasUsed = 0

theorem Populated.unchanged {h parent : BlockHeader}
    (populated : Populated maxBlockHeadGas h parent) :
    h.populateFromParent maxBlockHeadGas parent = h := by
  rw [populateFromParent, ← populated.stateRoot, ← populated.number, ← populated.parentHash,
    ← populated.gasLimit, ← populated.difficulty, ← populated.gasUsed]

def Call.Proper : Call → Prop
  | .decode _ header => Written header
  | _ => True

/-- A header is populated only from one that remembers its hash, and only while it remembers none
itself or has these fields already. -/
def Call.Clean (maxBlockHeadGas : Nat) (objects : Objects) : Call → Prop
  | .populateFromParent i parent =>
      (objects parent).memo ≠ 0 ∧
        ((objects i).memo = 0 ∧ (objects i).memoWithout = 0 ∨
          Populated maxBlockHeadGas (objects i) (objects parent))
  | _ => True

theorem Coherent.populateFromParent {h parent : BlockHeader} (coherent : h.Coherent C)
    (clean : h.memo = 0 ∧ h.memoWithout = 0 ∨ Populated maxBlockHeadGas h parent) :
    (h.populateFromParent maxBlockHeadGas parent).Coherent C := by
  rcases clean with ⟨none, none'⟩ | populated
  · exact ⟨Or.inl none, Or.inl none'⟩
  · rw [populated.unchanged]
    exact coherent

theorem step_coherent {objects : Objects} (coherent : ∀ i, (objects i).Coherent C) (call : Call)
    (proper : call.Proper) (clean : call.Clean maxBlockHeadGas objects) (k : Nat) :
    (step C maxBlockHeadGas objects call k).Coherent C := by
  have updated : ∀ (i : Nat) (h : BlockHeader), h.Coherent C →
      (Function.update objects i h k).Coherent C := by
    intro i h kept
    by_cases same : k = i
    · rw [same, Function.update_self]
      exact kept
    · rw [Function.update_of_ne same]
      exact coherent k
  cases call with
  | construct i => exact updated i _ (coherent_dirty {})
  | decode i header =>
      obtain ⟨h, read, kept, -⟩ := Written.coherent (C := C) proper
      simp only [step, read]
      exact updated i h kept
  | set i setter => exact updated i _ (coherent_dirty _)
  | populateFromParent i parent => exact updated i _ ((coherent i).populateFromParent clean.2)
  | copy i source => exact updated i _ (coherent source)
  | hash i part => exact updated i _ ((coherent i).remembered part)

def Linked (C : Crypto) (maxBlockHeadGas : Nat) (entry : Objects × Call) : Prop :=
  ∀ i parent, entry.2 = .populateFromParent i parent →
    (step C maxBlockHeadGas entry.1 entry.2 i).parentHash = (entry.1 parent).hash C .withSeal

theorem linked_of_clean {objects : Objects} {call : Call}
    (clean : call.Clean maxBlockHeadGas objects) :
    Linked C maxBlockHeadGas (objects, call) := by
  rintro i parent rfl
  have remembered : (objects parent).hash C .withSeal = (objects parent).memo := if_neg clean.1
  rw [remembered]
  simp [step, populateFromParent]

/-- In every run that populates only clean headers, all hashes are those of the fields, and every
header populated names its parent. -/
theorem hashes_exact (C : Crypto) (maxBlockHeadGas : Nat) (calls : List Call)
    (proper : ∀ call ∈ calls, call.Proper)
    (clean : ∀ entry ∈ trace (step C maxBlockHeadGas) (fun _ => {}) calls,
      entry.2.Clean maxBlockHeadGas entry.1) :
    Exact C (run (step C maxBlockHeadGas) (fun _ => {}) calls) ∧
      ∀ entry ∈ trace (step C maxBlockHeadGas) (fun _ => {}) calls,
      Linked C maxBlockHeadGas entry := by
  have kept := run_invariant (step C maxBlockHeadGas)
    (fun history objects => (∀ i, (objects i).Coherent C) ∧
      ∀ entry ∈ history, Linked C maxBlockHeadGas entry)
    (fun objects call => call.Proper ∧ call.Clean maxBlockHeadGas objects) (fun _ => {})
    ⟨fun _ => coherent_dirty {}, fun _ member => nomatch member⟩
    (by
      intro events call objects before admitted
      refine ⟨step_coherent before.1 call admitted.1 admitted.2, ?_⟩
      intro entry member
      rcases List.mem_append.mp member with earlier | last
      · exact before.2 entry earlier
      · rw [List.mem_singleton.mp last]
        exact linked_of_clean admitted.2)
    calls (fun entry member => ⟨proper _ (trace_input _ _ _ _ member), clean entry member⟩)
  exact ⟨fun i part => (kept.1 i).hash_eq part, kept.2⟩

/-- A parent that was asked for its hash, and a child made of it. -/
def toyCalls : List Call :=
  [.set 0 (.setNumber 5), .hash 0 .withSeal, .populateFromParent 1 0, .hash 1 .withSeal]

theorem hashes_exact_child : Exact .toy (run (step .toy 10) (fun _ => {}) toyCalls) ∧
    ∀ entry ∈ trace (step .toy 10) (fun _ => {}) toyCalls, Linked .toy 10 entry := by
  apply hashes_exact .toy 10 toyCalls
  · simp [toyCalls, Call.Proper]
  · simp only [toyCalls, trace, List.forall_mem_cons]
    exact ⟨trivial, trivial, ⟨by decide +kernel, Or.inl ⟨rfl, rfl⟩⟩, trivial, List.forall_mem_nil _⟩

/-- A parent that was not asked for its hash passes on none. -/
theorem unasked_parent :
    ¬ ∀ (C : Crypto) (maxBlockHeadGas : Nat) (calls : List Call), (∀ call ∈ calls, call.Proper) →
    Exact C (run (step C maxBlockHeadGas) (fun _ => {}) calls) ∧
      ∀ entry ∈ trace (step C maxBlockHeadGas) (fun _ => {}) calls,
      Linked C maxBlockHeadGas entry := by
  intro exact
  have proper : ∀ call ∈ [Call.populateFromParent 1 0], call.Proper := by simp [Call.Proper]
  have linked := (exact .toy 10 [.populateFromParent 1 0] proper).2 _ List.mem_cons_self 1 0 rfl
  revert linked
  decide +kernel

end BlockHeader

end UtispaceChain
