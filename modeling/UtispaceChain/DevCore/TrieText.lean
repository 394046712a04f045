import Mathlib.Algebra.BigOperators.Fin
import UtispaceChain.DevCore.TrieEdit

/-! The texts of the nodes of a trie, and the hashes that they refer to each other by. -/

namespace UtispaceChain

namespace Trie

open Lib

section Definitions

variable (sha3 : Bytes → H256)

def text : Patricia 16 Bytes → Bytes
  | .empty => rlpNull
  | .leaf k v => rlpList [Rlp.appendBytes (hexPrefix true k), Rlp.appendBytes v]
  | .ext k c => rlpList [Rlp.appendBytes (hexPrefix false k), reference sha3 (text c)]
  | .branch cs => rlpList ((List.ofFn fun d => reference sha3 (text (cs d))) ++ [rlpNull])

/-- The hash that stands for a node in another, if one does. -/
def own (t : Patricia 16 Bytes) : Multiset H256 :=
  if (text sha3 t).length < 32 then 0 else {sha3 (text sha3 t)}

def below : Patricia 16 Bytes → Multiset H256
  | .empty => 0
  | .leaf _ _ => 0
  | .ext _ c => own sha3 c + below c
  | .branch cs => ∑ d, (own sha3 (cs d) + below (cs d))

def refs (t : Patricia 16 Bytes) : Multiset H256 := own sha3 t + below sha3 t

/-- The hashes that a trie is in use with: the root is always looked up under its hash. -/
def rootRefs (t : Patricia 16 Bytes) : Multiset H256 := {sha3 (text sha3 t)} + below sha3 t

def texts : Patricia 16 Bytes → List Bytes
  | .empty => [rlpNull]
  | .leaf k v => k.tails.map fun l => text sha3 (.leaf l v)
  | .ext k c => (k.tails.map fun l => text sha3 (.ext l c)) ++ texts c
  | .branch cs => text sha3 (.branch cs) :: (List.finRange 16).flatMap fun d => texts (cs d)

end Definitions

def nodes : Patricia 16 Bytes → Nat
  | .empty => 0
  | .leaf _ _ => 1
  | .ext _ c => nodes c + 1
  | .branch cs => (∑ d, nodes (cs d)) + 1

/-- The parts of the path and the values have lengths that the code can count. -/
def Sized : Patricia 16 Bytes → Prop
  | .empty => True
  | .leaf k v => k.length + 2 < 2 ^ 31 ∧ v.length < 2 ^ 62
  | .ext k c => k.length + 2 < 2 ^ 31 ∧ Sized c
  | .branch cs => ∀ d, Sized (cs d)

section Texts

variable {sha3 : Bytes → H256}

theorem rlpNull_item : Rlp.Item rlpNull := ⟨List.cons_ne_nil _ _, rfl⟩

theorem reference_length (sha3 : Bytes → H256) (b : Bytes) : (reference sha3 b).length ≤ 33 := by
  unfold reference
  split_ifs with short
  · omega
  · have length :=
      Rlp.appendBytes_length (toBigEndian 32 (sha3 b)) (by rw [toBigEndian_length]; decide)
    rw [toBigEndian_length] at length
    rw [Rlp.appendBytes, toBigEndian_length, if_neg (by omega), if_pos (by decide),
      List.length_cons, toBigEndian_length]

theorem reference_item {b : Bytes} (whole : Rlp.Item b) : Rlp.Item (reference sha3 b) := by
  unfold reference
  split_ifs
  · exact whole
  · exact (Rlp.item_appendBytes _ (by rw [toBigEndian_length]; decide)).1

theorem rlpList_listOf {items : List Bytes} (bound : items.flatten.length < 2 ^ 63) :
    ListOf items (rlpList items) :=
  ⟨rfl, by have most : Rlp.maxLength = 2 ^ 64 - 1 - 0x100 := rfl; omega⟩

theorem pair_listOf {leaf : Bool} {k : List Nibble} {entry : Bytes} (short : k.length + 2 < 2 ^ 31)
    (small : entry.length < 2 ^ 62 + 16) :
    ListOf [Rlp.appendBytes (hexPrefix leaf k), entry]
      (rlpList [Rlp.appendBytes (hexPrefix leaf k), entry]) := by
  apply rlpList_listOf
  have length := Rlp.appendBytes_length (hexPrefix leaf k) (by rw [length_hexPrefix]; omega)
  rw [length_hexPrefix] at length
  simp only [List.flatten_cons, List.flatten_nil, List.append_nil, List.length_append]
  omega

theorem branch_listOf {entries : List Bytes} (few : entries.length ≤ 17)
    (small : ∀ e ∈ entries, e.length ≤ 33) :
    ListOf entries (rlpList entries) := by
  apply rlpList_listOf
  have total := Rlp.flatten_length_le entries 33 small
  have most : entries.length * 33 ≤ 17 * 33 := Nat.mul_le_mul_right 33 few
  omega

theorem value_short {v : Bytes} (small : v.length < 2 ^ 62) : v.length < Rlp.maxLength :=
  small.trans (by decide)

theorem value_length {v : Bytes} (small : v.length < 2 ^ 62) :
    (Rlp.appendBytes v).length < 2 ^ 62 + 16 := by
  have length := Rlp.appendBytes_length v (by omega)
  omega

/-! Nodes of two items and of seventeen -/

theorem Reads.nodeItems {rlp : Bytes} {l : List Bytes} (reads : Reads rlp l)
    (size : l.length = 2 ∨ l.length = 17) :
    nodeItems rlp = some l := by
  rw [Trie.nodeItems, reads.items, Option.bind_some, if_pos ⟨reads.list, size⟩]

theorem Reads.children {rlp : Bytes} {l : List Bytes} (reads : Reads rlp l) {count : Nat}
    (few : count ≤ l.length) :
    children rlp count = some (l.take count) := by
  induction count with
  | zero => rfl
  | succ count ih =>
      have rest := ih (by omega)
      rw [Trie.children] at rest ⊢
      rw [List.range_succ, List.mapM_append, rest, List.take_add_one]
      simp [reads.item, List.getElem?_eq_getElem (show count < l.length by omega)]

theorem ReadsPair.nodeItems {rlp entry : Bytes} {k : List Nibble} {leaf : Bool} {part : NibbleSlice}
    (reads : ReadsPair rlp k leaf entry part) : ∃ l, nodeItems rlp = some l ∧ l.length = 2 := by
  rcases Option.map_eq_some_iff.mp reads.items with ⟨l, items, two⟩
  exact ⟨l, by rw [Trie.nodeItems, items, Option.bind_some, if_pos ⟨reads.list, .inl two⟩], two⟩

theorem node_shape {here : Bytes} {size : Nat} (full : Rlp.isEmpty here = false)
    (known : nodeSize here = some (some size)) :
    ∃ items, Rlp.items here = some items ∧ items.length = size ∧
    ¬(Rlp.isEmpty here = true ∨ here = []) ∧
      ¬¬(Rlp.isList here = true ∧ (items.length = 2 ∨ items.length = 17)) := by
  rcases Option.map_eq_some_iff.mp known with ⟨items, read, same⟩
  split_ifs at same with shape
  refine ⟨items, read, Option.some.inj same, ?_, not_not.mpr shape⟩
  rintro (empty | rfl)
  · rw [full] at empty
    cases empty
  · cases shape.1

theorem pair_reads {leaf : Bool} {k : List Nibble} {entry : Bytes} (short : k.length + 2 < 2 ^ 31)
    (whole : Rlp.Item entry) (small : entry.length < 2 ^ 62 + 16) :
    ∃ part, ReadsPair (rlpList [Rlp.appendBytes (hexPrefix leaf k), entry]) k leaf entry part :=
  (pair_listOf short small).readsPair whole (by omega)

theorem branch_reads {entries : List Bytes} (count : entries.length = 17)
    (each : ∀ e ∈ entries, Rlp.Item e ∧ e.length ≤ 33) : Reads (rlpList entries) entries :=
  (branch_listOf count.le fun e member => (each e member).2).reads
    (fun e member => (each e member).1)
    (List.ne_nil_of_length_pos (by omega))

variable (sha3) in
def entriesOf (cs : Fin 16 → Patricia 16 Bytes) : List Bytes :=
  (List.ofFn fun d => reference sha3 (text sha3 (cs d))) ++ [rlpNull]

variable (sha3) in
theorem entriesOf_length (cs : Fin 16 → Patricia 16 Bytes) : (entriesOf sha3 cs).length = 17 := by
  simp [entriesOf]

variable (sha3) in
theorem entriesOf_small {cs : Fin 16 → Patricia 16 Bytes} :
    ∀ e ∈ entriesOf sha3 cs, e.length ≤ 33 := by
  intro e member
  rcases List.mem_append.mp member with child | value
  · rcases List.mem_ofFn.mp child with ⟨d, rfl⟩
    exact reference_length _ _
  · rw [List.mem_singleton.mp value]
    decide

variable (sha3) in
theorem text_item {t : Patricia 16 Bytes} (sized : Sized t) : Rlp.Item (text sha3 t) := by
  cases t with
  | empty => exact rlpNull_item
  | leaf k v =>
      exact (Rlp.item_appendList _ (pair_listOf sized.1 (value_length sized.2)).2).1
  | ext k c =>
      have small := (reference_length sha3 (text sha3 c)).trans_lt (by decide : 33 < 2 ^ 62 + 16)
      exact (Rlp.item_appendList _ (pair_listOf sized.1 small).2).1
  | branch cs =>
      have bound := (branch_listOf (entriesOf_length sha3 cs).le (entriesOf_small sha3)).2
      exact (Rlp.item_appendList _ bound).1

theorem entriesOf_items {cs : Fin 16 → Patricia 16 Bytes} (sized : ∀ d, Sized (cs d)) :
    ∀ e ∈ entriesOf sha3 cs, Rlp.Item e ∧ e.length ≤ 33 := by
  intro e member
  refine ⟨?_, entriesOf_small sha3 e member⟩
  rcases List.mem_append.mp member with child | value
  · rcases List.mem_ofFn.mp child with ⟨d, rfl⟩
    exact reference_item (text_item sha3 (sized d))
  · rw [List.mem_singleton.mp value]
    exact rlpNull_item

variable (sha3) in
theorem text_leaf {k : List Nibble} {v : Bytes} (sized : Sized (.leaf k v)) :
    ∃ part, ReadsPair (text sha3 (.leaf k v)) k true (Rlp.appendBytes v) part :=
  pair_reads sized.1 (Rlp.item_appendBytes v (value_short sized.2)).1 (value_length sized.2)

variable (sha3) in
theorem text_ext {k : List Nibble} {c : Patricia 16 Bytes} (sized : Sized (.ext k c)) :
    ∃ part, ReadsPair (text sha3 (.ext k c)) k false (reference sha3 (text sha3 c)) part :=
  pair_reads sized.1 (reference_item (text_item sha3 sized.2))
    ((reference_length sha3 _).trans_lt (by decide))

variable (sha3) in
theorem text_branch {cs : Fin 16 → Patricia 16 Bytes} (sized : Sized (.branch cs)) :
    Reads (text sha3 (.branch cs)) (entriesOf sha3 cs) :=
  branch_reads (entriesOf_length sha3 cs) (entriesOf_items sized)

variable (sha3) in
theorem text_branch_size {cs : Fin 16 → Patricia 16 Bytes} (sized : Sized (.branch cs)) :
    nodeSize (text sha3 (.branch cs)) = some (some 17) :=
  entriesOf_length sha3 cs ▸ (text_branch sha3 sized).nodeSize (.inr (entriesOf_length sha3 cs))

variable (sha3) in
theorem text_shape {t : Patricia 16 Bytes} (sized : Sized t) :
    Rlp.isEmpty (text sha3 t) = t.isEmpty ∧ Rlp.isList (text sha3 t) = !t.isEmpty := by
  cases t with
  | empty => exact ⟨rfl, rfl⟩
  | leaf k v =>
      rcases text_leaf sha3 sized with ⟨part, reads⟩
      exact ⟨reads.full, reads.list⟩
  | ext k c =>
      rcases text_ext sha3 sized with ⟨part, reads⟩
      exact ⟨reads.full, reads.list⟩
  | branch cs => exact ⟨(text_branch sha3 sized).full, (text_branch sha3 sized).list⟩

/-! What stands for a node in another -/

theorem reference_short {b : Bytes} (short : b.length < 32) : reference sha3 b = b := if_pos short

theorem reference_long {b : Bytes} (long : 32 ≤ b.length) :
    reference sha3 b = Rlp.appendBytes (toBigEndian 32 (sha3 b)) := if_neg (by omega)

theorem reference_form {b : Bytes} (long : 32 ≤ b.length) :
    reference sha3 b = 0xa0 :: toBigEndian 32 (sha3 b) := by
  rw [reference_long long, Rlp.appendBytes, toBigEndian_length]
  rfl

section References

variable (bounded : ∀ b, sha3 b < 2 ^ 256)

include bounded in
theorem reference_hash {b : Bytes} (long : 32 ≤ b.length) :
    Rlp.isData (reference sha3 b) = true ∧ Rlp.isList (reference sha3 b) = false ∧
      Rlp.isEmpty (reference sha3 b) = false ∧ Rlp.toHashStrict 32 (reference sha3 b) =
        some (sha3 b) := by
  have small : (toBigEndian 32 (sha3 b)).length < Rlp.maxLength := by
    rw [toBigEndian_length]
    decide
  have data := (Rlp.item_appendBytes _ small).2
  rw [← reference_long long] at data
  refine ⟨data, Rlp.isList_eq_false _ data, ?_, ?_⟩
  · rw [reference_form long]
    rfl
  · rw [reference_long long]
    exact toHashStrict_appendBytes (bounded b)

include bounded in
theorem reference_isEmpty {c : Patricia 16 Bytes} (sized : Sized c) :
    Rlp.isEmpty (reference sha3 (text sha3 c)) = c.isEmpty := by
  by_cases short : (text sha3 c).length < 32
  · rw [reference_short short]
    exact (text_shape sha3 sized).1
  · rw [(reference_hash bounded (not_lt.mp short)).2.2.1]
    cases c with
    | empty => exact absurd (show rlpNull.length < 32 by decide) short
    | _ => rfl

variable {node : H256 → Bytes} {c : Patricia 16 Bytes}

include bounded in
theorem dereferenced_reference (sized : Sized c)
    (found : 32 ≤ (text sha3 c).length → node (sha3 (text sha3 c)) = text sha3 c) :
    dereferenced node (reference sha3 (text sha3 c)) =
      some (text sha3 c, decide (32 ≤ (text sha3 c).length)) := by
  by_cases short : (text sha3 c).length < 32
  · rcases text_shape sha3 sized with ⟨empty, list⟩
    have plain : ¬(¬Rlp.isList (text sha3 c) = true ∧ ¬Rlp.isEmpty (text sha3 c) = true) := by
      rw [empty, list]
      cases c.isEmpty <;> simp
    rw [reference_short short, dereferenced, if_neg plain, decide_eq_false (by omega)]
  · have long := not_lt.mp short
    rcases reference_hash bounded long with ⟨-, list, full, read⟩
    have whole := text_item sha3 sized
    rw [dereferenced, if_pos ⟨by rw [list]; decide, by rw [full]; decide⟩, read,
      Option.bind_some, found long, whole.construct, Option.bind_some, if_neg whole.1,
      decide_eq_true long]

include bounded in
theorem entered_reference (sized : Sized c) (full : c.isEmpty = false)
    (found : 32 ≤ (text sha3 c).length → node (sha3 (text sha3 c)) = text sha3 c) :
    entered node (reference sha3 (text sha3 c)) = some (text sha3 c) := by
  by_cases short : (text sha3 c).length < 32
  · have list := (text_shape sha3 sized).2
    rw [full, Bool.not_false] at list
    rw [reference_short short, entered, if_pos list]
  · have long := not_lt.mp short
    rcases reference_hash bounded long with ⟨-, list, -, read⟩
    rw [entered, list, if_neg Bool.false_ne_true, read, Option.bind_some, found long,
      (text_item sha3 sized).construct]

end References

end Texts

end Trie

end UtispaceChain
