import UtispaceChain.DevCore.TrieCommon
import UtispaceChain.DevCrypto.Common

/-! `GenericTrieDB`: the nodes of a trie in a database, looking up a key, and the iterator.

What throws, fails an assertion or reads through a null pointer is `none`. -/

namespace UtispaceChain

namespace Trie

open Lib

/-- `isEarlierThan`: the loop, run a number of times at most. -/
def NibbleSlice.earlierFrom (s k : NibbleSlice) : (left i : Nat) → Option Bool
  | 0, i => some (decide (i < k.size))
  | left + 1, i =>
      if i < k.size ∧ i < s.size then
        (s.get i).bind fun a => (k.get i).bind fun b =>
          if a < b then some true
          else if b < a then some false
          else s.earlierFrom k left (i + 1)
      else some (decide (i < k.size))

def NibbleSlice.isEarlierThan (s k : NibbleSlice) : Option Bool := s.earlierFrom k k.size 0

/-- What is left of a key to look for at a part of the path, or nothing if all that has the part
comes before it. -/
def NibbleSlice.bounded (k part : NibbleSlice) : Option (Option NibbleSlice) :=
  if k.contains part then some (some (k.mid (min k.size part.size)))
  else
    (k.isEarlierThan part).map fun earlier =>
      -- the key is cleared
      if earlier then
        some ((⟨[], 0⟩ : NibbleSlice).mid (min (⟨[], 0⟩ : NibbleSlice).size part.size)) else none

section Definitions

variable (node : H256 → Bytes)

def deref (n : Bytes) : Option Bytes :=
  if Rlp.isList n then some n else (Rlp.toHashStrict 32 n).map node

/-- What `atAux` goes on with. -/
def entered (n : Bytes) : Option Bytes :=
  if Rlp.isList n then some n else (Rlp.toHashStrict 32 n).bind fun hash =>
    Rlp.construct (node hash)

/-- `atAux`, run a number of levels at most. -/
def atAux : Nat → Bytes → NibbleSlice → Option Bytes
  | 0, _, _ => none
  | fuel + 1, here, key =>
      if Rlp.isEmpty here ∨ here = [] then some []
      else
        (Rlp.items here).bind fun items =>
          if ¬(Rlp.isList here ∧ (items.length = 2 ∨ items.length = 17)) then none
          else if items.length = 2 then
            (keyOf here).bind fun k => (isLeaf here).bind fun leaf =>
              if key.same k ∧ leaf then (Rlp.item here 1).bind Rlp.toBytes
              else if key.contains k ∧ ¬leaf then
                (Rlp.item here 1).bind fun n => (entered node n).bind fun below =>
                  atAux fuel below (key.mid k.size)
              else some []
          else if key.size = 0 then (Rlp.item here 16).bind Rlp.toBytes
          else
            (key.get 0).bind fun d => (Rlp.item here d).bind fun n =>
              if Rlp.isEmpty n then some []
              else (entered node n).bind fun below => atAux fuel below (key.mid 1)

def lookup (fuel : Nat) (root : H256) (key : Bytes) : Option Bytes :=
  (Rlp.construct (node root)).bind fun here => atAux node fuel here ⟨key, 0⟩

/-- `iterator::Node`: child 255 is entering, 16 at the node, 17 exiting, below 16 a child. -/
structure IterNode where
  rlp : Bytes
  key : Bytes
  child : UInt8
  deriving DecidableEq, Repr

def IterNode.incrementChild (b : IterNode) : IterNode :=
  { b with child := if b.child = 16 then 0 else if b.child = 15 then 17 else b.child + 1 }

/-- The back of the trail comes first; `that` tells whether the pointer to the trie is there. -/
structure Iterator where
  that : Bool
  trail : List IterNode
  deriving DecidableEq, Repr

/-- What one turn of the loop in `next` leads to. -/
inductive Turn
  | again (trail : List IterNode)
  | done (it : Iterator)

def nodeSize (rlp : Bytes) : Option (Option Nat) :=
  (Rlp.items rlp).map fun items =>
    if Rlp.isList rlp ∧ (items.length = 2 ∨ items.length = 17) then some items.length else none

def push (that : Bool) (n : Bytes) (b : IterNode) (trail : List IterNode) :
    Option (List IterNode) :=
  if that then
    (deref node n).bind fun rlp => (hexPrefixJoin (keyOfHex b.key) ⟨[b.child], 1⟩ false).map
      fun key =>
      ⟨rlp, key, 255⟩ :: b :: trail
  else none

def extend (that : Bool) (rlp key : Bytes) (b : IterNode) (trail : List IterNode) :
    Option (List IterNode) :=
  if that then
    (Rlp.item rlp 1).bind fun n => (deref node n).map fun rlp => { b with rlp, key } :: trail
  else none

/-- The loop over the children, run a number of times at most. -/
def scan (that : Bool) (rlp : Bytes) : Nat → IterNode → List IterNode → Option Turn
  | 0, _, _ => none
  | left + 1, b, trail =>
      if b.child = 17 then some (.again trail)
      else
        (Rlp.item rlp b.child.toNat).bind fun n =>
          if Rlp.isEmpty n = false then
            if b.child = 16 then some (.done ⟨that, b :: trail⟩)
              else (push node that n b trail).map .again
          else scan that rlp left b.incrementChild trail

def scanFrom (that : Bool) (rlp : Bytes) : Nat → NibbleSlice → IterNode → List IterNode →
    Option (NibbleSlice × Turn)
  | 0, _, _, _ => none
  | left + 1, k, b, trail =>
      if b.child = 17 then some (⟨[], 0⟩, .again trail)
      else
        (Rlp.item rlp b.child.toNat).bind fun n =>
          if Rlp.isEmpty n = false then
            if b.child = 16 then some (k, .done ⟨that, b :: trail⟩)
            else (push node that n b trail).map fun trail => (k, .again trail)
          else scanFrom that rlp left ⟨[], 0⟩ b.incrementChild trail

def turn (that : Bool) : List IterNode → Option Turn
  | [] => some (.done ⟨false, []⟩)
  | b :: trail =>
      (Rlp.construct b.rlp).bind fun rlp =>
        if b.child = 255 then
          if Rlp.isEmpty rlp then some (.again trail)
          else
            (nodeSize rlp).bind fun size =>
              if size = none then some (.done ⟨false, b :: trail⟩)
              else if size = some 2 then
                (keyOf rlp).bind fun part => (hexPrefixJoin (keyOfHex b.key) part false).bind
                  fun key =>
                  (isLeaf rlp).bind fun leaf =>
                    if leaf then some (.done ⟨that, { b with key, child := 0 } :: trail⟩)
                    else (extend node that rlp key b trail).map .again
              else scan node that rlp 18 { b with child := 16 } trail
        else
          (nodeSize rlp).bind fun size =>
            if size = some 17 then scan node that rlp 18 b.incrementChild trail
              else some (.again trail)

def turnFrom (that : Bool) (k : NibbleSlice) : List IterNode → Option (NibbleSlice × Turn)
  | [] => some (k, .done ⟨false, []⟩)
  | b :: trail =>
      (Rlp.construct b.rlp).bind fun rlp =>
        if b.child = 255 then
          if Rlp.isEmpty rlp then some (⟨[], 0⟩, .again trail)
          else
            (nodeSize rlp).bind fun size =>
              if size = none then some (k, .done ⟨false, b :: trail⟩)
              else if size = some 2 then
                (keyOf rlp).bind fun part => (k.bounded part).bind fun
                  | none => some (⟨[], 0⟩, .again trail)
                  | some k =>
                      (hexPrefixJoin (keyOfHex b.key) part false).bind fun key =>
                        (isLeaf rlp).bind fun leaf =>
                        if leaf then
                          if k.size = 0 then
                            some (k, .done ⟨that, { b with key, child := 0 } :: trail⟩)
                          else some (⟨[], 0⟩, .again trail)
                        else (extend node that rlp key b trail).map fun trail => (k, .again trail)
              else if k.size = 0 then scanFrom node that rlp 18 k { b with child := 16 } trail
              else
                (k.get 0).bind fun d =>
                  scanFrom node that rlp 18 (k.mid 1) { b with child := UInt8.ofNat d } trail
        else
          (nodeSize rlp).bind fun size =>
            if size = some 17 then scanFrom node that rlp 18 k b.incrementChild trail
            else some (⟨[], 0⟩, .again trail)

def next (that : Bool) : Nat → List IterNode → Option Iterator
  | 0, _ => none
  | turns + 1, trail =>
      (turn node that trail).bind fun
        | .again trail => next that turns trail
        | .done it => some it

def nextFrom (that : Bool) : Nat → NibbleSlice → List IterNode → Option Iterator
  | 0, _, _ => none
  | turns + 1, k, trail =>
      (turnFrom node that k trail).bind fun
        | (k, .again trail) => nextFrom that turns k trail
        | (_, .done it) => some it

def rootTrail (root : H256) : List IterNode := [⟨node root, [0], 255⟩]

def begin (turns : Nat) (root : H256) : Option Iterator :=
  next node true turns (rootTrail node root)

def lowerBound (turns : Nat) (root : H256) (key : Bytes) : Option Iterator :=
  nextFrom node true turns ⟨key, 0⟩ (rootTrail node root)

end Definitions

def Iterator.at_ (it : Iterator) : Option (Bytes × Bytes) :=
  match it.trail with
  | [] => none
  | b :: _ =>
      b.key.head?.bind fun first =>
        if first &&& 0x10 ≠ 0 then none
        else
          (Rlp.construct b.rlp).bind fun rlp => (Rlp.items rlp).bind fun items =>
            (Rlp.item rlp (if items.length = 2 then 1 else 16)).bind fun n => (Rlp.payload n).map
              fun value =>
              (b.key.tail, value)

/-- From an iterator to `end()`; a number of steps at most, each with a number of turns at most. -/
def traverse (node : H256 → Bytes) (turns : Nat) : Nat → Iterator → Option (List (Bytes × Bytes))
  | 0, _ => none
  | steps + 1, it =>
      if it.trail = [] then some []
      else
        it.at_.bind fun e => (next node it.that turns it.trail).bind fun it =>
          (traverse node turns steps it).map fun rest => e :: rest

/-! How a trie is stored -/

/-- What stands in a node for a child: the child itself, or its hash. -/
def Reference (node : H256 → Bytes) (entry child : Bytes) : Prop :=
  entry = child ∧ Rlp.isList child = true ∨
    ∃ hash < 2 ^ 256, entry = Rlp.appendBytes (toBigEndian 32 hash) ∧ node hash = child

def ListOf (items : List Bytes) (rlp : Bytes) : Prop :=
  rlp = Rlp.appendList items.flatten ∧ items.flatten.length < Rlp.maxLength

/-- The node of a tree, with all that it refers to in the database. -/
def Stored (node : H256 → Bytes) : Patricia 16 Bytes → Bytes → Prop
  | .empty, rlp => rlp = [0x80]
  | .leaf k v, rlp => ListOf [Rlp.appendBytes (hexPrefix true k), Rlp.appendBytes v] rlp
  | .ext k c, rlp =>
      ∃ entry child, ListOf [Rlp.appendBytes (hexPrefix false k), entry] rlp ∧
        Reference node entry child ∧ Stored node c child
  | .branch cs, rlp =>
      ∃ entries : Fin 16 → Bytes, ListOf (List.ofFn entries ++ [[0x80]]) rlp ∧
        ∀ d, (cs d).isEmpty = true ∧ entries d = [0x80] ∨
          (cs d).isEmpty = false ∧ ∃ child, Reference node (entries d) child ∧
          Stored node (cs d) child

section Reading

variable {node : H256 → Bytes}

theorem isEmpty_appendList {payload : Bytes} (full : payload ≠ [])
    (bound : payload.length < Rlp.maxLength) :
    Rlp.isEmpty (Rlp.appendList payload) = false := by
  have long := List.length_pos_of_ne_nil full
  unfold Rlp.appendList
  split_ifs with short
  · have first := Rlp.ofNat_toNat_lt (payload.length + 0xc0) (by omega)
    refine decide_eq_false ?_
    rintro (same | same)
    · rw [same] at first
      have value : (0x80 : UInt8).toNat = 0x80 := rfl
      omega
    · rw [same] at first
      have value : (0xc0 : UInt8).toNat = 0xc0 := rfl
      omega
  · rcases Rlp.compact_width payload.length (by omega) bound with ⟨least, most⟩
    have first := Rlp.ofNat_toNat_lt ((toCompactBigEndian payload.length).length + 0xf7) (by omega)
    refine decide_eq_false ?_
    rintro (same | same)
    · rw [same] at first
      have value : (0x80 : UInt8).toNat = 0x80 := rfl
      omega
    · rw [same] at first
      have value : (0xc0 : UInt8).toNat = 0xc0 := rfl
      omega

structure Reads (rlp : Bytes) (l : List Bytes) : Prop where
  construct : Rlp.construct rlp = some rlp
  full : Rlp.isEmpty rlp = false
  list : Rlp.isList rlp = true
  items : Rlp.items rlp = some l
  item : ∀ i, Rlp.item rlp i = some ((l[i]?).getD [])

theorem ListOf.reads {items : List Bytes} {rlp : Bytes} (encoded : ListOf items rlp)
    (whole : Rlp.Items items) (some_ : items ≠ []) : Reads rlp items := by
  rcases encoded with ⟨rfl, bound⟩
  have written := Rlp.item_appendList _ bound
  have full : items.flatten ≠ [] := by
    rcases List.exists_cons_of_ne_nil some_ with ⟨d, rest, rfl⟩
    intro none
    exact (whole d List.mem_cons_self).1 (List.append_eq_nil_iff.mp none).1
  exact ⟨written.1.construct, isEmpty_appendList full bound, written.2,
    Rlp.items_appendList items whole bound, Rlp.item_nth_appendList items whole bound⟩

theorem Reads.nodeSize {rlp : Bytes} {items : List Bytes} (reads : Reads rlp items)
    (size : items.length = 2 ∨ items.length = 17) : nodeSize rlp = some (some items.length) := by
  rw [Trie.nodeSize, reads.items, Option.map_some, if_pos ⟨reads.list, size⟩]

theorem Stored.item {n : Patricia 16 Bytes} {rlp : Bytes} (stored : Stored node n rlp) :
    Rlp.Item rlp := by
  cases n with
  | empty =>
      cases stored
      exact ⟨List.cons_ne_nil _ _, rfl⟩
  | leaf k v =>
      rcases stored with ⟨rfl, bound⟩
      exact (Rlp.item_appendList _ bound).1
  | ext k c =>
      rcases stored with ⟨entry, child, ⟨rfl, bound⟩, -⟩
      exact (Rlp.item_appendList _ bound).1
  | branch cs =>
      rcases stored with ⟨entries, ⟨rfl, bound⟩, -⟩
      exact (Rlp.item_appendList _ bound).1

theorem toHashStrict_appendBytes {hash : Nat} (bound : hash < 2 ^ 256) :
    Rlp.toHashStrict 32 (Rlp.appendBytes (toBigEndian 32 hash)) = some hash := by
  have length : (toBigEndian 32 hash).length = 32 := toBigEndian_length 32 hash
  have small : (toBigEndian 32 hash).length < Rlp.maxLength := by
    rw [length]
    decide
  rcases Rlp.item_appendBytes _ small with ⟨whole, data⟩
  rw [Rlp.toHashStrict, whole.requireGood, Option.bind_some, Rlp.payload_appendBytes _ small,
    Option.bind_some, if_pos ⟨data, length.le⟩, fromBigEndian_toBigEndian 32 hash
      (by simpa using bound)]

theorem Reference.item {entry child : Bytes} (refers : Reference node entry child)
    (whole : Rlp.Item child) :
    Rlp.Item entry := by
  rcases refers with ⟨rfl, -⟩ | ⟨hash, -, rfl, -⟩
  · exact whole
  · apply (Rlp.item_appendBytes _ _).1
    rw [toBigEndian_length]
    decide

theorem Reference.deref {entry child : Bytes} (refers : Reference node entry child) :
    deref node entry = some child := by
  rcases refers with ⟨rfl, list⟩ | ⟨hash, bound, rfl, rfl⟩
  · rw [Trie.deref, if_pos list]
  · have small : (toBigEndian 32 hash).length < Rlp.maxLength := by
      rw [toBigEndian_length]
      decide
    have data := Rlp.isList_eq_false _ (Rlp.item_appendBytes _ small).2
    rw [Trie.deref, data, if_neg Bool.false_ne_true, toHashStrict_appendBytes bound]
    rfl

theorem Reference.full {n : Patricia 16 Bytes} {entry child : Bytes}
    (refers : Reference node entry child) (stored : Stored node n child)
    (full : n.isEmpty = false) : Rlp.isEmpty entry = false := by
  rcases refers with ⟨rfl, list⟩ | ⟨hash, bound, rfl, rfl⟩
  · have written : ∀ items, ListOf items entry → items.flatten ≠ [] →
        Rlp.isEmpty entry = false := by
      rintro items ⟨rfl, bound⟩ some_
      exact isEmpty_appendList some_ bound
    have key : ∀ (leaf : Bool) (k : List Nibble) (rest : List Bytes),
        (Rlp.appendBytes (hexPrefix leaf k) :: rest).flatten ≠ [] := by
      intro leaf k rest none
      have length := Rlp.length_le_appendBytes (hexPrefix leaf k)
      rw [(List.append_eq_nil_iff.mp none).1, length_hexPrefix] at length
      exact absurd length (by simp)
    cases n with
    | empty => cases full
    | leaf k v => exact written _ stored (key true k _)
    | ext k c =>
        rcases stored with ⟨below, child, encoded, -⟩
        exact written _ encoded (key false k _)
    | branch cs =>
        rcases stored with ⟨entries, encoded, -⟩
        exact written _ encoded (by simp)
  · have length : (toBigEndian 32 hash).length = 32 := toBigEndian_length 32 hash
    have form : Rlp.appendBytes (toBigEndian 32 hash) = 0xa0 :: toBigEndian 32 hash := by
      rw [Rlp.appendBytes, length]
      rfl
    rw [form]
    rfl

structure ReadsPair (rlp : Bytes) (k : List Nibble) (leaf : Bool) (entry : Bytes)
    (part : NibbleSlice) : Prop where
  construct : Rlp.construct rlp = some rlp
  full : Rlp.isEmpty rlp = false
  list : Rlp.isList rlp = true
  size : nodeSize rlp = some (some 2)
  items : (Rlp.items rlp).map List.length = some 2
  first : Rlp.item rlp 0 = some (Rlp.appendBytes (hexPrefix leaf k))
  keyOf : keyOf rlp = some part
  isLeaf : isLeaf rlp = some leaf
  item : Rlp.item rlp 1 = some entry
  fits : part.Fits
  toList : part.toList = k

theorem ListOf.readsPair {rlp entry : Bytes} {k : List Nibble} {leaf : Bool}
    (encoded : ListOf [Rlp.appendBytes (hexPrefix leaf k), entry] rlp) (whole : Rlp.Item entry)
    (short : k.length + 2 < 2 ^ 32) : ∃ part, ReadsPair rlp k leaf entry part := by
  have small : (hexPrefix leaf k).length < Rlp.maxLength := by
    rw [length_hexPrefix]
    have most : Rlp.maxLength = 2 ^ 64 - 1 - 0x100 := rfl
    omega
  have first := Rlp.item_appendBytes _ small
  have items : Rlp.Items [Rlp.appendBytes (hexPrefix leaf k), entry] := by
    intro d member
    rcases List.mem_pair.mp member with rfl | rfl
    · exact first.1
    · exact whole
  have reads := encoded.reads items (List.cons_ne_nil _ _)
  have key : Rlp.item rlp 0 = some (Rlp.appendBytes (hexPrefix leaf k)) := reads.item 0
  rcases keyOfHex_hexPrefix leaf k short with ⟨fits, toList⟩
  refine ⟨keyOfHex (hexPrefix leaf k), reads.construct, reads.full, reads.list,
    reads.nodeSize (.inl rfl), ?_, key, ?_, ?_, reads.item 1, fits, toList⟩
  · rw [reads.items]
    rfl
  · rw [keyOf, key, Option.bind_some, Rlp.payload_appendBytes _ small]
    rfl
  · rw [isLeaf, reads.items, Option.bind_some, if_pos ⟨reads.list, rfl⟩, key, Option.bind_some,
      Rlp.payload_appendBytes _ small, Option.bind_some, leafFlag_hexPrefix]

theorem Stored.value_length {rlp v : Bytes} {k : List Nibble}
    (stored : Stored node (.leaf k v) rlp) :
    v.length < Rlp.maxLength := by
  have total := stored.2
  have part := Rlp.length_le_appendBytes v
  simp only [List.flatten_cons, List.length_append] at total
  omega

theorem Stored.leaf {rlp v : Bytes} {k : List Nibble} (stored : Stored node (.leaf k v) rlp)
    (short : k.length + 2 < 2 ^ 32) :
    ∃ part, ReadsPair rlp k true (Rlp.appendBytes v) part ∧ Rlp.payload (Rlp.appendBytes v) =
      some v := by
  rcases stored.readsPair (Rlp.item_appendBytes v stored.value_length).1 short with ⟨part, reads⟩
  exact ⟨part, reads, Rlp.payload_appendBytes v stored.value_length⟩

theorem Stored.ext {rlp : Bytes} {k : List Nibble} {c : Patricia 16 Bytes}
    (stored : Stored node (.ext k c) rlp) (short : k.length + 2 < 2 ^ 32) :
    ∃ part entry child, ReadsPair rlp k false entry part ∧ Trie.deref node entry = some child ∧
    Stored node c child := by
  rcases stored with ⟨entry, child, encoded, refers, below⟩
  rcases encoded.readsPair (refers.item below.item) short with ⟨part, reads⟩
  exact ⟨part, entry, child, reads, refers.deref, below⟩

structure ReadsBranch (node : H256 → Bytes) (cs : Fin 16 → Patricia 16 Bytes) (rlp : Bytes)
    (entries : Fin 16 → Bytes) :
    Prop where
  construct : Rlp.construct rlp = some rlp
  full : Rlp.isEmpty rlp = false
  size : nodeSize rlp = some (some 17)
  item : ∀ d : Fin 16, Rlp.item rlp d = some (entries d)
  value : Rlp.item rlp 16 = some [0x80]
  child : ∀ d, (cs d).isEmpty = true ∧ Rlp.isEmpty (entries d) = true ∨
    Rlp.isEmpty (entries d) = false ∧ ∃ child, Trie.deref node (entries d) = some child ∧
    Stored node (cs d) child

theorem Stored.branch {rlp : Bytes} {cs : Fin 16 → Patricia 16 Bytes}
    (stored : Stored node (.branch cs) rlp) :
    ∃ entries, ReadsBranch node cs rlp entries := by
  rcases stored with ⟨entries, encoded, each⟩
  have null : Rlp.Item [0x80] := ⟨List.cons_ne_nil _ _, rfl⟩
  have items : Rlp.Items (List.ofFn entries ++ [[0x80]]) := by
    intro d member
    rcases List.mem_append.mp member with child | value
    · rcases List.mem_ofFn.mp child with ⟨i, rfl⟩
      rcases each i with ⟨-, same⟩ | ⟨-, child, refers, below⟩
      · rw [same]
        exact null
      · exact refers.item below.item
    · rw [List.mem_singleton.mp value]
      exact null
  have reads := encoded.reads items (by simp)
  have length : (List.ofFn entries ++ [[0x80]]).length = 17 := by simp
  have size := reads.nodeSize (.inr length)
  rw [length] at size
  refine ⟨entries, reads.construct, reads.full, size, fun d => ?_, ?_, fun d => ?_⟩
  · rw [reads.item, List.getElem?_append_left (by simp), List.getElem?_ofFn, dif_pos d.isLt]
    rfl
  · rw [reads.item, List.getElem?_append_right (by simp)]
    simp
  · rcases each d with ⟨empty, same⟩ | ⟨full, child, refers, below⟩
    · rw [same]
      exact .inl ⟨empty, rfl⟩
    · exact .inr ⟨refers.full below full, child, refers.deref, below⟩

end Reading

end Trie

end UtispaceChain
