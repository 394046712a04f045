import Mathlib.Data.Vector.Basic
import UtispaceChain.CvCore.HeaderMemo
import UtispaceChain.DevCore.RlpCanonical
import UtispaceChain.DevCore.TrieCommon
import UtispaceChain.Cv.Executive

/-! The records that the chain keeps in its databases, as bytes and back. -/

namespace UtispaceChain

open Lib

/-! The conversions that the records use -/

namespace Rlp

/-- `toArray<T, N>()` with the default `LaissezFaire` flags: a list of another length reads as the
default array. -/
def toArray {α : Type} (read : Bytes → Option α) (default : α) (n : Nat) (d : Bytes) :
    Option (List.Vector α n) :=
  if isList d = false then none
  else (itemCount d).bind fun count =>
    if count ≠ n then some (List.Vector.replicate n default)
    else List.Vector.mOfFn fun i => (item d i).bind read

/-- `RLP::size`: the length of a string. -/
def stringSize (d : Bytes) : Option Nat := if isData d then length d else some 0

namespace RLPStream

/-- `appendVector`: the number of the items, then each of them. -/
def appendVector {α : Type} (append : α → RLPStream → Option RLPStream) (items : List α)
    (s : RLPStream) :
    Option RLPStream :=
  (s.appendList items.length).bind fun s => items.foldlM (fun s i => append i s) s

/-- A `FixedHash` of so many bytes. -/
def appendHash (size value : Nat) (s : RLPStream) : Option RLPStream :=
  s.append (toBigEndian size value)

end RLPStream

end Rlp

open Rlp

/-! The records -/

namespace Stored

open Accounts (LogEntry)

def c_bloomIndexSize : Nat := 16

/-- A record with its mutable `size`, a note for the statistics of the cache that is not stored. -/
structure Sized (α : Type) where
  record : α
  size : Nat

/-- The bytes of a record, and the record with the length of them as its `size`. -/
def sized {α : Type} (record : α) (s : Option RLPStream) : Option (Bytes × Sized α) :=
  (s.bind RLPStream.out).map fun b => (b, ⟨record, b.length % 2 ^ 32⟩)

structure BlockDetails where
  number : Nat := 2 ^ 32 - 1
  totalDifficulty : Nat := Invalid256
  parent : H256 := 0
  children : List H256 := []
  deriving DecidableEq, Repr

namespace BlockDetails

def ofRLP (r : Bytes) : Option (Sized BlockDetails) :=
  ((item r 0).bind (toInt 4)).bind fun number =>
  ((item r 1).bind (toInt 32)).bind fun totalDifficulty =>
  ((item r 2).bind (toHashStrict 32)).bind fun parent =>
  ((item r 3).bind (toVector (toHashLax 32))).bind fun children =>
  (stringSize r).map fun size => ⟨{ number, totalDifficulty, parent, children }, size % 2 ^ 32⟩

def rlp (d : BlockDetails) : Option (Bytes × Sized BlockDetails) :=
  sized d ((RLPStream.appendList {} 4).bind fun s => (s.appendInt d.number).bind fun s =>
    (s.appendInt d.totalDifficulty).bind fun s => (s.appendHash 32 d.parent).bind fun s =>
      s.appendVector (RLPStream.appendHash 32) d.children)

end BlockDetails

structure BlockLogBlooms where
  blooms : List Nat := []
  deriving DecidableEq, Repr

namespace BlockLogBlooms

def ofRLP (r : Bytes) : Option (Sized BlockLogBlooms) :=
  (toVector (toHashLax 256) r).map fun blooms => ⟨⟨blooms⟩, r.length % 2 ^ 32⟩

def rlp (d : BlockLogBlooms) : Option (Bytes × Sized BlockLogBlooms) :=
  sized d (RLPStream.appendVector (RLPStream.appendHash 256) d.blooms {})

end BlockLogBlooms

structure BlocksBlooms where
  blooms : List.Vector Nat c_bloomIndexSize

namespace BlocksBlooms

def ofRLP (r : Bytes) : Option (Sized BlocksBlooms) :=
  (toArray (toHashLax 256) 0 c_bloomIndexSize r).map fun blooms => ⟨⟨blooms⟩, r.length % 2 ^ 32⟩

def rlp (d : BlocksBlooms) : Option (Bytes × Sized BlocksBlooms) :=
  sized d (RLPStream.appendVector (RLPStream.appendHash 256) d.blooms.toList {})

end BlocksBlooms

/-- `size` is a constant of this record. -/
structure TransactionAddress where
  blockHash : H256 := 0
  index : Nat := 0
  deriving DecidableEq, Repr

namespace TransactionAddress

def ofRLP (r : Bytes) : Option TransactionAddress :=
  ((item r 0).bind (toHashStrict 32)).bind fun blockHash =>
    ((item r 1).bind (toInt 4)).map fun index => { blockHash, index }

def rlp (d : TransactionAddress) : Option Bytes :=
  ((RLPStream.appendList {} 2).bind fun s => (s.appendHash 32 d.blockHash).bind fun s =>
    s.appendInt d.index).bind RLPStream.out

end TransactionAddress

namespace LogEntry

def ofRLP (r : Bytes) : Option LogEntry :=
  ((item r 0).bind (toHashStrict 20)).bind fun address =>
  ((item r 1).bind (toVector (toHashLax 32))).bind fun topics =>
  ((item r 2).bind toBytes).map fun data => { address, topics, data }

def streamRLP (l : LogEntry) (s : RLPStream) : Option RLPStream :=
  (s.appendList 3).bind fun s => (s.appendHash 20 l.address).bind fun s =>
    (s.appendVector (RLPStream.appendHash 32) l.topics).bind fun s => s.append l.data

end LogEntry

structure TransactionReceipt where
  stateRoot : H256
  gasUsed : Nat
  contractAddress : Nat
  bloom : Nat
  log : List LogEntry
  deriving DecidableEq, Repr

namespace TransactionReceipt

def ofBytes (rlp : Bytes) : Option TransactionReceipt :=
  (construct rlp).bind fun r =>
  ((item r 0).bind (toHashStrict 32)).bind fun stateRoot =>
  ((item r 1).bind (toInt 32)).bind fun gasUsed =>
  ((item r 2).bind (toHashStrict 20)).bind fun contractAddress =>
  ((item r 3).bind (toHashStrict 256)).bind fun bloom =>
  (((item r 4).bind iterate).bind fun entries => entries.mapM LogEntry.ofRLP).map fun log =>
    { stateRoot, gasUsed, contractAddress, bloom, log }

def streamRLP (r : TransactionReceipt) (s : RLPStream) : Option RLPStream :=
  (s.appendList 5).bind fun s => (s.appendHash 32 r.stateRoot).bind fun s =>
    (s.appendInt r.gasUsed).bind fun s =>
    (s.appendHash 20 r.contractAddress).bind fun s => (s.appendHash 256 r.bloom).bind fun s =>
      s.appendVector LogEntry.streamRLP r.log

def rlp (r : TransactionReceipt) : Option Bytes := (r.streamRLP {}).bind RLPStream.out

end TransactionReceipt

structure BlockReceipts where
  receipts : List TransactionReceipt := []
  deriving DecidableEq, Repr

namespace BlockReceipts

def ofRLP (r : Bytes) : Option (Sized BlockReceipts) :=
  ((iterate r).bind fun parts => parts.mapM TransactionReceipt.ofBytes).map fun receipts =>
    ⟨⟨receipts⟩, r.length % 2 ^ 32⟩

def rlp (d : BlockReceipts) : Option (Bytes × Sized BlockReceipts) :=
  sized d (RLPStream.appendVector TransactionReceipt.streamRLP d.receipts {})

end BlockReceipts

end Stored

/-! What is written, as trees -/

namespace Rlp

namespace Tree

mutual

def Numbers : Tree → Prop
  | .data _ => True
  | .int n => n < 2 ^ 256
  | .list items => NumbersAll items

def NumbersAll : List Tree → Prop
  | [] => True
  | t :: rest => Numbers t ∧ NumbersAll rest

end

theorem numbersAll_map {α : Type} (f : α → Tree) (l : List α) (each : ∀ a ∈ l, (f a).Numbers) :
    NumbersAll (l.map f) := by
  induction l with
  | nil => trivial
  | cons a rest ih =>
      exact ⟨each a List.mem_cons_self, ih fun b member => each b (List.mem_cons_of_mem _ member)⟩

mutual

theorem Numbers.fits (t : Tree) (numbers : t.Numbers) (small : t.encoded.length < 2 ^ 63) :
    t.Fits (2 ^ 32) := by
  cases t with
  | data b =>
      have inside := length_le_appendBytes b
      rw [encoded] at small
      exact lt_of_le_of_lt inside small
  | int n =>
      have bound : n < 2 ^ 256 := numbers
      have digits := toCompactBigEndian_length_le 32 n (by omega)
      exact lt_of_le_of_lt digits (by decide)
  | list items =>
      have inside := length_le_appendList (encodedAll items).flatten
      rw [encoded] at small
      exact ⟨by omega, NumbersAll.fits items numbers (by omega)⟩

theorem NumbersAll.fits (items : List Tree) (numbers : NumbersAll items)
    (small : (encodedAll items).flatten.length < 2 ^ 63) : FitsAll (2 ^ 32) items := by
  cases items with
  | nil => trivial
  | cons t rest =>
      rw [encodedAll, List.flatten_cons, List.length_append] at small
      exact ⟨Numbers.fits t numbers.1 (by omega), NumbersAll.fits rest numbers.2 (by omega)⟩

end

theorem fitsAll_mem {digits : Nat} {items : List Tree} {t : Tree} (fits : FitsAll digits items)
    (member : t ∈ items) :
    t.Fits digits := by
  induction items with
  | nil => exact absurd member List.not_mem_nil
  | cons first rest ih =>
      rcases List.mem_cons.mp member with rfl | later
      · exact fits.1
      · exact ih fits.2 later

theorem encodedAll_map {α : Type} (f : α → Tree) (l : List α) :
    encodedAll (l.map f) = l.map fun a => (f a).encoded := by
  induction l with
  | nil => rfl
  | cons a rest ih => rw [List.map_cons, List.map_cons, encodedAll, ih]

theorem writeAll_map {α : Type} (f : α → Tree) (l : List α) (s : RLPStream) :
    writeAll (l.map f) s = l.foldlM (fun s a => (f a).write s) s := by
  induction l generalizing s with
  | nil => rfl
  | cons a rest ih =>
      rw [List.map_cons, writeAll, List.foldlM_cons]
      exact congrArg _ (funext ih)

theorem appendVector_eq {α : Type} (f : α → Tree) (append : α → RLPStream → Option RLPStream)
    (each : ∀ a s, append a s = (f a).write s) (l : List α) (s : RLPStream) :
    s.appendVector append l = (Tree.list (l.map f)).write s := by
  rw [RLPStream.appendVector, write, List.length_map]
  congr 1
  funext opened
  rw [writeAll_map]
  simp only [each]

theorem Fits.out {t : Tree} (fits : t.Fits (2 ^ 32)) :
    (t.write {}).bind RLPStream.out = some t.encoded := by
  rw [write_eq t fits.writable, RLPStream.noteAppended_nil, Option.bind_some, List.nil_append]
  rfl

theorem Fits.construct {t : Tree} (fits : t.Fits (2 ^ 32)) :
    Rlp.construct t.encoded = some t.encoded :=
  (reads_encoded t fits).1.construct

theorem Fits.whole {items : List Tree} (fits : (Tree.list items).Fits (2 ^ 32)) :
    Items (encodedAll items) ∧ (encodedAll items).flatten.length < maxLength := by
  have room : 2 ^ 63 < maxLength := by decide
  exact ⟨(readsAll_encoded items fits.2).1, by have := fits.1; omega⟩

theorem Fits.item {items : List Tree} (fits : (Tree.list items).Fits (2 ^ 32)) (i : Nat) :
    item (Tree.list items).encoded i = some (((encodedAll items)[i]?).getD []) :=
  item_nth_appendList _ fits.whole.1 fits.whole.2 i

theorem Fits.iterate {items : List Tree} (fits : (Tree.list items).Fits (2 ^ 32)) :
    iterate (Tree.list items).encoded = some (encodedAll items) :=
  iterate_appendList fits.whole.1 fits.whole.2

def hash (size value : Nat) : Tree := .data (toBigEndian size value)

theorem encoded_hash (size value : Nat) :
    (hash size value).encoded = appendBytes (toBigEndian size value) := rfl

theorem appendHash_eq (size value : Nat) (s : RLPStream) :
    s.appendHash size value = (hash size value).write s := rfl

theorem Fits.toVector {size : Nat} {l : List Nat} (room : size < maxLength)
    (fits : (Tree.list (l.map (hash size))).Fits (2 ^ 32))
    (bound : ∀ value ∈ l, value < 256 ^ size) :
    toVector (toHashLax size) (Tree.list (l.map (hash size))).encoded = some l := by
  rcases fits.whole with ⟨whole, short⟩
  rw [encodedAll_map] at whole short
  rw [encoded, encodedAll_map]
  apply toVector_appendList (toHashLax size) _ l whole short
  intro value member
  exact toHashLax_appendBytes size value room (bound value member)

end Tree

theorem toHashStrict_appendBytes (size value : Nat) (room : size < maxLength)
    (bound : value < 256 ^ size) :
    toHashStrict size (appendBytes (toBigEndian size value)) = some value := by
  have strict := toHash_appendBytes size value room bound
  rcases Option.bind_eq_some_iff.mp strict with ⟨good, checked, rest⟩
  rcases Option.bind_eq_some_iff.mp rest with ⟨p, found, read⟩
  split_ifs at read with exactly
  rw [toHashStrict, checked, Option.bind_some, found, Option.bind_some,
    if_pos ⟨exactly.1, exactly.2.le⟩, read]

theorem stringSize_appendBytes (s : Bytes) (bound : s.length < maxLength) :
    stringSize (appendBytes s) = some s.length := by
  rcases item_appendBytes s bound with ⟨whole, data⟩
  rcases whole.read with ⟨o, l, size, read⟩
  have here := read []
  rw [List.append_nil] at here
  have short : ¬ (appendBytes s).length < l := by omega
  have inside : o + l ≤ (appendBytes s).length := by omega
  have found := payload_appendBytes s bound
  rw [payload, here.1, Option.bind_some, if_neg short, here.2.1, cropped, if_pos inside] at found
  have width : l = s.length := by
    rw [← Option.some.inj found, List.length_take, List.length_drop]
    omega
  rw [stringSize, data, if_pos rfl, here.1, width]

theorem stringSize_list (items : List Tree)
    (short : (Tree.encodedAll items).flatten.length < maxLength) :
    stringSize (Tree.list items).encoded = some 0 := by
  have list := (item_appendList _ short).2
  have string : isData (Tree.list items).encoded = false := by
    by_contra data
    have other := isList_eq_false _ (Bool.not_eq_false _ ▸ data)
    rw [Tree.encoded, list] at other
    exact Bool.noConfusion other
  rw [stringSize, string, if_neg Bool.false_ne_true]

theorem vector_mOfFn {α : Type} {n : Nat} (read : Nat → Option α) (v : List.Vector α n)
    (each : ∀ i : Fin n, read i = some (v.get i)) : List.Vector.mOfFn (fun i : Fin n => read i) =
      some v := by
  have pure : (fun i : Fin n => read i) = fun i => Pure.pure (v.get i) := funext each
  rw [pure, List.Vector.mOfFn_pure, List.Vector.ofFn_get]
  rfl

end Rlp

namespace Stored

open Accounts (LogEntry)

/-- For all valid records: what is written is one item, and it is read as an equal record. -/
def RoundTrips {α : Type} (valid : α → Prop) (write : α → Option Bytes) (read : Bytes → Option α) :
    Prop :=
  ∀ record, valid record → ∃ b, write record = some b ∧ construct b = some b ∧ read b = some record

theorem roundTrips_tree {α : Type} {valid : α → Prop} {write : α → Option Bytes}
    {read : Bytes → Option α} (tree : α → Tree) (fits : ∀ d, valid d → (tree d).Fits (2 ^ 32))
    (written : ∀ d, write d = ((tree d).write {}).bind RLPStream.out)
    (back : ∀ d, valid d → read (tree d).encoded = some d) : RoundTrips valid write read := by
  intro d ok
  refine ⟨(tree d).encoded, ?_, (fits d ok).construct, back d ok⟩
  rw [written d, (fits d ok).out]

theorem roundTrips_sized {α : Type} {valid : α → Prop} {rlp : α → Option (Bytes × Sized α)}
    {ofRLP : Bytes → Option (Sized α)} (tree : α → Tree) (size : α → Nat)
    (fits : ∀ d, valid d → (tree d).Fits (2 ^ 32))
    (written : ∀ d, rlp d = sized d ((tree d).write {}))
    (back : ∀ d, valid d → ofRLP (tree d).encoded = some ⟨d, size d⟩) :
    RoundTrips valid (fun d => (rlp d).map Prod.fst) (fun b => (ofRLP b).map Sized.record) := by
  apply roundTrips_tree tree fits
  · intro d
    rw [written d, sized, Option.map_map]
    exact congrFun Option.map_id _
  · intro d ok
    rw [back d ok]
    rfl

namespace BlockDetails

def tree (d : BlockDetails) : Tree :=
  .list [.int d.number, .int d.totalDifficulty, .hash 32 d.parent,
    .list (d.children.map (Tree.hash 32))]

/-- The fields are values of their types, and the encoding fits a vector. -/
structure InRange (d : BlockDetails) : Prop where
  number : d.number < 2 ^ 32
  totalDifficulty : d.totalDifficulty < 2 ^ 256
  parent : d.parent < 256 ^ 32
  children : ∀ h ∈ d.children, h < 256 ^ 32
  size : d.tree.encoded.length < 2 ^ 63

theorem rlp_eq (d : BlockDetails) : d.rlp = sized d (d.tree.write {}) := by
  simp only [rlp, tree, Tree.write, Tree.writeAll, Tree.appendVector_eq _ _ (Tree.appendHash_eq 32),
    Tree.appendHash_eq, List.length_cons, List.length_nil, Option.bind_fun_some]

variable {d : BlockDetails}

theorem InRange.fits (range : d.InRange) : d.tree.Fits (2 ^ 32) :=
  Tree.Numbers.fits _ ⟨range.number.trans (by decide), range.totalDifficulty, trivial,
    Tree.numbersAll_map _ _ fun _ _ => trivial, trivial⟩ range.size

theorem InRange.ofRLP (range : d.InRange) : ofRLP d.tree.encoded = some ⟨d, 0⟩ := by
  have fits := range.fits
  have parent := toHashStrict_appendBytes 32 d.parent (by decide) range.parent
  have children := Tree.Fits.toVector (by decide) fits.2.2.2.2.1 range.children
  have number : toInt 4 (appendInt d.number) = some d.number :=
    toInt_appendInt_of_length 4 _ (toCompactBigEndian_length_le 4 _ range.number) (by decide)
  rw [BlockDetails.ofRLP, tree]
  rw [tree] at fits
  simp only [fits.item, Tree.encodedAll, List.getElem?_cons_zero, List.getElem?_cons_succ,
    Option.getD_some, Option.bind_some, stringSize_list _ fits.whole.2, Tree.encoded_hash, parent,
    children, Option.map_some]
  simp only [Tree.encoded, number, toInt_appendInt _ range.totalDifficulty, Option.bind_some,
    Nat.zero_mod]

end BlockDetails

namespace BlockLogBlooms

def tree (d : BlockLogBlooms) : Tree := .list (d.blooms.map (Tree.hash 256))

structure InRange (d : BlockLogBlooms) : Prop where
  blooms : ∀ bloom ∈ d.blooms, bloom < 256 ^ 256
  size : d.tree.encoded.length < 2 ^ 63

theorem rlp_eq (d : BlockLogBlooms) : d.rlp = sized d (d.tree.write {}) := by
  rw [rlp, tree, Tree.appendVector_eq _ _ (Tree.appendHash_eq 256)]

variable {d : BlockLogBlooms}

theorem InRange.fits (range : d.InRange) : d.tree.Fits (2 ^ 32) :=
  Tree.Numbers.fits _ (Tree.numbersAll_map _ _ fun _ _ => trivial) range.size

theorem InRange.ofRLP (range : d.InRange) :
    ofRLP d.tree.encoded = some ⟨d, d.tree.encoded.length % 2 ^ 32⟩ := by
  have blooms := Tree.Fits.toVector (by decide) range.fits range.blooms
  rw [BlockLogBlooms.ofRLP, tree, blooms]
  rfl

end BlockLogBlooms

namespace BlocksBlooms

def tree (d : BlocksBlooms) : Tree := .list (d.blooms.toList.map (Tree.hash 256))

structure InRange (d : BlocksBlooms) : Prop where
  blooms : ∀ i, d.blooms.get i < 256 ^ 256

theorem rlp_eq (d : BlocksBlooms) : d.rlp = sized d (d.tree.write {}) := by
  rw [rlp, tree, Tree.appendVector_eq _ _ (Tree.appendHash_eq 256)]

variable {d : BlocksBlooms}

theorem fits (d : BlocksBlooms) : d.tree.Fits (2 ^ 32) := by
  have each : ∀ e ∈ Tree.encodedAll (d.blooms.toList.map (Tree.hash 256)), e.length ≤ 265 := by
    rw [Tree.encodedAll_map]
    intro e member
    rcases List.mem_map.mp member with ⟨bloom, -, rfl⟩
    have size := appendBytes_length (toBigEndian 256 bloom) (by rw [toBigEndian_length]; decide)
    rw [toBigEndian_length] at size
    exact size
  have total := flatten_length_le _ 265 each
  rw [Tree.encodedAll_length, List.length_map, List.Vector.toList_length] at total
  have few : c_bloomIndexSize * 265 < 2 ^ 63 := by decide
  exact ⟨by omega, Tree.NumbersAll.fits _ (Tree.numbersAll_map _ _ fun _ _ => trivial) (by omega)⟩

theorem InRange.ofRLP (range : d.InRange) :
    ofRLP d.tree.encoded = some ⟨d, d.tree.encoded.length % 2 ^ 32⟩ := by
  have fits := d.fits
  rw [tree] at fits
  have list := (item_appendList _ fits.whole.2).2
  have count := itemCount_appendList fits.whole.1 fits.whole.2
  rw [Tree.encodedAll_length, List.length_map, List.Vector.toList_length] at count
  have items : ∀ i : Fin c_bloomIndexSize, (item d.tree.encoded i).bind (toHashLax 256) =
      some (d.blooms.get i) := by
    intro i
    have inside : (i : Nat) < d.blooms.toList.length := by
      rw [List.Vector.toList_length]
      exact i.isLt
    have here : d.blooms.toList[(i : Nat)]? = some (d.blooms.get i) := by
      rw [List.getElem?_eq_getElem inside, List.Vector.get_eq_get_toList]
      rfl
    rw [tree, fits.item, Tree.encodedAll_map, List.getElem?_map, here, Option.map_some,
      Option.getD_some, Option.bind_some, Tree.encoded_hash]
    exact toHashLax_appendBytes 256 _ (by decide) (range.blooms i)
  have read : toArray (toHashLax 256) 0 c_bloomIndexSize d.tree.encoded = some d.blooms := by
    rw [toArray, tree, Tree.encoded, if_neg (by rw [list]; exact Bool.noConfusion), count,
      Option.bind_some, if_neg (not_not_intro rfl)]
    exact vector_mOfFn (fun i => (item d.tree.encoded i).bind (toHashLax 256)) d.blooms items
  rw [BlocksBlooms.ofRLP, read]
  rfl

end BlocksBlooms

namespace TransactionAddress

def tree (d : TransactionAddress) : Tree := .list [.hash 32 d.blockHash, .int d.index]

structure InRange (d : TransactionAddress) : Prop where
  blockHash : d.blockHash < 256 ^ 32
  index : d.index < 2 ^ 32

theorem rlp_eq (d : TransactionAddress) : d.rlp = (d.tree.write {}).bind RLPStream.out := by
  simp only [rlp, tree, Tree.write, Tree.writeAll, Tree.appendHash_eq, List.length_cons,
    List.length_nil, Option.bind_fun_some]

variable {d : TransactionAddress}

theorem InRange.fits (range : d.InRange) : d.tree.Fits (2 ^ 32) := by
  have digits := toCompactBigEndian_length_le 4 d.index range.index
  have index := appendBytes_length (toCompactBigEndian d.index) (by omega)
  have hash := appendBytes_length (toBigEndian 32 d.blockHash) (by rw [toBigEndian_length]; decide)
  rw [toBigEndian_length] at hash
  have small : (toBigEndian 32 d.blockHash).length < 2 ^ 63 := by
    rw [toBigEndian_length]
    decide
  refine ⟨?_, small, lt_of_le_of_lt digits (by decide), trivial⟩
  simp only [Tree.encodedAll, Tree.encoded_hash, Tree.encoded, List.flatten_cons, List.flatten_nil,
    List.length_append, List.length_nil, appendInt_eq]
  omega

theorem InRange.ofRLP (range : d.InRange) : ofRLP d.tree.encoded = some d := by
  have fits := range.fits
  have hash := toHashStrict_appendBytes 32 d.blockHash (by decide) range.blockHash
  have index : toInt 4 (appendInt d.index) = some d.index :=
    toInt_appendInt_of_length 4 _ (toCompactBigEndian_length_le 4 _ range.index) (by decide)
  rw [TransactionAddress.ofRLP, tree]
  rw [tree] at fits
  simp only [fits.item, Tree.encodedAll, List.getElem?_cons_zero, List.getElem?_cons_succ,
    Option.getD_some, Option.bind_some, Tree.encoded_hash, hash]
  rw [Tree.encoded, index]
  rfl

end TransactionAddress

namespace LogEntry

def tree (l : LogEntry) : Tree :=
  .list [.hash 20 l.address, .list (l.topics.map (Tree.hash 32)), .data l.data]

structure InRange (l : LogEntry) : Prop where
  address : l.address < 256 ^ 20
  topics : ∀ topic ∈ l.topics, topic < 256 ^ 32

theorem streamRLP_eq (l : LogEntry) (s : RLPStream) : streamRLP l s = (tree l).write s := by
  simp only [streamRLP, tree, Tree.write, Tree.writeAll,
    Tree.appendVector_eq _ _ (Tree.appendHash_eq 32), Tree.appendHash_eq, List.length_cons,
    List.length_nil, Option.bind_fun_some]

theorem numbers (l : LogEntry) : (tree l).Numbers :=
  ⟨trivial, Tree.numbersAll_map _ _ fun _ _ => trivial, trivial, trivial⟩

variable {l : LogEntry}

theorem InRange.ofRLP (range : InRange l) (fits : (tree l).Fits (2 ^ 32)) :
    ofRLP (tree l).encoded = some l := by
  have room : (2 : Nat) ^ 63 < maxLength := by decide
  have address := toHashStrict_appendBytes 20 l.address (by decide) range.address
  have topics := Tree.Fits.toVector (by decide) fits.2.2.1 range.topics
  have short : l.data.length < 2 ^ 63 := fits.2.2.2.1
  have data := toBytes_appendBytes l.data (by omega)
  rw [LogEntry.ofRLP, tree]
  rw [tree] at fits
  simp only [fits.item, Tree.encodedAll, List.getElem?_cons_zero, List.getElem?_cons_succ,
    Option.getD_some, Option.bind_some, Tree.encoded_hash, address, topics]
  rw [Tree.encoded, data]
  rfl

end LogEntry

namespace TransactionReceipt

def tree (r : TransactionReceipt) : Tree :=
  .list [.hash 32 r.stateRoot, .int r.gasUsed, .hash 20 r.contractAddress, .hash 256 r.bloom,
    .list (r.log.map LogEntry.tree)]

structure InRange (r : TransactionReceipt) : Prop where
  stateRoot : r.stateRoot < 256 ^ 32
  gasUsed : r.gasUsed < 2 ^ 256
  contractAddress : r.contractAddress < 256 ^ 20
  bloom : r.bloom < 256 ^ 256
  log : ∀ l ∈ r.log, LogEntry.InRange l

theorem streamRLP_eq (r : TransactionReceipt) (s : RLPStream) : r.streamRLP s = r.tree.write s := by
  simp only [streamRLP, tree, Tree.write, Tree.writeAll,
    Tree.appendVector_eq _ _ LogEntry.streamRLP_eq, Tree.appendHash_eq, List.length_cons,
    List.length_nil, Option.bind_fun_some]

variable {r : TransactionReceipt}

theorem InRange.numbers (range : r.InRange) : r.tree.Numbers :=
  ⟨trivial, range.gasUsed, trivial, trivial, Tree.numbersAll_map _ _ fun l _ => LogEntry.numbers l,
    trivial⟩

theorem InRange.ofBytes (range : r.InRange) (fits : r.tree.Fits (2 ^ 32)) :
    ofBytes r.tree.encoded = some r := by
  have stateRoot := toHashStrict_appendBytes 32 r.stateRoot (by decide) range.stateRoot
  have address := toHashStrict_appendBytes 20 r.contractAddress (by decide) range.contractAddress
  have bloom := toHashStrict_appendBytes 256 r.bloom (by decide) range.bloom
  have logFits : (Tree.list (r.log.map LogEntry.tree)).Fits (2 ^ 32) := fits.2.2.2.2.2.1
  have log : ((Tree.encodedAll (r.log.map LogEntry.tree)).mapM LogEntry.ofRLP) = some r.log := by
    rw [Tree.encodedAll_map]
    apply mapM_map_some
    intro l member
    exact (range.log l member).ofRLP (Tree.fitsAll_mem logFits.2 (List.mem_map_of_mem member))
  rw [TransactionReceipt.ofBytes, fits.construct, Option.bind_some, tree]
  rw [tree] at fits
  simp only [fits.item, Tree.encodedAll, List.getElem?_cons_zero, List.getElem?_cons_succ,
    Option.getD_some, Option.bind_some, Tree.encoded_hash, stateRoot, address, bloom,
    logFits.iterate, log, Option.map_some]
  rw [Tree.encoded, toInt_appendInt _ range.gasUsed]
  rfl

end TransactionReceipt

namespace BlockReceipts

def tree (d : BlockReceipts) : Tree := .list (d.receipts.map TransactionReceipt.tree)

structure InRange (d : BlockReceipts) : Prop where
  receipts : ∀ r ∈ d.receipts, r.InRange
  size : d.tree.encoded.length < 2 ^ 63

theorem rlp_eq (d : BlockReceipts) : d.rlp = sized d (d.tree.write {}) := by
  rw [rlp, tree, Tree.appendVector_eq _ _ TransactionReceipt.streamRLP_eq]

variable {d : BlockReceipts}

theorem InRange.fits (range : d.InRange) : d.tree.Fits (2 ^ 32) :=
  Tree.Numbers.fits _ (Tree.numbersAll_map _ _ fun r member => (range.receipts r member).numbers)
    range.size

theorem InRange.ofRLP (range : d.InRange) :
    ofRLP d.tree.encoded = some ⟨d, d.tree.encoded.length % 2 ^ 32⟩ := by
  have fits := range.fits
  rw [tree] at fits
  have receipts : ((Tree.encodedAll (d.receipts.map TransactionReceipt.tree)).mapM
    TransactionReceipt.ofBytes) =
      some d.receipts := by
    rw [Tree.encodedAll_map]
    apply mapM_map_some
    intro r member
    exact (range.receipts r member).ofBytes (Tree.fitsAll_mem fits.2 (List.mem_map_of_mem member))
  rw [BlockReceipts.ofRLP, tree, fits.iterate, Option.bind_some, receipts]
  rfl

end BlockReceipts

open Accounts (LogEntry)

theorem memo_iff (memo value : H256) :
    value = (if memo = 0 then value else memo) ↔ memo = 0 ∨ memo = value := by
  by_cases none : memo = 0
  · simp [none]
  · simp only [none, if_false, false_or]
    exact eq_comm

/-- A header is read as it was written, but for the hashes it remembers. -/
theorem header_round_trip (C : Crypto) (h : BlockHeader) (range : h.InRange) :
    ∃ back, BlockHeader.ofHeaderData C (h.streamRLP .withSeal) 0 = some back ∧
      { back with memo := h.memo, memoWithout := h.memoWithout } = h ∧
      (back.hash C .withSeal = h.hash C .withSeal ∧
        back.hash C .withoutSeal = h.hash C .withoutSeal ↔ h.Coherent C) := by
  refine ⟨_, BlockHeader.ofHeaderData_streamRLP C range, rfl, ?_⟩
  rw [BlockHeader.hash_withSeal C (.inr rfl)]
  change C.sha3 (h.streamRLP .withSeal) = (if h.memo = 0 then _ else _) ∧
    C.sha3 (h.streamRLP .withoutSeal) = (if h.memoWithout = 0 then _ else _) ↔ _
  rw [memo_iff, memo_iff]
  exact ⟨fun both => ⟨both.1, both.2⟩, fun coherent => ⟨coherent.withSeal, coherent.withoutSeal⟩⟩

/-- Every stored record is read as it was written; a header with its two hashes exactly if those it
remembers are none or of its fields. -/
theorem records_round_trip (C : Crypto) :
    (∀ h : BlockHeader, h.InRange →
      ∃ back, BlockHeader.ofHeaderData C (h.streamRLP .withSeal) 0 = some back ∧
        { back with memo := h.memo, memoWithout := h.memoWithout } = h ∧
        (back.hash C .withSeal = h.hash C .withSeal ∧
          back.hash C .withoutSeal = h.hash C .withoutSeal ↔ h.Coherent C)) ∧
    RoundTrips BlockDetails.InRange (fun d => d.rlp.map Prod.fst)
      (fun b => (BlockDetails.ofRLP b).map Sized.record) ∧
    RoundTrips BlockLogBlooms.InRange (fun d => d.rlp.map Prod.fst)
      (fun b => (BlockLogBlooms.ofRLP b).map Sized.record) ∧
    RoundTrips BlocksBlooms.InRange (fun d => d.rlp.map Prod.fst)
      (fun b => (BlocksBlooms.ofRLP b).map Sized.record) ∧
    RoundTrips TransactionAddress.InRange TransactionAddress.rlp TransactionAddress.ofRLP ∧
    RoundTrips (fun l : LogEntry => LogEntry.InRange l ∧ (LogEntry.tree l).encoded.length < 2 ^ 63)
      (fun l => (LogEntry.streamRLP l {}).bind RLPStream.out) LogEntry.ofRLP ∧
    RoundTrips (fun r : TransactionReceipt => r.InRange ∧ r.tree.encoded.length < 2 ^ 63)
      TransactionReceipt.rlp TransactionReceipt.ofBytes ∧
    RoundTrips BlockReceipts.InRange (fun d => d.rlp.map Prod.fst)
      (fun b => (BlockReceipts.ofRLP b).map Sized.record) := by
  refine ⟨header_round_trip C, ?_, ?_, ?_, ?_, ?_, ?_, ?_⟩
  · exact roundTrips_sized BlockDetails.tree _ (fun _ range => range.fits) BlockDetails.rlp_eq
      fun _ range => range.ofRLP
  · exact roundTrips_sized BlockLogBlooms.tree _ (fun _ range => range.fits) BlockLogBlooms.rlp_eq
      fun _ range => range.ofRLP
  · exact roundTrips_sized BlocksBlooms.tree _ (fun d _ => d.fits) BlocksBlooms.rlp_eq
      fun _ range => range.ofRLP
  · exact roundTrips_tree TransactionAddress.tree (fun _ range => range.fits)
      TransactionAddress.rlp_eq
      fun _ range => range.ofRLP
  · have fits : ∀ l, LogEntry.InRange l ∧ (LogEntry.tree l).encoded.length < 2 ^ 63 →
        (LogEntry.tree l).Fits (2 ^ 32) :=
      fun l valid => Tree.Numbers.fits _ (LogEntry.numbers l) valid.2
    exact roundTrips_tree LogEntry.tree fits (fun l => by rw [LogEntry.streamRLP_eq])
      fun l valid => valid.1.ofRLP (fits l valid)
  · have fits : ∀ r : TransactionReceipt, r.InRange ∧ r.tree.encoded.length < 2 ^ 63 →
        r.tree.Fits (2 ^ 32) :=
      fun r valid => Tree.Numbers.fits _ valid.1.numbers valid.2
    exact roundTrips_tree TransactionReceipt.tree fits
      (fun r => by rw [TransactionReceipt.rlp, r.streamRLP_eq]) fun r valid =>
      valid.1.ofBytes (fits r valid)
  · exact roundTrips_sized BlockReceipts.tree _ (fun _ range => range.fits) BlockReceipts.rlp_eq
      fun _ range => range.ofRLP

def toyHeader : BlockHeader :=
  { number := 1, timestamp := 2, extraData := [1, 2], nodeList := [1, 2 ^ 511]
    sealItems := [[0x07], [0xc1, 0x05]] }

def toyDetails : BlockDetails := ⟨3, 2 ^ 255, 7, [8, 9]⟩

def toyReceipt : TransactionReceipt := ⟨2, 2 ^ 255, 7, 2 ^ 2047, [⟨7, [8, 0], [1, 2, 3]⟩]⟩

def toyReceipts : BlockReceipts := ⟨[⟨1, 21000, 0, 0, []⟩, toyReceipt]⟩

theorem records_round_trip_toy :
    (∃ back, BlockHeader.ofHeaderData .toy (toyHeader.streamRLP .withSeal) 0 = some back ∧
      back.hash .toy .withSeal = toyHeader.hash .toy .withSeal ∧
      back.hash .toy .withoutSeal = toyHeader.hash .toy .withoutSeal) ∧
    (∃ b, toyDetails.rlp.map Prod.fst = some b ∧
      (BlockDetails.ofRLP b).map Sized.record = some toyDetails) ∧
    (∃ b, TransactionAddress.rlp ⟨5, 2 ^ 31⟩ = some b ∧
      TransactionAddress.ofRLP b = some ⟨5, 2 ^ 31⟩) ∧
    ∃ b, toyReceipts.rlp.map Prod.fst = some b ∧
      (BlockReceipts.ofRLP b).map Sized.record = some toyReceipts := by
  obtain ⟨header, details, -, -, address, -, -, receipts⟩ := records_round_trip .toy
  refine ⟨?_, ?_, ?_, ?_⟩
  · have range : toyHeader.InRange := by
      refine ⟨?_, ?_, ?_, ?_, ?_, ?_, ?_, ?_, ?_, ?_, ?_, ?_, ?_, ?_, ?_, ?_⟩ <;> decide +kernel
    obtain ⟨back, read, -, hashes⟩ := header toyHeader range
    exact ⟨back, read, hashes.mpr ⟨.inl rfl, .inl rfl⟩⟩
  · obtain ⟨b, written, -, read⟩ := details toyDetails
      ⟨by decide, by decide, by decide, by decide, by decide +kernel⟩
    exact ⟨b, written, read⟩
  · obtain ⟨b, written, -, read⟩ := address ⟨5, 2 ^ 31⟩ ⟨by decide, by decide⟩
    exact ⟨b, written, read⟩
  · have first : TransactionReceipt.InRange ⟨1, 21000, 0, 0, []⟩ :=
      ⟨by decide, by decide, by decide, by decide, by nofun⟩
    have second : toyReceipt.InRange := by
      refine ⟨by decide, by decide, by decide, by decide +kernel, ?_⟩
      exact List.forall_mem_singleton.mpr ⟨by decide, by decide⟩
    obtain ⟨b, written, -, read⟩ := receipts toyReceipts
      ⟨List.forall_mem_cons.mpr ⟨first, List.forall_mem_singleton.mpr second⟩, by decide +kernel⟩
    exact ⟨b, written, read⟩

def staleCalls : List BlockHeader.Call :=
  [.hash 0 .withSeal, .hash 0 .withoutSeal, .populateFromParent 0 1]

/-- A header that has been asked for its hash remembers it when it is populated from its parent, and
the stored copy does not. -/
theorem populated_header_hash_differs :
    ¬ ∀ (C : Crypto) (maxBlockHeadGas : Nat) (calls : List BlockHeader.Call) (i : Nat),
      let h := run (BlockHeader.step C maxBlockHeadGas) (fun _ => {}) calls i
      h.InRange → ∃ back, BlockHeader.ofHeaderData C (h.streamRLP .withSeal) 0 = some back ∧
        back.hash C .withSeal = h.hash C .withSeal ∧
        back.hash C .withoutSeal = h.hash C .withoutSeal := by
  intro hashesKept
  have range : (run (BlockHeader.step .toy 10) (fun _ => {}) staleCalls 0).InRange := by
    refine ⟨?_, ?_, ?_, ?_, ?_, ?_, ?_, ?_, ?_, ?_, ?_, ?_, ?_, ?_, ?_, ?_⟩ <;> decide +kernel
  obtain ⟨back, read, same⟩ := hashesKept .toy 10 staleCalls 0 range
  obtain ⟨back', read', -, coherent⟩ := header_round_trip .toy _ range
  cases read.symm.trans read'
  have stale : ¬ BlockHeader.Remembers .toy
      (run (BlockHeader.step .toy 10) (fun _ => {}) staleCalls 0) := by
    unfold BlockHeader.Remembers
    decide +kernel
  exact stale (coherent.mp same).withSeal

end Stored

end UtispaceChain
