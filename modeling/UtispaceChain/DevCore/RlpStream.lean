import UtispaceChain.DevCore.RlpItems

/-! `RLPStream` with its open lists, and what an `RLP` keeps while its items are read: the
list-indexing cache and the iterator. -/

namespace UtispaceChain.Rlp

open Lib

/-! Writer -/

/-- The bytes of the number, counted in an `unsigned`. -/
def bytesRequired (n : Nat) : Nat := (toCompactBigEndian n).length % 2 ^ 32

/-- Room is made at the end and filled from the back. Nothing may be written before the first
byte. -/
def pushInt (out : Bytes) (n width : Nat) : Option Bytes :=
  let room := out ++ List.replicate width 0
  let digits := toCompactBigEndian n
  if digits.length ≤ room.length then some (room.take (room.length - digits.length) ++ digits)
    else none

/-- The bytes so far, and for each open list, the innermost first, the items that are missing and
where it starts. -/
structure RLPStream where
  bytes : Bytes := []
  listStack : List (Nat × Nat) := []
  deriving DecidableEq, Repr

namespace RLPStream

def pushCount (out : Bytes) (count base : Nat) : Option Bytes :=
  let br := bytesRequired count
  if 0xff < br + base then none else pushInt (out ++ [UInt8.ofNat (br + base)]) count br

/-- The header of a complete list is put before its items, which are moved back. -/
def closeList (out : Bytes) (p : Nat) : Option Bytes :=
  let s := out.length - p
  let brs := bytesRequired s
  if s < 56 then some (out.take p ++ UInt8.ofNat (0xc0 + s) :: out.drop p)
  else if 0xf7 + brs ≤ 0xff then
    some (out.take p ++ UInt8.ofNat (0xf7 + brs) :: toCompactBigEndian s ++ out.drop p)
  else none

def noteAppended (itemCount : Nat) (bytes : Bytes) (listStack : List (Nat × Nat)) :
    Option RLPStream :=
  if itemCount = 0 then some ⟨bytes, listStack⟩
  else
    match listStack with
    | [] => some ⟨bytes, []⟩
    | (missing, p) :: rest =>
        if missing < itemCount then none
        else if missing - itemCount ≠ 0 then some ⟨bytes, (missing - itemCount, p) :: rest⟩
        else (closeList bytes p).bind fun bytes => noteAppended 1 bytes rest

def appendRaw (s : RLPStream) (rlp : Bytes) (itemCount : Nat) : Option RLPStream :=
  noteAppended itemCount (s.bytes ++ rlp) s.listStack

def append (s : RLPStream) (b : Bytes) : Option RLPStream :=
  if b.length = 1 ∧ (b.headD 0).toNat < 0x80 then noteAppended 1 (s.bytes ++ b) s.listStack
  else
    let header := if b.length < 56 then some (s.bytes ++ [UInt8.ofNat (b.length + 0x80)])
      else pushCount s.bytes b.length 0xb7
    header.bind fun out => (appendRaw ⟨out, s.listStack⟩ b 0).bind fun s =>
      noteAppended 1 s.bytes s.listStack

/-- `append(bigint)`, for a number that is not negative. -/
def appendInt (s : RLPStream) (n : Nat) : Option RLPStream :=
  let written :=
    if n = 0 then some (s.bytes ++ [0x80])
    else if n < 0x80 then some (s.bytes ++ [UInt8.ofNat n])
    else
      let br := bytesRequired n
      if br < 56 then pushInt (s.bytes ++ [UInt8.ofNat (br + 0x80)]) n br
      else
        let brbr := bytesRequired br
        if 0xff < 0xb7 + brbr then none
        else (pushInt (s.bytes ++ [UInt8.ofNat (0xb7 + brbr)]) br brbr).bind fun out =>
          pushInt out n br
  written.bind fun out => noteAppended 1 out s.listStack

/-- `appendList(bytesConstRef)`: the items are there already. -/
def appendListOf (s : RLPStream) (rlp : Bytes) : Option RLPStream :=
  let header := if rlp.length < 56 then some (s.bytes ++ [UInt8.ofNat (rlp.length + 0xc0)])
    else pushCount s.bytes rlp.length 0xf7
  header.bind fun out => appendRaw ⟨out, s.listStack⟩ rlp 1

def appendList (s : RLPStream) (items : Nat) : Option RLPStream :=
  if items ≠ 0 then some { s with listStack := (items, s.bytes.length) :: s.listStack }
    else s.appendListOf []

def out (s : RLPStream) : Option Bytes := if s.listStack = [] then some s.bytes else none

end RLPStream

/-! Reader -/

/-- `m_lastIndex`, `m_lastEnd` and `m_lastItem`. -/
structure ListCache where
  lastIndex : Nat := 2 ^ 64 - 1
  lastEnd : Nat := 0
  lastItem : Bytes := []
  deriving DecidableEq, Repr

namespace ListCache

def advance (d : Bytes) : Nat → ListCache → Option ListCache
  | 0, c => some c
  | turns + 1, c =>
      if c.lastItem = [] then some c
      else
        (payload d).bind fun p => (sizeAsEncoded (p.drop c.lastEnd)).bind fun size =>
          let lastItem := cropped (p.drop c.lastEnd) 0 size
          advance d turns ⟨c.lastIndex + 1, c.lastEnd + lastItem.length, lastItem⟩

def subscript (d : Bytes) (i : Nat) (c : ListCache) : Option (Bytes × ListCache) :=
  let start := if i < c.lastIndex then
      (payload d).bind fun p => (sizeAsEncoded p).map fun lastEnd =>
        ⟨0, lastEnd, cropped p 0 lastEnd⟩
    else some c
  start.bind fun c => (advance d (i - c.lastIndex) c).bind fun c =>
    (sizeAsEncoded c.lastItem).map fun _ => (c.lastItem, c)

/-- Items of one `RLP`, read one after another. -/
def subscripts (d : Bytes) : List Nat → ListCache → Option (List Bytes)
  | [], _ => some []
  | i :: is, c => (subscript d i c).bind fun (item, c) => (subscripts d is c).map (item :: ·)

end ListCache

/-- `RLP::items`: the size of one item after the other is skipped. -/
def countFrom : Nat → Bytes → Option Nat
  | _, [] => some 0
  | 0, _ :: _ => none
  | fuel + 1, d => (sizeAsEncoded d).bind fun size => (countFrom fuel (d.drop size)).map (· + 1)

def itemCount (d : Bytes) : Option Nat :=
  if isList d then (payload d).bind fun p => countFrom p.length p else some 0

/-- A `vector_ref` into the data: null, or a place and a count. -/
abbrev Ref := Option (Nat × Nat)

namespace Ref

def bytes (d : Bytes) : Ref → Bytes
  | none => []
  | some (start, count) => (d.drop start).take count

def size : Ref → Nat
  | none => 0
  | some (_, count) => count

def cropped : Ref → (start count : Nat) → Ref
  | none, _, _ => none
  | some (place, size), start, count =>
      if start + count ≤ size then some (place + start, count) else none

def behind : Ref → (count : Nat) → Ref
  | none, _ => none
  | some (place, size), count => some (place + size, count)

end Ref

/-- `RLP::payload`, as a place in the data. -/
def payloadRef (d : Bytes) : Option Ref :=
  (length d).bind fun l =>
    if d.length < l then none else some (Ref.cropped (some (0, d.length)) (payloadOffset d) l)

structure Iterator where
  remaining : Nat
  currentItem : Ref
  deriving DecidableEq, Repr

namespace Iterator

/-- `begin`. -/
def first (d : Bytes) : Option Iterator :=
  if isList d then
    (payloadRef d).bind fun pl => (sizeAsEncoded (pl.bytes d)).map fun size =>
      ⟨pl.size - (pl.cropped 0 size).size, pl.cropped 0 size⟩
  else some ⟨0, some (d.length, 0)⟩

def next (d : Bytes) (it : Iterator) : Option Iterator :=
  if it.remaining ≠ 0 then
    let rest := it.currentItem.behind it.remaining
    (sizeAsEncoded (rest.bytes d)).map fun size =>
      ⟨it.remaining - min it.remaining (rest.cropped 0 size).size, rest.cropped 0 size⟩
  else some ⟨0, it.currentItem.behind 0⟩

/-- The items from here on, each as an `RLP`. The end is the place behind the data. -/
def collect (d : Bytes) : Nat → Iterator → Option (List Bytes)
  | 0, _ => none
  | fuel + 1, it =>
      if it.currentItem = some (d.length, 0) then some []
      else (construct (it.currentItem.bytes d)).bind fun item => (it.next d).bind fun it =>
        (collect d fuel it).map (item :: ·)

end Iterator

def iterate (d : Bytes) : Option (List Bytes) :=
  (Iterator.first d).bind (Iterator.collect d (d.length + 1))

/-! Trees -/

inductive Tree
  | data (s : Bytes)
  | int (n : Nat)
  | list (items : List Tree)

namespace Tree

mutual

/-- The tree is appended: a list with the number of its items, then the items. -/
def write : Tree → RLPStream → Option RLPStream
  | .data b, s => s.append b
  | .int n, s => s.appendInt n
  | .list items, s => (s.appendList items.length).bind (writeAll items)

def writeAll : List Tree → RLPStream → Option RLPStream
  | [], s => some s
  | t :: rest, s => (write t s).bind (writeAll rest)

end

mutual

/-- The reader finds the tree: a string, an integer, or a list with its count, its subscripts in any
order, and its iterator. -/
def Reads : Tree → Bytes → Prop
  | .data b, d => isList d = false ∧ toBytes d = some b
  | .int n, d => isList d = false ∧ toInt (2 ^ 32 - 1) d = some n
  | .list items, d => isList d = true ∧ itemCount d = some items.length ∧
      ∃ parts, iterate d = some parts ∧
        (∀ is : List Nat, (∀ i ∈ is, i < 2 ^ 64) →
          ListCache.subscripts d is {} = some (is.map fun i => (parts[i]?).getD [])) ∧
          ReadsAll items parts

def ReadsAll : List Tree → List Bytes → Prop
  | [], [] => True
  | t :: rest, d :: parts => Reads t d ∧ ReadsAll rest parts
  | _, _ => False

end

mutual

def encoded : Tree → Bytes
  | .data b => appendBytes b
  | .int n => Rlp.appendInt n
  | .list items => Rlp.appendList (encodedAll items).flatten

def encodedAll : List Tree → List Bytes
  | [] => []
  | t :: rest => encoded t :: encodedAll rest

end

mutual

/-- The strings and the payloads of the lists have lengths below 2^63, and the integers fewer
digits. -/
def Fits (digits : Nat) : Tree → Prop
  | .data b => b.length < 2 ^ 63
  | .int n => (toCompactBigEndian n).length < digits
  | .list items => (encodedAll items).flatten.length < 2 ^ 63 ∧ FitsAll digits items

def FitsAll (digits : Nat) : List Tree → Prop
  | [] => True
  | t :: rest => Fits digits t ∧ FitsAll digits rest

end

mutual

/-- The lengths are those of a `size_t`, the numbers of digits those of an `unsigned`. -/
def Writable : Tree → Prop
  | .data b => b.length < 2 ^ 64
  | .int n => (toCompactBigEndian n).length < 2 ^ 32
  | .list items => (encodedAll items).flatten.length < 2 ^ 64 ∧ WritableAll items

def WritableAll : List Tree → Prop
  | [] => True
  | t :: rest => Writable t ∧ WritableAll rest

end

end Tree

/-! What the writer emits -/

theorem bytesRequired_eq (n : Nat) (small : (toCompactBigEndian n).length < 2 ^ 32) :
    bytesRequired n = (toCompactBigEndian n).length := Nat.mod_eq_of_lt small

theorem size_width (n : Nat) (bound : n < 2 ^ 64) : (toCompactBigEndian n).length ≤ 8 :=
  toCompactBigEndian_length_le 8 n (by omega)

theorem pushInt_width (out : Bytes) (n : Nat) :
    pushInt out n (toCompactBigEndian n).length = some (out ++ toCompactBigEndian n) := by
  simp [pushInt]

namespace RLPStream

theorem pushCount_eq (out : Bytes) (count base : Nat) (bound : count < 2 ^ 64)
    (room : base + 8 ≤ 0xff) :
    pushCount out count base = some (out ++ Rlp.pushCount count base) := by
  have width := size_width count bound
  have required := bytesRequired_eq count (by omega)
  have fits : ¬ 0xff < (toCompactBigEndian count).length + base := by omega
  simp only [pushCount, required, if_neg fits, pushInt_width, Rlp.pushCount, List.append_assoc,
    List.singleton_append]

theorem closeList_eq (front items : Bytes) (bound : items.length < 2 ^ 64) :
    closeList (front ++ items) front.length = some (front ++ Rlp.appendList items) := by
  have size : (front ++ items).length - front.length = items.length := by
    rw [List.length_append]
    omega
  have width := size_width items.length bound
  have required := bytesRequired_eq items.length (by omega)
  have fits : 0xf7 + (toCompactBigEndian items.length).length ≤ 0xff := by omega
  simp only [closeList, size, required, List.take_left, List.drop_left, if_pos fits]
  unfold Rlp.appendList
  by_cases short : items.length < 56
  · simp only [if_pos short, Nat.add_comm 0xc0]
  · simp only [if_neg short, Rlp.pushCount, Nat.add_comm 0xf7, List.append_assoc, List.cons_append]

theorem noteAppended_nil (bytes : Bytes) : noteAppended 1 bytes [] = some ⟨bytes, []⟩ := rfl

theorem noteAppended_zero (bytes : Bytes) (stack : List (Nat × Nat)) :
    noteAppended 0 bytes stack = some ⟨bytes, stack⟩ := by
  cases stack <;> rfl

theorem noteAppended_more (bytes : Bytes) (missing p : Nat) (rest : List (Nat × Nat)) :
    noteAppended 1 bytes ((missing + 2, p) :: rest) = some ⟨bytes, (missing + 1, p) :: rest⟩ := by
  simp [noteAppended]

theorem noteAppended_last (front items : Bytes) (rest : List (Nat × Nat))
    (bound : items.length < 2 ^ 64) :
    noteAppended 1 (front ++ items) ((1, front.length) :: rest) =
      noteAppended 1 (front ++ Rlp.appendList items) rest := by
  rw [noteAppended]
  simp [closeList_eq front items bound]

theorem append_eq (s : RLPStream) (b : Bytes) (bound : b.length < 2 ^ 64) :
    s.append b = noteAppended 1 (s.bytes ++ appendBytes b) s.listStack := by
  unfold append appendBytes
  by_cases single : b.length = 1 ∧ (b.headD 0).toNat < 0x80
  · rw [if_pos single, if_pos single]
  rw [if_neg single, if_neg single]
  by_cases short : b.length < 56
  · simp [short, appendRaw, noteAppended_zero]
  · simp [short, pushCount_eq _ _ 0xb7 bound, appendRaw, noteAppended_zero]

theorem appendInt_eq (s : RLPStream) (n : Nat) (small : (toCompactBigEndian n).length < 2 ^ 32) :
    s.appendInt n = noteAppended 1 (s.bytes ++ Rlp.appendInt n) s.listStack := by
  unfold appendInt Rlp.appendInt
  by_cases zero : n = 0
  · simp [zero]
  by_cases single : n < 0x80
  · simp [zero, single]
  simp only [if_neg zero, if_neg single, bytesRequired_eq n small]
  by_cases short : (toCompactBigEndian n).length < 56
  · simp [short, pushInt_width]
  · have width := size_width (toCompactBigEndian n).length (by omega)
    have required := bytesRequired_eq (toCompactBigEndian n).length (by omega)
    have fits : ¬ 0xff < 0xb7 + (toCompactBigEndian (toCompactBigEndian n).length).length := by
      omega
    rw [if_neg short, if_neg short, required, if_neg fits, pushInt_width, Option.bind_some,
      pushInt_width, Option.bind_some, Rlp.pushCount, Nat.add_comm 0xb7]
    simp only [List.append_assoc, List.nil_append, List.cons_append]

theorem appendListOf_eq (s : RLPStream) (rlp : Bytes) (bound : rlp.length < 2 ^ 64) :
    s.appendListOf rlp = noteAppended 1 (s.bytes ++ Rlp.appendList rlp) s.listStack := by
  unfold appendListOf Rlp.appendList
  by_cases short : rlp.length < 56
  · simp [short, appendRaw]
  · simp [short, pushCount_eq _ _ 0xf7 bound, appendRaw]

end RLPStream

namespace Tree

open RLPStream

@[simp] theorem encodedAll_length (items : List Tree) :
    (encodedAll items).length = items.length := by
  induction items with
  | nil => rfl
  | cons t rest ih => simp [encodedAll, ih]

mutual

theorem Fits.writable (t : Tree) (fits : t.Fits (2 ^ 32)) : t.Writable := by
  cases t with
  | data b =>
      have bound : b.length < 2 ^ 63 := fits
      change b.length < 2 ^ 64
      omega
  | int n => exact fits
  | list items =>
      rcases fits with ⟨bound, all⟩
      exact ⟨by omega, FitsAll.writable items all⟩

theorem FitsAll.writable (items : List Tree) (fits : FitsAll (2 ^ 32) items) :
    WritableAll items := by
  cases items with
  | nil => trivial
  | cons t rest => exact ⟨Fits.writable t fits.1, FitsAll.writable rest fits.2⟩

end

mutual

theorem write_eq (t : Tree) (fits : t.Writable) (s : RLPStream) :
    t.write s = noteAppended 1 (s.bytes ++ t.encoded) s.listStack := by
  cases t with
  | data b => exact s.append_eq b fits
  | int n => exact s.appendInt_eq n fits
  | list items =>
      obtain ⟨bound, all⟩ := fits
      rw [write, encoded]
      cases items with
      | nil =>
          have empty : s.appendList 0 = _ := s.appendListOf_eq [] (by decide)
          rw [List.length_nil, empty]
          simp [writeAll, encodedAll]
      | cons t rest =>
          have written :=
            writeAll_eq (t :: rest) (List.cons_ne_nil t rest) all s.bytes [] s.listStack
            (by simpa using bound)
          rw [List.append_nil, List.nil_append] at written
          exact written

theorem writeAll_eq (items : List Tree) (full : items ≠ []) (fits : WritableAll items)
    (front done : Bytes) (stack : List (Nat × Nat))
    (bound : (done ++ (encodedAll items).flatten).length < 2 ^ 64) :
    writeAll items ⟨front ++ done, (items.length, front.length) :: stack⟩ =
      noteAppended 1 (front ++ Rlp.appendList (done ++ (encodedAll items).flatten)) stack := by
  cases items with
  | nil => exact absurd rfl full
  | cons t rest =>
      obtain ⟨first, others⟩ := fits
      rw [writeAll, write_eq t first]
      rw [encodedAll, List.flatten_cons] at bound ⊢
      cases rest with
      | nil =>
          have room : (done ++ t.encoded).length < 2 ^ 64 := by
            simp [encodedAll] at bound
            rw [List.length_append]
            omega
          rw [List.append_assoc]
          have last := noteAppended_last front (done ++ t.encoded) stack room
          simp [last, writeAll, encodedAll]
      | cons u more =>
          have open_list :=
            noteAppended_more (front ++ done ++ t.encoded) more.length front.length stack
          have written :=
            writeAll_eq (u :: more) (List.cons_ne_nil u more) others front (done ++ t.encoded) stack
            (by simpa using bound)
          rw [List.length_cons, List.length_cons, open_list, Option.bind_some]
          rw [List.append_assoc done, ← List.append_assoc front] at written
          exact written

end

end Tree

/-! What the reader finds -/

theorem countFrom_eq (fuel : Nat) (p : Bytes) :
    countFrom fuel p = (itemsOf fuel p).map List.length := by
  induction fuel generalizing p with
  | zero => cases p <;> rfl
  | succ fuel ih =>
      cases p with
      | nil => rfl
      | cons n rest =>
          change (sizeAsEncoded (n :: rest)).bind _ = ((sizeAsEncoded (n :: rest)).bind _).map _
          cases sizeAsEncoded (n :: rest) with
          | none => rfl
          | some size =>
              rw [Option.bind_some, Option.bind_some, ih, Option.map_map, Option.map_map]
              rfl

section Sequence

variable {d : Bytes} {l : List Bytes}

theorem cropped_append (d r : Bytes) : cropped (d ++ r) 0 d.length = d := by
  simp [cropped]

theorem Items.drop (whole : Items l) (k : Nat) : Items (l.drop k) :=
  fun d member => whole d (List.mem_of_mem_drop member)

theorem next_item (whole : Items l) (k : Nat) :
    sizeAsEncoded (l.drop k).flatten = some ((l[k]?).getD []).length ∧
      cropped (l.drop k).flatten 0 ((l[k]?).getD []).length = (l[k]?).getD [] := by
  cases rest : l.drop k with
  | nil =>
      have none : l[k]? = none := by
        rw [List.getElem?_eq_none_iff]
        exact List.drop_eq_nil_iff.mp rest
      rw [none]
      exact ⟨rfl, rfl⟩
  | cons e more =>
      have some : l[k]? = some e := by
        rw [← List.head?_drop, rest]
        rfl
      have here : Item e := whole.drop k e (rest ▸ List.mem_cons_self)
      rw [some, Option.getD_some, List.flatten_cons]
      exact ⟨here.sizeAsEncoded_append e more.flatten, cropped_append e more.flatten⟩

namespace ListCache

/-- The cache stands at an item, or at the place behind the last one. -/
structure At (l : List Bytes) (c : ListCache) : Prop where
  inside : c.lastIndex ≤ l.length
  lastItem : c.lastItem = (l[c.lastIndex]?).getD []
  lastEnd : c.lastEnd = (l.take (c.lastIndex + 1)).flatten.length

theorem At.advance {c : ListCache} (whole : Items l) (read : payload d = some l.flatten)
    (stands : c.At l) (turns : Nat) : ∃ c', c.advance d turns = some c' ∧ c'.At l ∧
    c'.lastIndex = min (c.lastIndex + turns) l.length := by
  induction turns generalizing c with
  | zero => exact ⟨c, rfl, stands, (Nat.min_eq_left stands.inside).symm⟩
  | succ turns ih =>
      unfold ListCache.advance
      by_cases empty : c.lastItem = []
      · refine ⟨c, by rw [if_pos empty], stands, ?_⟩
        have beyond : l.length ≤ c.lastIndex := by
          by_contra below
          have here : l[c.lastIndex]? = some l[c.lastIndex] := List.getElem?_eq_getElem (by omega)
          rw [stands.lastItem, here] at empty
          exact (whole _ (List.mem_of_getElem? here)).1 empty
        have inside := stands.inside
        omega
      · have below : c.lastIndex < l.length := by
          by_contra beyond
          rw [stands.lastItem, List.getElem?_eq_none (by omega)] at empty
          exact empty rfl
        have tail : l.flatten.drop c.lastEnd = (l.drop (c.lastIndex + 1)).flatten := by
          have split : l.flatten = (l.take (c.lastIndex + 1)).flatten ++
              (l.drop (c.lastIndex + 1)).flatten := by
            rw [← List.flatten_append, List.take_append_drop]
          rw [stands.lastEnd, split, List.drop_left]
        obtain ⟨size, item⟩ := next_item whole (c.lastIndex + 1)
        rw [if_neg empty, read, Option.bind_some, tail, size, Option.bind_some]
        dsimp only
        rw [item]
        obtain ⟨c', done, stands', index⟩ := ih (c := ⟨c.lastIndex + 1,
          c.lastEnd + ((l[c.lastIndex + 1]?).getD []).length, (l[c.lastIndex + 1]?).getD []⟩)
            ⟨below, rfl, by
            rw [stands.lastEnd, List.take_add_one (i := c.lastIndex + 1)]
            cases l[c.lastIndex + 1]? <;> simp⟩
        refine ⟨c', done, stands', ?_⟩
        dsimp only at index
        omega

def Ready (l : List Bytes) (c : ListCache) : Prop := c = {} ∨ c.At l

theorem Ready.subscript {c : ListCache} (whole : Items l) (read : payload d = some l.flatten)
    (small : l.length < 2 ^ 64) (ready : c.Ready l) (i : Nat) (index : i < 2 ^ 64) :
    ∃ c', c.subscript d i = some ((l[i]?).getD [], c') ∧ c'.Ready l := by
  have found {c : ListCache} (stands : c.At l) (before : c.lastIndex ≤ i) :
      ∃ c', ((c.advance d (i - c.lastIndex)).bind fun c => (sizeAsEncoded c.lastItem).map
        fun _ => (c.lastItem, c)) =
        some ((l[i]?).getD [], c') ∧ c'.Ready l := by
    obtain ⟨c', done, stands', place⟩ := stands.advance whole read (i - c.lastIndex)
    have item : c'.lastItem = (l[i]?).getD [] := by
      rw [stands'.lastItem, place]
      by_cases below : i < l.length
      · rw [show min (c.lastIndex + (i - c.lastIndex)) l.length = i by omega]
      · rw [List.getElem?_eq_none (by omega), List.getElem?_eq_none (by omega)]
    have sized : ∃ size, sizeAsEncoded c'.lastItem = some size := by
      rw [item]
      cases here : l[i]? with
      | none => exact ⟨0, rfl⟩
      | some e =>
          have sized := (whole e (List.mem_of_getElem? here)).sizeAsEncoded_append e []
          rw [List.append_nil] at sized
          exact ⟨_, sized⟩
    obtain ⟨size, sized⟩ := sized
    refine ⟨c', ?_, .inr stands'⟩
    rw [done, Option.bind_some, sized, Option.map_some, item]
  obtain ⟨size, item⟩ := next_item whole 0
  rw [List.drop_zero] at size item
  have begun : (⟨0, ((l[0]?).getD []).length, (l[0]?).getD []⟩ : ListCache).At l := by
    refine ⟨Nat.zero_le _, rfl, ?_⟩
    cases l <;> simp
  unfold ListCache.subscript
  by_cases before : i < c.lastIndex
  · rw [if_pos before, read, Option.bind_some, size, Option.map_some, Option.bind_some, item]
    exact found begun (Nat.zero_le i)
  · rw [if_neg before, Option.bind_some]
    rcases ready with rfl | stands
    · -- nothing was read yet, and the index is the last that a `size_t` has
      refine ⟨{}, ?_, .inl rfl⟩
      have last : i = 2 ^ 64 - 1 := by
        change ¬ i < 2 ^ 64 - 1 at before
        omega
      have none : l[i]? = none := List.getElem?_eq_none (by omega)
      rw [none, last]
      rfl
    · exact found stands (by omega)

theorem subscripts_eq {c : ListCache} (whole : Items l) (read : payload d = some l.flatten)
    (small : l.length < 2 ^ 64) (ready : c.Ready l) (is : List Nat) (index : ∀ i ∈ is, i < 2 ^ 64) :
    c.subscripts d is = some (is.map fun i => (l[i]?).getD []) := by
  induction is generalizing c with
  | nil => rfl
  | cons i is ih =>
      obtain ⟨c', item, ready'⟩ := ready.subscript whole read small i (index i List.mem_cons_self)
      have rest := ih ready' fun i member => index i (List.mem_cons_of_mem _ member)
      rw [subscripts, item, Option.bind_some]
      dsimp only
      rw [rest]
      rfl

end ListCache

namespace Iterator

theorem collect_item (front e rest : Bytes) (here : Item e) (fuel remaining : Nat) :
    collect (front ++ e ++ rest) (fuel + 1) ⟨remaining, some (front.length, e.length)⟩ =
      (next (front ++ e ++ rest) ⟨remaining, some (front.length, e.length)⟩).bind fun it =>
        (collect (front ++ e ++ rest) fuel it).map (e :: ·) := by
  have long : e.length ≠ 0 := fun empty => here.1 (List.length_eq_zero_iff.mp empty)
  have running : ¬(some (front.length, e.length) : Ref) = some ((front ++ e ++ rest).length, 0) :=
    fun same => long (Prod.mk.inj (Option.some.inj same)).2
  have item : Ref.bytes (front ++ e ++ rest) (some (front.length, e.length)) = e := by
    simp [Ref.bytes]
  rw [collect, if_neg running, item, here.construct, Option.bind_some]

theorem next_last (front e : Bytes) :
    next (front ++ e) ⟨0, some (front.length, e.length)⟩ =
      some ⟨0, some ((front ++ e).length, 0)⟩ := by
  simp [next, Ref.behind]

theorem next_item (front e f rest : Bytes) (there : Item f) :
    next (front ++ e ++ (f ++ rest)) ⟨(f ++ rest).length, some (front.length, e.length)⟩ =
      some ⟨rest.length, some ((front ++ e).length, f.length)⟩ := by
  have long : f.length ≠ 0 := fun empty => there.1 (List.length_eq_zero_iff.mp empty)
  have left : (f ++ rest).length ≠ 0 := by
    rw [List.length_append]
    omega
  have behind : Ref.bytes (front ++ e ++ (f ++ rest))
    (some (front.length + e.length, (f ++ rest).length)) =
      f ++ rest := by
    rw [Ref.bytes, ← List.length_append, List.drop_left, List.take_length]
  have size := there.sizeAsEncoded_append f rest
  simp only [next, if_pos left, Ref.behind, behind, size, Option.map_some, Ref.cropped]
  simp [Ref.size]

theorem collect_eq (front e : Bytes) (rest : List Bytes) (here : Item e) (whole : Items rest)
    (fuel : Nat) (enough : rest.length + 2 ≤ fuel) :
    collect (front ++ e ++ rest.flatten) fuel ⟨rest.flatten.length, some (front.length, e.length)⟩ =
      some (e :: rest) := by
  obtain ⟨fuel, rfl⟩ : ∃ k, fuel = k + 1 := ⟨fuel - 1, by omega⟩
  rw [collect_item front e rest.flatten here]
  induction rest generalizing front e fuel with
  | nil =>
      obtain ⟨fuel, rfl⟩ : ∃ k, fuel = k + 1 := ⟨fuel - 1, by simp at enough; omega⟩
      rw [List.flatten_nil, List.append_nil, List.length_nil, next_last, Option.bind_some]
      simp [collect]
  | cons f more ih =>
      obtain ⟨fuel, rfl⟩ : ∃ k, fuel = k + 1 := ⟨fuel - 1, by simp at enough; omega⟩
      have there : Item f := whole f List.mem_cons_self
      have others : Items more := fun x member => whole x (List.mem_cons_of_mem _ member)
      have later := ih (front ++ e) f there others fuel (by simp at enough ⊢; omega)
      rw [List.flatten_cons, next_item front e f more.flatten there, Option.bind_some,
        ← List.append_assoc, collect_item (front ++ e) f more.flatten there, later]
      rfl

end Iterator

theorem Item.payloadRef (whole : Item d) (p : Bytes) (read : payload d = some p) :
    ∃ front, d = front ++ p ∧ Rlp.payloadRef d = some (some (front.length, p.length)) := by
  obtain ⟨o, size, total, reads⟩ := whole.read
  have here := reads []
  rw [List.append_nil] at here
  have tail := payload_of_item d whole
  rw [read, here.2.1, Option.some.injEq] at tail
  have short : ¬ d.length < size := by omega
  refine ⟨d.take o, by rw [tail, List.take_append_drop], ?_⟩
  have left : (d.take o).length = o := by
    rw [List.length_take]
    omega
  have right : p.length = size := by
    rw [tail, List.length_drop]
    omega
  have inside : o + size ≤ d.length := by omega
  simp only [Rlp.payloadRef, here.1, here.2.1, Option.bind_some, if_neg short, Ref.cropped,
    if_pos inside, left, right, Nat.zero_add]

theorem iterate_appendList (whole : Items l) (bound : l.flatten.length < maxLength) :
    iterate (appendList l.flatten) = some l := by
  obtain ⟨complete, list⟩ := item_appendList _ bound
  have read := payload_appendList _ bound
  obtain ⟨front, shape, place⟩ := complete.payloadRef _ read
  have count := Items.length_le l whole
  have fuel : l.flatten.length ≤ (appendList l.flatten).length := length_le_appendList _
  have bytes : Ref.bytes (appendList l.flatten) (some (front.length, l.flatten.length)) =
      l.flatten := by
    rw [shape, Ref.bytes, List.drop_left, List.take_length]
  obtain ⟨size, -⟩ := next_item whole 0
  rw [List.drop_zero] at size
  rw [iterate, Iterator.first, if_pos list, place, Option.bind_some, bytes, size, Option.map_some,
    Option.bind_some]
  cases l with
  | nil =>
      rw [shape]
      simp [Ref.cropped, Iterator.collect]
  | cons e rest =>
      have here : Item e := whole e List.mem_cons_self
      have others : Items rest := fun x member => whole x (List.mem_cons_of_mem _ member)
      have met :=
        Iterator.collect_eq front e rest here others ((appendList (e :: rest).flatten).length + 1)
        (by rw [List.length_cons] at count; omega)
      rw [List.append_assoc, ← List.flatten_cons, ← shape] at met
      simpa [Ref.cropped, Ref.size] using met

theorem itemCount_appendList (whole : Items l) (bound : l.flatten.length < maxLength) :
    itemCount (appendList l.flatten) = some l.length := by
  rw [itemCount, if_pos (item_appendList _ bound).2, payload_appendList _ bound, Option.bind_some,
    countFrom_eq, itemsOf_flatten l whole _ le_rfl]
  rfl

end Sequence

/-! The round trip -/

namespace Tree

mutual

theorem reads_encoded (t : Tree) (fits : t.Fits (2 ^ 32)) : Item t.encoded ∧ t.Reads t.encoded := by
  have room : (2 : Nat) ^ 63 < maxLength := by decide
  cases t with
  | data b =>
      have bound : b.length < 2 ^ 63 := fits
      obtain ⟨whole, data⟩ := item_appendBytes b (by omega)
      exact ⟨whole, isList_eq_false _ data, toBytes_appendBytes b (by omega)⟩
  | int n =>
      have bound : (toCompactBigEndian n).length < 2 ^ 32 := fits
      obtain ⟨whole, data⟩ := item_appendBytes (toCompactBigEndian n) (by omega)
      rw [← appendInt_eq] at whole data
      exact ⟨whole, isList_eq_false _ data, toInt_appendInt_of_length (2 ^ 32 - 1) n (by omega)
        (by decide)⟩
  | list items =>
      obtain ⟨bound, all⟩ := fits
      obtain ⟨whole, reads⟩ := readsAll_encoded items all
      have small : (encodedAll items).flatten.length < maxLength := by omega
      obtain ⟨complete, list⟩ := item_appendList _ small
      have count := itemCount_appendList whole small
      rw [encodedAll_length] at count
      have few := Items.length_le _ whole
      refine ⟨complete, list, count, encodedAll items, iterate_appendList whole small,
        fun is index => ?_, reads⟩
      exact ListCache.subscripts_eq whole (payload_appendList _ small) (by omega)
        (.inl rfl) is index

theorem readsAll_encoded (items : List Tree) (fits : FitsAll (2 ^ 32) items) :
    Items (encodedAll items) ∧ ReadsAll items (encodedAll items) := by
  cases items with
  | nil => exact ⟨by nofun, trivial⟩
  | cons t rest =>
      obtain ⟨first, others⟩ := fits
      obtain ⟨whole, reads⟩ := reads_encoded t first
      obtain ⟨wholes, readsRest⟩ := readsAll_encoded rest others
      exact ⟨List.forall_mem_cons.mpr ⟨whole, wholes⟩, reads, readsRest⟩

end

/-- What an empty stream gives out after a tree was appended is accepted by the strict constructor,
and reads as the tree. -/
theorem rlp_round_trip (t : Tree) (fits : t.Fits (2 ^ 32)) :
    ∃ d, (t.write {}).bind RLPStream.out = some d ∧ construct d = some d ∧ t.Reads d := by
  obtain ⟨whole, reads⟩ := reads_encoded t fits
  refine ⟨t.encoded, ?_, whole.construct, reads⟩
  rw [write_eq t fits.writable, RLPStream.noteAppended_nil, Option.bind_some, List.nil_append]
  rfl

def nestedTree : Tree :=
  .list [.data [0x01], .list [], .int 300, .list [.list [.int 0], .data []],
    .data (List.replicate 60 0xff)]

theorem rlp_round_trip_nested :
    ∃ d, (nestedTree.write {}).bind RLPStream.out = some d ∧ construct d = some d ∧
    nestedTree.Reads d := by
  apply rlp_round_trip
  simp only [nestedTree, Fits, FitsAll]
  decide +kernel

theorem compact_pow_length (k : Nat) : (toCompactBigEndian (256 ^ k)).length = k + 1 := by
  rw [toCompactBigEndian, List.length_map, List.length_reverse,
    Nat.length_digits 256 _ (by decide) (by positivity), Nat.log_pow (by decide)]

theorem unwritten_power (k : Nat) (wraps : (k + 1) % 2 ^ 32 = 1) (large : 1 < k)
    (bound : k + 1 < 2 ^ 63) :
    (Tree.int (256 ^ k)).Fits (2 ^ 63) ∧ (Tree.int (256 ^ k)).write {} = none := by
  have least : 256 ^ 1 ≤ 256 ^ k := Nat.pow_le_pow_right (by decide) (by omega)
  have required : bytesRequired (256 ^ k) = 1 := by rw [bytesRequired, compact_pow_length, wraps]
  have single : ¬ 256 ^ k < 0x80 := by omega
  have short : ¬ k + 1 ≤ 2 := by omega
  refine ⟨?_, ?_⟩
  · rw [Fits, compact_pow_length]
    exact bound
  · simp [write, RLPStream.appendInt, single, required, pushInt, compact_pow_length, short]

theorem oversized_integer_unwritten :
    (Tree.int (256 ^ 2 ^ 32)).Fits (2 ^ 63) ∧ (Tree.int (256 ^ 2 ^ 32)).write {} = none :=
  unwritten_power (2 ^ 32) (by decide) (by decide) (by decide)

end Tree

end UtispaceChain.Rlp
