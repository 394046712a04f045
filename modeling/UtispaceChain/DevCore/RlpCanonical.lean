import UtispaceChain.DevCore.RlpStream

/-! Reading a whole tree out of an `RLP`: only canonical encodings can be read. -/

namespace UtispaceChain.Rlp

open Lib

/-- A string by `toBytes`; a list by its `itemCount` and the subscripts below it, one after
another. -/
def readTree : Nat → Bytes → Option Tree
  | 0, _ => none
  | fuel + 1, d =>
      if isList d then
        (itemCount d).bind fun count => (ListCache.subscripts d (List.range count) {}).bind
          fun parts =>
          (parts.mapM (readTree fuel)).map .list
      else (toBytes d).map .data

/-- The data is taken as one `RLP` and read to the bottom. A null `RLP` holds no tree. -/
def readRlp (fuel : Nat) (b : Bytes) : Option (Option Tree) :=
  (construct b).bind fun d => if d = [] then some none else (readTree fuel d).map some

/-- A new stream, to which the tree is appended, if there is one. -/
def rewrite : Option Tree → Option Bytes
  | none => RLPStream.out {}
  | some t => (t.write {}).bind RLPStream.out

theorem Item.payload_lt (d p : Bytes) (whole : Item d) (read : payload d = some p) :
    p.length < maxLength := by
  have tail := payload_of_item d whole
  rw [read, Option.some.injEq] at tail
  have room : 56 < maxLength := by decide
  cases d with
  | nil => exact absurd rfl whole.1
  | cons n rest =>
      rcases Item.forms n rest whole with ⟨single, empty⟩ | ⟨low, high, -, size⟩
        | ⟨low, high, l, found, size⟩ |
        ⟨low, high, size⟩ | ⟨low, l, found, size⟩
      · subst empty
        have one : p = [n] := by simpa [payloadOffset, single] using tail
        rw [one, List.length_singleton]
        omega
      · have above : ¬ n.toNat < 0x80 := by omega
        have shape : p = rest := by simpa [payloadOffset, above, high] using tail
        rw [shape]
        omega
      · have above : ¬ n.toNat < 0x80 := by omega
        have long : ¬ n.toNat ≤ 0xb7 := by omega
        have data : n.toNat < 0xc0 := by omega
        have shape : p = rest.drop (n.toNat - 0xb7) := by
          simpa [payloadOffset, above, long, data, Nat.add_comm 1] using tail
        have bound := (longLength_some _ _ _ found).2.2.2.2.2
        rw [shape, List.length_drop, size, Nat.add_sub_cancel_left]
        exact bound
      · have above : ¬ n.toNat < 0x80 := by omega
        have long : ¬ n.toNat ≤ 0xb7 := by omega
        have list : ¬ n.toNat < 0xc0 := by omega
        have shape : p = rest := by simpa [payloadOffset, above, long, list, high] using tail
        rw [shape]
        omega
      · have above : ¬ n.toNat < 0x80 := by omega
        have long : ¬ n.toNat ≤ 0xb7 := by omega
        have list : ¬ n.toNat < 0xc0 := by omega
        have large : ¬ n.toNat ≤ 0xf7 := by omega
        have shape : p = rest.drop (n.toNat - 0xf7) := by
          simpa [payloadOffset, above, long, list, large, Nat.add_comm 1] using tail
        have bound := (longLength_some _ _ _ found).2.2.2.2.2
        rw [shape, List.length_drop, size, Nat.add_sub_cancel_left]
        exact bound

theorem isData_of_not_list (d : Bytes) (full : d ≠ []) (string : isList d = false) :
    isData d = true := by
  cases d with
  | nil => exact absurd rfl full
  | cons n rest =>
      have below : ¬ 0xc0 ≤ n.toNat := by simpa [isList] using string
      simpa [isData] using below

theorem map_range_getD (l : List Bytes) :
    (List.range l.length).map (fun i => (l[i]?).getD []) = l := by
  apply List.ext_getElem?
  intro i
  by_cases inside : i < l.length
  · simp [inside]
  · rw [List.getElem?_eq_none (by simpa using inside),
      List.getElem?_eq_none (by simpa using inside)]

theorem Item.subscripts (d : Bytes) (whole : Item d) (list : isList d = true) (count : Nat)
    (parts : List Bytes) (counted : itemCount d = some count)
    (read : ListCache.subscripts d (List.range count) {} = some parts) :
    d = Rlp.appendList parts.flatten ∧ Items parts ∧ parts.flatten.length < maxLength := by
  rcases whole.eq_appendList d list with ⟨p, found, shape⟩
  have bound := whole.payload_lt d p found
  rw [itemCount, if_pos list, found, Option.bind_some, countFrom_eq] at counted
  rcases Option.map_eq_some_iff.mp counted with ⟨l, split, length⟩
  rcases itemsOf_spec _ p l split with ⟨joined, items⟩
  rw [joined] at found shape bound
  have few := Items.length_le l items
  have room : maxLength < 2 ^ 64 := by decide
  have all := ListCache.subscripts_eq items found (by omega) (.inl rfl) (List.range count) (by
    intro i member
    have below := List.mem_range.mp member
    omega)
  rw [all, ← length, map_range_getD] at read
  cases read
  exact ⟨shape, items, bound⟩

theorem mapM_spec (read : Bytes → Option Tree)
    (spec : ∀ part t, Item part → read part = some t → t.encoded = part ∧ t.Writable)
    (parts : List Bytes) (items : List Tree) (complete : Items parts)
    (below : parts.mapM read = some items) :
    Tree.encodedAll items = parts ∧ Tree.WritableAll items := by
  induction parts generalizing items with
  | nil =>
      cases below
      exact ⟨rfl, trivial⟩
  | cons part parts ih =>
      rw [List.mapM_cons] at below
      rcases Option.bind_eq_some_iff.mp below with ⟨first, readFirst, later⟩
      rcases Option.bind_eq_some_iff.mp later with ⟨others, readOthers, same⟩
      cases same
      rcases spec part first (complete part List.mem_cons_self) readFirst with ⟨encoded, writable⟩
      rcases ih others (fun e member => complete e (List.mem_cons_of_mem _ member)) readOthers with
        ⟨encodedAll, writableAll⟩
      exact ⟨by rw [Tree.encodedAll, encoded, encodedAll], writable, writableAll⟩

theorem readTree_spec (fuel : Nat) (d : Bytes) (whole : Item d) (t : Tree)
    (read : readTree fuel d = some t) :
    t.encoded = d ∧ t.Writable := by
  have room : maxLength < 2 ^ 64 := by decide
  induction fuel generalizing d t with
  | zero => cases read
  | succ fuel ih =>
      rw [readTree] at read
      cases list : isList d with
      | false =>
          rw [list, if_neg Bool.false_ne_true] at read
          rcases Option.map_eq_some_iff.mp read with ⟨bytes, string, rfl⟩
          have data := isData_of_not_list d whole.1 list
          rw [toBytes, if_pos data] at string
          rcases whole.eq_appendBytes d data with ⟨p, found, shape⟩
          obtain rfl : p = bytes := Option.some.inj (found.symm.trans string)
          have bound := whole.payload_lt d p found
          exact ⟨shape.symm, Nat.lt_trans bound room⟩
      | true =>
          rw [list, if_pos rfl] at read
          rcases Option.bind_eq_some_iff.mp read with ⟨count, counted, rest⟩
          rcases Option.bind_eq_some_iff.mp rest with ⟨parts, subscripts, trees⟩
          rcases Option.map_eq_some_iff.mp trees with ⟨items, below, rfl⟩
          rcases whole.subscripts d list count parts counted subscripts with
            ⟨shape, complete, bound⟩
          rcases mapM_spec (readTree fuel) (fun part inner here => ih part here inner) parts items
            complete below with
            ⟨encodedAll, writableAll⟩
          refine ⟨?_, ?_, writableAll⟩
          · rw [Tree.encoded, encodedAll]
            exact shape.symm
          · rw [encodedAll]
            exact Nat.lt_trans bound room

theorem construct_some (b d : Bytes) (read : construct b = some d) : d = b ∧ (b ≠ [] → Item b) := by
  rcases Option.bind_eq_some_iff.mp read with ⟨size, found, whole⟩
  by_cases exactly : size = b.length
  · rw [if_pos exactly] at whole
    rw [exactly] at found
    exact ⟨(Option.some.inj whole).symm, fun full => ⟨full, found⟩⟩
  · rw [if_neg exactly] at whole
    cases whole

/-- Whatever can be read to the bottom is what a stream writes for the tree. -/
theorem rlp_canonical (fuel : Nat) (b : Bytes) (tree : Option Tree)
    (read : readRlp fuel b = some tree) :
    rewrite tree = some b := by
  rcases Option.bind_eq_some_iff.mp read with ⟨d, built, rest⟩
  rcases construct_some b d built with ⟨rfl, item⟩
  by_cases null : d = []
  · rw [if_pos null] at rest
    cases rest
    rw [null]
    rfl
  · rw [if_neg null] at rest
    rcases Option.map_eq_some_iff.mp rest with ⟨t, found, rfl⟩
    rcases readTree_spec fuel d (item null) t found with ⟨encoded, writable⟩
    rw [rewrite, Tree.write_eq t writable, RLPStream.noteAppended_nil, Option.bind_some,
      List.nil_append, encoded]
    rfl

/-- A string, an empty list, and a list with a longer string. -/
theorem rlp_canonical_nested :
    let b : Bytes :=
  [0xf8, 0x40, 0x01, 0xc0, 0xf8, 0x3c, 0x80, 0xb8, 0x39] ++ List.replicate 57 0xff
    ∃ tree, readRlp 3 b = some (some tree) ∧ rewrite (some tree) = some b := by
  intro b
  have read : (readRlp 3 b).map Option.isSome = some true := by decide +kernel
  rcases Option.map_eq_some_iff.mp read with ⟨tree, found, some⟩
  rcases Option.isSome_iff_exists.mp some with ⟨inner, rfl⟩
  exact ⟨inner, found, rlp_canonical 3 b _ found⟩

end UtispaceChain.Rlp
