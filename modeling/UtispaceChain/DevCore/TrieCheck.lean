import UtispaceChain.DevCore.TrieRuns

/-! `GenericTrieDB::check`: the scan of a trie, and the nodes that are counted beside it. -/

namespace UtispaceChain

namespace Trie

open Lib OverlayDB

section Definitions

variable (sha3 : Bytes → H256) (node : H256 → Bytes) (root : H256)

/-- `descendKey`, with what is to be called for the node: the keys that it takes out of the mask. -/
def descendKey (descendList : Bytes → Bool → Option (List H256)) (k : H256) (wasExt : Bool) :
    Option (List H256) :=
  if k = root ∧ k = sha3 rlpNull then some [k]
  else (Rlp.construct (node k)).bind fun r => (descendList r wasExt).map (k :: ·)

/-- `descendEntry`; `InvalidTrie` is `none`. -/
def descendEntry (descendList : Bytes → Bool → Option (List H256)) (r : Bytes) (wasExt : Bool) :
    Option (List H256) :=
  if Rlp.isData r then
    (Rlp.length r).bind fun size =>
      if size = 32 then (Rlp.toHashStrict 32 r).bind fun k =>
        descendKey sha3 node root descendList k wasExt
      else none
  else if Rlp.isList r then descendList r wasExt
  else none

def descendBranch (descendList : Bytes → Bool → Option (List H256)) (r : Bytes) :
    List Nat → Option (List H256)
  | [] => some []
  | i :: rest =>
      (Rlp.item r i).bind fun e =>
        (if Rlp.isEmpty e then some [] else descendEntry sha3 node root descendList e false).bind
          fun front =>
          (descendBranch descendList r rest).map (front ++ ·)

/-- `descendList`, a number of levels at most. -/
def descendList : Nat → Bytes → Bool → Option (List H256)
  | 0, _, _ => none
  | fuel + 1, r, wasExt =>
      (Rlp.items r).bind fun items =>
        if Rlp.isList r ∧ items.length = 2 ∧ ¬wasExt then
          (isLeaf r).bind fun leaf =>
            if leaf then some []
            else (Rlp.item r 1).bind fun e => descendEntry sha3 node root (descendList fuel) e true
        else if Rlp.isList r ∧ items.length = 17 then
          descendBranch sha3 node root (descendList fuel) r (List.range 16)
        else none

def scanned (fuel : Nat) : Option (List H256) :=
  descendKey sha3 node root (descendList sha3 node root fuel) root false

end Definitions

def leftOvers (sha3 : Bytes → H256) (db : OverlayDB) (root : H256) (fuel : Nat) :
    Option (List H256) :=
  (scanned sha3 db.lookup root fuel).map fun visited => db.keys.filter (· ∉ visited)

def check (sha3 : Bytes → H256) (db : OverlayDB) (root : H256) (fuel : Nat)
    (requireNoLeftOvers : Bool) : Bool :=
  ((leftOvers sha3 db root fuel).map fun left => left.isEmpty || !requireNoLeftOvers).getD false

section Scan

variable {sha3 : Bytes → H256} {node : H256 → Bytes} {root : H256} {t : Patricia 16 Bytes}

def Scans (sha3 : Bytes → H256) (node : H256 → Bytes) (root : H256) (fuel : Nat) (wasExt : Bool)
    (t : Patricia 16 Bytes) : Prop :=
  ∃ visited, descendList sha3 node root fuel (text sha3 t) wasExt = some visited ∧
  ∀ h, h ∈ visited ↔ h ∈ below sha3 t

theorem reference_size {b : Bytes} (long : 32 ≤ b.length) :
    Rlp.length (reference sha3 b) = some 32 := by
  rw [reference_form long]
  rfl

theorem Scans.entry (bounded : ∀ b, sha3 b < 2 ^ 256) (sized : Sized t) (full : t.isEmpty = false)
    {fuel : Nat} {wasExt : Bool} (distinct : 32 ≤ (text sha3 t).length →
      sha3 (text sha3 t) ≠ sha3 rlpNull) (found : 32 ≤ (text sha3 t).length →
        node (sha3 (text sha3 t)) = text sha3 t)
    (scans : Scans sha3 node root fuel wasExt t) :
    ∃ visited, descendEntry sha3 node root (descendList sha3 node root fuel)
      (reference sha3 (text sha3 t)) wasExt =
        some visited ∧ ∀ h, h ∈ visited ↔ h ∈ refs sha3 t := by
  rcases scans with ⟨visited, scanned, members⟩
  by_cases short : (text sha3 t).length < 32
  · have list := (text_shape sha3 sized).2
    rw [full, Bool.not_false] at list
    rw [reference_short short, descendEntry, isData_of_isList list, if_neg Bool.false_ne_true,
      if_pos list, refs, own_short short, zero_add]
    exact ⟨visited, scanned, members⟩
  · have long := not_lt.mp short
    rcases reference_hash bounded long with ⟨data, -, -, read⟩
    rw [descendEntry, if_pos data, reference_size long, Option.bind_some, if_pos rfl, read,
      Option.bind_some, descendKey, if_neg fun both => distinct long both.2, found long,
      (text_item sha3 sized).construct, Option.bind_some, scanned]
    refine ⟨_, rfl, fun h => ?_⟩
    rw [List.mem_cons, members, refs, own_long long, Multiset.mem_add, Multiset.mem_singleton]

theorem descendBranch_eq (bounded : ∀ b, sha3 b < 2 ^ 256) {cs : Fin 16 → Patricia 16 Bytes}
    (sized : Sized (.branch cs)) {fuel : Nat} (each : ∀ d, (cs d).isEmpty = false → ∃ visited,
      descendEntry sha3 node root (descendList sha3 node root fuel)
        (reference sha3 (text sha3 (cs d))) false =
        some visited ∧ ∀ h, h ∈ visited ↔ h ∈ refs sha3 (cs d)) (ways : List (Fin 16)) :
    ∃ visited, descendBranch sha3 node root (descendList sha3 node root fuel)
      (text sha3 (.branch cs))
        (ways.map Fin.val) = some visited ∧ ∀ h, h ∈ visited ↔
        ∃ d ∈ ways, h ∈ refs sha3 (cs d) := by
  induction ways with
  | nil => exact ⟨[], rfl, fun h => by simp⟩
  | cons d ways ih =>
      rcases ih with ⟨rest, descended, members⟩
      rw [List.map_cons, descendBranch, (text_branch sha3 sized).item, entriesOf_get,
        Option.bind_some, reference_isEmpty bounded (sized d), descended]
      cases full : (cs d).isEmpty with
      | true =>
          refine ⟨rest, rfl, fun h => ?_⟩
          rw [members, List.exists_mem_cons_iff, Patricia.eq_empty full, refs_empty]
          simp
      | false =>
          rcases each d full with ⟨front, entered, inside⟩
          rw [if_neg Bool.false_ne_true, entered]
          refine ⟨front ++ rest, rfl, fun h => ?_⟩
          rw [List.mem_append, inside, members, List.exists_mem_cons_iff]

theorem below_mem (cs : Fin 16 → Patricia 16 Bytes) (h : H256) :
    h ∈ below sha3 (.branch cs) ↔ ∃ d, h ∈ refs sha3 (cs d) := by
  change h ∈ ∑ d, refs sha3 (cs d) ↔ _
  rw [Multiset.mem_sum]
  simp

theorem scans_canonical (bounded : ∀ b, sha3 b < 2 ^ 256) (sized : Sized t)
    (canonical : t.Canonical) (full : t.isEmpty = false) (held : Held sha3 node t)
    (distinct : ∀ x ∈ texts sha3 t, 32 ≤ x.length → sha3 x ≠ sha3 rlpNull) {fuel : Nat}
    (enough : ∀ s w, t.find s = some w → s.length < fuel) {wasExt : Bool}
    (shape : wasExt = true → t.isBranch = true) :
    Scans sha3 node root fuel wasExt t := by
  induction t generalizing fuel wasExt with
  | empty => cases full
  | leaf k v =>
      rcases Nat.exists_eq_add_of_le'
        (Nat.one_le_of_lt (enough k v (Patricia.find_leaf.mpr ⟨rfl, rfl⟩))) with ⟨fuel, rfl⟩
      rcases text_leaf sha3 sized with ⟨part, reads⟩
      rcases reads.nodeItems with ⟨items, read, two⟩
      rcases nodeItems_full read with ⟨read, list, -⟩
      have plain : ¬wasExt = true := fun ext => Bool.false_ne_true (shape ext)
      refine ⟨[], ?_, fun h => by simp [below]⟩
      rw [descendList, read, Option.bind_some, if_pos ⟨list, two, plain⟩, reads.isLeaf]
      rfl
  | ext k c ih =>
      have filled := Patricia.isBranch_full canonical.2.1
      rcases canonical.2.2.inhabited filled with ⟨s, w, inside⟩
      rcases Nat.exists_eq_add_of_le'
        (Nat.one_le_of_lt (enough (k ++ s) w (by rw [Patricia.find_ext_append, inside]))) with
        ⟨fuel, rfl⟩
      rcases text_ext sha3 sized with ⟨part, reads⟩
      rcases reads.nodeItems with ⟨items, read, two⟩
      rcases nodeItems_full read with ⟨read, list, -⟩
      rcases held.ext with ⟨below, found⟩
      have plain : ¬wasExt = true := fun ext => Bool.false_ne_true (shape ext)
      have positive := List.length_pos_of_ne_nil canonical.1
      have inner : Scans sha3 node root fuel true c := by
        refine ih sized.2 canonical.2.2 filled below
          (fun x member => distinct x (texts_ext k c member)) (fun s w found => ?_)
          fun _ => canonical.2.1
        have few := enough (k ++ s) w (by rw [Patricia.find_ext_append, found])
        rw [List.length_append] at few
        omega
      rcases inner.entry bounded sized.2 filled (distinct _ (texts_ext k c (mem_texts c))) found
        with
        ⟨visited, entered, members⟩
      refine ⟨visited, ?_, members⟩
      rw [descendList, read, Option.bind_some, if_pos ⟨list, two, plain⟩, reads.isLeaf,
        Option.bind_some, if_neg Bool.false_ne_true, reads.item, Option.bind_some, entered]
  | branch cs ih =>
      rcases canonical with ⟨⟨a, -, -, filled, -⟩, canonical⟩
      rcases (canonical a).inhabited filled with ⟨s, w, inside⟩
      rcases Nat.exists_eq_add_of_le' (Nat.one_le_of_lt (enough (a :: s) w inside)) with ⟨fuel, rfl⟩
      have reads := text_branch sha3 sized
      have count := entriesOf_length sha3 cs
      have many : ¬(Rlp.isList (text sha3 (.branch cs)) = true ∧ (entriesOf sha3 cs).length = 2 ∧
          ¬wasExt = true) := by
        rw [count]
        exact fun all => absurd all.2.1 (by decide)
      have each : ∀ d, (cs d).isEmpty = false → ∃ visited,
          descendEntry sha3 node root (descendList sha3 node root fuel)
            (reference sha3 (text sha3 (cs d))) false =
            some visited ∧ ∀ h, h ∈ visited ↔ h ∈ refs sha3 (cs d) := by
        intro d full
        rcases held.branch d with ⟨below, found⟩
        have inner : Scans sha3 node root fuel false (cs d) := by
          refine ih d (sized d) (canonical d) full below
            (fun x member => distinct x (texts_child cs d member))
            (fun s w found => ?_) fun ext => absurd ext Bool.false_ne_true
          have few := enough (d :: s) w found
          rw [List.length_cons] at few
          omega
        exact inner.entry bounded (sized d) full (distinct _ (texts_child cs d (mem_texts _))) found
      rcases descendBranch_eq bounded sized each (List.finRange 16) with
        ⟨visited, descended, members⟩
      have range : List.range 16 = (List.finRange 16).map Fin.val := by decide
      refine ⟨visited, ?_, fun h => ?_⟩
      · rw [descendList, reads.items, Option.bind_some, if_neg many, if_pos ⟨reads.list, count⟩,
          range, descended]
      · rw [members, below_mem]
        simp

theorem scanned_canonical (bounded : ∀ b, sha3 b < 2 ^ 256) (sized : Sized t)
    (canonical : t.Canonical) (held : Held sha3 node t)
    (found : node (sha3 (text sha3 t)) = text sha3 t)
    (distinct : ∀ x ∈ texts sha3 t, sha3 x = sha3 rlpNull → x = rlpNull) {fuel : Nat}
    (enough : ∀ s w, t.find s = some w → s.length < fuel) :
    ∃ visited, scanned sha3 node (sha3 (text sha3 t)) fuel = some visited ∧ ∀ h, h ∈ visited ↔
    h ∈ rootRefs sha3 t := by
  unfold scanned descendKey
  cases full : t.isEmpty with
  | true =>
      rcases Patricia.eq_empty full
      refine ⟨[sha3 rlpNull], if_pos ⟨rfl, rfl⟩, fun h => ?_⟩
      rw [List.mem_singleton, rootRefs, below, add_zero, Multiset.mem_singleton]
      rfl
  | false =>
      have filled : text sha3 t ≠ rlpNull := by
        intro same
        have empty := (text_shape sha3 sized).1
        rw [same, full] at empty
        cases empty
      have far : ∀ x ∈ texts sha3 t, 32 ≤ x.length → sha3 x ≠ sha3 rlpNull := by
        intro x member long same
        rw [distinct x member same] at long
        exact absurd long (by decide)
      have scans : Scans sha3 node (sha3 (text sha3 t)) fuel false t :=
        scans_canonical bounded sized canonical full held far enough fun ext =>
          absurd ext Bool.false_ne_true
      rcases scans with ⟨visited, scanned, members⟩
      rw [if_neg fun both => filled (distinct _ (mem_texts t) both.2), found,
        (text_item sha3 sized).construct, Option.bind_some, scanned]
      refine ⟨_, rfl, fun h => ?_⟩
      rw [List.mem_cons, members, rootRefs, Multiset.mem_add, Multiset.mem_singleton]

end Scan

section Results

variable {n len : Nat} {K : Set Bytes} {sha3 : Bytes → H256} {disk : Bool} {ops : List (Op n)}

theorem mem_keys {db : OverlayDB} {h : H256} : h ∈ db.keys ↔ 0 < db.count h := by
  rw [keys, List.mem_filter, decide_eq_true_iff]
  refine ⟨And.right, fun counted => ⟨?_, counted⟩⟩
  cases stands : db.main.lookup h with
  | none =>
      rw [count, stands] at counted
      cases counted
  | some e => exact AList.mem_keys.mp (AList.lookup_isSome.mp (by rw [stands]; rfl))

/-- After any run every trie can be scanned, what is counted is in use, and what is in use is
counted or on disk. -/
theorem nothing_left_over (bounded : ∀ b, sha3 b < 2 ^ 256) (within : Within len K ops)
    (free : Set.InjOn sha3 (met sha3 disk ops)) :
    ∃ store, (Store.start sha3 n disk).run sha3 ops = some store ∧
      (∀ i, check sha3 store.db (store.roots i) (2 * len + 1) false = true) ∧
      (∀ h ∈ store.db.keys, ∃ i visited,
        scanned sha3 store.db.lookup (store.roots i) (2 * len + 1) = some visited ∧ h ∈ visited) ∧
      (∀ i visited, scanned sha3 store.db.lookup (store.roots i) (2 * len + 1) = some visited →
        ∀ h ∈ visited, h ∈ store.db.keys ∨ store.db.onDisk h ≠ []) ∧
      ∀ i, (∀ j, j = i) → check sha3 store.db (store.roots i) (2 * len + 1) true = true := by
  rcases run_holds bounded within free with ⟨store, ran, holds, -, tracks, here⟩
  have scans : ∀ i, ∃ visited, scanned sha3 store.db.lookup (store.roots i) (2 * len + 1) =
    some visited ∧
      ∀ h, h ∈ visited ↔
      h ∈ rootRefs sha3 ((ops.foldl (Trees.step disk) (Trees.start n)).now i) := by
    intro i
    rcases holds.held free here i with ⟨held, found⟩
    have tree := (tracks.now i).1
    rw [holds.roots]
    refine scanned_canonical bounded
      (canonical_sized tree.canonical (tree.bound within.keys within.short))
      tree.canonical held found
      (fun x member same => free (here i x member) List.mem_cons_self same) fun s w inside => ?_
    have length := tree.length within.keys inside
    omega
  have used : ∀ h ∈ store.db.keys, ∃ i visited,
      scanned sha3 store.db.lookup (store.roots i) (2 * len + 1) = some visited ∧ h ∈ visited := by
    intro h counted
    have most := holds.accounts.most h
    have positive := mem_keys.mp counted
    rcases Multiset.mem_sum.mp (Multiset.count_pos.mp (positive.trans_le most)) with ⟨i, -, member⟩
    rcases scans i with ⟨visited, scan, members⟩
    exact ⟨i, visited, scan, (members h).mpr member⟩
  refine ⟨store, ran, fun i => ?_, used, fun i visited scan h member => ?_, fun i only => ?_⟩
  · rcases scans i with ⟨visited, scan, -⟩
    rw [check, leftOvers, scan]
    exact Bool.or_true _
  · rcases scans i with ⟨visited', scan', members⟩
    rw [scan] at scan'
    cases scan'
    have positive := Multiset.count_pos.mpr (rootRefs_le _ i ((members h).mp member))
    rcases holds.accounts.least h with there | least
    · exact .inr there
    · exact .inl (mem_keys.mpr (positive.trans_le least))
  · rcases scans i with ⟨visited, scan, -⟩
    have none : store.db.keys.filter (· ∉ visited) = [] := by
      refine List.filter_eq_nil_iff.mpr fun h counted => ?_
      rcases used h counted with ⟨j, visited', scan', member⟩
      rw [only j, scan] at scan'
      cases scan'
      rw [decide_eq_true_iff, not_not]
      exact member
    rw [check, leftOvers, scan, Option.map_some, none]
    rfl

/-! One trie in the memory -/

def oneTrie : List (Op 1) :=
  [.insert 0 [0x12] (List.replicate 32 1), .insert 0 [0x13] (List.replicate 32 2),
    .insert 0 [0x47] [3], .remove 0 [0x12]]

theorem nothing_left_over_one :
    ∃ store, (Store.start mixed 1 false).run mixed oneTrie = some store ∧
      (∀ i, check mixed store.db (store.roots i) (2 * 1 + 1) false = true) ∧
      (∀ h ∈ store.db.keys, ∃ i visited,
        scanned mixed store.db.lookup (store.roots i) (2 * 1 + 1) = some visited ∧ h ∈ visited) ∧
      (∀ i visited, scanned mixed store.db.lookup (store.roots i) (2 * 1 + 1) = some visited →
        ∀ h ∈ visited, h ∈ store.db.keys ∨ store.db.onDisk h ≠ []) ∧
      ∀ i, (∀ j, j = i) → check mixed store.db (store.roots i) (2 * 1 + 1) true = true :=
  nothing_left_over mixed_bounded ⟨Keys.ofLength 1, by decide, by decide,
    by simp [oneTrie, Op.Fits]⟩
    (mixed_free (by decide +kernel))

end Results

end Trie

end UtispaceChain
