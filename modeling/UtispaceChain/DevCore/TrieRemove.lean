import UtispaceChain.DevCore.TrieInsert

/-! `GenericTrieDB::remove`: the node database after a removal holds the tree without the value. -/

namespace UtispaceChain

namespace Trie

open Lib OverlayDB

/-! What is alone in a branch -/

section Unique

variable {sha3 : Bytes → H256}

/-- What the loop of `uniqueInUse` ends with, by the places that are not empty. -/
def uniqueAmong (used : Nat) : List Nat → Nat
  | [] => used
  | [d] => if used = 255 then d else 255
  | _ => 255

theorem uniqueFrom_eq {orig : Bytes} {omitted : Nat} {full : Nat → Bool} (left i used : Nat)
    (item : ∀ j < i + left, ∃ n, Rlp.item orig j = some n ∧ Rlp.isEmpty n = !full j)
    (below : i + left ≤ 255) (outside : i + left ≤ omitted) :
    uniqueFrom orig omitted left i used =
      some (uniqueAmong used ((List.range' i left).filter full)) := by
  induction left generalizing i used with
  | zero => rfl
  | succ left ih =>
      rcases item i (by omega) with ⟨n, read, empty⟩
      rw [uniqueFrom, if_neg (by omega), read, Option.bind_some, empty, List.range'_succ,
        List.filter_cons]
      have later : ∀ j < i + 1 + left, ∃ n, Rlp.item orig j = some n ∧ Rlp.isEmpty n = !full j :=
        fun j inside =>
        item j (by omega)
      cases full i with
      | false =>
          rw [ih (i + 1) used later (by omega) (by omega)]
          rfl
      | true =>
          by_cases first : used = 255
          · have small : ¬i = 255 := by omega
            simp only [Bool.not_true, Bool.false_eq_true, ↓reduceIte, first]
            rw [ih (i + 1) i later (by omega) (by omega)]
            rcases (List.range' (i + 1) left).filter full with _ | ⟨d, _ | ⟨e, rest⟩⟩
            · rfl
            · exact congrArg some (if_neg small)
            · rfl
          · simp only [Bool.not_true, Bool.false_eq_true, ↓reduceIte, first]
            rcases (List.range' (i + 1) left).filter full with _ | ⟨d, rest⟩
            · exact congrArg some (if_neg first).symm
            · rfl

theorem uniqueInUse_branch (bounded : ∀ b, sha3 b < 2 ^ 256) {cs : Fin 16 → Patricia 16 Bytes}
    (sized : ∀ d, Sized (cs d)) :
    uniqueInUse (text sha3 (.branch cs)) 255 =
      some (((Patricia.sole cs).map Fin.val).getD 255) := by
  have reads := text_branch sha3 sized
  have each : ∀ j < 0 + 17, ∃ n, Rlp.item (text sha3 (.branch cs)) j = some n ∧
      Rlp.isEmpty n = !(if inside : j < 16 then !(cs ⟨j, inside⟩).isEmpty else false) := by
    intro j few
    refine ⟨_, reads.item j, ?_⟩
    by_cases inside : j < 16
    · rw [dif_pos inside, Bool.not_not]
      have here := @entriesOf_get sha3 cs ⟨j, inside⟩
      rw [here, reference_isEmpty bounded (sized _)]
    · have last : j = 16 := by omega
      subst last
      rw [dif_neg inside, entriesOf, List.getElem?_append_right (by simp)]
      simp [rlpNull]
      rfl
  rw [uniqueInUse, uniqueFrom_eq 17 0 255 each (by decide) (by decide)]
  have places : (List.range' 0 17).filter (fun j => if inside : j < 16 then
    !(cs ⟨j, inside⟩).isEmpty else false) =
      ((List.finRange 16).filter fun d => !(cs d).isEmpty).map Fin.val := by
    have ways : List.range' 0 17 = (List.finRange 16).map Fin.val ++ [16] := by decide
    rw [ways, List.filter_append, List.filter_map]
    have last : [16].filter (fun j => if inside : j < 16 then !(cs ⟨j, inside⟩).isEmpty
        else false) = [] := rfl
    rw [last, List.append_nil]
    refine congrArg (List.map Fin.val) (List.filter_congr fun d _ => ?_)
    exact dif_pos d.isLt
  rw [places]
  unfold Patricia.sole
  rcases (List.finRange 16).filter (fun d => !(cs d).isEmpty) with _ | ⟨d, _ | ⟨e, rest⟩⟩
  · rfl
  · rfl
  · rfl

end Unique

/-! Nodes of two items that become one -/

section Grafting

variable {sha3 : Bytes → H256} {known : Set Bytes} {db : OverlayDB} {others : Multiset H256}
    {c : Patricia 16 Bytes}

theorem isData_of_isList {d : Bytes} (list : Rlp.isList d = true) : Rlp.isData d = false := by
  cases data : Rlp.isData d with
  | false => rfl
  | true =>
      rw [Rlp.isList_eq_false d data] at list
      cases list

theorem text_items (sized : Sized c) (full : c.isEmpty = false) :
    ∃ l, Rlp.items (text sha3 c) = some l ∧ decide (l.length = 2) = c.isPair := by
  cases c with
  | empty => cases full
  | leaf k v =>
      rcases text_leaf sha3 sized with ⟨part, reads⟩
      rcases Option.map_eq_some_iff.mp reads.items with ⟨l, items, two⟩
      exact ⟨l, items, decide_eq_true two⟩
  | ext k c =>
      rcases text_ext sha3 sized with ⟨part, reads⟩
      rcases Option.map_eq_some_iff.mp reads.items with ⟨l, items, two⟩
      exact ⟨l, items, decide_eq_true two⟩
  | branch cs =>
      refine ⟨_, (text_branch sha3 sized).items, decide_eq_false ?_⟩
      rw [entriesOf_length]
      decide

theorem text_graft {l : List Nibble} {leaf : Bool} {entry : Bytes} (pair : c.isPair = true)
    (sized : Sized c) {part : NibbleSlice} (reads : ReadsPair (text sha3 c) c.key leaf entry part) :
    text sha3 (Patricia.graft l c) =
      rlpList [Rlp.appendBytes (hexPrefix leaf (l ++ c.key)), entry] ∧
      below sha3 (Patricia.graft l c) = below sha3 c := by
  cases c with
  | empty => cases pair
  | branch cs => cases pair
  | leaf k v =>
      rcases text_leaf sha3 sized with ⟨part', reads'⟩
      have flag : leaf = true := Option.some.inj (reads.isLeaf.symm.trans reads'.isLeaf)
      have same : entry = Rlp.appendBytes v := Option.some.inj (reads.item.symm.trans reads'.item)
      rw [flag, same]
      exact ⟨rfl, rfl⟩
  | ext k c =>
      rcases text_ext sha3 sized with ⟨part', reads'⟩
      have flag : leaf = false := Option.some.inj (reads.isLeaf.symm.trans reads'.isLeaf)
      have same : entry = reference sha3 (text sha3 c) :=
        Option.some.inj (reads.item.symm.trans reads'.item)
      rw [flag, same]
      exact ⟨rfl, rfl⟩

theorem graft_unless_pair {l : List Nibble} (pair : c.isPair = false) :
    Patricia.graft l c = .ext l c := by
  cases c with
  | leaf k v => cases pair
  | ext k c => cases pair
  | empty => rfl
  | branch cs => rfl

theorem hexPrefix_digit : ∀ d : Nibble, hexPrefixEncode [UInt8.ofNat d] false 1 2 0 =
    some (hexPrefix false [d]) := by
  decide

variable (bounded : ∀ b, sha3 b < 2 ^ 256) (free : Set.InjOn sha3 known)

include bounded

theorem isTwoItemNode_reference {node : H256 → Bytes} (sized : Sized c)
    (full : c.isEmpty = false) (found : 32 ≤ (text sha3 c).length → node (sha3 (text sha3 c)) =
      text sha3 c) :
    isTwoItemNode node (reference sha3 (text sha3 c)) = some c.isPair := by
  rcases @text_items sha3 _ sized full with ⟨l, items, two⟩
  by_cases short : (text sha3 c).length < 32
  · have list := (text_shape sha3 sized).2
    rw [full, Bool.not_false] at list
    rw [reference_short short, isTwoItemNode, isData_of_isList list, if_neg Bool.false_ne_true,
      if_pos list, items, Option.map_some, two]
  · have long := not_lt.mp short
    rcases reference_hash bounded long with ⟨data, -, -, read⟩
    rw [isTwoItemNode, if_pos data, read, Option.bind_some, found long,
      (text_item sha3 sized).construct, Option.bind_some, items, Option.map_some, two]

theorem merge_branch {cs : Fin 16 → Patricia 16 Bytes} (sized : Sized (.branch cs))
    {d : Nibble} (full : (cs d).isEmpty = false) :
    merge (text sha3 (.branch cs)) d = some (text sha3 (.ext [d] (cs d))) := by
  have reads := text_branch sha3 sized
  have count := entriesOf_length sha3 cs
  have inner : ¬(d.val = 16) := d.isLt.ne
  rw [merge, reads.nodeItems (.inr count), Option.bind_some, if_neg (not_not.mpr count), reads.item,
    Option.bind_some, entriesOf_get, if_pos inner, reference_isEmpty bounded (sized d), full,
    if_neg Bool.false_ne_true, hexPrefix_digit]
  rfl

include free

theorem graft_spec {l : List Nibble} (pair : c.isPair = true) (sized : Sized (.ext l c))
    (here : text sha3 c ∈ known) (accounts : Accounts sha3 known db (refs sha3 c + others)) :
    ∃ db', graft db (text sha3 (.ext l c)) = some (text sha3 (Patricia.graft l c), db') ∧
      Accounts sha3 known db' (below sha3 (Patricia.graft l c) + others) ∧ db'.disk = db.disk := by
  rcases text_ext sha3 sized with ⟨above, whole⟩
  rcases @pair_view sha3 _ pair sized.2 with ⟨leaf, entry, part, reads, -⟩
  rcases text_graft (l := l) pair sized.2 reads with ⟨form, under⟩
  have full : c.isEmpty = false := by cases c <;> first | rfl | cases pair
  have list := (text_shape sha3 sized.2).2
  rw [full, Bool.not_false] at list
  rw [refs, add_assoc] at accounts
  have entered : ∃ db', (if Rlp.isList (reference sha3 (text sha3 c)) = true then
    some (reference sha3 (text sha3 c), db)
      else (Rlp.toHashStrict 32 (reference sha3 (text sha3 c))).bind fun hash =>
        (Rlp.construct (db.lookup hash)).map fun n => (n, db.kill hash)) = some (text sha3 c, db') ∧
      Accounts sha3 known db' (below sha3 c + others) ∧ db'.disk = db.disk := by
    by_cases short : (text sha3 c).length < 32
    · rw [own_short short, zero_add] at accounts
      rw [reference_short short, if_pos list]
      exact ⟨db, rfl, accounts, rfl⟩
    · have long := not_lt.mp short
      rcases reference_hash bounded long with ⟨-, data, -, read⟩
      have found := accounts.found free here long
      rw [own_long long] at accounts
      rw [data, if_neg Bool.false_ne_true, read, Option.bind_some, found,
        (text_item sha3 sized.2).construct]
      exact ⟨_, rfl, accounts.kill, disk_kill⟩
  rcases entered with ⟨db', opened, left, disk⟩
  rcases Option.map_eq_some_iff.mp reads.items with ⟨items, read, two⟩
  have joined := whole.fits.join reads.fits leaf
  rw [whole.toList, reads.toList] at joined
  refine ⟨db', ?_, by rw [under]; exact left, disk⟩
  rw [graft, whole.item, Option.bind_some, opened, Option.bind_some]
  dsimp only
  rw [read, Option.bind_some, if_neg (not_not.mpr two), whole.keyOf, Option.bind_some, reads.keyOf,
    Option.bind_some, reads.isLeaf, Option.bind_some, joined, Option.bind_some, reads.item,
    Option.map_some, form]

theorem rejoined_spec {cs : Fin 16 → Patricia 16 Bytes}
    (sized : Sized (.branch cs)) {d : Nibble} (full : (cs d).isEmpty = false)
    (here : text sha3 (cs d) ∈ known)
    (accounts : Accounts sha3 known db (refs sha3 (cs d) + others)) :
    ∃ db', rejoined db (text sha3 (.branch cs)) d =
      some (text sha3 (Patricia.graft [d] (cs d)), db') ∧
      Accounts sha3 known db' (below sha3 (Patricia.graft [d] (cs d)) + others) ∧
      db'.disk = db.disk := by
  have reads := text_branch sha3 sized
  have whole : Sized (.ext [d] (cs d)) := ⟨show 1 + 2 < 2 ^ 31 by decide, sized d⟩
  have parted := accounts
  rw [refs, add_assoc] at parted
  have two := isTwoItemNode_reference bounded (sized d) full (parted.found free here)
  rw [rejoined, reads.item, Option.bind_some, entriesOf_get, two, Option.bind_some,
    merge_branch bounded sized full, Option.bind_some]
  cases pair : (cs d).isPair with
  | true =>
      rw [if_pos rfl, (text_item sha3 whole).construct, Option.bind_some]
      exact graft_spec bounded free pair whole here accounts
  | false =>
      rw [if_neg Bool.false_ne_true, graft_unless_pair pair]
      exact ⟨db, rfl, accounts, rfl⟩

end Grafting

/-! What a removal makes of a node and of what stands for it in another -/

section Deleting

variable (sha3 : Bytes → H256) (known : Set Bytes) (fuel : Nat) (key : NibbleSlice)

/-- Nothing happens where the key is not there; else the node gives way to that of the tree without
it. -/
def Deletes (t : Patricia 16 Bytes) (others : Multiset H256) : Prop :=
  ∀ db, Accounts sha3 known db (own sha3 t + (below sha3 t + others)) →
    (t.remove key.toList = none → deleteAt sha3 fuel db (text sha3 t) key = some ([], db)) ∧
      ∀ t', t.remove key.toList = some t' →
        ∃ db', deleteAt sha3 fuel db (text sha3 t) key = some (text sha3 t', db') ∧
          Accounts sha3 known db' (below sha3 t' + others) ∧ db'.disk = db.disk

def DeletesBelow (c : Patricia 16 Bytes) (others : Multiset H256) : Prop :=
  ∀ db, Accounts sha3 known db (refs sha3 c + others) →
    (c.remove key.toList = none →
      deleteAtAux sha3 (deleteAt sha3 fuel) db (reference sha3 (text sha3 c)) key =
        some (none, db)) ∧
      ∀ c', c.remove key.toList = some c' →
        ∃ db', deleteAtAux sha3 (deleteAt sha3 fuel) db (reference sha3 (text sha3 c)) key =
            some (some (reference sha3 (text sha3 c')), db') ∧
          Accounts sha3 known db' (refs sha3 c' + others) ∧ db'.disk = db.disk

end Deleting

section Nodes

variable {sha3 : Bytes → H256} {known : Set Bytes} {fuel : Nat} {key : NibbleSlice} {rlp : Bytes}
    {db : OverlayDB} {c : Patricia 16 Bytes} {others : Multiset H256}

theorem deleteAt_pair {l : List Nibble} {leaf : Bool} {entry : Bytes} {part : NibbleSlice}
    (reads : ReadsPair rlp l leaf entry part) (fits : key.Fits) :
    deleteAt sha3 (fuel + 1) db rlp key =
      if l = key.toList ∧ leaf then some (rlpNull, killNode sha3 db rlp)
      else if l <+: key.toList then
        (deleteAtAux sha3 (deleteAt sha3 fuel) db entry (key.mid l.length)).bind
          (deletedPair sha3 rlp (Rlp.appendBytes (hexPrefix leaf l)))
      else some ([], db) := by
  rcases reads.nodeItems with ⟨items, shape, two⟩
  rw [deleteAt, reads.full, if_neg Bool.false_ne_true, shape, Option.bind_some, if_pos two,
    reads.keyOf, Option.bind_some, reads.isLeaf, Option.bind_some, reads.fits.same fits,
    fits.contains reads.fits, reads.toList, reads.first, Option.bind_some, reads.item,
    Option.bind_some, reads.fits.size, reads.toList]
  simp only [decide_eq_true_eq]

theorem deleteAt_branch {entries : List Bytes} (reads : Reads rlp entries)
    (count : entries.length = 17) {d : Nibble} {rest : List Nibble} (fits : key.Fits)
    (split : key.toList = d :: rest) :
    deleteAt sha3 (fuel + 1) db rlp key =
      (deleteAtAux sha3 (deleteAt sha3 fuel) db ((entries[d.val]?).getD []) (key.mid 1)).bind
        (deletedBranch sha3 rlp entries d) := by
  have more : ¬key.size = 0 := by
    rw [fits.size, split]
    exact Nat.succ_ne_zero _
  rw [deleteAt, reads.full, if_neg Bool.false_ne_true, reads.nodeItems (.inr count),
    Option.bind_some, if_neg (by omega), reads.item, Option.bind_some, if_neg fun both =>
      more both.1, (fits.uncons split).1, Option.bind_some, reads.children count.ge,
        Option.bind_some, List.take_of_length_le count.le]

theorem deletes_empty : Deletes sha3 known (fuel + 1) key .empty others := fun _ _ =>
  ⟨fun _ => rfl, fun _ removed => by cases removed⟩

theorem deletes_leaf {l : List Nibble} {w : Bytes} (sized : Sized (.leaf l w)) (fits : key.Fits)
    (apart : Patricia.Apart key.toList (.leaf l w)) :
    Deletes sha3 known (fuel + 1) key (.leaf l w) others := by
  intro db accounts
  rcases text_leaf sha3 sized with ⟨part, reads⟩
  rw [deleteAt_pair reads fits, Patricia.remove]
  by_cases same : l = key.toList
  · rw [if_pos same, if_pos ⟨same, rfl⟩]
    refine ⟨fun removed => (by cases removed), fun t' removed => ?_⟩
    cases removed
    exact ⟨_, rfl, accounts.killNode, disk_killNode _ _ _⟩
  · have off : ¬l <+: key.toList :=
      fun start => same (apart l w (Patricia.find_leaf.mpr ⟨rfl, rfl⟩) (.inl start))
    rw [if_neg same, if_neg fun both => same both.1, if_neg off]
    exact ⟨fun _ => rfl, fun t' removed => by cases removed⟩

theorem below_sole {cs : Fin 16 → Patricia 16 Bytes} {d : Fin 16}
    (alone : Patricia.sole cs = some d) :
    below sha3 (.branch cs) = refs sha3 (cs d) := by
  have none : beside sha3 cs d = 0 := by
    refine Finset.sum_eq_zero fun e member => ?_
    have bare : cs e = .empty := by
      cases shape : cs e with
      | empty => rfl
      | _ => exact absurd ((Patricia.sole_eq_some alone).2 e (by rw [shape]; rfl))
              (Finset.ne_of_mem_erase member)
    rw [bare]
    exact refs_empty
  rw [below_branch cs d, none, add_zero]

/-- The strings and values have lengths that the code can count. -/
def Short (t : Patricia 16 Bytes) : Prop := ∀ s w, t.find s = some w → s.length + 2 < 2 ^ 31 ∧
  w.length < 2 ^ 62

theorem Short.ext {k : List Nibble} (bound : Short (.ext k c)) : Short c := by
  intro s w found
  have least := bound (k ++ s) w (by rw [Patricia.find_ext_append, found])
  rw [List.length_append] at least
  exact ⟨by omega, least.2⟩

theorem Short.branch {cs : Fin 16 → Patricia 16 Bytes} (bound : Short (.branch cs)) (d : Fin 16) :
    Short (cs d) := by
  intro s w found
  have least := bound (d :: s) w found
  rw [List.length_cons] at least
  exact ⟨by omega, least.2⟩

theorem canonical_sized {t : Patricia 16 Bytes} (canonical : t.Canonical) (bound : Short t) :
    Sized t := by
  induction t with
  | empty => trivial
  | leaf k v => exact bound k v (Patricia.find_leaf.mpr ⟨rfl, rfl⟩)
  | ext k c ih =>
      rcases canonical.2.2.inhabited (Patricia.isBranch_full canonical.2.1) with ⟨s, w, found⟩
      have long := (bound (k ++ s) w (by rw [Patricia.find_ext_append, found])).1
      rw [List.length_append] at long
      exact ⟨by omega, ih canonical.2.2 bound.ext⟩
  | branch cs ih => exact fun d => ih d (canonical.2 d) (bound.branch d)

theorem texts_graft {l : List Nibble} (full : c.isEmpty = false) :
    texts sha3 c ⊆ texts sha3 (Patricia.graft l c) := by
  have tails : ∀ k m : List Nibble, m ∈ k.tails → m ∈ (l ++ k).tails := by
    intro k m member
    rw [List.mem_tails] at member ⊢
    exact member.trans (List.suffix_append l k)
  cases c with
  | empty => cases full
  | leaf k v =>
      intro x member
      rcases List.mem_map.mp member with ⟨m, tail, rfl⟩
      exact List.mem_map.mpr ⟨m, tails k m tail, rfl⟩
  | ext k c =>
      intro x member
      rcases List.mem_append.mp member with part | under
      · rcases List.mem_map.mp part with ⟨m, tail, rfl⟩
        exact List.mem_append_left _ (List.mem_map.mpr ⟨m, tails k m tail, rfl⟩)
      · exact List.mem_append_right _ under
  | branch cs => exact texts_ext l _

theorem nodes_graft (l : List Nibble) (c : Patricia 16 Bytes) :
    nodes (Patricia.graft l c) ≤ nodes c + 1 := by
  cases c <;> simp [Patricia.graft, nodes]

theorem nodes_collapse (cs : Fin 16 → Patricia 16 Bytes) :
    nodes (Patricia.collapse cs) ≤ nodes (.branch cs) := by
  unfold Patricia.collapse
  cases Patricia.sole cs with
  | none => exact le_rfl
  | some d =>
      rw [nodes, sum_ways nodes cs d]
      exact (nodes_graft [d] (cs d)).trans (by omega)

theorem nodes_remove {t t' : Patricia 16 Bytes} {k : List Nibble} (removed : t.remove k = some t') :
    nodes t' ≤ nodes t := by
  induction t generalizing k t' with
  | empty => cases removed
  | leaf l w =>
      rcases Option.ite_none_right_eq_some.mp removed with ⟨-, same⟩
      cases same
      exact Nat.zero_le _
  | ext l c ih =>
      rcases Option.ite_none_right_eq_some.mp removed with ⟨-, rest⟩
      rcases Option.map_eq_some_iff.mp rest with ⟨c', inner, rfl⟩
      exact (nodes_graft l c').trans (Nat.succ_le_succ (ih inner))
  | branch cs ih =>
      cases k with
      | nil => cases removed
      | cons d k =>
          rcases Option.map_eq_some_iff.mp removed with ⟨c', inner, rfl⟩
          have less := ih d inner
          have changed := nodes_update cs d c'
          exact (nodes_collapse _).trans (by omega)

theorem remove_full {t' : Patricia 16 Bytes} {k : List Nibble} (shape : c.isBranch = true)
    (removed : c.remove k = some t') :
    t'.isEmpty = false := by
  cases c with
  | branch cs =>
      cases k with
      | nil => cases removed
      | cons d k =>
          rcases Option.map_eq_some_iff.mp removed with ⟨c', -, rfl⟩
          exact Patricia.collapse_full _
  | _ => cases shape

theorem texts_collapse {cs : Fin 16 → Patricia 16 Bytes} {d : Fin 16} {x : Bytes}
    (member : x ∈ texts sha3 (cs d)) :
    x ∈ texts sha3 (Patricia.collapse cs) ∨ x = rlpNull := by
  cases full : (cs d).isEmpty with
  | true =>
      rw [Patricia.eq_empty full] at member
      exact .inr (List.mem_singleton.mp member)
  | false =>
      refine .inl ?_
      unfold Patricia.collapse
      cases alone : Patricia.sole cs with
      | none => exact texts_child cs d member
      | some e =>
          have same : d = e := (Patricia.sole_eq_some alone).2 d full
          rw [← same]
          exact texts_graft full member

theorem Short.remove {t t' : Patricia 16 Bytes} {k : List Nibble} (bound : Short t)
    (canonical : t.Canonical) (removed : t.remove k = some t') : t'.Canonical ∧ Short t' := by
  rcases Patricia.remove_spec canonical removed with ⟨canonical', find⟩
  refine ⟨canonical', fun s w found => ?_⟩
  rw [find, Function.update_apply] at found
  split_ifs at found
  exact bound s w found

/-! The whole removal -/

variable (bounded : ∀ b, sha3 b < 2 ^ 256) (free : Set.InjOn sha3 known)

include bounded free

theorem Deletes.below (sized : Sized c) (here : text sha3 c ∈ known)
    (after : ∀ c', c.remove key.toList = some c' →
      Sized c' ∧ text sha3 c' ∈ known ∧ (below sha3 c' + others).card + 1 < 2 ^ 32)
    (deletes : Deletes sha3 known fuel key c others) :
    DeletesBelow sha3 known fuel key c others := by
  intro db accounts
  cases full : c.isEmpty with
  | true =>
      rcases Patricia.eq_empty full
      refine ⟨fun _ => ?_, fun c' removed => by cases removed⟩
      rw [deleteAtAux, reference_isEmpty bounded sized, full]
      rfl
  | false =>
      rw [refs, add_assoc] at accounts
      rcases deletes db accounts with ⟨absent, present⟩
      have entered := entered_reference bounded sized full (accounts.found free here)
      have opened : deleteAtAux sha3 (deleteAt sha3 fuel) db (reference sha3 (text sha3 c)) key =
          (deleteAt sha3 fuel db (text sha3 c) key).map fun b =>
            if b.1 = [] then (none, b.2) else ((streamNode sha3 b.2 b.1).map some id) := by
        rw [deleteAtAux, reference_isEmpty bounded sized, full, if_neg Bool.false_ne_true, entered]
        rfl
      refine ⟨fun removed => ?_, fun c' removed => ?_⟩
      · rw [opened, absent removed]
        rfl
      · rcases present c' removed with ⟨db', deleted, accounts', disk⟩
        rcases after c' removed with ⟨sized', here', room⟩
        refine ⟨(streamNode sha3 db' (text sha3 c')).2, ?_, ?_, (disk_streamNode _ _ _).trans disk⟩
        · rw [opened, deleted, Option.map_some, if_neg (text_item sha3 sized').1]
          rfl
        · rw [refs, add_assoc]
          exact accounts'.streamNode sized' here' room

theorem DeletesBelow.ext {l : List Nibble} (sized : Sized (.ext l c)) (fits : key.Fits)
    (after : l <+: key.toList → ∀ c', c.remove (key.toList.drop l.length) = some c' →
      c'.isEmpty = false ∧ Sized c' ∧ text sha3 c' ∈ known)
    (deletes : l <+: key.toList →
      DeletesBelow sha3 known fuel (key.mid l.length) c (own sha3 (.ext l c) + others)) :
    Deletes sha3 known (fuel + 1) key (.ext l c) others := by
  intro db accounts
  rcases text_ext sha3 sized with ⟨above, reads⟩
  rw [deleteAt_pair reads fits, if_neg fun both => Bool.false_ne_true both.2, Patricia.remove]
  by_cases start : l <+: key.toList
  · have under : Accounts sha3 known db (refs sha3 c + (own sha3 (.ext l c) + others)) := by
      rw [add_left_comm]
      exact accounts
    rcases deletes start db under with ⟨absent, present⟩
    rw [(fits.mid start.length_le).2] at absent present
    rw [if_pos start, if_pos start]
    refine ⟨fun removed => ?_, fun t' removed => ?_⟩
    · rw [absent (Option.map_eq_none_iff.mp removed)]
      rfl
    · rcases Option.map_eq_some_iff.mp removed with ⟨c', inner, rfl⟩
      rcases present c' inner with ⟨db₁, deleted, accounts₁, disk₁⟩
      rcases after start c' inner with ⟨full, sized', here⟩
      rw [add_left_comm] at accounts₁
      have killed := accounts₁.killNode
      have whole : Sized (.ext l c') := ⟨sized.1, sized'⟩
      rcases text_ext sha3 whole with ⟨top, reads'⟩
      have parted := killed
      rw [refs, add_assoc] at parted
      have two := isTwoItemNode_reference bounded sized' full (parted.found free here)
      have form : rlpList [Rlp.appendBytes (hexPrefix false l), reference sha3 (text sha3 c')] =
          text sha3 (.ext l c') := rfl
      rw [deleted, Option.bind_some, deletedPair, form, (text_item sha3 whole).construct,
        Option.bind_some, reads'.item, Option.bind_some, two, Option.bind_some]
      have frame := (disk_killNode sha3 db₁ (text sha3 (.ext l c))).trans disk₁
      cases pair : c'.isPair with
      | true =>
          rw [if_pos rfl]
          rcases graft_spec bounded free pair whole here killed with ⟨db', grafted, accounts', disk⟩
          exact ⟨db', grafted, accounts', disk.trans frame⟩
      | false =>
          rw [if_neg Bool.false_ne_true, graft_unless_pair pair]
          exact ⟨_, rfl, killed, frame⟩
  · rw [if_neg start, if_neg start]
    exact ⟨fun _ => rfl, fun t' removed => by cases removed⟩

theorem DeletesBelow.branch {cs : Fin 16 → Patricia 16 Bytes} {d : Nibble} {rest : List Nibble}
    (sized : Sized (.branch cs)) (fits : key.Fits) (split : key.toList = d :: rest)
    (left : (key.mid 1).toList = rest) (after : ∀ c', (cs d).remove rest = some c' →
      Sized c' ∧ ∀ e, Patricia.sole (Function.update cs d c') = some e →
        text sha3 (Function.update cs d c' e) ∈ known)
    (deletes : DeletesBelow sha3 known fuel (key.mid 1) (cs d)
      (own sha3 (.branch cs) + (beside sha3 cs d + others))) :
    Deletes sha3 known (fuel + 1) key (.branch cs) others := by
  intro db accounts
  have under : Accounts sha3 known db
      (refs sha3 (cs d) + (own sha3 (.branch cs) + (beside sha3 cs d + others))) := by
    rw [add_left_comm, ← add_assoc (refs sha3 (cs d)), ← below_branch]
    exact accounts
  rcases deletes db under with ⟨absent, present⟩
  rw [left] at absent present
  rw [deleteAt_branch (text_branch sha3 sized) (entriesOf_length sha3 cs) fits split, entriesOf_get,
    split, Patricia.remove]
  refine ⟨fun removed => ?_, fun t' removed => ?_⟩
  · rw [absent (Option.map_eq_none_iff.mp removed)]
    rfl
  · rcases Option.map_eq_some_iff.mp removed with ⟨c', inner, rfl⟩
    rcases present c' inner with ⟨db₁, deleted, accounts₁, disk₁⟩
    rcases after c' inner with ⟨sized', here⟩
    rw [add_left_comm, ← add_assoc (refs sha3 c'), ← below_update] at accounts₁
    have killed := accounts₁.killNode
    have whole : Sized (.branch (Function.update cs d c')) := sized_update sized sized'
    have form : rlpList (entriesOf sha3 (Function.update cs d c')) =
        text sha3 (.branch (Function.update cs d c')) := rfl
    have frame := (disk_killNode sha3 db₁ (text sha3 (.branch cs))).trans disk₁
    rw [deleted, Option.bind_some, deletedBranch, entriesOf_set, form,
      (text_item sha3 whole).construct, Option.bind_some, uniqueInUse_branch bounded whole,
      Option.bind_some]
    unfold Patricia.collapse
    cases alone : Patricia.sole (Function.update cs d c') with
    | none =>
        rw [Option.map_none, Option.getD_none, if_pos rfl]
        exact ⟨_, rfl, killed, frame⟩
    | some e =>
        have few : ¬e.val = 255 := by have := e.isLt; omega
        rw [below_sole alone] at killed
        rw [Option.map_some, Option.getD_some, if_neg few]
        rcases rejoined_spec bounded free whole (Patricia.sole_eq_some alone).1
          (here e alone) killed with
          ⟨db', joined, accounts', disk⟩
        exact ⟨db', joined, accounts', disk.trans frame⟩

theorem deletes_remove {t : Patricia 16 Bytes} (canonical : t.Canonical)
    (apart : Patricia.Apart key.toList t) (bound : Short t) (fits : key.Fits)
    (before : ∀ x ∈ texts sha3 t, x ∈ known)
    (after : ∀ t', t.remove key.toList = some t' → ∀ x ∈ texts sha3 t', x ∈ known)
    (null : rlpNull ∈ known) (room : nodes t + others.card + 2 < 2 ^ 32)
    (enough : key.toList.length + 1 ≤ fuel) :
    Deletes sha3 known fuel key t others := by
  induction t generalizing key fuel others with
  | empty =>
      rcases Nat.exists_eq_add_of_le' (show 1 ≤ fuel by omega) with ⟨fuel, rfl⟩
      exact deletes_empty
  | leaf l w =>
      rcases Nat.exists_eq_add_of_le' (show 1 ≤ fuel by omega) with ⟨fuel, rfl⟩
      exact deletes_leaf (canonical_sized canonical bound) fits apart
  | ext l c ih =>
      rcases Nat.exists_eq_add_of_le' (show 1 ≤ fuel by omega) with ⟨fuel, rfl⟩
      have sized := canonical_sized canonical bound
      have whole : ∀ c', l <+: key.toList → c.remove (key.toList.drop l.length) = some c' →
          ∀ x ∈ texts sha3 c', x ∈ known := by
        intro c' start removed x member
        refine after (Patricia.graft l c') ?_ x
          (texts_graft (remove_full canonical.2.1 removed) member)
        rw [Patricia.remove, if_pos start, removed]
        rfl
      have left : ∀ c', c.remove (key.toList.drop l.length) = some c' → Sized c' := by
        intro c' removed
        rcases bound.ext.remove canonical.2.2 removed with ⟨canonical', bound'⟩
        exact canonical_sized canonical' bound'
      have top := card_own sha3 (.ext l c)
      rw [nodes] at room
      refine DeletesBelow.ext bounded free sized fits
        (fun start c' removed => ⟨remove_full canonical.2.1 removed,
        left c' removed, whole c' start removed _ (mem_texts c')⟩) fun start => ?_
      rcases fits.mid start.length_le with ⟨fits', rest⟩
      refine Deletes.below bounded free sized.2 (before _ (texts_ext _ _ (mem_texts c)))
        (fun c' removed => ?_) ?_
      · rw [rest] at removed
        refine ⟨left c' removed, whole c' start removed _ (mem_texts c'), ?_⟩
        have fewer := nodes_remove removed
        have under := (card_refs sha3 c').2
        rw [Multiset.card_add, Multiset.card_add]
        omega
      · have positive := List.length_pos_of_ne_nil canonical.1
        have below : (key.mid l.length).toList.length + l.length = key.toList.length := by
          have inside := start.length_le
          rw [rest, List.length_drop]
          omega
        refine ih canonical.2.2 ?_ bound.ext fits' (fun x member => before x (texts_ext _ _ member))
          (fun c' removed => ?_) ?_
          (by omega)
        · rcases start with ⟨k, split⟩
          rw [rest, ← split, List.drop_left]
          rw [← split] at apart
          exact apart.ext
        · rw [rest] at removed
          exact whole c' start removed
        · rw [Multiset.card_add]
          omega
  | branch cs ih =>
      rcases Nat.exists_eq_add_of_le' (show 1 ≤ fuel by omega) with ⟨fuel, rfl⟩
      have sized := canonical_sized canonical bound
      rcases apart.split canonical with ⟨d, k, split⟩
      rcases fits.uncons split with ⟨-, fits', rest⟩
      have left : ∀ c', (cs d).remove k = some c' → Sized c' := by
        intro c' removed
        rcases (bound.branch d).remove (canonical.2 d) removed with ⟨canonical', bound'⟩
        exact canonical_sized canonical' bound'
      have whole : ∀ c', (cs d).remove k = some c' →
          ∀ e, ∀ x ∈ texts sha3 (Function.update cs d c' e), x ∈ known := by
        intro c' removed e x member
        rcases texts_collapse member with kept | same
        · refine after (Patricia.collapse (Function.update cs d c')) ?_ x kept
          rw [split, Patricia.remove, removed]
          rfl
        · rw [same]
          exact null
      have changed : ∀ c', (cs d).remove k = some c' → ∀ x ∈ texts sha3 c', x ∈ known := by
        intro c' removed x member
        have here := whole c' removed d x
        rw [Function.update_self] at here
        exact here member
      have top := card_own sha3 (.branch cs)
      have inside := nodes_child sha3 cs d
      refine DeletesBelow.branch bounded free sized fits split rest
        (fun c' removed => ⟨left c' removed, fun e _ => whole c' removed e _ (mem_texts _)⟩) ?_
      refine Deletes.below bounded free (sized d) (before _ (texts_child cs d (mem_texts _)))
        (fun c' removed => ?_) ?_
      · rw [rest] at removed
        refine ⟨left c' removed, changed c' removed _ (mem_texts c'), ?_⟩
        have fewer := nodes_remove removed
        have under := (card_refs sha3 c').2
        rw [Multiset.card_add, Multiset.card_add, Multiset.card_add]
        omega
      · rw [split] at apart enough
        rw [List.length_cons] at enough
        refine ih d (canonical.2 d) (by rw [rest]; exact apart.branch) (bound.branch d) fits'
          (fun x member => before x (texts_child cs d member)) (fun c' removed => ?_) ?_
          (by rw [rest]; omega)
        · rw [rest] at removed
          exact changed c' removed
        · rw [Multiset.card_add, Multiset.card_add]
          omega

end Nodes

end Trie

end UtispaceChain
