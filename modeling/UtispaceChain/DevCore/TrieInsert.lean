import Mathlib.Algebra.Order.BigOperators.Group.Finset
import UtispaceChain.DevCore.TrieText

/-! `GenericTrieDB::insert`: the node database after an insertion holds the tree with the new
value. -/

namespace UtispaceChain

namespace Trie

open Lib OverlayDB

section Counts

variable {sha3 : Bytes → H256} {db : OverlayDB} {t : Patricia 16 Bytes}

theorem own_short (short : (text sha3 t).length < 32) : own sha3 t = 0 := if_pos short

theorem own_long (long : 32 ≤ (text sha3 t).length) : own sha3 t = {sha3 (text sha3 t)} :=
  if_neg (by omega)

theorem disk_killNode (sha3 : Bytes → H256) (db : OverlayDB) (d : Bytes) :
    (killNode sha3 db d).disk = db.disk := by
  unfold Trie.killNode
  split_ifs
  · exact disk_kill
  · rfl

theorem disk_streamNode (sha3 : Bytes → H256) (db : OverlayDB) (b : Bytes) :
    (streamNode sha3 db b).2.disk = db.disk := by
  unfold Trie.streamNode
  dsimp only
  split_ifs
  · rfl
  · exact disk_insert

theorem disk_leave {p : Prop} [Decidable p] {h : H256} :
    (if p then db.kill h else db).disk = db.disk := by
  split_ifs
  · exact disk_kill
  · rfl

end Counts

end Trie

namespace OverlayDB.Accounts

open Lib Trie

variable {sha3 : Bytes → H256} {known : Set Bytes} {db : OverlayDB} {live : Multiset H256}
    {t : Patricia 16 Bytes}

theorem killNode (accounts : Accounts sha3 known db (own sha3 t + live)) :
    Accounts sha3 known (Trie.killNode sha3 db (text sha3 t)) live := by
  unfold Trie.killNode
  split_ifs with long
  · rw [own_long long] at accounts
    exact accounts.kill
  · rw [own_short (not_le.mp long), zero_add] at accounts
    exact accounts

theorem streamNode (accounts : Accounts sha3 known db live) (sized : Sized t)
    (here : text sha3 t ∈ known) (room : live.card + 1 < 2 ^ 32) :
    Accounts sha3 known (Trie.streamNode sha3 db (text sha3 t)).2 (own sha3 t + live) := by
  unfold Trie.streamNode
  dsimp only
  split_ifs with short
  · rw [own_short short, zero_add]
    exact accounts
  · rw [own_long (not_lt.mp short)]
    exact accounts.insert here (text_item sha3 sized).1 room

theorem found (accounts : Accounts sha3 known db (own sha3 t + live)) (free : Set.InjOn sha3 known)
    (here : text sha3 t ∈ known) (long : 32 ≤ (text sha3 t).length) :
    db.lookup (sha3 (text sha3 t)) = text sha3 t := by
  refine accounts.lookup free here ?_
  rw [own_long long]
  exact Multiset.mem_add.mpr (.inl (Multiset.mem_singleton_self _))

theorem root_found {others : Multiset H256}
    (accounts : Accounts sha3 known db (rootRefs sha3 t + others))
    (free : Set.InjOn sha3 known) (here : text sha3 t ∈ known) :
    db.lookup (sha3 (text sha3 t)) = text sha3 t :=
  accounts.lookup free here
    (Multiset.mem_add.mpr (.inl (Multiset.mem_add.mpr (.inl (Multiset.mem_singleton_self _)))))

theorem leave {inLine : Bool}
    (accounts : Accounts sha3 known db ((if inLine then 0 else own sha3 t) + live)) :
    Accounts sha3 known (if ¬inLine ∧ 32 ≤ (text sha3 t).length then db.kill (sha3 (text sha3 t))
      else db) live := by
  cases inLine with
  | true =>
      rw [if_pos rfl, zero_add] at accounts
      rw [if_neg fun both => both.1 rfl]
      exact accounts
  | false =>
      rw [if_neg Bool.false_ne_true] at accounts
      have plain : (¬false = true ∧ 32 ≤ (text sha3 t).length) ↔ 32 ≤ (text sha3 t).length := by
        simp
      have killed := accounts.killNode
      rw [Trie.killNode] at killed
      simpa only [plain] using killed

end OverlayDB.Accounts

namespace Trie

open Lib OverlayDB

section Steps

variable {sha3 : Bytes → H256} {db : OverlayDB} {fuel : Nat} {rlp v : Bytes} {hash : H256}
    {inLine : Bool} {key : NibbleSlice}

theorem nodeItems_full {rlp : Bytes} {l : List Bytes} (read : nodeItems rlp = some l) :
    Rlp.items rlp = some l ∧ Rlp.isList rlp = true ∧ (l.length = 2 ∨ l.length = 17) := by
  rcases Option.bind_eq_some_iff.mp read with ⟨items, found, rest⟩
  rcases Option.ite_none_right_eq_some.mp rest with ⟨⟨list, size⟩, same⟩
  cases same
  exact ⟨found, list, size⟩

theorem mergeAt_pair {l : List Nibble} {leaf : Bool} {entry : Bytes} {part : NibbleSlice}
    (reads : ReadsPair rlp l leaf entry part) (fits : key.Fits) :
    mergeAt sha3 (fuel + 1) db rlp hash key v inLine =
      if l = key.toList ∧ leaf then place sha3 db rlp key v
      else if l <+: key.toList ∧ ¬leaf then
        (mergeAtAux sha3 (mergeAt sha3 fuel) (if ¬inLine ∧ 32 ≤ rlp.length then db.kill hash
          else db) entry
          (key.mid l.length) v).map fun below =>
            (rlpList [Rlp.appendBytes (hexPrefix leaf l), below.1], below.2)
      else if Lib.shared key.toList l ≠ 0 then
        (cleve sha3 db rlp (Lib.shared key.toList l)).bind fun cleved =>
          (Rlp.construct cleved.1).bind fun r =>
          mergeAt sha3 fuel cleved.2 r (sha3 r) key v true
      else
        (branch sha3 db rlp).bind fun branched => (Rlp.construct branched.1).bind fun r =>
          mergeAt sha3 fuel branched.2 r (sha3 r) key v true := by
  rcases reads.nodeItems with ⟨items, shape, two⟩
  rw [mergeAt, reads.full, if_neg Bool.false_ne_true, shape, Option.bind_some, if_pos two,
    reads.keyOf, Option.bind_some, reads.isLeaf, Option.bind_some, reads.fits.same fits,
    fits.contains reads.fits, fits.shared reads.fits, reads.toList,
    reads.first, Option.bind_some, reads.item, Option.bind_some, reads.fits.size, reads.toList]
  simp only [decide_eq_true_eq]

theorem mergeAt_branch {entries : List Bytes} (reads : Reads rlp entries)
    (count : entries.length = 17) {d : Nibble} {rest : List Nibble} (fits : key.Fits)
    (split : key.toList = d :: rest) :
    mergeAt sha3 (fuel + 1) db rlp hash key v inLine =
      (mergeAtAux sha3 (mergeAt sha3 fuel) (if ¬inLine ∧ 32 ≤ rlp.length then db.kill hash else db)
        ((entries[d.val]?).getD []) (key.mid 1) v).map fun below =>
          (rlpList (entries.set d below.1), below.2) := by
  have more : ¬key.size = 0 := by
    rw [fits.size, split]
    exact Nat.succ_ne_zero _
  rw [mergeAt, reads.full, if_neg Bool.false_ne_true, reads.nodeItems (.inr count),
    Option.bind_some, if_neg (by omega), if_neg more, (fits.uncons split).1, Option.bind_some,
    reads.children count.ge, Option.bind_some, List.take_of_length_le count.le]

end Steps

/-! What an insertion makes of a node and of what stands for it in another -/

section Merging

variable (sha3 : Bytes → H256) (known : Set Bytes) (fuel : Nat) (key : NibbleSlice) (v : Bytes)

def Merges (inLine : Bool) (t t' : Patricia 16 Bytes) (others : Multiset H256) : Prop :=
  ∀ db, Accounts sha3 known db ((if inLine then 0 else own sha3 t) + (below sha3 t + others)) →
    ∃ db', mergeAt sha3 fuel db (text sha3 t) (sha3 (text sha3 t)) key v inLine =
      some (text sha3 t', db') ∧
      Accounts sha3 known db' (below sha3 t' + others) ∧ db'.disk = db.disk

def MergesBelow (c c' : Patricia 16 Bytes) (others : Multiset H256) : Prop :=
  ∀ db, Accounts sha3 known db (refs sha3 c + others) →
    ∃ db', mergeAtAux sha3 (mergeAt sha3 fuel) db (reference sha3 (text sha3 c)) key v =
        some (reference sha3 (text sha3 c'), db') ∧
      Accounts sha3 known db' (refs sha3 c' + others) ∧ db'.disk = db.disk

end Merging

section Nodes

variable {sha3 : Bytes → H256} {known : Set Bytes} {fuel : Nat} {key : NibbleSlice} {v : Bytes}
    {inLine : Bool} {c c' : Patricia 16 Bytes} {others : Multiset H256}

theorem mine_eq {t : Patricia 16 Bytes} (plain : inLine = true → (text sha3 t).length < 32) :
    (if inLine = true then 0 else own sha3 t) = own sha3 t := by
  split_ifs with line
  · exact (own_short (plain line)).symm
  · rfl

variable (bounded : ∀ b, sha3 b < 2 ^ 256) (free : Set.InjOn sha3 known)

include bounded free in
theorem Merges.below (sized : Sized c) (sized' : Sized c') (here : text sha3 c ∈ known)
    (here' : text sha3 c' ∈ known) (room : (below sha3 c' + others).card + 1 < 2 ^ 32)
    (merges : Merges sha3 known fuel key v (decide ((text sha3 c).length < 32)) c c' others) :
    MergesBelow sha3 known fuel key v c c' others := by
  intro db accounts
  rw [refs, add_assoc] at accounts
  have entered := dereferenced_reference bounded sized fun long => accounts.found free here long
  rcases merges db (by rw [mine_eq of_decide_eq_true]; exact accounts) with
    ⟨db', merged, accounts', disk⟩
  have flag : (!decide (32 ≤ (text sha3 c).length)) = decide ((text sha3 c).length < 32) := by
    rw [← decide_not]
    exact decide_eq_decide.mpr not_le
  refine ⟨(streamNode sha3 db' (text sha3 c')).2, ?_, ?_, ?_⟩
  · rw [mergeAtAux, entered, Option.bind_some]
    dsimp only
    rw [flag, merged]
    rfl
  · rw [refs, add_assoc]
    exact accounts'.streamNode sized' here' room
  · rw [disk_streamNode, disk]

theorem MergesBelow.ext {l : List Nibble} (sized : Sized (.ext l c)) (fits : key.Fits)
    (start : l <+: key.toList)
    (merges : MergesBelow sha3 known fuel (key.mid l.length) v c c' others) :
    Merges sha3 known (fuel + 1) key v inLine (.ext l c) (.ext l c') others := by
  intro db accounts
  rcases text_ext sha3 sized with ⟨part, reads⟩
  rcases merges _ accounts.leave with ⟨db', merged, accounts', disk⟩
  refine ⟨db', ?_, accounts', disk.trans disk_leave⟩
  rw [mergeAt_pair reads fits, if_neg fun both => Bool.false_ne_true both.2,
    if_pos ⟨start, Bool.false_ne_true⟩, merged]
  rfl

variable (sha3) in
/-- The hashes under a branch that do not belong to one way. -/
def beside (cs : Fin 16 → Patricia 16 Bytes) (d : Fin 16) : Multiset H256 :=
  ∑ e ∈ Finset.univ.erase d, refs sha3 (cs e)

theorem sum_ways {M : Type} [AddCommMonoid M] {n : Nat} (f : Patricia 16 Bytes → M)
    (cs : Fin n → Patricia 16 Bytes) (d : Fin n) :
    ∑ e, f (cs e) = f (cs d) + ∑ e ∈ Finset.univ.erase d, f (cs e) :=
  (Finset.add_sum_erase Finset.univ (fun e => f (cs e)) (Finset.mem_univ d)).symm

theorem sum_update {M : Type} [AddCommMonoid M] {n : Nat} (f : Patricia 16 Bytes → M)
    (cs : Fin n → Patricia 16 Bytes) (d : Fin n) (c : Patricia 16 Bytes) :
    ∑ e, f (Function.update cs d c e) = f c + ∑ e ∈ Finset.univ.erase d, f (cs e) := by
  rw [sum_ways f _ d, Function.update_self]
  refine congrArg _ (Finset.sum_congr rfl fun e member => ?_)
  rw [Function.update_of_ne (Finset.ne_of_mem_erase member)]

theorem below_branch (cs : Fin 16 → Patricia 16 Bytes) (d : Fin 16) :
    below sha3 (.branch cs) = refs sha3 (cs d) + beside sha3 cs d := sum_ways (refs sha3) cs d

theorem below_update (cs : Fin 16 → Patricia 16 Bytes) (d : Fin 16) (c : Patricia 16 Bytes) :
    below sha3 (.branch (Function.update cs d c)) = refs sha3 c + beside sha3 cs d :=
  sum_update (refs sha3) cs d c

theorem entriesOf_get (cs : Fin 16 → Patricia 16 Bytes) (d : Fin 16) :
    ((entriesOf sha3 cs)[d.val]?).getD [] = reference sha3 (text sha3 (cs d)) := by
  rw [entriesOf, List.getElem?_append_left (by simp), List.getElem?_ofFn, dif_pos d.isLt]
  rfl

theorem entriesOf_set (cs : Fin 16 → Patricia 16 Bytes) (d : Fin 16) (c : Patricia 16 Bytes) :
    (entriesOf sha3 cs).set d (reference sha3 (text sha3 c)) =
      entriesOf sha3 (Function.update cs d c) := by
  have inside : d.val < (List.ofFn fun e => reference sha3 (text sha3 (cs e))).length := by simp
  rw [entriesOf, entriesOf, List.set_append_left _ _ inside]
  refine congrArg (· ++ [rlpNull]) (List.ext_getElem (by simp) fun i left right => ?_)
  rw [List.getElem_set, List.getElem_ofFn, List.getElem_ofFn]
  by_cases same : d.val = i
  · subst same
    rw [if_pos rfl, Function.update_self]
  · rw [if_neg same, Function.update_of_ne fun equal => same (congrArg Fin.val equal).symm]

theorem MergesBelow.branch {cs : Fin 16 → Patricia 16 Bytes} {d : Nibble} {rest : List Nibble}
    (sized : Sized (.branch cs)) (fits : key.Fits) (split : key.toList = d :: rest)
    (merges : MergesBelow sha3 known fuel (key.mid 1) v (cs d) c' (beside sha3 cs d + others)) :
    Merges sha3 known (fuel + 1) key v inLine (.branch cs) (.branch (Function.update cs d c'))
      others := by
  intro db accounts
  have left := accounts.leave
  rw [below_branch cs d, add_assoc] at left
  rcases merges _ left with ⟨db', merged, accounts', disk⟩
  refine ⟨db', ?_, ?_, disk.trans disk_leave⟩
  · rw [mergeAt_branch (text_branch sha3 sized) (entriesOf_length sha3 cs) fits split,
      entriesOf_get, merged, Option.map_some, entriesOf_set]
    rfl
  · rw [below_update, add_assoc]
    exact accounts'

theorem encode_whole {k : NibbleSlice} (fits : k.Fits) (leaf : Bool)
    (short : k.toList.length + 2 < 2 ^ 31) :
    k.encode leaf 0 (-1) = some (hexPrefix leaf k.toList) := by
  have whole := fits.encode leaf (Nat.zero_le k.toList.length) (by omega)
  rwa [List.drop_zero] at whole

theorem merges_empty (fits : key.Fits) (short : key.toList.length + 2 < 2 ^ 31) :
    Merges sha3 known (fuel + 1) key v inLine .empty (.leaf key.toList v) others := by
  intro db accounts
  have bare : own sha3 .empty = 0 := own_short (t := .empty) (show rlpNull.length < 32 by decide)
  refine ⟨db, ?_, ?_, rfl⟩
  · have plain : killNode sha3 db rlpNull = db := if_neg (by decide)
    have null : Rlp.isEmpty rlpNull = true := rfl
    rw [text, mergeAt, null, if_pos rfl, place, plain, null, if_pos rfl,
      encode_whole fits true short]
    rfl
  · rw [bare, ite_self, zero_add] at accounts
    exact accounts

theorem merges_leaf {w : Bytes} (sized : Sized (.leaf key.toList w)) (fits : key.Fits)
    (plain : inLine = true → (text sha3 (.leaf key.toList w)).length < 32) :
    Merges sha3 known (fuel + 1) key v inLine (.leaf key.toList w) (.leaf key.toList v) others := by
  intro db accounts
  rcases text_leaf sha3 sized with ⟨part, reads⟩
  rcases reads.nodeItems with ⟨items, shape, two⟩
  rw [mine_eq plain] at accounts
  refine ⟨_, ?_, accounts.killNode, disk_killNode _ _ _⟩
  rw [mergeAt_pair reads fits, if_pos ⟨rfl, rfl⟩, place, reads.full, if_neg Bool.false_ne_true,
    shape, Option.bind_some, if_pos two, reads.first]
  rfl

/-! A node of two items that a key parts from -/

theorem pair_view {n : Patricia 16 Bytes} (pair : n.isPair = true) (sized : Sized n) :
    ∃ leaf entry part, ReadsPair (text sha3 n) n.key leaf entry part ∧
      (∀ q, leaf = true ∨ q ≠ [] →
        text sha3 (n.retail q) = rlpList [Rlp.appendBytes (hexPrefix leaf q), entry] ∧
        below sha3 (n.retail q) = below sha3 n) ∧
      (leaf = false → reference sha3 (text sha3 (n.retail [])) = entry ∧
        refs sha3 (n.retail []) = below sha3 n) := by
  cases n with
  | empty => cases pair
  | branch cs => cases pair
  | leaf k w =>
      rcases text_leaf sha3 sized with ⟨part, reads⟩
      exact ⟨true, _, part, reads, fun q _ => ⟨rfl, rfl⟩, fun plain => nomatch plain⟩
  | ext k c =>
      rcases text_ext sha3 sized with ⟨part, reads⟩
      refine ⟨false, _, part, reads, fun q full => ?_, fun _ => ⟨rfl, rfl⟩⟩
      rcases List.exists_cons_of_ne_nil (full.resolve_left Bool.false_ne_true) with ⟨d, rest, rfl⟩
      exact ⟨rfl, rfl⟩

theorem retail_sized {n : Patricia 16 Bytes} (sized : Sized n) {q : List Nibble}
    (short : q.length ≤ n.key.length) :
    Sized (n.retail q) := by
  cases n with
  | empty => trivial
  | branch cs => exact sized
  | leaf k w => exact ⟨by have := sized.1; change q.length ≤ k.length at short; omega, sized.2⟩
  | ext k c =>
      cases q with
      | nil => exact sized.2
      | cons d q =>
          exact ⟨by have := sized.1; change (d :: q).length ≤ k.length at short; omega, sized.2⟩

theorem key_short {n : Patricia 16 Bytes} (pair : n.isPair = true) (sized : Sized n) :
    n.key.length + 2 < 2 ^ 31 := by
  cases n with
  | empty => cases pair
  | branch cs => cases pair
  | leaf k w => exact sized.1
  | ext k c => exact sized.1

theorem refs_empty : refs sha3 .empty = 0 := by
  have short : (text sha3 .empty).length < 32 := show rlpNull.length < 32 by decide
  rw [refs, own_short short, below, add_zero]

theorem below_single (a : Fin 16) (n : Patricia 16 Bytes) :
    below sha3 (.branch (Patricia.single a n)) = refs sha3 n := by
  have none : beside sha3 (fun _ => .empty) a = 0 := Finset.sum_eq_zero fun e _ => refs_empty
  rw [Patricia.single, below_update, none, add_zero]

theorem entriesOf_single (a : Fin 16) (n : Patricia 16 Bytes) :
    entriesOf sha3 (Patricia.single a n) =
      (List.replicate 16 rlpNull).set a (reference sha3 (text sha3 n)) ++ [rlpNull] := by
  have none : entriesOf sha3 (fun _ => .empty) = List.replicate 16 rlpNull ++ [rlpNull] := rfl
  rw [Patricia.single, ← entriesOf_set, none, List.set_append_left _ _ (by simp)]

theorem sized_update {cs : Fin 16 → Patricia 16 Bytes} {d : Fin 16} (sized : Sized (.branch cs))
    (sized' : Sized c) :
    Sized (.branch (Function.update cs d c)) := by
  intro e
  rw [Function.update_apply]
  split_ifs
  · exact sized'
  · exact sized e

theorem sized_single {a : Fin 16} {n : Patricia 16 Bytes} (sized : Sized n) :
    Sized (.branch (Patricia.single a n)) :=
  sized_update (fun _ => trivial) sized

theorem branch_spec {db : OverlayDB} {n : Patricia 16 Bytes} {a : Nibble} {l : List Nibble}
    (pair : n.isPair = true) (sized : Sized n) (parts : n.key = a :: l)
    (here : text sha3 (n.retail l) ∈ known) (room : (below sha3 n + others).card + 1 < 2 ^ 32)
    (accounts : Accounts sha3 known db (own sha3 n + (below sha3 n + others))) :
    ∃ db', branch sha3 db (text sha3 n) =
      some (text sha3 (.branch (Patricia.single a (n.retail l))), db') ∧
      Accounts sha3 known db' (below sha3 (.branch (Patricia.single a (n.retail l))) + others) ∧
      db'.disk = db.disk := by
  rcases pair_view pair sized with ⟨leaf, entry, part, reads, other, bare⟩
  have short := key_short pair sized
  have sized' := retail_sized sized (q := l) (by rw [parts]; exact Nat.le_succ _)
  have killed := accounts.killNode
  have split : part.toList = a :: l := reads.toList.trans parts
  rcases reads.fits.uncons split with ⟨first, fits, rest⟩
  have size : part.size = l.length + 1 := by rw [reads.fits.size, split, List.length_cons]
  have whole : text sha3 (.branch (Patricia.single a (n.retail l))) =
      rlpList ((List.replicate 16 rlpNull).set a (reference sha3 (text sha3 (n.retail l))) ++
        [rlpNull]) := by
    rw [← entriesOf_single]
    rfl
  rw [branch, reads.keyOf, Option.bind_some, reads.isLeaf, Option.bind_some, reads.item,
    Option.bind_some, size, if_neg (Nat.succ_ne_zero _), first, Option.bind_some, whole,
    below_single]
  by_cases more : leaf = true ∨ l ≠ []
  · rcases other l more with ⟨form, under⟩
    have kept : leaf = true ∨ 1 < l.length + 1 := more.imp_right fun full => by
      have := List.length_pos_of_ne_nil full
      omega
    have coded :=
      encode_whole fits leaf (by rw [rest]; rw [parts, List.length_cons] at short; omega)
    have streamed := killed.streamNode sized' here room
    rw [← under, ← add_assoc] at streamed
    rw [if_pos kept, coded, rest, Option.map_some, ← form]
    exact ⟨_, rfl, streamed, (disk_streamNode _ _ _).trans (disk_killNode _ _ _)⟩
  · rcases not_or.mp more with ⟨inner, spent⟩
    have none : l = [] := not_not.mp spent
    subst none
    rcases bare (Bool.eq_false_of_not_eq_true inner) with ⟨same, under⟩
    rw [if_neg (by simpa using inner), same]
    rw [← under] at killed
    exact ⟨_, rfl, killed, disk_killNode _ _ _⟩

theorem cleve_spec {db : OverlayDB} {n : Patricia 16 Bytes} {p q : List Nibble}
    (pair : n.isPair = true) (sized : Sized n) (parts : n.key = p ++ q) (start : p ≠ [])
    (rest : q ≠ []) (here : text sha3 (n.retail q) ∈ known)
    (room : (below sha3 n + others).card + 1 < 2 ^ 32)
    (accounts : Accounts sha3 known db (own sha3 n + (below sha3 n + others))) :
    ∃ db', cleve sha3 db (text sha3 n) p.length = some (text sha3 (.ext p (n.retail q)), db') ∧
      Accounts sha3 known db' (below sha3 (.ext p (n.retail q)) + others) ∧ db'.disk = db.disk := by
  rcases pair_view pair sized with ⟨leaf, entry, part, reads, other, -⟩
  have short := key_short pair sized
  have total : part.toList.length = p.length + q.length := by
    rw [reads.toList, parts, List.length_append]
  have sized' := retail_sized sized (q := q) (by rw [parts, List.length_append]; omega)
  have killed := accounts.killNode
  rcases other q (.inr rest) with ⟨form, under⟩
  have positive := List.length_pos_of_ne_nil start
  rw [parts, List.length_append] at short
  have inside : ¬(p.length = 0 ∨ part.size < p.length) := by
    rw [reads.fits.size]
    omega
  have bottom : part.encode leaf p.length (-1) =
      some (hexPrefix leaf (part.toList.drop p.length)) :=
    reads.fits.encode leaf (by omega) (by omega)
  have top := reads.fits.encode_part false (Nat.zero_le p.length) (by omega)
  rw [reads.toList, parts, List.drop_left] at bottom
  rw [reads.toList, parts, List.take_left, List.drop_zero] at top
  have streamed := killed.streamNode sized' here room
  rw [← under, ← add_assoc] at streamed
  refine ⟨_, ?_, streamed, (disk_streamNode _ _ _).trans (disk_killNode _ _ _)⟩
  have written : part.encode false 0 p.length = some (hexPrefix false p) := top
  rw [cleve, reads.keyOf, Option.bind_some, reads.isLeaf, Option.bind_some, if_neg inside, bottom,
    Option.bind_some, reads.item, Option.bind_some, written, Option.map_some, ← form]
  rfl

theorem Merges.branched {n t : Patricia 16 Bytes} {a b : Nibble} {l k : List Nibble}
    (pair : n.isPair = true) (sized : Sized n) (parts : n.key = a :: l) (fits : key.Fits)
    (split : key.toList = b :: k) (differ : a ≠ b) (here : text sha3 (n.retail l) ∈ known)
    (room : (Trie.below sha3 n + others).card + 1 < 2 ^ 32)
    (plain : inLine = true → (text sha3 n).length < 32)
    (merges : Merges sha3 known fuel key v true
      (.branch (Patricia.single a (n.retail l))) t others) :
    Merges sha3 known (fuel + 1) key v inLine n t others := by
  intro db accounts
  rcases pair_view pair sized with ⟨leaf, entry, part, reads, -⟩
  have sized' := retail_sized sized (q := l) (by rw [parts]; exact Nat.le_succ _)
  rw [mine_eq plain] at accounts
  rcases branch_spec pair sized parts here room accounts with ⟨db₁, branched, accounts₁, disk₁⟩
  rcases merges db₁ (by rw [if_pos rfl, zero_add]; exact accounts₁) with
    ⟨db', merged, accounts', disk⟩
  refine ⟨db', ?_, accounts', disk.trans disk₁⟩
  have off : ¬a :: l <+: b :: k := fun start => differ (List.cons_prefix_cons.mp start).1
  have same : ¬a :: l = b :: k := fun equal => differ (List.cons.inj equal).1
  rw [parts] at reads
  rw [mergeAt_pair reads fits, split, if_neg fun both => same both.1, if_neg fun both => off both.1,
    Lib.shared_ne (Ne.symm differ), if_neg (not_not.mpr rfl), branched, Option.bind_some,
    (text_item sha3 (sized_single sized')).construct, Option.bind_some, merged]

theorem Merges.cleved {n t : Patricia 16 Bytes} {a b : Nibble} {p l k : List Nibble}
    (pair : n.isPair = true) (sized : Sized n) (start : p ≠ []) (parts : n.key = p ++ a :: l)
    (fits : key.Fits) (split : key.toList = p ++ b :: k) (differ : a ≠ b)
    (here : text sha3 (n.retail (a :: l)) ∈ known) (room : (Trie.below sha3 n + others).card + 1 <
      2 ^ 32) (plain : inLine = true → (text sha3 n).length < 32)
      (merges : Merges sha3 known fuel key v true (.ext p (n.retail (a :: l))) t others) :
    Merges sha3 known (fuel + 1) key v inLine n t others := by
  intro db accounts
  rcases pair_view pair sized with ⟨leaf, entry, part, reads, -⟩
  have short := key_short pair sized
  have sized' := retail_sized sized (q := a :: l) (by rw [parts, List.length_append]; omega)
  rw [mine_eq plain] at accounts
  rcases cleve_spec pair sized parts start (List.cons_ne_nil a l) here room accounts with
    ⟨db₁, cleved, accounts₁, disk₁⟩
  rcases merges db₁ (by rw [if_pos rfl, zero_add]; exact accounts₁) with
    ⟨db', merged, accounts', disk⟩
  refine ⟨db', ?_, accounts', disk.trans disk₁⟩
  have off : ¬p ++ a :: l <+: p ++ b :: k := fun before =>
    differ (List.cons_prefix_cons.mp ((List.prefix_append_right_inj p).mp before)).1
  have same : ¬p ++ a :: l = p ++ b :: k :=
    fun equal => differ (List.cons.inj (List.append_cancel_left equal)).1
  have length : Lib.shared (p ++ b :: k) (p ++ a :: l) = p.length := by
    rw [Lib.shared_append, Lib.shared_ne (Ne.symm differ), Nat.add_zero]
  have some_ : p.length ≠ 0 := (List.length_pos_of_ne_nil start).ne'
  rw [parts] at reads
  rw [parts, List.length_append] at short
  have whole := text_item sha3 (t := .ext p (n.retail (a :: l))) ⟨by omega, sized'⟩
  rw [mergeAt_pair reads fits, split, if_neg fun both => same both.1, if_neg fun both => off both.1,
    length, if_pos some_, cleved, Option.bind_some, whole.construct, Option.bind_some, merged]

/-! Which texts a tree has -/

theorem mem_texts (t : Patricia 16 Bytes) : text sha3 t ∈ texts sha3 t := by
  cases t with
  | empty => exact List.mem_singleton_self _
  | leaf k v => exact List.mem_map.mpr ⟨k, (List.mem_tails k k).mpr (List.suffix_refl k), rfl⟩
  | ext k c =>
      exact List.mem_append_left _ (List.mem_map.mpr
        ⟨k, (List.mem_tails k k).mpr (List.suffix_refl k), rfl⟩)
  | branch cs => exact List.mem_cons_self

theorem texts_child (cs : Fin 16 → Patricia 16 Bytes) (d : Fin 16) :
    texts sha3 (cs d) ⊆ texts sha3 (.branch cs) := fun _ member =>
  List.mem_cons_of_mem _ (List.mem_flatMap.mpr ⟨d, List.mem_finRange d, member⟩)

theorem texts_ext (k : List Nibble) (c : Patricia 16 Bytes) :
    texts sha3 c ⊆ texts sha3 (.ext k c) := fun _ member =>
  List.mem_append_right _ member

theorem texts_retail {n : Patricia 16 Bytes} (pair : n.isPair = true) {q : List Nibble}
    (full : q ≠ []) (tail : q <:+ n.key) : text sha3 (n.retail q) ∈ texts sha3 n := by
  cases n with
  | empty => cases pair
  | branch cs => cases pair
  | leaf k w => exact List.mem_map.mpr ⟨q, (List.mem_tails q k).mpr tail, rfl⟩
  | ext k c =>
      rcases List.exists_cons_of_ne_nil full with ⟨d, rest, rfl⟩
      exact List.mem_append_left _ (List.mem_map.mpr ⟨_, (List.mem_tails _ k).mpr tail, rfl⟩)

/-! How large a tree is -/

variable (sha3) in
theorem card_own (t : Patricia 16 Bytes) : (own sha3 t).card ≤ 1 := by
  unfold own
  split_ifs
  · exact Nat.zero_le 1
  · exact (Multiset.card_singleton _).le

variable (sha3) in
theorem card_refs (t : Patricia 16 Bytes) : (refs sha3 t).card ≤ nodes t ∧
    (below sha3 t).card ≤ nodes t := by
  induction t with
  | empty =>
      rw [refs_empty]
      exact ⟨le_rfl, le_rfl⟩
  | leaf k v =>
      refine ⟨?_, Nat.zero_le _⟩
      rw [refs, below, add_zero]
      exact card_own sha3 _
  | ext k c ih =>
      have top := card_own sha3 (.ext k c)
      have under : below sha3 (.ext k c) = refs sha3 c := rfl
      rw [refs, Multiset.card_add, under, nodes]
      omega
  | branch cs ih =>
      have top := card_own sha3 (.branch cs)
      have under : (below sha3 (.branch cs)).card ≤ ∑ d, nodes (cs d) := by
        change Multiset.card (∑ d, refs sha3 (cs d)) ≤ _
        rw [Multiset.card_sum]
        exact Finset.sum_le_sum fun d _ => (ih d).1
      rw [refs, Multiset.card_add, nodes]
      omega

theorem nodes_update (cs : Fin 16 → Patricia 16 Bytes) (d : Fin 16) (c : Patricia 16 Bytes) :
    nodes (.branch (Function.update cs d c)) + nodes (cs d) = nodes (.branch cs) + nodes c := by
  rw [nodes, nodes, sum_update nodes cs d c, sum_ways nodes cs d]
  omega

variable (sha3) in
theorem nodes_child (cs : Fin 16 → Patricia 16 Bytes) (d : Fin 16) :
    (beside sha3 cs d).card + nodes (cs d) + 1 ≤ nodes (.branch cs) := by
  rw [nodes, sum_ways nodes cs d, beside, Multiset.card_sum]
  have least : ∑ e ∈ Finset.univ.erase d, (refs sha3 (cs e)).card ≤ ∑ e ∈ Finset.univ.erase d,
      nodes (cs e) :=
    Finset.sum_le_sum fun e _ => (card_refs sha3 (cs e)).1
  omega

theorem nodes_single (a : Fin 16) (n : Patricia 16 Bytes) :
    nodes (.branch (Patricia.single a n)) = nodes n + 1 := by
  have changed := nodes_update (fun _ => .empty) a n
  have none : nodes (.branch fun _ => .empty) = 1 := rfl
  have bare : nodes .empty = 0 := rfl
  rw [none, bare] at changed
  rw [Patricia.single]
  omega

theorem nodes_retail {n : Patricia 16 Bytes} (pair : n.isPair = true) (q : List Nibble) :
    nodes (n.retail q) ≤ nodes n := by
  cases n with
  | empty => cases pair
  | branch cs => cases pair
  | leaf k w => exact le_rfl
  | ext k c =>
      cases q with
      | nil => exact Nat.le_succ _
      | cons d q => exact le_rfl

theorem nodes_extend (p : List Nibble) (c : Patricia 16 Bytes) :
    nodes (Patricia.extend p c) ≤ nodes c + 1 := by
  cases p with
  | nil => exact Nat.le_succ _
  | cons d p => exact le_rfl

theorem nodes_fork {a b : Fin 16} (differ : a ≠ b) (m : Patricia 16 Bytes) (k : List Nibble)
    (v : Bytes) :
    nodes (.branch (Function.update (Patricia.single a m) b (.leaf k v))) = nodes m + 2 := by
  have changed := nodes_update (Patricia.single a m) b (.leaf k v)
  have none : Patricia.single a m b = .empty := by
    rw [Patricia.single_apply, if_neg (Ne.symm differ)]
  have bare : nodes .empty = 0 := rfl
  have one : nodes (.leaf k v) = 1 := rfl
  rw [none, nodes_single, bare, one] at changed
  omega

theorem nodes_diverge {n : Patricia 16 Bytes} {p l k : List Nibble} {a b : Nibble}
    (pair : n.isPair = true) (differ : a ≠ b) (parts : n.key = p ++ a :: l) (v : Bytes) :
    nodes (n.diverge (p ++ b :: k) v) ≤ nodes n + 3 := by
  have least := nodes_retail pair l
  have top :=
    nodes_extend p (.branch (Function.update (Patricia.single a (n.retail l)) b (.leaf k v)))
  rw [nodes_fork differ] at top
  rw [Patricia.diverge_eq v differ parts]
  omega

/-! The whole insertion -/

theorem sized_diverge {n : Patricia 16 Bytes} {p l k : List Nibble} {a b : Nibble}
    (pair : n.isPair = true) (sized : Sized n) (differ : a ≠ b) (parts : n.key = p ++ a :: l)
    (short : (p ++ b :: k).length + 2 < 2 ^ 31) (small : v.length < 2 ^ 62) :
    Sized (n.diverge (p ++ b :: k) v) := by
  have own := key_short pair sized
  rw [parts, List.length_append] at own
  rw [List.length_append, List.length_cons] at short
  have fork : Sized (.branch (Function.update (Patricia.single a (n.retail l)) b (.leaf k v))) :=
    sized_update
      (sized_single
        (retail_sized sized (by rw [parts, List.length_append, List.length_cons]; omega)))
      ⟨by omega, small⟩
  rw [Patricia.diverge_eq v differ parts]
  cases p with
  | nil => exact fork
  | cons e p => exact ⟨by omega, fork⟩

theorem diverge_sized {n : Patricia 16 Bytes} {k : List Nibble} (pair : n.isPair = true)
    (canonical : n.Canonical) (apart : Patricia.Apart k n) (sized : Sized n) (behind : ¬n.key <+: k)
    (short : k.length + 2 < 2 ^ 31) (small : v.length < 2 ^ 62) : Sized (n.diverge k v) ∧
    nodes (n.diverge k v) ≤ nodes n + 3 := by
  rcases Lib.parts n.key k with start | start | ⟨p, a, b, l, k, differ, parts, rfl⟩
  · exact absurd start (apart.beside canonical pair behind)
  · exact absurd start behind
  · exact ⟨sized_diverge pair sized differ parts short small, nodes_diverge pair differ parts v⟩

theorem insert_sized {t : Patricia 16 Bytes} {k : List Nibble} (canonical : t.Canonical)
    (apart : Patricia.Apart k t) (sized : Sized t) (short : k.length + 2 < 2 ^ 31)
    (small : v.length < 2 ^ 62) :
    Sized (t.insert k v) ∧ nodes (t.insert k v) ≤ nodes t + 3 := by
  induction t generalizing k with
  | empty => exact ⟨⟨short, small⟩, by simp [Patricia.insert, nodes]⟩
  | leaf l w =>
      rw [Patricia.insert]
      split_ifs with same
      · exact ⟨⟨sized.1, small⟩, Nat.le_add_right _ 3⟩
      · refine diverge_sized rfl canonical apart sized (fun start => ?_) short small
        exact same (apart l w (Patricia.find_leaf.mpr ⟨rfl, rfl⟩) (.inl start))
  | ext l c ih =>
      rw [Patricia.insert]
      split_ifs with start
      · rcases start with ⟨k', rfl⟩
        rw [List.length_append] at short
        rw [List.drop_left]
        rcases ih canonical.2.2 apart.ext sized.2 (by omega) with ⟨inner, few⟩
        exact ⟨⟨sized.1, inner⟩, Nat.add_le_add_right few 1⟩
      · exact diverge_sized rfl canonical apart sized start short small
  | branch cs ih =>
      cases k with
      | nil => exact ⟨sized, Nat.le_add_right _ 3⟩
      | cons d k =>
          rw [List.length_cons] at short
          rcases ih d (canonical.2 d) apart.branch (sized d) (by omega) with ⟨inner, few⟩
          rw [Patricia.insert]
          refine ⟨sized_update sized inner, ?_⟩
          have changed := nodes_update cs d ((cs d).insert k v)
          omega

include bounded free

theorem merges_fork {n : Patricia 16 Bytes} {l k : List Nibble} {a b : Nibble}
    (pair : n.isPair = true) (sized : Sized n) (parts : n.key = a :: l) (fits : key.Fits)
    (split : key.toList = b :: k) (differ : a ≠ b) (short : key.toList.length + 2 < 2 ^ 31)
    (small : v.length < 2 ^ 62) (plain : inLine = true → (text sha3 n).length < 32)
    (after : ∀ x ∈ texts sha3
      (.branch (Function.update (Patricia.single a (n.retail l)) b (.leaf k v))), x ∈ known)
    (null : rlpNull ∈ known) (room : nodes n + others.card + 3 < 2 ^ 32) (enough : 3 ≤ fuel) :
    Merges sha3 known fuel key v inLine n
      (.branch (Function.update (Patricia.single a (n.retail l)) b (.leaf k v))) others := by
  rcases Nat.exists_eq_add_of_le' enough with ⟨fuel, rfl⟩
  rcases fits.uncons split with ⟨-, fits', rest⟩
  have sized' := retail_sized sized (q := l) (by rw [parts]; exact Nat.le_succ _)
  have old := after _ (texts_child _ a (by
    rw [Function.update_of_ne differ, Patricia.single_apply, if_pos rfl]
    exact mem_texts _))
  have new := after _ (texts_child _ b (by rw [Function.update_self]; exact mem_texts _))
  have bare : Patricia.single a (n.retail l) b = .empty := by
    rw [Patricia.single_apply, if_neg (Ne.symm differ)]
  have few : (beside sha3 (Patricia.single a (n.retail l)) b).card ≤ nodes n := by
    have under := @below_branch sha3 (Patricia.single a (n.retail l)) b
    rw [bare, refs_empty, zero_add, below_single] at under
    rw [← under]
    exact (card_refs sha3 _).1.trans (nodes_retail pair l)
  rw [split, List.length_cons] at short
  have leaf : Sized (.leaf k v) := ⟨by omega, small⟩
  have empty : Merges sha3 known (fuel + 1) (key.mid 1) v true .empty (.leaf (key.mid 1).toList v)
      (beside sha3 (Patricia.single a (n.retail l)) b + others) :=
      merges_empty fits' (by rw [rest]; omega)
  rw [rest] at empty
  have inner : MergesBelow sha3 known (fuel + 1) (key.mid 1) v (Patricia.single a (n.retail l) b)
    (.leaf k v)
      (beside sha3 (Patricia.single a (n.retail l)) b + others) := by
    rw [bare]
    refine Merges.below bounded free trivial leaf null new ?_ empty
    rw [below, zero_add, Multiset.card_add]
    omega
  refine Merges.branched pair sized parts fits split differ old ?_ plain ?_
  · have under := (card_refs sha3 n).2
    rw [Multiset.card_add]
    omega
  · exact inner.branch (sized_single sized') fits split

theorem merges_diverge {n : Patricia 16 Bytes} (pair : n.isPair = true) (sized : Sized n)
    (fits : key.Fits) (short : key.toList.length + 2 < 2 ^ 31) (small : v.length < 2 ^ 62)
    (behind : ¬n.key <+: key.toList) (ahead : ¬key.toList <+: n.key)
    (plain : inLine = true → (text sha3 n).length < 32) (before : ∀ x ∈ texts sha3 n, x ∈ known)
    (after : ∀ x ∈ texts sha3 (n.diverge key.toList v), x ∈ known) (null : rlpNull ∈ known)
    (room : nodes n + others.card + 4 < 2 ^ 32) (enough : 5 ≤ fuel) :
    Merges sha3 known fuel key v inLine n (n.diverge key.toList v) others := by
  rcases Lib.parts n.key key.toList with start | start | ⟨p, a, b, l, k, differ, parts, split⟩
  · exact absurd start ahead
  · exact absurd start behind
  rw [split, Patricia.diverge_eq v differ parts] at after ⊢
  cases p with
  | nil =>
      exact merges_fork bounded free pair sized parts fits split differ short small plain after null
        (by omega) (by omega)
  | cons e p =>
      rcases Nat.exists_eq_add_of_le' enough with ⟨fuel, rfl⟩
      have inside : (e :: p).length ≤ key.toList.length := by
        rw [split, List.length_append]
        omega
      rcases fits.mid inside with ⟨fits', rest⟩
      rw [split, List.drop_left] at rest
      have tail : a :: l <:+ n.key := by
        rw [parts]
        exact List.suffix_append _ _
      have sized' := retail_sized sized tail.length_le
      have pair' : (n.retail (a :: l)).isPair = true := by
        cases n <;> first | rfl | cases pair
      have parts' : (n.retail (a :: l)).key = a :: l := by
        cases n <;> first | rfl | cases pair
      have again : (n.retail (a :: l)).retail l = n.retail l := by
        cases n <;> rfl
      have least := nodes_retail pair (a :: l)
      have forked : Merges sha3 known (fuel + 3) (key.mid (e :: p).length) v
          (decide ((text sha3 (n.retail (a :: l))).length < 32)) (n.retail (a :: l))
          (.branch (Function.update (Patricia.single a ((n.retail (a :: l)).retail l)) b
            (.leaf k v))) others := by
        refine merges_fork bounded free pair' sized' parts' fits' rest differ ?_ small
          of_decide_eq_true ?_ null
          (by omega) (by omega)
        · rw [rest]
          rw [split, List.length_append] at short
          omega
        · rw [again]
          exact fun x member => after x (texts_ext _ _ member)
      rw [again] at forked
      have whole :=
        sized_diverge pair sized differ parts (v := v) (k := k) (by rw [← split]; exact short) small
      rw [Patricia.diverge_eq v differ parts] at whole
      have lower : MergesBelow sha3 known (fuel + 3) (key.mid (e :: p).length) v (n.retail (a :: l))
          (.branch (Function.update (Patricia.single a (n.retail l)) b (.leaf k v))) others := by
        refine Merges.below bounded free sized' whole.2
          (before _ (texts_retail pair (List.cons_ne_nil a l) tail))
          (after _ (texts_ext _ _ (mem_texts _))) ?_ forked
        have under :=
          (card_refs sha3
            (.branch (Function.update (Patricia.single a (n.retail l)) b (.leaf k v)))).2
        have few := nodes_retail pair l
        rw [nodes_fork differ] at under
        rw [Multiset.card_add]
        omega
      refine Merges.cleved pair sized (List.cons_ne_nil e p) parts fits split differ
        (before _ (texts_retail pair (List.cons_ne_nil a l) tail)) ?_ plain ?_
      · have under := (card_refs sha3 n).2
        rw [Multiset.card_add]
        omega
      · refine lower.ext ⟨whole.1, sized'⟩ fits ?_
        rw [split]
        exact List.prefix_append _ _

theorem merges_insert {t : Patricia 16 Bytes} (canonical : t.Canonical)
    (apart : Patricia.Apart key.toList t) (sized : Sized t) (fits : key.Fits)
    (short : key.toList.length + 2 < 2 ^ 31) (small : v.length < 2 ^ 62)
    (plain : inLine = true → (text sha3 t).length < 32) (before : ∀ x ∈ texts sha3 t, x ∈ known)
    (after : ∀ x ∈ texts sha3 (t.insert key.toList v), x ∈ known) (null : rlpNull ∈ known)
    (room : nodes t + others.card + 5 < 2 ^ 32) (enough : key.toList.length + 5 ≤ fuel) :
    Merges sha3 known fuel key v inLine t (t.insert key.toList v) others := by
  induction t generalizing key fuel inLine others with
  | empty =>
      rcases Nat.exists_eq_add_of_le' (show 1 ≤ fuel by omega) with ⟨fuel, rfl⟩
      exact merges_empty fits short
  | leaf l w =>
      rw [Patricia.insert] at after ⊢
      by_cases same : l = key.toList
      · rcases Nat.exists_eq_add_of_le' (show 1 ≤ fuel by omega) with ⟨fuel, rfl⟩
        subst same
        rw [if_pos rfl]
        exact merges_leaf sized fits plain
      · rw [if_neg same] at after ⊢
        have off : ¬l <+: key.toList :=
          fun start => same (apart l w (Patricia.find_leaf.mpr ⟨rfl, rfl⟩) (.inl start))
        exact merges_diverge bounded free rfl sized fits short small off
          (apart.beside canonical rfl off) plain before after
          null (by omega) (by omega)
  | ext l c ih =>
      have whole := insert_sized canonical apart sized short small
      rw [Patricia.insert] at after whole ⊢
      by_cases start : l <+: key.toList
      · rcases Nat.exists_eq_add_of_le' (show 1 ≤ fuel by omega) with ⟨fuel, rfl⟩
        rcases fits.mid start.length_le with ⟨fits', rest⟩
        rcases start with ⟨k, split⟩
        have positive := List.length_pos_of_ne_nil canonical.1
        rw [← split, if_pos (List.prefix_append l k)] at after whole ⊢
        rw [← split, List.drop_left] at rest
        rw [List.drop_left, ← rest] at after whole ⊢
        rw [← split, ← rest] at apart
        rw [← split, List.length_append] at short enough
        rw [nodes] at room
        have inner : Merges sha3 known fuel (key.mid l.length) v
          (decide ((text sha3 c).length < 32)) c
            (c.insert (key.mid l.length).toList v) others :=
            ih canonical.2.2 apart.ext sized.2 fits' (by rw [rest]; omega)
          of_decide_eq_true (fun x member => before x (texts_ext _ _ member))
          (fun x member => after x (texts_ext _ _ member)) (by omega) (by rw [rest]; omega)
        refine (Merges.below bounded free sized.2 whole.1.2 (before _ (texts_ext _ _ (mem_texts _)))
          (after _ (texts_ext _ _ (mem_texts _))) ?_ inner).ext sized fits ⟨k, split⟩
        have under := (card_refs sha3 (c.insert (key.mid l.length).toList v)).2
        have few := whole.2
        rw [nodes, nodes] at few
        rw [Multiset.card_add]
        omega
      · rw [if_neg start] at after ⊢
        exact merges_diverge bounded free rfl sized fits short small start
          (apart.beside canonical rfl start) plain before
          after null (by omega) (by omega)
  | branch cs ih =>
      rcases apart.split canonical with ⟨d, k, split⟩
      rcases Nat.exists_eq_add_of_le' (show 1 ≤ fuel by omega) with ⟨fuel, rfl⟩
      rcases fits.uncons split with ⟨-, fits', rest⟩
      rw [split] at after apart short enough ⊢
      rw [List.length_cons] at short enough
      rw [Patricia.insert] at after ⊢
      have inside := nodes_child sha3 cs d
      have grown := insert_sized (canonical.2 d) apart.branch (sized d) (by omega) small
      rw [← rest] at apart after grown ⊢
      have few : (beside sha3 cs d + others).card = (beside sha3 cs d).card + others.card :=
        Multiset.card_add _ _
      have inner : Merges sha3 known fuel (key.mid 1) v (decide ((text sha3 (cs d)).length < 32))
        (cs d)
          ((cs d).insert (key.mid 1).toList v) (beside sha3 cs d + others) :=
          ih d (canonical.2 d) apart.branch (sized d) fits'
        (by rw [rest]; omega) of_decide_eq_true (fun x member => before x (texts_child _ _ member))
        (fun x member => after x (texts_child _ d (by rw [Function.update_self]; exact member)))
          (by omega)
        (by rw [rest]; omega)
      refine (Merges.below bounded free (sized d) grown.1 (before _ (texts_child _ d (mem_texts _)))
        (after _ (texts_child _ d (by rw [Function.update_self]; exact mem_texts _))) ?_
          inner).branch sized fits split
      have under := (card_refs sha3 ((cs d).insert (key.mid 1).toList v)).2
      rw [Multiset.card_add]
      omega

end Nodes

end Trie

end UtispaceChain
