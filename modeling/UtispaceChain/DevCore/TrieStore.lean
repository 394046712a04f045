import UtispaceChain.DevCore.TrieRemove

/-! Tries that share a node database, over any sequence of insertions, removals, commits and
reopenings. -/

namespace UtispaceChain

namespace Trie

open Lib OverlayDB

section Roots

variable {sha3 : Bytes → H256} {known : Set Bytes} {others : Multiset H256} {t : Patricia 16 Bytes}
    {db : OverlayDB} {key v : Bytes}

variable (key) in
theorem slice_fits (short : 2 * key.length + 2 < 2 ^ 31) :
    (⟨key, 0⟩ : NibbleSlice).Fits ∧ (⟨key, 0⟩ : NibbleSlice).toList = asNibbles key :=
  ⟨⟨by change 2 * key.length < 2 ^ 32; omega, Nat.zero_le _⟩, rfl⟩

theorem rootRefs_eq (t : Patricia 16 Bytes) : rootRefs sha3 t + others =
    own sha3 t +
      (below sha3 t + ((if (text sha3 t).length < 32 then {sha3 (text sha3 t)} else 0) +
        others)) := by
  rw [rootRefs, add_assoc]
  split_ifs with short
  · rw [own_short short, zero_add, add_left_comm]
  · rw [own_long (not_lt.mp short), zero_add]

variable (sha3 others) in
theorem card_extra (t : Patricia 16 Bytes) :
    ((if (text sha3 t).length < 32 then {sha3 (text sha3 t)} else 0) + others).card ≤
      others.card + 1 := by
  rw [Multiset.card_add, Nat.add_comm]
  refine Nat.add_le_add_left ?_ _
  split_ifs
  · exact (Multiset.card_singleton _).le
  · exact Nat.zero_le 1

variable (others) in
theorem new_root {t' : Patricia 16 Bytes} (sized' : Sized t') (here' : text sha3 t' ∈ known)
    (room : (below sha3 t' + others).card + 1 < 2 ^ 32)
    (accounts : Accounts sha3 known db
      (below sha3 t' +
        ((if (text sha3 t).length < 32 then {sha3 (text sha3 t)} else 0) + others))) :
    let db' := if (text sha3 t).length < 32 then db.kill (sha3 (text sha3 t)) else db
    Accounts sha3 known (db'.insert (sha3 (text sha3 t')) (text sha3 t'))
      (rootRefs sha3 t' + others) ∧
      (db'.insert (sha3 (text sha3 t')) (text sha3 t')).disk = db.disk := by
  intro db'
  rw [add_left_comm] at accounts
  have left : Accounts sha3 known db' (below sha3 t' + others) := by
    unfold db'
    split_ifs at accounts ⊢ with short
    · exact accounts.kill
    · rw [zero_add] at accounts
      exact accounts
  refine ⟨?_, disk_insert.trans disk_leave⟩
  rw [rootRefs, add_assoc]
  exact left.insert here' (text_item sha3 sized').1 room

theorem insert_root (bounded : ∀ b, sha3 b < 2 ^ 256) (free : Set.InjOn sha3 known)
    (canonical : t.Canonical) (apart : Patricia.Apart (asNibbles key) t) (sized : Sized t)
    (short : 2 * key.length + 2 < 2 ^ 31) (small : v.length < 2 ^ 62)
    (before : ∀ x ∈ texts sha3 t, x ∈ known)
    (after : ∀ x ∈ texts sha3 (t.insert (asNibbles key) v), x ∈ known) (null : rlpNull ∈ known)
    (room : nodes t + others.card + 6 < 2 ^ 32)
    (accounts : Accounts sha3 known db (rootRefs sha3 t + others)) :
    ∃ db', insert sha3 db (sha3 (text sha3 t)) key v =
      some (sha3 (text sha3 (t.insert (asNibbles key) v)), db') ∧
      Accounts sha3 known db' (rootRefs sha3 (t.insert (asNibbles key) v) + others) ∧
      db'.disk = db.disk := by
  rcases slice_fits key short with ⟨fits, whole⟩
  have long : (asNibbles key).length = 2 * key.length := length_asNibbles key
  have found := accounts.root_found free (before _ (mem_texts t))
  have item := text_item sha3 sized
  rcases insert_sized canonical apart sized (by omega) small with ⟨sized', few⟩
  rw [rootRefs_eq] at accounts
  have extra := card_extra sha3 others t
  have merges : Merges sha3 known (2 * key.length + 6) ⟨key, 0⟩ v false t
    (t.insert (asNibbles key) v)
      ((if (text sha3 t).length < 32 then {sha3 (text sha3 t)} else 0) + others) :=
    merges_insert bounded free canonical apart sized fits (by rw [whole]; omega) small
      (fun line => nomatch line) before
      after null (by omega) (by rw [whole]; omega)
  rcases merges db accounts with ⟨db₁, merged, accounts₁, disk₁⟩
  have under := (card_refs sha3 (t.insert (asNibbles key) v)).2
  rcases new_root others sized' (after _ (mem_texts _)) (by rw [Multiset.card_add]; omega) accounts₁
    with
    ⟨accounts', disk'⟩
  refine ⟨_, ?_, accounts', disk'.trans disk₁⟩
  rw [insert]
  dsimp only
  rw [found, if_neg item.1, item.construct, Option.bind_some, merged, Option.map_some]

theorem remove_root (bounded : ∀ b, sha3 b < 2 ^ 256) (free : Set.InjOn sha3 known)
    (canonical : t.Canonical) (apart : Patricia.Apart (asNibbles key) t) (bound : Short t)
    (short : 2 * key.length + 2 < 2 ^ 31) (before : ∀ x ∈ texts sha3 t, x ∈ known)
    (after : ∀ x ∈ texts sha3 ((t.remove (asNibbles key)).getD t), x ∈ known)
    (null : rlpNull ∈ known) (room : nodes t + others.card + 6 < 2 ^ 32)
    (accounts : Accounts sha3 known db (rootRefs sha3 t + others)) :
    ∃ db', remove sha3 db (sha3 (text sha3 t)) key =
        some (sha3 (text sha3 ((t.remove (asNibbles key)).getD t)), db') ∧
      Accounts sha3 known db' (rootRefs sha3 ((t.remove (asNibbles key)).getD t) + others) ∧
      db'.disk = db.disk ∧
      (t.find (asNibbles key) = none → db' = db) := by
  rcases slice_fits key short with ⟨fits, whole⟩
  have long : (asNibbles key).length = 2 * key.length := length_asNibbles key
  have found := accounts.root_found free (before _ (mem_texts t))
  have item := text_item sha3 (canonical_sized canonical bound)
  have parted := accounts
  rw [rootRefs_eq] at parted
  have extra := card_extra sha3 others t
  have deletes : Deletes sha3 known (2 * key.length + 2) ⟨key, 0⟩ t
      ((if (text sha3 t).length < 32 then {sha3 (text sha3 t)} else 0) + others) := by
    refine deletes_remove bounded free canonical apart bound fits before
      (fun t' removed x member => ?_) null (by omega)
      (by rw [whole]; omega)
    rw [whole] at removed
    rw [removed] at after
    exact after x member
  rcases deletes db parted with ⟨absent, present⟩
  rw [whole] at absent present
  rw [remove]
  dsimp only
  rw [found, item.construct, Option.bind_some]
  cases removed : t.remove (asNibbles key) with
  | none =>
      rw [absent removed, Option.map_some, if_pos rfl, Option.getD_none]
      exact ⟨db, rfl, accounts, rfl, fun _ => rfl⟩
  | some t' =>
      rcases present t' removed with ⟨db₁, deleted, accounts₁, disk₁⟩
      rcases bound.remove canonical removed with ⟨canonical', bound'⟩
      have sized' := canonical_sized canonical' bound'
      have under := (card_refs sha3 t').2
      have fewer := nodes_remove removed
      rw [removed, Option.getD_some] at after
      rcases new_root others sized' (after _ (mem_texts _)) (by rw [Multiset.card_add]; omega)
        accounts₁ with
        ⟨accounts', disk'⟩
      rw [deleted, Option.map_some, if_neg (text_item sha3 sized').1, Option.getD_some]
      refine ⟨_, rfl, accounts', disk'.trans disk₁, fun none => ?_⟩
      rw [Patricia.remove_eq_none.mpr none] at removed
      cases removed

end Roots

/-! Reading a trie whose nodes are all there -/

section Reading

variable {sha3 : Bytes → H256} {node : H256 → Bytes} {t : Patricia 16 Bytes}

def Held (sha3 : Bytes → H256) (node : H256 → Bytes) (t : Patricia 16 Bytes) : Prop :=
  ∀ x ∈ texts sha3 t, sha3 x ∈ below sha3 t → node (sha3 x) = x

theorem own_mem (long : 32 ≤ (text sha3 t).length) : sha3 (text sha3 t) ∈ own sha3 t := by
  rw [own_long long]
  exact Multiset.mem_singleton_self _

theorem Held.ext {l : List Nibble} {c : Patricia 16 Bytes} (held : Held sha3 node (.ext l c)) :
    Held sha3 node c ∧ (32 ≤ (text sha3 c).length → node (sha3 (text sha3 c)) = text sha3 c) :=
  ⟨fun x member used => held x (texts_ext l c member) (Multiset.mem_add.mpr (.inr used)),
    fun long =>
    held _ (texts_ext l c (mem_texts c)) (Multiset.mem_add.mpr (.inl (own_mem long)))⟩

theorem Held.branch {cs : Fin 16 → Patricia 16 Bytes} (held : Held sha3 node (.branch cs))
    (d : Fin 16) :
    Held sha3 node (cs d) ∧
    (32 ≤ (text sha3 (cs d)).length → node (sha3 (text sha3 (cs d))) = text sha3 (cs d)) := by
  have inside : ∀ h ∈ refs sha3 (cs d), h ∈ below sha3 (.branch cs) := by
    intro h member
    rw [below_branch cs d]
    exact Multiset.mem_add.mpr (.inl member)
  exact ⟨fun x member used => held x (texts_child cs d member)
    (inside _ (Multiset.mem_add.mpr (.inr used))), fun long =>
    held _ (texts_child cs d (mem_texts _)) (inside _ (Multiset.mem_add.mpr (.inl (own_mem long))))⟩

theorem atAux_held (bounded : ∀ b, sha3 b < 2 ^ 256) (sized : Sized t) (canonical : t.Canonical)
    {fuel : Nat} {key : NibbleSlice} (held : Held sha3 node t) (fits : key.Fits)
    (enough : key.toList.length < fuel) :
    atAux node fuel (text sha3 t) key = some ((t.find key.toList).getD []) := by
  induction t generalizing fuel key with
  | empty =>
      rcases Nat.exists_eq_add_of_lt enough with ⟨fuel, rfl⟩
      rfl
  | leaf k v =>
      rcases Nat.exists_eq_add_of_lt enough with ⟨fuel, rfl⟩
      rcases text_leaf sha3 sized with ⟨part, reads⟩
      rcases node_shape reads.full reads.size with ⟨items, read, two, there, shape⟩
      rw [atAux, if_neg there, read, Option.bind_some, if_neg shape, if_pos two, reads.keyOf,
        Option.bind_some, reads.isLeaf, Option.bind_some, fits.same reads.fits, reads.toList,
        reads.item, Option.bind_some, Patricia.find]
      by_cases same : key.toList = k
      · rw [if_pos ⟨decide_eq_true same, rfl⟩, if_pos same]
        exact Rlp.toBytes_appendBytes v (value_short sized.2)
      · rw [if_neg fun both => same (of_decide_eq_true both.1), if_neg fun both => both.2 rfl,
          if_neg same]
        rfl
  | ext k c ih =>
      rcases Nat.exists_eq_add_of_lt enough with ⟨fuel, rfl⟩
      rcases text_ext sha3 sized with ⟨part, reads⟩
      rcases held.ext with ⟨below, found⟩
      have full := Patricia.isBranch_full canonical.2.1
      rcases node_shape reads.full reads.size with ⟨items, read, two, there, shape⟩
      rw [atAux, if_neg there, read, Option.bind_some, if_neg shape, if_pos two, reads.keyOf,
        Option.bind_some, reads.isLeaf, Option.bind_some, if_neg fun both => Bool.false_ne_true
          both.2, fits.contains reads.fits, reads.toList, reads.item, Option.bind_some,
        entered_reference bounded sized.2 full found, Option.bind_some, Patricia.find]
      by_cases start : k <+: key.toList
      · rcases fits.mid start.length_le with ⟨fitsLeft, toListLeft⟩
        have positive := List.length_pos_of_ne_nil canonical.1
        have inside := start.length_le
        rw [if_pos ⟨decide_eq_true start, Bool.false_ne_true⟩, if_pos start, reads.fits.size,
          reads.toList, ← toListLeft]
        refine ih sized.2 canonical.2.2 below fitsLeft ?_
        rw [toListLeft, List.length_drop]
        omega
      · rw [if_neg fun both => start (of_decide_eq_true both.1), if_neg start]
        rfl
  | branch cs ih =>
      rcases Nat.exists_eq_add_of_le' (Nat.one_le_of_lt enough) with ⟨fuel, rfl⟩
      have reads := text_branch sha3 sized
      rcases node_shape reads.full (text_branch_size sha3 sized) with
        ⟨items, read, many, there, shape⟩
      have pair : ¬items.length = 2 := by omega
      rw [atAux, if_neg there, read, Option.bind_some, if_neg shape, if_neg pair]
      by_cases spent : key.size = 0
      · have value : ((entriesOf sha3 cs)[16]?).getD [] = rlpNull := by
          rw [entriesOf, List.getElem?_append_right (by simp)]
          simp
        have null : Rlp.toBytes rlpNull = some [] := by decide +kernel
        rw [if_pos spent, fits.size_eq_zero.mp spent, reads.item, Option.bind_some, value, null]
        rfl
      · rcases List.exists_cons_of_ne_nil fun none => spent (fits.size_eq_zero.mpr none) with
          ⟨d, left, split⟩
        rcases fits.uncons split with ⟨first, fitsLeft, toListLeft⟩
        rcases held.branch d with ⟨below, found⟩
        rw [if_neg spent, first, Option.bind_some, reads.item, entriesOf_get, Option.bind_some,
          split, Patricia.find, ← toListLeft, reference_isEmpty bounded (sized d)]
        cases full : (cs d).isEmpty with
        | true =>
            rw [if_pos rfl, Patricia.eq_empty full]
            rfl
        | false =>
            rw [if_neg Bool.false_ne_true, entered_reference bounded (sized d) full found,
              Option.bind_some]
            refine ih d (sized d) (canonical.2 d) below fitsLeft ?_
            rw [split, List.length_cons] at enough
            rw [toListLeft]
            omega

theorem lookup_held (bounded : ∀ b, sha3 b < 2 ^ 256) (sized : Sized t) (canonical : t.Canonical)
    (held : Held sha3 node t) (root : node (sha3 (text sha3 t)) = text sha3 t) {key : Bytes}
    (short : 2 * key.length + 2 < 2 ^ 31) :
    lookup node (2 * key.length + 1) (sha3 (text sha3 t)) key =
      some ((t.find (asNibbles key)).getD []) := by
  rcases slice_fits key short with ⟨fits, whole⟩
  rw [lookup, root, (text_item sha3 sized).construct, Option.bind_some, ← whole]
  refine atAux_held bounded sized canonical held fits ?_
  rw [whole, length_asNibbles]
  omega

end Reading

/-! Tries in one database, and what they stand for -/

/-- What can be done to tries that share a database; `reopen` counts the commits back. -/
inductive Op (n : Nat)
  | insert (i : Fin n) (key value : Bytes)
  | remove (i : Fin n) (key : Bytes)
  | commit
  | reopen (back : Nat)
  | enforceRefs (on : Bool)

/-- The database, the roots, and the roots at each commit, the last one first. -/
structure Store (n : Nat) where
  db : OverlayDB
  roots : Fin n → H256
  saved : List (Fin n → H256)

section Definitions

variable {n : Nat} (sha3 : Bytes → H256)

def Store.step (s : Store n) : Op n → Option (Store n)
  | .insert i key value => (insert sha3 s.db (s.roots i) key value).map fun r =>
      { s with db := r.2, roots := Function.update s.roots i r.1 }
  | .remove i key => (remove sha3 s.db (s.roots i) key).map fun r =>
      { s with db := r.2, roots := Function.update s.roots i r.1 }
  | .commit => some { s with
      db := s.db.commit
      saved := if s.db.disk.isSome then s.roots :: s.saved else s.saved }
  | .reopen back =>
      some ((s.saved[back]?).elim s fun roots => { s with db := s.db.rollback, roots })
  | .enforceRefs on => some { s with db := { s.db with enforceRefs := on } }

def Store.run : Store n → List (Op n) → Option (Store n)
  | s, [] => some s
  | s, op :: ops => (s.step sha3 op).bind fun s => Store.run s ops

def Store.start (n : Nat) (disk : Bool) : Store n where
  db := (List.finRange n).foldl (fun db _ => (init sha3 db).2) ⟨∅, false, if disk then
    some fun _ => [] else none⟩
  roots _ := sha3 rlpNull
  saved := []

structure Versions (α : Type) (n : Nat) where
  now : Fin n → α
  saved : List (Fin n → α)

section Versions

variable {α : Type} (insert : α → Bytes → Bytes → α) (remove : α → Bytes → α) (disk : Bool)

def Versions.step (s : Versions α n) : Op n → Versions α n
  | .insert i key value => { s with now := Function.update s.now i (insert (s.now i) key value) }
  | .remove i key => { s with now := Function.update s.now i (remove (s.now i) key) }
  | .commit => if disk then { s with saved := s.now :: s.saved } else s
  | .reopen back => (s.saved[back]?).elim s fun now => { s with now }
  | .enforceRefs _ => s

end Versions

abbrev Contents (n : Nat) := Versions (Bytes → Bytes) n

def Contents.step (disk : Bool) : Contents n → Op n → Contents n :=
  Versions.step (fun m key value => Function.update m key value)
    (fun m key => Function.update m key []) disk

def Contents.start (n : Nat) : Contents n := ⟨fun _ _ => [], []⟩

abbrev Trees (n : Nat) := Versions (Patricia 16 Bytes) n

def Trees.step (disk : Bool) : Trees n → Op n → Trees n :=
  Versions.step (fun t key value => t.insert (asNibbles key) value)
    (fun t key => (t.remove (asNibbles key)).getD t) disk

def Trees.start (n : Nat) : Trees n := ⟨fun _ => .empty, []⟩

def Trees.visited (disk : Bool) : Trees n → List (Op n) → List Bytes
  | s, [] => (List.finRange n).flatMap fun i => texts sha3 (s.now i)
  | s, op :: ops =>
      ((List.finRange n).flatMap fun i => texts sha3 (s.now i)) ++
        Trees.visited disk (Trees.step disk s op) ops

end Definitions

structure Versions.Related {α β : Type} {n : Nat} (R : α → β → Prop) (s : Versions α n)
    (c : Versions β n) : Prop where
  now : ∀ i, R (s.now i) (c.now i)
  saved : List.Forall₂ (fun xs ys => ∀ i, R (xs i) (ys i)) s.saved c.saved

theorem Versions.Related.step {α β : Type} {n : Nat} {R R' : α → β → Prop} {s : Versions α n}
    {c : Versions β n} {op : Op n} {f : α → Bytes → Bytes → α} {g : α → Bytes → α}
    {f' : β → Bytes → Bytes → β} {g' : β → Bytes → β} {disk : Bool}
    (related : s.Related R c) (later : ∀ x y, R x y → R' x y)
    (insert : ∀ i key value, op = .insert i key value →
      R' (f (s.now i) key value) (f' (c.now i) key value)) (remove : ∀ i key, op = .remove i key →
        R' (g (s.now i) key) (g' (c.now i) key)) :
    (Versions.step f g disk s op).Related R' (Versions.step f' g' disk c op) := by
  have both : s.Related R' c :=
    ⟨fun i => later _ _ (related.now i), related.saved.imp fun _ _ each i => later _ _ (each i)⟩
  have changed : ∀ (i : Fin n) {x : α} {y : β}, R' x y →
      Versions.Related R' { s with now := Function.update s.now i x }
        { c with now := Function.update c.now i y } := by
    refine fun i x y here => ⟨fun j => ?_, both.saved⟩
    dsimp only
    rw [Function.update_apply, Function.update_apply]
    split_ifs
    · exact here
    · exact both.now j
  cases op with
  | insert i key value => exact changed i (insert i key value rfl)
  | remove i key => exact changed i (remove i key rfl)
  | commit =>
      unfold Versions.step
      cases disk with
      | false => exact both
      | true => exact ⟨both.now, .cons both.now both.saved⟩
  | reopen back =>
      unfold Versions.step
      dsimp only
      cases left : s.saved[back]? with
      | none =>
          have right : c.saved[back]? = none := by
            rw [List.getElem?_eq_none_iff, ← both.saved.length_eq]
            exact List.getElem?_eq_none_iff.mp left
          rw [right]
          exact both
      | some xs =>
          rcases List.getElem?_eq_some_iff.mp left with ⟨inside, same⟩
          have inside' : back < c.saved.length := by rw [← both.saved.length_eq]; exact inside
          have each := both.saved.get inside inside'
          rw [List.get_eq_getElem, List.get_eq_getElem, same] at each
          rw [List.getElem?_eq_getElem inside']
          exact ⟨each, both.saved⟩
  | enforceRefs on => exact both

structure Keys (len : Nat) (K : Set Bytes) : Prop where
  short : ∀ key ∈ K, key.length ≤ len
  apart : ∀ a ∈ K, ∀ b ∈ K, a <+: b → a = b

def Op.Fits {n : Nat} (K : Set Bytes) : Op n → Prop
  | .insert _ key value => key ∈ K ∧ value ≠ [] ∧ value.length < 2 ^ 62
  | .remove _ key => key ∈ K
  | _ => True

theorem asNibbles_append (a b : Bytes) : asNibbles (a ++ b) = asNibbles a ++ asNibbles b := by
  induction a with
  | nil => rfl
  | cons c a ih =>
      rw [List.cons_append, asNibbles, asNibbles, ih, List.cons_append, List.cons_append]

theorem asNibbles_start {a b : Bytes} (start : asNibbles a <+: asNibbles b) : a <+: b := by
  rcases start with ⟨rest, whole⟩
  have even : rest.length % 2 = 0 := by
    have length := congrArg List.length whole
    rw [List.length_append, length_asNibbles, length_asNibbles] at length
    omega
  refine ⟨packNibbles rest, asNibbles_inj.mp ?_⟩
  rw [asNibbles_append, asNibbles_pack rest even, whole]

structure TreeOf (K : Set Bytes) (t : Patricia 16 Bytes) (m : Bytes → Bytes) : Prop where
  canonical : t.Canonical
  entry : ∀ s w, t.find s = some w → (∃ key ∈ K, s = asNibbles key) ∧ w ≠ [] ∧ w.length < 2 ^ 62
  find : ∀ key ∈ K, (t.find (asNibbles key)).getD [] = m key
  outside : ∀ key, key ∉ K → m key = []

namespace TreeOf

variable {len : Nat} {K : Set Bytes} {t : Patricia 16 Bytes} {m : Bytes → Bytes} {key value : Bytes}

theorem start : TreeOf K .empty fun _ => [] :=
  ⟨trivial, fun _ _ found => (nomatch found), fun _ _ => rfl, fun _ _ => rfl⟩

theorem length (tree : TreeOf K t m) (keys : Keys len K) {s : List Nibble} {w : Bytes}
    (found : t.find s = some w) :
    s.length ≤ 2 * len := by
  rcases (tree.entry s w found).1 with ⟨key, member, rfl⟩
  rw [length_asNibbles]
  exact Nat.mul_le_mul_left 2 (keys.short key member)

theorem bound (tree : TreeOf K t m) (keys : Keys len K) (short : 2 * len + 2 < 2 ^ 31) :
    Short t := by
  intro s w found
  rcases tree.entry s w found with ⟨-, -, small⟩
  have length := tree.length keys found
  exact ⟨by omega, small⟩

theorem apart (tree : TreeOf K t m) (keys : Keys len K) (member : key ∈ K) :
    Patricia.Apart (asNibbles key) t := by
  intro s w found near
  rcases (tree.entry s w found).1 with ⟨other, there, rfl⟩
  rcases near with start | start
  · rw [keys.apart other there key member (asNibbles_start start)]
  · rw [keys.apart key member other there (asNibbles_start start)]

theorem insert (tree : TreeOf K t m) (keys : Keys len K) (member : key ∈ K) (full : value ≠ [])
    (small : value.length < 2 ^ 62) :
    TreeOf K (t.insert (asNibbles key) value) (Function.update m key value) := by
  rcases Patricia.insert_spec value tree.canonical (tree.apart keys member) with ⟨canonical, find⟩
  refine ⟨canonical, fun s w found => ?_, fun k own => ?_, fun k other => ?_⟩
  · rw [find, Function.update_apply] at found
    split_ifs at found with same
    · cases found
      exact ⟨⟨key, member, same⟩, full, small⟩
    · exact tree.entry s w found
  · rw [find, Function.update_apply, Function.update_apply]
    by_cases same : k = key
    · rw [if_pos (congrArg asNibbles same), if_pos same]
      rfl
    · rw [if_neg fun equal => same (asNibbles_inj.mp equal), if_neg same]
      exact tree.find k own
  · have distinct : k ≠ key := fun same => other (same ▸ member)
    rw [Function.update_of_ne distinct]
    exact tree.outside k other

theorem remove (tree : TreeOf K t m) :
    TreeOf K ((t.remove (asNibbles key)).getD t) (Function.update m key []) := by
  have outside : ∀ k, k ∉ K → Function.update m key [] k = [] := by
    intro k other
    rw [Function.update_apply, tree.outside k other, ite_self]
  cases removed : t.remove (asNibbles key) with
  | none =>
      refine ⟨tree.canonical, tree.entry, fun k own => ?_, outside⟩
      rw [Option.getD_none, Function.update_apply]
      by_cases same : k = key
      · rw [if_pos same, same, Patricia.remove_eq_none.mp removed]
        rfl
      · rw [if_neg same]
        exact tree.find k own
  | some t' =>
      rcases Patricia.remove_spec tree.canonical removed with ⟨canonical, find⟩
      refine ⟨canonical, fun s w found => ?_, fun k own => ?_, outside⟩
      · rw [Option.getD_some, find, Function.update_apply] at found
        split_ifs at found
        exact tree.entry s w found
      · rw [Option.getD_some, find, Function.update_apply, Function.update_apply]
        by_cases same : k = key
        · rw [if_pos (congrArg asNibbles same), if_pos same]
          rfl
        · rw [if_neg fun equal => same (asNibbles_inj.mp equal), if_neg same]
          exact tree.find k own

end TreeOf

/-! The trees and the maps along a run -/

/-- The trees are those of the maps, now and at each commit, and grow by three nodes a step at
most. -/
structure Tracks {n : Nat} (K : Set Bytes) (steps : Nat) (s : Trees n) (c : Contents n) : Prop where
  now : ∀ i, TreeOf K (s.now i) (c.now i) ∧ nodes (s.now i) ≤ 3 * steps
  saved : List.Forall₂ (fun ts ms => ∀ i, TreeOf K (ts i) (ms i) ∧
    nodes (ts i) ≤ 3 * steps) s.saved c.saved

section Runs

variable {n len steps : Nat} {K : Set Bytes} {s : Trees n} {c : Contents n} {op : Op n}
    {disk : Bool}

theorem Tracks.step (tracks : Tracks K steps s c) (keys : Keys len K) (short : 2 * len + 2 < 2 ^ 31)
    (fits : op.Fits K) :
    Tracks K (steps + 1) (Trees.step disk s op) (Contents.step disk c op) := by
  have related : s.Related (fun t m => TreeOf K t m ∧ nodes t ≤ 3 * steps) c :=
    ⟨tracks.now, tracks.saved⟩
  have next : (Trees.step disk s op).Related (fun t m => TreeOf K t m ∧ nodes t ≤ 3 * (steps + 1))
      (Contents.step disk c op) := by
    refine related.step (fun t m both => both.imp_right fun few => by omega)
      (fun i key value same => ?_) fun i key same => ?_
    · subst same
      rcases fits with ⟨member, full, small⟩
      have length := keys.short key member
      rcases tracks.now i with ⟨tree, few⟩
      have grown := (insert_sized tree.canonical (tree.apart keys member)
        (canonical_sized tree.canonical (tree.bound keys short))
        (by rw [length_asNibbles]; omega) small).2
      exact ⟨tree.insert keys member full small, by omega⟩
    · rcases tracks.now i with ⟨tree, few⟩
      refine ⟨tree.remove, ?_⟩
      cases removed : (s.now i).remove (asNibbles key) with
      | none =>
          rw [Option.getD_none]
          omega
      | some t' =>
          have less := nodes_remove removed
          rw [Option.getD_some]
          omega
  exact ⟨next.now, next.saved⟩

variable {sha3 : Bytes → H256} {known : Set Bytes}

/-- The store has the trees: the database counts what they refer to, and what was committed is on
disk. -/
structure Store.Holds (sha3 : Bytes → H256) (known : Set Bytes) (store : Store n) (s : Trees n) :
    Prop where
  roots : store.roots = fun i => sha3 (text sha3 (s.now i))
  accounts : Accounts sha3 known store.db (∑ i, rootRefs sha3 (s.now i))
  saved : store.saved = s.saved.map fun ts i => sha3 (text sha3 (ts i))
  kept : ∀ ts ∈ s.saved, ∀ h ∈ ∑ i, rootRefs sha3 (ts i), store.db.onDisk h ≠ []
  old : ∀ ts ∈ s.saved, ∀ i, ∀ x ∈ texts sha3 (ts i), x ∈ known

variable (sha3) in
theorem card_others (few : ∀ i, nodes (s.now i) ≤ 3 * steps) (i : Fin n) :
    nodes (s.now i) + (∑ j ∈ Finset.univ.erase i, rootRefs sha3 (s.now j)).card ≤
      n * (3 * steps + 1) := by
  have each : ∀ j ∈ Finset.univ.erase i, (rootRefs sha3 (s.now j)).card ≤ 3 * steps + 1 := by
    intro j _
    have under := (card_refs sha3 (s.now j)).2
    have least := few j
    rw [rootRefs, Multiset.card_add, Multiset.card_singleton]
    omega
  have total := Finset.sum_le_card_nsmul _ _ _ each
  have count : (Finset.univ.erase i).card = n - 1 := by
    rw [Finset.card_erase_of_mem (Finset.mem_univ i), Finset.card_univ, Fintype.card_fin]
  have positive : n = n - 1 + 1 := by have := i.isLt; omega
  have split : n * (3 * steps + 1) = (n - 1) * (3 * steps + 1) + (3 * steps + 1) := by
    rw [← Nat.succ_mul, Nat.succ_eq_add_one, ← positive]
  have least := few i
  rw [count, smul_eq_mul] at total
  rw [Multiset.card_sum, split]
  omega

theorem Store.Holds.change {store : Store n} (holds : store.Holds sha3 known s)
    {db : OverlayDB} {i : Fin n} {t : Patricia 16 Bytes} (disk : db.disk = store.db.disk)
    (accounts : Accounts sha3 known db (rootRefs sha3 t + ∑ j ∈ Finset.univ.erase i,
      rootRefs sha3 (s.now j))) :
    Store.Holds sha3 known
      { store with db, roots := Function.update store.roots i (sha3 (text sha3 t)) }
      { s with now := Function.update s.now i t } where
  roots := by
    funext j
    dsimp only
    rw [Function.update_apply, Function.update_apply, holds.roots]
    split_ifs <;> rfl
  accounts := by
    dsimp only
    rw [sum_update (rootRefs sha3)]
    exact accounts
  saved := holds.saved
  kept ts member h used := by
    have same : db.onDisk = store.db.onDisk := by
      unfold onDisk
      rw [disk]
    dsimp only
    rw [same]
    exact holds.kept ts member h used
  old := holds.old

theorem Store.Holds.step {store : Store n} (bounded : ∀ b, sha3 b < 2 ^ 256)
    (free : Set.InjOn sha3 known) (null : rlpNull ∈ known) (keys : Keys len K)
    (short : 2 * len + 2 < 2 ^ 31) (room : n * (3 * steps + 1) + 6 < 2 ^ 32)
    (tracks : Tracks K steps s c) (fits : op.Fits K) (holds : store.Holds sha3 known s)
    (here : ∀ i, ∀ x ∈ texts sha3 (s.now i), x ∈ known)
    (next : ∀ i, ∀ x ∈ texts sha3 ((Trees.step store.db.disk.isSome s op).now i), x ∈ known) :
    ∃ store', store.step sha3 op = some store' ∧
      store'.Holds sha3 known (Trees.step store.db.disk.isSome s op) ∧
      store'.db.disk.isSome = store.db.disk.isSome := by
  cases op with
  | insert i key value =>
      rcases fits with ⟨member, full, small⟩
      have length := keys.short key member
      rcases tracks.now i with ⟨tree, -⟩
      have few := card_others sha3 (fun i => (tracks.now i).2) i
      have accounts := holds.accounts
      have after := next i
      unfold Trees.step Versions.step at after
      dsimp only at after
      rw [Function.update_self] at after
      rw [sum_ways (rootRefs sha3) s.now i] at accounts
      rcases insert_root bounded free tree.canonical (tree.apart keys member)
        (canonical_sized tree.canonical (tree.bound keys short)) (by omega) small
        (here i) after null
        (by omega) accounts with ⟨db, inserted, accounts', disk⟩
      refine ⟨_, ?_, holds.change disk accounts', congrArg Option.isSome disk⟩
      rw [Store.step, holds.roots, inserted]
      rfl
  | remove i key =>
      rcases tracks.now i with ⟨tree, -⟩
      have few := card_others sha3 (fun i => (tracks.now i).2) i
      have accounts := holds.accounts
      have after := next i
      unfold Trees.step Versions.step at after
      dsimp only at after
      rw [Function.update_self] at after
      rw [sum_ways (rootRefs sha3) s.now i] at accounts
      rcases remove_root bounded free tree.canonical (tree.apart keys fits) (tree.bound keys short)
        (by have length := keys.short key fits; omega) (here i) after null (by omega) accounts with
        ⟨db, removed, accounts', disk, -⟩
      refine ⟨_, ?_, holds.change disk accounts', congrArg Option.isSome disk⟩
      rw [Store.step, holds.roots, removed]
      rfl
  | commit =>
      cases open_ : store.db.disk with
      | none =>
          have same : store.db.commit = store.db := by rw [OverlayDB.commit, open_]
          refine ⟨_, rfl, ?_, ?_⟩
          · rw [same, open_]
            exact holds
          · rw [same, open_]
      | some get =>
          rcases holds.accounts.commit open_ with ⟨accounts, gone, stays⟩
          have disk : store.db.commit.disk = some (store.db.committed get) := by
            rw [OverlayDB.commit, open_]
          refine ⟨_, rfl, ⟨holds.roots, accounts, ?_, ?_, ?_⟩, by rw [disk]; rfl⟩
          · rw [open_]
            change store.roots :: store.saved = _
            rw [holds.roots, holds.saved]
            rfl
          · intro ts member h used
            rcases List.mem_cons.mp member with rfl | before
            · exact gone h used
            · exact stays h (holds.kept ts before h used)
          · intro ts member
            rcases List.mem_cons.mp member with rfl | before
            · exact here
            · exact holds.old ts before
  | reopen back =>
      unfold Store.step Trees.step Versions.step
      dsimp only
      rw [holds.saved, List.getElem?_map]
      cases there : s.saved[back]? with
      | none => exact ⟨store, rfl, holds, rfl⟩
      | some ts =>
          have member := List.mem_of_getElem? there
          exact ⟨_, rfl, ⟨rfl, holds.accounts.rollback (holds.kept ts member), rfl, holds.kept,
            holds.old⟩, rfl⟩
  | enforceRefs on =>
      refine ⟨_, rfl, ⟨holds.roots, ?_, holds.saved, holds.kept, holds.old⟩, rfl⟩
      exact ⟨holds.accounts.named, holds.accounts.disk, holds.accounts.most, holds.accounts.least⟩

theorem accounts_init (null : rlpNull ∈ known) (l : List (Fin n)) {db : OverlayDB}
    {live : Multiset H256} (few : live.card + l.length < 2 ^ 32)
    (accounts : Accounts sha3 known db live) :
    Accounts sha3 known (l.foldl (fun db _ => (init sha3 db).2) db)
      (l.length • {sha3 rlpNull} + live) ∧
      (l.foldl (fun db _ => (init sha3 db).2) db).disk = db.disk := by
  induction l generalizing db live with
  | nil =>
      rw [List.length_nil, zero_nsmul, zero_add]
      exact ⟨accounts, rfl⟩
  | cons i l ih =>
      rw [List.length_cons] at few ⊢
      have first := accounts.insert null (List.cons_ne_nil _ _) (by omega)
      rcases ih (by rw [Multiset.card_add, Multiset.card_singleton]; omega) first with ⟨rest, disk⟩
      rw [succ_nsmul, add_assoc]
      exact ⟨rest, disk⟩

variable (sha3) in
theorem Store.Holds.start (null : rlpNull ∈ known) (few : n < 2 ^ 32) (disk : Bool) :
    Store.Holds sha3 known (Store.start sha3 n disk) (Trees.start n) ∧
    (Store.start sha3 n disk).db.disk.isSome = disk := by
  have bare : ∀ h, (⟨∅, false, if disk then some fun _ => [] else none⟩ : OverlayDB).onDisk h =
      [] := by
    intro h
    cases disk <;> rfl
  have fresh : Accounts sha3 known ⟨∅, false, if disk then some fun _ => [] else none⟩ 0 :=
    ⟨fun _ _ _ stands => (nomatch stands), fun h there => absurd (bare h) there, fun _ => le_rfl,
      fun _ => .inr le_rfl⟩
  rcases accounts_init null (List.finRange n)
    (by rw [List.length_finRange, Multiset.card_zero]; omega) fresh with
    ⟨accounts, same⟩
  refine ⟨⟨rfl, ?_, rfl, fun _ member => (nomatch member), fun _ member => (nomatch member)⟩, ?_⟩
  · have each : ∑ i, rootRefs sha3 ((Trees.start n).now i) = n • {sha3 rlpNull} := by
      have sum :=
        Finset.sum_const (s := (Finset.univ : Finset (Fin n))) ({sha3 rlpNull} : Multiset H256)
      rw [Finset.card_fin] at sum
      exact sum
    rw [List.length_finRange, add_zero] at accounts
    rw [each]
    exact accounts
  · unfold Store.start
    dsimp only
    rw [same]
    cases disk <;> rfl

theorem Store.Holds.run {store : Store n} {ops : List (Op n)} (bounded : ∀ b, sha3 b < 2 ^ 256)
    (free : Set.InjOn sha3 known) (null : rlpNull ∈ known) (keys : Keys len K)
    (short : 2 * len + 2 < 2 ^ 31) (room : n * (3 * (steps + ops.length) + 1) + 6 < 2 ^ 32)
    (tracks : Tracks K steps s c) (fits : ∀ op ∈ ops, op.Fits K) (holds : store.Holds sha3 known s)
    (open_ : store.db.disk.isSome = disk) (here : ∀ x ∈ Trees.visited sha3 disk s ops, x ∈ known) :
    ∃ store', store.run sha3 ops = some store' ∧
    store'.Holds sha3 known (ops.foldl (Trees.step disk) s) ∧
      store'.db.disk.isSome = disk ∧
      Tracks K (steps + ops.length) (ops.foldl (Trees.step disk) s)
        (ops.foldl (Contents.step disk) c) ∧
      ∀ i, ∀ x ∈ texts sha3 ((ops.foldl (Trees.step disk) s).now i), x ∈ known := by
  induction ops generalizing store s c steps with
  | nil =>
      refine ⟨store, rfl, holds, open_, tracks, fun i x member => here x ?_⟩
      exact List.mem_flatMap.mpr ⟨i, List.mem_finRange i, member⟩
  | cons op ops ih =>
      have first : ∀ i, ∀ x ∈ texts sha3 (s.now i), x ∈ known := fun i x member =>
        here x (List.mem_append_left _ (List.mem_flatMap.mpr ⟨i, List.mem_finRange i, member⟩))
      have later : ∀ x ∈ Trees.visited sha3 disk (Trees.step disk s op) ops, x ∈ known :=
        fun x member =>
        here x (List.mem_append_right _ member)
      have next : ∀ i, ∀ x ∈ texts sha3 ((Trees.step disk s op).now i), x ∈ known := by
        intro i x member
        refine later x ?_
        have inside : x ∈ (List.finRange n).flatMap fun i =>
            texts sha3 ((Trees.step disk s op).now i) :=
          List.mem_flatMap.mpr ⟨i, List.mem_finRange i, member⟩
        cases ops with
        | nil => exact inside
        | cons op' ops => exact List.mem_append_left _ inside
      rw [List.length_cons] at room
      have grows : n * (3 * steps + 1) ≤ n * (3 * (steps + (ops.length + 1)) + 1) :=
        Nat.mul_le_mul_left n (by omega)
      subst open_
      rcases holds.step bounded free null keys short (by omega) tracks (fits op List.mem_cons_self)
        first next with
        ⟨store₁, stepped, holds₁, open₁⟩
      have count : steps + 1 + ops.length = steps + (ops.length + 1) := by omega
      rcases ih (by rw [count]; exact room) (tracks.step keys short (fits op List.mem_cons_self))
        (fun op' member => fits op' (List.mem_cons_of_mem op member)) holds₁ open₁ later with
        ⟨store', ran, holds', open', tracks', texts'⟩
      refine ⟨store', ?_, holds', open', ?_, texts'⟩
      · rw [Store.run, stepped]
        exact ran
      · rw [List.length_cons, ← count]
        exact tracks'

end Runs

end Trie

end UtispaceChain
