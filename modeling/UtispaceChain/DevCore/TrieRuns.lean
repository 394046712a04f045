import UtispaceChain.DevCore.TrieStore

/-! What holds of tries after any run: their content, what is on disk, and the reference counts. -/

namespace UtispaceChain

namespace Trie

open Lib OverlayDB

section Content

variable {n len steps : Nat} {K : Set Bytes} {s : Trees n} {c : Contents n} {sha3 : Bytes → H256}
    {known : Set Bytes} {store : Store n}

theorem rootRefs_le (s : Trees n) (i : Fin n) {h : H256} (member : h ∈ rootRefs sha3 (s.now i)) :
    h ∈ ∑ j, rootRefs sha3 (s.now j) := by
  rw [sum_ways (rootRefs sha3) s.now i]
  exact Multiset.mem_add.mpr (.inl member)

theorem root_mem (t : Patricia 16 Bytes) : sha3 (text sha3 t) ∈ rootRefs sha3 t :=
  Multiset.mem_add.mpr (.inl (Multiset.mem_singleton_self _))

theorem Store.Holds.held (holds : store.Holds sha3 known s) (free : Set.InjOn sha3 known)
    (here : ∀ i, ∀ x ∈ texts sha3 (s.now i), x ∈ known) (i : Fin n) :
    Held sha3 store.db.lookup (s.now i) ∧ store.db.lookup (sha3 (text sha3 (s.now i))) =
      text sha3 (s.now i) :=
  ⟨fun x member used =>
      holds.accounts.lookup free (here i x member)
        (rootRefs_le s i (Multiset.mem_add.mpr (.inr used))),
    holds.accounts.lookup free (here i _ (mem_texts _)) (rootRefs_le s i (root_mem _))⟩

theorem Store.Holds.held_disk (holds : store.Holds sha3 known s) (free : Set.InjOn sha3 known)
    {ts : Fin n → Patricia 16 Bytes} (saved : ts ∈ s.saved) (i : Fin n) :
    Held sha3 store.db.onDisk (ts i) ∧ store.db.onDisk (sha3 (text sha3 (ts i))) =
      text sha3 (ts i) := by
  have found : ∀ x ∈ texts sha3 (ts i), sha3 x ∈ rootRefs sha3 (ts i) →
      store.db.onDisk (sha3 x) = x := by
    intro x member used
    have inside : sha3 x ∈ ∑ j, rootRefs sha3 (ts j) := rootRefs_le ⟨ts, []⟩ i used
    rcases holds.accounts.disk _ (holds.kept ts saved _ inside) with ⟨same, within⟩
    exact free within (holds.old ts saved i x member) same
  exact ⟨fun x member used => found x member (Multiset.mem_add.mpr (.inr used)),
    found _ (mem_texts _) (root_mem _)⟩

theorem TreeOf.lookup {t : Patricia 16 Bytes} {m : Bytes → Bytes} (tree : TreeOf K t m)
    (bounded : ∀ b, sha3 b < 2 ^ 256) (keys : Keys len K) (short : 2 * len + 2 < 2 ^ 31)
    {node : H256 → Bytes} (held : Held sha3 node t) (root : node (sha3 (text sha3 t)) = text sha3 t)
    {key : Bytes} (member : key ∈ K) :
    Trie.lookup node (2 * key.length + 1) (sha3 (text sha3 t)) key = some (m key) := by
  have length := keys.short key member
  rw [lookup_held bounded (canonical_sized tree.canonical (tree.bound keys short)) tree.canonical
    held root (by omega), tree.find key member]

theorem Store.Holds.absent (holds : store.Holds sha3 known s) (bounded : ∀ b, sha3 b < 2 ^ 256)
    (free : Set.InjOn sha3 known) (null : rlpNull ∈ known) (keys : Keys len K)
    (short : 2 * len + 2 < 2 ^ 31) (room : n * (3 * steps + 1) + 6 < 2 ^ 32)
    (tracks : Tracks K steps s c) (here : ∀ i, ∀ x ∈ texts sha3 (s.now i), x ∈ known) {i : Fin n}
    {key : Bytes} (member : key ∈ K) (none_ : c.now i key = []) :
    store.step sha3 (.remove i key) = some store := by
  have length := keys.short key member
  rcases tracks.now i with ⟨tree, -⟩
  have few := card_others sha3 (fun i => (tracks.now i).2) i
  have accounts := holds.accounts
  have missing : (s.now i).find (asNibbles key) = none := by
    have value := tree.find key member
    cases found : (s.now i).find (asNibbles key) with
    | none => rfl
    | some w =>
        rw [found, none_] at value
        exact absurd value (tree.entry _ w found).2.1
  have same := Patricia.remove_eq_none.mpr missing
  rw [sum_ways (rootRefs sha3) s.now i] at accounts
  rcases remove_root bounded free tree.canonical (tree.apart keys member)
    (tree.bound keys short) (by omega)
    (here i) (by rw [same]; exact here i) null (by omega) accounts with ⟨db, removed, -, -, kept⟩
  rw [same, Option.getD_none, kept missing] at removed
  have root : store.roots i = sha3 (text sha3 (s.now i)) := congrFun holds.roots i
  rw [Store.step, root, removed, Option.map_some, ← root, Function.update_eq_self]

end Content

/-- The strings that the hash function meets: those of the nodes along the run. -/
def met {n : Nat} (sha3 : Bytes → H256) (disk : Bool) (ops : List (Op n)) : Set Bytes :=
  {x | x ∈ rlpNull :: Trees.visited sha3 disk (Trees.start n) ops}

section Results

variable {n len : Nat} {K : Set Bytes} {sha3 : Bytes → H256} {disk : Bool} {ops : List (Op n)}

/-- What a run needs so that no count and no length runs over. -/
structure Within {n : Nat} (len : Nat) (K : Set Bytes) (ops : List (Op n)) : Prop where
  keys : Keys len K
  short : 2 * len + 2 < 2 ^ 31
  room : n * (3 * ops.length + 1) + 6 < 2 ^ 32
  fits : ∀ op ∈ ops, op.Fits K

theorem run_holds (bounded : ∀ b, sha3 b < 2 ^ 256) (within : Within len K ops)
    (free : Set.InjOn sha3 (met sha3 disk ops)) :
    ∃ store, (Store.start sha3 n disk).run sha3 ops = some store ∧
      store.Holds sha3 (met sha3 disk ops) (ops.foldl (Trees.step disk) (Trees.start n)) ∧
      store.db.disk.isSome = disk ∧
      Tracks K ops.length (ops.foldl (Trees.step disk) (Trees.start n))
        (ops.foldl (Contents.step disk) (Contents.start n)) ∧
      ∀ i, ∀ x ∈ texts sha3 ((ops.foldl (Trees.step disk) (Trees.start n)).now i), x ∈
        met sha3 disk ops := by
  have null : rlpNull ∈ met sha3 disk ops := List.mem_cons_self
  have few : n < 2 ^ 32 := by
    have least : n * 1 ≤ n * (3 * ops.length + 1) := Nat.mul_le_mul_left n (Nat.le_add_left 1 _)
    have room := within.room
    omega
  rcases Store.Holds.start sha3 null few disk with ⟨holds, open_⟩
  have tracks : Tracks K 0 (Trees.start n) (Contents.start n) := ⟨fun _ => ⟨.start, le_rfl⟩, .nil⟩
  rcases holds.run bounded free null within.keys within.short
    (by rw [Nat.zero_add]; exact within.room) tracks within.fits open_
    (fun x member => List.mem_cons_of_mem _ member) with ⟨store, ran, holds', open',
      tracks', texts'⟩
  rw [Nat.zero_add] at tracks'
  exact ⟨store, ran, holds', open', tracks', texts'⟩

/-- Every trie is its finite map at every moment, and what was committed is so from the disk alone,
at every commit. -/
theorem tries_refine_maps (bounded : ∀ b, sha3 b < 2 ^ 256) (within : Within len K ops)
    (free : Set.InjOn sha3 (met sha3 disk ops)) :
    ∃ store, (Store.start sha3 n disk).run sha3 ops = some store ∧
      (∀ i, ∀ key ∈ K, lookup store.db.lookup (2 * key.length + 1) (store.roots i) key =
        some ((ops.foldl (Contents.step disk) (Contents.start n)).now i key)) ∧
      (∀ i, ∀ key ∈ K, (ops.foldl (Contents.step disk) (Contents.start n)).now i key = [] →
        store.step sha3 (.remove i key) = some store) ∧
      List.Forall₂ (fun roots maps => ∀ i, ∀ key ∈ K,
          lookup store.db.onDisk (2 * key.length + 1) (roots i) key = some (maps i key))
        store.saved (ops.foldl (Contents.step disk) (Contents.start n)).saved := by
  rcases run_holds bounded within free with ⟨store, ran, holds, -, tracks, here⟩
  refine ⟨store, ran, fun i key member => ?_, fun i key member missing => ?_, ?_⟩
  · rcases holds.held free here i with ⟨held, root⟩
    rw [holds.roots]
    exact (tracks.now i).1.lookup bounded within.keys within.short held root member
  · exact holds.absent bounded free List.mem_cons_self within.keys within.short within.room tracks
      here member missing
  · rw [holds.saved, List.forall₂_map_left_iff]
    have both :=
      (List.forall₂_and_left _ _).mpr ⟨fun ts member => holds.held_disk free member, tracks.saved⟩
    refine both.imp fun ts maps each i key member => ?_
    rcases each.1 i with ⟨held, root⟩
    exact (each.2 i).1.lookup bounded within.keys within.short held root member

/-! Two tries over a disk, gone back to their first commit -/

def mixed (b : Bytes) : H256 := (b.foldl (fun a x => a * 257 + x.toNat + 1) 7) % (2 ^ 256 - 189)

theorem mixed_bounded (b : Bytes) : mixed b < 2 ^ 256 :=
  (Nat.mod_lt _ (by decide)).trans (by decide)

def twoTries : List (Op 2) :=
  [.insert 0 [0x12] (List.replicate 32 1), .commit, .insert 0 [0x13] (List.replicate 32 2),
    .insert 1 [0x12] [3], .remove 0 [0x12], .commit, .reopen 1]

theorem mixed_apart {l l' : List Bytes} (all : ∀ x ∈ l ++ l', ∀ y ∈ l ++ l', mixed x = mixed y →
    x = y) :
    Set.InjOn mixed ({x | x ∈ l} ∪ {x | x ∈ l'}) := fun x first y second =>
  all x (List.mem_append.mpr first) y (List.mem_append.mpr second)

theorem mixed_free {l : List Bytes} (all : ∀ x ∈ l, ∀ y ∈ l, mixed x = mixed y → x = y) :
    Set.InjOn mixed {x | x ∈ l} :=
  fun x first y second => all x first y second

theorem twoTries_free : Set.InjOn mixed (met mixed true twoTries) := mixed_free (by decide +kernel)

theorem Keys.ofLength (len : Nat) : Keys len {key | key.length = len} where
  short _ length := le_of_eq length
  apart _ left _ right start := start.eq_of_length (Eq.trans left (Eq.symm right))

theorem twoTries_within : Within 1 {key | key.length = 1} twoTries :=
  ⟨Keys.ofLength 1, by decide, by decide, by simp [twoTries, Op.Fits]⟩

theorem tries_refine_maps_two :
    ∃ store, (Store.start mixed 2 true).run mixed twoTries = some store ∧
      (∀ i, ∀ key ∈ {key : Bytes | key.length = 1},
        lookup store.db.lookup (2 * key.length + 1) (store.roots i) key =
        some ((twoTries.foldl (Contents.step true) (Contents.start 2)).now i key)) ∧
      (∀ i, ∀ key ∈ {key : Bytes | key.length = 1},
        (twoTries.foldl (Contents.step true) (Contents.start 2)).now i key = [] →
          store.step mixed (.remove i key) = some store) ∧
      List.Forall₂ (fun roots maps => ∀ i, ∀ key ∈ {key : Bytes | key.length = 1},
          lookup store.db.onDisk (2 * key.length + 1) (roots i) key = some (maps i key))
        store.saved (twoTries.foldl (Contents.step true) (Contents.start 2)).saved :=
  tries_refine_maps mixed_bounded twoTries_within twoTries_free

end Results

end Trie

end UtispaceChain
