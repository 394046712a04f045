import UtispaceChain.DevCore.TrieHash
import UtispaceChain.DevCore.TrieRuns

/-! Roots against contents: `hash256` of the map, the trie after any run, and the other way
round. -/

namespace UtispaceChain

namespace Trie

open Lib

/-! The text of a tree determines it -/

section Injective

variable {sha3 : Bytes → H256} {known : Set Bytes}

theorem reference_inj (bounded : ∀ b, sha3 b < 2 ^ 256) (free : Set.InjOn sha3 known) {a b : Bytes}
    (left : a ∈ known) (right : b ∈ known) (same : reference sha3 a = reference sha3 b) :
    a = b := by
  have size : ∀ {x : Bytes}, 32 ≤ x.length → (reference sha3 x).length = 33 := by
    intro x long
    rw [reference_form long, List.length_cons, toBigEndian_length]
  rcases lt_or_ge a.length 32 with short | long
  · rcases lt_or_ge b.length 32 with short' | long'
    · rw [reference_short short, reference_short short'] at same
      exact same
    · have length := size long'
      rw [← same, reference_short short] at length
      omega
  · rcases lt_or_ge b.length 32 with short' | long'
    · have length := size long
      rw [same, reference_short short'] at length
      omega
    · have read := (reference_hash bounded long).2.2.2
      rw [same, (reference_hash bounded long').2.2.2, Option.some.injEq] at read
      exact free left right read.symm

variable (sha3) in
theorem text_count {t : Patricia 16 Bytes} (sized : Sized t) :
    (Rlp.items (text sha3 t)).map List.length =
      some (if t.isPair then 2 else if t.isBranch then 17 else 0) := by
  cases t with
  | empty => rfl
  | leaf k v =>
      rcases text_leaf sha3 sized with ⟨part, reads⟩
      exact reads.items
  | ext k c =>
      rcases text_ext sha3 sized with ⟨part, reads⟩
      exact reads.items
  | branch cs =>
      rw [(text_branch sha3 sized).items, Option.map_some, entriesOf_length]
      rfl

theorem ReadsPair.unique {rlp e e' : Bytes} {k k' : List Nibble} {leaf leaf' : Bool}
    {part part' : NibbleSlice} (left : ReadsPair rlp k leaf e part)
    (right : ReadsPair rlp k' leaf' e' part') : k = k' ∧ leaf = leaf' ∧ e = e' := by
  have parts := Option.some.inj (left.keyOf.symm.trans right.keyOf)
  subst parts
  exact ⟨left.toList.symm.trans right.toList, Option.some.inj (left.isLeaf.symm.trans right.isLeaf),
    Option.some.inj (left.item.symm.trans right.item)⟩

theorem text_inj (bounded : ∀ b, sha3 b < 2 ^ 256) (free : Set.InjOn sha3 known)
    {t u : Patricia 16 Bytes} (sized : Sized t) (sized' : Sized u)
    (here : ∀ x ∈ texts sha3 t, x ∈ known) (here' : ∀ x ∈ texts sha3 u, x ∈ known)
    (same : text sha3 t = text sha3 u) : t = u := by
  have count := text_count sha3 sized
  rw [same, text_count sha3 sized', Option.some.injEq] at count
  induction t generalizing u with
  | empty => cases u <;> first | rfl | cases count
  | leaf k v =>
      rcases text_leaf sha3 sized with ⟨part, reads⟩
      rw [same] at reads
      cases u with
      | leaf k' v' =>
          rcases text_leaf sha3 sized' with ⟨part', reads'⟩
          rcases reads.unique reads' with ⟨rfl, -, values⟩
          have left := Rlp.toBytes_appendBytes v (value_short sized.2)
          rw [values, Rlp.toBytes_appendBytes v' (value_short sized'.2), Option.some.injEq] at left
          rw [left]
      | ext k' c' =>
          rcases text_ext sha3 sized' with ⟨part', reads'⟩
          cases (reads.unique reads').2.1
      | _ => cases count
  | ext k c ih =>
      rcases text_ext sha3 sized with ⟨part, reads⟩
      rw [same] at reads
      cases u with
      | leaf k' v' =>
          rcases text_leaf sha3 sized' with ⟨part', reads'⟩
          cases (reads.unique reads').2.1
      | ext k' c' =>
          rcases text_ext sha3 sized' with ⟨part', reads'⟩
          rcases reads.unique reads' with ⟨rfl, -, entries⟩
          have below := reference_inj bounded free (here _ (texts_ext k c (mem_texts c)))
            (here' _ (texts_ext k c' (mem_texts c'))) entries
          have counts := text_count sha3 sized.2
          rw [below, text_count sha3 sized'.2, Option.some.injEq] at counts
          rw [ih sized.2 sized'.2 (fun x member => here x (texts_ext k c member))
            (fun x member => here' x (texts_ext k c' member)) below counts]
      | _ => cases count
  | branch cs ih =>
      cases u with
      | branch ds =>
          have left := text_branch sha3 sized
          rw [same] at left
          have right := text_branch sha3 sized'
          have each : ∀ d, cs d = ds d := by
            intro d
            have entry := (left.item d).symm.trans (right.item d)
            rw [entriesOf_get, entriesOf_get, Option.some.injEq] at entry
            have below := reference_inj bounded free (here _ (texts_child cs d (mem_texts _)))
              (here' _ (texts_child ds d (mem_texts _))) entry
            have counts := text_count sha3 (sized d)
            rw [below, text_count sha3 (sized' d), Option.some.injEq] at counts
            exact ih d (sized d) (sized' d) (fun x member => here x (texts_child cs d member))
              (fun x member => here' x (texts_child ds d member)) below counts
          rw [funext each]
      | _ => cases count

end Injective

/-! Tries after runs -/

structure Lists (m : BytesMap) (f : Bytes → Bytes) : Prop where
  sorted : Sorted m
  mem : ∀ key value, (key, value) ∈ m ↔ value ≠ [] ∧ f key = value

theorem Lists.unique {m m' : BytesMap} {f : Bytes → Bytes} (left : Lists m f) (right : Lists m' f) :
    m = m' :=
  left.sorted.unique right.sorted fun e => (left.mem e.1 e.2).trans (right.mem e.1 e.2).symm

namespace TreeOf

variable {len : Nat} {K : Set Bytes} {t u : Patricia 16 Bytes} {f : Bytes → Bytes} {m : BytesMap}
    {sha3 : Bytes → H256}

theorem find_eq_some (tree : TreeOf K t f) {s : List Nibble} {w : Bytes} :
    t.find s = some w ↔ ∃ key, s = asNibbles key ∧ w ≠ [] ∧ f key = w := by
  constructor
  · intro found
    rcases tree.entry s w found with ⟨⟨key, member, rfl⟩, full, -⟩
    have value := tree.find key member
    rw [found] at value
    exact ⟨key, rfl, full, value.symm⟩
  · rintro ⟨key, rfl, full, rfl⟩
    have member : key ∈ K := by
      by_contra other
      exact full (tree.outside key other)
    have value := tree.find key member
    cases found : t.find (asNibbles key) with
    | none =>
        rw [found] at value
        exact absurd value.symm full
    | some w =>
        rw [found] at value
        rw [← value]
        rfl

theorem isTree (tree : TreeOf K t f) (lists : Lists m f) : IsTree t m where
  canonical := tree.canonical
  find _ w :=
    tree.find_eq_some.trans (exists_congr fun key => and_congr_right
      fun _ => (lists.mem key w).symm)

theorem lists (tree : TreeOf K t f) : Lists (t.entries.map element) f where
  sorted := by
    refine List.pairwise_map.mpr (List.Pairwise.imp_of_mem ?_ (Patricia.entries_sorted t))
    intro a b left right less
    have even : ∀ e ∈ t.entries, e.1.length % 2 = 0 := by
      intro e member
      rcases (tree.entry e.1 e.2 (Patricia.mem_entries.mp member)).1 with ⟨key, -, same⟩
      rw [same, length_asNibbles]
      exact Nat.mul_mod_right 2 _
    exact (packNibbles_lt (even a left) (even b right)).mpr less
  mem key value := by
    rw [List.mem_map]
    constructor
    · rintro ⟨⟨s, w⟩, member, same⟩
      rcases tree.find_eq_some.mp (Patricia.mem_entries.mp member) with ⟨key', rfl, full, value'⟩
      cases same
      rw [packNibbles_asNibbles]
      exact ⟨full, value'⟩
    · rintro ⟨full, value'⟩
      refine ⟨(asNibbles key, value),
        Patricia.mem_entries.mpr (tree.find_eq_some.mpr ⟨key, rfl, full, value'⟩), ?_⟩
      rw [element, packNibbles_asNibbles]

theorem key_mem (tree : TreeOf K t f) {e : Bytes × Bytes} (member : e ∈ t.entries.map element) :
    e.1 ∈ K := by
  by_contra other
  have value := (tree.lists.mem e.1 e.2).mp member
  exact value.1 (value.2.symm.trans (tree.outside e.1 other))

theorem hash256 (tree : TreeOf K t f) (keys : Keys len K) (short : 2 * len + 2 < 2 ^ 31)
    {fuel : Nat} (enough : 2 * len < fuel) : ∃ m, Lists m f ∧ Trie.hash256 sha3 fuel m =
      some (sha3 (text sha3 t)) := by
  have bound := fun e (member : e ∈ t.entries.map element) => keys.short e.1 (tree.key_mem member)
  refine ⟨_, tree.lists, (tree.isTree tree.lists).hash256 tree.lists.sorted
    (Nat.zero_lt_of_lt enough) ?_ ?_⟩
  · intro e member
    have small := bound e member
    omega
  · intro e member
    have small := bound e member
    omega

theorem unique {K' : Set Bytes} (left : TreeOf K t f) (right : TreeOf K' u f) : t = u := by
  refine left.canonical.unique right.canonical fun s => ?_
  exact Option.ext fun w => left.find_eq_some.trans right.find_eq_some.symm

theorem map_unique {K' : Set Bytes} {g : Bytes → Bytes} (left : TreeOf K t f)
    (right : TreeOf K' t g) : f = g := by
  have within : ∀ {K K' : Set Bytes} {f g : Bytes → Bytes}, TreeOf K t f → TreeOf K' t g →
    ∀ key, f key ≠ [] →
      f key = g key := by
    intro K K' f g left right key full
    rcases right.find_eq_some.mp (left.find_eq_some.mpr ⟨key, rfl, full, rfl⟩) with
      ⟨key', same, -, value⟩
    rw [← value, asNibbles_inj.mp same]
  funext key
  by_cases full : f key = []
  · by_cases full' : g key = []
    · rw [full, full']
    · exact (within right left key full').symm
  · exact within left right key full

end TreeOf

section Runs

variable {n len : Nat} {K : Set Bytes} {sha3 : Bytes → H256} {disk : Bool} {ops : List (Op n)}

/-- The root of every trie is `hash256` of its map, at every moment and at every commit. -/
theorem roots_are_hashes (bounded : ∀ b, sha3 b < 2 ^ 256) (within : Within len K ops)
    (free : Set.InjOn sha3 (met sha3 disk ops)) {fuel : Nat} (enough : 2 * len < fuel) :
    ∃ store, (Store.start sha3 n disk).run sha3 ops = some store ∧
      (∀ i, ∃ m, Lists m ((ops.foldl (Contents.step disk) (Contents.start n)).now i) ∧
        hash256 sha3 fuel m = some (store.roots i)) ∧
      List.Forall₂ (fun roots maps => ∀ i, ∃ m, Lists m (maps i) ∧
        hash256 sha3 fuel m = some (roots i))
        store.saved (ops.foldl (Contents.step disk) (Contents.start n)).saved := by
  rcases run_holds bounded within free with ⟨store, ran, holds, -, tracks, -⟩
  refine ⟨store, ran, fun i => ?_, ?_⟩
  · rw [holds.roots]
    exact (tracks.now i).1.hash256 within.keys within.short enough
  · rw [holds.saved, List.forall₂_map_left_iff]
    exact tracks.saved.imp fun ts maps each i => (each i).1.hash256 within.keys within.short enough

/-- Two tries after any runs have the same root just when they have the same map. -/
theorem roots_eq_iff {n' len' : Nat} {K' : Set Bytes} {disk' : Bool} {ops' : List (Op n')}
    (bounded : ∀ b, sha3 b < 2 ^ 256) (within : Within len K ops) (within' : Within len' K' ops')
    (free : Set.InjOn sha3 (met sha3 disk ops ∪ met sha3 disk' ops')) :
    ∃ store store', (Store.start sha3 n disk).run sha3 ops = some store ∧
      (Store.start sha3 n' disk').run sha3 ops' = some store' ∧
      ∀ i j, store.roots i = store'.roots j ↔
        (ops.foldl (Contents.step disk) (Contents.start n)).now i =
          (ops'.foldl (Contents.step disk') (Contents.start n')).now j := by
  rcases run_holds bounded within (free.mono Set.subset_union_left) with
    ⟨store, ran, holds, -, tracks, here⟩
  rcases run_holds bounded within' (free.mono Set.subset_union_right) with
    ⟨store', ran', holds', -, tracks', here'⟩
  refine ⟨store, store', ran, ran', fun i j => ?_⟩
  have left := (tracks.now i).1
  have right := (tracks'.now j).1
  have known := fun x member => Set.mem_union_left (met sha3 disk' ops') (here i x member)
  have known' := fun x member => Set.mem_union_right (met sha3 disk ops) (here' j x member)
  rw [holds.roots, holds'.roots]
  dsimp only
  constructor
  · intro same
    have texts_ := free (known _ (mem_texts _)) (known' _ (mem_texts _)) same
    have trees :=
      text_inj bounded free (canonical_sized left.canonical (left.bound within.keys within.short))
      (canonical_sized right.canonical (right.bound within'.keys within'.short)) known known' texts_
    rw [← trees] at right
    exact left.map_unique right
  · intro same
    rw [same] at left
    rw [left.unique right]

/-! The two tries over a disk, and one in the memory that gets to the first of their maps another
way -/

theorem roots_are_hashes_two :
    ∃ store, (Store.start mixed 2 true).run mixed twoTries = some store ∧
      (∀ i, ∃ m, Lists m ((twoTries.foldl (Contents.step true) (Contents.start 2)).now i) ∧
        hash256 mixed 3 m = some (store.roots i)) ∧
      List.Forall₂ (fun roots maps => ∀ i, ∃ m, Lists m (maps i) ∧
        hash256 mixed 3 m = some (roots i))
        store.saved (twoTries.foldl (Contents.step true) (Contents.start 2)).saved :=
  roots_are_hashes mixed_bounded twoTries_within twoTries_free (by decide)

def otherWay : List (Op 1) :=
  let tree : Fin 1 := ⟨0, Nat.one_pos⟩
  [.insert tree [0x47] [3], .insert tree [0x12] [4], .insert tree [0x12] (List.replicate 32 1),
    .remove tree [0x47]]

theorem roots_eq_iff_other_way :
    ∃ store store', (Store.start mixed 2 true).run mixed twoTries = some store ∧
      (Store.start mixed 1 false).run mixed otherWay = some store' ∧
      ∀ i j, store.roots i = store'.roots j ↔
        (twoTries.foldl (Contents.step true) (Contents.start 2)).now i =
          (otherWay.foldl (Contents.step false) (Contents.start 1)).now j :=
  roots_eq_iff mixed_bounded twoTries_within ⟨Keys.ofLength 1, by decide, by decide,
    by simp [otherWay, Op.Fits]⟩
    (mixed_apart (by decide +kernel))

end Runs

/-! Items under their numbers -/

section Ordered

variable {data data' : List Bytes}

theorem mem_numbered (few : data.length ≤ 2 ^ 32) {key value : Bytes} :
    (key, value) ∈ numbered data ↔ ∃ i < 2 ^ 32, key = Rlp.appendInt i ∧ data[i]? = some value := by
  rw [numbered, List.mem_map]
  constructor
  · rintro ⟨⟨x, i⟩, member, same⟩
    have read := List.mk_mem_zipIdx_iff_getElem?.mp member
    have inside := (List.getElem?_eq_some_iff.mp read).1
    cases same
    exact ⟨i, by omega, congrArg Rlp.appendInt (unsigned_of_lt (by omega)), read⟩
  · rintro ⟨i, small, rfl, read⟩
    exact ⟨(value, i), List.mk_mem_zipIdx_iff_getElem?.mpr read,
      Prod.ext (congrArg Rlp.appendInt (unsigned_of_lt small)) rfl⟩

theorem appendInt_inj {i j : Nat} (left : i < 2 ^ 32) (right : j < 2 ^ 32)
    (start : Rlp.appendInt i <+: Rlp.appendInt j) :
    i = j := by
  rcases start with ⟨rest, same⟩
  exact (Rlp.appendInt_append_inj i j rest [] (by omega) (by omega)
    (same.trans (List.append_nil _).symm)).1

theorem numbered_nodup (few : data.length ≤ 2 ^ 32) : ((numbered data).map Prod.fst).Nodup := by
  have keys : (numbered data).map Prod.fst = (List.range data.length).map fun i : Nat =>
      Rlp.appendInt (unsigned i) := by
    rw [numbered, List.map_map, List.range_eq_range', ← List.zipIdx_map_snd 0 data, List.map_map]
    rfl
  rw [keys]
  refine List.Nodup.map_on (fun i left j right same => ?_) List.nodup_range
  rw [List.mem_range] at left right
  rw [unsigned_of_lt (by omega), unsigned_of_lt (by omega)] at same
  exact appendInt_inj (by omega) (by omega) ⟨[], by rw [List.append_nil, same]⟩

def numberKeys : Set Bytes := {key | ∃ i < 2 ^ 32, key = Rlp.appendInt i}

theorem numberKeys_keys : Keys 5 numberKeys where
  short key member := by
    rcases member with ⟨i, small, rfl⟩
    have width : (toCompactBigEndian i).length ≤ 4 := toCompactBigEndian_length_le 4 i small
    have length := Rlp.appendBytes_length (toCompactBigEndian i) (by omega)
    rw [Rlp.appendInt_eq, Rlp.appendBytes]
    split_ifs
    · omega
    · rw [List.length_cons]
      omega
    · omega
  apart a left b right start := by
    rcases left with ⟨i, small, rfl⟩
    rcases right with ⟨j, small', rfl⟩
    rw [appendInt_inj small small' start]

theorem isTree_ofContent {es : List (Bytes × Bytes)} (distinct : (es.map Prod.fst).Nodup)
    (apart : ∀ a ∈ es, ∀ b ∈ es, a.1 <+: b.1 → a.1 = b.1) : IsTree (ofContent es) es := by
  induction es with
  | nil =>
      exact ⟨trivial,
        fun s w => ⟨fun found => (nomatch found), fun ⟨_, _, member⟩ => (nomatch member)⟩⟩
  | cons e es ih =>
      rw [List.map_cons, List.nodup_cons] at distinct
      have rest := ih distinct.2 fun a left b right => apart a (List.mem_cons_of_mem e left) b
        (List.mem_cons_of_mem e right)
      have fork : Patricia.Apart (asNibbles e.1) (ofContent es) := by
        intro s w found near
        rcases (rest.find s w).mp found with ⟨key, rfl, member⟩
        have there := List.mem_cons_of_mem e member
        rcases near with start | start
        · exact congrArg asNibbles
            (apart (key, w) there e List.mem_cons_self (asNibbles_start start))
        · exact congrArg asNibbles
            (apart e List.mem_cons_self (key, w) there (asNibbles_start start)).symm
      rcases Patricia.insert_spec e.2 rest.canonical fork with ⟨canonical, find⟩
      refine ⟨canonical, fun s w => ?_⟩
      rw [ofContent, find, Function.update_apply]
      split_ifs with same
      · subst same
        constructor
        · intro value
          cases value
          exact ⟨e.1, rfl, List.mem_cons_self⟩
        · rintro ⟨key, equal, member⟩
          rcases List.mem_cons.mp member with here | later
          · rw [← here]
          · have key' : e.1 = key := asNibbles_inj.mp equal
            exact absurd (key' ▸ List.mem_map_of_mem later) distinct.1
      · rw [rest.find]
        refine exists_congr fun key => and_congr_right fun equal => ?_
        rw [List.mem_cons]
        refine ⟨.inr, fun either => either.resolve_left fun here => same ?_⟩
        rw [equal, ← here]

theorem isTree_numbered (few : data.length ≤ 2 ^ 32) :
    IsTree (ofContent (numbered data)) (assignAll (numbered data)) ∧
    Sorted (assignAll (numbered data)) := by
  have distinct := numbered_nodup few
  have apart : ∀ a ∈ numbered data, ∀ b ∈ numbered data, a.1 <+: b.1 → a.1 = b.1 := by
    intro a left b right start
    rcases (mem_numbered few).mp left with ⟨i, small, same, -⟩
    rcases (mem_numbered few).mp right with ⟨j, small', same', -⟩
    exact numberKeys_keys.apart a.1 ⟨i, small, same⟩ b.1 ⟨j, small', same'⟩ start
  have tree := isTree_ofContent distinct apart
  rcases mem_assignAll distinct with ⟨sorted, members⟩
  refine ⟨⟨tree.canonical, fun s w => (tree.find s w).trans ?_⟩, sorted⟩
  exact exists_congr fun key => and_congr_right fun _ => (members (key, w)).symm

theorem number_short (few : data.length ≤ 2 ^ 32) :
    ∀ e ∈ assignAll (numbered data), e.1.length ≤ 5 := by
  intro e member
  rcases (mem_numbered few).mp ((mem_assignAll (numbered_nodup few)).2 e |>.mp member) with
    ⟨i, small, same, -⟩
  exact numberKeys_keys.short e.1 ⟨i, small, same⟩

theorem orderedTrieRoot_eq (sha3 : Bytes → H256) (few : data.length ≤ 2 ^ 32) {fuel : Nat}
    (enough : 11 ≤ fuel) :
    orderedTrieRoot sha3 fuel data = some (sha3 (text sha3 (ofContent (numbered data)))) := by
  rcases isTree_numbered few with ⟨tree, sorted⟩
  refine tree.hash256 sorted (by omega) (fun e member => ?_) fun e member => ?_
  · have short := number_short few e member
    omega
  · have short := number_short few e member
    omega

def hashed (sha3 : Bytes → H256) (data : List Bytes) : Set Bytes :=
  {x | x ∈ texts sha3 (ofContent (numbered data))}

theorem numbered_inj (few : data.length ≤ 2 ^ 32) (few' : data'.length ≤ 2 ^ 32)
    (same : ofContent (numbered data) = ofContent (numbered data')) : data = data' := by
  have within : ∀ {a b : List Bytes}, a.length ≤ 2 ^ 32 → b.length ≤ 2 ^ 32 →
      ofContent (numbered a) = ofContent (numbered b) → ∀ (i : Nat) (v : Bytes), a[i]? = some v →
      b[i]? = some v := by
    intro a b few few' same i v read
    have small : i < 2 ^ 32 := (List.getElem?_eq_some_iff.mp read).1.trans_le few
    have left := (mem_numbered few).mpr ⟨i, small, rfl, read⟩
    have found := ((isTree_numbered few).1.find _ v).mpr
      ⟨_, rfl, ((mem_assignAll (numbered_nodup few)).2 _).mpr left⟩
    rw [same] at found
    rcases ((isTree_numbered few').1.find _ v).mp found with ⟨key, equal, member⟩
    rcases (mem_numbered few').mp (((mem_assignAll (numbered_nodup few')).2 _).mp member) with
      ⟨j, small', number, there⟩
    have index : i = j :=
      appendInt_inj small small' ⟨[], by rw [List.append_nil, ← number, asNibbles_inj.mp equal]⟩
    rw [index]
    exact there
  refine List.ext_getElem? fun i => Option.ext fun v =>
    ⟨within few few' same i v, within few' few same.symm i v⟩

theorem numbered_sized (few : data.length ≤ 2 ^ 32) (small : ∀ x ∈ data, x.length < 2 ^ 62) :
    Sized (ofContent (numbered data)) := by
  rcases isTree_numbered few with ⟨tree, -⟩
  refine canonical_sized tree.canonical fun s w found => ?_
  rcases (tree.find s w).mp found with ⟨key, rfl, member⟩
  have short : key.length ≤ 5 := number_short few _ member
  rcases (mem_numbered few).mp (((mem_assignAll (numbered_nodup few)).2 _).mp member) with
    ⟨i, -, -, read⟩
  rw [length_asNibbles]
  exact ⟨by omega, small w (List.mem_of_getElem? read)⟩

/-- The root of a list stands for the list, with the order and the number of its items. -/
theorem ordered_roots_eq_iff {sha3 : Bytes → H256} (bounded : ∀ b, sha3 b < 2 ^ 256)
    (few : data.length ≤ 2 ^ 32) (few' : data'.length ≤ 2 ^ 32)
    (small : ∀ x ∈ data, x.length < 2 ^ 62) (small' : ∀ x ∈ data', x.length < 2 ^ 62)
    (free : Set.InjOn sha3 (hashed sha3 data ∪ hashed sha3 data')) {fuel : Nat}
    (enough : 11 ≤ fuel) :
    ∃ root root', orderedTrieRoot sha3 fuel data = some root ∧ orderedTrieRoot sha3 fuel data' =
      some root' ∧
      (root = root' ↔ data = data') := by
  refine ⟨_, _, orderedTrieRoot_eq sha3 few enough, orderedTrieRoot_eq sha3 few' enough,
    fun same => ?_, fun same => ?_⟩
  · have texts_ :=
      free (Set.mem_union_left _ (mem_texts _)) (Set.mem_union_right _ (mem_texts _)) same
    exact numbered_inj few few'
      (text_inj bounded free (numbered_sized few small) (numbered_sized few' small')
      (fun x member => Set.mem_union_left _ member) (fun x member => Set.mem_union_right _ member)
        texts_)
  · rw [same]

theorem inserted_now {order : List (Bytes × Bytes)} (distinct : (order.map Prod.fst).Nodup)
    (disk : Bool) (c : Contents 1) (key value : Bytes) :
    ((order.map fun e => Op.insert 0 e.1 e.2).foldl (Contents.step disk) c).now 0 key = value ↔
      (key, value) ∈ order ∨ key ∉ order.map Prod.fst ∧ c.now 0 key = value := by
  induction order generalizing c with
  | nil => simp
  | cons e order ih =>
      rw [List.map_cons, List.nodup_cons] at distinct
      have step : (Contents.step disk c (.insert 0 e.1 e.2)).now 0 =
          Function.update (c.now 0) e.1 e.2 := by
        unfold Contents.step Versions.step
        dsimp only
        rw [Function.update_self]
      rw [List.map_cons, List.foldl_cons, ih distinct.2, step, Function.update_apply, List.mem_cons,
        List.map_cons, List.mem_cons, not_or]
      by_cases here : key = e.1
      · subst here
        have absent : (e.1, value) ∉ order :=
          fun member => distinct.1 (List.mem_map.mpr ⟨_, member, rfl⟩)
        rw [if_pos rfl]
        constructor
        · rintro (member | ⟨-, same⟩)
          · exact absurd member absent
          · exact .inl (.inl (Prod.ext rfl same.symm))
        · rintro ((same | member) | ⟨⟨differ, -⟩, -⟩)
          · exact .inr ⟨distinct.1, (congrArg Prod.snd same).symm⟩
          · exact absurd member absent
          · exact absurd rfl differ
      · have other : (key, value) ≠ e := fun same => here (congrArg Prod.fst same)
        rw [if_neg here]
        tauto

section Inserted

variable {order : List (Bytes × Bytes)} (room : 3 * data.length + 7 < 2 ^ 32)
  (each : ∀ x ∈ data, x ≠ [] ∧ x.length < 2 ^ 62) (any : order.Perm (numbered data))

include room each any

theorem inserted_within : Within 5 numberKeys (order.map fun e => @Op.insert 1 0 e.1 e.2) := by
  have count : order.length = data.length := by
    rw [any.length_eq, numbered, List.length_map, List.length_zipIdx]
  refine ⟨numberKeys_keys, by decide, ?_, fun op member => ?_⟩
  · rw [List.length_map]
    omega
  · rcases List.mem_map.mp member with ⟨e, inside, rfl⟩
    rcases (mem_numbered (by omega)).mp (any.mem_iff.mp inside) with ⟨i, small, same, read⟩
    have item := each e.2 (List.mem_of_getElem? read)
    exact ⟨⟨i, small, same⟩, item.1, item.2⟩

theorem inserted_lists (disk : Bool) :
    Lists (assignAll (numbered data))
      (((order.map fun e => @Op.insert 1 0 e.1 e.2).foldl (Contents.step disk)
        (Contents.start 1)).now 0) := by
  have few : data.length ≤ 2 ^ 32 := by omega
  have distinct : (order.map Prod.fst).Nodup :=
    (any.map Prod.fst).nodup_iff.mpr (numbered_nodup few)
  rcases mem_assignAll (numbered_nodup few) with ⟨sorted, members⟩
  refine ⟨sorted, fun key value => ?_⟩
  rw [members, ← any.mem_iff, inserted_now distinct]
  constructor
  · intro member
    rcases (mem_numbered few).mp (any.mem_iff.mp member) with ⟨i, -, -, read⟩
    exact ⟨(each value (List.mem_of_getElem? read)).1, .inl member⟩
  · rintro ⟨full, member | ⟨-, none⟩⟩
    · exact member
    · exact absurd none.symm full

end Inserted

/-- The items inserted into a new trie in any order give the root that is computed without one. -/
theorem ordered_root_any_order {sha3 : Bytes → H256} {disk : Bool} {order : List (Bytes × Bytes)}
    (bounded : ∀ b, sha3 b < 2 ^ 256) (room : 3 * data.length + 7 < 2 ^ 32)
    (each : ∀ x ∈ data, x ≠ [] ∧ x.length < 2 ^ 62) (any : order.Perm (numbered data))
    (free : Set.InjOn sha3 (met sha3 disk (order.map fun e => @Op.insert 1 0 e.1 e.2))) {fuel : Nat}
    (enough : 11 ≤ fuel) :
    ∃ store, (Store.start sha3 1 disk).run sha3 (order.map fun e => Op.insert 0 e.1 e.2) =
      some store ∧
      orderedTrieRoot sha3 fuel data = some (store.roots 0) := by
  have within := inserted_within room each any
  rcases run_holds bounded within free with ⟨store, ran, holds, -, tracks, -⟩
  rcases @TreeOf.hash256 _ _ _ _ sha3 (tracks.now 0).1 within.keys within.short fuel (by omega) with
    ⟨m, lists, root⟩
  rw [lists.unique (inserted_lists room each any disk)] at root
  refine ⟨store, ran, ?_⟩
  rw [holds.roots]
  exact root

/-! Two items, one of them of more than 32 bytes -/

def twoItems : List Bytes := [List.replicate 40 1, [2, 3]]

theorem ordered_roots_eq_iff_swapped :
    ∃ root root', orderedTrieRoot mixed 11 twoItems = some root ∧
    orderedTrieRoot mixed 11 twoItems.reverse = some root' ∧
      (root = root' ↔ twoItems = twoItems.reverse) :=
  ordered_roots_eq_iff mixed_bounded (by decide) (by decide) (by decide) (by decide)
    (mixed_apart (by decide +kernel)) le_rfl

theorem ordered_root_any_order_reversed :
    ∃ store, (Store.start mixed 1 true).run mixed
      ((numbered twoItems).reverse.map fun e => Op.insert 0 e.1 e.2) =
        some store ∧
      orderedTrieRoot mixed 11 twoItems = some (store.roots 0) :=
  ordered_root_any_order mixed_bounded (by decide) (by decide) (List.reverse_perm _)
    (mixed_free (by decide +kernel)) le_rfl

end Ordered

end Trie

end UtispaceChain
