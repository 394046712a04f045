import UtispaceChain.DevCore.TrieIterator

/-! What a trie in a database holds: `at`, and the iterators from `begin` and `lower_bound` to
`end`. -/

namespace UtispaceChain

namespace Trie

open Lib Lib.Patricia

/-! The order of keys -/

theorem highNibble_val (b : UInt8) : (highNibble b).val = b.toNat / 16 := by
  have small := b.toNat_lt
  exact Nat.mod_eq_of_lt (by omega)

theorem lowNibble_val (b : UInt8) : (lowNibble b).val = b.toNat % 16 :=
  Nat.mod_eq_of_lt (Nat.mod_lt _ (by decide))

theorem packNibbles_asNibbles (bytes : Bytes) : packNibbles (asNibbles bytes) = bytes := by
  induction bytes with
  | nil => rfl
  | cons b bytes ih =>
      have merged : (highNibble b).val * 16 + (lowNibble b).val = b.toNat := by
        rw [highNibble_val, lowNibble_val]
        omega
      rw [asNibbles, packNibbles, merged, UInt8.ofNat_toNat, ih]

theorem nibbles_lt (a b : UInt8) :
    a < b ↔ highNibble a < highNibble b ∨ highNibble a = highNibble b ∧
    lowNibble a < lowNibble b := by
  rw [UInt8.lt_iff_toNat_lt, Fin.lt_def, Fin.lt_def, Fin.ext_iff, highNibble_val, highNibble_val,
    lowNibble_val, lowNibble_val]
  omega

theorem asNibbles_lt (a b : Bytes) : asNibbles a < asNibbles b ↔ a < b := by
  induction a generalizing b with
  | nil =>
      cases b with
      | nil => exact iff_of_false (List.not_lt_nil _) (List.not_lt_nil _)
      | cons d b => exact iff_of_true (List.nil_lt_cons _ _) (List.nil_lt_cons _ _)
  | cons c a ih =>
      cases b with
      | nil => exact iff_of_false (List.not_lt_nil _) (List.not_lt_nil _)
      | cons d b =>
          have same : c = d ↔ highNibble c = highNibble d ∧ lowNibble c = lowNibble d := by
            refine ⟨fun equal => equal ▸ ⟨rfl, rfl⟩, fun both => ?_⟩
            have unpacked := packNibbles_asNibbles [c]
            rw [asNibbles, both.1, both.2] at unpacked
            exact (List.singleton_inj.mp (unpacked.symm.trans (packNibbles_asNibbles [d])))
          rw [asNibbles, asNibbles, List.cons_lt_cons_iff, List.cons_lt_cons_iff,
            List.cons_lt_cons_iff, ih, nibbles_lt, same]
          tauto

def element (e : List Nibble × Bytes) : Bytes × Bytes := (packNibbles e.1, e.2)

theorem packNibbles_lt {s t : List Nibble} (even : s.length % 2 = 0) (even' : t.length % 2 = 0) :
    packNibbles s < packNibbles t ↔ s < t := by
  rw [← asNibbles_lt, asNibbles_pack s even, asNibbles_pack t even']

/-! Looking up a key -/

section Iteration

variable {node : H256 → Bytes} {m : Nat}

theorem AtLeaf.at_ {b : IterNode} {trail : List IterNode} {s : List Nibble} {v : Bytes}
    (leaf : AtLeaf m b s v) (even : m % 2 = 0) :
    Iterator.at_ ⟨true, b :: trail⟩ = some (element (s, v)) := by
  have key : b.key = UInt8.ofNat (hexFlags false false * 16) :: packNibbles s := by
    rw [leaf.key, hexPrefix, if_neg]
    rw [leaf.length]
    omega
  rcases Option.map_eq_some_iff.mp leaf.items with ⟨items, read, pair⟩
  rcases Option.bind_eq_some_iff.mp leaf.value with ⟨entry, item, payload⟩
  unfold Iterator.at_
  dsimp only
  rw [key, List.head?_cons, Option.bind_some, if_neg (not_not.mpr (hexFlags_even false).1),
    leaf.construct, Option.bind_some, read, Option.bind_some, if_pos pair, item,
    Option.bind_some, payload]
  rfl

theorem Reached.traverse {it : Iterator} {es : List (List Nibble × Bytes)} {w turns steps : Nat}
    (reached : Reached node m es w it) (short : m + 2 < 2 ^ 32) (even : m % 2 = 0)
    (enough : w < turns) (far : es.length < steps) :
    traverse node turns steps it = some (es.map element) := by
  induction steps generalizing it es w with
  | zero => omega
  | succ steps ih =>
      cases reached with
      | ended none =>
          subst none
          rfl
      | @found b trail s v es' w' first leaf pending less =>
          subst first
          rcases nextFrom_reaches (.free NibbleSlice.fits_cleared rfl pending) short
            (less.trans_lt enough) with
            ⟨it, next, reached⟩
          rw [nextFrom_cleared] at next
          have rest := ih reached (less.trans_lt enough) (Nat.lt_of_succ_lt_succ far)
          rw [Trie.traverse, if_neg (List.cons_ne_nil b trail), leaf.at_ even, Option.bind_some,
            next, Option.bind_some, rest]
          rfl

end Iteration

/-! The content of a trie -/

def ofContent : List (Bytes × Bytes) → Patricia 16 Bytes
  | [] => .empty
  | e :: content => (ofContent content).insert (asNibbles e.1) e.2

theorem asNibbles_inj {a b : Bytes} : asNibbles a = asNibbles b ↔ a = b := by
  refine ⟨fun same => ?_, congrArg asNibbles⟩
  rw [← packNibbles_asNibbles a, same, packNibbles_asNibbles]

theorem ofContent_spec {n : Nat} {content : List (Bytes × Bytes)}
    (length : ∀ e ∈ content, e.1.length = n) :
    (ofContent content).Canonical ∧
    (∀ s w, (ofContent content).find s = some w → s.length = 2 * n) ∧
      ∀ key, (ofContent content).find (asNibbles key) = content.lookup key := by
  induction content with
  | nil => exact ⟨trivial, fun s w found => (nomatch found), fun key => rfl⟩
  | cons e content ih =>
      rcases ih fun e' member => length e' (List.mem_cons_of_mem e member) with
        ⟨canonical, whole, find⟩
      have own : (asNibbles e.1).length = 2 * n := by
        rw [length_asNibbles, length e List.mem_cons_self]
      have apart : Apart (asNibbles e.1) (ofContent content) := by
        intro s w found near
        have same := (whole s w found).trans own.symm
        rcases near with start | start
        · exact start.eq_of_length same
        · exact (start.eq_of_length same.symm).symm
      rcases insert_spec e.2 canonical apart with ⟨canonical', find'⟩
      refine ⟨canonical', fun s w found => ?_, fun key => ?_⟩
      · rw [ofContent, find', Function.update_apply] at found
        split_ifs at found with same
        · rw [same, own]
        · exact whole s w found
      · rw [ofContent, find', Function.update_apply, List.lookup_cons]
        by_cases same : key = e.1
        · rw [if_pos (congrArg asNibbles same), same, beq_self_eq_true]
        · rw [if_neg fun equal => same (asNibbles_inj.mp equal), beq_eq_false_iff_ne.mpr same]
          exact find key

theorem ofContent_depth {n : Nat} {content : List (Bytes × Bytes)}
    (length : ∀ e ∈ content, e.1.length = n) :
    (ofContent content).Depth (2 * n) := by
  rcases ofContent_spec length with ⟨canonical, whole, -⟩
  exact canonical.depth whole

section Content

variable {node : H256 → Bytes} {root : H256} {t : Patricia 16 Bytes} {n : Nat}

theorem even_of_mem (depth : t.Depth (2 * n)) {e : List Nibble × Bytes} (member : e ∈ t.entries) :
    e.1.length % 2 = 0 := by
  rw [depth.length (mem_entries.mp member)]
  exact Nat.mul_mod_right 2 n

theorem mem_content (depth : t.Depth (2 * n)) {key value : Bytes} :
    (key, value) ∈ t.entries.map element ↔ t.find (asNibbles key) = some value := by
  rw [← mem_entries, List.mem_map]
  constructor
  · rintro ⟨e, member, same⟩
    cases same
    change (asNibbles (packNibbles e.1), e.2) ∈ t.entries
    rw [asNibbles_pack e.1 (even_of_mem depth member)]
    exact member
  · intro member
    exact ⟨_, member, congrArg (Prod.mk · value) (packNibbles_asNibbles key)⟩

theorem content_sorted (depth : t.Depth (2 * n)) :
    (t.entries.map element).Pairwise fun a b => a.1 < b.1 := by
  rw [List.pairwise_map]
  exact t.entries_sorted.imp_of_mem fun {a b} left right less =>
    (packNibbles_lt (even_of_mem depth left) (even_of_mem depth right)).mpr less

theorem content_from (depth : t.Depth (2 * n)) (key : Bytes) :
    (t.entriesFrom (asNibbles key)).map element = (t.entries.map element).filter fun e => ¬e.1 <
      key := by
  rw [List.filter_map, entriesFrom]
  refine congrArg (List.map element)
    (List.filter_congr fun e member => decide_eq_decide.mpr (not_congr ?_))
  rw [← asNibbles_lt]
  change e.1 < asNibbles key ↔ asNibbles (packNibbles e.1) < asNibbles key
  rw [asNibbles_pack e.1 (even_of_mem depth member)]

theorem nextFrom_root (stored : Stored node t (node root)) (depth : t.Depth (2 * n))
    (addressable : 2 * n + 2 < 2 ^ 32) {k : NibbleSlice} (fits : k.Fits) {turns steps : Nat}
    (enough : weight t < turns) (far : t.entries.length < steps) :
    ∃ it, nextFrom node true turns k (rootTrail node root) = some it ∧
      traverse node turns steps it = some ((t.entriesFrom k.toList).map element) := by
  have start : Bounded node (2 * n) k [⟨node root, hexPrefix false [], 255⟩]
      ((t.entriesFrom k.toList).map (under []) ++ []) (weight t) :=
      .entering fits stored depth (Nat.zero_add _) .nil
  rcases nextFrom_reaches start addressable enough with ⟨it, next, reached⟩
  have whole : (t.entriesFrom k.toList).map (under []) ++ [] = t.entriesFrom k.toList := by
    rw [List.append_nil]
    exact List.map_id _
  rw [whole] at reached
  refine ⟨it, next, reached.traverse addressable (Nat.mul_mod_right 2 n) enough ?_⟩
  exact (List.length_filter_le _ _).trans_lt far

end Content

/-- What a trie holds comes each once and in the order of the keys: from `begin` on all of it, and
from `lower_bound` on what does not come before the key. -/
theorem iteration_complete_ordered (node : H256 → Bytes) (root : H256)
    (t : Patricia 16 Bytes) (n : Nat) (stored : Stored node t (node root)) (depth : t.Depth (2 * n))
    (addressable : 2 * n + 2 < 2 ^ 32) :
    ∃ content : List (Bytes × Bytes),
      (∀ key value, (key, value) ∈ content ↔ t.find (asNibbles key) = some value) ∧
      content.Pairwise (fun a b => a.1 < b.1) ∧
      ∃ fuel, ∀ turns steps, fuel ≤ turns → fuel ≤ steps →
        (∃ it, begin node turns root = some it ∧ traverse node turns steps it = some content) ∧
        ∀ key, key.length = n → ∃ it, lowerBound node turns root key = some it ∧
          traverse node turns steps it = some (content.filter fun e => ¬e.1 < key) := by
  refine ⟨t.entries.map element, fun key value => mem_content depth, content_sorted depth,
    weight t + t.entries.length + 1, fun turns steps many long => ?_⟩
  have enough : weight t < turns := by omega
  have far : t.entries.length < steps := by omega
  refine ⟨?_, fun key length => ?_⟩
  · rcases nextFrom_root stored depth addressable NibbleSlice.fits_cleared enough far with
      ⟨it, next, through⟩
    rw [nextFrom_cleared] at next
    refine ⟨it, next, ?_⟩
    rw [through]
    exact congrArg (fun es => some (es.map element)) (entriesFrom_nil t)
  · have fits : (⟨key, 0⟩ : NibbleSlice).Fits :=
      ⟨by change 2 * key.length < 2 ^ 32; omega, Nat.zero_le _⟩
    rcases nextFrom_root stored depth addressable fits enough far with ⟨it, next, through⟩
    refine ⟨it, next, ?_⟩
    rw [through]
    exact congrArg some (content_from depth key)

/-! Three keys in a database, the branch below the first nibble of two of them under its hash -/

def threeKeys : List (Bytes × Bytes) :=
  [([0x12], List.replicate 8 1), ([0x13], List.replicate 8 2), ([0x47], [3])]

def leafNode (k : List Nibble) (v : Bytes) : Bytes :=
  Rlp.appendList [Rlp.appendBytes (hexPrefix true k), Rlp.appendBytes v].flatten

def belowEntries (d : Fin 16) : Bytes :=
  if d.val = 2 then leafNode [] (List.replicate 8 1) else if d.val = 3 then
    leafNode [] (List.replicate 8 2) else [0x80]

def topEntries (d : Fin 16) : Bytes :=
  if d.val = 1 then Rlp.appendBytes (toBigEndian 32 9) else if d.val = 4 then
    leafNode [lowNibble 0x47] [3] else [0x80]

def threeNodes (hash : H256) : Bytes :=
  if hash = 9 then Rlp.appendList (List.ofFn belowEntries ++ [[0x80]]).flatten
  else Rlp.appendList (List.ofFn topEntries ++ [[0x80]]).flatten

theorem threeNodes_stored : Stored threeNodes (ofContent threeKeys) (threeNodes 5) := by
  have top : ∃ cs, ofContent threeKeys = .branch cs ∧
    (∀ d, d ≠ 1 → d ≠ 4 → (cs d).isEmpty = true ∧ topEntries d = [0x80]) ∧
      cs 4 = .leaf [7] [3] ∧ ∃ ws, cs 1 = .branch ws ∧
        (∀ d, d ≠ 2 → d ≠ 3 → (ws d).isEmpty = true ∧ belowEntries d = [0x80]) ∧
        ws 2 = .leaf [] (List.replicate 8 1) ∧
          ws 3 = .leaf [] (List.replicate 8 2) :=
    ⟨_, rfl, by decide +kernel, rfl, _, rfl, by decide +kernel, rfl, rfl⟩
  rcases top with ⟨cs, same, empty, last, ws, below, emptyBelow, first, second⟩
  have inner : Stored threeNodes (.branch ws) (threeNodes 9) := by
    refine ⟨belowEntries, ⟨rfl, by decide +kernel⟩, fun d => ?_⟩
    by_cases two : d = 2
    · subst two
      rw [first]
      exact .inr ⟨rfl, belowEntries 2, .inl ⟨rfl, by decide +kernel⟩, ⟨rfl, by decide +kernel⟩⟩
    · by_cases three : d = 3
      · subst three
        rw [second]
        exact .inr ⟨rfl, belowEntries 3, .inl ⟨rfl, by decide +kernel⟩, ⟨rfl, by decide +kernel⟩⟩
      · exact .inl (emptyBelow d two three)
  rw [same]
  refine ⟨topEntries, ⟨rfl, by decide +kernel⟩, fun d => ?_⟩
  by_cases one : d = 1
  · subst one
    rw [below]
    exact .inr ⟨rfl, threeNodes 9, .inr ⟨9, by decide, rfl, rfl⟩, inner⟩
  · by_cases four : d = 4
    · subst four
      rw [last]
      exact .inr ⟨rfl, topEntries 4, .inl ⟨rfl, by decide +kernel⟩, ⟨rfl, by decide +kernel⟩⟩
    · exact .inl (empty d one four)

theorem iteration_complete_ordered_three :
    ∃ content : List (Bytes × Bytes),
      (∀ key value, (key, value) ∈ content ↔
        (ofContent threeKeys).find (asNibbles key) = some value) ∧
      content.Pairwise (fun a b => a.1 < b.1) ∧
      ∃ fuel, ∀ turns steps, fuel ≤ turns → fuel ≤ steps →
        (∃ it, begin threeNodes turns 5 = some it ∧ traverse threeNodes turns steps it =
          some content) ∧
        ∀ key, key.length = 1 → ∃ it, lowerBound threeNodes turns 5 key = some it ∧
          traverse threeNodes turns steps it = some (content.filter fun e => ¬e.1 < key) :=
  iteration_complete_ordered threeNodes 5 (ofContent threeKeys) 1 threeNodes_stored
    (ofContent_depth (by decide)) (by decide)

end Trie

end UtispaceChain
