import UtispaceChain.DevCore.TrieText
import UtispaceChain.Lib.OrderedMap

/-! The root of a map without a database: `hash256` and `orderedTrieRoot`. -/

namespace UtispaceChain

namespace Trie

open Lib

/-- A map from vectors with one nibble a byte; two iterators are the entries between them. -/
abbrev HexMap := List (Bytes × Bytes)

abbrev BytesMap := List (Bytes × Bytes)

/-- The loop that counts the nibbles that two keys share up to a bound. -/
def sharedUpTo (first other : Bytes) (x : Nat) : (turns shared : Nat) → Nat
  | 0, shared => shared
  | turns + 1, shared =>
      if shared < x ∧ first[shared]? = other[shared]? then
        sharedUpTo first other x turns (shared + 1) else shared

def sharedPre (first : Bytes) (preLen : Nat) : HexMap → Nat → Nat
  | [], pre => pre
  | e :: rest, pre =>
      if pre = 0 then pre
      else
        let x := min pre (min (unsigned first.length) (unsigned e.1.length))
        sharedPre first preLen rest (min (sharedUpTo first e.1 x (x - preLen) preLen) pre)

/-- The entries from an iterator on that have a nibble at a place, and those behind them. -/
def withNibble (preLen i : Nat) : HexMap → Option (HexMap × HexMap)
  | [] => some ([], [])
  | e :: rest =>
      (e.1[preLen]?).bind fun d =>
        if d.toNat = i then (withNibble preLen i rest).map fun r => (e :: r.1, r.2)
          else some ([], e :: rest)

def ways (aux : HexMap → Option Bytes) (preLen : Nat) : List Nat → HexMap → Option (List Bytes)
  | [], _ => some []
  | i :: rest, b =>
      (withNibble preLen i b).bind fun r =>
        (if r.1 = [] then some rlpNull else aux r.1).bind fun entry =>
          (ways aux preLen rest r.2).map (entry :: ·)

/-- Each item under the RLP of its number, an `unsigned`. -/
def numbered (data : List Bytes) : List (Bytes × Bytes) :=
  data.zipIdx.map fun item => (Rlp.appendInt (unsigned item.2), item.1)

section Definitions

variable (sha3 : Bytes → H256)

/-- `hash256rlp`, a number of levels at most; `hash256aux` appends `reference` of what it gives. -/
def hash256rlp : Nat → HexMap → Nat → Option Bytes
  | 0, _, _ => none
  | _ + 1, [], _ => some rlpNull
  | _ + 1, [e], preLen =>
      (hexPrefixVector e.1 true preLen (-1)).map fun key =>
        rlpList [Rlp.appendBytes key, Rlp.appendBytes e.2]
  | fuel + 1, e :: a :: rest, preLen =>
      let pre := sharedPre e.1 preLen (a :: rest) (2 ^ 32 - 1)
      if preLen < pre then
        (hexPrefixVector e.1 false preLen (Int.bmod pre (2 ^ 32))).bind fun key =>
          (hash256rlp fuel (e :: a :: rest) pre).map fun rlp =>
            rlpList [Rlp.appendBytes key, reference sha3 rlp]
      else
        let here := preLen = e.1.length
        (ways (fun range => (hash256rlp fuel range (preLen + 1)).map (reference sha3)) preLen
          (List.range 16)
            (if here then a :: rest else e :: a :: rest)).map fun entries =>
          rlpList (entries ++ [if here then Rlp.appendBytes e.2 else rlpNull])

def hexMap (s : BytesMap) : HexMap :=
  assignAll (s.reverse.map fun e => (hexVectorOf (asNibbles e.1), e.2))

def rlp256 (fuel : Nat) (s : BytesMap) : Option Bytes :=
  if s = [] then some rlpNull else hash256rlp sha3 fuel (hexMap s) 0

def hash256 (fuel : Nat) (s : BytesMap) : Option H256 := (rlp256 sha3 fuel s).map sha3

def orderedTrieRoot (fuel : Nat) (data : List Bytes) : Option H256 :=
  hash256 sha3 fuel (assignAll (numbered data))

end Definitions

/-! Vectors with one nibble a byte -/

theorem hexVectorOf_length (s : List Nibble) : (hexVectorOf s).length = s.length :=
  List.length_map _

theorem hexByte_inj : ∀ a b : Nibble, UInt8.ofNat a = UInt8.ofNat b → a = b := by decide

theorem hexByte_lt : ∀ a b : Nibble, UInt8.ofNat a < UInt8.ofNat b ↔ a < b := by decide

theorem hexByte_toNat : ∀ a : Nibble, (UInt8.ofNat a).toNat = a.val := by decide

theorem shared_hexVectorOf (s t : List Nibble) : shared (hexVectorOf s) (hexVectorOf t) =
    shared s t := by
  induction s generalizing t with
  | nil => rfl
  | cons a s ih =>
      cases t with
      | nil => rfl
      | cons b t =>
          change (if UInt8.ofNat a = UInt8.ofNat b then shared (hexVectorOf s) (hexVectorOf t) +
            1 else 0) = _
          rw [ih, shared]
          by_cases same : a = b
          · rw [same, if_pos rfl, if_pos rfl]
          · rw [if_neg fun equal => same (hexByte_inj a b equal), if_neg same]

theorem hexVectorOf_inj {s t : List Nibble} (same : hexVectorOf s = hexVectorOf t) : s = t :=
  List.map_injective_iff.mpr (fun a b equal => hexByte_inj a b equal) same

theorem hexVectorOf_lt {s t : List Nibble} (less : s < t) : hexVectorOf s < hexVectorOf t := by
  induction s generalizing t with
  | nil =>
      cases t with
      | nil => exact absurd less (List.not_lt_nil _)
      | cons b t => exact List.nil_lt_cons _ _
  | cons a s ih =>
      cases t with
      | nil => exact absurd less (List.not_lt_nil _)
      | cons b t =>
          change UInt8.ofNat a :: hexVectorOf s < UInt8.ofNat b :: hexVectorOf t
          rw [List.cons_lt_cons_iff] at less ⊢
          refine less.imp (hexByte_lt a b).mpr fun both => ⟨by rw [both.1], ih both.2⟩

/-! The number of nibbles that all keys share -/

theorem shared_le {α : Type} [DecidableEq α] (a b : List α) : shared a b ≤ a.length ∧
    shared a b ≤ b.length := by
  induction a generalizing b with
  | nil => exact ⟨Nat.zero_le _, Nat.zero_le _⟩
  | cons x a ih =>
      cases b with
      | nil => exact ⟨Nat.zero_le _, Nat.zero_le _⟩
      | cons y b =>
          have both := ih b
          rw [shared, List.length_cons, List.length_cons]
          split_ifs
          · omega
          · omega

theorem shared_next {α : Type} [DecidableEq α] {a b : List α} {i : Nat} (most : i ≤ shared a b)
    (left : i < a.length) (right : i < b.length) : a[i]? = b[i]? ↔ i < shared a b := by
  induction a generalizing b i with
  | nil => cases left
  | cons x a ih =>
      cases b with
      | nil => cases right
      | cons y b =>
          rw [shared] at most ⊢
          cases i with
          | zero =>
              rw [List.getElem?_cons_zero, List.getElem?_cons_zero, Option.some.injEq]
              split_ifs with same
              · exact iff_of_true same (Nat.succ_pos _)
              · exact iff_of_false same (Nat.lt_irrefl 0)
          | succ i =>
              rw [List.getElem?_cons_succ, List.getElem?_cons_succ]
              split_ifs at most ⊢ with same
              · rw [Nat.add_lt_add_iff_right]
                exact ih (Nat.le_of_succ_le_succ most) (Nat.lt_of_succ_lt_succ left)
                  (Nat.lt_of_succ_lt_succ right)
              · exact absurd most (Nat.not_succ_le_zero i)

theorem sharedUpTo_eq {a b : Bytes} {x turns start : Nat} (most : start ≤ shared a b)
    (inside : start ≤ x) (left : x ≤ a.length) (right : x ≤ b.length) (enough : x - start ≤ turns) :
    sharedUpTo a b x turns start = min x (shared a b) := by
  induction turns generalizing start with
  | zero =>
      rw [sharedUpTo]
      omega
  | succ turns ih =>
      rw [sharedUpTo]
      by_cases here : start < x
      · have next := shared_next most (by omega) (by omega)
        by_cases further : start < shared a b
        · rw [if_pos ⟨here, next.mpr further⟩]
          exact ih further here (by omega)
        · rw [if_neg fun both => further (next.mp both.2)]
          omega
      · rw [if_neg fun both => here both.1]
        omega

theorem sharedPre_spec {first : Bytes} {preLen pre : Nat} {rest : HexMap}
    (count : first.length < 2 ^ 32) (counts : ∀ e ∈ rest, e.1.length < 2 ^ 32)
    (near : ∀ e ∈ rest, preLen ≤ shared first e.1) (inside : preLen ≤ pre) :
    (∀ e ∈ rest, sharedPre first preLen rest pre ≤ shared first e.1) ∧
      ∀ n ≤ pre, (∀ e ∈ rest, n ≤ shared first e.1) → n ≤ sharedPre first preLen rest pre := by
  have general : ∀ n, (n ≤ pre ∧ ∀ e ∈ rest, n ≤ shared first e.1) ↔
      n ≤ sharedPre first preLen rest pre := by
    induction rest generalizing pre with
    | nil =>
        intro n
        rw [sharedPre]
        simp
    | cons e rest ih =>
        intro n
        have close := near e List.mem_cons_self
        have lengths := shared_le first e.1
        have long := counts e List.mem_cons_self
        have left : unsigned (first.length : Int) = first.length := unsigned_of_lt (by omega)
        have right : unsigned (e.1.length : Int) = e.1.length := unsigned_of_lt (by omega)
        rw [sharedPre]
        split_ifs with none
        · subst none
          constructor
          · exact And.left
          · intro least
            have zero : n = 0 := Nat.le_zero.mp least
            subst zero
            exact ⟨le_rfl, fun _ _ => Nat.zero_le _⟩
        · dsimp only
          rw [left, right, sharedUpTo_eq close (by omega) (by omega) (by omega) le_rfl,
            ← ih (fun e member => counts e (List.mem_cons_of_mem _ member))
              (fun e member => near e (List.mem_cons_of_mem _ member)) (by omega),
              List.forall_mem_cons]
          constructor
          · rintro ⟨low, here, later⟩
            exact ⟨by omega, later⟩
          · rintro ⟨low, later⟩
            exact ⟨by omega, by omega, later⟩
  have self := (general _).mpr le_rfl
  exact ⟨self.2, fun n low each => (general n).mp ⟨low, each⟩⟩

theorem sharedPre_fork {p : List Nibble} {preLen : Nat} {e : Bytes × Bytes} {rest : HexMap}
    (onward : ∀ x ∈ e :: rest, ∃ d s, x.1 = hexVectorOf (p ++ d :: s))
    (counts : ∀ x ∈ e :: rest, x.1.length < 2 ^ 32) (inside : preLen ≤ p.length) {a b : Nibble}
    {s t : List Nibble} {v w : Bytes} (differ : a ≠ b)
    (left : (hexVectorOf (p ++ a :: s), v) ∈ e :: rest)
    (right : (hexVectorOf (p ++ b :: t), w) ∈ e :: rest) :
    sharedPre e.1 preLen rest (2 ^ 32 - 1) = p.length := by
  rcases onward e List.mem_cons_self with ⟨c, r, first⟩
  have length : e.1.length < 2 ^ 32 := counts e List.mem_cons_self
  have room : p.length < e.1.length := by
    rw [first, hexVectorOf_length, List.length_append, List.length_cons]
    omega
  have least : ∀ x ∈ rest, p.length ≤ shared e.1 x.1 := by
    intro x member
    rcases onward x (List.mem_cons_of_mem e member) with ⟨d, u, same⟩
    rw [first, same, shared_hexVectorOf, shared_append]
    exact Nat.le_add_right _ _
  have apart : ∀ {d : Nibble} {u : List Nibble} {z : Bytes}, c ≠ d →
    (hexVectorOf (p ++ d :: u), z) ∈ e :: rest →
      (hexVectorOf (p ++ d :: u), z) ∈ rest ∧ shared e.1 (hexVectorOf (p ++ d :: u)) =
        p.length := by
    intro d u z other member
    refine ⟨(List.mem_cons.mp member).resolve_left fun same => ?_, ?_⟩
    · have keys := hexVectorOf_inj ((congrArg Prod.fst same).trans first)
      exact other (List.cons.inj (List.append_cancel_left keys)).1.symm
    · rw [first, shared_hexVectorOf, shared_append, shared_ne other, Nat.add_zero]
  rcases sharedPre_spec length (fun x member => counts x (List.mem_cons_of_mem e member))
    (fun x member => inside.trans (least x member)) (by omega : preLen ≤ 2 ^ 32 - 1)
    with ⟨low, high⟩
  refine le_antisymm ?_ (high p.length (by omega) least)
  by_cases one : c = a
  · rcases apart (one ▸ differ) right with ⟨member, same⟩
    exact (low _ member).trans same.le
  · rcases apart one left with ⟨member, same⟩
    exact (low _ member).trans same.le

theorem withNibble_append {preLen i : Nat} {front back : HexMap}
    (each : ∀ e ∈ front, ∃ d : UInt8, e.1[preLen]? = some d ∧ d.toNat = i)
    (stop : ∀ e ∈ back.head?, ∃ d : UInt8, e.1[preLen]? = some d ∧ d.toNat ≠ i) :
    withNibble preLen i (front ++ back) = some (front, back) := by
  induction front with
  | nil =>
      cases back with
      | nil => rfl
      | cons e back =>
          rcases stop e rfl with ⟨d, read, other⟩
          rw [List.nil_append, withNibble, read, Option.bind_some, if_neg other]
  | cons e front ih =>
      rcases each e List.mem_cons_self with ⟨d, read, same⟩
      rw [List.cons_append, withNibble, read, Option.bind_some, if_pos same,
        ih fun x member => each x (List.mem_cons_of_mem e member)]
      rfl

/-! The text of a tree from its entries -/

/-- An entry under a part of the path, as it stands in the map. -/
def hexUnder (p : List Nibble) (e : List Nibble × Bytes) : Bytes × Bytes :=
  (hexVectorOf (p ++ e.1), e.2)

theorem map_hexUnder (p k : List Nibble) (es : List (List Nibble × Bytes)) :
    (es.map (Patricia.under k)).map (hexUnder p) = es.map (hexUnder (p ++ k)) := by
  rw [List.map_map]
  refine List.map_congr_left fun e _ => ?_
  rw [Function.comp_apply, hexUnder, hexUnder, Patricia.under, List.append_assoc]

section Text

variable {sha3 : Bytes → H256} {t : Patricia 16 Bytes} {p : List Nibble}

theorem mem_range {t : Patricia 16 Bytes} {x : Bytes × Bytes} :
    x ∈ t.entries.map (hexUnder p) ↔ ∃ s w, t.find s = some w ∧ x = (hexVectorOf (p ++ s), w) := by
  rw [List.mem_map]
  constructor
  · rintro ⟨⟨s, w⟩, member, rfl⟩
    exact ⟨s, w, Patricia.mem_entries.mp member, rfl⟩
  · rintro ⟨s, w, found, rfl⟩
    exact ⟨(s, w), Patricia.mem_entries.mpr found, rfl⟩

theorem nibble_at (d : Nibble) (s : List Nibble) : (hexVectorOf (p ++ d :: s))[p.length]? =
    some (UInt8.ofNat d) := by
  rw [hexVectorOf_getElem?, List.getElem?_append_right le_rfl, Nat.sub_self]
  rfl

theorem ways_eq {cs : Fin 16 → Patricia 16 Bytes} {aux : HexMap → Option Bytes}
    (each : ∀ d, (cs d).isEmpty = false →
      aux ((cs d).entries.map (hexUnder (p ++ [d]))) = some (reference sha3 (text sha3 (cs d))))
    (full : ∀ d, (cs d).isEmpty = false → (cs d).entries ≠ []) (is : List (Fin 16))
    (distinct : is.Nodup) :
    ways aux p.length (is.map Fin.val)
      ((is.flatMap fun d => (cs d).entries.map (Patricia.under [d])).map (hexUnder p)) =
      some (is.map fun d => reference sha3 (text sha3 (cs d))) := by
  induction is with
  | nil => rfl
  | cons i is ih =>
      rw [List.nodup_cons] at distinct
      have front : ∀ e ∈ (cs i).entries.map (hexUnder (p ++ [i])), ∃ d : UInt8, e.1[p.length]? =
          some d ∧ d.toNat = i.val := by
        intro e member
        rcases List.mem_map.mp member with ⟨x, -, rfl⟩
        refine ⟨UInt8.ofNat i, ?_, hexByte_toNat i⟩
        rw [hexUnder, List.append_assoc, List.singleton_append]
        exact nibble_at i x.1
      have back : ∀ e ∈
        (((is.flatMap fun d => (cs d).entries.map (Patricia.under [d])).map (hexUnder p)).head?),
          ∃ d : UInt8, e.1[p.length]? = some d ∧ d.toNat ≠ i.val := by
        intro e first
        rcases List.mem_map.mp (List.mem_of_mem_head? first) with ⟨x, member, rfl⟩
        rcases List.mem_flatMap.mp member with ⟨d, later, below⟩
        rcases List.mem_map.mp below with ⟨y, -, rfl⟩
        refine ⟨UInt8.ofNat d, nibble_at d y.1, ?_⟩
        rw [hexByte_toNat]
        exact fun same => distinct.1 (Fin.ext same ▸ later)
      rw [List.map_cons, List.flatMap_cons, List.map_append, map_hexUnder, ways,
        withNibble_append front back, Option.bind_some, ih distinct.2, List.map_cons]
      cases shape : (cs i).isEmpty with
      | true =>
          rw [Patricia.eq_empty shape]
          rfl
      | false =>
          have some_ : (cs i).entries.map (hexUnder (p ++ [i])) ≠ [] :=
            fun none => full i shape (List.map_eq_nil_iff.mp none)
          rw [if_neg some_, each i shape]
          rfl

theorem exists_cons_cons {α : Type} {l : List α} {x y : α} (left : x ∈ l) (right : y ∈ l)
    (differ : x ≠ y) :
    ∃ e a rest, l = e :: a :: rest := by
  match l with
  | [] => cases left
  | [e] =>
      exact absurd ((List.mem_singleton.mp left).trans (List.mem_singleton.mp right).symm) differ
  | e :: a :: rest => exact ⟨e, a, rest, rfl⟩

theorem hexVector_part {k q : List Nibble} (short : (p ++ k ++ q).length + 1 < 2 ^ 31)
    (leaf : Bool) :
    (q = [] → hexPrefixVector (hexVectorOf (p ++ k ++ q)) leaf p.length (-1) =
      some (hexPrefix leaf k)) ∧
      hexPrefixVector (hexVectorOf (p ++ k ++ q)) leaf p.length (Int.bmod (p ++ k).length (2 ^ 32))
        =
        some (hexPrefix leaf k) := by
  have cast : Int.bmod ((p ++ k).length : Int) (2 ^ 32) = ((p ++ k).length : Int) := by
    rw [List.length_append] at short
    apply Int.bmod_eq_of_le <;> omega
  have cut : ((p ++ k ++ q).take (p ++ k).length).drop p.length = k := by
    rw [List.take_left, List.drop_left]
  have whole : ∀ stop : Int, endOf (p ++ k ++ q).length stop = ((p ++ k).length : Int) →
      hexPrefixVector (hexVectorOf (p ++ k ++ q)) leaf p.length stop = some (hexPrefix leaf k) := by
    intro stop same
    have part : Part (p ++ k ++ q) p.length stop k := by
      refine ⟨?_, ?_, ?_⟩
      · rw [same, List.length_append]
        omega
      · have total : (p ++ k ++ q).length = (p ++ k).length + q.length := List.length_append
        rw [same, total]
        omega
      · rw [same, Int.toNat_natCast]
        exact cut
    refine part.vector ?_ leaf
    rw [same]
    rw [List.length_append] at short
    omega
  refine ⟨fun none => whole _ ?_, ?_⟩
  · subst none
    rw [List.append_nil, endOf, if_pos (by decide)]
    omega
  · rw [cast]
    refine whole _ ?_
    rw [endOf, if_neg (by omega)]

theorem branch_range (canonical : t.Canonical) (shape : t.isBranch = true)
    (fits : ∀ s w, t.find s = some w → p.length + s.length + 1 < 2 ^ 31) :
    ∃ e a rest, t.entries.map (hexUnder p) = e :: a :: rest ∧
    (∃ d s, e.1 = hexVectorOf (p ++ d :: s)) ∧
      ∀ preLen ≤ p.length, sharedPre e.1 preLen (a :: rest) (2 ^ 32 - 1) = p.length := by
  rcases canonical.forks shape with ⟨a, b, s, u, v, w, differ, first, second⟩
  have left := mem_range (p := p).mpr ⟨a :: s, v, first, rfl⟩
  have right := mem_range (p := p).mpr ⟨b :: u, w, second, rfl⟩
  have apart : (hexVectorOf (p ++ a :: s), v) ≠ (hexVectorOf (p ++ b :: u), w) := fun same =>
    differ (List.cons.inj (List.append_cancel_left (hexVectorOf_inj (congrArg Prod.fst same)))).1
  have onward : ∀ x ∈ t.entries.map (hexUnder p), ∃ d s, x.1 = hexVectorOf (p ++ d :: s) := by
    intro x member
    rcases mem_range.mp member with ⟨s, w, found, rfl⟩
    cases t with
    | branch cs =>
        rcases Patricia.find_branch.mp found with ⟨d, s, rfl, -⟩
        exact ⟨d, s, rfl⟩
    | _ => cases shape
  have counts : ∀ x ∈ t.entries.map (hexUnder p), x.1.length < 2 ^ 32 := by
    intro x member
    rcases mem_range.mp member with ⟨s, w, found, rfl⟩
    have short := fits s w found
    rw [hexVectorOf_length, List.length_append]
    omega
  rcases exists_cons_cons left right apart with ⟨e, x, rest, range⟩
  rw [range] at left right onward counts ⊢
  exact ⟨e, x, rest, rfl, onward e List.mem_cons_self, fun preLen inside =>
    sharedPre_fork onward counts inside differ left right⟩

theorem hash256rlp_text (canonical : t.Canonical) {fuel : Nat} (positive : 0 < fuel)
    (fits : ∀ s w, t.find s = some w → p.length + s.length + 1 < 2 ^ 31)
    (enough : ∀ s w, t.find s = some w → s.length < fuel) :
    hash256rlp sha3 fuel (t.entries.map (hexUnder p)) p.length = some (text sha3 t) := by
  induction t generalizing fuel p with
  | empty =>
      rcases Nat.exists_eq_add_of_le' positive with ⟨fuel, rfl⟩
      rfl
  | leaf k v =>
      rcases Nat.exists_eq_add_of_le' positive with ⟨fuel, rfl⟩
      have short := fits k v (Patricia.find_leaf.mpr ⟨rfl, rfl⟩)
      have key :=
        (hexVector_part (p := p) (k := k) (q := [])
          (by rw [List.append_nil, List.length_append]; omega) true).1 rfl
      rw [List.append_nil] at key
      change hash256rlp sha3 (fuel + 1) [(hexVectorOf (p ++ k), v)] p.length = _
      rw [hash256rlp, key]
      rfl
  | ext k c ih =>
      rcases Nat.exists_eq_add_of_le' positive with ⟨fuel, rfl⟩
      have some_ := List.length_pos_of_ne_nil canonical.1
      have fits' : ∀ s w, c.find s = some w → (p ++ k).length + s.length + 1 < 2 ^ 31 := by
        intro s w found
        have short := fits (k ++ s) w (by rw [Patricia.find_ext_append, found])
        rw [List.length_append] at short ⊢
        omega
      have enough' : ∀ s w, c.find s = some w → s.length < fuel := by
        intro s w found
        have less := enough (k ++ s) w (by rw [Patricia.find_ext_append, found])
        rw [List.length_append] at less
        omega
      rcases canonical.2.2.forks canonical.2.1 with ⟨a, -, s, -, v, -, -, first, -⟩
      have inner :=
        ih (p := p ++ k) canonical.2.2 (Nat.zero_lt_of_lt (enough' _ v first)) fits' enough'
      rcases branch_range canonical.2.2 canonical.2.1 fits' with
        ⟨e, x, rest, range, ⟨d, u, front⟩, pre⟩
      have length : (p ++ k).length = p.length + k.length := List.length_append
      have key : hexPrefixVector e.1 false p.length (Int.bmod (p ++ k).length (2 ^ 32)) =
          some (hexPrefix false k) := by
        have member : e ∈ c.entries.map (hexUnder (p ++ k)) := by
          rw [range]; exact List.mem_cons_self
        rcases mem_range.mp member with ⟨s', w', found, same⟩
        have short := fits' s' w' found
        rw [same]
        exact (hexVector_part (by rw [List.length_append]; omega) false).2
      rw [Patricia.entries, map_hexUnder]
      rw [range] at inner ⊢
      rw [hash256rlp]
      dsimp only
      rw [pre p.length (by omega), if_pos (by omega), key, Option.bind_some, inner]
      rfl
  | branch cs ih =>
      rcases Nat.exists_eq_add_of_le' positive with ⟨fuel, rfl⟩
      rcases branch_range canonical rfl fits with ⟨e, x, rest, range, ⟨d, u, front⟩, pre⟩
      have here : ¬p.length = e.1.length := by
        rw [front, hexVectorOf_length, List.length_append, List.length_cons]
        omega
      have each : ∀ d, (cs d).isEmpty = false →
          (hash256rlp sha3 fuel ((cs d).entries.map (hexUnder (p ++ [d]))) (p.length + 1)).map
            (reference sha3) =
            some (reference sha3 (text sha3 (cs d))) := by
        intro d full
        have length : (p ++ [d]).length = p.length + 1 := by
          rw [List.length_append, List.length_singleton]
        have enough' : ∀ s w, (cs d).find s = some w → s.length < fuel := by
          intro s w found
          have less := enough (d :: s) w found
          rw [List.length_cons] at less
          omega
        have fits' : ∀ s w, (cs d).find s = some w → (p ++ [d]).length + s.length + 1 < 2 ^ 31 := by
          intro s w found
          have short := fits (d :: s) w found
          rw [List.length_cons] at short
          omega
        rcases (canonical.2 d).inhabited full with ⟨s, w, found⟩
        have inner :=
          ih d (p := p ++ [d]) (canonical.2 d) (Nat.zero_lt_of_lt (enough' s w found)) fits' enough'
        rw [length] at inner
        rw [inner, Option.map_some]
      have full : ∀ d, (cs d).isEmpty = false → (cs d).entries ≠ [] := by
        intro d some_ none
        rcases (canonical.2 d).inhabited some_ with ⟨s, w, found⟩
        have member := Patricia.mem_entries.mpr found
        rw [none] at member
        cases member
      have walk :=
        @ways_eq sha3 p cs
          (fun range => (hash256rlp sha3 fuel range (p.length + 1)).map (reference sha3)) each
        full (List.finRange 16) (List.nodup_finRange 16)
      have order : List.range 16 = (List.finRange 16).map Fin.val := by decide
      have entries : (List.finRange 16).flatMap (fun d => (cs d).entries.map (Patricia.under [d])) =
          (Patricia.branch cs).entries := rfl
      rw [entries, range, ← order] at walk
      rw [range, hash256rlp]
      dsimp only
      rw [pre p.length le_rfl, if_neg (Nat.lt_irrefl _), if_neg here, if_neg here, walk,
        Option.map_some, text, List.ofFn_eq_map]

end Text

/-! The root of a map -/

structure IsTree (t : Patricia 16 Bytes) (m : BytesMap) : Prop where
  canonical : t.Canonical
  find : ∀ s w, t.find s = some w ↔ ∃ key, s = asNibbles key ∧ (key, w) ∈ m

section Root

variable {sha3 : Bytes → H256} {t : Patricia 16 Bytes} {m : BytesMap}

theorem IsTree.hexMap (tree : IsTree t m) (sorted : Sorted m) :
    Trie.hexMap m = t.entries.map (hexUnder []) := by
  have distinct : ((m.reverse.map fun e => (hexVectorOf (asNibbles e.1), e.2)).map
      Prod.fst).Nodup := by
    have keys : ((m.reverse.map Prod.fst).map fun key => hexVectorOf (asNibbles key)).Nodup :=
      ((List.map_reverse ▸
        List.nodup_reverse.mpr sorted.nodup : (m.reverse.map Prod.fst).Nodup)).map
        fun a b same => asNibbles_inj.mp (hexVectorOf_inj same)
    rw [List.map_map] at keys ⊢
    exact keys
  rcases mem_assignAll distinct with ⟨ordered, members⟩
  have other : Sorted (t.entries.map (hexUnder [])) :=
    List.pairwise_map.mpr ((Patricia.entries_sorted t).imp fun less => hexVectorOf_lt less)
  refine ordered.unique other fun e => ?_
  rw [members, mem_range, List.mem_map]
  constructor
  · rintro ⟨⟨key, w⟩, member, rfl⟩
    exact ⟨asNibbles key, w, (tree.find _ _).mpr ⟨key, rfl, List.mem_reverse.mp member⟩, rfl⟩
  · rintro ⟨s, w, found, rfl⟩
    rcases (tree.find s w).mp found with ⟨key, rfl, member⟩
    exact ⟨(key, w), List.mem_reverse.mpr member, rfl⟩

theorem IsTree.hash256 (tree : IsTree t m) (sorted : Sorted m) {fuel : Nat} (positive : 0 < fuel)
    (short : ∀ e ∈ m, 2 * e.1.length + 1 < 2 ^ 31) (enough : ∀ e ∈ m, 2 * e.1.length < fuel) :
    Trie.hash256 sha3 fuel m = some (sha3 (text sha3 t)) := by
  have length : ∀ s w, t.find s = some w → ∃ e ∈ m, s.length = 2 * e.1.length := by
    intro s w found
    rcases (tree.find s w).mp found with ⟨key, rfl, member⟩
    exact ⟨(key, w), member, length_asNibbles key⟩
  have whole : rlp256 sha3 fuel m = some (text sha3 t) := by
    unfold rlp256
    split_ifs with none
    · subst none
      have empty : t = .empty := tree.canonical.unique (m := .empty) trivial fun s => by
        cases found : t.find s with
        | none => rfl
        | some w =>
            rcases (tree.find s w).mp found with ⟨key, -, member⟩
            cases member
      rw [empty]
      rfl
    · rw [tree.hexMap sorted]
      refine hash256rlp_text (p := []) tree.canonical positive (fun s w found => ?_)
        fun s w found => ?_
      · rcases length s w found with ⟨e, member, same⟩
        have bound := short e member
        rw [List.length_nil]
        omega
      · rcases length s w found with ⟨e, member, same⟩
        have bound := enough e member
        omega
  rw [Trie.hash256, whole, Option.map_some]

end Root

end Trie

end UtispaceChain
