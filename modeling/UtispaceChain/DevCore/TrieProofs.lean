import UtispaceChain.DevCore.TrieRoots

/-! Merkle proofs: `proofs` of `GenericTrieDB`, and `verifyProof` without a database. -/

namespace UtispaceChain

namespace Trie

open Lib

def hexChar (n : Nibble) : UInt8 :=
  if n.val < 10 then UInt8.ofNat (48 + n.val) else UInt8.ofNat (87 + n.val)

/-- `hex()` of a hash, two characters a byte. -/
def hex (h : H256) : Bytes := (asNibbles (toBigEndian 32 h)).map hexChar

/-- The pair of `getNode`: 0 for nothing, 1 with a value, 2 with the hash to go on with. -/
inductive NodeInfo
  | unknown
  | value (v : Bytes)
  | hash (want : Bytes)
  deriving DecidableEq

/-- `getNode` with the rest of the key, a number of levels at most. -/
def getNode : Nat → NibbleSlice → Bytes → Option (NodeInfo × NibbleSlice)
  | 0, _, _ => none
  | fuel + 1, key, here =>
      if Rlp.isEmpty here ∨ here = [] then some (.unknown, key)
      else
        (Rlp.items here).bind fun items =>
          if ¬(Rlp.isList here ∧ (items.length = 2 ∨ items.length = 17)) then none
          else if items.length = 2 then
            (keyOf here).bind fun k => (isLeaf here).bind fun leaf =>
              if key.same k ∧ leaf then
                (Rlp.item here 1).bind fun n => (Rlp.toBytes n).map fun v => (.value v, key)
              else if key.contains k ∧ ¬leaf then
                (Rlp.item here 1).bind fun n =>
                  if Rlp.isList n then getNode fuel (key.mid k.size) n
                  else (Rlp.toHashStrict 32 n).map fun h => (.hash (hex h), key.mid k.size)
              else some (.unknown, key)
          else if key.size = 0 then (Rlp.item here 16).bind fun n => (Rlp.toBytes n).map fun v =>
            (.value v, key)
          else
            (key.get 0).bind fun d => (Rlp.item here d).bind fun n =>
              if Rlp.isEmpty n then some (.unknown, key)
              else if Rlp.isList n then getNode fuel (key.mid 1) n
              else (Rlp.toHashStrict 32 n).map fun h => (.hash (hex h), key.mid 1)

section Definitions

variable (node : H256 → Bytes)

/-- What is pushed on the proofs for the node behind a short part: nothing of a node that stands in
its parent. -/
def pushed (n : Bytes) : Option Bytes :=
  if Rlp.isList n then Rlp.toBytes n else (Rlp.toHashStrict 32 n).map node

def proofsAux : Nat → Bytes → NibbleSlice → Option (List Bytes)
  | 0, _, _ => none
  | fuel + 1, here, key =>
      if Rlp.isEmpty here ∨ here = [] then some []
      else
        (Rlp.items here).bind fun items =>
          if ¬(Rlp.isList here ∧ (items.length = 2 ∨ items.length = 17)) then none
          else if items.length = 2 then
            (keyOf here).bind fun k => (isLeaf here).bind fun leaf =>
              if key.same k ∧ leaf then some []
              else if key.contains k ∧ ¬leaf then
                (Rlp.item here 1).bind fun n => (pushed node n).bind fun proof =>
                  (entered node n).bind fun below =>
                  (proofsAux fuel below (key.mid k.size)).map (proof :: ·)
              else some []
          else if key.size = 0 then some []
          else
            (key.get 0).bind fun d => (Rlp.item here d).bind fun n =>
              if Rlp.isEmpty n then some []
              else if Rlp.isList n then proofsAux fuel n (key.mid 1)
              else (pushed node n).bind fun proof => (entered node n).bind fun below =>
                (proofsAux fuel below (key.mid 1)).map (proof :: ·)

def proofs (fuel : Nat) (root : H256) (key : Bytes) : Option (List Bytes) :=
  if node root = [] then some []
  else
    (Rlp.construct (node root)).bind fun here => (proofsAux node fuel here ⟨key, 0⟩).map
      (node root :: ·)

end Definitions

variable (sha3 : Bytes → H256) in
def verifyFrom (fuel : Nat) : Bytes → NibbleSlice → List Bytes → Bool × Bytes
  | _, _, [] => (false, [])
  | want, key, proof :: rest =>
      if hex (sha3 proof) ≠ want then (false, [])
      else
        match (Rlp.construct proof).bind (getNode fuel key) with
        | none => (false, [])
        | some (.unknown, _) => (false, [])
        | some (.value v, _) => (true, v)
        | some (.hash want, key) => verifyFrom fuel want key rest

def verifyProof (sha3 : Bytes → H256) (fuel : Nat) (root key : Bytes) (proofs : List Bytes) :
    Bool × Bytes :=
  verifyFrom sha3 fuel root ⟨key, 0⟩ proofs

/-! What there is to find, and the nodes on the way -/

variable (sha3 : Bytes → H256) in
/-- The nodes that follow a node on the way of a key, nothing for one in its parent behind an
extension. -/
def onward : Patricia 16 Bytes → List Nibble → List Bytes
  | .empty, _ => []
  | .leaf _ _, _ => []
  | .ext k c, s =>
      if k <+: s then (if (text sha3 c).length < 32 then [] else text sha3 c) ::
        onward c (s.drop k.length) else []
  | .branch _, [] => []
  | .branch cs, d :: s =>
      if (cs d).isEmpty then []
      else if (text sha3 (cs d)).length < 32 then onward (cs d) s
      else text sha3 (cs d) :: onward (cs d) s

section Nodes

variable {sha3 : Bytes → H256} {node : H256 → Bytes} {t : Patricia 16 Bytes} {key : NibbleSlice}
    {fuel : Nat}

theorem reference_cases (bounded : ∀ b, sha3 b < 2 ^ 256) (sized : Sized t)
    (full : t.isEmpty = false) :
    (text sha3 t).length < 32 ∧ reference sha3 (text sha3 t) = text sha3 t ∧
    Rlp.isList (reference sha3 (text sha3 t)) = true ∨
      32 ≤ (text sha3 t).length ∧ Rlp.isList (reference sha3 (text sha3 t)) = false ∧
        Rlp.toHashStrict 32 (reference sha3 (text sha3 t)) = some (sha3 (text sha3 t)) := by
  by_cases short : (text sha3 t).length < 32
  · have list := (text_shape sha3 sized).2
    rw [full, Bool.not_false] at list
    refine .inl ⟨short, reference_short short, ?_⟩
    rw [reference_short short]
    exact list
  · have long := not_lt.mp short
    rcases reference_hash bounded long with ⟨-, list, -, read⟩
    exact .inr ⟨long, list, read⟩

theorem pushed_reference (bounded : ∀ b, sha3 b < 2 ^ 256) (sized : Sized t)
    (full : t.isEmpty = false) (found : 32 ≤ (text sha3 t).length → node (sha3 (text sha3 t)) =
      text sha3 t) :
    pushed node (reference sha3 (text sha3 t)) =
      some (if (text sha3 t).length < 32 then [] else text sha3 t) := by
  rcases reference_cases bounded sized full with ⟨short, same, list⟩ | ⟨long, list, read⟩
  · have data : Rlp.isData (text sha3 t) = false := by
      rw [same] at list
      cases shape : Rlp.isData (text sha3 t) with
      | false => rfl
      | true =>
          rw [Rlp.isList_eq_false _ shape] at list
          cases list
    rw [pushed, if_pos list, same, Rlp.toBytes, data, if_neg Bool.false_ne_true, if_pos short]
  · rw [pushed, list, if_neg Bool.false_ne_true, read, Option.map_some, found long,
      if_neg (not_lt.mpr long)]

theorem proofsAux_held (bounded : ∀ b, sha3 b < 2 ^ 256) (sized : Sized t) (canonical : t.Canonical)
    (held : Held sha3 node t) (fits : key.Fits) (enough : key.toList.length < fuel) :
    proofsAux node fuel (text sha3 t) key = some (onward sha3 t key.toList) := by
  induction t generalizing fuel key with
  | empty =>
      rcases Nat.exists_eq_add_of_lt enough with ⟨fuel, rfl⟩
      rfl
  | leaf k v =>
      rcases Nat.exists_eq_add_of_lt enough with ⟨fuel, rfl⟩
      rcases text_leaf sha3 sized with ⟨part, reads⟩
      rcases node_shape reads.full reads.size with ⟨items, read, two, there, shape⟩
      rw [proofsAux, if_neg there, read, Option.bind_some, if_neg shape, if_pos two, reads.keyOf,
        Option.bind_some, reads.isLeaf, Option.bind_some, if_neg fun both : key.contains part =
          true ∧ ¬true = true => both.2 rfl, ite_self]
      rfl
  | ext k c ih =>
      rcases Nat.exists_eq_add_of_lt enough with ⟨fuel, rfl⟩
      rcases text_ext sha3 sized with ⟨part, reads⟩
      rcases held.ext with ⟨below, found⟩
      have full := Patricia.isBranch_full canonical.2.1
      rcases node_shape reads.full reads.size with ⟨items, read, two, there, shape⟩
      rw [proofsAux, if_neg there, read, Option.bind_some, if_neg shape, if_pos two, reads.keyOf,
        Option.bind_some, reads.isLeaf, Option.bind_some, if_neg fun both => Bool.false_ne_true
          both.2, fits.contains reads.fits, reads.toList, reads.item, Option.bind_some,
        pushed_reference bounded sized.2 full found, Option.bind_some,
        entered_reference bounded sized.2 full found, Option.bind_some, onward]
      by_cases start : k <+: key.toList
      · rcases fits.mid start.length_le with ⟨fitsLeft, toListLeft⟩
        have positive := List.length_pos_of_ne_nil canonical.1
        have inside := start.length_le
        rw [if_pos ⟨decide_eq_true start, Bool.false_ne_true⟩, if_pos start, reads.fits.size,
          reads.toList, ih sized.2 canonical.2.2 below fitsLeft
            (by rw [toListLeft, List.length_drop]; omega), toListLeft, Option.map_some]
      · rw [if_neg fun both => start (of_decide_eq_true both.1), if_neg start]
  | branch cs ih =>
      rcases Nat.exists_eq_add_of_le' (Nat.one_le_of_lt enough) with ⟨fuel, rfl⟩
      have reads := text_branch sha3 sized
      rcases node_shape reads.full (text_branch_size sha3 sized) with
        ⟨items, read, many, there, shape⟩
      have pair : ¬items.length = 2 := by omega
      rw [proofsAux, if_neg there, read, Option.bind_some, if_neg shape, if_neg pair]
      by_cases spent : key.size = 0
      · rw [if_pos spent, fits.size_eq_zero.mp spent]
        rfl
      · rcases List.exists_cons_of_ne_nil fun none => spent (fits.size_eq_zero.mpr none) with
          ⟨d, left, split⟩
        rcases fits.uncons split with ⟨first, fitsLeft, toListLeft⟩
        rcases held.branch d with ⟨below, found⟩
        rw [if_neg spent, first, Option.bind_some, reads.item, entriesOf_get, Option.bind_some,
          split, onward, reference_isEmpty bounded (sized d)]
        cases full : (cs d).isEmpty with
        | true => rfl
        | false =>
            rw [split, List.length_cons] at enough
            have inner : proofsAux node fuel (text sha3 (cs d)) (key.mid 1) =
                some (onward sha3 (cs d) (key.mid 1).toList) :=
              ih d (sized d) (canonical.2 d) below fitsLeft (by rw [toListLeft]; omega)
            rw [toListLeft] at inner
            rw [if_neg Bool.false_ne_true, if_neg Bool.false_ne_true]
            rcases reference_cases bounded (sized d) full with
              ⟨short, same, list⟩ | ⟨long, list, read⟩
            · rw [if_pos list, same, inner, if_pos short]
            · rw [list, if_neg Bool.false_ne_true, pushed_reference bounded (sized d) full found,
                Option.bind_some, entered_reference bounded (sized d) full found, Option.bind_some,
                inner, if_neg (not_lt.mpr long), if_neg (not_lt.mpr long)]
              rfl

/-- A node that the rest of a key leads to, and that is referred to by its hash. -/
structure Leads (sha3 : Bytes → H256) (t : Patricia 16 Bytes) (key : List Nibble)
    (c : Patricia 16 Bytes) (rest : NibbleSlice) :
    Prop where
  sized : Sized c
  canonical : c.Canonical
  apart : Patricia.Apart rest.toList c
  fits : rest.Fits
  shorter : rest.toList.length < key.length
  find : t.find key = c.find rest.toList
  onward : onward sha3 t key = text sha3 c :: onward sha3 c rest.toList
  long : 32 ≤ (text sha3 t).length
  texts : ∀ x ∈ texts sha3 c, x ∈ texts sha3 t

/-- What `getNode` says is so. -/
def Answers (sha3 : Bytes → H256) (t : Patricia 16 Bytes) (key : List Nibble)
    (answer : NodeInfo × NibbleSlice) : Prop :=
  answer.1 = .unknown ∧ t.find key = none ∨ (∃ v, answer.1 = .value v ∧ t.find key = some v) ∨
    ∃ c, answer.1 = .hash (hex (sha3 (text sha3 c))) ∧ Leads sha3 t key c answer.2

theorem item_length {items : List Bytes} {e : Bytes} (member : e ∈ items) :
    e.length ≤ (rlpList items).length :=
  (Rlp.length_le_flatten items e member).trans (Rlp.length_le_appendList _)

theorem reference_le (long : 32 ≤ (text sha3 t).length) {items : List Bytes}
    (member : reference sha3 (text sha3 t) ∈ items) : 32 ≤ (rlpList items).length := by
  have inside := item_length member
  rw [reference_form long, List.length_cons, toBigEndian_length] at inside
  omega

theorem Answers.child (bounded : ∀ b, sha3 b < 2 ^ 256) {c : Patricia 16 Bytes} {s : List Nibble}
    (sized : Sized c) (full : c.isEmpty = false) (find : t.find s = c.find key.toList)
    (leads : 32 ≤ (text sha3 c).length → Leads sha3 t s c key)
    (inner : ∃ answer, getNode fuel key (text sha3 c) = some answer ∧
      Answers sha3 c key.toList answer) :
    ∃ answer, (if Rlp.isList (reference sha3 (text sha3 c)) = true then
      getNode fuel key (reference sha3 (text sha3 c))
      else (Rlp.toHashStrict 32 (reference sha3 (text sha3 c))).map fun h => (.hash (hex h), key)) =
        some answer ∧
        Answers sha3 t s answer := by
  rcases reference_cases bounded sized full with ⟨short, same, list⟩ | ⟨long, list, read⟩
  · rcases inner with ⟨answer, got, answers⟩
    rw [if_pos list, same]
    refine ⟨answer, got, ?_⟩
    rcases answers with ⟨none, absent⟩ | ⟨v, value, there⟩ | ⟨c', -, leads'⟩
    · exact .inl ⟨none, find.trans absent⟩
    · exact .inr (.inl ⟨v, value, find.trans there⟩)
    · exact absurd leads'.long (not_le.mpr short)
  · rw [list, if_neg Bool.false_ne_true, read]
    exact ⟨_, rfl, .inr (.inr ⟨c, rfl, leads long⟩)⟩

end Nodes

theorem hexChar_inj : ∀ a b : Nibble, hexChar a = hexChar b → a = b := by decide

theorem hex_inj {h h' : H256} (small : h < 2 ^ 256) (small' : h' < 2 ^ 256)
    (same : hex h = hex h') : h = h' := by
  have digits := List.map_injective_iff.mpr (fun a b equal => hexChar_inj a b equal) same
  have bytes := asNibbles_inj.mp digits
  rw [← fromBigEndian_toBigEndian 32 h (by simpa using small), bytes,
    fromBigEndian_toBigEndian 32 h' (by simpa using small')]

/-! The way of a key -/

section Verify

variable {sha3 : Bytes → H256} {known : Set Bytes} {t : Patricia 16 Bytes} {key : NibbleSlice}
    {fuel : Nat} (bounded : ∀ b, sha3 b < 2 ^ 256) (sized : Sized t) (canonical : t.Canonical)
    (apart : Patricia.Apart key.toList t) (fits : key.Fits) (enough : key.toList.length < fuel)

include bounded sized canonical apart fits enough

theorem getNode_answers :
    ∃ answer, getNode fuel key (text sha3 t) = some answer ∧ Answers sha3 t key.toList answer := by
  induction t generalizing fuel key with
  | empty =>
      rcases Nat.exists_eq_add_of_lt enough with ⟨fuel, rfl⟩
      exact ⟨(.unknown, key), rfl, .inl ⟨rfl, rfl⟩⟩
  | leaf k v =>
      rcases Nat.exists_eq_add_of_lt enough with ⟨fuel, rfl⟩
      rcases text_leaf sha3 sized with ⟨part, reads⟩
      rcases node_shape reads.full reads.size with ⟨items, read, two, there, shape⟩
      rw [getNode, if_neg there, read, Option.bind_some, if_neg shape, if_pos two, reads.keyOf,
        Option.bind_some, reads.isLeaf, Option.bind_some, fits.same reads.fits, reads.toList,
        reads.item, Option.bind_some, Option.bind_some]
      by_cases same : key.toList = k
      · rw [if_pos ⟨decide_eq_true same, rfl⟩, Rlp.toBytes_appendBytes v (value_short sized.2)]
        exact ⟨_, rfl, .inr (.inl ⟨v, rfl, Patricia.find_leaf.mpr ⟨same, rfl⟩⟩)⟩
      · rw [if_neg fun both => same (of_decide_eq_true both.1), if_neg fun both => both.2 rfl]
        refine ⟨_, rfl, .inl ⟨rfl, ?_⟩⟩
        rw [Patricia.find, if_neg same]
  | ext k c ih =>
      rcases Nat.exists_eq_add_of_lt enough with ⟨fuel, rfl⟩
      rcases text_ext sha3 sized with ⟨part, reads⟩
      have full := Patricia.isBranch_full canonical.2.1
      rcases node_shape reads.full reads.size with ⟨items, read, two, there, shape⟩
      rw [getNode, if_neg there, read, Option.bind_some, if_neg shape, if_pos two, reads.keyOf,
        Option.bind_some, reads.isLeaf, Option.bind_some, if_neg fun both => Bool.false_ne_true
          both.2, fits.contains reads.fits, reads.toList, reads.item, Option.bind_some]
      by_cases start : k <+: key.toList
      · rcases fits.mid start.length_le with ⟨fitsLeft, toListLeft⟩
        have positive := List.length_pos_of_ne_nil canonical.1
        have inside := start.length_le
        have shorter : (key.mid k.length).toList.length < key.toList.length := by
          rw [toListLeft, List.length_drop]
          omega
        have apartLeft : Patricia.Apart (key.mid k.length).toList c := by
          rcases start with ⟨rest, whole⟩
          rw [toListLeft, ← whole, List.drop_left]
          rw [← whole] at apart
          exact apart.ext
        have find : (Patricia.ext k c).find key.toList = c.find (key.mid k.length).toList := by
          rw [Patricia.find, if_pos start, toListLeft]
        rw [if_pos ⟨decide_eq_true start, Bool.false_ne_true⟩, reads.fits.size, reads.toList]
        refine Answers.child bounded sized.2 full find (fun long => ?_)
          (ih sized.2 canonical.2.2 apartLeft fitsLeft (by omega))
        refine ⟨sized.2, canonical.2.2, apartLeft, fitsLeft, shorter, find, ?_, ?_,
          fun x member => texts_ext k c member⟩
        · rw [onward, if_pos start, if_neg (not_lt.mpr long), toListLeft]
        · exact reference_le long (List.mem_cons_of_mem _ (List.mem_singleton_self _))
      · rw [if_neg fun both => start (of_decide_eq_true both.1)]
        refine ⟨_, rfl, .inl ⟨rfl, ?_⟩⟩
        rw [Patricia.find, if_neg start]
  | branch cs ih =>
      rcases Nat.exists_eq_add_of_lt enough with ⟨fuel, rfl⟩
      have reads := text_branch sha3 sized
      rcases node_shape reads.full (text_branch_size sha3 sized) with
        ⟨items, read, many, there, shape⟩
      have pair : ¬items.length = 2 := by omega
      rcases apart.split canonical with ⟨d, left, split⟩
      have left_ : ¬key.size = 0 := by
        rw [fits.size_eq_zero, split]
        exact List.cons_ne_nil d left
      rcases fits.uncons split with ⟨first, fitsLeft, toListLeft⟩
      have apartLeft : Patricia.Apart (key.mid 1).toList (cs d) := by
        rw [toListLeft]
        rw [split] at apart
        exact apart.branch
      have find : (Patricia.branch cs).find key.toList = (cs d).find (key.mid 1).toList := by
        rw [split, Patricia.find, toListLeft]
      have shorter : (key.mid 1).toList.length < key.toList.length := by
        rw [split, toListLeft, List.length_cons]
        omega
      rw [getNode, if_neg there, read, Option.bind_some, if_neg shape, if_neg pair, if_neg left_,
        first, Option.bind_some, reads.item, entriesOf_get, Option.bind_some,
        reference_isEmpty bounded (sized d)]
      cases full : (cs d).isEmpty with
      | true =>
          refine ⟨_, if_pos rfl, .inl ⟨rfl, ?_⟩⟩
          rw [find, Patricia.eq_empty full]
          rfl
      | false =>
          rw [if_neg Bool.false_ne_true]
          refine Answers.child bounded (sized d) full find (fun long => ?_)
            (ih d (sized d) (canonical.2 d) apartLeft fitsLeft (by omega))
          refine ⟨sized d, canonical.2 d, apartLeft, fitsLeft, shorter, find, ?_, ?_,
            fun x member => texts_child cs d member⟩
          · rw [split, onward, full, if_neg Bool.false_ne_true,
              if_neg (not_lt.mpr long), toListLeft]
          · exact reference_le long (List.mem_append_left _ (List.mem_ofFn.mpr ⟨d, rfl⟩))

theorem verifyFrom_text (rest : List Bytes) :
    (t.find key.toList = none ∧
      verifyFrom sha3 fuel (hex (sha3 (text sha3 t))) key (text sha3 t :: rest) = (false, [])) ∨
      (∃ v, t.find key.toList = some v ∧
        verifyFrom sha3 fuel (hex (sha3 (text sha3 t))) key (text sha3 t :: rest) = (true, v)) ∨
      ∃ c key', Leads sha3 t key.toList c key' ∧
        verifyFrom sha3 fuel (hex (sha3 (text sha3 t))) key (text sha3 t :: rest) =
          verifyFrom sha3 fuel (hex (sha3 (text sha3 c))) key' rest := by
  rcases getNode_answers bounded sized canonical apart fits enough with ⟨⟨info, key'⟩, got, answers⟩
  have read : (Rlp.construct (text sha3 t)).bind (getNode fuel key) = some (info, key') := by
    rw [(text_item sha3 sized).construct, Option.bind_some, got]
  rw [verifyFrom, if_neg (not_not.mpr rfl), read]
  rcases answers with ⟨same, absent⟩ | ⟨v, same, there⟩ | ⟨c, same, leads⟩
  · cases same
    exact .inl ⟨absent, rfl⟩
  · cases same
    exact .inr (.inl ⟨v, there, rfl⟩)
  · cases same
    exact .inr (.inr ⟨c, key', leads, rfl⟩)

theorem verifyFrom_onward :
    verifyFrom sha3 fuel (hex (sha3 (text sha3 t))) key (text sha3 t :: onward sha3 t key.toList) =
      ((t.find key.toList).isSome, (t.find key.toList).getD []) := by
  induction length : key.toList.length using Nat.strong_induction_on generalizing t key with
  | _ n ih =>
      rcases verifyFrom_text bounded sized canonical apart fits enough (onward sha3 t key.toList)
        with
        ⟨absent, ended⟩ | ⟨v, there, ended⟩ | ⟨c, key', leads, goesOn⟩
      · rw [ended, absent]
        rfl
      · rw [ended, there]
        rfl
      · have shorter := leads.shorter
        rw [goesOn, leads.onward, leads.find]
        exact ih key'.toList.length (by omega) leads.sized leads.canonical leads.apart leads.fits
          (by omega) rfl

theorem verifyFrom_sound (free : Set.InjOn sha3 known) (here : ∀ x ∈ texts sha3 t, x ∈ known)
    {given : List Bytes} (within : ∀ x ∈ given, x ∈ known) {v : Bytes}
    (verified : verifyFrom sha3 fuel (hex (sha3 (text sha3 t))) key given = (true, v)) :
    t.find key.toList = some v := by
  induction given generalizing t key with
  | nil => cases verified
  | cons proof rest ih =>
      by_cases same : hex (sha3 proof) = hex (sha3 (text sha3 t))
      · have node : proof = text sha3 t :=
          free (within proof List.mem_cons_self) (here _ (mem_texts t))
            (hex_inj (bounded _) (bounded _) same)
        subst node
        rcases verifyFrom_text bounded sized canonical apart fits enough rest with
          ⟨-, ended⟩ | ⟨w, there, ended⟩ | ⟨c, key', leads, goesOn⟩
        · rw [ended] at verified
          cases verified
        · rw [ended] at verified
          cases verified
          exact there
        · have shorter := leads.shorter
          rw [goesOn] at verified
          rw [leads.find]
          exact ih leads.sized leads.canonical leads.apart leads.fits (by omega)
            (fun x member => here x (leads.texts x member))
            (fun x member => within x (List.mem_cons_of_mem _ member)) verified
      · rw [verifyFrom, if_pos same] at verified
        cases verified

end Verify

section Tree

variable {len : Nat} {K known : Set Bytes} {sha3 : Bytes → H256} {t : Patricia 16 Bytes}
    {m : Bytes → Bytes} {key : Bytes}

theorem TreeOf.enters (tree : TreeOf K t m) (keys : Keys len K) (short : 2 * len + 2 < 2 ^ 31)
    (member : key ∈ K) :
    Sized t ∧ Patricia.Apart (⟨key, 0⟩ : NibbleSlice).toList t ∧ (⟨key, 0⟩ : NibbleSlice).Fits ∧
      (⟨key, 0⟩ : NibbleSlice).toList.length < 2 * len + 1 ∧ (⟨key, 0⟩ : NibbleSlice).toList =
        asNibbles key := by
  have length := keys.short key member
  rcases slice_fits key (by omega) with ⟨fits, whole⟩
  refine ⟨canonical_sized tree.canonical (tree.bound keys short), ?_, fits, ?_, whole⟩
  · rw [whole]
    exact tree.apart keys member
  · rw [whole, length_asNibbles]
    omega

theorem TreeOf.proved (tree : TreeOf K t m) (bounded : ∀ b, sha3 b < 2 ^ 256) (keys : Keys len K)
    (short : 2 * len + 2 < 2 ^ 31) {node : H256 → Bytes} (held : Held sha3 node t)
    (root : node (sha3 (text sha3 t)) = text sha3 t) (member : key ∈ K) :
    ∃ ps, proofs node (2 * len + 1) (sha3 (text sha3 t)) key = some ps ∧
      verifyProof sha3 (2 * len + 1) (hex (sha3 (text sha3 t))) key ps =
        (decide (m key ≠ []), m key) := by
  rcases tree.enters keys short member with ⟨sized, apart, fits, enough, whole⟩
  have value := tree.find key member
  have verified := verifyFrom_onward bounded sized tree.canonical apart fits enough
  refine ⟨text sha3 t :: onward sha3 t (asNibbles key), ?_, ?_⟩
  · rw [proofs, root, if_neg (text_item sha3 sized).1, (text_item sha3 sized).construct,
      Option.bind_some, proofsAux_held bounded sized tree.canonical held fits enough, whole,
      Option.map_some]
  · rw [whole] at verified
    rw [verifyProof, verified, value]
    refine Prod.ext ?_ rfl
    cases found : t.find (asNibbles key) with
    | none =>
        rw [found, Option.getD_none] at value
        rw [← value]
        rfl
    | some w =>
        rw [found, Option.getD_some] at value
        rw [← value]
        exact (decide_eq_true (tree.entry _ w found).2.1).symm

theorem TreeOf.sound (tree : TreeOf K t m) (bounded : ∀ b, sha3 b < 2 ^ 256)
    (free : Set.InjOn sha3 known) (keys : Keys len K) (short : 2 * len + 2 < 2 ^ 31)
    (here : ∀ x ∈ texts sha3 t, x ∈ known) {given : List Bytes} (within : ∀ x ∈ given, x ∈ known)
    (member : key ∈ K) {v : Bytes}
    (verified : verifyProof sha3 (2 * len + 1) (hex (sha3 (text sha3 t))) key given = (true, v)) :
    v ≠ [] ∧ m key = v := by
  rcases tree.enters keys short member with ⟨sized, apart, fits, enough, whole⟩
  have found :=
    verifyFrom_sound bounded sized tree.canonical apart fits enough free here within verified
  have value := tree.find key member
  rw [whole] at found
  rw [found, Option.getD_some] at value
  exact ⟨(tree.entry _ v found).2.1, value.symm⟩

end Tree

section Results

variable {n len : Nat} {K : Set Bytes} {sha3 : Bytes → H256} {disk : Bool} {ops : List (Op n)}

/-- After any run the proofs of a trie prove its map to who has the root alone, and no strings prove
anything else. -/
theorem proofs_exact (bounded : ∀ b, sha3 b < 2 ^ 256) (within : Within len K ops)
    {given : List Bytes} (free : Set.InjOn sha3 (met sha3 disk ops ∪ {x | x ∈ given})) :
    ∃ store, (Store.start sha3 n disk).run sha3 ops = some store ∧ ∀ i, ∀ key ∈ K,
      (∃ ps, proofs store.db.lookup (2 * len + 1) (store.roots i) key = some ps ∧
        verifyProof sha3 (2 * len + 1) (hex (store.roots i)) key ps =
          (decide ((ops.foldl (Contents.step disk) (Contents.start n)).now i key ≠ []),
            (ops.foldl (Contents.step disk) (Contents.start n)).now i key)) ∧
      ∀ v, verifyProof sha3 (2 * len + 1) (hex (store.roots i)) key given = (true, v) →
        v ≠ [] ∧ (ops.foldl (Contents.step disk) (Contents.start n)).now i key = v := by
  have free' := free.mono Set.subset_union_left
  rcases run_holds bounded within free' with ⟨store, ran, holds, -, tracks, here⟩
  refine ⟨store, ran, fun i key member => ?_⟩
  rcases holds.held free' here i with ⟨held, root⟩
  rw [holds.roots]
  refine ⟨(tracks.now i).1.proved bounded within.keys within.short held root member,
    fun v verified => ?_⟩
  exact (tracks.now i).1.sound bounded free within.keys within.short
    (fun x inside => Set.mem_union_left _ (here i x inside))
    (fun x inside => Set.mem_union_right _ inside) member verified

/-! The two tries over a disk, and strings that are not of theirs -/

def forged : List Bytes := [[0xc0], List.replicate 40 7]

theorem proofs_exact_two :
    ∃ store, (Store.start mixed 2 true).run mixed twoTries = some store ∧
      ∀ i, ∀ key ∈ {key : Bytes | key.length = 1},
        (∃ ps, proofs store.db.lookup (2 * 1 + 1) (store.roots i) key = some ps ∧
          verifyProof mixed (2 * 1 + 1) (hex (store.roots i)) key ps =
            (decide ((twoTries.foldl (Contents.step true) (Contents.start 2)).now i key ≠ []),
              (twoTries.foldl (Contents.step true) (Contents.start 2)).now i key)) ∧
        ∀ v, verifyProof mixed (2 * 1 + 1) (hex (store.roots i)) key forged = (true, v) →
          v ≠ [] ∧ (twoTries.foldl (Contents.step true) (Contents.start 2)).now i key = v :=
  proofs_exact mixed_bounded twoTries_within (mixed_apart (by decide +kernel))

end Results

/-! The proof of a transaction of a block -/

variable (sha3 : Bytes → H256) in
/-- What `eth_getProofMerkle` does with the transactions of a block: a trie in the memory, and its
proofs. -/
def getProofMerkle (fuel : Nat) (transactions : List Bytes) (transactionIndex : Nat) :
    Option (Option (List Bytes)) :=
  if transactions.length ≤ transactionIndex then some none
  else
    ((numbered transactions).foldlM (fun s e => insert sha3 s.2 s.1 e.1 e.2)
      (init sha3 OverlayDB.empty)).bind fun s =>
      (proofs s.2.lookup fuel s.1 (Rlp.appendInt transactionIndex)).map some

section Transactions

variable {data : List Bytes} {sha3 : Bytes → H256}

theorem run_inserts (es : List (Bytes × Bytes)) (s : H256 × OverlayDB)
    (saved : List (Fin 1 → H256)) :
    Store.run sha3 ⟨s.2, fun _ => s.1, saved⟩ (es.map fun e => Op.insert 0 e.1 e.2) =
      (es.foldlM (fun s e => insert sha3 s.2 s.1 e.1 e.2) s).map fun s =>
        ⟨s.2, fun _ => s.1, saved⟩ := by
  induction es generalizing s with
  | nil => rfl
  | cons e es ih =>
      rw [List.map_cons, Store.run, Store.step, List.foldlM_cons]
      cases inserted : insert sha3 s.2 s.1 e.1 e.2 with
      | none => rfl
      | some s' =>
          have roots : Function.update (fun _ : Fin 1 => s.1) 0 s'.1 = fun _ => s'.1 := by
            funext i
            rw [Function.update_apply, if_pos (Subsingleton.elim i 0)]
          rw [Option.map_some, Option.bind_some, roots]
          exact ih s'

/-- The transactions root of a header is what the proofs of `eth_getProofMerkle` are checked
against: they prove every transaction at its index, and nothing proves another one. -/
theorem transaction_proofs (bounded : ∀ b, sha3 b < 2 ^ 256) (room : 3 * data.length + 7 < 2 ^ 32)
    (each : ∀ x ∈ data, x ≠ [] ∧ x.length < 2 ^ 62) {given : List Bytes}
    (free : Set.InjOn sha3 (met sha3 false ((numbered data).map fun e => @Op.insert 1 0 e.1 e.2) ∪
      {x | x ∈ given})) :
    ∃ root, orderedTrieRoot sha3 11 data = some root ∧
      (∀ i v, data[i]? = some v → ∃ ps, getProofMerkle sha3 11 data i = some (some ps) ∧
        verifyProof sha3 11 (hex root) (Rlp.appendInt i) ps = (true, v)) ∧
      ∀ i < 2 ^ 32, ∀ v, verifyProof sha3 11 (hex root) (Rlp.appendInt i) given = (true, v) →
      data[i]? = some v := by
  have free' := free.mono Set.subset_union_left
  have few : data.length ≤ 2 ^ 32 := by omega
  have within := inserted_within room each (List.Perm.refl _)
  have contents := inserted_lists room each (List.Perm.refl _) false
  rcases run_holds bounded within free' with ⟨store, ran, holds, -, tracks, here⟩
  rcases holds.held free' here 0 with ⟨held, found⟩
  have tree := (tracks.now 0).1
  rcases @TreeOf.hash256 _ _ _ _ sha3 tree within.keys within.short 11 (by decide) with
    ⟨m, lists, root⟩
  rw [lists.unique contents] at root
  have value : ∀ {i : Nat} {v : Bytes}, data[i]? = some v → i < 2 ^ 32 ∧ v ≠ [] ∧
      (((numbered data).map fun e => @Op.insert 1 0 e.1 e.2).foldl (Contents.step false)
        (Contents.start 1)).now 0
        (Rlp.appendInt i) = v := by
    intro i v read
    have small : i < 2 ^ 32 := (List.getElem?_eq_some_iff.mp read).1.trans_le few
    have member := (mem_numbered few).mpr ⟨i, small, rfl, read⟩
    exact ⟨small, (contents.mem _ v).mp (((mem_assignAll (numbered_nodup few)).2 _).mpr member)⟩
  refine ⟨_, root, fun i v read => ?_, fun i small v verified => ?_⟩
  · rcases value read with ⟨small, full, same⟩
    rcases tree.proved bounded within.keys within.short held found ⟨i, small, rfl⟩ with
      ⟨ps, made, verified⟩
    refine ⟨ps, ?_, ?_⟩
    · have inside : ¬data.length ≤ i := not_le.mpr (List.getElem?_eq_some_iff.mp read).1
      have steps := @run_inserts sha3 (numbered data) (init sha3 OverlayDB.empty) []
      have start : Store.start sha3 1 false =
          ⟨(init sha3 OverlayDB.empty).2, fun _ => (init sha3 OverlayDB.empty).1, []⟩ := rfl
      rw [start, steps] at ran
      rcases Option.map_eq_some_iff.mp ran with ⟨s, inserted, rfl⟩
      have roots : s.1 = sha3 (text sha3 _) := congrFun holds.roots 0
      rw [getProofMerkle, if_neg inside, inserted, Option.bind_some, roots, made]
      rfl
    · rw [same, decide_eq_true full] at verified
      exact verified
  · rcases tree.sound bounded free within.keys within.short
      (fun x inside => Set.mem_union_left _ (here 0 x inside))
      (fun x inside => Set.mem_union_right _ inside) ⟨i, small, rfl⟩ verified with ⟨full, same⟩
    have member :=
      ((mem_assignAll (numbered_nodup few)).2 _).mp ((contents.mem _ v).mpr ⟨full, same⟩)
    rcases (mem_numbered few).mp member with ⟨j, small', number, read⟩
    rw [appendInt_inj small small' ⟨[], by rw [List.append_nil, number]⟩]
    exact read

/-! Two transactions -/

theorem transaction_proofs_two :
    ∃ root, orderedTrieRoot mixed 11 twoItems = some root ∧
      (∀ (i : Nat) v, twoItems[i]? = some v → ∃ ps, getProofMerkle mixed 11 twoItems i =
        some (some ps) ∧
        verifyProof mixed 11 (hex root) (Rlp.appendInt i) ps = (true, v)) ∧
      ∀ i < 2 ^ 32, ∀ v, verifyProof mixed 11 (hex root) (Rlp.appendInt i) forged = (true, v) →
      twoItems[i]? = some v :=
  transaction_proofs mixed_bounded (by decide) (by decide) (mixed_apart (by decide +kernel))

end Transactions

end Trie

end UtispaceChain
