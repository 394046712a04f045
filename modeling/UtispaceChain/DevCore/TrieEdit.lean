import UtispaceChain.DevCore.HexPrefix
import UtispaceChain.DevCore.OverlayDB
import UtispaceChain.DevCore.TrieContent

/-! `GenericTrieDB`: insertion and removal in the node database.

What throws, fails an assertion or reads through a null pointer is `none`. The recursions run a
number of levels at most; a level takes a nibble of the key, but for those that split a node. -/

namespace UtispaceChain

namespace Trie

open Lib

def rlpList (items : List Bytes) : Bytes := Rlp.appendList items.flatten

def rlpNull : Bytes := Rlp.appendBytes []

section Definitions

variable (sha3 : Bytes → H256)

def killNode (db : OverlayDB) (d : Bytes) : OverlayDB :=
  if 32 ≤ d.length then db.kill (sha3 d) else db

def reference (b : Bytes) : Bytes :=
  if b.length < 32 then b else Rlp.appendBytes (toBigEndian 32 (sha3 b))

/-- `streamNode`: the item that is appended. -/
def streamNode (db : OverlayDB) (b : Bytes) : Bytes × OverlayDB :=
  (reference sha3 b, if b.length < 32 then db else db.insert (sha3 b) b)

def nodeItems (orig : Bytes) : Option (List Bytes) :=
  (Rlp.items orig).bind fun items =>
    if Rlp.isList orig ∧ (items.length = 2 ∨ items.length = 17) then some items else none

def children (orig : Bytes) (count : Nat) : Option (List Bytes) :=
  (List.range count).mapM (Rlp.item orig)

def place (db : OverlayDB) (orig : Bytes) (k : NibbleSlice) (s : Bytes) :
    Option (Bytes × OverlayDB) :=
  let db := killNode sha3 db orig
  if Rlp.isEmpty orig then
    (k.encode true 0 (-1)).map fun key => (rlpList [Rlp.appendBytes key, Rlp.appendBytes s], db)
  else
    (nodeItems orig).bind fun items =>
      if items.length = 2 then (Rlp.item orig 0).map fun key =>
        (rlpList [key, Rlp.appendBytes s], db)
      else (children orig 16).map fun entries => (rlpList (entries ++ [Rlp.appendBytes s]), db)

/-- `cleve`, at a number of nibbles that is not zero and not more than the node has. -/
def cleve (db : OverlayDB) (orig : Bytes) (s : Nat) : Option (Bytes × OverlayDB) :=
  let db := killNode sha3 db orig
  (keyOf orig).bind fun k => (isLeaf orig).bind fun leaf =>
    if s = 0 ∨ k.size < s then none
    else
      (k.encode leaf s (-1)).bind fun rest => (Rlp.item orig 1).bind fun n =>
        (k.encode false 0 s).map fun shared =>
        let bottom := streamNode sha3 db (rlpList [Rlp.appendBytes rest, n])
        (rlpList [Rlp.appendBytes shared, bottom.1], bottom.2)

def branch (db : OverlayDB) (orig : Bytes) : Option (Bytes × OverlayDB) :=
  let db := killNode sha3 db orig
  (keyOf orig).bind fun k => (isLeaf orig).bind fun leaf => (Rlp.item orig 1).bind fun n =>
    if k.size = 0 then
      if leaf then some (rlpList (List.replicate 16 rlpNull ++ [n]), db) else none
    else
      (k.get 0).bind fun b =>
        if leaf ∨ 1 < k.size then
          ((k.mid 1).encode leaf 0 (-1)).map fun rest =>
            let below := streamNode sha3 db (rlpList [Rlp.appendBytes rest, n])
            (rlpList ((List.replicate 16 rlpNull).set b below.1 ++ [rlpNull]), below.2)
        else some (rlpList ((List.replicate 16 rlpNull).set b n ++ [rlpNull]), db)

def dereferenced (node : H256 → Bytes) (orig : Bytes) : Option (Bytes × Bool) :=
  if ¬Rlp.isList orig ∧ ¬Rlp.isEmpty orig then
    (Rlp.toHashStrict 32 orig).bind fun hash => (Rlp.construct (node hash)).bind fun r =>
      if r = [] then none else some (r, true)
  else some (orig, false)

/-- `mergeAtAux`, with what is to be called for the node. -/
def mergeAtAux (mergeAt : OverlayDB → Bytes → H256 → NibbleSlice → Bytes → Bool →
    Option (Bytes × OverlayDB)) (db : OverlayDB) (orig : Bytes) (k : NibbleSlice) (v : Bytes) :
    Option (Bytes × OverlayDB) :=
  (dereferenced db.lookup orig).bind fun r =>
    (mergeAt db r.1 (sha3 r.1) k v !r.2).map fun b => streamNode sha3 b.2 b.1

def mergeAt : Nat → OverlayDB → Bytes → H256 → NibbleSlice → Bytes → Bool →
    Option (Bytes × OverlayDB)
  | 0, _, _, _, _, _, _ => none
  | fuel + 1, db, orig, origHash, key, v, inLine =>
      if Rlp.isEmpty orig then place sha3 db orig key v
      else
        (nodeItems orig).bind fun items =>
          let killed := if ¬inLine ∧ 32 ≤ orig.length then db.kill origHash else db
          if items.length = 2 then
            (keyOf orig).bind fun k => (isLeaf orig).bind fun leaf =>
              if k.same key ∧ leaf then place sha3 db orig key v
              else if key.contains k ∧ ¬leaf then
                (Rlp.item orig 0).bind fun part => (Rlp.item orig 1).bind fun n =>
                  (mergeAtAux sha3 (mergeAt fuel) killed n (key.mid k.size) v).map fun below =>
                    (rlpList [part, below.1], below.2)
              else if key.shared k ≠ 0 then
                (cleve sha3 db orig (key.shared k)).bind fun cleved => (Rlp.construct cleved.1).bind
                  fun r =>
                  mergeAt fuel cleved.2 r (sha3 r) key v true
              else
                (branch sha3 db orig).bind fun branched => (Rlp.construct branched.1).bind fun r =>
                  mergeAt fuel branched.2 r (sha3 r) key v true
          else if key.size = 0 then place sha3 db orig key v
          else
            (key.get 0).bind fun n => (children orig 17).bind fun entries =>
              (mergeAtAux sha3 (mergeAt fuel) killed ((entries[n.val]?).getD []) (key.mid 1) v).map
                fun below =>
                (rlpList (entries.set n below.1), below.2)

def isTwoItemNode (node : H256 → Bytes) (n : Bytes) : Option Bool :=
  if Rlp.isData n then
    (Rlp.toHashStrict 32 n).bind fun hash => (Rlp.construct (node hash)).bind fun r =>
      (Rlp.items r).map fun items => decide (items.length = 2)
  else if Rlp.isList n then (Rlp.items n).map fun items => decide (items.length = 2)
  else some false

/-- `graft`: a node of two items that leads to one of two items. -/
def graft (db : OverlayDB) (orig : Bytes) : Option (Bytes × OverlayDB) :=
  (Rlp.item orig 1).bind fun below =>
    (if Rlp.isList below then some (below, db)
      else
        (Rlp.toHashStrict 32 below).bind fun hash => (Rlp.construct (db.lookup hash)).map fun n =>
          (n, db.kill hash)).bind
      fun n => (Rlp.items n.1).bind fun items =>
        if items.length ≠ 2 then none
        else
          (keyOf orig).bind fun above => (keyOf n.1).bind fun part => (isLeaf n.1).bind fun leaf =>
            (hexPrefixJoin above part leaf).bind fun key => (Rlp.item n.1 1).map fun value =>
              (rlpList [Rlp.appendBytes key, value], n.2)

/-- `merge`: the branch with one entry left as a node of two items. -/
def merge (orig : Bytes) (i : Nat) : Option Bytes :=
  (nodeItems orig).bind fun items =>
    if items.length ≠ 17 then none
    else
      (Rlp.item orig i).bind fun n =>
        if i ≠ 16 then
          if Rlp.isEmpty n then none
          else (hexPrefixEncode [UInt8.ofNat i] false 1 2 0).map fun key =>
            rlpList [Rlp.appendBytes key, n]
        else (hexPrefixVector [] true 0 (-1)).map fun key => rlpList [Rlp.appendBytes key, n]

def rejoined (db : OverlayDB) (orig : Bytes) (used : Nat) : Option (Bytes × OverlayDB) :=
  (Rlp.item orig used).bind fun n => (isTwoItemNode db.lookup n).bind fun two =>
    (merge orig used).bind fun merged =>
    if two then (Rlp.construct merged).bind fun r => graft db r else some (merged, db)

/-- `deleteAtAux`, with what is to be called for the node; no item is appended where the key did not
turn up. -/
def deleteAtAux (deleteAt : OverlayDB → Bytes → NibbleSlice → Option (Bytes × OverlayDB))
    (db : OverlayDB) (orig : Bytes) (k : NibbleSlice) : Option (Option Bytes × OverlayDB) :=
  (if Rlp.isEmpty orig then some ([], db)
    else (entered db.lookup orig).bind fun r => deleteAt db r k).map fun b =>
      if b.1 = [] then (none, b.2) else ((streamNode sha3 b.2 b.1).map some id)

/-- What `deleteAt` goes on with in a node of two items. -/
def deletedPair (orig part : Bytes) : Option Bytes × OverlayDB → Option (Bytes × OverlayDB)
  | (none, db) => some ([], db)
  | (some entry, db) =>
      let db := killNode sha3 db orig
      (Rlp.construct (rlpList [part, entry])).bind fun r => (Rlp.item r 1).bind fun n =>
        (isTwoItemNode db.lookup n).bind fun two => if two then graft db r else some (r, db)

def deletedBranch (orig : Bytes) (entries : List Bytes) (n : Nibble) :
    Option Bytes × OverlayDB → Option (Bytes × OverlayDB)
  | (none, db) => some ([], db)
  | (some entry, db) =>
      let db := killNode sha3 db orig
      (Rlp.construct (rlpList (entries.set n entry))).bind fun r =>
        (uniqueInUse r 255).bind fun used =>
        if used = 255 then some (r, db) else rejoined db r used

def deleteAt : Nat → OverlayDB → Bytes → NibbleSlice → Option (Bytes × OverlayDB)
  | 0, _, _, _ => none
  | fuel + 1, db, orig, key =>
      if Rlp.isEmpty orig then some ([], db)
      else
        (nodeItems orig).bind fun items =>
          if items.length = 2 then
            (keyOf orig).bind fun k => (isLeaf orig).bind fun leaf =>
              if k.same key ∧ leaf then some (rlpNull, killNode sha3 db orig)
              else if key.contains k then
                (Rlp.item orig 0).bind fun part => (Rlp.item orig 1).bind fun n =>
                  (deleteAtAux sha3 (deleteAt fuel) db n (key.mid k.size)).bind
                    (deletedPair sha3 orig part)
              else some ([], db)
          else
            (Rlp.item orig 16).bind fun value =>
              if key.size = 0 ∧ ¬Rlp.isEmpty value then
                let db := killNode sha3 db orig
                (uniqueInUse orig 16).bind fun used =>
                  if used ≠ 255 then rejoined db orig used
                  else (children orig 16).map fun entries => (rlpList (entries ++ [rlpNull]), db)
              else
                (key.get 0).bind fun n => (children orig 17).bind fun entries =>
                  (deleteAtAux sha3 (deleteAt fuel) db ((entries[n.val]?).getD []) (key.mid 1)).bind
                    (deletedBranch sha3 orig entries n)

def init (db : OverlayDB) : H256 × OverlayDB := (sha3 rlpNull, db.insert (sha3 rlpNull) rlpNull)

def insert (db : OverlayDB) (root : H256) (key value : Bytes) : Option (H256 × OverlayDB) :=
  let rootValue := db.lookup root
  if rootValue = [] then none
  else
    (Rlp.construct rootValue).bind fun r =>
      (mergeAt sha3 (2 * key.length + 6) db r root ⟨key, 0⟩ value false).map fun b =>
      -- a root of less than 32 bytes is still there
      let db := if rootValue.length < 32 then b.2.kill root else b.2
      (sha3 b.1, db.insert (sha3 b.1) b.1)

def remove (db : OverlayDB) (root : H256) (key : Bytes) : Option (H256 × OverlayDB) :=
  let rv := db.lookup root
  (Rlp.construct rv).bind fun r => (deleteAt sha3 (2 * key.length + 2) db r ⟨key, 0⟩).map fun b =>
    if b.1 = [] then (root, b.2)
    else
      let db := if rv.length < 32 then b.2.kill root else b.2
      (sha3 b.1, db.insert (sha3 b.1) b.1)

end Definitions

end Trie

end UtispaceChain
