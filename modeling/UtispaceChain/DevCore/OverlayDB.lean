import Mathlib.Algebra.BigOperators.Group.Multiset.Basic
import Mathlib.Data.List.AList
import UtispaceChain.DevCrypto.Common

/-! `MemoryDB` and `OverlayDB`: node texts under their hashes with reference counts, over a database
on disk.

A `MemoryDB` is an `OverlayDB` without a disk. -/

namespace UtispaceChain

/-- `m_main`, `m_enforceRefs` and `m_db`. -/
structure OverlayDB where
  main : AList fun _ : H256 => Bytes × Nat
  enforceRefs : Bool
  disk : Option (H256 → Bytes)

namespace OverlayDB

def empty : OverlayDB := ⟨∅, false, none⟩

variable (db : OverlayDB)

def count (h : H256) : Nat := ((db.main.lookup h).map Prod.snd).getD 0

/-- `MemoryDB::lookup`. -/
def lookupMemory (h : H256) : Bytes :=
  match db.main.lookup h with
  | some (v, refs) => if db.enforceRefs = false ∨ 0 < refs then v else []
  | none => []

def onDisk (h : H256) : Bytes := (db.disk.map fun get => get h).getD []

def lookup (h : H256) : Bytes := if db.lookupMemory h = [] then db.onDisk h else db.lookupMemory h

/-- The counter is an `unsigned`. -/
def insert (h : H256) (v : Bytes) : OverlayDB :=
  { db with main := db.main.insert h (v, ((db.main.lookup h).elim 1 fun e => (e.2 + 1) % 2 ^ 32)) }

def kill (h : H256) : OverlayDB :=
  match db.main.lookup h with
  | some (v, refs) => if 0 < refs then { db with main := db.main.insert h (v, refs - 1) } else db
  | none => db

def keys : List H256 := db.main.keys.filter fun h => 0 < db.count h

/-- What the batch of `commit` puts under a hash, or what is there. -/
def committed (get : H256 → Bytes) (h : H256) : Bytes :=
  match db.main.lookup h with
  | some (v, refs) => if 0 < refs then v else get h
  | none => get h

def commit : OverlayDB :=
  match db.disk with
  | none => db
  | some get => { db with main := ∅, disk := some (db.committed get) }

def rollback : OverlayDB := { db with main := ∅ }

section Lemmas

variable {db : OverlayDB} {h k : H256} {v : Bytes}

@[simp] theorem disk_insert : (db.insert h v).disk = db.disk := rfl

@[simp] theorem disk_kill : (db.kill h).disk = db.disk := by
  unfold kill
  split
  · split_ifs <;> rfl
  · rfl

@[simp] theorem onDisk_insert : (db.insert h v).onDisk = db.onDisk := rfl

@[simp] theorem onDisk_kill : (db.kill h).onDisk = db.onDisk := by
  unfold onDisk
  rw [disk_kill]

theorem count_of_lookup {refs : Nat} (stands : db.main.lookup h = some (v, refs)) :
    db.count h = refs := by
  rw [count, stands]
  rfl

theorem lookupMemory_none (absent : db.main.lookup h = none) : db.lookupMemory h = [] := by
  rw [lookupMemory, absent]

theorem lookupMemory_some {refs : Nat} (stands : db.main.lookup h = some (v, refs)) :
    db.lookupMemory h = if db.enforceRefs = false ∨ 0 < refs then v else [] := by
  rw [lookupMemory, stands]

theorem lookup_insert_main (db : OverlayDB) (h k : H256) (v : Bytes) :
    (db.insert h v).main.lookup k =
      if k = h then some (v, (db.main.lookup h).elim 1 fun e => (e.2 + 1) % 2 ^ 32)
        else db.main.lookup k := by
  by_cases same : k = h
  · rw [same, if_pos rfl]
    exact AList.lookup_insert db.main
  · rw [if_neg same]
    exact AList.lookup_insert_ne same

theorem count_insert (small : db.count h + 1 < 2 ^ 32) :
    (db.insert h v).count k = db.count k + if k = h then 1 else 0 := by
  rw [count, lookup_insert_main]
  by_cases same : k = h
  · subst same
    rw [if_pos rfl, if_pos rfl, count]
    cases stands : db.main.lookup k with
    | none => rfl
    | some e =>
        rw [count_of_lookup (v := e.1) stands] at small
        exact Nat.mod_eq_of_lt small
  · rw [if_neg same, if_neg same]
    rfl

theorem lookup_kill_main (db : OverlayDB) (h k : H256) :
    (db.kill h).main.lookup k =
      if k = h then (db.main.lookup h).map fun e => (e.1, e.2 - 1) else db.main.lookup k := by
  unfold kill
  cases stands : db.main.lookup h with
  | none =>
      by_cases same : k = h
      · rw [same, if_pos rfl, stands]
        rfl
      · rw [if_neg same]
  | some e =>
      rcases e with ⟨v, refs⟩
      dsimp only
      by_cases same : k = h
      · subst same
        rw [if_pos rfl, Option.map_some]
        split_ifs with counted
        · exact AList.lookup_insert db.main
        · rw [stands, Nat.eq_zero_of_not_pos counted]
          rfl
      · rw [if_neg same]
        split_ifs
        · exact AList.lookup_insert_ne same
        · rfl

theorem count_kill (db : OverlayDB) (h k : H256) : (db.kill h).count k = db.count k - if k = h then
    1 else 0 := by
  rw [count, lookup_kill_main]
  by_cases same : k = h
  · subst same
    rw [if_pos rfl, if_pos rfl, count]
    cases db.main.lookup k with
    | none => rfl
    | some e => rfl
  · rw [if_neg same, if_neg same]
    rfl

end Lemmas

/-- The counts are those of the hashes in use, as far as these are not on disk, and every text
stands under its own hash. -/
structure Accounts (sha3 : Bytes → H256) (texts : Set Bytes) (db : OverlayDB)
    (live : Multiset H256) : Prop where
  named : ∀ h v refs, db.main.lookup h = some (v, refs) → sha3 v = h ∧ v ∈ texts ∧ v ≠ []
  disk : ∀ h, db.onDisk h ≠ [] → sha3 (db.onDisk h) = h ∧ db.onDisk h ∈ texts
  most : ∀ h, db.count h ≤ live.count h
  least : ∀ h, db.onDisk h ≠ [] ∨ live.count h ≤ db.count h

namespace Accounts

variable {sha3 : Bytes → H256} {texts : Set Bytes} {db : OverlayDB} {live : Multiset H256}
    {h : H256} {v : Bytes}

theorem lookup (accounts : Accounts sha3 texts db live) (free : Set.InjOn sha3 texts)
    (known : v ∈ texts) (used : sha3 v ∈ live) : db.lookup (sha3 v) = v := by
  have positive := Multiset.count_pos.mpr used
  have below : db.count (sha3 v) = 0 → db.onDisk (sha3 v) = v := by
    intro uncounted
    have there := (accounts.least (sha3 v)).resolve_right (by omega)
    rcases accounts.disk _ there with ⟨same, within⟩
    exact free within known same
  cases stands : db.main.lookup (sha3 v) with
  | none =>
      rw [OverlayDB.lookup, if_pos (lookupMemory_none stands)]
      exact below (by rw [count, stands]; rfl)
  | some e =>
      rcases e with ⟨w, refs⟩
      rcases accounts.named _ w refs stands with ⟨same, within, full⟩
      have equal : w = v := free within known same
      subst equal
      have memory := lookupMemory_some stands
      by_cases seen : db.enforceRefs = false ∨ 0 < refs
      · rw [if_pos seen] at memory
        rw [OverlayDB.lookup, memory, if_neg full]
      · rw [if_neg seen] at memory
        have uncounted : refs = 0 := by omega
        rw [OverlayDB.lookup, if_pos memory]
        exact below (by rw [count_of_lookup stands, uncounted])

theorem insert (accounts : Accounts sha3 texts db live) (known : v ∈ texts) (full : v ≠ [])
    (room : live.card + 1 < 2 ^ 32) :
    Accounts sha3 texts (db.insert (sha3 v) v) ({sha3 v} + live) := by
  have small : db.count (sha3 v) + 1 < 2 ^ 32 := by
    have bound := (accounts.most (sha3 v)).trans (Multiset.count_le_card (sha3 v) live)
    omega
  refine ⟨fun k w refs stands => ?_, ?_, fun k => ?_, fun k => ?_⟩
  · rw [lookup_insert_main] at stands
    split_ifs at stands with same
    · cases stands
      exact ⟨same.symm, known, full⟩
    · exact accounts.named k w refs stands
  · rw [onDisk_insert]
    exact accounts.disk
  · have most := accounts.most k
    rw [count_insert small, Multiset.count_add, Multiset.count_singleton]
    omega
  · rw [count_insert small, Multiset.count_add, Multiset.count_singleton, onDisk_insert,
      Nat.add_comm]
    exact (accounts.least k).imp_right fun least => Nat.add_le_add_right least _

theorem kill (accounts : Accounts sha3 texts db ({h} + live)) :
    Accounts sha3 texts (db.kill h) live := by
  refine ⟨fun k w refs stands => ?_, ?_, fun k => ?_, fun k => ?_⟩
  · rw [lookup_kill_main] at stands
    split_ifs at stands with same
    · subst same
      rcases Option.map_eq_some_iff.mp stands with ⟨⟨w', refs'⟩, before, equal⟩
      cases equal
      exact accounts.named _ _ _ before
    · exact accounts.named k w refs stands
  · rw [onDisk_kill]
    exact accounts.disk
  · have most := accounts.most k
    rw [Multiset.count_add, Multiset.count_singleton] at most
    rw [count_kill]
    omega
  · have least := accounts.least k
    rw [Multiset.count_add, Multiset.count_singleton] at least
    rw [count_kill, onDisk_kill]
    refine least.imp_right fun least => ?_
    omega

theorem commit (accounts : Accounts sha3 texts db live) {get : H256 → Bytes}
    (open_ : db.disk = some get) :
    Accounts sha3 texts db.commit live ∧ (∀ h ∈ live, db.commit.onDisk h ≠ []) ∧
      ∀ h, db.onDisk h ≠ [] → db.commit.onDisk h ≠ [] := by
  have before : ∀ h, db.onDisk h = get h := fun h => by rw [onDisk, open_]; rfl
  have whole : db.commit = { db with main := ∅, disk := some (db.committed get) } := by
    rw [OverlayDB.commit, open_]
  have after : ∀ h, db.commit.onDisk h = db.committed get h := fun h => by rw [whole]; rfl
  have cases : ∀ h, db.committed get h = get h ∧ db.count h = 0 ∨
      ∃ v refs, db.main.lookup h = some (v, refs) ∧ db.committed get h = v := by
    intro h
    unfold committed
    cases stands : db.main.lookup h with
    | none => exact .inl ⟨rfl, by rw [count, stands]; rfl⟩
    | some e =>
        by_cases counted : 0 < e.2
        · exact .inr ⟨e.1, e.2, rfl, if_pos counted⟩
        · exact .inl ⟨if_neg counted, by rw [count_of_lookup (v := e.1) stands]; omega⟩
  have kept : ∀ h, db.onDisk h ≠ [] → db.commit.onDisk h ≠ [] := by
    intro h there
    rw [before] at there
    rw [after]
    rcases cases h with ⟨same, -⟩ | ⟨v, refs, stands, same⟩
    · rw [same]
      exact there
    · rw [same]
      exact (accounts.named h v refs stands).2.2
  have gone : ∀ h ∈ live, db.commit.onDisk h ≠ [] := by
    intro h used
    have positive := Multiset.count_pos.mpr used
    rcases accounts.least h with there | least
    · exact kept h there
    · rw [after]
      rcases cases h with ⟨-, none⟩ | ⟨v, refs, stands, same⟩
      · omega
      · rw [same]
        exact (accounts.named h v refs stands).2.2
  have cleared : ∀ h, db.commit.count h = 0 := fun h => by rw [whole]; rfl
  refine ⟨⟨fun h v refs stands => ?_, fun h there => ?_, fun h => ?_, fun h => ?_⟩, gone, kept⟩
  · rw [whole] at stands
    cases stands
  · rw [after] at there ⊢
    rcases cases h with ⟨same, -⟩ | ⟨v, refs, stands, same⟩
    · rw [same] at there ⊢
      rw [← before] at there ⊢
      exact accounts.disk h there
    · rw [same]
      rcases accounts.named h v refs stands with ⟨own, known, -⟩
      exact ⟨own, known⟩
  · rw [cleared]
    exact Nat.zero_le _
  · by_cases used : h ∈ live
    · exact .inl (gone h used)
    · rw [cleared, Multiset.count_eq_zero_of_notMem used]
      exact .inr le_rfl

theorem rollback (accounts : Accounts sha3 texts db live) {old : Multiset H256}
    (kept : ∀ h ∈ old, db.onDisk h ≠ []) :
    Accounts sha3 texts db.rollback old := by
  refine ⟨fun h v refs stands => (nomatch stands), accounts.disk, fun h => Nat.zero_le _,
    fun h => ?_⟩
  by_cases used : h ∈ old
  · exact .inl (kept h used)
  · rw [Multiset.count_eq_zero_of_notMem used]
    exact .inr (Nat.zero_le _)

end Accounts

end OverlayDB

end UtispaceChain
