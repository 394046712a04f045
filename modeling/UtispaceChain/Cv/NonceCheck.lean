import Mathlib.Data.Finset.Union
import Mathlib.Order.Interval.Finset.Nat
import UtispaceChain.DevCrypto.Common

/-! `NonceCheck`: the keys of the transactions of the last blocks. -/

namespace UtispaceChain

/-- What packing, the nonce check and the indices read of a transaction. -/
structure Transaction where
  sha3 : H256
  sender : Nat
  randomid : Nat
  blockLimit : Nat
  deriving DecidableEq, Repr

/-- A `u256` cut to an `unsigned`. -/
def toUnsigned (x : Nat) : Nat := x % 2 ^ 32

structure NonceCheck where
  cache : Finset (Nat × Nat)
  startblk : Nat
  endblk : Nat
  deriving DecidableEq

namespace NonceCheck

/-- The account in hexadecimal, an underscore and the number: one text for each pair. -/
def generateKey (t : Transaction) : Nat × Nat := (t.sender, t.randomid)

def keysOf (transactions : List Transaction) : Finset (Nat × Nat) :=
  (transactions.map generateKey).toFinset

/-- `ok`, with the cache after it. -/
def ok (t : Transaction) (needinsert : Bool) (c : NonceCheck) : Bool × NonceCheck :=
  if generateKey t ∈ c.cache then (false, c)
  else (true, if needinsert then { c with cache := insert (generateKey t) c.cache } else c)

def eraseAll (transactions : List Transaction) (cache : Finset (Nat × Nat)) : Finset (Nat × Nat) :=
  transactions.foldl (fun cache t => cache.erase (generateKey t)) cache

def insertAll (transactions : List Transaction) (cache : Finset (Nat × Nat)) : Finset (Nat × Nat) :=
  transactions.foldl (fun cache t => insert (generateKey t) cache) cache

def delCache (transactions : List Transaction) (c : NonceCheck) : NonceCheck :=
  { c with cache := eraseAll transactions c.cache }

/-- The oldest block in the window that ends with the given block. -/
def windowStart (maxblocksize lastnumber : Nat) : Nat :=
  if toUnsigned maxblocksize < lastnumber then lastnumber - toUnsigned maxblocksize else 0

/-- `updateCache`, for a chain given by its height and the transactions of its blocks. -/
def updateCache (maxblocksize lastnumber : Nat) (transactions : Nat → List Transaction)
    (rebuild : Bool) (c : NonceCheck) : NonceCheck :=
  let startblk := windowStart maxblocksize lastnumber
  let preendblk := if rebuild then 0 else c.endblk
  let kept :=
    if rebuild then ∅
    else (List.range' c.startblk (startblk - c.startblk)).foldl
      (fun cache i => eraseAll (transactions i) cache) c.cache
  let first := max (preendblk + 1) startblk
  { cache := (List.range' first (lastnumber + 1 - first)).foldl
      (fun cache i => insertAll (transactions i) cache) kept
    startblk, endblk := lastnumber }

def init (maxblocksize lastnumber : Nat) (transactions : Nat → List Transaction) : NonceCheck :=
  updateCache maxblocksize lastnumber transactions true ⟨∅, 0, 0⟩

def window (transactions : Nat → List Transaction) (first last : Nat) : Finset (Nat × Nat) :=
  (Finset.Icc first last).biUnion fun i => keysOf (transactions i)

theorem mem_window (transactions : Nat → List Transaction) (first last : Nat) (key : Nat × Nat) :
    key ∈ window transactions first last ↔
      ∃ i, first ≤ i ∧ i ≤ last ∧ key ∈ keysOf (transactions i) := by
  simp [window, and_assoc]

theorem eraseAll_eq (transactions : List Transaction) (cache : Finset (Nat × Nat)) :
    eraseAll transactions cache = cache \ keysOf transactions := by
  induction transactions generalizing cache with
  | nil => simp [eraseAll, keysOf]
  | cons t rest ih =>
      have step : eraseAll (t :: rest) cache = eraseAll rest (cache.erase (generateKey t)) := rfl
      rw [step, ih]
      ext key
      simp only [keysOf, Finset.mem_sdiff, Finset.mem_erase, List.map_cons, List.toFinset_cons,
        Finset.mem_insert, not_or]
      tauto

theorem insertAll_eq (transactions : List Transaction) (cache : Finset (Nat × Nat)) :
    insertAll transactions cache = cache ∪ keysOf transactions := by
  induction transactions generalizing cache with
  | nil => simp [insertAll, keysOf]
  | cons t rest ih =>
      have step : insertAll (t :: rest) cache = insertAll rest (insert (generateKey t) cache) := rfl
      rw [step, ih]
      ext key
      simp only [keysOf, Finset.mem_union, List.map_cons, List.toFinset_cons, Finset.mem_insert]
      tauto

theorem foldl_eraseAll (transactions : Nat → List Transaction) (blocks : List Nat)
    (cache : Finset (Nat × Nat)) (key : Nat × Nat) :
    key ∈ blocks.foldl (fun cache i => eraseAll (transactions i) cache) cache ↔
      key ∈ cache ∧ ∀ i ∈ blocks, key ∉ keysOf (transactions i) := by
  induction blocks generalizing cache with
  | nil => simp
  | cons i rest ih =>
      rw [List.foldl_cons, ih, eraseAll_eq, Finset.mem_sdiff, and_assoc, List.forall_mem_cons]

theorem foldl_insertAll (transactions : Nat → List Transaction) (blocks : List Nat)
    (cache : Finset (Nat × Nat)) (key : Nat × Nat) :
    key ∈ blocks.foldl (fun cache i => insertAll (transactions i) cache) cache ↔
      key ∈ cache ∨ ∃ i ∈ blocks, key ∈ keysOf (transactions i) := by
  induction blocks generalizing cache with
  | nil => simp
  | cons i rest ih =>
      rw [List.foldl_cons, ih, insertAll_eq, Finset.mem_union, or_assoc]
      simp only [List.mem_cons, exists_eq_or_imp]

theorem updateCache_rebuild (maxblocksize lastnumber : Nat) (transactions : Nat → List Transaction)
    (c : NonceCheck) :
    (c.updateCache maxblocksize lastnumber transactions true).cache =
      window transactions (max 1 (windowStart maxblocksize lastnumber)) lastnumber := by
  ext key
  simp only [updateCache, if_true, foldl_insertAll, mem_window, List.mem_range'_1]
  constructor
  · rintro (none | ⟨i, ⟨above, below⟩, inside⟩)
    · simp at none
    · exact ⟨i, by simpa using above, by omega, inside⟩
  · rintro ⟨i, above, below, inside⟩
    have bound : max (0 + 1) (windowStart maxblocksize lastnumber) ≤ i := by simpa using above
    exact Or.inr ⟨i, ⟨bound, by omega⟩, inside⟩

theorem mem_updateCache (maxblocksize lastnumber : Nat) (transactions : Nat → List Transaction)
    (c : NonceCheck) (key : Nat × Nat) :
    key ∈ (c.updateCache maxblocksize lastnumber transactions false).cache ↔
      (key ∈ c.cache ∧ ∀ i, c.startblk ≤ i → i < windowStart maxblocksize lastnumber →
        key ∉ keysOf (transactions i)) ∨
      ∃ i, c.endblk < i ∧ windowStart maxblocksize lastnumber ≤ i ∧ i ≤ lastnumber ∧
        key ∈ keysOf (transactions i) := by
  simp only [updateCache, foldl_insertAll, foldl_eraseAll, List.mem_range'_1, Bool.false_eq_true,
    if_false]
  constructor
  · rintro (⟨inside, gone⟩ | ⟨i, ⟨above, below⟩, inside⟩)
    · exact Or.inl ⟨inside, fun i old left => gone i ⟨old, by omega⟩⟩
    · exact Or.inr ⟨i, by omega, by omega, by omega, inside⟩
  · rintro (⟨inside, gone⟩ | ⟨i, new, start, below, inside⟩)
    · exact Or.inl ⟨inside, fun i bounds => gone i bounds.1 (by omega)⟩
    · exact Or.inr ⟨i, ⟨by omega, by omega⟩, inside⟩

@[simp] theorem updateCache_startblk (maxblocksize lastnumber : Nat)
    (transactions : Nat → List Transaction) (rebuild : Bool) (c : NonceCheck) :
    (c.updateCache maxblocksize lastnumber transactions rebuild).startblk =
      windowStart maxblocksize lastnumber := rfl

@[simp] theorem updateCache_endblk (maxblocksize lastnumber : Nat)
    (transactions : Nat → List Transaction) (rebuild : Bool) (c : NonceCheck) :
    (c.updateCache maxblocksize lastnumber transactions rebuild).endblk = lastnumber := rfl

theorem windowStart_le (maxblocksize lastnumber : Nat) :
    windowStart maxblocksize lastnumber ≤ lastnumber := by
  unfold windowStart
  split_ifs <;> omega

end NonceCheck

end UtispaceChain
