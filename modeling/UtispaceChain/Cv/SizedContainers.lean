import Mathlib.Data.UInt
import UtispaceChain.Cv.BlockQueueForm
import UtispaceChain.Lib.Calls
import UtispaceChain.Lib.SortedList

/-! `SizedBlockMap` and `SizedBlockQueue` with `m_size`, as sequences of calls. -/

namespace UtispaceChain

open Lib

/-! The map -/

namespace SizedBlockMap

def total (m : SizedBlockMap) : Nat := (m.map fun e => e.2.2.length).sum

end SizedBlockMap

structure SizedMap where
  blocks : SizedBlockMap := []
  size : UInt64 := 0
  deriving DecidableEq

inductive MapCall
  | insert (key : Nat) (hash : H256) (blockData : Bytes)
  | removeByKeyEqual (key : Nat)
  | removeByKeyNotGreater (key : Nat)
  | clear

namespace SizedMap

/-- The size that is added is read after the data have been moved into the map. -/
def insert (key : Nat) (hash : H256) (blockData : Bytes) (s : SizedMap) : SizedMap :=
  let movedFrom : Bytes := []
  ⟨s.blocks.insert key hash blockData, s.size + UInt64.ofNat movedFrom.length⟩

/-- The blocks of a range are moved out one after another, and their sizes are summed up. -/
def removeRange (before range after : SizedBlockMap) (size : UInt64) :
    List (H256 × Bytes) × SizedMap :=
  let removedSize := range.foldl (fun sum e => sum + UInt64.ofNat e.2.2.length) 0
  (range.map Prod.snd, ⟨before ++ after, size - removedSize⟩)

def removeByKeyEqual (key : Nat) (s : SizedMap) : List (H256 × Bytes) × SizedMap :=
  let rest := s.blocks.dropWhile fun e => e.1 < key
  removeRange (s.blocks.takeWhile fun e => e.1 < key) (rest.takeWhile fun e => e.1 ≤ key)
    (rest.dropWhile fun e => e.1 ≤ key) s.size

def removeByKeyNotGreater (key : Nat) (s : SizedMap) : List (H256 × Bytes) × SizedMap :=
  removeRange [] (s.blocks.takeWhile fun e => e.1 ≤ key)
    (s.blocks.dropWhile fun e => e.1 ≤ key) s.size

def call (s : SizedMap) : MapCall → Option (List (H256 × Bytes) × SizedMap)
  | .insert key hash blockData => some ([], s.insert key hash blockData)
  | .removeByKeyEqual key => some (s.removeByKeyEqual key)
  | .removeByKeyNotGreater key => some (s.removeByKeyNotGreater key)
  | .clear => some ([], ⟨[], 0⟩)

def plain (m : SizedBlockMap) : MapCall → List (H256 × Bytes) × SizedBlockMap
  | .insert key hash blockData => ([], m.insert key hash blockData)
  | .removeByKeyEqual key => m.removeByKeyEqual key
  | .removeByKeyNotGreater key => m.removeByKeyNotGreater key
  | .clear => ([], [])

/-- The call removes what it is to remove, and `m_size` is the sum of what is left. -/
structure Exact (s : SizedMap) (c : MapCall) (removed : List (H256 × Bytes)) (s' : SizedMap) :
    Prop where
  plain : plain s.blocks c = (removed, s'.blocks)
  size : s'.size.toNat = s'.blocks.total

def InsertsNothing : MapCall → Prop
  | .insert _ _ blockData => blockData = []
  | _ => True

end SizedMap

/-! What the map keeps -/

namespace SizedBlockMap

def Sorted (m : SizedBlockMap) : Prop := m.Pairwise fun a b => a.1 ≤ b.1

variable {m : SizedBlockMap}

theorem Sorted.insert (sorted : m.Sorted) (key : Nat) (hash : H256) (blockData : Bytes) :
    (m.insert key hash blockData).Sorted := by
  induction m with
  | nil => exact List.pairwise_singleton _ _
  | cons e m ih =>
      rcases List.pairwise_cons.mp sorted with ⟨first, rest⟩
      unfold SizedBlockMap.insert
      by_cases before : e.1 ≤ key
      · rw [if_pos before]
        refine List.pairwise_cons.mpr ⟨fun b member => ?_, ih rest⟩
        rcases List.mem_cons.mp ((BlockQueue.insert_perm key hash blockData m).mem_iff.mp member)
          with rfl | old
        · exact before
        · exact first b old
      · rw [if_neg before]
        refine List.pairwise_cons.mpr ⟨fun b member => ?_, sorted⟩
        rcases List.mem_cons.mp member with rfl | old
        · exact Nat.le_of_not_le before
        · exact Nat.le_trans (Nat.le_of_not_le before) (first b old)

theorem total_insert (key : Nat) (hash : H256) (blockData : Bytes) (m : SizedBlockMap) :
    (m.insert key hash blockData).total = m.total + blockData.length := by
  have moved := ((BlockQueue.insert_perm key hash blockData m).map fun e => e.2.2.length).sum_eq
  rw [total, moved, List.map_cons, List.sum_cons, Nat.add_comm, total]

theorem total_append (front back : SizedBlockMap) :
    total (front ++ back) = front.total + back.total := by
  rw [total, List.map_append, List.sum_append, total, total]

end SizedBlockMap

namespace SizedMap

open SizedBlockMap

variable {s s' : SizedMap}

theorem removeRange_size (before range after : SizedBlockMap) {size : UInt64}
    (sum : size.toNat = (before ++ range ++ after).total) :
    (removeRange before range after size).2.size.toNat = (before ++ after).total := by
  have added : ∀ (l : SizedBlockMap) (start : UInt64), start.toNat + total l < 2 ^ 64 →
      (l.foldl (fun sum e => sum + UInt64.ofNat e.2.2.length) start).toNat =
        start.toNat + total l := by
    intro l
    induction l with
    | nil => intro start _; rfl
    | cons e l ih =>
        intro start room
        have head : SizedBlockMap.total (e :: l) = e.2.2.length + total l := List.sum_cons
        have first : (start + UInt64.ofNat e.2.2.length).toNat = start.toNat + e.2.2.length := by
          rw [UInt64.toNat_add, UInt64.toNat_ofNat']
          omega
        rw [List.foldl_cons, ih _ (by omega), first, head]
        omega
  have bound := size.toNat_lt
  rw [total_append, total_append] at sum
  have removed := added range 0 (by rw [UInt64.toNat_zero]; omega)
  rw [UInt64.toNat_zero, Nat.zero_add] at removed
  rw [removeRange, UInt64.toNat_sub, removed, total_append]
  omega

theorem removeByKeyEqual_plain (key : Nat) (sorted : s.blocks.Sorted) :
    (s.removeByKeyEqual key).1 = (s.blocks.removeByKeyEqual key).1 ∧
      (s.removeByKeyEqual key).2.blocks = (s.blocks.removeByKeyEqual key).2 := by
  rcases takeWhile_sorted Prod.fst sorted (fun e : Nat × H256 × Bytes => decide (e.1 < key)) (by
    intro a b le lt
    simp only [decide_eq_true_eq] at lt ⊢
    omega) with ⟨front, rest⟩
  rcases takeWhile_sorted Prod.fst
    (sorted.sublist (List.dropWhile_sublist fun e => decide (e.1 < key)))
    (fun e : Nat × H256 × Bytes => decide (e.1 ≤ key)) (by
    intro a b le le'
    simp only [decide_eq_true_eq] at le' ⊢
    omega) with ⟨range, back⟩
  have same : ∀ e : Nat × H256 × Bytes, (decide (e.1 ≤ key) && !decide (e.1 < key)) =
      decide (e.1 = key) := by
    intro e
    rw [Bool.eq_iff_iff]
    simp only [Bool.and_eq_true, Bool.not_eq_true', decide_eq_true_eq, decide_eq_false_iff_not]
    omega
  refine ⟨?_, ?_⟩
  · rw [SizedMap.removeByKeyEqual, removeRange]
    dsimp only
    rw [range, rest, List.filter_filter, SizedBlockMap.removeByKeyEqual]
    simp only [same]
  · have others : (s.blocks.filter fun e => e.1 ≠ key).Pairwise fun a b => a.1 ≤ b.1 :=
      sorted.sublist List.filter_sublist
    rcases takeWhile_sorted Prod.fst others (fun e : Nat × H256 × Bytes => decide (e.1 < key)) (by
      intro a b le lt
      simp only [decide_eq_true_eq] at lt ⊢
      omega) with ⟨below, above⟩
    have low : ∀ e : Nat × H256 × Bytes, (decide (e.1 < key) && decide (e.1 ≠ key)) =
        decide (e.1 < key) := by
      intro e
      rw [Bool.eq_iff_iff]
      simp only [Bool.and_eq_true, decide_eq_true_eq]
      omega
    have high : ∀ e : Nat × H256 × Bytes, (!decide (e.1 < key) && decide (e.1 ≠ key)) =
        (!decide (e.1 ≤ key) && !decide (e.1 < key)) := by
      intro e
      rw [Bool.eq_iff_iff]
      simp only [Bool.and_eq_true, Bool.not_eq_true', decide_eq_true_eq, decide_eq_false_iff_not]
      omega
    rw [SizedMap.removeByKeyEqual, removeRange]
    dsimp only
    rw [front, back, rest, List.filter_filter, SizedBlockMap.removeByKeyEqual]
    dsimp only
    rw [← List.takeWhile_append_dropWhile (p := fun e => decide (e.1 < key))
      (l := s.blocks.filter fun e => e.1 ≠ key), below,
      above, List.filter_filter, List.filter_filter]
    simp only [low, high]

theorem removeByKeyNotGreater_plain (key : Nat) (sorted : s.blocks.Sorted) :
    (s.removeByKeyNotGreater key).1 = (s.blocks.removeByKeyNotGreater key).1 ∧
      (s.removeByKeyNotGreater key).2.blocks = (s.blocks.removeByKeyNotGreater key).2 := by
  rcases takeWhile_sorted Prod.fst sorted (fun e : Nat × H256 × Bytes => decide (e.1 ≤ key)) (by
    intro a b le le'
    simp only [decide_eq_true_eq] at le' ⊢
    omega) with ⟨front, rest⟩
  rw [SizedMap.removeByKeyNotGreater, removeRange]
  dsimp only
  rw [front, rest, List.nil_append, SizedBlockMap.removeByKeyNotGreater]
  refine ⟨rfl, ?_⟩
  simp only [decide_not]

theorem call_plain {c : MapCall} {removed : List (H256 × Bytes)} (sorted : s.blocks.Sorted)
    (done : s.call c = some (removed, s')) : plain s.blocks c = (removed, s'.blocks) ∧
    s'.blocks.Sorted := by
  cases c with
  | insert key hash blockData =>
      cases done
      exact ⟨rfl, sorted.insert key hash blockData⟩
  | removeByKeyEqual key =>
      rcases removeByKeyEqual_plain key sorted with ⟨vector, blocks⟩
      rw [Option.some.inj done] at vector blocks
      exact ⟨Prod.ext vector.symm blocks.symm,
        by rw [blocks]; exact sorted.sublist List.filter_sublist⟩
  | removeByKeyNotGreater key =>
      rcases removeByKeyNotGreater_plain key sorted with ⟨vector, blocks⟩
      rw [Option.some.inj done] at vector blocks
      exact ⟨Prod.ext vector.symm blocks.symm,
        by rw [blocks]; exact sorted.sublist List.filter_sublist⟩
  | clear =>
      cases done
      exact ⟨rfl, List.Pairwise.nil⟩

theorem call_size {c : MapCall} {removed : List (H256 × Bytes)}
    (size : s.size.toNat = s.blocks.total) (done : s.call c = some (removed, s')) :
    s'.size.toNat = s'.blocks.total ↔ InsertsNothing c := by
  cases c with
  | insert key hash blockData =>
      cases done
      change (s.size + 0).toNat = _ ↔ blockData = []
      rw [UInt64.add_zero, SizedMap.insert, total_insert, size, ← List.length_eq_zero_iff]
      omega
  | removeByKeyEqual key =>
      cases done
      refine iff_of_true (removeRange_size _ _ _ ?_) trivial
      rw [List.append_assoc, List.takeWhile_append_dropWhile, List.takeWhile_append_dropWhile]
      exact size
  | removeByKeyNotGreater key =>
      cases done
      refine iff_of_true (removeRange_size _ _ _ ?_) trivial
      rw [List.nil_append, List.takeWhile_append_dropWhile]
      exact size
  | clear =>
      cases done
      exact iff_of_true rfl trivial

/-- Before a run, and after each of its calls while the size is right. -/
structure Sound (s : SizedMap) : Prop where
  sorted : s.blocks.Sorted
  size : s.size.toNat = s.blocks.total

theorem run_exact (run : List MapCall) : Along call Exact {} run ↔
    Along call (fun _ c _ _ => InsertsNothing c) {} run := by
  have start : Sound {} := ⟨List.Pairwise.nil, rfl⟩
  constructor
  · apply Along.imp (fun _ => True) Sound _ start fun _ _ => trivial
    intro s c removed s' _ sound done exact_
    exact ⟨(call_size sound.size done).mp exact_.size, (call_plain sound.sorted done).2,
      exact_.size⟩
  · apply Along.imp (fun _ => True) Sound _ start fun _ _ => trivial
    intro s c removed s' _ sound done nothing
    rcases call_plain sound.sorted done with ⟨plain, sorted⟩
    have size := (call_size sound.size done).mpr nothing
    exact ⟨⟨plain, size⟩, sorted, size⟩

end SizedMap

/-! The queue -/

/-- A block that a queue holds by value. -/
class Movable (T : Type) where
  blockData : T → Bytes
  movedFrom : T → T
  movedFrom_blockData : ∀ t, blockData (movedFrom t) = []

instance : Movable UnverifiedBlock :=
  ⟨UnverifiedBlock.blockData, UnverifiedBlock.movedFrom, fun _ => rfl⟩

instance : Movable QueuedBlock := ⟨QueuedBlock.blockData, QueuedBlock.movedFrom, fun _ => rfl⟩

section Queue

variable {T : Type} [Movable T]

open Movable

structure SizedBlockQueue (T : Type) where
  queue : List T := []
  size : UInt64 := 0

inductive QueueCall (T : Type)
  | enqueue (t : T)
  | dequeue
  | dequeueMultiple (n : Nat)
  | remove (hash : H256)
  | removeIf (pred : T → Bool)
  | replace (hash : H256) (t : T)
  | clear

namespace SizedBlockQueue

def total (q : List T) : Nat := (q.map fun t => (blockData t).length).sum

def dataSize (t : T) : UInt64 := UInt64.ofNat (blockData t).length

/-- What is moved into `ret`; its sizes are taken off. -/
def removeRange (range rest : List T) (size : UInt64) : List T × SizedBlockQueue T :=
  (range, ⟨rest, range.foldl (fun size t => size - dataSize t) size⟩)

def removeIf (pred : T → Bool) (s : SizedBlockQueue T) : List T × SizedBlockQueue T :=
  let (kept, tail) := Lib.removeIf movedFrom pred s.queue
  removeRange tail kept s.size

variable (sha3Uncles : T → H256)

def hashEquals (hash : H256) (t : T) : Bool := decide (sha3Uncles t = hash)

structure Answer (T : Type) where
  removed : List T := []
  found : Bool := true

def enqueue (t : T) (s : SizedBlockQueue T) : SizedBlockQueue T :=
  ⟨s.queue ++ [t], s.size + dataSize t⟩

/-- `front` of an empty queue is refused. -/
def dequeue (s : SizedBlockQueue T) : Option (T × SizedBlockQueue T) :=
  match s.queue with
  | [] => none
  | t :: rest => some (t, ⟨rest, s.size - dataSize t⟩)

def dequeueMultiple (n : Nat) (s : SizedBlockQueue T) : Option (List T × SizedBlockQueue T) :=
  if n ≤ s.queue.length then some (removeRange (s.queue.take n) (s.queue.drop n) s.size) else none

def remove (hash : H256) (s : SizedBlockQueue T) : Bool × SizedBlockQueue T :=
  let removed := s.removeIf (hashEquals sha3Uncles hash)
  (!removed.1.isEmpty, removed.2)

def replace (hash : H256) (t : T) (s : SizedBlockQueue T) : Bool × SizedBlockQueue T :=
  match s.queue.find? (hashEquals sha3Uncles hash) with
  | none => (false, s)
  | some it =>
      (true, ⟨s.queue.set (s.queue.findIdx (hashEquals sha3Uncles hash)) t, s.size - dataSize it +
        dataSize t⟩)

def call (s : SizedBlockQueue T) : QueueCall T → Option (Answer T × SizedBlockQueue T)
  | .enqueue t => some ({}, s.enqueue t)
  | .dequeue => s.dequeue.map fun (t, s) => ({ removed := [t] }, s)
  | .dequeueMultiple n => (s.dequeueMultiple n).map fun (removed, s) => ({ removed }, s)
  | .remove hash => some ({ found := (s.remove sha3Uncles hash).1 }, (s.remove sha3Uncles hash).2)
  | .removeIf pred => some ({ removed := (s.removeIf pred).1 }, (s.removeIf pred).2)
  | .replace hash t =>
      some ({ found := (s.replace sha3Uncles hash t).1 }, (s.replace sha3Uncles hash t).2)
  | .clear => some ({}, ⟨[], 0⟩)

/-- What a call is to give back, and the blocks that it is to leave. -/
def plain (q : List T) : QueueCall T → Answer T × List T
  | .enqueue t => ({}, q ++ [t])
  | .dequeue => ({ removed := q.take 1 }, q.drop 1)
  | .dequeueMultiple n => ({ removed := q.take n }, q.drop n)
  | .remove hash =>
      ({ found := q.any (hashEquals sha3Uncles hash) },
        q.filter fun t => !hashEquals sha3Uncles hash t)
  | .removeIf pred => ({ removed := q.filter pred }, q.filter fun t => !pred t)
  | .replace hash t =>
      ({ found := q.any (hashEquals sha3Uncles hash) },
        if q.any (hashEquals sha3Uncles hash) then q.set (q.findIdx (hashEquals sha3Uncles hash)) t
          else q)
  | .clear => ({}, [])

/-- The call gives back what it is to give back, and `m_size` is the sum of what is left. -/
structure Exact (s : SizedBlockQueue T) (c : QueueCall T) (answer : Answer T)
    (s' : SizedBlockQueue T) : Prop where
  plain : plain sha3Uncles s.queue c = (answer, s'.queue)
  size : s'.size.toNat = total s'.queue

/-- What `removeIf` takes stands at the end, what `remove` takes stands there or has no data, and
the data that are left can be counted. -/
structure Met (s : SizedBlockQueue T) (c : QueueCall T) : Prop where
  removeIf : ∀ pred, c = .removeIf pred → removesTail pred s.queue = true
  remove : ∀ hash, c = .remove hash → total (overwritten (hashEquals sha3Uncles hash) s.queue) = 0
  counted : total (plain sha3Uncles s.queue c).2 < 2 ^ 64

def Blind : QueueCall T → Prop
  | .removeIf pred => ∀ t, pred (movedFrom t) = pred t
  | _ => True

/-! What the queue keeps -/

theorem total_append (front back : List T) : total (front ++ back) = total front + total back := by
  rw [total, List.map_append, List.sum_append, total, total]

theorem total_cons (t : T) (q : List T) : total (t :: q) = (blockData t).length + total q :=
  List.sum_cons

theorem removeRange_size (range rest : List T) {size : UInt64} {left : Nat}
    (sum : size.toNat = total range + left) :
    (removeRange range rest size).2.size.toNat = left := by
  rw [removeRange]
  dsimp only
  induction range generalizing size with
  | nil => rw [List.foldl_nil, sum, total, List.map_nil, List.sum_nil, Nat.zero_add]
  | cons t range ih =>
      have bound := size.toNat_lt
      rw [total_cons] at sum
      apply ih
      rw [UInt64.toNat_sub, dataSize, UInt64.toNat_ofNat']
      omega

theorem removeIf_size {s : SizedBlockQueue T} (pred : T → Bool)
    (size : s.size.toNat = total s.queue) :
    (s.removeIf pred).2.size.toNat = total (s.queue.filter fun t => !pred t) +
      total (overwritten pred s.queue) := by
  have light : ∀ t : T, (blockData (movedFrom t)).length = 0 :=
    fun t => by rw [movedFrom_blockData, List.length_nil]
  have weight := removeIf_weight movedFrom pred s.queue (fun t => (blockData t).length) light
  have parted : total (s.queue.filter pred) + total (s.queue.filter fun t => !pred t) =
      total s.queue := by
    rw [← total_append]
    exact ((List.filter_append_perm pred s.queue).map _).sum_eq
  apply removeRange_size
  rw [size, ← parted]
  change _ = total (Lib.removeIf movedFrom pred s.queue).2 + _
  unfold total at weight ⊢
  omega

variable {sha3Uncles} {s s' : SizedBlockQueue T}

theorem removeIf_queue (pred : T → Bool) :
    (s.removeIf pred).2.queue = s.queue.filter fun t => !pred t := rfl

theorem removeIf_any (pred : T → Bool) : (!(s.removeIf pred).1.isEmpty) = s.queue.any pred := by
  have lengths := removeIf_length movedFrom pred s.queue
  have kept : (Lib.removeIf movedFrom pred s.queue).1 = s.queue.filter fun t => !pred t := rfl
  have parted := List.length_eq_length_filter_add (l := s.queue) pred
  change (!(Lib.removeIf movedFrom pred s.queue).2.isEmpty) = _
  rw [kept] at lengths
  rw [Bool.eq_iff_iff, Bool.not_eq_true', List.isEmpty_eq_false_iff, ← List.length_pos_iff,
    List.any_eq_true]
  constructor
  · intro some_
    have pos : 0 < (s.queue.filter pred).length := by omega
    rcases List.exists_mem_of_length_pos pos with ⟨t, member⟩
    exact ⟨t, (List.mem_filter.mp member).1, (List.mem_filter.mp member).2⟩
  · rintro ⟨t, member, taken⟩
    have pos := List.length_pos_of_mem (List.mem_filter.mpr ⟨member, taken⟩)
    omega

theorem total_set {q : List T} {i : Nat} (inside : i < q.length) (t : T) :
    total (q.set i t) + (blockData q[i]).length = total q + (blockData t).length := by
  have split : q = q.take i ++ q[i] :: q.drop (i + 1) := by
    rw [← List.drop_eq_getElem_cons inside, List.take_append_drop]
  have placed : q.set i t = q.take i ++ t :: q.drop (i + 1) :=
    List.set_eq_take_append_cons_drop.trans (if_pos inside)
  have whole : total q = total (q.take i) + ((blockData q[i]).length + total (q.drop (i + 1))) := by
    rw [← total_cons, ← total_append, ← split]
  rw [placed, total_append, total_cons, whole]
  omega

theorem total_filter_le (pred : T → Bool) (q : List T) : total (q.filter pred) ≤ total q := by
  have parted : total (q.filter pred) + total (q.filter fun t => !pred t) = total q := by
    rw [← total_append]
    exact ((List.filter_append_perm pred q).map _).sum_eq
  omega

/-- A call that does with the blocks what it is to do is exact if it counts modulo 2^64, and what is
left can be counted. -/
theorem exact_iff_counted {c : QueueCall T} {answer : Answer T}
    (ordinary : (∀ pred, c ≠ .removeIf pred) ∧ ∀ hash, c ≠ .remove hash)
    (right : plain sha3Uncles s.queue c = (answer, s'.queue))
    (size : s'.size.toNat = total s'.queue % 2 ^ 64) :
    Exact sha3Uncles s c answer s' ↔ Met sha3Uncles s c := by
  constructor
  · intro exact_
    have sum := exact_.size
    refine ⟨fun pred same => absurd same (ordinary.1 pred),
      fun hash same => absurd same (ordinary.2 hash), ?_⟩
    rw [right]
    dsimp only
    omega
  · intro met
    have counted := met.counted
    rw [right] at counted
    dsimp only at counted
    exact ⟨right, by omega⟩

theorem enqueue_exact (size : s.size.toNat = total s.queue) (t : T) :
    Exact sha3Uncles s (.enqueue t) {} (s.enqueue t) ↔ Met sha3Uncles s (.enqueue t) := by
  have sum : total (s.queue ++ [t]) = total s.queue + (blockData t).length := by
    rw [total_append, total_cons]
    rfl
  apply exact_iff_counted ⟨by nofun, by nofun⟩ rfl
  change (s.size + dataSize t).toNat = total (s.queue ++ [t]) % 2 ^ 64
  rw [UInt64.toNat_add, dataSize, UInt64.toNat_ofNat', size, sum]
  omega

theorem dequeue_exact (size : s.size.toNat = total s.queue) {t : T}
    (done : s.dequeue = some (t, s')) :
    Exact sha3Uncles s .dequeue { removed := [t] } s' ↔ Met sha3Uncles s .dequeue := by
  have bound := s.size.toNat_lt
  unfold dequeue at done
  cases shape : s.queue with
  | nil =>
      rw [shape] at done
      cases done
  | cons first rest =>
      rw [shape] at done size
      cases done
      rw [total_cons] at size
      apply exact_iff_counted ⟨by nofun, by nofun⟩
      · rw [shape]
        rfl
      · dsimp only
        rw [UInt64.toNat_sub, dataSize, UInt64.toNat_ofNat', size]
        omega

theorem dequeueMultiple_exact (size : s.size.toNat = total s.queue) {n : Nat} {removed : List T}
    (done : s.dequeueMultiple n = some (removed, s')) :
    Exact sha3Uncles s (.dequeueMultiple n) { removed } s' ↔
    Met sha3Uncles s (.dequeueMultiple n) := by
  have bound := s.size.toNat_lt
  have sum : s.size.toNat = total (s.queue.take n) + total (s.queue.drop n) := by
    rw [← total_append, List.take_append_drop, size]
  have left := removeRange_size (s.queue.take n) (s.queue.drop n) sum
  unfold dequeueMultiple at done
  by_cases within : n ≤ s.queue.length
  · rw [if_pos within] at done
    cases done
    apply exact_iff_counted ⟨by nofun, by nofun⟩ rfl
    change (removeRange (s.queue.take n) (s.queue.drop n) s.size).2.size.toNat =
      total (s.queue.drop n) % 2 ^ 64
    rw [left]
    omega
  · rw [if_neg within] at done
    cases done

theorem replace_exact (size : s.size.toNat = total s.queue) (hash : H256) (t : T) :
    Exact sha3Uncles s (.replace hash t) { found := (s.replace sha3Uncles hash t).1 }
      (s.replace sha3Uncles hash t).2 ↔
      Met sha3Uncles s (.replace hash t) := by
  have bound := s.size.toNat_lt
  unfold replace
  cases here : s.queue.find? (hashEquals sha3Uncles hash) with
  | none =>
      have absent : s.queue.any (hashEquals sha3Uncles hash) = false :=
        List.any_eq_false.mpr fun t member => by simpa using List.find?_eq_none.mp here t member
      apply exact_iff_counted ⟨by nofun, by nofun⟩
      · rw [plain, absent, if_neg Bool.false_ne_true]
      · dsimp only
        omega
  | some it =>
      have present : s.queue.any (hashEquals sha3Uncles hash) = true :=
        List.any_eq_true.mpr ⟨it, List.mem_of_find?_eq_some here, List.find?_some here⟩
      have inside : s.queue.findIdx (hashEquals sha3Uncles hash) < s.queue.length :=
        List.findIdx_lt_length_of_exists (List.any_eq_true.mp present)
      rw [List.find?_eq_getElem?_findIdx, List.getElem?_eq_getElem inside,
        Option.some.injEq] at here
      have sum := total_set inside t
      rw [here] at sum
      apply exact_iff_counted ⟨by nofun, by nofun⟩
      · rw [plain, present, if_pos rfl]
      · dsimp only
        rw [UInt64.toNat_add, UInt64.toNat_sub, dataSize, dataSize, UInt64.toNat_ofNat',
          UInt64.toNat_ofNat', size]
        omega

theorem remove_exact (size : s.size.toNat = total s.queue) (hash : H256) :
    Exact sha3Uncles s (.remove hash) { found := (s.remove sha3Uncles hash).1 }
      (s.remove sha3Uncles hash).2 ↔
      Met sha3Uncles s (.remove hash) := by
  have bound := s.size.toNat_lt
  have less := total_filter_le (fun t => !hashEquals sha3Uncles hash t) s.queue
  have sum := removeIf_size (hashEquals sha3Uncles hash) size
  have counted : total (plain sha3Uncles s.queue (.remove hash)).2 < 2 ^ 64 := by
    change total (s.queue.filter fun t => !hashEquals sha3Uncles hash t) < 2 ^ 64
    omega
  constructor
  · intro exact_
    have right := exact_.size
    change _ = total (s.queue.filter fun t => !hashEquals sha3Uncles hash t) at right
    refine ⟨by nofun, fun hash' same => ?_, counted⟩
    cases same
    rw [remove] at right
    dsimp only at right
    omega
  · intro met
    have none := met.remove hash rfl
    refine ⟨?_, ?_⟩
    · rw [plain, remove]
      dsimp only
      rw [removeIf_any, removeIf_queue]
    · rw [remove]
      dsimp only
      rw [sum, none, removeIf_queue, Nat.add_zero]

theorem removeIf_exact_of_met (size : s.size.toNat = total s.queue) (pred : T → Bool)
    (met : Met sha3Uncles s (.removeIf pred)) :
    Exact sha3Uncles s (.removeIf pred) { removed := (s.removeIf pred).1 } (s.removeIf pred).2 := by
  have tail := met.removeIf pred rfl
  have sum := removeIf_size pred size
  rw [overwritten_of_tail pred s.queue tail] at sum
  rcases removesTail_split pred s.queue tail with ⟨kept, gone, split, stays, goes⟩
  have vector : (s.removeIf pred).1 = s.queue.filter pred := by
    change (Lib.removeIf movedFrom pred s.queue).2 = _
    rw [split, removeIf_append movedFrom pred kept gone stays goes, List.filter_append,
      List.filter_eq_nil_iff.mpr (by simpa using stays), List.filter_eq_self.mpr goes,
      List.nil_append]
  refine ⟨?_, ?_⟩
  · rw [plain, vector, removeIf_queue]
  · rw [sum, removeIf_queue]
    rfl

theorem met_of_removeIf_exact (size : s.size.toNat = total s.queue) (pred : T → Bool)
    (blind : ∀ t, pred (movedFrom t) = pred t)
    (exact_ : Exact sha3Uncles s (.removeIf pred) { removed := (s.removeIf pred).1 }
      (s.removeIf pred).2) :
    Met sha3Uncles s (.removeIf pred) := by
  have bound := s.size.toNat_lt
  have less := total_filter_le (fun t => !pred t) s.queue
  have vector := congrArg (fun answer => answer.1.removed) exact_.plain
  refine ⟨fun pred' same => ?_, by nofun, ?_⟩
  · cases same
    exact (removeIf_exact movedFrom pred s.queue blind).mp vector.symm
  · change total (s.queue.filter fun t => !pred t) < 2 ^ 64
    omega

theorem call_exact {c : QueueCall T} {answer : Answer T} (size : s.size.toNat = total s.queue)
    (done : s.call sha3Uncles c = some (answer, s')) :
    (Met sha3Uncles s c → Exact sha3Uncles s c answer s') ∧
      (Blind c → Exact sha3Uncles s c answer s' → Met sha3Uncles s c) := by
  cases c with
  | enqueue t =>
      cases done
      exact ⟨(enqueue_exact size t).mpr, fun _ => (enqueue_exact size t).mp⟩
  | dequeue =>
      rcases Option.map_eq_some_iff.mp done with ⟨⟨t, s''⟩, taken, same⟩
      cases same
      exact ⟨(dequeue_exact size taken).mpr, fun _ => (dequeue_exact size taken).mp⟩
  | dequeueMultiple n =>
      rcases Option.map_eq_some_iff.mp done with ⟨⟨removed, s''⟩, taken, same⟩
      cases same
      exact ⟨(dequeueMultiple_exact size taken).mpr, fun _ => (dequeueMultiple_exact size taken).mp⟩
  | remove hash =>
      cases done
      exact ⟨(remove_exact size hash).mpr, fun _ => (remove_exact size hash).mp⟩
  | removeIf pred =>
      cases done
      exact ⟨removeIf_exact_of_met size pred, met_of_removeIf_exact size pred⟩
  | replace hash t =>
      cases done
      exact ⟨(replace_exact size hash t).mpr, fun _ => (replace_exact size hash t).mp⟩
  | clear =>
      cases done
      have both : Exact sha3Uncles s .clear {} ⟨[], 0⟩ ↔ Met sha3Uncles s .clear :=
        exact_iff_counted ⟨by nofun, by nofun⟩ rfl rfl
      exact ⟨both.mpr, fun _ => both.mp⟩

theorem run_exact (run : List (QueueCall T))
    (met : Along (call sha3Uncles) (fun s c _ _ => Met sha3Uncles s c) {} run) :
    Along (call sha3Uncles) (Exact sha3Uncles) {} run := by
  apply Along.imp (fun _ => True) (fun s => s.size.toNat = total s.queue) _ rfl
    (fun _ _ => trivial) met
  intro s c answer s' _ size done here
  have exact_ := (call_exact size done).1 here
  exact ⟨exact_, exact_.size⟩

theorem run_met (run : List (QueueCall T)) (blind : ∀ c ∈ run, Blind c)
    (exact_ : Along (call sha3Uncles) (Exact sha3Uncles) {} run) :
    Along (call sha3Uncles) (fun s c _ _ => Met sha3Uncles s c) {} run := by
  apply Along.imp Blind (fun s => s.size.toNat = total s.queue) _ rfl blind exact_
  intro s c answer s' blind size done here
  exact ⟨(call_exact size done).2 blind here, here.size⟩

end SizedBlockQueue

/-- The map accounts exactly in the runs that insert no data. The queue does in those where
`removeIf` takes blocks from the end alone, and `remove` takes blocks there or without data. -/
theorem sized_containers (sha3Uncles : T → H256) (mapRun : List MapCall)
    (queueRun : List (QueueCall T)) :
    (Along SizedMap.call SizedMap.Exact {} mapRun ↔
      Along SizedMap.call (fun _ c _ _ => SizedMap.InsertsNothing c) {} mapRun) ∧
    (Along (SizedBlockQueue.call sha3Uncles) (fun s c _ _ => SizedBlockQueue.Met sha3Uncles s c)
      {} queueRun →
      Along (SizedBlockQueue.call sha3Uncles) (SizedBlockQueue.Exact sha3Uncles) {} queueRun) ∧
    ((∀ c ∈ queueRun, SizedBlockQueue.Blind c) →
      Along (SizedBlockQueue.call sha3Uncles) (SizedBlockQueue.Exact sha3Uncles) {} queueRun →
      Along (SizedBlockQueue.call sha3Uncles) (fun s c _ _ => SizedBlockQueue.Met sha3Uncles s c)
        {} queueRun) :=
  ⟨SizedMap.run_exact mapRun, SizedBlockQueue.run_exact queueRun, SizedBlockQueue.run_met queueRun⟩

end Queue

def badLast : List (QueueCall UnverifiedBlock) :=
  [.enqueue ⟨2, 0, [0x62]⟩, .enqueue ⟨1, 0, [0x61]⟩, .removeIf fun b => decide (b.hash = 1),
    .remove 2]

theorem sized_containers_bad_last :
    Along SizedMap.call SizedMap.Exact {} [.insert 1 7 [], .removeByKeyEqual 1] ∧
    Along (SizedBlockQueue.call UnverifiedBlock.hash)
      (SizedBlockQueue.Exact UnverifiedBlock.hash) {} badLast ∧
    Along (SizedBlockQueue.call UnverifiedBlock.hash)
      (fun s c _ _ => SizedBlockQueue.Met UnverifiedBlock.hash s c) {} badLast := by
  rcases sized_containers UnverifiedBlock.hash [.insert 1 7 [], .removeByKeyEqual 1] badLast with
    ⟨map, queue, back⟩
  have met : Along (SizedBlockQueue.call UnverifiedBlock.hash)
      (fun s c _ _ => SizedBlockQueue.Met UnverifiedBlock.hash s c) {} badLast := by
    rintro _ _ ⟨⟩
    refine ⟨⟨by nofun, by nofun, by decide⟩, ?_⟩
    rintro _ _ ⟨⟩
    refine ⟨⟨by nofun, by nofun, by decide⟩, ?_⟩
    rintro _ _ ⟨⟩
    refine ⟨⟨fun pred same => by cases same; rfl, by nofun, by decide⟩, ?_⟩
    rintro _ _ ⟨⟩
    exact ⟨⟨by nofun, fun hash same => by cases same; rfl, by decide⟩, trivial⟩
  have blind : ∀ c ∈ badLast, SizedBlockQueue.Blind c := by
    simp only [badLast, List.forall_mem_cons]
    exact ⟨trivial, trivial, fun t => rfl, trivial, fun c none => absurd none List.not_mem_nil⟩
  exact ⟨map.mpr fun _ _ _ => ⟨rfl, fun _ _ _ => ⟨trivial, trivial⟩⟩, queue met,
    back blind (queue met)⟩

/-- A block is inserted and taken out again. In the queue a bad block stands before a good one,
which is given back in its place, without its data. -/
theorem sizes_lost :
    (SizedMap.insert 1 7 [0x61] {} = ⟨[(1, 7, [0x61])], 0⟩ ∧
      (SizedMap.insert 1 7 [0x61] {}).removeByKeyEqual 1 = ([(7, [0x61])], ⟨[], 2 ^ 64 - 1⟩) ∧
      ¬ Along SizedMap.call SizedMap.Exact {} [.insert 1 7 [0x61], .removeByKeyEqual 1]) ∧
    (((({} : SizedBlockQueue UnverifiedBlock).enqueue ⟨1, 0, [0x61]⟩).enqueue
      ⟨2, 0, [0x62]⟩).removeIf
        (fun b => decide (b.hash = 1)) = ([⟨2, 0, []⟩], ⟨[⟨2, 0, [0x62]⟩], 2⟩) ∧
      ¬ Along (SizedBlockQueue.call UnverifiedBlock.hash)
        (SizedBlockQueue.Exact UnverifiedBlock.hash) {}
        [.enqueue ⟨1, 0, [0x61]⟩, .enqueue ⟨2, 0, [0x62]⟩,
          .removeIf fun b => decide (b.hash = 1)]) := by
  refine ⟨⟨rfl, by decide +kernel, fun along => ?_⟩, rfl, fun along => ?_⟩
  · have size := (along _ _ rfl).1.size
    cases size
  · have size := ((((along _ _ rfl).2 _ _ rfl).2) _ _ rfl).1.size
    cases size

end UtispaceChain
