import Mathlib.Data.Finset.Card
import UtispaceChain.Cv.TransactionQueue

/-! What the indices of a `TransactionQueue` say, and the four moves that every operation is made
of. -/

namespace UtispaceChain

open Lib

/-- A queue by what is found under a hash, and under a sender and a number. -/
@[ext] structure QueueView where
  current : List QueueEntry
  byHash : H256 → Option Nat
  slot : Nat → Nat → Option Nat
  future : Nat → Nat → Option VerifiedTransaction
  futureSize : Nat
  nextHandle : Nat

def setSlot {V : Type} (f : Nat → Nat → Option V) (a n : Nat) (v : Option V) :
    Nat → Nat → Option V :=
  fun b k => if b = a ∧ k = n then v else f b k

section SetSlot

variable {V : Type} {f : Nat → Nat → Option V} {a n b k : Nat} {v : Option V}

@[simp] theorem setSlot_self : setSlot f a n v a n = v := by simp [setSlot]

theorem setSlot_ne (other : ¬ (b = a ∧ k = n)) : setSlot f a n v b k = f b k := if_neg other

theorem setSlot_eq_some {w : V} :
    setSlot f a n v b k = some w ↔ (b = a ∧ k = n ∧ v = some w) ∨
    (¬ (b = a ∧ k = n) ∧ f b k = some w) := by
  by_cases here : b = a ∧ k = n
  · obtain ⟨rfl, rfl⟩ := here
    simp
  · simp only [setSlot_ne here, here, not_false_eq_true, true_and]
    exact ⟨.inr, fun either => either.resolve_left fun same => here ⟨same.1, same.2.1⟩⟩

end SetSlot

namespace QueueView

def held (v : QueueView) (h : H256) : Prop :=
  (∃ e ∈ v.current, e.transaction.sha3 = h) ∨ ∃ a n t, v.future a n = some t ∧ t.sha3 = h

/-- The indices agree with the sets, and at most `bound` transactions are held. -/
structure Good (bound : Nat) (v : QueueView) : Prop where
  handles : (v.current.map QueueEntry.handle).Nodup
  fresh : ∀ e ∈ v.current, e.handle < v.nextHandle
  byHash : ∀ h handle, v.byHash h = some handle ↔
    ∃ e ∈ v.current, e.transaction.sha3 = h ∧ e.handle = handle
  slot : ∀ a n handle, v.slot a n = some handle ↔
    ∃ e ∈ v.current, (e.transaction.sender = a ∧ e.transaction.randomid = n) ∧ e.handle = handle
  placed : ∀ a n t, v.future a n = some t → t.sender = a ∧ t.randomid = n
  apart : ∀ e ∈ v.current, v.future e.transaction.sender e.transaction.randomid = none
  hashes : ∀ a n t, v.future a n = some t → v.byHash t.sha3 = none
  futureHashes : ∀ a n t b k u, v.future a n = some t → v.future b k = some u → t.sha3 = u.sha3 →
    a = b ∧ n = k
  counted : ∃ slots : Finset (Nat × Nat), (∀ a n, (a, n) ∈ slots ↔ (v.future a n).isSome = true) ∧
    v.futureSize = slots.card ∧ slots.card + v.current.length ≤ bound

/-! The moves. -/

def place (t : VerifiedTransaction) (v : QueueView) : QueueView :=
  { v with
    current := v.current.orderedInsert TransactionQueue.priorityCompare ⟨v.nextHandle, t⟩
    byHash := Function.update v.byHash t.sha3 (some v.nextHandle)
    slot := setSlot v.slot t.sender t.randomid (some v.nextHandle)
    nextHandle := v.nextHandle + 1 }

def remove (e : QueueEntry) (v : QueueView) : QueueView :=
  { v with
    current := v.current.filter fun x => x.handle ≠ e.handle
    byHash := Function.update v.byHash e.transaction.sha3 none
    slot := setSlot v.slot e.transaction.sender e.transaction.randomid none }

def takeFuture (a n : Nat) (v : QueueView) : QueueView :=
  { v with
    future := setSlot v.future a n none
    futureSize := toUnsigned (v.futureSize + (2 ^ 32 - 1)) }

def putFuture (t : VerifiedTransaction) (v : QueueView) : QueueView :=
  { v with
    future := setSlot v.future t.sender t.randomid (some t)
    futureSize := toUnsigned (v.futureSize + 1) }

variable {v : QueueView} {bound : Nat} {t : VerifiedTransaction} {e e' : QueueEntry} {a n : Nat}

theorem Good.mono (good : v.Good bound) {bound' : Nat} (more : bound ≤ bound') : v.Good bound' := by
  obtain ⟨slots, mem, size, few⟩ := good.counted
  exact { good with counted := ⟨slots, mem, size, few.trans more⟩ }

theorem Good.shrink (good : v.Good bound) {current future : Nat} (few : v.current.length ≤ current)
    (fewer : v.futureSize ≤ future) : v.Good (current + future) := by
  obtain ⟨slots, mem, size, -⟩ := good.counted
  exact { good with counted := ⟨slots, mem, size, by omega⟩ }

theorem Good.eq_of_handle (good : v.Good bound) (left : e ∈ v.current) (right : e' ∈ v.current)
    (same : e.handle = e'.handle) : e = e' :=
  List.inj_on_of_nodup_map good.handles left right same

theorem Good.eq_of_hash (good : v.Good bound) (left : e ∈ v.current) (right : e' ∈ v.current)
    (same : e.transaction.sha3 = e'.transaction.sha3) : e = e' := by
  have one := (good.byHash _ _).mpr ⟨e, left, rfl, rfl⟩
  have two := (good.byHash _ _).mpr ⟨e', right, rfl, rfl⟩
  rw [same, two] at one
  exact good.eq_of_handle left right (Option.some.inj one).symm

theorem Good.eq_of_slot (good : v.Good bound) (left : e ∈ v.current) (right : e' ∈ v.current)
    (sender : e.transaction.sender = e'.transaction.sender)
    (randomid : e.transaction.randomid = e'.transaction.randomid) : e = e' := by
  have one := (good.slot _ _ _).mpr ⟨e, left, ⟨rfl, rfl⟩, rfl⟩
  have two := (good.slot _ _ _).mpr ⟨e', right, ⟨rfl, rfl⟩, rfl⟩
  rw [sender, randomid, two] at one
  exact good.eq_of_handle left right (Option.some.inj one).symm

theorem mem_place (e : QueueEntry) :
    e ∈ (v.place t).current ↔ e = ⟨v.nextHandle, t⟩ ∨ e ∈ v.current := by
  simp [place, List.mem_orderedInsert]

theorem mem_remove (x : QueueEntry) : x ∈ (v.remove e).current ↔
    x ∈ v.current ∧ x.handle ≠ e.handle := by
  simp [remove]

theorem not_current_of_not_held (new : ¬ v.held t.sha3) (e : QueueEntry) (present : e ∈ v.current) :
    e.transaction.sha3 ≠ t.sha3 := fun same => new (.inl ⟨e, present, same⟩)

theorem Good.place (good : v.Good bound) (open_ : v.slot t.sender t.randomid = none)
    (later : v.future t.sender t.randomid = none) (new : ¬ v.held t.sha3) :
    (v.place t).Good (bound + 1) where
  handles := by
    have perm :=
      (List.perm_orderedInsert TransactionQueue.priorityCompare ⟨v.nextHandle, t⟩ v.current).map
      QueueEntry.handle
    refine perm.nodup_iff.mpr (List.nodup_cons.mpr ⟨fun present => ?_, good.handles⟩)
    obtain ⟨e, mem, same⟩ := List.mem_map.mp present
    exact absurd same (Nat.ne_of_lt (good.fresh e mem))
  fresh e mem := by
    rcases (mem_place e).mp mem with rfl | old
    · exact Nat.lt_succ_self _
    · exact Nat.lt_succ_of_lt (good.fresh e old)
  byHash h handle := by
    simp only [mem_place, exists_eq_or_imp]
    by_cases here : h = t.sha3
    · subst here
      have none : ¬ ∃ e ∈ v.current, e.transaction.sha3 = t.sha3 ∧ e.handle = handle :=
        fun ⟨e, mem, same, _⟩ => not_current_of_not_held new e mem same
      simp [QueueView.place, none]
    · simp [QueueView.place, Function.update_of_ne here, good.byHash, Ne.symm here]
  slot a n handle := by
    change setSlot v.slot t.sender t.randomid (some v.nextHandle) a n = some handle ↔ _
    simp only [mem_place, exists_eq_or_imp, setSlot_eq_some, good.slot]
    by_cases here : a = t.sender ∧ n = t.randomid
    · obtain ⟨rfl, rfl⟩ := here
      have none : ¬ ∃ e ∈ v.current,
          (e.transaction.sender = t.sender ∧ e.transaction.randomid = t.randomid) ∧
          e.handle = handle := fun some => by
        rw [← good.slot, open_] at some
        cases some
      simp [none]
    · have apart : ¬ (t.sender = a ∧ t.randomid = n) := fun same => here ⟨same.1.symm, same.2.symm⟩
      simp only [here, apart, not_false_eq_true, true_and, false_and, false_or]
      constructor
      · rintro (⟨sender, randomid, -⟩ | old)
        · exact absurd ⟨sender, randomid⟩ here
        · exact old
      · exact .inr
  placed := good.placed
  apart e mem := by
    rcases (mem_place e).mp mem with rfl | old
    · exact later
    · exact good.apart e old
  hashes a n u found := by
    have differ : u.sha3 ≠ t.sha3 := fun same => new (.inr ⟨a, n, u, found, same⟩)
    simp [QueueView.place, Function.update_of_ne differ, good.hashes a n u found]
  futureHashes := good.futureHashes
  counted := by
    obtain ⟨slots, mem, size, few⟩ := good.counted
    refine ⟨slots, mem, size, ?_⟩
    simp only [QueueView.place, List.orderedInsert_length]
    omega

theorem length_remove (good : v.Good bound) (present : e ∈ v.current) :
    (v.remove e).current.length + 1 = v.current.length := by
  have handles : (v.remove e).current.map QueueEntry.handle =
      (v.current.map QueueEntry.handle).erase e.handle := by
    rw [good.handles.erase_eq_filter, List.filter_map]
    refine congrArg _ (List.filter_congr fun x _ => ?_)
    rw [Function.comp_apply, bne, decide_not]
    rfl
  have length := congrArg List.length handles
  rw [List.length_map, List.length_erase_of_mem (List.mem_map_of_mem present),
    List.length_map] at length
  have pos := List.length_pos_of_mem present
  omega

theorem Good.remove (good : v.Good (bound + 1)) (present : e ∈ v.current) :
    (v.remove e).Good bound where
  handles := good.handles.sublist ((List.filter_sublist (l := v.current)).map _)
  fresh x mem := good.fresh x ((mem_remove x).mp mem).1
  byHash h handle := by
    simp only [mem_remove]
    by_cases here : h = e.transaction.sha3
    · subst here
      have none : ¬ ∃ x, (x ∈ v.current ∧ x.handle ≠ e.handle) ∧
          x.transaction.sha3 = e.transaction.sha3 ∧ x.handle = handle :=
            fun ⟨x, ⟨mem, other⟩, same, _⟩ =>
        other (congrArg QueueEntry.handle (good.eq_of_hash mem present same))
      simp [QueueView.remove, none]
    · change Function.update v.byHash e.transaction.sha3 none h = some handle ↔ _
      rw [Function.update_of_ne here, good.byHash]
      constructor
      · rintro ⟨x, mem, rfl, rfl⟩
        exact ⟨x, ⟨mem, fun same => here (by rw [good.eq_of_handle mem present same])⟩, rfl, rfl⟩
      · rintro ⟨x, ⟨mem, -⟩, rfl, rfl⟩
        exact ⟨x, mem, rfl, rfl⟩
  slot a n handle := by
    change setSlot v.slot e.transaction.sender e.transaction.randomid none a n = some handle ↔ _
    simp only [mem_remove, setSlot_eq_some, good.slot, reduceCtorEq, and_false, false_or]
    constructor
    · rintro ⟨differ, x, mem, ⟨rfl, rfl⟩, rfl⟩
      exact ⟨x,
        ⟨mem, fun same => differ (by rw [good.eq_of_handle mem present same]; exact ⟨rfl, rfl⟩)⟩,
        ⟨rfl, rfl⟩, rfl⟩
    · rintro ⟨x, ⟨mem, other⟩, ⟨rfl, rfl⟩, rfl⟩
      exact ⟨fun same =>
        other (congrArg QueueEntry.handle (good.eq_of_slot mem present same.1 same.2)),
        x, mem, ⟨rfl, rfl⟩, rfl⟩
  placed := good.placed
  apart x mem := good.apart x ((mem_remove x).mp mem).1
  hashes a n u found := by
    change Function.update v.byHash e.transaction.sha3 none u.sha3 = none
    by_cases here : u.sha3 = e.transaction.sha3
    · rw [here, Function.update_self]
    · rw [Function.update_of_ne here]
      exact good.hashes a n u found
  futureHashes := good.futureHashes
  counted := by
    obtain ⟨slots, mem, size, few⟩ := good.counted
    have shorter := length_remove good present
    exact ⟨slots, mem, size, by omega⟩

theorem toUnsigned_pred {x : Nat} (pos : 0 < x) (fits : x ≤ 2 ^ 32) :
    toUnsigned (x + (2 ^ 32 - 1)) = x - 1 := by
  have shift : x + (2 ^ 32 - 1) = x - 1 + 2 ^ 32 := by omega
  rw [toUnsigned, shift, Nat.add_mod_right, Nat.mod_eq_of_lt (by omega)]

theorem Good.takeFuture (good : v.Good (bound + 1)) (fits : bound + 1 ≤ 2 ^ 32)
    (found : v.future a n = some t) :
    (v.takeFuture a n).Good bound where
  handles := good.handles
  fresh := good.fresh
  byHash := good.byHash
  slot := good.slot
  placed b k u look := by
    rcases setSlot_eq_some.mp look with ⟨-, -, gone⟩ | ⟨-, old⟩
    · cases gone
    · exact good.placed b k u old
  apart x mem := by
    change setSlot v.future a n none _ _ = none
    rw [setSlot]
    split
    · rfl
    · exact good.apart x mem
  hashes b k u look := by
    rcases setSlot_eq_some.mp look with ⟨-, -, gone⟩ | ⟨-, old⟩
    · cases gone
    · exact good.hashes b k u old
  futureHashes b k u c m w left right same := by
    rcases setSlot_eq_some.mp left with ⟨-, -, gone⟩ | ⟨-, old⟩
    · cases gone
    · rcases setSlot_eq_some.mp right with ⟨-, -, gone⟩ | ⟨-, old'⟩
      · cases gone
      · exact good.futureHashes b k u c m w old old' same
  counted := by
    obtain ⟨slots, mem, size, few⟩ := good.counted
    have here : (a, n) ∈ slots := (mem a n).mpr (by rw [found]; rfl)
    have card := Finset.card_erase_add_one here
    refine ⟨slots.erase (a, n), fun b k => ?_, ?_, ?_⟩
    · change _ ↔ (setSlot v.future a n none b k).isSome = true
      rw [Finset.mem_erase, mem, setSlot]
      split
      case isTrue same => simp [same.1, same.2]
      case isFalse other => simpa [Prod.ext_iff] using fun _ left right => other ⟨left, right⟩
    · change toUnsigned (v.futureSize + (2 ^ 32 - 1)) = _
      rw [size, toUnsigned_pred (by omega) (by omega)]
      omega
    · change _ + v.current.length ≤ bound
      omega

theorem Good.putFuture (good : v.Good bound) (fits : bound + 1 < 2 ^ 32)
    (vacant : v.slot t.sender t.randomid = none) (later : v.future t.sender t.randomid = none)
    (new : ¬ v.held t.sha3) : (v.putFuture t).Good (bound + 1) where
  handles := good.handles
  fresh := good.fresh
  byHash := good.byHash
  slot := good.slot
  placed b k u look := by
    rcases setSlot_eq_some.mp look with ⟨rfl, rfl, same⟩ | ⟨-, old⟩
    · cases same
      exact ⟨rfl, rfl⟩
    · exact good.placed b k u old
  apart x mem := by
    have other : ¬ (x.transaction.sender = t.sender ∧ x.transaction.randomid = t.randomid) :=
      fun same => by
      have taken := (good.slot _ _ _).mpr ⟨x, mem, same, rfl⟩
      rw [vacant] at taken
      cases taken
    exact (setSlot_ne other).trans (good.apart x mem)
  hashes b k u look := by
    rcases setSlot_eq_some.mp look with ⟨-, -, same⟩ | ⟨-, old⟩
    · cases same
      by_contra some
      obtain ⟨handle, some⟩ := Option.ne_none_iff_exists'.mp some
      obtain ⟨x, mem, hash, -⟩ := (good.byHash _ _).mp some
      exact new (.inl ⟨x, mem, hash⟩)
    · exact good.hashes b k u old
  futureHashes b k u c m w left right same := by
    rcases setSlot_eq_some.mp left with ⟨rfl, rfl, here⟩ | ⟨-, old⟩
    · cases here
      rcases setSlot_eq_some.mp right with ⟨rfl, rfl, -⟩ | ⟨-, old'⟩
      · exact ⟨rfl, rfl⟩
      · exact absurd (.inr ⟨c, m, w, old', same.symm⟩) new
    · rcases setSlot_eq_some.mp right with ⟨rfl, rfl, here⟩ | ⟨-, old'⟩
      · cases here
        exact absurd (.inr ⟨b, k, u, old, same⟩) new
      · exact good.futureHashes b k u c m w old old' same
  counted := by
    obtain ⟨slots, mem, size, few⟩ := good.counted
    have here : (t.sender, t.randomid) ∉ slots := fun present => by
      have some := (mem _ _).mp present
      rw [later] at some
      cases some
    have card := Finset.card_insert_of_notMem here
    refine ⟨insert (t.sender, t.randomid) slots, fun b k => ?_, ?_, ?_⟩
    · change _ ↔ (setSlot v.future t.sender t.randomid (some t) b k).isSome = true
      rw [Finset.mem_insert, mem, setSlot, Prod.mk.injEq]
      split
      case isTrue same => simp [same]
      case isFalse other => simp [other]
    · change toUnsigned (v.futureSize + 1) = _
      rw [size, card, toUnsigned, Nat.mod_eq_of_lt (by omega)]
    · change _ + v.current.length ≤ bound + 1
      omega

/-! What is held after a move. -/

theorem held_place (h : H256) :
    (v.place t).held h ↔ h = t.sha3 ∨ v.held h := by
  unfold held
  simp only [mem_place, exists_eq_or_imp, or_assoc, @eq_comm _ h]
  rfl

theorem Good.held_remove (good : v.Good bound) (present : e ∈ v.current) (h : H256) :
    (v.remove e).held h ↔ v.held h ∧ h ≠ e.transaction.sha3 := by
  have hash := (good.byHash _ _).mpr ⟨e, present, rfl, rfl⟩
  constructor
  · rintro (⟨x, mem, rfl⟩ | ⟨a, n, u, found, rfl⟩)
    · obtain ⟨old, other⟩ := (mem_remove x).mp mem
      exact ⟨.inl ⟨x, old, rfl⟩,
        fun same => other (congrArg QueueEntry.handle (good.eq_of_hash old present same))⟩
    · refine ⟨.inr ⟨a, n, u, found, rfl⟩, fun same => ?_⟩
      have none := good.hashes a n u found
      rw [same, hash] at none
      cases none
  · rintro ⟨⟨x, mem, rfl⟩ | ⟨a, n, u, found, rfl⟩, other⟩
    · exact .inl
        ⟨x, (mem_remove x).mpr
          ⟨mem, fun same => other (by rw [good.eq_of_handle mem present same])⟩, rfl⟩
    · exact .inr ⟨a, n, u, found, rfl⟩

theorem Good.held_takeFuture (good : v.Good bound) (found : v.future a n = some t) (h : H256) :
    (v.takeFuture a n).held h ↔ v.held h ∧ h ≠ t.sha3 := by
  constructor
  · rintro (⟨x, mem, rfl⟩ | ⟨b, k, u, look, rfl⟩)
    · refine ⟨.inl ⟨x, mem, rfl⟩, fun same => ?_⟩
      have none := good.hashes a n t found
      rw [← same, (good.byHash _ _).mpr ⟨x, mem, rfl, rfl⟩] at none
      cases none
    · rcases setSlot_eq_some.mp look with ⟨-, -, gone⟩ | ⟨other, old⟩
      · cases gone
      · exact ⟨.inr ⟨b, k, u, old, rfl⟩,
          fun same => other (good.futureHashes b k u a n t old found same)⟩
  · rintro ⟨⟨x, mem, rfl⟩ | ⟨b, k, u, old, rfl⟩, differ⟩
    · exact .inl ⟨x, mem, rfl⟩
    · refine .inr ⟨b, k, u, setSlot_eq_some.mpr (.inr ⟨fun same => differ ?_, old⟩), rfl⟩
      rw [same.1, same.2, found] at old
      cases old
      rfl

theorem held_putFuture (later : v.future t.sender t.randomid = none) (h : H256) :
    (v.putFuture t).held h ↔ h = t.sha3 ∨ v.held h := by
  constructor
  · rintro (⟨x, mem, rfl⟩ | ⟨b, k, u, look, rfl⟩)
    · exact .inr (.inl ⟨x, mem, rfl⟩)
    · rcases setSlot_eq_some.mp look with ⟨-, -, same⟩ | ⟨-, old⟩
      · cases same
        exact .inl rfl
      · exact .inr (.inr ⟨b, k, u, old, rfl⟩)
  · rintro (rfl | ⟨x, mem, rfl⟩ | ⟨b, k, u, old, rfl⟩)
    · exact .inr ⟨t.sender, t.randomid, t, setSlot_self, rfl⟩
    · exact .inl ⟨x, mem, rfl⟩
    · refine .inr ⟨b, k, u, setSlot_eq_some.mpr (.inr ⟨fun same => ?_, old⟩), rfl⟩
      rw [same.1, same.2, later] at old
      cases old

theorem Good.pos_of_current (good : v.Good bound) (present : e ∈ v.current) : 0 < bound := by
  obtain ⟨slots, -, -, few⟩ := good.counted
  have pos := List.length_pos_of_mem present
  omega

theorem Good.pos_of_future (good : v.Good bound) (found : v.future a n = some t) :
    0 < v.futureSize ∧ v.futureSize ≤ bound := by
  obtain ⟨slots, mem, size, few⟩ := good.counted
  have pos : 0 < slots.card := Finset.card_pos.mpr ⟨(a, n), (mem a n).mpr (by rw [found]; rfl)⟩
  omega

theorem Good.vacant (good : v.Good bound) (found : v.future a n = some t) : v.slot a n = none := by
  by_contra taken
  obtain ⟨handle, taken⟩ := Option.ne_none_iff_exists'.mp taken
  obtain ⟨e, mem, ⟨rfl, rfl⟩, -⟩ := (good.slot _ _ _).mp taken
  rw [good.apart e mem] at found
  cases found

def shift (v : QueueView) (t : VerifiedTransaction) : QueueView :=
  (v.takeFuture t.sender t.randomid).place t

theorem Good.shift (good : v.Good bound) (fits : bound ≤ 2 ^ 32)
    (found : v.future t.sender t.randomid = some t) :
    (v.shift t).Good bound ∧ (∀ h, (v.shift t).held h ↔ v.held h) ∧ (v.shift t).futureSize + 1 =
      v.futureSize := by
  obtain ⟨pos, below⟩ := good.pos_of_future found
  obtain ⟨less, rfl⟩ : ∃ less, bound = less + 1 := ⟨bound - 1, by omega⟩
  have taken := good.takeFuture fits found
  have gone : (v.takeFuture t.sender t.randomid).future t.sender t.randomid = none := setSlot_self
  have new : ¬ (v.takeFuture t.sender t.randomid).held t.sha3 := fun held =>
    ((good.held_takeFuture found t.sha3).mp held).2 rfl
  refine ⟨taken.place (good.vacant found) gone new, fun h => ?_, ?_⟩
  · rw [QueueView.shift, held_place, good.held_takeFuture found]
    by_cases same : h = t.sha3
    · simp only [same, true_or, true_iff]
      exact .inr ⟨_, _, t, found, rfl⟩
    · simp [same]
  · change toUnsigned (v.futureSize + (2 ^ 32 - 1)) + 1 = v.futureSize
    rw [toUnsigned_pred pos (by omega)]
    omega

theorem shift_future_sub {u : VerifiedTransaction} (found : (v.shift t).future a n = some u) :
    v.future a n = some u := by
  rcases setSlot_eq_some.mp found with ⟨-, -, gone⟩ | ⟨-, old⟩
  · cases gone
  · exact old

theorem shift_future_ne (other : ¬ (a = t.sender ∧ n = t.randomid)) :
    (v.shift t).future a n = v.future a n :=
  setSlot_ne other

theorem Good.shifts (moved : List VerifiedTransaction) (good : v.Good bound) (fits : bound ≤ 2 ^ 32)
    (found : ∀ u ∈ moved, v.future u.sender u.randomid = some u)
    (distinct : (moved.map fun u => (u.sender, u.randomid)).Nodup) :
    (moved.foldl QueueView.shift v).Good bound ∧
    (∀ h, (moved.foldl QueueView.shift v).held h ↔ v.held h) ∧
      (moved.foldl QueueView.shift v).futureSize + moved.length = v.futureSize ∧
        (∀ e ∈ v.current, e ∈ (moved.foldl QueueView.shift v).current) ∧
          ∀ a n u, (moved.foldl QueueView.shift v).future a n = some u → v.future a n = some u := by
  induction moved generalizing v with
  | nil => exact ⟨good, fun h => .rfl, rfl, fun e mem => mem, fun _ _ _ found => found⟩
  | cons t moved ih =>
      obtain ⟨apart, distinct⟩ := List.nodup_cons.mp distinct
      obtain ⟨shifted, held, size⟩ := good.shift fits (found t List.mem_cons_self)
      obtain ⟨all, held', size', kept, sub⟩ := ih shifted (fun u mem => by
        rw [shift_future_ne fun same => apart (List.mem_map.mpr ⟨u, mem, Prod.ext same.1 same.2⟩)]
        exact found u (List.mem_cons_of_mem t mem)) distinct
      refine ⟨all, fun h => (held' h).trans (held h), ?_,
        fun e mem => kept e ((mem_place e).mpr (.inr mem)), fun a n u look =>
          shift_future_sub (sub a n u look)⟩
      rw [List.foldl_cons, List.length_cons]
      omega

end QueueView

end UtispaceChain
