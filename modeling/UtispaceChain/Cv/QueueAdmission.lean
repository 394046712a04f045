import UtispaceChain.Cv.QueueConsistency

/-! Which imported transactions stay in the current set of a `TransactionQueue`. -/

namespace UtispaceChain

open Lib

namespace TransactionQueue

instance : IsTrans QueueEntry priorityCompare := ⟨fun _ _ _ early late => Nat.le_trans early late⟩

instance : Std.Total priorityCompare := ⟨fun first _ => Nat.le_total first.transaction.importTime _⟩

def Sorted (q : TransactionQueue) : Prop := q.current.Pairwise priorityCompare

section Order

variable {q q' : TransactionQueue} {t : VerifiedTransaction} {h : H256}

theorem Sorted.place (sorted : q.Sorted) (sender : Nat) (hash : H256) (t : VerifiedTransaction) :
    (q.place sender hash t).Sorted :=
  List.Pairwise.orderedInsert _ _ sorted

theorem toCurrent_current (sender : Nat) (u : VerifiedTransaction) :
    (toCurrent sender q u).current = (q.place sender u.sha3 u).current := rfl

theorem Sorted.foldl_toCurrent (sender : Nat) (moved : List VerifiedTransaction)
    (sorted : q.Sorted) :
    (moved.foldl (toCurrent sender) q).Sorted := by
  induction moved generalizing q with
  | nil => exact sorted
  | cons u moved ih =>
      have next : (toCurrent sender q u).Sorted := by
        rw [Sorted, toCurrent_current]
        exact sorted.place sender u.sha3 u
      exact ih next

theorem removeWithLock_sublist (done : q.removeWithLock h = some q') :
    q'.current.Sublist q.current := by
  rw [removeWithLock] at done
  split at done
  · cases done
    exact List.Sublist.refl _
  · rcases Option.bind_eq_some_iff.mp done with ⟨t, -, removed⟩
    rcases Option.map_eq_some_iff.mp removed with ⟨inner, -, rfl⟩
    exact List.filter_sublist

theorem dropFuture_current (done : q.dropFuture = some q') : q'.current = q.current := by
  rw [dropFuture] at done
  split at done
  · cases done
  · rcases Option.map_eq_some_iff.mp done with ⟨p, -, rfl⟩
    rfl

theorem trimFuture_current (fuel : Nat) (done : trimFuture fuel q = some q') :
    q'.current = q.current := by
  induction fuel generalizing q with
  | zero => cases done
  | succ fuel ih =>
      rw [trimFuture] at done
      split at done
      · rcases Option.bind_eq_some_iff.mp done with ⟨q₁, dropped, rest⟩
        rw [ih rest, dropFuture_current dropped]
      · cases done
        rfl

theorem makeCurrent_current (done : q.makeCurrentWithLock t = some q') :
    q'.current = ((q.ahead t).foldl (toCurrent t.sender) q).current := by
  have same := trimFuture_current _ done
  rw [same]
  split <;> rfl

theorem insertCurrent_current (unlisted : q.currentByHash[h]? = none)
    (done : q.insertCurrentWithLock h t = some q') :
    q'.current = ((q.ahead t).foldl (toCurrent t.sender) (q.place t.sender h t)).current := by
  rw [insertCurrentWithLock, unlisted] at done
  rcases Option.map_eq_some_iff.mp done with ⟨q₁, made, same⟩
  have kept := makeCurrent_current made
  rw [← same]
  exact kept

theorem replaceFuture_current (done : q.replaceFuture t = some q') : q'.current = q.current := by
  rw [replaceFuture] at done
  split at done
  · cases done
    rfl
  · split at done
    · cases done
    · cases done
      rfl

theorem replaceCurrent_sublist (done : q.replaceCurrent t = some (some q')) :
    q'.current.Sublist q.current := by
  rw [replaceCurrent] at done
  split at done
  · cases done
    exact List.Sublist.refl _
  · rcases Option.bind_eq_some_iff.mp done with ⟨old, -, replaced⟩
    split at replaced
    · cases replaced
    · rcases Option.map_eq_some_iff.mp replaced with ⟨q₁, removed, same⟩
      cases same
      exact removeWithLock_sublist removed

theorem trimCurrent_sublist (fuel : Nat) (done : trimCurrent fuel q = some q') :
    q'.current.Sublist q.current := by
  induction fuel generalizing q with
  | zero => cases done
  | succ fuel ih =>
      rw [trimCurrent] at done
      split at done
      · rcases Option.bind_eq_some_iff.mp done with ⟨q₁, dropped, rest⟩
        rcases Option.bind_eq_some_iff.mp dropped with ⟨last, -, taken⟩
        rcases Option.bind_eq_some_iff.mp taken with ⟨q₂, removed, kept⟩
        rcases Option.map_eq_some_iff.mp kept with ⟨-, -, rfl⟩
        exact (ih rest).trans (removeWithLock_sublist removed)
      · cases done
        exact List.Sublist.refl _

theorem foldlM_toFuture_sublist (sender : Nat) (handles : List Nat)
    (done : handles.foldlM (toFuture sender) q = some q') : q'.current.Sublist q.current := by
  induction handles generalizing q with
  | nil =>
      cases done
      exact List.Sublist.refl _
  | cons handle handles ih =>
      rw [List.foldlM_cons] at done
      rcases Option.bind_eq_some_iff.mp done with ⟨q₁, moved, rest⟩
      rcases Option.map_eq_some_iff.mp moved with ⟨t, -, rfl⟩
      exact (ih rest).trans List.filter_sublist

theorem Sorted.makeCurrent (sorted : q.Sorted) (done : q.makeCurrentWithLock t = some q') :
    q'.Sorted := by
  rw [Sorted, makeCurrent_current done]
  exact sorted.foldl_toCurrent t.sender (q.ahead t)

theorem Sorted.insertCurrent (sorted : q.Sorted) (done : q.insertCurrentWithLock h t = some q') :
    q'.Sorted := by
  cases listed : q.currentByHash[h]? with
  | none =>
      rw [Sorted, insertCurrent_current listed done]
      exact (sorted.place t.sender h t).foldl_toCurrent t.sender (q.ahead t)
  | some handle =>
      rw [insertCurrentWithLock, listed] at done
      cases done
      exact sorted

theorem Sorted.manageImport (sorted : q.Sorted) {isNonceOk isBlockLimitOk : Bool}
    {answer : ImportResult} (done : q.manageImportWithLock h t isNonceOk isBlockLimitOk =
      some (answer, q')) : q'.Sorted := by
  rw [manageImportWithLock] at done
  split at done
  · cases done
    exact sorted
  · split at done
    · cases done
      exact sorted
    · rcases Option.bind_eq_some_iff.mp done with ⟨replaced, found, rest⟩
      cases replaced with
      | none =>
          cases rest
          exact sorted
      | some q₁ =>
          have sorted₁ : q₁.Sorted := List.Pairwise.sublist (replaceCurrent_sublist found) sorted
          dsimp only at rest
          split at rest
          · cases rest
            exact sorted₁
          · rename_i q₂ found₂
            have sorted₂ : q₂.Sorted := by
              rw [Sorted, replaceFuture_current found₂]
              exact sorted₁
            rcases Option.bind_eq_some_iff.mp rest with ⟨q₃, inserted, trimmed⟩
            rcases Option.map_eq_some_iff.mp trimmed with ⟨q₄, last, same⟩
            cases same
            exact List.Pairwise.sublist (trimCurrent_sublist _ last)
              (sorted₂.insertCurrent inserted)

theorem Sorted.call (sorted : q.Sorted) {c : Call} (done : c.run q = some q') : q'.Sorted := by
  cases c with
  | importTransaction h t retry isNonceOk isBlockLimitOk =>
      rcases Option.map_eq_some_iff.mp done with ⟨⟨answer, q₁⟩, imported, rfl⟩
      unfold TransactionQueue.importTransaction at imported
      split at imported
      · split at imported
        · cases imported
          exact sorted
        · exact sorted.manageImport imported
      · cases imported
        exact sorted
  | drop h =>
      simp only [Call.run, TransactionQueue.drop] at done
      split at done
      · exact List.Pairwise.sublist (removeWithLock_sublist done) sorted
      · cases done
        exact sorted
  | dropGood t =>
      simp only [Call.run, TransactionQueue.dropGood] at done
      rcases Option.bind_eq_some_iff.mp done with ⟨q₁, made, rest⟩
      have sorted₁ := sorted.makeCurrent made
      split at rest
      · exact List.Pairwise.sublist (removeWithLock_sublist rest) sorted₁
      · cases rest
        exact sorted₁
  | setFuture h =>
      simp only [Call.run, TransactionQueue.setFuture] at done
      split at done
      · cases done
        exact sorted
      · rcases Option.bind_eq_some_iff.mp done with ⟨st, -, rest⟩
        rcases Option.map_eq_some_iff.mp rest with ⟨q₁, moved, same⟩
        cases same
        have sublist := foldlM_toFuture_sublist _ _ moved
        exact List.Pairwise.sublist sublist sorted
  | clear =>
      cases done
      exact List.Pairwise.nil

theorem Sorted.run (sorted : q.Sorted) (calls : List Call) (done : q.run calls = some q') :
    q'.Sorted := by
  induction calls generalizing q with
  | nil =>
      cases done
      exact sorted
  | cons c calls ih =>
      rw [TransactionQueue.run, List.foldlM_cons] at done
      rcases Option.bind_eq_some_iff.mp done with ⟨q₁, first, rest⟩
      exact ih (sorted.call first) rest

end Order

/-! The place of an entry among the others. -/

def Stands (e : QueueEntry) (entries : List QueueEntry) (place : Nat) : Prop :=
  ∃ before after, entries = before ++ e :: after ∧ before.length = place

section Place

variable {e : QueueEntry} {entries : List QueueEntry} {place : Nat}

theorem orderedInsert_split (u : QueueEntry) {before : List QueueEntry} (after : List QueueEntry)
    (sorted : ∀ x ∈ before, priorityCompare x e) :
    (before ++ e :: after).orderedInsert priorityCompare u =
      if priorityCompare u e then before.orderedInsert priorityCompare u ++ e :: after
      else before ++ e :: after.orderedInsert priorityCompare u := by
  induction before with
  | nil => by_cases early : priorityCompare u e <;> simp [early]
  | cons x before ih =>
      rcases List.forall_mem_cons.mp sorted with ⟨first, rest⟩
      rw [List.cons_append, List.orderedInsert_cons]
      by_cases front : priorityCompare u x
      · have early : priorityCompare u e := Nat.le_trans front first
        rw [if_pos front, if_pos early, List.orderedInsert_cons, if_pos front]
        rfl
      · rw [if_neg front, ih rest, List.orderedInsert_cons, if_neg front]
        split <;> rfl

theorem Stands.insert (stands : Stands e entries place) (sorted : entries.Pairwise priorityCompare)
    (u : QueueEntry) :
    Stands e (entries.orderedInsert priorityCompare u) (place + if priorityCompare u e then 1
      else 0) := by
  rcases stands with ⟨before, after, rfl, rfl⟩
  have upto : ∀ x ∈ before, priorityCompare x e :=
    fun x member => (List.pairwise_append.mp sorted).2.2 x member e List.mem_cons_self
  rw [orderedInsert_split u after upto]
  split
  · exact ⟨_, after, rfl, List.orderedInsert_length _ _ _⟩
  · exact ⟨before, _, rfl, rfl⟩

theorem stands_orderedInsert (e : QueueEntry) (sorted : entries.Pairwise priorityCompare) :
    Stands e (entries.orderedInsert priorityCompare e)
      (entries.filter fun x => x.transaction.importTime < e.transaction.importTime).length := by
  induction entries with
  | nil => exact ⟨[], [], rfl, rfl⟩
  | cons x entries ih =>
      rcases List.pairwise_cons.mp sorted with ⟨least, rest⟩
      rw [List.orderedInsert_cons]
      by_cases front : priorityCompare e x
      · have none : ∀ y ∈ x :: entries, ¬ y.transaction.importTime < e.transaction.importTime := by
          intro y member
          rcases List.mem_cons.mp member with rfl | later
          · exact Nat.not_lt.mpr front
          · exact Nat.not_lt.mpr (Nat.le_trans front (least y later))
        rw [if_pos front, List.filter_eq_nil_iff.mpr (by simpa using none)]
        exact ⟨[], x :: entries, rfl, rfl⟩
      · rcases ih rest with ⟨before, after, split, count⟩
        have early : x.transaction.importTime < e.transaction.importTime := Nat.lt_of_not_le front
        rw [if_neg front, split, List.filter_cons, if_pos (decide_eq_true early), List.length_cons]
        exact ⟨x :: before, after, rfl, by rw [List.length_cons, count]⟩

theorem Stands.mem_take (stands : Stands e entries place) (distinct : entries.Nodup) (limit : Nat) :
    e ∈ entries.take limit ↔ place < limit := by
  rcases stands with ⟨before, after, rfl, rfl⟩
  have unlisted : e ∉ before := by
    intro member
    exact (List.nodup_append.mp distinct).2.2 e member e List.mem_cons_self rfl
  constructor
  · intro member
    by_contra short
    rw [List.take_append_of_le_length (Nat.le_of_not_lt short)] at member
    exact unlisted (List.mem_of_mem_take member)
  · intro room
    rw [List.take_append]
    apply List.mem_append_right
    obtain ⟨rest, more⟩ : ∃ rest, limit - before.length = rest + 1 :=
      ⟨limit - before.length - 1, by omega⟩
    rw [more, List.take_succ_cons]
    exact List.mem_cons_self

theorem Stands.foldl_toCurrent (sender : Nat) (moved : List VerifiedTransaction)
    {q : TransactionQueue} (stands : Stands e q.current place) (sorted : q.Sorted) :
    Stands e (moved.foldl (toCurrent sender) q).current
      (place + (moved.filter fun u => u.importTime ≤ e.transaction.importTime).length) := by
  induction moved generalizing q place with
  | nil => exact stands
  | cons u moved ih =>
      have next : (toCurrent sender q u).Sorted := Sorted.foldl_toCurrent sender [u] sorted
      have step := stands.insert sorted ⟨q.nextHandle, u⟩
      have rest := ih step next
      rw [List.foldl_cons, List.filter_cons]
      by_cases early : u.importTime ≤ e.transaction.importTime
      · have before : priorityCompare ⟨q.nextHandle, u⟩ e := early
        rw [if_pos before, Nat.add_assoc, Nat.add_comm 1] at rest
        rw [if_pos (decide_eq_true early), List.length_cons]
        exact rest
      · have behind : ¬ priorityCompare ⟨q.nextHandle, u⟩ e := early
        rw [if_neg behind, Nat.add_zero] at rest
        rw [if_neg (by simpa using early)]
        exact rest

end Place

section Import

variable {q q' : TransactionQueue} {t : VerifiedTransaction} {bound : Nat}

def SameSlot (t u : VerifiedTransaction) : Prop := u.sender = t.sender ∧ u.randomid = t.randomid

instance (t u : VerifiedTransaction) : Decidable (SameSlot t u) :=
  inferInstanceAs (Decidable (_ ∧ _))

/-- The future transactions that follow, without the one of the same number. -/
def promoted (t : VerifiedTransaction) (q : TransactionQueue) : List VerifiedTransaction :=
  { q with future := q.future.setInner t.sender ((q.future.inner t.sender).erase t.randomid) }.ahead
    t

/-- How many come before the transaction once it is in, with those that follow it. -/
def standing (t : VerifiedTransaction) (q : TransactionQueue) : Nat :=
  (q.current.filter fun e => ¬ SameSlot t e.transaction ∧ e.transaction.importTime <
    t.importTime).length +
    ((q.promoted t).filter fun u => u.importTime ≤ t.importTime).length

/-- The transaction passes the checks and outbids those of the same sender and number. -/
structure Accepts (t : VerifiedTransaction) (retry isNonceOk isBlockLimitOk : Bool)
    (q : TransactionQueue) : Prop where
  new : q.checkWithLock t.sha3 retry = .success
  nonce : isNonceOk = true
  blockLimit : isBlockLimitOk = true
  current : ∀ e ∈ q.current, SameSlot t e.transaction → e.transaction.gasPrice ≤ t.gasPrice
  future : ∀ u, q.future.slot t.sender t.randomid = some u → u.gasPrice ≤ t.gasPrice

/-- A transaction that is accepted is in the current set, and any other answer leaves the queue as
it was. -/
structure Answered (t : VerifiedTransaction) (q : TransactionQueue) (answer : ImportResult)
    (q' : TransactionQueue) :
    Prop where
  queued : answer = .success → ∃ e ∈ q'.current, e.transaction = t
  unchanged : answer ≠ .success → q'.current = q.current ∧ q'.future = q.future ∧ q'.known = q.known

theorem Inv.filter_slot (inv : q.Inv bound) {e : QueueEntry} (present : e ∈ q.current) :
    q.current.filter (fun x => x.handle ≠ e.handle) =
      q.current.filter fun x => ¬ SameSlot e.transaction x.transaction := by
  apply List.filter_congr
  intro x member
  rw [decide_eq_decide, not_iff_not]
  constructor
  · intro same
    rw [inv.good.eq_of_handle member present same]
    exact ⟨rfl, rfl⟩
  · intro same
    rw [inv.good.eq_of_slot member present same.1 same.2]

theorem Inv.replaceCurrent_cases (inv : q.Inv bound) (t : VerifiedTransaction) :
    (q.replaceCurrent t = some none ∧
        ∃ e ∈ q.current, SameSlot t e.transaction ∧ t.gasPrice < e.transaction.gasPrice) ∨
      ∃ q', q.replaceCurrent t = some (some q') ∧
        (∀ e ∈ q.current, SameSlot t e.transaction → e.transaction.gasPrice ≤ t.gasPrice) ∧
          q'.current = q.current.filter (fun e => ¬ SameSlot t e.transaction) ∧
            (q' = q ∨ q.future.slot t.sender t.randomid = none) := by
  unfold TransactionQueue.replaceCurrent
  cases taken : q.currentByAddressAndNonce.slot t.sender t.randomid with
  | none =>
      have free : ∀ e ∈ q.current, ¬ SameSlot t e.transaction := by
        intro e member same
        have listed := (inv.good.slot t.sender t.randomid e.handle).mpr ⟨e, member, same, rfl⟩
        have none : q.view.slot t.sender t.randomid = none := taken
        rw [none] at listed
        cases listed
      refine Or.inr ⟨q, rfl, fun e member same => absurd same (free e member), ?_, Or.inl rfl⟩
      exact (List.filter_eq_self.mpr (by simpa using free)).symm
  | some handle =>
      rcases (inv.good.slot _ _ _).mp taken with ⟨e, member, same, rfl⟩
      dsimp only
      rw [deref_of_mem inv.good.handles member, Option.bind_some]
      by_cases cheaper : t.gasPrice < e.transaction.gasPrice
      · rw [if_pos cheaper]
        exact Or.inl ⟨rfl, e, member, same, cheaper⟩
      · rcases inv.removeWithLock member with ⟨q', done, view, -⟩
        have slots : ∀ x : VerifiedTransaction, SameSlot e.transaction x ↔ SameSlot t x := by
          intro x
          rw [SameSlot, SameSlot, same.1, same.2]
        rw [if_neg cheaper, done, Option.map_some]
        refine Or.inr ⟨q', rfl, ?_, ?_, Or.inr ?_⟩
        · intro x other slot
          rw [inv.good.eq_of_slot other member (slot.1.trans same.1.symm)
            (slot.2.trans same.2.symm)]
          exact Nat.le_of_not_lt cheaper
        · have left : q'.current = (q.view.remove e).current := congrArg QueueView.current view
          simp only [← slots]
          exact left.trans (inv.filter_slot member)
        · have apart : q.future.slot e.transaction.sender e.transaction.randomid = none :=
            inv.good.apart e member
          rwa [same.1, same.2] at apart

theorem filter_last {entries : List QueueEntry} {last : QueueEntry}
    (distinct : (entries.map QueueEntry.handle).Nodup) (look : entries.getLast? = some last) :
    entries.filter (fun x => x.handle ≠ last.handle) = entries.dropLast := by
  rcases List.getLast?_eq_some_iff.mp look with ⟨front, rfl⟩
  rw [List.map_append, List.nodup_append] at distinct
  have others : ∀ x ∈ front, x.handle ≠ last.handle :=
    fun x member => distinct.2.2 x.handle (List.mem_map_of_mem member) last.handle (by simp)
  rw [List.filter_append, List.filter_eq_self.mpr (by simpa using others)]
  simp

theorem Inv.trimCurrent_take (inv : q.Inv bound) (fuel : Nat)
    (done : TransactionQueue.trimCurrent fuel q = some q') :
    q'.current = q.current.take q.limit := by
  induction fuel generalizing q with
  | zero => cases done
  | succ fuel ih =>
      rw [TransactionQueue.trimCurrent] at done
      split at done
      · rename_i many
        rcases Option.bind_eq_some_iff.mp done with ⟨q₁, dropped, rest⟩
        rcases Option.bind_eq_some_iff.mp dropped with ⟨last, look, taken⟩
        rcases Option.bind_eq_some_iff.mp taken with ⟨q₂, removal, kept⟩
        rcases Option.map_eq_some_iff.mp kept with ⟨-, -, rfl⟩
        have present := List.mem_of_getLast? look
        have filled := inv.good.pos_of_current present
        obtain ⟨less, rfl⟩ : ∃ less, bound = less + 1 := ⟨bound - 1, by omega⟩
        rcases inv.removed present with ⟨q₁, done₁, removed, -⟩
        rcases inv.removeWithLock present with ⟨q₃, done₃, view, -⟩
        obtain rfl : q₂ = q₁ := Option.some.inj (removal.symm.trans done₁)
        obtain rfl : q₂ = q₃ := Option.some.inj (removal.symm.trans done₃)
        have left : q₂.current = q.current.dropLast := by
          have same : q₂.current = (q.view.remove last).current := congrArg QueueView.current view
          exact same.trans (filter_last inv.good.handles look)
        have limit : q₂.limit = q.limit := removed.keeps.limit
        rw [ih (removed.inv.mono (Nat.le_succ less)) rest, left, limit, List.dropLast_eq_take,
          List.take_take, Nat.min_eq_left (by omega)]
      · rename_i few
        cases done
        exact (List.take_of_length_le (Nat.le_of_not_lt few)).symm

theorem inner_setInner {V : Type} (m : NestedMap V) (a : Nat) (inner : Map V) :
    (m.setInner a inner).inner a = inner := by
  apply Std.ExtTreeMap.ext_getElem?
  intro k
  rw [NestedMap.get_inner, NestedMap.slot_setInner, if_pos rfl]

theorem replaceFuture_ahead (done : q.replaceFuture t = some q') : q'.ahead t = q.promoted t := by
  have inner : q'.future.inner t.sender = (q.future.inner t.sender).erase t.randomid := by
    rw [TransactionQueue.replaceFuture] at done
    split at done
    · rename_i free
      cases done
      apply Std.ExtTreeMap.ext_getElem?
      intro k
      rw [Map.get_erase]
      split
      · rename_i same
        rw [← same, NestedMap.get_inner]
        exact free
      · rfl
    · split at done
      · cases done
      · cases done
        exact inner_setInner _ _ _
  rw [promoted, TransactionQueue.ahead, TransactionQueue.ahead, inner, inner_setInner]

theorem replaceFuture_cases (q : TransactionQueue) (t : VerifiedTransaction) :
    (q.replaceFuture t = none ∧ ∃ u, q.future.slot t.sender t.randomid = some u ∧
      t.gasPrice < u.gasPrice) ∨
      ∃ q', q.replaceFuture t = some q' ∧
        ∀ u, q.future.slot t.sender t.randomid = some u → u.gasPrice ≤ t.gasPrice := by
  unfold TransactionQueue.replaceFuture
  cases found : q.future.slot t.sender t.randomid with
  | none => exact Or.inr ⟨q, rfl, nofun⟩
  | some old =>
      dsimp only
      by_cases cheaper : t.gasPrice < old.gasPrice
      · rw [if_pos cheaper]
        exact Or.inl ⟨rfl, old, rfl, cheaper⟩
      · rw [if_neg cheaper]
        refine Or.inr ⟨_, rfl, fun u same => ?_⟩
        rw [← Option.some.inj same]
        exact Nat.le_of_not_lt cheaper

theorem Sound.inserted (sound : q.Sound) (sorted : q.Sorted) (positive : 0 < q.limit)
    (fits : q.limit + q.futureLimit < 2 ^ 32) (new : ¬ q.view.held t.sha3)
    (vacant : q.currentByAddressAndNonce.slot t.sender t.randomid = none)
    (later : q.future.slot t.sender t.randomid = none) :
    ∃ q₁ q₂, q.insertCurrentWithLock t.sha3 t = some q₁ ∧
      TransactionQueue.trimCurrent (q₁.current.length + 1) q₁ = some q₂ ∧
      ((∃ e ∈ q₂.current, e.transaction = t) ↔
        (q.current.filter fun x => x.transaction.importTime < t.importTime).length +
          ((q.ahead t).filter fun u => u.importTime ≤ t.importTime).length < q.limit) := by
  rcases sound.inv.insertCurrent (Nat.succ_le_of_lt fits) new vacant later sound.known with
    ⟨q₁, done₁, inv₁, -, keeps₁, -⟩
  rcases inv₁.trimCurrent (keeps₁.limit ▸ positive) (q₁.current.length + 1) (Nat.lt_succ_self _)
    with
    ⟨q₂, done₂, -⟩
  refine ⟨q₁, q₂, done₁, done₂, ?_⟩
  have unlisted : q.currentByHash[t.sha3]? = none := by
    by_contra found
    obtain ⟨handle, found⟩ := Option.ne_none_iff_exists'.mp found
    rcases (sound.inv.good.byHash _ _).mp found with ⟨e, member, hash, -⟩
    exact new (Or.inl ⟨e, member, hash⟩)
  let entry : QueueEntry := ⟨q.nextHandle, t⟩
  have current := insertCurrent_current unlisted done₁
  have stands : Stands entry q₁.current
      ((q.current.filter fun x => x.transaction.importTime < t.importTime).length +
        ((q.ahead t).filter fun u => u.importTime ≤ t.importTime).length) := by
    rw [current]
    have first : Stands entry (q.place t.sender t.sha3 t).current _ :=
      stands_orderedInsert entry sorted
    exact first.foldl_toCurrent t.sender (q.ahead t) (sorted.place t.sender t.sha3 t)
  have member : entry ∈ q₁.current := by
    rcases stands with ⟨before, after, split, -⟩
    rw [split]
    simp
  have distinct : q₁.current.Nodup := inv₁.good.handles.of_map
  rw [← keeps₁.limit, ← stands.mem_take distinct, ← inv₁.trimCurrent_take _ done₂]
  constructor
  · rintro ⟨e, kept, same⟩
    have inside : e ∈ q₁.current := (trimCurrent_sublist _ done₂).subset kept
    have itself : e = entry := inv₁.good.eq_of_hash inside member (congrArg (fun u => u.sha3) same)
    rw [← itself]
    exact kept
  · intro kept
    exact ⟨entry, kept, rfl⟩

theorem filter_not_same (q : TransactionQueue) (t : VerifiedTransaction) {entries : List QueueEntry}
    (same : entries = q.current.filter fun e => ¬ SameSlot t e.transaction) :
    (entries.filter fun x => x.transaction.importTime < t.importTime) =
      q.current.filter fun e => ¬ SameSlot t e.transaction ∧ e.transaction.importTime <
        t.importTime := by
  rw [same, List.filter_filter]
  apply List.filter_congr
  intro e _
  rw [Bool.and_comm, ← Bool.decide_and]

theorem answered_iff_of_refused {retry isNonceOk isBlockLimitOk : Bool} {answer : ImportResult}
    (refused : ¬ q.Accepts t retry isNonceOk isBlockLimitOk) (other : answer ≠ .success) :
    q.Answered t answer q ↔ (q.Accepts t retry isNonceOk isBlockLimitOk → q.standing t < q.limit) :=
  ⟨fun _ accepted => absurd accepted refused,
    fun _ => ⟨fun same => absurd same other, fun _ => ⟨rfl, rfl, rfl⟩⟩⟩

theorem Sound.import_iff (sound : q.Sound) (sorted : q.Sorted) (positive : 0 < q.limit)
    (fits : q.limit + q.futureLimit < 2 ^ 32) (t : VerifiedTransaction)
    (retry isNonceOk isBlockLimitOk : Bool) :
    ∃ answer q', q.importTransaction t.sha3 (some t) retry isNonceOk isBlockLimitOk =
      some (answer, q') ∧
      (q.Answered t answer q' ↔
        (q.Accepts t retry isNonceOk isBlockLimitOk → q.standing t < q.limit)) := by
  unfold TransactionQueue.importTransaction
  cases checked : q.checkWithLock t.sha3 retry with
  | success =>
      dsimp only
      unfold TransactionQueue.manageImportWithLock
      cases isNonceOk with
      | false =>
          exact ⟨_, q, rfl, answered_iff_of_refused (fun all => absurd all.nonce (by decide))
            (by decide)⟩
      | true =>
          cases isBlockLimitOk with
          | false =>
              exact ⟨_, q, rfl,
                answered_iff_of_refused (fun all => absurd all.blockLimit (by decide)) (by decide)⟩
          | true =>
              simp only [Bool.true_eq_false, if_false]
              rcases sound.inv.replaceCurrent_cases t with ⟨outbid, e, member, slot, cheaper⟩ |
                ⟨q₁, done₁, dearer, left, same₁⟩
              · rw [outbid]
                exact ⟨_, q, rfl, answered_iff_of_refused
                  (fun all => absurd (all.current e member slot) (Nat.not_le.mpr cheaper))
                  (by decide)⟩
              · have unknown : t.sha3 ∉ q.known := by
                  intro present
                  rw [checkWithLock, if_pos present] at checked
                  cases checked
                rcases sound.inv.replaceCurrent t with outbid |
                  ⟨again, done, inv₁, keeps₁, future₁, -, vacant, known₁, -, held₁⟩
                · rw [done₁] at outbid
                  cases outbid
                obtain rfl : q₁ = again := Option.some.inj (Option.some.inj (done₁.symm.trans done))
                rw [done₁, Option.bind_some]
                dsimp only
                rcases q₁.replaceFuture_cases t with ⟨outbid, u, found, cheaper⟩
                  | ⟨q₂, done₂, dearer₂⟩
                · rw [future₁] at found
                  rcases same₁ with rfl | free
                  · rw [outbid]
                    exact ⟨_, q₁, rfl, answered_iff_of_refused
                      (fun all => absurd (all.future u found) (Nat.not_le.mpr cheaper)) (by decide)⟩
                  · rw [free] at found
                    cases found
                · rcases inv₁.replaceFuture (Nat.le_of_lt fits) t with outbid |
                    ⟨again, done, inv₂, keeps₂, known₂, slots₂, later, held₂, -⟩
                  · rw [done₂] at outbid
                    cases outbid
                  obtain rfl : q₂ = again := Option.some.inj (done₂.symm.trans done)
                  have keeps := keeps₁.trans keeps₂
                  have sound₂ : q₂.Sound := by
                    refine ⟨by rw [keeps.limit, keeps.futureLimit]; exact inv₂, fun h holds => ?_⟩
                    rw [known₂]
                    exact known₁ sound.known h (held₂ h holds)
                  have current₂ := (replaceFuture_current done₂).trans left
                  have sorted₂ : q₂.Sorted := by
                    rw [Sorted, current₂]
                    exact List.Pairwise.filter _ sorted
                  have new : ¬ q₂.view.held t.sha3 :=
                    fun holds => not_held_of_unknown sound.known unknown (held₁ _ (held₂ _ holds))
                  rcases sound₂.inserted sorted₂ (keeps.limit ▸ positive)
                    (by rw [keeps.limit, keeps.futureLimit]; exact fits) new (slots₂ ▸ vacant) later
                    with
                    ⟨q₃, q₄, done₃, done₄, queued⟩
                  have behind : q₁.promoted t = q.promoted t := by
                    rw [promoted, promoted, TransactionQueue.ahead, TransactionQueue.ahead, future₁]
                  rw [filter_not_same q t current₂, replaceFuture_ahead done₂, behind,
                    keeps.limit] at queued
                  rw [done₂]
                  dsimp only
                  rw [done₃, Option.bind_some, done₄]
                  refine ⟨_, q₄, rfl, ?_⟩
                  have accepts : q.Accepts t retry true true :=
                    ⟨checked, rfl, rfl, dearer, fun u found => dearer₂ u (future₁ ▸ found)⟩
                  constructor
                  · intro answered _
                    exact queued.mp (answered.queued rfl)
                  · intro room
                    exact ⟨fun _ => queued.mpr (room accepts), fun other => absurd rfl other⟩
  | _ =>
      refine ⟨_, q, rfl, answered_iff_of_refused (fun all => ?_) (by decide)⟩
      have new := all.new
      rw [checked] at new
      cases new

end Import

/-- After any calls, an import answers truly unless it is accepted and as many transactions as the
limit allows come before it. -/
theorem import_answered_iff (limit futureLimit : Nat) (choice : Nat → Nat) (positive : 0 < limit)
    (fits : limit + futureLimit < 2 ^ 32) (calls : List Call) (genuine : ∀ c ∈ calls, c.Genuine)
    (q : TransactionQueue) (reached : (opened limit futureLimit choice).run calls = some q)
    (t : VerifiedTransaction) (retry isNonceOk isBlockLimitOk : Bool) :
    ∃ answer q', q.importTransaction t.sha3 (some t) retry isNonceOk isBlockLimitOk =
      some (answer, q') ∧
      (q.Answered t answer q' ↔
        (q.Accepts t retry isNonceOk isBlockLimitOk → q.standing t < q.limit)) := by
  have start : (opened limit futureLimit choice).Sound :=
    sound_of_empty limit futureLimit 0 ∅ choice
  rcases start.run calls positive fits genuine with ⟨q', done, sound, keeps⟩
  obtain rfl : q = q' := Option.some.inj (reached.symm.trans done)
  have ordered : (opened limit futureLimit choice).Sorted := List.Pairwise.nil
  exact sound.import_iff (ordered.run calls reached) (keeps.limit ▸ positive)
    (by rw [keeps.limit, keeps.futureLimit]; exact fits) t retry isNonceOk isBlockLimitOk


/-- There is room for a second transaction. -/
theorem import_answered_half_full :
    ∃ q, (opened 2 8 fun i => i).run [importing (sentAt 1 7 1 5 10)] = some q ∧
      ∃ answer q', q.importTransaction 2 (some (sentAt 2 8 1 5 11)) true true true =
        some (answer, q') ∧
        (q.Answered (sentAt 2 8 1 5 11) answer q' ↔
          (q.Accepts (sentAt 2 8 1 5 11) true true true → q.standing (sentAt 2 8 1 5 11) <
            q.limit)) := by
  have genuine : ∀ c ∈ [importing (sentAt 1 7 1 5 10)], c.Genuine := by
    intro c member
    rw [List.mem_singleton.mp member]
    rfl
  rcases Option.isSome_iff_exists.mp (by decide +kernel :
    ((opened 2 8 fun i => i).run [importing (sentAt 1 7 1 5 10)]).isSome = true) with ⟨q, reached⟩
  exact ⟨q, reached, import_answered_iff 2 8 (fun i => i) (by decide)
    (by decide) _ genuine q reached
    (sentAt 2 8 1 5 11) true true true⟩

/-- A full queue drops the newest transaction, which has just been imported. -/
theorem full_queue_succeeds :
    ¬ ∀ (calls : List Call) (q : TransactionQueue) (t : VerifiedTransaction),
    (∀ c ∈ calls, c.Genuine) → (opened 1 8 fun i => i).run calls = some q →
      ∀ answer q', q.importTransaction t.sha3 (some t) true true true = some (answer, q') →
      q.Answered t answer q' := by
  intro answered
  have genuine : ∀ c ∈ [importing (sentAt 1 7 1 5 10)], c.Genuine := by
    intro c member
    rw [List.mem_singleton.mp member]
    rfl
  have outcome : (((opened 1 8 fun i => i).run [importing (sentAt 1 7 1 5 10)]).bind fun q =>
      (q.importTransaction 2 (some (sentAt 2 8 1 5 11)) true true true).map fun r =>
        (r.1, r.2.current.map QueueEntry.transaction)) = some (.success, [sentAt 1 7 1 5 10]) := by
          decide +kernel
  rcases Option.bind_eq_some_iff.mp outcome with ⟨q, reached, imported⟩
  rcases Option.map_eq_some_iff.mp imported with ⟨⟨answer, q'⟩, done, same⟩
  rcases Prod.mk.inj same with ⟨success, current⟩
  rcases (answered _ q (sentAt 2 8 1 5 11) genuine reached answer q' done).queued success with
    ⟨e, member, queued⟩
  have listed : sentAt 2 8 1 5 11 ∈ q'.current.map QueueEntry.transaction :=
    List.mem_map.mpr ⟨e, member, queued⟩
  have left : q'.current.map QueueEntry.transaction = [sentAt 1 7 1 5 10] := current
  rw [left] at listed
  revert listed
  decide

end TransactionQueue

end UtispaceChain
