import UtispaceChain.Cv.QueueIndex

/-! The operations of a `TransactionQueue` as moves of what its indices say. -/

namespace UtispaceChain

open Lib

namespace TransactionQueue

def view (q : TransactionQueue) : QueueView where
  current := q.current
  byHash h := q.currentByHash[h]?
  slot := q.currentByAddressAndNonce.slot
  future := q.future.slot
  futureSize := q.futureSize
  nextHandle := q.nextHandle

structure Inv (bound : Nat) (q : TransactionQueue) : Prop where
  good : q.view.Good bound
  slots : q.currentByAddressAndNonce.NoEmpty
  futures : q.future.NoEmpty

/-- What every operation but `clear` leaves alone. -/
structure Keeps (q q' : TransactionQueue) : Prop where
  limit : q'.limit = q.limit
  futureLimit : q'.futureLimit = q.futureLimit

theorem Keeps.refl (q : TransactionQueue) : q.Keeps q := ⟨rfl, rfl⟩

theorem Keeps.trans {q q' q'' : TransactionQueue} (first : q.Keeps q') (second : q'.Keeps q'') :
    q.Keeps q'' :=
  ⟨second.limit.trans first.limit, second.futureLimit.trans first.futureLimit⟩

variable {q : TransactionQueue} {bound : Nat} {t : VerifiedTransaction} {e : QueueEntry}
    {h : H256} {a n : Nat}

theorem Inv.mono (inv : q.Inv bound) {bound' : Nat} (more : bound ≤ bound') : q.Inv bound' :=
  ⟨inv.good.mono more, inv.slots, inv.futures⟩

theorem deref_of_mem (handles : (q.current.map QueueEntry.handle).Nodup) (present : e ∈ q.current) :
    q.deref e.handle = some e.transaction := by
  have found : q.current.find? (fun x => x.handle = e.handle) = some e := by
    cases look : q.current.find? (fun x => x.handle = e.handle) with
    | none =>
        have none := List.find?_eq_none.mp look e present
        simp at none
    | some x =>
        have same : x.handle = e.handle := by simpa using List.find?_some look
        rw [List.inj_on_of_nodup_map handles (List.mem_of_find?_eq_some look) present same]
  rw [TransactionQueue.deref, found]
  rfl

/-! Setting one place of a table. -/

theorem setSlot_setInner {V : Type} (m : NestedMap V) (a n : Nat) :
    (m.setInner a ((m.inner a).erase n)).slot = setSlot m.slot a n none := by
  funext b k
  rw [NestedMap.slot_setInner, setSlot]
  by_cases here : a = b
  · subst here
    rw [if_pos rfl, Map.get_erase, NestedMap.get_inner]
    by_cases key : n = k
    · simp [key]
    · simp [key, Ne.symm key]
  · rw [if_neg here, if_neg fun same => here same.1.symm]

theorem setSlot_insert {V : Type} (m : NestedMap V) (a n : Nat) (v : V) :
    NestedMap.slot (m.insert a ((m.inner a).insert n v)) = setSlot m.slot a n (some v) := by
  funext b k
  rw [NestedMap.slot_insert, setSlot]
  by_cases here : a = b
  · subst here
    rw [if_pos rfl, Map.get_insert, NestedMap.get_inner]
    by_cases key : n = k
    · simp [key]
    · simp [key, Ne.symm key]
  · rw [if_neg here, if_neg fun same => here same.1.symm]

theorem update_insert (m : Map Nat) (h handle : Nat) :
    (fun h' => (m.insert h handle : Map Nat)[h']?) =
      Function.update (fun h' => m[h']?) h (some handle) := by
  funext h'
  rw [Map.get_insert]
  by_cases here : h = h'
  · simp [here]
  · simp [here, Ne.symm here]

theorem update_erase (m : Map Nat) (h : Nat) :
    (fun h' => (m.erase h : Map Nat)[h']?) = Function.update (fun h' => m[h']?) h none := by
  funext h'
  rw [Map.get_erase]
  by_cases here : h = h'
  · simp [here]
  · simp [here, Ne.symm here]

theorem place_view (q : TransactionQueue) (t : VerifiedTransaction) :
    (q.place t.sender t.sha3 t).view = q.view.place t :=
  QueueView.ext rfl (update_insert _ _ _) (setSlot_insert _ _ _ _) rfl rfl rfl

theorem place_slots (slots : q.currentByAddressAndNonce.NoEmpty) (t : VerifiedTransaction)
    (hash : H256) :
    (q.place t.sender hash t).currentByAddressAndNonce.NoEmpty := by
  have here : ((q.currentByAddressAndNonce.inner t.sender).insert t.randomid
    q.nextHandle)[t.randomid]? =
      some q.nextHandle := by
    rw [Map.get_insert, if_pos rfl]
  exact slots.insert _ (Map.isEmpty_of_get here)

theorem Inv.removeWithLock (inv : q.Inv bound) (present : e ∈ q.current) :
    ∃ q', q.removeWithLock e.transaction.sha3 = some q' ∧ q'.view = q.view.remove e ∧
      q'.known = q.known.erase e.transaction.sha3 ∧ q'.currentByAddressAndNonce.NoEmpty ∧
      q'.future = q.future ∧
        q.Keeps q' := by
  have hash : q.currentByHash[e.transaction.sha3]? = some e.handle :=
    (inv.good.byHash _ _).mpr ⟨e, present, rfl, rfl⟩
  have slot : q.currentByAddressAndNonce.slot e.transaction.sender e.transaction.randomid =
      some e.handle :=
    (inv.good.slot _ _ _).mpr ⟨e, present, ⟨rfl, rfl⟩, rfl⟩
  obtain ⟨inner, found, -⟩ := Option.bind_eq_some_iff.mp slot
  have same : q.currentByAddressAndNonce.inner e.transaction.sender = inner := by
    rw [NestedMap.inner, found, Option.getD_some]
  unfold TransactionQueue.removeWithLock
  rw [hash]
  dsimp only
  rw [deref_of_mem inv.good.handles present, Option.bind_some, found, Option.map_some, ← same]
  exact ⟨_, rfl, QueueView.ext rfl (update_erase _ _) (setSlot_setInner _ _ _) rfl rfl rfl, rfl,
    inv.slots.setInner _ _, rfl, rfl, rfl⟩

/-! Future transactions that become current. -/

theorem following_sublist (nonce : Nat) (l : List (Nat × VerifiedTransaction)) :
    (following nonce l).Sublist (l.map Prod.snd) := by
  induction l generalizing nonce with
  | nil => exact .slnil
  | cons p rest ih =>
      obtain ⟨key, t⟩ := p
      rw [following]
      split
      · exact (ih _).cons_cons t
      · exact List.nil_sublist _

theorem ahead_sublist (t : VerifiedTransaction) (q : TransactionQueue) :
    (q.ahead t).Sublist ((q.future.inner t.sender).toList.map Prod.snd) := by
  unfold ahead
  dsimp only
  split
  · exact List.nil_sublist _
  · exact (following_sublist _ _).trans (List.filter_sublist.map _)

theorem Inv.mem_inner (inv : q.Inv bound) {key : Nat} {u : VerifiedTransaction}
    (mem : (key, u) ∈ (q.future.inner a).toList) :
    u.sender = a ∧ u.randomid = key ∧ q.view.future u.sender u.randomid = some u := by
  have found := (Map.mem_toList _ _ _).mp mem
  rw [NestedMap.get_inner] at found
  obtain ⟨rfl, rfl⟩ := inv.good.placed a key u found
  exact ⟨rfl, rfl, found⟩

theorem Inv.mem_ahead (inv : q.Inv bound) {u : VerifiedTransaction} (mem : u ∈ q.ahead t) :
    u.sender = t.sender ∧ q.view.future u.sender u.randomid = some u := by
  obtain ⟨⟨key, _⟩, listed, rfl⟩ := List.mem_map.mp ((ahead_sublist t q).subset mem)
  exact ⟨(inv.mem_inner listed).1, (inv.mem_inner listed).2.2⟩

theorem Inv.ahead_nodup (inv : q.Inv bound) (t : VerifiedTransaction) :
    ((q.ahead t).map fun u => (u.sender, u.randomid)).Nodup := by
  refine List.Nodup.sublist ((ahead_sublist t q).map _) ?_
  rw [List.map_map]
  have keys : (q.future.inner t.sender).toList.map
    ((fun u : VerifiedTransaction => (u.sender, u.randomid)) ∘ Prod.snd) =
      ((q.future.inner t.sender).toList.map Prod.fst).map fun key => (t.sender, key) := by
    rw [List.map_map]
    refine List.map_congr_left fun p mem => ?_
    obtain ⟨sender, key, -⟩ := inv.mem_inner mem
    simp only [Function.comp_apply, sender, key]
  rw [keys]
  exact (Map.nodup_keys _).map fun _ _ same => (Prod.mk.inj same).2

def clearSlots {V : Type} (f : Nat → Nat → Option V) (a : Nat) (keys : List Nat) :
    Nat → Nat → Option V :=
  fun b k => if b = a ∧ k ∈ keys then none else f b k

theorem clearSlots_cons {V : Type} (f : Nat → Nat → Option V) (a key : Nat) (keys : List Nat) :
    clearSlots f a (key :: keys) = clearSlots (setSlot f a key none) a keys := by
  funext b k
  unfold clearSlots setSlot
  by_cases here : b = a <;> by_cases first : k = key <;> by_cases later : k ∈ keys <;>
    simp [here, first, later]

theorem clearSlots_setInner {V : Type} (m : NestedMap V) (a : Nat) (keys : List Nat) :
    (m.setInner a ((m.inner a).eraseAll keys)).slot = clearSlots m.slot a keys := by
  funext b k
  rw [NestedMap.slot_setInner, clearSlots, Map.get_eraseAll, NestedMap.get_inner]
  by_cases here : a = b
  · subst here
    simp
  · simp [here, Ne.symm here]

theorem foldl_toCurrent (moved : List VerifiedTransaction) (sender : Nat)
    (senders : ∀ u ∈ moved, u.sender = sender) (q : TransactionQueue)
    (slots : q.currentByAddressAndNonce.NoEmpty) (f : Nat → Nat → Option VerifiedTransaction) :
    let q' := moved.foldl (toCurrent sender) q
    ({ q'.view with future := clearSlots f sender (moved.map fun u => u.randomid) } =
      moved.foldl QueueView.shift { q.view with future := f }) ∧
        q'.currentByAddressAndNonce.NoEmpty ∧ q'.future = q.future ∧ q'.known = q.known ∧
        q.Keeps q' := by
  induction moved generalizing q f with
  | nil =>
      refine ⟨QueueView.ext rfl rfl rfl ?_ rfl rfl, slots, rfl, rfl, .refl q⟩
      funext b k
      simp [clearSlots]
  | cons t moved ih =>
      have here : t.sender = sender := senders t List.mem_cons_self
      have step : { (toCurrent sender q t).view with future := setSlot f sender t.randomid none } =
          QueueView.shift { q.view with future := f } t := by
        rw [← here]
        exact QueueView.ext rfl (update_insert _ _ _) (setSlot_insert _ _ _ _) rfl rfl rfl
      have slots' : (toCurrent sender q t).currentByAddressAndNonce.NoEmpty := by
        rw [← here]
        exact place_slots slots t t.sha3
      have rest :=
        ih (fun u mem => senders u (List.mem_cons_of_mem t mem)) (toCurrent sender q t) slots'
        (setSlot f sender t.randomid none)
      have keeps : q.Keeps (toCurrent sender q t) := ⟨rfl, rfl⟩
      rw [step] at rest
      dsimp only at rest ⊢
      rw [List.map_cons, clearSlots_cons]
      exact ⟨rest.1, rest.2.1, rest.2.2.1, rest.2.2.2.1, keeps.trans rest.2.2.2.2⟩

theorem Inv.dropFuture (inv : q.Inv bound) (fits : bound ≤ 2 ^ 32) (pos : 0 < q.futureSize) :
    ∃ a n t q', q.view.future a n = some t ∧ q.dropFuture = some q' ∧
    q'.view = q.view.takeFuture a n ∧
      q'.Inv bound ∧ q'.known = q.known ∧ q.Keeps q' := by
  obtain ⟨slots, mem, size, -⟩ := inv.good.counted
  have filled : 0 < slots.card := by
    rw [← size]
    exact pos
  obtain ⟨⟨a₀, n₀⟩, first⟩ := Finset.card_pos.mp filled
  have some₀ := (mem a₀ n₀).mp first
  obtain ⟨t₀, found₀⟩ := Option.isSome_iff_exists.mp some₀
  obtain ⟨inner₀, outer₀, -⟩ :=
    Option.bind_eq_some_iff.mp (show q.future.slot a₀ n₀ = some t₀ from found₀)
  have room : q.choice 0 % q.future.size < q.future.toList.length := by
    rw [Std.ExtTreeMap.length_toList]
    apply Nat.mod_lt
    rw [← Std.ExtTreeMap.length_toList]
    exact List.length_pos_of_mem ((Map.mem_toList _ _ _).mpr outer₀)
  obtain ⟨⟨a, inner⟩, picked⟩ : ∃ p, q.future.toList[q.choice 0 % q.future.size]? = some p :=
    ⟨_, List.getElem?_eq_getElem room⟩
  have outer : q.future[a]? = some inner := (Map.mem_toList _ _ _).mp (List.mem_of_getElem? picked)
  have same : q.future.inner a = inner := by rw [NestedMap.inner, outer, Option.getD_some]
  obtain ⟨key, u, listed⟩ := Map.exists_of_not_isEmpty (inv.futures a inner outer)
  have filled : inner.toList ≠ [] := List.ne_nil_of_mem ((Map.mem_toList _ _ _).mpr listed)
  obtain ⟨⟨n, t⟩, last⟩ : ∃ p, inner.toList.getLast? = some p :=
    ⟨_, List.getLast?_eq_some_getLast filled⟩
  have found : q.view.future a n = some t := by
    change q.future.slot a n = some t
    rw [← NestedMap.get_inner, same]
    exact (Map.mem_toList _ _ _).mp (List.mem_of_getLast? last)
  have cleared := setSlot_setInner q.future a n
  rw [same] at cleared
  have view : ({ q with
      futureSize := toUnsigned (q.futureSize + (2 ^ 32 - 1))
      future := q.future.setInner a (inner.erase n)
      choice := fun i => q.choice (i + 1) } : TransactionQueue).view = q.view.takeFuture a n :=
    QueueView.ext rfl rfl rfl cleared rfl rfl
  obtain ⟨less, rfl⟩ : ∃ less, bound = less + 1 :=
    ⟨bound - 1, by have := inv.good.pos_of_future found; omega⟩
  have taken := (inv.good.takeFuture fits found).mono (Nat.le_succ less)
  rw [← view] at taken
  refine ⟨a, n, t, _, found, ?_, view, ⟨taken, inv.slots, inv.futures.setInner _ _⟩, rfl, rfl, rfl⟩
  unfold TransactionQueue.dropFuture
  rw [picked]
  dsimp only
  rw [last, Option.map_some]

/-- No more future transactions than allowed, and nothing else lost or gained. -/
structure Trimmed (bound : Nat) (q q' : TransactionQueue) : Prop where
  inv : q'.Inv bound
  few : q'.futureSize ≤ q'.futureLimit
  known : q'.known = q.known
  keeps : q.Keeps q'
  held : ∀ h, q'.view.held h → q.view.held h
  current : ∀ e ∈ q.current, e ∈ q'.current
  future : ∀ a n u, q'.future.slot a n = some u → q.future.slot a n = some u

theorem Inv.trimFuture (inv : q.Inv bound) (fits : bound ≤ 2 ^ 32) (fuel : Nat)
    (enough : q.futureSize < fuel) :
    ∃ q', trimFuture fuel q = some q' ∧ Trimmed bound q q' ∧
    (q.futureSize ≤ q.futureLimit → q' = q) := by
  induction fuel generalizing q with
  | zero => omega
  | succ fuel ih =>
      rw [TransactionQueue.trimFuture]
      by_cases many : q.futureLimit < q.futureSize
      · obtain ⟨a, n, t, q₁, found, done, view, inv₁, known, keeps⟩ :=
          inv.dropFuture fits (by omega)
        have size : q₁.futureSize = q.futureSize - 1 := by
          have bounds := inv.good.pos_of_future found
          have taken : q₁.futureSize = (q.view.takeFuture a n).futureSize :=
            congrArg QueueView.futureSize view
          rw [taken]
          exact QueueView.toUnsigned_pred bounds.1 (bounds.2.trans fits)
        have current : q₁.current = q.current := congrArg QueueView.current view
        obtain ⟨q', done', trimmed, -⟩ := ih inv₁ (by omega)
        refine ⟨q', by rw [if_pos many, done, Option.bind_some, done'], ?_, fun few => by omega⟩
        refine ⟨trimmed.inv, trimmed.few, trimmed.known.trans known, keeps.trans trimmed.keeps,
          fun h holds => ?_, fun e mem => trimmed.current e (current ▸ mem), fun b k u look => ?_⟩
        · have before := trimmed.held h holds
          rw [view] at before
          exact ((inv.good.held_takeFuture found h).mp before).1
        · have before : q₁.view.future b k = some u := trimmed.future b k u look
          rw [view] at before
          rcases setSlot_eq_some.mp before with ⟨-, -, gone⟩ | ⟨-, old⟩
          · cases gone
          · exact old
      · have kept : Trimmed bound q q :=
          ⟨inv, by omega, rfl, .refl q, fun _ holds => holds, fun _ mem => mem,
            fun _ _ _ found => found⟩
        exact ⟨q, if_neg many, kept, fun _ => rfl⟩

theorem Inv.makeCurrent (inv : q.Inv bound) (fits : bound ≤ 2 ^ 32) (t : VerifiedTransaction) :
    ∃ q', q.makeCurrentWithLock t = some q' ∧ Trimmed bound q q' ∧
      (q.futureSize ≤ q.futureLimit + (q.ahead t).length → ∀ h, q.view.held h →
        q'.view.held h) := by
  have senders : ∀ u ∈ q.ahead t, u.sender = t.sender := fun u mem => (inv.mem_ahead mem).1
  obtain ⟨shifted, slots, future, known, keeps⟩ :=
    foldl_toCurrent (q.ahead t) t.sender senders q inv.slots q.view.future
  obtain ⟨good, held, size, kept, sub⟩ :=
    inv.good.shifts (q.ahead t) fits (fun u mem => (inv.mem_ahead mem).2) (inv.ahead_nodup t)
  -- the queue before the loop that trims it
  obtain ⟨q₁, whole, view, slots₁, futures₁, known₁, keeps₁⟩ : ∃ q₁,
      q.makeCurrentWithLock t = TransactionQueue.trimFuture (q₁.futureSize + 1) q₁ ∧
        q₁.view = (q.ahead t).foldl QueueView.shift q.view ∧ q₁.currentByAddressAndNonce.NoEmpty ∧
          q₁.future.NoEmpty ∧ q₁.known = q.known ∧ q.Keeps q₁ := by
    refine ⟨_, rfl, ?_⟩
    cases moved : q.ahead t with
    | nil => exact ⟨rfl, inv.slots, inv.futures, rfl, .refl q⟩
    | cons u rest =>
        rw [moved] at shifted slots future known keeps
        rw [if_neg (List.cons_ne_nil u rest)]
        refine ⟨?_, slots, ?_, known, keeps.limit, keeps.futureLimit⟩
        · rw [← shifted]
          refine QueueView.ext rfl rfl rfl ?_ rfl rfl
          change NestedMap.slot (NestedMap.setInner _ _ _) = _
          rw [future, clearSlots_setInner]
          rfl
        · rw [future]
          exact inv.futures.setInner _ _
  have inv₁ : q₁.Inv bound := by
    refine ⟨?_, slots₁, futures₁⟩
    rw [view]
    exact good
  have size₁ : q₁.futureSize + (q.ahead t).length = q.futureSize := by
    have same : q₁.futureSize = ((q.ahead t).foldl QueueView.shift q.view).futureSize :=
      congrArg QueueView.futureSize view
    rw [same]
    exact size
  obtain ⟨q', done, trimmed, stays⟩ := inv₁.trimFuture fits (q₁.futureSize + 1) (Nat.lt_succ_self _)
  have held₁ : ∀ h, q₁.view.held h ↔ q.view.held h := fun h => by
    rw [view]
    exact held h
  refine ⟨q', whole.trans done, ?_, fun few h holds => ?_⟩
  · refine ⟨trimmed.inv, trimmed.few, trimmed.known.trans known₁, keeps₁.trans trimmed.keeps,
      fun h holds => (held₁ h).mp (trimmed.held h holds), fun e mem => trimmed.current e ?_,
      fun a n u look => ?_⟩
    · have same : q₁.current = ((q.ahead t).foldl QueueView.shift q.view).current :=
        congrArg QueueView.current view
      rw [same]
      exact kept e mem
    · have before : q₁.view.future a n = some u := trimmed.future a n u look
      rw [view] at before
      exact sub a n u before
  · have same := stays (by rw [keeps₁.futureLimit]; omega)
    rw [same]
    exact (held₁ h).mpr holds

/-! What is known: all that is held, and perhaps more. -/

def Known (q : TransactionQueue) : Prop := ∀ h, q.view.held h → h ∈ q.known

def Exact (q : TransactionQueue) : Prop := ∀ h, h ∈ q.known → q.view.held h

structure Sound (q : TransactionQueue) : Prop where
  inv : q.Inv (q.limit + q.futureLimit)
  known : q.Known

structure Removed (bound : Nat) (h : H256) (q q' : TransactionQueue) : Prop where
  inv : q'.Inv bound
  keeps : q.Keeps q'
  held : ∀ h', q'.view.held h' ↔ q.view.held h' ∧ h' ≠ h
  known : q'.known = q.known.erase h
  future : q'.future = q.future
  futureSize : q'.futureSize = q.futureSize

theorem Removed.known_of {q' : TransactionQueue} (removed : Removed bound h q q')
    (known : q.Known) : q'.Known := by
  intro h' held
  obtain ⟨before, other⟩ := (removed.held h').mp held
  rw [removed.known]
  exact Finset.mem_erase.mpr ⟨other, known h' before⟩

theorem Removed.exact_of {q' : TransactionQueue} (removed : Removed bound h q q')
    (exact_ : q.Exact) : q'.Exact := by
  intro h' present
  rw [removed.known] at present
  obtain ⟨other, before⟩ := Finset.mem_erase.mp present
  exact (removed.held h').mpr ⟨exact_ h' before, other⟩

theorem Inv.removed (inv : q.Inv (bound + 1)) (present : e ∈ q.current) :
    ∃ q', q.removeWithLock e.transaction.sha3 = some q' ∧ Removed bound e.transaction.sha3 q q' ∧
      q'.current.length + 1 = q.current.length ∧
        q'.currentByAddressAndNonce.slot e.transaction.sender e.transaction.randomid = none := by
  obtain ⟨q', done, view, known, slots, future, keeps⟩ := inv.removeWithLock present
  have good := inv.good.remove present
  have length := QueueView.length_remove inv.good present
  have held := inv.good.held_remove present
  have slot : (q.view.remove e).slot e.transaction.sender e.transaction.randomid = none :=
    setSlot_self
  rw [← view] at good length held slot
  exact ⟨q', done, ⟨⟨good, slots, future ▸ inv.futures⟩, keeps, held, known, future,
    congrArg QueueView.futureSize view⟩, length, slot⟩

theorem Inv.trimCurrent (inv : q.Inv bound) (positive : 0 < q.limit) (fuel : Nat)
    (enough : q.current.length < fuel) :
    ∃ q', trimCurrent fuel q = some q' ∧ q'.Inv bound ∧ q'.current.length ≤ q'.limit ∧ q.Keeps q' ∧
      q'.futureSize = q.futureSize ∧ (q.Known → q'.Known) ∧ (q.Exact → q'.Exact) := by
  induction fuel generalizing q with
  | zero => omega
  | succ fuel ih =>
      rw [TransactionQueue.trimCurrent]
      by_cases many : q.limit < q.current.length
      · have filled : q.current ≠ [] := List.ne_nil_of_length_pos (by omega)
        obtain ⟨last, look⟩ : ∃ e, q.current.getLast? = some e :=
          ⟨_, List.getLast?_eq_some_getLast filled⟩
        have present := List.mem_of_getLast? look
        obtain ⟨less, rfl⟩ : ∃ less, bound = less + 1 :=
          ⟨bound - 1, by have := inv.good.pos_of_current present; omega⟩
        obtain ⟨q₁, done, removed, length, -⟩ := inv.removed present
        -- there is still a last one for the log
        have filled₁ : q₁.current ≠ [] := List.ne_nil_of_length_pos (by omega)
        have dropped : q.dropCurrent = some q₁ := by
          rw [dropCurrent, look, Option.bind_some, done, Option.bind_some,
            List.getLast?_eq_some_getLast filled₁]
          rfl
        obtain ⟨q', done', inv', few, keeps, size, known, exact_⟩ :=
          ih (removed.inv.mono (Nat.le_succ less)) (removed.keeps.limit ▸ positive) (by omega)
        exact ⟨q', by rw [if_pos many, dropped, Option.bind_some, done'], inv', few,
          removed.keeps.trans keeps, size.trans removed.futureSize, fun before =>
            known (removed.known_of before), fun before => exact_ (removed.exact_of before)⟩
      · exact ⟨q, if_neg many, inv, by omega, .refl q, rfl, id, id⟩

theorem not_held_of_unknown (known : q.Known) (unknown : h ∉ q.known) : ¬ q.view.held h :=
  fun held => unknown (known h held)

theorem Inv.insertCurrent (inv : q.Inv bound) (fits : bound + 1 ≤ 2 ^ 32)
    (new : ¬ q.view.held t.sha3)
    (vacant : q.currentByAddressAndNonce.slot t.sender t.randomid = none)
    (later : q.future.slot t.sender t.randomid = none) (known : q.Known) :
    ∃ q', q.insertCurrentWithLock t.sha3 t = some q' ∧ q'.Inv (bound + 1) ∧
    q'.futureSize ≤ q'.futureLimit ∧
      q.Keeps q' ∧ q'.Known ∧
      (q.futureSize ≤ q.futureLimit + (q.ahead t).length → q.Exact → q'.Exact) := by
  have unlisted : q.currentByHash[t.sha3]? = none := by
    by_contra some
    obtain ⟨handle, some⟩ := Option.ne_none_iff_exists'.mp some
    obtain ⟨e, mem, hash, -⟩ := (inv.good.byHash _ _).mp some
    exact new (.inl ⟨e, mem, hash⟩)
  have placed : (q.place t.sender t.sha3 t).Inv (bound + 1) := by
    refine ⟨?_, place_slots inv.slots t t.sha3, inv.futures⟩
    rw [place_view]
    exact inv.good.place vacant later new
  have held : ∀ h, (q.place t.sender t.sha3 t).view.held h ↔
      h = t.sha3 ∨ q.view.held h := fun h => by
    rw [place_view]
    exact QueueView.held_place h
  obtain ⟨q', done, trimmed, stays⟩ := placed.makeCurrent fits t
  refine ⟨{ q' with known := insert t.sha3 q'.known }, ?_,
    ⟨trimmed.inv.good, trimmed.inv.slots, trimmed.inv.futures⟩,
    trimmed.few, ⟨trimmed.keeps.limit, trimmed.keeps.futureLimit⟩, fun h holds => ?_,
    fun few exact_ h present => ?_⟩
  · unfold insertCurrentWithLock
    rw [unlisted]
    dsimp only
    rw [done]
    rfl
  · rcases (held h).mp (trimmed.held h holds) with rfl | before
    · exact Finset.mem_insert_self _ _
    · refine Finset.mem_insert_of_mem ?_
      rw [trimmed.known]
      exact known h before
  · apply stays few h
    rw [held]
    refine (Finset.mem_insert.mp present).imp_right fun before => ?_
    rw [trimmed.known] at before
    exact exact_ h before

theorem Inv.replaceCurrent (inv : q.Inv bound) (t : VerifiedTransaction) :
    q.replaceCurrent t = some none ∨
      ∃ q', q.replaceCurrent t = some (some q') ∧ q'.Inv bound ∧ q.Keeps q' ∧ q'.future = q.future ∧
        q'.futureSize = q.futureSize ∧ q'.currentByAddressAndNonce.slot t.sender t.randomid = none ∧
          (q.Known → q'.Known) ∧ (q.Exact → q'.Exact) ∧ ∀ h, q'.view.held h → q.view.held h := by
  unfold TransactionQueue.replaceCurrent
  cases taken : q.currentByAddressAndNonce.slot t.sender t.randomid with
  | none => exact .inr ⟨q, rfl, inv, .refl q, rfl, rfl, taken, id, id, fun _ holds => holds⟩
  | some handle =>
      obtain ⟨e, mem, ⟨sender, randomid⟩, rfl⟩ := (inv.good.slot _ _ _).mp taken
      dsimp only
      rw [deref_of_mem inv.good.handles mem, Option.bind_some]
      split
      · exact .inl rfl
      · obtain ⟨less, rfl⟩ : ∃ less, bound = less + 1 :=
          ⟨bound - 1, by have := inv.good.pos_of_current mem; omega⟩
        obtain ⟨q', done, removed, -, vacant⟩ := inv.removed mem
        rw [sender, randomid] at vacant
        rw [done]
        exact .inr ⟨q', rfl, removed.inv.mono (Nat.le_succ less), removed.keeps, removed.future,
          removed.futureSize, vacant, removed.known_of, removed.exact_of, fun h holds =>
            ((removed.held h).mp holds).1⟩

theorem Inv.replaceFuture (inv : q.Inv bound) (fits : bound ≤ 2 ^ 32) (t : VerifiedTransaction) :
    q.replaceFuture t = none ∨
      ∃ q', q.replaceFuture t = some q' ∧ q'.Inv bound ∧ q.Keeps q' ∧ q'.known = q.known ∧
        q'.currentByAddressAndNonce = q.currentByAddressAndNonce ∧
        q'.future.slot t.sender t.randomid = none ∧
          (∀ h, q'.view.held h → q.view.held h) ∧
          (q.future.slot t.sender t.randomid = none → q' = q) := by
  unfold TransactionQueue.replaceFuture
  cases found : q.future.slot t.sender t.randomid with
  | none => exact .inr ⟨q, rfl, inv, .refl q, rfl, rfl, found, fun _ holds => holds, fun _ => rfl⟩
  | some old =>
      dsimp only
      split
      · exact .inl rfl
      · obtain ⟨less, rfl⟩ : ∃ less, bound = less + 1 :=
          ⟨bound - 1, by have := inv.good.pos_of_future found; omega⟩
        have view : ({ q with
            future := q.future.setInner t.sender ((q.future.inner t.sender).erase t.randomid)
            futureSize := toUnsigned (q.futureSize + (2 ^ 32 - 1)) } : TransactionQueue).view =
              q.view.takeFuture t.sender t.randomid :=
          QueueView.ext rfl rfl rfl (setSlot_setInner _ _ _) rfl rfl
        have taken := (inv.good.takeFuture fits found).mono (Nat.le_succ less)
        have held := inv.good.held_takeFuture found
        rw [← view] at taken held
        refine .inr ⟨_, rfl, ⟨taken, inv.slots, inv.futures.setInner _ _⟩, ⟨rfl, rfl⟩, rfl, rfl, ?_,
          fun h holds => ((held h).mp holds).1, nofun⟩
        change NestedMap.slot (NestedMap.setInner _ _ _) _ _ = none
        rw [setSlot_setInner, setSlot_self]

/-- No future transaction is replaced, and none has to go to make room. -/
def Undisplaced (t : VerifiedTransaction) (q : TransactionQueue) : Prop :=
  match q.future.slot t.sender t.randomid with
  | some old => t.gasPrice < old.gasPrice
  | none => q.futureSize ≤ q.futureLimit + (q.ahead t).length

def outbid (t : VerifiedTransaction) (q : TransactionQueue) : Bool :=
  (q.replaceCurrent t).any Option.isNone

theorem Sound.manageImport (sound : q.Sound) (positive : 0 < q.limit)
    (fits : q.limit + q.futureLimit < 2 ^ 32) (unknown : t.sha3 ∉ q.known)
    (isNonceOk isBlockLimitOk : Bool) :
    ∃ answer q', q.manageImportWithLock t.sha3 t isNonceOk isBlockLimitOk = some (answer, q') ∧
    q'.Sound ∧ q.Keeps q' ∧
      ((isNonceOk = true → isBlockLimitOk = true → q.outbid t = false → q.Undisplaced t) →
        q.Exact → q'.Exact) := by
  unfold manageImportWithLock
  cases isNonceOk with
  | false => exact ⟨_, q, rfl, sound, .refl q, fun _ exact_ => exact_⟩
  | true =>
      cases isBlockLimitOk with
      | false => exact ⟨_, q, rfl, sound, .refl q, fun _ exact_ => exact_⟩
      | true =>
          simp only [Bool.true_eq_false, if_false]
          rcases sound.inv.replaceCurrent t with
            outbid | ⟨q₁, done₁, inv₁, keeps₁, future₁, size₁, vacant, known₁, exact₁,
            held₁⟩
          · rw [outbid]
            exact ⟨_, q, rfl, sound, .refl q, fun _ exact_ => exact_⟩
          · rw [done₁, Option.bind_some]
            dsimp only
            have sound₁ : q₁.Sound :=
              ⟨by rw [keeps₁.limit, keeps₁.futureLimit]; exact inv₁, known₁ sound.known⟩
            rcases inv₁.replaceFuture (Nat.le_of_lt fits) t with
              outbid | ⟨q₂, done₂, inv₂, keeps₂, known₂, slots₂, later, held₂, same₂⟩
            · rw [outbid]
              exact ⟨_, q₁, rfl, sound₁, keeps₁, fun _ => exact₁⟩
            · rw [done₂]
              dsimp only
              have knows₂ : q₂.Known := fun h holds => by
                rw [known₂]
                exact sound₁.known h (held₂ h holds)
              have new : ¬ q₂.view.held t.sha3 := fun holds =>
                not_held_of_unknown sound.known unknown (held₁ _ (held₂ _ holds))
              obtain ⟨q₃, done₃, inv₃, few₃, keeps₃, knows₃, exact₃⟩ :=
                inv₂.insertCurrent (Nat.succ_le_of_lt fits) new (slots₂ ▸ vacant) later knows₂
              have keeps := (keeps₁.trans keeps₂).trans keeps₃
              obtain ⟨q₄, done₄, inv₄, few₄, keeps₄, size₄, knows₄, exact₄⟩ :=
                inv₃.trimCurrent (keeps.limit ▸ positive) (q₃.current.length + 1)
                  (Nat.lt_succ_self _)
              rw [done₃, Option.bind_some, done₄]
              refine ⟨_, q₄, rfl, ⟨⟨?_, inv₄.slots, inv₄.futures⟩, knows₄ knows₃⟩,
                keeps.trans keeps₄, fun careful exact_ => ?_⟩
              · -- both loops have ended, so what is left fits
                refine inv₄.good.shrink few₄ ?_
                change q₄.futureSize ≤ q₄.futureLimit
                rw [size₄, keeps₄.futureLimit]
                exact few₃
              · have undisplaced := careful trivial trivial (by rw [outbid, done₁]; rfl)
                unfold Undisplaced at undisplaced
                have free : q.future.slot t.sender t.randomid = none := by
                  cases found : q.future.slot t.sender t.randomid with
                  | none => rfl
                  | some old =>
                      rw [found] at undisplaced
                      rw [replaceFuture, future₁, found] at done₂
                      dsimp only at done₂
                      rw [if_pos undisplaced] at done₂
                      cases done₂
                rw [free] at undisplaced
                obtain rfl := same₂ (future₁ ▸ free)
                have behind : q₂.ahead t = q.ahead t := by rw [ahead, ahead, future₁]
                apply exact₄
                apply exact₃ ?_ (exact₁ exact_)
                rw [size₁, keeps₁.futureLimit, behind]
                exact undisplaced

/-! Current transactions that become future ones. -/

theorem insertIfNew_inner {V : Type} (m : NestedMap V) (a n : Nat) (v : V)
    (vacant : m.slot a n = none) :
    (m.inner a).insertIfNew n v = (m.inner a).insert n v := by
  have absent : n ∉ m.inner a := by
    rw [← Std.ExtTreeMap.isSome_getElem?_iff_mem, NestedMap.get_inner, vacant]
    nofun
  apply Std.ExtTreeMap.ext_getElem?
  intro k
  rw [Std.ExtTreeMap.getElem?_insertIfNew, Std.ExtTreeMap.getElem?_insert]
  simp [absent]

theorem foldlM_toFuture (moved : List (Nat × Nat)) (sender : Nat) (q : TransactionQueue)
    (s : Nat → Nat → Option Nat) (fits : bound < 2 ^ 32)
    (good : QueueView.Good bound { q.view with slot := s }) (futures : q.future.NoEmpty)
    (found : ∀ p ∈ moved, s sender p.1 = some p.2) (distinct : (moved.map Prod.fst).Nodup) :
    ∃ q', (moved.map Prod.snd).foldlM (toFuture sender) q = some q' ∧
      QueueView.Good bound { q'.view with slot := clearSlots s sender (moved.map Prod.fst) } ∧
      q'.future.NoEmpty ∧
        q'.currentByAddressAndNonce = q.currentByAddressAndNonce ∧ q'.known = q.known ∧ q.Keeps q' ∧
          ∀ h, q'.view.held h ↔ q.view.held h := by
  induction moved generalizing q s with
  | nil =>
      refine ⟨q, rfl, ?_, futures, rfl, rfl, .refl q, fun h => .rfl⟩
      have same : clearSlots s sender [] = s := by
        funext b k
        simp [clearSlots]
      rw [List.map_nil, same]
      exact good
  | cons p moved ih =>
      obtain ⟨key, handle⟩ := p
      obtain ⟨apart, others⟩ := List.nodup_cons.mp distinct
      obtain ⟨e, mem, ⟨rfl, rfl⟩, rfl⟩ := (good.slot _ _ _).mp (found _ List.mem_cons_self)
      obtain ⟨less, rfl⟩ : ∃ less, bound = less + 1 :=
        ⟨bound - 1, by have := good.pos_of_current mem; omega⟩
      have taken := good.remove mem
      have gone : ¬ (QueueView.remove e { q.view with slot := s }).held e.transaction.sha3 :=
        fun held =>
        ((good.held_remove mem _).mp held).2 rfl
      have later : q.future.slot e.transaction.sender e.transaction.randomid = none :=
        good.apart e mem
      have put := taken.putFuture fits setSlot_self later gone
      have held : ∀ h,
        (QueueView.putFuture e.transaction (QueueView.remove e { q.view with slot := s })).held h ↔
          q.view.held h := fun h => by
        rw [QueueView.held_putFuture later, good.held_remove mem]
        by_cases same : h = e.transaction.sha3
        · simp only [same, true_or, true_iff]
          exact .inl ⟨e, mem, rfl⟩
        · simp only [same, false_or, ne_eq, not_false_eq_true, and_true]
          rfl
      -- one turn of the loop
      obtain ⟨q₁, done, view, futures₁, slots₁, known₁, keeps₁⟩ : ∃ q₁,
          toFuture e.transaction.sender q e.handle = some q₁ ∧
            { q₁.view with slot := setSlot s e.transaction.sender e.transaction.randomid none } =
              QueueView.putFuture e.transaction (QueueView.remove e { q.view with slot := s }) ∧
            q₁.future.NoEmpty ∧ q₁.currentByAddressAndNonce = q.currentByAddressAndNonce ∧
            q₁.known = q.known ∧
              q.Keeps q₁ := by
        unfold toFuture
        rw [deref_of_mem good.handles mem]
        rw [Option.map_some, insertIfNew_inner q.future _ _ e.transaction later]
        have here : ((q.future.inner e.transaction.sender).insert e.transaction.randomid
            e.transaction)[e.transaction.randomid]? = some e.transaction := by
          rw [Map.get_insert, if_pos rfl]
        exact ⟨_, rfl, QueueView.ext rfl (update_erase _ _) rfl (setSlot_insert _ _ _ _) rfl rfl,
          futures.insert _ (Map.isEmpty_of_get here), rfl, rfl, rfl, rfl⟩
      rw [← view] at put held
      obtain ⟨q', done', good', futures', slots', known', keeps', held'⟩ :=
        ih q₁ _ put futures₁ (fun p later => by
        rw [setSlot_ne fun same => apart (List.mem_map.mpr ⟨p, later, same.2⟩)]
        exact found p (List.mem_cons_of_mem _ later)) others
      refine ⟨q', ?_, ?_, futures', slots'.trans slots₁, known'.trans known₁, keeps₁.trans keeps',
        fun h => (held' h).trans (held h)⟩
      · rw [List.map_cons, List.foldlM_cons, done]
        exact done'
      · rw [List.map_cons, clearSlots_cons]
        exact good'

theorem Sound.setFuture (sound : q.Sound) (fits : q.limit + q.futureLimit < 2 ^ 32) (h : H256) :
    ∃ q', q.setFuture h = some q' ∧ q'.Sound ∧ q.Keeps q' ∧ (q.Exact → q'.Exact) := by
  unfold TransactionQueue.setFuture
  cases listed : q.currentByHash[h]? with
  | none => exact ⟨q, rfl, sound, .refl q, id⟩
  | some handle =>
      have good := sound.inv.good
      obtain ⟨e, mem, -, rfl⟩ := (good.byHash _ _).mp listed
      dsimp only
      rw [deref_of_mem good.handles mem, Option.bind_some]
      generalize e.transaction = st
      have sub : ((q.currentByAddressAndNonce.inner st.sender).toList.filter fun p => st.randomid ≤
        p.1).Sublist
          (q.currentByAddressAndNonce.inner st.sender).toList := List.filter_sublist
      generalize (q.currentByAddressAndNonce.inner st.sender).toList.filter (fun p => st.randomid ≤
        p.1) = cutoff at sub ⊢
      obtain ⟨q', done, good', futures', slots', known', keeps', held'⟩ :=
        foldlM_toFuture cutoff st.sender q q.currentByAddressAndNonce.slot fits good
          sound.inv.futures (fun p moved => by
          rw [← NestedMap.get_inner]
          exact (Map.mem_toList _ _ _).mp (sub.subset moved))
            ((Map.nodup_keys _).sublist (sub.map _))
      rw [done, Option.map_some]
      refine ⟨_, rfl, ⟨⟨?_, ?_, futures'⟩, fun h holds => ?_⟩, ⟨keeps'.limit, keeps'.futureLimit⟩,
        fun exact_ h present => ?_⟩
      · rw [← clearSlots_setInner, ← slots', ← keeps'.limit, ← keeps'.futureLimit] at good'
        rw [← slots']
        exact good'
      · change NestedMap.NoEmpty (NestedMap.setInner _ _ _)
        rw [slots']
        exact sound.inv.slots.setInner _ _
      · change h ∈ q'.known
        rw [known']
        exact sound.known h ((held' h).mp holds)
      · change h ∈ q'.known at present
        rw [known'] at present
        exact (held' h).mpr (exact_ h present)

def futureTransactions (q : TransactionQueue) : List VerifiedTransaction :=
  q.future.entries.map Prod.snd

def NotFuture (h : H256) (q : TransactionQueue) : Prop := ∀ t ∈ q.futureTransactions, t.sha3 ≠ h

theorem notFuture_iff : q.NotFuture h ↔ ∀ a n u, q.future.slot a n = some u → u.sha3 ≠ h := by
  constructor
  · intro absent a n u found
    exact absent u (List.mem_map.mpr ⟨((a, n), u), (NestedMap.mem_entries _ _ _ _).mpr found, rfl⟩)
  · intro absent t mem
    obtain ⟨⟨⟨a, n⟩, u⟩, listed, rfl⟩ := List.mem_map.mp mem
    exact absent a n u ((NestedMap.mem_entries _ _ _ _).mp listed)

theorem Inv.removedByHash (inv : q.Inv bound) (h : H256) :
    ∃ q', q.removeWithLock h = some q' ∧ q'.Inv bound ∧ q.Keeps q' ∧ (q.Known → q'.Known) ∧
    (q.Exact → q'.Exact) ∧
      (q.NotFuture h → ¬ q'.view.held h) := by
  cases listed : q.currentByHash[h]? with
  | none =>
      refine ⟨q, ?_, inv, .refl q, id, id, fun absent held => ?_⟩
      · rw [TransactionQueue.removeWithLock, listed]
      · rcases held with ⟨e, mem, hash⟩ | ⟨a, n, u, found, hash⟩
        · have some := (inv.good.byHash _ _).mpr ⟨e, mem, hash, rfl⟩
          change q.currentByHash[h]? = _ at some
          rw [listed] at some
          cases some
        · exact notFuture_iff.mp absent a n u found hash
  | some handle =>
      obtain ⟨e, mem, rfl, -⟩ := (inv.good.byHash _ _).mp listed
      obtain ⟨less, rfl⟩ : ∃ less, bound = less + 1 :=
        ⟨bound - 1, by have := inv.good.pos_of_current mem; omega⟩
      obtain ⟨q', done, removed, -⟩ := inv.removed mem
      exact ⟨q', done, removed.inv.mono (Nat.le_succ less), removed.keeps, removed.known_of,
        removed.exact_of, fun _ held => ((removed.held _).mp held).2 rfl⟩

theorem Sound.of_keeps {q' : TransactionQueue} (keeps : q.Keeps q')
    (inv : q'.Inv (q.limit + q.futureLimit)) (known : q'.Known) : q'.Sound := by
  refine ⟨?_, known⟩
  rw [keeps.limit, keeps.futureLimit]
  exact inv

theorem Sound.drop (sound : q.Sound) (h : H256) :
    ∃ q', q.drop h = some q' ∧ q'.Sound ∧ q.Keeps q' ∧ (q.Exact → q'.Exact) ∧
    (q.NotFuture h → ¬ q'.view.held h) := by
  unfold TransactionQueue.drop
  by_cases present : h ∈ q.known
  · rw [if_pos present]
    have inv : ({ q with dropped := insert h q.dropped } : TransactionQueue).Inv
        (q.limit + q.futureLimit) :=
      ⟨sound.inv.good, sound.inv.slots, sound.inv.futures⟩
    obtain ⟨q', done, inv', keeps, known, exact_, gone⟩ := inv.removedByHash h
    have keeps' : q.Keeps q' := ⟨keeps.limit, keeps.futureLimit⟩
    exact ⟨q', done, .of_keeps keeps' inv' (known sound.known), keeps', exact_, gone⟩
  · rw [if_neg present]
    exact ⟨q, rfl, sound, .refl q, id, fun _ => not_held_of_unknown sound.known present⟩

theorem Sound.dropGood (sound : q.Sound) (fits : q.limit + q.futureLimit < 2 ^ 32)
    (t : VerifiedTransaction) :
    ∃ q', q.dropGood t = some q' ∧ q'.Sound ∧ q.Keeps q' ∧
      (q.futureSize ≤ q.futureLimit + (q.ahead t).length → q.Exact → q'.Exact) ∧
        (q.NotFuture t.sha3 → ¬ q'.view.held t.sha3) := by
  obtain ⟨q₁, done₁, trimmed, stays⟩ := sound.inv.makeCurrent (Nat.le_of_lt fits) t
  have known₁ : q₁.Known := fun h holds => by
    rw [trimmed.known]
    exact sound.known h (trimmed.held h holds)
  unfold TransactionQueue.dropGood
  rw [done₁, Option.bind_some]
  have exact₁ : q.futureSize ≤ q.futureLimit + (q.ahead t).length → q.Exact → q₁.Exact :=
    fun few exact_ h present => by
    rw [trimmed.known] at present
    exact stays few h (exact_ h present)
  by_cases present : t.sha3 ∈ q₁.known
  · rw [if_pos present]
    obtain ⟨q', done, inv', keeps, known, exact_, gone⟩ := trimmed.inv.removedByHash t.sha3
    have keeps' := trimmed.keeps.trans keeps
    refine ⟨q', done, .of_keeps keeps' inv' (known known₁), keeps',
      fun few before => exact_ (exact₁ few before), fun absent =>
        gone (notFuture_iff.mpr fun a n u found =>
        notFuture_iff.mp absent a n u (trimmed.future a n u found))⟩
  · rw [if_neg present]
    exact ⟨q₁, rfl, .of_keeps trimmed.keeps trimmed.inv known₁, trimmed.keeps, exact₁,
      fun _ => not_held_of_unknown known₁ present⟩

theorem sound_of_empty (limit futureLimit nextHandle : Nat) (dropped : Finset H256)
    (choice : Nat → Nat) :
    ({ TransactionQueue.opened limit futureLimit choice
      with dropped, nextHandle } : TransactionQueue).Sound where
  inv := by
    have slots : ∀ {V : Type} (a n : Nat), (∅ : NestedMap V).slot a n = none := NestedMap.slot_empty
    have absent : ∀ a n t, (∅ : NestedMap VerifiedTransaction).slot a n ≠ some t := fun a n t => by
      rw [slots]
      nofun
    refine ⟨?_, NestedMap.noEmpty_empty, NestedMap.noEmpty_empty⟩
    refine ⟨List.nodup_nil, nofun, fun h handle => ?_, fun a n handle => ?_,
      fun a n t found => absurd found (absent a n t), nofun, fun a n t found =>
        absurd found (absent a n t), fun a n t _ _ _ found => absurd found (absent a n t), ∅,
      fun a n => ?_, rfl, Nat.zero_le _⟩
    · change (∅ : Map Nat)[h]? = some handle ↔ ∃ e ∈ ([] : List QueueEntry), _
      rw [Std.ExtTreeMap.getElem?_empty]
      simp
    · change NestedMap.slot ∅ a n = some handle ↔ ∃ e ∈ ([] : List QueueEntry), _
      rw [slots]
      simp
    · change _ ↔ (NestedMap.slot ∅ a n).isSome = true
      rw [slots]
      simp
  known := by
    rintro h (⟨e, mem, -⟩ | ⟨a, n, t, found, -⟩)
    · cases mem
    · change NestedMap.slot ∅ a n = some t at found
      rw [NestedMap.slot_empty] at found
      cases found

/-- The hash that a transaction is imported under is its own. -/
def Call.Genuine : Call → Prop
  | .importTransaction h (some t) _ _ _ => h = t.sha3
  | _ => True

/-- What a call must not do for the known transactions to stay those that are held. -/
def Call.Careful : Call → TransactionQueue → Prop
  | .importTransaction h (some t) retry isNonceOk isBlockLimitOk, q =>
      q.checkWithLock h retry = .success → isNonceOk = true → isBlockLimitOk = true →
        q.outbid t = false → q.Undisplaced t
  | .drop h, q => q.NotFuture h
  | .dropGood t, q => q.NotFuture t.sha3 ∧ q.futureSize ≤ q.futureLimit + (q.ahead t).length
  | _, _ => True

theorem Sound.call (sound : q.Sound) (positive : 0 < q.limit)
    (fits : q.limit + q.futureLimit < 2 ^ 32) (c : Call) (genuine : c.Genuine) :
    ∃ q', c.run q = some q' ∧ q'.Sound ∧ q.Keeps q' ∧ (c.Careful q → q.Exact → q'.Exact) := by
  cases c with
  | importTransaction h t retry isNonceOk isBlockLimitOk =>
      have stays : ∃ q', some q = some q' ∧ q'.Sound ∧ q.Keeps q' ∧
          (Call.Careful (.importTransaction h t retry isNonceOk isBlockLimitOk) q → q.Exact →
            q'.Exact) :=
        ⟨q, rfl, sound, .refl q, fun _ => id⟩
      have step : Call.run (.importTransaction h t retry isNonceOk isBlockLimitOk) q =
          (q.importTransaction h t retry isNonceOk isBlockLimitOk).map Prod.snd := rfl
      rw [step]
      unfold TransactionQueue.importTransaction
      cases checked : q.checkWithLock h retry with
      | success =>
          cases t with
          | none => exact stays
          | some t =>
              obtain rfl : h = t.sha3 := genuine
              have unknown : t.sha3 ∉ q.known := fun present => by
                rw [checkWithLock, if_pos present] at checked
                cases checked
              obtain ⟨answer, q', done, sound', keeps, exact_⟩ :=
                sound.manageImport positive fits unknown isNonceOk isBlockLimitOk
              exact ⟨q', congrArg (Option.map Prod.snd) done, sound', keeps,
                fun careful => exact_ (careful checked)⟩
      | _ => exact stays
  | drop h =>
      obtain ⟨q', done, sound', keeps, exact_, -⟩ := sound.drop h
      exact ⟨q', done, sound', keeps, fun _ => exact_⟩
  | dropGood t =>
      obtain ⟨q', done, sound', keeps, exact_, -⟩ := sound.dropGood fits t
      exact ⟨q', done, sound', keeps, fun careful => exact_ careful.2⟩
  | setFuture h =>
      obtain ⟨q', done, sound', keeps, exact_⟩ := sound.setFuture fits h
      exact ⟨q', done, sound', keeps, fun _ => exact_⟩
  | clear =>
      exact ⟨_, rfl, sound_of_empty q.limit q.futureLimit q.nextHandle q.dropped q.choice,
        ⟨rfl, rfl⟩, fun _ _ h present => absurd present (Finset.notMem_empty h)⟩

/-! Runs. -/

def run (calls : List Call) (q : TransactionQueue) : Option TransactionQueue :=
  calls.foldlM (fun (q : TransactionQueue) (c : Call) => c.run q) q

theorem Sound.run (calls : List Call) (sound : q.Sound) (positive : 0 < q.limit)
    (fits : q.limit + q.futureLimit < 2 ^ 32) (genuine : ∀ c ∈ calls, c.Genuine) :
    ∃ q', q.run calls = some q' ∧ q'.Sound ∧ q.Keeps q' := by
  induction calls generalizing q with
  | nil => exact ⟨q, rfl, sound, .refl q⟩
  | cons c calls ih =>
      obtain ⟨q₁, done, sound₁, keeps, -⟩ :=
        sound.call positive fits c (genuine c List.mem_cons_self)
      obtain ⟨q', done', sound', keeps'⟩ := ih sound₁ (keeps.limit ▸ positive)
        (by rw [keeps.limit, keeps.futureLimit]; exact fits)
        (fun c mem => genuine c (List.mem_cons_of_mem _ mem))
      refine ⟨q', ?_, sound', keeps.trans keeps'⟩
      rw [TransactionQueue.run, List.foldlM_cons, done]
      exact done'

/-- The three views of the current set are of the same transactions, and each transaction is held
once. -/
structure Consistent (q : TransactionQueue) : Prop where
  handles : (q.current.map QueueEntry.handle).Nodup
  byHash : ∀ h handle, q.currentByHash[h]? = some handle ↔
    ∃ e ∈ q.current, e.transaction.sha3 = h ∧ e.handle = handle
  byAddressAndNonce : ∀ a n handle, q.currentByAddressAndNonce.slot a n = some handle ↔
    ∃ e ∈ q.current, (e.transaction.sender = a ∧ e.transaction.randomid = n) ∧ e.handle = handle
  noEmpty : ∀ (a : Nat) (inner : Map Nat), q.currentByAddressAndNonce[a]? = some inner →
    inner.isEmpty = false
  distinct : ((q.current.map QueueEntry.transaction ++ q.futureTransactions).map
    fun t => (t.sender, t.randomid)).Nodup
  futureSize : q.futureSize = q.futureTransactions.length

theorem Inv.future_slots (inv : q.Inv bound) :
    q.futureTransactions.map (fun t => (t.sender, t.randomid)) = q.future.entries.map Prod.fst := by
  rw [futureTransactions, List.map_map]
  refine List.map_congr_left fun p mem => ?_
  obtain ⟨⟨a, n⟩, t⟩ := p
  obtain ⟨sender, randomid⟩ := inv.good.placed a n t ((NestedMap.mem_entries _ _ _ _).mp mem)
  exact Prod.ext sender randomid

theorem Inv.consistent (inv : q.Inv bound) : q.Consistent where
  handles := inv.good.handles
  byHash := inv.good.byHash
  byAddressAndNonce := inv.good.slot
  noEmpty := inv.slots
  distinct := by
    rw [List.map_append, List.nodup_append', inv.future_slots, List.map_map]
    refine ⟨?_, q.future.nodup_slots, fun slot left right => ?_⟩
    · refine List.Nodup.map_on (fun e mem e' mem' same => ?_) inv.good.handles.of_map
      exact inv.good.eq_of_slot mem mem' (Prod.mk.inj same).1 (Prod.mk.inj same).2
    · obtain ⟨e, mem, rfl⟩ := List.mem_map.mp left
      obtain ⟨⟨slot, t⟩, listed, same⟩ := List.mem_map.mp right
      obtain ⟨a, n⟩ := slot
      cases same
      have found := (NestedMap.mem_entries _ _ _ _).mp listed
      have gone : q.future.slot e.transaction.sender e.transaction.randomid = none :=
        inv.good.apart e mem
      rw [found] at gone
      cases gone
  futureSize := by
    obtain ⟨slots, mem, size, -⟩ := inv.good.counted
    have same : slots = (q.future.entries.map Prod.fst).toFinset := by
      ext ⟨a, n⟩
      rw [mem, List.mem_toFinset, List.mem_map]
      constructor
      · intro some
        obtain ⟨t, found⟩ := Option.isSome_iff_exists.mp some
        exact ⟨((a, n), t), (NestedMap.mem_entries _ _ _ _).mpr found, rfl⟩
      · rintro ⟨⟨_, t⟩, listed, rfl⟩
        have found : q.view.future a n = some t := (NestedMap.mem_entries _ _ _ _).mp listed
        rw [found]
        rfl
    have length : q.futureSize = slots.card := size
    rw [length, same, List.toFinset_card_of_nodup q.future.nodup_slots, futureTransactions,
      List.length_map, List.length_map]

/-- Over any calls, every loop ends, no handle dangles, and the indices agree. -/
theorem queue_consistent (limit futureLimit : Nat) (choice : Nat → Nat) (positive : 0 < limit)
    (fits : limit + futureLimit < 2 ^ 32) (calls : List Call) (genuine : ∀ c ∈ calls, c.Genuine) :
    ∃ q, (opened limit futureLimit choice).run calls = some q ∧ q.Consistent := by
  have sound : (opened limit futureLimit choice).Sound :=
    sound_of_empty limit futureLimit 0 ∅ choice
  obtain ⟨q, done, sound', -⟩ := sound.run calls positive fits genuine
  exact ⟨q, done, sound'.inv.consistent⟩

def sentAt (hash sender randomid gasPrice importTime : Nat) : VerifiedTransaction :=
  { sha3 := hash, sender, randomid, blockLimit := 100, gasPrice, importTime }

def importing (t : VerifiedTransaction) : Call := .importTransaction t.sha3 (some t) true true true

/-- The third transaction finds no room. The first is put off with the one behind it, which comes
back when a better one takes the place of the first. -/
def putOff : List Call :=
  [importing (sentAt 1 7 1 5 10), importing (sentAt 2 7 2 5 11), importing (sentAt 3 8 1 5 12),
    .setFuture 1, importing (sentAt 4 7 1 6 13), .drop 2]

theorem queue_consistent_putOff :
    ((opened 2 8 fun i => i).run putOff).map (fun q => (q.current.map fun e => e.transaction.sha3,
      q.futureTransactions.length, q.futureSize)) = some ([4], 0, 0) ∧
      ∃ q, (opened 2 8 fun i => i).run putOff = some q ∧ q.Consistent := by
  refine ⟨by decide +kernel, queue_consistent 2 8 (fun i => i) (by decide) (by decide) putOff ?_⟩
  intro c mem
  simp only [putOff, List.mem_cons, List.not_mem_nil, or_false] at mem
  rcases mem with rfl | rfl | rfl | rfl | rfl | rfl
  all_goals first | rfl | trivial

end TransactionQueue

end UtispaceChain
