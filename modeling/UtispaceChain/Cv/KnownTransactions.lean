import UtispaceChain.Cv.QueueConsistency

/-! What a `TransactionQueue` answers as known, against what it holds. -/

namespace UtispaceChain

open Lib

namespace TransactionQueue

def queued (q : TransactionQueue) : List VerifiedTransaction :=
  q.current.map QueueEntry.transaction ++ q.futureTransactions

def Call.drops : Call → Option H256
  | .drop h => some h
  | .dropGood t => some t.sha3
  | _ => none

variable {q : TransactionQueue} {h : H256}

theorem held_iff_queued (q : TransactionQueue) (h : H256) : q.view.held h ↔
    ∃ t ∈ q.queued, t.sha3 = h := by
  simp only [queued, List.mem_append, List.mem_map]
  constructor
  · rintro (⟨e, mem, hash⟩ | ⟨a, n, t, found, hash⟩)
    · exact ⟨e.transaction, .inl ⟨e, mem, rfl⟩, hash⟩
    · exact ⟨t,
        .inr (List.mem_map.mpr ⟨((a, n), t), (NestedMap.mem_entries _ _ _ _).mpr found, rfl⟩), hash⟩
  · rintro ⟨t, ⟨e, mem, rfl⟩ | listed, hash⟩
    · exact .inl ⟨e, mem, hash⟩
    · obtain ⟨⟨⟨a, n⟩, _⟩, present, rfl⟩ := List.mem_map.mp listed
      exact .inr ⟨a, n, _, (NestedMap.mem_entries _ _ _ _).mp present, hash⟩

theorem Sound.dropped (sound : q.Sound) (fits : q.limit + q.futureLimit < 2 ^ 32) (c : Call)
    (careful : c.Careful q) (drops : c.drops = some h) : ∃ q', c.run q = some q' ∧
    ¬ q'.view.held h := by
  cases c with
  | drop h' =>
      cases drops
      obtain ⟨q', done, -, -, -, gone⟩ := sound.drop h
      exact ⟨q', done, gone careful⟩
  | dropGood t =>
      cases drops
      obtain ⟨q', done, -, -, -, gone⟩ := sound.dropGood fits t
      exact ⟨q', done, gone careful.1⟩
  | _ => cases drops

instance (t : VerifiedTransaction) (q : TransactionQueue) : Decidable (q.Undisplaced t) :=
  match found : q.future.slot t.sender t.randomid with
  | some old => decidable_of_iff (t.gasPrice < old.gasPrice) (by rw [Undisplaced, found])
  | none => decidable_of_iff (q.futureSize ≤ q.futureLimit + (q.ahead t).length)
      (by rw [Undisplaced, found])

instance (c : Call) (q : TransactionQueue) : Decidable (c.Careful q) :=
  match c with
  | .importTransaction h (some t) retry isNonceOk isBlockLimitOk =>
      inferInstanceAs (Decidable (q.checkWithLock h retry = .success → isNonceOk = true →
        isBlockLimitOk = true →
        q.outbid t = false → q.Undisplaced t))
  | .importTransaction _ none _ _ _ => .isTrue trivial
  | .drop h => inferInstanceAs (Decidable (∀ t ∈ q.futureTransactions, t.sha3 ≠ h))
  | .dropGood t =>
      inferInstanceAs (Decidable ((∀ u ∈ q.futureTransactions, u.sha3 ≠ t.sha3) ∧
        q.futureSize ≤ q.futureLimit + (q.ahead t).length))
  | .setFuture _ => .isTrue trivial
  | .clear => .isTrue trivial

/-- Every call of a run is careful, in the state that it is made in. -/
def carefully : List Call → TransactionQueue → Bool
  | [], _ => true
  | c :: calls, q => decide (c.Careful q) && (c.run q).elim true (carefully calls)

theorem Sound.carefully (calls : List Call) (sound : q.Sound) (positive : 0 < q.limit)
    (fits : q.limit + q.futureLimit < 2 ^ 32) (genuine : ∀ c ∈ calls, c.Genuine)
    (careful : TransactionQueue.carefully calls q = true) (exact_ : q.Exact) :
    ∃ q', q.run calls = some q' ∧ q'.Sound ∧ q'.Exact ∧
      ∀ c h, calls.getLast? = some c → c.drops = some h → ¬ q'.view.held h := by
  induction calls generalizing q with
  | nil => exact ⟨q, rfl, sound, exact_, nofun⟩
  | cons c calls ih =>
      obtain ⟨q₁, done, sound₁, keeps, exact₁⟩ :=
        sound.call positive fits c (genuine c List.mem_cons_self)
      rw [TransactionQueue.carefully, Bool.and_eq_true, decide_eq_true_eq, done,
        Option.elim_some] at careful
      obtain ⟨q', done', sound', exact', gone⟩ := ih sound₁ (keeps.limit ▸ positive)
        (by rw [keeps.limit, keeps.futureLimit]; exact fits)
        (fun c mem => genuine c (List.mem_cons_of_mem _ mem))
        careful.2 (exact₁ careful.1 exact_)
      refine ⟨q', ?_, sound', exact', fun c' h last drops => ?_⟩
      · rw [TransactionQueue.run, List.foldlM_cons, done]
        exact done'
      · cases calls with
        | nil =>
            cases last
            cases done'
            obtain ⟨q₂, done₂, gone₂⟩ := sound.dropped fits c careful.1 drops
            rw [done] at done₂
            cases done₂
            exact gone₂
        | cons c'' rest => exact gone c' h (by rwa [List.getLast?_cons_cons] at last) drops

/-- Where no future transaction is replaced, dropped for space or asked to be dropped, the known
transactions are those that are queued, and what is dropped is gone. -/
theorem known_exact (limit futureLimit : Nat) (choice : Nat → Nat) (positive : 0 < limit)
    (fits : limit + futureLimit < 2 ^ 32) (calls : List Call) (genuine : ∀ c ∈ calls, c.Genuine)
    (careful : carefully calls (opened limit futureLimit choice) = true) :
    ∃ q, (opened limit futureLimit choice).run calls = some q ∧
      (∀ h, h ∈ q.known ↔ ∃ t ∈ q.queued, t.sha3 = h) ∧
        (∀ h retry, (∀ t ∈ q.queued, t.sha3 ≠ h) → q.checkWithLock h retry ≠ .alreadyKnown) ∧
          ∀ c h, calls.getLast? = some c → c.drops = some h → ∀ t ∈ q.queued, t.sha3 ≠ h := by
  have start : (opened limit futureLimit choice).Sound :=
    sound_of_empty limit futureLimit 0 ∅ choice
  have empty : (opened limit futureLimit choice).Exact :=
    fun h present => absurd present (Finset.notMem_empty h)
  obtain ⟨q, done, sound, exact_, gone⟩ := start.carefully calls positive fits genuine careful empty
  have known : ∀ h, h ∈ q.known ↔ ∃ t ∈ q.queued, t.sha3 = h := fun h => by
    rw [← held_iff_queued]
    exact ⟨exact_ h, sound.known h⟩
  refine ⟨q, done, known, fun h retry absent answer => ?_, fun c h last drops t mem hash => ?_⟩
  · have unknown : h ∉ q.known := fun present => by
      obtain ⟨t, mem, hash⟩ := (known h).mp present
      exact absent t mem hash
    rw [checkWithLock, if_neg unknown] at answer
    split at answer <;> cases answer
  · exact gone c h last drops ((held_iff_queued q h).mpr ⟨t, mem, hash⟩)

def attentive : List Call :=
  [importing (sentAt 1 7 1 5 10), importing (sentAt 2 7 1 6 11), importing (sentAt 3 8 1 5 12),
    .setFuture 3, .drop 2]

theorem known_exact_attentive :
    ((opened 1024 1024 fun i => i).run attentive).map
      (fun q => (q.known, q.queued.map fun t => t.sha3)) =
        some ({3}, [3]) ∧
      ∃ q, (opened 1024 1024 fun i => i).run attentive = some q ∧
        (∀ h, h ∈ q.known ↔ ∃ t ∈ q.queued, t.sha3 = h) ∧
          (∀ h retry, (∀ t ∈ q.queued, t.sha3 ≠ h) → q.checkWithLock h retry ≠ .alreadyKnown) ∧
            ∀ c h, attentive.getLast? = some c → c.drops = some h → ∀ t ∈ q.queued, t.sha3 ≠ h := by
  refine ⟨by decide +kernel, known_exact 1024 1024 (fun i => i) (by decide) (by decide) attentive ?_
    (by decide +kernel)⟩
  intro c mem
  simp only [attentive, List.mem_cons, List.not_mem_nil, or_false] at mem
  rcases mem with rfl | rfl | rfl | rfl | rfl
  all_goals first | rfl | trivial

/-- A future transaction that is replaced stays known. -/
theorem replaced_stays_known :
    ¬ ∀ calls : List Call, (∀ c ∈ calls, c.Genuine) →
    ∀ q, (opened 1024 1024 fun i => i).run calls = some q →
      ∀ h ∈ q.known, ∃ t ∈ q.queued, t.sha3 = h := by
  intro knownQueued
  have outcome : ((opened 1024 1024 fun i => i).run
      [importing (sentAt 1 7 1 5 10), .setFuture 1, importing (sentAt 2 7 1 6 11)]).map
        (fun q => (decide (1 ∈ q.known), q.queued.map fun t => t.sha3)) = some (true, [2]) := by
    decide +kernel
  obtain ⟨q, done, same⟩ := Option.map_eq_some_iff.mp outcome
  obtain ⟨known, queued⟩ := Prod.mk.inj same
  have genuine : ∀ c ∈ [importing (sentAt 1 7 1 5 10), .setFuture 1, importing (sentAt 2 7 1 6 11)],
      c.Genuine := by
    intro c mem
    simp only [List.mem_cons, List.not_mem_nil, or_false] at mem
    rcases mem with rfl | rfl | rfl
    all_goals first | rfl | trivial
  obtain ⟨t, mem, hash⟩ := knownQueued _ genuine q done 1 (of_decide_eq_true known)
  have listed : 1 ∈ q.queued.map fun t => t.sha3 := List.mem_map.mpr ⟨t, mem, hash⟩
  rw [queued] at listed
  simp at listed

end TransactionQueue

end UtispaceChain
