import UtispaceChain.Cv.Block

/-! `fromPending`: the state after some transactions of a block, by the root in the last of their
receipts. -/

namespace UtispaceChain

open Lib Rlp

variable {Trie Account : Type}

namespace Block

variable (db : Storage Trie Account) (X : Executor Trie Account) (kind : VMKind) (p : Permanence)

/-- A receipt that is not there is read past the end of the vector. -/
def fromPending (i : Nat) (b : Block Trie Account) : Except BlockFault (State Trie Account) := do
  let i := min i b.transactions.length
  let root ←
    if i = 0 then .ok b.previous.stateRoot
    else
      match b.receipts[i - 1]? with
      | none => .error .noReceipt
      | some receipt => .ok receipt.stateRoot
  match db.openRoot root with
  | none => .error .rootNotFound
  | some trie => .ok ⟨trie, []⟩

/-- Transactions executed one after the other, each with the last hashes that it sees. -/
def executes : List (List H256 × Bytes) → Block Trie Account →
    Except BlockFault (Block Trie Account)
  | [], b => .ok b
  | (lh, t) :: rest, b => do
      let b ← b.execute db X kind lh t p
      executes rest b

/-- A block on the state of its parent. `OnlyReceipt` finds the transactions in the block
already. -/
structure Fresh (parent : Trie) (calls : List (List H256 × Bytes)) (b : Block Trie Account) :
    Prop where
  opened : db.openRoot b.previous.stateRoot = some parent
  state : b.state = State.performIrregularModifications db b.current.number ⟨parent, []⟩
  transactions : b.transactions = if p = .committed then [] else calls.map (·.2)
  receipts : b.receipts = []
  uncommitted : b.committedToSeal = false

theorem executes_append (first second : List (List H256 × Bytes)) (b : Block Trie Account) :
    executes db X kind p (first ++ second) b =
      (executes db X kind p first b).bind (executes db X kind p second) := by
  induction first generalizing b with
  | nil => rfl
  | cons call rest ih =>
      simp only [List.cons_append, executes, bind]
      cases b.execute db X kind call.1 call.2 p with
      | error fault => rfl
      | ok next => exact ih next

variable {db X kind p} {b b' start : Block Trie Account}

theorem State.execute_root {env : EnvInfo} {t : Bytes} {s after : State Trie Account}
    {receipt : Receipt} (caching : ∀ kind env t (s after : State Trie Account) e, X kind env t s =
      some (after, e) → after.trie = s.trie)
      (ran : s.execute db X kind env t p = .ok (after, receipt)) :
    after.trie = s.trie ∧ receipt.stateRoot = db.rootHash s.trie := by
  unfold State.execute at ran
  cases result : X kind env t s with
  | none =>
      rw [result] at ran
      cases ran
  | some given =>
      have same := caching kind env t s given.1 given.2 result
      rw [result] at ran
      cases ran
      dsimp only
      split
      · exact ⟨same, congrArg db.rootHash same⟩
      · exact ⟨same, congrArg db.rootHash same⟩

/-- Both virtual machines at once keep a receipt for committed transactions only. -/
def NoReceipts (kind : VMKind) (p : Permanence) : Prop := kind = .dual ∧ p ≠ .committed

instance : Decidable (NoReceipts kind p) := by
  unfold NoReceipts
  infer_instance

structure Executed (kind : VMKind) (p : Permanence) (t : Bytes) (receipt : Receipt)
    (b b' : Block Trie Account) : Prop where
  uncommitted : b'.committedToSeal = false
  previous : b'.previous = b.previous
  transactions : b'.transactions = if p = .committed then b.transactions ++ [t] else b.transactions
  receipts : b'.receipts = if NoReceipts kind p then b.receipts else b.receipts ++ [receipt]
  trie : kind ≠ .dual → b'.state.trie = b.state.trie

theorem execute_executed {lh : List H256} {t : Bytes}
    (caching : ∀ kind env t (s after : State Trie Account) e, X kind env t s = some (after, e) →
      after.trie = s.trie) (kept : p = .committed ∨ p = .onlyReceipt)
      (uncommitted : b.committedToSeal = false) (ran : b.execute db X kind lh t p = .ok b') :
    ∃ receipt, receipt.stateRoot = db.rootHash b.state.trie ∧ Executed kind p t receipt b b' := by
  have same : b.uncommitToSeal = b := by rw [uncommitToSeal, uncommitted, if_neg Bool.false_ne_true]
  unfold execute at ran
  rw [same] at ran
  dsimp only at ran
  split at ran
  · cases ran
  split at ran
  case isTrue dual =>
    cases jitted : b.state.execute db X .jit (EnvInfo.ofHeader b.current lh b.gasUsed) t .dry with
    | error fault =>
        rw [jitted] at ran
        cases ran
    | ok jit =>
        rw [jitted] at ran
        dsimp only [bind, Except.bind] at ran
        cases interpreted : State.execute db X .interpreter
          (EnvInfo.ofHeader b.current lh b.gasUsed) t p
            { jit.1 with cache := [] } with
        | error fault =>
            rw [interpreted] at ran
            cases ran
        | ok result =>
            rw [interpreted] at ran
            dsimp only at ran
            have first := (State.execute_root caching jitted).1
            have root := (State.execute_root caching interpreted).2
            refine ⟨result.2, root.trans (congrArg db.rootHash first), ?_⟩
            rcases kept with rfl | rfl
            · cases ran
              exact ⟨uncommitted, rfl, rfl, by simp [NoReceipts], fun single => absurd dual single⟩
            · cases ran
              exact ⟨uncommitted, rfl, rfl, by simp [NoReceipts, dual],
                fun single => absurd dual single⟩
  case isFalse single =>
    cases executed : b.state.execute db X kind (EnvInfo.ofHeader b.current lh b.gasUsed) t p with
    | error fault =>
        rw [executed] at ran
        cases ran
    | ok result =>
        rw [executed] at ran
        dsimp only [bind, Except.bind] at ran
        rcases State.execute_root caching executed with ⟨trie, root⟩
        refine ⟨result.2, root, ?_⟩
        rcases kept with rfl | rfl
        · cases ran
          exact ⟨uncommitted, rfl, rfl, by simp [NoReceipts], fun _ => trie⟩
        · cases ran
          exact ⟨uncommitted, rfl, rfl, by simp [NoReceipts, single], fun _ => trie⟩

/-- A run from a block without receipts: what is in the block, and the roots in the receipts. -/
structure Built (db : Storage Trie Account) (X : Executor Trie Account) (kind : VMKind)
    (p : Permanence) (start : Block Trie Account) (done : List (List H256 × Bytes))
    (b : Block Trie Account) : Prop where
  uncommitted : b.committedToSeal = false
  previous : b.previous = start.previous
  transactions : b.transactions = if p = .committed then start.transactions ++ done.map (·.2)
    else start.transactions
  unkept : NoReceipts kind p → b.receipts = []
  count : ¬ NoReceipts kind p → b.receipts.length = done.length
  roots : ¬ NoReceipts kind p →
    ∀ i < done.length, ∃ before receipt, executes db X kind p (done.take i) start = .ok before ∧
    b.receipts[i]? = some receipt ∧ receipt.stateRoot = db.rootHash before.state.trie
  trie : kind ≠ .dual → b.state.trie = start.state.trie

theorem executes_built {calls : List (List H256 × Bytes)}
    (caching : ∀ kind env t (s after : State Trie Account) e, X kind env t s = some (after, e) →
      after.trie = s.trie) (kept : p = .committed ∨ p = .onlyReceipt)
      (uncommitted : start.committedToSeal = false) (fresh : start.receipts = [])
      (ran : executes db X kind p calls start = .ok b) :
    Built db X kind p start calls b := by
  induction calls using List.reverseRecOn generalizing b with
  | nil =>
      cases ran
      exact ⟨uncommitted, rfl, by simp, fun _ => fresh, fun _ => by rw [fresh]; rfl,
        fun _ i small => by simp at small, fun _ => rfl⟩
  | append_singleton done call ih =>
      rw [executes_append] at ran
      cases first : executes db X kind p done start with
      | error fault =>
          rw [first] at ran
          cases ran
      | ok middle =>
          rw [first] at ran
          have last : middle.execute db X kind call.1 call.2 p = .ok b := by
            change (middle.execute db X kind call.1 call.2 p).bind (fun b => .ok b) = .ok b at ran
            cases result : middle.execute db X kind call.1 call.2 p with
            | error fault =>
                rw [result] at ran
                cases ran
            | ok next =>
                rw [result] at ran
                exact ran
          have built := ih first
          rcases execute_executed caching kept built.uncommitted last with ⟨receipt, root, executed⟩
          constructor
          · exact executed.uncommitted
          · exact executed.previous.trans built.previous
          · rw [executed.transactions, built.transactions]
            split <;> simp
          · intro unkept
            rw [executed.receipts, if_pos unkept, built.unkept unkept]
          · intro kept
            rw [executed.receipts, if_neg kept, List.length_append, built.count kept,
              List.length_append]
            rfl
          · intro kept i small
            rw [executed.receipts, if_neg kept]
            rw [List.length_append, List.length_singleton] at small
            by_cases old : i < done.length
            · rcases built.roots kept i old with ⟨before, receipt', run, found, root'⟩
              refine ⟨before, receipt', ?_, ?_, root'⟩
              · rw [List.take_append_of_le_length (Nat.le_of_lt old), run]
              · rw [List.getElem?_append_left (by rw [built.count kept]; exact old), found]
            · have new : i = done.length := by omega
              refine ⟨middle, receipt, ?_, ?_, root⟩
              · rw [new, List.take_left, first]
              · rw [new, ← built.count kept, List.getElem?_concat_length]
          · intro single
            exact (executed.trie single).trans (built.trie single)

theorem executes_uncommitted (call : List H256 × Bytes) (rest : List (List H256 × Bytes))
    (b : Block Trie Account) :
    executes db X kind p (call :: rest) b.uncommitToSeal =
      executes db X kind p (call :: rest) b := by
  rw [executes, execute_uncommitted, ← executes]

theorem fromPending_uncommitted (i : Nat) (b : Block Trie Account) :
    b.uncommitToSeal.fromPending db i = b.fromPending db i := by
  unfold uncommitToSeal fromPending
  split <;> rfl

theorem fromPending_start {parent : Trie}
    (opened : db.openRoot b.previous.stateRoot = some parent) :
    b.fromPending db 0 = .ok ⟨parent, []⟩ := by
  have first : min 0 b.transactions.length = 0 := Nat.zero_min _
  unfold fromPending
  rw [first, if_pos rfl]
  simp only [bind, Except.bind, opened]

theorem fromPending_missing {i : Nat} (inside : i < b.transactions.length)
    (unkept : b.receipts = []) :
    b.fromPending db (i + 1) = .error .noReceipt := by
  have place : min (i + 1) b.transactions.length = i + 1 := Nat.min_eq_left inside
  unfold fromPending
  rw [place, if_neg (Nat.succ_ne_zero i), unkept]
  rfl

theorem fromPending_later {i : Nat} {receipt : Receipt} {trie : Trie}
    (inside : i < b.transactions.length) (found : b.receipts[i]? = some receipt)
    (opened : db.openRoot receipt.stateRoot = some trie) :
    b.fromPending db (i + 1) = .ok ⟨trie, []⟩ := by
  have place : min (i + 1) b.transactions.length = i + 1 := Nat.min_eq_left inside
  unfold fromPending
  rw [place, if_neg (Nat.succ_ne_zero i), Nat.add_sub_cancel, found]
  simp only [bind, Except.bind, opened]

/-- Both states are the same once what they hold in the cache is written. -/
def Same (db : Storage Trie Account) (s t : State Trie Account) : Prop :=
  (s.commit db).trie = (t.commit db).trie

variable (db X kind p) in
/-- What was committed last when the transaction before place `i` ran: on one virtual machine the
state that the block started with, on both of them what the transactions before it left. -/
def committedBefore (parent : Trie) (calls : List (List H256 × Bytes))
    (start : Block Trie Account) :
    Nat → Except BlockFault Trie
  | 0 => .ok parent
  | i + 1 =>
      if kind = .dual then (executes db X kind p (calls.take i) start).map (·.state.trie)
        else .ok start.state.trie

theorem prefix_executes {calls : List (List H256 × Bytes)} (i : Nat)
    (ran : executes db X kind p calls start = .ok b) :
    ∃ after, executes db X kind p (calls.take i) start = .ok after := by
  rw [← List.take_append_drop i calls, executes_append] at ran
  cases first : executes db X kind p (calls.take i) start with
  | error fault =>
      rw [first] at ran
      cases ran
  | ok after => exact ⟨after, rfl⟩

theorem fromPending_eq {calls : List (List H256 × Bytes)} {parent : Trie}
    (durable : ∀ trie, db.openRoot (db.rootHash trie) = some trie)
    (caching : ∀ kind env t (s after : State Trie Account) e, X kind env t s = some (after, e) →
      after.trie = s.trie) (kept : p = .committed ∨ p = .onlyReceipt)
      (fresh : Fresh db p parent calls start) (ran : executes db X kind p calls start = .ok b)
      (i : Nat) (inside : i ≤ b.transactions.length) :
    b.fromPending db i = if i ≠ 0 ∧ NoReceipts kind p then .error .noReceipt
      else (committedBefore db X kind p parent calls start i).map (⟨·, []⟩) := by
  have built := executes_built caching kept fresh.uncommitted fresh.receipts ran
  have size : b.transactions.length = calls.length := by
    rw [built.transactions, fresh.transactions]
    split <;> simp
  cases i with
  | zero =>
      rw [if_neg fun both => both.1 rfl]
      exact fromPending_start (by rw [built.previous]; exact fresh.opened)
  | succ i =>
      by_cases unkept : NoReceipts kind p
      · rw [if_pos ⟨Nat.succ_ne_zero i, unkept⟩]
        exact fromPending_missing inside (built.unkept unkept)
      · rw [if_neg fun both => unkept both.2]
        rcases built.roots unkept i (by omega) with ⟨before, receipt, run, found, root⟩
        rw [fromPending_later inside found (by rw [root]; exact durable _)]
        by_cases dual : kind = .dual
        · rw [committedBefore, if_pos dual, run]
          rfl
        · have prior := executes_built caching kept fresh.uncommitted fresh.receipts run
          rw [committedBefore, if_neg dual, prior.trie dual]
          rfl

/-- `fromPending` is the state after the first transactions exactly if they leave what was committed
before the last of them ran, and there are receipts. -/
theorem from_pending_iff (db : Storage Trie Account) (X : Executor Trie Account) (kind : VMKind)
    (p : Permanence) (durable : ∀ trie, db.openRoot (db.rootHash trie) = some trie)
    (caching : ∀ kind env t (s after : State Trie Account) e, X kind env t s = some (after, e) →
      after.trie = s.trie) (kept : p = .committed ∨ p = .onlyReceipt) (parent : Trie)
      (calls : List (List H256 × Bytes)) (b built : Block Trie Account)
      (fresh : Fresh db p parent calls b.uncommitToSeal) (ran : executes db X kind p calls b =
        .ok built) (i : Nat) (inside : i ≤ built.transactions.length) :
    ∃ after, executes db X kind p (calls.take i) b.uncommitToSeal = .ok after ∧
      ((∃ s, built.fromPending db i = .ok s ∧ Same db s after.state) ↔
        ¬ (i ≠ 0 ∧ NoReceipts kind p) ∧
          committedBefore db X kind p parent calls b.uncommitToSeal i =
            .ok (after.state.commit db).trie) := by
  -- where nothing is executed the block itself may still be committed to its seal
  have reset : ∃ built', executes db X kind p calls b.uncommitToSeal = .ok built' ∧
      built'.fromPending db i = built.fromPending db i ∧
      built'.transactions = built.transactions := by
    cases calls with
    | nil =>
        cases ran
        refine ⟨b.uncommitToSeal, rfl, fromPending_uncommitted i b, ?_⟩
        unfold uncommitToSeal
        split <;> rfl
    | cons call rest => exact ⟨built, by rw [executes_uncommitted, ran], rfl, rfl⟩
  rcases reset with ⟨built', ran', same, size⟩
  rcases prefix_executes i ran' with ⟨after, run⟩
  refine ⟨after, run, ?_⟩
  rw [← same, fromPending_eq durable caching kept fresh ran' i (by rw [size]; exact inside)]
  by_cases missing : i ≠ 0 ∧ NoReceipts kind p
  · rw [if_pos missing]
    constructor
    · rintro ⟨s, given, -⟩
      cases given
    · exact fun both => absurd missing both.1
  · rw [if_neg missing]
    cases committed : committedBefore db X kind p parent calls b.uncommitToSeal i with
    | error fault =>
        constructor
        · rintro ⟨s, given, -⟩
          cases given
        · rintro ⟨-, given⟩
          cases given
    | ok trie =>
        constructor
        · rintro ⟨s, given, shown⟩
          cases given
          exact ⟨missing, congrArg Except.ok shown⟩
        · rintro ⟨-, given⟩
          cases given
          exact ⟨_, rfl, rfl⟩

def toyFresh (transactions : List Bytes) : Block Nat Nat where
  state := ⟨5, []⟩
  precommit := ⟨5, []⟩
  previous := { storedHeader 2 2 3 with stateRoot := 5 }
  transactions

theorem toyFresh_fresh (p : Permanence) (calls : List (List H256 × Bytes)) :
    Fresh toyStorage p 5 calls
      (toyFresh (if p = .committed then [] else calls.map (·.2))).uncommitToSeal :=
  ⟨rfl, rfl, rfl, rfl, rfl⟩

def secondIdle : Executor Nat Nat := fun _ _ t s =>
  some (if t = [1] then { s with cache := [(7, 1)] } else s, ⟨0, [], 0⟩)

/-- Both virtual machines commit what the first transaction changes, and the second changes
nothing. -/
theorem from_pending_later : ∃ built : Block Nat Nat,
    executes toyStorage secondIdle .dual .committed [([], [1]), ([], [2])] (toyFresh []) =
      .ok built ∧
      ∃ s, built.fromPending toyStorage 2 = .ok s ∧ Same toyStorage s ⟨6, []⟩ := by
  have ran : executes toyStorage secondIdle .dual .committed [([], [1]), ([], [2])]
      (toyFresh []) = .ok { toyFresh [[1], [2]] with
        state := ⟨6, []⟩, receipts := [⟨5, 0, 0, 0, []⟩, ⟨6, 0, 0, 0, []⟩] } := by
    rfl
  refine ⟨_, ran, ?_⟩
  rcases from_pending_iff toyStorage secondIdle .dual .committed (fun _ => rfl)
    (fun _ _ t _ _ _ result => by cases result; split <;> rfl) (.inl rfl) 5
    [([], [1]), ([], [2])] (toyFresh []) _ (toyFresh_fresh .committed [([], [1]), ([], [2])]) ran 2
    le_rfl with ⟨after, run, shown⟩
  cases run
  exact shown.mpr ⟨fun both => absurd both.2 (by decide), rfl⟩

/-- After a transaction that changes an account the state is still that of the start. -/
theorem from_pending_stale :
    ¬ ∀ (p : Permanence) (calls : List (List H256 × Bytes)) (b built : Block Nat Nat),
    p = .committed ∨ p = .onlyReceipt → Fresh toyStorage p 5 calls b.uncommitToSeal →
      executes toyStorage toyExecutor .interpreter p calls b = .ok built →
      ∀ i ≤ built.transactions.length,
        ∃ after, executes toyStorage toyExecutor .interpreter p (calls.take i) b.uncommitToSeal =
          .ok after ∧
          ∃ s, built.fromPending toyStorage i = .ok s ∧ Same toyStorage s after.state := by
  intro givesPending
  have ran : executes toyStorage toyExecutor .interpreter .committed [([], [1])] (toyFresh []) = .ok
      { toyFresh [[1]] with state := ⟨5, [(7, 1)]⟩, receipts := [⟨5, 0, 0, 0, []⟩] } := by
    rfl
  rcases givesPending .committed [([], [1])] (toyFresh []) _ (.inl rfl)
    (toyFresh_fresh .committed [([], [1])]) ran 1
    (by decide) with ⟨after, run, s, given, same⟩
  cases given
  cases run
  have sum : 5 = 5 + 1 := same
  cases sum

end Block

end UtispaceChain
