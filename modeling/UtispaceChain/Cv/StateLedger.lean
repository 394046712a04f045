import UtispaceChain.Cv.Ledger

/-! A `State` and the ledger it shows: every operation on the one is the operation on the other. -/

namespace UtispaceChain

namespace Accounts

open Ledger

def Account.holding (acc : Account) : Holding := ⟨acc.isAlive, acc.record⟩

namespace Account

variable (acc : Account)

theorem addBalance_holding (amount : U256) :
    (acc.addBalance amount).holding = acc.holding.addBalance amount := rfl

theorem incNonce_holding : acc.incNonce.holding = acc.holding.setNonce (acc.nonce + 1) := rfl

theorem resetCode_holding : acc.resetCode.holding = acc.holding.resetCode := rfl

theorem untouch_holding : acc.untouch.holding = acc.holding := rfl

theorem loaded_holding (r : Record) : (loaded r).holding = ⟨true, r⟩ := rfl

theorem isEmpty_holding : acc.holding.isEmpty = acc.isEmpty := rfl

theorem setStorage_holding (key value : U256) :
    (acc.setStorage key value).holding = acc.holding.setStorage key value := by
  simp only [holding, Holding.setStorage, record, setStorage, Holding.mk.injEq, Record.mk.injEq,
    true_and, and_true]
  funext x
  by_cases hx : x = key <;> simp [hx]

theorem setStorageCache_holding (key : U256) (h : acc.storageOverlay key = none) :
    (acc.setStorageCache key (acc.storageRoot key)).holding = acc.holding := by
  simp only [holding, record, setStorageCache, Holding.mk.injEq, Record.mk.injEq,
    true_and, and_true]
  funext x
  by_cases hx : x = key <;> simp [hx, h]

end Account

namespace State

def ledger (s : State) : Ledger where
  trie := s.trie
  holding a :=
    match s.cache a with
    | some acc => some acc.holding
    | none => (s.trie a).map (Holding.mk true)
  isChanged a := (s.cache a).elim false Account.isDirty
  changeLog := s.changeLog
  accountStartNonce := s.accountStartNonce

/-- The ledger of the state, and that an account remembered as missing is not there. -/
structure Shows (s : State) (l : Ledger) : Prop where
  ledger : s.ledger = l
  missing : ∀ a ∈ s.nonExistingAccountsCache, l.trie a = none ∧ ∀ h, l.holding a = some h →
    h.isAlive = false

variable {s s' : State} {l : Ledger} {a : Nat} {acc : Account}

theorem ledger_holding_some (ha : s.cache a = some acc) :
    s.ledger.holding a = some acc.holding := by
  simp [ledger, ha]

theorem ledger_holding_none (ha : s.cache a = none) :
    s.ledger.holding a = (s.trie a).map (Holding.mk true) := by
  simp [ledger, ha]

theorem ledger_isChanged (ha : s.cache a = some acc) : s.ledger.isChanged a = acc.isDirty := by
  simp [ledger, ha]

theorem ledger_put (hd : acc.isDirty = true) :
    (s.put a acc).ledger = s.ledger.put a acc.holding := by
  simp only [put, ledger, Ledger.put, Ledger.mk.injEq, true_and, and_true]
  constructor <;> funext x <;> by_cases hx : x = a <;> simp [hx, hd]

theorem ledger_note {kind : ChangeKind} : (s.note kind a).ledger = s.ledger.note kind a := rfl

theorem ledger_put_same {old : Account} (ha : s.cache a = some old) (hh : acc.holding = old.holding)
    (hd : acc.isDirty = old.isDirty) : (s.put a acc).ledger = s.ledger := by
  simp only [put, ledger, Ledger.mk.injEq, true_and, and_true]
  constructor <;> funext x <;> by_cases hx : x = a <;> simp [hx, hd, hh, ha]

theorem ledger_drop (hl : s.ledger.Consistent) (ha : s.cache a = some acc)
    (hd : acc.isDirty = false) :
    ({ s with cache := Function.update s.cache a none } : State).ledger = s.ledger := by
  have same := hl.unchanged a (by simp [ledger_isChanged ha, hd])
  rw [ledger_holding_some ha] at same
  simp only [ledger, Ledger.mk.injEq, true_and, and_true]
  constructor <;> funext x <;> by_cases hx : x = a
  · simp only [hx, Function.update_self, ha]
    exact same.symm
  · simp [hx]
  · simp [hx, ha, hd]
  · simp [hx]

theorem dropRandom_ledger (hl : s.ledger.Consistent) : s.dropRandom.ledger = s.ledger := by
  unfold dropRandom
  dsimp only
  split
  · rfl
  case h_2 acc ha =>
    split
    · rfl
    case isFalse hd => exact ledger_drop hl ha (by simpa using hd)

theorem dropRandom_cache (ha : s.cache a = none) : s.dropRandom.cache a = none := by
  unfold dropRandom
  dsimp only
  generalize s.unchangedCacheEntries.getD (s.engine 0 % s.unchangedCacheEntries.length) 0 = addr
  cases hc : s.cache addr with
  | none => simpa [hc] using ha
  | some acc =>
      by_cases hd : acc.isDirty = true
      · simpa [hc, hd] using ha
      · by_cases hx : a = addr
        · simp [hd, hx]
        · simpa [hd, hx] using ha

theorem clearCacheIfTooLarge_shows (hs : s.Shows l) (hl : l.Consistent) :
    s.clearCacheIfTooLarge.Shows l := by
  unfold clearCacheIfTooLarge
  generalize s.unchangedCacheEntries.length - 1000 = n
  induction n generalizing s with
  | zero => exact hs
  | succ n ih =>
      rw [Function.iterate_succ_apply]
      refine ih ⟨?_, hs.missing⟩
      rw [dropRandom_ledger (hs.ledger ▸ hl), hs.ledger]

theorem clearCacheIfTooLarge_cache (ha : s.cache a = none) :
    s.clearCacheIfTooLarge.cache a = none := by
  unfold clearCacheIfTooLarge
  generalize s.unchangedCacheEntries.length - 1000 = n
  induction n generalizing s with
  | zero => exact ha
  | succ n ih =>
      rw [Function.iterate_succ_apply]
      exact ih (dropRandom_cache ha)

theorem account_shows (hs : s.Shows l) (hl : l.Consistent) (a : Nat) :
    (s.account a).2.Shows l ∧ (s.account a).2.cache a = (s.account a).1 ∧
      (s.account a).1.map Account.holding = l.holding a := by
  have hs' := hs.ledger
  unfold account
  split
  case h_1 acc ha => exact ⟨hs, ha, by simp [← hs', ledger_holding_some ha]⟩
  case h_2 ha =>
    have held : l.holding a = (l.trie a).map (Holding.mk true) := by
      rw [← hs', ledger_holding_none ha]
      rfl
    have trie : s.trie = l.trie := by simp [← hs', ledger]
    split
    case isTrue hm => exact ⟨hs, ha, by simp [held, (hs.missing a hm).1]⟩
    case isFalse =>
      rw [trie]
      split
      case h_1 ht =>
        refine ⟨⟨by rw [← hs']; rfl, fun x hx => ?_⟩, ha, by simp [held, ht]⟩
        rcases Finset.mem_insert.mp hx with rfl | hx
        · simp [held, ht]
        · exact hs.missing x hx
      case h_2 r ht =>
        have hc := clearCacheIfTooLarge_shows hs hl
        have hca := clearCacheIfTooLarge_cache ha
        generalize s.clearCacheIfTooLarge = s₁ at hc hca
        have trie₁ : s₁.trie = l.trie := by simp [← hc.ledger, ledger]
        refine ⟨⟨?_, hc.missing⟩, by simp [put], by simp [held, ht, Account.loaded_holding]⟩
        rw [← hc.ledger]
        simp only [put, ledger, Ledger.mk.injEq, true_and, and_true]
        constructor <;> funext x <;> by_cases hx : x = a
        · simp [hx, hca, trie₁, ht, Account.loaded_holding]
        · simp [hx]
        · simp [hx, hca, Account.isDirty, Account.loaded]
        · simp [hx]

theorem put_shows (hs : s.Shows l) (hd : acc.isDirty = true)
    (hm : a ∈ s.nonExistingAccountsCache → acc.isAlive = false) :
    (s.put a acc).Shows (l.put a acc.holding) where
  ledger := by rw [ledger_put hd, hs.ledger]
  missing x hx := by
    obtain ⟨ht, hh⟩ := hs.missing x hx
    refine ⟨ht, fun h e => ?_⟩
    by_cases hxa : x = a
    · subst hxa
      rw [put_holding_self] at e
      cases e
      exact hm hx
    · exact hh h (by rwa [put_holding_ne hxa] at e)

theorem put_shows_cached {old : Account} (acc : Account) (hs : s.Shows l)
    (ha : s.cache a = some old) (hd : acc.isDirty = true) (he : acc.isAlive = old.isAlive) :
    (s.put a acc).Shows (l.put a acc.holding) := by
  refine put_shows hs hd fun hm => ?_
  rw [he]
  exact (hs.missing a hm).2 old.holding (by rw [← hs.ledger, ledger_holding_some ha])

theorem note_shows {kind : ChangeKind} (hs : s.Shows l) : (s.note kind a).Shows (l.note kind a) :=
  ⟨by rw [ledger_note, hs.ledger], hs.missing⟩

theorem createAccount_shows {nonce balance : U256} (hs : s.Shows l) :
    Option.Rel Shows (s.createAccount a nonce balance) (l.createAccount a nonce balance) := by
  have start : s.accountStartNonce = l.accountStartNonce := by simp [← hs.ledger, ledger]
  unfold createAccount Ledger.createAccount
  rw [start]
  split
  · exact .none
  · refine .some (note_shows ⟨?_, fun x hx => ?_⟩)
    · have key : (s.put a (.created nonce balance)).ledger = _ := ledger_put rfl
      rw [hs.ledger] at key
      exact key
    · obtain ⟨hxa, hx⟩ := Finset.mem_erase.mp hx
      simpa [put_holding_ne hxa] using hs.missing x hx

theorem account_cases (hs : s.Shows l) (hl : l.Consistent) (a : Nat) :
    (∃ acc s₁, s.account a = (some acc, s₁) ∧ s₁.Shows l ∧ s₁.cache a = some acc ∧
      l.holding a = some acc.holding ∧ l.isChanged a = acc.isDirty) ∨
    (∃ s₁, s.account a = (none, s₁) ∧ s₁.Shows l ∧ s₁.cache a = none ∧ l.holding a = none) := by
  obtain ⟨h₁, h₂, h₃⟩ := account_shows hs hl a
  rcases e : s.account a with ⟨_ | acc, s₁⟩ <;> rw [e] at h₁ h₂ h₃
  · exact .inr ⟨s₁, rfl, h₁, h₂, h₃.symm⟩
  · refine .inl ⟨acc, s₁, rfl, h₁, h₂, h₃.symm, ?_⟩
    rw [← h₁.ledger, ledger_isChanged h₂]

theorem incNonce_shows (hs : s.Shows l) (hl : l.Consistent) :
    Option.Rel Shows (s.incNonce a) (l.incNonce a) := by
  have start : s.accountStartNonce = l.accountStartNonce := by simp [← hs.ledger, ledger]
  unfold incNonce Ledger.incNonce
  rcases account_cases hs hl a with ⟨acc, s₁, e, h₁, hc, hh, -⟩ | ⟨s₁, e, h₁, hc, hh⟩
  · simp only [e, hh]
    exact .some (note_shows (put_shows_cached _ h₁ hc rfl rfl))
  · have start₁ : s₁.accountStartNonce = l.accountStartNonce := by simp [← h₁.ledger, ledger]
    simp only [e, hh, start₁]
    exact createAccount_shows h₁

theorem noteBalance_shows {amount : U256} (hs : s.Shows l) :
    (s.noteBalance a amount).Shows (l.noteBalance a amount) := by
  unfold noteBalance Ledger.noteBalance
  split
  · exact hs
  · exact note_shows hs

theorem rel_map {α β γ δ : Type} {r : α → β → Prop} {q : γ → δ → Prop} {x : Option α} {y : Option β}
    {f : α → γ} {g : β → δ} (h : Option.Rel r x y)
    (hf : ∀ u v, x = some u → y = some v → r u v → q (f u) (g v)) :
    Option.Rel q (x.map f) (y.map g) := by
  cases h with
  | some h => exact .some (hf _ _ rfl rfl h)
  | none => exact .none

theorem rel_bind {α β γ δ : Type} {r : α → β → Prop} {q : γ → δ → Prop} {x : Option α}
    {y : Option β} {f : α → Option γ} {g : β → Option δ} (h : Option.Rel r x y)
    (hf : ∀ u v, x = some u → y = some v → r u v → Option.Rel q (f u) (g v)) :
    Option.Rel q (x.bind f) (y.bind g) := by
  cases h with
  | some h => exact hf _ _ rfl rfl h
  | none => exact .none

theorem addBalance_shows {amount : U256} (hs : s.Shows l) (hl : l.Consistent) :
    Option.Rel Shows (s.addBalance a amount) (l.addBalance a amount) := by
  unfold addBalance Ledger.addBalance
  rcases account_cases hs hl a with ⟨acc, s₁, e, h₁, hc, hh, hd⟩ | ⟨s₁, e, h₁, hc, hh⟩
  · simp only [e, hh, noteTouch, hd, acc.isEmpty_holding]
    refine .some (noteBalance_shows ?_)
    split
    · exact put_shows_cached _ (note_shows h₁) hc rfl rfl
    · exact put_shows_cached _ h₁ hc rfl rfl
  · have start₁ : s₁.accountStartNonce = l.accountStartNonce := by simp [← h₁.ledger, ledger]
    simp only [e, hh, start₁]
    exact rel_map (createAccount_shows h₁) fun _ _ _ _ h => noteBalance_shows h

theorem subBalance_shows {value : U256} (hs : s.Shows l) (hl : l.Consistent) :
    Option.Rel Shows (s.subBalance a value) (l.subBalance a value) := by
  unfold subBalance Ledger.subBalance
  split
  · exact .some hs
  · rcases account_cases hs hl a with ⟨acc, s₁, e, h₁, hc, hh, -⟩ | ⟨s₁, e, h₁, hc, hh⟩
    · simp only [e, hh]
      change Option.Rel Shows (if acc.balance < value then none else _) (if acc.balance < value then
        none else _)
      split
      · exact .none
      · exact addBalance_shows h₁ hl
    · simp only [e, hh]
      exact .none

theorem transferBalance_shows (sender receiver : Nat) (value : U256) (hs : s.Shows l)
    (hl : l.Consistent) :
    Option.Rel Shows (s.transferBalance sender receiver value)
      (l.transferBalance sender receiver value) :=
  rel_bind (subBalance_shows hs hl) fun _ _ _ e h =>
    addBalance_shows h (subBalance_undoable (.refl hl) e).consistent

theorem storage_shows (a : Nat) (key : U256) (hs : s.Shows l) (hl : l.Consistent) :
    (s.storage a key).1 = l.storage a key ∧ (s.storage a key).2.Shows l ∧
      ((s.storage a key).2.cache a).map Account.holding = l.holding a := by
  unfold storage Ledger.storage
  rcases account_cases hs hl a with ⟨acc, s₁, e, h₁, hc, hh, -⟩ | ⟨s₁, e, h₁, hc, hh⟩
  · simp only [e, hh]
    split
    case h_1 value ho => exact ⟨by simp [Account.holding, Account.record, ho], h₁, by simp [hc]⟩
    case h_2 ho =>
      have same := acc.setStorageCache_holding key ho
      refine ⟨by simp [Account.holding, Account.record, ho], ⟨?_, h₁.missing⟩, by simp [put, same]⟩
      rw [ledger_put_same hc same rfl, h₁.ledger]
  · simp [e, hh, h₁, hc]

theorem getD_holding {x : Option Account} {y : Option Holding} (h : x.map Account.holding = y) :
    (x.getD {}).holding = y.getD .dead := by
  subst h
  cases x <;> rfl

theorem setStorage_shows {key value : U256} (hs : s.Shows l) (hl : l.Consistent) :
    (s.setStorage a key value).Shows (l.setStorage a key value) := by
  obtain ⟨h₁, h₂, h₃⟩ := storage_shows a key hs hl
  unfold setStorage Ledger.setStorage
  rcases e : s.storage a key with ⟨old, s₁⟩
  rw [e] at h₁ h₂ h₃
  simp only at h₁ h₂ h₃
  subst h₁
  rw [← getD_holding h₃, ← Account.setStorage_holding]
  refine put_shows (note_shows h₂) rfl fun hm => ?_
  cases hc : s₁.cache a with
  | none => simp [Account.setStorage, note, hc]
  | some acc =>
      have gone : acc.isAlive = false :=
        (h₂.missing a hm).2 acc.holding (by rw [← h₂.ledger, ledger_holding_some hc])
      simpa [Account.setStorage, note, hc] using gone

theorem cached_of_changed (hs : s.Shows l) (ha : l.isChanged a = true) :
    ∃ acc, s.cache a = some acc ∧ acc.isDirty = true ∧ l.holding a = some acc.holding := by
  rw [← hs.ledger] at ha ⊢
  cases hc : s.cache a with
  | none => simp [ledger, hc] at ha
  | some acc => exact ⟨acc, rfl, by rwa [ledger_isChanged hc] at ha, ledger_holding_some hc⟩

theorem setNewCode_shows {code : Code} (hs : s.Shows l) (ha : l.isChanged a = true) :
    (s.setNewCode a code).Shows (l.setNewCode a code.hash) := by
  obtain ⟨acc, hc, hd, hh⟩ := cached_of_changed hs ha
  unfold setNewCode Ledger.setNewCode
  rw [hc, hh]
  exact note_shows (put_shows_cached _ hs hc hd rfl)

theorem kill_shows (hs : s.Shows l) (hl : l.Consistent) : (s.kill a).Shows (l.kill a) := by
  unfold kill Ledger.kill
  rcases account_cases hs hl a with ⟨acc, s₁, e, h₁, hc, hh, -⟩ | ⟨s₁, e, h₁, hc, hh⟩
  · simp only [e, hh]
    exact put_shows h₁ rfl fun _ => rfl
  · simp only [e, hh]
    exact h₁

theorem undo_shows {c : Change} (hs : s.Shows l) (hc : CanUndo c l) :
    (s.undo c).Shows (l.undo c) := by
  obtain ⟨acc, ha, hd, hh⟩ := cached_of_changed hs hc.changed
  obtain ⟨kind, x⟩ := c
  simp only at ha hh
  cases kind with
  | create =>
      have ht : s.trie x = none := by
        have key := hc.created rfl
        rwa [← hs.ledger] at key
      refine ⟨?_, fun y hy => ⟨(hs.missing y hy).1, fun h e => ?_⟩⟩
      · rw [← hs.ledger]
        simp only [undo, ChangeKind.undone, ledger, Ledger.undo, reduceCtorEq, if_false,
          Ledger.mk.injEq, true_and, and_true]
        constructor <;> funext y <;> by_cases hy : y = x <;> simp [hy, ht]
      · by_cases hyx : y = x
        · simp [hyx, Ledger.undo] at e
        · exact (hs.missing y hy).2 h (by rwa [undo_holding_ne hyx] at e)
  | touch =>
      refine ⟨?_, hs.missing⟩
      rw [← hs.ledger]
      simp only [undo, ChangeKind.undone, ledger, Ledger.undo, if_true, Ledger.mk.injEq, true_and,
        and_true, ha, Option.getD_some]
      constructor <;> funext y <;> by_cases hy : y = x
      · simp [hy, ha, acc.untouch_holding]
      · simp [hy]
      · simp [hy, Account.isDirty, Account.untouch]
      · simp [hy]
  | storage key value =>
      have key := put_shows_cached (acc.setStorage key value) hs ha rfl rfl
      simpa [undo, put, Ledger.undo, ChangeKind.undone, ChangeKind.rewound, ha, hh,
        Account.setStorage_holding] using key
  | balance value =>
      have key := put_shows_cached (acc.addBalance (0 - value)) hs ha rfl rfl
      simpa [undo, put, Ledger.undo, ChangeKind.undone, ChangeKind.rewound, ha, hh,
        Account.addBalance_holding] using key
  | nonce =>
      have key := put_shows_cached (acc.setNonce (acc.nonce - 1)) hs ha rfl rfl
      have same : (acc.setNonce (acc.nonce - 1)).holding =
          acc.holding.setNonce (acc.holding.record.nonce - 1) := rfl
      rw [same] at key
      simpa [undo, put, Ledger.undo, ChangeKind.undone, ChangeKind.rewound, ha, hh] using key
  | newCode =>
      have key := put_shows_cached acc.resetCode hs ha hd rfl
      simpa [undo, put, Ledger.undo, ChangeKind.undone, ChangeKind.rewound, ha, hh,
        Account.resetCode_holding] using key

theorem rollbackFrom_shows {base : Ledger} {log : List Change} (hu : Undoable base log l)
    (hs : s.Shows l) :
    (s.rollbackFrom base.changeLog.length log).Shows
      (l.rollbackFrom base.changeLog.length log) := by
  induction hu generalizing s with
  | restored _ _ =>
      cases base.changeLog with
      | nil => exact ⟨by rw [Ledger.rollbackFrom, ← hs.ledger]; rfl, hs.missing⟩
      | cons c older =>
          simp only [rollbackFrom, Ledger.rollbackFrom, List.length_cons, if_true]
          exact ⟨by rw [← hs.ledger]; rfl, hs.missing⟩
  | @change l c log _ hc hu ih =>
      have long := hu.length_le
      simp only [rollbackFrom, Ledger.rollbackFrom]
      rw [if_neg (by omega), if_neg (by omega)]
      exact ih (undo_shows hs hc)

theorem rollback_shows {base : Ledger} (hu : Undoable base l.changeLog l) (hs : s.Shows l) :
    (s.rollback base.changeLog.length).Shows (l.rollback base.changeLog.length) := by
  have log : s.changeLog = l.changeLog := by simp [← hs.ledger, ledger]
  unfold rollback Ledger.rollback
  rw [log]
  exact rollbackFrom_shows hu hs

end State

open State

variable {s : State} {l : Ledger}

theorem Op.apply_shows (o : Op) (hs : s.Shows l) (hl : l.Consistent) :
    Option.Rel Shows (o.apply s) (o.onLedger l) := by
  cases o with
  | addBalance a amount => exact addBalance_shows hs hl
  | subBalance a value => exact subBalance_shows hs hl
  | transferBalance sender receiver value => exact transferBalance_shows _ _ _ hs hl
  | incNonce a => exact incNonce_shows hs hl
  | setStorage a key value => exact .some (setStorage_shows hs hl)
  | account a => exact .some (account_shows hs hl a).1
  | storage a key => exact .some (storage_shows a key hs hl).2.1

theorem Ops.run_shows (ops : Ops) (hs : s.Shows l) (hl : l.Consistent) :
    Option.Rel Shows (ops.run s) (ops.onLedger l) := by
  induction ops generalizing s l with
  | done => exact .some hs
  | op o rest ih =>
      exact rel_bind (o.apply_shows hs hl) fun _ _ _ e h =>
        ih h (o.onLedger_undoable (.refl hl) e).consistent
  | call body reverts rest ihb ih =>
      have log : s.changeLog = l.changeLog := by simp [← hs.ledger, State.ledger]
      refine rel_bind (ihb hs hl) fun after after' _ e h => ?_
      have hu := body.onLedger_undoable hl e
      cases reverts with
      | false => exact ih h hu.consistent
      | true =>
          simp only [if_true, log]
          exact ih (rollback_shows hu h) hu.rollback.consistent
  | create sender newAddress endowment init code reverts rest ihi ih =>
      refine rel_bind (incNonce_shows hs hl) fun s₁ l₁ _ e₁ hs₁ => ?_
      have hl₁ := (incNonce_undoable (.refl hl) e₁).consistent
      have log : s₁.changeLog = l₁.changeLog := by simp [← hs₁.ledger, State.ledger]
      have called := rel_bind (transferBalance_shows sender newAddress endowment hs₁ hl₁)
        fun _ _ _ e h =>
          ihi h (transferBalance_undoable (.refl hl₁) e).1.consistent
      refine rel_bind called fun s₃ l₃ _ e₃ hs₃ => ?_
      obtain ⟨l₂, e₂, e₃⟩ := Option.bind_eq_some_iff.mp e₃
      obtain ⟨u₂, new⟩ := transferBalance_undoable (.refl hl₁) e₂
      have u₃ := init.onLedger_undoable u₂.consistent e₃
      have changed := u₃.keeps_changed new
      have u₄ := deployed_undoable code (u₂.trans u₃) changed
      have hs₄ : (code.elim s₃ fun code => s₃.setNewCode newAddress code).Shows
          (code.elim l₃ fun code => l₃.setNewCode newAddress code.hash) := by
        cases code with
        | none => exact hs₃
        | some code => exact setNewCode_shows hs₃ changed
      cases reverts with
      | false => exact ih hs₄ u₄.consistent
      | true =>
          simp only [if_true, log]
          exact ih (rollback_shows u₄ hs₄) u₄.rollback.consistent

end Accounts

end UtispaceChain
