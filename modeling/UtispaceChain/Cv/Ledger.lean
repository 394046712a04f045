import Mathlib.Logic.Function.Iterate
import UtispaceChain.Cv.State

/-! What readers of a `State` see of the accounts. The cache keeps it: loading, evicting and
remembering values are not seen, and a rollback takes back what was done since the savepoint. -/

namespace UtispaceChain

namespace Accounts

/-- An account as it is read, from the cache or else from the trie. -/
@[ext] structure Holding where
  isAlive : Bool
  record : Record

namespace Holding

variable (h : Holding)

def dead : Holding := ⟨false, ⟨0, 0, fun _ => 0, EmptySHA3⟩⟩

def isEmpty : Bool :=
  decide (h.record.nonce = 0) && decide (h.record.balance = 0) &&
  decide (h.record.codeHash = EmptySHA3)

def addBalance (value : U256) : Holding := { h with record.balance := h.record.balance + value }

def setNonce (nonce : U256) : Holding := { h with record.nonce := nonce }

def setStorage (key value : U256) : Holding :=
  { h with record.storage := Function.update h.record.storage key value }

def setCode (codeHash : H256) : Holding := { h with record.codeHash := codeHash }

def resetCode : Holding := h.setCode EmptySHA3

def live (h : Holding) : Option Record := if h.isAlive then some h.record else none

end Holding

def ChangeKind.rewound : ChangeKind → Holding → Holding
  | .storage key value, h => h.setStorage key value
  | .balance value, h => h.addBalance (0 - value)
  | .nonce, h => h.setNonce (h.record.nonce - 1)
  | .newCode, h => h.resetCode
  | .create, h => h
  | .touch, h => h

@[ext] structure Ledger where
  trie : Nat → Option Record
  holding : Nat → Option Holding
  isChanged : Nat → Bool
  changeLog : List Change
  accountStartNonce : U256

namespace Ledger

def put (a : Nat) (h : Holding) (l : Ledger) : Ledger :=
  { l with holding := Function.update l.holding a (some h), isChanged :=
    Function.update l.isChanged a true }

def note (kind : ChangeKind) (a : Nat) (l : Ledger) : Ledger :=
  { l with changeLog := ⟨kind, a⟩ :: l.changeLog }

def createAccount (a : Nat) (nonce balance : U256) (l : Ledger) : Option Ledger :=
  if l.accountStartNonce = BitVec.allOnes 256 then none
  else some ((l.put a ⟨true, ⟨nonce, balance, fun _ => 0, EmptySHA3⟩⟩).note .create a)

def incNonce (a : Nat) (l : Ledger) : Option Ledger :=
  match l.holding a with
  | some h => some ((l.put a (h.setNonce (h.record.nonce + 1))).note .nonce a)
  | none => l.createAccount a (l.accountStartNonce + 1) 0

def noteBalance (a : Nat) (amount : U256) (l : Ledger) : Ledger :=
  if amount = 0 then l else l.note (.balance amount) a

def noteTouch (a : Nat) (h : Holding) (l : Ledger) : Ledger :=
  if !l.isChanged a && h.isEmpty then l.note .touch a else l

def addBalance (a : Nat) (amount : U256) (l : Ledger) : Option Ledger :=
  match l.holding a with
  | some h => some (((l.noteTouch a h).put a (h.addBalance amount)).noteBalance a amount)
  | none => (l.createAccount a l.accountStartNonce amount).map (noteBalance a amount)

def subBalance (a : Nat) (value : U256) (l : Ledger) : Option Ledger :=
  if value = 0 then some l
  else
    match l.holding a with
    | none => none
    | some h => if h.record.balance < value then none else l.addBalance a (0 - value)

def transferBalance (sender receiver : Nat) (value : U256) (l : Ledger) : Option Ledger :=
  (l.subBalance sender value).bind (addBalance receiver value)

def storage (a : Nat) (key : U256) (l : Ledger) : U256 :=
  (l.holding a).elim 0 fun h => h.record.storage key

def setStorage (a : Nat) (key value : U256) (l : Ledger) : Ledger :=
  (l.note (.storage key (l.storage a key)) a).put a
    (((l.holding a).getD .dead).setStorage key value)

def setNewCode (a : Nat) (codeHash : H256) (l : Ledger) : Ledger :=
  (l.put a (((l.holding a).getD .dead).setCode codeHash)).note .newCode a

def kill (a : Nat) (l : Ledger) : Ledger :=
  match l.holding a with
  | none => l
  | some _ => l.put a .dead

def undo (c : Change) (l : Ledger) : Ledger :=
  match c.kind with
  | .create =>
      { l with
        holding := Function.update l.holding c.address none
        isChanged := Function.update l.isChanged c.address false }
  | .touch => { l with isChanged := Function.update l.isChanged c.address false }
  | kind => l.put c.address (kind.rewound ((l.holding c.address).getD .dead))

def rollbackFrom (savepoint : Nat) : List Change → Ledger → Ledger
  | [], l => { l with changeLog := [] }
  | c :: older, l =>
      if older.length + 1 = savepoint then { l with changeLog := c :: older }
      else rollbackFrom savepoint older (l.undo c)

def rollback (savepoint : Nat) (l : Ledger) : Ledger := l.rollbackFrom savepoint l.changeLog

/-- An account that has not been changed is as the trie has it. -/
structure Consistent (l : Ledger) : Prop where
  unchanged : ∀ a, l.isChanged a = false → l.holding a = (l.trie a).map (Holding.mk true)
  held : ∀ a, l.isChanged a = true → l.holding a ≠ none

end Ledger

def Op.onLedger : Op → Ledger → Option Ledger
  | .addBalance a amount, l => l.addBalance a amount
  | .subBalance a value, l => l.subBalance a value
  | .transferBalance sender receiver value, l => l.transferBalance sender receiver value
  | .incNonce a, l => l.incNonce a
  | .setStorage a key value, l => some (l.setStorage a key value)
  | .account _, l => some l
  | .storage _ _, l => some l

def Ops.onLedger : Ops → Ledger → Option Ledger
  | .done, l => some l
  | .op o rest, l => (o.onLedger l).bind rest.onLedger
  | .call body reverts rest, l =>
      (body.onLedger l).bind fun after =>
        rest.onLedger (if reverts then after.rollback l.changeLog.length else after)
  | .create sender newAddress endowment init code reverts rest, l =>
      (l.incNonce sender).bind fun l =>
        ((l.transferBalance sender newAddress endowment).bind init.onLedger).bind fun after =>
          let after := code.elim after fun code => after.setNewCode newAddress code.hash
          rest.onLedger (if reverts then after.rollback l.changeLog.length else after)

def Tx.onLedger (tx : Tx) (l : Ledger) : Option Ledger :=
  (tx.body.onLedger l).map fun l => tx.suicides.foldl (fun l a => l.kill a) l

namespace Ledger

variable {l m n base : Ledger} {a : Nat} {h h' : Holding} {c : Change} {log : List Change}

@[simp] theorem put_trie : (l.put a h).trie = l.trie := rfl

@[simp] theorem put_changeLog : (l.put a h).changeLog = l.changeLog := rfl

@[simp] theorem put_holding_self : (l.put a h).holding a = some h := by simp [put]

@[simp] theorem put_isChanged_self : (l.put a h).isChanged a = true := by simp [put]

theorem put_holding_ne {x : Nat} (hx : x ≠ a) : (l.put a h).holding x = l.holding x := by
  simp [put, hx]

theorem put_isChanged_ne {x : Nat} (hx : x ≠ a) : (l.put a h).isChanged x = l.isChanged x := by
  simp [put, hx]

@[simp] theorem put_put : (l.put a h).put a h' = l.put a h' := by simp [put]

@[simp] theorem note_trie {kind : ChangeKind} : (l.note kind a).trie = l.trie := rfl

@[simp] theorem note_holding {kind : ChangeKind} {x : Nat} :
    (l.note kind x).holding a = l.holding a := rfl

@[simp] theorem note_isChanged {kind : ChangeKind} {x : Nat} :
    (l.note kind x).isChanged a = l.isChanged a := rfl

@[simp] theorem note_changeLog {kind : ChangeKind} :
    (l.note kind a).changeLog = ⟨kind, a⟩ :: l.changeLog := rfl

theorem note_put {kind : ChangeKind} {x : Nat} :
    (l.note kind x).put a h = (l.put a h).note kind x := rfl

@[simp] theorem undo_trie : (l.undo c).trie = l.trie := by
  unfold undo
  split <;> rfl

theorem undo_holding_ne (ha : a ≠ c.address) : (l.undo c).holding a = l.holding a := by
  unfold undo
  split <;> simp [put, ha]

theorem undo_isChanged_ne (ha : a ≠ c.address) : (l.undo c).isChanged a = l.isChanged a := by
  unfold undo
  split <;> simp [put, ha]

theorem consistent_put (hl : l.Consistent) : (l.put a h).Consistent := by
  constructor
  · intro x hx
    by_cases hxa : x = a
    · simp [hxa] at hx
    · rw [put_isChanged_ne hxa] at hx
      rw [put_holding_ne hxa]
      exact hl.unchanged x hx
  · intro x hx
    by_cases hxa : x = a
    · simp [hxa]
    · rw [put_isChanged_ne hxa] at hx
      rw [put_holding_ne hxa]
      exact hl.held x hx

theorem consistent_note {kind : ChangeKind} (hl : l.Consistent) : (l.note kind a).Consistent :=
  ⟨hl.unchanged, hl.held⟩

theorem Consistent.not_changed (hl : l.Consistent) (ha : l.holding a = none) :
    l.isChanged a = false := by
  by_contra hc
  exact hl.held a (by simpa using hc) ha

theorem Consistent.trie_none (hl : l.Consistent) (ha : l.holding a = none) : l.trie a = none := by
  have key := hl.unchanged a (hl.not_changed ha)
  rw [ha] at key
  simpa using key.symm

/-- The accounts are as before, but more of them may be marked as changed; such a one may have lost
its code, and may have come to be held, as a dead account does that has been written to. -/
structure Restores (l m : Ledger) : Prop where
  trie : m.trie = l.trie
  changed : ∀ a, l.isChanged a = true → m.isChanged a = true
  held : ∀ a, m.isChanged a = true → m.holding a ≠ none
  holding : ∀ a, m.holding a = l.holding a ∨
    (m.isChanged a = true ∧
      (m.holding a = (l.holding a).map Holding.resetCode ∨ l.holding a = none))

theorem Restores.refl (hl : l.Consistent) : l.Restores l :=
  ⟨rfl, fun _ h => h, hl.held, fun _ => .inl rfl⟩

theorem Restores.trans (h₁ : l.Restores m) (h₂ : m.Restores n) : l.Restores n where
  trie := h₂.trie.trans h₁.trie
  changed a ha := h₂.changed a (h₁.changed a ha)
  held := h₂.held
  holding a := by
    rcases h₂.holding a with e₂ | ⟨hn, e₂⟩
    · rcases h₁.holding a with e₁ | ⟨hm, e₁⟩
      · exact .inl (e₂.trans e₁)
      · exact .inr ⟨h₂.changed a hm, e₁.imp_left e₂.trans⟩
    · refine .inr ⟨hn, ?_⟩
      rcases h₁.holding a with e₁ | ⟨hm, e₁ | e₁⟩
      · rwa [e₁] at e₂
      · rcases e₂ with e₂ | e₂
        · refine .inl ?_
          rw [e₂, e₁]
          cases l.holding a <;> rfl
        · exact .inr (by simpa [e₁] using e₂)
      · exact .inr e₁

theorem Restores.consistent (hr : l.Restores m) (hl : l.Consistent) : m.Consistent := by
  refine ⟨fun a ha => ?_, hr.held⟩
  have hla : l.isChanged a = false := by
    by_contra hc
    simp [hr.changed a (by simpa using hc)] at ha
  rcases hr.holding a with e | ⟨hm, -⟩
  · rw [e, hr.trie]
    exact hl.unchanged a hla
  · simp [hm] at ha

theorem Restores.note (hr : l.Restores m) (kind : ChangeKind) (x : Nat) :
    l.Restores (m.note kind x) :=
  ⟨hr.trie, hr.changed, hr.held, hr.holding⟩

theorem restores_put (hl : l.Consistent) (ha : l.holding a = some h)
    (hh : h' = h ∨ h' = h.resetCode) :
    l.Restores (l.put a h') where
  trie := rfl
  changed x hx := by
    by_cases hxa : x = a
    · simp [hxa]
    · rwa [put_isChanged_ne hxa]
  held := (consistent_put hl).held
  holding x := by
    by_cases hxa : x = a
    · subst hxa
      rcases hh with rfl | rfl <;> simp [ha]
    · exact .inl (put_holding_ne hxa)

structure CanUndo (c : Change) (l : Ledger) : Prop where
  changed : l.isChanged c.address = true
  created : c.kind = .create → l.trie c.address = none
  touched : c.kind = .touch → ∃ r, l.trie c.address = some r ∧ r.codeHash = EmptySHA3 ∧
    l.holding c.address = some ⟨true, r⟩

theorem Restores.canUndo (hr : l.Restores m) (hl : l.Consistent) (hc : CanUndo c l) :
    CanUndo c m where
  changed := hr.changed _ hc.changed
  created hk := by rw [hr.trie]; exact hc.created hk
  touched hk := by
    obtain ⟨r, hr₁, hr₂, hr₃⟩ := hc.touched hk
    refine ⟨r, hr.trie ▸ hr₁, hr₂, ?_⟩
    rcases hr.holding c.address with e | ⟨-, e | e⟩
    · rw [e, hr₃]
    · rw [e, hr₃]
      simp [Holding.resetCode, Holding.setCode, ← hr₂]
    · exact absurd e (hl.held _ hc.changed)

theorem rewound_resetCode (kind : ChangeKind) :
    kind.rewound h.resetCode = (kind.rewound h).resetCode := by
  cases kind <;> rfl

theorem undo_of_kind (h₁ : c.kind ≠ .create) (h₂ : c.kind ≠ .touch) :
    l.undo c = l.put c.address (c.kind.rewound ((l.holding c.address).getD .dead)) := by
  unfold undo
  split <;> first | contradiction | rfl

theorem Restores.undo (hr : l.Restores m) (hl : l.Consistent) (hc : CanUndo c l) :
    (l.undo c).Restores (m.undo c) := by
  have off : ∀ x, x ≠ c.address → ((l.undo c).isChanged x = true → (m.undo c).isChanged x = true) ∧
      ((m.undo c).isChanged x = true → (m.undo c).holding x ≠ none) ∧
      ((m.undo c).holding x = (l.undo c).holding x ∨ ((m.undo c).isChanged x = true ∧
        ((m.undo c).holding x = ((l.undo c).holding x).map Holding.resetCode ∨
          (l.undo c).holding x = none))) := by
    intro x hx
    simp only [undo_holding_ne hx, undo_isChanged_ne hx]
    exact ⟨hr.changed x, hr.held x, hr.holding x⟩
  -- at the address of the change, the kinds that leave it unchanged are apart
  have here : ((l.undo c).isChanged c.address = true → (m.undo c).isChanged c.address = true) ∧
      ((m.undo c).isChanged c.address = true → (m.undo c).holding c.address ≠ none) ∧
      ((m.undo c).holding c.address = (l.undo c).holding c.address ∨
        ((m.undo c).isChanged c.address = true ∧
          ((m.undo c).holding c.address = ((l.undo c).holding c.address).map Holding.resetCode ∨
            (l.undo c).holding c.address = none))) := by
    by_cases h₁ : c.kind = .create
    · simp [Ledger.undo, h₁]
    · by_cases h₂ : c.kind = .touch
      · obtain ⟨r, htr, -, hlr⟩ := hc.touched h₂
        obtain ⟨r', htr', -, hmr⟩ := (hr.canUndo hl hc).touched h₂
        have e : r = r' := by
          rw [hr.trie, htr] at htr'
          exact Option.some.inj htr'
        simp [Ledger.undo, h₂, hmr, hlr, e]
      · rw [undo_of_kind h₁ h₂, undo_of_kind h₁ h₂]
        obtain ⟨h, hh⟩ := Option.ne_none_iff_exists'.mp (hl.held _ hc.changed)
        rcases hr.holding c.address with e | ⟨-, e | e⟩
        · simp [e]
        · simp [e, hh, rewound_resetCode]
        · simp [e] at hh
  refine ⟨by simp [hr.trie], fun x => ?_, fun x => ?_, fun x => ?_⟩
  · by_cases hx : x = c.address
    · exact hx ▸ here.1
    · exact (off x hx).1
  · by_cases hx : x = c.address
    · exact hx ▸ here.2.1
    · exact (off x hx).2.1
  · by_cases hx : x = c.address
    · exact hx ▸ here.2.2
    · exact (off x hx).2.2

/-- Taking back the changes of the log, down to the log of `base`, restores it. -/
inductive Undoable (base : Ledger) : List Change → Ledger → Prop
  | restored {l : Ledger} : l.Consistent → base.Restores l → Undoable base base.changeLog l
  | change {l : Ledger} {c : Change} {log : List Change} :
      l.Consistent → CanUndo c l → Undoable base log (l.undo c) → Undoable base (c :: log) l

theorem Undoable.refl (hl : l.Consistent) : Undoable l l.changeLog l := .restored hl (.refl hl)

theorem Undoable.consistent (hu : Undoable base log l) : l.Consistent := by
  cases hu with
  | restored hl _ => exact hl
  | change hl _ _ => exact hl

theorem Undoable.length_le (hu : Undoable base log l) : base.changeLog.length ≤ log.length := by
  induction hu with
  | restored _ _ => exact le_rfl
  | change _ _ _ ih => exact Nat.le_succ_of_le ih

theorem Undoable.mono (hu : Undoable base log l) (hr : l.Restores m) : Undoable base log m := by
  induction hu generalizing m with
  | restored hl hb => exact .restored (hr.consistent hl) (hb.trans hr)
  | change hl hc _ ih => exact .change (hr.consistent hl) (hr.canUndo hl hc) (ih (hr.undo hl hc))

theorem Undoable.trans (h₁ : Undoable base l.changeLog l) (h₂ : Undoable l log m) :
    Undoable base log m := by
  induction h₂ with
  | restored _ hr => exact h₁.mono hr
  | change hm hc _ ih => exact .change hm hc ih

theorem Undoable.keeps_changed (hu : Undoable base log l) (ha : base.isChanged a = true) :
    l.isChanged a = true := by
  induction hu with
  | restored _ hr => exact hr.changed a ha
  | @change l c log _ hc _ ih =>
      by_cases hac : a = c.address
      · exact hac ▸ hc.changed
      · rwa [undo_isChanged_ne hac] at ih

theorem Undoable.rollbackFrom (hu : Undoable base log l) :
    Undoable base (l.rollbackFrom base.changeLog.length log).changeLog
      (l.rollbackFrom base.changeLog.length log) ∧
    (l.rollbackFrom base.changeLog.length log).changeLog = base.changeLog := by
  induction hu with
  | @restored l hl hr =>
      have key : l.rollbackFrom base.changeLog.length base.changeLog =
          { l with changeLog := base.changeLog } := by
        cases base.changeLog <;> simp [Ledger.rollbackFrom]
      rw [key]
      exact ⟨.restored ⟨hl.unchanged, hl.held⟩ ⟨hr.trie, hr.changed, hr.held, hr.holding⟩, rfl⟩
  | @change l c log _ _ hu ih =>
      have long := hu.length_le
      have key : l.rollbackFrom base.changeLog.length (c :: log) =
          (l.undo c).rollbackFrom base.changeLog.length log := by
        simp only [Ledger.rollbackFrom]
        rw [if_neg (by omega)]
      rw [key]
      exact ih

theorem Undoable.rollback (hu : Undoable base l.changeLog l) :
    Undoable base (l.rollback base.changeLog.length).changeLog (l.rollback base.changeLog.length) :=
  hu.rollbackFrom.1

section Operations

variable {l' : Ledger} {amount value key : U256}

theorem Undoable.put_note (hu : Undoable base l.changeLog l) (kind : ChangeKind) (h' : Holding)
    (h₁ : kind ≠ .create) (h₂ : kind ≠ .touch) (ha : l.holding a = some h)
    (hk : kind.rewound h' = h ∨ kind.rewound h' = h.resetCode) :
    Undoable base ((l.put a h').note kind a).changeLog ((l.put a h').note kind a) := by
  have hl := hu.consistent
  refine .change (consistent_note (consistent_put hl))
    ⟨by simp, fun e => absurd e h₁, fun e => absurd e h₂⟩ (hu.mono ?_)
  rw [undo_of_kind h₁ h₂]
  simpa [note_put] using (restores_put hl ha hk).note kind a

theorem Undoable.created (hu : Undoable base l.changeLog l) (ha : l.holding a = none) :
    Undoable base (⟨.create, a⟩ :: l.changeLog) ((l.put a h).note .create a) := by
  have hl := hu.consistent
  have hla := hl.not_changed ha
  refine .change (consistent_note (consistent_put hl))
    ⟨by simp, fun _ => hl.trie_none ha, nofun⟩
    (hu.mono ⟨rfl, fun x hx => ?_, fun x hx => ?_, fun x => ?_⟩)
  all_goals by_cases hxa : x = a
  · simp [hxa, hla] at hx
  · simpa [Ledger.undo, put_isChanged_ne hxa, hxa] using hx
  · simp [hxa, Ledger.undo] at hx
  · simp only [Ledger.undo, note_isChanged, note_holding, Function.update_of_ne hxa,
      put_isChanged_ne hxa, put_holding_ne hxa] at hx ⊢
    exact hl.held x hx
  · simp [hxa, Ledger.undo, ha]
  · simp [Ledger.undo, put_holding_ne hxa, hxa]

theorem createAccount_undoable {nonce balance : U256} (hu : Undoable base l.changeLog l)
    (ha : l.holding a = none) (e : l.createAccount a nonce balance = some l') :
    Undoable base l'.changeLog l' := by
  unfold createAccount at e
  split at e
  · cases e
  · cases e
    exact hu.created ha

theorem incNonce_undoable (hu : Undoable base l.changeLog l) (e : l.incNonce a = some l') :
    Undoable base l'.changeLog l' := by
  unfold incNonce at e
  split at e
  case h_1 h ha =>
    cases e
    refine hu.put_note _ _ (by simp) (by simp) ha (.inl ?_)
    ext1
    · rfl
    · simp only [ChangeKind.rewound, Holding.setNonce, BitVec.add_sub_cancel]
  case h_2 ha => exact createAccount_undoable hu ha e

theorem Undoable.touched (hu : Undoable base l.changeLog l) (ha : l.holding a = some h) :
    Undoable base ((l.noteTouch a h).put a h).changeLog ((l.noteTouch a h).put a h) := by
  have hl := hu.consistent
  have hr := restores_put hl ha (.inl rfl)
  unfold noteTouch
  split
  case isFalse => exact hu.mono hr
  case isTrue hc =>
    simp only [Bool.and_eq_true, Bool.not_eq_true', Holding.isEmpty, decide_eq_true_eq] at hc
    have hta := hl.unchanged a hc.1
    rw [ha] at hta
    obtain ⟨r, htr, rfl⟩ := Option.map_eq_some_iff.mp hta.symm
    refine .change (consistent_note (consistent_put hl))
      ⟨by simp, nofun, fun _ => ⟨r, htr, hc.2.2, by simp⟩⟩
      (hu.mono ⟨rfl, fun x hx => ?_, fun x hx => ?_, fun x => ?_⟩)
    all_goals by_cases hxa : x = a
    · simp [hxa, hc.1] at hx
    · simpa [Ledger.undo, put_isChanged_ne hxa, hxa, note_put] using hx
    · simp [hxa, Ledger.undo, note_put] at hx
    · simp only [Ledger.undo, note_put, note_isChanged, note_holding, Function.update_of_ne hxa,
        put_isChanged_ne hxa, put_holding_ne hxa] at hx ⊢
      exact hl.held x hx
    · simp [hxa, Ledger.undo, note_put, ha]
    · simp [Ledger.undo, note_put, put_holding_ne hxa]

theorem addBalance_undoable (hu : Undoable base l.changeLog l)
    (e : l.addBalance a amount = some l') :
    Undoable base l'.changeLog l' := by
  unfold addBalance at e
  split at e
  case h_1 h ha =>
    cases e
    have hu' := hu.touched ha
    unfold noteBalance
    split
    case isTrue hz => simpa [hz, Holding.addBalance] using hu'
    case isFalse =>
      have back : (h.addBalance amount).addBalance (0 - amount) = h := by
        have key : h.record.balance + amount + (0 - amount) = h.record.balance := by grind
        simp only [Holding.addBalance, key]
      have noted := hu'.put_note (.balance amount) (h.addBalance amount) (by simp)
        (by simp) put_holding_self (.inl back)
      simpa using noted
  case h_2 ha =>
    unfold createAccount at e
    split at e
    · cases e
    · cases e
      unfold noteBalance
      split
      · exact hu.created ha
      · refine .change (consistent_note (consistent_note (consistent_put hu.consistent)))
          ⟨by simp, nofun, nofun⟩ ?_
        have before := hu.created (h := Holding.addBalance
          ⟨true, ⟨l.accountStartNonce, amount, fun _ => 0, EmptySHA3⟩⟩ (0 - amount)) ha
        simpa [Ledger.undo, ChangeKind.rewound, note_put] using
          before.mono ((Restores.refl before.consistent).note _ _)

theorem addBalance_isChanged (e : l.addBalance a amount = some l') : l'.isChanged a = true := by
  unfold addBalance createAccount at e
  split at e
  · cases e
    unfold noteBalance
    split <;> simp
  · split at e
    · cases e
    · cases e
      unfold noteBalance
      split <;> simp

theorem subBalance_undoable (hu : Undoable base l.changeLog l)
    (e : l.subBalance a value = some l') :
    Undoable base l'.changeLog l' := by
  unfold subBalance at e
  split at e
  · cases e
    exact hu
  · split at e
    · cases e
    · split at e
      · cases e
      · exact addBalance_undoable hu e

theorem transferBalance_undoable {sender receiver : Nat} (hu : Undoable base l.changeLog l)
    (e : l.transferBalance sender receiver value = some l') :
    Undoable base l'.changeLog l' ∧ l'.isChanged receiver = true := by
  obtain ⟨m, hm, e⟩ := Option.bind_eq_some_iff.mp e
  exact ⟨addBalance_undoable (subBalance_undoable hu hm) e, addBalance_isChanged e⟩

theorem setStorage_undoable (hu : Undoable base l.changeLog l) :
    Undoable base (l.setStorage a key value).changeLog (l.setStorage a key value) := by
  unfold setStorage
  rw [note_put]
  cases ha : l.holding a with
  | some h =>
      refine hu.put_note _ _ (by simp) (by simp) ha (.inl ?_)
      simp [ChangeKind.rewound, Holding.setStorage, storage, ha]
  | none =>
      have hla := hu.consistent.not_changed ha
      refine .change (consistent_note (consistent_put hu.consistent))
        ⟨by simp, nofun, nofun⟩ (hu.mono ⟨by simp, fun x hx => ?_, ?_, fun x => ?_⟩)
      · by_cases hxa : x = a
        · simp [hxa, hla] at hx
        · simpa [Ledger.undo, put_isChanged_ne hxa] using hx
      · exact (consistent_put (consistent_note (consistent_put hu.consistent))).held
      · by_cases hxa : x = a
        · exact .inr (by simp [hxa, ha, Ledger.undo])
        · exact .inl (by simp [Ledger.undo, put_holding_ne hxa])

theorem setNewCode_undoable {codeHash : H256} (hu : Undoable base l.changeLog l)
    (ha : l.isChanged a = true) :
    Undoable base (l.setNewCode a codeHash).changeLog (l.setNewCode a codeHash) := by
  obtain ⟨h, hh⟩ := Option.ne_none_iff_exists'.mp (hu.consistent.held a ha)
  unfold setNewCode
  rw [hh]
  exact hu.put_note _ _ (by simp) (by simp) hh (.inr rfl)

theorem deployed_undoable (code : Option Code) (hu : Undoable base l.changeLog l)
    (ha : l.isChanged a = true) :
    Undoable base (code.elim l fun code => l.setNewCode a code.hash).changeLog
      (code.elim l fun code => l.setNewCode a code.hash) := by
  cases code with
  | none => exact hu
  | some code => exact setNewCode_undoable hu ha

end Operations

end Ledger

open Ledger

variable {l l' : Ledger}

theorem Op.onLedger_undoable {base : Ledger} (o : Op) (hu : Undoable base l.changeLog l)
    (e : o.onLedger l = some l') : Undoable base l'.changeLog l' := by
  cases o with
  | addBalance a amount => exact addBalance_undoable hu e
  | subBalance a value => exact subBalance_undoable hu e
  | transferBalance sender receiver value => exact (transferBalance_undoable hu e).1
  | incNonce a => exact incNonce_undoable hu e
  | setStorage a key value =>
      cases e
      exact setStorage_undoable hu
  | account a =>
      cases e
      exact hu
  | storage a key =>
      cases e
      exact hu

theorem Ops.onLedger_undoable (ops : Ops) (hl : l.Consistent) (e : ops.onLedger l = some l') :
    Undoable l l'.changeLog l' := by
  induction ops generalizing l l' with
  | done =>
      cases e
      exact .refl hl
  | op o rest ih =>
      obtain ⟨l₁, h₁, e⟩ := Option.bind_eq_some_iff.mp e
      have u₁ := o.onLedger_undoable (.refl hl) h₁
      exact u₁.trans (ih u₁.consistent e)
  | call body reverts rest ihb ih =>
      obtain ⟨l₁, h₁, e⟩ := Option.bind_eq_some_iff.mp e
      have u₁ := ihb hl h₁
      cases reverts with
      | false => exact u₁.trans (ih u₁.consistent e)
      | true => exact u₁.rollback.trans (ih u₁.rollback.consistent e)
  | create sender newAddress endowment init code reverts rest ihi ih =>
      obtain ⟨l₁, h₁, e⟩ := Option.bind_eq_some_iff.mp e
      obtain ⟨l₃, h₃, e⟩ := Option.bind_eq_some_iff.mp e
      obtain ⟨l₂, h₂, h₃⟩ := Option.bind_eq_some_iff.mp h₃
      have u₁ := incNonce_undoable (.refl hl) h₁
      obtain ⟨u₂, new⟩ := transferBalance_undoable (.refl u₁.consistent) h₂
      have u₃ := ihi u₂.consistent h₃
      -- the account that gets the code has been changed by the transfer
      have u₄ := deployed_undoable code (u₂.trans u₃) (u₃.keeps_changed new)
      cases reverts with
      | false => exact (u₁.trans u₄).trans (ih u₄.consistent e)
      | true => exact (u₁.trans u₄.rollback).trans (ih u₄.rollback.consistent e)

end Accounts

end UtispaceChain
