import UtispaceChain.Cv.CommitOnce

/-! Savepoints of a `State`: what is read after a `rollback`, and what is committed. -/

namespace UtispaceChain

namespace Accounts

/-- Calls of a `State` between a savepoint and a rollback; the last three only read. -/
inductive StateCall
  | addBalance (a : Nat) (amount : U256)
  | subBalance (a : Nat) (value : U256)
  | setBalance (a : Nat) (value : U256)
  | transferBalance (sender receiver : Nat) (value : U256)
  | incNonce (a : Nat)
  | setStorage (a : Nat) (key value : U256)
  | createContract (a : Nat)
  | setNewCode (a : Nat) (bytes : Bytes)
  | account (a : Nat)
  | storage (a : Nat) (key : U256)
  | code (a : Nat)
  deriving DecidableEq, Repr

namespace State

def savepoint (s : State) : Nat := s.changeLog.length

def setBalance (a : Nat) (value : U256) (s : State) : Option State :=
  let original := (s.account a).1.elim 0 Account.balance
  (s.account a).2.addBalance a (value - original)

def createContract (a : Nat) (s : State) : Option State := s.createAccount a s.accountStartNonce 0

/-! What is read of an account. -/

def addressInUse (a : Nat) (s : State) : Bool := (s.account a).1.isSome

def balance (a : Nat) (s : State) : U256 := (s.account a).1.elim 0 Account.balance

def getNonce (a : Nat) (s : State) : U256 := (s.account a).1.elim s.accountStartNonce Account.nonce

def codeHash (a : Nat) (s : State) : H256 := (s.account a).1.elim EmptySHA3 Account.codeHash

/-- The code, which is loaded from the database by its hash if it is not there yet. -/
def code (db : H256 → Bytes) (a : Nat) (s : State) : Bytes × State :=
  match s.account a with
  | (none, s) => ([], s)
  | (some acc, s) =>
      if acc.codeHash = EmptySHA3 then ([], s)
      else if acc.codeCache = [] then
        (db acc.codeHash, s.put a { acc with codeCache := db acc.codeHash })
      else (acc.codeCache, s)

def removeEmptyAccounts (s : State) : State :=
  { s with
    cache := fun a => (s.cache a).map fun (acc : Account) => if acc.isDirty && acc.isEmpty then
    acc.kill else acc }

def commitRemoving (s : State) : State := s.removeEmptyAccounts.commit

end State

variable (C : Crypto) (db : H256 → Bytes)

def StateCall.run : StateCall → State → State
  | .addBalance a amount, s => (s.addBalance a amount).getD (s.account a).2
  | .subBalance a value, s => (s.subBalance a value).getD (s.account a).2
  | .setBalance a value, s => (s.setBalance a value).getD (s.account a).2
  | .transferBalance sender receiver value, s =>
      match s.subBalance sender value with
      | none => (s.account sender).2
      | some s => (s.addBalance receiver value).getD (s.account receiver).2
  | .incNonce a, s => (s.incNonce a).getD (s.account a).2
  | .setStorage a key value, s => s.setStorage a key value
  | .createContract a, s => (s.createContract a).getD s
  | .setNewCode a bytes, s => s.setNewCode a ⟨bytes, C.sha3 bytes⟩
  | .account a, s => (s.account a).2
  | .storage a key, s => (s.storage a key).2
  | .code a, s => (s.code db a).2

/-- Storage is set of an account that exists, a contract is created where there is none, and code is
set during or after a creation: of a changed account that has none. -/
def StateCall.Allowed : StateCall → State → Prop
  | .setStorage a _ _, s => s.addressInUse a = true
  | .createContract a, s => s.addressInUse a = false
  | .setNewCode a _, s => ∃ acc, s.cache a = some acc ∧ acc.isDirty = true ∧
      acc.codeHash = EmptySHA3
  | _, _ => True

/-- What calls after a savepoint lead to, with savepoints and rollbacks among them. -/
inductive Since : State → State → Prop
  | start (s : State) : Since s s
  | call {s t : State} (c : StateCall) : Since s t → c.Allowed t → Since s (c.run C db t)
  | rollback {s t u : State} : Since s t → Since t u → Since s (u.rollback t.savepoint)

/-! What a ledger holds, when the changes of its log are taken back. -/

def Change.rewind (c : Change) (f : Nat → Option Holding) : Nat → Option Holding :=
  match c.kind with
  | .create => Function.update f c.address none
  | .touch => f
  | kind => Function.update f c.address (some (kind.rewound ((f c.address).getD .dead)))

def unwind (changes : List Change) (f : Nat → Option Holding) : Nat → Option Holding :=
  changes.foldl (fun f c => c.rewind f) f

namespace Ledger

variable {l m n : Ledger} {a : Nat} {h h' : Holding} {amount value key : U256}

theorem undo_holding (c : Change) (l : Ledger) : (l.undo c).holding = c.rewind l.holding := by
  obtain ⟨kind, x⟩ := c
  cases kind <;> rfl

/-- The changes noted since one ledger lead back from what is held now to what was held there. -/
structure Steps (l m : Ledger) : Prop where
  back : ∃ changes, m.changeLog = changes ++ l.changeLog ∧ unwind changes m.holding = l.holding
  trie : m.trie = l.trie
  start : m.accountStartNonce = l.accountStartNonce

theorem Steps.refl (l : Ledger) : l.Steps l := ⟨⟨[], rfl, rfl⟩, rfl, rfl⟩

theorem Steps.trans (first : l.Steps m) (second : m.Steps n) : l.Steps n := by
  obtain ⟨older, log, held⟩ := first.back
  obtain ⟨newer, log', held'⟩ := second.back
  refine ⟨⟨newer ++ older, by rw [log', log, List.append_assoc], ?_⟩, second.trie.trans first.trie,
    second.start.trans first.start⟩
  rw [unwind, List.foldl_append]
  exact (congrArg (unwind older) held').trans held

theorem rollbackFrom_unwinds (changes older : List Change) (l : Ledger) :
    (l.rollbackFrom older.length (changes ++ older)).changeLog = older ∧
      (l.rollbackFrom older.length (changes ++ older)).holding = unwind changes l.holding ∧
        (l.rollbackFrom older.length (changes ++ older)).trie = l.trie ∧
          (l.rollbackFrom older.length (changes ++ older)).accountStartNonce =
            l.accountStartNonce := by
  induction changes generalizing l with
  | nil => cases older <;> simp [rollbackFrom, unwind]
  | cons c changes ih =>
      have longer : ¬ (changes ++ older).length + 1 = older.length := by
        rw [List.length_append]
        omega
      rw [List.cons_append, rollbackFrom, if_neg longer]
      obtain ⟨log, held, trie, start⟩ := ih (l.undo c)
      rw [undo_holding] at held
      refine ⟨log, held, trie.trans undo_trie, start.trans ?_⟩
      unfold undo
      split <;> rfl

theorem Steps.rollback (steps : l.Steps m) :
    (m.rollback l.changeLog.length).changeLog = l.changeLog ∧
    (m.rollback l.changeLog.length).holding = l.holding ∧
      (m.rollback l.changeLog.length).trie = l.trie ∧
        (m.rollback l.changeLog.length).accountStartNonce = l.accountStartNonce := by
  obtain ⟨changes, log, held⟩ := steps.back
  obtain ⟨log', held', trie, start⟩ := rollbackFrom_unwinds changes l.changeLog m
  rw [Ledger.rollback, log]
  exact ⟨log', held'.trans held, trie.trans steps.trie, start.trans steps.start⟩

theorem steps_put_note (kind : ChangeKind) (created : kind ≠ .create) (touched : kind ≠ .touch)
    (held : l.holding a = some h) (back : kind.rewound h' = h) :
    l.Steps ((l.put a h').note kind a) := by
  refine ⟨⟨[⟨kind, a⟩], rfl, ?_⟩, rfl, rfl⟩
  have same : (⟨kind, a⟩ : Change).rewind ((l.put a h').note kind a).holding =
      Function.update (Function.update l.holding a (some h')) a (some (kind.rewound h')) := by
    unfold Change.rewind
    split
    · contradiction
    · contradiction
    · simp [put, note]
  change (⟨kind, a⟩ : Change).rewind _ = l.holding
  rw [same, back, Function.update_idem, ← held, Function.update_eq_self]

theorem steps_created (held : l.holding a = none) : l.Steps ((l.put a h).note .create a) := by
  refine ⟨⟨[⟨.create, a⟩], rfl, ?_⟩, rfl, rfl⟩
  change Function.update (Function.update l.holding a (some h)) a none = l.holding
  rw [Function.update_idem, ← held, Function.update_eq_self]

theorem steps_touched (held : l.holding a = some h) : l.Steps ((l.noteTouch a h).put a h) := by
  have same : Function.update l.holding a (some h) = l.holding := by
    rw [← held, Function.update_eq_self]
  unfold noteTouch
  split
  · exact ⟨⟨[⟨.touch, a⟩], rfl, same⟩, rfl, rfl⟩
  · exact ⟨⟨[], rfl, same⟩, rfl, rfl⟩

theorem createAccount_steps {nonce balance : U256} (held : l.holding a = none)
    (done : l.createAccount a nonce balance = some m) : l.Steps m := by
  obtain ⟨-, done⟩ := Option.ite_none_left_eq_some.mp done
  cases done
  exact steps_created held

theorem incNonce_steps (done : l.incNonce a = some m) : l.Steps m := by
  unfold incNonce at done
  split at done
  case h_1 h held =>
    cases done
    refine steps_put_note .nonce (by nofun) (by nofun) held ?_
    have back : h.record.nonce + 1 - 1 = h.record.nonce := by grind
    simp only [ChangeKind.rewound, Holding.setNonce, back]
  case h_2 held => exact createAccount_steps held done

theorem addBalance_back (h : Holding) (amount : U256) :
    (h.addBalance amount).addBalance (0 - amount) = h := by
  have back : h.record.balance + amount + (0 - amount) = h.record.balance := by grind
  simp only [Holding.addBalance, back]

theorem addBalance_steps (done : l.addBalance a amount = some m) : l.Steps m := by
  unfold addBalance at done
  split at done
  case h_1 h held =>
    cases done
    have touched := steps_touched held
    unfold noteBalance
    split
    case isTrue zero => simpa [zero, Holding.addBalance] using touched
    case isFalse =>
      have noted := steps_put_note (l := (l.noteTouch a h).put a h) (.balance amount)
        (fun created => ChangeKind.noConfusion created)
        (fun touched => ChangeKind.noConfusion touched) put_holding_self
        (addBalance_back h amount)
      rw [put_put] at noted
      exact touched.trans noted
  case h_2 held =>
    obtain ⟨created, done', rfl⟩ := Option.map_eq_some_iff.mp done
    have steps := createAccount_steps held done'
    obtain ⟨-, done'⟩ := Option.ite_none_left_eq_some.mp done'
    cases done'
    unfold noteBalance
    split
    · exact steps
    · -- the amount is part of the new account, and goes with it
      refine ⟨⟨[⟨.balance amount, a⟩, ⟨.create, a⟩], rfl, ?_⟩, rfl, rfl⟩
      change Function.update (Function.update (Function.update l.holding a _) a _) a none =
        l.holding
      rw [Function.update_idem, Function.update_idem, ← held, Function.update_eq_self]

theorem subBalance_steps (done : l.subBalance a value = some m) : l.Steps m := by
  unfold subBalance at done
  split at done
  · cases done
    exact .refl l
  · split at done
    · cases done
    · obtain ⟨-, done⟩ := Option.ite_none_left_eq_some.mp done
      exact addBalance_steps done

theorem setStorage_steps (held : l.holding a = some h) : l.Steps (l.setStorage a key value) := by
  unfold setStorage
  rw [note_put, held, Option.getD_some]
  refine steps_put_note _ (by nofun) (by nofun) held ?_
  simp [ChangeKind.rewound, Holding.setStorage, storage, held]

theorem setNewCode_steps {codeHash : H256} (held : l.holding a = some h)
    (none : h.record.codeHash = EmptySHA3) :
    l.Steps (l.setNewCode a codeHash) := by
  unfold setNewCode
  rw [held, Option.getD_some]
  refine steps_put_note _ (by nofun) (by nofun) held ?_
  simp only [ChangeKind.rewound, Holding.resetCode, Holding.setCode, ← none]

end Ledger

namespace State

open Ledger

variable {C db} {s t u : State} {a : Nat} {key : U256}

/-- The state is sound, and its log leads back to the other. -/
structure Extends (s t : State) : Prop where
  sound : t.Sound
  undoable : Undoable s.ledger t.ledger.changeLog t.ledger
  steps : s.ledger.Steps t.ledger

theorem Extends.refl (sound : s.Sound) : s.Extends s := ⟨sound, .refl sound.consistent, .refl _⟩

theorem Extends.trans (first : s.Extends t) (second : t.Extends u) : s.Extends u :=
  ⟨second.sound, first.undoable.trans second.undoable, first.steps.trans second.steps⟩

theorem Sound.reads (sound : s.Sound) (shows : t.Shows s.ledger) : s.Extends t where
  sound := shows.sound sound.consistent
  undoable := by
    rw [shows.ledger]
    exact .refl sound.consistent
  steps := by
    rw [shows.ledger]
    exact .refl _

theorem Sound.account (sound : s.Sound) (a : Nat) : s.Extends (s.account a).2 :=
  sound.reads (account_shows sound.shows sound.consistent a).1

theorem Sound.attempt {x : Option State} {y : Option Ledger} (related : Option.Rel Shows x y)
    (log : ∀ m, y = some m → Undoable s.ledger m.changeLog m ∧ s.ledger.Steps m)
    (thrown : s.Extends t) :
    s.Extends (x.getD t) := by
  cases related with
  | none => exact thrown
  | @some after m shows =>
      obtain ⟨undoable, steps⟩ := log m rfl
      change s.Extends after
      have same : after.ledger = m := shows.ledger
      exact ⟨shows.sound undoable.consistent, by rw [same]; exact undoable,
        by rw [same]; exact steps⟩

theorem Sound.addBalance (sound : s.Sound) (a : Nat) (amount : U256) :
    s.Extends ((s.addBalance a amount).getD (s.account a).2) :=
  Sound.attempt (addBalance_shows sound.shows sound.consistent)
    (fun _ done => ⟨addBalance_undoable (.refl sound.consistent) done, addBalance_steps done⟩)
    (sound.account a)

theorem Sound.code_shows (sound : s.Sound) (a : Nat) : (s.code db a).2.Shows s.ledger := by
  unfold State.code
  rcases account_cases sound.shows sound.consistent a with ⟨acc, t, e, shows, cached, -⟩
    | ⟨t, e, shows, -, -⟩
  · rw [e]
    dsimp only
    split
    · exact shows
    · split
      · have same : (t.put a { acc with codeCache := db acc.codeHash }).ledger = t.ledger :=
          ledger_put_same cached rfl rfl
        exact ⟨same.trans shows.ledger, shows.missing⟩
      · exact shows
  · rw [e]
    exact shows

theorem Sound.code (sound : s.Sound) (a : Nat) : s.Extends (s.code db a).2 :=
  sound.reads (sound.code_shows a)

theorem Sound.setBalance (sound : s.Sound) (a : Nat) (value : U256) :
    s.Extends ((s.setBalance a value).getD (s.account a).2) :=
  Sound.attempt (addBalance_shows (account_shows sound.shows sound.consistent a).1 sound.consistent)
    (fun _ done => ⟨addBalance_undoable (.refl sound.consistent) done, addBalance_steps done⟩)
    (sound.account a)

theorem holding_of_inUse (sound : s.Sound) (inUse : s.addressInUse a = true) :
    ∃ h, s.ledger.holding a = some h := by
  obtain ⟨-, -, held⟩ := account_shows sound.shows sound.consistent a
  obtain ⟨acc, found⟩ := Option.isSome_iff_exists.mp inUse
  rw [found] at held
  exact ⟨acc.holding, held.symm⟩

theorem holding_of_unused (sound : s.Sound) (unused : s.addressInUse a = false) :
    s.ledger.holding a = none := by
  obtain ⟨-, -, held⟩ := account_shows sound.shows sound.consistent a
  have missing : (s.account a).1 = none := by simpa [addressInUse] using unused
  rw [missing] at held
  exact held.symm

theorem Sound.run (sound : s.Sound) (c : StateCall) (allowed : c.Allowed s) :
    s.Extends (c.run C db s) := by
  have here : Undoable s.ledger s.ledger.changeLog s.ledger := .refl sound.consistent
  cases c with
  | addBalance a amount => exact sound.addBalance a amount
  | subBalance a value =>
      exact Sound.attempt (subBalance_shows sound.shows sound.consistent)
        (fun _ done => ⟨subBalance_undoable here done, subBalance_steps done⟩) (sound.account a)
  | setBalance a value => exact sound.setBalance a value
  | transferBalance sender receiver value =>
      have related : Option.Rel State.Shows (s.subBalance sender value)
          (s.ledger.subBalance sender value) :=
        subBalance_shows sound.shows sound.consistent
      have log : ∀ m, s.ledger.subBalance sender value = some m →
          Undoable s.ledger m.changeLog m ∧ s.ledger.Steps m :=
        fun _ done => ⟨subBalance_undoable here done, subBalance_steps done⟩
      have taken := Sound.attempt related log (sound.account sender)
      change s.Extends (match s.subBalance sender value with
        | none => (s.account sender).2
        | some s => (s.addBalance receiver value).getD (s.account receiver).2)
      cases done : s.subBalance sender value with
      | none => exact sound.account sender
      | some after =>
          rw [done, Option.getD_some] at taken
          exact taken.trans (taken.sound.addBalance receiver value)
  | incNonce a =>
      exact Sound.attempt (incNonce_shows sound.shows sound.consistent)
        (fun _ done => ⟨incNonce_undoable here done, incNonce_steps done⟩) (sound.account a)
  | setStorage a key value =>
      obtain ⟨h, held⟩ := holding_of_inUse sound allowed
      have shows : (s.setStorage a key value).Shows (s.ledger.setStorage a key value) :=
        setStorage_shows sound.shows sound.consistent
      exact Sound.attempt (.some shows) (fun m done => by
        cases done
        exact ⟨setStorage_undoable here, setStorage_steps held⟩) (.refl sound)
  | createContract a =>
      have missing := holding_of_unused sound allowed
      exact Sound.attempt (createAccount_shows sound.shows)
        (fun _ done => ⟨createAccount_undoable here missing done, createAccount_steps missing done⟩)
        (.refl sound)
  | setNewCode a bytes =>
      obtain ⟨acc, cached, dirty, bare⟩ := allowed
      have changed : s.ledger.isChanged a = true := by rw [ledger_isChanged cached, dirty]
      have shows : (s.setNewCode a ⟨bytes, C.sha3 bytes⟩).Shows
          (s.ledger.setNewCode a (C.sha3 bytes)) :=
        setNewCode_shows sound.shows changed
      exact Sound.attempt (.some shows) (fun m done => by
        cases done
        exact ⟨setNewCode_undoable here changed,
          setNewCode_steps (ledger_holding_some cached) bare⟩) (.refl sound)
  | account a => exact sound.account a
  | storage a key => exact sound.reads (storage_shows a key sound.shows sound.consistent).2.1
  | code a => exact sound.code a

theorem Extends.rollback (extended : s.Extends t) :
    s.Extends (t.rollback s.savepoint) ∧ (t.rollback s.savepoint).ledger.holding =
      s.ledger.holding := by
  have shows := rollback_shows extended.undoable extended.sound.shows
  have undoable := extended.undoable.rollback
  obtain ⟨log, held, trie, start⟩ := extended.steps.rollback
  have same : (t.rollback s.savepoint).ledger = t.ledger.rollback s.ledger.changeLog.length :=
    shows.ledger
  refine ⟨⟨shows.sound undoable.consistent, ?_, ?_⟩, ?_⟩
  · rw [same]
    exact undoable
  · rw [same]
    exact ⟨⟨[], log, held⟩, trie, start⟩
  · rw [same]
    exact held

theorem since_trans (first : Since C db s t) (second : Since C db t u) : Since C db s u := by
  induction second with
  | start => exact first
  | call c _ allowed ih => exact (ih first).call c allowed
  | rollback _ later ih _ => exact (ih first).rollback later

theorem since_extends (since : Since C db s t) (sound : s.Sound) : s.Extends t := by
  induction since with
  | start => exact .refl sound
  | call c _ allowed ih => exact (ih sound).trans ((ih sound).sound.run c allowed)
  | rollback _ _ ih ih' => exact (ih sound).trans (ih' (ih sound).sound).rollback.1

end State

/-! Code is looked up by its hash, in the account and then in the database. -/

def Stored (codeHash : H256) : Prop := codeHash = EmptySHA3 ∨ C.sha3 (db codeHash) = codeHash

namespace Account

def codeBytes (acc : Account) : Bytes :=
  if acc.codeCache = [] then db acc.codeHash else acc.codeCache

/-- The code of the account has its hash, and is in the account if it is new, else in the
database. -/
def Coded (acc : Account) : Prop :=
  acc.codeHash = EmptySHA3 ∨
    (C.sha3 (acc.codeBytes db) = acc.codeHash ∧
      C.sha3 (if acc.hasNewCode then acc.codeCache else db acc.codeHash) = acc.codeHash)

variable {C db} {acc acc' : Account}

theorem Coded.congr (coded : acc.Coded C db) (hash : acc'.codeHash = acc.codeHash)
    (cache : acc'.codeCache = acc.codeCache) (isNew : acc'.hasNewCode = acc.hasNewCode) :
    acc'.Coded C db := by
  simpa only [Coded, codeBytes, hash, cache, isNew] using coded

theorem coded_bare (hash : acc.codeHash = EmptySHA3) : acc.Coded C db := .inl hash

theorem coded_loaded {r : Record} (stored : Stored C db r.codeHash) : (loaded r).Coded C db :=
  stored.imp_right fun right => ⟨right, right⟩

theorem coded_setNewCode (empty : C.sha3 [] = EmptySHA3) (bytes : Bytes) :
    (acc.setNewCode ⟨bytes, C.sha3 bytes⟩).Coded C db := by
  by_cases none : bytes = []
  · exact .inl ((congrArg C.sha3 none).trans empty)
  · have cached : (acc.setNewCode ⟨bytes, C.sha3 bytes⟩).codeBytes db = bytes := if_neg none
    exact .inr ⟨congrArg C.sha3 cached, rfl⟩

theorem coded_undone {kind : ChangeKind} (coded : acc.Coded C db)
    (left : kind.undone acc = some acc') :
    acc'.Coded C db := by
  cases kind <;> cases left
  case newCode => exact coded_bare rfl
  all_goals exact coded.congr rfl rfl rfl

end Account

namespace State

structure Coded (s : State) : Prop where
  cached : ∀ a acc, s.cache a = some acc → acc.Coded C db
  stored : ∀ a r, s.trie a = some r → Stored C db r.codeHash

variable {C db} {s t u : State} {a : Nat} {acc : Account} {amount value : U256}

theorem coded_opened {trie : Nat → Option Record} (stored : ∀ a r, trie a = some r →
    Stored C db r.codeHash) (nonce : U256) (engine : Nat → Nat) :
    (opened trie nonce engine).Coded C db :=
  ⟨nofun, stored⟩

theorem Coded.update {entry : Option Account} (coded : s.Coded C db)
    (right : ∀ acc, entry = some acc → acc.Coded C db) (trie : t.trie = s.trie)
    (cache : t.cache = Function.update s.cache a entry) : t.Coded C db where
  cached x acc cached := by
    rw [cache] at cached
    by_cases same : x = a
    · rw [same, Function.update_self] at cached
      exact right acc cached
    · rw [Function.update_of_ne same] at cached
      exact coded.cached x acc cached
  stored := trie ▸ coded.stored

theorem Coded.same (coded : s.Coded C db) (trie : t.trie = s.trie) (cache : t.cache = s.cache) :
    t.Coded C db :=
  ⟨cache ▸ coded.cached, trie ▸ coded.stored⟩

theorem Coded.put (coded : s.Coded C db) (new : acc.Coded C db) : (s.put a acc).Coded C db :=
  coded.update (fun other same => by cases same; exact new) rfl rfl

theorem Coded.note {kind : ChangeKind} (coded : s.Coded C db) : (s.note kind a).Coded C db :=
  coded.same rfl rfl

theorem Coded.getD_cached (coded : s.Coded C db) (a : Nat) : ((s.cache a).getD {}).Coded C db := by
  cases cached : s.cache a with
  | none => exact Account.coded_bare rfl
  | some acc => exact coded.cached a acc cached

theorem Coded.dropRandom (coded : s.Coded C db) : s.dropRandom.Coded C db := by
  unfold State.dropRandom
  dsimp only
  split
  · exact coded.same rfl rfl
  · split
    · exact coded.same rfl rfl
    · exact coded.update (fun _ gone => by cases gone) rfl rfl

theorem Coded.clearCacheIfTooLarge (coded : s.Coded C db) : s.clearCacheIfTooLarge.Coded C db := by
  unfold State.clearCacheIfTooLarge
  generalize s.unchangedCacheEntries.length - 1000 = n
  induction n generalizing s with
  | zero => exact coded
  | succ n ih =>
      rw [Function.iterate_succ_apply]
      exact ih coded.dropRandom

theorem Coded.account (coded : s.Coded C db) (a : Nat) :
    (s.account a).2.Coded C db ∧ ∀ acc, (s.account a).1 = some acc → acc.Coded C db := by
  unfold State.account
  split
  case h_1 acc cached => exact ⟨coded, fun _ same => by cases same; exact coded.cached a acc cached⟩
  case h_2 =>
    split
    · exact ⟨coded, nofun⟩
    · split
      · exact ⟨coded.same rfl rfl, nofun⟩
      case h_2 r found =>
        have right : (Account.loaded r).Coded C db := Account.coded_loaded (coded.stored a r found)
        have cleared := coded.clearCacheIfTooLarge
        generalize s.clearCacheIfTooLarge = s₁ at cleared ⊢
        have listed : ({ s₁ with unchangedCacheEntries := s₁.unchangedCacheEntries ++
            [a] } : State).Coded C db :=
          cleared.same rfl rfl
        refine ⟨listed.put right, fun acc same => ?_⟩
        rw [← Option.some.inj same]
        exact right

theorem Coded.createAccount {nonce balance : U256} (coded : s.Coded C db)
    (done : s.createAccount a nonce balance = some t) : t.Coded C db := by
  obtain ⟨-, done⟩ := Option.ite_none_left_eq_some.mp done
  cases done
  have put : (s.put a (Account.created nonce balance)).Coded C db :=
    coded.put (Account.coded_bare rfl)
  exact put.same rfl rfl

theorem Coded.incNonce (coded : s.Coded C db) (done : s.incNonce a = some t) : t.Coded C db := by
  obtain ⟨read, right⟩ := coded.account a
  unfold State.incNonce at done
  split at done
  case h_1 acc s₁ found =>
    rw [found] at read right
    have kept : acc.incNonce.Coded C db := (right acc rfl).congr rfl rfl rfl
    cases done
    exact (read.put kept).note
  case h_2 s₁ found =>
    rw [found] at read
    exact read.createAccount done

theorem Coded.noteBalance (coded : s.Coded C db) : (s.noteBalance a amount).Coded C db := by
  unfold State.noteBalance
  split
  · exact coded
  · exact coded.note

theorem Coded.addBalance (coded : s.Coded C db) (done : s.addBalance a amount = some t) :
    t.Coded C db := by
  obtain ⟨read, right⟩ := coded.account a
  unfold State.addBalance at done
  split at done
  case h_1 acc s₁ found =>
    rw [found] at read right
    have kept : (acc.addBalance amount).Coded C db := (right acc rfl).congr rfl rfl rfl
    cases done
    refine Coded.noteBalance (Coded.put ?_ kept)
    split
    · exact read.note
    · exact read
  case h_2 s₁ found =>
    rw [found] at read
    obtain ⟨created, made, rfl⟩ := Option.map_eq_some_iff.mp done
    exact (read.createAccount made).noteBalance

theorem Coded.subBalance (coded : s.Coded C db) (done : s.subBalance a value = some t) :
    t.Coded C db := by
  have read := (coded.account a).1
  unfold State.subBalance at done
  split at done
  · cases done
    exact coded
  · split at done
    · cases done
    case h_2 acc s₁ found =>
      rw [found] at read
      obtain ⟨-, done⟩ := Option.ite_none_left_eq_some.mp done
      exact read.addBalance done

theorem Coded.storage (coded : s.Coded C db) (a : Nat) (key : U256) :
    (s.storage a key).2.Coded C db := by
  obtain ⟨read, right⟩ := coded.account a
  unfold State.storage
  split
  case h_1 s₁ found =>
    rw [found] at read
    exact read
  case h_2 acc s₁ found =>
    rw [found] at read right
    split
    · exact read
    · exact read.put ((right acc rfl).congr rfl rfl rfl)

theorem Coded.setStorage (coded : s.Coded C db) (a : Nat) (key value : U256) :
    (s.setStorage a key value).Coded C db := by
  have read := coded.storage a key
  unfold State.setStorage
  dsimp only
  exact read.note.put ((read.getD_cached a).congr rfl rfl rfl)

theorem Coded.code (coded : s.Coded C db) (a : Nat) : (s.code db a).2.Coded C db := by
  obtain ⟨read, right⟩ := coded.account a
  unfold State.code
  split
  case h_1 s₁ found =>
    rw [found] at read
    exact read
  case h_2 acc s₁ found =>
    rw [found] at read right
    split
    · exact read
    · split
      case isTrue bare =>
        refine read.put ?_
        rcases right acc rfl with none | ⟨hash, -⟩
        · exact .inl none
        · rw [Account.codeBytes, if_pos bare] at hash
          refine .inr ⟨?_, ?_⟩
          · rw [Account.codeBytes]
            dsimp only
            split
            · exact hash
            · exact hash
          · dsimp only
            split
            · exact hash
            · exact hash
      · exact read

theorem Coded.undo (coded : s.Coded C db) (c : Change) : (s.undo c).Coded C db := by
  have right : ∀ acc, c.kind.undone ((s.cache c.address).getD {}) = some acc → acc.Coded C db :=
    fun acc left => Account.coded_undone (coded.getD_cached c.address) left
  unfold State.undo
  dsimp only
  split
  · exact coded.update right rfl rfl
  · exact coded.update right rfl rfl

theorem Coded.rollbackFrom (savepoint : Nat) (changes : List Change) (coded : s.Coded C db) :
    (s.rollbackFrom savepoint changes).Coded C db := by
  induction changes generalizing s with
  | nil => exact coded.same rfl rfl
  | cons c older ih =>
      rw [State.rollbackFrom]
      split
      · exact coded.same rfl rfl
      · exact ih (coded.undo c)

theorem Coded.getD {x : Option State} (done : ∀ t, x = some t → t.Coded C db)
    (thrown : u.Coded C db) :
    (x.getD u).Coded C db := by
  cases x with
  | none => exact thrown
  | some t => exact done t rfl

theorem Coded.run (empty : C.sha3 [] = EmptySHA3) (coded : s.Coded C db) (c : StateCall) :
    (c.run C db s).Coded C db := by
  cases c with
  | addBalance a amount => exact .getD (fun _ done => coded.addBalance done) (coded.account a).1
  | subBalance a value => exact .getD (fun _ done => coded.subBalance done) (coded.account a).1
  | setBalance a value =>
      exact .getD (fun _ done => (coded.account a).1.addBalance done) (coded.account a).1
  | transferBalance sender receiver value =>
      change (match s.subBalance sender value with
        | none => (s.account sender).2
        | some s => (s.addBalance receiver value).getD (s.account receiver).2).Coded C db
      split
      · exact (coded.account sender).1
      case h_2 after done =>
        have taken := coded.subBalance done
        exact .getD (fun _ done => taken.addBalance done) (taken.account receiver).1
  | incNonce a => exact .getD (fun _ done => coded.incNonce done) (coded.account a).1
  | setStorage a key value => exact coded.setStorage a key value
  | createContract a => exact .getD (fun _ done => coded.createAccount done) coded
  | setNewCode a bytes => exact (coded.put (Account.coded_setNewCode empty bytes)).note
  | account a => exact (coded.account a).1
  | storage a key => exact coded.storage a key
  | code a => exact coded.code a

theorem since_coded (empty : C.sha3 [] = EmptySHA3) (since : Since C db s t)
    (coded : s.Coded C db) :
    t.Coded C db := by
  induction since with
  | start => exact coded
  | call c _ _ ih => exact (ih coded).run empty c
  | rollback _ _ ih ih' => exact (ih' (ih coded)).rollbackFrom _ _

theorem Coded.kill (coded : s.Coded C db) (a : Nat) : (s.kill a).Coded C db := by
  have read := (coded.account a).1
  unfold State.kill
  split
  case h_1 s₁ found =>
    rw [found] at read
    exact read
  case h_2 acc s₁ found =>
    rw [found] at read
    exact read.put (Account.coded_bare rfl)

theorem Coded.removeEmptyAccounts (coded : s.Coded C db) : s.removeEmptyAccounts.Coded C db where
  cached a acc cached := by
    obtain ⟨old, found, same⟩ := Option.map_eq_some_iff.mp cached
    rw [← same]
    split
    · exact Account.coded_bare rfl
    · exact coded.cached a old found
  stored := coded.stored

theorem removeEmptyAccounts_isChanged : s.removeEmptyAccounts.ledger.isChanged a =
    s.ledger.isChanged a := by
  cases cached : s.cache a with
  | none => simp [ledger, State.removeEmptyAccounts, cached]
  | some acc =>
      simp only [ledger, State.removeEmptyAccounts, cached, Option.map_some, Option.elim_some]
      split
      case isTrue both => exact (Bool.and_eq_true_iff.mp both).1.symm
      case isFalse => rfl

theorem removeEmptyAccounts_holding : s.removeEmptyAccounts.ledger.holding a =
    (s.ledger.holding a).map fun h => if s.ledger.isChanged a && h.isEmpty then .dead else h := by
  cases cached : s.cache a with
  | none =>
      have gone : s.removeEmptyAccounts.cache a = none := by
        simp [State.removeEmptyAccounts, cached]
      have unchanged : s.ledger.isChanged a = false := by simp [ledger, cached]
      rw [ledger_holding_none gone, ledger_holding_none cached, unchanged]
      exact Option.map_id'.symm
  | some acc =>
      have left : s.removeEmptyAccounts.cache a =
          some (if acc.isDirty && acc.isEmpty then acc.kill else acc) := by
        simp [State.removeEmptyAccounts, cached]
      rw [ledger_holding_some left, ledger_holding_some cached, ledger_isChanged cached,
        Option.map_some, acc.isEmpty_holding]
      split
      · rfl
      · rfl

theorem Sound.removeEmptyAccounts (sound : s.Sound) : s.removeEmptyAccounts.Sound where
  shows := by
    refine ⟨rfl, fun a missing => ⟨(sound.shows.missing a missing).1, fun h held => ?_⟩⟩
    rw [removeEmptyAccounts_holding] at held
    obtain ⟨old, found, same⟩ := Option.map_eq_some_iff.mp held
    rw [← same]
    split
    · rfl
    · exact (sound.shows.missing a missing).2 old found
  consistent := by
    constructor
    · intro a unchanged
      rw [removeEmptyAccounts_isChanged] at unchanged
      rw [removeEmptyAccounts_holding, unchanged]
      exact Option.map_id'.trans (sound.consistent.unchanged a unchanged)
    · intro a changed
      rw [removeEmptyAccounts_isChanged] at changed
      rw [removeEmptyAccounts_holding, ne_eq, Option.map_eq_none_iff]
      exact sound.consistent.held a changed

theorem commitRemoving_trie (sound : s.Sound) (full : ∀ a r, s.trie a = some r →
    (Holding.mk true r).isEmpty = false) :
    s.commitRemoving.trie = fun a =>
      (s.ledger.holding a).bind fun h => if h.isEmpty then none else h.live := by
  funext a
  have committed : s.commitRemoving.trie a = s.removeEmptyAccounts.ledger.accounts a :=
    congrFun (commit_trie sound.removeEmptyAccounts) a
  rw [committed, Ledger.accounts, removeEmptyAccounts_holding]
  cases held : s.ledger.holding a with
  | none => rfl
  | some h =>
      cases changed : s.ledger.isChanged a with
      | true =>
          cases empty : h.isEmpty with
          | true => simp [empty, Holding.live, Holding.dead]
          | false => simp [empty]
      | false =>
          have same := sound.consistent.unchanged a changed
          rw [held] at same
          obtain ⟨r, found, alive⟩ := Option.map_eq_some_iff.mp same.symm
          have filled : h.isEmpty = false := by
            rw [← alive]
            exact full a r found
          simp [filled]

/-! What is read, from the ledger. -/

variable (db) in
structure ReadsAlike (s t : State) : Prop where
  addressInUse : ∀ a, t.addressInUse a = s.addressInUse a
  balance : ∀ a, t.balance a = s.balance a
  getNonce : ∀ a, t.getNonce a = s.getNonce a
  codeHash : ∀ a, t.codeHash a = s.codeHash a
  code : ∀ a, (t.code db a).1 = (s.code db a).1
  storage : ∀ a key, (t.storage a key).1 = (s.storage a key).1

theorem Coded.code_hash (coded : s.Coded C db) (a : Nat) :
    (s.codeHash a = EmptySHA3 ∧ (s.code db a).1 = []) ∨
      (s.codeHash a ≠ EmptySHA3 ∧ C.sha3 (s.code db a).1 = s.codeHash a) := by
  have right := (coded.account a).2
  unfold State.codeHash State.code
  split
  case h_1 s₁ found =>
    rw [found]
    exact .inl ⟨rfl, rfl⟩
  case h_2 acc s₁ found =>
    rw [found] at right ⊢
    rw [Option.elim_some]
    split
    case isTrue bare => exact .inl ⟨bare, rfl⟩
    case isFalse other =>
      refine .inr ⟨other, ?_⟩
      rcases right acc rfl with bare | ⟨hash, -⟩
      · exact absurd bare other
      · unfold Account.codeBytes at hash
        split
        case isTrue missing => rwa [if_pos missing] at hash
        case isFalse missing => rwa [if_neg missing] at hash

theorem Sound.account_holding (sound : s.Sound) (a : Nat) :
    (s.account a).1.map Account.holding = s.ledger.holding a :=
  (account_shows sound.shows sound.consistent a).2.2

theorem Sound.read_holding {β : Type} (sound : s.Sound) (a : Nat) (missing : β)
    (read : Holding → β) :
    (s.account a).1.elim missing (fun acc => read acc.holding) =
      (s.ledger.holding a).elim missing read := by
  rw [← sound.account_holding, Option.elim_map]
  rfl

theorem Sound.addressInUse_eq (sound : s.Sound) (a : Nat) :
    s.addressInUse a = (s.ledger.holding a).isSome := by
  rw [← sound.account_holding, Option.isSome_map]
  rfl

theorem Sound.balance_eq (sound : s.Sound) (a : Nat) :
    s.balance a = (s.ledger.holding a).elim 0 fun h => h.record.balance :=
  sound.read_holding a 0 fun h => h.record.balance

theorem Sound.getNonce_eq (sound : s.Sound) (a : Nat) :
    s.getNonce a = (s.ledger.holding a).elim s.accountStartNonce fun h => h.record.nonce :=
  sound.read_holding a s.accountStartNonce fun h => h.record.nonce

theorem Sound.codeHash_eq (sound : s.Sound) (a : Nat) :
    s.codeHash a = (s.ledger.holding a).elim EmptySHA3 fun h => h.record.codeHash :=
  sound.read_holding a EmptySHA3 fun h => h.record.codeHash

theorem Sound.storage_eq (sound : s.Sound) (a : Nat) (key : U256) :
    (s.storage a key).1 = s.ledger.storage a key :=
  (storage_shows a key sound.shows sound.consistent).1

theorem Coded.code_eq {db' : H256 → Bytes} (collisionFree : Function.Injective C.sha3)
    (coded : s.Coded C db) (coded' : t.Coded C db') (hash : t.codeHash a = s.codeHash a) :
    (t.code db' a).1 = (s.code db a).1 := by
  rcases coded.code_hash a with ⟨bare, none⟩ | ⟨other, code⟩
  · rcases coded'.code_hash a with ⟨-, none'⟩ | ⟨other', -⟩
    · rw [none', none]
    · exact absurd (hash.trans bare) other'
  · rcases coded'.code_hash a with ⟨bare', -⟩ | ⟨-, code'⟩
    · exact absurd (hash.symm.trans bare') other
    · exact collisionFree (code'.trans (hash.trans code.symm))

theorem readsAlike (collisionFree : Function.Injective C.sha3) (sound : s.Sound)
    (coded : s.Coded C db) (sound' : t.Sound) (coded' : t.Coded C db)
    (held : t.ledger.holding = s.ledger.holding)
    (start : t.accountStartNonce = s.accountStartNonce) : ReadsAlike db s t := by
  have hash : ∀ a, t.codeHash a = s.codeHash a :=
    fun a => by rw [sound'.codeHash_eq, sound.codeHash_eq, held]
  constructor
  · intro a
    rw [sound'.addressInUse_eq, sound.addressInUse_eq, held]
  · intro a
    rw [sound'.balance_eq, sound.balance_eq, held]
  · intro a
    rw [sound'.getNonce_eq, sound.getNonce_eq, held, start]
  · exact hash
  · intro a
    exact coded.code_eq collisionFree coded' (hash a)
  · intro a key
    rw [sound'.storage_eq, sound.storage_eq, Ledger.storage, Ledger.storage, held]

end State

/-- The accounts of which `commit` writes the code. -/
def Account.writesCode (acc : Account) : Bool := acc.isDirty && acc.isAlive && acc.hasNewCode

/-- The database after a `commit`; of two accounts with one code hash either may have been written
last. -/
structure CodeWritten (s : State) (db db' : H256 → Bytes) : Prop where
  written : ∀ a acc, s.cache a = some acc → acc.writesCode = true →
    ∃ x other, s.cache x = some other ∧ other.writesCode = true ∧ other.codeHash = acc.codeHash ∧
      db' acc.codeHash = other.codeCache
  kept : ∀ codeHash, (∀ a acc, s.cache a = some acc → acc.writesCode = true →
    acc.codeHash ≠ codeHash) →
    db' codeHash = db codeHash

inductive Attained : (H256 → Bytes) → State → Prop
  | opened {db : H256 → Bytes} (trie : Nat → Option Record) (nonce : U256) (engine : Nat → Nat) :
      (∀ a r, trie a = some r → Stored C db r.codeHash) →
      Attained db (State.opened trie nonce engine)
  | since {db : H256 → Bytes} {s t : State} : Attained db s → Since C db s t → Attained db t
  | kill {db : H256 → Bytes} {s : State} (a : Nat) : Attained db s → Attained db (s.kill a)
  | commit {db db' : H256 → Bytes} {s : State} : Attained db s → CodeWritten s db db' →
      Attained db' s.commit
  | commitRemoving {db db' : H256 → Bytes} {s : State} :
      Attained db s → CodeWritten s.removeEmptyAccounts db db' → Attained db' s.commitRemoving
  /-- `operator=` leaves the change log, and so does `setRoot`. -/
  | assigned {db : H256 → Bytes} {s t : State} :
      Attained db s → Attained db t → Attained db { s with changeLog := t.changeLog }

namespace State

variable {C db} {db' : H256 → Bytes} {s t : State} {a : Nat}

theorem written_code {acc : Account} (coded : acc.Coded C db) (writes : acc.writesCode = true) :
    acc.codeHash = EmptySHA3 ∨ C.sha3 acc.codeCache = acc.codeHash := by
  have isNew : acc.hasNewCode = true := (Bool.and_eq_true_iff.mp writes).2
  refine coded.imp_right fun right => ?_
  have code := right.2
  rwa [if_pos isNew] at code

theorem CodeWritten.code {acc : Account} (written : CodeWritten s db db') (coded : s.Coded C db)
    (cached : s.cache a = some acc) (writes : acc.writesCode = true) :
    Stored C db' acc.codeHash := by
  obtain ⟨x, other, found, writes', same, code⟩ := written.written a acc cached writes
  rw [Stored, code, ← same]
  exact written_code (coded.cached x other found) writes'

theorem CodeWritten.stored {codeHash : H256} (written : CodeWritten s db db') (coded : s.Coded C db)
    (stored : Stored C db codeHash) : Stored C db' codeHash := by
  by_cases new : ∃ a acc, s.cache a = some acc ∧ acc.writesCode = true ∧ acc.codeHash = codeHash
  · obtain ⟨a, acc, cached, writes, rfl⟩ := new
    exact CodeWritten.code written coded cached writes
  · have kept := written.kept codeHash fun a acc cached writes same =>
      new ⟨a, acc, cached, writes, same⟩
    rwa [Stored, kept]

theorem Coded.commit (coded : s.Coded C db) (written : CodeWritten s db db') :
    s.commit.Coded C db' where
  cached := nofun
  stored a r found := by
    have stays : s.trie a = some r → Stored C db' r.codeHash := fun found =>
      CodeWritten.stored written coded (coded.stored a r found)
    simp only [State.commit] at found
    cases cached : s.cache a with
    | none =>
        rw [cached] at found
        exact stays found
    | some acc =>
        rw [cached] at found
        dsimp only at found
        split at found
        case isFalse => exact stays found
        case isTrue dirty =>
          split at found
          case isFalse => cases found
          case isTrue alive =>
            cases found
            change Stored C db' acc.codeHash
            cases isNew : acc.hasNewCode with
            | true =>
                have writes : acc.writesCode = true := by
                  simp [Account.writesCode, dirty, alive, isNew]
                exact CodeWritten.code written coded cached writes
            | false =>
                refine CodeWritten.stored written coded
                  ((coded.cached a acc cached).imp_right fun right => ?_)
                have code := right.2
                rwa [isNew, if_neg Bool.false_ne_true] at code

theorem Attained.right (empty : C.sha3 [] = EmptySHA3) (attained : Attained C db s) :
    s.Sound ∧ s.Coded C db := by
  induction attained with
  | opened trie nonce engine stored =>
      exact ⟨opened_sound trie nonce engine, coded_opened stored nonce engine⟩
  | since _ since ih => exact ⟨(since_extends since ih.1).sound, since_coded empty since ih.2⟩
  | kill a _ ih =>
      exact ⟨(kill_shows ih.1.shows ih.1.consistent).sound (kill_consistent ih.1.consistent),
        ih.2.kill a⟩
  | commit _ written ih => exact ⟨commit_sound ih.1, ih.2.commit written⟩
  | commitRemoving _ written ih =>
      exact ⟨commit_sound ih.1.removeEmptyAccounts, ih.2.removeEmptyAccounts.commit written⟩
  | assigned _ _ ih _ =>
      exact ⟨⟨⟨rfl, ih.1.shows.missing⟩, ⟨ih.1.consistent.unchanged, ih.1.consistent.held⟩⟩,
        ih.2.same rfl rfl⟩

theorem since_readsAlike (collisionFree : Function.Injective C.sha3) (empty : C.sha3 [] = EmptySHA3)
    (attained : Attained C db s) (since : Since C db s t) :
    ReadsAlike db s (t.rollback s.savepoint) := by
  obtain ⟨sound, coded⟩ := Attained.right empty attained
  obtain ⟨back, held⟩ := (since_extends since sound).rollback
  have coded' : (t.rollback s.savepoint).Coded C db :=
    (since_coded empty since coded).rollbackFrom _ _
  exact readsAlike collisionFree sound coded back.sound coded' held back.steps.start

/-- A rollback restores all that can be read at the savepoint, and what is committed: with empty
accounts, and without them if the trie has none. Code is set of accounts that have none. -/
theorem rollback_restores (C : Crypto) (collisionFree : Function.Injective C.sha3)
    (empty : C.sha3 [] = EmptySHA3) (db : H256 → Bytes) (s t : State) (attained : Attained C db s)
    (since : Since C db s t) :
    ReadsAlike db s (t.rollback s.savepoint) ∧ (t.rollback s.savepoint).commit.trie =
      s.commit.trie ∧
      ((∀ a r, s.trie a = some r → (Holding.mk true r).isEmpty = false) →
        (t.rollback s.savepoint).commitRemoving.trie = s.commitRemoving.trie) := by
  have sound := (Attained.right empty attained).1
  obtain ⟨back, held⟩ := (since_extends since sound).rollback
  have trie : (t.rollback s.savepoint).trie = s.trie := back.steps.trie
  refine ⟨since_readsAlike collisionFree empty attained since, ?_, fun full => ?_⟩
  · rw [commit_trie back.sound, commit_trie sound]
    unfold Ledger.accounts
    rw [held]
  · rw [commitRemoving_trie sound full, commitRemoving_trie back.sound (trie ▸ full), held]

end State

/-- The toy hash, moved up so that no code has the hash that stands for none. -/
def emptyAware : Crypto :=
  { Crypto.toy with sha3 := fun bytes => if bytes = [] then EmptySHA3
    else EmptySHA3 + Crypto.toy.sha3 bytes }

theorem emptyAware_injective : Function.Injective emptyAware.sha3 := by
  intro left right same
  change (if left = [] then EmptySHA3 else EmptySHA3 + Crypto.toy.sha3 left) =
    if right = [] then EmptySHA3 else EmptySHA3 + Crypto.toy.sha3 right at same
  have positive : ∀ bytes, EmptySHA3 ≠ EmptySHA3 + Crypto.toy.sha3 bytes := fun bytes equal =>
    Crypto.toy_sha3_ne_zero bytes (Nat.left_eq_add.mp equal)
  split at same
  case isTrue none =>
    split at same
    case isTrue none' => rw [none, none']
    case isFalse => exact absurd same (positive right)
  case isFalse =>
    split at same
    case isTrue => exact absurd same.symm (positive left)
    case isFalse => exact Crypto.toy_sha3_injective (Nat.add_left_cancel same)

def deployed : State :=
  .opened (fun a => if a = 1 then some ⟨0, 10, fun _ => 0, EmptySHA3⟩ else
    if a = 2 then some ⟨1, 0, fun _ => 7, emptyAware.sha3 [0x60]⟩ else none) 0 fun i => i

def deployedCode (codeHash : H256) : Bytes :=
  if codeHash = emptyAware.sha3 [0x60] then [0x60] else []

theorem deployed_attained : Attained emptyAware deployedCode deployed := by
  refine .opened _ _ _ fun a r found => ?_
  split at found
  · cases found
    exact .inl rfl
  · split at found
    · cases found
      exact .inr (by decide +kernel)
    · cases found

def paid : State :=
  (StateCall.transferBalance 1 3 4).run emptyAware deployedCode
    ((StateCall.incNonce 1).run emptyAware deployedCode deployed)

def visited : State :=
  (StateCall.setStorage 2 5 6).run emptyAware deployedCode
    ((StateCall.code 2).run emptyAware deployedCode paid)

def filled : State :=
  (StateCall.setStorage 3 5 6).run emptyAware deployedCode (visited.rollback paid.savepoint)

def creation : State := (StateCall.setNewCode 3 [0x61]).run emptyAware deployedCode filled

theorem creation_since : Since emptyAware deployedCode deployed creation := by
  have first : Since emptyAware deployedCode deployed paid :=
    .call _ (.call _ (.start _) trivial) trivial
  have inner : Since emptyAware deployedCode paid visited := by
    refine .call _ (.call _ (.start _) trivial) ?_
    change State.addressInUse 2 ((StateCall.code 2).run emptyAware deployedCode paid) = true
    decide +kernel
  have second : Since emptyAware deployedCode deployed filled := by
    refine .call _ (.rollback first inner) ?_
    change State.addressInUse 3 (visited.rollback paid.savepoint) = true
    decide +kernel
  refine .call _ second ?_
  have bare : Option.any (fun acc => acc.isDirty && decide (acc.codeHash = EmptySHA3))
      (filled.cache 3) = true := by
    decide +kernel
  obtain ⟨acc, cached, both⟩ := (Option.any_eq_true _ _).mp bare
  rw [Bool.and_eq_true, decide_eq_true_eq] at both
  exact ⟨acc, cached, both.1, both.2⟩

theorem rollback_restores_creation :
    ((creation.balance 3, creation.codeHash 3) = (4, emptyAware.sha3 [0x61]) ∧
      creation.savepoint = 6) ∧
      State.ReadsAlike deployedCode deployed (creation.rollback deployed.savepoint) ∧
        (creation.rollback deployed.savepoint).commit.trie = deployed.commit.trie := by
  have restored :=
    State.rollback_restores emptyAware emptyAware_injective rfl deployedCode deployed creation
    deployed_attained creation_since
  exact ⟨by decide +kernel, restored.1, restored.2.1⟩

/-- Where an account has code already, a rollback takes that code too. -/
theorem redeployed_code_lost :
    ¬ ∀ (s : State) (a : Nat) (bytes : Bytes), Attained emptyAware deployedCode s →
      (((StateCall.setNewCode a bytes).run emptyAware deployedCode s).rollback s.savepoint).codeHash
        a =
        s.codeHash a := by
  intro codeKept
  have read : Attained emptyAware deployedCode
      ((StateCall.account 2).run emptyAware deployedCode deployed) :=
    .since deployed_attained (.call _ (.start _) trivial)
  have same := codeKept _ 2 [0x61] read
  revert same
  decide +kernel

def emptyKept : State :=
  .opened (fun a => if a = 2 then some ⟨0, 0, fun _ => 0, EmptySHA3⟩ else none) 0 fun i => i

/-- An account whose changes are taken back is still marked as changed, and a `commit` with
`RemoveEmptyAccounts` removes it if it is empty. -/
theorem unchanged_account_removed :
    ¬ ∀ s t : State, Attained emptyAware (fun _ => []) s →
      Since emptyAware (fun _ => []) s t →
        ((t.rollback s.savepoint).commitRemoving.trie 2).isSome =
          (s.commitRemoving.trie 2).isSome := by
  intro alikeCommitted
  have attained : Attained emptyAware (fun _ => []) emptyKept := by
    refine .opened _ _ _ fun a r found => ?_
    split at found
    · cases found
      exact .inl rfl
    · cases found
  have same := alikeCommitted _ _ attained (.call (.incNonce 2) (.start _) trivial)
  revert same
  decide +kernel

end Accounts

end UtispaceChain
