import UtispaceChain.Cv.ExtVM

/-! Which unchanged accounts are dropped from the cache, and when: a `State` refines one without a
cache. -/

namespace UtispaceChain

namespace Accounts

/-- An operation of a `State`; the calls are those that note changes, and those that only read. -/
inductive StateOp
  | call (c : StateCall)
  | kill (a : Nat)
  | rollback (savepoint : Nat)
  | commit (removeEmpty : Bool)

/-- The length of the log with the newest touch of the account, zero if it has not been touched. -/
def touchedAt (a : Nat) : List Change → Nat
  | [] => 0
  | c :: older => if c = ⟨.touch, a⟩ then older.length + 1 else touchedAt a older

theorem touchedAt_le (a : Nat) (log : List Change) : touchedAt a log ≤ log.length := by
  induction log with
  | nil => exact le_rfl
  | cons c older ih =>
      unfold touchedAt
      split
      · exact le_rfl
      · exact Nat.le_succ_of_le ih

/-! The ledger, without a cache -/

namespace Ledger

variable {l m base : Ledger} {a : Nat} {h : Holding} {c : Change} {log : List Change}
    {savepoint : Nat}

def removeEmptyAccounts (l : Ledger) : Ledger :=
  { l with holding := fun a => (l.holding a).map fun h => if l.isChanged a && h.isEmpty then
    .dead else h }

def commit (l : Ledger) : Ledger where
  trie := l.accounts
  holding a := (l.accounts a).map (Holding.mk true)
  isChanged _ := false
  changeLog := []
  accountStartNonce := l.accountStartNonce

theorem Restores.relog (consistent : l.Consistent) (log : List Change) :
    l.Restores { l with changeLog := log } :=
  let same := Restores.refl consistent
  ⟨same.trie, same.changed, same.held, same.holding⟩

theorem Undoable.rollbackTo (undoable : Undoable base log l)
    (since : base.changeLog.length ≤ savepoint) (within : savepoint ≤ log.length) :
    Undoable base (l.rollbackFrom savepoint log).changeLog (l.rollbackFrom savepoint log) := by
  induction undoable with
  | @restored l consistent restores =>
      have there : savepoint = base.changeLog.length := le_antisymm within since
      rw [there]
      exact (Undoable.restored consistent restores).rollbackFrom.1
  | @change l c log consistent canUndo undoable ih =>
      rw [Ledger.rollbackFrom]
      split
      case isTrue here =>
        exact (Undoable.change consistent canUndo undoable).mono (.relog consistent _)
      case isFalse further =>
        rw [List.length_cons] at within
        exact ih (by omega)

/-- Two ledgers that agree but for one account, which has been changed in the second. -/
structure OffAt (a : Nat) (l m : Ledger) : Prop where
  trie : m.trie = l.trie
  isChanged : ∀ x, x ≠ a → m.isChanged x = l.isChanged x
  holding : ∀ x, x ≠ a → m.holding x = l.holding x
  here : (m.isChanged a = l.isChanged a ∧ m.holding a = l.holding a) ∨
    (m.isChanged a = true ∧ m.holding a ≠ none)

theorem OffAt.refl (a : Nat) (l : Ledger) : OffAt a l l :=
  ⟨rfl, fun _ _ => rfl, fun _ _ => rfl, .inl ⟨rfl, rfl⟩⟩

theorem offAt_put (a : Nat) (h : Holding) (l : Ledger) : OffAt a l (l.put a h) where
  trie := rfl
  isChanged _ away := put_isChanged_ne away
  holding _ away := put_holding_ne away
  here := .inr (by simp)

theorem offAt_kill (a : Nat) (l : Ledger) : OffAt a l (l.kill a) := by
  unfold kill
  split
  · exact .refl a l
  · exact offAt_put a .dead l

theorem OffAt.consistent (off : OffAt a l m) (consistent : l.Consistent) : m.Consistent := by
  constructor
  · intro x unchanged
    by_cases same : x = a
    · subst same
      rcases off.here with ⟨changed, held⟩ | ⟨changed, -⟩
      · rw [held, off.trie]
        exact consistent.unchanged x (changed ▸ unchanged)
      · rw [changed] at unchanged
        cases unchanged
    · rw [off.isChanged x same] at unchanged
      rw [off.holding x same, off.trie]
      exact consistent.unchanged x unchanged
  · intro x changed
    by_cases same : x = a
    · subst same
      rcases off.here with ⟨changed', held⟩ | ⟨-, held⟩
      · rw [held]
        exact consistent.held x (changed' ▸ changed)
      · exact held
    · rw [off.isChanged x same] at changed
      rw [off.holding x same]
      exact consistent.held x changed

theorem OffAt.canUndo (off : OffAt a l m) (canUndo : CanUndo c l) (untouched : c ≠ ⟨.touch, a⟩) :
    CanUndo c m where
  changed := by
    by_cases same : c.address = a
    · rcases off.here with ⟨changed, -⟩ | ⟨changed, -⟩
      · rw [same, changed, ← same]
        exact canUndo.changed
      · rw [same, changed]
    · rw [off.isChanged _ same]
      exact canUndo.changed
  created kind := by
    rw [off.trie]
    exact canUndo.created kind
  touched kind := by
    have away : c.address ≠ a := by
      rintro rfl
      apply untouched
      rw [← kind]
    rw [off.trie, off.holding _ away]
    exact canUndo.touched kind

theorem OffAt.undo (off : OffAt a l m) (untouched : c ≠ ⟨.touch, a⟩) :
    OffAt a (l.undo c) (m.undo c) := by
  by_cases same : c.address = a
  · refine ⟨by rw [undo_trie, undo_trie, off.trie], ?_, ?_, ?_⟩
    · intro x away
      rw [undo_isChanged_ne (same ▸ away), undo_isChanged_ne (same ▸ away), off.isChanged x away]
    · intro x away
      rw [undo_holding_ne (same ▸ away), undo_holding_ne (same ▸ away), off.holding x away]
    · by_cases created : c.kind = .create
      · left
        simp [Ledger.undo, created, same]
      · right
        have other : c.kind ≠ .touch := fun touched => untouched (by rw [← touched, ← same])
        rw [undo_of_kind created other, same]
        simp
  · have elsewhere : a ≠ c.address := Ne.symm same
    refine ⟨by rw [undo_trie, undo_trie, off.trie], ?_, ?_, ?_⟩
    · intro x away
      unfold Ledger.undo
      split
      all_goals by_cases here : x = c.address
      all_goals simp [put, here, off.isChanged x away]
    · intro x away
      have held := off.holding c.address same
      unfold Ledger.undo
      split
      all_goals by_cases here : x = c.address
      all_goals simp [put, here, held, off.holding x away]
    · rw [undo_isChanged_ne elsewhere, undo_isChanged_ne elsewhere, undo_holding_ne elsewhere,
        undo_holding_ne elsewhere]
      exact off.here

theorem Undoable.off {oldest : Nat} (undoable : Undoable base log l) (off : OffAt a l m)
    (since : base.changeLog.length ≤ oldest) (touched : touchedAt a log ≤ oldest)
    (within : oldest ≤ log.length) :
    ∃ base', base'.changeLog.length = oldest ∧ Undoable base' log m := by
  induction undoable generalizing m with
  | @restored l consistent =>
      have consistent' := off.consistent consistent
      refine ⟨{ m with changeLog := base.changeLog }, le_antisymm since within,
        .restored consistent' ?_⟩
      exact ⟨rfl, fun _ changed => changed, consistent'.held, fun _ => .inl rfl⟩
  | @change l c log consistent canUndo undoable ih =>
      have consistent' := off.consistent consistent
      by_cases here : oldest = log.length + 1
      · refine ⟨{ m with changeLog := c :: log }, here.symm, .restored consistent' ?_⟩
        exact ⟨rfl, fun _ changed => changed, consistent'.held, fun _ => .inl rfl⟩
      · rw [List.length_cons] at within
        have untouched : c ≠ ⟨.touch, a⟩ := by
          rintro rfl
          rw [touchedAt, if_pos rfl] at touched
          omega
        rw [touchedAt, if_neg untouched] at touched
        rcases ih (off.undo untouched) touched (by omega) with ⟨base', length, undoable'⟩
        exact ⟨base', length, .change consistent' (off.canUndo canUndo untouched) undoable'⟩

end Ledger

/-! What the operations do to it -/

/-- The account that gets code has been changed, or is absent, and a contract is created where no
account is. -/
def StateCall.Fits : StateCall → Ledger → Prop
  | .setNewCode a _, l => l.isChanged a = true ∨ l.holding a = none
  | .createContract a, l => l.holding a = none
  | _, _ => True

def StateCall.onLedger (C : Crypto) : StateCall → Ledger → Ledger
  | .addBalance a amount, l => (l.addBalance a amount).getD l
  | .subBalance a value, l => (l.subBalance a value).getD l
  | .setBalance a value, l =>
      (l.addBalance a (value - (l.holding a).elim 0 fun h => h.record.balance)).getD l
  | .transferBalance sender receiver value, l =>
      match l.subBalance sender value with
      | none => l
      | some taken => (taken.addBalance receiver value).getD taken
  | .incNonce a, l => (l.incNonce a).getD l
  | .setStorage a key value, l => l.setStorage a key value
  | .createContract a, l => (l.createAccount a l.accountStartNonce 0).getD l
  | .setNewCode a bytes, l => l.setNewCode a (C.sha3 bytes)
  | .account _, l => l
  | .storage _ _, l => l
  | .code _, l => l

namespace Ledger

variable {l base : Ledger} {a : Nat}

theorem setNewCode_undoable_new {codeHash : H256} (undoable : Undoable base l.changeLog l)
    (missing : l.holding a = none) :
    Undoable base (l.setNewCode a codeHash).changeLog (l.setNewCode a codeHash) := by
  have unchanged := undoable.consistent.not_changed missing
  refine .change (consistent_note (consistent_put undoable.consistent)) ⟨by simp [setNewCode],
    nofun, nofun⟩ ?_
  refine undoable.mono ⟨by simp [setNewCode], fun x changed => ?_, ?_, fun x => ?_⟩
  · have away : x ≠ a := by
      rintro rfl
      rw [unchanged] at changed
      cases changed
    simpa [Ledger.undo, setNewCode, put_isChanged_ne away] using changed
  · exact (consistent_put (consistent_note (consistent_put undoable.consistent))).held
  · by_cases same : x = a
    · exact .inr (by simp [same, missing, Ledger.undo, setNewCode])
    · exact .inl (by simp [Ledger.undo, setNewCode, put_holding_ne same])

theorem getD_undoable {x : Option Ledger} (done : ∀ m, x = some m → Undoable base m.changeLog m)
    (thrown : Undoable base l.changeLog l) : Undoable base (x.getD l).changeLog (x.getD l) := by
  cases x with
  | none => exact thrown
  | some m => exact done m rfl

theorem onLedger_undoable (C : Crypto) (c : StateCall) (fits : c.Fits l)
    (undoable : Undoable base l.changeLog l) :
    Undoable base (c.onLedger C l).changeLog (c.onLedger C l) := by
  cases c with
  | addBalance a amount =>
      exact getD_undoable (fun _ done => addBalance_undoable undoable done) undoable
  | subBalance a value =>
      exact getD_undoable (fun _ done => subBalance_undoable undoable done) undoable
  | setBalance a value =>
      exact getD_undoable (fun _ done => addBalance_undoable undoable done) undoable
  | transferBalance sender receiver value =>
      simp only [StateCall.onLedger]
      split
      case h_1 => exact undoable
      case h_2 taken done =>
        have after := subBalance_undoable undoable done
        exact getD_undoable (fun _ done => addBalance_undoable after done) after
  | incNonce a => exact getD_undoable (fun _ done => incNonce_undoable undoable done) undoable
  | setStorage a key value => exact setStorage_undoable undoable
  | createContract a =>
      exact getD_undoable (fun _ done => createAccount_undoable undoable fits done) undoable
  | setNewCode a bytes =>
      rcases fits with changed | missing
      · exact setNewCode_undoable undoable changed
      · exact setNewCode_undoable_new undoable missing
  | account a => exact undoable
  | storage a key => exact undoable
  | code a => exact undoable

end Ledger

namespace State

open Ledger

variable {C : Crypto} {db : H256 → Bytes} {s t : State} {l : Ledger} {a : Nat}

theorem getD_shows {x : Option State} {y : Option Ledger} (related : Option.Rel Shows x y)
    (thrown : t.Shows l) :
    (x.getD t).Shows (y.getD l) := by
  cases related with
  | none => exact thrown
  | some shows => exact shows

theorem cache_of_missing (shows : s.Shows l) (missing : l.holding a = none) : s.cache a = none := by
  rw [← shows.ledger] at missing
  cases cached : s.cache a with
  | none => rfl
  | some acc =>
      rw [ledger_holding_some cached] at missing
      cases missing

theorem setNewCode_shows_new {code : Code} (shows : s.Shows l) (missing : l.holding a = none) :
    (s.setNewCode a code).Shows (l.setNewCode a code.hash) := by
  unfold setNewCode Ledger.setNewCode
  rw [cache_of_missing shows missing, missing]
  exact note_shows (put_shows shows rfl fun _ => rfl)

theorem Sound.run_shows (sound : s.Sound) (c : StateCall) (fits : c.Fits s.ledger) :
    (c.run C db s).Shows (c.onLedger C s.ledger) := by
  have shows := sound.shows
  have consistent := sound.consistent
  have read : ∀ a, (s.account a).2.Shows s.ledger := fun a => (account_shows shows consistent a).1
  cases c with
  | addBalance a amount => exact getD_shows (addBalance_shows shows consistent) (read a)
  | subBalance a value => exact getD_shows (subBalance_shows shows consistent) (read a)
  | setBalance a value =>
      have same := sound.read_holding a (0 : U256) fun h => h.record.balance
      change (((s.account a).2.addBalance a (value - (s.account a).1.elim 0 Account.balance)).getD
        _).Shows _
      have original : (s.account a).1.elim 0 Account.balance = (s.ledger.holding a).elim 0 fun h =>
          h.record.balance := same
      rw [original]
      exact getD_shows (addBalance_shows (read a) consistent) (read a)
  | transferBalance sender receiver value =>
      simp only [StateCall.run, StateCall.onLedger]
      have related : Option.Rel Shows (s.subBalance sender value)
          (s.ledger.subBalance sender value) :=
        subBalance_shows shows consistent
      cases taken : s.ledger.subBalance sender value with
      | none =>
          rw [taken] at related
          cases thrown : s.subBalance sender value with
          | none => exact read sender
          | some after =>
              rw [thrown] at related
              cases related
      | some m =>
          have consistent' := (subBalance_undoable (.refl consistent) taken).consistent
          rw [taken] at related
          cases done : s.subBalance sender value with
          | none =>
              rw [done] at related
              cases related
          | some after =>
              rw [done] at related
              cases related with
              | some shows' =>
                  exact getD_shows (addBalance_shows shows' consistent')
                    (account_shows shows' consistent' receiver).1
  | incNonce a => exact getD_shows (incNonce_shows shows consistent) (read a)
  | setStorage a key value => exact setStorage_shows shows consistent
  | createContract a => exact getD_shows (createAccount_shows shows) shows
  | setNewCode a bytes =>
      rcases fits with changed | missing
      · exact setNewCode_shows shows changed
      · exact setNewCode_shows_new shows missing
  | account a => exact read a
  | storage a key => exact (storage_shows a key shows consistent).2.1
  | code a => exact sound.code_shows a

theorem rollbackFrom_shows_to {base : Ledger} {log : List Change} {savepoint : Nat}
    (undoable : Undoable base log l) (since : base.changeLog.length ≤ savepoint)
    (within : savepoint ≤ log.length) (shows : s.Shows l) :
    (s.rollbackFrom savepoint log).Shows (l.rollbackFrom savepoint log) := by
  induction undoable generalizing s with
  | @restored l consistent restores =>
      have there : savepoint = base.changeLog.length := le_antisymm within since
      rw [there]
      exact rollbackFrom_shows (.restored consistent restores) shows
  | @change l c log _ canUndo undoable ih =>
      simp only [rollbackFrom, Ledger.rollbackFrom]
      split
      case isTrue =>
        rw [← shows.ledger]
        exact ⟨rfl, fun x missing => shows.ledger ▸ shows.missing x missing⟩
      case isFalse further =>
        rw [List.length_cons] at within
        exact ih (by omega) (undo_shows shows canUndo)

theorem removeEmptyAccounts_ledger :
    s.removeEmptyAccounts.ledger = s.ledger.removeEmptyAccounts := by
  ext1
  · rfl
  · funext a
    exact removeEmptyAccounts_holding
  · funext a
    exact removeEmptyAccounts_isChanged
  · rfl
  · rfl

theorem Sound.commit_ledger (sound : s.Sound) : s.commit.ledger = s.ledger.commit := by
  have trie := commit_trie sound
  ext1
  · exact trie
  · funext a
    exact congrArg (fun f : Nat → Option Record => (f a).map (Holding.mk true)) trie
  · rfl
  · rfl
  · rfl

end State

/-! New code, which is in the account until it is committed -/

def Account.newCode (acc : Account) : Option Bytes :=
  if acc.hasNewCode then some acc.codeCache else none

namespace State

def newCode (s : State) (a : Nat) : Option Bytes := (s.cache a).bind Account.newCode

variable {C : Crypto} {db : H256 → Bytes} {s t : State} {a : Nat} {acc : Account}
    {amount value : U256}

def Marked (s : State) : Prop := ∀ a, s.ledger.isChanged a = false → s.newCode a = none

theorem newCode_cached (cached : s.cache a = some acc) : s.newCode a = acc.newCode := by
  rw [newCode, cached]
  rfl

theorem newCode_absent (absent : s.cache a = none) : s.newCode a = none := by
  rw [newCode, absent]
  rfl

theorem newCode_getD : ((s.cache a).getD {}).newCode = s.newCode a := by
  unfold newCode
  cases s.cache a with
  | none => rfl
  | some acc => rfl

theorem newCode_congr (cache : t.cache = s.cache) : t.newCode = s.newCode := by
  funext a
  rw [newCode, cache, newCode]

theorem newCode_update (s : State) (entry : Option Account)
    (cache : t.cache = Function.update s.cache a entry) :
    t.newCode = Function.update s.newCode a (entry.bind Account.newCode) := by
  funext x
  rw [newCode, cache]
  by_cases same : x = a
  · rw [same, Function.update_self, Function.update_self]
  · rw [Function.update_of_ne same, Function.update_of_ne same, newCode]

theorem newCode_put : (s.put a acc).newCode = Function.update s.newCode a acc.newCode :=
  newCode_update s (some acc) rfl

theorem newCode_put_same (same : acc.newCode = s.newCode a) :
    (s.put a acc).newCode = s.newCode := by
  rw [newCode_put, same, Function.update_eq_self]

theorem Marked.same (marked : s.Marked) (newCode : t.newCode = s.newCode)
    (ledger : t.ledger = s.ledger) : t.Marked := by
  intro a unchanged
  rw [newCode]
  rw [ledger] at unchanged
  exact marked a unchanged

theorem Marked.dropRandom (marked : s.Marked) : s.dropRandom.newCode = s.newCode := by
  unfold State.dropRandom
  dsimp only
  split
  · exact newCode_congr rfl
  case h_2 acc cached =>
    split
    · exact newCode_congr rfl
    case isFalse clean =>
      generalize s.unchangedCacheEntries.getD (s.engine 0 % s.unchangedCacheEntries.length) 0 =
        dropped at *
      have none : s.newCode dropped = none := by
        apply marked dropped
        rw [ledger_isChanged cached]
        simpa using clean
      rw [newCode_update s Option.none rfl, Option.bind_none, ← none, Function.update_eq_self]

theorem Marked.clearCacheIfTooLarge (marked : s.Marked) (sound : s.Sound) :
    s.clearCacheIfTooLarge.newCode = s.newCode := by
  unfold State.clearCacheIfTooLarge
  generalize s.unchangedCacheEntries.length - 1000 = n
  induction n generalizing s with
  | zero => rfl
  | succ n ih =>
      rw [Function.iterate_succ_apply]
      have newCode := marked.dropRandom
      have ledger := dropRandom_ledger sound.consistent
      have sound' : s.dropRandom.Sound :=
        ⟨⟨rfl, ledger ▸ sound.shows.missing⟩, ledger ▸ sound.consistent⟩
      exact (ih (marked.same newCode ledger) sound').trans newCode

theorem Marked.account (marked : s.Marked) (sound : s.Sound) (a : Nat) :
    (s.account a).2.newCode = s.newCode := by
  unfold State.account
  split
  · rfl
  case h_2 absent =>
    split
    · rfl
    · split
      · exact newCode_congr rfl
      case h_2 r found =>
        have kept := clearCacheIfTooLarge_cache absent
        have same := marked.clearCacheIfTooLarge sound
        generalize s.clearCacheIfTooLarge = u at kept same
        let listed : State := { u with unchangedCacheEntries := u.unchangedCacheEntries ++ [a] }
        have absent' : listed.newCode a = none := newCode_absent kept
        calc
          (listed.put a (Account.loaded r)).newCode = listed.newCode :=
          newCode_put_same absent'.symm
          _ = s.newCode := (newCode_congr rfl).trans same

theorem Marked.account_cases (marked : s.Marked) (sound : s.Sound) (a : Nat) :
    (∃ acc t, s.account a = (some acc, t) ∧ t.newCode = s.newCode ∧ s.newCode a = acc.newCode) ∨
      ∃ t, s.account a = (none, t) ∧ t.newCode = s.newCode ∧ s.newCode a = none := by
  have same := marked.account sound a
  rcases State.account_cases sound.shows sound.consistent a with ⟨acc, t, read, -, cached, -⟩
    | ⟨t, read, -, absent, -⟩
  · rw [read] at same
    left
    refine ⟨acc, t, read, same, ?_⟩
    rw [← same]
    exact newCode_cached cached
  · rw [read] at same
    right
    refine ⟨t, read, same, ?_⟩
    rw [← same]
    exact newCode_absent absent

theorem createAccount_newCode {nonce balance : U256} (absent : s.newCode a = none)
    (done : s.createAccount a nonce balance = some t) : t.newCode = s.newCode := by
  rcases Option.ite_none_left_eq_some.mp done with ⟨-, done⟩
  cases done
  have put : (s.put a (Account.created nonce balance)).newCode = s.newCode :=
    newCode_put_same absent.symm
  exact (newCode_congr rfl).trans put

theorem noteBalance_newCode : (s.noteBalance a amount).newCode = s.newCode := by
  unfold noteBalance
  split
  · rfl
  · exact newCode_congr rfl

theorem Marked.incNonce (marked : s.Marked) (sound : s.Sound) (done : s.incNonce a = some t) :
    t.newCode = s.newCode := by
  unfold State.incNonce at done
  rcases marked.account_cases sound a with ⟨acc, u, read, same, here⟩ | ⟨u, read, same, here⟩
  · rw [read] at done
    cases done
    have kept : acc.incNonce.newCode = u.newCode a := by rw [same, here]; rfl
    exact ((newCode_congr rfl).trans (newCode_put_same kept)).trans same
  · rw [read] at done
    rw [← same] at here
    exact (createAccount_newCode here done).trans same

theorem Marked.addBalance (marked : s.Marked) (sound : s.Sound)
    (done : s.addBalance a amount = some t) :
    t.newCode = s.newCode := by
  unfold State.addBalance at done
  rcases marked.account_cases sound a with ⟨acc, u, read, same, here⟩ | ⟨u, read, same, here⟩
  · rw [read] at done
    cases done
    let touched : State := if !acc.isDirty && acc.isEmpty then u.note .touch a else u
    have noted : touched.newCode = u.newCode := by
      unfold touched
      split
      · exact newCode_congr rfl
      · rfl
    have kept : (acc.addBalance amount).newCode = touched.newCode a := by
      rw [noted, same, here]; rfl
    calc
      ((touched.put a (acc.addBalance amount)).noteBalance a amount).newCode
          = (touched.put a (acc.addBalance amount)).newCode := noteBalance_newCode
      _ = touched.newCode := newCode_put_same kept
      _ = s.newCode := noted.trans same
  · rw [read] at done
    rcases Option.map_eq_some_iff.mp done with ⟨created, made, rfl⟩
    rw [← same] at here
    exact noteBalance_newCode.trans ((createAccount_newCode here made).trans same)

theorem Marked.subBalance (marked : s.Marked) (sound : s.Sound)
    (done : s.subBalance a value = some t) :
    t.newCode = s.newCode := by
  unfold State.subBalance at done
  split at done
  · cases done
    rfl
  · have same := marked.account sound a
    have shows := (account_shows sound.shows sound.consistent a).1
    split at done
    · cases done
    case h_2 acc u read =>
      rw [read] at same shows
      rcases Option.ite_none_left_eq_some.mp done with ⟨-, done⟩
      have sound' : u.Sound := shows.sound sound.consistent
      exact ((marked.same same shows.ledger).addBalance sound' done).trans same

theorem Marked.storage (marked : s.Marked) (sound : s.Sound) (a : Nat) (key : U256) :
    (s.storage a key).2.newCode = s.newCode := by
  unfold State.storage
  rcases marked.account_cases sound a with ⟨acc, u, read, same, here⟩ | ⟨u, read, same, here⟩
  · rw [read]
    dsimp only
    split
    · exact same
    · have kept : (acc.setStorageCache key (acc.storageRoot key)).newCode = u.newCode a := by
        rw [same, here]; rfl
      exact (newCode_put_same kept).trans same
  · rw [read]
    exact same

theorem Marked.setStorage (marked : s.Marked) (sound : s.Sound) (a : Nat) (key value : U256) :
    (s.setStorage a key value).newCode = s.newCode := by
  have same := marked.storage sound a key
  unfold State.setStorage
  dsimp only
  generalize (s.storage a key).1 = old
  generalize (s.storage a key).2 = u at same
  have kept : (((u.note (.storage key old) a).cache a).getD {} |>.setStorage key value).newCode =
      u.newCode a :=
    newCode_getD
  exact (newCode_put_same (s := u.note (.storage key old) a) kept).trans
    ((newCode_congr rfl).trans same)

theorem Marked.code (empty : C.sha3 [] = EmptySHA3) (marked : s.Marked) (sound : s.Sound)
    (coded : s.Coded C db) (a : Nat) : (s.code db a).2.newCode = s.newCode := by
  unfold State.code
  have right := (coded.account a).2
  rcases marked.account_cases sound a with ⟨acc, u, read, same, here⟩ | ⟨u, read, same, here⟩
  · rw [read] at right ⊢
    dsimp only
    split
    · exact same
    case isFalse other =>
      split
      case isTrue bare =>
        have old : acc.hasNewCode = false := by
          rcases right acc rfl with none | ⟨-, hash⟩
          · exact absurd none other
          · cases isNew : acc.hasNewCode with
            | false => rfl
            | true =>
                rw [isNew, if_pos rfl, bare, empty] at hash
                exact absurd hash.symm other
        have kept : ({ acc with codeCache := db acc.codeHash } : Account).newCode =
            u.newCode a := by
          rw [same, here, Account.newCode, Account.newCode, old]
          rfl
        exact (newCode_put_same kept).trans same
      case isFalse => exact same
  · rw [read]
    exact same

theorem Marked.kill (marked : s.Marked) (sound : s.Sound) (a : Nat) :
    (s.kill a).newCode = s.newCode := by
  unfold State.kill
  rcases marked.account_cases sound a with ⟨acc, u, read, same, here⟩ | ⟨u, read, same, here⟩
  · rw [read]
    have kept : acc.kill.newCode = u.newCode a := by rw [same, here]; rfl
    exact (newCode_put_same kept).trans same
  · rw [read]
    exact same

theorem setNewCode_newCode (a : Nat) (code : Code) :
    (s.setNewCode a code).newCode = Function.update s.newCode a (some code.bytes) :=
  (newCode_congr rfl).trans newCode_put

theorem getD_newCode {x : Option State} (done : ∀ u, x = some u → u.newCode = s.newCode)
    (thrown : t.newCode = s.newCode) : (x.getD t).newCode = s.newCode := by
  cases x with
  | none => exact thrown
  | some u => exact done u rfl

end State

/-- A call leaves the new code as it is, unless it sets some. -/
def StateCall.setsCode : StateCall → (Nat → Option Bytes) → Nat → Option Bytes
  | .setNewCode a bytes, f => Function.update f a (some bytes)
  | _, f => f

/-- What a change that is taken back leaves of the new code. -/
def Change.dropsCode (c : Change) (f : Nat → Option Bytes) : Nat → Option Bytes :=
  match c.kind with
  | .create => Function.update f c.address none
  | .newCode => Function.update f c.address none
  | _ => f

def codeBack (savepoint : Nat) : List Change → (Nat → Option Bytes) → Nat → Option Bytes
  | [], f => f
  | c :: older, f =>
      if older.length + 1 = savepoint then f else codeBack savepoint older (c.dropsCode f)

/-- An account with new code is changed, and its touch, if it has been touched, was before that
code. -/
def Renewed (isChanged : Nat → Bool) (log : List Change) (f : Nat → Option Bytes) : Prop :=
  ∀ a, f a ≠ none → isChanged a = true ∧
    ∀ newer older, log = newer ++ ⟨.touch, a⟩ :: older → ⟨.newCode, a⟩ ∈ newer

namespace Renewed

open Ledger

variable {l m : Ledger} {log : List Change} {c : Change} {f : Nat → Option Bytes} {a : Nat}

theorem changes_since {base : Ledger} (undoable : Undoable base log l) :
    ∃ changes, log = changes ++ base.changeLog ∧ ∀ a, base.isChanged a = true →
    ⟨.touch, a⟩ ∉ changes := by
  induction undoable with
  | restored => exact ⟨[], rfl, fun _ _ => List.not_mem_nil⟩
  | @change l c log _ _ undoable ih =>
      rcases ih with ⟨changes, same, untouched⟩
      refine ⟨c :: changes, by rw [same, List.cons_append], fun a changed touched => ?_⟩
      rcases List.mem_cons.mp touched with rfl | older
      · have kept := undoable.keeps_changed changed
        simp [Ledger.undo] at kept
      · exact untouched a changed older

theorem later (renewed : Renewed l.isChanged l.changeLog f) (undoable : Undoable l m.changeLog m) :
    Renewed m.isChanged m.changeLog f := by
  intro a new
  rcases renewed a new with ⟨changed, before⟩
  rcases changes_since undoable with ⟨changes, log, untouched⟩
  refine ⟨undoable.keeps_changed changed, fun newer older split => ?_⟩
  rw [log] at split
  rcases List.append_eq_append_iff.mp split with ⟨between, rest, here⟩ | ⟨between, rest, here⟩
  · rw [rest]
    exact List.mem_append_right _ (before between older here)
  · cases between with
    | nil =>
        rw [List.nil_append] at here
        exact absurd (before [] older here.symm) List.not_mem_nil
    | cons first between =>
        rw [List.cons_append, List.cons.injEq] at here
        apply absurd _ (untouched a changed)
        rw [rest, here.1]
        exact List.mem_append_right _ List.mem_cons_self

theorem set (renewed : Renewed l.isChanged l.changeLog f) (bytes : Bytes) (codeHash : H256)
    (undoable : Undoable l (l.setNewCode a codeHash).changeLog (l.setNewCode a codeHash)) :
    Renewed (l.setNewCode a codeHash).isChanged (l.setNewCode a codeHash).changeLog
      (Function.update f a (some bytes)) := by
  intro x new
  by_cases same : x = a
  · subst same
    refine ⟨by simp [setNewCode], fun newer older split => ?_⟩
    cases newer with
    | nil => cases split
    | cons first newer =>
        rw [List.cons_append] at split
        have head := (List.cons.inj split).1
        rw [← head]
        exact List.mem_cons_self
  · rw [Function.update_of_ne same] at new
    exact renewed.later undoable x new

theorem dropsCode_none (absent : f a = none) : c.dropsCode f a = none := by
  rcases c with ⟨kind, x⟩
  by_cases same : a = x
  · cases kind
    all_goals simp [Change.dropsCode, ← same, absent]
  · cases kind
    all_goals simp [Change.dropsCode, same, absent]

theorem undo (renewed : Renewed l.isChanged (c :: log) f) :
    Renewed (l.undo c).isChanged log (c.dropsCode f) := by
  intro a new
  have old : f a ≠ none := fun none => new (dropsCode_none none)
  rcases renewed a old with ⟨changed, before⟩
  have unlike : c ≠ ⟨.newCode, a⟩ := by
    rintro rfl
    simp [Change.dropsCode] at new
  have untouched : c ≠ ⟨.touch, a⟩ := by
    rintro rfl
    exact absurd (before [] log rfl) List.not_mem_nil
  have uncreated : c ≠ ⟨.create, a⟩ := by
    rintro rfl
    simp [Change.dropsCode] at new
  constructor
  · by_cases same : a = c.address
    · have touch : c.kind ≠ .touch := fun kind => untouched (by rw [same, ← kind])
      have create : c.kind ≠ .create := fun kind => uncreated (by rw [same, ← kind])
      rw [undo_of_kind create touch, same]
      exact put_isChanged_self
    · rwa [undo_isChanged_ne same]
  · intro newer older split
    have further := before (c :: newer) older (by rw [split, List.cons_append])
    exact (List.mem_cons.mp further).resolve_left unlike.symm

theorem rollbackFrom (savepoint : Nat) (renewed : Renewed l.isChanged log f) :
    Renewed (l.rollbackFrom savepoint log).isChanged (l.rollbackFrom savepoint log).changeLog
      (codeBack savepoint log f) := by
  induction log generalizing l f with
  | nil => exact renewed
  | cons c older ih =>
      rw [Ledger.rollbackFrom, codeBack]
      split
      · exact renewed
      · exact ih renewed.undo

end Renewed

namespace State

open Ledger

variable {C : Crypto} {db : H256 → Bytes} {s : State}

theorem undo_newCode (c : Change) (s : State) : (s.undo c).newCode = c.dropsCode s.newCode := by
  have same : (s.undo c).newCode = Function.update s.newCode c.address
      ((c.kind.undone ((s.cache c.address).getD {})).bind Account.newCode) := by
    apply newCode_update
    unfold undo
    dsimp only
    split
    · rfl
    · rfl
  have kept : ((s.cache c.address).getD {}).newCode = s.newCode c.address := newCode_getD
  rw [same]
  unfold Change.dropsCode
  cases c.kind with
  | create => rfl
  | newCode => rfl
  | balance value => exact (congrArg _ kept).trans (Function.update_eq_self _ _)
  | storage key value => exact (congrArg _ kept).trans (Function.update_eq_self _ _)
  | nonce => exact (congrArg _ kept).trans (Function.update_eq_self _ _)
  | touch => exact (congrArg _ kept).trans (Function.update_eq_self _ _)

theorem rollbackFrom_newCode (savepoint : Nat) (log : List Change) :
    (s.rollbackFrom savepoint log).newCode = codeBack savepoint log s.newCode := by
  induction log generalizing s with
  | nil => exact newCode_congr rfl
  | cons c older ih =>
      rw [State.rollbackFrom, codeBack]
      split
      · exact newCode_congr rfl
      · rw [ih, undo_newCode]

theorem Marked.run (empty : C.sha3 [] = EmptySHA3) (marked : s.Marked) (sound : s.Sound)
    (coded : s.Coded C db) (c : StateCall) (fits : c.Fits s.ledger) :
    (c.run C db s).newCode = c.setsCode s.newCode := by
  have read : ∀ a, (s.account a).2.newCode = s.newCode := marked.account sound
  cases c with
  | addBalance a amount => exact getD_newCode (fun _ done => marked.addBalance sound done) (read a)
  | subBalance a value => exact getD_newCode (fun _ done => marked.subBalance sound done) (read a)
  | setBalance a value =>
      have shows := (account_shows sound.shows sound.consistent a).1
      have marked' := marked.same (read a) shows.ledger
      exact getD_newCode
        (fun _ done => (marked'.addBalance (shows.sound sound.consistent) done).trans (read a))
        (read a)
  | transferBalance sender receiver value =>
      simp only [StateCall.run]
      split
      case h_1 => exact read sender
      case h_2 u done =>
        have same := marked.subBalance sound done
        have related : Option.Rel Shows (s.subBalance sender value)
            (s.ledger.subBalance sender value) :=
          subBalance_shows sound.shows sound.consistent
        rw [done] at related
        generalize taken : s.ledger.subBalance sender value = after at related
        cases related with
        | @some u m shows =>
            have undoable := subBalance_undoable (.refl sound.consistent) taken
            have sound' : u.Sound := shows.sound undoable.consistent
            have marked' : u.Marked := by
              intro a unchanged
              rw [same]
              apply marked
              by_contra changed
              rw [Bool.not_eq_false] at changed
              rw [shows.ledger, undoable.keeps_changed changed] at unchanged
              cases unchanged
            exact getD_newCode (fun _ done => (marked'.addBalance sound' done).trans same)
              ((marked'.account sound' receiver).trans same)
  | incNonce a => exact getD_newCode (fun _ done => marked.incNonce sound done) (read a)
  | setStorage a key value => exact marked.setStorage sound a key value
  | createContract a =>
      have absent : s.newCode a = none := marked a (sound.consistent.not_changed fits)
      exact getD_newCode (fun _ done => createAccount_newCode absent done) rfl
  | setNewCode a bytes => exact setNewCode_newCode a _
  | account a => exact read a
  | storage a key => exact marked.storage sound a key
  | code a => exact marked.code empty sound coded a

def settled (removeEmpty : Bool) (s : State) : State :=
  if removeEmpty then s.removeEmptyAccounts else s

end State

/-! A `State` with the database of its code, and one without a cache -/

/-- How far a rollback may go is noted as well: an account that was touched may have been killed
since. -/
structure CachedState where
  db : H256 → Bytes
  state : State
  oldest : Nat := 0

structure PlainState where
  ledger : Ledger
  newCode : Nat → Option Bytes
  oldest : Nat

def CachedState.plain (m : CachedState) : PlainState := ⟨m.state.ledger, m.state.newCode, m.oldest⟩

variable (C : Crypto)

inductive StateOp.Step : StateOp → CachedState → CachedState → Prop
  | call (c : StateCall) (m : CachedState) : Step (.call c) m
  { m with state := c.run C m.db m.state }
  | kill (a : Nat) (m : CachedState) :
      Step (.kill a) m
        { m with state := m.state.kill a, oldest := max m.oldest (touchedAt a m.state.changeLog) }
  | rollback (savepoint : Nat) (m : CachedState) :
      Step (.rollback savepoint) m { m with state := m.state.rollback savepoint }
  | commit (removeEmpty : Bool) (m : CachedState) {db : H256 → Bytes} :
      CodeWritten (m.state.settled removeEmpty) m.db db →
        Step (.commit removeEmpty) m ⟨db, (m.state.settled removeEmpty).commit, 0⟩

/-- Code is set of a changed account, as it is during and after a creation, or of one that is not
there. A contract is created where there is no account. A rollback goes back to a savepoint that is
left, and not past the touch of an account that has been killed. -/
def CachedState.Allowed (m : CachedState) : StateOp → Prop
  | .call (.setNewCode a _) => m.state.addressInUse a = false ∨ ∃ acc, m.state.cache a = some acc ∧
  acc.isDirty = true
  | .call (.createContract a) => m.state.addressInUse a = false
  | .rollback savepoint => m.oldest ≤ savepoint ∧ savepoint ≤ m.state.savepoint
  | _ => True

/-- The operations of a run, each of the given kind; before and between them any unchanged entry may
be dropped. -/
inductive Run (permitted : CachedState → StateOp → Prop) (start : CachedState) : List StateOp →
    CachedState → Prop
  | start : Run permitted start [] start
  | evict {ops : List StateOp} {m : CachedState} (engine : Nat → Nat) :
      Run permitted start ops m →
      Run permitted start ops { m with state := { m.state with engine }.dropRandom }
  | step {ops : List StateOp} {o : StateOp} {m n : CachedState} :
      Run permitted start ops m → permitted m o → o.Step C m n → Run permitted start (ops ++ [o]) n

namespace PlainState

def after (o : StateOp) (p : PlainState) : PlainState :=
  match o with
  | .call c => { p with ledger := c.onLedger C p.ledger, newCode := c.setsCode p.newCode }
  | .kill a =>
      { p with ledger := p.ledger.kill a, oldest := max p.oldest (touchedAt a p.ledger.changeLog) }
  | .rollback savepoint =>
      { p with
        ledger := p.ledger.rollback savepoint
        newCode := codeBack savepoint p.ledger.changeLog p.newCode }
  | .commit removeEmpty =>
      { ledger := (if removeEmpty then p.ledger.removeEmptyAccounts else p.ledger).commit
        newCode := fun _ => none
        oldest := 0 }

def Fits (p : PlainState) : StateOp → Prop
  | .call c => c.Fits p.ledger
  | .rollback savepoint => p.oldest ≤ savepoint ∧ savepoint ≤ p.ledger.changeLog.length
  | _ => True

def run (ops : List StateOp) (p : PlainState) : PlainState := ops.foldl (fun p o => p.after C o) p

def AllFit : PlainState → List StateOp → Prop
  | _, [] => True
  | p, o :: rest => p.Fits o ∧ (p.after C o).AllFit rest

variable {C}

theorem allFit_append {p : PlainState} {ops : List StateOp} {o : StateOp} :
    p.AllFit C (ops ++ [o]) ↔ p.AllFit C ops ∧ (p.run C ops).Fits o := by
  induction ops generalizing p with
  | nil => simp [AllFit, run]
  | cons first rest ih =>
      rw [List.cons_append, AllFit, AllFit, ih, and_assoc]
      rfl

theorem run_append {p : PlainState} {ops : List StateOp} {o : StateOp} :
    p.run C (ops ++ [o]) = (p.run C ops).after C o := by
  rw [run, List.foldl_append]
  rfl

end PlainState

/-! The one refines the other -/

open Ledger State

structure CachedState.Kept (m : CachedState) : Prop where
  sound : m.state.Sound
  coded : m.state.Coded C m.db
  back : ∃ base : Ledger, base.changeLog.length = m.oldest ∧
    Undoable base m.state.ledger.changeLog m.state.ledger
  renewed : Renewed m.state.ledger.isChanged m.state.ledger.changeLog m.state.newCode

namespace CachedState

variable {C} {m n : CachedState}

theorem Kept.marked (kept : m.Kept C) : m.state.Marked := by
  intro a unchanged
  by_contra new
  rw [(kept.renewed a new).1] at unchanged
  cases unchanged

theorem kept_opened (db : H256 → Bytes) (trie : Nat → Option Record) (nonce : U256)
    (engine : Nat → Nat) (stored : ∀ a r, trie a = some r → Stored C db r.codeHash) :
    Kept C ⟨db, .opened trie nonce engine, 0⟩ where
  sound := opened_sound trie nonce engine
  coded := coded_opened stored nonce engine
  back := ⟨_, rfl, .refl (opened_sound trie nonce engine).consistent⟩
  renewed _ new := absurd rfl new

theorem Kept.evict (kept : m.Kept C) (engine : Nat → Nat) :
    Kept C { m with state := { m.state with engine }.dropRandom } ∧
      plain { m with state := { m.state with engine }.dropRandom } = m.plain := by
  let s : State := { m.state with engine }
  have sound : s.Sound := ⟨⟨rfl, kept.sound.shows.missing⟩, kept.sound.consistent⟩
  have ledger : s.dropRandom.ledger = m.state.ledger := dropRandom_ledger sound.consistent
  have marked : s.Marked := kept.marked
  have newCode : s.dropRandom.newCode = m.state.newCode := marked.dropRandom
  have coded : s.Coded C m.db := kept.coded.same rfl rfl
  refine ⟨⟨⟨⟨rfl, ?_⟩, ?_⟩, coded.dropRandom, ?_, ?_⟩, ?_⟩
  · change ∀ a ∈ s.nonExistingAccountsCache, s.dropRandom.ledger.trie a = none ∧ _
    rw [ledger]
    exact kept.sound.shows.missing
  · change s.dropRandom.ledger.Consistent
    rw [ledger]
    exact kept.sound.consistent
  · change ∃ base : Ledger, _ ∧ Undoable base s.dropRandom.ledger.changeLog s.dropRandom.ledger
    rw [ledger]
    exact kept.back
  · change Renewed s.dropRandom.ledger.isChanged s.dropRandom.ledger.changeLog s.dropRandom.newCode
    rw [ledger, newCode]
    exact kept.renewed
  · change PlainState.mk s.dropRandom.ledger s.dropRandom.newCode m.oldest = _
    rw [ledger, newCode]
    rfl

theorem settled_ledger (removeEmpty : Bool) (s : State) :
    (s.settled removeEmpty).ledger = if removeEmpty then s.ledger.removeEmptyAccounts
      else s.ledger := by
  cases removeEmpty with
  | true => exact removeEmptyAccounts_ledger
  | false => rfl

theorem Kept.settled (kept : m.Kept C) (removeEmpty : Bool) :
    (m.state.settled removeEmpty).Sound ∧ (m.state.settled removeEmpty).Coded C m.db := by
  cases removeEmpty with
  | true => exact ⟨kept.sound.removeEmptyAccounts, kept.coded.removeEmptyAccounts⟩
  | false => exact ⟨kept.sound, kept.coded⟩

theorem Kept.step {o : StateOp} (empty : C.sha3 [] = EmptySHA3) (kept : m.Kept C)
    (fits : m.plain.Fits o) (step : o.Step C m n) : n.Kept C ∧ n.plain = m.plain.after C o := by
  have consistent := kept.sound.consistent
  rcases kept.back with ⟨base, length, undoable⟩
  cases step with
  | call c =>
      have shows : (c.run C m.db m.state).Shows (c.onLedger C m.state.ledger) :=
        kept.sound.run_shows c fits
      have newCode := kept.marked.run empty kept.sound kept.coded c fits
      have here : Undoable m.state.ledger (c.onLedger C m.state.ledger).changeLog
          (c.onLedger C m.state.ledger) :=
        onLedger_undoable C c fits (.refl consistent)
      have renewed : Renewed (c.onLedger C m.state.ledger).isChanged
        (c.onLedger C m.state.ledger).changeLog
          (c.setsCode m.state.newCode) := by
        cases c with
        | setNewCode a bytes => exact kept.renewed.set bytes _ here
        | _ => exact kept.renewed.later here
      constructor
      · refine ⟨shows.sound here.consistent, kept.coded.run empty c, ⟨base, length, ?_⟩, ?_⟩
        · rw [shows.ledger]
          exact undoable.trans here
        · rw [shows.ledger, newCode]
          exact renewed
      · change PlainState.mk _ _ m.oldest = _
        rw [shows.ledger, newCode]
        rfl
  | kill a =>
      have shows := kill_shows (a := a) kept.sound.shows consistent
      have newCode := kept.marked.kill kept.sound a
      have off := offAt_kill a m.state.ledger
      have log : (m.state.ledger.kill a).changeLog = m.state.ledger.changeLog := by
        unfold Ledger.kill
        split
        · rfl
        · rfl
      have within : max m.oldest (touchedAt a m.state.ledger.changeLog) ≤
          m.state.ledger.changeLog.length :=
        max_le (length ▸ undoable.length_le) (touchedAt_le a _)
      rcases undoable.off off (length ▸ le_max_left _ _) (le_max_right _ _) within with
        ⟨base', length', undoable'⟩
      constructor
      · refine ⟨shows.sound (kill_consistent consistent), kept.coded.kill a,
          ⟨base', length', ?_⟩, ?_⟩
        · rw [shows.ledger, log]
          exact undoable'
        · rw [shows.ledger, newCode, log]
          intro x new
          rcases kept.renewed x new with ⟨changed, before⟩
          refine ⟨?_, before⟩
          unfold Ledger.kill
          split
          · exact changed
          · by_cases same : x = a
            · rw [same]
              exact put_isChanged_self
            · rwa [put_isChanged_ne same]
      · change PlainState.mk _ _ _ = _
        rw [shows.ledger, newCode]
        rfl
  | rollback savepoint =>
      rcases fits with ⟨since, within⟩
      have since' : base.changeLog.length ≤ savepoint := length ▸ since
      have shows : (m.state.rollback savepoint).Shows (m.state.ledger.rollback savepoint) :=
        rollbackFrom_shows_to undoable since' within kept.sound.shows
      have newCode : (m.state.rollback savepoint).newCode =
          codeBack savepoint m.state.ledger.changeLog m.state.newCode :=
            rollbackFrom_newCode savepoint _
      have undoable' := undoable.rollbackTo since' within
      constructor
      · refine ⟨shows.sound undoable'.consistent, kept.coded.rollbackFrom _ _,
          ⟨base, length, ?_⟩, ?_⟩
        · rw [shows.ledger]
          exact undoable'
        · rw [shows.ledger, newCode]
          exact kept.renewed.rollbackFrom savepoint
      · change PlainState.mk _ _ m.oldest = _
        rw [shows.ledger, newCode]
        rfl
  | @commit removeEmpty _ db written =>
      rcases kept.settled removeEmpty with ⟨sound, coded⟩
      have ledger := sound.commit_ledger
      constructor
      · refine ⟨commit_sound sound, coded.commit written,
          ⟨_, rfl, .refl (commit_sound sound).consistent⟩, ?_⟩
        intro a new
        exact absurd rfl new
      · change PlainState.mk (m.state.settled removeEmpty).commit.ledger _ 0 = _
        rw [ledger, settled_ledger]
        rfl

theorem Allowed.fits {o : StateOp} (kept : m.Kept C) (allowed : m.Allowed o) : m.plain.Fits o := by
  cases o with
  | call c =>
      cases c with
      | setNewCode a bytes =>
          rcases allowed with unused | ⟨acc, cached, dirty⟩
          · exact .inr (holding_of_unused kept.sound unused)
          · left
            change m.state.ledger.isChanged a = true
            rw [ledger_isChanged cached, dirty]
      | createContract a => exact holding_of_unused kept.sound allowed
      | _ => trivial
  | kill a => trivial
  | rollback savepoint => exact allowed
  | commit removeEmpty => trivial

theorem Kept.run {permitted : CachedState → StateOp → Prop} {ops : List StateOp}
    (empty : C.sha3 [] = EmptySHA3) (kept : m.Kept C) (run : Run C permitted m ops n)
    (fit : m.plain.AllFit C ops) :
    n.Kept C ∧ n.plain = m.plain.run C ops := by
  induction run with
  | start => exact ⟨kept, rfl⟩
  | evict engine _ ih =>
      rcases ih fit with ⟨kept', same⟩
      rcases kept'.evict engine with ⟨kept'', same'⟩
      exact ⟨kept'', same'.trans same⟩
  | step _ _ step ih =>
      rw [PlainState.allFit_append] at fit
      rcases ih fit.1 with ⟨kept', same⟩
      rcases kept'.step empty (same ▸ fit.2) step with ⟨kept'', same'⟩
      refine ⟨kept'', ?_⟩
      rw [same', same, PlainState.run_append]

theorem Kept.allFit {ops : List StateOp} (empty : C.sha3 [] = EmptySHA3) (kept : m.Kept C)
    (run : Run C Allowed m ops n) : m.plain.AllFit C ops := by
  induction run with
  | start => trivial
  | evict _ _ ih => exact ih
  | step before allowed _ ih =>
      rcases kept.run empty before ih with ⟨kept', same⟩
      rw [PlainState.allFit_append]
      exact ⟨ih, same ▸ allowed.fits kept'⟩

end CachedState

/-! What is read -/

/-- The sizes that `CodeSizeCache` has noted, for all states of the process. -/
def SizesRight (sizes : H256 → Option Nat) : Prop :=
  ∀ codeHash size, sizes codeHash = some size → ∃ bytes : Bytes, C.sha3 bytes = codeHash ∧
  bytes.length = size

namespace State

/-- The whole storage of an account: the overlay, and below it what the trie has, where neither is
zero. -/
def storageMap (a : Nat) (s : State) (key : U256) : Option U256 :=
  (s.account a).1.elim none fun acc =>
    let value := (acc.storageOverlay key).getD (acc.storageRoot key)
    if value = 0 then none else some value

def storageRoot (a : Nat) (s : State) : U256 → U256 := (s.trie a).elim (fun _ => 0) Record.storage

/-- `code` notes the size too when it loads the code, and so does this. -/
def codeSize (db : H256 → Bytes) (sizes : H256 → Option Nat) (a : Nat) (s : State) :
    Nat × (H256 → Option Nat) × State :=
  match s.account a with
  | (none, s) => (0, sizes, s)
  | (some acc, s) =>
      if acc.hasNewCode then (acc.codeCache.length, sizes, s)
      else
        match sizes acc.codeHash with
        | some size => (size, sizes, s)
        | none =>
            let size := (s.code db a).1.length
            (size, Function.update sizes acc.codeHash (some size), (s.code db a).2)

def addresses (s : State) (a : Nat) : Option U256 :=
  match s.cache a with
  | some acc => if acc.isAlive then some acc.balance else none
  | none => (s.trie a).map Record.balance

variable {C} {db db' : H256 → Bytes} {s t : State} {a : Nat} {sizes : H256 → Option Nat}

theorem addresses_eq (s : State) (a : Nat) :
    s.addresses a = (s.ledger.accounts a).map Record.balance := by
  unfold addresses Ledger.accounts
  cases cached : s.cache a with
  | none =>
      rw [ledger_holding_none cached]
      cases s.trie a with
      | none => rfl
      | some r => rfl
  | some acc =>
      rw [ledger_holding_some cached]
      change (if acc.isAlive = true then some acc.balance else none) =
        (if acc.isAlive = true then some acc.record else none).map Record.balance
      split
      · rfl
      · rfl

theorem codeSize_cases (collisionFree : Function.Injective C.sha3) (empty : C.sha3 [] = EmptySHA3)
    (sound : s.Sound) (coded : s.Coded C db) (marked : s.Marked) (right : SizesRight C sizes)
    (a : Nat) :
    (s.codeSize db sizes a).1 = (s.newCode a).elim (s.code db a).1.length List.length ∧
      SizesRight C (s.codeSize db sizes a).2.1 := by
  have code := coded.code_hash a
  have sound' := (sound.account a).sound
  have coded' := (coded.account a).1
  unfold codeSize
  rcases marked.account_cases sound a with ⟨acc, u, read, -, here⟩ | ⟨u, read, -, here⟩
  · have hash : s.codeHash a = acc.codeHash := by rw [codeHash, read]; rfl
    rw [hash] at code
    rw [here, read]
    dsimp only
    cases isNew : acc.hasNewCode with
    | true =>
        rw [if_pos rfl, Account.newCode, isNew]
        exact ⟨rfl, right⟩
    | false =>
        have none : acc.newCode = none := by rw [Account.newCode, isNew]; rfl
        rw [if_neg Bool.false_ne_true, none, Option.elim_none]
        have given : C.sha3 (s.code db a).1 = acc.codeHash := by
          rcases code with ⟨bare, noCode⟩ | ⟨-, hashed⟩
          · rw [noCode, bare, empty]
          · exact hashed
        split
        case h_1 size noted =>
          rcases right _ _ noted with ⟨bytes, hashed, length⟩
          rw [← length, collisionFree (hashed.trans given.symm)]
          exact ⟨rfl, right⟩
        case h_2 =>
          rw [read] at sound' coded'
          have ledger : u.ledger = s.ledger := by
            have shows := (account_shows sound.shows sound.consistent a).1
            rw [read] at shows
            exact shows.ledger
          have same : (u.code db a).1 = (s.code db a).1 :=
            coded.code_eq collisionFree coded'
              (by rw [sound'.codeHash_eq, sound.codeHash_eq, ledger])
          refine ⟨congrArg List.length same, fun codeHash size noted => ?_⟩
          dsimp only at noted
          by_cases other : codeHash = acc.codeHash
          · rw [other, Function.update_self] at noted
            cases noted
            exact ⟨(u.code db a).1, by rw [same, given, other], rfl⟩
          · rw [Function.update_of_ne other] at noted
            exact right codeHash size noted
  · have noCode : (s.code db a).1 = [] := by rw [State.code, read]
    rw [here, read, noCode]
    exact ⟨rfl, right⟩

end State

/-- Every reader reads the same of the two, and their tries, and so their roots, are the same. -/
structure Indistinct (m n : CachedState) : Prop where
  addressInUse : ∀ a, n.state.addressInUse a = m.state.addressInUse a
  accountNonemptyAndExisting : ∀ a, n.state.accountNonemptyAndExisting a =
    m.state.accountNonemptyAndExisting a
  addressHasCode : ∀ a, n.state.addressHasCode a = m.state.addressHasCode a
  balance : ∀ a, n.state.balance a = m.state.balance a
  getNonce : ∀ a, n.state.getNonce a = m.state.getNonce a
  storage : ∀ a key, (n.state.storage a key).1 = (m.state.storage a key).1
  storageMap : ∀ a, n.state.storageMap a = m.state.storageMap a
  storageRoot : ∀ a, n.state.storageRoot a = m.state.storageRoot a
  code : ∀ a, (n.state.code n.db a).1 = (m.state.code m.db a).1
  codeHash : ∀ a, n.state.codeHash a = m.state.codeHash a
  codeSize : ∀ a sizes sizes', SizesRight C sizes → SizesRight C sizes' →
    (n.state.codeSize n.db sizes' a).1 = (m.state.codeSize m.db sizes a).1
  addresses : n.state.addresses = m.state.addresses
  savepoint : n.state.savepoint = m.state.savepoint
  trie : n.state.trie = m.state.trie

variable {C} in
theorem indistinct {m n : CachedState} (collisionFree : Function.Injective C.sha3)
    (empty : C.sha3 [] = EmptySHA3) (kept : m.Kept C) (kept' : n.Kept C)
    (same : n.plain = m.plain) : Indistinct C m n := by
  have ledger : n.state.ledger = m.state.ledger := congrArg PlainState.ledger same
  have newCode : n.state.newCode = m.state.newCode := congrArg PlainState.newCode same
  have read : ∀ {β : Type} (a : Nat) (missing : β) (f : Holding → β),
      (n.state.account a).1.elim missing (fun acc => f acc.holding) =
        (m.state.account a).1.elim missing fun acc => f acc.holding := by
    intro β a missing f
    rw [kept'.sound.read_holding, kept.sound.read_holding, ledger]
  have trie : n.state.trie = m.state.trie := congrArg Ledger.trie ledger
  have hash : ∀ a, n.state.codeHash a = m.state.codeHash a :=
    fun a => read a EmptySHA3 fun h => h.record.codeHash
  have code : ∀ a, (n.state.code n.db a).1 = (m.state.code m.db a).1 := fun a =>
    kept.coded.code_eq collisionFree kept'.coded (hash a)
  constructor
  · intro a
    rw [kept'.sound.addressInUse_eq, kept.sound.addressInUse_eq, ledger]
  · exact fun a => read a false fun h => !h.isEmpty
  · exact fun a => read a false fun h => decide (h.record.codeHash ≠ EmptySHA3)
  · exact fun a => read a 0 fun h => h.record.balance
  · intro a
    have start : n.state.accountStartNonce = m.state.accountStartNonce :=
      congrArg Ledger.accountStartNonce ledger
    rw [kept'.sound.getNonce_eq, kept.sound.getNonce_eq, ledger, start]
  · intro a key
    rw [kept'.sound.storage_eq, kept.sound.storage_eq, ledger]
  · intro a
    funext key
    exact read a none fun h => if h.record.storage key = 0 then none
      else some (h.record.storage key)
  · intro a
    rw [State.storageRoot, State.storageRoot, trie]
  · exact code
  · exact hash
  · intro a sizes sizes' right right'
    have size := (codeSize_cases collisionFree empty kept.sound kept.coded kept.marked right a).1
    have size' :=
      (codeSize_cases collisionFree empty kept'.sound kept'.coded kept'.marked right' a).1
    rw [size, size', newCode, code]
  · funext a
    rw [State.addresses_eq, State.addresses_eq, ledger]
  · exact congrArg (fun l : Ledger => l.changeLog.length) ledger
  · exact trie

/-- Two runs of the same operations that differ in which unchanged entries are dropped, and when,
are not told apart. -/
theorem cache_eviction_unseen (C : Crypto) (collisionFree : Function.Injective C.sha3)
    (empty : C.sha3 [] = EmptySHA3) (db : H256 → Bytes) (trie : Nat → Option Record) (nonce : U256)
    (engine engine' : Nat → Nat) (stored : ∀ a r, trie a = some r → Stored C db r.codeHash)
    (ops : List StateOp) (m n : CachedState)
    (run : Run C CachedState.Allowed ⟨db, .opened trie nonce engine, 0⟩ ops m)
    (other : Run C (fun _ _ => True) ⟨db, .opened trie nonce engine', 0⟩ ops n) :
    Indistinct C m n := by
  have start := CachedState.kept_opened db trie nonce engine stored
  have start' := CachedState.kept_opened db trie nonce engine' stored
  have fit := start.allFit empty run
  rcases start.run empty run fit with ⟨kept, same⟩
  rcases start'.run empty other fit with ⟨kept', same'⟩
  exact indistinct collisionFree empty kept kept' (same'.trans same.symm)

/-- Account 3 is paid and gets code, which is taken back, once account 2 has been read. -/
theorem cache_eviction_unseen_read : ∃ m n : CachedState,
    ((m.state.cache 2).isSome = true ∧ (n.state.cache 2).isSome = false ∧ m.state.balance 3 = 4) ∧
      Indistinct emptyAware m n := by
  let permitted : CachedState → StateOp → Prop := CachedState.Allowed
  have begun : Run emptyAware permitted ⟨deployedCode, deployed, 0⟩ [] _ := .start
  have first := begun.step (o := .call (.transferBalance 1 3 4)) trivial (.call _ _)
  have second := first.step (o := .call (.code 2)) trivial (.call (.code 2) _)
  have dirty : Option.any Account.isDirty (((StateCall.code 2).run emptyAware deployedCode
      ((StateCall.transferBalance 1 3 4).run emptyAware deployedCode deployed)).cache 3) =
      true := by
    decide +kernel
  have third := second.step (o := .call (.setNewCode 3 [0x61]))
    (.inr ((Option.any_eq_true _ _).mp dirty)) (.call _ _)
  have fourth := third.step (o := .rollback 3) ⟨Nat.zero_le _, by decide +kernel⟩ (.rollback _ _)
  have begun' : Run emptyAware (fun _ _ => True) ⟨deployedCode, deployed, 0⟩ [] _ := .start
  have first' := begun'.step (o := .call (.transferBalance 1 3 4)) trivial (.call _ _)
  have second' := (first'.step (o := .call (.code 2)) trivial (.call (.code 2) _)).evict fun _ => 1
  have third' := second'.step (o := .call (.setNewCode 3 [0x61])) trivial (.call _ _)
  have fourth' := third'.step (o := .rollback 3) trivial (.rollback _ _)
  have stored : ∀ a r, deployed.trie a = some r → Stored emptyAware deployedCode r.codeHash :=
    (Attained.right rfl deployed_attained).2.stored
  exact ⟨_, _, by decide +kernel,
    cache_eviction_unseen emptyAware emptyAware_injective rfl deployedCode _ 0 _ _ stored
    _ _ _ fourth fourth'⟩

/-! Where the cache shows -/

def wealthy (a : Nat) : Option Record :=
  if a < 1002 then some ⟨0, 10, fun _ => 0, EmptySHA3⟩ else none

def crowded (n : Nat) (engine : Nat → Nat) : State :=
  { State.opened wealthy 0 engine with
    cache := fun a => if a < n then some (.loaded ⟨0, 10, fun _ => 0, EmptySHA3⟩) else none
    unchangedCacheEntries := List.range n }

theorem crowded_account {n : Nat} (room : n ≤ 1000) (engine : Nat → Nat) :
    ((crowded n engine).account n).2 = crowded (n + 1) engine := by
  have absent : (crowded n engine).cache n = none := if_neg (lt_irrefl n)
  have found : (crowded n engine).trie n = some ⟨0, 10, fun _ => 0, EmptySHA3⟩ := if_pos (by omega)
  have roomy : (crowded n engine).clearCacheIfTooLarge = crowded n engine := by
    have none : (List.range n).length - 1000 = 0 := by
      rw [List.length_range]
      omega
    rw [State.clearCacheIfTooLarge, crowded, none]
    rfl
  have cache : Function.update (crowded n engine).cache n
    (some (Account.loaded ⟨0, 10, fun _ => 0, EmptySHA3⟩)) =
      (crowded (n + 1) engine).cache := by
    funext a
    by_cases same : a = n
    · rw [same, Function.update_self]
      exact (if_pos (Nat.lt_succ_self n)).symm
    · have next : a < n + 1 ↔ a < n := by omega
      rw [Function.update_of_ne same]
      simp only [crowded, next]
  have missing : n ∉ (crowded n engine).nonExistingAccountsCache := Finset.notMem_empty n
  rw [State.account, absent]
  dsimp only
  rw [if_neg missing, found]
  dsimp only
  rw [roomy, State.put, cache, crowded, crowded, List.range_succ]

theorem crowded_run {n : Nat} (room : n ≤ 1001) (db : H256 → Bytes) (engine : Nat → Nat) :
    Run emptyAware (fun _ _ => True) ⟨db, .opened wealthy 0 engine, 0⟩
      ((List.range n).map fun a => .call (.account a)) ⟨db, crowded n engine, 0⟩ := by
  induction n with
  | zero =>
      have empty : crowded 0 engine = .opened wealthy 0 engine := by
        rw [crowded]
        simp [State.opened]
      rw [empty]
      exact .start
  | succ n ih =>
      have next := StateOp.Step.call (C := emptyAware) (.account n) ⟨db, crowded n engine, 0⟩
      rw [List.range_succ, List.map_append, ← crowded_account (by omega) engine]
      exact .step (ih (by omega)) trivial next

/-- Code is set of account 1, which has been dropped when account 1001 was read, or not. -/
theorem evicted_account_overwritten :
    ¬ ∀ (db : H256 → Bytes) (trie : Nat → Option Record) (nonce : U256) (engine engine' : Nat → Nat)
      (ops : List StateOp) (m n : CachedState), (∀ a r, trie a = some r →
        Stored emptyAware db r.codeHash) →
        Run emptyAware (fun _ _ => True) ⟨db, .opened trie nonce engine, 0⟩ ops m →
          Run emptyAware (fun _ _ => True) ⟨db, .opened trie nonce engine', 0⟩ ops n →
          Indistinct emptyAware m n := by
  intro indistinct
  have bare : ∀ a r, wealthy a = some r → Stored emptyAware (fun _ => []) r.codeHash := by
    intro a r found
    unfold wealthy at found
    split at found
    · cases found
      exact .inl rfl
    · cases found
  have run :=
    fun engine =>
      ((crowded_run le_rfl (fun _ => []) engine).step (o := .call (.account 1001)) trivial
    (.call _ _)).step (o := .call (.setNewCode 1 [0x60])) trivial (.call _ _)
  have same := (indistinct _ _ _ _ _ _ _ _ bare (run fun _ => 1) (run fun _ => 2)).balance 1
  revert same
  decide +kernel

/-- An empty account is read, and then touched and paid. -/
def touchedEmpty : CachedState :=
  { db := fun _ => []
    state := (StateCall.addBalance 2 4).run emptyAware (fun _ => []) (emptyKept.account 2).2 }

theorem touchedEmpty_run {permitted : CachedState → StateOp → Prop}
    (read : ∀ m, permitted m (.call (.account 2)))
    (paid : ∀ m, permitted m (.call (.addBalance 2 4))) :
    Run emptyAware permitted ⟨fun _ => [], emptyKept, 0⟩
      [.call (.account 2), .call (.addBalance 2 4)] touchedEmpty :=
  (Run.start.step (o := .call (.account 2)) (read _) (.call _ _)).step
    (o := .call (.addBalance 2 4)) (paid _) (.call _ _)

/-- The account is made anew. When all is rolled back, the payment is taken back from an empty entry
of the cache, which then counts as unchanged, and may be dropped or not. -/
theorem overcreated_account_seen :
    ¬ ∀ (ops : List StateOp) (m n : CachedState),
      Run emptyAware (fun m o => m.Allowed o ∨ o = .call (.createContract 2))
        ⟨fun _ => [], emptyKept, 0⟩ ops m →
      Run emptyAware (fun _ _ => True) ⟨fun _ => [], emptyKept, 0⟩ ops n →
      Indistinct emptyAware m n := by
  intro indistinct
  have begun : Run emptyAware (fun m o => m.Allowed o ∨ o = .call (.createContract 2)) _ _ _ :=
    touchedEmpty_run (fun m => .inl trivial) fun m => .inl trivial
  have created := begun.step (o := .call (.createContract 2)) (.inr rfl) (.call _ _)
  have undone := created.step (o := .rollback 0) (.inl ⟨le_rfl, Nat.zero_le _⟩) (.rollback _ _)
  have begun' : Run emptyAware (fun _ _ => True) _ _ _ :=
    touchedEmpty_run (fun m => trivial) fun m => trivial
  have created' := begun'.step (o := .call (.createContract 2)) trivial (.call _ _)
  have undone' := created'.step (o := .rollback 0) trivial (.rollback _ _)
  have same := (indistinct _ _ _ undone (undone'.evict fun _ => 0)).balance 2
  revert same
  decide +kernel

/-- So it is where the account is killed. -/
theorem killed_account_untouched :
    ¬ ∀ (ops : List StateOp) (m n : CachedState),
      Run emptyAware (fun m o => m.Allowed o ∨ ∃ savepoint ≤ m.state.savepoint,
        o = .rollback savepoint) ⟨fun _ => [], emptyKept, 0⟩ ops m →
      Run emptyAware (fun _ _ => True) ⟨fun _ => [], emptyKept, 0⟩ ops n →
      Indistinct emptyAware m n := by
  intro indistinct
  have begun : Run emptyAware (fun m o => m.Allowed o ∨ ∃ savepoint ≤ m.state.savepoint,
      o = .rollback savepoint) _ _ _ :=
    touchedEmpty_run (fun m => .inl trivial) fun m => .inl trivial
  have killed := begun.step (o := .kill 2) (.inl trivial) (.kill _ _)
  have undone :=
    killed.step (o := .rollback 0) (.inr ⟨0, Nat.zero_le _, rfl⟩) (.rollback _ _)
  have begun' : Run emptyAware (fun _ _ => True) _ _ _ :=
    touchedEmpty_run (fun m => trivial) fun m => trivial
  have killed' := begun'.step (o := .kill 2) trivial (.kill _ _)
  have undone' := killed'.step (o := .rollback 0) trivial (.rollback _ _)
  have same := (indistinct _ _ _ undone (undone'.evict fun _ => 0)).balance 2
  revert same
  decide +kernel

end Accounts

end UtispaceChain
