import UtispaceChain.Cv.CacheEviction
import UtispaceChain.Cv.FailedTransaction

/-! A transaction does the same on two states that hold the same accounts, whatever their caches and
logs have. -/

namespace UtispaceChain

namespace Accounts

open Ledger State

namespace Paired

variable {l m : Ledger} {atL atM : List Change} {a : Nat} {amount value key : U256}

theorem getD {x y : Option Ledger} (paired : Paired ∅ atL atM l m)
    (related : Option.Rel (Paired ∅ atL atM) x y) :
    Paired ∅ atL atM (x.getD l) (y.getD m) := by
  cases related with
  | none => exact paired
  | some related => exact related

theorem onLedger (C : Crypto) (c : StateCall) (paired : Paired ∅ atL atM l m) :
    Paired ∅ atL atM (c.onLedger C l) (c.onLedger C m) := by
  have outside : ∀ a : Nat, a ∉ (∅ : Set Nat) := Set.notMem_empty
  cases c with
  | addBalance a amount => exact paired.getD (paired.addBalance (outside a))
  | subBalance a value => exact paired.getD (paired.subBalance (.inr (outside a)))
  | setBalance a value =>
      simp only [StateCall.onLedger, paired.1.holding a (outside a)]
      exact paired.getD (paired.addBalance (outside a))
  | transferBalance sender receiver value =>
      have taken : Option.Rel (Paired ∅ atL atM) (l.subBalance sender value)
          (m.subBalance sender value) :=
        paired.subBalance (.inr (outside sender))
      simp only [StateCall.onLedger]
      generalize l.subBalance sender value = x at taken
      generalize m.subBalance sender value = y at taken
      cases taken with
      | none => exact paired
      | some taken => exact taken.getD (taken.addBalance (outside receiver))
  | incNonce a => exact paired.getD (paired.incNonce (outside a))
  | setStorage a key value => exact paired.setStorage
  | createContract a =>
      simp only [StateCall.onLedger, paired.1.startNonce]
      exact paired.getD (paired.createAccount (outside a))
  | setNewCode a bytes => exact paired.setNewCode (outside a)
  | account a => exact paired
  | storage a key => exact paired
  | code a => exact paired

end Paired

theorem undo_start (c : Change) (l : Ledger) :
    (l.undo c).accountStartNonce = l.accountStartNonce := by
  unfold Ledger.undo
  split
  · rfl
  · rfl
  · rfl

theorem rollback_start (savepoint : Nat) (l : Ledger) :
    (l.rollback savepoint).accountStartNonce = l.accountStartNonce := by
  unfold Ledger.rollback
  generalize l.changeLog = log
  induction log generalizing l with
  | nil => rfl
  | cons c older ih =>
      unfold Ledger.rollbackFrom
      split
      · rfl
      · exact (ih (l.undo c)).trans (undo_start c l)

theorem onLedger_start (C : Crypto) (c : StateCall) (l : Ledger) :
    (c.onLedger C l).accountStartNonce = l.accountStartNonce := by
  have kept : ∀ {x : Option Ledger} {l : Ledger}, (∀ m, x = some m →
    m.accountStartNonce = l.accountStartNonce) →
      (x.getD l).accountStartNonce = l.accountStartNonce := by
    intro x l done
    cases x with
    | none => rfl
    | some m => exact done m rfl
  cases c with
  | addBalance a amount => exact kept fun _ done => (addBalance_steps done).start
  | subBalance a value => exact kept fun _ done => (subBalance_steps done).start
  | setBalance a value => exact kept fun _ done => (addBalance_steps done).start
  | transferBalance sender receiver value =>
      simp only [StateCall.onLedger]
      split
      · rfl
      case h_2 taken done =>
        calc
          _ = taken.accountStartNonce := kept fun _ done => (addBalance_steps done).start
          _ = l.accountStartNonce := (subBalance_steps done).start
  | incNonce a => exact kept fun _ done => (incNonce_steps done).start
  | createContract a =>
      apply kept
      intro m done
      rcases Option.ite_none_left_eq_some.mp done with ⟨-, same⟩
      cases same
      rfl
  | setStorage a key value => rfl
  | setNewCode a bytes => rfl
  | account a => rfl
  | storage a key => rfl
  | code a => rfl

theorem isNone_of_rel {α β : Type} {r : α → β → Prop} {x : Option α} {y : Option β}
    (related : Option.Rel r x y) :
    x.isNone = y.isNone := by
  cases related with
  | none => rfl
  | some => rfl

variable (C : Crypto) (db : H256 → Bytes)

/-- What has been made of the state that had the given ledger. -/
structure State.Grown (l : Ledger) (s : State) : Prop where
  sound : s.Sound
  coded : s.Coded C db
  undoable : Undoable l s.ledger.changeLog s.ledger
  start : s.ledger.accountStartNonce = l.accountStartNonce

/-- Two states that hold the same accounts, grown from two ledgers by the same changes. -/
structure Matched (l m : Ledger) (s t : State) : Prop where
  left : s.Grown C db l
  right : t.Grown C db m
  paired : Paired ∅ l.changeLog m.changeLog s.ledger t.ledger

variable {C db} {l m : Ledger} {s t s' t' : State} {a : Nat}

theorem State.Sound.grown (sound : s.Sound) (coded : s.Coded C db) : s.Grown C db s.ledger :=
  ⟨sound, coded, .refl sound.consistent, rfl⟩

namespace Matched

theorem holding (matched : Matched C db l m s t) : t.ledger.holding = s.ledger.holding :=
  funext fun a => matched.paired.1.holding a (Set.notMem_empty a)

theorem accountStartNonce (matched : Matched C db l m s t) :
    t.accountStartNonce = s.accountStartNonce :=
  matched.paired.1.startNonce

theorem reads (collisionFree : Function.Injective C.sha3) (matched : Matched C db l m s t) :
    ReadsAlike db s t :=
  readsAlike collisionFree matched.left.sound matched.left.coded matched.right.sound
    matched.right.coded
    matched.holding matched.accountStartNonce

theorem here (matched : Matched C db l m s t) : Matched C db s.ledger t.ledger s t where
  left := matched.left.sound.grown matched.left.coded
  right := matched.right.sound.grown matched.right.coded
  paired := ⟨matched.paired.1, .start⟩

theorem trans (matched : Matched C db l m s t) (later : Matched C db s.ledger t.ledger s' t') :
    Matched C db l m s' t' where
  left := ⟨later.left.sound, later.left.coded, matched.left.undoable.trans later.left.undoable,
    later.left.start.trans matched.left.start⟩
  right := ⟨later.right.sound, later.right.coded, matched.right.undoable.trans later.right.undoable,
    later.right.start.trans matched.right.start⟩
  paired := matched.paired.extend later.paired

theorem rolled (grown : s'.Grown C db s.ledger) :
    (s'.rollback s.savepoint).Shows (s'.ledger.rollback s.savepoint) ∧
    (s'.rollback s.savepoint).Grown C db s.ledger := by
  have undoable : Undoable s.ledger s'.ledger.changeLog s'.ledger := grown.undoable
  have shows : (s'.rollback s.savepoint).Shows (s'.ledger.rollback s.savepoint) :=
    rollback_shows undoable grown.sound.shows
  have back : Undoable s.ledger (s'.ledger.rollback s.savepoint).changeLog
      (s'.ledger.rollback s.savepoint) :=
    grown.undoable.rollback
  refine ⟨shows, shows.sound back.consistent, grown.coded.rollbackFrom _ _, ?_, ?_⟩
  · rw [shows.ledger]
    exact back
  · rw [shows.ledger, rollback_start]
    exact grown.start

theorem rollback (matched : Matched C db l m s t) (later : Matched C db s.ledger t.ledger s' t') :
    Matched C db l m (s'.rollback s.savepoint) (t'.rollback t.savepoint) := by
  rcases rolled later.left with ⟨shows, grown⟩
  rcases rolled later.right with ⟨shows', grown'⟩
  refine matched.trans ⟨grown, grown', ?_⟩
  rw [shows.ledger, shows'.ledger]
  exact matched.here.paired.rollback later.paired

theorem grown_run (empty : C.sha3 [] = EmptySHA3) (c : StateCall) (grown : s.Grown C db l)
    (fits : c.Fits s.ledger) :
    (c.run C db s).Shows (c.onLedger C s.ledger) ∧ (c.run C db s).Grown C db l := by
  have shows : (c.run C db s).Shows (c.onLedger C s.ledger) := grown.sound.run_shows c fits
  have undoable := onLedger_undoable C c fits grown.undoable
  refine ⟨shows, shows.sound undoable.consistent, grown.coded.run empty c, ?_, ?_⟩
  · rw [shows.ledger]
    exact undoable
  · rw [shows.ledger, onLedger_start]
    exact grown.start

theorem run (empty : C.sha3 [] = EmptySHA3) (c : StateCall) (matched : Matched C db l m s t)
    (fits : c.Fits s.ledger) (fits' : c.Fits t.ledger) :
    Matched C db l m (c.run C db s) (c.run C db t) := by
  rcases grown_run empty c matched.left fits with ⟨shows, grown⟩
  rcases grown_run empty c matched.right fits' with ⟨shows', grown'⟩
  refine ⟨grown, grown', ?_⟩
  rw [shows.ledger, shows'.ledger]
  exact matched.paired.onLedger C c

theorem account (empty : C.sha3 [] = EmptySHA3) (matched : Matched C db l m s t) (a : Nat) :
    Matched C db l m (s.account a).2 (t.account a).2 :=
  matched.run empty (.account a) trivial trivial

theorem code (empty : C.sha3 [] = EmptySHA3) (matched : Matched C db l m s t) (a : Nat) :
    Matched C db l m (s.code db a).2 (t.code db a).2 := matched.run empty (.code a) trivial trivial

theorem attempted {f : State → Option State} {g : Ledger → Option Ledger} (c : StateCall)
    (empty : C.sha3 [] = EmptySHA3) (matched : Matched C db l m s t) (fits : c.Fits s.ledger)
    (fits' : c.Fits t.ledger) (ran : ∀ s s', f s = some s' → c.run C db s = s')
    (shows : Option.Rel Shows (f s) (g s.ledger)) (shows' : Option.Rel Shows (f t) (g t.ledger))
    (paired : Option.Rel (Paired ∅ l.changeLog m.changeLog) (g s.ledger) (g t.ledger)) :
    Option.Rel (Matched C db l m) (f s) (f t) := by
  have both : (f s).isNone = (f t).isNone :=
    (isNone_of_rel shows).trans ((isNone_of_rel paired).trans (isNone_of_rel shows').symm)
  cases done : f s with
  | none =>
      rw [done] at both
      rw [Option.isNone_iff_eq_none.mp both.symm]
      exact .none
  | some after =>
      rw [done] at both
      cases done' : f t with
      | none =>
          rw [done'] at both
          cases both
      | some after' =>
          rw [← ran s after done, ← ran t after' done']
          exact .some (matched.run empty c fits fits')

theorem addBalance (empty : C.sha3 [] = EmptySHA3) (matched : Matched C db l m s t) (a : Nat)
    (amount : U256) :
    Option.Rel (Matched C db l m) (s.addBalance a amount) (t.addBalance a amount) := by
  apply matched.attempted (.addBalance a amount) empty trivial trivial
    (fun s _ done => congrArg (Option.getD · (s.account a).2) done)
    (addBalance_shows matched.left.sound.shows matched.left.sound.consistent)
    (addBalance_shows matched.right.sound.shows matched.right.sound.consistent)
  exact matched.paired.addBalance (Set.notMem_empty a)

theorem subBalance (empty : C.sha3 [] = EmptySHA3) (matched : Matched C db l m s t) (a : Nat)
    (value : U256) :
    Option.Rel (Matched C db l m) (s.subBalance a value) (t.subBalance a value) := by
  apply matched.attempted (.subBalance a value) empty trivial trivial
    (fun s _ done => congrArg (Option.getD · (s.account a).2) done)
    (subBalance_shows matched.left.sound.shows matched.left.sound.consistent)
    (subBalance_shows matched.right.sound.shows matched.right.sound.consistent)
  exact matched.paired.subBalance (.inr (Set.notMem_empty a))

theorem transferBalance (empty : C.sha3 [] = EmptySHA3) (matched : Matched C db l m s t)
    (sender receiver : Nat) (value : U256) :
    Option.Rel (Matched C db l m) (s.transferBalance sender receiver value)
      (t.transferBalance sender receiver value) := by
  apply matched.attempted (.transferBalance sender receiver value) empty trivial trivial
    (fun _ _ done => transferBalance_run C db done)
    (transferBalance_shows sender receiver value matched.left.sound.shows
      matched.left.sound.consistent)
    (transferBalance_shows sender receiver value matched.right.sound.shows
      matched.right.sound.consistent)
  exact matched.paired.transferBalance (.inr (Set.notMem_empty sender)) (Set.notMem_empty receiver)

theorem incNonce (empty : C.sha3 [] = EmptySHA3) (matched : Matched C db l m s t) (a : Nat) :
    Option.Rel (Matched C db l m) (s.incNonce a) (t.incNonce a) := by
  apply matched.attempted (.incNonce a) empty trivial trivial
    (fun s _ done => congrArg (Option.getD · (s.account a).2) done)
    (incNonce_shows matched.left.sound.shows matched.left.sound.consistent)
    (incNonce_shows matched.right.sound.shows matched.right.sound.consistent)
  exact matched.paired.incNonce (Set.notMem_empty a)

end Matched

/-! The frames -/

inductive SameOutcome (r : State → State → Prop) : VMOutcome → VMOutcome → Prop
  | returned (gas : U256) (out : Bytes) (sub : SubState) {s t : State} :
      r s t → SameOutcome r (.returned gas out sub s) (.returned gas out sub t)
  | exception (excepted : TransactionException) {s t : State} :
      r s t → SameOutcome r (.exception excepted s) (.exception excepted t)
  | exit : SameOutcome r .exit .exit

inductive SameEnd (r : State → State → Prop) {α : Type} (q : α → α → Prop) : Except State α →
    Except State α → Prop
  | threw {s t : State} : r s t → SameEnd r q (.error s) (.error t)
  | ok {x y : α} : q x y → SameEnd r q (.ok x) (.ok y)

def VM.Even (C : Crypto) (db : H256 → Bytes) (vm : VM) : Prop :=
  ∀ gas ext s t, Matched C db s.ledger t.ledger s t →
    SameOutcome (Matched C db s.ledger t.ledger) (vm gas ext s) (vm gas ext t)

/-- Two executives that differ in their states and savepoints. -/
structure Executive.Beside (r : State → State → Prop) (e e' : Executive) : Prop where
  same : e' = { e with s := e'.s, savepoint := e'.savepoint }
  states : r e.s e'.s

theorem SameEnd.bind {r : State → State → Prop} {α β : Type} {q : α → α → Prop} {p : β → β → Prop}
    {x y : Except State α} {f g : α → Except State β} (both : SameEnd r q x y)
    (next : ∀ u v, q u v → SameEnd r p (f u) (g v)) : SameEnd r p (x.bind f) (y.bind g) := by
  cases both with
  | threw states => exact .threw states
  | ok related => exact next _ _ related

theorem SameEnd.mono {r r' : State → State → Prop} {α : Type} {q : α → α → Prop}
    {x y : Except State α} (both : SameEnd r q x y) (weaker : ∀ u v, r u v → r' u v) :
    SameEnd r' q x y := by
  cases both with
  | threw states => exact .threw (weaker _ _ states)
  | ok related => exact .ok related

theorem SameEnd.map {r : State → State → Prop} {α β : Type} {q : α → α → Prop} {p : β → β → Prop}
    {x y : Except State α} {f g : α → β} (both : SameEnd r q x y)
    (next : ∀ u v, q u v → p (f u) (g v)) :
    SameEnd r p (x.map f) (y.map g) := by
  cases both with
  | threw states => exact .threw states
  | ok related => exact .ok (next _ _ related)

theorem SameEnd.toOption {r : State → State → Prop} {α : Type} {q : α → α → Prop}
    {x y : Except State α} (both : SameEnd r q x y) : Option.Rel q x.toOption y.toOption := by
  cases both with
  | threw => exact .none
  | ok related => exact .some related

namespace Matched

variable {vm : VM} {ext : ExtVM}

theorem throws (empty : C.sha3 [] = EmptySHA3) (matched : Matched C db l m s t) (c : StateCall)
    (named : (∃ a, c = .incNonce a) ∨ ∃ sender receiver value, c =
      .transferBalance sender receiver value) :
    c.throws t = c.throws s := by
  rcases named with ⟨a, rfl⟩ | ⟨sender, receiver, value, rfl⟩
  · exact (isNone_of_rel (matched.incNonce empty a)).symm
  · exact (isNone_of_rel (matched.transferBalance empty sender receiver value)).symm

theorem attempt (empty : C.sha3 [] = EmptySHA3) (matched : Matched C db l m s t) (c : StateCall)
    (named : (∃ a, c = .incNonce a) ∨ ∃ sender receiver value, c =
      .transferBalance sender receiver value) :
    SameEnd (Matched C db l m) (Matched C db l m) (c.attempt C db s) (c.attempt C db t) := by
  have fits : ∀ l, c.Fits l := by
    rcases named with ⟨a, rfl⟩ | ⟨sender, receiver, value, rfl⟩
    · exact fun _ => trivial
    · exact fun _ => trivial
  have ran := matched.run empty c (fits _) (fits _)
  unfold StateCall.attempt
  rw [matched.throws empty c named]
  split
  · exact .threw ran
  · exact .ok ran

theorem answer {envInfo : EnvInfo} {sealEngine : SealEngine}
    (collisionFree : Function.Injective C.sha3) (empty : C.sha3 [] = EmptySHA3)
    (matched : Matched C db l m s t) (q : Query) :
    Option.Rel (fun x y => x.1 = y.1 ∧ x.2.1 = y.2.1 ∧ Matched C db l m x.2.2 y.2.2)
      (ext.answer db envInfo sealEngine s q) (ext.answer db envInfo sealEngine t q) := by
  have reads := matched.reads collisionFree
  cases q with
  | store n => exact .some ⟨congrArg Answer.word (reads.storage ext.myAddress n).symm, rfl,
      matched.run empty (.storage ext.myAddress n) trivial trivial⟩
  | setStore n v =>
      exact .some ⟨rfl, rfl, matched.run empty (.setStorage ext.myAddress n v) trivial trivial⟩
  | codeAt a => exact .some ⟨congrArg Answer.bytes (reads.code a).symm, rfl, matched.code empty a⟩
  | codeSizeAt a =>
      exact .some ⟨congrArg (fun code : Bytes => Answer.word (BitVec.ofNat 256 code.length))
        (reads.code a).symm, rfl, matched.code empty a⟩
  | balance a =>
      exact .some ⟨congrArg Answer.word (reads.balance a).symm, rfl, matched.account empty a⟩
  | existing a =>
      have filled : t.accountNonemptyAndExisting a = s.accountNonemptyAndExisting a := by
        have held := congrFun matched.holding a
        have left := matched.left.sound.read_holding a false fun h => !h.isEmpty
        have right := matched.right.sound.read_holding a false fun h => !h.isEmpty
        rw [held] at right
        exact right.trans left.symm
      refine .some ⟨?_, rfl, matched.account empty a⟩
      dsimp only
      rw [filled, reads.addressInUse]
  | suicide a =>
      unfold ExtVM.answer ExtVM.suicide
      rw [reads.balance]
      refine rel_map (r := fun x y => x.1 = y.1 ∧ Matched C db l m x.2 y.2) ?_
        fun x y _ _ related => ⟨rfl, related.1, related.2⟩
      refine rel_bind ((matched.account empty ext.myAddress).addBalance empty a _)
        fun u v _ _ paid => ?_
      rw [(paid.reads collisionFree).balance]
      exact rel_map ((paid.account empty ext.myAddress).subBalance empty ext.myAddress _)
        fun _ _ _ _ taken => ⟨rfl, taken⟩
  | log topics data => exact .some ⟨rfl, rfl, matched⟩
  | refund amount => exact .some ⟨rfl, rfl, matched⟩

theorem changed_later (matched : Matched C db s.ledger t.ledger s' t')
    (changed : s.ledger.isChanged a = true ∧ t.ledger.isChanged a = true) :
    s'.ledger.isChanged a = true ∧ t'.ledger.isChanged a = true :=
  ⟨matched.left.undoable.keeps_changed changed.1, matched.right.undoable.keeps_changed changed.2⟩

variable {e e' : Executive} {s₀ t₀ : State}

theorem attempt_paid (empty : C.sha3 [] = EmptySHA3) (matched : Matched C db l m s t)
    (sender receiver : Nat) (value : U256) :
    SameEnd (Matched C db l m)
      (fun u v => Matched C db l m u v ∧ u.ledger.isChanged receiver = true ∧
        v.ledger.isChanged receiver = true)
      ((StateCall.transferBalance sender receiver value).attempt C db s)
      ((StateCall.transferBalance sender receiver value).attempt C db t) := by
  have changed : ∀ {u u' : State}, u.Sound →
    (StateCall.transferBalance sender receiver value).attempt C db u = .ok u' →
      u'.ledger.isChanged receiver = true := by
    intro u u' sound done
    have paid := attempt_transferBalance C db (s := u) sender receiver value
    rw [done] at paid
    exact (sound.transferBalance_paid paid.symm).changed
  have both := matched.attempt empty (.transferBalance sender receiver value) (.inr ⟨_, _, _, rfl⟩)
  generalize left : (StateCall.transferBalance sender receiver value).attempt C db s = x at both
  generalize right : (StateCall.transferBalance sender receiver value).attempt C db t = y at both
  cases both with
  | threw states => exact .threw states
  | ok states =>
      exact .ok ⟨states, changed matched.left.sound left, changed matched.right.sound right⟩

theorem caught (before : Matched C db l m s₀ t₀)
    (beside : e.Beside (Matched C db s₀.ledger t₀.ledger) e') (savepoint : e.savepoint =
      s₀.savepoint ∧ e'.savepoint = t₀.savepoint) (excepted : TransactionException) :
    (e.caught excepted).Beside (Matched C db l m) (e'.caught excepted) := by
  have back := before.rollback beside.states
  rw [← savepoint.1, ← savepoint.2] at back
  have same := beside.same
  generalize e'.s = t at same back
  generalize e'.savepoint = sp at same back
  subst same
  exact ⟨rfl, back⟩

theorem deposit (empty : C.sha3 [] = EmptySHA3) (before : Matched C db l m s₀ t₀)
    (beside : e.Beside (Matched C db s₀.ledger t₀.ledger) e')
    (savepoint : e.savepoint = s₀.savepoint ∧ e'.savepoint = t₀.savepoint)
    (changed : e.s.ledger.isChanged ext.myAddress = true ∧ e'.s.ledger.isChanged ext.myAddress =
      true) (out : Bytes) :
    (e.deposit C ext out).Beside (Matched C db l m) (e'.deposit C ext out) := by
  have set : ∀ code, Matched C db l m (e.s.setNewCode ext.myAddress ⟨code, C.sha3 code⟩)
      (e'.s.setNewCode ext.myAddress ⟨code, C.sha3 code⟩) := fun code =>
    before.trans (beside.states.run empty (.setNewCode ext.myAddress code) (.inl changed.1)
      (.inl changed.2))
  have back := before.rollback beside.states
  rw [← savepoint.1, ← savepoint.2] at back
  have same := beside.same
  clear beside changed savepoint
  generalize e'.s = t at same back set
  generalize e'.savepoint = sp at same back
  subst same
  unfold Executive.deposit
  dsimp only
  split
  · exact ⟨rfl, back⟩
  · split
    · exact ⟨rfl, set out⟩
    · split
      · exact ⟨rfl, back⟩
      · exact ⟨rfl, set []⟩

theorem go (empty : C.sha3 [] = EmptySHA3) (even : vm.Even C db) (before : Matched C db l m s₀ t₀)
    (beside : e.Beside (Matched C db s₀.ledger t₀.ledger) e')
    (savepoint : e.savepoint = s₀.savepoint ∧ e'.savepoint = t₀.savepoint)
    (creation : e.isCreation = true → ∀ ext, e.ext = some ext →
      e.s.ledger.isChanged ext.myAddress = true ∧ e'.s.ledger.isChanged ext.myAddress = true) :
    Option.Rel (Executive.Beside (Matched C db l m)) (e.go C vm) (e'.go C vm) := by
  have same := beside.same
  have states := beside.states
  clear beside
  generalize e'.s = t₁ at *
  generalize e'.savepoint = savepoint' at *
  subst same
  rcases e with ⟨s₁, envInfo, sealEngine, maxGas, depth, t, ext, res, excepted, baseGasRequired,
    gas, refunded, logs, isCreation, newAddress, savepoint₁⟩
  unfold Executive.go
  cases ext with
  | none => exact .some ⟨rfl, before.trans states⟩
  | some ext =>
      have ran := even gas ext s₁ t₁ states.here
      dsimp only
      generalize vm gas ext s₁ = x at ran
      generalize vm gas ext t₁ = y at ran
      cases ran with
      | exit => exact .none
      | exception excepted left =>
          exact .some (caught before ⟨rfl, states.trans left⟩ savepoint excepted)
      | returned gas out sub left =>
          have later := states.trans left
          dsimp only
          split
          case isTrue made =>
            have changed := changed_later left (creation made ext rfl)
            exact .some (deposit empty before ⟨rfl, later⟩ savepoint changed out)
          case isFalse => exact .some ⟨rfl, before.trans later⟩

end Matched

variable (C db) in
structure Entered (l m : Ledger) (x y : Bool × Executive) : Prop where
  finished : x.1 = y.1
  frame : ∃ s₀ t₀, Matched C db l m s₀ t₀ ∧ x.2.Beside (Matched C db s₀.ledger t₀.ledger) y.2 ∧
    x.2.savepoint = s₀.savepoint ∧ y.2.savepoint = t₀.savepoint
  creation : x.2.isCreation = true → ∀ ext, x.2.ext = some ext →
    x.2.s.ledger.isChanged ext.myAddress = true ∧ y.2.s.ledger.isChanged ext.myAddress = true

namespace Matched

variable {s₀ t₀ : State} {e : Executive}

theorem addressHasCode (collisionFree : Function.Injective C.sha3) (matched : Matched C db l m s t)
    (a : Nat) :
    t.addressHasCode a = s.addressHasCode a := by
  rw [addressHasCode_eq, addressHasCode_eq, (matched.reads collisionFree).codeHash]

theorem pay (empty : C.sha3 [] = EmptySHA3) (before : Matched C db l m s₀ t₀)
    (states : Matched C db s₀.ledger t₀.ledger s t) (plain : e.isCreation = false)
    (savepoint : e.savepoint = s₀.savepoint) (sender receiver : Nat) (value : U256) :
    SameEnd (Matched C db l m) (Entered C db l m)
      (((StateCall.transferBalance sender receiver value).attempt C db s).map
        fun s => (e.ext.isNone, { e with s }))
      (((StateCall.transferBalance sender receiver value).attempt C db t).map fun s =>
        (e.ext.isNone, { e with s, savepoint := t₀.savepoint })) := by
  have paid := states.attempt empty (.transferBalance sender receiver value) (.inr ⟨_, _, _, rfl⟩)
  generalize (StateCall.transferBalance sender receiver value).attempt C db s = x at paid
  generalize (StateCall.transferBalance sender receiver value).attempt C db t = y at paid
  cases paid with
  | threw left => exact .threw (before.trans left)
  | ok left =>
      refine .ok ⟨rfl, ⟨s₀, t₀, before, ⟨rfl, left⟩, savepoint, rfl⟩, fun created => ?_⟩
      rw [plain] at created
      cases created

theorem callLeaving (collisionFree : Function.Injective C.sha3) (empty : C.sha3 [] = EmptySHA3)
    (matched : Matched C db l m e.s t) (plain : e.isCreation = false)
    (sender codeAddress receiveAddress : Nat) (valueTransfer apparentValue gas : U256)
    (data : Bytes) (gasPrice : U256) (origin : Nat) :
    SameEnd (Matched C db l m) (Entered C db l m)
      (e.callLeaving C db sender codeAddress receiveAddress valueTransfer apparentValue gas data
        gasPrice origin)
      ({ e with s := t }.callLeaving C db sender codeAddress receiveAddress valueTransfer
        apparentValue gas data gasPrice
        origin) := by
  have raised : SameEnd (Matched C db l m) (Matched C db l m)
      (if e.t.isSome then (StateCall.incNonce sender).attempt C db e.s else .ok e.s)
      (if e.t.isSome then (StateCall.incNonce sender).attempt C db t else .ok t) := by
    split
    · exact matched.attempt empty (.incNonce sender) (.inl ⟨sender, rfl⟩)
    · exact .ok matched
  unfold Executive.callLeaving
  refine raised.bind fun u v before => ?_
  dsimp only
  split
  · split
    · refine .ok ⟨rfl, ⟨u, v, before, ⟨rfl, before.here⟩, rfl, rfl⟩, fun created => ?_⟩
      rw [plain] at created
      cases created
    · exact before.pay empty before.here
        (e := { e with s := u, savepoint := u.savepoint, gas := _ }) plain rfl ..
  · have read := before.here.account empty codeAddress
    rw [before.addressHasCode collisionFree]
    split
    · have code := (read.reads collisionFree).code codeAddress
      rw [code]
      exact before.pay empty (read.code empty codeAddress) (e := { e with
        s := u, savepoint := u.savepoint, gas
        ext := some ⟨receiveAddress, sender, origin, apparentValue, gasPrice, data, _, e.depth,
          {}⟩ }) plain rfl ..
    · exact before.pay empty read (e := { e with s := u, savepoint := u.savepoint, gas })
        plain rfl ..

theorem createLeaving (collisionFree : Function.Injective C.sha3) (empty : C.sha3 [] = EmptySHA3)
    (matched : Matched C db l m e.s t) (fresh : e.ext = none) (sender : Nat)
    (endowment gasPrice gas : U256) (init : Bytes) (origin : Nat) :
    SameEnd (Matched C db l m) (Entered C db l m)
      (e.createLeaving C db sender endowment gasPrice gas init origin)
      ({ e with s := t }.createLeaving C db sender endowment gasPrice gas init origin) := by
  have nonce : t.getNonce sender = e.s.getNonce sender :=
    (matched.reads collisionFree).getNonce sender
  unfold Executive.createLeaving
  dsimp only
  rw [nonce]
  generalize Executive.createdAddress C sender (e.s.getNonce sender) = newAddress
  refine ((matched.account empty sender).attempt empty (.incNonce sender) (.inl ⟨sender, rfl⟩)).bind
    fun u v before => ?_
  refine ((before.here.attempt_paid empty sender newAddress endowment).mono
    fun _ _ => before.trans).bind ?_
  rintro s₁ t₁ ⟨paid, changed⟩
  have forked : SameEnd (Matched C db u.ledger v.ledger) (Matched C db s₁.ledger t₁.ledger)
      (if decide (e.sealEngine.eip158ForkBlock.toNat ≤ e.envInfo.number.toNat) = true then
        (StateCall.incNonce newAddress).attempt C db s₁ else .ok s₁)
      (if decide (e.sealEngine.eip158ForkBlock.toNat ≤ e.envInfo.number.toNat) = true then
        (StateCall.incNonce newAddress).attempt C db t₁ else .ok t₁) := by
    split
    · exact (paid.here.attempt empty (.incNonce newAddress) (.inl ⟨newAddress, rfl⟩)).mono
        fun _ _ => paid.trans
    · exact .ok paid.here
  refine (forked.mono fun _ _ => before.trans).map fun s₂ t₂ later => ?_
  have states := paid.trans later
  have changed₂ := later.changed_later changed
  split
  · refine ⟨rfl, ⟨u, v, before, ⟨rfl, states⟩, rfl, rfl⟩, fun _ ext made => ?_⟩
    cases made
    exact changed₂
  · have read := later.here.account empty newAddress
    have changed₃ := read.changed_later changed₂
    rw [states.addressHasCode collisionFree]
    split
    · have set := read.run empty (.setNewCode newAddress []) (.inl changed₃.1) (.inl changed₃.2)
      refine ⟨rfl, ⟨u, v, before, ⟨rfl, states.trans set⟩, rfl, rfl⟩, fun _ ext made => ?_⟩
      exact absurd (fresh.symm.trans made) nofun
    · refine ⟨rfl, ⟨u, v, before, ⟨rfl, states.trans read⟩, rfl, rfl⟩, fun _ ext made => ?_⟩
      exact absurd (fresh.symm.trans made) nofun

theorem call (collisionFree : Function.Injective C.sha3) (empty : C.sha3 [] = EmptySHA3)
    (matched : Matched C db l m e.s t) (plain : e.isCreation = false)
    (sender codeAddress receiveAddress : Nat) (valueTransfer apparentValue gas : U256)
    (data : Bytes) (gasPrice : U256) (origin : Nat) :
    Option.Rel (Entered C db l m)
      (e.call db sender codeAddress receiveAddress valueTransfer apparentValue gas data
        gasPrice origin)
      ({ e with s := t }.call db sender codeAddress receiveAddress valueTransfer apparentValue gas
        data gasPrice
        origin) := by
  rw [← Executive.callLeaving_toOption (C := C), ← Executive.callLeaving_toOption (C := C)]
  exact (matched.callLeaving collisionFree empty plain ..).toOption

theorem create (collisionFree : Function.Injective C.sha3) (empty : C.sha3 [] = EmptySHA3)
    (matched : Matched C db l m e.s t) (fresh : e.ext = none) (sender : Nat)
    (endowment gasPrice gas : U256) (init : Bytes) (origin : Nat) :
    Option.Rel (Entered C db l m) (e.create C sender endowment gasPrice gas init origin)
      ({ e with s := t }.create C sender endowment gasPrice gas init origin) := by
  have both :=
    (matched.createLeaving collisionFree empty fresh sender endowment gasPrice gas init
      origin).toOption
  rwa [Executive.createLeaving_toOption, Executive.createLeaving_toOption] at both

theorem entered_go {vm : VM} {x y : Bool × Executive} (empty : C.sha3 [] = EmptySHA3)
    (even : vm.Even C db) (entered : Entered C db l m x y) :
    Option.Rel (Executive.Beside (Matched C db l m)) (x.2.go C vm) (y.2.go C vm) := by
  rcases entered.frame with ⟨s₀, t₀, before, beside, savepoint⟩
  exact before.go empty even beside savepoint entered.creation

theorem entered_beside {x y : Bool × Executive} (entered : Entered C db l m x y) :
    x.2.Beside (Matched C db l m) y.2 := by
  rcases entered.frame with ⟨s₀, t₀, before, beside, -⟩
  exact ⟨beside.same, before.trans beside.states⟩

end Matched

def Answered (r : State → State → Prop) (x y : Answer × ExtVM × State) : Prop :=
  x.1 = y.1 ∧ x.2.1 = y.2.1 ∧ r x.2.2 y.2.2

namespace Matched

variable {vm : VM} {ext : ExtVM} {envInfo : EnvInfo} {sealEngine : SealEngine} {maxGas : U256}
  {executePrecompiled : Nat → Bytes → Bytes} {interpreter : Interpreter} {e e' : Executive}

theorem accrue (beside : e.Beside (Matched C db l m) e') (parentContext : SubState) :
    e'.accrueSubState parentContext = e.accrueSubState parentContext := by
  rw [beside.same]
  rfl

theorem extCall (collisionFree : Function.Injective C.sha3) (empty : C.sha3 [] = EmptySHA3)
    (even : vm.Even C db) (matched : Matched C db l m s t) (p : CallParameters) :
    Option.Rel (Answered (Matched C db l m))
      (ext.call C db envInfo sealEngine maxGas executePrecompiled s vm p)
      (ext.call C db envInfo sealEngine maxGas executePrecompiled t vm p) := by
  unfold ExtVM.call
  refine rel_bind
    (matched.call (e := ext.inner envInfo sealEngine maxGas s) collisionFree empty rfl ..) ?_
  rintro ⟨finished, e⟩ ⟨finished', e'⟩ - - entered
  have both : finished = finished' := entered.finished
  have beside : e.Beside (Matched C db l m) e' := entered_beside entered
  subst both
  dsimp only
  split
  · refine .some ⟨?_, rfl, beside.states⟩
    dsimp only
    rw [beside.same]
  · refine rel_map (entered_go empty even entered) fun u v _ _ ended => ⟨?_, ?_, ended.states⟩
    · dsimp only
      rw [ended.same]
    · dsimp only
      rw [accrue ended]

theorem extCreate (collisionFree : Function.Injective C.sha3) (empty : C.sha3 [] = EmptySHA3)
    (even : vm.Even C db) (matched : Matched C db l m s t) (endowment gas : U256) (code : Bytes) :
    Option.Rel (Answered (Matched C db l m))
      (ext.create C envInfo sealEngine maxGas s vm endowment gas code)
      (ext.create C envInfo sealEngine maxGas t vm endowment gas code) := by
  unfold ExtVM.create
  refine rel_bind
    (matched.create (e := ext.inner envInfo sealEngine maxGas s) collisionFree empty rfl ..) ?_
  rintro ⟨finished, e⟩ ⟨finished', e'⟩ - - entered
  have both : finished = finished' := entered.finished
  have beside : e.Beside (Matched C db l m) e' := entered_beside entered
  subst both
  dsimp only
  split
  · refine .some ⟨?_, rfl, beside.states⟩
    dsimp only
    rw [beside.same]
  · refine rel_map (entered_go empty even entered) fun u v _ _ ended => ⟨?_, ?_, ended.states⟩
    · dsimp only
      rw [ended.same]
    · dsimp only
      rw [accrue ended]

theorem exec (collisionFree : Function.Injective C.sha3) (empty : C.sha3 [] = EmptySHA3)
    (fuel : Nat) (gas : U256) (answers : List Answer) (matched : Matched C db l m s t) :
    SameOutcome (Matched C db l m)
      (exec C db envInfo sealEngine maxGas executePrecompiled interpreter (fun _ => false) fuel gas
        ext s answers)
      (exec C db envInfo sealEngine maxGas executePrecompiled interpreter
        (fun _ => false) fuel gas ext t
        answers) := by
  induction fuel generalizing gas ext l m s t answers with
  | zero => exact .exit
  | succ fuel ih =>
      have frames : VM.Even C db fun gas ext s =>
          Accounts.exec C db envInfo sealEngine maxGas executePrecompiled interpreter
            (fun _ => false) fuel
            gas ext s [] :=
        fun gas ext s t matched => ih gas [] matched
      have next : ∀ {x y : Answer × ExtVM × State}, Answered (Matched C db l m) x y →
          SameOutcome (Matched C db l m)
            (Accounts.exec C db envInfo sealEngine maxGas executePrecompiled interpreter
              (fun _ => false) fuel
              gas x.2.1 x.2.2
              (x.1 :: answers))
            (Accounts.exec C db envInfo sealEngine maxGas executePrecompiled interpreter
              (fun _ => false) fuel
              gas y.2.1 y.2.2
              (y.1 :: answers)) := by
        rintro ⟨a, ext₁, s₁⟩ ⟨b, ext₂, t₁⟩ ⟨same, frame, states⟩
        dsimp only at same frame states
        subst same
        subst frame
        exact ih gas (a :: answers) states
      unfold Accounts.exec
      cases interpreter gas ext answers with
      | ask q =>
          have given : Option.Rel (Answered (Matched C db l m))
            (ext.answer db envInfo sealEngine s q)
            (ext.answer db envInfo sealEngine t q) := matched.answer collisionFree empty q
          dsimp only
          generalize ext.answer db envInfo sealEngine s q = x at given ⊢
          generalize ext.answer db envInfo sealEngine t q = y at given ⊢
          cases given with
          | none => exact .exit
          | some answered => exact next answered
      | call p =>
          have given : Option.Rel (Answered (Matched C db l m))
            (ext.call C db envInfo sealEngine maxGas executePrecompiled s _ p)
            (ext.call C db envInfo sealEngine maxGas executePrecompiled t _ p) :=
              matched.extCall collisionFree empty frames p
          dsimp only
          generalize ext.call C db envInfo sealEngine maxGas executePrecompiled s _ p = x at given ⊢
          generalize ext.call C db envInfo sealEngine maxGas executePrecompiled t _ p = y at given ⊢
          cases given with
          | none => exact .exit
          | some answered => exact next answered
      | create endowment paid code =>
          have given : Option.Rel (Answered (Matched C db l m))
            (ext.create C envInfo sealEngine maxGas s _ endowment paid code)
            (ext.create C envInfo sealEngine maxGas t _ endowment paid code) :=
              matched.extCreate collisionFree empty frames endowment paid code
          have keeps : ∀ x : Option (Answer × ExtVM × State), x.filter (fun _ => !false) = x :=
            fun x => by cases x <;> rfl
          simp only [keeps]
          generalize ext.create C envInfo sealEngine maxGas s _ endowment paid code = x at given ⊢
          generalize ext.create C envInfo sealEngine maxGas t _ endowment paid code = y at given ⊢
          cases given with
          | none => exact .exit
          | some answered => exact next answered
      | stop left out => exact .returned _ _ _ matched
      | raise excepted => exact .exception excepted matched
      | abort => exact .exit

theorem interpreted_even (collisionFree : Function.Injective C.sha3) (empty : C.sha3 [] = EmptySHA3)
    (fuel : Nat) :
    VM.Even C db (interpreted C db envInfo sealEngine maxGas executePrecompiled interpreter fuel) :=
  fun gas _ _ _ matched => matched.exec collisionFree empty fuel gas []

end Matched

/-! The whole transaction -/

theorem Undoable.trie {base l : Ledger} {log : List Change} (undoable : Undoable base log l) :
    l.trie = base.trie := by
  induction undoable with
  | restored _ restores => exact restores.trie
  | change _ _ _ ih => exact undo_trie.symm.trans ih

variable (C db) in
/-- A state made of the one that had the given ledger, with nothing committed. -/
structure State.Kept (l : Ledger) (s : State) : Prop where
  sound : s.Sound
  coded : s.Coded C db
  trie : s.ledger.trie = l.trie
  start : s.ledger.accountStartNonce = l.accountStartNonce

variable (C db) in
/-- Two states at the end of a transaction, after the accounts that have committed suicide were
killed. -/
structure Ended (l m : Ledger) (s t : State) : Prop where
  left : s.Kept C db l
  right : t.Kept C db m
  alike : Alike ∅ s.ledger t.ledger

inductive SameReturn (r q : State → State → Prop) : ExecuteOutcome → ExecuteOutcome → Prop
  | threw {s t : State} : r s t → SameReturn r q (.threw s) (.threw t)
  | returned (res : ExecutionResult) (receipt : TransactionReceipt) {s t : State} :
      q s t → SameReturn r q (.returned res receipt s) (.returned res receipt t)
  | exit : SameReturn r q .exit .exit

theorem State.Grown.kept (grown : s.Grown C db l) : s.Kept C db l :=
  ⟨grown.sound, grown.coded, Undoable.trie grown.undoable, grown.start⟩

theorem State.Kept.kill (a : Nat) (kept : s.Kept C db l) : (s.kill a).Kept C db l := by
  have shows := kill_shows (a := a) kept.sound.shows kept.sound.consistent
  have same : (s.kill a).ledger.trie = s.ledger.trie ∧
      (s.kill a).ledger.accountStartNonce = s.ledger.accountStartNonce := by
    rw [shows.ledger]
    unfold Ledger.kill
    split
    · exact ⟨rfl, rfl⟩
    · exact ⟨rfl, rfl⟩
  exact ⟨shows.sound (kill_consistent kept.sound.consistent), kept.coded.kill a,
    same.1.trans kept.trie, same.2.trans kept.start⟩

theorem Ended.kills (ended : Ended C db l m s t) (suicides : List Nat) :
    Ended C db l m (suicides.foldl (fun s a => s.kill a) s)
      (suicides.foldl (fun s a => s.kill a) t) := by
  induction suicides generalizing s t with
  | nil => exact ended
  | cons a rest ih =>
      refine ih ⟨ended.left.kill a, ended.right.kill a, ?_⟩
      rw [(kill_shows ended.left.sound.shows ended.left.sound.consistent).ledger,
        (kill_shows ended.right.sound.shows ended.right.sound.consistent).ledger]
      exact Paired.kill ⟨ended.alike, .start⟩

namespace Matched

theorem ended (matched : Matched C db l m s t) : Ended C db l m s t where
  left := matched.left.kept
  right := matched.right.kept
  alike := matched.paired.1

theorem finalize {e e' : Executive} (beside : e.Beside (Matched C db l m) e') :
    e.finalize.Beside (Ended C db l m) e'.finalize := by
  have same := beside.same
  have killed := beside.states.ended.kills (e.ext.elim [] fun ext => ext.sub.suicides)
  clear beside
  generalize e'.s = t at same killed
  generalize e'.savepoint = savepoint at same
  subst same
  unfold Executive.finalize
  cases present : e.ext with
  | none =>
      rw [present] at killed
      exact ⟨rfl, killed⟩
  | some ext =>
      rw [present] at killed
      exact ⟨rfl, killed⟩

theorem executeLeaving {vm : VM} (collisionFree : Function.Injective C.sha3)
    (empty : C.sha3 [] = EmptySHA3) (even : vm.Even C db) (envInfo : EnvInfo)
    (sealEngine : SealEngine) (maxGas : U256) (tx : ExecTransaction)
    (matched : Matched C db l m s t) :
    SameReturn (Matched C db l m) (Ended C db l m)
      (s.executeLeaving C db vm envInfo sealEngine maxGas tx)
      (t.executeLeaving C db vm envInfo sealEngine maxGas tx) := by
  by_cases full : envInfo.gasLimit < envInfo.gasUsed.toNat + maxGas.toNat
  · unfold State.executeLeaving Executive.initializeTransaction
    dsimp only
    rw [if_pos full, if_pos full]
    exact .threw matched
  · let e : Executive :=
      { s, envInfo, sealEngine, maxGas, depth := 0, t := some tx
        baseGasRequired := gasRequired tx.isCreation tx.data (sealEngine.evmSchedule envInfo) }
    have accepted : Executive.initializeTransaction { s, envInfo, sealEngine, maxGas, depth := 0 }
        tx = some e := if_neg full
    have accepted' : Executive.initializeTransaction
      { s := t, envInfo, sealEngine, maxGas, depth := 0 } tx =
        some { e with s := t } := if_neg full
    have entered : SameEnd (Matched C db l m) (Entered C db l m) (e.executeLeaving C db tx)
        ({ e with s := t }.executeLeaving C db tx) := by
      have here : Matched C db l m e.s t := matched
      unfold Executive.executeLeaving
      split
      · exact here.createLeaving collisionFree empty rfl ..
      · exact here.callLeaving collisionFree empty rfl ..
    generalize left : e.executeLeaving C db tx = x at entered
    generalize right : { e with s := t }.executeLeaving C db tx = y at entered
    cases entered with
    | threw states =>
        rw [State.executeLeaving_error accepted left, State.executeLeaving_error accepted' right]
        exact .threw states
    | @ok x y entered =>
        rcases x with ⟨finished, e₁⟩
        rcases y with ⟨finished', e₂⟩
        have both : finished = finished' := entered.finished
        subst both
        have gone : Option.Rel (Executive.Beside (Matched C db l m)) (if finished then some e₁
          else e₁.go C vm)
            (if finished then some e₂ else e₂.go C vm) := by
          split
          · exact .some (entered_beside entered)
          · exact entered_go empty even entered
        rw [State.executeLeaving_ok accepted left, State.executeLeaving_ok accepted' right]
        generalize (if finished = true then some e₁ else e₁.go C vm) = x at gone
        generalize (if finished = true then some e₂ else e₂.go C vm) = y at gone
        cases gone with
        | none => exact .exit
        | @some e₃ e₄ beside =>
            have final := finalize beside
            have states := final.states
            rw [Option.elim_some, Option.elim_some, final.same]
            exact .returned _ _ states

end Matched

end Accounts

end UtispaceChain
