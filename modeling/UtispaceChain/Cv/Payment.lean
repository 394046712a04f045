import UtispaceChain.Cv.Executive

/-! A nonce that is raised, and a payment that throws: what they leave of the accounts. -/

namespace UtispaceChain

namespace Accounts

section Attempts

variable (C : Crypto) (db : H256 → Bytes)

def StateCall.throws : StateCall → State → Bool
  | .addBalance a amount, s => (s.addBalance a amount).isNone
  | .subBalance a value, s => (s.subBalance a value).isNone
  | .setBalance a value, s => (s.setBalance a value).isNone
  | .transferBalance sender receiver value, s => (s.transferBalance sender receiver value).isNone
  | .incNonce a, s => (s.incNonce a).isNone
  | .createContract a, s => (s.createContract a).isNone
  | _, _ => false

/-- A call with the state that it leaves, as an error when it throws. -/
def StateCall.attempt (c : StateCall) (s : State) : Except State State :=
  if c.throws s then .error (c.run C db s) else .ok (c.run C db s)

variable {s : State}

theorem attempt_incNonce (a : Nat) : ((StateCall.incNonce a).attempt C db s).toOption =
    s.incNonce a := by
  change (if (s.incNonce a).isNone then Except.error ((s.incNonce a).getD (s.account a).2)
    else .ok ((s.incNonce a).getD (s.account a).2)).toOption = s.incNonce a
  cases s.incNonce a with
  | none => rfl
  | some t => rfl

theorem attempt_incNonce_if (b : Bool) (a : Nat) :
    (if b then (StateCall.incNonce a).attempt C db s else .ok s).toOption = if b then s.incNonce a
      else some s := by
  cases b with
  | false => rfl
  | true => exact attempt_incNonce C db a

theorem run_transferBalance (s : State) (sender receiver : Nat) (value : U256) :
    (StateCall.transferBalance sender receiver value).run C db s = (s.subBalance sender value).elim
      (s.account sender).2 fun t => (t.addBalance receiver value).getD (t.account receiver).2 := by
  rw [StateCall.run]
  cases s.subBalance sender value with
  | none => rfl
  | some t => rfl

theorem transferBalance_run {sender receiver : Nat} {value : U256} {t : State}
    (done : s.transferBalance sender receiver value = some t) :
    (StateCall.transferBalance sender receiver value).run C db s = t := by
  obtain ⟨taken, subtracted, added⟩ := Option.bind_eq_some_iff.mp done
  rw [run_transferBalance, subtracted]
  exact congrArg (Option.getD · _) added

theorem attempt_transferBalance (sender receiver : Nat) (value : U256) :
    ((StateCall.transferBalance sender receiver value).attempt C db s).toOption =
      s.transferBalance sender receiver value := by
  change (if (s.transferBalance sender receiver value).isNone then
    Except.error _ else .ok _).toOption = _
  cases done : s.transferBalance sender receiver value with
  | none => rfl
  | some t => exact congrArg some (transferBalance_run C db done)

end Attempts

namespace Ledger

variable {l m : Ledger} {a sender receiver : Nat} {value amount : U256}

/-- The nonce of one account is one more; an account that is missing is made. -/
def raised (sender : Nat) (l : Ledger) : Nat → Option Holding :=
  Function.update l.holding sender (some ((l.holding sender).elim
    ⟨true, ⟨l.accountStartNonce + 1, 0, fun _ => 0, EmptySHA3⟩⟩ fun h =>
    h.setNonce (h.record.nonce + 1)))

theorem raised_self (sender : Nat) (l : Ledger) :
    l.raised sender sender = some ((l.holding sender).elim
    ⟨true, ⟨l.accountStartNonce + 1, 0, fun _ => 0, EmptySHA3⟩⟩
      fun h => h.setNonce (h.record.nonce + 1)) :=
  Function.update_self ..

theorem raised_of_ne (l : Ledger) (other : a ≠ sender) : l.raised sender a = l.holding a :=
  Function.update_of_ne other ..

theorem raised_elim {β : Type} (missing : β) (read : Holding → β)
    (fresh : read ⟨true, ⟨l.accountStartNonce + 1, 0, fun _ => 0, EmptySHA3⟩⟩ = missing)
    (kept : ∀ h nonce, read (h.setNonce nonce) = read h) :
    (l.raised sender a).elim missing read = (l.holding a).elim missing read := by
  by_cases same : a = sender
  · rw [same, raised_self, Option.elim_some]
    cases l.holding sender with
    | none => exact fresh
    | some h => exact kept h _
  · rw [raised_of_ne l same]

theorem createAccount_eq_none {nonce balance : U256} :
    l.createAccount a nonce balance = none ↔ l.accountStartNonce = BitVec.allOnes 256 := by
  simp [createAccount]

theorem incNonce_eq_none : l.incNonce a = none ↔ l.holding a = none ∧
    l.accountStartNonce = BitVec.allOnes 256 := by
  unfold incNonce
  cases l.holding a with
  | none => simp [createAccount_eq_none]
  | some h => simp

theorem addBalance_eq_none :
    l.addBalance a amount = none ↔ l.holding a = none ∧
    l.accountStartNonce = BitVec.allOnes 256 := by
  unfold addBalance
  cases l.holding a with
  | none => simp [createAccount_eq_none]
  | some h => simp

theorem incNonce_holding (done : l.incNonce a = some m) : m.holding = l.raised a := by
  unfold raised
  unfold incNonce at done
  split at done
  case h_1 h held =>
    cases done
    rw [held]
    rfl
  case h_2 held =>
    rw [createAccount, Option.ite_none_left_eq_some] at done
    rcases done with ⟨-, same⟩
    cases same
    rw [held]
    rfl

theorem noteTouch_holding {h : Holding} : (l.noteTouch a h).holding = l.holding := by
  unfold noteTouch
  split
  · rfl
  · rfl

theorem noteBalance_holding : (l.noteBalance a amount).holding = l.holding := by
  unfold noteBalance
  split
  · rfl
  · rfl

theorem subBalance_holding (done : l.subBalance sender value = some m) :
    m.accountStartNonce = l.accountStartNonce ∧
      ∀ x, (m.holding x).map (·.record.nonce) = (l.holding x).map (·.record.nonce) := by
  have steps := subBalance_steps done
  refine ⟨steps.start, ?_⟩
  unfold subBalance at done
  split at done
  · cases done
    exact fun x => rfl
  · split at done
    · cases done
    case h_2 h held =>
      rcases Option.ite_none_left_eq_some.mp done with ⟨-, done⟩
      rw [addBalance, held] at done
      cases done
      intro x
      rw [noteBalance_holding]
      change (Function.update (l.noteTouch sender h).holding sender _ x).map _ = _
      rw [noteTouch_holding]
      by_cases same : x = sender
      · rw [same, Function.update_self, held]
        rfl
      · rw [Function.update_of_ne same]

theorem subBalance_eq_none : l.subBalance sender value = none ↔
    (l.holding sender).elim 0 (fun h => h.record.balance) < value := by
  unfold subBalance
  by_cases nothing : value = 0
  · simp [nothing]
  · rw [if_neg nothing]
    cases held : l.holding sender with
    | none =>
        have positive : (0 : U256) < value := by
          rw [BitVec.lt_def]
          have nonzero : value.toNat ≠ 0 := fun zero => nothing (BitVec.eq_of_toNat_eq zero)
          exact Nat.pos_of_ne_zero nonzero
        simpa using positive
    | some h =>
        have found : ∀ amount, l.addBalance sender amount ≠ none := by
          intro amount missing
          rw [addBalance_eq_none, held] at missing
          exact absurd missing.1 (by nofun)
        simp [found]

theorem transferBalance_eq_none : l.transferBalance sender receiver value = none ↔
    (l.holding sender).elim 0 (fun h => h.record.balance) < value ∨
      (l.holding receiver = none ∧ l.accountStartNonce = BitVec.allOnes 256) := by
  unfold transferBalance
  rw [← subBalance_eq_none]
  cases taken : l.subBalance sender value with
  | none => simp
  | some m =>
      rcases subBalance_holding taken with ⟨start, nonces⟩
      have there : m.holding receiver = none ↔ l.holding receiver = none := by
        have same := nonces receiver
        rw [← Option.map_eq_none_iff, same, Option.map_eq_none_iff]
      rw [Option.bind_some, addBalance_eq_none, there, start]
      simp

theorem Undoable.keeps_held {base : Ledger} {log : List Change} (undoable : Undoable base log l)
    (held : base.holding a ≠ none) : l.holding a ≠ none := by
  induction undoable with
  | restored _ restores =>
      rcases restores.holding a with same | ⟨changed, -⟩
      · rwa [same]
      · exact restores.held a changed
  | @change l c log consistent undoes _ ih =>
      by_cases here : a = c.address
      · rw [here]
        exact consistent.held _ undoes.changed
      · rwa [undo_holding_ne here] at ih

def codeHash (a : Nat) (l : Ledger) : H256 :=
  (l.holding a).elim EmptySHA3 fun h => h.record.codeHash

theorem raised_codeHash (held : m.holding = l.raised a) (x : Nat) :
    m.codeHash x = l.codeHash x := by
  rw [codeHash, codeHash, held]
  exact raised_elim _ _ rfl fun _ _ => rfl

theorem addBalance_codeHash (done : l.addBalance a amount = some m) (x : Nat) :
    m.codeHash x = l.codeHash x := by
  unfold addBalance at done
  split at done
  case h_1 h held =>
    cases done
    rw [codeHash, codeHash, noteBalance_holding]
    change Option.elim (Function.update (l.noteTouch a h).holding a _ x) _ _ = _
    rw [noteTouch_holding]
    by_cases same : x = a
    · rw [same, Function.update_self, held]
      rfl
    · rw [Function.update_of_ne same]
  case h_2 held =>
    rcases Option.map_eq_some_iff.mp done with ⟨created, made, rfl⟩
    rcases Option.ite_none_left_eq_some.mp made with ⟨-, same⟩
    cases same
    rw [codeHash, codeHash, noteBalance_holding]
    change Option.elim (Function.update l.holding a _ x) _ _ = _
    by_cases same : x = a
    · rw [same, Function.update_self, held]
      rfl
    · rw [Function.update_of_ne same]

theorem transferBalance_codeHash (done : l.transferBalance sender receiver value = some m)
    (x : Nat) :
    m.codeHash x = l.codeHash x := by
  rcases Option.bind_eq_some_iff.mp done with ⟨taken, subtracted, added⟩
  rw [addBalance_codeHash added]
  unfold subBalance at subtracted
  split at subtracted
  · cases subtracted
    rfl
  · split at subtracted
    · cases subtracted
    · rcases Option.ite_none_left_eq_some.mp subtracted with ⟨-, paid⟩
      exact addBalance_codeHash paid x

end Ledger

namespace State

open Ledger

variable {C : Crypto} {db : H256 → Bytes} {s t u : State} {a sender receiver : Nat} {value : U256}

variable (db) in
/-- Two states read the same, but that the nonce of one account is one more. An account that was
missing has been made to hold it. -/
structure NonceRaised (sender : Nat) (s t : State) : Prop where
  addressInUse : ∀ a, t.addressInUse a = (s.addressInUse a || decide (a = sender))
  balance : ∀ a, t.balance a = s.balance a
  getNonce : ∀ a, t.getNonce a = if a = sender then s.getNonce a + 1 else s.getNonce a
  codeHash : ∀ a, t.codeHash a = s.codeHash a
  code : ∀ a, (t.code db a).1 = (s.code db a).1
  storage : ∀ a key, (t.storage a key).1 = (s.storage a key).1

theorem Sound.codeHash_ledger (sound : s.Sound) (a : Nat) : s.codeHash a = s.ledger.codeHash a :=
  sound.codeHash_eq a

theorem nonceRaised (collisionFree : Function.Injective C.sha3) (sound : s.Sound)
    (coded : s.Coded C db) (sound' : t.Sound) (coded' : t.Coded C db)
    (held : t.ledger.holding = s.ledger.raised sender)
    (start : t.accountStartNonce = s.accountStartNonce) : NonceRaised db sender s t := by
  have hash : ∀ a, t.codeHash a = s.codeHash a := by
    intro a
    rw [sound'.codeHash_ledger, sound.codeHash_ledger, Ledger.raised_codeHash held]
  constructor
  · intro a
    rw [sound'.addressInUse_eq, sound.addressInUse_eq, held]
    by_cases same : a = sender
    · simp [same, raised_self]
    · simp [same, raised_of_ne]
  · intro a
    rw [sound'.balance_eq, sound.balance_eq, held]
    exact raised_elim _ _ rfl fun _ _ => rfl
  · intro a
    rw [sound'.getNonce_eq, sound.getNonce_eq, held, start]
    by_cases same : a = sender
    · rw [if_pos same, same, raised_self]
      cases s.ledger.holding sender with
      | none => rfl
      | some h => rfl
    · rw [if_neg same, raised_of_ne _ same]
  · exact hash
  · intro a
    exact coded.code_eq collisionFree coded' (hash a)
  · intro a key
    rw [sound'.storage_eq, sound.storage_eq, Ledger.storage, Ledger.storage, held]
    exact raised_elim _ _ rfl fun _ _ => rfl

theorem NonceRaised.congr (raised : NonceRaised db sender s t) (alike : ReadsAlike db t u) :
    NonceRaised db sender s u where
  addressInUse a := (alike.addressInUse a).trans (raised.addressInUse a)
  balance a := (alike.balance a).trans (raised.balance a)
  getNonce a := (alike.getNonce a).trans (raised.getNonce a)
  codeHash a := (alike.codeHash a).trans (raised.codeHash a)
  code a := (alike.code a).trans (raised.code a)
  storage a key := (alike.storage a key).trans (raised.storage a key)

theorem isDead_eq (s : State) (a : Nat) :
    s.isDead a = (s.ledger.holding a).elim false fun h => !h.isAlive := by
  unfold isDead
  cases cached : s.cache a with
  | none =>
      rw [ledger_holding_none cached]
      cases s.trie a with
      | none => rfl
      | some r => rfl
  | some acc =>
      rw [ledger_holding_some cached]
      rfl

theorem raised_isDead (held : t.ledger.holding = s.ledger.raised sender) (a : Nat) :
    t.isDead a = s.isDead a := by
  rw [isDead_eq, isDead_eq, held]
  exact raised_elim _ _ rfl fun _ _ => rfl

/-! The calls of a `State`, from its ledger. -/

theorem account_ledger (sound : s.Sound) (a : Nat) : (s.account a).2.ledger = s.ledger :=
  (account_shows sound.shows sound.consistent a).1.ledger

theorem rel_none {α β : Type} {r : α → β → Prop} {x : Option α} {y : Option β}
    (related : Option.Rel r x y) :
    x = none ↔ y = none := by
  cases related with
  | none => simp
  | some => simp

theorem Sound.not_inUse (sound : s.Sound) : s.ledger.holding a = none ↔
    s.addressInUse a = false := by
  rw [sound.addressInUse_eq, Option.isSome_eq_false_iff, Option.isNone_iff_eq_none]

theorem Sound.incNonce_eq_none (sound : s.Sound) :
    s.incNonce a = none ↔ s.addressInUse a = false ∧ s.accountStartNonce = BitVec.allOnes 256 := by
  rw [rel_none (incNonce_shows sound.shows sound.consistent), Ledger.incNonce_eq_none,
    sound.not_inUse]
  rfl

theorem Sound.transferBalance_eq_none (sound : s.Sound) :
    s.transferBalance sender receiver value = none ↔
    s.balance sender < value ∨
    (s.addressInUse receiver = false ∧ s.accountStartNonce = BitVec.allOnes 256) := by
  rw [rel_none (transferBalance_shows sender receiver value sound.shows sound.consistent),
    Ledger.transferBalance_eq_none, sound.not_inUse, sound.balance_eq]
  rfl

theorem Sound.incNonce_holding (sound : s.Sound) (done : s.incNonce a = some t) :
    t.ledger.holding = s.ledger.raised a := by
  have related := incNonce_shows (a := a) sound.shows sound.consistent
  rw [done] at related
  generalize after : s.ledger.incNonce a = x at related
  cases related with
  | some shows =>
      rw [shows.ledger]
      exact Ledger.incNonce_holding after

theorem addressHasCode_eq (s : State) (a : Nat) :
    s.addressHasCode a = decide (s.codeHash a ≠ EmptySHA3) := by
  unfold addressHasCode codeHash
  cases (s.account a).1 with
  | none => simp
  | some acc => rfl

/-- Who is paid is there and has been changed, and nobody's code is. -/
structure Paid (receiver : Nat) (s t : State) : Prop where
  sound : t.Sound
  inUse : t.addressInUse receiver = true
  changed : t.ledger.isChanged receiver = true
  codeHash : ∀ a, t.codeHash a = s.codeHash a

theorem Sound.transferBalance_paid (sound : s.Sound)
    (done : s.transferBalance sender receiver value = some t) :
    Paid receiver s t := by
  have related := transferBalance_shows sender receiver value sound.shows sound.consistent
  rw [done] at related
  generalize after : s.ledger.transferBalance sender receiver value = x at related
  cases related with
  | @some _ m shows =>
      rcases transferBalance_undoable (.refl sound.consistent) after with ⟨undoable, changed⟩
      have sound' : t.Sound := shows.sound undoable.consistent
      have same : t.ledger = m := shows.ledger
      constructor
      · exact sound'
      · rw [sound'.addressInUse_eq, same, Option.isSome_iff_ne_none]
        exact undoable.consistent.held receiver changed
      · rw [same, changed]
      · intro a
        rw [sound'.codeHash_ledger, sound.codeHash_ledger, same,
          Ledger.transferBalance_codeHash after]

theorem since_inUse (since : Since C db s t) (sound : s.Sound) (inUse : s.addressInUse a = true) :
    t.addressInUse a = true := by
  have extended := since_extends since sound
  rw [extended.sound.addressInUse_eq, Option.isSome_iff_ne_none]
  apply extended.undoable.keeps_held
  rwa [← Option.isSome_iff_ne_none, ← sound.addressInUse_eq]

theorem since_changed (since : Since C db s t) (sound : s.Sound)
    (changed : s.ledger.isChanged a = true) :
    t.ledger.isChanged a = true :=
  (since_extends since sound).undoable.keeps_changed changed

/-! A call that does not throw is one of the calls since a savepoint. -/

theorem run_since (c : StateCall) (allowed : c.Allowed s) (ran : c.run C db s = t) :
    Since C db s t := by
  rw [← ran]
  exact (Since.start s).call c allowed

theorem incNonce_since (done : s.incNonce a = some t) : Since C db s t :=
  run_since (.incNonce a) trivial (congrArg (Option.getD · (s.account a).2) done)

theorem addBalance_since (done : s.addBalance a value = some t) : Since C db s t :=
  run_since (.addBalance a value) trivial (congrArg (Option.getD · (s.account a).2) done)

theorem subBalance_since (done : s.subBalance a value = some t) : Since C db s t :=
  run_since (.subBalance a value) trivial (congrArg (Option.getD · (s.account a).2) done)

theorem transferBalance_since (done : s.transferBalance sender receiver value = some t) :
    Since C db s t :=
  run_since (.transferBalance sender receiver value) trivial (transferBalance_run C db done)

theorem account_since (s : State) (a : Nat) : Since C db s (s.account a).2 :=
  (Since.start s).call (.account a) trivial

theorem setNewCode_since (sound : s.Sound) (changed : s.ledger.isChanged a = true)
    (bare : s.addressHasCode a = false) (bytes : Bytes) :
    Since C db s (s.setNewCode a ⟨bytes, C.sha3 bytes⟩) := by
  apply (Since.start s).call (.setNewCode a bytes)
  rcases cached_of_changed sound.shows changed with ⟨acc, cached, dirty, held⟩
  refine ⟨acc, cached, dirty, ?_⟩
  rw [addressHasCode_eq, decide_eq_false_iff_not, not_not, sound.codeHash_ledger, Ledger.codeHash,
    held] at bare
  exact bare

theorem Sound.transferBalance_nonce (sound : s.Sound)
    (thrown : s.transferBalance sender receiver value = none) (a : Nat) :
    ((StateCall.transferBalance sender receiver value).run C db s).getNonce a = s.getNonce a := by
  have read : ∀ {t : State} (x : Nat), t.Sound → (t.account x).2.getNonce a = t.getNonce a := by
    intro t x soundT
    have same : (t.account x).2.ledger = t.ledger :=
      (account_shows soundT.shows soundT.consistent x).1.ledger
    have start : (t.account x).2.accountStartNonce = t.accountStartNonce :=
      congrArg Ledger.accountStartNonce same
    rw [(soundT.account x).sound.getNonce_eq, soundT.getNonce_eq, same, start]
  rw [run_transferBalance]
  have related : Option.Rel Shows (s.subBalance sender value) (s.ledger.subBalance sender value) :=
    subBalance_shows sound.shows sound.consistent
  unfold transferBalance at thrown
  cases taken : s.subBalance sender value with
  | none => exact read sender sound
  | some t =>
      rw [taken] at related thrown
      generalize after : s.ledger.subBalance sender value = x at related
      cases related with
      | @some _ m shows =>
          have sound' : t.Sound :=
            shows.sound (subBalance_undoable (.refl sound.consistent) after).consistent
          rcases subBalance_holding after with ⟨start, nonces⟩
          have missing : t.addBalance receiver value = none := thrown
          rw [Option.elim_some, missing, Option.getD_none, read receiver sound', sound'.getNonce_eq,
            sound.getNonce_eq, shows.ledger]
          have same : t.accountStartNonce = s.accountStartNonce :=
            (congrArg Ledger.accountStartNonce shows.ledger).trans start
          have nonce := congrArg (Option.elim · s.accountStartNonce id) (nonces a)
          rw [Option.elim_map, Option.elim_map] at nonce
          rw [same]
          exact nonce

/-- A payment would throw: the sender has not enough, or the receiver cannot be made. -/
def Unpaid (sender receiver : Nat) (value : U256) (s : State) : Prop :=
  s.balance sender < value ∨
  (s.addressInUse receiver = false ∧ s.accountStartNonce = BitVec.allOnes 256)

variable (C db) in
/-- The nonce of an account has been raised, by calls of the state. -/
structure Raised (sender : Nat) (s t : State) : Prop where
  since : Since C db s t
  holding : t.ledger.holding = s.ledger.raised sender
  known : s.addressInUse sender = false → s.accountStartNonce ≠ BitVec.allOnes 256

theorem Sound.raised (sound : s.Sound) (done : s.incNonce a = some t) : Raised C db a s t where
  since := incNonce_since done
  holding := sound.incNonce_holding done
  known missing unknown := by
    rw [sound.incNonce_eq_none.mpr ⟨missing, unknown⟩] at done
    cases done

theorem Raised.reads (raised : Raised C db sender s t) (since : Since C db t u)
    (same : u.ledger = t.ledger) :
    Raised C db sender s u where
  since := since_trans raised.since since
  holding := by rw [same, raised.holding]
  known := raised.known

theorem Raised.of_read (sound : s.Sound) (raised : Raised C db sender (s.account a).2 t) :
    Raised C db sender s t := by
  have same : (s.account a).2.ledger = s.ledger :=
    (account_shows sound.shows sound.consistent a).1.ledger
  have start : (s.account a).2.accountStartNonce = s.accountStartNonce :=
    congrArg Ledger.accountStartNonce same
  constructor
  · exact since_trans (account_since s a) raised.since
  · rw [raised.holding, same]
  · intro missing unknown
    apply raised.known
    · rwa [(sound.account a).sound.addressInUse_eq, same, ← sound.addressInUse_eq]
    · rw [start, unknown]

theorem Raised.start (raised : Raised C db sender s t) (sound : s.Sound) :
    t.Sound ∧ t.accountStartNonce = s.accountStartNonce := by
  have extended := since_extends raised.since sound
  exact ⟨extended.sound, extended.steps.start⟩

theorem Raised.codeHash (raised : Raised C db sender s t) (sound : s.Sound) (a : Nat) :
    t.codeHash a = s.codeHash a := by
  rw [(raised.start sound).1.codeHash_ledger, sound.codeHash_ledger,
    Ledger.raised_codeHash raised.holding]

theorem Raised.inUse (raised : Raised C db sender s t) (sound : s.Sound) :
    t.addressInUse sender = true := by
  rw [(raised.start sound).1.addressInUse_eq, raised.holding, raised_self]
  rfl

theorem Raised.nonceRaised (collisionFree : Function.Injective C.sha3)
    (empty : C.sha3 [] = EmptySHA3) (sound : s.Sound) (coded : s.Coded C db)
    (raised : Raised C db sender s t) : NonceRaised db sender s t := by
  rcases raised.start sound with ⟨sound', start⟩
  exact State.nonceRaised collisionFree sound coded sound' (since_coded empty raised.since coded)
    raised.holding start

theorem Raised.getNonce (raised : Raised C db sender s t) (sound : s.Sound) :
    t.getNonce sender = s.getNonce sender + 1 := by
  rcases raised.start sound with ⟨sound', start⟩
  rw [sound'.getNonce_eq, sound.getNonce_eq, raised.holding, raised_self]
  cases s.ledger.holding sender with
  | none => rfl
  | some h => rfl

theorem Raised.unpaid (raised : Raised C db sender s t) (sound : s.Sound) :
    t.transferBalance sender receiver value = none ↔ s.Unpaid sender receiver value := by
  rcases raised.start sound with ⟨sound', start⟩
  have balance : t.balance sender = s.balance sender := by
    rw [sound'.balance_eq, sound.balance_eq, raised.holding]
    exact raised_elim _ _ rfl fun _ _ => rfl
  rw [sound'.transferBalance_eq_none, balance, start, Unpaid]
  have inUse : t.addressInUse receiver =
      (s.addressInUse receiver || decide (receiver = sender)) := by
    rw [sound'.addressInUse_eq, sound.addressInUse_eq, raised.holding]
    by_cases same : receiver = sender
    · simp [same, raised_self]
    · simp [same, raised_of_ne]
  by_cases same : receiver = sender
  · -- the sender is there now, and was there if it could not have been made
    have missing : ¬ (s.addressInUse receiver = false ∧
        s.accountStartNonce = BitVec.allOnes 256) := by
      rintro ⟨absent, unknown⟩
      rw [same] at absent
      exact raised.known absent unknown
    have there : t.addressInUse receiver = true := by rw [inUse, decide_eq_true same, Bool.or_true]
    apply or_congr_right
    constructor
    · rintro ⟨absent, -⟩
      rw [there] at absent
      cases absent
    · exact fun both => absurd both missing
  · simp [inUse, same]

variable (C db)

theorem attempt_incNonce_cases (sound : s.Sound) (a : Nat) :
    (s.addressInUse a = false ∧ s.accountStartNonce = BitVec.allOnes 256 ∧
        (StateCall.incNonce a).attempt C db s = .error (s.account a).2) ∨
      ∃ t, s.incNonce a = some t ∧ (StateCall.incNonce a).attempt C db s = .ok t := by
  have split : (StateCall.incNonce a).attempt C db s = if (s.incNonce a).isNone then
      .error ((s.incNonce a).getD (s.account a).2) else .ok ((s.incNonce a).getD (s.account a).2) :=
        rfl
  rw [split]
  cases done : s.incNonce a with
  | none =>
      rcases sound.incNonce_eq_none.mp done with ⟨missing, unknown⟩
      exact .inl ⟨missing, unknown, rfl⟩
  | some t => exact .inr ⟨t, rfl, rfl⟩

theorem attempt_transferBalance_cases (s : State) (sender receiver : Nat) (value : U256) :
    (s.transferBalance sender receiver value = none ∧
      (StateCall.transferBalance sender receiver value).attempt C db s =
        .error ((StateCall.transferBalance sender receiver value).run C db s)) ∨
      ∃ t, s.transferBalance sender receiver value = some t ∧
        (StateCall.transferBalance sender receiver value).attempt C db s = .ok t := by
  have split : (StateCall.transferBalance sender receiver value).attempt C db s =
      if (s.transferBalance sender receiver value).isNone then
        .error ((StateCall.transferBalance sender receiver value).run C db s)
      else .ok ((StateCall.transferBalance sender receiver value).run C db s) := rfl
  rw [split]
  cases done : s.transferBalance sender receiver value with
  | none => exact .inl ⟨rfl, rfl⟩
  | some t => exact .inr ⟨t, rfl, congrArg Except.ok (transferBalance_run C db done)⟩

end State

end Accounts

end UtispaceChain
