import Mathlib.Data.Finset.Insert
import Mathlib.Logic.Function.Basic
import UtispaceChain.DevCrypto.Common

/-! `State`: the account cache over the state trie, its change log, and `commit`. -/

namespace UtispaceChain

namespace Accounts

abbrev U256 := BitVec 256

def EmptySHA3 : H256 := 0xc5d2460186f7233c927e7db2dcc703c0e500b653ca82273b7bfad8045d85a470

/-- What the state trie holds of an account. A storage trie is given by its values, zero for
none. -/
@[ext] structure Record where
  nonce : U256
  balance : U256
  storage : U256 → U256
  codeHash : H256

structure Code where
  bytes : Bytes
  hash : H256
  deriving DecidableEq, Repr

/-- An account in the cache; without arguments it is a dead one. -/
structure Account where
  isAlive : Bool := false
  isUnchanged : Bool := false
  hasNewCode : Bool := false
  nonce : U256 := 0
  balance : U256 := 0
  storageRoot : U256 → U256 := fun _ => 0
  codeHash : H256 := EmptySHA3
  storageOverlay : U256 → Option U256 := fun _ => none
  codeCache : Bytes := []

namespace Account

def created (nonce balance : U256) : Account := { isAlive := true, nonce, balance }

def loaded (r : Record) : Account where
  isAlive := true
  isUnchanged := true
  nonce := r.nonce
  balance := r.balance
  storageRoot := r.storage
  codeHash := r.codeHash

variable (acc : Account)

def isDirty : Bool := !acc.isUnchanged

def isEmpty : Bool :=
  decide (acc.nonce = 0) && decide (acc.balance = 0) && decide (acc.codeHash = EmptySHA3)

def kill : Account :=
  { acc with
    isAlive := false, storageOverlay := fun _ => none, codeHash :=
    EmptySHA3, storageRoot := fun _ => 0
    balance := 0, nonce := 0, isUnchanged := false }

def untouch : Account := { acc with isUnchanged := true }

def addBalance (value : U256) : Account :=
  { acc with balance := acc.balance + value, isUnchanged := false }

def incNonce : Account := { acc with nonce := acc.nonce + 1, isUnchanged := false }

def setNonce (nonce : U256) : Account := { acc with nonce, isUnchanged := false }

def setStorage (key value : U256) : Account :=
  { acc with storageOverlay := Function.update acc.storageOverlay key (some value), isUnchanged :=
    false }

def setStorageCache (key value : U256) : Account :=
  { acc with storageOverlay := Function.update acc.storageOverlay key (some value) }

def setNewCode (code : Code) : Account :=
  { acc with codeCache := code.bytes, hasNewCode := true, codeHash := code.hash }

def resetCode : Account := { acc with codeCache := [], hasNewCode := false, codeHash := EmptySHA3 }

/-- What `commit` writes of the account; an overlay value of zero takes the key out. -/
def record : Record where
  nonce := acc.nonce
  balance := acc.balance
  storage key := (acc.storageOverlay key).getD (acc.storageRoot key)
  codeHash := acc.codeHash

end Account

inductive ChangeKind
  | balance (value : U256)
  | storage (key value : U256)
  | nonce
  | create
  | newCode
  | touch
  deriving DecidableEq, Repr

/-- What is left of an account when a change of it is taken back. -/
def ChangeKind.undone : ChangeKind → Account → Option Account
  | .storage key value, acc => some (acc.setStorage key value)
  | .balance value, acc => some (acc.addBalance (0 - value))
  | .nonce, acc => some (acc.setNonce (acc.nonce - 1))
  | .create, _ => none
  | .newCode, acc => some acc.resetCode
  | .touch, acc => some acc.untouch

structure Change where
  kind : ChangeKind
  address : Nat
  deriving DecidableEq, Repr

/-- The change log has the newest change first. The engine is what the generator will draw, and is
asked which unchanged entry to drop. -/
structure State where
  trie : Nat → Option Record
  cache : Nat → Option Account
  unchangedCacheEntries : List Nat
  nonExistingAccountsCache : Finset Nat
  changeLog : List Change
  accountStartNonce : U256
  engine : Nat → Nat

namespace State

def opened (trie : Nat → Option Record) (accountStartNonce : U256) (engine : Nat → Nat) :
    State where
  trie
  cache _ := none
  unchangedCacheEntries := []
  nonExistingAccountsCache := ∅
  changeLog := []
  accountStartNonce
  engine

def put (a : Nat) (acc : Account) (s : State) : State :=
  { s with cache := Function.update s.cache a (some acc) }

def note (kind : ChangeKind) (a : Nat) (s : State) : State :=
  { s with changeLog := ⟨kind, a⟩ :: s.changeLog }

/-- One turn of `clearCacheIfTooLarge`: a random entry of the list goes, and its account with it
unless it has been changed. -/
def dropRandom (s : State) : State :=
  let size := s.unchangedCacheEntries.length
  let index := s.engine 0 % size
  let addr := s.unchangedCacheEntries.getD index 0
  let last := s.unchangedCacheEntries.getD (size - 1) 0
  { s with
    engine := fun i => s.engine (i + 1)
    unchangedCacheEntries := (s.unchangedCacheEntries.set index last).dropLast
    cache :=
      match s.cache addr with
      | none => s.cache
      | some acc => if acc.isDirty then s.cache else Function.update s.cache addr none }

def clearCacheIfTooLarge (s : State) : State := dropRandom^[s.unchangedCacheEntries.length - 1000] s

def account (a : Nat) (s : State) : Option Account × State :=
  match s.cache a with
  | some acc => (some acc, s)
  | none =>
      if a ∈ s.nonExistingAccountsCache then (none, s)
      else
        match s.trie a with
        | none => (none, { s with nonExistingAccountsCache := insert a s.nonExistingAccountsCache })
        | some r =>
            let s := s.clearCacheIfTooLarge
            let s := { s with unchangedCacheEntries := s.unchangedCacheEntries ++ [a] }
            (some (Account.loaded r), s.put a (Account.loaded r))

def createAccount (a : Nat) (nonce balance : U256) (s : State) : Option State :=
  if s.accountStartNonce = BitVec.allOnes 256 then none
  else
    let s := s.put a (Account.created nonce balance)
    some ({ s with nonExistingAccountsCache := s.nonExistingAccountsCache.erase a }.note .create a)

def incNonce (a : Nat) (s : State) : Option State :=
  match s.account a with
  | (some acc, s) => some ((s.put a acc.incNonce).note .nonce a)
  | (none, s) => s.createAccount a (s.accountStartNonce + 1) 0

def noteBalance (a : Nat) (amount : U256) (s : State) : State :=
  if amount = 0 then s else s.note (.balance amount) a

def addBalance (a : Nat) (amount : U256) (s : State) : Option State :=
  match s.account a with
  | (some acc, s) =>
      let s := if !acc.isDirty && acc.isEmpty then s.note .touch a else s
      some ((s.put a (acc.addBalance amount)).noteBalance a amount)
  | (none, s) => (s.createAccount a s.accountStartNonce amount).map (noteBalance a amount)

def subBalance (a : Nat) (value : U256) (s : State) : Option State :=
  if value = 0 then some s
  else
    match s.account a with
    | (none, _) => none
    | (some acc, s) => if acc.balance < value then none else s.addBalance a (0 - value)

def transferBalance (sender receiver : Nat) (value : U256) (s : State) : Option State :=
  (s.subBalance sender value).bind (addBalance receiver value)

def storage (a : Nat) (key : U256) (s : State) : U256 × State :=
  match s.account a with
  | (none, s) => (0, s)
  | (some acc, s) =>
      match acc.storageOverlay key with
      | some value => (value, s)
      | none => (acc.storageRoot key, s.put a (acc.setStorageCache key (acc.storageRoot key)))

def setStorage (a : Nat) (key value : U256) (s : State) : State :=
  let (old, s) := s.storage a key
  let s := s.note (.storage key old) a
  s.put a (((s.cache a).getD {}).setStorage key value)

def setNewCode (a : Nat) (code : Code) (s : State) : State :=
  (s.put a (((s.cache a).getD {}).setNewCode code)).note .newCode a

def kill (a : Nat) (s : State) : State :=
  match s.account a with
  | (none, s) => s
  | (some acc, s) => s.put a acc.kill

/-- What `rollback` does with one change; an account that is not cached counts as a dead one. -/
def undo (c : Change) (s : State) : State :=
  let s := { s with
    cache := Function.update s.cache c.address (c.kind.undone ((s.cache c.address).getD {})) }
  if c.kind = .touch then { s with unchangedCacheEntries := s.unchangedCacheEntries ++ [c.address] }
    else s

/-- The loop of `rollback`, on the log. -/
def rollbackFrom (savepoint : Nat) : List Change → State → State
  | [], s => { s with changeLog := [] }
  | c :: older, s =>
      if older.length + 1 = savepoint then { s with changeLog := c :: older }
      else rollbackFrom savepoint older (s.undo c)

def rollback (savepoint : Nat) (s : State) : State := s.rollbackFrom savepoint s.changeLog

/-- The changed accounts are written or taken out, and the cache and the log are emptied. -/
def commit (s : State) : State :=
  { s with
    trie := fun a =>
      match s.cache a with
      | none => s.trie a
      | some acc => if acc.isDirty then (if acc.isAlive then some acc.record else none)
          else s.trie a
    cache := fun _ => none
    unchangedCacheEntries := []
    changeLog := [] }

end State

inductive Op
  | addBalance (a : Nat) (amount : U256)
  | subBalance (a : Nat) (value : U256)
  | transferBalance (sender receiver : Nat) (value : U256)
  | incNonce (a : Nat)
  | setStorage (a : Nat) (key value : U256)
  | account (a : Nat)
  | storage (a : Nat) (key : U256)

/-- The operations of a transaction. A call and a creation have a savepoint at their start, and roll
back to it when they revert; a creation gives the new account the code its initialisation
returned. -/
inductive Ops
  | done
  | op (o : Op) (rest : Ops)
  | call (body : Ops) (reverts : Bool) (rest : Ops)
  | create (sender newAddress : Nat) (endowment : U256) (init : Ops) (code : Option Code)
      (reverts : Bool) (rest : Ops)

structure Tx where
  body : Ops
  suicides : List Nat

def Op.apply : Op → State → Option State
  | .addBalance a amount, s => s.addBalance a amount
  | .subBalance a value, s => s.subBalance a value
  | .transferBalance sender receiver value, s => s.transferBalance sender receiver value
  | .incNonce a, s => s.incNonce a
  | .setStorage a key value, s => some (s.setStorage a key value)
  | .account a, s => some (s.account a).2
  | .storage a key, s => some (s.storage a key).2

def Ops.run : Ops → State → Option State
  | .done, s => some s
  | .op o rest, s => (o.apply s).bind rest.run
  | .call body reverts rest, s =>
      (body.run s).bind fun after =>
        rest.run (if reverts then after.rollback s.changeLog.length else after)
  | .create sender newAddress endowment init code reverts rest, s =>
      (s.incNonce sender).bind fun s =>
        ((s.transferBalance sender newAddress endowment).bind init.run).bind fun after =>
          let after := code.elim after (after.setNewCode newAddress)
          rest.run (if reverts then after.rollback s.changeLog.length else after)

def Tx.run (tx : Tx) (s : State) : Option State :=
  (tx.body.run s).map fun s => tx.suicides.foldl (fun s a => s.kill a) s

def commitOnce (txs : List Tx) (s : State) : Option State :=
  (txs.foldlM (fun (s : State) (tx : Tx) => tx.run s) s).map State.commit

def commitEach (txs : List Tx) (s : State) : Option State :=
  txs.foldlM (fun (s : State) (tx : Tx) => (tx.run s).map State.commit) s

end Accounts

end UtispaceChain
