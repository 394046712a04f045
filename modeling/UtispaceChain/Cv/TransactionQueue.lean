import Mathlib.Data.List.Sort
import UtispaceChain.Cv.NonceCheck
import UtispaceChain.Lib.NestedMap

/-! `TransactionQueue`: the current transactions with their two indices, and the future ones. An
operation gives nothing where the code would run on: out of a loop that does not end, or past what a
handle, `begin` or `rbegin` stands for. -/

namespace UtispaceChain

open Lib

structure VerifiedTransaction extends Transaction where
  gasPrice : Nat
  importTime : Nat
  deriving DecidableEq, Repr

/-- A transaction of the current set, under the iterator that stands for it. -/
structure QueueEntry where
  handle : Nat
  transaction : VerifiedTransaction
  deriving DecidableEq, Repr

/-- `nextHandle` has not been an iterator yet. The choice is which address `m_future.begin()` will
be at. -/
structure TransactionQueue where
  known : Finset H256
  dropped : Finset H256
  current : List QueueEntry
  currentByHash : Map Nat
  currentByAddressAndNonce : NestedMap Nat
  future : NestedMap VerifiedTransaction
  limit : Nat
  futureLimit : Nat
  futureSize : Nat
  nextHandle : Nat
  choice : Nat → Nat

def nextNonce (nonce : Nat) : Nat := (nonce + 1) % 2 ^ 256

namespace TransactionQueue

inductive ImportResult
  | success
  | alreadyInChain
  | alreadyKnown
  | malformed
  | overbidGasPrice
  | nonceCheckFail
  | blockLimitCheckFail
  deriving DecidableEq, Repr

def opened (limit futureLimit : Nat) (choice : Nat → Nat) : TransactionQueue where
  known := ∅
  dropped := ∅
  current := []
  currentByHash := ∅
  currentByAddressAndNonce := ∅
  future := ∅
  limit
  futureLimit
  futureSize := 0
  nextHandle := 0
  choice

/-- `PriorityCompare`; a new entry goes in front of the first that it compares to. -/
def priorityCompare (first second : QueueEntry) : Prop :=
  first.transaction.importTime ≤ second.transaction.importTime

instance : DecidableRel priorityCompare := fun first second =>
  inferInstanceAs (Decidable (first.transaction.importTime ≤ second.transaction.importTime))

def deref (handle : Nat) (q : TransactionQueue) : Option VerifiedTransaction :=
  (q.current.find? fun e => e.handle = handle).map QueueEntry.transaction

def erase (handle : Nat) (q : TransactionQueue) : TransactionQueue :=
  { q with current := q.current.filter fun e => e.handle ≠ handle }

/-- A new entry of the current set, and both indices of it. -/
def place (sender : Nat) (hash : H256) (t : VerifiedTransaction) (q : TransactionQueue) :
    TransactionQueue :=
  let inner := (q.currentByAddressAndNonce.inner sender).insert t.randomid q.nextHandle
  { q with
    current := q.current.orderedInsert priorityCompare ⟨q.nextHandle, t⟩
    currentByAddressAndNonce := q.currentByAddressAndNonce.insert sender inner
    currentByHash := q.currentByHash.insert hash q.nextHandle
    nextHandle := q.nextHandle + 1 }

def checkWithLock (h : H256) (retry : Bool) (q : TransactionQueue) : ImportResult :=
  if h ∈ q.known then .alreadyKnown
  else if h ∈ q.dropped ∧ retry = false then .alreadyInChain
  else .success

def removeWithLock (txHash : H256) (q : TransactionQueue) : Option TransactionQueue :=
  match q.currentByHash[txHash]? with
  | none => some q
  | some handle =>
      (q.deref handle).bind fun t =>
        -- asserted in the source
        q.currentByAddressAndNonce[t.sender]?.map fun inner =>
          let q := q.erase handle
          { q with
            currentByHash := q.currentByHash.erase txHash
            currentByAddressAndNonce :=
              q.currentByAddressAndNonce.setInner t.sender (inner.erase t.randomid)
            known := q.known.erase txHash }

/-- The entries from one on whose numbers follow each other. -/
def following (nonce : Nat) : List (Nat × VerifiedTransaction) → List VerifiedTransaction
  | [] => []
  | (_, t) :: rest => if t.randomid = nonce then t :: following (nextNonce nonce) rest else []

/-- What `makeCurrent` finds behind a transaction. -/
def ahead (t : VerifiedTransaction) (q : TransactionQueue) : List VerifiedTransaction :=
  let fs := q.future.inner t.sender
  match fs[nextNonce t.randomid]? with
  | none => []
  | some _ =>
      following (nextNonce t.randomid) (fs.toList.filter fun p => nextNonce t.randomid ≤ p.1)

def toCurrent (sender : Nat) (q : TransactionQueue) (t : VerifiedTransaction) : TransactionQueue :=
  let q := q.place sender t.sha3 t
  { q with futureSize := toUnsigned (q.futureSize + (2 ^ 32 - 1)) }

def dropFuture (q : TransactionQueue) : Option TransactionQueue :=
  match q.future.toList[q.choice 0 % q.future.size]? with
  | none => none
  | some (a, inner) =>
      inner.toList.getLast?.map fun p =>
        { q with
          futureSize := toUnsigned (q.futureSize + (2 ^ 32 - 1))
          future := q.future.setInner a (inner.erase p.1)
          choice := fun i => q.choice (i + 1) }

/-- The loop over the future transactions, run a number of times at most. -/
def trimFuture : Nat → TransactionQueue → Option TransactionQueue
  | 0, _ => none
  | n + 1, q => if q.futureLimit < q.futureSize then q.dropFuture.bind (trimFuture n) else some q

def makeCurrentWithLock (t : VerifiedTransaction) (q : TransactionQueue) :
    Option TransactionQueue :=
  let moved := q.ahead t
  let q := moved.foldl (toCurrent t.sender) q
  let q :=
    if moved = [] then q
    else
      let fs := (q.future.inner t.sender).eraseAll (moved.map fun t => t.randomid)
      { q with future := q.future.setInner t.sender fs }
  trimFuture (q.futureSize + 1) q

def insertCurrentWithLock (h : H256) (t : VerifiedTransaction) (q : TransactionQueue) :
    Option TransactionQueue :=
  match q.currentByHash[h]? with
  | some _ => some q
  | none => ((q.place t.sender h t).makeCurrentWithLock t).map fun q =>
      { q with known := insert h q.known }

/-- The last entry goes, and the one before it is looked at for the log. -/
def dropCurrent (q : TransactionQueue) : Option TransactionQueue :=
  q.current.getLast?.bind fun last =>
    (q.removeWithLock last.transaction.sha3).bind fun q => q.current.getLast?.map fun _ => q

/-- The loop over the current transactions, run a number of times at most. -/
def trimCurrent : Nat → TransactionQueue → Option TransactionQueue
  | 0, _ => none
  | n + 1, q => if q.limit < q.current.length then q.dropCurrent.bind (trimCurrent n) else some q

/-- A transaction of the same sender and number in the current set gives way, unless it has the
better price; nothing is left to do then. -/
def replaceCurrent (t : VerifiedTransaction) (q : TransactionQueue) :
    Option (Option TransactionQueue) :=
  match q.currentByAddressAndNonce.slot t.sender t.randomid with
  | none => some (some q)
  | some handle =>
      (q.deref handle).bind fun old =>
        if t.gasPrice < old.gasPrice then some none else (q.removeWithLock old.sha3).map some

def replaceFuture (t : VerifiedTransaction) (q : TransactionQueue) : Option TransactionQueue :=
  match q.future.slot t.sender t.randomid with
  | none => some q
  | some old =>
      if t.gasPrice < old.gasPrice then none
      else
        some
          { q with
            future := q.future.setInner t.sender ((q.future.inner t.sender).erase t.randomid)
            futureSize := toUnsigned (q.futureSize + (2 ^ 32 - 1)) }

/-- The interface tells whether the nonce and the block limit are right. -/
def manageImportWithLock (h : H256) (t : VerifiedTransaction) (isNonceOk isBlockLimitOk : Bool)
    (q : TransactionQueue) : Option (ImportResult × TransactionQueue) :=
  if isNonceOk = false then some (.nonceCheckFail, q)
  else if isBlockLimitOk = false then some (.blockLimitCheckFail, q)
  else
    (q.replaceCurrent t).bind fun replaced =>
      match replaced with
      | none => some (.overbidGasPrice, q)
      | some q =>
          match q.replaceFuture t with
          | none => some (.overbidGasPrice, q)
          | some q =>
              (q.insertCurrentWithLock h t).bind fun q =>
                (trimCurrent (q.current.length + 1) q).map fun q => (.success, q)

/-- `import`, of bytes that make a transaction or do not, or of a transaction. -/
def importTransaction (h : H256) (t : Option VerifiedTransaction)
    (retry isNonceOk isBlockLimitOk : Bool) (q : TransactionQueue) :
    Option (ImportResult × TransactionQueue) :=
  match q.checkWithLock h retry with
  | .success =>
      match t with
      | none => some (.malformed, q)
      | some t => q.manageImportWithLock h t isNonceOk isBlockLimitOk
  | answer => some (answer, q)

def toFuture (sender : Nat) (q : TransactionQueue) (handle : Nat) : Option TransactionQueue :=
  (q.deref handle).map fun t =>
    let q := { q with
      currentByHash := q.currentByHash.erase t.sha3
      future := q.future.insert sender ((q.future.inner sender).insertIfNew t.randomid t) }
    { q.erase handle with futureSize := toUnsigned (q.futureSize + 1) }

def setFuture (txHash : H256) (q : TransactionQueue) : Option TransactionQueue :=
  match q.currentByHash[txHash]? with
  | none => some q
  | some handle =>
      (q.deref handle).bind fun st =>
        let queue := q.currentByAddressAndNonce.inner st.sender
        let cutoff := queue.toList.filter fun p => st.randomid ≤ p.1
        ((cutoff.map Prod.snd).foldlM (toFuture st.sender) q).map fun q =>
          { q with
            currentByAddressAndNonce :=
              q.currentByAddressAndNonce.setInner st.sender (queue.eraseAll (cutoff.map Prod.fst)) }

def drop (txHash : H256) (q : TransactionQueue) : Option TransactionQueue :=
  if txHash ∈ q.known then { q with dropped := insert txHash q.dropped }.removeWithLock txHash
    else some q

def dropGood (t : VerifiedTransaction) (q : TransactionQueue) : Option TransactionQueue :=
  (q.makeCurrentWithLock t).bind fun q => if t.sha3 ∈ q.known then q.removeWithLock t.sha3
    else some q

def clear (q : TransactionQueue) : TransactionQueue :=
  { q with
    known := ∅, current := [], currentByAddressAndNonce := ∅, currentByHash := ∅, future :=
    ∅, futureSize := 0 }

inductive Call
  | importTransaction (h : H256) (t : Option VerifiedTransaction)
  (retry isNonceOk isBlockLimitOk : Bool)
  | drop (txHash : H256)
  | dropGood (t : VerifiedTransaction)
  | setFuture (txHash : H256)
  | clear

def Call.run : Call → TransactionQueue → Option TransactionQueue
  | .importTransaction h t retry isNonceOk isBlockLimitOk, q =>
      (q.importTransaction h t retry isNonceOk isBlockLimitOk).map Prod.snd
  | .drop txHash, q => q.drop txHash
  | .dropGood t, q => q.dropGood t
  | .setFuture txHash, q => q.setFuture txHash
  | .clear, q => some q.clear

end TransactionQueue

end UtispaceChain
