import UtispaceChain.DevCore.RlpCanonical
import UtispaceChain.DevCrypto.Common

/-! Transactions: reading them from their bytes with all checks, and writing them back. -/

namespace UtispaceChain

open Lib Rlp

structure SignatureStruct where
  r : H256 := 0
  s : H256 := 0
  v : Nat := 0
  deriving DecidableEq, Repr

namespace SignatureStruct

def secp256k1n : Nat := 0xfffffffffffffffffffffffffffffffebaaedce6af48a03bbfd25e8cd0364141

def isValid (sig : SignatureStruct) : Bool :=
  !(decide (1 < sig.v) || decide (secp256k1n ≤ sig.r) || decide (secp256k1n ≤ sig.s) ||
    decide (sig.s < 1) ||
    decide (sig.r < 1))

def toSignature (sig : SignatureStruct) : Signature := sig.r * 256 ^ 33 + sig.s * 256 + sig.v

end SignatureStruct

inductive TransactionType
  | nullTransaction
  | contractCreation
  | messageCall
  deriving DecidableEq, Repr

inductive IncludeSignature
  | withoutSignature
  | withSignature
  deriving DecidableEq, Repr

structure TransactionBase where
  type : TransactionType := .nullTransaction
  randomid : Nat := 0
  value : Nat := 0
  receiveAddress : Nat := 0
  gasPrice : Nat := 0
  gas : Nat := 0
  blockLimit : Nat := 0
  data : Bytes := []
  vrs : SignatureStruct := {}
  chainId : Int := -4
  sender : Nat := 0
  deriving DecidableEq, Repr

namespace TransactionBase

/-! Reading -/

def isEmpty : Bytes → Bool
  | [] => false
  | n :: _ => decide (n.toNat = 0x80) || decide (n.toNat = 0xc0)

/-- An empty string or an empty list stands for the zero address. -/
def readAddress (d : Bytes) : Option Nat := if isEmpty d then some 0 else toHash 20 d

/-- The chain of the last byte of the signature; the older form of it has none. -/
def chainIdOf (v : Nat) : Option Int :=
  if 36 < v then some (((v : Int) - 35).tdiv 2) else if v = 27 ∨ v = 28 then some (-4) else none

def transactionRLPDecode10Ele (rlp : Bytes) : Option TransactionBase :=
  ((item rlp 0).bind (toInt 32)).bind fun randomid =>
  ((item rlp 1).bind (toInt 32)).bind fun gasPrice =>
  ((item rlp 2).bind (toInt 32)).bind fun gas =>
  ((item rlp 3).bind (toInt 32)).bind fun blockLimit =>
  ((item rlp 4).bind readAddress).bind fun receiveAddress =>
  ((item rlp 5).bind (toInt 32)).bind fun value =>
  ((item rlp 6).bind toBytes).bind fun data =>
  ((item rlp 7).bind (toInt 1)).bind fun v =>
  ((item rlp 8).bind (toInt 32)).bind fun r =>
  ((item rlp 9).bind (toInt 32)).bind fun s =>
  (chainIdOf v).map fun chainId =>
    { type := if receiveAddress = 0 then .contractCreation else .messageCall
      randomid := randomid, gasPrice := gasPrice, gas := gas, blockLimit := blockLimit
      receiveAddress := receiveAddress, value := value, data := data, chainId := chainId
      vrs := ⟨r, s, (((v : Int) - (chainId * 2 + 35)) % 256).toNat⟩ }

def transactionRLPDecode (d : Bytes) : Option TransactionBase :=
  (construct d).bind fun rlp =>
    if isList rlp = false then none
    else (itemCount rlp).bind fun count => if count = 10 then transactionRLPDecode10Ele rlp
      else none

/-! Writing -/

/-- An `int` as the `unsigned` that the stream takes. -/
def unsigned (n : Int) : Nat := (n % 2 ^ 32).toNat

def streamRLP (t : TransactionBase) (sig : IncludeSignature) (forEip155hash : Bool)
    (s : RLPStream) :
    Option RLPStream :=
  if t.type = .nullTransaction then some s
  else
    (s.appendList ((if sig = .withSignature ∨ forEip155hash = true then 3 else 0) + 7)).bind
      fun s =>
    (s.appendInt t.randomid).bind fun s => (s.appendInt t.gasPrice).bind fun s =>
      (s.appendInt t.gas).bind fun s =>
    (s.appendInt t.blockLimit).bind fun s =>
    (s.append (if t.receiveAddress = 0 then [] else toBigEndian 20 t.receiveAddress)).bind fun s =>
    (s.appendInt t.value).bind fun s => (s.append t.data).bind fun s =>
      if sig = .withSignature then
        let vOffset := t.chainId * 2 + 35
        (s.appendInt (unsigned (t.vrs.v + vOffset))).bind fun s => (s.appendInt t.vrs.r).bind
          fun s =>
          s.appendInt t.vrs.s
      else if forEip155hash then
        (s.appendInt (unsigned t.chainId)).bind fun s => (s.appendInt 0).bind fun s => s.appendInt 0
      else some s

def rlp (t : TransactionBase) (sig : IncludeSignature) : Option Bytes :=
  (t.streamRLP sig false {}).bind RLPStream.out

variable (C : Crypto)

def sha3 (t : TransactionBase) (sig : IncludeSignature) : Option H256 :=
  ((t.streamRLP sig (decide (0 < t.chainId ∧ sig = .withoutSignature)) {}).bind RLPStream.out).map
    C.sha3

/-! The checks -/

def recoverSender (t : TransactionBase) : Option Nat :=
  (t.sha3 C .withoutSignature).bind fun hash =>
    let p := C.recover t.vrs.toSignature hash
    if p = 0 then none else some (C.sha3 (toBigEndian 64 p) % 2 ^ 160)

/-- `TransactionBase(_rlp, CheckTransaction::Everything)`. -/
def checked (d : Bytes) : Option TransactionBase :=
  (construct d).bind fun d => (transactionRLPDecode d).bind fun t =>
    if t.vrs.isValid = false then none
    else (t.recoverSender C).map fun sender => { t with sender := sender }

end TransactionBase

namespace TransactionBase

/-! What is written for a transaction that was read -/

/-- The last byte of the signature with the chain put in again. -/
def signatureV (t : TransactionBase) : Nat := unsigned (t.vrs.v + (t.chainId * 2 + 35))

def addressItem (address : Nat) : Bytes :=
  appendBytes (if address = 0 then [] else toBigEndian 20 address)

def fields (t : TransactionBase) : List Tree :=
  [.int t.randomid, .int t.gasPrice, .int t.gas, .int t.blockLimit,
    .data (if t.receiveAddress = 0 then [] else toBigEndian 20 t.receiveAddress), .int t.value,
    .data t.data, .int t.signatureV, .int t.vrs.r, .int t.vrs.s]

def itemsWith (t : TransactionBase) (receiver data : Bytes) : List Bytes :=
  [appendInt t.randomid, appendInt t.gasPrice, appendInt t.gas, appendInt t.blockLimit, receiver,
    appendInt t.value, data, appendInt t.signatureV, appendInt t.vrs.r, appendInt t.vrs.s]

theorem encodedAll_fields (t : TransactionBase) :
    Tree.encodedAll t.fields = t.itemsWith (addressItem t.receiveAddress) (appendBytes t.data) :=
  rfl

theorem streamRLP_eq {t : TransactionBase} (real : t.type ≠ .nullTransaction) (s : RLPStream) :
    t.streamRLP .withSignature false s = (Tree.list t.fields).write s := by
  rw [streamRLP, if_neg real]
  simp [Tree.write, Tree.writeAll, fields, signatureV]

theorem signatureV_read {v : Nat} {chainId : Int} (byte : v < 256)
    (read : chainIdOf v = some chainId) :
    unsigned (((((v : Int) - (chainId * 2 + 35)) % 256).toNat : Nat) + (chainId * 2 + 35)) = v := by
  unfold chainIdOf at read
  split_ifs at read with large old
  · cases read
    rw [Int.tdiv_eq_ediv_of_nonneg (by omega)]
    unfold unsigned
    omega
  · cases read
    unfold unsigned
    omega

section Read

variable {d : Bytes}

theorem readAddress_spec (address : Nat) (whole : Item d) (read : readAddress d = some address) :
    (d = addressItem address ↔ d ≠ [0xc0] ∧ d ≠ appendBytes (toBigEndian 20 0)) ∧
      Item (addressItem address) ∧ (addressItem address).length ≤ d.length := by
  have room : 20 < maxLength := by decide
  have pos : 0 < d.length := List.length_pos_of_ne_nil whole.1
  unfold readAddress at read
  by_cases empty : isEmpty d = true
  · rw [if_pos empty] at read
    cases read
    have written : addressItem 0 = [0x80] := rfl
    rw [written]
    refine ⟨?_, by decide, pos⟩
    have byte : d = [0x80] ∨ d = [0xc0] := by
      cases d with
      | nil => exact absurd rfl whole.1
      | cons n rest =>
          have first : n.toNat = 0x80 ∨ n.toNat = 0xc0 := by simpa [isEmpty] using empty
          rcases Item.forms n rest whole with ⟨low, -⟩ | ⟨low, high, -, size⟩ | ⟨low, high, -⟩ |
            ⟨low, high, size⟩ | ⟨low, -⟩
          · omega
          · have code : n.toNat = 0x80 := by omega
            have none : rest = [] := List.length_eq_zero_iff.mp (by omega)
            left
            rw [none, UInt8.toNat_inj.mp (show n.toNat = (0x80 : UInt8).toNat from code)]
          · omega
          · have code : n.toNat = 0xc0 := by omega
            have none : rest = [] := List.length_eq_zero_iff.mp (by omega)
            right
            rw [none, UInt8.toNat_inj.mp (show n.toNat = (0xc0 : UInt8).toNat from code)]
          · omega
    rcases byte with rfl | rfl
    · decide +kernel
    · decide +kernel
  · rw [if_neg empty] at read
    have shape := toHash_canonical 20 d address whole read
    by_cases zero : address = 0
    · subst zero
      rw [shape]
      decide +kernel
    · have same : addressItem address = d := by
        rw [addressItem, if_neg zero, shape]
      rw [same]
      refine ⟨⟨fun _ => ⟨?_, ?_⟩, fun _ => rfl⟩, whole, le_rfl⟩
      · intro list
        rw [list] at empty
        exact empty rfl
      · intro zeros
        have other : toHash 20 d = some 0 := by
          rw [zeros]
          decide +kernel
        exact zero (Option.some.inj (read.symm.trans other))

theorem toBytes_spec (data : Bytes) (whole : Item d) (read : toBytes d = some data) :
    (d = appendBytes data ↔ isData d = true) ∧ Item (appendBytes data) ∧ (appendBytes data).length ≤
      d.length := by
  have pos : 0 < d.length := List.length_pos_of_ne_nil whole.1
  unfold toBytes at read
  cases string : isData d with
  | true =>
      rw [if_pos string] at read
      rcases whole.eq_appendBytes d string with ⟨p, found, shape⟩
      obtain rfl : p = data := Option.some.inj (found.symm.trans read)
      rw [← shape]
      exact ⟨⟨fun _ => rfl, fun _ => rfl⟩, whole, le_rfl⟩
  | false =>
      rw [string, if_neg Bool.false_ne_true] at read
      cases read
      refine ⟨⟨fun same => ?_, nofun⟩, by decide, pos⟩
      have other : isData (appendBytes []) = true := rfl
      rw [← same, string] at other
      cases other

end Read

theorem toInt_lt (width : Nat) (d : Bytes) (value : Nat) (read : toInt width d = some value) :
    value < 256 ^ width := by
  rcases Option.bind_eq_some_iff.mp read with ⟨-, -, started⟩
  rcases Option.bind_eq_some_iff.mp started with ⟨canonical, -, checked⟩
  split_ifs at checked
  rcases Option.bind_eq_some_iff.mp checked with ⟨p, -, bounded⟩
  split_ifs at bounded with wide
  cases bounded
  have small := fromBigEndian_lt p
  have grown : 256 ^ p.length ≤ 256 ^ width := Nat.pow_le_pow_right (by decide) (by omega)
  omega

structure InWidth (t : TransactionBase) : Prop where
  randomid : t.randomid < 256 ^ 32
  gasPrice : t.gasPrice < 256 ^ 32
  gas : t.gas < 256 ^ 32
  blockLimit : t.blockLimit < 256 ^ 32
  value : t.value < 256 ^ 32
  r : t.vrs.r < 256 ^ 32
  s : t.vrs.s < 256 ^ 32

structure ReadFrom (t : TransactionBase) (l : List Bytes) (receiver data : Bytes) : Prop where
  real : t.type ≠ .nullTransaction
  items : l = t.itemsWith receiver data
  address : readAddress receiver = some t.receiveAddress
  bytes : toBytes data = some t.data
  width : t.InWidth

theorem decode10_spec (rlp : Bytes) (l : List Bytes) (whole : Items l) (ten : l.length = 10)
    (reads : ∀ i, item rlp i = some ((l[i]?).getD [])) (t : TransactionBase)
    (decoded : transactionRLPDecode10Ele rlp = some t) :
    ∃ receiver data, item rlp 4 = some receiver ∧ item rlp 6 = some data ∧
    t.ReadFrom l receiver data := by
  match l, ten with
  | [d0, d1, d2, d3, d4, d5, d6, d7, d8, d9], _ =>
      have each : ∀ d ∈ [d0, d1, d2, d3, d4, d5, d6, d7, d8, d9], Item d := whole
      simp only [List.forall_mem_cons, List.not_mem_nil, false_implies, implies_true,
        and_true] at each
      rcases each with ⟨i0, i1, i2, i3, i4, i5, i6, i7, i8, i9⟩
      refine ⟨d4, d6, reads 4, reads 6, ?_⟩
      simp only [transactionRLPDecode10Ele, reads, Option.bind_some] at decoded
      rcases Option.bind_eq_some_iff.mp decoded with ⟨randomid, r0, decoded⟩
      rcases Option.bind_eq_some_iff.mp decoded with ⟨gasPrice, r1, decoded⟩
      rcases Option.bind_eq_some_iff.mp decoded with ⟨gas, r2, decoded⟩
      rcases Option.bind_eq_some_iff.mp decoded with ⟨blockLimit, r3, decoded⟩
      rcases Option.bind_eq_some_iff.mp decoded with ⟨address, r4, decoded⟩
      rcases Option.bind_eq_some_iff.mp decoded with ⟨value, r5, decoded⟩
      rcases Option.bind_eq_some_iff.mp decoded with ⟨data, r6, decoded⟩
      rcases Option.bind_eq_some_iff.mp decoded with ⟨v, r7, decoded⟩
      rcases Option.bind_eq_some_iff.mp decoded with ⟨r, r8, decoded⟩
      rcases Option.bind_eq_some_iff.mp decoded with ⟨s, r9, decoded⟩
      rcases Option.map_eq_some_iff.mp decoded with ⟨chainId, chain, rfl⟩
      have byte := toInt_lt 1 d7 v r7
      refine ⟨?_, ?_, r4, r6, ?_⟩
      · dsimp only
        split_ifs <;> simp
      · have last := signatureV_read (by omega) chain
        have joined : d7 = appendInt v := toInt_canonical 1 d7 v i7 r7
        simp only [itemsWith, signatureV, last, toInt_canonical 32 d0 randomid i0 r0,
          toInt_canonical 32 d1 gasPrice i1 r1, toInt_canonical 32 d2 gas i2 r2,
          toInt_canonical 32 d3 blockLimit i3 r3, toInt_canonical 32 d5 value i5 r5, joined,
          toInt_canonical 32 d8 r i8 r8, toInt_canonical 32 d9 s i9 r9]
      · exact ⟨toInt_lt 32 d0 randomid r0, toInt_lt 32 d1 gasPrice r1, toInt_lt 32 d2 gas r2,
          toInt_lt 32 d3 blockLimit r3, toInt_lt 32 d5 value r5, toInt_lt 32 d8 r r8,
          toInt_lt 32 d9 s r9⟩

theorem checked_spec (C : Crypto) (b : Bytes) (t : TransactionBase)
    (accepted : checked C b = some t) :
    ∃ l receiver data, b = Rlp.appendList l.flatten ∧ Items l ∧ l.flatten.length < maxLength ∧
      item b 4 = some receiver ∧ item b 6 = some data ∧ t.ReadFrom l receiver data ∧
      t.vrs.isValid = true := by
  rcases Option.bind_eq_some_iff.mp accepted with ⟨d, built, rest⟩
  rcases construct_some b d built with ⟨rfl, -⟩
  rcases Option.bind_eq_some_iff.mp rest with ⟨t0, decoded, checks⟩
  split_ifs at checks with invalid
  rcases Option.map_eq_some_iff.mp checks with ⟨sender, -, rfl⟩
  rcases Option.bind_eq_some_iff.mp decoded with ⟨d', built', body⟩
  rcases construct_some d d' built' with ⟨rfl, item⟩
  split_ifs at body with string
  have list : isList d' = true := by simpa using string
  have full : d' ≠ [] := by
    intro empty
    rw [empty] at list
    cases list
  rcases Option.bind_eq_some_iff.mp body with ⟨count, counted, ten⟩
  split_ifs at ten with exactly
  rcases (item full).eq_appendList d' list with ⟨p, found, shape⟩
  have bound := (item full).payload_lt d' p found
  rw [itemCount, if_pos list, found, Option.bind_some, countFrom_eq] at counted
  rcases Option.map_eq_some_iff.mp counted with ⟨l, split, length⟩
  rcases itemsOf_spec _ p l split with ⟨joined, items⟩
  have reads : ∀ i, Rlp.item d' i = some ((l[i]?).getD []) := by
    intro i
    rw [Rlp.item, found, Option.bind_some, joined]
    exact nthItem_flatten l items i
  rcases decode10_spec d' l items (length.trans exactly) reads t0 ten with
    ⟨receiver, data, fourth, sixth, from10⟩
  rw [joined] at shape bound
  refine ⟨l, receiver, data, shape, items, bound, fourth, sixth, ?_, by simpa using invalid⟩
  have width := from10.width
  exact ⟨from10.real, from10.items, from10.address, from10.bytes, width.randomid,
    width.gasPrice, width.gas, width.blockLimit, width.value, width.r, width.s⟩

theorem digits_lt {n : Nat} (small : n < 256 ^ 32) : (toCompactBigEndian n).length < 2 ^ 32 := by
  have width := toCompactBigEndian_length_le 32 n small
  omega

theorem signatureV_lt (t : TransactionBase) : t.signatureV < 256 ^ 32 := by
  unfold signatureV unsigned
  omega

section Rewrite

variable {t : TransactionBase} {l : List Bytes} {receiver data : Bytes}

theorem ReadFrom.written (readFrom : t.ReadFrom l receiver data) (whole : Items l)
    (bound : l.flatten.length < maxLength) :
    Items (Tree.encodedAll t.fields) ∧ (Tree.encodedAll t.fields).flatten.length < maxLength ∧
      (Tree.encodedAll t.fields = l ↔ receiver = addressItem t.receiveAddress ∧
        data = appendBytes t.data) := by
  have shape := readFrom.items
  rw [shape] at whole bound
  rw [shape, encodedAll_fields]
  simp only [Items, itemsWith, List.forall_mem_cons, List.not_mem_nil, false_implies, implies_true,
    and_true] at whole
  rcases whole with ⟨i0, i1, i2, i3, i4, i5, i6, i7, i8, i9⟩
  rcases readAddress_spec _ i4 readFrom.address with ⟨-, addressWhole, addressShorter⟩
  rcases toBytes_spec _ i6 readFrom.bytes with ⟨-, dataWhole, dataShorter⟩
  refine ⟨?_, ?_, ?_⟩
  · simp only [Items, itemsWith, List.forall_mem_cons, List.not_mem_nil, false_implies,
      implies_true, and_true]
    exact ⟨i0, i1, i2, i3, addressWhole, i5, dataWhole, i7, i8, i9⟩
  · simp only [itemsWith, List.flatten_cons, List.length_append] at bound ⊢
    omega
  · simp only [itemsWith, List.cons.injEq, and_true, true_and]
    exact ⟨fun same => ⟨same.1.symm, same.2.symm⟩, fun same => ⟨same.1.symm, same.2.symm⟩⟩

theorem ReadFrom.rlp (readFrom : t.ReadFrom l receiver data) (whole : Items l)
    (bound : l.flatten.length < maxLength) :
    t.rlp .withSignature = some (Rlp.appendList (Tree.encodedAll t.fields).flatten) := by
  have room : maxLength < 2 ^ 64 := by decide
  rcases readFrom.written whole bound with ⟨-, short, -⟩
  have width := readFrom.width
  have bytes : t.data.length < 2 ^ 64 := by
    have longer := length_le_appendBytes t.data
    have inside := length_le_flatten (Tree.encodedAll t.fields) (appendBytes t.data) (by
      rw [encodedAll_fields]
      simp [itemsWith])
    omega
  have address : (if t.receiveAddress = 0 then [] else toBigEndian 20 t.receiveAddress).length <
      2 ^ 64 := by
    split_ifs
    · decide
    · rw [toBigEndian_length]
      decide
  have writable : (Tree.list t.fields).Writable :=
    ⟨by omega, digits_lt width.randomid, digits_lt width.gasPrice, digits_lt width.gas,
      digits_lt width.blockLimit, address, digits_lt width.value, bytes, digits_lt t.signatureV_lt,
      digits_lt width.r, digits_lt width.s, trivial⟩
  rw [TransactionBase.rlp, streamRLP_eq readFrom.real, Tree.write_eq _ writable,
    RLPStream.noteAppended_nil, Option.bind_some, List.nil_append]
  rfl

theorem appendList_inj {s p : Bytes} (left : s.length < maxLength) (right : p.length < maxLength)
    (same : Rlp.appendList s = Rlp.appendList p) : s = p := by
  have payloads := payload_appendList s left
  rw [same, payload_appendList p right] at payloads
  exact (Option.some.inj payloads).symm

end Rewrite

/-- The receiver is neither an empty list nor twenty zero bytes, and the data is a string. -/
def CanonicalFields (b : Bytes) : Prop :=
  ∃ receiver data, item b 4 = some receiver ∧ item b 6 = some data ∧ receiver ≠ [0xc0] ∧
    receiver ≠ appendBytes (toBigEndian 20 0) ∧ isData data = true

/-- An accepted transaction is written back as it was, with the hash of its bytes, exactly if its
receiver is neither an empty list nor twenty zero bytes and its data is a string. -/
theorem transaction_canonical (C : Crypto) (b : Bytes) (t : TransactionBase)
    (accepted : checked C b = some t) :
    (t.rlp .withSignature = some b ∧ t.sha3 C .withSignature = some (C.sha3 b)) ↔
    CanonicalFields b := by
  rcases checked_spec C b t accepted with
    ⟨l, receiver, data, shape, whole, bound, fourth, sixth, readFrom, -⟩
  rcases readFrom.written whole bound with ⟨written, short, same⟩
  have stream := readFrom.rlp whole bound
  have hash : t.sha3 C .withSignature = (t.rlp .withSignature).map C.sha3 := by
    simp [TransactionBase.sha3, TransactionBase.rlp]
  have members : receiver ∈ l ∧ data ∈ l := by
    rw [readFrom.items]
    simp [itemsWith]
  have address := (readAddress_spec _ (whole receiver members.1) readFrom.address).1
  have bytes := (toBytes_spec _ (whole data members.2) readFrom.bytes).1
  calc
    _ ↔ t.rlp .withSignature = some b := by
      rw [hash]
      exact ⟨And.left, fun back => ⟨back, by rw [back, Option.map_some]⟩⟩
    _ ↔ Tree.encodedAll t.fields = l := by
      rw [stream, shape]
      refine ⟨fun back => ?_, fun back => by rw [back]⟩
      exact flatten_inj _ l written whole (appendList_inj short bound (Option.some.inj back))
    _ ↔ (receiver ≠ [0xc0] ∧ receiver ≠ appendBytes (toBigEndian 20 0)) ∧ isData data = true := by
      rw [same, address, bytes]
    _ ↔ CanonicalFields b := by
      constructor
      · rintro ⟨⟨list, zeros⟩, string⟩
        exact ⟨receiver, data, fourth, sixth, list, zeros, string⟩
      · rintro ⟨receiver', data', fourth', sixth', list, zeros, string⟩
        obtain rfl : receiver = receiver' := Option.some.inj (fourth.symm.trans fourth')
        obtain rfl : data = data' := Option.some.inj (sixth.symm.trans sixth')
        exact ⟨⟨list, zeros⟩, string⟩

def toyRecovering : Crypto := { Crypto.toy with recover := fun _ _ => 7 }

def toyTransaction (data : UInt8) : Bytes :=
  [0xde, 0x01, 0x80, 0x80, 0x64, 0x94] ++ List.replicate 20 0x11 ++ [0x80, data, 0x1b, 0x01, 0x01]

theorem empty_string_canonical : ∃ t, checked toyRecovering (toyTransaction 0x80) = some t ∧
    CanonicalFields (toyTransaction 0x80) ∧ t.rlp .withSignature = some (toyTransaction 0x80) := by
  have accepted : (checked toyRecovering (toyTransaction 0x80)).isSome = true := by decide +kernel
  rcases Option.isSome_iff_exists.mp accepted with ⟨t, read⟩
  have canonical : CanonicalFields (toyTransaction 0x80) :=
    ⟨appendBytes (List.replicate 20 0x11), [0x80], by decide +kernel, by decide +kernel,
      by decide +kernel, by decide +kernel, rfl⟩
  exact ⟨t, read, canonical, ((transaction_canonical toyRecovering _ t read).mpr canonical).1⟩

/-- An empty list in the place of the data is read as no data, and written as an empty string. -/
theorem empty_list_rewritten : ∃ t, checked toyRecovering (toyTransaction 0xc0) = some t ∧
    t.rlp .withSignature = some (toyTransaction 0x80) ∧
    t.rlp .withSignature ≠ some (toyTransaction 0xc0) ∧
    t.sha3 toyRecovering .withSignature ≠ some (toyRecovering.sha3 (toyTransaction 0xc0)) := by
  have result : ((checked toyRecovering (toyTransaction 0xc0)).bind fun t => t.rlp .withSignature) =
      some (toyTransaction 0x80) := by decide +kernel
  rcases Option.bind_eq_some_iff.mp result with ⟨t, read, written⟩
  have hash : t.sha3 toyRecovering .withSignature =
      (t.rlp .withSignature).map toyRecovering.sha3 := by
    simp [TransactionBase.sha3, TransactionBase.rlp]
  refine ⟨t, read, written, ?_, ?_⟩
  · rw [written]
    decide +kernel
  · rw [hash, written]
    decide +kernel

end TransactionBase

end UtispaceChain
