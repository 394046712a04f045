import UtispaceChain.CvCore.Transaction

/-! A transaction that is written with its signature is read back. -/

namespace UtispaceChain

open Lib Rlp

namespace TransactionBase

/-- The numbers are of 256 bits, the receiver is of 160, and a vector of bytes has fewer than
2^63. -/
structure Typed (t : TransactionBase) : Prop where
  width : t.InWidth
  receiveAddress : t.receiveAddress < 256 ^ 20
  data : t.data.length < 2 ^ 63

/-- The chains that the last byte of a signature is made for: none, or a positive number of up to
110. -/
def ChainInByte (chainId : Int) : Prop := chainId = -4 ∨ (1 ≤ chainId ∧ chainId ≤ 110)

instance (chainId : Int) : Decidable (ChainInByte chainId) :=
  inferInstanceAs (Decidable (chainId = -4 ∨ (1 ≤ chainId ∧ chainId ≤ 110)))

def Overflows (t : TransactionBase) : Prop := t.chainId = 110 ∧ t.vrs.v = 1

def onWire (t : TransactionBase) : TransactionBase :=
  { t with type := if t.receiveAddress = 0 then .contractCreation else .messageCall, sender := 0 }

theorem onWire_type {t : TransactionBase} (real : t.type ≠ .nullTransaction) :
    t.onWire.type = t.type ↔ (t.type = .contractCreation ↔ t.receiveAddress = 0) := by
  by_cases zero : t.receiveAddress = 0
  · cases kind : t.type with
    | nullTransaction => exact absurd kind real
    | contractCreation => simp [onWire, zero]
    | messageCall => simp [onWire, zero]
  · cases kind : t.type with
    | nullTransaction => exact absurd kind real
    | contractCreation => simp [onWire, zero]
    | messageCall => simp [onWire, zero]

theorem isValid_v {sig : SignatureStruct} (valid : sig.isValid = true) : sig.v ≤ 1 := by
  by_contra large
  simp [SignatureStruct.isValid, show 1 < sig.v by omega] at valid

/-! The last byte of the signature -/

section Byte

variable {t : TransactionBase} (chain : ChainInByte t.chainId) (parity : t.vrs.v ≤ 1)

include chain parity

theorem signatureV_eq : (t.signatureV : Int) = t.vrs.v + (t.chainId * 2 + 35) := by
  unfold signatureV unsigned
  rcases chain with old | ⟨low, high⟩
  · omega
  · omega

theorem signatureV_le (fits : ¬ t.Overflows) : t.signatureV < 256 := by
  have value := signatureV_eq chain parity
  by_contra large
  apply fits
  rcases chain with old | ⟨low, high⟩
  · omega
  · exact ⟨by omega, by omega⟩

theorem signatureV_overflow (big : t.Overflows) : t.signatureV = 256 := by
  have value := signatureV_eq chain parity
  rw [big.1, big.2] at value
  omega

theorem chainIdOf_signatureV : chainIdOf t.signatureV = some t.chainId := by
  have value := signatureV_eq chain parity
  unfold chainIdOf
  rcases chain with old | ⟨low, high⟩
  · rw [if_neg (by omega), if_pos (by omega), old]
  · rw [if_pos (by omega), Int.tdiv_eq_ediv_of_nonneg (by omega)]
    congr 1
    omega

theorem parity_signatureV : (((t.signatureV : Int) - (t.chainId * 2 + 35)) % 256).toNat =
    t.vrs.v := by
  have value := signatureV_eq chain parity
  omega

end Byte

/-! The items -/

section Items

variable {t : TransactionBase}

theorem Typed.addressItem (typed : t.Typed) :
    Item (addressItem t.receiveAddress) ∧ readAddress (addressItem t.receiveAddress) =
      some t.receiveAddress ∧
      (TransactionBase.addressItem t.receiveAddress).length ≤ 29 := by
  by_cases zero : t.receiveAddress = 0
  · rw [zero]
    decide +kernel
  · have room : 20 < maxLength := by decide
    have small : (toBigEndian 20 t.receiveAddress).length < maxLength := by
      rw [toBigEndian_length]
      exact room
    have shape : TransactionBase.addressItem t.receiveAddress =
        appendBytes (toBigEndian 20 t.receiveAddress) := by
      rw [TransactionBase.addressItem, if_neg zero]
    have size :=
      appendBytes_length (toBigEndian 20 t.receiveAddress) (by rw [toBigEndian_length]; decide)
    rw [toBigEndian_length] at size
    have full : isEmpty (appendBytes (toBigEndian 20 t.receiveAddress)) = false := by
      have header : appendBytes (toBigEndian 20 t.receiveAddress) =
          0x94 :: toBigEndian 20 t.receiveAddress := by
        simp [appendBytes]
      rw [header]
      rfl
    rw [shape]
    refine ⟨(item_appendBytes _ small).1, ?_, by omega⟩
    rw [readAddress, if_neg (by rw [full]; exact Bool.false_ne_true)]
    exact toHash_appendBytes 20 _ room typed.receiveAddress

theorem appendInt_length (n : Nat) (bound : n < 256 ^ 32) : (appendInt n).length ≤ 41 := by
  have width := toCompactBigEndian_length_le 32 n bound
  have size := appendBytes_length (toCompactBigEndian n) (by omega)
  rw [appendInt_eq]
  omega

theorem Typed.items (typed : t.Typed) :
    Items (Tree.encodedAll t.fields) ∧ (Tree.encodedAll t.fields).flatten.length < maxLength := by
  have room : 2 ^ 63 + 1000 < maxLength := by decide
  have width := typed.width
  have bytes := typed.data
  rcases typed.addressItem with ⟨address, -, addressSize⟩
  have data := (item_appendBytes t.data (by omega)).1
  have dataSize := appendBytes_length t.data (by omega)
  rw [encodedAll_fields]
  constructor
  · simp only [Items, itemsWith, List.forall_mem_cons, List.not_mem_nil, false_implies,
      implies_true, and_true]
    exact ⟨item_appendInt _ width.randomid, item_appendInt _ width.gasPrice,
      item_appendInt _ width.gas, item_appendInt _ width.blockLimit, address,
      item_appendInt _ width.value, data, item_appendInt _ t.signatureV_lt,
      item_appendInt _ width.r, item_appendInt _ width.s⟩
  · have size0 := appendInt_length _ width.randomid
    have size1 := appendInt_length _ width.gasPrice
    have size2 := appendInt_length _ width.gas
    have size3 := appendInt_length _ width.blockLimit
    have size5 := appendInt_length _ width.value
    have size7 := appendInt_length _ t.signatureV_lt
    have size8 := appendInt_length _ width.r
    have size9 := appendInt_length _ width.s
    simp only [itemsWith, List.flatten_cons, List.length_append, List.flatten_nil, List.length_nil]
    omega

theorem Typed.rlp (typed : t.Typed) (real : t.type ≠ .nullTransaction) :
    t.rlp .withSignature = some (Rlp.appendList (Tree.encodedAll t.fields).flatten) := by
  have room : maxLength < 2 ^ 64 := by decide
  have width := typed.width
  have bytes := typed.data
  rcases typed.items with ⟨-, short⟩
  have address : (if t.receiveAddress = 0 then [] else toBigEndian 20 t.receiveAddress).length <
      2 ^ 64 := by
    split_ifs
    · decide
    · rw [toBigEndian_length]
      decide
  have writable : (Tree.list t.fields).Writable :=
    ⟨short.trans room, digits_lt width.randomid, digits_lt width.gasPrice, digits_lt width.gas,
      digits_lt width.blockLimit, address, digits_lt width.value, bytes.trans (by decide),
      digits_lt t.signatureV_lt, digits_lt width.r, digits_lt width.s,
      trivial⟩
  rw [TransactionBase.rlp, streamRLP_eq real, Tree.write_eq _ writable, RLPStream.noteAppended_nil,
    Option.bind_some, List.nil_append]
  rfl

theorem toInt_overflow : toInt 1 (appendInt 256) = none := by decide +kernel

end Items

/-! Reading the items back -/

section Decode

variable {t : TransactionBase}

theorem Typed.decode10 (typed : t.Typed) (chain : ChainInByte t.chainId) (parity : t.vrs.v ≤ 1) :
    (¬ t.Overflows → transactionRLPDecode10Ele (Rlp.appendList (Tree.encodedAll t.fields).flatten) =
      some t.onWire) ∧
      (t.Overflows → transactionRLPDecode10Ele (Rlp.appendList (Tree.encodedAll t.fields).flatten) =
        none) := by
  rcases typed.items with ⟨whole, short⟩
  rcases typed.addressItem with ⟨-, address, -⟩
  have width := typed.width
  have room : 2 ^ 63 < maxLength := by decide
  have bytes := typed.data
  have nth : ∀ i : Nat, item (Rlp.appendList (Tree.encodedAll t.fields).flatten) i =
      some (((Tree.encodedAll t.fields)[i]?).getD []) :=
        fun i => item_nth_appendList _ whole short i
  simp only [transactionRLPDecode10Ele, nth]
  simp only [encodedAll_fields, itemsWith, List.getElem?_cons_zero, List.getElem?_cons_succ,
    Option.getD_some, Option.bind_some, toInt_appendInt _ width.randomid,
    toInt_appendInt _ width.gasPrice, toInt_appendInt _ width.gas,
    toInt_appendInt _ width.blockLimit, address, toInt_appendInt _ width.value,
    toBytes_appendBytes t.data (by omega), toInt_appendInt _ width.r,
    toInt_appendInt _ width.s]
  constructor
  · intro fits
    have byte : toInt 1 (appendInt t.signatureV) = some t.signatureV := by
      have digits := toCompactBigEndian_length_le 1 t.signatureV (signatureV_le chain parity fits)
      exact toInt_appendInt_of_length 1 _ digits (by decide)
    rw [byte, Option.bind_some, chainIdOf_signatureV chain parity, Option.map_some,
      parity_signatureV chain parity]
    rfl
  · intro big
    rw [signatureV_overflow chain parity big, toInt_overflow, Option.bind_none]

theorem Typed.decode (typed : t.Typed) (b : Bytes)
    (shape : b = Rlp.appendList (Tree.encodedAll t.fields).flatten) :
    construct b = some b ∧ transactionRLPDecode b = transactionRLPDecode10Ele b := by
  rcases typed.items with ⟨whole, short⟩
  rcases item_appendList _ short with ⟨complete, list⟩
  have count := itemCount_appendList whole short
  rw [Tree.encodedAll_length] at count
  rw [shape]
  have built := complete.construct
  refine ⟨built, ?_⟩
  have ten : t.fields.length = 10 := rfl
  rw [transactionRLPDecode, built, Option.bind_some, if_neg (by rw [list]; exact Bool.noConfusion),
    count, Option.bind_some, if_pos ten]

end Decode

/-! What the hashes and the sender depend on -/

section Hashes

variable {t : TransactionBase} (C : Crypto)

theorem onWire_streamRLP (real : t.type ≠ .nullTransaction) (sig : IncludeSignature)
    (forEip155hash : Bool) (s : RLPStream) : t.onWire.streamRLP sig forEip155hash s =
      t.streamRLP sig forEip155hash s := by
  have kept : t.onWire.type ≠ .nullTransaction := by
    unfold onWire
    dsimp only
    split_ifs <;> nofun
  rw [streamRLP, streamRLP, if_neg real, if_neg kept]
  rfl

theorem onWire_sha3 (real : t.type ≠ .nullTransaction) (sig : IncludeSignature) :
    t.onWire.sha3 C sig = t.sha3 C sig := by
  rw [sha3, sha3, onWire_streamRLP real]
  rfl

theorem onWire_recoverSender (real : t.type ≠ .nullTransaction) :
    t.onWire.recoverSender C = t.recoverSender C := by
  rw [recoverSender, recoverSender, onWire_sha3 C real]
  rfl

end Hashes

/-- What is written for a transaction with a valid signature is refused for chain 110 and parity 1.
Else it is read as the same transaction, with the type that its receiver says, the same hashes and
the same sender. -/
theorem transaction_round_trip (C : Crypto) (t : TransactionBase) (real : t.type ≠ .nullTransaction)
    (typed : t.Typed) (chain : ChainInByte t.chainId) (valid : t.vrs.isValid = true) :
    ∃ b, t.rlp .withSignature = some b ∧
      (t.Overflows → transactionRLPDecode b = none ∧ checked C b = none) ∧
      (¬ t.Overflows → transactionRLPDecode b = some t.onWire ∧
        checked C b = (t.recoverSender C).map fun sender => { t.onWire with sender := sender }) ∧
      (t.onWire.type = t.type ↔ (t.type = .contractCreation ↔ t.receiveAddress = 0)) ∧
      t.onWire.recoverSender C = t.recoverSender C ∧ ∀ sig, t.onWire.sha3 C sig = t.sha3 C sig := by
  have parity := isValid_v valid
  rcases typed.decode10 chain parity with ⟨fits, big⟩
  rcases typed.decode _ rfl with ⟨built, decoded⟩
  refine ⟨_, typed.rlp real, ?_, ?_, onWire_type real, onWire_recoverSender C real,
    onWire_sha3 C real⟩
  · intro overflows
    have none := decoded.trans (big overflows)
    refine ⟨none, ?_⟩
    rw [checked, built, Option.bind_some, none, Option.bind_none]
  · intro within
    have read := decoded.trans (fits within)
    refine ⟨read, ?_⟩
    have kept : t.onWire.vrs.isValid = true := valid
    rw [checked, built, Option.bind_some, read, Option.bind_some,
      if_neg (by rw [kept]; exact Bool.noConfusion), onWire_recoverSender C real]

def signedCall (receiveAddress : Nat) (chainId : Int) (v : Nat) : TransactionBase :=
  { type := .messageCall, randomid := 5, value := 2 ^ 255, receiveAddress := receiveAddress,
    gas := 21000
    blockLimit := 1000, data := [0, 0x80, 0xff], vrs := ⟨1, 1, v⟩, chainId := chainId }

theorem signedCall_typed (receiveAddress : Nat) (chainId : Int) (v : Nat)
    (address : receiveAddress < 256 ^ 20) :
    (signedCall receiveAddress chainId v).Typed where
  width := by constructor <;> simp [signedCall]
  receiveAddress := address
  data := by simp [signedCall]

/-- Chain 109 with parity 1 is the last that fits the byte. -/
theorem chain_109_round_trip : ∃ b, (signedCall 0x11 109 1).rlp .withSignature = some b ∧
    transactionRLPDecode b = some (signedCall 0x11 109 1) := by
  have typed := signedCall_typed 0x11 109 1 (by decide)
  rcases transaction_round_trip toyRecovering (signedCall 0x11 109 1) nofun typed (by decide)
    (by decide) with
    ⟨b, written, -, read, -⟩
  exact ⟨b, written, (read fun big => absurd big.1 (by decide)).1⟩

/-- For chain 110 with parity 1 the byte overflows, and a call to the zero address comes back as a
creation. -/
theorem written_not_read_back :
    (((signedCall 0x11 110 1).Typed ∧ (signedCall 0x11 110 1).vrs.isValid = true ∧
      ChainInByte 110) ∧
      ∃ b, (signedCall 0x11 110 1).rlp .withSignature = some b ∧ transactionRLPDecode b = none) ∧
    (((signedCall 0 1 0).Typed ∧ (signedCall 0 1 0).vrs.isValid = true ∧ ChainInByte 1) ∧
      ∃ b t, (signedCall 0 1 0).rlp .withSignature = some b ∧ transactionRLPDecode b = some t ∧
        t.type ≠ (signedCall 0 1 0).type) := by
  constructor
  · refine ⟨⟨signedCall_typed 0x11 110 1 (by decide), by decide, by decide⟩, ?_⟩
    have result : ((signedCall 0x11 110 1).rlp .withSignature).map transactionRLPDecode =
        some none := by
      decide +kernel
    exact Option.map_eq_some_iff.mp result
  · refine ⟨⟨signedCall_typed 0 1 0 (by decide), by decide, by decide⟩, ?_⟩
    have result : ((signedCall 0 1 0).rlp .withSignature).bind transactionRLPDecode =
        some { signedCall 0 1 0 with type := .contractCreation } := by decide +kernel
    rcases Option.bind_eq_some_iff.mp result with ⟨b, written, read⟩
    exact ⟨b, _, written, read, by decide⟩

end TransactionBase

end UtispaceChain
