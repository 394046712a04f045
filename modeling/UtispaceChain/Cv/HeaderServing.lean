import UtispaceChain.Cv.CanonIndex
import UtispaceChain.Cv.StoredRecords

/-! The headers that a node sends to a peer that asks for them. -/

namespace UtispaceChain

open Lib Rlp

def c_maxHeadersToSend : Nat := 1024

def c_maxPayload : Nat := 262144

def c_blockNumberUsageLimit : Nat := 1000

/-- Subtraction of values of type `unsigned`. -/
def unsignedSub (a b : Nat) : Nat := (a + (2 ^ 32 - b)) % 2 ^ 32

namespace ChainIndex

/-! The answer to a request -/

section Definitions

variable (bc : ChainIndex)

/-- `number(hash)`, which is `InvalidNumber` for the null details. -/
def detailsNumber (hash : H256) : Nat :=
  match bc.details hash with
  | none => 2 ^ 32 - 1
  | some d => d.number

/-- The number of the block below which no change of the chain is expected. -/
def limitBlock : Nat :=
  if c_blockNumberUsageLimit < bc.number then bc.number - c_blockNumberUsageLimit else 0

/-- So many blocks down: along the parents, and by number below the limit. -/
def nextHash : Nat → H256 → H256
  | 0, h => h
  | step + 1, h =>
      if bc.detailsNumber h < bc.limitBlock then
        let n := bc.detailsNumber h
        if step + 1 ≤ n then bc.numberHash (n - (step + 1)) else 0
      else nextHash step (bc.parentOf h)

/-- The block to begin with and the number of headers for a request that names a hash. Nothing comes
back where the assertion on the top block fails. -/
def startByHash (blockHash : H256) (maxHeaders step : Nat) (reverse : Bool) : Option (H256 × Nat) :=
  if reverse = false then
    let n := bc.detailsNumber blockHash
    if maxHeaders = 0 then some (0, maxHeaders)
    else if n ≠ 0 ∨ blockHash = bc.genesis.hash then
      let top := (n + step * maxHeaders + (2 ^ 64 - 1)) % 2 ^ 64
      let lastBlock := bc.number
      let clipped :=
        if lastBlock < top then
          let numHeadersToSend := (unsignedSub lastBlock n / step + 1) % 2 ^ 32
          ((n + step * unsignedSub numHeadersToSend 1) % 2 ^ 32, numHeadersToSend)
        else (top, maxHeaders)
      if clipped.1 ≤ lastBlock then some (bc.numberHash (clipped.1 % 2 ^ 32), clipped.2) else none
    else some (0, maxHeaders)
  else some (if bc.isKnown blockHash true then blockHash else 0, maxHeaders)

/-- The same for a request that names a number, which has any size. -/
def startByNumber (n : Nat) (maxHeaders step : Nat) (reverse : Bool) : Option (H256 × Nat) :=
  if reverse = false then
    let lastBlock := bc.number
    if lastBlock < n ∨ maxHeaders = 0 then some (0, maxHeaders)
    else
      let top := n + step * unsignedSub maxHeaders 1 % 2 ^ 64
      let clipped :=
        if lastBlock < top then
          let numHeadersToSend := (unsignedSub lastBlock (n % 2 ^ 32) / step + 1) % 2 ^ 32
          (n + step * unsignedSub numHeadersToSend 1 % 2 ^ 32, numHeadersToSend)
        else (top, maxHeaders)
      if clipped.1 ≤ lastBlock then some (bc.numberHash (clipped.1 % 2 ^ 32), clipped.2) else none
  else some (if n ≤ 2 ^ 32 - 1 then bc.numberHash n else 0, maxHeaders)

def start (blockId : Bytes) (maxHeaders step : Nat) (reverse : Bool) : Option (H256 × Nat) :=
  (stringSize blockId).bind fun size =>
    if size = 32 then
      (toHashStrict 32 blockId).bind fun blockHash =>
        bc.startByHash blockHash maxHeaders step reverse
    else (toInt (2 ^ 32 - 1) blockId).bind fun n => bc.startByNumber n maxHeaders step reverse

/-- The hashes from a block down, as long as there is a known block. -/
def hashesFrom (step : Nat) : Nat → H256 → List H256
  | 0, _ => []
  | count + 1, blockHash =>
      if blockHash = 0 ∨ bc.isKnown blockHash true = false then []
      else blockHash :: hashesFrom step count (bc.nextHash step blockHash)

def appendHeaders (headerData : H256 → Bytes) : List H256 → Bytes → Bytes
  | [], rlp => rlp
  | hash :: rest, rlp => if rlp.length < c_maxPayload then
      appendHeaders headerData rest (rlp ++ headerData hash) else rlp

/-- `EthereumHostData::blockHeaders`: the headers, and how many the packet says they are. -/
def blockHeaders (headerData : H256 → Bytes) (blockId : Bytes) (maxHeaders skip : Nat)
    (reverse : Bool) :
    Option (Bytes × Nat) :=
  let step := (skip % 2 ^ 32 + 1) % 2 ^ 32
  if step = 0 then none
  else (bc.start blockId maxHeaders step reverse).map fun (blockHash, numHeadersToSend) =>
    let hashes := bc.hashesFrom step numHeadersToSend blockHash
    (appendHeaders headerData (if reverse then hashes else hashes.reverse) [], hashes.length)

/-- `GetBlockHeadersPacket` of `EthereumPeer::interpret`: the limit on the headers, and the largest
step. -/
def getBlockHeaders (headerData : H256 → Bytes) (blockId : Bytes) (maxHeaders skip : Nat)
    (reverse : Bool) :
    Option (Bytes × Nat) :=
  let numHeadersToSend := if maxHeaders ≤ c_maxHeadersToSend then maxHeaders else c_maxHeadersToSend
  if 2 ^ 32 - 2 < skip then none
    else bc.blockHeaders headerData blockId numHeadersToSend skip reverse

end Definitions

/-! What is asked for -/

section Wanted

variable (bc : ChainIndex)

/-- The numbers that are asked for: from a block on upwards or downwards. -/
def wantedNumbers (n maxHeaders step : Nat) (reverse : Bool) : List Nat :=
  if reverse then ((List.range maxHeaders).filter fun i => decide (i * step ≤ n)).map fun i =>
    n - i * step
  else ((List.range maxHeaders).filter fun i => decide (n + i * step ≤ bc.number)).map fun i =>
    n + i * step

def wanted (n maxHeaders step : Nat) (reverse : Bool) : List H256 :=
  (bc.wantedNumbers n maxHeaders step reverse).map bc.ancestorAt

end Wanted

/-- Stored headers: each is one item, and the block has its hash. -/
structure HeaderStore (C : Crypto) (bc : ChainIndex) where
  headerData : H256 → Bytes
  item : ∀ h, (bc.blocks h).isSome = true → Item (headerData h)
  own : ∀ h, (bc.blocks h).isSome = true → C.sha3 (headerData h) = h
  hash : ∀ h, (bc.blocks h).isSome = true → h < 256 ^ 32
  number : bc.number < 2 ^ 32

/-! Walking down -/

section Walk

variable {bc : ChainIndex} (inv : bc.Indexed)
include inv

theorem Indexed.detailsNumber_ancestorAt {n : Nat} (bound : n ≤ bc.number) :
    bc.detailsNumber (bc.ancestorAt n) = n := by
  rcases inv.tree.ancestor inv.head (bc.number - n) (by rw [inv.height]; exact Nat.sub_le _ _) with
    ⟨-, height⟩
  have stored := inv.ancestorAt_stored n
  have whole : bc.number = bc.lastBlockNumber := rfl
  have row : (bc.details (bc.ancestorAt n)).isSome = true := by
    rcases Option.isSome_iff_exists.mp stored with ⟨b, found⟩
    by_cases first : bc.ancestorAt n = bc.genesis.hash
    · rcases inv.tree.root with ⟨td, root⟩
      rw [first, root]
      rfl
    · rcases inv.tree.filed _ b found first with ⟨⟨td, filed⟩, -⟩
      rw [filed]
      rfl
  rcases Option.isSome_iff_exists.mp row with ⟨d, found⟩
  have number : bc.numberOf (bc.ancestorAt n) = d.number := by rw [numberOf, found]
  have same : bc.numberOf (bc.ancestorAt n) = bc.numberOf bc.lastBlockHash - (bc.number - n) :=
    height
  rw [inv.height] at same
  rw [detailsNumber, found]
  dsimp only
  omega

omit inv in
theorem parentOf_ancestorAt {n : Nat} (bound : n < bc.number) :
    bc.parentOf (bc.ancestorAt (n + 1)) = bc.ancestorAt n := by
  have steps : bc.number - n = bc.number - (n + 1) + 1 := by omega
  rw [ancestorAt, ancestorAt, steps, Function.iterate_succ_apply']

theorem Indexed.ancestorAt_zero : bc.ancestorAt 0 = bc.genesis.hash := by
  have bottom := inv.tree.ancestor_genesis inv.head
  rw [inv.height] at bottom
  exact bottom

theorem Indexed.parentOf_genesis : bc.parentOf bc.genesis.hash = 0 := by
  rcases inv.tree.root with ⟨td, root⟩
  rw [parentOf, root]

theorem Indexed.details_zero : bc.details 0 = none := by
  by_contra filed
  rcases Option.ne_none_iff_exists'.mp filed with ⟨d, row⟩
  have stored := inv.tree.stored 0 d row
  rw [inv.tree.nonzero] at stored
  cases stored

theorem Indexed.ancestorAt_ne_zero (n : Nat) : bc.ancestorAt n ≠ 0 := by
  intro zero
  have stored := inv.ancestorAt_stored n
  rw [zero, inv.tree.nonzero] at stored
  cases stored

theorem Indexed.isKnown_ancestorAt {n : Nat} (bound : n ≤ bc.number) :
    bc.isKnown (bc.ancestorAt n) true = true := by
  have number := inv.detailsNumber_ancestorAt bound
  have stored := inv.ancestorAt_stored n
  have bounded : n ≤ bc.lastBlockNumber := bound
  by_cases first : bc.ancestorAt n = bc.genesis.hash
  · simp [isKnown, first]
  · rcases Option.isSome_iff_exists.mp stored with ⟨b, found⟩
    rcases inv.tree.filed _ b found first with ⟨⟨td, filed⟩, -⟩
    rw [detailsNumber, filed] at number
    dsimp only at number
    simp [isKnown, first, stored, filed, number, bounded]

theorem Indexed.ancestorAt_inj {m n : Nat} (left : m ≤ bc.number) (right : n ≤ bc.number)
    (same : bc.ancestorAt m = bc.ancestorAt n) : m = n := by
  rw [← inv.detailsNumber_ancestorAt left, same, inv.detailsNumber_ancestorAt right]

theorem Indexed.nextHash_zero (step : Nat) (room : bc.number < 2 ^ 32) :
    bc.nextHash step 0 = 0 := by
  have number : bc.detailsNumber 0 = 2 ^ 32 - 1 := by rw [detailsNumber, inv.details_zero]
  have parent : bc.parentOf 0 = 0 := by rw [parentOf, inv.details_zero]
  have high : ¬ bc.detailsNumber 0 < bc.limitBlock := by
    rw [number, limitBlock]
    split_ifs
    · omega
    · omega
  induction step with
  | zero => rfl
  | succ step ih => rw [nextHash, if_neg high, parent, ih]

theorem Indexed.nextHash_ancestorAt (step : Nat) {n : Nat} (bound : n ≤ bc.number)
    (room : bc.number < 2 ^ 32) :
    bc.nextHash step (bc.ancestorAt n) = if step ≤ n then bc.ancestorAt (n - step) else 0 := by
  induction step generalizing n with
  | zero => rfl
  | succ step ih =>
      rw [nextHash, inv.detailsNumber_ancestorAt bound]
      dsimp only
      by_cases low : n < bc.limitBlock
      · rw [if_pos low, inv.numberHash_eq _ (by omega)]
        rfl
      · rw [if_neg low]
        cases n with
        | zero =>
            rw [inv.ancestorAt_zero, inv.parentOf_genesis, inv.nextHash_zero step room,
              if_neg (Nat.not_succ_le_zero step)]
        | succ n =>
            rw [parentOf_ancestorAt bound, ih (by omega)]
            simp only [Nat.succ_le_succ_iff, Nat.succ_sub_succ]

theorem Indexed.hashesFrom_ancestorAt {step : Nat} (pos : 0 < step) (count : Nat) {n : Nat}
    (bound : n ≤ bc.number) (room : bc.number < 2 ^ 32) :
    bc.hashesFrom step count (bc.ancestorAt n) =
      ((List.range count).filter fun i => decide (i * step ≤ n)).map fun i =>
        bc.ancestorAt (n - i * step) := by
  induction count generalizing n with
  | zero => rfl
  | succ count ih =>
      have present : ¬ (bc.ancestorAt n = 0 ∨ bc.isKnown (bc.ancestorAt n) true = false) := by
        rintro (zero | unknown)
        · exact inv.ancestorAt_ne_zero n zero
        · rw [inv.isKnown_ancestorAt bound] at unknown
          cases unknown
      rw [hashesFrom, if_neg present, inv.nextHash_ancestorAt step bound room,
        List.range_succ_eq_map, List.filter_cons_of_pos (by simp), List.map_cons, Nat.zero_mul,
        Nat.sub_zero, List.filter_map, List.map_map]
      congr 1
      by_cases lower : step ≤ n
      · rw [if_pos lower, ih (by omega)]
        have shifted : ∀ i, i.succ * step = i * step + step := fun i => Nat.succ_mul i step
        have same : ∀ i : Nat, (i * step ≤ n - step) ↔ i.succ * step ≤ n := by
          intro i
          rw [shifted]
          omega
        simp only [Function.comp_def, same]
        apply List.map_congr_left
        intro i _
        rw [shifted]
        congr 1
        omega
      · rw [if_neg lower]
        have none : ((List.range count).filter ((fun i => decide (i * step ≤ n)) ∘ Nat.succ)) =
            [] := by
          rw [List.filter_eq_nil_iff]
          intro i _
          have large : step ≤ i.succ * step := Nat.le_mul_of_pos_left step (Nat.succ_pos i)
          simp only [Function.comp_def, decide_eq_true_eq]
          omega
        rw [none, List.map_nil]
        cases count with
        | zero => rfl
        | succ count => rw [hashesFrom, if_pos (Or.inl rfl)]

end Walk

/-! The block to begin with -/

def hashId (hash : H256) : Bytes := appendBytes (toBigEndian 32 hash)

def numberId (n : Nat) : Bytes := appendInt n

def countUp (last n maxHeaders step : Nat) : Nat := min maxHeaders ((last - n) / step + 1)

section Start

theorem unsignedSub_eq {a b : Nat} (le : b ≤ a) (small : a < 2 ^ 32) : unsignedSub a b = a - b := by
  unfold unsignedSub
  omega

variable {last n maxHeaders step : Nat} (pos : 0 < step) (bound : n ≤ last)
include pos bound

theorem filter_up : ((List.range maxHeaders).filter fun i => decide (n + i * step ≤ last)) =
    List.range (countUp last n maxHeaders step) := by
  have same : ∀ i, n + i * step ≤ last ↔ i < (last - n) / step + 1 := by
    intro i
    rw [Nat.lt_succ_iff, Nat.le_div_iff_mul_le pos]
    omega
  simp only [same]
  induction maxHeaders with
  | zero => simp [countUp]
  | succ k ih =>
      rw [List.range_succ, List.filter_append, ih, countUp, countUp]
      by_cases inside : k < (last - n) / step + 1
      · have whole : min k ((last - n) / step + 1) = k := min_eq_left (by omega)
        have next : min (k + 1) ((last - n) / step + 1) = k + 1 := min_eq_left (by omega)
        rw [whole, next, List.range_succ, List.filter_singleton, decide_eq_true inside, cond_true]
      · have whole : min k ((last - n) / step + 1) = (last - n) / step + 1 :=
          min_eq_right (by omega)
        have next : min (k + 1) ((last - n) / step + 1) = (last - n) / step + 1 :=
          min_eq_right (by omega)
        rw [whole, next, List.filter_singleton, decide_eq_false inside, cond_false, List.append_nil]

variable (step) in
omit pos in
theorem top_le : n + step * ((last - n) / step) ≤ last := by
  have product := Nat.mul_div_le (last - n) step
  omega

end Start

section Begin

variable {bc : ChainIndex} (inv : bc.Indexed) {n maxHeaders step : Nat} (pos : 0 < step)
    (bound : n ≤ bc.number) (some_wanted : 0 < maxHeaders) (few : maxHeaders ≤ c_maxHeadersToSend)
    (small : step < 2 ^ 32) (room : bc.number < 2 ^ 32)
include inv pos bound some_wanted few small room

variable (step) in
omit inv pos some_wanted few small in
theorem clipped (less : (bc.number - n) / step < 2 ^ 32 - 1) :
    (unsignedSub bc.number n / step + 1) % 2 ^ 32 = (bc.number - n) / step + 1 ∧
      unsignedSub ((bc.number - n) / step + 1) 1 = (bc.number - n) / step ∧
      n + step * ((bc.number - n) / step) < 2 ^ 32 := by
  have top := top_le step bound
  rw [unsignedSub_eq bound room]
  generalize (bc.number - n) / step = quotient at less top
  rw [unsignedSub_eq (by omega) (by omega)]
  exact ⟨Nat.mod_eq_of_lt (by omega), Nat.add_sub_cancel _ _, by omega⟩

theorem Indexed.startByNumber_eq : bc.startByNumber n maxHeaders step false =
    some (bc.ancestorAt (n + step * (countUp bc.number n maxHeaders step - 1)),
      countUp bc.number n maxHeaders step) := by
  have limit : c_maxHeadersToSend = 1024 := rfl
  have allowed : ¬ (bc.number < n ∨ maxHeaders = 0) := by omega
  have wide : step * (maxHeaders - 1) < 2 ^ 64 := by
    calc
      step * (maxHeaders - 1) ≤ 2 ^ 32 * 1024 := Nat.mul_le_mul (by omega) (by omega)
      _ < 2 ^ 64 := by decide
  have top := top_le step bound
  have own : n % 2 ^ 32 = n := Nat.mod_eq_of_lt (by omega)
  rw [startByNumber, if_pos rfl]
  dsimp only
  rw [if_neg allowed, unsignedSub_eq some_wanted (by omega), Nat.mod_eq_of_lt wide]
  by_cases above : bc.number < n + step * (maxHeaders - 1)
  · have less : (bc.number - n) / step < maxHeaders - 1 :=
      (Nat.div_lt_iff_lt_mul pos).mpr (by rw [Nat.mul_comm]; omega)
    have fewer : countUp bc.number n maxHeaders step = (bc.number - n) / step + 1 := by
      rw [countUp]
      omega
    rcases clipped step bound room (by omega) with ⟨count, product, narrow⟩
    rw [if_pos above, own, count, product, fewer, Nat.add_sub_cancel]
    dsimp only
    rw [Nat.mod_eq_of_lt (a := step * ((bc.number - n) / step)) (by omega), if_pos top,
      Nat.mod_eq_of_lt narrow,
      inv.numberHash_eq _ top]
    rfl
  · have all : countUp bc.number n maxHeaders step = maxHeaders := by
      have more : maxHeaders - 1 ≤ (bc.number - n) / step :=
        (Nat.le_div_iff_mul_le pos).mpr (by rw [Nat.mul_comm]; omega)
      rw [countUp]
      omega
    rw [if_neg above, all]
    dsimp only
    rw [if_pos (by omega), Nat.mod_eq_of_lt (by omega), inv.numberHash_eq _ (by omega)]
    rfl

theorem Indexed.startByHash_eq : bc.startByHash (bc.ancestorAt n) maxHeaders step false =
    if bc.number < n + step * maxHeaders - 1 then
      some (bc.ancestorAt (n + step * ((bc.number - n) / step)), (bc.number - n) / step + 1)
    else some (bc.ancestorAt (n + step * maxHeaders - 1), maxHeaders) := by
  have limit : c_maxHeadersToSend = 1024 := rfl
  have wide : step * maxHeaders ≤ 2 ^ 32 * 1024 := Nat.mul_le_mul (by omega) (by omega)
  have least : 1 ≤ step * maxHeaders := Nat.mul_pos pos some_wanted
  have top := top_le step bound
  have number := inv.detailsNumber_ancestorAt bound
  have canonical : n ≠ 0 ∨ bc.ancestorAt n = bc.genesis.hash := by
    by_cases zero : n = 0
    · exact .inr (by rw [zero, inv.ancestorAt_zero])
    · exact .inl zero
  have before : (n + step * maxHeaders + (2 ^ 64 - 1)) % 2 ^ 64 = n + step * maxHeaders - 1 := by
    omega
  rw [startByHash, if_pos rfl]
  dsimp only
  rw [number, if_neg (by omega), if_pos canonical, before]
  by_cases above : bc.number < n + step * maxHeaders - 1
  · have less : (bc.number - n) / step < maxHeaders :=
      (Nat.div_lt_iff_lt_mul pos).mpr (by rw [Nat.mul_comm]; omega)
    rcases clipped step bound room (by omega) with ⟨count, product, narrow⟩
    rw [if_pos above, if_pos above, count, product]
    dsimp only
    rw [Nat.mod_eq_of_lt narrow, if_pos top, Nat.mod_eq_of_lt narrow, inv.numberHash_eq _ top]
    rfl
  · rw [if_neg above, if_neg above]
    dsimp only
    rw [if_pos (by omega), Nat.mod_eq_of_lt (by omega), inv.numberHash_eq _ (by omega)]
    rfl

end Begin

theorem Indexed.hashes_up {bc : ChainIndex} (inv : bc.Indexed) {n step : Nat} (pos : 0 < step)
    (count : Nat) (top : n + step * (count - 1) ≤ bc.number) (room : bc.number < 2 ^ 32) :
    (bc.hashesFrom step count (bc.ancestorAt (n + step * (count - 1)))).reverse =
      (List.range count).map fun i => bc.ancestorAt (n + i * step) := by
  have all : ((List.range count).filter fun i => decide (i * step ≤ n + step * (count - 1))) =
      List.range count := by
    rw [List.filter_eq_self]
    intro i member
    have below := List.mem_range.mp member
    have product : i * step ≤ step * (count - 1) := by
      rw [Nat.mul_comm]
      exact Nat.mul_le_mul_left step (by omega)
    exact decide_eq_true (by omega)
  rw [inv.hashesFrom_ancestorAt pos count top room, all]
  apply List.ext_getElem
  · simp
  · intro i left right
    have inside : i < count := by simpa using right
    have product : step * (count - 1) = step * i + step * (count - 1 - i) := by
      rw [← Nat.mul_add]
      congr 1
      omega
    simp only [List.getElem_reverse, List.getElem_map, List.getElem_range, List.length_map,
      List.length_range]
    rw [product, Nat.mul_comm (count - 1 - i) step, Nat.mul_comm i step]
    congr 1
    omega

/-! The payload -/

section Payload

variable (headerData : H256 → Bytes)

/-- The headers that are asked for, all but the last of them below the limit. -/
def PayloadFits (hashes : List H256) : Prop :=
  (hashes.dropLast.map headerData).flatten.length < c_maxPayload

instance (hashes : List H256) : Decidable (PayloadFits headerData hashes) :=
  inferInstanceAs (Decidable ((hashes.dropLast.map headerData).flatten.length < c_maxPayload))

theorem appendHeaders_spec (hashes : List H256) (rlp : Bytes) :
    ∃ k ≤ hashes.length, appendHeaders headerData hashes rlp =
      rlp ++ ((hashes.take k).map headerData).flatten ∧
      (k < hashes.length → c_maxPayload ≤ (rlp ++ ((hashes.take k).map headerData).flatten).length)
        ∧
      (k = hashes.length → hashes ≠ [] → (rlp ++ (hashes.dropLast.map headerData).flatten).length <
        c_maxPayload) := by
  induction hashes generalizing rlp with
  | nil => exact ⟨0, le_rfl, by simp [appendHeaders], by simp, fun _ full => absurd rfl full⟩
  | cons hash rest ih =>
      by_cases below : rlp.length < c_maxPayload
      · rcases ih (rlp ++ headerData hash) with ⟨k, bound, result, cut, whole⟩
        refine ⟨k + 1, Nat.succ_le_succ bound, ?_, ?_, ?_⟩
        · rw [appendHeaders, if_pos below, result]
          simp
        · intro less
          have full := cut (Nat.lt_of_succ_lt_succ less)
          simpa [List.append_assoc] using full
        · intro all _
          cases rest with
          | nil => simpa using below
          | cons next more =>
              have inside := whole (Nat.succ.inj all) (List.cons_ne_nil next more)
              simpa [List.append_assoc] using inside
      · refine ⟨0, Nat.zero_le _, ?_, ?_, ?_⟩
        · rw [appendHeaders, if_neg below]
          simp
        · intro _
          simpa using below
        · intro none
          exact absurd none (Nat.succ_ne_zero _).symm

theorem appendHeaders_all (hashes : List H256) :
    ∃ k ≤ hashes.length, appendHeaders headerData hashes [] =
      ((hashes.take k).map headerData).flatten ∧
      (k < hashes.length → c_maxPayload ≤ ((hashes.take k).map headerData).flatten.length) ∧
      (k = hashes.length ↔ PayloadFits headerData hashes) := by
  rcases appendHeaders_spec headerData hashes [] with ⟨k, bound, result, cut, whole⟩
  refine ⟨k, bound, result, cut, ?_⟩
  constructor
  · intro all
    by_cases empty : hashes = []
    · have room : 0 < c_maxPayload := by decide
      simpa [PayloadFits, empty] using room
    · exact whole all empty
  · intro fits
    by_contra other
    have less : k < hashes.length := by omega
    have full := cut less
    rw [List.nil_append] at full
    have shorter : ((hashes.take k).map headerData).flatten.length ≤
        (hashes.dropLast.map headerData).flatten.length := by
      have inside : hashes.take k <+: hashes.dropLast := by
        rw [List.dropLast_eq_take]
        exact List.take_prefix_take_left (by omega)
      rcases inside with ⟨others, joined⟩
      rw [← joined, List.map_append, List.flatten_append, List.length_append]
      omega
    unfold PayloadFits at fits
    omega

end Payload

/-! Headers of stored blocks are told apart -/

section Distinct

variable {C : Crypto} {bc : ChainIndex} (store : bc.HeaderStore C)

theorem HeaderStore.headers_inj {l m : List H256} (left : ∀ h ∈ l, (bc.blocks h).isSome = true)
    (right : ∀ h ∈ m, (bc.blocks h).isSome = true)
    (same : (l.map store.headerData).flatten = (m.map store.headerData).flatten) : l = m := by
  have items : ∀ k : List H256, (∀ h ∈ k, (bc.blocks h).isSome = true) →
      Items (k.map store.headerData) := by
    intro k stored d member
    rcases List.mem_map.mp member with ⟨h, inside, rfl⟩
    exact store.item h (stored h inside)
  have hashes : ∀ k : List H256, (∀ h ∈ k, (bc.blocks h).isSome = true) →
      (k.map store.headerData).map C.sha3 = k := by
    intro k stored
    rw [List.map_map]
    exact (List.map_congr_left fun h inside => store.own h (stored h inside)).trans (List.map_id k)
  have equal := flatten_inj _ _ (items l left) (items m right) same
  rw [← hashes l left, ← hashes m right, equal]

theorem HeaderStore.heads {l m : List H256} {first other : H256}
    (left : ∀ h ∈ l, (bc.blocks h).isSome = true) (right : ∀ h ∈ m, (bc.blocks h).isSome = true)
    (begins : l.head? = some first) (starts : m.head? = some other)
    (differ : first ≠ other) {k : Nat} (some_sent : 0 < k) :
    appendHeaders store.headerData l [] ≠ ((m.take k).map store.headerData).flatten := by
  intro same
  rcases appendHeaders_all store.headerData l with ⟨sent, -, result, cut, -⟩
  have full : l ≠ [] := by
    intro empty
    rw [empty] at begins
    cases begins
  have nonzero : sent ≠ 0 := by
    intro zero
    have limit := cut (by rw [zero]; exact List.length_pos_of_ne_nil full)
    rw [zero, List.take_zero] at limit
    exact absurd limit (show ¬ c_maxPayload ≤ 0 by decide)
  rw [result] at same
  have equal := store.headers_inj (fun h member => left h (List.mem_of_mem_take member))
    (fun h member => right h (List.mem_of_mem_take member)) same
  have heads : (l.take sent).head? = (m.take k).head? := by rw [equal]
  rw [List.head?_take, List.head?_take, if_neg nonzero, if_neg some_sent.ne', begins,
    starts] at heads
  exact differ (Option.some.inj heads)

end Distinct

/-! The answers to the two forms of a request -/

/-- A request that a peer can make, from the canonical block of a number on. -/
structure HeaderRequest (bc : ChainIndex) where
  n : Nat
  maxHeaders : Nat
  skip : Nat
  reverse : Bool
  canonical : n ≤ bc.number
  few : maxHeaders ≤ c_maxHeadersToSend
  small : skip < 2 ^ 32 - 1

namespace HeaderRequest

variable {C : Crypto} {bc : ChainIndex} (store : bc.HeaderStore C) (r : bc.HeaderRequest)

def step : Nat := r.skip + 1

theorem step_pos : 0 < r.step := Nat.succ_pos r.skip

def hashes : List H256 := bc.wanted r.n r.maxHeaders r.step r.reverse

def answer (blockId : Bytes) : Option (Bytes × Nat) :=
  bc.getBlockHeaders store.headerData blockId r.maxHeaders r.skip r.reverse

/-- The wanted headers are sent, cut off at the end only where the payload is full, with the number
of those sent. -/
def Exact (blockId : Bytes) : Prop :=
  ∃ k ≤ r.hashes.length,
    r.answer store blockId = some (((r.hashes.take k).map store.headerData).flatten, k) ∧
      (k < r.hashes.length → c_maxPayload ≤ ((r.hashes.take k).map store.headerData).flatten.length)

/-- The top block for a hash is that of the last wanted header: with steps of one, or where it is
above the head. -/
def Aligned : Prop :=
  r.reverse = true ∨ r.skip = 0 ∨ r.maxHeaders = 0 ∨ bc.number < r.n + r.step * r.maxHeaders - 1

section Answers

variable {store r}

theorem stored (inv : bc.Indexed) : ∀ h ∈ r.hashes, (bc.blocks h).isSome = true := by
  intro h member
  rcases List.mem_map.mp member with ⟨n, -, rfl⟩
  exact inv.ancestorAt_stored n

theorem answer_eq {blockId : Bytes} {blockHash : H256} {count : Nat}
    (begins : bc.start blockId r.maxHeaders r.step r.reverse = some (blockHash, count)) :
    r.answer store blockId = some (appendHeaders store.headerData
      (if r.reverse then bc.hashesFrom r.step count blockHash
        else (bc.hashesFrom r.step count blockHash).reverse) [],
          (bc.hashesFrom r.step count blockHash).length) := by
  have small := r.small
  have nonzero : r.step ≠ 0 := Nat.succ_ne_zero _
  have step : (r.skip % 2 ^ 32 + 1) % 2 ^ 32 = r.step := by
    unfold HeaderRequest.step
    omega
  rw [answer, getBlockHeaders, if_pos r.few, if_neg (by omega), blockHeaders, step,
    if_neg nonzero, begins]
  rfl

theorem start_hashId (h : H256) (bound : h < 256 ^ 32) :
    bc.start (hashId h) r.maxHeaders r.step r.reverse =
      bc.startByHash h r.maxHeaders r.step r.reverse := by
  have read := toHashStrict_appendBytes 32 h (by decide) bound
  have size := stringSize_appendBytes (toBigEndian 32 h) (by rw [toBigEndian_length]; decide)
  rw [toBigEndian_length] at size
  rw [start, hashId, size, Option.bind_some, if_pos rfl, read, Option.bind_some]

theorem start_numberId (room : bc.number < 2 ^ 32) :
    bc.start (numberId r.n) r.maxHeaders r.step r.reverse =
      bc.startByNumber r.n r.maxHeaders r.step r.reverse := by
  have bound := r.canonical
  have digits := toCompactBigEndian_length_le 4 r.n (by omega)
  have small : (toCompactBigEndian r.n).length < maxLength := lt_of_le_of_lt digits (by decide)
  have size := stringSize_appendBytes _ small
  have read := toInt_appendInt_of_length (2 ^ 32 - 1) r.n (digits.trans (by decide)) (by decide)
  rw [start, numberId, read, appendInt_eq, size, Option.bind_some, if_neg (by omega),
    Option.bind_some]

theorem exact_iff (inv : bc.Indexed) {blockId : Bytes}
    (answers : r.answer store blockId =
      some (appendHeaders store.headerData r.hashes [], r.hashes.length)) :
    r.Exact store blockId ↔ PayloadFits store.headerData r.hashes := by
  rcases appendHeaders_all store.headerData r.hashes with ⟨sent, bound, result, -, fits⟩
  rw [← fits]
  constructor
  · rintro ⟨k, -, answer, -⟩
    rw [answers, result] at answer
    rcases Prod.mk.inj (Option.some.inj answer) with ⟨bytes, count⟩
    have equal := store.headers_inj (fun h member => stored inv h (List.mem_of_mem_take member))
      (fun h member => stored inv h (List.mem_of_mem_take member)) bytes
    have lengths := congrArg List.length equal
    rw [List.length_take, List.length_take] at lengths
    omega
  · intro all
    refine ⟨sent, bound, ?_, fun less => absurd all less.ne⟩
    rw [answers, result, all]

theorem hashes_head (some_wanted : 0 < r.maxHeaders) :
    r.hashes.head? = some (bc.ancestorAt r.n) := by
  have bound := r.canonical
  rcases Nat.exists_eq_succ_of_ne_zero some_wanted.ne' with ⟨more, shape⟩
  unfold hashes wanted wantedNumbers
  rw [shape, List.range_succ_eq_map]
  cases r.reverse with
  | false => simp [bound]
  | true => simp

theorem hashes_none (none_wanted : r.maxHeaders = 0) : r.hashes = [] := by
  unfold hashes wanted wantedNumbers
  cases r.reverse with
  | false => simp [none_wanted]
  | true => simp [none_wanted]

theorem hashes_up (up : r.reverse = false) :
    r.hashes = (List.range (countUp bc.number r.n r.maxHeaders r.step)).map fun i =>
      bc.ancestorAt (r.n + i * r.step) := by
  unfold hashes wanted wantedNumbers
  rw [up, if_neg Bool.false_ne_true, filter_up r.step_pos r.canonical, List.map_map]
  rfl

theorem hashes_down (inv : bc.Indexed) (down : r.reverse = true) (room : bc.number < 2 ^ 32) :
    r.hashes = bc.hashesFrom r.step r.maxHeaders (bc.ancestorAt r.n) := by
  unfold hashes wanted wantedNumbers
  rw [down, if_pos rfl, inv.hashesFrom_ancestorAt r.step_pos _ r.canonical room, List.map_map]
  rfl

theorem answer_up (inv : bc.Indexed) (room : bc.number < 2 ^ 32) (up : r.reverse = false)
    {blockId : Bytes} (begins : bc.start blockId r.maxHeaders r.step r.reverse =
      some (bc.ancestorAt (r.n + r.step * (countUp bc.number r.n r.maxHeaders r.step - 1)),
        countUp bc.number r.n r.maxHeaders r.step)) :
    r.answer store blockId =
      some (appendHeaders store.headerData r.hashes [], r.hashes.length) := by
  have pos := r.step_pos
  have top : r.n + r.step * (countUp bc.number r.n r.maxHeaders r.step - 1) ≤ bc.number := by
    have least := top_le r.step r.canonical
    have fewer : r.step * (countUp bc.number r.n r.maxHeaders r.step - 1) ≤
        r.step * ((bc.number - r.n) / r.step) := by
      apply Nat.mul_le_mul_left
      exact Nat.sub_le_of_le_add (min_le_right _ _)
    omega
  have walked := inv.hashes_up pos _ top room
  have count := congrArg List.length walked
  rw [List.length_reverse] at count
  rw [answer_eq begins, up, if_neg Bool.false_ne_true, walked, count, hashes_up up]

theorem answer_none (none_wanted : r.maxHeaders = 0) {blockId : Bytes} {blockHash : H256}
    (begins : bc.start blockId r.maxHeaders r.step r.reverse = some (blockHash, 0)) :
    r.answer store blockId =
      some (appendHeaders store.headerData r.hashes [], r.hashes.length) := by
  rw [answer_eq begins, hashes_none none_wanted, hashesFrom]
  cases r.reverse with
  | false => rfl
  | true => rfl

theorem answer_down (inv : bc.Indexed) (room : bc.number < 2 ^ 32) (down : r.reverse = true)
    {blockId : Bytes} (begins : bc.start blockId r.maxHeaders r.step r.reverse =
      some (bc.ancestorAt r.n, r.maxHeaders)) :
    r.answer store blockId =
      some (appendHeaders store.headerData r.hashes [], r.hashes.length) := by
  rw [answer_eq begins, down, if_pos rfl, hashes_down inv down room]

theorem answer_number (inv : bc.Indexed) : r.answer store (numberId r.n) =
    some (appendHeaders store.headerData r.hashes [], r.hashes.length) := by
  have room := store.number
  have bound := r.canonical
  have begins := start_numberId (r := r) room
  cases direction : r.reverse with
  | false =>
      by_cases wanted : 0 < r.maxHeaders
      · have small : r.step < 2 ^ 32 := by
          have skip := r.small
          unfold step
          omega
        rw [direction, inv.startByNumber_eq r.step_pos bound wanted r.few small room,
          ← direction] at begins
        exact answer_up inv room direction begins
      · have none : r.maxHeaders = 0 := by omega
        have start : bc.startByNumber r.n r.maxHeaders r.step r.reverse = some (0, 0) := by
          simp [startByNumber, direction, none]
        exact answer_none none (begins.trans start)
  | true =>
      have start : bc.startByNumber r.n r.maxHeaders r.step r.reverse =
          some (bc.ancestorAt r.n, r.maxHeaders) := by
        rw [startByNumber, direction, if_neg Bool.noConfusion, if_pos (by omega),
          inv.numberHash_eq _ bound]
        rfl
      exact answer_down inv room direction (begins.trans start)

theorem start_hash (inv : bc.Indexed) (store : bc.HeaderStore C) :
    bc.start (hashId (bc.ancestorAt r.n)) r.maxHeaders r.step r.reverse =
      bc.startByHash (bc.ancestorAt r.n) r.maxHeaders r.step r.reverse :=
  start_hashId _ (store.hash _ (inv.ancestorAt_stored r.n))

theorem answer_hash (inv : bc.Indexed) (aligned : r.Aligned) :
    r.answer store (hashId (bc.ancestorAt r.n)) =
    some (appendHeaders store.headerData r.hashes [], r.hashes.length) := by
  have room := store.number
  have bound := r.canonical
  have begins := start_hash (r := r) inv store
  cases direction : r.reverse with
  | false =>
      by_cases wanted : 0 < r.maxHeaders
      · have pos := r.step_pos
        have small : r.step < 2 ^ 32 := by
          have skip := r.small
          unfold step
          omega
        rw [direction, inv.startByHash_eq pos bound wanted r.few small room, ← direction] at begins
        apply answer_up inv room direction
        rw [begins]
        by_cases above : bc.number < r.n + r.step * r.maxHeaders - 1
        · have less : (bc.number - r.n) / r.step < r.maxHeaders :=
            (Nat.div_lt_iff_lt_mul pos).mpr (by rw [Nat.mul_comm]; omega)
          have count : countUp bc.number r.n r.maxHeaders r.step =
              (bc.number - r.n) / r.step + 1 := by
            rw [countUp]
            omega
          rw [if_pos above, count, Nat.add_sub_cancel]
        · have one : r.step = 1 := by
            rcases aligned with down | zero | none | high
            · rw [direction] at down
              cases down
            · rw [step, zero]
            · omega
            · exact absurd high above
          rw [if_neg above, countUp]
          rw [one, Nat.one_mul] at above ⊢
          rw [Nat.div_one]
          have all : min r.maxHeaders (bc.number - r.n + 1) = r.maxHeaders := by omega
          rw [all, Nat.one_mul, Nat.add_sub_assoc wanted]
      · have none : r.maxHeaders = 0 := by omega
        have start : bc.startByHash (bc.ancestorAt r.n) r.maxHeaders r.step r.reverse =
            some (0, 0) := by
          simp [startByHash, direction, none]
        exact answer_none none (begins.trans start)
  | true =>
      have start : bc.startByHash (bc.ancestorAt r.n) r.maxHeaders r.step r.reverse =
          some (bc.ancestorAt r.n, r.maxHeaders) := by
        rw [startByHash, direction, if_neg Bool.noConfusion, inv.isKnown_ancestorAt bound,
          if_pos rfl]
      exact answer_down inv room direction (begins.trans start)

variable (store) in
theorem answer_misaligned (inv : bc.Indexed) (misaligned : ¬ r.Aligned) :
    ∃ others : List H256, r.answer store (hashId (bc.ancestorAt r.n)) =
        some (appendHeaders store.headerData others [], r.maxHeaders) ∧
      (∀ h ∈ others, (bc.blocks h).isSome = true) ∧
      others.head? = some (bc.ancestorAt (r.n + r.skip)) ∧
      r.n + r.skip ≤ bc.number := by
  have room := store.number
  have bound := r.canonical
  have begins := start_hash (r := r) inv store
  have pos := r.step_pos
  unfold Aligned at misaligned
  rw [not_or, not_or, not_or] at misaligned
  rcases misaligned with ⟨forward, -, some_wanted, low⟩
  have direction : r.reverse = false := Bool.eq_false_of_not_eq_true forward
  have wanted : 0 < r.maxHeaders := Nat.pos_of_ne_zero some_wanted
  have small : r.step < 2 ^ 32 := by
    have skip := r.small
    unfold step
    omega
  have split : r.n + r.step * r.maxHeaders - 1 = r.n + r.skip + r.step * (r.maxHeaders - 1) := by
    have one : r.step * r.maxHeaders = r.step * (r.maxHeaders - 1) + r.step := by
      calc
        r.step * r.maxHeaders = r.step * (r.maxHeaders - 1 + 1) := by rw [Nat.sub_add_cancel wanted]
        _ = r.step * (r.maxHeaders - 1) + r.step := Nat.mul_succ _ _
    have step : r.step = r.skip + 1 := rfl
    omega
  rw [direction, inv.startByHash_eq pos bound wanted r.few small room, if_neg low, split,
    ← direction] at begins
  have top : r.n + r.skip + r.step * (r.maxHeaders - 1) ≤ bc.number := by omega
  have walked := inv.hashes_up pos r.maxHeaders top room
  have count := congrArg List.length walked
  rw [List.length_reverse, List.length_map, List.length_range] at count
  refine ⟨(List.range r.maxHeaders).map fun i => bc.ancestorAt (r.n + r.skip + i * r.step), ?_, ?_,
    ?_, (Nat.le_add_right _ _).trans top⟩
  · rw [answer_eq begins, direction, if_neg Bool.false_ne_true, walked, count]
  · intro h member
    rcases List.mem_map.mp member with ⟨i, -, rfl⟩
    exact inv.ancestorAt_stored _
  · rw [List.head?_map, List.head?_range, if_neg some_wanted, Option.map_some, Nat.zero_mul,
      Nat.add_zero]

end Answers

/-- The top block of an upward request in unbounded numbers: by number, and by hash. -/
def Unwrapped (bc : ChainIndex) (r : bc.HeaderRequest) : Prop :=
  bc.start (numberId r.n) r.maxHeaders r.step r.reverse =
      some (bc.ancestorAt (r.n + r.step * (countUp bc.number r.n r.maxHeaders r.step - 1)),
        countUp bc.number r.n r.maxHeaders r.step) ∧
    bc.start (hashId (bc.ancestorAt r.n)) r.maxHeaders r.step r.reverse =
      if bc.number < r.n + r.step * r.maxHeaders - 1 then
        some (bc.ancestorAt (r.n + r.step * ((bc.number - r.n) / r.step)),
          (bc.number - r.n) / r.step + 1)
      else some (bc.ancestorAt (r.n + r.step * r.maxHeaders - 1), r.maxHeaders)

theorem unwrapped (inv : bc.Indexed) (store : bc.HeaderStore C) (r : bc.HeaderRequest)
    (up : r.reverse = false) (wanted : 0 < r.maxHeaders) : Unwrapped bc r := by
  have small : r.step < 2 ^ 32 := by
    have skip := r.small
    unfold step
    omega
  constructor
  · rw [start_numberId store.number, up]
    exact inv.startByNumber_eq r.step_pos r.canonical wanted r.few small store.number
  · rw [start_hash inv store, up]
    exact inv.startByHash_eq r.step_pos r.canonical wanted r.few small store.number

/-- No assertion fails and no top block wraps. Asked by number, the answer is exact if the payload
has room for all the wanted headers but the last. Asked by hash, it is exact if besides the top
block is that of the last wanted header, and only then are the two answers the same. -/
theorem header_serving (inv : bc.Indexed) (store : bc.HeaderStore C) (r : bc.HeaderRequest) :
    ((r.answer store (numberId r.n)).isSome = true ∧
      (r.answer store (hashId (bc.ancestorAt r.n))).isSome = true ∧
      (r.reverse = false → 0 < r.maxHeaders → Unwrapped bc r)) ∧
    (r.Exact store (numberId r.n) ↔ PayloadFits store.headerData r.hashes) ∧
    (r.Exact store (hashId (bc.ancestorAt r.n)) ↔
      r.Aligned ∧ PayloadFits store.headerData r.hashes) ∧
    (r.answer store (hashId (bc.ancestorAt r.n)) = r.answer store (numberId r.n) ↔ r.Aligned) := by
  have byNumber : r.answer store (numberId r.n) = _ := answer_number inv
  by_cases aligned : r.Aligned
  · have byHash : r.answer store (hashId (bc.ancestorAt r.n)) = _ := answer_hash inv aligned
    refine ⟨⟨by rw [byNumber]; rfl, by rw [byHash]; rfl, unwrapped inv store r⟩,
      exact_iff inv byNumber, ?_, ?_⟩
    · rw [exact_iff inv byHash]
      exact ⟨fun fits => ⟨aligned, fits⟩, fun both => both.2⟩
    · rw [byHash, byNumber]
      exact ⟨fun _ => aligned, fun _ => rfl⟩
  · rcases answer_misaligned store inv aligned with ⟨others, byHash, known, begins, high⟩
    have wanted : 0 < r.maxHeaders := by
      by_contra none
      exact aligned (.inr (.inr (.inl (by omega))))
    have starts := hashes_head (r := r) wanted
    have differ : bc.ancestorAt (r.n + r.skip) ≠ bc.ancestorAt r.n := by
      intro same
      have equal := inv.ancestorAt_inj high r.canonical same
      exact aligned (.inr (.inl (by omega)))
    refine ⟨⟨by rw [byNumber]; rfl, by rw [byHash]; rfl, unwrapped inv store r⟩,
      exact_iff inv byNumber, ?_, ?_⟩
    · constructor
      · rintro ⟨k, -, answer, -⟩
        rw [byHash] at answer
        rcases Prod.mk.inj (Option.some.inj answer) with ⟨bytes, count⟩
        exact absurd bytes (store.heads known (stored inv) begins starts differ (by omega))
      · intro both
        exact absurd both.1 aligned
    · constructor
      · intro same
        rw [byHash, byNumber] at same
        rcases Prod.mk.inj (Option.some.inj same) with ⟨bytes, count⟩
        have whole : r.hashes.take r.hashes.length = r.hashes := List.take_length
        rcases appendHeaders_all store.headerData r.hashes with ⟨sent, -, result, cut, -⟩
        have nonempty : r.hashes ≠ [] := by
          intro empty
          rw [empty] at starts
          cases starts
        have nonzero : 0 < sent := by
          by_contra none
          have zero : sent = 0 := by omega
          have limit := cut (by rw [zero]; exact List.length_pos_of_ne_nil nonempty)
          rw [zero, List.take_zero] at limit
          exact absurd limit (show ¬ c_maxPayload ≤ 0 by decide)
        rw [result] at bytes
        exact absurd bytes (store.heads known (stored inv) begins starts differ nonzero)
      · intro yes
        exact absurd yes aligned

end HeaderRequest

def twoBlocks : ChainIndex := (opened 1 10 0 1000).importBlock {} oneBlock

def readingCrypto : Crypto := { Crypto.toy with sha3 := fromBigEndian }

theorem twoBlocks_indexed : twoBlocks.Indexed :=
  (Indexed.opened 1 10 0 1000 (by decide)).importBlock {} oneBlock (by decide) fun other found =>
    by cases found

theorem twoBlocks_known {h : H256} (known : (twoBlocks.blocks h).isSome = true) :
    h = 1 ∨ h = 2 := by
  have rows : twoBlocks.blocks = ((opened 1 10 0 1000).insertBlock oneBlock 20).blocks := by rfl
  by_contra other
  rw [not_or] at other
  rw [rows] at known
  simp [insertBlock, opened, oneBlock, other.1, other.2] at known

def twoHeaders : twoBlocks.HeaderStore readingCrypto where
  headerData h := [UInt8.ofNat h]
  item h known := by
    rcases twoBlocks_known known with rfl | rfl
    · decide
    · decide
  own h known := by
    rcases twoBlocks_known known with rfl | rfl
    · decide
    · decide
  hash h known := by
    rcases twoBlocks_known known with rfl | rfl
    · decide
    · decide
  number := by decide +kernel

def oneHeader : twoBlocks.HeaderRequest where
  n := 0
  maxHeaders := 1
  skip := 1
  reverse := false
  canonical := Nat.zero_le _
  few := by decide
  small := by decide

def threeBlocks : ChainIndex := twoBlocks.importBlock {} ⟨3, 2, 2, 10, 0, []⟩

theorem threeBlocks_indexed : threeBlocks.Indexed := by
  refine twoBlocks_indexed.importBlock {} ⟨3, 2, 2, 10, 0, []⟩ (by decide) fun other found => ?_
  rcases twoBlocks_known (h := 3) (by rw [found]; rfl) with same | same
  · exact absurd same (by decide)
  · exact absurd same (by decide)

theorem threeBlocks_known {h : H256} (known : (threeBlocks.blocks h).isSome = true) :
    h = 1 ∨ h = 2 ∨ h = 3 := by
  have rows : threeBlocks.blocks = Function.update twoBlocks.blocks 3 (some ⟨3, 2, 2, 10, 0, []⟩) :=
    rfl
  by_cases last : h = 3
  · exact .inr (.inr last)
  · rw [rows, Function.update_of_ne last] at known
    exact (twoBlocks_known known).imp_right .inl

def threeHeaders : threeBlocks.HeaderStore readingCrypto where
  headerData h := [UInt8.ofNat h]
  item h known := by
    rcases threeBlocks_known known with rfl | rfl | rfl
    · decide
    · decide
    · decide
  own h known := by
    rcases threeBlocks_known known with rfl | rfl | rfl
    · decide
    · decide
    · decide
  hash h known := by
    rcases threeBlocks_known known with rfl | rfl | rfl
    · decide
    · decide
    · decide
  number := by decide +kernel

def everySecond : threeBlocks.HeaderRequest where
  n := 0
  maxHeaders := 3
  skip := 1
  reverse := false
  canonical := Nat.zero_le _
  few := by decide
  small := by decide

/-- The headers of the blocks 0 and 2 are sent, whether block 0 is given by number or by hash. -/
theorem header_serving_every_second : everySecond.hashes = [1, 3] ∧
    everySecond.Exact threeHeaders (numberId 0) ∧
      everySecond.Exact threeHeaders (hashId (threeBlocks.ancestorAt 0)) := by
  have serving := HeaderRequest.header_serving threeBlocks_indexed threeHeaders everySecond
  have fits : PayloadFits threeHeaders.headerData everySecond.hashes := by decide +kernel
  have low : threeBlocks.number < 0 + everySecond.step * 3 - 1 := by decide +kernel
  exact ⟨by decide +kernel, serving.2.1.mpr fits,
    serving.2.2.1.mpr ⟨.inr (.inr (.inr low)), fits⟩⟩

/-- Asked for the genesis block by its hash, the node sends block 1. -/
theorem wrong_header_served :
    oneHeader.answer twoHeaders (hashId (twoBlocks.ancestorAt 0)) =
      some (twoHeaders.headerData 2, 1) ∧
    oneHeader.answer twoHeaders (numberId 0) = some (twoHeaders.headerData 1, 1) ∧
    ¬ oneHeader.Exact twoHeaders (hashId (twoBlocks.ancestorAt 0)) := by
  refine ⟨by decide +kernel, by decide +kernel, ?_⟩
  rintro ⟨k, bound, answer, -⟩
  have sent : oneHeader.answer twoHeaders (hashId (twoBlocks.ancestorAt 0)) = some ([2], 1) := by
    decide +kernel
  rw [sent] at answer
  rcases Prod.mk.inj (Option.some.inj answer) with ⟨bytes, rfl⟩
  have wanted : ((oneHeader.hashes.take 1).map twoHeaders.headerData).flatten = [1] := by
    decide +kernel
  rw [wanted] at bytes
  exact absurd bytes (by decide)

end ChainIndex

end UtispaceChain
