import UtispaceChain.Cv.Executive

/-! The gas of a transaction, in integers: what is handed on, what is used, and what a block adds
up. -/

namespace UtispaceChain

namespace Accounts

def VM.Thrifty (vm : VM) : Prop :=
  ∀ gas ext s gas' out sub s', vm gas ext s = .returned gas' out sub s' → gas'.toNat ≤ gas.toNat

namespace Executive

variable {C : Crypto} {db : H256 → Bytes} {e e' : Executive} {t : ExecTransaction} {vm : VM}

theorem initializeTransaction_spec (accepted : e.initializeTransaction t = some e') :
    (e.envInfo.gasUsed.toNat + e.maxGas.toNat : Int) ≤ e.envInfo.gasLimit ∧
      e' = { e with
        t := some t
        baseGasRequired := gasRequired t.isCreation t.data
          (e.sealEngine.evmSchedule e.envInfo) } := by
  obtain ⟨fits, same⟩ := Option.ite_none_left_eq_some.mp accepted
  exact ⟨by omega, (Option.some.inj same).symm⟩

theorem create_gas {sender origin : Nat} {endowment gasPrice gas : U256} {init : Bytes}
    {finished : Bool} (done : e.create C sender endowment gasPrice gas init origin =
      some (finished, e')) :
    e'.maxGas = e.maxGas ∧ e'.gas = gas := by
  obtain ⟨s₁, -, done⟩ := Option.bind_eq_some_iff.mp done
  obtain ⟨s₂, -, done⟩ := Option.bind_eq_some_iff.mp done
  obtain ⟨s₃, -, same⟩ := Option.map_eq_some_iff.mp done
  dsimp only at same
  split at same
  · cases same
    exact ⟨rfl, rfl⟩
  · split at same
    · cases same
      exact ⟨rfl, rfl⟩
    · cases same
      exact ⟨rfl, rfl⟩

theorem call_gas {sender codeAddress receiveAddress origin : Nat}
    {valueTransfer apparentValue gas gasPrice : U256} {data : Bytes} {finished : Bool}
    (fresh : e.gas = 0)
    (done : e.call db sender codeAddress receiveAddress valueTransfer apparentValue gas data
      gasPrice origin =
      some (finished, e')) :
    e'.maxGas = e.maxGas ∧ e'.gas.toNat ≤ gas.toNat := by
  obtain ⟨s₁, -, done⟩ := Option.bind_eq_some_iff.mp done
  dsimp only at done
  split at done
  · split at done
    · cases done
      exact ⟨rfl, by rw [fresh]; exact Nat.zero_le _⟩
    · obtain ⟨s₂, -, same⟩ := Option.map_eq_some_iff.mp done
      cases same
      refine ⟨rfl, ?_⟩
      change (BitVec.ofNat 256 _).toNat ≤ _
      rw [BitVec.toNat_ofNat]
      exact (Nat.mod_le _ _).trans (Nat.sub_le _ _)
  · split at done
    · obtain ⟨s₂, -, same⟩ := Option.map_eq_some_iff.mp done
      cases same
      exact ⟨rfl, le_rfl⟩
    · obtain ⟨s₂, -, same⟩ := Option.map_eq_some_iff.mp done
      cases same
      exact ⟨rfl, le_rfl⟩

theorem execute_gas {finished : Bool} (fresh : e.gas = 0)
    (done : e.execute C db t = some (finished, e')) :
    e'.maxGas = e.maxGas ∧ e'.gas.toNat ≤ e.startGas.toNat := by
  unfold execute at done
  split at done
  · obtain ⟨same, gas⟩ := create_gas done
    exact ⟨same, by rw [gas]⟩
  · exact call_gas fresh done

theorem deposit_gas (ext : ExtVM) (out : Bytes) :
    (e.deposit C ext out).maxGas = e.maxGas ∧ (e.deposit C ext out).gas.toNat ≤ e.gas.toNat := by
  unfold deposit
  dsimp only
  split
  · exact ⟨rfl, Nat.zero_le _⟩
  · split
    case isTrue affordable =>
      refine ⟨rfl, ?_⟩
      have small : (BitVec.ofNat 256
        (out.length * (e.sealEngine.evmSchedule e.envInfo).createDataGas)).toNat ≤
          e.gas.toNat := by
        rw [BitVec.toNat_ofNat]
        exact (Nat.mod_le _ _).trans affordable
      change (e.gas - BitVec.ofNat 256 _).toNat ≤ e.gas.toNat
      rw [BitVec.toNat_sub_of_le small]
      exact Nat.sub_le _ _
    · split
      · exact ⟨rfl, Nat.zero_le _⟩
      · exact ⟨rfl, le_rfl⟩

theorem go_gas (thrifty : vm.Thrifty) (done : e.go C vm = some e') :
    e'.maxGas = e.maxGas ∧ e'.gas.toNat ≤ e.gas.toNat := by
  unfold go at done
  split at done
  · cases done
    exact ⟨rfl, le_rfl⟩
  case h_2 ext present =>
    split at done
    · cases done
    · cases done
      exact ⟨rfl, Nat.zero_le _⟩
    case h_3 gas out sub s returned =>
      have less := thrifty _ _ _ _ _ _ _ returned
      dsimp only at done
      split at done
      · cases done
        obtain ⟨same, below⟩ :=
          deposit_gas (C := C) (e := { e with gas, s, ext := some { ext with sub } }) ext out
        exact ⟨same, below.trans less⟩
      · cases done
        exact ⟨rfl, less⟩

theorem finalize_gas (fits : e.gas.toNat ≤ e.maxGas.toNat) :
    e.finalize.maxGas = e.maxGas ∧ e.finalize.gas.toNat ≤ e.maxGas.toNat := by
  refine ⟨rfl, ?_⟩
  have used : (e.maxGas - e.gas).toNat = e.maxGas.toNat - e.gas.toNat := BitVec.toNat_sub_of_le fits
  -- the refund, whatever the VM has counted
  have refund : ∀ refunds : U256, e.gas.toNat +
      (if (e.maxGas - e.gas) / 2 ≤ refunds then (e.maxGas - e.gas) / 2 else refunds).toNat ≤
        e.maxGas.toNat := by
    intro refunds
    have half : ((e.maxGas - e.gas) / 2).toNat = (e.maxGas.toNat - e.gas.toNat) / 2 := by
      rw [BitVec.toNat_udiv, used]
      rfl
    split
    · rw [half]
      omega
    case isFalse below =>
      have less : refunds.toNat < ((e.maxGas - e.gas) / 2).toNat := by
        rw [← BitVec.lt_def]
        exact BitVec.not_le.mp below
      omega
  have bound := e.maxGas.isLt
  unfold finalize
  dsimp only
  cases e.ext with
  | none => simpa using fits
  | some ext =>
      rw [Option.map_some, Option.elim_some,
        BitVec.toNat_add_of_lt (lt_of_le_of_lt (refund _) bound)]
      exact refund _

theorem run_gas (fresh : e.gas = 0) (enough : e.startGas.toNat ≤ e.maxGas.toNat)
    (thrifty : vm.Thrifty) (done : e.run C db vm t = some e') :
    e'.maxGas = e.maxGas ∧ e'.gas.toNat ≤ e.maxGas.toNat ∧
    e'.gasUsed.toNat = e.maxGas.toNat - e'.gas.toNat := by
  obtain ⟨⟨finished, e₁⟩, executed, done⟩ := Option.bind_eq_some_iff.mp done
  obtain ⟨e₂, gone, same⟩ := Option.map_eq_some_iff.mp done
  obtain ⟨limit₁, below₁⟩ := execute_gas fresh executed
  have left : e₂.maxGas = e.maxGas ∧ e₂.gas.toNat ≤ e.startGas.toNat := by
    cases finished with
    | true =>
        cases gone
        exact ⟨limit₁, below₁⟩
    | false =>
        obtain ⟨limit₂, below₂⟩ := go_gas thrifty gone
        exact ⟨limit₂.trans limit₁, below₂.trans below₁⟩
  obtain ⟨limit₃, below₃⟩ := finalize_gas (e := e₂) (by rw [left.1]; exact left.2.trans enough)
  rw [same] at limit₃ below₃
  have limit : e'.maxGas = e.maxGas := limit₃.trans left.1
  rw [left.1] at below₃
  refine ⟨limit, below₃, ?_⟩
  rw [gasUsed, limit]
  exact BitVec.toNat_sub_of_le below₃

theorem startGas_toNat (enough : e.baseGasRequired ≤ e.maxGas.toNat) :
    e.startGas.toNat = e.maxGas.toNat - e.baseGasRequired := by
  have small : e.baseGasRequired < 2 ^ 256 := lt_of_le_of_lt enough e.maxGas.isLt
  have base : (BitVec.ofNat 256 e.baseGasRequired).toNat = e.baseGasRequired := by
    rw [BitVec.toNat_ofNat, Nat.mod_eq_of_lt small]
  rw [startGas, BitVec.toNat_sub_of_le (by rw [BitVec.le_def, base]; exact enough), base]

/-- What an accepted transaction hands on and what it uses are differences of integers. -/
def Accounted (e : Executive) (t : ExecTransaction) : Prop :=
  (e.startGas.toNat : Int) = e.maxGas.toNat - e.baseGasRequired ∧
    ∀ C db (vm : VM), vm.Thrifty → ∀ e', e.run C db vm t = some e' →
      e'.gas.toNat ≤ e.maxGas.toNat ∧ e'.gasUsed.toNat = e.maxGas.toNat - e'.gas.toNat

theorem accounted_iff (fresh : e.gas = 0) : e.Accounted t ↔ e.baseGasRequired ≤ e.maxGas.toNat := by
  constructor
  · rintro ⟨handed, -⟩
    omega
  · intro enough
    have handed := startGas_toNat enough
    refine ⟨by omega, fun C db vm thrifty e' done => ?_⟩
    exact (run_gas fresh (by omega) thrifty done).2

end Executive

section Receipts

variable (C : Crypto) (db : H256 → Bytes) (sealEngine : SealEngine) (maxGas number gasLimit : U256)

def blockGasUsed (receipts : List TransactionReceipt) : U256 := receipts.getLast?.elim 0 (·.gasUsed)

/-- The receipts of a block, one `State::execute` after the other, over whatever states. -/
inductive BlockReceipts (affordable : ExecTransaction → EVMSchedule → Prop) :
    List TransactionReceipt → Prop
  | start : BlockReceipts affordable []
  | executed {receipts : List TransactionReceipt} {t : ExecTransaction} {vm : VM} {s s' : State}
      {res : ExecutionResult} {receipt : TransactionReceipt}
      (before : BlockReceipts affordable receipts)
      (thrifty : vm.Thrifty)
      (paid : affordable t
        (sealEngine.evmSchedule (.ofHeader number gasLimit (blockGasUsed receipts))))
      (done : s.execute C db vm (.ofHeader number gasLimit (blockGasUsed receipts))
        sealEngine maxGas t =
        some (res, receipt, s')) :
      BlockReceipts affordable (receipts ++ [receipt])

/-- The base cost of the transaction is no more than what `gas()` answers. -/
def Affordable (t : ExecTransaction) (es : EVMSchedule) : Prop :=
  gasRequired t.isCreation t.data es ≤ maxGas.toNat

variable {C db sealEngine maxGas number gasLimit}

theorem State.execute_gas {vm : VM} {s s' : State} {gasUsed : U256} {t : ExecTransaction}
    {res : ExecutionResult} {receipt : TransactionReceipt} (thrifty : vm.Thrifty)
    (enough : Affordable maxGas t (sealEngine.evmSchedule (.ofHeader number gasLimit gasUsed)))
    (done : s.execute C db vm (.ofHeader number gasLimit gasUsed) sealEngine maxGas t =
      some (res, receipt, s')) :
    gasUsed.toNat ≤ receipt.gasUsed.toNat ∧ receipt.gasUsed.toNat ≤ gasLimit.toNat := by
  rcases Option.bind_eq_some_iff.mp done with ⟨e, accepted, done⟩
  rcases Option.map_eq_some_iff.mp done with ⟨e', ran, same⟩
  rcases Executive.initializeTransaction_spec accepted with ⟨fits, rfl⟩
  have small := Executive.startGas_toNat
    (e := { s, envInfo := .ofHeader number gasLimit gasUsed, sealEngine, maxGas, depth := 0, t :=
        some t, baseGasRequired := _ })
    enough
  rcases Executive.run_gas rfl (small.trans_le (Nat.sub_le _ _)) thrifty ran with ⟨-, below, used⟩
  cases same
  change (gasUsed.toNat + maxGas.toNat : Int) ≤ min (gasLimit.toNat : Int) (2 ^ 63 - 1) at fits
  change e'.gasUsed.toNat = maxGas.toNat - e'.gas.toNat at used
  have sum : (gasUsed + e'.gasUsed).toNat = gasUsed.toNat + e'.gasUsed.toNat := by
    apply BitVec.toNat_add_of_lt
    omega
  change gasUsed.toNat ≤ (gasUsed + e'.gasUsed).toNat ∧ (gasUsed + e'.gasUsed).toNat ≤
    gasLimit.toNat
  rw [sum]
  omega

theorem BlockReceipts.bounded {receipts : List TransactionReceipt}
    (run : BlockReceipts C db sealEngine maxGas number gasLimit (Affordable maxGas) receipts) :
    (receipts.Pairwise fun r later => r.gasUsed.toNat ≤ later.gasUsed.toNat) ∧
      (∀ r ∈ receipts, r.gasUsed.toNat ≤ (blockGasUsed receipts).toNat) ∧
        (blockGasUsed receipts).toNat ≤ gasLimit.toNat := by
  induction run with
  | start => exact ⟨.nil, nofun, Nat.zero_le _⟩
  | @executed receipts t vm s s' res receipt before thrifty paid done ih =>
      rcases ih with ⟨ordered, last, -⟩
      rcases State.execute_gas thrifty paid done with ⟨more, fits⟩
      have now : blockGasUsed (receipts ++ [receipt]) = receipt.gasUsed := by
        simp [blockGasUsed]
      rw [now]
      refine ⟨?_, ?_, fits⟩
      · apply List.pairwise_append.mpr
        refine ⟨ordered, List.pairwise_singleton _ _, ?_⟩
        intro r member later here
        cases List.mem_singleton.mp here
        exact (last r member).trans more
      · intro r member
        rcases List.mem_append.mp member with earlier | here
        · exact (last r earlier).trans more
        · cases List.mem_singleton.mp here
          exact le_rfl

/-- Nothing wraps exactly where the base cost is no more than the gas of a transaction. -/
theorem gas_accounted (C : Crypto) (db : H256 → Bytes) (sealEngine : SealEngine)
    (maxGas number gasLimit : U256) :
    (∀ s envInfo depth t e,
      Executive.initializeTransaction { s, envInfo, sealEngine, maxGas, depth } t = some e →
        (e.Accounted t ↔ gasRequired t.isCreation t.data (sealEngine.evmSchedule envInfo) ≤
          maxGas.toNat)) ∧
      ∀ receipts, BlockReceipts C db sealEngine maxGas number gasLimit
        (Affordable maxGas) receipts →
        (receipts.Pairwise fun r later => r.gasUsed.toNat ≤ later.gasUsed.toNat) ∧
          ∀ r ∈ receipts, r.gasUsed.toNat ≤ gasLimit.toNat := by
  constructor
  · intro s envInfo depth t e accepted
    rcases Executive.initializeTransaction_spec accepted with ⟨-, rfl⟩
    exact Executive.accounted_iff rfl
  · intro receipts run
    rcases run.bounded with ⟨ordered, last, fits⟩
    exact ⟨ordered, fun r member => (last r member).trans fits⟩

end Receipts

def homestead : SealEngine := ⟨fun _ => {}, 0, fun _ => false, fun _ _ => 0⟩

def payer : State :=
  State.opened (fun a => if a = 1 then some ⟨0, 9, fun _ => 0, EmptySHA3⟩ else none) 0 id

def message (data : Bytes) : ExecTransaction := ⟨false, 1, 2, 0, 0, data⟩

def begun (gasLimit maxGas : U256) (data : Bytes) : Option Executive :=
  Executive.initializeTransaction
    { s := payer, envInfo := .ofHeader 1 gasLimit 0, sealEngine := homestead, maxGas, depth := 0 }
    (message data)

def executed (gasUsed : U256) : Option (ExecutionResult × TransactionReceipt × State) :=
  payer.execute emptyAware (fun _ => []) (fun _ _ _ => .exit) (.ofHeader 1 200000 gasUsed) homestead
    90000 (message [0, 1])

/-- One message, and a block of two. -/
theorem messages_accounted :
    (∃ e, begun 200000 90000 [0, 1] = some e ∧ e.Accounted (message [0, 1])) ∧
      ∃ first second, (executed 0).map (·.2.1) = some first ∧ (executed 21072).map (·.2.1) =
        some second ∧
        [first, second].Pairwise fun r later => r.gasUsed.toNat ≤ later.gasUsed.toNat := by
  constructor
  · have accepted : (begun 200000 90000 [0, 1]).isSome = true := by decide +kernel
    rcases Option.isSome_iff_exists.mp accepted with ⟨e, taken⟩
    exact ⟨e, taken,
      ((gas_accounted emptyAware (fun _ => []) homestead 90000 1 200000).1 _ _ _ _ e taken).mpr
        (by decide)⟩
  · have receipts : (executed 0).map (·.2.1) = some ⟨21072, [], 0⟩ ∧ (executed 21072).map (·.2.1) =
        some ⟨42144, [], 0⟩ := by
      decide +kernel
    rcases Option.map_eq_some_iff.mp receipts.1 with ⟨⟨res₁, r₁, s₁⟩, done₁, rfl⟩
    rcases Option.map_eq_some_iff.mp receipts.2 with ⟨⟨res₂, r₂, s₂⟩, done₂, rfl⟩
    have thrifty : VM.Thrifty fun _ _ _ => .exit := nofun
    have affordable : ∀ es, es = {} → Affordable 90000 (message [0, 1]) es := by
      rintro es rfl
      exact (by decide : gasRequired false [0, 1] {} ≤ 90000)
    have run := (BlockReceipts.start.executed thrifty (affordable _ rfl) done₁).executed thrifty
      (affordable _ rfl) done₂
    exact ⟨_, _, receipts.1, receipts.2, ((gas_accounted _ _ _ _ _ _).2 _ run).1⟩

theorem gasRequired_replicate (n : Nat) (es : EVMSchedule) :
    gasRequired false (List.replicate n 1) es = es.txGas + n * es.txDataNonZeroGas := by
  unfold gasRequired
  induction n with
  | zero => simp
  | succ n ih =>
      rw [List.replicate_succ', List.foldl_append, ih]
      simp
      ring

theorem begun_wraps (data : Bytes) (base : gasRequired false data {} = 30009000) :
    ∃ e, begun 2000000000 30000000 data = some e ∧ e.baseGasRequired = 30009000 ∧
      e.startGas.toNat = 2 ^ 256 - 9000 ∧ ¬ e.Accounted (message data) := by
  have fits : ¬ (EnvInfo.ofHeader 1 2000000000 0).gasLimit <
      (EnvInfo.ofHeader 1 2000000000 0).gasUsed.toNat + (30000000 : U256).toNat := by decide
  have wrapped : ((30000000 : U256) - BitVec.ofNat 256 30009000).toNat = 2 ^ 256 - 9000 := by
    decide +kernel
  have accepted : (begun 2000000000 30000000 data).isSome = true := by
    unfold begun Executive.initializeTransaction
    dsimp only
    rw [if_neg fits]
    rfl
  rcases Option.isSome_iff_exists.mp accepted with ⟨e, taken⟩
  rcases Executive.initializeTransaction_spec taken with ⟨-, rfl⟩
  refine ⟨_, taken, base, ?_, ?_⟩
  · rw [← base] at wrapped
    exact wrapped
  · intro accounted
    have enough := (Executive.accounted_iff rfl).mp accounted
    change gasRequired false data {} ≤ 30000000 at enough
    omega

/-- With more data than its gas pays for, a transaction is accepted all the same, and its gas
wraps. -/
theorem long_data_wraps :
    ∃ e, begun 2000000000 30000000 (List.replicate 441000 1) = some e ∧
    e.baseGasRequired = 30009000 ∧
      e.startGas.toNat = 2 ^ 256 - 9000 ∧ ¬ e.Accounted (message (List.replicate 441000 1)) := by
  apply begun_wraps
  rw [gasRequired_replicate]
  norm_num

end Accounts

end UtispaceChain
