import UtispaceChain.CvVm.Nested

/-! What a frame that has ended leaves to the one that started it: all that it did, or nothing. -/

namespace UtispaceChain.Evm

open Lib Accounts Accounts.State

section Reads

variable {db : H256 → Bytes} {s t u : Accounts.State} {a : Nat}

theorem alike_trans (first : ReadsAlike db s t) (second : ReadsAlike db t u) :
    ReadsAlike db s u where
  addressInUse a := (second.addressInUse a).trans (first.addressInUse a)
  balance a := (second.balance a).trans (first.balance a)
  getNonce a := (second.getNonce a).trans (first.getNonce a)
  codeHash a := (second.codeHash a).trans (first.codeHash a)
  code a := (second.code a).trans (first.code a)
  storage a key := (second.storage a key).trans (first.storage a key)

theorem alike_raised (first : ReadsAlike db s t) (second : NonceRaised db a t u) :
    NonceRaised db a s u where
  addressInUse b := by rw [second.addressInUse, first.addressInUse]
  balance b := (second.balance b).trans (first.balance b)
  getNonce b := by rw [second.getNonce, first.getNonce]
  codeHash b := (second.codeHash b).trans (first.codeHash b)
  code b := (second.code b).trans (first.code b)
  storage b key := (second.storage b key).trans (first.storage b key)

end Reads

structure Nested.Atomic (w : Setting) (n : Nested) (e : Executive) (m m' : VM Around) : Prop where
  state : e.excepted ≠ .none →
    if n.creation then NonceRaised w.db m.ext.1.myAddress m.ext.2 m'.ext.2
      else ReadsAlike w.db m.ext.2 m'.ext.2
  sub : e.excepted ≠ .none → m'.ext.1.sub = m.ext.1.sub
  pushed : e.excepted ≠ .none → m'.item 0 = 0
  gas : e.excepted ≠ .none → m'.ioGas = n.kept
  logs : e.excepted = .none → m'.ext.1.sub.logs = m.ext.1.sub.logs ++ e.ext.elim [] fun ext =>
    ext.sub.logs

section Logs

variable {w : Setting} {C : Crypto} {vm : Accounts.VM} {ext : ExtVM} {m m' : VM Around}
    {e : Executive}

theorem accrued_logs (sub : SubState) :
    (e.accrueSubState sub).logs = sub.logs ++ e.ext.elim [] fun ext => ext.sub.logs := by
  unfold Executive.accrueSubState
  cases e.ext with
  | none => exact (List.append_nil sub.logs).symm
  | some ext => rfl

theorem answer_logs {q : Query} {a : Answer} {ext' : ExtVM} {s s' : Accounts.State}
    {envInfo : Accounts.EnvInfo} {sealEngine : SealEngine} {db : H256 → Bytes}
    (done : ext.answer db envInfo sealEngine s q = some (a, ext', s')) :
    ext.sub.logs <+: ext'.sub.logs := by
  cases q with
  | store | setStore | codeAt | codeSizeAt | balance | existing | refund =>
      cases done
      exact List.prefix_rfl
  | log topics data =>
      cases done
      exact List.prefix_append _ _
  | suicide beneficiary =>
      rcases Option.map_eq_some_iff.mp done with ⟨⟨ext₁, s₁⟩, killed, same⟩
      cases same
      rcases Option.bind_eq_some_iff.mp killed with ⟨s₂, -, taken⟩
      rcases Option.map_eq_some_iff.mp taken with ⟨s₃, -, same⟩
      cases same
      exact List.prefix_rfl

theorem logs_ask {α : Type} (w : Setting) {logs : List LogEntry} (read : Answer → Option α)
    (q : Query) :
    AskKeeps (fun x _ => logs <+: x.1.sub.logs) fun x => answered read (w.ask x q) := by
  intro x gas v x' before asked
  rcases Option.bind_eq_some_iff.mp asked with ⟨⟨a, ext', s'⟩, done, same⟩
  rcases Option.map_eq_some_iff.mp same with ⟨v', -, same⟩
  cases same
  exact before.trans (answer_logs done)

theorem logs_steady (logs : List LogEntry) :
    Steady (w.face C vm ext) fun x _ => logs <+: x.1.sub.logs where
  less _ _ _ _ before := before
  store n := logs_ask w asWord (.store n)
  setStore n v := logs_ask w asNothing (.setStore n v)
  balance a := logs_ask w asWord (.balance a)
  codeAt a := logs_ask w asBytes (.codeAt a)
  codeSizeAt a := by
    intro x gas v x' before asked
    change (answered asWord (w.ask x (.codeSizeAt a))).map (fun p => (p.1.toNat, p.2)) =
      some (v, x') at asked
    rcases Option.map_eq_some_iff.mp asked with ⟨⟨v', x₁⟩, answer, same⟩
    cases same
    exact logs_ask w asWord (.codeSizeAt a) x gas v' x₁ before answer
  existing a := logs_ask w asFlag (.existing a)
  suicide a := logs_ask w asNothing (.suicide a)
  log topics data := logs_ask w asNothing (.log topics data)
  refund amount := logs_ask w asNothing (.refund amount)
  blockHash n := by
    intro x gas v x' before asked
    change (UtispaceChain.blockHash _ w.lastHashes n.toNat).map (fun h => (h, x)) =
      some (v, x') at asked
    rcases Option.map_eq_some_iff.mp asked with ⟨h, -, same⟩
    cases same
    exact before

theorem step_logs {goes : Bool} (went : step C (w.face C vm ext) m = .ok goes m') :
    m.ext.1.sub.logs <+: m'.ext.1.sub.logs := by
  have steady : Steady (w.face C vm ext) fun x _ => m.ext.1.sub.logs <+: x.1.sub.logs :=
    logs_steady _
  have first : m.ext.1.sub.logs <+: m.ext.1.sub.logs := List.prefix_rfl
  have fetch : Keeps (fun (x : Around) _ => m.ext.1.sub.logs <+: x.1.sub.logs)
      (fetchInstruction (w.face C vm ext)) :=
    keeps_fetchInstruction
  cases fetched : fetchInstruction (w.face C vm ext) m with
  | error thrown ready =>
      rw [step_unfetched fetched] at went
      cases went
  | ok _ ready =>
      have before := (fetch m first).ok fetched
      rw [step_fetched fetched] at went
      cases nests : ready.op.nests with
      | false => exact (steady.interpretCases ready.op nests ready before).ok went
      | true =>
          rcases nests_cases fetched nests with ⟨op, calls, -⟩ | ⟨creates, -⟩ | ⟨throws, -⟩
          · rw [calls] at went
            have setups :=
              keeps_caseCallSetup steady.less steady.balance steady.existing op ready before
            refine (ends_caseCall op (Q := fun _ m' => m.ext.1.sub.logs <+: m'.ext.1.sub.logs)
              (E := fun _ _ => True)
              (fun _ _ _ => trivial) ?_ (fun _ _ _ _ _ _ _ _ => trivial) ?_).ok went
            · intro setup mid m₁ result possible same small
              rw [same]
              exact setups.ok result
            · intro setup mid m₁ success gas out x result possible asked same item io
              rcases face_call { setup.params with data := mid.mem.read setup.inOff setup.inSize }
                mid.ext with
                ⟨output, answer⟩
              rcases Option.map_eq_some_iff.mp (answer.symm.trans asked) with ⟨e, ended, told⟩
              cases told
              rw [same]
              change _ <+: (e.accrueSubState mid.ext.1.sub).logs
              rw [accrued_logs]
              exact (setups.ok result).trans (List.prefix_append _ _)
          · rw [creates] at went
            have setups := keeps_createSetup steady.less steady.balance ready before
            refine (ends_caseCreate (Q := fun _ m' => m.ext.1.sub.logs <+: m'.ext.1.sub.logs)
              (E := fun _ _ => True)
              (fun _ _ _ => trivial) ?_ (fun _ _ _ _ _ _ _ _ => trivial) ?_).ok went
            · intro setup mid m₁ result possible same io
              rw [same]
              exact setups.ok result
            · intro setup mid m₁ newAddress gas x result possible asked same item io
              rw [face_create] at asked
              rcases Option.map_eq_some_iff.mp asked with ⟨e, ended, told⟩
              cases told
              rw [same]
              change _ <+: (e.accrueSubState mid.ext.1.sub).logs
              rw [accrued_logs]
              exact (setups.ok result).trans (List.prefix_append _ _)
          · rw [throws] at went
            cases went

end Logs

theorem left_createGas {σ : Type} (face : Face σ) {gas : Nat} (small : gas < 2 ^ 64) :
    low64 (BitVec.ofNat 256 gas - (createGas face gas - 0)) = gas - (createGas face gas).toNat := by
  have whole : (BitVec.ofNat 256 gas).toNat = gas := by
    rw [BitVec.toNat_ofNat]
    exact Nat.mod_eq_of_lt (small.trans (by decide))
  have part : createGas face gas ≤ BitVec.ofNat 256 gas := most_le _ _
  have none : createGas face gas - 0 = createGas face gas := BitVec.sub_zero _
  unfold low64
  rw [none, BitVec.toNat_sub_of_le part, whole]
  exact Nat.mod_eq_of_lt ((Nat.sub_le _ _).trans_lt small)

section Ended

variable {w : Setting} {C : Crypto} {f : Frame} {fuel : Nat} {m ready : VM Around} {n : Nested}
    {e : Executive} (collisionFree : Function.Injective C.sha3) (empty : C.sha3 [] = EmptySHA3)

include collisionFree empty

theorem caseCall_atomic (sound : f.Sound C w.db) (attained : Attained C w.db m.ext.2)
    (read : Read C w.db m.ext ready.ext) (holds : f.Holds w C ready.ext ready.ioGas)
    (op : Instruction) (nested : w.nestedCall C (w.vm C fuel) f.ext op ready = some n)
    (kept : n.Kept w C fuel) (ended : n.ended C (w.vm C fuel) = some e) :
    ∃ goes m', caseCall (w.face C (w.vm C fuel) f.ext) op ready = .ok goes m' ∧ goes = true ∧
    n.Atomic w e m m' := by
  rcases nestedCall_cases nested with ⟨setup, mid, result, possible, rfl⟩
  have steady : Steady (w.face C (w.vm C fuel) f.ext) (f.Holds w C) := holds_steady empty sound
  have after :=
    (keeps_caseCallSetup steady.less steady.balance steady.existing op ready holds).ok result
  have seen : Read C w.db m.ext mid.ext :=
    (keeps_caseCallSetup (I := fun x _ => Read C w.db m.ext x) (fun _ _ _ _ read => read)
      (read_balance empty attained) (read_existing empty attained) op ready read).ok result
  have outcome := nestedCall_outcome collisionFree empty (after.attained sound) kept ended
  rcases face_call { setup.params with data := mid.mem.read setup.inOff setup.inSize } mid.ext with
    ⟨output, answer⟩
  have told := answer.trans (congrArg (Option.map _) ended)
  refine Ends.result (ends_caseCall op ?_ ?_ ?_ ?_)
  · intro thrown m' failed
    cases result.symm.trans failed
  · intro setup' mid' m' again impossible
    cases result.symm.trans again
    cases possible.symm.trans impossible
  · intro setup' mid' m' again _ none
    cases result.symm.trans again
    cases told.symm.trans none
  · intro setup' mid' m' success gas out x again _ asked ext item io
    cases result.symm.trans again
    cases told.symm.trans asked
    refine ⟨rfl, fun excepted => ?_, fun excepted => ?_, fun excepted => ?_, fun excepted => ?_,
      fun _ => ?_⟩
    · change ReadsAlike w.db m.ext.2 m'.ext.2
      rw [ext]
      exact alike_trans (seen.alike collisionFree empty attained) (outcome.state excepted)
    · rw [ext, ← seen.ext]
      exact outcome.sub excepted mid.ext.1.sub after.nodup
    · rw [item, decide_eq_false excepted]
      rfl
    · rw [io, outcome.gas excepted]
      exact Nat.mod_eq_of_lt after.gas
    · rw [ext, ← seen.ext]
      exact accrued_logs mid.ext.1.sub

theorem caseCreate_atomic (sound : f.Sound C w.db) (attained : Attained C w.db m.ext.2)
    (read : Read C w.db m.ext ready.ext) (holds : f.Holds w C ready.ext ready.ioGas)
    (nested : w.nestedCreate C (w.vm C fuel) f.ext ready = some n) (bare : n.Bare w C fuel)
    (kept : n.Kept w C fuel) (ended : n.ended C (w.vm C fuel) = some e) :
    ∃ goes m', caseCreate (w.face C (w.vm C fuel) f.ext) ready = .ok goes m' ∧ goes = true ∧
    n.Atomic w e m m' := by
  rcases nestedCreate_cases nested with ⟨setup, mid, result, possible, rfl⟩
  have steady : Steady (w.face C (w.vm C fuel) f.ext) (f.Holds w C) := holds_steady empty sound
  have after := (keeps_createSetup steady.less steady.balance ready holds).ok result
  have seen : Read C w.db m.ext mid.ext :=
    (keeps_createSetup (I := fun x _ => Read C w.db m.ext x) (fun _ _ _ _ read => read)
      (read_balance empty attained) ready read).ok result
  have outcome := nestedCreate_outcome collisionFree empty (after.attained sound) bare kept ended
  have told : (w.face C (w.vm C fuel) f.ext).create setup.endowment
    (createGas (w.face C (w.vm C fuel) f.ext) mid.ioGas)
      (mid.mem.read setup.initOff setup.initSize) mid.ext =
        some ((e.newAddress, e.gas),
          ({ mid.ext.1 with sub := e.accrueSubState mid.ext.1.sub }, e.s)) := by
    rw [face_create]
    exact congrArg (Option.map _) ended
  refine Ends.result (ends_caseCreate ?_ ?_ ?_ ?_)
  · intro thrown m' failed
    cases result.symm.trans failed
  · intro setup' mid' m' again impossible
    cases result.symm.trans again
    cases possible.symm.trans impossible
  · intro setup' mid' m' again _ none
    cases result.symm.trans again
    cases told.symm.trans none
  · intro setup' mid' m' newAddress gas x again _ asked ext item io
    cases result.symm.trans again
    cases told.symm.trans asked
    refine ⟨rfl, fun excepted => ?_, fun excepted => ?_, fun excepted => ?_, fun excepted => ?_,
      fun _ => ?_⟩
    · change NonceRaised w.db m.ext.1.myAddress m.ext.2 m'.ext.2
      rw [ext, ← seen.ext]
      exact alike_raised (seen.alike collisionFree empty attained) (outcome.state excepted)
    · rw [ext, ← seen.ext]
      exact outcome.sub excepted mid.ext.1.sub after.nodup
    · rw [item, outcome.newAddress excepted rfl]
      rfl
    · rw [io, outcome.gas excepted]
      exact left_createGas _ after.gas
    · rw [ext, ← seen.ext]
      exact accrued_logs mid.ext.1.sub

theorem nested_atomic (sound : f.Sound C w.db) (holds : f.Holds w C m.ext m.ioGas)
    (nested : w.nested C (w.vm C fuel) f.ext m = some n) (bare : n.Bare w C fuel)
    (kept : n.Kept w C fuel) (ended : n.ended C (w.vm C fuel) = some e) :
    ∃ goes m', step C (w.face C (w.vm C fuel) f.ext) m = .ok goes m' ∧ goes = true ∧
    n.Atomic w e m m' := by
  have attained := holds.attained sound
  have first : Read C w.db m.ext m.ext := ⟨rfl, .start _, rfl⟩
  have fetch : Keeps (fun (x : Around) _ => Read C w.db m.ext x)
      (fetchInstruction (w.face C (w.vm C fuel) f.ext)) :=
    keeps_fetchInstruction
  rcases nested_nests nested with ⟨ready, fetched, nests⟩
  have read := (fetch m first).ok fetched
  have holds' : f.Holds w C ready.ext ready.ioGas := (keeps_fetchInstruction m holds).ok fetched
  rw [step_fetched fetched]
  rcases nests_cases fetched nests with ⟨op, calls, same⟩ | ⟨creates, same⟩ | ⟨-, none⟩
  · rw [calls]
    exact caseCall_atomic collisionFree empty sound attained read holds' op
      (same.symm.trans nested) kept ended
  · rw [creates]
    exact caseCreate_atomic collisionFree empty sound attained read holds' (same.symm.trans nested)
      bare kept ended
  · rw [none] at nested
    cases nested

end Ended

def Setting.outer (w : Setting) (s : Accounts.State) : Executive :=
  { s, envInfo := w.envInfo, sealEngine := w.sealEngine, maxGas := w.maxGas, depth := 0 }

section Transactions

variable {w : Setting} {C : Crypto} {s : Accounts.State} {t : ExecTransaction} {e e₁ : Executive}
    {ext : ExtVM} {top : Frame} {fuel : Nat}

theorem initialize_fresh {e₀ : Executive} (fresh : e₀.ext = none)
    (accepted : e₀.initializeTransaction t = some e) :
    e.s = e₀.s ∧ e.t.isSome = true ∧ e.ext = none ∧ e.excepted = e₀.excepted ∧
    e.logs = e₀.logs := by
  rcases Executive.initializeTransaction_spec accepted with ⟨-, rfl⟩
  exact ⟨rfl, rfl, fresh, rfl, rfl⟩

theorem transaction_frame (empty : C.sha3 [] = EmptySHA3) (attained : Attained C w.db s)
    (accepted : (w.outer s).initializeTransaction t = some e)
    (entered : e.execute C w.db t = some (false, e₁)) (there : e₁.ext = some ext) :
    (⟨fuel, e₁.gas, ext, e₁.s⟩ : Frame).Sound C w.db := by
  rcases initialize_fresh rfl accepted with ⟨state, external, fresh, excepted, logs⟩
  have sound : e.s.Sound := by
    rw [state]
    exact (Attained.right empty attained).1
  have executed := executeLeaving_executed C w.db sound external fresh excepted logs t
  have leaving : (e.executeLeaving C w.db t).toOption = e.execute C w.db t :=
    Executive.executeLeaving_toOption t
  have blank : ext.sub = {} := by
    unfold Executive.execute at entered
    split at entered
    · exact (create_entered fresh entered).2.1 ext there
    · exact call_blank fresh entered there
  rw [entered] at leaving
  generalize e.executeLeaving C w.db t = outcome at executed leaving
  cases outcome with
  | error s' => cases leaving
  | ok q =>
      cases leaving
      cases executed with
      | framed paid excepted raised savepoint since frame inUse =>
          cases there.symm.trans frame
          refine ⟨?_, inUse, ?_⟩
          · rw [state] at raised
            exact attained.since (since_trans raised.since since)
          · rw [blank]
            exact List.nodup_nil

/-- The frames within an execution are atomic, and logs are in the order in which they are made. -/
theorem nested_frames_atomic (C : Crypto) (collisionFree : Function.Injective C.sha3)
    (empty : C.sha3 [] = EmptySHA3) (w : Setting) (s : Accounts.State)
    (attained : Attained C w.db s) (t : ExecTransaction) (e e₁ : Executive)
    (ext : ExtVM) (fuel : Nat)
    (accepted : (w.outer s).initializeTransaction t = some e)
    (entered : e.execute C w.db t = some (false, e₁)) (there : e₁.ext = some ext)
    (uncollided : w.Uncollided C ⟨fuel, e₁.gas, ext, e₁.s⟩) :
    ∀ f k m, w.Within C ⟨fuel, e₁.gas, ext, e₁.s⟩ f → w.Runs C f k m →
      (∀ n ended, w.nested C (w.vm C k) f.ext m = some n → n.ended C (w.vm C k) = some ended →
        ∃ goes m', step C (w.face C (w.vm C k) f.ext) m = .ok goes m' ∧ goes = true ∧
          n.Atomic w ended m m') ∧
      ∀ goes m', step C (w.face C (w.vm C k) f.ext) m = .ok goes m' →
      m.ext.1.sub.logs <+: m'.ext.1.sub.logs := by
  have start : (⟨fuel, e₁.gas, ext, e₁.s⟩ : Frame).Sound C w.db :=
    transaction_frame empty attained accepted entered there
  intro f k m within runs
  have sound := within_sound collisionFree empty uncollided start within
  rcases (within_holds collisionFree empty uncollided within sound).2 k m runs with ⟨holds, frames⟩
  refine ⟨fun n ended nested finishes => ?_, fun goes m' went => step_logs went⟩
  exact nested_atomic collisionFree empty sound holds nested (uncollided f k m n within runs nested)
    (frames n nested) finishes

end Transactions

section Evaluation

variable (w : Setting) (C : Crypto)

def Frame.after (f : Frame) (fuel : Nat) : Nat → Option (VM Around)
  | 0 => some (.start (w.face C (w.vm C fuel) f.ext) f.gas (f.ext, f.s))
  | k + 1 => (f.after fuel k).bind fun m =>
      match step C (w.face C (w.vm C fuel) f.ext) m with
      | .ok true m' => some m'
      | _ => none

def callsOnly (length : Nat) : Nat → U256 → ExtVM → Accounts.State → Bool
  | 0, _, _, _ => true
  | fuel + 1, gas, ext, s =>
      let f : Frame := ⟨fuel + 1, gas, ext, s⟩
      (f.after w C fuel length).isNone && (List.range length).all fun k =>
        ((f.after w C fuel k).bind (w.nested C (w.vm C fuel) ext)).all fun n => !n.creation &&
          match n.entered with
          | some (false, e) => e.ext.all fun ext => callsOnly length fuel e.gas ext e.s
          | _ => true

end Evaluation

section CallsOnly

variable {w : Setting} {C : Crypto} {f top : Frame} {fuel : Nat} {m : VM Around}

theorem after_reached (length : Nat) (size : f.fuel = fuel + 1)
    (after : f.after w C fuel length = some m) :
    w.Runs C f fuel m := by
  refine ⟨size, ?_⟩
  induction length generalizing m with
  | zero =>
      cases after
      exact .start
  | succ k ih =>
      rcases Option.bind_eq_some_iff.mp after with ⟨before, reached, went⟩
      split at went
      case h_1 m' goes =>
        cases went
        exact (ih reached).step goes
      case h_2 => cases went

theorem reached_after (runs : w.Runs C f fuel m) : ∃ k, f.after w C fuel k = some m := by
  rcases runs with ⟨-, reached⟩
  induction reached with
  | start => exact ⟨0, rfl⟩
  | step before went ih =>
      rcases ih with ⟨k, after⟩
      refine ⟨k + 1, ?_⟩
      unfold Frame.after
      rw [after, Option.bind_some, went]

theorem after_over {length k : Nat} (past : f.after w C fuel length = none) (later : length ≤ k) :
    f.after w C fuel k = none := by
  induction k, later using Nat.le_induction with
  | base => exact past
  | succ k _ ih =>
      unfold Frame.after
      rw [ih]
      rfl

theorem callsOnly_runs {length : Nat} (calling : callsOnly w C length f.fuel f.gas f.ext f.s = true)
    (runs : w.Runs C f fuel m) {n : Nested} (nested : w.nested C (w.vm C fuel) f.ext m = some n) :
    n.creation = false ∧ ∀ e ext, n.entered = some (false, e) → e.ext = some ext →
      callsOnly w C length fuel e.gas ext e.s = true := by
  rcases reached_after runs with ⟨k, after⟩
  rcases f with ⟨size, gas, ext, s⟩
  have same : size = fuel + 1 := runs.1
  subst same
  rcases Bool.and_eq_true_iff.mp calling with ⟨past, all⟩
  have within : k < length := by
    by_contra late
    rw [after_over (Option.isNone_iff_eq_none.mp past) (Nat.le_of_not_lt late)] at after
    cases after
  have looked := List.all_eq_true.mp all k (List.mem_range.mpr within)
  rw [after, Option.bind_some, nested, Option.all_some] at looked
  rcases Bool.and_eq_true_iff.mp looked with ⟨calls, inner⟩
  refine ⟨by simpa using calls, fun e ext entered there => ?_⟩
  rw [entered] at inner
  dsimp only at inner
  rw [there, Option.all_some] at inner
  exact inner

theorem callsOnly_uncollided {length : Nat}
    (calling : callsOnly w C length top.fuel top.gas top.ext top.s = true) :
    w.Uncollided C top := by
  have each : ∀ f, w.Within C top f → callsOnly w C length f.fuel f.gas f.ext f.s = true := by
    intro f within
    induction within with
    | top => exact calling
    | nested _ runs nested entered there ih =>
        exact (callsOnly_runs ih runs nested).2 _ _ entered there
  intro f fuel m n within runs nested
  have calls := (callsOnly_runs (each f within) runs nested).1
  exact ⟨fun creates => (Bool.false_ne_true (calls.symm.trans creates)).elim,
    fun creates => (Bool.false_ne_true (calls.symm.trans creates)).elim⟩

end CallsOnly

section Contracts

def callerCode : Bytes :=
  [0x60, 0, 0x60, 0, 0x60, 0, 0x60, 0, 0x60, 0, 0x60, 3, 0x61, 0xff, 0xff, 0xf1, 0x00]

def brokenCode : Bytes := [0xfe]

def creatorCode : Bytes := [0x60, 0, 0x60, 0, 0x60, 0, 0xf0, 0xfe]

def taken : Nat := Executive.createdAddress emptyAware 3 1

def contracts (code : Bytes) : Accounts.State :=
  .opened (fun a => if a = 1 then some ⟨0, 10, fun _ => 0, EmptySHA3⟩ else
    if a = 2 then some ⟨1, 0, fun _ => 0, emptyAware.sha3 callerCode⟩ else
    if a = 3 then some ⟨1, 0, fun _ => 0, emptyAware.sha3 code⟩ else
    if a = taken then some ⟨1, 0, fun _ => 0, emptyAware.sha3 brokenCode⟩ else none) 0 fun i => i

def contractCode (codeHash : H256) : Bytes :=
  ([callerCode, brokenCode, creatorCode].find? fun code => emptyAware.sha3 code = codeHash).getD []

theorem contracts_attained {code : Bytes}
    (known : emptyAware.sha3 (contractCode (emptyAware.sha3 code)) = emptyAware.sha3 code) :
    Attained emptyAware contractCode (contracts code) := by
  refine .opened _ _ _ fun a r found => ?_
  split at found
  · cases found
    exact .inl rfl
  · split at found
    · cases found
      exact .inr (by decide +kernel)
    · split at found
      · cases found
        exact .inr known
      · split at found
        · cases found
          exact .inr (by decide +kernel)
        · cases found

def village : Setting where
  envInfo := .ofHeader 1 200000 0
  author := 0
  timestamp := 0
  difficulty := 0
  lastHashes := []
  sealEngine := homestead
  maxGas := 100000
  executePrecompiled _ _ := []
  db := contractCode

def visit : ExecTransaction := ⟨false, 1, 2, 0, 0, []⟩

def visited (code : Bytes) (fuel : Nat) : Option Frame :=
  ((village.outer (contracts code)).initializeTransaction visit).bind fun e =>
    (e.execute emptyAware village.db visit).bind fun (finished, e) =>
      if finished then none else e.ext.map fun ext => ⟨fuel, e.gas, ext, e.s⟩

theorem visited_starts {code : Bytes} {fuel : Nat} {f : Frame}
    (started : visited code fuel = some f) :
    ∃ e e₁ ext, (village.outer (contracts code)).initializeTransaction visit = some e ∧
      e.execute emptyAware village.db visit = some (false, e₁) ∧ e₁.ext = some ext ∧
      f = ⟨fuel, e₁.gas, ext, e₁.s⟩ := by
  rcases Option.bind_eq_some_iff.mp started with ⟨e, accepted, started⟩
  rcases Option.bind_eq_some_iff.mp started with ⟨⟨finished, e₁⟩, entered, started⟩
  cases finished with
  | true => cases started
  | false =>
      rcases Option.map_eq_some_iff.mp started with ⟨ext, there, rfl⟩
      exact ⟨e, e₁, ext, accepted, entered, there, rfl⟩

def nestedEnd (code : Bytes) : Option (Bool × TransactionException) :=
  (visited code 12).bind fun f => (f.after village emptyAware 11 7).bind fun m =>
    (village.nested emptyAware (village.vm emptyAware 11) f.ext m).bind fun n =>
      (n.ended emptyAware (village.vm emptyAware 11)).map fun e => (n.creation, e.excepted)

theorem nestedEnd_cases {code : Bytes} {creation : Bool} {excepted : TransactionException}
    (result : nestedEnd code = some (creation, excepted)) :
    ∃ f m n e, visited code 12 = some f ∧ f.after village emptyAware 11 7 = some m ∧
      village.nested emptyAware (village.vm emptyAware 11) f.ext m = some n ∧
      n.ended emptyAware (village.vm emptyAware 11) = some e ∧ n.creation = creation ∧
      e.excepted = excepted := by
  rcases Option.bind_eq_some_iff.mp result with ⟨f, started, result⟩
  rcases Option.bind_eq_some_iff.mp result with ⟨m, after, result⟩
  rcases Option.bind_eq_some_iff.mp result with ⟨n, nested, result⟩
  rcases Option.map_eq_some_iff.mp result with ⟨e, ended, same⟩
  cases same
  exact ⟨f, m, n, e, started, after, nested, ended, rfl, rfl⟩

end Contracts

/-- Contract 3 fails, and contract 2 sees nothing of it. -/
theorem nested_frames_atomic_broken : ∃ f m n e goes m', visited brokenCode 12 = some f ∧
    village.nested emptyAware (village.vm emptyAware 11) f.ext m = some n ∧
    n.ended emptyAware (village.vm emptyAware 11) = some e ∧ e.excepted = .badInstruction ∧
    step emptyAware (village.face emptyAware (village.vm emptyAware 11) f.ext) m = .ok goes m' ∧
    goes = true ∧
    n.Atomic village e m m' := by
  have result : nestedEnd brokenCode = some (false, .badInstruction) := by decide +kernel
  have calling : ((visited brokenCode 12).any fun f =>
      callsOnly village emptyAware 11 f.fuel f.gas f.ext f.s) = true := by decide +kernel
  rcases nestedEnd_cases result with ⟨f, m, n, e, started, after, nested, ended, -, excepted⟩
  rcases visited_starts started with ⟨e₀, e₁, ext, accepted, entered, there, rfl⟩
  rw [started, Option.any_some] at calling
  have atomic :=
    (nested_frames_atomic emptyAware emptyAware_injective rfl village (contracts brokenCode)
    (contracts_attained (by decide +kernel)) visit e₀ e₁ ext 12 accepted entered there
    (callsOnly_uncollided calling) _ 11 m .top (after_reached 7 rfl after)).1 n e nested ended
  rcases atomic with ⟨goes, m', went, on, atomic⟩
  exact ⟨_, m, n, e, goes, m', started, nested, ended, excepted, went, on, atomic⟩

/-- Contract 3 makes a creation at an address that has code, and fails: that code is lost. -/
theorem nested_creation_not_atomic :
    ¬ ∀ (w : Setting) (s : Accounts.State) (t : ExecTransaction) (e e₁ : Executive) (ext : ExtVM)
      (fuel : Nat),
      Attained emptyAware w.db s → (w.outer s).initializeTransaction t = some e →
      e.execute emptyAware w.db t = some (false, e₁) → e₁.ext = some ext →
      ∀ f k m, w.Within emptyAware ⟨fuel, e₁.gas, ext, e₁.s⟩ f → w.Runs emptyAware f k m →
        ∀ n ended, w.nested emptyAware (w.vm emptyAware k) f.ext m = some n →
          n.ended emptyAware (w.vm emptyAware k) = some ended →
          ∃ goes m', step emptyAware (w.face emptyAware (w.vm emptyAware k) f.ext) m = .ok goes m' ∧
          goes = true ∧
            n.Atomic w ended m m' := by
  intro allAtomic
  have result : nestedEnd creatorCode = some (false, .badInstruction) := by decide +kernel
  have lost : ((visited creatorCode 12).any fun f => (f.after village emptyAware 11 7).any fun m =>
      (f.after village emptyAware 11 8).any fun m' =>
        decide (m'.ext.2.codeHash taken ≠ m.ext.2.codeHash taken)) = true := by decide +kernel
  rcases nestedEnd_cases result with ⟨f, m, n, e, started, after, nested, ended, calls, excepted⟩
  rcases visited_starts started with ⟨e₀, e₁, ext, accepted, entered, there, rfl⟩
  rcases allAtomic village (contracts creatorCode) visit e₀ e₁ ext 12
    (contracts_attained (by decide +kernel)) accepted
    entered there _ 11 m .top (after_reached 7 rfl after) n e nested ended
      with ⟨goes, m', went, rfl, atomic⟩
  have next : Frame.after village emptyAware ⟨12, e₁.gas, ext, e₁.s⟩ 11 8 = some m' := by
    unfold Frame.after
    rw [after, Option.bind_some, went]
  have state := atomic.state (by rw [excepted]; decide)
  rw [calls, if_neg Bool.false_ne_true] at state
  rw [started, Option.any_some, after, Option.any_some, next, Option.any_some] at lost
  exact of_decide_eq_true lost (state.codeHash taken)

end UtispaceChain.Evm
