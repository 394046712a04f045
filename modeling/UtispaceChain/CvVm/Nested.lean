import UtispaceChain.Cv.FailedTransaction
import UtispaceChain.CvVm.ExtVM
import UtispaceChain.CvVm.Gas

/-! Frames within frames: one that ends with an exception leaves the caller its state and its
substate, and gives no gas back. -/

namespace UtispaceChain.Evm

open Lib Accounts Accounts.State

section Executives

variable {C : Crypto} {db : H256 → Bytes} {vm : Accounts.VM} {e e' : Executive} {ext : ExtVM}
    {finished : Bool}

theorem add_empty {sub : SubState} (nodup : sub.suicides.Nodup) : sub.add {} = sub := by
  have same : ∀ l : List Nat, l.Nodup → l ∪ [] = l := by
    intro l
    induction l with
    | nil => exact fun _ => rfl
    | cons a l ih =>
        intro nodup
        rcases List.nodup_cons.mp nodup with ⟨fresh, rest⟩
        rw [List.cons_union, ih rest, List.insert_of_not_mem fresh]
  have zero : sub.refunds + 0 = sub.refunds := BitVec.add_zero _
  unfold SubState.add
  change (⟨sub.suicides ∪ [], sub.logs ++ [], sub.refunds + 0⟩ : SubState) = sub
  rw [same sub.suicides nodup, List.append_nil, zero]

/-- What is left of a frame after a `VMException`. -/
structure Failed (e e' : Executive) (s' : Accounts.State) : Prop where
  state : e'.s = s'.rollback e.savepoint
  gas : e'.gas = 0
  newAddress : e'.newAddress = 0
  sub : ∀ sub, e'.accrueSubState sub = sub.add {}

theorem go_ended (present : e.ext = some ext) (excepted : e.excepted = .none)
    (done : e.go C vm = some e') :
    (e'.excepted = .none ∧ ∃ gas out sub s', vm e.gas ext e.s = .returned gas out sub s' ∧
      ∀ before, e'.accrueSubState before = before.add sub) ∨
      ∃ s', (vm e.gas ext e.s).leaves = some s' ∧ Failed e e' s' := by
  unfold Executive.go at done
  rw [present] at done
  dsimp only at done
  split at done
  · cases done
  case h_2 x s' outcome =>
    cases done
    rw [outcome]
    exact .inr ⟨s', rfl, ⟨rfl, rfl, rfl, fun _ => rfl⟩⟩
  case h_3 gas out sub s' outcome =>
    rw [outcome]
    split at done
    · cases done
      unfold Executive.deposit
      dsimp only
      split
      · exact .inr ⟨s', rfl, ⟨rfl, rfl, rfl, fun _ => rfl⟩⟩
      · split
        · exact .inl ⟨excepted, gas, out, sub, s', rfl, fun _ => rfl⟩
        · split
          · exact .inr ⟨s', rfl, ⟨rfl, rfl, rfl, fun _ => rfl⟩⟩
          · exact .inl ⟨excepted, gas, out, sub, s', rfl, fun _ => rfl⟩
    · cases done
      exact .inl ⟨excepted, gas, out, sub, s', rfl, fun _ => rfl⟩

theorem call_blank {sender codeAddress receiveAddress origin : Nat}
    {valueTransfer apparentValue gas gasPrice : U256} {data : Bytes} (fresh : e.ext = none)
    (done : e.call db sender codeAddress receiveAddress valueTransfer apparentValue gas data
      gasPrice origin =
      some (finished, e')) (there : e'.ext = some ext) : ext.sub = {} := by
  have none : ∀ s, ¬ ({ e with s } : Executive).ext = some ext := by
    intro s same
    have same : e.ext = some ext := same
    rw [fresh] at same
    cases same
  rcases Option.bind_eq_some_iff.mp done with ⟨s₁, raised, done⟩
  dsimp only at done
  split at done
  · split at done
    · cases done
      exact absurd there (none s₁)
    · rcases Option.map_eq_some_iff.mp done with ⟨s₂, paid, same⟩
      cases same
      exact absurd there (none s₂)
  · split at done
    · rcases Option.map_eq_some_iff.mp done with ⟨s₂, paid, same⟩
      cases same
      cases there
      rfl
    · rcases Option.map_eq_some_iff.mp done with ⟨s₂, paid, same⟩
      cases same
      exact absurd there (none s₂)

/-- A call within a frame ends at once or starts a frame; the one exception is that a precompiled
contract is too dear. -/
theorem call_entered {sender codeAddress receiveAddress origin : Nat}
    {valueTransfer apparentValue gas gasPrice : U256} {data : Bytes} (inner : e.t = none)
    (fresh : e.ext = none)
    (done : e.call db sender codeAddress receiveAddress valueTransfer apparentValue gas data
      gasPrice origin =
      some (finished, e')) :
    (finished = true → e'.ext = none) ∧
      (e'.excepted = e.excepted ∨ finished = true ∧ e'.s = e.s ∧ e'.gas = e.gas) := by
  unfold Executive.call at done
  rw [inner] at done
  change (if e.sealEngine.isPrecompiled codeAddress = true then _ else _) = _ at done
  split at done
  · split at done
    · cases done
      exact ⟨fun _ => fresh, .inr ⟨rfl, rfl, rfl⟩⟩
    · rcases Option.map_eq_some_iff.mp done with ⟨s₁, paid, same⟩
      cases same
      exact ⟨fun _ => fresh, .inl rfl⟩
  · split at done
    · rcases Option.map_eq_some_iff.mp done with ⟨s₁, paid, same⟩
      cases same
      exact ⟨nofun, .inl rfl⟩
    · rcases Option.map_eq_some_iff.mp done with ⟨s₁, paid, same⟩
      cases same
      exact ⟨fun _ => fresh, .inl rfl⟩

theorem create_entered {sender origin : Nat} {endowment gasPrice gas : U256} {init : Bytes}
    (fresh : e.ext = none) (done : e.create C sender endowment gasPrice gas init origin =
      some (finished, e')) :
    (finished = true → e'.ext = none) ∧ (∀ ext, e'.ext = some ext → ext.sub = {}) ∧
    e'.excepted = e.excepted := by
  rcases Option.bind_eq_some_iff.mp done with ⟨s₁, raised, done⟩
  rcases Option.bind_eq_some_iff.mp done with ⟨s₂, payment, done⟩
  rcases Option.map_eq_some_iff.mp done with ⟨s₃, made, same⟩
  have none : ∀ ext, e.ext = some ext → ext.sub = {} := by
    rw [fresh]
    nofun
  dsimp only at same
  split at same
  · cases same
    refine ⟨nofun, fun ext there => ?_, rfl⟩
    cases there
    rfl
  · split at same
    · cases same
      exact ⟨fun _ => fresh, none, rfl⟩
    · cases same
      exact ⟨fun _ => fresh, none, rfl⟩

end Executives

/-- A frame starts in a state that is attained, in an account that is there. -/
structure Frame.Sound (C : Crypto) (db : H256 → Bytes) (f : Frame) : Prop where
  attained : Attained C db f.s
  inUse : f.s.addressInUse f.ext.myAddress = true
  nodup : f.ext.sub.suicides.Nodup

structure Frame.Kept (w : Setting) (C : Crypto) (f : Frame) : Prop where
  since : ∀ s', (w.vm C f.fuel f.gas f.ext f.s).leaves = some s' → Since C w.db f.s s'
  nodup : ∀ gas out sub s', w.vm C f.fuel f.gas f.ext f.s = .returned gas out sub s' →
    sub.suicides.Nodup

structure Outcome (w : Setting) (C : Crypto) (creation : Bool) (x : Around) (e : Executive) :
    Prop where
  since : Since C w.db x.2 e.s
  nodup : ∀ sub : SubState, sub.suicides.Nodup → (e.accrueSubState sub).suicides.Nodup
  state : e.excepted ≠ .none →
    if creation then NonceRaised w.db x.1.myAddress x.2 e.s else ReadsAlike w.db x.2 e.s
  gas : e.excepted ≠ .none → e.gas = 0
  newAddress : e.excepted ≠ .none → creation = true → e.newAddress = 0
  sub : e.excepted ≠ .none → ∀ sub : SubState, sub.suicides.Nodup → e.accrueSubState sub = sub

section Outcomes

variable {w : Setting} {C : Crypto} {x : Around} {e e₁ : Executive} {finished : Bool} {fuel : Nat}

theorem accrued_nodup {sub other : SubState} (nodup : other.suicides.Nodup) :
    (sub.add other).suicides.Nodup :=
  List.Nodup.union sub.suicides nodup

theorem accrued_none (fresh : e.ext = none) (sub : SubState) : e.accrueSubState sub = sub := by
  rw [Executive.accrueSubState, fresh]
  rfl

theorem enterCall_frame (attained : Attained C w.db x.2) (empty : C.sha3 [] = EmptySHA3)
    {p : CallParameters} (entered : w.enterCall p x = some (false, e₁)) {ext : ExtVM}
    (there : e₁.ext = some ext) :
    (⟨fuel, e₁.gas, ext, e₁.s⟩ : Frame).Sound C w.db := by
  have sound := (Attained.right empty attained).1
  rcases call_since (C := C) sound rfl rfl entered with ⟨since, -, -, frame⟩
  rcases frame rfl with ⟨other, same, inUse⟩
  cases there.symm.trans same
  refine ⟨attained.since since, inUse, ?_⟩
  rw [call_blank rfl entered there]
  exact List.nodup_nil

theorem call_outcome (collisionFree : Function.Injective C.sha3) (empty : C.sha3 [] = EmptySHA3)
    (attained : Attained C w.db x.2) {p : CallParameters}
    (entered : w.enterCall p x = some (finished, e₁)) (kept : finished = false →
      ∀ ext, e₁.ext = some ext → Frame.Kept w C ⟨fuel, e₁.gas, ext, e₁.s⟩)
    (ended : (if finished then some e₁ else e₁.go C (w.vm C fuel)) = some e) :
    Outcome w C false x e := by
  have sound := (Attained.right empty attained).1
  have restored : ∀ s', Since C w.db x.2 s' → ReadsAlike w.db x.2 (s'.rollback x.2.savepoint) :=
    fun _ since => since_readsAlike collisionFree empty attained since
  rcases call_since (C := C) sound rfl rfl entered with ⟨since, savepoint, plain, frame⟩
  rcases call_entered rfl rfl entered with ⟨bare, well⟩
  cases finished with
  | true =>
      cases ended
      have nothing := accrued_none (bare rfl)
      refine ⟨since, fun sub nodup => by rw [nothing]; exact nodup, ?_, ?_, nofun,
        fun _ sub _ => nothing sub⟩
      · intro excepted
        rcases well with none | ⟨-, state, -⟩
        · exact absurd none excepted
        · have same : e.s = x.2 := state
          change ReadsAlike w.db x.2 e.s
          rw [same]
          exact ⟨fun a => rfl, fun a => rfl, fun a => rfl, fun a => rfl, fun a => rfl,
            fun a key => rfl⟩
      · intro excepted
        rcases well with none | ⟨-, -, gas⟩
        · exact absurd none excepted
        · exact gas
  | false =>
      rcases frame rfl with ⟨ext, there, -⟩
      have running := kept rfl ext there
      have done : e₁.go C (w.vm C fuel) = some e := ended
      have calm : e₁.excepted = .none := by
        rcases well with none | ⟨finishes, -, -⟩
        · exact none
        · cases finishes
      have whole : Since C w.db x.2 e.s := by
        refine go_since running.since sound since savepoint there (fun created => ?_) done
        have never : e₁.isCreation = false := plain
        rw [never] at created
        cases created
      rcases go_ended there calm done with ⟨none, gas, out, sub, s', returned, accrues⟩
        | ⟨s', left, failed⟩
      · refine ⟨whole, fun before _ => ?_, fun excepted => absurd none excepted,
          fun excepted => absurd none excepted, nofun, fun excepted => absurd none excepted⟩
        rw [accrues]
        exact accrued_nodup (running.nodup gas out sub s' returned)
      · refine ⟨whole, fun before _ => ?_, fun _ => ?_, fun _ => failed.gas, nofun,
          fun _ before nodup => ?_⟩
        · rw [failed.sub]
          exact accrued_nodup List.nodup_nil
        · have back := restored s' (since_trans since (running.since s' left))
          have state := failed.state
          rw [savepoint] at state
          change ReadsAlike w.db x.2 e.s
          rw [state]
          exact back
        · rw [failed.sub, add_empty nodup]

theorem enterCreate_frame (attained : Attained C w.db x.2) (empty : C.sha3 [] = EmptySHA3)
    {endowment gas : U256} {code : Bytes}
    (bare : x.2.addressHasCode
      (Executive.createdAddress C x.1.myAddress (x.2.getNonce x.1.myAddress)) = false)
    (entered : w.enterCreate C endowment gas code x = some (false, e₁)) {ext : ExtVM}
    (there : e₁.ext = some ext) :
    (⟨fuel, e₁.gas, ext, e₁.s⟩ : Frame).Sound C w.db := by
  have sound := (Attained.right empty attained).1
  rcases create_raised w.db (e := w.inner x) sound bare entered with ⟨s₁, raised, since, -, frame⟩
  rcases create_entered rfl entered with ⟨-, blank, -⟩
  rcases frame rfl with ⟨other, same, inUse, -⟩
  cases there.symm.trans same
  refine ⟨attained.since (since_trans raised.since since), inUse, ?_⟩
  rw [blank ext there]
  exact List.nodup_nil

theorem create_outcome (collisionFree : Function.Injective C.sha3) (empty : C.sha3 [] = EmptySHA3)
    (attained : Attained C w.db x.2) {endowment gas : U256} {code : Bytes}
    (bare : x.2.addressHasCode
      (Executive.createdAddress C x.1.myAddress (x.2.getNonce x.1.myAddress)) = false)
    (entered : w.enterCreate C endowment gas code x = some (finished, e₁))
    (kept : finished = false → ∀ ext, e₁.ext = some ext → Frame.Kept w C ⟨fuel, e₁.gas, ext, e₁.s⟩)
    (still : ∀ ext, e₁.ext = some ext → ∀ gas out sub s', w.vm C fuel e₁.gas ext e₁.s =
      .returned gas out sub s' →
      s'.addressHasCode ext.myAddress = false)
    (ended : (if finished then some e₁ else e₁.go C (w.vm C fuel)) = some e) :
    Outcome w C true x e := by
  rcases Attained.right empty attained with ⟨sound, coded⟩
  rcases create_raised w.db (e := w.inner x) sound bare entered with
    ⟨s₁, raised, since, savepoint, frame⟩
  rcases create_entered rfl entered with ⟨bare, -, well⟩
  have calm : e₁.excepted = .none := well
  have sound₁ : s₁.Sound := (raised.start sound).1
  cases finished with
  | true =>
      cases ended
      have nothing := accrued_none (bare rfl)
      refine ⟨since_trans raised.since since, fun sub nodup => by rw [nothing]; exact nodup, ?_, ?_,
        ?_, fun _ sub _ => nothing sub⟩
      · exact fun excepted => absurd calm excepted
      · exact fun excepted => absurd calm excepted
      · exact fun excepted => absurd calm excepted
  | false =>
      rcases frame rfl with ⟨ext, there, -, changed⟩
      have running := kept rfl ext there
      have done : e₁.go C (w.vm C fuel) = some e := ended
      have whole : Since C w.db s₁ e.s :=
        go_since running.since sound₁ since savepoint there
          (fun _ => ⟨changed, still ext there⟩) done
      rcases go_ended there calm done with ⟨none, gas, out, sub, s', returned, accrues⟩
        | ⟨s', left, failed⟩
      · refine ⟨since_trans raised.since whole, fun before _ => ?_,
          fun excepted => absurd none excepted, fun excepted => absurd none excepted,
          fun excepted => absurd none excepted, fun excepted => absurd none excepted⟩
        rw [accrues]
        exact accrued_nodup (running.nodup gas out sub s' returned)
      · refine ⟨since_trans raised.since whole, fun before _ => ?_, fun _ => ?_,
          fun _ => failed.gas, fun _ _ => failed.newAddress, fun _ before nodup => ?_⟩
        · rw [failed.sub]
          exact accrued_nodup List.nodup_nil
        · have back := Raised.rolled_back collisionFree empty sound coded raised
            (since_trans since (running.since s' left))
          have state := failed.state
          rw [savepoint] at state
          change NonceRaised w.db x.1.myAddress x.2 e.s
          rw [state]
          exact back.1
        · rw [failed.sub, add_empty nodup]

end Outcomes

section Answers

variable {w : Setting} {C : Crypto} {vm : Accounts.VM} {ext : ExtVM}

theorem face_call (p : CallParameters) (x : Around) :
    ∃ out : Executive → Bytes, (w.face C vm ext).call p x =
      ((w.enterCall p x).bind fun q => if q.1 then some q.2 else q.2.go C vm).map fun e =>
        ((decide (e.excepted = .none), e.gas, out e),
          ({ x.1 with sub := e.accrueSubState x.1.sub }, e.s)) := by
  change ∃ out : Executive → Bytes, answered asCalled ((w.enterCall p x).bind _) = _
  cases entered : w.enterCall p x with
  | none => exact ⟨fun _ => [], rfl⟩
  | some q =>
      rcases q with ⟨finished, e⟩
      cases finished with
      | true =>
          have nothing := accrued_none ((call_entered rfl rfl entered).1 rfl) x.1.sub
          refine ⟨fun e => if w.sealEngine.isPrecompiled p.codeAddress &&
            decide (e.excepted = .none) then
            w.executePrecompiled p.codeAddress p.data else [], ?_⟩
          change some _ = some _
          dsimp only
          rw [nothing]
      | false =>
          refine ⟨fun e => e.res.output, ?_⟩
          change answered asCalled ((e.go C vm).map _) = (e.go C vm).map _
          cases e.go C vm <;> rfl

theorem face_create (endowment gas : U256) (code : Bytes) (x : Around) :
    (w.face C vm ext).create endowment gas code x =
      ((w.enterCreate C endowment gas code x).bind fun q => if q.1 then some q.2
        else q.2.go C vm).map fun e =>
        ((e.newAddress, e.gas), ({ x.1 with sub := e.accrueSubState x.1.sub }, e.s)) := by
  change answered asCreated ((w.enterCreate C endowment gas code x).bind _) = _
  cases entered : w.enterCreate C endowment gas code x with
  | none => rfl
  | some q =>
      rcases q with ⟨finished, e⟩
      cases finished with
      | true =>
          have nothing := accrued_none ((create_entered rfl entered).1 rfl) x.1.sub
          change some _ = some _
          dsimp only
          rw [nothing]
      | false =>
          change answered asCreated ((e.go C vm).map _) = (e.go C vm).map _
          cases e.go C vm <;> rfl

end Answers

section Instructions

variable {σ : Type} {C : Crypto} {face : Face σ} {m : VM σ}

theorem ends_of_ok {α : Type} {x : M σ α} {a : α} {m' : VM σ} {Q : α → VM σ → Prop}
    {E : Thrown → VM σ → Prop} (result : x m = .ok a m') (good : Q a m') : Ends x m Q E := by
  unfold Ends
  rw [result]
  exact good

theorem ends_of_error {α : Type} {x : M σ α} {e : Thrown} {m' : VM σ} {Q : α → VM σ → Prop}
    {E : Thrown → VM σ → Prop} (result : x m = .error e m') (bad : E e m') : Ends x m Q E := by
  unfold Ends
  rw [result]
  exact bad

theorem Ends.result {α : Type} {x : M σ α} {Q : α → VM σ → Prop}
    (ends : Ends x m Q fun _ _ => False) :
    ∃ a m', x m = .ok a m' ∧ Q a m' := by
  cases result : x m with
  | ok a m' => exact ⟨a, m', rfl, ends.ok result⟩
  | error e m' => exact (ends.error result).elim

theorem ends_put {v : U256} {Q : Unit → VM σ → Prop} {E : Thrown → VM σ → Prop}
    (good : ∀ m', m'.ext = m.ext → m'.ioGas = m.ioGas → m'.item 0 = v → Q () m') :
    Ends (put v) m Q E := by
  unfold put
  rw [ends_bind, ends_modify, ends_poke]
  refine good _ rfl rfl ?_
  unfold VM.item
  exact Function.update_self _ _ _

theorem ends_caseCall {Q : Bool → VM σ → Prop} {E : Thrown → VM σ → Prop} (op : Instruction)
    (bad : ∀ e m', caseCallSetup face op m = .error e m' → E e m')
    (skipped : ∀ setup mid m', caseCallSetup face op m = .ok setup mid → setup.possible = false →
      m'.ext = mid.ext →
      m'.ioGas < 2 ^ 64 → Q true m')
    (threw : ∀ setup mid m', caseCallSetup face op m = .ok setup mid → setup.possible = true →
      face.call { setup.params with data := mid.mem.read setup.inOff setup.inSize } mid.ext = none →
      m'.ext = mid.ext → m'.ioGas = mid.ioGas → E .unexpected m')
    (called : ∀ setup mid m' success gas out x, caseCallSetup face op m = .ok setup mid →
      setup.possible = true →
      face.call { setup.params with data := mid.mem.read setup.inOff setup.inSize } mid.ext =
        some ((success, gas, out), x) → m'.ext = x → m'.item 0 = ofBool success →
      m'.ioGas = (mid.ioGas + low64 gas) % 2 ^ 64 → Q true m') : Ends (caseCall face op) m Q E := by
  unfold caseCall onward
  simp only [ends_bind]
  cases result : caseCallSetup face op m with
  | error e m' => exact ends_of_error result (bad e m' result)
  | ok setup mid =>
      refine ends_of_ok result ?_
      cases possible : setup.possible with
      | false =>
          rw [if_neg Bool.false_ne_true, ends_bind]
          refine ends_put fun m₁ ext _ _ => ?_
          refine skipped setup mid _ result possible ext ?_
          exact Nat.mod_lt _ (by decide)
      | true =>
          rw [if_pos rfl]
          unfold callFrame
          simp only [ends_bind, ends_readMem]
          refine ends_ask (fun asked => threw setup mid _ result possible asked rfl rfl)
            fun answer x asked => ?_
          rcases answer with ⟨success, gas, out⟩
          simp only [ends_writeMem]
          refine ends_put fun m₁ ext gas₁ item => ?_
          refine called setup mid _ success gas out x result possible asked ext item ?_
          rw [← show m₁.ioGas = mid.ioGas from gas₁]

theorem ends_caseCreate {Q : Bool → VM σ → Prop} {E : Thrown → VM σ → Prop}
    (bad : ∀ e m', createSetup face m = .error e m' → E e m')
    (skipped : ∀ setup mid m', createSetup face m = .ok setup mid → setup.possible = false →
      m'.ext = mid.ext →
      m'.ioGas = mid.ioGas → Q true m')
    (threw : ∀ setup mid m', createSetup face m = .ok setup mid → setup.possible = true →
      face.create setup.endowment (createGas face mid.ioGas)
        (mid.mem.read setup.initOff setup.initSize) mid.ext = none →
      m'.ext = mid.ext → m'.ioGas = mid.ioGas → E .unexpected m')
    (made : ∀ setup mid m' newAddress gas x, createSetup face m = .ok setup mid →
      setup.possible = true →
      face.create setup.endowment (createGas face mid.ioGas)
        (mid.mem.read setup.initOff setup.initSize) mid.ext =
        some ((newAddress, gas), x) → m'.ext = x → m'.item 0 = BitVec.ofNat 256 newAddress →
      m'.ioGas = low64 (BitVec.ofNat 256 mid.ioGas - (createGas face mid.ioGas - gas)) →
        Q true m') :
    Ends (caseCreate face) m Q E := by
  have split : caseCreate face = onward (do
      let setup ← createSetup face
      if setup.possible then createFrame face setup.endowment setup.initOff setup.initSize
        else put 0) := by
    unfold caseCreate createSetup
    simp only [bind_assoc, pure_bind, decide_eq_true_eq]
  rw [split]
  unfold onward
  simp only [ends_bind]
  cases result : createSetup face m with
  | error e m' => exact ends_of_error result (bad e m' result)
  | ok setup mid =>
      refine ends_of_ok result ?_
      cases possible : setup.possible with
      | false =>
          rw [if_neg Bool.false_ne_true]
          exact ends_put fun m₁ ext gas _ => skipped setup mid _ result possible ext gas
      | true =>
          rw [if_pos rfl]
          unfold createFrame
          simp only [ends_bind, ends_modify, ends_get, ends_readMem]
          refine ends_ask (fun asked => threw setup mid _ result possible asked rfl rfl)
            fun answer x asked => ?_
          rcases answer with ⟨newAddress, gas⟩
          refine made setup mid _ newAddress gas x result possible asked rfl ?_ rfl
          unfold VM.item
          exact Function.update_self _ _ _

end Instructions

section Setups

variable {σ : Type} {face : Face σ} {I : σ → Nat → Prop}

theorem keeps_fetchInstruction : Keeps I (fetchInstruction face) := by
  refine keeps_bind (keeps_modify fun _ => ⟨rfl, rfl⟩) fun _ => keeps_bind keeps_get fun _ => ?_
  refine keeps_bind ?_ fun _ => keeps_bind (keeps_toUint64 _) fun _ => keeps_modify
    fun _ => ⟨rfl, rfl⟩
  exact keeps_bind keeps_get fun _ =>
    keeps_ite (keeps_throw _) (keeps_ite (keeps_throw _) (keeps_pure ()))

variable (less : ∀ x gas gas', gas' ≤ gas → I x gas → I x gas')
    (balance : ∀ a, AskKeeps I (face.balance a))

include less balance in
theorem keeps_createSetup : Keeps I (createSetup face) := by
  refine keeps_bind (keeps_peek 1) fun _ => keeps_bind (keeps_peek 2) fun _ =>
    keeps_bind (keeps_memNeed _ _) fun _ => ?_
  refine keeps_bind (keeps_setNewMemSize _) fun _ => keeps_bind (keeps_toUint64 _) fun _ => ?_
  refine keeps_bind (keeps_setRunGas _) fun _ => keeps_bind (keeps_updateMem face) fun _ => ?_
  refine keeps_bind (keeps_charge less) fun _ => keeps_bind keeps_take fun _ =>
    keeps_bind keeps_take fun _ => ?_
  exact keeps_bind keeps_take fun _ => keeps_bind (keeps_ask (balance _)) fun _ => keeps_pure _

variable (existing : ∀ a, AskKeeps I (face.existing a))

include less balance existing in
theorem keeps_caseCallSetup (op : Instruction) : Keeps I (caseCallSetup face op) := by
  have added : ∀ gas : Nat, Keeps I (do
      let more ← toUint64 gas
      addRunGas more : M σ Unit) := fun gas => keeps_bind (keeps_toUint64 gas) keeps_addRunGas
  have static : Keeps I (callStaticGas face op) := by
    refine keeps_bind (keeps_toUint64 _) fun _ => keeps_bind (keeps_setRunGas _) fun _ =>
      keeps_ite ?_ (keeps_pure ())
    refine keeps_bind (keeps_peek 1) fun _ => keeps_bind (keeps_ask (existing _)) fun _ => ?_
    exact keeps_bind (keeps_peek 2) fun _ => keeps_ite (added _) (keeps_pure ())
  have value : Keeps I (callValueGas face op) :=
    keeps_ite (keeps_pure ())
      (keeps_bind (keeps_peek 2) fun _ => keeps_ite (added _) (keeps_pure ()))
  have mem : ∀ k, Keeps I (callMem k : M σ Unit) := by
    intro k
    refine keeps_bind (keeps_peek _) fun _ => keeps_bind (keeps_peek _) fun _ =>
      keeps_bind (keeps_memNeed _ _) fun _ => ?_
    refine keeps_bind (keeps_peek _) fun _ => keeps_bind (keeps_peek _) fun _ =>
      keeps_bind (keeps_memNeed _ _) fun _ => ?_
    exact keeps_setNewMemSize _
  have given : Keeps I (callGas face) :=
    keeps_bind keeps_get fun _ => keeps_bind (keeps_peek 0) fun _ => keeps_pure _
  have stipend : ∀ gas, Keeps I (callStipend face op gas) := fun gas =>
    keeps_ite (keeps_pure _) (keeps_bind (keeps_peek 2) fun _ => keeps_pure _)
  have values : Keeps I (callValue face op) :=
    keeps_ite (keeps_pure _) (keeps_bind keeps_take fun _ => keeps_pure _)
  refine keeps_bind static fun _ => keeps_bind value fun _ => keeps_bind (mem _) fun _ => ?_
  refine keeps_bind (keeps_updateMem face) fun _ => keeps_bind (keeps_charge less) fun _ =>
    keeps_bind given fun _ => ?_
  refine keeps_bind (keeps_toUint64 _) fun _ => keeps_bind (keeps_setRunGas _) fun _ => ?_
  refine keeps_bind (keeps_charge less) fun _ => keeps_bind (stipend _) fun _ =>
    keeps_bind (keeps_drop 1) fun _ => ?_
  refine keeps_bind keeps_take fun _ => keeps_bind values fun _ => keeps_bind keeps_take fun _ => ?_
  refine keeps_bind keeps_take fun _ => keeps_bind keeps_take fun _ =>
    keeps_bind keeps_take fun _ => ?_
  exact keeps_bind (keeps_ask (balance _)) fun _ => keeps_pure _

end Setups

/-- What holds of the surroundings and the gas in a frame, after any of its instructions. -/
structure Frame.Holds (w : Setting) (C : Crypto) (f : Frame) (x : Around) (gas : Nat) : Prop where
  since : Since C w.db f.s x.2
  address : x.1.myAddress = f.ext.myAddress
  nodup : x.1.sub.suicides.Nodup
  gas : gas < 2 ^ 64

structure Read (C : Crypto) (db : H256 → Bytes) (x₀ x : Around) : Prop where
  ext : x.1 = x₀.1
  since : Since C db x₀.2 x.2
  held : x.2.ledger.holding = x₀.2.ledger.holding

section Holds

variable {w : Setting} {C : Crypto} {vm : Accounts.VM} {ext : ExtVM} {f : Frame}
    {x x₀ : Around} {gas : Nat}

theorem Read.alike (read : Read C w.db x₀ x) (collisionFree : Function.Injective C.sha3)
    (empty : C.sha3 [] = EmptySHA3) (attained : Attained C w.db x₀.2) :
    ReadsAlike w.db x₀.2 x.2 := by
  rcases Attained.right empty attained with ⟨sound, coded⟩
  have extended := since_extends read.since sound
  exact readsAlike collisionFree sound coded extended.sound
    (since_coded empty read.since coded) read.held
    extended.steps.start

theorem read_account (empty : C.sha3 [] = EmptySHA3) (attained : Attained C w.db x₀.2)
    (read : Read C w.db x₀ x) (a : Nat) : Read C w.db x₀ (x.1, (x.2.account a).2) := by
  have sound := (since_extends read.since (Attained.right empty attained).1).sound
  have same : (x.2.account a).2.ledger = x.2.ledger :=
    (account_shows sound.shows sound.consistent a).1.ledger
  exact ⟨read.ext, since_trans read.since (account_since x.2 a),
    (congrArg Ledger.holding same).trans read.held⟩

theorem read_balance (empty : C.sha3 [] = EmptySHA3) (attained : Attained C w.db x₀.2) (a : Nat) :
    AskKeeps (fun x _ => Read C w.db x₀ x) ((w.face C vm ext).balance a) := by
  intro x gas v x' read asked
  cases asked
  exact read_account empty attained read a

theorem read_existing (empty : C.sha3 [] = EmptySHA3) (attained : Attained C w.db x₀.2) (a : Nat) :
    AskKeeps (fun x _ => Read C w.db x₀ x) ((w.face C vm ext).existing a) := by
  intro x gas v x' read asked
  cases asked
  exact read_account empty attained read a

theorem answer_nodup {q : Query} {a : Answer} {ext ext' : ExtVM} {s s' : Accounts.State}
    {envInfo : Accounts.EnvInfo} {sealEngine : SealEngine} {db : H256 → Bytes}
    (nodup : ext.sub.suicides.Nodup) (done : ext.answer db envInfo sealEngine s q =
      some (a, ext', s')) : ext'.sub.suicides.Nodup := by
  cases q with
  | store | setStore | codeAt | codeSizeAt | balance | existing | log | refund =>
      cases done
      exact nodup
  | suicide beneficiary =>
      rcases Option.map_eq_some_iff.mp done with ⟨⟨ext₁, s₁⟩, killed, same⟩
      cases same
      rcases Option.bind_eq_some_iff.mp killed with ⟨s₂, -, taken⟩
      rcases Option.map_eq_some_iff.mp taken with ⟨s₃, -, same⟩
      cases same
      exact nodup.insert

theorem holds_ask {α : Type} (empty : C.sha3 [] = EmptySHA3) (sound : f.Sound C w.db)
    (read : Answer → Option α) (q : Query) :
    AskKeeps (f.Holds w C) fun x => answered read (w.ask x q) := by
  intro x gas v x' holds asked
  rcases Option.bind_eq_some_iff.mp asked with ⟨⟨a, ext', s'⟩, done, same⟩
  rcases Option.map_eq_some_iff.mp same with ⟨v', -, same⟩
  cases same
  have start := (Attained.right empty sound.attained).1
  have inUse : x.2.addressInUse x.1.myAddress = true := by
    rw [holds.address]
    exact since_inUse holds.since start sound.inUse
  rcases ExtVM.answer_since (C := C) inUse done with ⟨since, address⟩
  exact ⟨since_trans holds.since since, address.trans holds.address, answer_nodup holds.nodup done,
    holds.gas⟩

theorem holds_steady (empty : C.sha3 [] = EmptySHA3) (sound : f.Sound C w.db) :
    Steady (w.face C vm f.ext) (f.Holds w C) where
  less _ _ _ le holds := ⟨holds.since, holds.address, holds.nodup, le.trans_lt holds.gas⟩
  store n := holds_ask empty sound asWord (.store n)
  setStore n v := holds_ask empty sound asNothing (.setStore n v)
  balance a := holds_ask empty sound asWord (.balance a)
  codeAt a := holds_ask empty sound asBytes (.codeAt a)
  codeSizeAt a := by
    intro x gas v x' holds asked
    change (answered asWord (w.ask x (.codeSizeAt a))).map (fun p => (p.1.toNat, p.2)) =
      some (v, x') at asked
    rcases Option.map_eq_some_iff.mp asked with ⟨⟨v', x₁⟩, answer, same⟩
    cases same
    exact holds_ask empty sound asWord (.codeSizeAt a) x gas v' x₁ holds answer
  existing a := holds_ask empty sound asFlag (.existing a)
  suicide a := holds_ask empty sound asNothing (.suicide a)
  log topics data := holds_ask empty sound asNothing (.log topics data)
  refund amount := holds_ask empty sound asNothing (.refund amount)
  blockHash n := by
    intro x gas v x' holds asked
    change (UtispaceChain.blockHash _ w.lastHashes n.toNat).map (fun h => (h, x)) =
      some (v, x') at asked
    rcases Option.map_eq_some_iff.mp asked with ⟨h, -, same⟩
    cases same
    exact holds

end Holds

/-- No code is set of an account that has code: the address of a creation has none, neither before
it nor when its code has run. -/
structure Nested.Bare (w : Setting) (C : Crypto) (fuel : Nat) (n : Nested) : Prop where
  before : n.creation = true → n.caller.2.addressHasCode
    (Executive.createdAddress C n.caller.1.myAddress (n.caller.2.getNonce n.caller.1.myAddress)) =
    false
  after : n.creation = true → ∀ e ext, n.entered = some (false, e) → e.ext = some ext →
    ∀ gas out sub s',
    w.vm C fuel e.gas ext e.s = .returned gas out sub s' → s'.addressHasCode ext.myAddress = false

def Nested.Kept (w : Setting) (C : Crypto) (fuel : Nat) (n : Nested) : Prop :=
  ∀ e ext, n.entered = some (false, e) → e.ext = some ext → Frame.Kept w C ⟨fuel, e.gas, ext, e.s⟩

section Steps

variable {w : Setting} {C : Crypto} {f : Frame} {fuel : Nat} {m ready : VM Around} {n : Nested}
    {e : Executive} {vm : Accounts.VM} {ext : ExtVM}

theorem step_fetched (fetched : fetchInstruction (w.face C vm ext) m = .ok () ready) :
    step C (w.face C vm ext) m = interpretCases C (w.face C vm ext) ready.op ready := by
  change EStateM.bind (fetchInstruction (w.face C vm ext)) _ m = _
  unfold EStateM.bind
  rw [fetched]
  rfl

theorem step_unfetched {thrown : Thrown}
    (failed : fetchInstruction (w.face C vm ext) m = .error thrown ready) :
    step C (w.face C vm ext) m = .error thrown ready := by
  change EStateM.bind (fetchInstruction (w.face C vm ext)) _ m = _
  unfold EStateM.bind
  rw [failed]

theorem nests_cases (fetched : fetchInstruction (w.face C vm ext) m = .ok () ready)
    (nests : ready.op.nests = true) :
    (∃ op, interpretCases C (w.face C vm ext) ready.op = caseCall (w.face C vm ext) op ∧
      w.nested C vm ext m = w.nestedCall C vm ext op ready) ∨
    (interpretCases C (w.face C vm ext) ready.op = caseCreate (w.face C vm ext) ∧
      w.nested C vm ext m = w.nestedCreate C vm ext ready) ∨
    (interpretCases C (w.face C vm ext) ready.op = throwBadInstruction ∧
      w.nested C vm ext m = none) := by
  have split : ready.op = .create ∨ ready.op = .call ∨ ready.op = .callcode ∨
      ready.op = .delegatecall :=
    of_decide_eq_true nests
  unfold Setting.nested
  rw [fetched]
  dsimp only
  rcases split with op | op | op | op
  · rw [op]
    exact .inr (.inl ⟨rfl, rfl⟩)
  · rw [op]
    exact .inl ⟨.call, rfl, rfl⟩
  · rw [op]
    exact .inl ⟨.callcode, rfl, rfl⟩
  · rw [op]
    change (∃ op, (if w.schedule.haveDelegateCall = true then _ else _) = _ ∧ _) ∨ _ ∨ _
    by_cases have_ : w.schedule.haveDelegateCall = true
    · exact .inl ⟨.delegatecall, if_pos have_, if_pos have_⟩
    · exact .inr (.inr ⟨if_neg have_, if_neg have_⟩)

theorem nested_nests (some_ : w.nested C vm ext m = some n) :
    ∃ ready, fetchInstruction (w.face C vm ext) m = .ok () ready ∧ ready.op.nests = true := by
  unfold Setting.nested at some_
  cases fetched : fetchInstruction (w.face C vm ext) m with
  | error thrown ready =>
      rw [fetched] at some_
      cases some_
  | ok _ ready =>
      refine ⟨ready, rfl, ?_⟩
      rw [fetched] at some_
      dsimp only at some_
      split at some_
      case h_1 op => rw [op]; rfl
      case h_2 op => rw [op]; rfl
      case h_3 op => rw [op]; rfl
      case h_4 op => rw [op]; rfl
      case h_5 => cases some_

theorem nestedCall_some {op : Instruction} {setup : CallSetup} {mid : VM Around}
    (result : caseCallSetup (w.face C vm ext) op m = .ok setup mid)
    (possible : setup.possible = true) :
    w.nestedCall C vm ext op m = some ⟨false, mid.ext, mid.ioGas,
      w.enterCall { setup.params with data := mid.mem.read setup.inOff setup.inSize } mid.ext⟩ := by
  unfold Setting.nestedCall
  rw [result]
  exact if_pos possible

theorem nestedCreate_some {setup : CreateSetup} {mid : VM Around}
    (result : createSetup (w.face C vm ext) m = .ok setup mid) (possible : setup.possible = true) :
    w.nestedCreate C vm ext m =
      some ⟨true, mid.ext, mid.ioGas - (createGas (w.face C vm ext) mid.ioGas).toNat,
      w.enterCreate C setup.endowment (createGas (w.face C vm ext) mid.ioGas)
        (mid.mem.read setup.initOff setup.initSize) mid.ext⟩ := by
  unfold Setting.nestedCreate
  rw [result]
  exact if_pos possible

theorem nestedCall_cases {op : Instruction} (some_ : w.nestedCall C vm ext op m = some n) :
    ∃ setup mid, caseCallSetup (w.face C vm ext) op m = .ok setup mid ∧ setup.possible = true ∧
      n = ⟨false, mid.ext, mid.ioGas,
        w.enterCall { setup.params with data := mid.mem.read setup.inOff setup.inSize }
          mid.ext⟩ := by
  unfold Setting.nestedCall at some_
  split at some_
  · cases some_
  case h_2 setup mid result =>
    split at some_
    case isTrue possible =>
      cases some_
      exact ⟨setup, mid, result, possible, rfl⟩
    case isFalse => cases some_

theorem nestedCreate_cases (some_ : w.nestedCreate C vm ext m = some n) :
    ∃ setup mid, createSetup (w.face C vm ext) m = .ok setup mid ∧ setup.possible = true ∧
      n = ⟨true, mid.ext, mid.ioGas - (createGas (w.face C vm ext) mid.ioGas).toNat,
        w.enterCreate C setup.endowment (createGas (w.face C vm ext) mid.ioGas)
          (mid.mem.read setup.initOff setup.initSize) mid.ext⟩ := by
  unfold Setting.nestedCreate at some_
  split at some_
  · cases some_
  case h_2 setup mid result =>
    split at some_
    case isTrue possible =>
      cases some_
      exact ⟨setup, mid, result, possible, rfl⟩
    case isFalse => cases some_

end Steps

section Runs

variable {w : Setting} {C : Crypto} {f : Frame} {fuel : Nat} {m : VM Around} {n : Nested}
    {e : Executive}

theorem Outcome.holds {creation : Bool} {x : Around} {gas gas' : Nat}
    (outcome : Outcome w C creation x e) (holds : f.Holds w C x gas) (small : gas' < 2 ^ 64) :
    f.Holds w C ({ x.1 with sub := e.accrueSubState x.1.sub }, e.s) gas' :=
  ⟨since_trans holds.since outcome.since, holds.address, outcome.nodup _ holds.nodup, small⟩

theorem Frame.Holds.attained {x : Around} {gas : Nat} (holds : f.Holds w C x gas)
    (sound : f.Sound C w.db) :
    Attained C w.db x.2 := sound.attained.since holds.since

variable (collisionFree : Function.Injective C.sha3) (empty : C.sha3 [] = EmptySHA3)

include collisionFree empty

theorem nestedCall_outcome {x : Around} {p : CallParameters} {kept : Nat}
    (attained : Attained C w.db x.2)
    (running : Nested.Kept w C fuel ⟨false, x, kept, w.enterCall p x⟩)
    (ended : Nested.ended C (w.vm C fuel) ⟨false, x, kept, w.enterCall p x⟩ = some e) :
    Outcome w C false x e := by
  rcases Option.bind_eq_some_iff.mp ended with ⟨⟨finished, e₁⟩, entered, ended⟩
  refine call_outcome collisionFree empty attained entered (fun unfinished ext there => ?_) ended
  subst unfinished
  exact running e₁ ext entered there

theorem nestedCreate_outcome {x : Around} {endowment gas : U256} {code : Bytes} {kept : Nat}
    (attained : Attained C w.db x.2)
    (bare : Nested.Bare w C fuel ⟨true, x, kept, w.enterCreate C endowment gas code x⟩)
    (running : Nested.Kept w C fuel ⟨true, x, kept, w.enterCreate C endowment gas code x⟩)
    (ended : Nested.ended C (w.vm C fuel) ⟨true, x, kept, w.enterCreate C endowment gas code x⟩ =
      some e) :
    Outcome w C true x e := by
  rcases Option.bind_eq_some_iff.mp ended with ⟨⟨finished, e₁⟩, entered, ended⟩
  refine create_outcome collisionFree empty attained (bare.before rfl) entered
    (fun unfinished ext there => ?_) ?_ ended
  · subst unfinished
    exact running e₁ ext entered there
  · intro ext there
    cases finished with
    | false => exact bare.after rfl e₁ ext entered there
    | true =>
        rw [(create_entered rfl entered).1 rfl] at there
        cases there

theorem step_holds (sound : f.Sound C w.db) (holds : f.Holds w C m.ext m.ioGas)
    (frames : ∀ n, w.nested C (w.vm C fuel) f.ext m = some n → n.Bare w C fuel ∧ n.Kept w C fuel) :
    Ends (step C (w.face C (w.vm C fuel) f.ext)) m (fun _ m' => f.Holds w C m'.ext m'.ioGas)
      fun _ m' => f.Holds w C m'.ext m'.ioGas := by
  have steady : Steady (w.face C (w.vm C fuel) f.ext) (f.Holds w C) := holds_steady empty sound
  cases fetched : fetchInstruction (w.face C (w.vm C fuel) f.ext) m with
  | error thrown ready =>
      refine ends_of_error (step_unfetched fetched) ?_
      exact (keeps_fetchInstruction m holds).error fetched
  | ok _ ready =>
      have holds' : f.Holds w C ready.ext ready.ioGas := (keeps_fetchInstruction m holds).ok fetched
      unfold Ends
      rw [step_fetched fetched]
      change Ends (interpretCases C _ ready.op) ready _ _
      cases nests : ready.op.nests with
      | false => exact steady.interpretCases ready.op nests ready holds'
      | true =>
          rcases nests_cases fetched nests with ⟨op, calls, same⟩ | ⟨creates, same⟩ | ⟨throws, -⟩
          · have setups :=
              keeps_caseCallSetup steady.less steady.balance steady.existing op ready holds'
            rw [calls]
            refine ends_caseCall op (fun thrown m' result => setups.error result) ?_ ?_ ?_
            · intro setup mid m' result possible ext small
              rw [ext]
              have before := setups.ok result
              exact ⟨before.since, before.address, before.nodup, small⟩
            · intro setup mid m' result possible asked ext gas
              rw [ext, gas]
              exact setups.ok result
            · intro setup mid m' success gas out x result possible asked ext item io
              have before := setups.ok result
              rcases face_call { setup.params with data := mid.mem.read setup.inOff setup.inSize }
                mid.ext with
                ⟨output, answer⟩
              rcases Option.map_eq_some_iff.mp (answer.symm.trans asked) with ⟨e, ended, told⟩
              cases told
              have running := (frames _ (same.trans (nestedCall_some result possible))).2
              have outcome := nestedCall_outcome collisionFree empty (before.attained sound)
                running ended
              rw [ext]
              exact outcome.holds before (io ▸ Nat.mod_lt _ (by decide))
          · have setups := keeps_createSetup steady.less steady.balance ready holds'
            rw [creates]
            refine ends_caseCreate (fun thrown m' result => setups.error result) ?_ ?_ ?_
            · intro setup mid m' result possible ext gas
              rw [ext, gas]
              exact setups.ok result
            · intro setup mid m' result possible asked ext gas
              rw [ext, gas]
              exact setups.ok result
            · intro setup mid m' newAddress gas x result possible asked ext item io
              have before := setups.ok result
              rw [face_create] at asked
              rcases Option.map_eq_some_iff.mp asked with ⟨e, ended, told⟩
              cases told
              have own := frames _ (same.trans (nestedCreate_some result possible))
              have outcome := nestedCreate_outcome collisionFree empty (before.attained sound)
                own.1 own.2 ended
              rw [ext]
              exact outcome.holds before (io ▸ Nat.mod_lt _ (by decide))
          · rw [throws]
            exact holds'

omit collisionFree in
theorem nested_sound (sound : f.Sound C w.db) (holds : f.Holds w C m.ext m.ioGas) {vm : Accounts.VM}
    (nested : w.nested C vm f.ext m = some n) (bare : n.Bare w C fuel) {ext : ExtVM}
    (entered : n.entered = some (false, e)) (there : e.ext = some ext) :
    (⟨fuel, e.gas, ext, e.s⟩ : Frame).Sound C w.db := by
  have steady : Steady (w.face C vm f.ext) (f.Holds w C) := holds_steady empty sound
  rcases nested_nests nested with ⟨ready, fetched, nests⟩
  have holds' : f.Holds w C ready.ext ready.ioGas := (keeps_fetchInstruction m holds).ok fetched
  rcases nests_cases fetched nests with ⟨op, -, same⟩ | ⟨-, same⟩ | ⟨-, none⟩
  · rcases nestedCall_cases (same.symm.trans nested) with ⟨setup, mid, result, -, rfl⟩
    have before :=
      (keeps_caseCallSetup steady.less steady.balance steady.existing op ready holds').ok result
    exact enterCall_frame (before.attained sound) empty entered there
  · rcases nestedCreate_cases (same.symm.trans nested) with ⟨setup, mid, result, -, rfl⟩
    have before := (keeps_createSetup steady.less steady.balance ready holds').ok result
    exact enterCreate_frame (before.attained sound) empty (bare.before rfl) entered there
  · rw [none] at nested
    cases nested

end Runs

/-- In no frame of the execution is code set of an account that has code. -/
def Setting.Uncollided (w : Setting) (C : Crypto) (top : Frame) : Prop :=
  ∀ f fuel m n, w.Within C top f → w.Runs C f fuel m → w.nested C (w.vm C fuel) f.ext m = some n →
  n.Bare w C fuel

section Executions

variable {w : Setting} {C : Crypto} {f top : Frame} {fuel : Nat} {m : VM Around} {n : Nested}
    {e : Executive}

theorem interpret_last {face : Face Around} {gas : U256} {x : Around}
    {r : EStateM.Result Thrown (VM Around) Unit} (reached : Reached C face gas x m)
    (ran : interpret C face fuel m = some r) :
    ∃ last, Reached C face gas x last ∧ (∀ a m', r = .ok a m' → step C face last = .ok false m') ∧
      ∀ thrown m', r = .error thrown m' → step C face last = .error thrown m' := by
  induction fuel generalizing m with
  | zero => cases ran
  | succ fuel ih =>
      unfold interpret at ran
      split at ran
      case h_1 m' went => exact ih (reached.step went) ran
      case h_2 m' went =>
          cases ran
          refine ⟨m, reached, fun a m'' same => ?_, fun thrown m'' same => ?_⟩
          · cases same
            exact went
          · cases same
      case h_3 thrown m' went =>
          cases ran
          refine ⟨m, reached, fun a m'' same => ?_, fun thrown m'' same => ?_⟩
          · cases same
          · cases same
            exact went

theorem frame_kept (size : f.fuel = fuel + 1)
    (holds : ∀ m, w.Runs C f fuel m → Ends (step C (w.face C (w.vm C fuel) f.ext)) m
      (fun _ m' => f.Holds w C m'.ext m'.ioGas) fun _ m' => f.Holds w C m'.ext m'.ioGas) :
      f.Kept w C := by
  have returns : ∀ {a m'}, interpret C (w.face C (w.vm C fuel) f.ext) fuel
      (.start (w.face C (w.vm C fuel) f.ext) f.gas (f.ext, f.s)) = some (.ok a m') →
      f.Holds w C m'.ext m'.ioGas := by
    intro a m' ran
    rcases interpret_last .start ran with ⟨last, reached, halted, -⟩
    exact (holds last ⟨size, reached⟩).ok (halted a m' rfl)
  have throws : ∀ {thrown m'}, interpret C (w.face C (w.vm C fuel) f.ext) fuel
      (.start (w.face C (w.vm C fuel) f.ext) f.gas (f.ext, f.s)) = some (.error thrown m') →
        f.Holds w C m'.ext m'.ioGas := by
    intro thrown m' ran
    rcases interpret_last .start ran with ⟨last, reached, -, threw⟩
    exact (holds last ⟨size, reached⟩).error (threw thrown m' rfl)
  constructor
  · intro s' left
    rw [size, Setting.vm] at left
    split at left
    · cases left
    case h_2 m ran =>
      cases left
      exact (returns ran).since
    case h_3 excepted m ran =>
      cases left
      exact (throws ran).since
    case h_4 => cases left
  · intro gas out sub s' returned
    rw [size, Setting.vm] at returned
    split at returned
    · cases returned
    case h_2 m ran =>
      cases returned
      exact (returns ran).nodup
    case h_3 => cases returned
    case h_4 => cases returned

variable (collisionFree : Function.Injective C.sha3) (empty : C.sha3 [] = EmptySHA3)

include collisionFree empty

theorem within_holds (uncollided : w.Uncollided C top) (within : w.Within C top f)
    (sound : f.Sound C w.db) :
    f.Kept w C ∧ ∀ fuel m, w.Runs C f fuel m → f.Holds w C m.ext m.ioGas ∧
      ∀ n, w.nested C (w.vm C fuel) f.ext m = some n → n.Kept w C fuel := by
  generalize size : f.fuel = whole
  induction whole generalizing f with
  | zero =>
      constructor
      · constructor
        · intro s' left
          rw [size] at left
          cases left
        · intro gas out sub s' returned
          rw [size] at returned
          cases returned
      · intro fuel m runs
        rw [runs.1] at size
        cases size
  | succ fuel ih =>
      -- at a machine that holds, the frames within are kept
      have frames : ∀ m, w.Runs C f fuel m → f.Holds w C m.ext m.ioGas →
          ∀ n, w.nested C (w.vm C fuel) f.ext m = some n → n.Kept w C fuel := by
        intro m runs holds n nested e ext entered there
        have bare := uncollided f fuel m n within runs nested
        exact (ih (.nested within runs nested entered there)
          (nested_sound empty sound holds nested bare
          entered there) rfl).1
      have next : ∀ m, w.Runs C f fuel m → f.Holds w C m.ext m.ioGas →
          Ends (step C (w.face C (w.vm C fuel) f.ext)) m (fun _ m' => f.Holds w C m'.ext m'.ioGas)
            fun _ m' => f.Holds w C m'.ext m'.ioGas := fun m runs holds =>
        step_holds collisionFree empty sound holds fun n nested =>
          ⟨uncollided f fuel m n within runs nested, frames m runs holds n nested⟩
      have all : ∀ m, w.Runs C f fuel m → f.Holds w C m.ext m.ioGas := by
        intro m runs
        rcases runs with ⟨size, reached⟩
        induction reached with
        | start => exact ⟨.start f.s, rfl, sound.nodup, Nat.mod_lt _ (by decide)⟩
        | step before went ih => exact (next _ ⟨size, before⟩ ih).ok went
      refine ⟨frame_kept size fun m runs => next m runs (all m runs), fun fuel' m runs => ?_⟩
      have same : fuel' = fuel := Nat.succ.inj (runs.1.symm.trans size)
      subst same
      exact ⟨all m runs, frames m runs (all m runs)⟩

theorem within_sound (uncollided : w.Uncollided C top) (start : top.Sound C w.db)
    (within : w.Within C top f) :
    f.Sound C w.db := by
  induction within with
  | top => exact start
  | nested within runs nested entered there sound =>
      have holds := ((within_holds collisionFree empty uncollided within sound).2 _ _ runs).1
      exact nested_sound empty sound holds nested (uncollided _ _ _ _ within runs nested)
        entered there

end Executions

end UtispaceChain.Evm
