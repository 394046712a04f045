import UtispaceChain.Cv.FailedTransaction

/-! `ClientBase::estimateGas`: the search for the gas that a transaction needs. -/

namespace UtispaceChain

namespace GasEstimate

open Accounts

inductive Tried
  | returned (er : ExecutionResult)
  | threw
  | exit
  deriving DecidableEq, Repr

/-- An execution that more gas may help; none ends with `OutOfGasIntrinsic`. -/
def isShort (er : ExecutionResult) : Bool :=
  er.excepted = .outOfGas || er.excepted = .outOfGasBase || er.codeDeposit = .failed ||
  er.excepted = .badJumpDestination

structure Search where
  lowerBound : Nat
  upperBound : Nat
  er : ExecutionResult := {}
  lastGood : ExecutionResult := {}
  good : Bool := false
  deriving DecidableEq, Repr

namespace Search

variable (s : Search)

/-- The sum is one of `u256`. -/
def mid : Nat := (s.lowerBound + s.upperBound) % 2 ^ 256 / 2

def next (er : ExecutionResult) : Search :=
  if isShort er then { s with er, lowerBound := if s.lowerBound = s.mid then s.upperBound
    else s.mid }
  else { s with er, lastGood := er, upperBound := if s.upperBound = s.mid then s.lowerBound
    else s.mid, good := true }

end Search

inductive Searched
  | found (s : Search)
  | threw
  | exit
  deriving DecidableEq, Repr

/-- What `estimateGas` returns: whatever is thrown is caught. -/
def Searched.answer : Searched → Option (Nat × ExecutionResult)
  | found s => some (s.upperBound, if s.good then s.lastGood else s.er)
  | threw => some (0, {})
  | exit => none

def Searched.reported : Searched → Option ExecutionResult
  | found s => if s.good then some s.lastGood else none
  | _ => none

def searchFrom (execute : Nat → Tried) : Nat → Search → Option Searched
  | fuel, s =>
      if s.upperBound = s.lowerBound then some (.found s)
      else
        match fuel with
        | 0 => none
        | fuel + 1 =>
            match execute s.mid with
            | .threw => some .threw
            | .exit => some .exit
            | .returned er => searchFrom execute fuel (s.next er)

def LetIn (execute : Nat → Tried) (g : Nat) : Prop := ∃ er, execute g = .returned er

/-- The execution has a result, and not one that more gas may help. -/
def Succeeds (execute : Nat → Tried) (g : Nat) : Prop :=
  ∃ er, execute g = .returned er ∧ isShort er = false

/-- The least gas from one bound on that succeeds, if there is one below the other bound, and else
that one. -/
structure IsEstimate (execute : Nat → Tried) (lower upper g : Nat) : Prop where
  least : ∀ g', lower ≤ g' → g' < g → g' < upper → ¬Succeeds execute g'
  chosen : lower ≤ g ∧ g < upper ∧ Succeeds execute g ∨ g = upper

/-- The search ends and returns the estimate, and a `lastGood` that is reported is the result with
that gas. -/
def Estimates (execute : Nat → Tried) (lower upper : Nat) (searched : Option Searched) : Prop :=
  ∃ outcome gas er, searched = some outcome ∧ outcome.answer = some (gas, er) ∧
  IsEstimate execute lower upper gas ∧
    ∀ lastGood, outcome.reported = some lastGood → execute gas = .returned lastGood

/-- No execution ends the process, and more gas neither keeps a transaction out nor spoils a
success. -/
structure MonotoneInGas (execute : Nat → Tried) : Prop where
  runs : ∀ g, execute g ≠ .exit
  let_in : ∀ g g', g ≤ g' → LetIn execute g → LetIn execute g'
  succeeds : ∀ g g', g ≤ g' → Succeeds execute g → Succeeds execute g'

section Search

variable {execute : Nat → Tried} {lower upper fuel : Nat} {s : Search}

/-- What is known of an execution and of the gas on either side. -/
inductive Trial (execute : Nat → Tried) (g : Nat) : Tried → Prop
  | threw (out : ∀ g' ≤ g, ¬LetIn execute g') : Trial execute g .threw
  | short {er : ExecutionResult} (short : isShort er = true) (below : ∀ g' ≤
      g, ¬Succeeds execute g') :
      Trial execute g (.returned er)
  | good {er : ExecutionResult} (good : isShort er = false) (above : ∀ g', g ≤ g' →
      Succeeds execute g') :
      Trial execute g (.returned er)

theorem MonotoneInGas.trial (monotone : MonotoneInGas execute) (g : Nat) :
    Trial execute g (execute g) := by
  cases result : execute g with
  | exit => exact absurd result (monotone.runs g)
  | threw =>
      refine .threw fun g' le let_in => ?_
      rcases monotone.let_in g' g le let_in with ⟨er, returned⟩
      rw [result] at returned
      cases returned
  | returned er =>
      cases short : isShort er with
      | false => exact .good short fun g' le => monotone.succeeds g g' le ⟨er, result, short⟩
      | true =>
          refine .short short fun g' le succeeds => ?_
          rcases monotone.succeeds g' g le succeeds with ⟨er', returned, good⟩
          rw [result] at returned
          cases returned
          rw [short] at good
          cases good

theorem searchFrom_done (same : s.upperBound = s.lowerBound) :
    searchFrom execute fuel s = some (.found s) := by
  unfold searchFrom
  rw [if_pos same]

theorem searchFrom_returned {er : ExecutionResult} (apart : s.upperBound ≠ s.lowerBound)
    (returned : execute s.mid = .returned er) :
    searchFrom execute (fuel + 1) s = searchFrom execute fuel (s.next er) := by
  rw [searchFrom, if_neg apart, returned]

theorem searchFrom_threw (apart : s.upperBound ≠ s.lowerBound) (threw : execute s.mid = .threw) :
    searchFrom execute (fuel + 1) s = some .threw := by
  rw [searchFrom, if_neg apart, threw]

theorem next_short {er : ExecutionResult} (short : isShort er = true) :
    s.next er = { s with er, lowerBound := if s.lowerBound = s.mid then s.upperBound else s.mid } :=
  if_pos short

theorem next_good {er : ExecutionResult} (good : isShort er = false) :
    s.next er =
      { s with er, lastGood := er, upperBound := if s.upperBound = s.mid then s.lowerBound
        else s.mid, good := true } := by
  rw [Search.next, good]
  exact if_neg Bool.false_ne_true

theorem mid_eq (small : s.lowerBound + s.upperBound < 2 ^ 256) :
    s.mid = (s.lowerBound + s.upperBound) / 2 := by
  rw [Search.mid, Nat.mod_eq_of_lt small]

/-- What holds in the search: nothing below its lower bound succeeds, and its upper bound is the
first one, or it has succeeded with `lastGood`. -/
structure Bounded (execute : Nat → Tried) (lower upper : Nat) (s : Search) : Prop where
  below : ∀ g, lower ≤ g → g < s.lowerBound → ¬Succeeds execute g
  top : s.good = false ∧ s.upperBound = upper ∨
    s.good = true ∧ s.upperBound < upper ∧ lower ≤ s.upperBound ∧
    execute s.upperBound = .returned s.lastGood ∧
      isShort s.lastGood = false

theorem Bounded.estimates (bounded : Bounded execute lower upper s)
    (met : s.upperBound = s.lowerBound) :
    Estimates execute lower upper (some (.found s)) := by
  rcases bounded with ⟨below, ⟨fresh, top⟩ | ⟨good, less, low, returned, succeeded⟩⟩
  · refine ⟨_, _, _, rfl, rfl, ⟨fun g from_ less _ => below g from_ (met ▸ less), .inr top⟩,
      fun lastGood reported => ?_⟩
    rw [Searched.reported, fresh] at reported
    cases reported
  · refine ⟨_, _, _, rfl, rfl,
      ⟨fun g from_ less _ => below g from_ (met ▸ less), .inl ⟨low, less, ?_⟩⟩, ?_⟩
    · exact ⟨_, returned, succeeded⟩
    · intro lastGood reported
      rw [Searched.reported, good] at reported
      cases reported
      exact returned

theorem Bounded.next (monotone : MonotoneInGas execute) (bounded : Bounded execute lower upper s)
    (apart : s.lowerBound < s.upperBound) (small : s.lowerBound + s.upperBound < 2 ^ 256)
    (from_ : lower ≤ s.lowerBound) (within : s.upperBound ≤ upper) {er : ExecutionResult}
    (returned : execute s.mid = .returned er) :
    Bounded execute lower upper (s.next er) ∧ (s.next er).lowerBound ≤ (s.next er).upperBound ∧
      s.lowerBound ≤ (s.next er).lowerBound ∧ (s.next er).upperBound ≤ s.upperBound ∧
      (s.next er).upperBound - (s.next er).lowerBound < s.upperBound - s.lowerBound := by
  have middle := mid_eq small
  have trial := monotone.trial s.mid
  rw [returned] at trial
  cases trial with
  | short short below =>
      rw [next_short short]
      by_cases narrow : s.lowerBound = s.mid
      · rw [if_pos narrow]
        refine ⟨⟨fun g _ less => below g ?_, bounded.top⟩, ?_⟩
        · change g < s.upperBound at less
          omega
        · dsimp only
          omega
      · rw [if_neg narrow]
        refine ⟨⟨fun g _ less => below g (Nat.le_of_lt less), bounded.top⟩, ?_⟩
        dsimp only
        omega
  | good good above =>
      have wide : s.upperBound ≠ s.mid := by omega
      rw [next_good good, if_neg wide]
      refine ⟨⟨bounded.below, .inr ⟨rfl, ?_, ?_, returned, good⟩⟩, ?_⟩
      · change s.mid < upper
        omega
      · change lower ≤ s.mid
        omega
      · dsimp only
        omega

theorem search_estimates (monotone : MonotoneInGas execute) (order : s.lowerBound ≤ s.upperBound)
    (high : LetIn execute s.lowerBound) (bounded : Bounded execute lower upper s)
    (small : upper + upper < 2 ^ 256) (from_ : lower ≤ s.lowerBound)
    (within : s.upperBound ≤ upper) (enough : s.upperBound - s.lowerBound ≤ fuel) :
    Estimates execute lower upper (searchFrom execute fuel s) := by
  induction fuel generalizing s with
  | zero =>
      have met : s.upperBound = s.lowerBound := by omega
      rw [searchFrom_done met]
      exact bounded.estimates met
  | succ fuel ih =>
      by_cases met : s.upperBound = s.lowerBound
      · rw [searchFrom_done met]
        exact bounded.estimates met
      · have sum : s.lowerBound + s.upperBound < 2 ^ 256 := by omega
        have middle := mid_eq sum
        rcases monotone.let_in s.lowerBound s.mid (by omega) high with ⟨er, returned⟩
        rcases bounded.next monotone (by omega) sum from_ within returned with
          ⟨next, order', rises, falls, closer⟩
        rw [searchFrom_returned met returned]
        exact ih order' (monotone.let_in _ _ rises high) next (by omega) (by omega) (by omega)

theorem point_zero (low width : Nat) : low + width / 2 ^ (0 + 1) = low + width / 2 := by
  rw [Nat.zero_add, Nat.pow_one]

theorem point_succ (low width j : Nat) :
    low + width / 2 ^ (j + 1 + 1) = low + width / 2 / 2 ^ (j + 1) := by
  rw [pow_succ' 2 (j + 1), Nat.div_div_eq_div_mul]

theorem not_estimates_threw (positive : 0 < lower) (order : lower ≤ upper) :
    ¬Estimates execute lower upper (some .threw) := by
  rintro ⟨outcome, g, er, same, answer, estimate, -⟩
  cases same
  cases answer
  rcases estimate.chosen with ⟨low, -, -⟩ | same
  · omega
  · omega

/-- Where the lower bound is not let in, the search comes down by halves until one of them fails, or
is not let in. -/
theorem search_descends (monotone : MonotoneInGas execute) (apart : s.lowerBound < s.upperBound)
    (low : ¬LetIn execute s.lowerBound) (bounded : Bounded execute lower upper s)
    (small : upper + upper < 2 ^ 256) (from_ : lower ≤ s.lowerBound)
    (within : s.upperBound ≤ upper) (enough : s.upperBound - s.lowerBound ≤ fuel)
    (positive : 0 < lower) :
    Estimates execute lower upper (searchFrom execute fuel s) ↔
      ∃ j, LetIn execute (s.lowerBound + (s.upperBound - s.lowerBound) / 2 ^ (j + 1)) ∧
        ¬Succeeds execute (s.lowerBound + (s.upperBound - s.lowerBound) / 2 ^ (j + 1)) := by
  induction fuel generalizing s with
  | zero => omega
  | succ fuel ih =>
      have sum : s.lowerBound + s.upperBound < 2 ^ 256 := by omega
      have middle := mid_eq sum
      have half : s.mid = s.lowerBound + (s.upperBound - s.lowerBound) / 2 := by omega
      have trial := monotone.trial s.mid
      cases result : execute s.mid with
      | exit =>
          rw [result] at trial
          cases trial
      | threw =>
          rw [result] at trial
          rw [searchFrom_threw apart.ne' result]
          cases trial with
          | threw out =>
              refine iff_of_false (not_estimates_threw positive (by omega)) ?_
              rintro ⟨j, high, -⟩
              refine out _ ?_ high
              have shrinks : (s.upperBound - s.lowerBound) / 2 ^ (j + 1) ≤
                  (s.upperBound - s.lowerBound) / 2 := by
                rw [pow_succ', ← Nat.div_div_eq_div_mul]
                exact Nat.div_le_self _ _
              omega
      | returned er =>
          rcases bounded.next monotone apart sum from_ within result with
            ⟨next, order', rises, falls, closer⟩
          rw [result] at trial
          have let_in : LetIn execute s.mid := ⟨er, result⟩
          have wide : s.lowerBound ≠ s.mid := by
            intro same
            rw [same] at low
            exact low let_in
          rw [searchFrom_returned apart.ne' result]
          cases trial with
          | short short below =>
              have lowerBound : (s.next er).lowerBound = s.mid := by
                rw [next_short short]
                exact if_neg wide
              have high : LetIn execute (s.next er).lowerBound := lowerBound ▸ let_in
              refine iff_of_true ?_ ⟨0, ?_⟩
              · exact search_estimates monotone order' high next small (by omega)
                  (by omega) (by omega)
              · rw [point_zero, ← half]
                exact ⟨let_in, below s.mid le_rfl⟩
          | good good above =>
              have bounds : (s.next er).lowerBound = s.lowerBound ∧
                  (s.next er).upperBound = s.mid := by
                have apart' : s.upperBound ≠ s.mid := by omega
                rw [next_good good]
                exact ⟨rfl, if_neg apart'⟩
              rcases bounds with ⟨same, upperBound⟩
              rw [ih (by omega) (same ▸ low) next (by omega) (by omega) (by omega),
                same, upperBound]
              have width : s.mid - s.lowerBound = (s.upperBound - s.lowerBound) / 2 := by omega
              rw [width]
              constructor
              · rintro ⟨j, high', fails⟩
                rw [← point_succ] at high' fails
                exact ⟨j + 1, high', fails⟩
              · rintro ⟨j, high', fails⟩
                cases j with
                | zero =>
                    rw [point_zero, ← half] at fails
                    exact absurd (above s.mid le_rfl) fails
                | succ j =>
                    rw [point_succ] at high' fails
                    exact ⟨j, high', fails⟩

theorem crossed_rises (order : s.upperBound ≤ s.lowerBound) (succeed : ∀ g, s.upperBound ≤ g →
    Succeeds execute g) (small : s.lowerBound + s.lowerBound < 2 ^ 256)
    (enough : s.lowerBound - s.upperBound ≤ fuel) :
    ∃ s', searchFrom execute fuel s = some (.found s') ∧ s'.upperBound = s.lowerBound := by
  induction fuel generalizing s with
  | zero =>
      have met : s.upperBound = s.lowerBound := by omega
      exact ⟨s, searchFrom_done met, met⟩
  | succ fuel ih =>
      by_cases met : s.upperBound = s.lowerBound
      · exact ⟨s, searchFrom_done met, met⟩
      · have middle := mid_eq (s := s) (by omega)
        rcases succeed s.mid (by omega) with ⟨er, returned, good⟩
        rw [searchFrom_returned met returned, next_good good]
        by_cases narrow : s.upperBound = s.mid
        · rw [if_pos narrow]
          exact ⟨_, searchFrom_done rfl, rfl⟩
        · rw [if_neg narrow]
          refine ih ?_ (fun g above => succeed g ?_) small ?_
          · dsimp only
            omega
          · dsimp only at above
            omega
          · dsimp only
            omega

theorem crossed_falls (monotone : MonotoneInGas execute) (order : s.upperBound ≤ s.lowerBound)
    (fresh : s.good = false) (fail : ∀ g, g < s.lowerBound → ¬Succeeds execute g)
    (small : s.lowerBound + s.lowerBound < 2 ^ 256) (enough : s.lowerBound - s.upperBound ≤ fuel) :
    (∃ s', searchFrom execute fuel s = some (.found s') ∧ s'.upperBound = s.upperBound ∧
      s'.good = false) ∧
        (LetIn execute s.upperBound ∨ s.upperBound = s.lowerBound) ∨
      searchFrom execute fuel s = some .threw ∧ ¬LetIn execute s.upperBound := by
  induction fuel generalizing s with
  | zero =>
      have met : s.upperBound = s.lowerBound := by omega
      exact .inl ⟨⟨s, searchFrom_done met, rfl, fresh⟩, .inr met⟩
  | succ fuel ih =>
      by_cases met : s.upperBound = s.lowerBound
      · exact .inl ⟨⟨s, searchFrom_done met, rfl, fresh⟩, .inr met⟩
      · have middle := mid_eq (s := s) (by omega)
        have trial := monotone.trial s.mid
        cases result : execute s.mid with
        | exit =>
            rw [result] at trial
            cases trial
        | threw =>
            rw [result] at trial
            cases trial with
            | threw out => exact .inr ⟨searchFrom_threw met result, out _ (by omega)⟩
        | returned er =>
            rw [result] at trial
            cases trial with
            | good good above => exact absurd (above s.mid le_rfl) (fail s.mid (by omega))
            | short short below =>
                have wide : s.lowerBound ≠ s.mid := by omega
                rw [searchFrom_returned met result, next_short short, if_neg wide]
                have rest := ih (s := { s with er, lowerBound := s.mid })
                dsimp only at rest
                rcases rest (by omega) fresh (fun g less => fail g (by omega)) (by omega)
                  (by omega) with
                  ⟨found, let_in⟩ | threw
                · refine .inl ⟨found, .inl (let_in.elim id fun same => ?_)⟩
                  exact same ▸ ⟨er, result⟩
                · exact .inr threw

theorem isEstimate_crossed {g : Nat} (crossed : upper < lower) : IsEstimate execute lower upper g ↔
    g = upper := by
  constructor
  · intro estimate
    exact estimate.chosen.resolve_left fun inside => by omega
  · rintro rfl
    exact ⟨fun g' from_ _ less => absurd (from_.trans_lt less) (by omega), .inr rfl⟩

theorem search_crossed (monotone : MonotoneInGas execute) (crossed : s.upperBound < s.lowerBound)
    (fresh : s.good = false) (small : s.lowerBound + s.lowerBound < 2 ^ 256)
    (enough : s.lowerBound - s.upperBound ≤ fuel) :
    Estimates execute s.lowerBound s.upperBound (searchFrom execute fuel s) ↔
      ¬Succeeds execute ((s.lowerBound + s.upperBound) / 2) ∧
      (s.upperBound = 0 ∨ LetIn execute s.upperBound) := by
  have threw : Estimates execute s.lowerBound s.upperBound (some .threw) ↔ s.upperBound = 0 := by
    constructor
    · rintro ⟨outcome, g, er, same, answer, estimate, -⟩
      cases same
      cases answer
      exact ((isEstimate_crossed crossed).mp estimate).symm
    · intro none
      exact ⟨_, _, _, rfl, rfl, (isEstimate_crossed crossed).mpr none.symm, nofun⟩
  have found : ∀ s' : Search, s'.upperBound = s.upperBound → s'.good = false →
      Estimates execute s.lowerBound s.upperBound (some (.found s')) := by
    intro s' same bad
    refine ⟨_, _, _, rfl, rfl, (isEstimate_crossed crossed).mpr same, fun lastGood reported => ?_⟩
    rw [Searched.reported, bad] at reported
    cases reported
  cases fuel with
  | zero => omega
  | succ fuel =>
      have middle := mid_eq (s := s) (by omega)
      have trial := monotone.trial s.mid
      rw [← middle]
      cases result : execute s.mid with
      | exit =>
          rw [result] at trial
          cases trial
      | threw =>
          rw [result] at trial
          rw [searchFrom_threw crossed.ne result, threw]
          cases trial with
          | threw out =>
              have fails : ¬Succeeds execute s.mid := by
                rintro ⟨er, returned, -⟩
                rw [result] at returned
                cases returned
              constructor
              · exact fun none => ⟨fails, .inl none⟩
              · exact fun both => both.2.resolve_right (out _ (by omega))
      | returned er =>
          rw [result] at trial
          rw [searchFrom_returned crossed.ne result]
          cases trial with
          | good good above =>
              refine iff_of_false ?_ fun both => both.1 (above _ le_rfl)
              have rises : ∃ s', searchFrom execute fuel (s.next er) = some (.found s') ∧
                  s'.upperBound = s.lowerBound := by
                rw [next_good good]
                by_cases narrow : s.upperBound = s.mid
                · rw [if_pos narrow]
                  exact ⟨_, searchFrom_done rfl, rfl⟩
                · rw [if_neg narrow]
                  refine crossed_rises ?_ (fun g inside => above g inside) small ?_
                  · dsimp only
                    omega
                  · dsimp only
                    omega
              rcases rises with ⟨s', ends, top⟩
              rw [ends]
              rintro ⟨outcome, g, er', same, answer, estimate, -⟩
              cases same
              cases answer
              have := (isEstimate_crossed crossed).mp estimate
              omega
          | short short below =>
              have wide : s.lowerBound ≠ s.mid := by omega
              rw [next_short short, if_neg wide]
              have falls := @crossed_falls execute fuel { s with er, lowerBound := s.mid } monotone
              dsimp only at falls
              rcases falls (by omega) fresh (fun g less => below g less.le) (by omega)
                (by omega) with
                ⟨⟨s', ends, top, bad⟩, let_in⟩ | ⟨ends, low⟩
              · rw [ends]
                refine iff_of_true (found s' top bad)
                  ⟨below _ le_rfl, .inr (let_in.elim id fun same => ?_)⟩
                exact same ▸ ⟨er, result⟩
              · rw [ends, threw]
                constructor
                · exact fun none => ⟨below _ le_rfl, .inl none⟩
                · exact fun both => both.2.resolve_right low

/-- Between bounds that are the right way round the search succeeds where it does not come below the
gas of a transaction. -/
theorem search_ordered (monotone : MonotoneInGas execute) (order : s.lowerBound ≤ s.upperBound)
    (fresh : s.good = false) (small : s.upperBound + s.upperBound < 2 ^ 256)
    (enough : s.upperBound - s.lowerBound ≤ fuel) (positive : 0 < s.lowerBound) :
    Estimates execute s.lowerBound s.upperBound (searchFrom execute fuel s) ↔
      s.lowerBound = s.upperBound ∨ LetIn execute s.lowerBound ∨
        ∃ j, LetIn execute (s.lowerBound + (s.upperBound - s.lowerBound) / 2 ^ (j + 1)) ∧
          ¬Succeeds execute (s.lowerBound + (s.upperBound - s.lowerBound) / 2 ^ (j + 1)) := by
  have bounded : Bounded execute s.lowerBound s.upperBound s :=
    ⟨fun g from_ less => absurd less (Nat.not_lt.mpr from_), .inl ⟨fresh, rfl⟩⟩
  by_cases met : s.lowerBound = s.upperBound
  · rw [searchFrom_done met.symm]
    exact iff_of_true (bounded.estimates met.symm) (.inl met)
  · by_cases high : LetIn execute s.lowerBound
    · exact iff_of_true (search_estimates monotone order high bounded small le_rfl le_rfl enough)
        (.inr (.inl high))
    · rw [search_descends monotone (by omega) high bounded small le_rfl le_rfl enough positive]
      constructor
      · exact fun reaches => .inr (.inr reaches)
      · exact fun any => (any.resolve_left met).resolve_left high

end Search

section Estimates

structure Request where
  sender : Nat
  value : U256
  dest : Nat
  data : Bytes
  maxGas : U256
  gasPrice : U256
  deriving DecidableEq, Repr

/-- What an execution uses of the node: the gas of every transaction, and the block with its state.
The VM knows the gas limit of the environment. -/
structure Pending where
  C : Crypto
  db : H256 → Bytes
  vm : Nat → VM
  sealEngine : SealEngine
  gas : U256
  number : U256
  state : State
  gasBidPrice : U256

variable (p : Pending) (r : Request)

def maxGasEstimate : Nat := 50000000

namespace Request

def upperBound : Nat :=
  if r.maxGas = BitVec.allOnes 256 ∨ maxGasEstimate < r.maxGas.toNat then maxGasEstimate
    else r.maxGas.toNat

def lowerBound : Nat := gasRequired (decide (r.dest = 0)) r.data {} % 2 ^ 256

def start : Search := { lowerBound := r.lowerBound, upperBound := r.upperBound }

def transaction : ExecTransaction where
  isCreation := decide (r.dest = 0)
  sender := r.sender
  receiveAddress := r.dest
  value := r.value
  gasPrice := if r.gasPrice = BitVec.allOnes 256 then p.gasBidPrice else r.gasPrice
  data := r.data

end Request

/-- One execution: the middle is only the gas limit of the environment. -/
def execute (mid : Nat) : Tried :=
  let t := r.transaction p
  match p.state.addBalance r.sender (p.gas * t.gasPrice + t.value) with
  | none => .threw
  | some s =>
      match s.executeLeaving p.C p.db (p.vm mid) ⟨p.number, (min mid (2 ^ 63 - 1) : Nat), 0⟩
        p.sealEngine p.gas t with
      | .threw _ => .threw
      | .exit => .exit
      | .returned er _ _ => .returned er

def estimateGas (fuel : Nat) : Option Searched := searchFrom (execute p r) fuel r.start

variable {p r}

theorem execute_full {g : Nat} (less : min g (2 ^ 63 - 1) < p.gas.toNat) :
    execute p r g = .threw := by
  have full : ((min g (2 ^ 63 - 1) : Nat) : Int) < (0 : U256).toNat + p.gas.toNat := by
    change ((min g (2 ^ 63 - 1) : Nat) : Int) < (0 : Nat) + p.gas.toNat
    omega
  unfold execute
  dsimp only
  split
  · rfl
  · rw [State.executeLeaving, Executive.initializeTransaction, if_pos full]

theorem LetIn.gas_le {g : Nat} (let_in : LetIn (execute p r) g) :
    p.gas.toNat ≤ min g (2 ^ 63 - 1) := by
  rcases let_in with ⟨er, returned⟩
  by_contra less
  rw [execute_full (by omega)] at returned
  cases returned

theorem gasRequired_bounds (creation : Bool) (data : Bytes) :
    21000 ≤ gasRequired creation data {} ∧ gasRequired creation data {} ≤
      53000 + 68 * data.length := by
  induction data using List.reverseRecOn with
  | nil => cases creation <;> decide
  | append_singleton data byte ih =>
      have more : gasRequired creation (data ++ [byte]) {} = gasRequired creation data {} +
          if byte = 0 then 4 else 68 := by
        unfold gasRequired
        rw [List.foldl_append]
        rfl
      have cost : (if byte = 0 then 4 else 68) ≤ 68 := by split <;> decide
      rw [more, List.length_append, List.length_singleton]
      omega

theorem lowerBound_bounds (addressable : r.data.length < 2 ^ 63) : 0 < r.lowerBound ∧
    r.lowerBound < 2 ^ 255 := by
  have bounds := gasRequired_bounds (decide (r.dest = 0)) r.data
  unfold Request.lowerBound
  rw [Nat.mod_eq_of_lt (by omega)]
  omega

theorem upperBound_le : r.upperBound ≤ maxGasEstimate := by
  unfold Request.upperBound
  split
  case isTrue => exact le_rfl
  case isFalse small => exact Nat.le_of_not_lt fun more => small (.inr more)

/-- Between bounds that are the right way round the search comes down by halves; it must not come to
a gas that does not let the transaction in. Between others its first execution must not succeed. -/
def Reaches (execute : Nat → Tried) (lower upper : Nat) : Prop :=
  lower ≤ upper ∧ (lower = upper ∨ LetIn execute lower ∨
    ∃ j, LetIn execute (lower + (upper - lower) / 2 ^ (j + 1)) ∧
      ¬Succeeds execute (lower + (upper - lower) / 2 ^ (j + 1))) ∨
  upper < lower ∧ ¬Succeeds execute ((lower + upper) / 2) ∧ (upper = 0 ∨ LetIn execute upper)

/-- The search ends; it returns the estimate, and a result with that gas, exactly where it reaches
it. -/
theorem estimateGas_iff (p : Pending) (r : Request) (fuel : Nat)
    (addressable : r.data.length < 2 ^ 63) (monotone : MonotoneInGas (execute p r))
    (enough : r.upperBound - r.lowerBound + (r.lowerBound - r.upperBound) ≤ fuel) :
    Estimates (execute p r) r.lowerBound r.upperBound (estimateGas p r fuel) ↔
      Reaches (execute p r) r.lowerBound r.upperBound := by
  rcases lowerBound_bounds addressable with ⟨positive, small⟩
  have most : r.upperBound ≤ 50000000 := upperBound_le
  unfold estimateGas Reaches
  rcases Nat.lt_or_ge r.upperBound r.lowerBound with crossed | order
  · have search := search_crossed (s := r.start) monotone crossed rfl
      (show r.lowerBound + r.lowerBound < 2 ^ 256 by omega) (show r.lowerBound - r.upperBound ≤
        fuel by omega)
    exact search.trans ⟨fun reaches => .inr ⟨crossed, reaches⟩,
      fun any => (any.resolve_left fun both => by omega).2⟩
  · have search := search_ordered (s := r.start) monotone order rfl
      (show r.upperBound + r.upperBound < 2 ^ 256 by omega) (show r.upperBound - r.lowerBound ≤
        fuel by omega) positive
    exact search.trans ⟨fun reaches => .inl ⟨order, reaches⟩,
      fun any => (any.resolve_right fun both => by omega).2⟩

end Estimates

def payerBlock (gas : U256) : Pending where
  C := emptyAware
  db _ := []
  vm _ _ _ _ := .exit
  sealEngine := homestead
  gas
  number := 1
  state := payer
  gasBidPrice := 0

def anyGas : Request where
  sender := 1
  value := 0
  dest := 2
  data := []
  maxGas := BitVec.allOnes 256
  gasPrice := 0

def fundedPayer : State := (payer.addBalance 1 0).getD payer

def startedPayer : State :=
  ((StateCall.incNonce 1).attempt emptyAware (fun _ => []) fundedPayer).toOption.getD payer

def readPayer : State := (startedPayer.account 2).2

theorem succeeds_of_finished {p : Pending} {r : Request} {mid : Nat} {s : State} {e e' : Executive}
    (funded : p.state.addBalance r.sender (p.gas * (r.transaction p).gasPrice +
      (r.transaction p).value) = some s) (accepted : Executive.initializeTransaction
      { s, envInfo := ⟨p.number, (min mid (2 ^ 63 - 1) : Nat), 0⟩, sealEngine := p.sealEngine,
        maxGas := p.gas, depth := 0 } (r.transaction p) = some e)
    (done : e.executeLeaving p.C p.db (r.transaction p) = .ok (true, e'))
    (good : isShort e'.finalize.res = false) :
    Succeeds (execute p r) mid := by
  refine ⟨e'.finalize.res, ?_, good⟩
  unfold execute State.executeLeaving
  dsimp only
  rw [funded]
  dsimp only
  rw [accepted]
  dsimp only
  rw [done]
  rfl

theorem message_executes (gas : U256) (e : Executive) (state : e.s = fundedPayer)
    (external : e.t.isSome = true) (engine : e.sealEngine = homestead) (fresh : e.ext = none) :
    ∃ s left, e.executeLeaving emptyAware (fun _ => []) (anyGas.transaction (payerBlock gas)) =
      .ok (true, { e with s, savepoint := startedPayer.savepoint, gas := left }) := by
  have started : (StateCall.incNonce 1).attempt emptyAware (fun _ => []) fundedPayer =
      .ok startedPayer := rfl
  have codeless : startedPayer.addressHasCode 2 = false := by decide +kernel
  have paid : ∃ s, (StateCall.transferBalance 1 2 0).attempt emptyAware (fun _ => []) readPayer =
      .ok s := ⟨_, rfl⟩
  rcases paid with ⟨paid, transferred⟩
  have message : (anyGas.transaction (payerBlock gas)).isCreation = false := rfl
  refine ⟨paid, e.startGas, ?_⟩
  unfold Executive.executeLeaving Executive.callLeaving
  rw [message, if_neg Bool.false_ne_true, if_pos external, state]
  change Except.bind ((StateCall.incNonce 1).attempt emptyAware (fun _ => []) fundedPayer) _ = _
  rw [started]
  change (if e.sealEngine.isPrecompiled 2 = true then _ else if startedPayer.addressHasCode 2 =
    true then _ else
    Except.map _ ((StateCall.transferBalance 1 2 0).attempt emptyAware (fun _ => []) readPayer)) = _
  rw [engine, codeless, transferred]
  change Except.ok (e.ext.isNone, _) = _
  rw [fresh]
  rfl

theorem payerBlock_succeeds {gas : U256} {mid : Nat} (fits : gas.toNat ≤ min mid (2 ^ 63 - 1)) :
    Succeeds (execute (payerBlock gas) anyGas) mid := by
  have room : ¬((min mid (2 ^ 63 - 1) : Nat) : Int) < (0 : U256).toNat + gas.toNat := by
    change ¬((min mid (2 ^ 63 - 1) : Nat) : Int) < (0 : Nat) + gas.toNat
    omega
  have funded : payer.addBalance 1 (gas * 0 + 0) = some fundedPayer := by
    have value : gas * (0 : U256) + 0 = 0 := by simp
    rw [value]
    rfl
  let e : Executive :=
    { s := fundedPayer
      envInfo := ⟨1, (min mid (2 ^ 63 - 1) : Nat), 0⟩
      sealEngine := homestead
      maxGas := gas
      depth := 0
      t := some (anyGas.transaction (payerBlock gas))
      baseGasRequired := gasRequired false [] {} }
  rcases message_executes gas e rfl rfl rfl rfl with ⟨s, left, done⟩
  exact succeeds_of_finished funded (if_neg room) done rfl

theorem payerBlock_let_in {gas : U256} {mid : Nat} :
    LetIn (execute (payerBlock gas) anyGas) mid ↔ gas.toNat ≤ min mid (2 ^ 63 - 1) := by
  constructor
  · exact LetIn.gas_le
  · intro fits
    rcases payerBlock_succeeds fits with ⟨er, returned, -⟩
    exact ⟨er, returned⟩

theorem payerBlock_monotone (gas : U256) : MonotoneInGas (execute (payerBlock gas) anyGas) where
  runs g exits := by
    by_cases fits : gas.toNat ≤ min g (2 ^ 63 - 1)
    · rcases payerBlock_succeeds fits with ⟨er, returned, -⟩
      rw [exits] at returned
      cases returned
    · rw [execute_full (p := payerBlock gas) (Nat.lt_of_not_le fits)] at exits
      cases exits
  let_in g g' more let_in := by
    have fits := payerBlock_let_in.mp let_in
    exact payerBlock_let_in.mpr (by omega)
  succeeds g g' more succeeds := by
    rcases succeeds with ⟨er, returned, -⟩
    have fits := payerBlock_let_in.mp ⟨er, returned⟩
    exact payerBlock_succeeds (by omega)

/-- Any gas from 30000000 on is enough for the message; the search starts with 25010500, which does
not let it in, and the estimate is 0. -/
theorem estimateGas_misses_message :
    anyGas.data.length < 2 ^ 63 ∧ MonotoneInGas (execute (payerBlock 30000000) anyGas) ∧
      Succeeds (execute (payerBlock 30000000) anyGas) 30000000 ∧
      (estimateGas (payerBlock 30000000) anyGas 1).bind Searched.answer = some (0, {}) ∧
      ∀ fuel, ¬Estimates (execute (payerBlock 30000000) anyGas) anyGas.lowerBound anyGas.upperBound
        (estimateGas (payerBlock 30000000) anyGas fuel) := by
  have first : execute (payerBlock 30000000) anyGas anyGas.start.mid = .threw :=
    execute_full (by decide)
  have apart : anyGas.start.upperBound ≠ anyGas.start.lowerBound := by decide
  have ends : ∀ fuel, estimateGas (payerBlock 30000000) anyGas (fuel + 1) = some .threw :=
    fun fuel => searchFrom_threw apart first
  refine ⟨by decide, payerBlock_monotone _, payerBlock_succeeds (by decide),
    by rw [ends 0]; rfl, ?_⟩
  rintro fuel ⟨outcome, gas, er, same, answer, estimate, -⟩
  cases fuel with
  | zero =>
      rw [estimateGas, searchFrom, if_neg apart] at same
      cases same
  | succ fuel =>
      rw [ends fuel] at same
      cases same
      cases answer
      rcases estimate.chosen with ⟨inside, -⟩ | top
      · exact absurd inside (by decide)
      · exact absurd top (by decide)

/-- A message that needs just the least gas, for which the search starts from 50000000 down. -/
theorem estimateGas_least :
    Estimates (execute (payerBlock 21000) anyGas) anyGas.lowerBound anyGas.upperBound
      (estimateGas (payerBlock 21000) anyGas 50000000) := by
  have order : anyGas.lowerBound ≤ anyGas.upperBound := by decide
  have let_in : LetIn (execute (payerBlock 21000) anyGas) anyGas.lowerBound :=
    payerBlock_let_in.mpr (by decide)
  exact (estimateGas_iff (payerBlock 21000) anyGas 50000000 (by decide) (payerBlock_monotone 21000)
    (by decide)).mpr (.inl ⟨order, .inr (.inl let_in)⟩)

end GasEstimate

end UtispaceChain
