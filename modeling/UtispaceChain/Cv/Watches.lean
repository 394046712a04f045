import UtispaceChain.DevCore.Rlp
import UtispaceChain.DevCrypto.Common
import UtispaceChain.Lib.KeyedTable
import UtispaceChain.Lib.Run

/-! The watches of `ClientBase` and the filters that they share. -/

namespace UtispaceChain

open Lib

/-- The sets are lists in the order in which they are walked. -/
structure LogFilter where
  addresses : List Nat := []
  topics : Fin 4 → List H256 := fun _ => []
  earliest : H256
  latest : H256

namespace LogFilter

def streamRLP (f : LogFilter) : Bytes :=
  let hash := fun (h : H256) => Rlp.appendBytes (toBigEndian 32 h)
  Rlp.appendList
    (Rlp.appendList (f.addresses.flatMap fun a => Rlp.appendBytes (toBigEndian 20 a)) ++
      Rlp.appendList ((List.finRange 4).flatMap fun i => Rlp.appendList ((f.topics i).flatMap hash))
        ++
      hash f.earliest ++ hash f.latest)

def sha3 (C : Crypto) (f : LogFilter) : H256 := C.sha3 f.streamRLP

end LogFilter

structure InstalledFilter where
  filter : LogFilter
  refCount : Nat := 1

inductive Reaping
  | automatic
  | manual
  deriving DecidableEq, Repr

structure ClientWatch where
  index : Nat
  id : H256
  reaping : Reaping
  deriving DecidableEq, Repr

/-- `m_watches` and `m_filters` of a client. -/
structure Watches where
  watches : KeyedTable ClientWatch ClientWatch.index := .empty
  filters : H256 → Option InstalledFilter := fun _ => none

namespace Watches

def nextIndex (c : Watches) : Nat :=
  if c.watches.entries = [] then 0
  else ((c.watches.entries.map ClientWatch.index).foldl max 0 + 1) % 2 ^ 32

def installWatchId (id : H256) (r : Reaping) (c : Watches) : Nat × Watches :=
  (c.nextIndex, { c with watches := c.watches.insert ⟨c.nextIndex, id, r⟩ })

def installWatch (C : Crypto) (f : LogFilter) (r : Reaping) (c : Watches) : Nat × Watches :=
  let h := f.sha3 C
  let filters := if (c.filters h).isSome then c.filters
    else Function.update c.filters h (some ⟨f, 1⟩)
  { c with filters }.installWatchId h r

def find (i : Nat) (c : Watches) : Option ClientWatch :=
  c.watches.entries.find? fun w => decide (w.index = i)

/-- The count is decremented in 32 bits; a filter goes when it gets to zero. -/
def release (id : H256) (c : Watches) : Watches :=
  match c.filters id with
  | none => c
  | some e =>
      let refCount := if e.refCount = 0 then 2 ^ 32 - 1 else e.refCount - 1
      { c with filters := Function.update c.filters id (if refCount = 0 then none
        else some { e with refCount }) }

def uninstallWatch (i : Nat) (c : Watches) : Bool × Watches :=
  match c.find i with
  | none => (false, c)
  | some w =>
      (true, { c with watches := c.watches.keep fun v => decide (v.index ≠ i) }.release w.id)

/-- The filter that `logs` of a watch finds. -/
def filterOf (i : Nat) (c : Watches) : Option LogFilter :=
  (c.find i).bind fun w => (c.filters w.id).map InstalledFilter.filter

theorem find_eq_some (c : Watches) {w : ClientWatch} (member : w ∈ c.watches.entries) :
    c.find w.index = some w := by
  cases found : c.find w.index with
  | none =>
      have absent := List.find?_eq_none.mp found w member
      simp at absent
  | some v =>
      have same : v.index = w.index := by simpa using List.find?_some found
      rw [c.watches.eq_of_key (List.mem_of_find?_eq_some found) member same]

theorem find_spec (c : Watches) {i : Nat} {w : ClientWatch} (found : c.find i = some w) :
    w ∈ c.watches.entries ∧ w.index = i :=
  ⟨List.mem_of_find?_eq_some found, by simpa using List.find?_some found⟩

end Watches

inductive WatchCall
  | installWatch (f : LogFilter) (r : Reaping)
  | installWatchId (id : H256) (r : Reaping)
  | uninstallWatch (i : Nat)

/-- A client, and the filter that each watch was installed from, if it was. -/
structure WatchSession where
  client : Watches := {}
  origin : Nat → Option LogFilter := fun _ => none

namespace WatchSession

variable (C : Crypto)

def step (s : WatchSession) : WatchCall → WatchSession
  | .installWatch f r =>
      let (i, client) := s.client.installWatch C f r
      ⟨client, Function.update s.origin i (some f)⟩
  | .installWatchId id r =>
      let (i, client) := s.client.installWatchId id r
      ⟨client, Function.update s.origin i none⟩
  | .uninstallWatch i => { s with client := (s.client.uninstallWatch i).2 }

def installed (s : WatchSession) (h : H256) : Nat :=
  s.client.watches.size fun w => decide (w.id = h) && (s.origin w.index).isSome

/-- Every watch has its filter, and the counts are those of the watches. -/
structure Counted (s : WatchSession) : Prop where
  present : ∀ w ∈ s.client.watches.entries, ∀ f, s.origin w.index = some f →
    s.client.filterOf w.index = some f
  counts : ∀ h e, s.client.filters h = some e → e.refCount = s.installed h
  needed : ∀ h, (s.client.filters h).isSome = true ↔ 0 < s.installed h

/-- A new watch has an index and a filter that no other watch has. -/
def Fresh (s : WatchSession) : WatchCall → Prop
  | .installWatch f _ =>
      ∀ w ∈ s.client.watches.entries, w.id ≠ f.sha3 C ∧ w.index ≠ s.client.nextIndex
  | .installWatchId id _ =>
      s.client.filters id = none ∧ ∀ w ∈ s.client.watches.entries, w.index ≠ s.client.nextIndex
  | .uninstallWatch _ => True

variable {C} {s : WatchSession}

structure Separate (s : WatchSession) : Prop where
  present : ∀ w ∈ s.client.watches.entries, ∀ f, s.origin w.index = some f →
    s.client.filters w.id = some ⟨f, 1⟩
  special : ∀ w ∈ s.client.watches.entries, s.origin w.index = none → s.client.filters w.id = none
  distinct : ∀ v ∈ s.client.watches.entries, ∀ w ∈ s.client.watches.entries,
    (s.origin v.index).isSome = true → v.id = w.id → v = w
  needed : ∀ h e, s.client.filters h = some e →
    ∃ w ∈ s.client.watches.entries, w.id = h ∧ (s.origin w.index).isSome = true

theorem Separate.installed_eq (separate : s.Separate) (h : H256) :
    s.installed h = if (s.client.filters h).isSome then 1 else 0 := by
  cases found : s.client.filters h with
  | some e =>
      rcases separate.needed h e found with ⟨w, member, id, filtered⟩
      apply s.client.watches.size_eq_one _ w member
      · simp [id, filtered]
      · intro v inside counted
        simp only [Bool.and_eq_true, decide_eq_true_eq] at counted
        exact separate.distinct v inside w member counted.2 (counted.1.trans id.symm)
  | none =>
      apply Nat.eq_zero_of_not_pos
      intro some_
      rcases (s.client.watches.size_pos_iff _).mp some_ with ⟨w, member, counted⟩
      simp only [Bool.and_eq_true, decide_eq_true_eq, Option.isSome_iff_exists] at counted
      rcases counted with ⟨id, f, installedFrom⟩
      have kept := separate.present w member f installedFrom
      rw [id, found] at kept
      cases kept

theorem Separate.counted (separate : s.Separate) : s.Counted := by
  refine ⟨?_, ?_, ?_⟩
  · intro w member f installedFrom
    rw [Watches.filterOf, s.client.find_eq_some member, Option.bind_some,
      separate.present w member f installedFrom]
    rfl
  · intro h e found
    rw [separate.installed_eq, found]
    rcases separate.needed h e found with ⟨w, member, id, filtered⟩
    rcases Option.isSome_iff_exists.mp filtered with ⟨f, installedFrom⟩
    have kept := separate.present w member f installedFrom
    rw [id, found] at kept
    cases kept
    rfl
  · intro h
    rw [separate.installed_eq]
    cases (s.client.filters h).isSome <;> simp

theorem origin_kept (s : WatchSession) (g : Option LogFilter) {w : ClientWatch} {i : Nat}
    (other : w.index ≠ i) :
    Function.update s.origin i g w.index = s.origin w.index := Function.update_of_ne other _ _

theorem Separate.installWatch (separate : s.Separate) (f : LogFilter) (r : Reaping)
    (fresh : s.Fresh C (.installWatch f r)) : (s.step C (.installWatch f r)).Separate := by
  let h := f.sha3 C
  let i := s.client.nextIndex
  have absent : s.client.filters h = none := by
    cases found : s.client.filters h with
    | none => rfl
    | some e =>
        rcases separate.needed h e found with ⟨w, member, id, -⟩
        exact absurd id (fresh w member).1
  have result : s.step C (.installWatch f r) =
      ⟨⟨s.client.watches.insert ⟨i, h, r⟩, Function.update s.client.filters h (some ⟨f, 1⟩)⟩,
        Function.update s.origin i (some f)⟩ := by
    simp [step, Watches.installWatch, Watches.installWatchId, h, absent, i, Watches.nextIndex]
  have other : ∀ w ∈ s.client.watches.entries, w.id ≠ h ∧ w.index ≠ i := fresh
  rw [result]
  refine ⟨?_, ?_, ?_, ?_⟩
  · intro w member g installedFrom
    rcases (s.client.watches.mem_insert _ w).mp member with rfl | ⟨old, -⟩
    · simp only [Function.update_self, Option.some.injEq] at installedFrom ⊢
      rw [installedFrom]
    · simp only [s.origin_kept _ (other w old).2] at installedFrom
      simp only [Function.update_of_ne (other w old).1]
      exact separate.present w old g installedFrom
  · intro w member special
    rcases (s.client.watches.mem_insert _ w).mp member with rfl | ⟨old, -⟩
    · simp at special
    · simp only [s.origin_kept _ (other w old).2] at special
      simp only [Function.update_of_ne (other w old).1]
      exact separate.special w old special
  · intro v left w right filtered same
    rcases (s.client.watches.mem_insert _ v).mp left with rfl | ⟨oldLeft, -⟩
    · rcases (s.client.watches.mem_insert _ w).mp right with rfl | ⟨oldRight, -⟩
      · rfl
      · exact absurd same.symm (other w oldRight).1
    · rcases (s.client.watches.mem_insert _ w).mp right with rfl | ⟨oldRight, -⟩
      · exact absurd same (other v oldLeft).1
      · simp only [s.origin_kept _ (other v oldLeft).2] at filtered
        exact separate.distinct v oldLeft w oldRight filtered same
  · intro k e found
    by_cases here : k = h
    · refine ⟨⟨i, h, r⟩, (s.client.watches.mem_insert _ _).mpr (.inl rfl), here.symm, ?_⟩
      simp
    · simp only [Function.update_of_ne here] at found
      rcases separate.needed k e found with ⟨w, member, id, filtered⟩
      refine ⟨w, (s.client.watches.mem_insert _ w).mpr (.inr ⟨member, (other w member).2⟩), id, ?_⟩
      simpa only [s.origin_kept _ (other w member).2] using filtered

theorem Separate.installWatchId (separate : s.Separate) (id : H256) (r : Reaping)
    (fresh : s.Fresh C (.installWatchId id r)) : (s.step C (.installWatchId id r)).Separate := by
  let i := s.client.nextIndex
  have result : s.step C (.installWatchId id r) =
      ⟨⟨s.client.watches.insert ⟨i, id, r⟩, s.client.filters⟩, Function.update s.origin i none⟩ :=
        rfl
  have other : ∀ w ∈ s.client.watches.entries, w.index ≠ i := fresh.2
  rw [result]
  refine ⟨?_, ?_, ?_, ?_⟩
  · intro w member g installedFrom
    rcases (s.client.watches.mem_insert _ w).mp member with rfl | ⟨old, -⟩
    · simp at installedFrom
    · simp only [s.origin_kept _ (other w old)] at installedFrom
      exact separate.present w old g installedFrom
  · intro w member special
    rcases (s.client.watches.mem_insert _ w).mp member with rfl | ⟨old, -⟩
    · exact fresh.1
    · simp only [s.origin_kept _ (other w old)] at special
      exact separate.special w old special
  · intro v left w right filtered same
    rcases (s.client.watches.mem_insert _ v).mp left with rfl | ⟨oldLeft, -⟩
    · simp at filtered
    · simp only [s.origin_kept _ (other v oldLeft)] at filtered
      rcases (s.client.watches.mem_insert _ w).mp right with rfl | ⟨oldRight, -⟩
      · rcases Option.isSome_iff_exists.mp filtered with ⟨f, installedFrom⟩
        have kept := separate.present v oldLeft f installedFrom
        rw [same, fresh.1] at kept
        cases kept
      · exact separate.distinct v oldLeft w oldRight filtered same
  · intro k e found
    rcases separate.needed k e found with ⟨w, member, same, filtered⟩
    refine ⟨w, (s.client.watches.mem_insert _ w).mpr (.inr ⟨member, other w member⟩), same, ?_⟩
    simpa only [s.origin_kept _ (other w member)] using filtered

theorem Separate.uninstalled (separate : s.Separate) {u : ClientWatch}
    (inside : u ∈ s.client.watches.entries) :
    s.step C (.uninstallWatch u.index) =
      ⟨⟨s.client.watches.keep fun v => decide (v.index ≠ u.index), if (s.origin u.index).isSome
        then Function.update s.client.filters u.id none else s.client.filters⟩, s.origin⟩ := by
  have found := s.client.find_eq_some inside
  cases origin : s.origin u.index with
  | none =>
      simp [WatchSession.step, Watches.uninstallWatch, Watches.release, found,
        separate.special u inside origin]
  | some f =>
      simp [WatchSession.step, Watches.uninstallWatch, Watches.release, found,
        separate.present u inside f origin]

theorem Separate.uninstallWatch (separate : s.Separate) (i : Nat) :
    (s.step C (.uninstallWatch i)).Separate := by
  cases found : s.client.find i with
  | none =>
      have result : s.step C (.uninstallWatch i) = s := by
        simp [step, Watches.uninstallWatch, found]
      rw [result]
      exact separate
  | some u =>
      rcases s.client.find_spec found with ⟨inside, rfl⟩
      let left := s.client.watches.keep fun v => decide (v.index ≠ u.index)
      let filters := if (s.origin u.index).isSome then Function.update s.client.filters u.id none
        else s.client.filters
      have stays : ∀ w, w ∈ left.entries ↔ w ∈ s.client.watches.entries ∧ w ≠ u := by
        intro w
        rw [KeyedTable.mem_keep, decide_eq_true_eq]
        refine and_congr_right fun member => not_congr ⟨?_, ?_⟩
        · exact s.client.watches.eq_of_key member inside
        · rintro rfl
          rfl
      have unchanged : ∀ w ∈ left.entries, filters w.id = s.client.filters w.id := by
        intro w member
        by_cases filtered : (s.origin u.index).isSome = true
        · have apart : w.id ≠ u.id := by
            intro same
            have whole := (stays w).mp member
            exact whole.2 (separate.distinct u inside w whole.1 filtered same.symm).symm
          simp only [filters, if_pos filtered, Function.update_of_ne apart]
        · simp only [filters, if_neg filtered]
      have kept : ∀ k e, filters k = some e →
          s.client.filters k = some e ∧ ((s.origin u.index).isSome = true → k ≠ u.id) := by
        intro k e row
        by_cases filtered : (s.origin u.index).isSome = true
        · simp only [filters, if_pos filtered] at row
          by_cases here : k = u.id
          · simp [here] at row
          · rw [Function.update_of_ne here] at row
            exact ⟨row, fun _ => here⟩
        · simp only [filters, if_neg filtered] at row
          exact ⟨row, fun yes => absurd yes filtered⟩
      rw [separate.uninstalled inside]
      refine ⟨?_, ?_, ?_, ?_⟩
      · intro w member g installedFrom
        exact (unchanged w member).trans
          (separate.present w ((stays w).mp member).1 g installedFrom)
      · intro w member special
        exact (unchanged w member).trans (separate.special w ((stays w).mp member).1 special)
      · intro v first w second filtered same
        exact separate.distinct v ((stays v).mp first).1 w ((stays w).mp second).1 filtered same
      · intro k e row
        rcases kept k e row with ⟨before, other⟩
        rcases separate.needed k e before with ⟨w, member, same, filtered⟩
        refine ⟨w, (stays w).mpr ⟨member, ?_⟩, same, filtered⟩
        rintro rfl
        exact other filtered same.symm

theorem Separate.step (separate : s.Separate) (call : WatchCall) (fresh : s.Fresh C call) :
    (s.step C call).Separate := by
  cases call with
  | installWatch f r => exact separate.installWatch f r fresh
  | installWatchId id r => exact separate.installWatchId id r fresh
  | uninstallWatch i => exact separate.uninstallWatch i

def Removes (C : Crypto) (s : WatchSession) (call : WatchCall) (h : H256) : Prop :=
  (s.client.filters h).isSome = true ∧ (s.step C call).client.filters h = none

/-- A call uninstalls the last of the watches that were installed from a filter. -/
def UninstallsLast (s : WatchSession) (call : WatchCall) (h : H256) : Prop :=
  ∃ w ∈ s.client.watches.entries, call = .uninstallWatch w.index ∧ w.id = h ∧
    (s.origin w.index).isSome = true ∧ s.installed h = 1

theorem Separate.removes_iff (separate : s.Separate) (call : WatchCall) (h : H256) :
    s.Removes C call h ↔ s.UninstallsLast call h := by
  constructor
  · rintro ⟨there, gone⟩
    cases call with
    | installWatch f r =>
        have kept : ((s.step C (.installWatch f r)).client.filters h).isSome = true := by
          simp only [WatchSession.step, Watches.installWatch, Watches.installWatchId]
          split
          case isTrue => exact there
          case isFalse =>
            by_cases here : h = f.sha3 C
            · simp [here]
            · rwa [Function.update_of_ne here]
        simp [gone] at kept
    | installWatchId id r => simp [show s.client.filters h = none from gone] at there
    | uninstallWatch i =>
        cases found : s.client.find i with
        | none =>
            have same : s.client.filters h = none := by
              simpa [WatchSession.step, Watches.uninstallWatch, found] using gone
            simp [same] at there
        | some u =>
            rcases s.client.find_spec found with ⟨inside, rfl⟩
            rw [separate.uninstalled inside] at gone
            by_cases filtered : (s.origin u.index).isSome = true
            · simp only [if_pos filtered] at gone
              by_cases here : h = u.id
              · exact ⟨u, inside, rfl, here.symm, filtered,
                  by rw [separate.installed_eq, if_pos there]⟩
              · rw [Function.update_of_ne here] at gone
                simp [gone] at there
            · simp only [if_neg filtered] at gone
              simp [gone] at there
  · rintro ⟨w, inside, rfl, rfl, filtered, -⟩
    rcases Option.isSome_iff_exists.mp filtered with ⟨f, installedFrom⟩
    refine ⟨by simp [separate.present w inside f installedFrom], ?_⟩
    rw [separate.uninstalled inside]
    simp [filtered]

theorem Separate.initial : ({} : WatchSession).Separate := by
  refine ⟨?_, ?_, ?_, ?_⟩ <;> simp

/-- Watches keep their filters in every run in which no two watches share one. -/
theorem watches_keep_filters (C : Crypto) (calls : List WatchCall)
    (fresh : ∀ entry ∈ trace (step C) {} calls, entry.1.Fresh C entry.2) :
    (run (step C) {} calls).Counted ∧
      ∀ entry ∈ trace (step C) {} calls, entry.1.Counted ∧
        ∀ h, entry.1.Removes C entry.2 h ↔ entry.1.UninstallsLast entry.2 h := by
  have whole := run_invariant (step C)
    (fun history s => s.Separate ∧ ∀ entry ∈ history, entry.1.Counted ∧
      ∀ h, entry.1.Removes C entry.2 h ↔ entry.1.UninstallsLast entry.2 h)
    (fun s call => s.Fresh C call) {} ⟨.initial, by simp⟩ ?_ calls fresh
  · exact ⟨whole.1.counted, whole.2⟩
  · intro before call s holds admitted
    refine ⟨holds.1.step call admitted, ?_⟩
    intro entry member
    rcases List.mem_append.mp member with old | last
    · exact holds.2 entry old
    · rw [List.mem_singleton.mp last]
      exact ⟨holds.1.counted, fun h => holds.1.removes_iff call h⟩

def latestLogs : LogFilter := { earliest := 2, latest := 1 }

/-- Two different filters, and the first watch uninstalled. -/
theorem own_filters_kept :
    let calls : List WatchCall := [.installWatch latestLogs .automatic,
      .installWatch { latestLogs with addresses := [5] } .manual, .uninstallWatch 0]
    let s := run (step Crypto.toy) {} calls
    s.client.watches.entries.map ClientWatch.index = [1] ∧ s.Counted := by
  intro calls s
  refine ⟨by decide +kernel, (watches_keep_filters Crypto.toy calls ?_).1⟩
  intro entry member
  have cases : entry ∈ [_, _, _] := member
  simp only [List.mem_cons, List.not_mem_nil, or_false] at cases
  rcases cases with rfl | rfl | rfl
  · intro w there
    cases there
  · intro w there
    have only : w ∈ [_] := there
    rw [List.mem_singleton.mp only]
    decide +kernel
  · trivial

/-- Of two watches that share a filter one is uninstalled: the other one has lost it. -/
theorem shared_filter_lost :
    let calls : List WatchCall :=
  [.installWatch latestLogs .automatic, .installWatch latestLogs .automatic]
    let shared := run (step Crypto.toy) {} calls
    let left := shared.step Crypto.toy (.uninstallWatch 0)
    shared.installed (latestLogs.sha3 Crypto.toy) = 2 ∧
      (shared.client.filters (latestLogs.sha3 Crypto.toy)).map InstalledFilter.refCount = some 1 ∧
      left.client.watches.entries.map ClientWatch.index = [1] ∧
      (left.origin 1).isSome = true ∧ (left.client.filterOf 1).isNone = true ∧
      ¬ shared.Counted ∧ ¬ left.Counted := by
  intro calls shared left
  have count : shared.installed (latestLogs.sha3 Crypto.toy) = 2 := by decide +kernel
  have refs : (shared.client.filters (latestLogs.sha3 Crypto.toy)).map InstalledFilter.refCount =
      some 1 := by
    decide +kernel
  have lost : (left.client.filterOf 1).isNone = true := by decide +kernel
  refine ⟨count, refs, by decide +kernel, by decide +kernel, lost, ?_, ?_⟩
  · intro counted
    rcases Option.map_eq_some_iff.mp refs with ⟨e, found, one⟩
    have same := counted.counts _ e found
    omega
  · intro counted
    have found :=
      counted.present ⟨1, latestLogs.sha3 Crypto.toy, .automatic⟩ (by decide +kernel) latestLogs rfl
    rw [show left.client.filterOf 1 = some latestLogs from found] at lost
    cases lost

end WatchSession

end UtispaceChain
