import UtispaceChain.Cv.Payment

/-! Code that is set of an account which has code: a rollback leaves the account without any. -/

namespace UtispaceChain

namespace Accounts

namespace Ledger

variable {l m n : Ledger} {f : Nat → Option Holding} {a : Nat} {K L : List Nat}
    {changes : List Change}

/-- Some of the accounts are without their code. -/
def forget (K : List Nat) (f : Nat → Option Holding) (a : Nat) : Option Holding :=
  if a ∈ K then (f a).map .resetCode else f a

theorem forget_nil : forget [] f = f := by
  funext a
  exact if_neg List.not_mem_nil

theorem forget_forget : forget L (forget K f) = forget (K ++ L) f := by
  funext a
  simp only [forget, List.mem_append]
  by_cases first : a ∈ K
  · by_cases second : a ∈ L
    · have twice : Holding.resetCode ∘ Holding.resetCode = Holding.resetCode := rfl
      simp [first, second, twice]
    · simp [first, second]
  · simp [first]

theorem forget_update (x : Nat) (o : Option Holding) :
    forget K (Function.update f x o) =
      Function.update (forget K f) x (if x ∈ K then o.map .resetCode else o) := by
  funext a
  by_cases same : a = x
  · subst same
    simp [forget]
  · simp [forget, same]

theorem forget_getD (x : Nat) : (forget K f x).getD .dead =
    if x ∈ K then ((f x).getD .dead).resetCode else (f x).getD .dead := by
  unfold forget
  split
  · cases f x <;> rfl
  · rfl

theorem rewind_forget (c : Change) : c.rewind (forget K f) = forget K (c.rewind f) := by
  have put : ∀ kind : ChangeKind,
      Function.update (forget K f) c.address
          (some (kind.rewound ((forget K f c.address).getD .dead))) =
        forget K (Function.update f c.address
          (some (kind.rewound ((f c.address).getD .dead)))) := by
    intro kind
    rw [forget_update, forget_getD]
    split
    · rw [rewound_resetCode, Option.map_some]
    · rfl
  unfold Change.rewind
  split
  · rw [forget_update, Option.map_none, ite_self]
  · rfl
  · exact put _

theorem unwind_forget : unwind changes (forget K f) = forget K (unwind changes f) := by
  induction changes generalizing f with
  | nil => rfl
  | cons c changes ih =>
      change unwind changes (c.rewind (forget K f)) = forget K (unwind changes (c.rewind f))
      rw [rewind_forget, ih]

/-! Where the log says that code was set, none is left when all is taken back. -/

def Bare (f : Nat → Option Holding) (a : Nat) : Prop :=
  ∀ h, f a = some h → h.record.codeHash = EmptySHA3

theorem rewind_bare (c : Change) (bare : Bare f a) : Bare (c.rewind f) a := by
  have put : ∀ kind : ChangeKind,
      Bare (Function.update f c.address (some (kind.rewound ((f c.address).getD .dead)))) a := by
    intro kind
    by_cases here : a = c.address
    · subst here
      have none : ((f c.address).getD .dead).record.codeHash = EmptySHA3 := by
        cases held : f c.address with
        | none => rfl
        | some h => exact bare h held
      intro h held
      rw [Function.update_self] at held
      cases held
      cases kind with
      | newCode => rfl
      | _ => exact none
    · intro h held
      rw [Function.update_of_ne here] at held
      exact bare h held
  unfold Change.rewind
  split
  · intro h held
    by_cases here : a = c.address
    · rw [here, Function.update_self] at held
      cases held
    · rw [Function.update_of_ne here] at held
      exact bare h held
  · exact bare
  · exact put _

theorem unwind_bare (bare : Bare f a) : Bare (unwind changes f) a := by
  induction changes generalizing f with
  | nil => exact bare
  | cons c changes ih => exact ih (rewind_bare c bare)

theorem unwind_newCode (logged : (⟨.newCode, a⟩ : Change) ∈ changes) :
    Bare (unwind changes f) a := by
  induction changes generalizing f with
  | nil => cases logged
  | cons c changes ih =>
      rcases List.mem_cons.mp logged with here | older
      · rw [← here]
        change Bare (unwind changes (Change.rewind ⟨.newCode, a⟩ f)) a
        apply unwind_bare
        intro h held
        change Function.update f a _ a = some h at held
        rw [Function.update_self] at held
        cases held
        rfl
      · exact ih older

/-- The changes noted since one ledger lead back to what was held there, but for code that is
gone. -/
structure Forgets (K : List Nat) (l m : Ledger) : Prop where
  back : ∃ changes, m.changeLog = changes ++ l.changeLog ∧
    unwind changes m.holding = forget K l.holding
  trie : m.trie = l.trie
  start : m.accountStartNonce = l.accountStartNonce

theorem Steps.forgets (steps : l.Steps m) : Forgets [] l m := by
  refine ⟨?_, steps.trie, steps.start⟩
  rw [forget_nil]
  exact steps.back

theorem Forgets.trans (first : Forgets K l m) (second : Forgets L m n) :
    Forgets (K ++ L) l n := by
  obtain ⟨older, log, held⟩ := first.back
  obtain ⟨newer, log', held'⟩ := second.back
  refine ⟨⟨newer ++ older, by rw [log', log, List.append_assoc], ?_⟩,
    second.trie.trans first.trie, second.start.trans first.start⟩
  have split : unwind (newer ++ older) n.holding = unwind older (unwind newer n.holding) :=
    List.foldl_append
  rw [split, held', unwind_forget, held, forget_forget]

theorem setNewCode_forgets {codeHash : H256} (held : l.holding a ≠ none) :
    Forgets [a] l (l.setNewCode a codeHash) := by
  obtain ⟨h, held⟩ := Option.ne_none_iff_exists'.mp held
  refine ⟨⟨[⟨.newCode, a⟩], rfl, ?_⟩, rfl, rfl⟩
  unfold setNewCode
  rw [held, Option.getD_some]
  change Function.update (Function.update l.holding a _) a _ = forget [a] l.holding
  rw [Function.update_idem]
  funext x
  by_cases here : x = a
  · subst here
    simp [forget, held, put, note, ChangeKind.rewound, Holding.resetCode, Holding.setCode]
  · simp [forget, here]

theorem Forgets.rollback (forgets : Forgets K l m) :
    (m.rollback l.changeLog.length).changeLog = l.changeLog ∧
    (m.rollback l.changeLog.length).holding = forget K l.holding ∧
      (m.rollback l.changeLog.length).trie = l.trie ∧
        (m.rollback l.changeLog.length).accountStartNonce = l.accountStartNonce := by
  obtain ⟨changes, log, held⟩ := forgets.back
  obtain ⟨log', held', trie, start⟩ := rollbackFrom_unwinds changes l.changeLog m
  rw [Ledger.rollback, log]
  exact ⟨log', held'.trans held, trie.trans forgets.trie, start.trans forgets.start⟩

end Ledger

namespace State

open Ledger

variable {C : Crypto} {db : H256 → Bytes} {s t u : State} {a : Nat} {K L : List Nat}

/-- The changes since a state set code of an account that had code in it. -/
def recodes (s t : State) : Bool :=
  (t.changeLog.take (t.changeLog.length - s.changeLog.length)).any fun c =>
    decide (c.kind = .newCode) && s.addressHasCode c.address

/-- None of the accounts has code. -/
def Spares (s : State) (K : List Nat) : Prop := ∀ a ∈ K, s.addressHasCode a = false

theorem spares_append : s.Spares (K ++ L) ↔ s.Spares K ∧ s.Spares L := by
  simp [Spares, or_imp, forall_and]

variable (C db) in
/-- The log of a state leads back to another one, but for the code of some accounts. -/
structure Recovers (K : List Nat) (s t : State) : Prop where
  sound : t.Sound
  undoable : Undoable s.ledger t.ledger.changeLog t.ledger
  forgets : Forgets K s.ledger t.ledger
  coded : s.Coded C db → t.Coded C db

theorem since_recovers (empty : C.sha3 [] = EmptySHA3) (since : Since C db s t)
    (sound : s.Sound) : Recovers C db [] s t where
  sound := (since_extends since sound).sound
  undoable := (since_extends since sound).undoable
  forgets := (since_extends since sound).steps.forgets
  coded := since_coded empty since

theorem Recovers.trans (first : Recovers C db K s t) (second : Recovers C db L t u) :
    Recovers C db (K ++ L) s u where
  sound := second.sound
  undoable := first.undoable.trans second.undoable
  forgets := first.forgets.trans second.forgets
  coded := second.coded ∘ first.coded

theorem Recovers.inUse (recovers : Recovers C db K s t) (sound : s.Sound)
    (inUse : s.addressInUse a = true) : t.addressInUse a = true := by
  rw [recovers.sound.addressInUse_eq, Option.isSome_iff_ne_none]
  apply recovers.undoable.keeps_held
  rwa [← Option.isSome_iff_ne_none, ← sound.addressInUse_eq]

theorem setNewCode_recovers (empty : C.sha3 [] = EmptySHA3) (sound : s.Sound)
    (changed : s.ledger.isChanged a = true) (bytes : Bytes) :
    Recovers C db [a] s (s.setNewCode a ⟨bytes, C.sha3 bytes⟩) := by
  have shows : (s.setNewCode a ⟨bytes, C.sha3 bytes⟩).Shows
      (s.ledger.setNewCode a (C.sha3 bytes)) :=
    setNewCode_shows sound.shows changed
  have undoable : Undoable s.ledger (s.ledger.setNewCode a (C.sha3 bytes)).changeLog
      (s.ledger.setNewCode a (C.sha3 bytes)) :=
    setNewCode_undoable (.refl sound.consistent) changed
  refine ⟨shows.sound undoable.consistent, ?_, ?_, fun coded => ?_⟩
  · rw [shows.ledger]
    exact undoable
  · rw [shows.ledger]
    exact setNewCode_forgets (sound.consistent.held a changed)
  · exact (coded.put (Account.coded_setNewCode empty bytes)).note

theorem Recovers.rollback (recovers : Recovers C db K s t) :
    Recovers C db K s (t.rollback s.savepoint) ∧
      (t.rollback s.savepoint).ledger.holding = forget K s.ledger.holding := by
  have shows := rollback_shows recovers.undoable recovers.sound.shows
  have undoable := recovers.undoable.rollback
  obtain ⟨log, held, trie, start⟩ := recovers.forgets.rollback
  have same : (t.rollback s.savepoint).ledger = t.ledger.rollback s.ledger.changeLog.length :=
    shows.ledger
  refine ⟨⟨shows.sound undoable.consistent, ?_, ?_, fun coded => ?_⟩, ?_⟩
  · rw [same]
    exact undoable
  · rw [same]
    exact ⟨⟨[], log, held⟩, trie, start⟩
  · exact (recovers.coded coded).rollbackFrom _ _
  · rw [same]
    exact held

theorem Recovers.log (recovers : Recovers C db K s t) :
    ∃ changes, t.changeLog = changes ++ s.changeLog ∧
      t.changeLog.take (t.changeLog.length - s.changeLog.length) = changes := by
  obtain ⟨changes, log, -⟩ := recovers.forgets.back
  change t.changeLog = changes ++ s.changeLog at log
  refine ⟨changes, log, ?_⟩
  rw [log, List.length_append, Nat.add_sub_cancel]
  exact List.take_left

theorem Sound.addressHasCode_ledger (sound : s.Sound) :
    s.addressHasCode a = false ↔ Bare s.ledger.holding a := by
  rw [addressHasCode_eq, decide_eq_false_iff_not, not_not, sound.codeHash_ledger, Ledger.codeHash]
  cases held : s.ledger.holding a with
  | none => exact iff_of_true rfl fun h found => by rw [held] at found; cases found
  | some h =>
      refine ⟨fun none other found => ?_, fun bare => bare h held⟩
      rw [held] at found
      cases found
      exact none

/-- Where code has been set of accounts that had none, the log tells of no others. -/
theorem Recovers.recodes_spared (recovers : Recovers C db K s t) (sound : s.Sound)
    (spared : s.Spares K) : s.recodes t = false := by
  obtain ⟨changes, log, held⟩ := recovers.forgets.back
  obtain ⟨changes', log', newer⟩ := recovers.log
  obtain rfl : changes' = changes := List.append_cancel_right (log'.symm.trans log)
  rw [recodes, newer, List.any_eq_false]
  intro c logged both
  rw [Bool.and_eq_true, decide_eq_true_eq] at both
  obtain ⟨kind, x⟩ := c
  obtain ⟨rfl, hasCode⟩ := both
  by_cases known : x ∈ K
  · rw [spared x known] at hasCode
    cases hasCode
  · have bare : Bare (forget K s.ledger.holding) x := by
      rw [← held]
      exact unwind_newCode logged
    have none : s.addressHasCode x = false := by
      rw [sound.addressHasCode_ledger]
      intro h found
      exact bare h ((if_neg known).trans found)
    rw [none] at hasCode
    cases hasCode

theorem Recovers.recodes_setNewCode (recovers : Recovers C db K s t) (code : Code)
    (hasCode : s.addressHasCode a = true) : s.recodes (t.setNewCode a code) = true := by
  obtain ⟨changes, log, -⟩ := recovers.log
  have logged : (t.setNewCode a code).changeLog = (⟨.newCode, a⟩ :: changes) ++ s.changeLog :=
    congrArg (List.cons (⟨.newCode, a⟩ : Change)) log
  rw [recodes, logged, List.length_append, Nat.add_sub_cancel, List.take_left, List.any_cons]
  simp [hasCode]

theorem forget_spared (sound : s.Sound) (spared : s.Spares K) :
    forget K s.ledger.holding = s.ledger.holding := by
  funext a
  unfold forget
  split
  case isTrue known =>
    have bare := sound.addressHasCode_ledger.mp (spared a known)
    cases held : s.ledger.holding a with
    | none => rfl
    | some h =>
        have none := bare h held
        rw [Option.map_some, Holding.resetCode, Holding.setCode, ← none]
  case isFalse => rfl

theorem forget_hasCode (known : a ∈ K) (sound : t.Sound)
    (held : t.ledger.holding = forget K s.ledger.holding) : t.addressHasCode a = false := by
  rw [sound.addressHasCode_ledger]
  intro h found
  rw [held, forget, if_pos known] at found
  obtain ⟨old, -, rfl⟩ := Option.map_eq_some_iff.mp found
  rfl

variable (C db) in
/-- A frame of an account leaves changes of some accounts, and then code of that account. -/
def Settles (K : List Nat) (a : Nat) (s t : State) : Prop :=
  Recovers C db K s t ∨ ∃ u bytes, Recovers C db K s u ∧ u.ledger.isChanged a = true ∧
    t = u.setNewCode a ⟨bytes, C.sha3 bytes⟩

/-- The log tells whether a frame has set code of an account that had code. -/
theorem Settles.recovers {b : State} (empty : C.sha3 [] = EmptySHA3)
    (settles : Settles C db L a s t) (here : Recovers C db K b s) (sound : b.Sound) :
    ∃ M, Recovers C db M s t ∧ (b.Spares M → b.Spares L) ∧
      (b.Spares K → b.Spares L → (b.Spares M ↔ b.recodes t = false)) := by
  obtain left | ⟨u, bytes, left, changed, rfl⟩ := settles
  · refine ⟨L, left, id, fun known spared => iff_of_true spared ?_⟩
    exact (here.trans left).recodes_spared sound (spares_append.mpr ⟨known, spared⟩)
  · have set : Recovers C db [a] u (u.setNewCode a ⟨bytes, C.sha3 bytes⟩) :=
      setNewCode_recovers empty left.sound changed bytes
    refine ⟨L ++ [a], left.trans set, fun spared => (spares_append.mp spared).1,
      fun known spared => ⟨fun all => ?_, fun quiet => ?_⟩⟩
    · exact (here.trans (left.trans set)).recodes_spared sound (spares_append.mpr ⟨known, all⟩)
    · refine spares_append.mpr ⟨spared, fun x same => ?_⟩
      obtain rfl := List.mem_singleton.mp same
      by_contra hasCode
      rw [(here.trans left).recodes_setNewCode _ (Bool.not_eq_false _ ▸ hasCode)] at quiet
      cases quiet

end State

end Accounts

end UtispaceChain
