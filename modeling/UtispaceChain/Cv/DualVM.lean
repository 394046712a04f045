import UtispaceChain.Cv.BlockExecute

/-! A block that is executed with both VMs, beside one that is executed with the interpreter. -/

namespace UtispaceChain

namespace Accounts

open Ledger Accounts.State Node

variable {C : Crypto} {Root : Type}

/-- What two nodes have to agree on: what the block has, and the state root after the final
`commit`. -/
structure SameBlock (node : Node C Root) (q q' : Process Root) : Prop where
  transactions : q'.block.transactions = q.block.transactions
  transactionSet : q'.block.transactionSet = q.block.transactionSet
  receipts : q'.block.receipts = q.block.receipts
  root : node.rootHash q'.block.state.commit.trie = node.rootHash q.block.state.commit.trie

def Refused (node : Node C Root) (q : Process Root) (t : HashedTransaction) : Prop :=
  q.block.isSealed = true ∨ node.Full q.block.envInfo ∨
    ¬ node.Covered q.block.envInfo t.toExecTransaction q.block.state

/-- No receipt is asked for, or the first transaction throws, or there is only one that is to be
committed. -/
def Transparent (node : Node C Root) (p : Permanence) (q : Process Root) :
    List HashedTransaction → Prop
  | [] => True
  | t :: rest => p = .reverted ∨ Refused node q t ∨ (p = .committed ∧ rest = [])

variable (C) in
/-- A block that is executed with the interpreter, and one with the kind that `VMKind::Dual` has
become. -/
structure Level (node : Node C Root) (p : Permanence) (q q' : Process Root) : Prop where
  kind : q.kind = .interpreter
  dual : q'.kind = .jit ∨ q'.kind = .interpreter ∨ q.block.isSealed = true ∨
    (q'.kind = .dual ∧ p = .reverted ∧ q.block.state.Clean)
  db : q'.db = q.db
  block : q'.block = { q.block with state := q'.block.state }
  matched : Matched C q.db q.block.state.ledger q'.block.state.ledger q.block.state q'.block.state
  trie : q'.block.state.trie = q.block.state.trie
  uncommitted : q.block.committedToSeal = false

theorem clean_of_clear {s : State} (clear : ∀ a, s.cache a = none) : s.Clean := by
  intro a acc cached
  rw [clear a] at cached
  cases cached

section Steps

variable {node : Node C Root} {q q' : Process Root} {t : HashedTransaction} {p : Permanence}
    {l m : Ledger} {db : H256 → Bytes} {s s' : State}

theorem Level.sameBlock (level : Level C node p q q') : SameBlock node q q' where
  transactions := by rw [level.block]
  transactionSet := by rw [level.block]
  receipts := by rw [level.block]
  root := by
    rw [commit_trie level.matched.left.sound, commit_trie level.matched.right.sound,
      level.matched.paired.1.accounts]

theorem Matched.cleared (matched : Matched C db l m s s') (clean : s.Clean) {s₁ : State}
    (kept : s₁.Kept C db s'.ledger) (trie : s'.trie = s.trie) :
    Matched C db s.ledger s₁.clearCache.ledger s s₁.clearCache := by
  have after := kept.clearCache
  apply matched_of_holding matched.left.sound matched.left.coded after.sound after.coded
  · exact clean_holding clean (clearCache_clean s₁) (kept.trie.trans trie)
  · exact kept.start.trans matched.accountStartNonce
  · nofun

variable (C) in
/-- How the branch for both VMs ends, beside what the interpreter makes of a clean state. -/
inductive Doubled (node : Node C Root) (p : Permanence) (q q' : Process Root)
    (t : HashedTransaction) :
    StateOutcome Root → BlockOutcome Root → Prop
  | threw {s s' : State} : Matched C q.db q.block.state.ledger q'.block.state.ledger s s' →
      Doubled node p q q' t (.threw s) (.threw ⟨.jit, q.db, { q'.block with state := s' }⟩)
  | returned (res : ExecutionResult) (receipt : Root × TransactionReceipt) {l : Ledger}
      {s s' : State} :
      Ended C q.db q.block.state.ledger l s s' → l.trie = q.block.state.ledger.trie →
        (p = .reverted → (∀ a, s.cache a = none) ∧ ∀ a, s'.cache a = none) →
          Doubled node p q q' t (.returned res receipt s) (.returned res
            { kind := .dual
              db := node.store s' q.db
              block :=
                if p = .committed then
                  (({ q'.block with state := s'.commit } : ExecBlock Root).pushTransaction
                    t).pushReceipt receipt
                else { q'.block with state := s'.commit } })
  | exit : Doubled node p q q' t .exit .exit

/-- What `Permanence::Reverted` does with what was executed. -/
def StateOutcome.permanence (p : Permanence) : StateOutcome Root → StateOutcome Root
  | .returned res receipt s => .returned res receipt (if p = .reverted then s.clearCache else s)
  | o => o

variable (node p) in
theorem stateExecute_permanence (kind : VMKind) (db : H256 → Bytes) (envInfo : EnvInfo)
    (t : ExecTransaction) (s : State) :
    node.stateExecute kind db envInfo t p s =
      (node.stateExecute kind db envInfo t .dry s).permanence p := by
  unfold Node.stateExecute
  cases s.executeLeaving C db (node.vm kind db envInfo) envInfo node.sealEngine node.maxGas t with
  | threw thrown => rfl
  | exit => rfl
  | returned res receipt after =>
      change StateOutcome.returned res
        (node.rootHash (if p = .reverted then after.clearCache else after).trie, receipt) _ =
        .returned res (node.rootHash after.trie, receipt) _
      split
      · rfl
      · rfl

theorem executeDual_doubled (collisionFree : Function.Injective C.sha3)
    (empty : C.sha3 [] = EmptySHA3) (one : node.jitVM = node.interpreterVM) (p : Permanence)
    (t : HashedTransaction)
    (matched : Matched C q.db q.block.state.ledger q'.block.state.ledger q.block.state
      q'.block.state) (clean : q.block.state.Clean)
      (trie : q'.block.state.trie = q.block.state.trie) (same : q'.db = q.db)
    (envInfo : q'.block.envInfo = q.block.envInfo) :
    Doubled C node p q q' t
      (node.stateExecute .interpreter q.db q.block.envInfo t.toExecTransaction p q.block.state)
      (node.executeDual q' t p) := by
  have vms : node.create .interpreter = node.create .jit := one.symm
  have first :=
    matched.stateExecute collisionFree empty vms q.block.envInfo t.toExecTransaction .dry trie
  have whole := stateExecute_permanence node p .interpreter q.db q.block.envInfo t.toExecTransaction
    q.block.state
  unfold Node.executeDual
  dsimp only
  rw [envInfo, same]
  generalize node.stateExecute .interpreter q.db q.block.envInfo t.toExecTransaction .dry
    q.block.state = x at first whole
  generalize node.stateExecute .jit q.db q.block.envInfo t.toExecTransaction .dry q'.block.state =
    y at first
  cases first with
  | threw states =>
      rw [whole]
      exact .threw states
  | exit =>
      rw [whole]
      exact .exit
  | @returned res₁ receipt₁ u v ended =>
      have cleared := matched.cleared clean ended.right trie
      have later : v.clearCache.ledger.trie = q.block.state.ledger.trie :=
        ended.right.trie.trans trie
      have second :=
        cleared.stateExecute collisionFree empty (.refl (node.create .interpreter)) q.block.envInfo
        t.toExecTransaction p later
      have whole' :=
        stateExecute_permanence node p .interpreter q.db q.block.envInfo t.toExecTransaction
          v.clearCache
      have clear : ∀ {o o' : StateOutcome Root} {res receipt s}, o = o'.permanence p →
        o = .returned res receipt s →
          p = .reverted → ∀ a, s.cache a = none := by
        intro o o' res receipt s made returned reverted a
        subst made
        cases o' with
        | threw => cases returned
        | exit => cases returned
        | returned =>
            simp only [StateOutcome.permanence, if_pos reverted] at returned
            cases returned
            rfl
      dsimp only
      generalize node.stateExecute .interpreter q.db q.block.envInfo t.toExecTransaction p
        q.block.state = x at second whole
      generalize node.stateExecute .interpreter q.db q.block.envInfo t.toExecTransaction p
        v.clearCache = y at second whole'
      cases second with
      | threw => cases whole
      | exit => cases whole
      | returned res receipt states =>
          refine .returned res receipt states later fun reverted => ⟨?_, ?_⟩
          · exact clear whole rfl reverted
          · exact clear whole' rfl reverted

theorem Level.step (collisionFree : Function.Injective C.sha3) (empty : C.sha3 [] = EmptySHA3)
    (one : node.jitVM = node.interpreterVM) (level : Level C node p q q') (t : HashedTransaction) :
    (node.execute q' t p).answer = (node.execute q t p).answer ∧
      Option.Rel (Level C node p) (node.execute q t p).leaves (node.execute q' t p).leaves := by
  have envInfo : q'.block.envInfo = q.block.envInfo := by
    rw [level.block]
    rfl
  have isSealed : q'.block.isSealed = q.block.isSealed := by rw [level.block]
  have uncommitted : q'.block.committedToSeal = false := by
    rw [level.block]
    exact level.uncommitted
  rw [node.execute_open p level.uncommitted, node.execute_open p uncommitted, isSealed]
  by_cases shut : q.block.isSealed = true
  · rw [if_pos shut, if_pos shut]
    exact ⟨rfl, .some level⟩
  · have single : ¬ q.kind = .dual := by
      rw [level.kind]
      nofun
    rw [if_neg shut, if_neg shut, if_neg single]
    by_cases dual : q'.kind = .dual
    · have asked : p = .reverted ∧ q.block.state.Clean := by
        rcases level.dual with jit | interpreter | already | ⟨-, asked⟩
        · rw [dual] at jit
          cases jit
        · rw [dual] at interpreter
          cases interpreter
        · exact absurd already shut
        · exact asked
      rcases asked with ⟨rfl, clean⟩
      have doubled := executeDual_doubled collisionFree empty one .reverted t level.matched clean
        level.trie level.db envInfo
      rw [if_pos dual]
      unfold Node.executeSingle
      dsimp only
      rw [level.kind]
      generalize node.stateExecute .interpreter q.db q.block.envInfo t.toExecTransaction .reverted
        q.block.state = x
        at doubled
      generalize node.executeDual q' t .reverted = y at doubled
      cases doubled with
      | exit => exact ⟨rfl, .none⟩
      | @threw s s' states =>
          refine ⟨rfl, .some ⟨rfl, .inl rfl, rfl, ?_, states.here, ?_, level.uncommitted⟩⟩
          · rw [level.block]
          · exact states.right.kept.trie.trans (level.trie.trans states.left.kept.trie.symm)
      | @returned res receipt l s s' ended trie clear =>
          rcases clear rfl with ⟨clear, clear'⟩
          have kept := ended.right.commit_clear clear'
          have clean : s.Clean := clean_of_clear clear
          have trie : s'.commit.trie = s.trie := kept.trie.trans (trie.trans ended.left.trie.symm)
          refine ⟨rfl, .some ⟨rfl, .inr (.inr (.inr ⟨rfl, rfl, clean⟩)), store_clear q.db clear',
            ?_, ?_, trie, level.uncommitted⟩⟩
          · change { q'.block with state := s'.commit } =
              { ({ q.block with state := s } : ExecBlock Root) with state := s'.commit }
            rw [level.block]
          · have start : s'.commit.accountStartNonce = s.accountStartNonce := ended.alike.startNonce
            exact matched_of_holding ended.left.sound ended.left.coded kept.sound kept.coded
              (clean_holding clean nofun trie) start nofun
    · rw [if_neg dual]
      have vm : node.create q.kind = node.create q'.kind := by
        rw [level.kind]
        rcases level.dual with jit | interpreter | already | ⟨both, -⟩
        · rw [jit]
          exact one.symm
        · rw [interpreter]
        · exact absurd already shut
        · exact absurd both dual
      have kinds : q'.kind = .jit ∨ q'.kind = .interpreter := by
        rcases level.dual with jit | interpreter | already | ⟨both, -⟩
        · exact .inl jit
        · exact .inr interpreter
        · exact absurd already shut
        · exact absurd both dual
      have only :=
        level.matched.stateExecute collisionFree empty vm q.block.envInfo t.toExecTransaction
          p level.trie
      unfold Node.executeSingle
      dsimp only
      rw [envInfo, level.db]
      generalize node.stateExecute q.kind q.db q.block.envInfo t.toExecTransaction p q.block.state =
        x at only
      generalize node.stateExecute q'.kind q.db q.block.envInfo t.toExecTransaction p q'.block.state
        = y at only
      have after : ∀ {b b' : ExecBlock Root}, b' = { b with state := b'.state } →
          Matched C q.db b.state.ledger b'.state.ledger b.state b'.state →
          b'.state.trie = b.state.trie →
            b.committedToSeal = false → Level C node p { q with block := b } ⟨q'.kind, q.db, b'⟩ :=
        fun beside states trie uncommitted =>
          ⟨level.kind, kinds.elim .inl fun interpreter => .inr (.inl interpreter), rfl, beside,
            states, trie, uncommitted⟩
      cases only with
      | exit => exact ⟨rfl, .none⟩
      | threw states =>
          refine ⟨rfl, .some (after ?_ states.here ?_ level.uncommitted)⟩
          · rw [level.block]
          · exact states.right.kept.trie.trans (level.trie.trans states.left.kept.trie.symm)
      | returned res receipt ended =>
          have trie := ended.right.trie.trans (level.trie.trans ended.left.trie.symm)
          refine ⟨rfl, .some ?_⟩
          rw [level.block]
          cases p with
          | reverted => exact after rfl ended.matched trie level.uncommitted
          | committed => exact after rfl ended.matched trie level.uncommitted
          | dry => exact after rfl ended.matched trie level.uncommitted
          | onlyReceipt => exact after rfl ended.matched trie level.uncommitted

theorem executeAll_rel {r u : Process Root → Process Root → Prop} {calls : List HashedTransaction}
    (answer : (node.execute q' t p).answer = (node.execute q t p).answer)
    (left : Option.Rel r (node.execute q t p).leaves (node.execute q' t p).leaves)
    (rest : ∀ q₁ q₁', r q₁ q₁' →
      Option.Rel (fun x y => x.1 = y.1 ∧ u x.2 y.2) (node.executeAll p q₁ calls)
      (node.executeAll p q₁' calls)) :
    Option.Rel (fun x y => x.1 = y.1 ∧ u x.2 y.2) (node.executeAll p q (t :: calls))
      (node.executeAll p q' (t :: calls)) := by
  unfold Node.executeAll
  generalize node.execute q t p = x at answer left
  generalize node.execute q' t p = y at answer left
  have joined : ∀ first q₁ q₁', r q₁ q₁' → Option.Rel (fun x y => x.1 = y.1 ∧ u x.2 y.2)
      ((node.executeAll p q₁ calls).map
        fun left => ((first : Option ExecutionResult) :: left.1, left.2))
      ((node.executeAll p q₁' calls).map fun left => (first :: left.1, left.2)) :=
    fun first q₁ q₁' related => rel_map (rest q₁ q₁' related) fun _ _ _ _ both =>
      ⟨congrArg (first :: ·) both.1, both.2⟩
  cases x with
  | exit =>
      cases y with
      | exit => exact .none
      | threw => cases answer
      | returned => cases answer
  | threw q₁ =>
      cases y with
      | exit => cases answer
      | returned => cases answer
      | threw q₁' =>
          rcases left with related | _
          exact joined none q₁ q₁' related
  | returned res q₁ =>
      cases y with
      | exit => cases answer
      | threw => cases answer
      | returned res' q₁' =>
          cases answer
          rcases left with related | _
          exact joined (some res) q₁ q₁' related

theorem Level.executeAll (collisionFree : Function.Injective C.sha3) (empty : C.sha3 [] = EmptySHA3)
    (one : node.jitVM = node.interpreterVM) (calls : List HashedTransaction)
    (level : Level C node p q q') :
    Option.Rel (fun x y => x.1 = y.1 ∧ SameBlock node x.2 y.2) (node.executeAll p q calls)
      (node.executeAll p q' calls) := by
  induction calls generalizing q q' with
  | nil => exact .some ⟨rfl, level.sameBlock⟩
  | cons t calls ih =>
      rcases level.step collisionFree empty one t with ⟨answer, left⟩
      exact executeAll_rel answer left fun _ _ => ih

theorem Process.Sane.first (collisionFree : Function.Injective C.sha3)
    (empty : C.sha3 [] = EmptySHA3) (one : node.jitVM = node.interpreterVM) (sane : q.Sane C)
    (clean : q.block.state.Clean) (p : Permanence) (t : HashedTransaction) :
    Doubled C node p q { q with kind := .dual } t
      (node.stateExecute .interpreter q.db q.block.envInfo t.toExecTransaction p q.block.state)
      (node.executeDual { q with kind := .dual } t p) :=
  executeDual_doubled collisionFree empty one p t
    (matched_of_holding sane.sound sane.coded sane.sound sane.coded rfl rfl
      fun _ changed => changed) clean rfl rfl rfl

theorem sameBlock_refl (q : Process Root) (kind : VMKind) : SameBlock node q { q with kind } :=
  ⟨rfl, rfl, rfl, rfl⟩

theorem Transparent.sameBlock (collisionFree : Function.Injective C.sha3)
    (empty : C.sha3 [] = EmptySHA3) (one : node.jitVM = node.interpreterVM) (sane : q.Sane C)
    (clean : q.block.state.Clean) (kind : q.kind = .interpreter)
    {calls : List HashedTransaction} (transparent : Transparent node p q calls) :
    Option.Rel (fun x y => x.1 = y.1 ∧ SameBlock node x.2 y.2) (node.executeAll p q calls)
      (node.executeAll p { q with kind := .dual } calls) := by
  have matched := matched_of_holding sane.sound sane.coded sane.sound sane.coded rfl rfl
    fun _ changed => changed
  have uncommitted := sane.uncommitted
  cases calls with
  | nil => exact .some ⟨rfl, sameBlock_refl q .dual⟩
  | cons t calls =>
      by_cases shut : q.block.isSealed = true
      · have level : Level C node p q { q with kind := .dual } :=
          ⟨kind, .inr (.inr (.inl shut)), rfl, rfl, matched, rfl, uncommitted⟩
        exact level.executeAll collisionFree empty one (t :: calls)
      · have doubled := sane.first collisionFree empty one clean p t
        have left : node.execute q t p = node.executeSingle q t p := by
          rw [node.execute_open p uncommitted, if_neg shut, kind]
          exact if_neg nofun
        have right : node.execute { q with kind := .dual } t p =
            node.executeDual { q with kind := .dual } t p := by
          rw [node.execute_open (q := { q with kind := .dual }) p uncommitted]
          exact (if_neg shut).trans (if_pos rfl)
        have ends := node.stateExecute_ends p collisionFree empty .interpreter q.block.envInfo
          t.toExecTransaction sane.sound
          sane.coded sane.known
        unfold Node.executeSingle at left
        dsimp only at left
        rw [kind] at left
        by_cases reverted : p = .reverted
        · have level : Level C node p q { q with kind := .dual } :=
            ⟨kind, .inr (.inr (.inr ⟨rfl, reverted, clean⟩)), rfl, rfl, matched, rfl, uncommitted⟩
          exact level.executeAll collisionFree empty one (t :: calls)
        · generalize node.stateExecute .interpreter q.db q.block.envInfo t.toExecTransaction p
            q.block.state = x
            at doubled ends left
          generalize node.executeDual { q with kind := .dual } t p = y at doubled right
          cases doubled with
          | exit =>
              unfold Node.executeAll
              rw [left, right]
              exact .none
          | @threw s s' states =>
              apply executeAll_rel (r := Level C node p)
              · rw [left, right]
                rfl
              · rw [left, right]
                refine .some ⟨rfl, .inl rfl, rfl, rfl, states.here, ?_, uncommitted⟩
                exact states.right.kept.trie.trans states.left.kept.trie.symm
              · exact fun _ _ level => level.executeAll collisionFree empty one calls
          | @returned res receipt l s s' ended trie _ =>
              rcases transparent with asked | refused | ⟨rfl, rfl⟩
              · exact absurd asked reverted
              · cases ends with
                | returned fits covered _ _ _ =>
                    rcases refused with already | full | uncovered
                    · exact absurd already shut
                    · exact absurd full fits
                    · exact absurd covered uncovered
              · have root : s'.commit.commit.trie = s.commit.trie := by
                  rw [commit_trie (commit_sound ended.right.sound), commit_trie ended.left.sound,
                    ← ended.alike.accounts, ← commit_trie ended.right.sound,
                    ← commit_trie (commit_sound ended.right.sound)]
                  rfl
                apply executeAll_rel (r := SameBlock node)
                · rw [left, right]
                  rfl
                · rw [left, right]
                  exact .some ⟨rfl, rfl, rfl, congrArg node.rootHash root⟩
                · exact fun _ _ same => .some ⟨rfl, same⟩

theorem Process.Sane.first_receipt {res : ExecutionResult} {u : Process Root}
    (collisionFree : Function.Injective C.sha3) (empty : C.sha3 [] = EmptySHA3)
    (one : node.jitVM = node.interpreterVM) (sane : q.Sane C) (clean : q.block.state.Clean)
    (kind : q.kind = .interpreter)
    (returned : node.execute { q with kind := .dual } t .onlyReceipt = .returned res q')
    (left : (node.execute q t .onlyReceipt).leaves = some u) :
    u.block.receipts.length = q.block.receipts.length + 1 := by
  have doubled := sane.first collisionFree empty one clean .onlyReceipt t
  rw [node.execute_open (q := { q with kind := .dual }) .onlyReceipt sane.uncommitted] at returned
  rw [node.execute_open .onlyReceipt sane.uncommitted, kind] at left
  split at returned
  · cases returned
  case isFalse unsealed =>
    change node.executeDual { q with kind := .dual } t .onlyReceipt = _ at returned
    rw [if_neg unsealed, if_neg nofun] at left
    unfold Node.executeSingle at left
    dsimp only at left
    rw [kind] at left
    rw [returned] at doubled
    generalize node.stateExecute .interpreter q.db q.block.envInfo t.toExecTransaction .onlyReceipt
      q.block.state = x
      at doubled left
    cases doubled with
    | returned res receipt ended trie clear =>
        cases left
        exact List.length_append ..

/-! Where the two differ -/

theorem uncommitToSeal_receipts (b : ExecBlock Root) : b.uncommitToSeal.receipts = b.receipts := by
  unfold ExecBlock.uncommitToSeal
  split
  · rfl
  · rfl

theorem execute_receipts (left : (node.execute q t p).leaves = some q') :
    q.block.receipts <+: q'.block.receipts := by
  unfold Node.execute at left
  split at left
  · cases left
    exact List.prefix_rfl
  · rw [← uncommitToSeal_receipts q.block]
    dsimp only at left
    split at left
    · unfold Node.executeDual at left
      dsimp only at left
      split at left
      · cases left
      · cases left
        exact List.prefix_rfl
      · split at left
        · cases left
        · cases left
          exact List.prefix_rfl
        · cases left
          dsimp only
          split
          · exact List.prefix_append ..
          · exact List.prefix_rfl
    · unfold Node.executeSingle at left
      dsimp only at left
      split at left
      · cases left
      · cases left
        exact List.prefix_rfl
      · cases left
        cases p with
        | reverted => exact List.prefix_rfl
        | committed => exact List.prefix_append ..
        | dry => exact List.prefix_rfl
        | onlyReceipt => exact List.prefix_append ..

theorem executeAll_cons {calls : List HashedTransaction} {results : List (Option ExecutionResult)}
    (ran : node.executeAll p q (t :: calls) = some (results, q')) :
    ∃ first q₁ rest, (node.execute q t p).answer = some first ∧
    (node.execute q t p).leaves = some q₁ ∧
      node.executeAll p q₁ calls = some (rest, q') ∧ results = first :: rest := by
  unfold Node.executeAll at ran
  cases outcome : node.execute q t p with
  | exit =>
      rw [outcome] at ran
      cases ran
  | threw q₁ =>
      rw [outcome] at ran
      rcases Option.map_eq_some_iff.mp ran with ⟨⟨rest, last⟩, later, same⟩
      cases same
      exact ⟨none, q₁, rest, rfl, rfl, later, rfl⟩
  | returned res q₁ =>
      rw [outcome] at ran
      rcases Option.map_eq_some_iff.mp ran with ⟨⟨rest, last⟩, later, same⟩
      cases same
      exact ⟨some res, q₁, rest, rfl, rfl, later, rfl⟩

theorem executeAll_receipts {calls : List HashedTransaction}
    {results : List (Option ExecutionResult)} (ran : node.executeAll p q calls =
      some (results, q')) : q.block.receipts <+: q'.block.receipts := by
  induction calls generalizing q results with
  | nil =>
      cases ran
      exact List.prefix_rfl
  | cons t calls ih =>
      rcases executeAll_cons ran with ⟨first, q₁, rest, -, left, later, -⟩
      exact (execute_receipts left).trans (ih later)

theorem execute_single_roots (collisionFree : Function.Injective C.sha3)
    (empty : C.sha3 [] = EmptySHA3) (sane : q.Sane C) (single : q.kind ≠ .dual)
    (left : (node.execute q t p).leaves = some q') :
    q'.kind = q.kind ∧ q'.block.state.trie = q.block.state.trie ∧
      ∃ pushed, q'.block.receipts = q.block.receipts ++ pushed ∧
        ∀ receipt ∈ pushed, receipt.1 = node.rootHash q.block.state.trie := by
  have ends := node.stateExecute_ends p collisionFree empty q.kind q.block.envInfo
    t.toExecTransaction sane.sound sane.coded
    sane.known
  rw [node.execute_open p sane.uncommitted, if_neg single] at left
  split at left
  · cases left
    exact ⟨rfl, rfl, [], (List.append_nil _).symm, nofun⟩
  · unfold Node.executeSingle at left
    dsimp only at left
    generalize node.stateExecute q.kind q.db q.block.envInfo t.toExecTransaction p q.block.state =
      x at ends left
    cases ends with
    | exit => cases left
    | full =>
        cases left
        exact ⟨rfl, rfl, [], (List.append_nil _).symm, nofun⟩
    | unpaid _ _ kept _ =>
        cases left
        exact ⟨rfl, kept.trie, [], (List.append_nil _).symm, nofun⟩
    | @returned res receipt s _ _ kept root _ =>
        cases left
        have pushed : ∀ r ∈ [receipt], r.1 = node.rootHash q.block.state.trie := by
          intro r member
          rw [List.mem_singleton.mp member, root]
        cases p with
        | reverted => exact ⟨rfl, kept.trie, [], (List.append_nil _).symm, nofun⟩
        | committed => exact ⟨rfl, kept.trie, [receipt], rfl, pushed⟩
        | dry => exact ⟨rfl, kept.trie, [], (List.append_nil _).symm, nofun⟩
        | onlyReceipt => exact ⟨rfl, kept.trie, [receipt], rfl, pushed⟩

theorem executeAll_single_roots {calls : List HashedTransaction}
    {results : List (Option ExecutionResult)} (collisionFree : Function.Injective C.sha3)
    (empty : C.sha3 [] = EmptySHA3) (sane : q.Sane C) (single : q.kind ≠ .dual)
    (ran : node.executeAll p q calls = some (results, q')) :
    ∃ pushed, q'.block.receipts = q.block.receipts ++ pushed ∧
      ∀ receipt ∈ pushed, receipt.1 = node.rootHash q.block.state.trie := by
  induction calls generalizing q results with
  | nil =>
      cases ran
      exact ⟨[], (List.append_nil _).symm, nofun⟩
  | cons t calls ih =>
      rcases executeAll_cons ran with ⟨first, q₁, rest, -, left, later, -⟩
      rcases execute_single_roots collisionFree empty sane single left with
        ⟨kind, trie, pushed, receipts, roots⟩
      rcases ih (sane.execute collisionFree empty left) (kind ▸ single) later with
        ⟨others, receipts', roots'⟩
      refine ⟨pushed ++ others, ?_, fun receipt member => ?_⟩
      · rw [receipts', receipts, List.append_assoc]
      · rcases List.mem_append.mp member with early | late
        · exact roots receipt early
        · rw [roots' receipt late, trie]

theorem execute_dual_returned {res : ExecutionResult} (collisionFree : Function.Injective C.sha3)
    (empty : C.sha3 [] = EmptySHA3) (sane : q.Sane C) (dual : q.kind = .dual)
    (returned : node.execute q t p = .returned res q') :
    q'.kind = .dual ∧ ∃ receipt :
    Root × TransactionReceipt, receipt.1 = node.rootHash q.block.state.trie ∧
      q'.block.receipts = if p = .committed then q.block.receipts ++ [receipt]
        else q.block.receipts := by
  have first := node.stateExecute_ends .dry collisionFree empty .jit q.block.envInfo
    t.toExecTransaction sane.sound
    sane.coded sane.known
  rw [node.execute_open p sane.uncommitted, if_pos dual] at returned
  split at returned
  · cases returned
  · unfold Node.executeDual at returned
    dsimp only at returned
    generalize node.stateExecute .jit q.db q.block.envInfo t.toExecTransaction .dry q.block.state =
      x at first returned
    cases first with
    | exit => cases returned
    | full => cases returned
    | unpaid => cases returned
    | @returned _ _ s₁ _ _ kept _ _ =>
        have cleared := kept.clearCache
        have known : s₁.clearCache.accountStartNonce ≠ BitVec.allOnes 256 :=
          (sane.leave cleared .jit (b := { q.block with state := s₁.clearCache }) rfl
            sane.uncommitted).known
        have second := node.stateExecute_ends p collisionFree empty .interpreter q.block.envInfo
          t.toExecTransaction
          cleared.sound cleared.coded known
        dsimp only at returned
        generalize node.stateExecute .interpreter q.db q.block.envInfo t.toExecTransaction p
          s₁.clearCache = y
          at second returned
        cases second with
        | exit => cases returned
        | full => cases returned
        | unpaid => cases returned
        | @returned _ receipt s₂ _ _ later root _ =>
            cases returned
            refine ⟨rfl, receipt, ?_, ?_⟩
            · rw [root]
              exact congrArg node.rootHash cleared.trie
            · dsimp only
              split
              · rfl
              · rfl

theorem returned_of_answer {o : BlockOutcome Root} {first : Option ExecutionResult}
    (answer : o.answer = some first) (left : o.leaves = some q') (result : first ≠ none) :
    ∃ res, o = .returned res q' := by
  cases o with
  | exit => cases answer
  | threw q₁ =>
      cases answer
      exact absurd rfl result
  | returned res q₁ =>
      cases left
      exact ⟨res, rfl⟩

theorem executeAll_dual_receipts {calls : List HashedTransaction}
    {results : List (Option ExecutionResult)} (collisionFree : Function.Injective C.sha3)
    (empty : C.sha3 [] = EmptySHA3) (sane : q.Sane C) (dual : q.kind = .dual)
    (other : p ≠ .committed) (ran : node.executeAll p q calls = some (results, q'))
    (all : ∀ r ∈ results, r ≠ none) :
    q'.block.receipts = q.block.receipts := by
  induction calls generalizing q results with
  | nil =>
      cases ran
      rfl
  | cons t calls ih =>
      rcases executeAll_cons ran with ⟨first, q₁, rest, answer, left, later, rfl⟩
      rcases returned_of_answer answer left (all first List.mem_cons_self) with ⟨res, returned⟩
      rcases execute_dual_returned collisionFree empty sane dual returned with
        ⟨dual₁, receipt, -, receipts⟩
      rw [if_neg other] at receipts
      exact (ih (sane.execute collisionFree empty left) dual₁ later fun r member =>
        all r (List.mem_cons_of_mem _ member)).trans receipts

end Steps

/-- With both VMs a block has what it has with the interpreter if nothing is kept of the calls, or
the first is refused, or there is one transaction, to be committed. Where no call throws and the
first moves the state root, that is so only then. -/
theorem dual_same_block (C : Crypto) (collisionFree : Function.Injective C.sha3)
    (empty : C.sha3 [] = EmptySHA3) (node : Node C Root) (one : node.jitVM = node.interpreterVM)
    (q : Process Root) (populated : Populated C q) (kind : q.kind = .interpreter) (p : Permanence)
    (calls : List HashedTransaction) :
    (Transparent node p q calls → Option.Rel (fun x y => x.1 = y.1 ∧ SameBlock node x.2 y.2)
      (node.executeAll p q calls) (node.executeAll p { q with kind := .dual } calls)) ∧
    (Function.Injective node.rootHash → p ≠ .dry → ∀ results q₁ results' q₁',
      node.executeAll p q calls = some (results, q₁) →
        node.executeAll p { q with kind := .dual } calls = some (results', q₁') →
          (∀ r ∈ results', r ≠ none) →
          (∀ t ∈ calls.head?, ∀ res q₂, node.execute { q with kind := .dual } t p =
            .returned res q₂ →
            q₂.block.state.trie ≠ q.block.state.trie) →
              SameBlock node q₁ q₁' → Transparent node p q calls) := by
  have sane := populated.sane
  have clean : q.block.state.Clean := by
    rcases populated.opened with ⟨trie, nonce, engine, state, -, -⟩
    rw [state]
    nofun
  constructor
  · intro transparent
    exact transparent.sameBlock collisionFree empty one sane clean kind
  · intro injective kept results q₁ results' q₁' ran ran' all moves same
    have sane' : Process.Sane C ({ q with kind := .dual } : Process Root) :=
      ⟨sane.sound, sane.coded, sane.known, sane.uncommitted⟩
    cases calls with
    | nil => trivial
    | cons t calls =>
        rcases executeAll_cons ran' with ⟨first, q₂, rest, answer, left, later, rfl⟩
        rcases returned_of_answer answer left (all first List.mem_cons_self) with ⟨res, returned⟩
        rcases execute_dual_returned collisionFree empty sane' rfl returned with
          ⟨dual, receipt, root, receipts⟩
        have all₂ : ∀ r ∈ rest, r ≠ none := fun r member => all r (List.mem_cons_of_mem _ member)
        have sane₂ := sane'.execute collisionFree empty left
        cases p with
        | reverted => exact .inl rfl
        | dry => exact absurd rfl kept
        | onlyReceipt =>
            -- the interpreter has a receipt of the first call
            rcases executeAll_cons ran with ⟨_, u, _, -, left₁, later₁, -⟩
            have none := executeAll_dual_receipts (p := .onlyReceipt) collisionFree empty sane₂ dual
              nofun later all₂
            have added := sane.first_receipt collisionFree empty one clean kind returned left₁
            have kept := (executeAll_receipts later₁).length_le
            rw [← same.receipts, none, receipts, if_neg nofun] at kept
            change u.block.receipts.length ≤ q.block.receipts.length at kept
            omega
        | committed =>
            cases calls with
            | nil => exact .inr (.inr ⟨rfl, rfl⟩)
            | cons t₂ calls =>
                rcases executeAll_cons later with ⟨second, q₃, rest₃, answer₂, left₂, later₂, rfl⟩
                rcases returned_of_answer answer₂ left₂ (all₂ second List.mem_cons_self) with
                  ⟨res₂, returned₂⟩
                rcases execute_dual_returned collisionFree empty sane₂ dual returned₂ with
                  ⟨-, receipt₂, root₂, receipts₂⟩
                have single : q.kind ≠ .dual := by
                  rw [kind]
                  nofun
                rcases executeAll_single_roots collisionFree empty sane single ran with
                  ⟨pushed, total, roots⟩
                have kept := executeAll_receipts later₂
                rw [receipts₂, if_pos rfl, receipts, if_pos rfl, same.receipts, total,
                  List.append_assoc, List.prefix_append_right_inj] at kept
                have found : receipt₂ ∈ pushed :=
                  kept.subset (List.mem_append_right _ List.mem_cons_self)
                have moved := moves t rfl res q₂ returned
                exact absurd (injective (root₂.symm.trans (roots receipt₂ found))) moved

/-- Payments that are called only, on the block of the contract that fails. -/
theorem dual_same_block_payments : Option.Rel (fun x y => x.1 = y.1 ∧ SameBlock failingNode x.2 y.2)
    (failingNode.executeAll .reverted (deployedBlock .interpreter)
      [hashedPayment 3 4, hashedPayment 2 4])
    (failingNode.executeAll .reverted (deployedBlock .dual)
      [hashedPayment 3 4, hashedPayment 2 4]) :=
  (dual_same_block emptyAware emptyAware_injective rfl failingNode rfl (deployedBlock .interpreter)
    (deployedBlock_populated .interpreter) rfl .reverted [hashedPayment 3 4, hashedPayment 2 4]).1
    (.inl rfl)

/-- With both VMs there is no receipt if only receipts are kept. -/
theorem dual_loses_receipts :
    ¬ ∀ (p : Permanence) (calls : List HashedTransaction), p ≠ .dry →
      Option.Rel (fun x y => x.1 = y.1 ∧ SameBlock failingNode x.2 y.2)
        (failingNode.executeAll p (deployedBlock .interpreter) calls)
        (failingNode.executeAll p (deployedBlock .dual) calls) := by
  intro sameBlocks
  have both := sameBlocks .onlyReceipt [hashedPayment 3 4] nofun
  have counts : ((failingNode.executeAll .onlyReceipt (deployedBlock .interpreter)
    [hashedPayment 3 4]).map
        fun x => x.2.block.receipts.length) = some 1 ∧
      ((failingNode.executeAll .onlyReceipt (deployedBlock .dual) [hashedPayment 3 4]).map
        fun x => x.2.block.receipts.length) = some 0 := by
    decide +kernel
  generalize failingNode.executeAll .onlyReceipt (deployedBlock .interpreter) [hashedPayment 3 4] =
    x at both counts
  generalize failingNode.executeAll .onlyReceipt (deployedBlock .dual) [hashedPayment 3 4] =
    y at both counts
  cases both with
  | none => cases counts.1
  | @some x y same =>
      have one : x.2.block.receipts.length = 1 := Option.some.inj counts.1
      have none : y.2.block.receipts.length = 0 := Option.some.inj counts.2
      rw [same.2.receipts, one] at none
      cases none

end Accounts

end UtispaceChain
