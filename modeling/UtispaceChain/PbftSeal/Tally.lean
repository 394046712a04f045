import UtispaceChain.PbftSeal.Micro

/-! One round of votes on one block, as counters.

The triggers of `checkAndCommit` and `checkAndSave` compare counts with the quorum, so
the order in which votes arrive matters only through the counts at each arrival. -/

namespace UtispaceChain

/-- Votes cached for the block, commits we broadcast for it, and calls with it to
`m_onSealGenerated`. -/
@[ext] structure Tally where
  signs : Nat
  commits : Nat
  sent : Nat
  seals : Nat
  deriving DecidableEq, Repr

namespace Tally

variable (q : Nat)

/-- `checkAndSave` -/
def save (t : Tally) : Tally :=
  if q ≤ t.signs ∧ t.commits = q then { t with seals := t.seals + 1 } else t

/-- `checkAndCommit`, with our own commit. -/
def lock (t : Tally) : Tally :=
  if t.signs = q then save q { t with commits := t.commits + 1, sent := t.sent + 1 } else t

def vote (t : Tally) : Packet → Tally
  | .sign _ => lock q { t with signs := t.signs + 1 }
  | .commit _ => save q { t with commits := t.commits + 1 }
  | _ => t

end Tally

def signsOf (packets : List Packet) : List SignReq :=
  packets.filterMap fun
    | .sign req => some req
    | _ => none

def commitsOf (packets : List Packet) : List CommitReq :=
  packets.filterMap fun
    | .commit req => some req
    | _ => none

/-- The commits that arrive before the `n`-th signature. -/
def commitsUntil : Nat → List Packet → Nat
  | 0, _ => 0
  | _ + 1, [] => 0
  | n + 1, .sign _ :: rest => commitsUntil n rest
  | n + 1, .commit _ :: rest => commitsUntil (n + 1) rest + 1
  | n + 1, _ :: rest => commitsUntil (n + 1) rest

section Counts

variable (req : PBFTMsg) (rest : List Packet)

@[simp] theorem signsOf_sign : signsOf (.sign req :: rest) = req :: signsOf rest := rfl

@[simp] theorem signsOf_commit : signsOf (.commit req :: rest) = signsOf rest := rfl

@[simp] theorem commitsOf_sign : commitsOf (.sign req :: rest) = commitsOf rest := rfl

@[simp] theorem commitsOf_commit : commitsOf (.commit req :: rest) = req :: commitsOf rest := rfl

end Counts

theorem commitsUntil_le (n : Nat) (packets : List Packet) :
    commitsUntil n packets ≤ (commitsOf packets).length := by
  induction packets generalizing n with
  | nil => cases n <;> simp [commitsUntil]
  | cons packet rest ih =>
      cases n with
      | zero => simp [commitsUntil]
      | succ n =>
          cases packet with
          | sign req => exact ih n
          | commit req => exact Nat.succ_le_succ (ih (n + 1))
          | prepare req => exact ih (n + 1)
          | viewChange req => exact ih (n + 1)

def Packet.isVote : Packet → Bool
  | .sign _ => true
  | .commit _ => true
  | _ => false

namespace Tally

variable (q : Nat)

/-- A count that goes from `low` to `high` one by one passes `q`. -/
def crossing (low high : Nat) : Nat := if low < q ∧ q ≤ high then 1 else 0

theorem crossing_past (low high : Nat) (past : q ≤ low) : crossing q low high = 0 :=
  if_neg (fun both => by omega)

theorem crossing_next (low high : Nat) (next : low + 1 = q) (far : q ≤ high) :
    crossing q low high = 1 :=
  if_pos ⟨by omega, far⟩

theorem crossing_skip (low high : Nat) (skip : low + 1 ≠ q) :
    crossing q (low + 1) high = crossing q low high := by
  have same : (low + 1 < q ∧ q ≤ high) ↔ (low < q ∧ q ≤ high) := by omega
  unfold crossing
  simp only [same]

/-- Once the signatures are past the quorum nothing is locked any more, and the callback runs
when the commits pass through the quorum. -/
theorem after_quorum (packets : List Packet) (votes : ∀ p ∈ packets, p.isVote = true) (t : Tally)
    (reached : q ≤ t.signs) :
    packets.foldl (vote q) t = {
      signs := t.signs + (signsOf packets).length
      commits := t.commits + (commitsOf packets).length
      sent := t.sent
      seals := t.seals + crossing q t.commits (t.commits + (commitsOf packets).length) } := by
  induction packets generalizing t with
  | nil =>
      have closed : crossing q t.commits t.commits = 0 := if_neg (fun both => by omega)
      simp [signsOf, commitsOf, closed]
  | cons packet rest ih =>
      have others : ∀ p ∈ rest, p.isVote = true := fun p h => votes p (List.mem_cons_of_mem _ h)
      have kind : packet.isVote = true := votes packet List.mem_cons_self
      cases packet with
      | prepare req => cases kind
      | viewChange req => cases kind
      | sign req =>
          have past : t.signs + 1 ≠ q := by omega
          have step : vote q t (.sign req) = { t with signs := t.signs + 1 } := by
            simp [vote, lock, past]
          rw [List.foldl_cons, step, ih others { t with signs := t.signs + 1 }
            (Nat.le_succ_of_le reached)]
          ext
          · simp only [signsOf_sign, List.length_cons]
            omega
          · rfl
          · rfl
          · rfl
      | commit req =>
          rw [List.foldl_cons]
          by_cases last : t.commits + 1 = q
          · have step : vote q t (.commit req) =
                { t with commits := t.commits + 1, seals := t.seals + 1 } := by
              simp [vote, save, reached, last]
            rw [step, ih others { t with commits := t.commits + 1, seals := t.seals + 1 } reached]
            ext <;> simp only [signsOf_commit, commitsOf_commit, List.length_cons]
            · omega
            · rw [crossing_past q (t.commits + 1) _ last.ge,
                crossing_next q t.commits _ last (by omega)]
          · have step : vote q t (.commit req) = { t with commits := t.commits + 1 } := by
              simp [vote, save, last]
            rw [step, ih others { t with commits := t.commits + 1 } reached]
            ext <;> simp only [signsOf_commit, commitsOf_commit, List.length_cons]
            · omega
            · rw [crossing_skip q t.commits _ last, Nat.add_assoc, Nat.add_comm 1]

theorem before_quorum (packets : List Packet) (votes : ∀ p ∈ packets, p.isVote = true) (t : Tally)
    (few : t.signs + (signsOf packets).length < q) :
    packets.foldl (vote q) t = { t with
      signs := t.signs + (signsOf packets).length
      commits := t.commits + (commitsOf packets).length } := by
  induction packets generalizing t with
  | nil => simp [signsOf, commitsOf]
  | cons packet rest ih =>
      have others : ∀ p ∈ rest, p.isVote = true := fun p h => votes p (List.mem_cons_of_mem _ h)
      have kind : packet.isVote = true := votes packet List.mem_cons_self
      cases packet with
      | prepare req => cases kind
      | viewChange req => cases kind
      | sign req =>
          rw [signsOf_sign, List.length_cons] at few
          have short : t.signs + 1 ≠ q := by omega
          have step : vote q t (.sign req) = { t with signs := t.signs + 1 } := by
            simp [vote, lock, short]
          rw [List.foldl_cons, step, ih others { t with signs := t.signs + 1 }
            (show t.signs + 1 + (signsOf rest).length < q by omega)]
          ext <;> simp only [signsOf_sign, commitsOf_sign, List.length_cons]
          omega
      | commit req =>
          rw [signsOf_commit] at few
          have short : ¬ q ≤ t.signs := by omega
          have step : vote q t (.commit req) = { t with commits := t.commits + 1 } := by
            simp [vote, save, short]
          rw [List.foldl_cons, step, ih others { t with commits := t.commits + 1 } few]
          ext <;> simp only [signsOf_commit, commitsOf_commit, List.length_cons]
          omega

/-- Enough signatures from below: our commit goes out once, and the callback runs exactly when
the commits still have to pass through the quorum then. -/
theorem through_quorum (packets : List Packet) (votes : ∀ p ∈ packets, p.isVote = true) (t : Tally)
    (below : t.signs < q) (enough : q ≤ t.signs + (signsOf packets).length) :
    packets.foldl (vote q) t = {
      signs := t.signs + (signsOf packets).length
      commits := t.commits + (commitsOf packets).length + 1
      sent := t.sent + 1
      seals := t.seals + crossing q (t.commits + commitsUntil (q - t.signs) packets)
        (t.commits + (commitsOf packets).length + 1) } := by
  induction packets generalizing t with
  | nil =>
      have missing : q ≤ t.signs := enough
      omega
  | cons packet rest ih =>
      have others : ∀ p ∈ rest, p.isVote = true := fun p h => votes p (List.mem_cons_of_mem _ h)
      have kind : packet.isVote = true := votes packet List.mem_cons_self
      have ahead : q - t.signs = (q - (t.signs + 1)) + 1 := by omega
      cases packet with
      | prepare req => cases kind
      | viewChange req => cases kind
      | sign req =>
          rw [List.foldl_cons]
          rw [signsOf_sign, List.length_cons] at enough
          have shift : commitsUntil (q - t.signs) (.sign req :: rest) =
              commitsUntil (q - (t.signs + 1)) rest := by
            rw [ahead]
            rfl
          by_cases last : t.signs + 1 = q
          · have none : commitsUntil (q - (t.signs + 1)) rest = 0 := by
              rw [last, Nat.sub_self]
              simp [commitsUntil]
            rw [shift, none]
            by_cases full : t.commits + 1 = q
            · have step : vote q t (.sign req) = { t with
                  signs := t.signs + 1, commits := t.commits + 1, sent := t.sent + 1
                  seals := t.seals + 1 } := by
                simp [vote, lock, save, last, full]
              rw [step, after_quorum q rest others { t with
                signs := t.signs + 1, commits := t.commits + 1, sent := t.sent + 1
                seals := t.seals + 1 } (show q ≤ t.signs + 1 by omega)]
              ext <;> simp only [signsOf_sign, commitsOf_sign, List.length_cons]
              · omega
              · omega
              · rw [crossing_past q (t.commits + 1) _ full.ge,
                  crossing_next q (t.commits + 0) _ full (by omega)]
            · have step : vote q t (.sign req) = { t with
                  signs := t.signs + 1, commits := t.commits + 1, sent := t.sent + 1 } := by
                simp [vote, lock, save, last, full]
              rw [step, after_quorum q rest others { t with
                signs := t.signs + 1, commits := t.commits + 1, sent := t.sent + 1 }
                (show q ≤ t.signs + 1 by omega)]
              ext <;> simp only [signsOf_sign, commitsOf_sign, List.length_cons]
              · omega
              · omega
              · rw [crossing_skip q t.commits _ full, Nat.add_right_comm]
                rfl
          · have step : vote q t (.sign req) = { t with signs := t.signs + 1 } := by
              simp [vote, lock, last]
            rw [step, ih others { t with signs := t.signs + 1 } (show t.signs + 1 < q by omega)
              (show q ≤ t.signs + 1 + (signsOf rest).length by omega), shift]
            ext <;> simp only [signsOf_sign, commitsOf_sign, List.length_cons]
            omega
      | commit req =>
          rw [List.foldl_cons]
          rw [signsOf_commit] at enough
          have short : ¬ q ≤ t.signs := by omega
          have step : vote q t (.commit req) = { t with commits := t.commits + 1 } := by
            simp [vote, save, short]
          have shift : commitsUntil (q - t.signs) (.commit req :: rest) =
              commitsUntil (q - t.signs) rest + 1 := by
            rw [ahead]
            rfl
          rw [step, ih others { t with commits := t.commits + 1 } below enough, shift]
          ext <;> simp only [signsOf_commit, commitsOf_commit, List.length_cons]
          · omega
          · rw [Nat.add_right_comm t.commits 1, Nat.add_right_comm t.commits 1]
            rfl

/-- The proposal arrives after `signs` and `commits` votes, and `packets` follow. -/
def round (signs commits : Nat) (packets : List Packet) (t : Tally) : Tally :=
  packets.foldl (vote q)
    (lock q { t with signs := t.signs + signs + 1, commits := t.commits + commits })

/-- The signatures complete a quorum, and our commit has gone out; the commits do too, and the
callback has run once. -/
def Fires (before after : Tally) : Prop :=
  (q ≤ after.signs → after.sent = before.sent + 1) ∧
    (q ≤ after.signs → q ≤ after.commits → after.seals = before.seals + 1)

theorem round_fires (signs commits : Nat) (packets : List Packet)
    (votes : ∀ p ∈ packets, p.isVote = true) (t : Tally) (noSign : t.signs = 0)
    (noCommit : t.commits = 0) :
    Fires q t (round q signs commits packets t) ↔
      signs < q ∧ (q ≤ signs + 1 + (signsOf packets).length →
        commits + commitsUntil (q - 1 - signs) packets < q) := by
  unfold round Fires
  rw [noSign, noCommit, Nat.zero_add, Nat.zero_add]
  rcases Nat.lt_trichotomy (signs + 1) q with below | last | past
  · have waits : lock q { t with signs := signs + 1, commits := commits } =
        { t with signs := signs + 1, commits := commits } :=
      if_neg (fun equal => absurd (show signs + 1 = q from equal) (by omega))
    rw [waits]
    by_cases enough : q ≤ signs + 1 + (signsOf packets).length
    · rw [through_quorum q packets votes { t with signs := signs + 1, commits := commits }
        below enough]
      have shift : q - (signs + 1) = q - 1 - signs := by omega
      simp only [crossing, shift]
      constructor
      · rintro ⟨-, once⟩
        refine ⟨by omega, fun _ => ?_⟩
        by_contra late
        have total : q ≤ commits + (commitsOf packets).length + 1 := by
          have := commitsUntil_le (q - 1 - signs) packets
          omega
        have fired := once enough total
        rw [if_neg (fun both => late both.1)] at fired
        omega
      · rintro ⟨-, early⟩
        refine ⟨fun _ => trivial, fun _ total => ?_⟩
        rw [if_pos ⟨early enough, total⟩]
    · rw [before_quorum q packets votes { t with signs := signs + 1, commits := commits }
        (show signs + 1 + (signsOf packets).length < q by omega)]
      constructor
      · intro _
        exact ⟨by omega, fun reached => absurd reached enough⟩
      · intro _
        exact ⟨fun reached => absurd reached enough, fun reached => absurd reached enough⟩
  · have zero : q - 1 - signs = 0 := by omega
    have none : commitsUntil 0 packets = 0 := by simp [commitsUntil]
    have locks : lock q { t with signs := signs + 1, commits := commits } =
        save q { t with signs := signs + 1, commits := commits + 1, sent := t.sent + 1 } :=
      if_pos last
    rw [locks, zero, none]
    by_cases full : commits + 1 = q
    · have saves : save q { t with signs := signs + 1, commits := commits + 1, sent := t.sent + 1 }
        =
          { t with signs := signs + 1, commits := commits + 1, sent := t.sent + 1
                   seals := t.seals + 1 } :=
        if_pos ⟨last.ge, full⟩
      rw [saves, after_quorum q packets votes _ last.ge]
      simp only
      rw [crossing_past q (commits + 1) _ full.ge]
      constructor
      · intro _
        exact ⟨by omega, fun _ => by omega⟩
      · intro _
        exact ⟨fun _ => trivial, fun _ _ => rfl⟩
    · have waits : save q { t with signs := signs + 1, commits := commits + 1, sent := t.sent + 1 }
        =
          { t with signs := signs + 1, commits := commits + 1, sent := t.sent + 1 } :=
        if_neg (fun both => full both.2)
      rw [waits, after_quorum q packets votes _ last.ge]
      simp only [crossing]
      constructor
      · rintro ⟨-, once⟩
        refine ⟨by omega, fun _ => ?_⟩
        by_contra late
        have fired := once (by omega) (by omega)
        rw [if_neg (fun both => by omega)] at fired
        omega
      · rintro ⟨-, early⟩
        refine ⟨fun _ => trivial, fun _ total => ?_⟩
        rw [if_pos ⟨by have := early (by omega); omega, total⟩]
  · have skips : lock q { t with signs := signs + 1, commits := commits } =
        { t with signs := signs + 1, commits := commits } :=
      if_neg (fun equal => absurd (show signs + 1 = q from equal) (by omega))
    rw [skips, after_quorum q packets votes { t with signs := signs + 1, commits := commits }
      (show q ≤ signs + 1 by omega)]
    constructor
    · rintro ⟨sent, -⟩
      have more : t.sent = t.sent + 1 :=
        sent (show q ≤ signs + 1 + (signsOf packets).length by omega)
      omega
    · rintro ⟨few, -⟩
      omega

end Tally

end UtispaceChain
