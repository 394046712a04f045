import UtispaceChain.Cv.StateLedger

/-! One `commit` at the end of a block, and a `commit` after each transaction. -/

namespace UtispaceChain

namespace Accounts

open Ledger State

/-- The accounts whose balance or nonce the operation changes. -/
def Op.alters : Op → List Nat
  | .addBalance a _ => [a]
  | .subBalance a value => if value = 0 then [] else [a]
  | .transferBalance sender receiver value => if value = 0 then [receiver] else [sender, receiver]
  | .incNonce a => [a]
  | .setStorage _ _ _ => []
  | .account _ => []
  | .storage _ _ => []

def Ops.alters : Ops → List Nat
  | .done => []
  | .op o rest => o.alters ++ rest.alters
  | .call body _ rest => body.alters ++ rest.alters
  | .create sender newAddress endowment init _ _ rest =>
      sender :: ((Op.transferBalance sender newAddress endowment).alters ++ init.alters) ++
        rest.alters

def State.isDead (a : Nat) (s : State) : Bool := (s.cache a).elim false fun acc => !acc.isAlive

/-- No transaction changes the balance or the nonce of an account that is dead in the cache when the
transaction begins, all being run without a commit in between. -/
def spares : List Tx → State → Bool
  | [], _ => true
  | tx :: txs, s =>
      (tx.body.alters.all fun a => !s.isDead a) && (tx.run s).elim true (spares txs)

/-- Two ledgers agree but for the accounts of `grave`, which the first has as dead ones and the
second does not have alive. -/
structure Alike (grave : Set Nat) (l m : Ledger) : Prop where
  startNonce : m.accountStartNonce = l.accountStartNonce
  holding : ∀ a ∉ grave, m.holding a = l.holding a
  changed : ∀ a ∉ grave, m.isChanged a = true → l.isChanged a = true
  dead : ∀ a ∈ grave, ∃ h, l.holding a = some h ∧ h.isAlive = false
  gone : ∀ a ∈ grave, ∀ h, m.holding a = some h → h.isAlive = false

/-- The logs of two such ledgers, from savepoints on. An account that only the second has unchanged
may be touched in it alone, and what storage a dead account had may differ. -/
inductive Twins (grave : Set Nat) (atL atM : List Change) : List Change → List Change → Prop
  | start : Twins grave atL atM atL atM
  | same {c : Change} {ls ms : List Change} :
      c.address ∉ grave → Twins grave atL atM ls ms → Twins grave atL atM (c :: ls) (c :: ms)
  | buried {a : Nat} {key old old' : U256} {ls ms : List Change} :
      a ∈ grave → Twins grave atL atM ls ms →
      Twins grave atL atM (⟨.storage key old, a⟩ :: ls) (⟨.storage key old', a⟩ :: ms)
  | touched {a : Nat} {ls ms : List Change} :
      Twins grave atL atM ls ms → Twins grave atL atM ls (⟨.touch, a⟩ :: ms)

variable {grave : Set Nat} {l m l' m' : Ledger} {a : Nat} {h h' : Holding} {c : Change}
  {atL atM ls ms : List Change}

theorem Twins.length_le (ht : Twins grave atL atM ls ms) :
    atL.length ≤ ls.length ∧ atM.length ≤ ms.length := by
  induction ht with
  | start => exact ⟨le_rfl, le_rfl⟩
  | same _ _ ih => exact ⟨Nat.le_succ_of_le ih.1, Nat.le_succ_of_le ih.2⟩
  | buried _ _ ih => exact ⟨Nat.le_succ_of_le ih.1, Nat.le_succ_of_le ih.2⟩
  | touched _ ih => exact ⟨ih.1, Nat.le_succ_of_le ih.2⟩

theorem Twins.trans {ls' ms' : List Change} (h₁ : Twins grave atL atM ls ms)
    (h₂ : Twins grave ls ms ls' ms') :
    Twins grave atL atM ls' ms' := by
  induction h₂ with
  | start => exact h₁
  | same hc _ ih => exact .same hc ih
  | buried ha _ ih => exact .buried ha ih
  | touched _ ih => exact .touched ih

namespace Alike

theorem log (hl : Alike grave l m) (ls ms : List Change) :
    Alike grave { l with changeLog := ls } { m with changeLog := ms } :=
  ⟨hl.startNonce, hl.holding, hl.changed, hl.dead, hl.gone⟩

theorem put (hl : Alike grave l m) (ha : a ∉ grave) : Alike grave (l.put a h) (m.put a h) where
  startNonce := hl.startNonce
  holding x hx := by
    by_cases hxa : x = a
    · simp [hxa]
    · rw [put_holding_ne hxa, put_holding_ne hxa]
      exact hl.holding x hx
  changed x hx hm := by
    by_cases hxa : x = a
    · simp [hxa]
    · rw [put_isChanged_ne hxa] at hm ⊢
      exact hl.changed x hx hm
  dead x hx := by
    rw [put_holding_ne (ne_of_mem_of_not_mem hx ha)]
    exact hl.dead x hx
  gone x hx := by
    rw [put_holding_ne (ne_of_mem_of_not_mem hx ha)]
    exact hl.gone x hx

theorem put_left (hl : Alike grave l m) (ha : a ∈ grave) (hh : h.isAlive = false) :
    Alike grave (l.put a h) m where
  startNonce := hl.startNonce
  holding x hx := by
    rw [put_holding_ne (ne_of_mem_of_not_mem ha hx).symm]
    exact hl.holding x hx
  changed x hx hm := by
    rw [put_isChanged_ne (ne_of_mem_of_not_mem ha hx).symm]
    exact hl.changed x hx hm
  dead x hx := by
    by_cases hxa : x = a
    · exact ⟨h, by simp [hxa], hh⟩
    · rw [put_holding_ne hxa]
      exact hl.dead x hx
  gone := hl.gone

theorem put_right (hl : Alike grave l m) (ha : a ∈ grave) (hh : h.isAlive = false) :
    Alike grave l (m.put a h) where
  startNonce := hl.startNonce
  holding x hx := by
    rw [put_holding_ne (ne_of_mem_of_not_mem ha hx).symm]
    exact hl.holding x hx
  changed x hx hm := by
    rw [put_isChanged_ne (ne_of_mem_of_not_mem ha hx).symm] at hm
    exact hl.changed x hx hm
  dead := hl.dead
  gone x hx g hg := by
    by_cases hxa : x = a
    · subst hxa
      rw [put_holding_self] at hg
      cases hg
      exact hh
    · rw [put_holding_ne hxa] at hg
      exact hl.gone x hx g hg

theorem undo (hl : Alike grave l m) (hc : c.address ∉ grave) :
    Alike grave (l.undo c) (m.undo c) := by
  by_cases h₁ : c.kind = .create
  · simp only [Ledger.undo, h₁]
    refine ⟨hl.startNonce, fun x hx => ?_, fun x hx hm => ?_, fun x hx => ?_, fun x hx => ?_⟩
    all_goals by_cases hxc : x = c.address
    · simp [hxc]
    · simpa [hxc] using hl.holding x hx
    · simp [hxc] at hm
    · simp only [ne_eq, hxc, not_false_eq_true, Function.update_of_ne] at hm ⊢
      exact hl.changed x hx hm
    · exact absurd (hxc ▸ hx) hc
    · simpa [hxc] using hl.dead x hx
    · exact absurd (hxc ▸ hx) hc
    · simpa [hxc] using hl.gone x hx
  · by_cases h₂ : c.kind = .touch
    · simp only [Ledger.undo, h₂]
      refine ⟨hl.startNonce, hl.holding, fun x hx hm => ?_, hl.dead, hl.gone⟩
      by_cases hxc : x = c.address
      · simp [hxc] at hm
      · simp only [ne_eq, hxc, not_false_eq_true, Function.update_of_ne] at hm ⊢
        exact hl.changed x hx hm
    · rw [undo_of_kind h₁ h₂, undo_of_kind h₁ h₂, hl.holding _ hc]
      exact hl.put hc

theorem getD_gone (hl : Alike grave l m) (ha : a ∈ grave) :
    ((m.holding a).getD .dead).isAlive = false := by
  cases hm : m.holding a with
  | none => rfl
  | some h => exact hl.gone a ha h hm

theorem getD_dead (hl : Alike grave l m) (ha : a ∈ grave) :
    ((l.holding a).getD .dead).isAlive = false := by
  obtain ⟨h, hh, hd⟩ := hl.dead a ha
  simp [hh, hd]

theorem undo_touch (hl : Alike grave l m) : Alike grave l (m.undo ⟨.touch, a⟩) := by
  refine ⟨hl.startNonce, hl.holding, fun x hx hm => hl.changed x hx ?_, hl.dead, hl.gone⟩
  by_cases hxa : x = a
  · simp [Ledger.undo, hxa] at hm
  · simpa [Ledger.undo, hxa] using hm

theorem rollbackFrom (hl : Alike grave l m) (ht : Twins grave atL atM ls ms) :
    Alike grave (l.rollbackFrom atL.length ls) (m.rollbackFrom atM.length ms) ∧
      (l.rollbackFrom atL.length ls).changeLog = atL ∧
      (m.rollbackFrom atM.length ms).changeLog = atM := by
  have stop : ∀ (n : Ledger) (at' : List Change),
      n.rollbackFrom at'.length at' = { n with changeLog := at' } := by
    intro n at'
    cases at' <;> simp [Ledger.rollbackFrom]
  have go : ∀ (n : Ledger) (at' older : List Change) (c : Change), at'.length ≤ older.length →
      n.rollbackFrom at'.length (c :: older) = (n.undo c).rollbackFrom at'.length older := by
    intro n at' older c hlen
    simp only [Ledger.rollbackFrom]
    rw [if_neg (by omega)]
  induction ht generalizing l m with
  | start =>
      rw [stop, stop]
      exact ⟨hl.log _ _, rfl, rfl⟩
  | same hc ht ih =>
      rw [go _ _ _ _ ht.length_le.1, go _ _ _ _ ht.length_le.2]
      exact ih (hl.undo hc)
  | @buried a key old old' _ _ ha ht ih =>
      rw [go _ _ _ _ ht.length_le.1, go _ _ _ _ ht.length_le.2]
      have left :=
        hl.put_left (h := ((l.holding a).getD .dead).setStorage key old) ha (hl.getD_dead ha)
      exact ih (left.put_right (h := ((m.holding a).getD .dead).setStorage key old') ha
        (hl.getD_gone ha))
  | touched ht ih =>
      rw [go _ _ _ _ ht.length_le.2]
      exact ih hl.undo_touch

end Alike

/-- Two ledgers in one transaction, with what they have noted since their savepoints. -/
def Paired (grave : Set Nat) (atL atM : List Change) (l m : Ledger) : Prop :=
  Alike grave l m ∧ Twins grave atL atM l.changeLog m.changeLog

namespace Paired

variable (hp : Paired grave atL atM l m) {amount value key nonce balance : U256}

include hp

theorem put (ha : a ∉ grave) : Paired grave atL atM (l.put a h) (m.put a h) := ⟨hp.1.put ha, hp.2⟩

theorem note {kind : ChangeKind} (ha : a ∉ grave) :
    Paired grave atL atM (l.note kind a) (m.note kind a) :=
  ⟨hp.1.log _ _, .same ha hp.2⟩

theorem noteTouch (ha : a ∉ grave) : Paired grave atL atM (l.noteTouch a h) (m.noteTouch a h) := by
  have key := hp.1.changed a ha
  unfold Ledger.noteTouch
  cases hm : m.isChanged a with
  | true => simpa [key hm] using hp
  | false =>
      cases he : h.isEmpty with
      | false => simpa using hp
      | true =>
          cases l.isChanged a with
          | false => exact hp.note ha
          | true => exact ⟨hp.1.log l.changeLog _, .touched hp.2⟩

theorem noteBalance (ha : a ∉ grave) :
    Paired grave atL atM (l.noteBalance a amount) (m.noteBalance a amount) := by
  unfold Ledger.noteBalance
  split
  · exact hp
  · exact hp.note ha

theorem createAccount (ha : a ∉ grave) :
    Option.Rel (Paired grave atL atM) (l.createAccount a nonce balance)
      (m.createAccount a nonce balance) := by
  unfold Ledger.createAccount
  rw [hp.1.startNonce]
  split
  · exact .none
  · exact .some ((hp.put ha).note ha)

theorem incNonce (ha : a ∉ grave) :
    Option.Rel (Paired grave atL atM) (l.incNonce a) (m.incNonce a) := by
  unfold Ledger.incNonce
  rw [hp.1.holding a ha, hp.1.startNonce]
  split
  · exact .some ((hp.put ha).note ha)
  · exact hp.createAccount ha

theorem addBalance (ha : a ∉ grave) :
    Option.Rel (Paired grave atL atM) (l.addBalance a amount) (m.addBalance a amount) := by
  unfold Ledger.addBalance
  rw [hp.1.holding a ha, hp.1.startNonce]
  split
  · exact .some (((hp.noteTouch ha).put ha).noteBalance ha)
  · exact rel_map (hp.createAccount ha) fun _ _ _ _ h => h.noteBalance ha

theorem subBalance (ha : value = 0 ∨ a ∉ grave) :
    Option.Rel (Paired grave atL atM) (l.subBalance a value) (m.subBalance a value) := by
  unfold Ledger.subBalance
  split
  · exact .some hp
  case isFalse hv =>
    have ha := ha.resolve_left hv
    rw [hp.1.holding a ha]
    split
    · exact .none
    · split
      · exact .none
      · exact hp.addBalance ha

theorem transferBalance {sender receiver : Nat} (hs : value = 0 ∨ sender ∉ grave)
    (hr : receiver ∉ grave) :
    Option.Rel (Paired grave atL atM) (l.transferBalance sender receiver value)
      (m.transferBalance sender receiver value) :=
  rel_bind (hp.subBalance hs) fun _ _ _ _ h => h.addBalance hr

theorem setStorage :
    Paired grave atL atM (l.setStorage a key value) (m.setStorage a key value) := by
  unfold Ledger.setStorage
  by_cases ha : a ∈ grave
  · have left :=
      hp.1.put_left (h := ((l.holding a).getD .dead).setStorage key value) ha (hp.1.getD_dead ha)
    have both :=
      left.put_right (h := ((m.holding a).getD .dead).setStorage key value) ha (hp.1.getD_gone ha)
    exact ⟨both.log _ _, .buried ha hp.2⟩
  · simp only [Ledger.storage, hp.1.holding a ha]
    exact (hp.note ha).put ha

theorem setNewCode {codeHash : H256} (ha : a ∉ grave) :
    Paired grave atL atM (l.setNewCode a codeHash) (m.setNewCode a codeHash) := by
  unfold Ledger.setNewCode
  rw [hp.1.holding a ha]
  exact (hp.put ha).note ha

theorem extend (h : Paired grave l.changeLog m.changeLog l' m') : Paired grave atL atM l' m' :=
  ⟨h.1, hp.2.trans h.2⟩

theorem rollback (h : Paired grave l.changeLog m.changeLog l' m') :
    Paired grave atL atM (l'.rollback l.changeLog.length) (m'.rollback m.changeLog.length) := by
  obtain ⟨alike, hl, hm⟩ := h.1.rollbackFrom h.2
  refine ⟨alike, ?_⟩
  unfold Ledger.rollback
  rw [hl, hm]
  exact hp.2

theorem kill : Alike grave (l.kill a) (m.kill a) := by
  unfold Ledger.kill
  by_cases ha : a ∈ grave
  · obtain ⟨h, hh, -⟩ := hp.1.dead a ha
    have left := hp.1.put_left (h := .dead) ha rfl
    rw [hh]
    cases m.holding a with
    | none => exact left
    | some _ => exact left.put_right ha rfl
  · rw [hp.1.holding a ha]
    cases l.holding a with
    | none => exact hp.1
    | some _ => exact hp.1.put ha

end Paired

theorem Op.receiver_alters {sender receiver : Nat} {value : U256} :
    receiver ∈ (Op.transferBalance sender receiver value).alters := by
  simp only [alters]
  split <;> simp

theorem Op.onLedger_paired (o : Op) (hp : Paired grave atL atM l m)
    (ho : ∀ a ∈ o.alters, a ∉ grave) :
    Option.Rel (Paired grave atL atM) (o.onLedger l) (o.onLedger m) := by
  cases o with
  | addBalance a amount => exact hp.addBalance (ho a (by simp [alters]))
  | subBalance a value =>
      refine hp.subBalance ?_
      by_cases hv : value = 0
      · exact .inl hv
      · exact .inr (ho a (by simp only [alters, if_neg hv, List.mem_singleton]))
  | transferBalance sender receiver value =>
      refine hp.transferBalance ?_ (ho receiver Op.receiver_alters)
      by_cases hv : value = 0
      · exact .inl hv
      · exact .inr (ho sender (by simp only [alters, if_neg hv, List.mem_cons, true_or]))
  | incNonce a => exact hp.incNonce (ho a (by simp [alters]))
  | setStorage a key value => exact .some hp.setStorage
  | account a => exact .some hp
  | storage a key => exact .some hp

theorem Ops.onLedger_paired (ops : Ops) (hp : Paired grave atL atM l m)
    (ho : ∀ a ∈ ops.alters, a ∉ grave) :
    Option.Rel (Paired grave atL atM) (ops.onLedger l) (ops.onLedger m) := by
  induction ops generalizing l m atL atM with
  | done => exact .some hp
  | op o rest ih =>
      simp only [alters, List.mem_append] at ho
      exact rel_bind (o.onLedger_paired hp fun a ha => ho a (.inl ha)) fun _ _ _ _ h =>
        ih h fun a ha => ho a (.inr ha)
  | call body reverts rest ihb ih =>
      simp only [alters, List.mem_append] at ho
      refine rel_bind (ihb ⟨hp.1, .start⟩ fun a ha => ho a (.inl ha)) fun _ _ _ _ h => ?_
      refine ih ?_ fun a ha => ho a (.inr ha)
      cases reverts with
      | false => exact hp.extend h
      | true => exact hp.rollback h
  | create sender newAddress endowment init code reverts rest ihi ih =>
      simp only [alters, List.mem_append, List.mem_cons] at ho
      refine rel_bind (hp.incNonce (ho sender (.inl (.inl rfl)))) fun l₁ m₁ _ _ h₁ => ?_
      have called := rel_bind
        ((Op.transferBalance sender newAddress endowment).onLedger_paired (⟨h₁.1, .start⟩ :
          Paired grave l₁.changeLog m₁.changeLog l₁ m₁) fun a ha => ho a (.inl (.inr (.inl ha))))
        fun _ _ _ _ h => ihi h fun a ha => ho a (.inl (.inr (.inr ha)))
      refine rel_bind called fun l₃ m₃ _ _ h₃ => ?_
      have new : newAddress ∉ grave := ho newAddress (.inl (.inr (.inl Op.receiver_alters)))
      have h₄ : Paired grave l₁.changeLog m₁.changeLog
        (code.elim l₃ fun code => l₃.setNewCode newAddress code.hash)
          (code.elim m₃ fun code => m₃.setNewCode newAddress code.hash) := by
        cases code with
        | none => exact h₃
        | some code => exact h₃.setNewCode new
      refine ih ?_ fun a ha => ho a (.inr ha)
      cases reverts with
      | false => exact h₁.extend h₄
      | true => exact h₁.rollback h₄

theorem kills_paired (suicides : List Nat) (hl : Alike grave l m) :
    Alike grave (suicides.foldl (fun l a => l.kill a) l)
      (suicides.foldl (fun l a => l.kill a) m) := by
  induction suicides generalizing l m with
  | nil => exact hl
  | cons a suicides ih => exact ih (Paired.kill ⟨hl, .start⟩)

theorem Tx.onLedger_alike (tx : Tx) (hl : Alike grave l m) (ho : ∀ a ∈ tx.body.alters, a ∉ grave) :
    Option.Rel (Alike grave) (tx.onLedger l) (tx.onLedger m) :=
  rel_map (tx.body.onLedger_paired ⟨hl, .start⟩ ho) fun _ _ _ _ h => kills_paired tx.suicides h.1

theorem kill_consistent (hl : l.Consistent) : (l.kill a).Consistent := by
  unfold Ledger.kill
  split
  · exact hl
  · exact consistent_put hl

theorem kills_shows (suicides : List Nat) {s : State} (hs : s.Shows l) (hl : l.Consistent) :
    (suicides.foldl (fun s a => s.kill a) s).Shows (suicides.foldl (fun l a => l.kill a) l) ∧
      (suicides.foldl (fun l a => l.kill a) l).Consistent := by
  induction suicides generalizing s l with
  | nil => exact ⟨hs, hl⟩
  | cons a suicides ih => exact ih (kill_shows hs hl) (kill_consistent hl)

def Ledger.accounts (l : Ledger) (a : Nat) : Option Record := (l.holding a).bind Holding.live

namespace State

structure Sound (s : State) : Prop where
  shows : s.Shows s.ledger
  consistent : s.ledger.Consistent

theorem Shows.sound {s : State} (hs : s.Shows l) (hl : l.Consistent) : s.Sound := by
  obtain rfl := hs.ledger
  exact ⟨hs, hl⟩

variable {s p : State}

theorem opened_sound (trie : Nat → Option Record) (nonce : U256) (engine : Nat → Nat) :
    (opened trie nonce engine).Sound where
  shows := ⟨rfl, by simp [opened]⟩
  consistent := ⟨fun _ _ => rfl, by simp [opened, ledger]⟩

theorem commit_trie (hs : s.Sound) : s.commit.trie = s.ledger.accounts := by
  funext a
  simp only [commit, accounts]
  cases hc : s.cache a with
  | none =>
      rw [ledger_holding_none hc]
      cases s.trie a <;> rfl
  | some acc =>
      rw [ledger_holding_some hc]
      cases hd : acc.isDirty with
      | true => simp [hd, Account.holding, Holding.live]
      | false =>
          have same := hs.consistent.unchanged a (by rw [ledger_isChanged hc, hd])
          rw [ledger_holding_some hc] at same
          obtain ⟨r, hr, e⟩ := Option.map_eq_some_iff.mp same.symm
          have ht : s.trie a = some r := hr
          simp [hd, ht, ← e, Holding.live]

theorem commit_holding (a : Nat) :
    s.commit.ledger.holding a = (s.commit.trie a).map (Holding.mk true) := rfl

theorem commit_sound (hs : s.Sound) : s.commit.Sound where
  shows := by
    refine ⟨rfl, fun a ha => ?_⟩
    have ht : s.commit.trie a = none := by
      rw [commit_trie hs]
      simp only [accounts, Option.bind_eq_none_iff]
      intro h hh
      simp [Holding.live, (hs.shows.missing a ha).2 h hh]
    exact ⟨ht, fun h e => by simp [commit_holding, ht] at e⟩
  consistent := ⟨fun _ _ => rfl, by simp [commit, ledger]⟩

def graves (s : State) : Set Nat := { a | s.isDead a = true }

theorem mem_graves (s : State) (a : Nat) : a ∈ s.graves ↔ ∃ h, s.ledger.holding a = some h ∧
    h.isAlive = false := by
  cases hc : s.cache a with
  | none => cases ht : s.trie a <;> simp [graves, isDead, hc, ledger_holding_none hc, ht]
  | some acc => simp [graves, isDead, hc, ledger_holding_some hc, Account.holding]

theorem alike_of_accounts (hn : p.accountStartNonce = s.accountStartNonce)
    (hp : p.trie = s.ledger.accounts) (hc : ∀ a, p.cache a = none) :
    Alike s.graves s.ledger p.ledger where
  startNonce := hn
  holding a ha := by
    rw [ledger_holding_none (hc a), hp, accounts]
    rw [mem_graves] at ha
    cases hh : s.ledger.holding a with
    | none => rfl
    | some h =>
        have alive : h.isAlive = true := by
          by_contra hd
          exact ha ⟨h, hh, by simpa using hd⟩
        obtain ⟨_, r⟩ := h
        cases alive
        rfl
  changed a _ := by simp [ledger, hc a]
  dead a ha := (mem_graves s a).mp ha
  gone a ha h hh := by
    obtain ⟨g, hg, dead⟩ := (mem_graves s a).mp ha
    rw [ledger_holding_none (hc a), hp, accounts, hg] at hh
    simp [Holding.live, dead] at hh

end State

theorem Alike.accounts (hl : Alike grave l m) : m.accounts = l.accounts := by
  funext a
  unfold Ledger.accounts
  by_cases ha : a ∈ grave
  · obtain ⟨h, hh, hd⟩ := hl.dead a ha
    rw [hh]
    simp only [Option.bind_some, Holding.live, hd, Bool.false_eq_true, if_false,
      Option.bind_eq_none_iff]
    intro g hg
    simp [hl.gone a ha g hg]
  · rw [hl.holding a ha]

theorem Tx.run_shows (tx : Tx) {s : State} (hs : s.Sound) :
    Option.Rel (fun s' l' => s'.Shows l' ∧ l'.Consistent) (tx.run s) (tx.onLedger s.ledger) :=
  rel_map (tx.body.run_shows hs.shows hs.consistent) fun _ _ _ e h =>
    kills_shows tx.suicides h (tx.body.onLedger_undoable hs.consistent e).consistent

theorem rel_square {α β γ δ : Type} {r : α → β → Prop} {q : γ → δ → Prop} {t : β → δ → Prop}
    {x : Option α} {y : Option β} {x' : Option γ} {y' : Option δ} (h₁ : Option.Rel r x y)
    (h₂ : Option.Rel q x' y') (h : Option.Rel t y y') :
    Option.Rel (fun u u' => ∃ v v', r u v ∧ q u' v' ∧ t v v') x x' := by
  cases h <;> cases h₁ <;> cases h₂
  case some.some.some h _ h₁ _ h₂ => exact .some ⟨_, _, h₁, h₂, h⟩
  case none.none.none => exact .none

/-- The two states of a block between transactions, one of which has been committed. -/
structure Even (s p : State) : Prop where
  left : s.Sound
  right : p.Sound
  alike : Alike s.graves s.ledger p.ledger

theorem Even.tx {s p : State} (he : Even s p) (tx : Tx)
    (ho : ∀ a ∈ tx.body.alters, s.isDead a = false) :
    Option.Rel (fun s' p' => Even s' p' ∧ p'.trie = s'.ledger.accounts) (tx.run s)
      ((tx.run p).map commit) := by
  have spared : ∀ a ∈ tx.body.alters, a ∉ s.graves := fun a ha hg => by
    have key : s.isDead a = true := hg
    simp [ho a ha] at key
  have key :=
    rel_square (tx.run_shows he.left) (tx.run_shows he.right) (tx.onLedger_alike he.alike spared)
  have self : (tx.run s).map id = tx.run s := by simp
  rw [← self]
  refine rel_map key fun s' p' _ _ h => ?_
  obtain ⟨l, m, ⟨hs, hl⟩, ⟨hp, hm⟩, alike⟩ := h
  obtain rfl := hs.ledger
  obtain rfl := hp.ledger
  have hs' := hs.sound hl
  have hp' := hp.sound hm
  have trie : p'.commit.trie = s'.ledger.accounts := (commit_trie hp').trans alike.accounts
  exact ⟨⟨hs', commit_sound hp', alike_of_accounts alike.startNonce trie fun _ => rfl⟩, trie⟩

theorem commitOnce_cons (tx : Tx) (txs : List Tx) (s : State) :
    commitOnce (tx :: txs) s = (tx.run s).bind (commitOnce txs) := by
  unfold commitOnce
  rw [List.foldlM_cons]
  cases tx.run s <;> rfl

theorem commitEach_cons (tx : Tx) (txs : List Tx) (s : State) :
    commitEach (tx :: txs) s = ((tx.run s).map commit).bind (commitEach txs) := by
  unfold commitEach
  rw [List.foldlM_cons]
  rfl

theorem Even.block {s p : State} (he : Even s p) (hp : p.trie = s.ledger.accounts) (txs : List Tx)
    (hd : spares txs s = true) :
    Option.Rel (fun s' p' => s'.Sound ∧ s'.trie = p'.trie) (commitOnce txs s)
      (commitEach txs p) := by
  induction txs generalizing s p with
  | nil => exact .some ⟨commit_sound he.left, (commit_trie he.left).trans hp.symm⟩
  | cons tx txs ih =>
      rw [commitOnce_cons, commitEach_cons]
      simp only [spares, Bool.and_eq_true, List.all_eq_true, Bool.not_eq_true'] at hd
      refine rel_bind (he.tx tx hd.1) fun s' p' e _ h => ih h.1 h.2 ?_
      simpa [e] using hd.2

inductive Settled : State → Prop
  | opened (trie : Nat → Option Record) (nonce : U256) (engine : Nat → Nat) : Settled
  (opened trie nonce engine)
  | block {s s' : State} (txs : List Tx) : Settled s → commitOnce txs s = some s' → Settled s'

theorem Tx.runs_sound (txs : List Tx) {s s' : State} (hs : s.Sound)
    (e : txs.foldlM (fun (s : State) (tx : Tx) => tx.run s) s = some s') : s'.Sound := by
  induction txs generalizing s with
  | nil =>
      cases e
      exact hs
  | cons tx txs ih =>
      rw [List.foldlM_cons] at e
      obtain ⟨s₁, e₁, e⟩ := Option.bind_eq_some_iff.mp e
      have ran := tx.run_shows hs
      rw [e₁] at ran
      cases hl : tx.onLedger s.ledger <;> rw [hl] at ran <;> cases ran
      case some h => exact ih (h.1.sound h.2) e

theorem Settled.sound {s : State} (hs : Settled s) : s.Sound ∧ ∀ a, s.cache a = none := by
  induction hs with
  | opened trie nonce engine => exact ⟨opened_sound trie nonce engine, fun _ => rfl⟩
  | block txs _ e ih =>
      obtain ⟨s₁, e₁, rfl⟩ := Option.map_eq_some_iff.mp e
      exact ⟨commit_sound (Tx.runs_sound txs ih.1 e₁), fun _ => rfl⟩

theorem Settled.even {s : State} (hs : Settled s) : Even s s ∧ s.trie = s.ledger.accounts := by
  obtain ⟨sound, cache⟩ := hs.sound
  have trie : s.trie = s.ledger.accounts := by
    funext a
    rw [accounts, ledger_holding_none (cache a)]
    cases s.trie a <;> rfl
  exact ⟨⟨sound, sound, alike_of_accounts rfl trie cache⟩, trie⟩

/-- Where no transaction pays into, spends from or counts up an account that an earlier one has left
dead in the cache, one commit for the block leaves the accounts that a commit after each transaction
does. -/
theorem one_commit_suffices (s : State) (hs : Settled s) (txs : List Tx)
    (hd : spares txs s = true) :
    (commitOnce txs s).map State.trie = (commitEach txs s).map State.trie := by
  obtain ⟨he, ht⟩ := hs.even
  have key := he.block ht txs hd
  generalize commitOnce txs s = once at key
  generalize commitEach txs s = each at key
  cases key with
  | none => rfl
  | some h => simp [h.2]

def twoAccounts : State :=
  opened (fun a => if a = 1 ∨ a = 2 then some ⟨0, 10, fun _ => 0, EmptySHA3⟩ else none) 0 fun i => i

def sparingBlock : List Tx :=
  [⟨.op (.transferBalance 1 3 4) (.create 1 7 1 (.op (.setStorage 7 5 6) .done) none true .done),
    [2]⟩,
    ⟨.op (.incNonce 1)
      (.create 1 8 2 (.op (.setStorage 8 5 6) .done) (some ⟨[0x60], 9⟩) false .done), []⟩]

theorem one_commit_suffices_sparing :
    (Settled twoAccounts ∧ spares sparingBlock twoAccounts = true) ∧
      (commitEach sparingBlock twoAccounts).map (fun s =>
        ((s.trie 2).map Record.balance, (s.trie 3).map Record.balance,
          (s.trie 8).map Record.codeHash)) =
          some (none, some 4, some 9) ∧
      (commitOnce sparingBlock twoAccounts).map State.trie =
        (commitEach sparingBlock twoAccounts).map State.trie := by
  have settled : Settled twoAccounts := .opened _ _ _
  have spared : spares sparingBlock twoAccounts = true := by decide +kernel
  exact ⟨⟨settled, spared⟩, by decide +kernel, one_commit_suffices _ settled _ spared⟩

def revivingBlock : List Tx := [⟨.done, [2]⟩, ⟨.op (.transferBalance 1 2 3) .done, []⟩]

/-- The payment is lost: the dead entry takes it, and is taken out of the trie. -/
theorem revived_account_lost :
    ¬ ∀ (s : State), Settled s → ∀ txs : List Tx,
      (commitOnce txs s).map State.trie = (commitEach txs s).map State.trie := by
  intro sameTrie
  have same := sameTrie twoAccounts (.opened _ _ _) revivingBlock
  have once : (commitOnce revivingBlock twoAccounts).map (fun s => (s.trie 2).map Record.balance) =
      some none := by
    decide +kernel
  have each : (commitEach revivingBlock twoAccounts).map (fun s => (s.trie 2).map Record.balance) =
      some (some 3) := by
    decide +kernel
  have key := congrArg (Option.map fun trie => (trie 2).map Record.balance) same
  simp only [Option.map_map, Function.comp_def] at key
  rw [once, each] at key
  cases key

end Accounts

end UtispaceChain
