import Mathlib.Data.List.Destutter
import Mathlib.Data.List.TakeWhile
import UtispaceChain.P2p.NodeTable

/-! What holds of the buckets of a node table, over all that happens to it. -/

namespace UtispaceChain.P2p

namespace NodeTable

variable {c : NodeTableParams} {s s' s'' : NodeTable} {n m : Nat}

def bucket (s : NodeTable) (i : Nat) : List Nat := s.m_state.getD i []

/-- The entry that `noteActiveNode` goes on with. -/
def takes (c : NodeTableParams) (pubk : NodeID) (endpoint : UdpEndpoint) (s : NodeTable) :
    Option Nat :=
  if pubk = s.m_node.id ∨
  (NodeIPEndpoint.mk endpoint.address endpoint.port endpoint.port).isAllowed c = false then none
  else (s.m_nodes pubk).filter fun n => !(s.entry n).pending

structure Sound (c : NodeTableParams) (s : NodeTable) : Prop where
  bins : s.m_state.length = s_bins
  bounded : ∀ i, (s.bucket i).length ≤ s_bucketSize
  distinct : ∀ i, (s.bucket i).Nodup
  placed : ∀ i n, n ∈ s.bucket i → n < s.entries.length ∧ (s.entry n).distance = i + 1
  distances : ∀ n < s.entries.length, (s.entry n).distance = c.distance s.m_node.id (s.entry n).id
  known : ∀ id n, s.m_nodes id = some n → n < s.entries.length ∧ (s.entry n).id = id
  evictions : ∀ e ∈ s.m_evictions, 0 < c.distance s.m_node.id e.new

def NothingBehind (s : NodeTable) (n : Nat) : Prop :=
  ∀ m ∈ ((s.bucket ((s.entry n).distance - 1)).dropWhile fun m => m ≠ n).tail, s.alive m = false

/-- The entries that `noteActiveNode` leaves in the bucket of this one. -/
def kept (s : NodeTable) (n : Nat) : List Nat :=
  ((s.bucket ((s.entry n).distance - 1)).takeWhile fun m => m ≠ n).filter s.alive

/-! Distances and bucket indices -/

theorem distance_lt (c : NodeTableParams) (a b : NodeID) : c.distance a b < 256 := by
  rw [NodeTableParams.distance]
  by_cases zero : (c.sha3 a ^^^ c.sha3 b).toNat = 0
  · rw [zero]
    decide
  · exact (Nat.log2_lt zero).mpr (c.sha3 a ^^^ c.sha3 b).isLt

theorem Sound.distance_lt (sound : Sound c s) (n : Nat) : (s.entry n).distance < 256 := by
  by_cases inside : n < s.entries.length
  · rw [sound.distances n inside]
    exact NodeTable.distance_lt _ _ _
  · rw [entry, List.getD_eq_getElem?_getD, List.getElem?_eq_none (Nat.le_of_not_lt inside)]
    decide

theorem inside_of_positive (positive : 0 < (s.entry n).distance) : n < s.entries.length := by
  by_contra outside
  rw [entry, List.getD_eq_getElem?_getD, List.getElem?_eq_none (Nat.le_of_not_lt outside)]
    at positive
  exact absurd positive (by decide)

theorem bucketIndex_eq (small : (s.entry n).distance < 256) (positive : 0 < (s.entry n).distance) :
    s.bucketIndex n = (s.entry n).distance - 1 := by
  rw [bucketIndex]
  omega

theorem bucket_UNSAFE_eq (sound : Sound c s) (positive : 0 < (s.entry n).distance) :
    s.bucket_UNSAFE n = some (s.bucket ((s.entry n).distance - 1)) := by
  have small := sound.distance_lt n
  have inside : (s.entry n).distance - 1 < s.m_state.length := by
    rw [sound.bins, s_bins]
    omega
  rw [bucket_UNSAFE, bucketIndex_eq small positive, bucket, List.getD_eq_getElem?_getD,
    List.getElem?_eq_getElem inside, Option.getD_some]

theorem bucket_setBucket (sound : Sound c s) (positive : 0 < (s.entry n).distance)
    (nodes : List Nat) (i : Nat) :
    (s.setBucket n nodes).bucket i = if i = (s.entry n).distance - 1 then nodes
      else s.bucket i := by
  have small := sound.distance_lt n
  have inside : (s.entry n).distance - 1 < s.m_state.length := by
    rw [sound.bins, s_bins]
    omega
  simp only [bucket, setBucket, bucketIndex_eq small positive, List.getD_eq_getElem?_getD,
    List.getElem?_set]
  by_cases here : i = (s.entry n).distance - 1
  · rw [if_pos here.symm, if_pos inside, if_pos here, Option.getD_some]
  · rw [if_neg (Ne.symm here), if_neg here]

theorem Sound.not_mem (sound : Sound c s) {i : Nat} (other : i ≠ (s.entry n).distance - 1) :
    n ∉ s.bucket i := by
  intro member
  have index := (sound.placed i n member).2
  omega

/-! Changes outside the buckets -/

theorem entry_modifyEntry {β : Type} (field : NodeEntry → β) {f : NodeEntry → NodeEntry}
    (same : ∀ entry, field (f entry) = field entry) (s : NodeTable) (n m : Nat) :
    field ((s.modifyEntry n f).entry m) = field (s.entry m) := by
  simp only [entry, modifyEntry, List.getD_eq_getElem?_getD, List.getElem?_modify]
  cases s.entries[m]? with
  | none => rfl
  | some entry =>
      simp only [Option.map_eq_map, Option.map_some, Option.getD_some]
      split_ifs
      · exact same entry
      · rfl

/-- The buckets and events are as they were, and each entry keeps its identity and distance. -/
structure Frame (c : NodeTableParams) (s s' : NodeTable) : Prop where
  own : s'.m_node.id = s.m_node.id
  state : s'.m_state = s.m_state
  events : s'.events = s.events
  evictions : ∀ e ∈ s'.m_evictions, e ∈ s.m_evictions
  length : s.entries.length ≤ s'.entries.length
  entries : ∀ n < s.entries.length, (s'.entry n).id = (s.entry n).id ∧
    (s'.entry n).distance = (s.entry n).distance
  fresh : ∀ n, s.entries.length ≤ n → n < s'.entries.length →
    (s'.entry n).distance = c.distance s.m_node.id (s'.entry n).id
  known : (∀ id n, s.m_nodes id = some n → n < s.entries.length ∧ (s.entry n).id = id) →
    ∀ id n, s'.m_nodes id = some n → n < s'.entries.length ∧ (s'.entry n).id = id

theorem Frame.of_eq (own : s'.m_node.id = s.m_node.id) (state : s'.m_state = s.m_state)
    (events : s'.events = s.events) (evictions : ∀ e ∈ s'.m_evictions, e ∈ s.m_evictions)
    (entries : s'.entries = s.entries) (nodes : s'.m_nodes = s.m_nodes) : Frame c s s' := by
  have same : ∀ n, s'.entry n = s.entry n := fun n => by rw [entry, entry, entries]
  exact ⟨own, state, events, evictions, Nat.le_of_eq (congrArg List.length entries).symm,
    fun n _ => ⟨by rw [same], by rw [same]⟩,
    fun n old new => absurd new (Nat.not_lt.mpr (by rw [entries]; exact old)),
    fun known id n found => by
      rw [nodes] at found
      rw [entries, same]
      exact known id n found⟩

theorem Frame.refl (c : NodeTableParams) (s : NodeTable) : Frame c s s :=
  .of_eq rfl rfl rfl (fun _ member => member) rfl rfl

theorem Frame.trans (first : Frame c s s') (second : Frame c s' s'') : Frame c s s'' where
  own := second.own.trans first.own
  state := second.state.trans first.state
  events := second.events.trans first.events
  evictions := fun e member => first.evictions e (second.evictions e member)
  length := Nat.le_trans first.length second.length
  entries := fun n inside =>
    have before := first.entries n inside
    have after := second.entries n (Nat.lt_of_lt_of_le inside first.length)
    ⟨after.1.trans before.1, after.2.trans before.2⟩
  fresh := by
    intro n old new
    by_cases inside : n < s'.entries.length
    · have after := second.entries n inside
      rw [after.1, after.2]
      exact first.fresh n old inside
    · rw [second.fresh n (Nat.le_of_not_lt inside) new, first.own]
  known := fun known => second.known (first.known known)

theorem Frame.bucket (frame : Frame c s s') (i : Nat) : s'.bucket i = s.bucket i := by
  rw [NodeTable.bucket, NodeTable.bucket, frame.state]

theorem Frame.sound (frame : Frame c s s') (sound : Sound c s) : Sound c s' where
  bins := by
    rw [frame.state]
    exact sound.bins
  bounded := fun i => by
    rw [frame.bucket]
    exact sound.bounded i
  distinct := fun i => by
    rw [frame.bucket]
    exact sound.distinct i
  placed := by
    intro i n member
    rw [frame.bucket] at member
    rcases sound.placed i n member with ⟨inside, index⟩
    exact ⟨Nat.lt_of_lt_of_le inside frame.length, (frame.entries n inside).2.trans index⟩
  distances := by
    intro n inside
    rw [frame.own]
    by_cases old : n < s.entries.length
    · rw [(frame.entries n old).1, (frame.entries n old).2]
      exact sound.distances n old
    · exact frame.fresh n (Nat.le_of_not_lt old) inside
  known := frame.known sound.known
  evictions := by
    intro e member
    rw [frame.own]
    exact sound.evictions e (frame.evictions e member)

theorem frame_sent (sent : List (NodeIPEndpoint × DiscoveryPacket)) (s : NodeTable) :
    Frame c s { s with sent } :=
  .of_eq rfl rfl rfl (fun _ member => member) rfl rfl

theorem frame_ping (to_ : NodeIPEndpoint) (s : NodeTable) : Frame c s (s.ping to_) :=
  .of_eq rfl rfl rfl (fun _ member => member) rfl rfl

theorem frame_modifyEntry {f : NodeEntry → NodeEntry} (ids : ∀ entry, (f entry).id = entry.id)
    (distances : ∀ entry, (f entry).distance = entry.distance) (n : Nat) (s : NodeTable) :
    Frame c s (s.modifyEntry n f) where
  own := rfl
  state := rfl
  events := rfl
  evictions := fun _ member => member
  length := Nat.le_of_eq (List.length_modify f s.entries n).symm
  entries :=
    fun m _ => ⟨entry_modifyEntry (fun entry => entry.id) ids s n m,
      entry_modifyEntry NodeEntry.distance distances s n m⟩
  fresh :=
    fun m old new => absurd new
      (Nat.not_lt.mpr (Nat.le_trans (Nat.le_of_eq (List.length_modify f s.entries n)) old))
  known := fun known id m found => by
    rw [show (s.modifyEntry n f).entries.length =
      s.entries.length from List.length_modify f s.entries n,
      entry_modifyEntry (fun entry => entry.id) ids s n m]
    exact known id m found

theorem frame_setPending (n : Nat) (s : NodeTable) : Frame c s (s.setPending n) :=
  frame_modifyEntry (f := fun entry => { entry with pending := false }) (fun _ => rfl)
    (fun _ => rfl) n s

theorem nodes_newEntry (node : Node) (pending : Bool) (s : NodeTable) :
    (s.newEntry c node pending).m_nodes =
      Function.update s.m_nodes node.id (some s.entries.length) := rfl

theorem entry_newEntry (node : Node) (pending : Bool) (s : NodeTable) (n : Nat) :
    (s.newEntry c node pending).entry n =
      if n = s.entries.length then { node with distance := c.distance s.m_node.id node.id, pending }
        else s.entry n := by
  simp only [entry, newEntry, List.getD_eq_getElem?_getD]
  by_cases last : n = s.entries.length
  · rw [if_pos last, last, List.getElem?_concat_length, Option.getD_some]
  · rw [if_neg last]
    by_cases inside : n < s.entries.length
    · rw [List.getElem?_append_left inside]
    · rw [List.getElem?_eq_none (by rw [List.length_append, List.length_singleton]; omega),
        List.getElem?_eq_none (Nat.le_of_not_lt inside)]

theorem frame_newEntry (node : Node) (pending : Bool) (s : NodeTable) :
    Frame c s (s.newEntry c node pending) where
  own := rfl
  state := rfl
  events := rfl
  evictions := fun _ member => member
  length := by
    rw [newEntry, List.length_append]
    exact Nat.le_add_right _ _
  entries := fun n inside => by
    rw [entry_newEntry, if_neg (Nat.ne_of_lt inside)]
    exact ⟨rfl, rfl⟩
  fresh := by
    intro n old new
    have last : n = s.entries.length := by
      rw [newEntry, List.length_append, List.length_singleton] at new
      omega
    rw [entry_newEntry, if_pos last]
  known := by
    intro known id n found
    have grown : (s.newEntry c node pending).entries.length = s.entries.length + 1 :=
      List.length_append
    rw [grown, entry_newEntry]
    by_cases here : id = node.id
    · rw [here, nodes_newEntry, Function.update_self] at found
      cases found
      exact ⟨Nat.lt_succ_self _, by rw [if_pos rfl, here]⟩
    · rw [nodes_newEntry, Function.update_of_ne here] at found
      rcases known id n found with ⟨inside, same⟩
      exact ⟨Nat.lt_succ_of_lt inside, by rw [if_neg (Nat.ne_of_lt inside), same]⟩

theorem frame_addUnknown (node : Node) (s : NodeTable) : Frame c s (s.addUnknown c node) := by
  rw [addUnknown]
  split_ifs
  · exact .refl c s
  · exact .of_eq rfl rfl rfl (fun _ member => member) rfl rfl
  · exact .refl c s
  · exact (frame_newEntry node true s).trans (frame_ping _ _)

theorem frame_addAll (nodes : List Node) (s : NodeTable) :
    Frame c s (nodes.foldl (fun s node => s.addUnknown c node) s) := by
  induction nodes generalizing s with
  | nil => exact .refl c s
  | cons node nodes ih => exact (frame_addUnknown node s).trans (ih _)

/-! An entry that is noted -/

theorem noteActiveNode_eq (now : Nat) (pubk : NodeID) (endpoint : UdpEndpoint) (s : NodeTable) :
    s.noteActiveNode c now pubk endpoint =
      (s.takes c pubk endpoint).elim (some s) fun n => s.noteEntry now n endpoint := by
  rw [noteActiveNode, takes]
  by_cases own : pubk = s.m_node.id
  · rw [if_pos own, if_pos (.inl own), Option.elim_none]
  · cases allowed : (NodeIPEndpoint.mk endpoint.address endpoint.port endpoint.port).isAllowed c
      with
    | false => rw [if_neg own, if_pos (by rfl), if_pos (.inr rfl), Option.elim_none]
    | true =>
        rw [if_neg own, if_neg (by decide), if_neg (by simp [own])]
        cases s.m_nodes pubk with
        | none => rfl
        | some n =>
            cases pending : (s.entry n).pending with
            | false => simp [Option.filter, pending]
            | true => simp [Option.filter, pending]

theorem removeNoted_eq (n : Nat) (nodes : List Nat) :
    removeNoted n nodes = (nodes.takeWhile fun m => m ≠ n, decide (n ∈ nodes)) := by
  have gone : ∀ kept : List Nat, nodes.foldl (fun sofar m =>
      let removed := sofar.2 || decide (m = n)
      (if removed then sofar.1 else sofar.1 ++ [m], removed)) (kept, true) = (kept, true) := by
    induction nodes with
    | nil => exact fun _ => rfl
    | cons m nodes ih => exact ih
  have start : ∀ kept : List Nat, nodes.foldl (fun sofar m =>
      let removed := sofar.2 || decide (m = n)
      (if removed then sofar.1 else sofar.1 ++ [m], removed)) (kept, false) =
        (kept ++ nodes.takeWhile fun m => m ≠ n, decide (n ∈ nodes)) := by
    induction nodes with
    | nil => exact fun kept => by simp
    | cons m nodes ih =>
        intro kept
        by_cases here : m = n
        · subst here
          have after := gone kept
          simp only [List.foldl_cons, Bool.false_or, Bool.true_or, decide_true, if_true] at after ⊢
          rw [after]
          simp
        · have after := ih (fun kept => by simpa using gone kept) (kept ++ [m])
          simp only [List.foldl_cons, Bool.false_or, decide_eq_false here, Bool.false_eq_true,
            if_false] at after ⊢
          rw [after]
          simp [here, Ne.symm here]
  exact start []

theorem alive_congr (nodes : s'.m_nodes = s.m_nodes) (held : s'.held = s.held)
    (ids : ∀ n, (s'.entry n).id = (s.entry n).id) : s'.alive = s.alive := by
  funext n
  rw [alive, alive, nodes, held, ids]

theorem entry_setBucket (nodes : List Nat) (s : NodeTable) (n m : Nat) :
    (s.setBucket n nodes).entry m = s.entry m := rfl

theorem Sound.setBucket (sound : Sound c s) (positive : 0 < (s.entry n).distance)
    (inside : n < s.entries.length) {nodes : List Nat} (short : nodes.length ≤ s_bucketSize)
    (distinct : nodes.Nodup) (from_ : ∀ m ∈ nodes, m ∈ s.bucket ((s.entry n).distance - 1) ∨
      m = n) : Sound c (s.setBucket n nodes) where
  bins := by
    rw [NodeTable.setBucket, List.length_set]
    exact sound.bins
  bounded := by
    intro i
    rw [bucket_setBucket sound positive]
    split_ifs
    · exact short
    · exact sound.bounded i
  distinct := by
    intro i
    rw [bucket_setBucket sound positive]
    split_ifs
    · exact distinct
    · exact sound.distinct i
  placed := by
    intro i m member
    rw [bucket_setBucket sound positive] at member
    split_ifs at member with here
    · rcases from_ m member with old | rfl
      · exact sound.placed i m (here ▸ old)
      · exact ⟨inside, by rw [entry_setBucket]; omega⟩
    · exact sound.placed i m member
  distances := sound.distances
  known := sound.known
  evictions := sound.evictions

theorem appendEvent_cases (id : NodeID) (event : NodeTableEventType) (s : NodeTable) :
    ∃ new, s.appendEvent id event = { s with events := s.events ++ new } ∧
    ∀ e ∈ new, e = (id, event) := by
  rw [appendEvent]
  split_ifs
  · exact ⟨[(id, event)], rfl, fun e member => List.mem_singleton.mp member⟩
  · exact ⟨[], by simp, fun e member => absurd member List.not_mem_nil⟩

theorem evict_cases (now leastSeen n : Nat) (s : NodeTable) :
    ∃ timeouts checks sent, s.evict now leastSeen n =
      { s with m_evictions := timeouts, evictionChecks := checks, sent } ∧
      ∀ e ∈ timeouts, e ∈ s.m_evictions ∨ e.new = (s.entry n).id := by
  rw [evict]
  by_cases shut : (!s.isOpen) = true
  · rw [if_pos shut]
    exact ⟨s.m_evictions, s.evictionChecks, s.sent, rfl, fun e member => .inl member⟩
  · rw [if_neg shut]
    dsimp only
    generalize waiting : s.m_evictions ++ [⟨(s.entry leastSeen).id, now, (s.entry n).id⟩] = timeouts
    have new : ∀ e ∈ timeouts, e ∈ s.m_evictions ∨ e.new = (s.entry n).id := by
      intro e member
      rw [← waiting] at member
      rcases List.mem_append.mp member with old | last
      · exact .inl old
      · exact .inr (congrArg EvictionTimeout.new (List.mem_singleton.mp last))
    by_cases first : timeouts.length = 1
    · rw [if_pos first]
      exact ⟨timeouts, _, _, rfl, new⟩
    · rw [if_neg first]
      exact ⟨timeouts, _, _, rfl, new⟩

theorem Sound.events (sound : Sound c s) (events : List (NodeID × NodeTableEventType)) :
    Sound c { s with events } :=
  ⟨sound.bins, sound.bounded, sound.distinct, sound.placed, sound.distances, sound.known,
    sound.evictions⟩

/-- What noting an entry does: it comes to stand last, behind the entries that are kept, unless the
bucket is full. -/
structure Noted (c : NodeTableParams) (s : NodeTable) (n : Nat) (s' : NodeTable) : Prop where
  sound : Sound c s'
  alive : s'.alive = s.alive
  ids : ∀ m, (s'.entry m).id = (s.entry m).id
  buckets : ∀ j, s'.bucket j =
    if j = (s.entry n).distance - 1 ∧ (s.kept n).length < s_bucketSize then s.kept n ++ [n]
      else s.bucket j
  added : ∃ new, s'.events = s.events ++ new ∧ ∀ id, (id, .NodeEntryAdded) ∈ new →
    id = (s.entry n).id ∧ ∃ i, n ∈ s'.bucket i

theorem kept_mem (member : m ∈ s.kept n) :
    m ∈ s.bucket ((s.entry n).distance - 1) ∧ m ≠ n ∧ s.alive m = true := by
  rcases List.mem_filter.mp member with ⟨before, live⟩
  have other : decide (m ≠ n) = true := List.mem_takeWhile_imp (p := fun m => decide (m ≠ n)) before
  exact ⟨(List.takeWhile_sublist _).subset before, of_decide_eq_true other, live⟩

theorem kept_sublist (s : NodeTable) (n : Nat) :
    (s.kept n).Sublist (s.bucket ((s.entry n).distance - 1)) :=
  List.filter_sublist.trans (List.takeWhile_sublist _)

theorem kept_full (sound : Sound c s) (full : s_bucketSize ≤ (s.kept n).length) :
    s.kept n = s.bucket ((s.entry n).distance - 1) :=
  (kept_sublist s n).eq_of_length_le (Nat.le_trans (sound.bounded _) full)

theorem noteEntry_spec (sound : Sound c s) (inside : n < s.entries.length)
    (positive : 0 < (s.entry n).distance) (now : Nat) (endpoint : UdpEndpoint) :
    ∃ s', s.noteEntry now n endpoint = some s' ∧ Noted c s n s' := by
  generalize change : (fun entry : NodeEntry =>
    { entry with endpoint :=
      { entry.endpoint with address := endpoint.address, udpPort := endpoint.port } }) = f
  have same : ∀ entry, (f entry).id = entry.id ∧ (f entry).distance = entry.distance :=
    fun entry => change ▸ ⟨rfl, rfl⟩
  generalize moved : s.modifyEntry n f = s₁
  have frame : Frame c s s₁ :=
    moved ▸ frame_modifyEntry (fun entry => (same entry).1) (fun entry => (same entry).2) n s
  have ids : ∀ m, (s₁.entry m).id = (s.entry m).id :=
    fun m => moved ▸ entry_modifyEntry (fun entry => entry.id) (fun entry => (same entry).1) s n m
  have distance : (s₁.entry n).distance = (s.entry n).distance := (frame.entries n inside).2
  have alive : s₁.alive = s.alive := alive_congr (moved ▸ rfl) (moved ▸ rfl) ids
  have sound₁ := frame.sound sound
  have inside₁ : n < s₁.entries.length := Nat.lt_of_lt_of_le inside frame.length
  have positive₁ : 0 < (s₁.entry n).distance := distance.symm ▸ positive
  have bucket : s₁.bucket ((s₁.entry n).distance - 1) = s.bucket ((s.entry n).distance - 1) := by
    rw [distance, frame.bucket]
  have kept_short : (s.kept n).length ≤ s_bucketSize :=
    Nat.le_trans (kept_sublist s n).length_le (sound.bounded _)
  have kept_distinct : (s.kept n).Nodup := (sound.distinct _).sublist (kept_sublist s n)
  have run : s.noteEntry now n endpoint = some (
      if s_bucketSize ≤ (s.kept n).length then
        if s₁.alive ((s.kept n).headD n) then
          (s₁.setBucket n (s.kept n)).evict now ((s.kept n).headD n) n
        else (s₁.setBucket n ((s.kept n).tail ++ [n])).appendEvent (s₁.entry n).id .NodeEntryAdded
      else if n ∈ s.bucket ((s.entry n).distance - 1) then s₁.setBucket n (s.kept n ++ [n])
      else (s₁.setBucket n (s.kept n ++ [n])).appendEvent (s₁.entry n).id .NodeEntryAdded) := by
    simp only [noteEntry, change, moved, bucket_UNSAFE_eq sound₁ positive₁, bucket, Option.map_some,
      removeNoted_eq, alive, decide_eq_true_eq]
    rfl
  by_cases full : s_bucketSize ≤ (s.kept n).length
  · -- the bucket is full of other live entries, so the first of them is contested
    have first : s.alive ((s.kept n).headD n) = true := by
      cases listed : s.kept n with
      | nil =>
          rw [listed] at full
          exact absurd full (by decide)
      | cons m others => exact (kept_mem (listed ▸ List.mem_cons_self)).2.2
    rw [if_pos full, if_pos (by rw [alive]; exact first)] at run
    have set_ : Sound c (s₁.setBucket n (s.kept n)) :=
      sound₁.setBucket positive₁ inside₁ kept_short kept_distinct fun m member =>
        .inl (bucket ▸ (kept_mem member).1)
    rcases evict_cases now ((s.kept n).headD n) n (s₁.setBucket n (s.kept n)) with
      ⟨timeouts, checks, sent, after, new⟩
    rw [after] at run
    refine ⟨_, run, ⟨set_.bins, set_.bounded, set_.distinct, set_.placed, set_.distances,
      set_.known, ?_⟩, alive, ids, ?_, [], by rw [List.append_nil]; exact frame.events,
      fun id member => absurd member List.not_mem_nil⟩
    · intro e member
      rcases new e member with old | same
      · exact sound₁.evictions e old
      · rw [same]
        exact Nat.lt_of_lt_of_eq positive₁ (sound₁.distances n inside₁)
    · intro j
      rw [if_neg fun room => absurd full (Nat.not_le.mpr room.2)]
      have there := bucket_setBucket sound₁ positive₁ (s.kept n) j
      rw [distance, kept_full sound full, frame.bucket] at there
      refine Eq.trans ?_ (there.trans ?_)
      · rw [kept_full sound full]
        rfl
      · split_ifs with here
        · rw [here]
        · rfl
  · -- there is room at the end of the bucket
    have room := Nat.lt_of_not_le full
    rw [if_neg full] at run
    have set_ : Sound c (s₁.setBucket n (s.kept n ++ [n])) := by
      apply sound₁.setBucket positive₁ inside₁
      · rw [List.length_append, List.length_singleton]
        exact room
      · exact List.nodup_append.mpr ⟨kept_distinct, List.nodup_singleton n, by
          intro m member other single
          rw [List.mem_singleton.mp single]
          exact (kept_mem member).2.1⟩
      · intro m member
        rcases List.mem_append.mp member with old | single
        · exact .inl (bucket ▸ (kept_mem old).1)
        · exact .inr (List.mem_singleton.mp single)
    have noted : ∀ new, (∀ e ∈ new, e = ((s₁.entry n).id, NodeTableEventType.NodeEntryAdded)) →
        Noted c s n { s₁.setBucket n (s.kept n ++ [n]) with events := s₁.events ++ new } := by
      intro new only
      have buckets : ∀ j,
        ({ s₁.setBucket n (s.kept n ++ [n]) with events := s₁.events ++ new }).bucket j =
          if j = (s.entry n).distance - 1 ∧ (s.kept n).length < s_bucketSize then s.kept n ++ [n]
            else s.bucket j := by
        intro j
        have there := bucket_setBucket sound₁ positive₁ (s.kept n ++ [n]) j
        rw [distance, frame.bucket] at there
        simp only [and_iff_left room]
        exact there
      refine ⟨set_.events _, alive, ids, buckets, new, congrArg (· ++ new) frame.events,
        fun id member =>
        ⟨(congrArg Prod.fst (only _ member)).trans (ids n), (s.entry n).distance - 1, ?_⟩⟩
      rw [buckets, if_pos ⟨rfl, room⟩]
      exact List.mem_append_right _ (List.mem_singleton_self n)
    by_cases stood : n ∈ s.bucket ((s.entry n).distance - 1)
    · rw [if_pos stood] at run
      have silent := noted [] fun e member => absurd member List.not_mem_nil
      rw [List.append_nil] at silent
      exact ⟨_, run, silent⟩
    · rw [if_neg stood] at run
      rcases appendEvent_cases (s₁.entry n).id .NodeEntryAdded (s₁.setBucket n (s.kept n ++ [n]))
        with ⟨new, after, only⟩
      rw [after] at run
      exact ⟨_, run, noted new only⟩

theorem kept_eq (sound : Sound c s) (behind : s.NothingBehind n) :
    s.kept n = (s.bucket ((s.entry n).distance - 1)).filter fun m => s.alive m && m ≠ n := by
  rw [NothingBehind] at behind
  rw [kept]
  have distinct := sound.distinct ((s.entry n).distance - 1)
  generalize s.bucket ((s.entry n).distance - 1) = nodes at behind distinct
  induction nodes with
  | nil => rfl
  | cons m nodes ih =>
      rcases List.nodup_cons.mp distinct with ⟨absent, distinct⟩
      by_cases here : m = n
      · subst here
        have dead : nodes.filter (fun k => s.alive k && k ≠ m) = [] := by
          apply List.filter_eq_nil_iff.mpr
          intro k member
          have gone := behind k (by simpa using member)
          simp [gone]
        rw [List.takeWhile_cons_of_neg (by simp), List.filter_cons_of_neg (by simp), dead,
          List.filter_nil]
      · have shorter := ih (by simpa [here] using behind) distinct
        cases live : s.alive m with
        | true => simpa [here, live] using shorter
        | false => simpa [here, live] using shorter

/-! An entry that is dropped -/

/-- The entries that are gone are those dropped, and nothing is added. -/
structure Dropped (c : NodeTableParams) (s : NodeTable) (gone : List Nat) (s' : NodeTable) :
    Prop where
  sound : Sound c s'
  buckets : ∀ i, s'.bucket i = (s.bucket i).filter fun m => m ∉ gone
  events : ∃ new, s'.events = s.events ++ new ∧ ∀ e ∈ new, e.2 = .NodeEntryDropped

theorem Frame.dropped (frame : Frame c s s') (sound : Sound c s) : Dropped c s [] s' where
  sound := frame.sound sound
  buckets := fun i => by
    rw [frame.bucket]
    simp
  events :=
    ⟨[], by rw [frame.events, List.append_nil], fun e member => absurd member List.not_mem_nil⟩

theorem Dropped.trans {gone more : List Nat} (first : Dropped c s gone s')
    (second : Dropped c s' more s'') :
    Dropped c s (gone ++ more) s'' where
  sound := second.sound
  buckets := by
    intro i
    rw [second.buckets, first.buckets, List.filter_filter]
    apply List.filter_congr
    intro m _
    simp [Bool.and_comm]
  events := by
    rcases first.events with ⟨new, before, dropped⟩
    rcases second.events with ⟨later, after, dropped_later⟩
    refine ⟨new ++ later, by rw [after, before, List.append_assoc], ?_⟩
    intro e member
    exact (List.mem_append.mp member).elim (dropped e) (dropped_later e)

theorem Frame.then_drops {gone : List Nat} (frame : Frame c s s') (sound : Sound c s)
    (dropped : Dropped c s' gone s'') :
    Dropped c s gone s'' := (frame.dropped sound).trans dropped

theorem Dropped.then_frame {gone : List Nat} (dropped : Dropped c s gone s')
    (frame : Frame c s' s'') :
    Dropped c s gone s'' := by
  have after := dropped.trans (frame.dropped dropped.sound)
  rw [List.append_nil] at after
  exact after

theorem dropNode_spec (sound : Sound c s) (inside : n < s.entries.length)
    (positive : 0 < (s.entry n).distance) :
    ∃ s', s.dropNode n = some s' ∧ Dropped c s [n] s' ∧ s'.entries = s.entries := by
  generalize left : (s.bucket ((s.entry n).distance - 1)).filter (fun m => m ≠ n) = nodes
  have set_ : Sound c (s.setBucket n nodes) := by
    apply sound.setBucket positive inside
    · rw [← left]
      exact Nat.le_trans (List.length_filter_le _ _) (sound.bounded _)
    · rw [← left]
      exact (sound.distinct _).filter _
    · intro m member
      rw [← left] at member
      exact .inl (List.mem_of_mem_filter member)
  have buckets : ∀ i, (s.setBucket n nodes).bucket i = (s.bucket i).filter fun m => m ∉ [n] := by
    intro i
    rw [bucket_setBucket sound positive]
    split_ifs with here
    · rw [here, ← left]
      apply List.filter_congr
      intro m _
      simp
    · symm
      apply List.filter_eq_self.mpr
      intro m member
      simp only [List.mem_singleton, decide_eq_true_eq]
      exact fun same => sound.not_mem here (same ▸ member)
  rcases appendEvent_cases (s.entry n).id .NodeEntryDropped (s.setBucket n nodes) with
    ⟨new, after, only⟩
  refine ⟨{ s.setBucket n nodes with events := s.events ++ new }, ?_,
    ⟨set_.events _, buckets, new, rfl, ?_⟩, rfl⟩
  · rw [dropNode, bucket_UNSAFE_eq sound positive, Option.map_some, left]
    exact congrArg some after
  · intro e member
    exact congrArg Prod.snd (only e member)

theorem bucket_UNSAFE_none (bins : s.m_state.length = s_bins) (zero : (s.entry n).distance = 0) :
    s.bucket_UNSAFE n = none := by
  rw [bucket_UNSAFE, bucketIndex, zero, List.getElem?_eq_none]
  rw [bins]
  decide

theorem noteEntry_none (sound : Sound c s) (zero : (s.entry n).distance = 0) (now : Nat)
    (endpoint : UdpEndpoint) :
    s.noteEntry now n endpoint = none := by
  generalize change : (fun entry : NodeEntry =>
    { entry with endpoint :=
      { entry.endpoint with address := endpoint.address, udpPort := endpoint.port } }) = f
  have same : ∀ entry, (f entry).distance = entry.distance := fun entry => change ▸ rfl
  have outside : (s.modifyEntry n f).bucket_UNSAFE n = none :=
    bucket_UNSAFE_none sound.bins ((entry_modifyEntry NodeEntry.distance same s n n).trans zero)
  simp only [noteEntry, change, outside, Option.map_none]

theorem dropAll_spec (drop : List Nat) (sound : Sound c s)
    (good : ∀ n ∈ drop, n < s.entries.length ∧ 0 < (s.entry n).distance) :
    ∃ s', drop.foldlM (fun (s : NodeTable) n => s.dropNode n) s = some s' ∧
    Dropped c s drop s' := by
  induction drop generalizing s with
  | nil => exact ⟨s, rfl, (Frame.refl c s).dropped sound⟩
  | cons n drop ih =>
      rcases good n List.mem_cons_self with ⟨inside, positive⟩
      rcases dropNode_spec sound inside positive with ⟨s', run, dropped, entries⟩
      have rest : ∀ m ∈ drop, m < s'.entries.length ∧ 0 < (s'.entry m).distance := by
        intro m member
        rw [entry, entries]
        exact good m (List.mem_cons_of_mem n member)
      rcases ih dropped.sound rest with ⟨s'', later, more⟩
      refine ⟨s'', ?_, dropped.trans more⟩
      rw [List.foldlM_cons, run]
      exact later

/-! Buckets that are read -/

theorem mapM_defined {α β : Type} {f : α → Option β} {l : List α}
    (defined : ∀ a ∈ l, ∃ b, f a = some b) :
    ∃ bs, l.mapM f = some bs := by
  induction l with
  | nil => exact ⟨[], rfl⟩
  | cons a l ih =>
      rcases defined a List.mem_cons_self with ⟨b, first⟩
      rcases ih (fun a member => defined a (List.mem_cons_of_mem _ member)) with ⟨bs, rest⟩
      exact ⟨b :: bs, by simp [List.mapM_cons, first, rest]⟩

theorem spread_bounded (steps head tail : Nat) (below : tail < s_bins) :
    ∀ i ∈ spread steps head tail, i < s_bins := by
  induction steps generalizing head tail with
  | zero => exact fun i member => absurd member List.not_mem_nil
  | succ steps ih =>
      intro i member
      rw [spread] at member
      split_ifs at member with going more
      · simp only [List.mem_append, List.mem_cons, List.not_mem_nil, or_false] at member
        rcases member with (rfl | rfl) | later
        · exact going.2
        · exact below
        · exact ih _ _ (Nat.lt_of_le_of_lt (Nat.sub_le _ _) below) i later
      · simp only [List.mem_append, List.mem_cons, List.not_mem_nil, or_false] at member
        rcases member with rfl | later
        · exact going.2
        · exact ih _ _ (Nat.lt_of_le_of_lt (Nat.sub_le _ _) below) i later
      · exact absurd member List.not_mem_nil

theorem bins_bounded (target : NodeID) (s : NodeTable) : ∀ i ∈ bins c s target, i < s_bins := by
  intro i member
  rw [NodeTable.bins] at member
  generalize c.distance s.m_node.id target = head at member
  have below : (if head = 0 then s_bins - 1 else (head - 1) % s_bins) < s_bins := by
    split_ifs
    · decide
    · exact Nat.mod_lt _ (by decide)
  generalize (if head = 0 then s_bins - 1 else (head - 1) % s_bins) = tail at member below
  split_ifs at member
  · exact spread_bounded _ _ _ below i member
  · exact List.mem_range.mp (List.mem_of_mem_drop member)
  · have inside := List.mem_range'_1.mp (List.mem_reverse.mp member)
    omega

theorem nearestNodeEntries_defined (sound : Sound c s) (target : NodeID) :
    ∃ nearest, s.nearestNodeEntries c target = some nearest := by
  have defined : ∀ i ∈ bins c s target, ∃ nodes, s.m_state[i]? = some nodes := by
    intro i member
    have inside : i < s.m_state.length := sound.bins ▸ bins_bounded target s i member
    exact ⟨_, List.getElem?_eq_getElem inside⟩
  rcases mapM_defined defined with ⟨buckets, read⟩
  exact ⟨_, by rw [nearestNodeEntries, read, Option.map_some]⟩

/-! An event up to its call of `noteActiveNode` -/

/-- The entries that an event calls `dropNode` with. -/
def drops (now : Nat) (s : NodeTable) : NodeTableEvent → List Nat
  | .dropNode n => if s.alive n then [n] else []
  | .checkEvictions => if s.evictionChecks = 0 then [] else (s.overdue now).destutter (· ≠ ·)
  | .onReceived ⟨sourceid, _, .pong _⟩ =>
      ((s.awaited now sourceid).bind fun eviction => s.m_nodes eviction.new).toList
  | _ => []

theorem Sound.evicted (sound : Sound c s) {e : EvictionTimeout} (waits : e ∈ s.m_evictions)
    (found : s.m_nodes e.new = some n) :
    n < s.entries.length ∧ 0 < (s.entry n).distance := by
  rcases sound.known _ _ found with ⟨inside, same⟩
  rw [sound.distances n inside, same]
  exact ⟨inside, sound.evictions e waits⟩

theorem overdue_good (sound : Sound c s) (now : Nat) :
    ∀ n ∈ (s.overdue now).destutter (· ≠ ·), n < s.entries.length ∧ 0 < (s.entry n).distance := by
  intro n member
  have late := (List.destutter_sublist (· ≠ ·) (s.overdue now)).subset member
  rcases List.mem_filterMap.mp late with ⟨e, waits, found⟩
  exact sound.evicted (List.mem_of_mem_filter waits) found

theorem doCheckEvictions_spec (sound : Sound c s) (now : Nat) :
    ∃ s', s.doCheckEvictions now = some s' ∧
    Dropped c s ((s.overdue now).destutter (· ≠ ·)) s' := by
  have frame : Frame c s { s with evictionChecks := s.evictionChecks - 1 } :=
    .of_eq rfl rfl rfl (fun _ member => member) rfl rfl
  rcases dropAll_spec _ (frame.sound sound) (overdue_good sound now) with ⟨s', run, dropped⟩
  have after : s.doCheckEvictions now = some (
      if decide (0 < (s.m_evictions.length + 2 ^ 64 - (s.overdue now).length) % 2 ^ 64) then
        { s' with evictionChecks := s'.evictionChecks + 1 }
      else s') := by
    simp only [doCheckEvictions, run, Option.map_some]
  refine ⟨_, after, (frame.then_drops sound dropped).then_frame ?_⟩
  split_ifs
  · exact .of_eq rfl rfl rfl (fun _ member => member) rfl rfl
  · exact .refl c s'

theorem answerPing_spec (sound : Sound c s) (now : Nat) (sourceid : NodeID) (sender : UdpEndpoint) :
    ∃ answered, s.answerPing c now sourceid sender = some answered ∧
      Dropped c s ((s.awaited now sourceid).bind fun eviction => s.m_nodes eviction.new).toList
        (answered.getD s) := by
  rw [answerPing]
  cases waiting : s.awaited now sourceid with
  | some eviction =>
      have waits : eviction ∈ s.m_evictions := List.mem_of_find?_eq_some waiting
      have erased : Frame c s { s with m_evictions := s.m_evictions.erase eviction } :=
        .of_eq rfl rfl rfl (fun e member => List.mem_of_mem_erase member) rfl rfl
      rw [Option.bind_some]
      dsimp only
      cases known : s.m_nodes eviction.new with
      | none =>
          refine ⟨_, rfl, ?_⟩
          dsimp only [Option.map_some, Option.getD_some]
          split
          · exact (erased.trans (frame_setPending _ _)).dropped sound
          · exact erased.dropped sound
      | some n =>
          rcases sound.evicted waits known with ⟨inside, positive⟩
          have same : n < ({ s with m_evictions := s.m_evictions.erase eviction }).entries.length :=
            inside
          rcases dropNode_spec (erased.sound sound) same positive with ⟨s', run, dropped, _⟩
          dsimp only
          rw [run]
          refine ⟨_, rfl, ?_⟩
          dsimp only [Option.map_some, Option.getD_some]
          split
          · exact (erased.then_drops sound dropped).then_frame (frame_setPending _ s')
          · exact erased.then_drops sound dropped
  | none =>
      dsimp only
      cases s.m_nodes sourceid with
      | some n => exact ⟨_, rfl, (frame_setPending n s).dropped sound⟩
      | none =>
          have cleared : Frame c s { s with
              m_pubkDiscoverPings := s.m_pubkDiscoverPings.filter fun address => address ≠
                sender.address } :=
            .of_eq rfl rfl rfl (fun _ member => member) rfl rfl
          dsimp only
          split_ifs
          · exact ⟨_, rfl, (cleared.trans (frame_addUnknown _ _)).dropped sound⟩
          · exact ⟨_, rfl, (Frame.refl c s).dropped sound⟩

theorem receivePong_spec (sound : Sound c s) (now : Nat) (sourceid : NodeID) (sender : UdpEndpoint)
    (destination : NodeIPEndpoint) :
    ∃ received, s.receivePong c now sourceid sender destination = some received ∧
      Dropped c s ((s.awaited now sourceid).bind fun eviction => s.m_nodes eviction.new).toList
        (received.getD s) := by
  rcases answerPing_spec sound now sourceid sender with ⟨answered, run, dropped⟩
  rw [receivePong, run, Option.map_some]
  refine ⟨_, rfl, ?_⟩
  cases answered with
  | none => exact dropped
  | some s' => exact dropped.then_frame (.of_eq rfl rfl rfl (fun _ member => member) rfl rfl)

theorem receive_spec (sound : Sound c s) (now : Nat) (datagram : DiscoveryDatagram) :
    ∃ received, s.receive c now datagram = some received ∧
      Dropped c s (s.drops now (.onReceived datagram)) (received.getD s) := by
  rcases datagram with ⟨sourceid, sender, packet⟩
  cases packet with
  | pong destination => exact receivePong_spec sound now sourceid sender destination
  | neighbours nodes =>
      have cleared : ∀ timeouts, Frame c s { s with m_findNodeTimeout := timeouts } :=
        fun timeouts => .of_eq rfl rfl rfl (fun _ member => member) rfl rfl
      refine ⟨_, rfl, Frame.dropped ?_ sound⟩
      rw [Option.getD_some]
      split_ifs
      · exact (cleared _).trans (frame_addAll nodes _)
      · exact cleared _
  | findNode target =>
      rcases nearestNodeEntries_defined sound target with ⟨nearest, found⟩
      rw [receive]
      dsimp only
      rw [found, Option.map_some]
      exact ⟨_, rfl, Frame.dropped (.of_eq rfl rfl rfl (fun _ member => member) rfl rfl) sound⟩
  | pingNode source =>
      exact ⟨_, rfl, ((frame_addUnknown _ s).trans (frame_sent _ _)).dropped sound⟩

theorem doDiscover_spec (sound : Sound c s) (now : Nat) (target : NodeID) (tried : List Nat) :
    ∃ s', s.doDiscover c now target tried = some s' ∧ Frame c s s' := by
  rw [doDiscover]
  by_cases shut : (!s.isOpen) = true
  · rw [if_pos shut]
    exact ⟨s, rfl, .refl c s⟩
  · rcases nearestNodeEntries_defined sound target with ⟨nearest, found⟩
    rw [if_neg shut, found, Option.map_some]
    exact ⟨_, rfl, .of_eq rfl rfl rfl (fun _ member => member) rfl rfl⟩

theorem prepare_spec (sound : Sound c s) (now : Nat) (event : NodeTableEvent)
    (positive : ∀ n ∈ s.drops now event, 0 < (s.entry n).distance) :
    ∃ s' call, s.prepare c now event = some (s', call) ∧ Dropped c s (s.drops now event) s' := by
  cases event with
  | addNode node known =>
      cases known with
      | true => exact ⟨_, _, rfl, (frame_newEntry node false s).dropped sound⟩
      | false => exact ⟨_, _, rfl, (frame_addUnknown node s).dropped sound⟩
  | noteActiveNode pubk endpoint => exact ⟨_, _, rfl, (Frame.refl c s).dropped sound⟩
  | dropNode n =>
      rw [drops] at positive ⊢
      rw [prepare]
      cases live : s.alive n with
      | false => exact ⟨_, _, rfl, (Frame.refl c s).dropped sound⟩
      | true =>
          rw [live, if_pos rfl] at positive
          have apart := positive n (List.mem_singleton_self n)
          rcases dropNode_spec sound (inside_of_positive apart) apart with ⟨s', run, dropped, _⟩
          rw [if_pos rfl, run, if_pos rfl]
          exact ⟨s', none, rfl, dropped⟩
  | onReceived datagram =>
      rcases receive_spec sound now datagram with ⟨received, run, dropped⟩
      rw [prepare, run, Option.map_some]
      cases received with
      | none => exact ⟨_, _, rfl, dropped⟩
      | some s' => exact ⟨_, _, rfl, dropped⟩
  | checkEvictions =>
      rw [prepare, drops]
      split_ifs
      · exact ⟨_, _, rfl, (Frame.refl c s).dropped sound⟩
      · rcases doCheckEvictions_spec sound now with ⟨s', run, dropped⟩
        rw [run]
        exact ⟨s', none, rfl, dropped⟩
  | discover target tried =>
      rcases doDiscover_spec sound now target tried with ⟨s', run, frame⟩
      rw [prepare, run]
      exact ⟨s', none, rfl, frame.dropped sound⟩
  | hold pointers | socket isOpen | setEventHandler handler =>
      exact ⟨_, _, rfl, Frame.dropped (.of_eq rfl rfl rfl (fun _ member => member) rfl rfl) sound⟩

/-! Whole events -/

def noted (c : NodeTableParams) (now : Nat) (s : NodeTable) (event : NodeTableEvent) : Option Nat :=
  (s.prepare c now event).bind fun (s, call) => call.bind fun (pubk, endpoint) =>
    s.takes c pubk endpoint

/-- What an event does to the buckets: the noted entry comes to stand last, the dropped ones go, and
all others that live keep their order. -/
structure Orderly (c : NodeTableParams) (now : Nat) (s : NodeTable) (event : NodeTableEvent)
    (s' : NodeTable) : Prop where
  others : ∀ i,
    (s'.bucket i).filter (fun m => s'.alive m && m ∉ s.drops now event &&
      s.noted c now event ≠ some m) =
      (s.bucket i).filter fun m => s'.alive m && m ∉ s.drops now event &&
      s.noted c now event ≠ some m
  last : ∀ n i, s.noted c now event = some n → n ∈ s.bucket i → n ∉ s.drops now event →
    (s'.bucket i).getLast? = some n
  added : ∃ new, s'.events = s.events ++ new ∧
    ∀ id, (id, .NodeEntryAdded) ∈ new → ∃ i n, n ∈ s'.bucket i ∧ (s'.entry n).id = id

/-- Every entry to drop has a distance, and one that is noted has too, with nothing live behind
it. -/
def Harmless (c : NodeTableParams) (now : Nat) (s : NodeTable) (event : NodeTableEvent) : Prop :=
  (∀ n ∈ s.drops now event, 0 < (s.entry n).distance) ∧
    ∀ s₁ pubk endpoint n, s.prepare c now event = some (s₁, some (pubk, endpoint)) →
    s₁.takes c pubk endpoint = some n →
      0 < (s₁.entry n).distance ∧ s₁.NothingBehind n

theorem Sound.takes (sound : Sound c s) {pubk : NodeID} {endpoint : UdpEndpoint}
    (taken : s.takes c pubk endpoint = some n) : n < s.entries.length := by
  rw [NodeTable.takes] at taken
  split_ifs at taken
  exact (sound.known pubk n (Option.filter_eq_some_iff.mp taken).1).1

theorem Dropped.orderly {now : Nat} {event : NodeTableEvent}
    (dropped : Dropped c s (s.drops now event) s') (silent : s.noted c now event = none) :
    Orderly c now s event s' where
  others := by
    intro i
    rw [dropped.buckets, List.filter_filter]
    apply List.filter_congr
    intro m _
    cases s'.alive m <;> by_cases gone : m ∈ s.drops now event <;> simp [gone]
  last := fun n i noted => absurd (silent.symm.trans noted) (by simp)
  added := by
    rcases dropped.events with ⟨new, after, only⟩
    exact ⟨new, after, fun id member => absurd (only _ member) (by simp)⟩

theorem Noted.others (sound : Sound c s) (noted : Noted c s n s') (behind : s.NothingBehind n)
    (i : Nat) :
    (s'.bucket i).filter (fun m => s.alive m && m ≠ n) = (s.bucket i).filter fun m => s.alive m &&
    m ≠ n := by
  rw [noted.buckets]
  split_ifs with moved
  · have fixed : (s.kept n).filter (fun m => s.alive m && m ≠ n) = s.kept n := by
      apply List.filter_eq_self.mpr
      intro m member
      rcases kept_mem member with ⟨_, other, live⟩
      simp [live, other]
    rw [List.filter_append, fixed, kept_eq sound behind, moved.1]
    simp
  · rfl

theorem Noted.last (sound : Sound c s) (noted : Noted c s n s') {i : Nat} (stood : n ∈ s.bucket i) :
    (s'.bucket i).getLast? = some n := by
  have here : i = (s.entry n).distance - 1 := by
    by_contra other
    exact sound.not_mem other stood
  have room : (s.kept n).length < s_bucketSize := by
    by_contra full
    have member : n ∈ s.kept n := by
      rw [kept_full sound (Nat.le_of_not_lt full), ← here]
      exact stood
    exact (kept_mem member).2.1 rfl
  rw [noted.buckets, if_pos ⟨here, room⟩, List.getLast?_concat]

theorem Noted.orderly {now : Nat} {event : NodeTableEvent}
    (dropped : Dropped c s (s.drops now event) s') (noted : Noted c s' n s'')
    (taken : s.noted c now event = some n) (behind : s'.NothingBehind n) :
    Orderly c now s event s'' where
  others := by
    intro i
    have same := noted.others dropped.sound behind i
    calc (s''.bucket i).filter (fun m => s''.alive m && m ∉ s.drops now event &&
      s.noted c now event ≠ some m)
        = ((s''.bucket i).filter fun m => s'.alive m && m ≠ n).filter
          (fun m => m ∉ s.drops now event) := by
          rw [List.filter_filter]
          apply List.filter_congr
          intro m _
          rw [noted.alive, taken]
          cases s'.alive m <;> by_cases gone : m ∈ s.drops now event <;> simp [gone, eq_comm]
      _ = ((s'.bucket i).filter fun m => s'.alive m && m ≠ n).filter
        (fun m => m ∉ s.drops now event) := by rw [same]
      _ = (s.bucket i).filter fun m => s''.alive m && m ∉ s.drops now event && s.noted c now event ≠
        some m := by
          rw [dropped.buckets, List.filter_filter, List.filter_filter]
          apply List.filter_congr
          intro m _
          rw [noted.alive, taken]
          cases s'.alive m <;> by_cases gone : m ∈ s.drops now event <;> simp [gone, eq_comm]
  last := by
    intro m i same stood stays
    cases Option.some.inj (taken.symm.trans same)
    apply noted.last dropped.sound
    rw [dropped.buckets]
    exact List.mem_filter.mpr ⟨stood, decide_eq_true stays⟩
  added := by
    rcases dropped.events with ⟨new, before, only⟩
    rcases noted.added with ⟨later, after, member_added⟩
    refine ⟨new ++ later, by rw [after, before, List.append_assoc], ?_⟩
    intro id member
    rcases List.mem_append.mp member with old | added
    · exact absurd (only _ old) (by simp)
    · rcases member_added id added with ⟨rfl, i, there⟩
      exact ⟨i, n, there, noted.ids n⟩

theorem tail_dropWhile {nodes : List Nat} (behind : m ∈ (nodes.dropWhile fun m => m ≠ n).tail) :
    ∃ back, nodes = (nodes.takeWhile fun m => m ≠ n) ++ n :: back ∧ m ∈ back := by
  induction nodes with
  | nil => exact absurd behind List.not_mem_nil
  | cons k nodes ih =>
      by_cases here : k = n
      · subst here
        exact ⟨nodes, by simp, by simpa using behind⟩
      · rcases ih (by simpa [here] using behind) with ⟨back, split, member⟩
        refine ⟨back, ?_, member⟩
        rw [List.takeWhile_cons_of_pos (by simpa using here), List.cons_append, ← split]

theorem Noted.removes (sound : Sound c s) (noted : Noted c s n s')
    (behind : m ∈ ((s.bucket ((s.entry n).distance - 1)).dropWhile fun m => m ≠ n).tail) :
    m ∈ s.bucket ((s.entry n).distance - 1) ∧ m ≠ n ∧ m ∉ s'.bucket ((s.entry n).distance - 1) := by
  rcases tail_dropWhile behind with ⟨back, split, member⟩
  have stood : n ∈ s.bucket ((s.entry n).distance - 1) := by
    rw [split]
    exact List.mem_append_right _ List.mem_cons_self
  have inside : m ∈ s.bucket ((s.entry n).distance - 1) := by
    rw [split]
    exact List.mem_append_right _ (List.mem_cons_of_mem n member)
  have room : (s.kept n).length < s_bucketSize := by
    by_contra full
    exact (kept_mem (kept_full sound (Nat.le_of_not_lt full) ▸ stood)).2.1 rfl
  have distinct := sound.distinct ((s.entry n).distance - 1)
  rw [split] at distinct
  rcases List.nodup_append.mp distinct with ⟨_, distinct_back, apart⟩
  have other : m ≠ n := fun same => (List.nodup_cons.mp distinct_back).1 (same ▸ member)
  refine ⟨inside, other, ?_⟩
  rw [noted.buckets, if_pos ⟨rfl, room⟩]
  intro after
  rcases List.mem_append.mp after with front | last
  · exact apart m (List.mem_of_mem_filter front) m (List.mem_cons_of_mem n member) rfl
  · exact other (List.mem_singleton.mp last)

theorem prepare_none (sound : Sound c s) (now : Nat) (event : NodeTableEvent)
    (dropped : n ∈ s.drops now event) (zero : (s.entry n).distance = 0) :
    s.prepare c now event = none := by
  have evicted : ∀ e ∈ s.m_evictions, s.m_nodes e.new ≠ some n := by
    intro e waits found
    have positive := (sound.evicted waits found).2
    omega
  cases event with
  | dropNode k =>
      rw [drops] at dropped
      split_ifs at dropped with live
      · cases List.mem_singleton.mp dropped
        rw [prepare, if_pos live, dropNode, bucket_UNSAFE_none sound.bins zero]
        rfl
      · exact absurd dropped List.not_mem_nil
  | checkEvictions =>
      rw [drops] at dropped
      split_ifs at dropped
      · exact absurd dropped List.not_mem_nil
      · have positive := (overdue_good sound now n dropped).2
        omega
  | onReceived datagram =>
      rcases datagram with ⟨sourceid, sender, packet⟩
      cases packet with
      | pong destination =>
          rcases Option.bind_eq_some_iff.mp (Option.mem_toList.mp dropped) with ⟨e, waiting, found⟩
          exact absurd found (evicted e (List.mem_of_find?_eq_some waiting))
      | _ => exact absurd dropped List.not_mem_nil
  | _ => exact absurd dropped List.not_mem_nil

theorem step_iff (sound : Sound c s) (now : Nat) (event : NodeTableEvent) :
    (∃ s', s.step c now event = some s' ∧ Sound c s' ∧ Orderly c now s event s') ↔
    Harmless c now s event := by
  constructor
  · rintro ⟨s', run, _, orderly⟩
    have positive : ∀ n ∈ s.drops now event, 0 < (s.entry n).distance := by
      intro n dropped
      by_contra zero
      rw [step, prepare_none sound now event dropped (Nat.eq_zero_of_not_pos zero)] at run
      exact absurd run (by simp)
    refine ⟨positive, ?_⟩
    intro s₁ pubk endpoint n called taken
    rcases prepare_spec sound now event positive with ⟨s₂, call, prepared, dropped⟩
    cases Option.some.inj (prepared.symm.trans called)
    have noting : s₁.noteEntry now n endpoint = some s' := by
      rw [step, called, Option.bind_some] at run
      dsimp only at run
      rw [noteActiveNode_eq, taken] at run
      exact run
    have apart : 0 < (s₁.entry n).distance := by
      by_contra zero
      rw [noteEntry_none dropped.sound (Nat.eq_zero_of_not_pos zero)] at noting
      exact absurd noting (by simp)
    refine ⟨apart, ?_⟩
    rcases noteEntry_spec dropped.sound (dropped.sound.takes taken) apart now endpoint with
      ⟨s'', after, noted⟩
    cases Option.some.inj (after.symm.trans noting)
    have known : s.noted c now event = some n := by
      rw [NodeTable.noted, called]
      exact taken
    intro m behind
    by_contra breathes
    have live : s₁.alive m = true := by simpa using breathes
    rcases noted.removes dropped.sound behind with ⟨stood, other, gone⟩
    rw [dropped.buckets] at stood
    rcases List.mem_filter.mp stood with ⟨before, stays⟩
    apply gone
    apply List.mem_of_mem_filter
    rw [orderly.others]
    apply List.mem_filter.mpr ⟨before, ?_⟩
    rw [noted.alive, known]
    simp [live, of_decide_eq_true stays, Ne.symm other]
  · rintro ⟨positive, calls⟩
    rcases prepare_spec sound now event positive with ⟨s₁, call, prepared, dropped⟩
    cases call with
    | none =>
        refine ⟨s₁, by rw [step, prepared]; rfl, dropped.sound, dropped.orderly ?_⟩
        rw [noted, prepared]
        rfl
    | some call =>
        rcases call with ⟨pubk, endpoint⟩
        have run : s.step c now event = (s₁.takes c pubk endpoint).elim (some s₁) fun n =>
            s₁.noteEntry now n endpoint := by
          rw [step, prepared, ← noteActiveNode_eq]
          rfl
        have known : s.noted c now event = s₁.takes c pubk endpoint := by
          rw [noted, prepared]
          rfl
        cases taken : s₁.takes c pubk endpoint with
        | none =>
            rw [taken] at run known
            exact ⟨s₁, run, dropped.sound, dropped.orderly known⟩
        | some n =>
            rw [taken] at run known
            rcases calls s₁ pubk endpoint n prepared taken with ⟨apart, behind⟩
            rcases noteEntry_spec dropped.sound (dropped.sound.takes taken) apart now endpoint with
              ⟨s', after, noted⟩
            exact ⟨s', run.trans after, noted.sound, noted.orderly dropped known behind⟩

def HarmlessRun (c : NodeTableParams) : NodeTable → List (Nat × NodeTableEvent) → Prop
  | _, [] => True
  | s, (now, event) :: events => Harmless c now s event ∧ ∀ s', s.step c now event = some s' →
      HarmlessRun c s' events

/-- Every state is sound, and every step is defined and orderly. -/
def OrderlyRun (c : NodeTableParams) : NodeTable → List (Nat × NodeTableEvent) → Prop
  | s, [] => Sound c s
  | s, (now, event) :: events =>
      Sound c s ∧ ∃ s', s.step c now event = some s' ∧ Orderly c now s event s' ∧
        OrderlyRun c s' events

theorem OrderlyRun.sound {events : List (Nat × NodeTableEvent)} (run : OrderlyRun c s events) :
    Sound c s := by
  cases events with
  | nil => exact run
  | cons event events => exact run.1

theorem run_iff (sound : Sound c s) (events : List (Nat × NodeTableEvent)) :
    OrderlyRun c s events ↔ HarmlessRun c s events := by
  induction events generalizing s with
  | nil => exact iff_of_true sound trivial
  | cons event events ih =>
      rcases event with ⟨now, event⟩
      constructor
      · rintro ⟨_, s', run, orderly, rest⟩
        refine ⟨(step_iff sound now event).mp ⟨s', run, rest.sound, orderly⟩, ?_⟩
        intro s'' again
        cases Option.some.inj (run.symm.trans again)
        exact (ih rest.sound).mp rest
      · rintro ⟨harmless, rest⟩
        rcases (step_iff sound now event).mpr harmless with ⟨s', run, sound', orderly⟩
        exact ⟨sound, s', run, orderly, (ih sound').mpr (rest s' run)⟩

theorem start_sound (node : Node) : Sound c { m_node := node } := by
  have empty : ∀ i, ({ m_node := node } : NodeTable).bucket i = [] := by
    intro i
    simp only [bucket, List.getD_eq_getElem?_getD, List.getElem?_replicate]
    split_ifs <;> rfl
  refine ⟨List.length_replicate, fun i => ?_, fun i => ?_, fun i n member => ?_, fun n inside => ?_,
    fun id n found => ?_, fun e member => absurd member List.not_mem_nil⟩
  · rw [empty]
    exact Nat.zero_le _
  · rw [empty]
    exact List.nodup_nil
  · rw [empty] at member
    exact absurd member List.not_mem_nil
  · exact absurd inside (Nat.not_lt_zero n)
  · exact absurd found (by simp)

/-- Whatever happens to a new table, all steps are defined and orderly and keep it sound just when
each of them is harmless. -/
theorem node_buckets_iff (c : NodeTableParams) (node : Node)
    (events : List (Nat × NodeTableEvent)) :
    OrderlyRun c { m_node := node } events ↔ HarmlessRun c { m_node := node } events :=
  run_iff (start_sound node) events

/-- The second of two entries is thrown out when the first is noted. -/
theorem first_entry_noted :
    ¬ OrderlyRun { sha3 := fun id => id.setWidth 256 } { m_node := { id := 8 } }
      [(0, .addNode ⟨10, ⟨1, 1, 1⟩⟩ true), (1, .addNode ⟨11, ⟨2, 1, 1⟩⟩ true),
        (2, .onReceived ⟨10, ⟨1, 1⟩, .pong ⟨3, 1, 1⟩⟩)] := by
  generalize sha3 : (⟨fun id => id.setWidth 256, false⟩ : NodeTableParams) = c
  generalize first : NodeTableEvent.addNode ⟨10, ⟨1, 1, 1⟩⟩ true = e₁
  generalize second : NodeTableEvent.addNode ⟨11, ⟨2, 1, 1⟩⟩ true = e₂
  generalize third : NodeTableEvent.onReceived ⟨10, ⟨1, 1⟩, .pong ⟨3, 1, 1⟩⟩ = e₃
  have run : (({ m_node := { id := 8 } } : NodeTable).step c 0 e₁).any
    (fun s₁ => (s₁.step c 1 e₂).any fun s₂ =>
      s₂.bucket 0 == [0, 1] && (s₂.drops 2 e₃).isEmpty && s₂.noted c 2 e₃ == some 0 &&
        (s₂.step c 2 e₃).any fun s₃ => s₃.bucket 0 == [0] && s₃.alive 1) = true := by
    subst sha3 first second third
    decide +kernel
  simp only [Option.any_eq_true, Bool.and_eq_true, beq_iff_eq, List.isEmpty_iff] at run
  rcases run with ⟨s₁, run₁, s₂, run₂, ⟨⟨before, dropped⟩, noted⟩, s₃, run₃, after, live⟩
  rintro ⟨_, s₁', run₁', _, _, s₂', run₂', _, _, s₃', run₃', orderly, _⟩
  cases Option.some.inj (run₁.symm.trans run₁')
  cases Option.some.inj (run₂.symm.trans run₂')
  cases Option.some.inj (run₃.symm.trans run₃')
  have others := orderly.others 0
  rw [after, before, dropped, noted] at others
  simp [live] at others

end NodeTable

end UtispaceChain.P2p
