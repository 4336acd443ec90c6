import Mathlib.Algebra.Order.BigOperators.Group.Finset
import FluxCore.Aggregator.Callbacks

/-!
# Aggregation over the Tree

The pushes for a key are a partition of the ids `0, …, n - 1`. Whatever the ranks they go to and
the order in which they are handled, and whenever the timers fire, the relation between ids and
values is only moved up the tree: what the aggregates hold and the requests carry stays the same
(`Gathering`). When the last id is on rank 0 there is nothing left elsewhere, and this is when
`aggregate_sink` is called (`Sunk`).
-/

namespace FluxCore.Aggregator

open List Option Function

variable {κ : Type} (codec : IdsetCodec κ) (txnPut : String → Bool) (top : Broker.Topology)
variable (k : String) (n : ℕ)

/-- What a request carries for the key. -/
def carried (p : ℕ × Push κ) : Multiset (ℕ × Value) :=
  if p.2.key = k then contents codec p.2.entries else 0

/-- The relation between ids and values that the pushes bring for the key. -/
def relation (pushes : List (ℕ × Push κ)) : Multiset (ℕ × Value) :=
  (pushes.map (carried codec k)).sum

/-- What the ranks hold and the requests carry for the key. -/
def amount (net : Net (String → Slot κ) (Push κ)) : Multiset (ℕ × Value) :=
  net.total top.size (fun _ node => held (node k)) (carried codec k)

/-- The pushes for the key are placed on ranks, have the total `n`, carry entries of ids with
integers, and each of the ids `0, …, n - 1` occurs in them exactly once. -/
structure Partition (pushes : List (ℕ × Push κ)) : Prop where
  pos : 1 ≤ n
  placed : ∀ p ∈ pushes, p.2.key = k → p.1 < top.size
  total : ∀ p ∈ pushes, p.2.key = k → p.2.total = n
  nonempty : ∀ p ∈ pushes, p.2.key = k → p.2.entries ≠ []
  entries : ∀ p ∈ pushes, p.2.key = k → ∀ e ∈ p.2.entries, EntryOk codec e
  once : (relation codec k pushes).map Prod.fst = Multiset.range n

/-! ### Steps for other keys -/

/-- The calls of `aggregate_sink` for the key. -/
def Instance.sinksFor (s : Instance κ) : List (ℕ × String × Aggregate) :=
  s.sinks.filter (·.2.1 = k)

/-- Two networks have the same totals, of anything that depends on the key only. -/
def SameTotals (net net' : Net (String → Slot κ) (Push κ)) : Prop :=
  ∀ {M : Type} [AddCancelCommMonoid M] (held : ℕ → Slot κ → M) (carried : ℕ × Push κ → M),
    (∀ p, p.2.key ≠ k → carried p = 0) →
      net'.total top.size (fun i node => held i (node k)) carried
        = net.total top.size (fun i node => held i (node k)) carried

/-- Nothing has changed for the key. -/
structure Frame (s t : Instance κ) : Prop where
  slots : ∀ i, t.net.node i k = s.net.node i k
  flight : ∀ p, p.2.key = k → (p ∈ t.net.flight ↔ p ∈ s.net.flight)
  totals : SameTotals top k s.net t.net
  sinks : t.sinksFor k = s.sinksFor k

/-- Between two callbacks nothing is left to be sent. -/
def Cleared (s : Instance κ) : Prop :=
  ∀ i q, (s.net.node i q).sent = [] ∧ (s.net.node i q).sunk = []

variable {codec} {txnPut} {top} {k} {n} {s t : Instance κ}

theorem Cleared.finish (h : ∀ i q, (net.node i q).sent = [] ∧ (net.node i q).sunk = []) :
    Cleared (finish top s net i q slot) := by
  refine Net.forall_act
    (P := fun _ (node : String → Slot κ) => ∀ q, (node q).sent = [] ∧ (node q).sunk = [])
    (fun q' => ?_) h
  by_cases hq : q' = q
  · rw [hq, update_self]
    exact ⟨rfl, rfl⟩
  · rw [update_of_ne hq]
    exact h i q'

theorem frame_finish (hq : q ≠ k) (hi : i < top.size) (hsent : ∀ msg ∈ slot.sent, msg.key = q)
    (hnode : net.node = s.net.node)
    (hfl : ∀ p, p.2.key = k → (p ∈ net.flight ↔ p ∈ s.net.flight))
    (htotals : SameTotals top k s.net net) : Frame top k s (finish top s net i q slot) := by
  let node' := Function.update (net.node i) q slot.clear
  let out := slot.sent.map fun msg => (top.parent i, msg)
  have hsame : node' k = net.node i k := update_of_ne hq.symm ..
  have hkey : ∀ p ∈ out, p.2.key ≠ k := by
    intro p hp
    obtain ⟨msg, hmsg, rfl⟩ := List.mem_map.1 hp
    rw [hsent msg hmsg]
    exact hq
  refine ⟨fun j => ?_, fun p hp => ?_, fun held carried hzero => ?_, ?_⟩
  · by_cases hj : j = i
    · rw [hj, ← hnode]
      exact (congrFun Net.act_node_self k).trans hsame
    · rw [← hnode]
      exact congrFun (Net.act_node_of_ne hj) k
  · rw [← hfl p hp]
    exact mem_append.trans (or_iff_left fun hmem => hkey p hmem hp)
  · have hact := net.total_act (fun i node => held i (node k)) carried node' out hi
    have hout : (out.map carried).sum = 0 :=
      sum_eq_zero fun c hc => by
        obtain ⟨p, hp, rfl⟩ := List.mem_map.1 hc
        exact hzero p (hkey p hp)
    rw [hout, hsame, add_zero, htotals held carried hzero] at hact
    exact add_right_cancel hact
  · have hnil : (slot.sunk.map fun ag => (i, q, ag)).filter (·.2.1 = k) = [] := by
      refine filter_eq_nil_iff.2 fun c hc => ?_
      obtain ⟨ag, -, rfl⟩ := List.mem_map.1 hc
      exact fun h => hq (of_decide_eq_true h)
    rw [Instance.sinksFor, finish, filter_append, hnil, append_nil]
    rfl

/-! ### What is claimed of the aggregate -/

variable (codec k) in
/-- The id has been pushed with the value. -/
def Pushed (pushes : List (ℕ × Push κ)) (id : ℕ) (value : Value) : Prop :=
  ∃ p ∈ pushes, p.2.key = k ∧ ∃ e ∈ p.2.entries, e.2 = value ∧ ∃ ids, codec.decode e.1 = some ids ∧
    id ∈ ids

variable (codec k n) in
/-- The aggregate is the map from the values to the sets of ids that were pushed with them, with
the right count and summary. -/
structure Exact (pushes : List (ℕ × Push κ)) (ag : Aggregate) : Prop where
  nodup : (ag.entries.map Bucket.value).Nodup
  entries : ∀ e : Entry, e ∈ ag.entries ↔
    e.ids.Nonempty ∧ ∀ id, id ∈ e.ids ↔ Pushed codec k pushes id e.value
  count : ag.count.toNat = n
  total : ag.count = ag.total
  summary : ∃ min max, ag.summary = some (.integer min, .integer max) ∧
    IsLeast {v | ∃ id, Pushed codec k pushes id (.integer v)} min ∧
    IsGreatest {v | ∃ id, Pushed codec k pushes id (.integer v)} max

variable (top k) in
/-- Ids of the key are on their way: in a request, or on a rank other than 0. -/
def Outstanding (s : Instance κ) : Prop :=
  (∃ p ∈ s.net.flight, p.2.key = k) ∨ ∃ i < top.size, i ≠ 0 ∧ (s.net.node i k).aggregate.isSome

theorem mem_relation {pushes : List (ℕ × Push κ)} {id : ℕ} {value : Value} :
    (id, value) ∈ relation codec k pushes ↔ Pushed codec k pushes id value := by
  rw [relation, Multiset.mem_sum_map]
  refine exists_congr fun p => and_congr_right fun _ => ?_
  by_cases hk : p.2.key = k
  · rw [carried, if_pos hk, contents, Multiset.mem_sum_map, and_iff_right hk]
    refine exists_congr fun e => and_congr_right fun _ => ?_
    cases hdec : codec.decode e.1 with
    | none => simp
    | some ids => simp [and_comm]
  · rw [carried, if_neg hk]
    exact iff_of_false (Multiset.notMem_zero _) fun h => hk h.1

/-! ### The invariant -/

variable (codec top k n P) in
/-- Ids are on their way to rank 0, or are in flight to a rank. -/
structure Gathering (s : Instance κ) : Prop where
  sinks : s.sinksFor k = []
  slots : ∀ i, SlotOk n i (s.net.node i k)
  flight : ∀ p ∈ s.net.flight, p.2.key = k → p.1 < top.size ∧ MsgOk codec n p.2
  total : amount codec top k s.net = P

variable (top k n P) in
/-- All ids have come to rank 0, and `aggregate_sink` has been called for them. Its commit may
not have ended yet. -/
structure Sunk (s : Instance κ) : Prop where
  sinks : ∃ ag, Sound n 0 ag ∧ ag.pairs = P ∧ s.sinksFor k = [(0, k, ag)]
  flight : ∀ p ∈ s.net.flight, p.2.key ≠ k
  others : ∀ i ≠ 0, (s.net.node i k).commits = [] ∧ (s.net.node i k).retries = [] ∧
    (i < top.size → (s.net.node i k).aggregate = none)
  retries : (s.net.node 0 k).retries = []
  commits : (s.net.node 0 k).commits = [] ∨
    ∃ ag, (s.net.node 0 k).aggregate = some ag ∧ (s.net.node 0 k).commits = [ag.addr]

theorem carried_of_ne (p : ℕ × Push κ) (hp : p.2.key ≠ k) : carried codec k p = 0 := if_neg hp

theorem Gathering.frame (h : Gathering codec top k n P s) (hst : Frame top k s t) :
    Gathering codec top k n P t where
  sinks := hst.sinks.trans h.sinks
  slots i := hst.slots i ▸ h.slots i
  flight p hp hk := h.flight p ((hst.flight p hk).1 hp) hk
  total := (hst.totals _ _ carried_of_ne).trans h.total

theorem Sunk.frame (h : Sunk top k n P s) (hst : Frame top k s t) : Sunk top k n P t where
  sinks := hst.sinks ▸ h.sinks
  flight p hp hk := h.flight p ((hst.flight p hk).1 hp) hk
  others i hi := hst.slots i ▸ h.others i hi
  retries := hst.slots 0 ▸ h.retries
  commits := hst.slots 0 ▸ h.commits

theorem finish_slot : (finish top s net i k slot).net.node i k = slot.clear := by
  rw [finish, Net.act_node_self, update_self]

theorem finish_slot_of_ne (hj : j ≠ i) :
    (finish top s net i k slot).net.node j k = net.node j k := by
  rw [finish, Net.act_node_of_ne hj]

theorem gathering_finish (hsks : s.sinksFor k = []) (hslots : ∀ i, SlotOk n i (net.node i k))
    (hfl : ∀ p ∈ net.flight, p.2.key = k → p.1 < top.size ∧ MsgOk codec n p.2)
    (hamt : amount codec top k net + c = P) (hi : i < top.size)
    (hpass : Passes codec k n i (net.node i k) c slot) :
    Gathering codec top k n P (finish top s net i k slot) := by
  let out := slot.sent.map fun msg => (top.parent i, msg)
  refine ⟨?_, fun j => ?_, fun p hp hk => ?_, ?_⟩
  · rw [Instance.sinksFor, finish, hpass.sunk, map_nil, append_nil]
    exact hsks
  · by_cases hj : j = i
    · rw [hj, finish_slot]
      exact hpass.rest
    · rw [finish_slot_of_ne hj]
      exact hslots j
  · rcases mem_append.1 hp with hp | hp
    · exact hfl p hp hk
    · obtain ⟨msg, hmsg, rfl⟩ := List.mem_map.1 hp
      obtain ⟨hne, -, hok⟩ := hpass.sent msg hmsg
      exact ⟨(top.parent_lt i hne).trans hi, hok⟩
  · have hact : amount codec top k (finish top s net i k slot).net
          + held (net.node i k)
        = amount codec top k net + (held (Function.update (net.node i) k slot.clear k)
          + (out.map (carried codec k)).sum) := net.total_act _ _ _ out hi
    have hout : (out.map (carried codec k)).sum
        = (slot.sent.map fun msg => contents codec msg.entries).sum := by
      rw [List.map_map]
      refine congrArg sum (map_congr_left fun msg hmsg => ?_)
      exact if_pos (hpass.sent msg hmsg).2.1
    have hbal : held (Function.update (net.node i) k slot.clear k)
        + (out.map (carried codec k)).sum = held (net.node i k) + c := by
      rw [hout, update_self]
      exact hpass.balance
    rw [hbal, add_comm (held _) c, ← add_assoc, hamt] at hact
    exact add_right_cancel hact

/-- The relation is a function on the ids `0, …, n - 1`. -/
structure Total (P : Multiset (ℕ × Value)) (n : ℕ) : Prop where
  ids : P.map Prod.fst = Multiset.range n
  lt : n < 2 ^ 32

theorem Total.card (hP : Total P n) : P.card = n := by
  rw [← Multiset.card_map Prod.fst, hP.ids, Multiset.card_range]

theorem Total.nodup (hP : Total P n) (hQ : Q ≤ P) : (Q.map Prod.fst).Nodup := by
  refine Multiset.nodup_of_le (Multiset.map_le_map hQ) ?_
  rw [hP.ids]
  exact Multiset.nodup_range n

theorem aggregate_eq_none (h : SlotOk n i slot) (hheld : held slot = 0) :
    slot.aggregate = none := by
  cases hag : slot.aggregate with
  | none => rfl
  | some ag =>
    obtain ⟨hsnd, hne, -⟩ := h.aggregate ag hag
    rw [held, hag] at hheld
    exact absurd hheld (hsnd.pairs_ne_zero hne)

/-- **The last id:** a callback that has completed the aggregate of rank 0 has left nothing
elsewhere. -/
theorem sunk_finish (hP : Total P n) (hsks : s.sinksFor k = [])
    (hslots : ∀ i, SlotOk n i (net.node i k))
    (hfl : ∀ p ∈ net.flight, p.2.key = k → p.1 < top.size ∧ MsgOk codec n p.2)
    (hamt : amount codec top k net + c = P) (hi : 0 < top.size)
    (hps : ag.pairs = held (net.node 0 k) + c) (h : Sinks n slot ag) :
    Sunk top k n P (finish top s net 0 k slot) := by
  let others := ∑ j ∈ (Finset.range top.size).erase 0, held (net.node j k)
  let inFlight := (net.flight.map (carried codec k)).sum
  have hrest : amount codec top k net = held (net.node 0 k) + (others + inFlight) :=
    Net.total_eq_held_add hi
  have hP' : P = ag.pairs + (others + inFlight) := by
    rw [← hamt, hrest, hps, add_right_comm]
  have hzero : others + inFlight = 0 := by
    have hcard := congrArg Multiset.card hP'
    rw [hP.card, Multiset.card_add, h.complete] at hcard
    exact Multiset.card_eq_zero.1 (by omega)
  obtain ⟨hoths, hinFlight⟩ := add_eq_zero.1 hzero
  rw [hzero, add_zero] at hP'
  refine ⟨⟨ag, h.sound, hP'.symm, ?_⟩, fun p hp hk => ?_, fun j hj => ?_, ?_, ?_⟩
  · rw [Instance.sinksFor, finish, h.sunk, filter_append]
    rw [Instance.sinksFor] at hsks
    rw [hsks, map_singleton, filter_singleton, decide_eq_true rfl]
    rfl
  · rw [finish, h.sent, map_nil] at hp
    have hmem : p ∈ net.flight := by
      rw [← append_nil net.flight]
      exact hp
    have hcarried := sum_eq_zero_iff.1 hinFlight _ (List.mem_map.2 ⟨p, hmem, rfl⟩)
    rw [carried, if_pos hk] at hcarried
    obtain ⟨-, hok⟩ := hfl p hmem hk
    exact contents_ne_zero hok.nonempty hok.entries hcarried
  · rw [finish_slot_of_ne hj]
    refine ⟨(hslots j).commits, (hslots j).retries, fun hlt => aggregate_eq_none (hslots j) ?_⟩
    exact Finset.sum_eq_zero_iff.1 hoths j (Finset.mem_erase.2 ⟨hj, Finset.mem_range.2 hlt⟩)
  · rw [finish_slot]
    exact h.retries
  · rw [finish_slot]
    exact .inr ⟨_, h.aggregate, h.commits⟩

theorem held_le_amount (hi : i < top.size) : held (net.node i k) ≤ amount codec top k net := by
  have hrest : amount codec top k net = held (net.node i k) + _ := Net.total_eq_held_add hi
  rw [hrest]
  exact Multiset.le_add_right _ _

theorem Gathering.le (h : Gathering codec top k n P s) (hi : i < top.size)
    (hget : s.net.flight[m]? = some (i, msg)) (hk : msg.key = k) :
    amount codec top k (s.net.take m) + contents codec msg.entries = P ∧
      held (s.net.node i k) + contents codec msg.entries ≤ P := by
  have htake : amount codec top k (s.net.take m) + carried codec k (i, msg) = P :=
    (Net.total_take _ _ _ hget).trans h.total
  rw [carried, if_pos hk] at htake
  have hheld : held (s.net.node i k) ≤ amount codec top k (s.net.take m) := held_le_amount hi
  exact ⟨htake, htake ▸ Multiset.add_le_add_right hheld⟩

theorem Sunk.finish_committed (hs : Cleared s) (h : Sunk top k n P s) :
    Sunk top k n P (finish top s s.net 0 k
      { s.net.node 0 k with aggregate := none, commits := [] }) := by
  refine ⟨?_, fun p hp => ?_, fun j hj => ?_, ?_, ?_⟩
  · rw [Instance.sinksFor, finish]
    simp only [(hs 0 k).2, map_nil, append_nil]
    exact h.sinks
  · simp only [finish, Net.act, (hs 0 k).1, map_nil, append_nil] at hp
    exact h.flight p hp
  · rw [finish_slot_of_ne hj]
    exact h.others j hj
  · rw [finish_slot]
    exact h.retries
  · rw [finish_slot]
    exact .inl rfl

variable {pushes : List (ℕ × Push κ)}

theorem Partition.total_relation (h : Partition codec top k n pushes) :
    Total (relation codec k pushes) n := by
  refine ⟨h.once, ?_⟩
  have hlast : n - 1 ∈ (relation codec k pushes).map Prod.fst := by
    rw [h.once, Multiset.mem_range]
    have hpos := h.pos
    omega
  obtain ⟨⟨id, value⟩, hmem, hid⟩ := Multiset.mem_map.1 hlast
  obtain ⟨p, -, -, e, -, -, ids, hdec, hids⟩ := mem_relation.1 hmem
  have hval := codec.valid hdec id hids
  simp only [Libidset.invalidId, Libidset.uintMax] at hval
  simp only at hid
  omega

theorem gathering_start (h : Partition codec top k n pushes) (hs : Start pushes s) :
    Cleared s ∧ Gathering codec top k n (relation codec k pushes) s := by
  cases hs
  refine ⟨fun _ _ => ⟨rfl, rfl⟩, rfl, fun _ => ⟨rfl, rfl, rfl, rfl, nofun⟩, fun p hp hk => ?_, ?_⟩
  · refine ⟨h.placed p hp hk, ?_, h.nonempty p hp hk, h.entries p hp hk⟩
    rw [h.total p hp hk, BitVec.ofInt_natCast]
  · have hheld : ∑ i ∈ Finset.range top.size, held ({} : Slot κ) = 0 :=
      Finset.sum_eq_zero fun _ _ => rfl
    exact (congrArg (· + relation codec k pushes) hheld).trans (zero_add _)

theorem Gathering.outstanding (hP : Total P n) (hn : 1 ≤ n) (h : Gathering codec top k n P s) :
    Outstanding top k s := by
  by_contra hnot
  rw [Outstanding, not_or] at hnot
  obtain ⟨hfl, hoths⟩ := hnot
  have hnone : ∀ i < top.size, i ≠ 0 → held (s.net.node i k) = 0 := by
    intro i hi hne
    cases hag : (s.net.node i k).aggregate with
    | none =>
      rw [held, hag]
      rfl
    | some ag => exact absurd ⟨i, hi, hne, isSome_of_mem hag⟩ hoths
  have hcarried : (s.net.flight.map (carried codec k)).sum = 0 := by
    refine sum_eq_zero fun c hc => ?_
    obtain ⟨p, hp, rfl⟩ := List.mem_map.1 hc
    exact if_neg fun hk => hfl ⟨p, hp, hk⟩
  have htot := h.total
  rw [amount, Net.total, hcarried, add_zero] at htot
  -- Everything is on rank 0, whose aggregate is not complete.
  have hroot : (held (s.net.node 0 k)).card < n := by
    rw [held]
    cases hag : (s.net.node 0 k).aggregate with
    | none => exact hn
    | some ag => exact ((h.slots 0).aggregate ag hag).2.2 rfl
  have hsum : ∑ i ∈ Finset.range top.size, held (s.net.node i k) ≤ held (s.net.node 0 k) := by
    rcases Nat.eq_zero_or_pos top.size with hzero | hpos
    · rw [hzero, Finset.range_zero, Finset.sum_empty]
      exact Multiset.zero_le _
    · rw [Finset.sum_eq_single_of_mem 0 (Finset.mem_range.2 hpos) fun i hi hne =>
        hnone i (Finset.mem_range.1 hi) hne]
  rw [htot] at hsum
  have hcard := Multiset.card_le_card hsum
  rw [hP.card] at hcard
  omega

theorem Sunk.not_outstanding (h : Sunk top k n P s) : ¬ Outstanding top k s := by
  rintro (⟨p, hp, hk⟩ | ⟨i, hi, hne, hsome⟩)
  · exact h.flight p hp hk
  · rw [(h.others i hne).2.2 hi] at hsome
    cases hsome

theorem exact_of_sound (hpart : Partition codec top k n pushes) (h : Sound n 0 ag)
    (hps : ag.pairs = relation codec k pushes) : Exact codec k n pushes ag := by
  have hP := hpart.total_relation
  have hcard : ag.pairs.card = n := hps ▸ hP.card
  have hmem : ∀ id value, (id, value) ∈ ag.pairs ↔ Pushed codec k pushes id value := by
    intro id value
    rw [hps, mem_relation]
  have hcnt := (h.count_eq_total hP.lt hcard.le).2 hcard
  have hvalues : {v | Value.integer v ∈ ag.entries.map Bucket.value}
      = {v | ∃ id, Pushed codec k pushes id (.integer v)} := by
    refine Set.ext fun v => ⟨fun hv => ?_, fun ⟨id, hid⟩ => ?_⟩
    · obtain ⟨e, he, hv⟩ := List.mem_map.1 hv
      obtain ⟨id, hid⟩ := h.nonempty e he
      exact ⟨id, (hmem id _).1 (Bucket.mem_pairs.2 ⟨e, he, hv, hid⟩)⟩
    · obtain ⟨e, he, hv, -⟩ := Bucket.mem_pairs.1 ((hmem id _).2 hid)
      exact List.mem_map.2 ⟨e, he, hv⟩
  refine ⟨h.nodup, fun e => ?_, ?_, hcnt, ?_⟩
  · simp only [← hmem]
    exact Bucket.mem_iff_pairs h.nodup h.nonempty
  · rw [hcnt, h.total, BitVec.toNat_ofNat, Nat.mod_eq_of_lt hP.lt]
  · obtain ⟨hnil, -⟩ | hsummary := h.summary rfl
    · rw [Aggregate.pairs, hnil] at hcard
      have hpos := hpart.pos
      exact absurd hcard (Nat.ne_of_lt hpos)
    · exact hvalues ▸ hsummary

/-! ### What is left to do -/

/-- A step that moves ids of the key: a request is handled, or a timer fires. -/
def Carries (k : String) (s : Instance κ) : Label κ → Prop
  | .push m _ => ∃ p, s.net.flight[m]? = some p ∧ p.2.key = k
  | .timer _ q => q = k
  | _ => False

/-- The steps to rank 0 that are left for an aggregate of the rank `i`. -/
def weight (i : ℕ) (slot : Slot κ) : ℕ := if i ≠ 0 ∧ slot.aggregate.isSome then 2 * i + 1 else 0

/-- The steps to rank 0 that are left for a request, at most. -/
def load (k : String) (p : ℕ × Push κ) : ℕ := if p.2.key = k then 2 * p.1 + 2 else 0

variable (top k) in
/-- The steps that are left for the key, at most. -/
def Instance.work (s : Instance κ) : ℕ :=
  s.net.total top.size (fun i node => weight i (node k)) (load k)

theorem weight_le : weight i slot ≤ 2 * i + 1 := by
  rw [weight]
  split <;> omega

variable (top k) in
/-- The steps that are left for the key when the callback of a rank has ended as `slot`: for the
aggregate of the rank, and for the requests that it has sent. -/
def leftBy (i : ℕ) (slot : Slot κ) : ℕ :=
  weight i slot + ((slot.sent.map fun msg => (top.parent i, msg)).map (load k)).sum

theorem Passes.leftBy_of_sent (h : Passes codec k n i slot c slot') (hsent : slot'.sent ≠ []) :
    leftBy top k i slot' < 2 * i + 1 := by
  obtain ⟨hone, hnone⟩ := h.once.resolve_left hsent
  obtain ⟨msg, hmsg⟩ := length_eq_one_iff.1 hone
  obtain ⟨hne, hkey, -⟩ := h.sent msg (hmsg ▸ mem_singleton_self msg)
  have hlt := top.parent_lt i hne
  rw [leftBy, hmsg, weight, hnone]
  simp only [isSome_none, Bool.false_eq_true, and_false, if_false, map_cons,
    map_nil, sum_singleton, load, hkey, if_true]
  omega

theorem leftBy_le (hsent : slot.sent = []) : leftBy top k i slot ≤ 2 * i + 1 := by
  rw [leftBy, hsent]
  exact weight_le

theorem work_finish (hi : i < top.size) :
    (finish top s net i k slot).work top k + weight i (net.node i k)
      = net.total top.size (fun i node => weight i (node k)) (load k) + leftBy top k i slot := by
  have hact := net.total_act (fun i node => weight i (node k)) (load k)
    (Function.update (net.node i) k slot.clear) (slot.sent.map fun msg => (top.parent i, msg)) hi
  rw [update_self] at hact
  exact hact

theorem work_push_lt (hi : i < top.size) (hget : s.net.flight[m]? = some (i, msg))
    (hk : msg.key = k) (hleft : leftBy top k i slot ≤ 2 * i + 1) :
    (finish top s (s.net.take m) i k slot).work top k < s.work top k := by
  have htake : (s.net.take m).total top.size (fun i node => weight i (node k)) (load k)
      + load k (i, msg) = s.work top k := Net.total_take _ _ _ hget
  have hload : load k (i, msg) = 2 * i + 2 := if_pos hk
  have hfinish : (finish top s (s.net.take m) i k slot).work top k + _ = _ := work_finish hi
  omega

theorem work_timer_lt (hi : i < top.size) (hne : i ≠ 0)
    (hsome : (s.net.node i k).aggregate.isSome) (hleft : leftBy top k i slot < 2 * i + 1) :
    (finish top s s.net i k slot).work top k < s.work top k := by
  have hwt : weight i (s.net.node i k) = 2 * i + 1 := if_pos ⟨hne, hsome⟩
  have hfinish : (finish top s s.net i k slot).work top k + _ = s.work top k + _ := work_finish hi
  omega

theorem work_root_le (hi : 0 < top.size) (hsent : slot.sent = []) :
    (finish top s s.net 0 k slot).work top k ≤ s.work top k := by
  have hfinish : (finish top s s.net 0 k slot).work top k + _ = s.work top k + _ := work_finish hi
  have hleft : leftBy top k 0 slot = 0 := by
    rw [leftBy, hsent]
    rfl
  omega

/-! ### Steps -/

variable [DecidableEq κ]

variable (codec txnPut top k) in
/-- What a step can do for a key. -/
inductive KeyStep (s : Instance κ) : Label κ → Instance κ → Prop
  | push {m i : ℕ} {msg : Push κ} {visit : List (κ × Value)} (hk : msg.key = k)
      (hget : s.net.flight[m]? = some (i, msg)) (hi : i < top.size)
      (hvisit : visit.Perm msg.entries) :
      KeyStep s (.push m visit) (finish top s (s.net.take m) i k
        ((s.net.node i k).pushCb codec txnPut i k msg visit))
  | timer {i : ℕ} {ag : Aggregate} (hi : i < top.size) (hne : i ≠ 0)
      (hag : (s.net.node i k).aggregate = some ag) :
      KeyStep s (.timer i k) (finish top s s.net i k ((s.net.node i k).timerCb codec i k))
  | commit {i m addr : ℕ} {ok : Bool} (hi : i < top.size)
      (hget : (s.net.node i k).commits[m]? = some addr) :
      KeyStep s (.commit i k m ok) (finish top s s.net i k
        (({ s.net.node i k with commits := (s.net.node i k).commits.eraseIdx m } :
          Slot κ).sinkContinuation addr ok))
  | again {i m addr : ℕ} (hi : i < top.size) (hget : (s.net.node i k).retries[m]? = some addr) :
      KeyStep s (.again i k m) (finish top s s.net i k
        (({ s.net.node i k with retries := (s.net.node i k).retries.eraseIdx m } :
          Slot κ).sinkAgain txnPut k addr))

theorem keyStep_of_step (ht : (modules codec txnPut top).step l s = some t) :
    ∃ q, KeyStep codec txnPut top q s l t := by
  cases l with
  | push m visit =>
    simp only [modules] at ht
    split at ht
    · rename_i i msg hget
      simp only [ite_none_right_eq_some, some_inj] at ht
      obtain ⟨⟨hi, hvis⟩, rfl⟩ := ht
      exact ⟨msg.key, .push rfl hget hi (isPerm_iff.1 hvis)⟩
    · cases ht
  | timer i q =>
    simp only [modules, ite_none_right_eq_some, some_inj] at ht
    obtain ⟨⟨hi, hne, hsome⟩, rfl⟩ := ht
    obtain ⟨ag, hag⟩ := isSome_iff_exists.1 hsome
    exact ⟨q, .timer hi hne hag⟩
  | commit i q m ok =>
    simp only [modules] at ht
    split at ht
    · rename_i addr hget
      simp only [ite_none_right_eq_some, some_inj] at ht
      obtain ⟨hi, rfl⟩ := ht
      exact ⟨q, .commit hi hget⟩
    · cases ht
  | again i q m =>
    simp only [modules] at ht
    split at ht
    · rename_i addr hget
      simp only [ite_none_right_eq_some, some_inj] at ht
      obtain ⟨hi, rfl⟩ := ht
      exact ⟨q, .again hi hget⟩
    · cases ht

theorem KeyStep.cleared (h : KeyStep codec txnPut top q s l t) (hs : Cleared s) : Cleared t := by
  cases h <;> exact .finish hs

theorem KeyStep.frame (h : KeyStep codec txnPut top q s l t) (hs : Cleared s) (hq : q ≠ k) :
    Frame top k s t := by
  have hnil : ∀ {i : ℕ} {msg : Push κ}, msg ∈ (s.net.node i q).sent → msg.key = q := by
    intro i msg hmsg
    rw [(hs i q).1] at hmsg
    exact absurd hmsg not_mem_nil
  cases h with
  | @push m i msg visit hk hget hi hvis =>
    have hne : ∀ p : ℕ × Push κ, p.2.key = k → p ≠ (i, msg) := by
      rintro p hp rfl
      exact hq (hk.symm.trans hp)
    refine frame_finish hq hi (fun msg hmsg => (key_of_mem_pushCb hmsg).elim hnil id) rfl
      (fun p hp => ?_) fun held carried hzero => ?_
    · refine ⟨mem_of_mem_eraseIdx, fun hmem => ?_⟩
      obtain ⟨j, hj⟩ := List.getElem?_of_mem hmem
      refine mem_eraseIdx_iff_getElem?.2 ⟨j, ?_, hj⟩
      rintro rfl
      exact hne p hp (some_inj.1 (hj.symm.trans hget))
    · have htake := Net.total_take top.size (fun i node => held i (node k)) carried hget
      rw [hzero _ fun h => hq (hk.symm.trans h), add_zero] at htake
      exact htake
  | timer hi hne hag =>
    exact frame_finish hq hi (fun msg hmsg => (key_of_mem_timerCb hmsg).elim hnil id) rfl
      (fun _ _ => Iff.rfl) fun _ _ _ => rfl
  | commit hi hget =>
    refine frame_finish hq hi (fun msg hmsg => ?_) rfl (fun _ _ => Iff.rfl)
      fun _ _ _ => rfl
    rw [sinkContinuation_sent] at hmsg
    exact hnil hmsg
  | again hi hget =>
    refine frame_finish hq hi (fun msg hmsg => ?_) rfl (fun _ _ => Iff.rfl)
      fun _ _ _ => rfl
    rw [sinkAgain_sent] at hmsg
    exact hnil hmsg

/-- **A step for the key**, while ids are on their way: there is less left to do. -/
theorem Gathering.step (hP : Total P n) (hput : k ≠ "." ∧ txnPut k = true)
    (h : Gathering codec top k n P s) (hst : KeyStep codec txnPut top k s l t) :
    (Gathering codec top k n P t ∨ Sunk top k n P t) ∧ t.work top k < s.work top k := by
  cases hst with
  | @push m i msg visit hk hget hi hvis =>
    obtain ⟨-, hmsg⟩ := h.flight _ (mem_of_getElem? hget) hk
    obtain ⟨hamt, hle⟩ := h.le hi hget hk
    have hcard := Multiset.card_le_card hle
    rw [hP.card] at hcard
    have hfl := Net.forall_take (k := m) h.flight
    rcases pushCb_cases hput (h.slots i) hmsg hvis (hP.nodup hle) hP.lt hcard with
      hpass | ⟨rfl, ag, hps, hsks⟩
    · refine ⟨.inl (gathering_finish h.sinks h.slots hfl hamt hi hpass),
        work_push_lt hi hget hk ?_⟩
      rcases hpass.once with hnil | ⟨hone, -⟩
      · exact leftBy_le hnil
      · exact (hpass.leftBy_of_sent (ne_nil_of_length_pos (hone ▸ one_pos))).le
    · exact ⟨.inr (sunk_finish hP h.sinks h.slots hfl hamt hi hps hsks),
        work_push_lt hi hget hk (leftBy_le hsks.sent)⟩
  | @timer i ag hi hne hag =>
    obtain ⟨hsnd, hents, -⟩ := (h.slots i).aggregate ag hag
    have hheld : held (s.net.node i k) = ag.pairs := by
      rw [held, hag]
      rfl
    have hle : ag.pairs ≤ P := by
      rw [← h.total, ← hheld]
      exact held_le_amount hi
    have hpass : Passes codec k n i (s.net.node i k) 0
        ((s.net.node i k).timerCb codec i k) := by
      rw [Slot.timerCb, hag]
      exact flush_passes (h.slots i) ⟨rfl, rfl, rfl, rfl⟩ hne hsnd hents (hP.nodup hle)
        (hheld ▸ (add_zero _).symm)
    have hsent : ((s.net.node i k).timerCb codec i k).sent ≠ [] := by
      rw [Slot.timerCb, hag]
      simp [Slot.flush, hne]
    exact ⟨.inl (gathering_finish h.sinks h.slots h.flight ((add_zero _).trans h.total) hi hpass),
      work_timer_lt hi hne (isSome_of_mem hag) (hpass.leftBy_of_sent hsent)⟩
  | @commit i m addr ok hi hget =>
    rw [(h.slots i).commits] at hget
    cases hget
  | @again i m addr hi hget =>
    rw [(h.slots i).retries] at hget
    cases hget

/-- The commits for the key succeed. -/
def Committed (k : String) (l : Label κ) : Prop := ∀ i m, l ≠ .commit i k m false

theorem Sunk.step (hs : Cleared s) (hl : Committed k l) (h : Sunk top k n P s)
    (hst : KeyStep codec txnPut top k s l t) :
    Sunk top k n P t ∧ t.work top k ≤ s.work top k ∧ ¬ Carries k s l := by
  cases hst with
  | push hk hget hi hvis => exact absurd hk (h.flight _ (mem_of_getElem? hget))
  | timer hi hne hag => exact nomatch hag.symm.trans ((h.others _ hne).2.2 hi)
  | @commit i m addr ok hi hget =>
    by_cases hne : i = 0
    · subst hne
      rcases h.commits with hnil | ⟨ag, hag, hcoms⟩
      · rw [hnil] at hget
        cases hget
      rw [hcoms, List.getElem?_singleton, ite_none_right_eq_some] at hget
      obtain ⟨rfl, haddr⟩ := hget
      have hok : ok = true := by
        cases ok
        · exact absurd rfl (hl 0 0)
        · rfl
      subst hok
      rw [hcoms, Slot.sinkContinuation, hag]
      simp only [ne_eq, some_inj.1 haddr, not_true_eq_false, if_false, if_true]
      exact ⟨h.finish_committed hs, work_root_le hi (hs 0 k).1, not_false⟩
    · rw [(h.others i hne).1] at hget
      cases hget
  | @again i m addr hi hget =>
    by_cases hne : i = 0
    · subst hne
      rw [h.retries] at hget
      cases hget
    · rw [(h.others i hne).2.1] at hget
      cases hget

/-! ### Progress -/

theorem KeyStep.eq_of_carries (h : KeyStep codec txnPut top q s l t) (hl : Carries k s l) :
    q = k := by
  cases h with
  | push hk hget hi hvis =>
    obtain ⟨p, hp, hkey⟩ := hl
    cases hget.symm.trans hp
    exact hk.symm.trans hkey
  | timer hi hne hag => exact hl
  | commit hi hget | again hi hget => exact hl.elim

/-! ### Whole runs -/

variable (codec top k n) in
/-- The invariant of all runs. -/
structure Inv (pushes : List (ℕ × Push κ)) (s : Instance κ) : Prop where
  cleared : Cleared s
  phase : Gathering codec top k n (relation codec k pushes) s ∨
    Sunk top k n (relation codec k pushes) s

/-- **Every step** keeps the invariant. It leaves no more to do, and less if it moves ids. -/
theorem Inv.step (hpart : Partition codec top k n pushes) (hput : k ≠ "." ∧ txnPut k = true)
    (h : Inv codec top k n pushes s) (hl : Committed k l)
    (ht : (modules codec txnPut top).step l s = some t) :
    Inv codec top k n pushes t ∧ t.work top k ≤ s.work top k ∧
      (Carries k s l → t.work top k < s.work top k) := by
  obtain ⟨q, hst⟩ := keyStep_of_step ht
  have hclr := hst.cleared h.cleared
  by_cases hq : q = k
  · subst hq
    rcases h.phase with hgath | hsunk
    · obtain ⟨hphase, hlt⟩ := hgath.step hpart.total_relation hput hst
      exact ⟨⟨hclr, hphase⟩, hlt.le, fun _ => hlt⟩
    · obtain ⟨hphase, hle, hnot⟩ := hsunk.step h.cleared hl hst
      exact ⟨⟨hclr, .inr hphase⟩, hle, fun hcar => absurd hcar hnot⟩
  · have hfrm : Frame top k s t := hst.frame h.cleared hq
    have hwork : t.work top k = s.work top k := hfrm.totals weight (load k) fun p hp => if_neg hp
    exact ⟨⟨hclr, h.phase.imp (·.frame hfrm) (·.frame hfrm)⟩, hwork.le,
      fun hcar => absurd (hst.eq_of_carries hcar) hq⟩

theorem Gathering.enabled (h : Gathering codec top k n P s) (hout : Outstanding top k s) :
    ∃ l t, Carries k s l ∧ (modules codec txnPut top).step l s = some t := by
  obtain ⟨p, hp, hk⟩ | ⟨i, hi, hne, hsome⟩ := hout
  · obtain ⟨m, hget⟩ := List.getElem?_of_mem hp
    obtain ⟨hi, -⟩ := h.flight p hp hk
    have hstep : ∃ t, (modules codec txnPut top).step (.push m p.2.entries) s = some t := by
      simp only [modules, hget]
      rw [if_pos ⟨hi, isPerm_iff.2 (List.Perm.refl _)⟩]
      exact ⟨_, rfl⟩
    obtain ⟨t, ht⟩ := hstep
    exact ⟨.push m p.2.entries, t, ⟨p, hget, hk⟩, ht⟩
  · exact ⟨.timer i k, _, rfl, if_pos ⟨hi, hne, hsome⟩⟩

/-- Idsets that stand for themselves. -/
def plainCodec : IdsetCodec (Finset ℕ) where
  encode ids := ids
  decode ids := if ∀ id ∈ ids, id < Libidset.invalidId then some ids else none
  valid h := by
    rw [ite_none_right_eq_some] at h
    obtain ⟨hvalid, heq⟩ := h
    cases heq
    exact hvalid
  decode_encode h := if_pos h

/-- A chain of three brokers. -/
def chain : Broker.Topology where
  size := 3
  parent i := i - 1
  parent_lt := @Nat.sub_one_lt

/-- Pushes for three ids, one to each rank. Rank 2 forwards its push at once. -/
def threePushes : List (ℕ × Push (Finset ℕ)) :=
  [(2, { key := "a", total := 3, entries := [({0}, .integer 5)], fwdCount := some 1 }),
    (1, { key := "a", total := 3, entries := [({1}, .integer 7)], timeout := some 2 }),
    (0, { key := "a", total := 3, entries := [({2}, .integer 5)] })]

theorem partition_threePushes : Partition plainCodec chain "a" 3 threePushes where
  pos := by decide
  placed := by decide
  total := by decide
  nonempty := by decide
  entries := by
    have hent : ∀ (id : ℕ) (v : ℤ), id < Libidset.invalidId →
        EntryOk plainCodec ({id}, .integer v) := fun id v hid =>
      ⟨{id}, v, plainCodec.decode_encode (by simpa using hid), Finset.singleton_nonempty id, rfl⟩
    simp only [threePushes, forall_mem_cons]
    exact ⟨fun _ => ⟨hent 0 5 (by decide), forall_mem_nil _⟩,
      fun _ => ⟨hent 1 7 (by decide), forall_mem_nil _⟩,
      fun _ => ⟨hent 2 5 (by decide), forall_mem_nil _⟩, forall_mem_nil _⟩
  once := by decide +kernel

/-- The requests are handled in order, but the timer of rank 1 fires between the two that come to
it. -/
def threeSteps : List (Label (Finset ℕ)) :=
  [.push 0 [({0}, .integer 5)], .push 2 [({0}, .integer 5)], .timer 1 "a",
    .push 0 [({1}, .integer 7)], .timer 1 "a", .push 0 [({2}, .integer 5)],
    .push 0 [({0}, .integer 5)], .push 0 [({1}, .integer 7)]]

/-- No request is in flight, and only rank 0 has an aggregate for the key. -/
def Instance.arrived (top : Broker.Topology) (k : String) (s : Instance (Finset ℕ)) : Bool :=
  s.net.flight.isEmpty ∧ ∀ i < top.size, i ≠ 0 → (s.net.node i k).aggregate.isNone

end FluxCore.Aggregator
