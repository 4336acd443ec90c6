import FluxCore.Aggregator.Merge

/-!
# One Callback of the Aggregator

What a push, or the timer of an aggregate, does with the relation between ids and values that is
known for a key: it is kept in the slot of the key, or it is sent upstream (`Passes`). Only a push
that makes the aggregate of rank 0 complete calls `aggregate_sink` (`Sinks`).
-/

namespace FluxCore.Aggregator

open List

variable {κ : Type} (codec : IdsetCodec κ) (txnPut : String → Bool) (k : String) (n : ℕ)

/-- What a slot holds. -/
def held (slot : Slot κ) : Multiset (ℕ × Value) := slot.aggregate.elim 0 Aggregate.pairs

/-- A request for the key that can be handled. -/
structure MsgOk (msg : Push κ) : Prop where
  total : BitVec.ofInt 32 msg.total = BitVec.ofNat 32 n
  nonempty : msg.entries ≠ []
  entries : ∀ e ∈ msg.entries, EntryOk codec e

/-- A slot of the rank `i` while ids are on their way: on rank 0 some are missing. -/
structure SlotOk (i : ℕ) (slot : Slot κ) : Prop where
  commits : slot.commits = []
  retries : slot.retries = []
  sent : slot.sent = []
  sunk : slot.sunk = []
  aggregate : ∀ ag ∈ slot.aggregate, Sound n i ag ∧ ag.entries ≠ [] ∧ (i = 0 → ag.pairs.card < n)

/-- A callback that has brought the relation `c` to a slot: it is kept, or it is sent upstream
with what was there before. -/
structure Passes (i : ℕ) (slot : Slot κ) (c : Multiset (ℕ × Value)) (slot' : Slot κ) : Prop where
  rest : SlotOk n i slot'.clear
  sunk : slot'.sunk = []
  sent : ∀ msg ∈ slot'.sent, i ≠ 0 ∧ msg.key = k ∧ MsgOk codec n msg
  once : slot'.sent = [] ∨ slot'.sent.length = 1 ∧ slot'.aggregate = none
  balance : held slot' + (slot'.sent.map fun msg => contents codec msg.entries).sum = held slot + c

/-- A callback that has called `aggregate_sink`, for a complete aggregate. -/
structure Sinks (slot' : Slot κ) (ag : Aggregate) : Prop where
  sound : Sound n 0 ag
  complete : ag.pairs.card = n
  sunk : slot'.sunk = [ag]
  sent : slot'.sent = []
  aggregate : slot'.aggregate = some { ag with given := true }
  commits : slot'.commits = [ag.addr]
  retries : slot'.retries = []

variable {codec} {txnPut} {k} {n} {slot : Slot κ} {ag : Aggregate}

theorem entries_ne_nil (h : ag.pairs ≠ 0) : ag.entries ≠ [] := by
  intro hnil
  rw [Aggregate.pairs, hnil] at h
  exact h rfl

theorem Sound.pairs_ne_zero (h : Sound n i ag) (hne : ag.entries ≠ []) : ag.pairs ≠ 0 := by
  obtain ⟨e, he⟩ := exists_mem_of_ne_nil _ hne
  obtain ⟨id, hid⟩ := h.nonempty e he
  intro hzero
  have hmem : (id, e.value) ∈ ag.pairs := Bucket.mem_pairs.2 ⟨e, he, rfl, hid⟩
  rw [hzero] at hmem
  exact Multiset.notMem_zero _ hmem

theorem contents_ne_zero (hne : members ≠ []) (h : ∀ e ∈ members, EntryOk codec e) :
    contents codec members ≠ 0 := by
  obtain ⟨p, members, rfl⟩ := exists_cons_of_ne_nil hne
  obtain ⟨ids, v, hdec, ⟨id, hid⟩, -⟩ := h p mem_cons_self
  intro hzero
  have hmem : (id, p.2) ∈ contents codec (p :: members) := by
    rw [contents_cons, hdec]
    exact Multiset.mem_add.2 (.inl (Multiset.mem_map.2 ⟨id, hid, rfl⟩))
  rw [hzero] at hmem
  exact Multiset.notMem_zero _ hmem

theorem Sound.count_eq_total (h : Sound n i ag) (hn : n < 2 ^ 32) (hle : ag.pairs.card ≤ n) :
    ag.count = ag.total ↔ ag.pairs.card = n := by
  rw [h.count, h.total]
  constructor
  · intro heq
    have hnat := congrArg BitVec.toNat heq
    rwa [BitVec.toNat_ofNat, BitVec.toNat_ofNat, Nat.mod_eq_of_lt hn,
      Nat.mod_eq_of_lt (hle.trans_lt hn)] at hnat
  · intro heq
    rw [heq]

/-- Two slots that differ in their aggregates only. -/
structure SameRest (slot slot' : Slot κ) : Prop where
  commits : slot'.commits = slot.commits
  retries : slot'.retries = slot.retries
  sent : slot'.sent = slot.sent
  sunk : slot'.sunk = slot.sunk

theorem lookup_sound (h : SlotOk n i slot) (timeout : ℚ)
    (htot : BitVec.ofInt 32 total = BitVec.ofNat 32 n) :
    ∃ slot' ag, slot.lookup total timeout = (slot', ag) ∧ SameRest slot slot' ∧ Sound n i ag ∧
      ag.pairs = held slot := by
  rw [Slot.lookup, held]
  cases hag : slot.aggregate with
  | some ag => exact ⟨slot, ag, rfl, ⟨rfl, rfl, rfl, rfl⟩, (h.aggregate ag hag).1, rfl⟩
  | none =>
    refine ⟨_, _, rfl, ⟨rfl, rfl, rfl, rfl⟩, ?_, rfl⟩
    exact {
      given := rfl
      nodup := nodup_nil
      nonempty := forall_mem_nil _
      valid := forall_mem_nil _
      integer := forall_mem_nil _
      total := htot
      count := rfl
      summary := fun _ => .inl ⟨rfl, rfl⟩ }

variable [DecidableEq κ]

theorem forward_ok (h : Sound n i ag) (hne : ag.entries ≠ [])
    (hnd : (ag.pairs.map Prod.fst).Nodup) : MsgOk codec n (ag.forward codec k) where
  total := (BitVec.ofInt_toInt).trans h.total
  nonempty := by
    rw [Aggregate.forward, entriesTojson_eq h hnd, ne_eq, map_eq_nil_iff]
    exact hne
  entries := entryOk_of_mem_entriesTojson h hnd

theorem flush_passes (h : SlotOk n i slot) (hsame : SameRest slot slot') (hi : i ≠ 0)
    (hsnd : Sound n i ag) (hne : ag.entries ≠ []) (hnd : (ag.pairs.map Prod.fst).Nodup)
    (hps : ag.pairs = held slot + c) :
    Passes codec k n i slot c (slot'.flush codec i k ag) := by
  rw [Slot.flush, if_neg hi]
  refine ⟨⟨hsame.commits.trans h.commits, hsame.retries.trans h.retries, rfl, rfl, nofun⟩,
    hsame.sunk.trans h.sunk, ?_, .inr ⟨?_, rfl⟩, ?_⟩
  · simp only [hsame.sent, h.sent, nil_append, mem_singleton]
    rintro msg rfl
    exact ⟨hi, rfl, forward_ok hsnd hne hnd⟩
  · simp only [hsame.sent, h.sent, nil_append, length_singleton]
  · simp only [hsame.sent, h.sent, nil_append, map_cons, map_nil, sum_singleton]
    rw [Aggregate.forward, contents_entriesTojson hsnd hnd, hps]
    exact zero_add _

omit [DecidableEq κ] in
theorem kept_passes (h : SlotOk n i slot) (hsame : SameRest slot slot')
    (hsnd : Sound n i ag) (hne : ag.entries ≠ []) (hps : ag.pairs = held slot + c)
    (hmissing : i = 0 → ag.pairs.card < n) :
    Passes codec k n i slot c { slot' with aggregate := some ag } := by
  refine ⟨⟨hsame.commits.trans h.commits, hsame.retries.trans h.retries, rfl, rfl, ?_⟩,
    hsame.sunk.trans h.sunk, ?_, .inl (hsame.sent.trans h.sent), ?_⟩
  · rintro _ ⟨⟩
    exact ⟨hsnd, hne, hmissing⟩
  · simp only [hsame.sent, h.sent]
    exact forall_mem_nil _
  · simp only [hsame.sent, h.sent, map_nil, sum_nil, add_zero]
    exact hps

theorem pushed_cases (hput : k ≠ "." ∧ txnPut k = true) (h : SlotOk n i slot)
    (hsame : SameRest slot slot') (hsnd : Sound n i ag) (hne : ag.entries ≠ [])
    (hnd : (ag.pairs.map Prod.fst).Nodup) (hps : ag.pairs = held slot + c)
    (hn : n < 2 ^ 32) (hle : ag.pairs.card ≤ n) (timeout : ℚ) :
    Passes codec k n i slot c (slot'.pushed codec txnPut i k ag timeout) ∨
      i = 0 ∧ ag.pairs = held slot + c ∧ Sinks n (slot'.pushed codec txnPut i k ag timeout) ag := by
  have hcmp := hsnd.count_eq_total hn hle
  have hsame' : SameRest slot { slot' with aggregate := some ag } :=
    ⟨hsame.commits, hsame.retries, hsame.sent, hsame.sunk⟩
  rw [Slot.pushed]
  by_cases hi : i = 0
  · subst hi
    rw [if_neg (lt_irrefl 0)]
    by_cases hcnt : ag.count = ag.total
    · rw [if_pos hcnt, Slot.sink]
      refine .inr ⟨rfl, hps, ?_⟩
      simp only [hput.1, hsnd.given, hput.2, if_false, if_true, Bool.false_eq_true]
      exact {
        sound := hsnd
        complete := hcmp.1 hcnt
        sunk := by simp only [hsame.sunk, h.sunk, nil_append]
        sent := hsame.sent.trans h.sent
        aggregate := rfl
        commits := by simp only [hsame.commits, h.commits, nil_append]
        retries := hsame.retries.trans h.retries }
    · rw [if_neg hcnt]
      exact .inl (kept_passes h hsame hsnd hne hps fun _ =>
        lt_of_le_of_ne hle fun heq => hcnt (hcmp.2 heq))
  · rw [if_pos (Nat.pos_of_ne_zero hi)]
    refine .inl ?_
    split
    · exact flush_passes h hsame' hi hsnd hne hnd hps
    · exact kept_passes h hsame hsnd hne hps fun h => absurd h hi

/-- **A push** for the key is kept or sent on, or it makes the aggregate of rank 0 complete. -/
theorem pushCb_cases (hput : k ≠ "." ∧ txnPut k = true) (h : SlotOk n i slot)
    (hmsg : MsgOk codec n msg) (hvis : visit.Perm msg.entries)
    (hnd : ((held slot + contents codec msg.entries).map Prod.fst).Nodup) (hn : n < 2 ^ 32)
    (hle : (held slot + contents codec msg.entries).card ≤ n) :
    Passes codec k n i slot (contents codec msg.entries)
        (slot.pushCb codec txnPut i k msg visit) ∨
      i = 0 ∧ ∃ ag, ag.pairs = held slot + contents codec msg.entries ∧
        Sinks n (slot.pushCb codec txnPut i k msg visit) ag := by
  obtain ⟨slot₁, ag₀, hlk, hsame, hsnd₀, hps₀⟩ :=
    lookup_sound h (msg.timeout.getD Slot.defaultTimeout) hmsg.total
  set ag₁ := ag₀.setFwdCount (msg.fwdCount.getD 0) with hag₁
  obtain ⟨hsnd₁, hps₁⟩ : Sound n i ag₁ ∧ ag₁.pairs = held slot := by
    rw [hag₁, Aggregate.setFwdCount]
    split
    · exact ⟨{ hsnd₀ with }, hps₀⟩
    · exact ⟨hsnd₀, hps₀⟩
  have hperm : contents codec visit = contents codec msg.entries := contents_perm hvis
  obtain ⟨ag₂, hpush, hsnd₂, -, hps₂⟩ := pushJson_sound hsnd₁
    (fun p hp => hmsg.entries p (hvis.mem_iff.1 hp)) (by rw [hps₁, hperm]; exact hnd)
  rw [hps₁, hperm] at hps₂
  have hgiv : ¬ (ag₁.given ∧ ¬ ag₁.entries.isEmpty ∧ ¬ visit.isEmpty) := by
    rw [hsnd₁.given]
    exact fun h => nomatch h.1
  have hcb : slot.pushCb codec txnPut i k msg visit
      = slot₁.pushed codec txnPut i k ag₂ (msg.timeout.getD Slot.defaultTimeout) := by
    simp only [Slot.pushCb, hlk]
    rw [if_neg hgiv, hpush]
  have hne : ag₂.pairs ≠ 0 := by
    rw [hps₂]
    intro hzero
    exact contents_ne_zero hmsg.nonempty hmsg.entries
      (Multiset.le_zero.1 (hzero ▸ Multiset.le_add_left _ _))
  rw [hcb]
  refine (pushed_cases hput h hsame hsnd₂ (entries_ne_nil hne) (hps₂ ▸ hnd) hps₂ hn
    (hps₂ ▸ hle) _).imp_right fun ⟨hi, hps, hsks⟩ => ⟨hi, ag₂, hps, hsks⟩

/-! ### What a callback sends -/

section Sent

omit [DecidableEq κ] in
theorem sinkRetry_sent : (slot.sinkRetry ag).sent = slot.sent := by
  rw [Slot.sinkRetry]
  split <;> rfl

omit [DecidableEq κ] in
theorem sink_sent : (slot.sink txnPut q ag).sent = slot.sent := by
  rw [Slot.sink]
  split_ifs
  · exact sinkRetry_sent
  · rfl
  · rfl
  · exact sinkRetry_sent

omit [DecidableEq κ] in
theorem sinkContinuation_sent : (slot.sinkContinuation addr ok).sent = slot.sent := by
  rw [Slot.sinkContinuation]
  split
  · split_ifs
    · rfl
    · rfl
    · exact sinkRetry_sent
  · rfl

omit [DecidableEq κ] in
theorem sinkAgain_sent : (slot.sinkAgain txnPut q addr).sent = slot.sent := by
  rw [Slot.sinkAgain]
  split
  · split_ifs
    · rfl
    · exact sink_sent
  · rfl

theorem key_of_mem_flush (h : msg ∈ (slot.flush codec i q ag).sent) :
    msg ∈ slot.sent ∨ msg.key = q := by
  rw [Slot.flush] at h
  split at h
  · exact .inl h
  refine (mem_append.1 h).imp_right fun h => ?_
  rw [mem_singleton.1 h]
  rfl

theorem key_of_mem_timerCb (h : msg ∈ (slot.timerCb codec i q).sent) :
    msg ∈ slot.sent ∨ msg.key = q := by
  rw [Slot.timerCb] at h
  split at h
  · exact key_of_mem_flush h
  · exact .inl h

theorem key_of_mem_pushed (h : msg ∈ (slot.pushed codec txnPut i q ag timeout).sent) :
    msg ∈ slot.sent ∨ msg.key = q := by
  let slot₁ : Slot κ := { slot with aggregate := some ag }
  rw [Slot.pushed] at h
  split_ifs at h
  · have hfls : msg ∈ slot₁.sent ∨ msg.key = q := key_of_mem_flush h
    exact hfls
  · exact .inl h
  · have hsink : (slot₁.sink txnPut q ag).sent = slot.sent := sink_sent
    exact .inl (hsink ▸ h)
  · exact .inl h

theorem key_of_mem_pushCb (h : msg ∈ (slot.pushCb codec txnPut i q msg' visit).sent) :
    msg ∈ slot.sent ∨ msg.key = q := by
  have hlk : ∀ total timeout, (slot.lookup total timeout).1.sent = slot.sent := by
    intro total timeout
    rw [Slot.lookup]
    split <;> rfl
  simp only [Slot.pushCb] at h
  rw [← hlk]
  split at h
  · exact .inl h
  split at h
  · exact key_of_mem_pushed h
  · exact .inl h

end Sent

end FluxCore.Aggregator
