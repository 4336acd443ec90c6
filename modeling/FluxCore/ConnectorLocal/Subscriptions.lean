import FluxCore.ConnectorLocal.Frame

/-!
# Subscriptions of Clients Are Counted

A client has a count for each topic, and the module has one for each topic over all clients,
of which each unit stands for a client and not for a subscription. The destructor of an entry
of the first table takes a unit from the second, and the destructor of an entry there ends
the subscription at the broker.

**The counts are exact** (`subscriptions_exact`): a client gets an event if and only if it has
subscribed more often than it has unsubscribed to some initial part of the topic, and the
module is subscribed once to each topic that is in use. The invariant `SubsOk` is about the
entries of clients for their subscriptions, so that a step that leaves them as they are keeps
it (`SubsOk.of_same`).
-/

namespace FluxCore.ConnectorLocal.Server

open Function List

/-! ### Entries -/

/-- The number of subscribes minus the number of unsubscribes. -/
def Client.uses (c : Client) (topic : Bytes) : ℕ :=
  c.subscribed.count topic - c.unsubscribed.count topic

/-- A count in a table, which has no entries for zero. -/
def positive (n : ℕ) : Option ℕ := if n = 0 then none else some n

/-- The table of a client has the difference of its subscribes and unsubscribes. -/
def Entry.Exact (e : Entry) : Prop :=
  ∀ topic, e.unsubscribed.count topic ≤ e.subscribed.count topic ∧ e.subscriptions.lookup topic
      = positive (e.subscribed.count topic - e.unsubscribed.count topic)

/-- The entries of the clients. -/
def Ctx.entries (s : Ctx) : List Entry := s.clients.map Client.entry

/-- The number of clients with a subscription. -/
def users (es : List Entry) (topic : Bytes) : ℕ := es.countP fun e => topic ∈ e.subscriptions

/-- The table of the module has the numbers `N`, and the broker one subscription for each number
that is not zero. -/
def Counts (s : Ctx) (N : Bytes → ℕ) : Prop :=
  ∀ topic, s.subscriptions.lookup topic = positive (N topic) ∧
    s.brokerSubs.count topic = if N topic = 0 then 0 else 1

/-- **The invariant of the counts.** -/
structure SubsOk (s : Ctx) : Prop where
  nodup : (s.entries.map Entry.uuid).Nodup
  used : ∀ e ∈ s.entries, e.uuid ∈ s.used
  exact : ∀ e ∈ s.entries, e.Exact
  counts : Counts s (users s.entries)

/-- A step has left the entries as they were. -/
structure SameSubs (s s' : Ctx) : Prop where
  entries : s'.entries = s.entries
  subscriptions : s'.subscriptions = s.subscriptions
  brokerSubs : s'.brokerSubs = s.brokerSubs
  used : s'.used = s.used

theorem SubsOk.of_same (h : SubsOk s) (hs : SameSubs s s') : SubsOk s' := by
  obtain ⟨hents, hsubs, hbroker, hused⟩ := hs
  refine ⟨?_, ?_, ?_, ?_⟩
  · rw [hents]
    exact h.nodup
  · rw [hents, hused]
    exact h.used
  · rw [hents]
    exact h.exact
  · rw [hents, Counts, hsubs, hbroker]
    exact h.counts

theorem Calm.sameSubs (h : Calm s s') : SameSubs s s' := by
  obtain ⟨f, hf, hcalm⟩ := h.clients
  refine { h with entries := ?_ }
  rw [Ctx.entries, Ctx.entries, hf, List.map_map]
  exact map_congr_left fun c _ => (hcalm c).entry

section Frame

variable {s : Ctx}

theorem entries_modify (hf : ∀ c, (f c).entry = g c.entry) :
    (s.modify uuid f).entries = KeyedList.replace Entry.uuid uuid g s.entries := by
  rw [Ctx.entries, Ctx.modify, KeyedList.replace, KeyedList.replace, Ctx.entries, List.map_map,
    List.map_map]
  refine map_congr_left fun c _ => ?_
  rw [Function.comp_apply, Function.comp_apply, apply_ite Client.entry, hf]
  rfl

theorem sameSubs_modify (hf : ∀ c, (f c).entry = c.entry) : SameSubs s (s.modify uuid f) := by
  refine ⟨?_, rfl, rfl, rfl⟩
  rw [entries_modify (g := id) hf, KeyedList.replace]
  simp only [id_eq, ite_self, List.map_id']

theorem sameSubs_eventCb : SameSubs s (eventCb s msg) := by
  rw [eventCb]
  split
  · exact (Calm.refl s).sameSubs
  refine ⟨?_, rfl, rfl, rfl⟩
  rw [Ctx.entries, Ctx.entries, List.map_map]
  refine map_congr_left fun c _ => ?_
  rw [Function.comp_apply, apply_ite Client.entry]
  exact ite_self _

theorem sameSubs_responseCb : SameSubs s (responseCb s msg) := by
  rw [responseCb]
  split
  · split
    · exact sameSubs_modify fun _ => rfl
    · exact (Calm.refl s).sameSubs
  · exact (Calm.refl s).sameSubs

end Frame

/-! ### The table of the module -/

section Table

theorem positive_eq_none_iff : positive n = none ↔ n = 0 := by
  rw [positive]
  split_ifs with h <;> simp [h]

theorem positive_eq_some_iff : positive n = some m ↔ n = m ∧ m ≠ 0 := by
  rw [positive]
  split_ifs with h
  · simp only [false_iff, not_and, not_not]
    rintro rfl
    exact h
  rw [Option.some_inj]
  constructor
  · rintro rfl
    exact ⟨rfl, h⟩
  · exact And.left

theorem counts_globalSubscribe (h : Counts s N) :
    Counts (globalSubscribe s topic) (update N topic (N topic + 1)) := by
  intro t
  obtain ⟨hlk, hcnt⟩ := h topic
  rw [globalSubscribe]
  by_cases ht : t = topic
  · subst ht
    rw [update_self]
    split
    · rename_i usecount hsome
      rw [hlk, positive_eq_some_iff] at hsome
      obtain ⟨rfl, hne⟩ := hsome
      rw [AList.lookup_insert, hcnt, if_neg hne]
      exact ⟨rfl, rfl⟩
    · rename_i hnone
      rw [hlk, positive_eq_none_iff] at hnone
      rw [AList.lookup_insert, count_cons_self, hcnt, if_pos hnone, hnone]
      exact ⟨rfl, rfl⟩
  · rw [update_of_ne ht]
    split
    · rw [AList.lookup_insert_ne ht]
      exact h t
    · rw [AList.lookup_insert_ne ht, count_cons_of_ne (Ne.symm ht)]
      exact h t

theorem counts_globalUnsubscribe (h : Counts s N) (hpos : N topic ≠ 0) :
    Counts (globalUnsubscribe s topic) (update N topic (N topic - 1)) := by
  intro t
  obtain ⟨hlk, hcnt⟩ := h topic
  rw [positive, if_neg hpos] at hlk
  rw [if_neg hpos] at hcnt
  rw [globalUnsubscribe, hlk]
  by_cases ht : t = topic
  · subst ht
    rw [update_self]
    by_cases hlast : N t - 1 = 0
    · simp only [hlast, if_true]
      rw [AList.lookup_erase, count_erase_self, hcnt]
      exact ⟨rfl, rfl⟩
    simp only [hlast, if_false]
    rw [AList.lookup_insert, hcnt, positive, if_neg hlast]
    exact ⟨rfl, rfl⟩
  · rw [update_of_ne ht]
    by_cases hlast : N topic - 1 = 0
    · simp only [hlast, if_true]
      rw [AList.lookup_erase_ne ht, count_erase_of_ne ht]
      exact h t
    simp only [hlast, if_false]
    rw [AList.lookup_insert_ne ht]
    exact h t

theorem counts_foldl_globalUnsubscribe {topics : List Bytes} (hnd : topics.Nodup)
    (h : Counts s N) (hpos : ∀ t ∈ topics, N t ≠ 0) :
    Counts (topics.foldl globalUnsubscribe s) fun t => if t ∈ topics then N t - 1 else N t := by
  induction topics generalizing s N with
  | nil => simpa using h
  | cons topic topics ih =>
    rw [nodup_cons] at hnd
    have hrest := ih hnd.2 (counts_globalUnsubscribe h (hpos topic mem_cons_self))
      fun t ht => by
        have hne : t ≠ topic := fun heq => hnd.1 (heq ▸ ht)
        rw [update_of_ne hne]
        exact hpos t (mem_cons_of_mem _ ht)
    have hfun : (fun t => if t ∈ topics then update N topic (N topic - 1) t - 1
          else update N topic (N topic - 1) t)
        = fun t => if t ∈ topic :: topics then N t - 1 else N t := by
      funext t
      by_cases ht : t = topic
      · subst ht
        rw [if_neg hnd.1, update_self, if_pos mem_cons_self]
      · rw [update_of_ne ht]
        simp only [mem_cons, ht, false_or]
    rw [hfun] at hrest
    exact hrest

end Table

/-! ### Steps that change the entries -/

section Steps

variable {s s' : Ctx} {e : Entry}

theorem globalSubscribe_clients (s : Ctx) (topic : Bytes) :
    (globalSubscribe s topic).clients = s.clients ∧ (globalSubscribe s topic).used = s.used := by
  rw [globalSubscribe]
  split <;> exact ⟨rfl, rfl⟩

theorem globalUnsubscribe_clients (s : Ctx) (topic : Bytes) :
    (globalUnsubscribe s topic).clients = s.clients ∧
      (globalUnsubscribe s topic).used = s.used := by
  rw [globalUnsubscribe]
  split
  · exact ⟨rfl, rfl⟩
  · split_ifs <;> exact ⟨rfl, rfl⟩

theorem foldl_globalUnsubscribe_clients (topics : List Bytes) (s : Ctx) :
    (topics.foldl globalUnsubscribe s).clients = s.clients ∧
      (topics.foldl globalUnsubscribe s).used = s.used := by
  induction topics generalizing s with
  | nil => exact ⟨rfl, rfl⟩
  | cons topic topics ih =>
    obtain ⟨hcls, hused⟩ := globalUnsubscribe_clients s topic
    obtain ⟨hcls', hused'⟩ := ih (globalUnsubscribe s topic)
    exact ⟨hcls'.trans hcls, hused'.trans hused⟩

theorem entries_congr (h : s'.clients = s.clients) : s'.entries = s.entries :=
  congrArg (List.map Client.entry) h

theorem users_replace (h : SubsOk s) (he : e ∈ s.entries) (t : Bytes) :
    users (KeyedList.replace Entry.uuid e.uuid g s.entries) t
        + (if t ∈ e.subscriptions then 1 else 0)
      = users s.entries t + (if t ∈ (g e).subscriptions then 1 else 0) := by
  have hcnt := KeyedList.countP_replace h.nodup he g fun e => t ∈ e.subscriptions
  simp only [decide_eq_true_eq] at hcnt
  exact hcnt

theorem SubsOk.replace (h : SubsOk s) (he : e ∈ s.entries) (hg : ∀ e, (g e).uuid = e.uuid)
    (hex : (g e).Exact)
    (hents : s'.entries = KeyedList.replace Entry.uuid e.uuid g s.entries)
    (hused : s'.used = s.used) (hcnts : Counts s' (users s'.entries)) : SubsOk s' := by
  refine ⟨?_, ?_, ?_, hcnts⟩
  · rw [hents, KeyedList.map_replace hg]
    exact h.nodup
  · intro e' he'
    rw [hents] at he'
    rw [hused]
    rcases KeyedList.mem_replace he' with ⟨hmem, -⟩ | ⟨x, hx, -, rfl⟩
    · exact h.used e' hmem
    · rw [hg]
      exact h.used x hx
  · intro e' he'
    rw [hents] at he'
    rcases KeyedList.mem_replace he' with ⟨hmem, -⟩ | ⟨x, hx, hkey, rfl⟩
    · exact h.exact e' hmem
    · rw [inj_on_of_nodup_map h.nodup hx he hkey]
      exact hex

theorem mem_entries (hc : c ∈ s.clients) : c.entry ∈ s.entries := List.mem_map_of_mem hc

theorem SubsOk.lookup (h : SubsOk s) (hc : c ∈ s.clients) (topic : Bytes) :
    c.subscriptions.lookup topic = positive (c.uses topic) :=
  (h.exact _ (mem_entries hc) topic).2

/-- The entry with one more use of a topic. -/
def Entry.use (e : Entry) (topic : Bytes) (usecount : ℕ) : Entry :=
  { e with
    subscriptions := e.subscriptions.insert topic usecount
    subscribed := topic :: e.subscribed }

/-- The entry with one use of a topic less. -/
def Entry.unuse (e : Entry) (topic : Bytes) (usecount : ℕ) : Entry :=
  { e with
    subscriptions :=
      if usecount = 0 then e.subscriptions.erase topic else e.subscriptions.insert topic usecount
    unsubscribed := topic :: e.unsubscribed }

theorem Entry.Exact.use (he : e.Exact)
    (hn : e.subscribed.count topic - e.unsubscribed.count topic = n) :
    (e.use topic (n + 1)).Exact := by
  intro t
  obtain ⟨hle, hlk⟩ := he t
  simp only [Entry.use]
  by_cases ht : t = topic
  · subst ht
    rw [AList.lookup_insert, count_cons_self, positive, if_neg (by omega)]
    exact ⟨by omega, congrArg some (by omega)⟩
  · rw [AList.lookup_insert_ne ht, count_cons_of_ne (Ne.symm ht)]
    exact ⟨hle, hlk⟩

theorem Entry.Exact.unuse (he : e.Exact)
    (hn : e.subscribed.count topic - e.unsubscribed.count topic = n + 1) :
    (e.unuse topic n).Exact := by
  intro t
  obtain ⟨hle, hlk⟩ := he t
  simp only [Entry.unuse]
  by_cases ht : t = topic
  · subst ht
    rw [count_cons_self]
    refine ⟨by omega, ?_⟩
    by_cases hlast : n = 0
    · rw [if_pos hlast, AList.lookup_erase, positive, if_pos (by omega)]
    · rw [if_neg hlast, AList.lookup_insert, positive, if_neg (by omega)]
      exact congrArg some (by omega)
  · rw [count_cons_of_ne (Ne.symm ht)]
    refine ⟨hle, ?_⟩
    by_cases hlast : n = 0
    · rw [if_pos hlast, AList.lookup_erase_ne ht]
      exact hlk
    · rw [if_neg hlast, AList.lookup_insert_ne ht]
      exact hlk

theorem users_use (h : SubsOk s) (he : e ∈ s.entries) (n : ℕ) :
    users (KeyedList.replace Entry.uuid e.uuid (·.use topic n) s.entries)
      = if topic ∈ e.subscriptions then users s.entries
        else update (users s.entries) topic (users s.entries topic + 1) := by
  funext t
  have hcnt := users_replace (g := (·.use topic n)) h he t
  have hmem : t ∈ (e.use topic n).subscriptions ↔ t = topic ∨ t ∈ e.subscriptions :=
    AList.mem_insert _
  by_cases ht : t = topic
  · subst ht
    rw [if_pos (hmem.2 (.inl rfl))] at hcnt
    split_ifs at hcnt ⊢ with hin
    · omega
    · rw [update_self]
      omega
  · simp only [hmem, ht, false_or] at hcnt
    split_ifs
    · omega
    · rw [update_of_ne ht]
      omega

theorem users_unuse (h : SubsOk s) (he : e ∈ s.entries) (htop : topic ∈ e.subscriptions)
    (n : ℕ) : users (KeyedList.replace Entry.uuid e.uuid (·.unuse topic n) s.entries)
      = if n = 0 then update (users s.entries) topic (users s.entries topic - 1)
        else users s.entries := by
  funext t
  have hcnt := users_replace (g := (·.unuse topic n)) h he t
  have hmem : t ∈ (e.unuse topic n).subscriptions
      ↔ if n = 0 then t ≠ topic ∧ t ∈ e.subscriptions else t = topic ∨ t ∈ e.subscriptions := by
    rw [Entry.unuse]
    split_ifs
    · exact AList.mem_erase
    · exact AList.mem_insert _
  by_cases hlast : n = 0
  · rw [if_pos hlast] at hmem ⊢
    by_cases ht : t = topic
    · subst ht
      rw [if_pos htop, if_neg fun hin => (hmem.1 hin).1 rfl] at hcnt
      rw [update_self]
      omega
    · simp only [hmem, ne_eq, ht, not_false_eq_true, true_and] at hcnt
      rw [update_of_ne ht]
      omega
  · rw [if_neg hlast] at hmem ⊢
    by_cases ht : t = topic
    · subst ht
      rw [if_pos htop, if_pos (hmem.2 (.inl rfl))] at hcnt
      omega
    · simp only [hmem, ht, false_or] at hcnt
      omega

theorem entries_use (s : Ctx) (c : Client) (topic : Bytes) (n : ℕ) :
    (s.modify c.uuid (·.use topic n)).entries
      = KeyedList.replace Entry.uuid c.entry.uuid (·.use topic n) s.entries :=
  entries_modify fun _ => rfl

theorem entries_unuse (s : Ctx) (c : Client) (topic : Bytes) (n : ℕ) :
    (s.modify c.uuid (·.unuse topic n)).entries
      = KeyedList.replace Entry.uuid c.entry.uuid (·.unuse topic n) s.entries :=
  entries_modify fun _ => rfl

section

variable (h : SubsOk s)
include h

/-- **A subscribe** keeps the counts exact. -/
theorem SubsOk.subscribe (hc : c ∈ s.clients) (topic : Bytes) :
    SubsOk (clientSubscribe s c topic) := by
  have he := mem_entries hc
  have hlk := h.lookup hc topic
  rw [clientSubscribe]
  cases hn : c.subscriptions.lookup topic with
  | some n =>
    rw [hn, eq_comm, positive_eq_some_iff] at hlk
    have hmem : topic ∈ c.entry.subscriptions :=
      AList.lookup_isSome.1 (Option.isSome_of_eq_some hn)
    refine h.replace (g := (·.use topic (n + 1))) he (fun _ => rfl)
      ((h.exact _ he).use hlk.1) (entries_use s c _ _) rfl ?_
    rw [entries_use, users_use h he, if_pos hmem]
    exact h.counts
  | none =>
    rw [hn, eq_comm, positive_eq_none_iff] at hlk
    have hmem : topic ∉ c.entry.subscriptions := AList.lookup_eq_none.1 hn
    obtain ⟨hcls, hused⟩ := globalSubscribe_clients s topic
    have hrpl := entries_use (globalSubscribe s topic) c topic 1
    rw [entries_congr hcls] at hrpl
    refine h.replace (g := (·.use topic 1)) he (fun _ => rfl) ((h.exact _ he).use hlk)
      hrpl hused ?_
    rw [hrpl, users_use h he, if_neg hmem]
    exact counts_globalSubscribe h.counts

/-- **An unsubscribe** that succeeds keeps the counts exact. -/
theorem SubsOk.unsubscribe (hc : c ∈ s.clients) (hs' : clientUnsubscribe s c topic = .ok s') :
    SubsOk s' := by
  have he := mem_entries hc
  have hlk := h.lookup hc topic
  rw [clientUnsubscribe] at hs'
  cases hn : c.subscriptions.lookup topic with
  | none =>
    rw [hn] at hs'
    cases hs'
  | some n =>
    rw [hn, eq_comm, positive_eq_some_iff] at hlk
    have hmem : topic ∈ c.entry.subscriptions :=
      AList.lookup_isSome.1 (Option.isSome_of_eq_some hn)
    have hex : (c.entry.unuse topic (n - 1)).Exact :=
      (h.exact _ he).unuse (hlk.1.trans (by omega))
    have husr := users_unuse h he hmem (n - 1)
    have hcnts : Counts (s.modify c.uuid (·.unuse topic (n - 1))) (users s.entries) :=
      h.counts
    simp only [hn] at hs'
    by_cases hlast : n - 1 = 0
    · rw [if_pos hlast] at hs' husr
      cases hs'
      obtain ⟨hcls, hused⟩ :=
        globalUnsubscribe_clients (s.modify c.uuid (·.unuse topic (n - 1))) topic
      have hents := entries_congr hcls
      rw [entries_unuse] at hents
      refine h.replace (g := (·.unuse topic (n - 1))) he (fun _ => rfl) hex hents hused ?_
      rw [hents, husr]
      refine counts_globalUnsubscribe hcnts ?_
      exact (countP_pos_iff.2 ⟨_, he, decide_eq_true hmem⟩).ne'
    · rw [if_neg hlast] at hs' husr
      cases hs'
      refine h.replace (g := (·.unuse topic (n - 1))) he (fun _ => rfl) hex
        (entries_unuse s c _ _) rfl ?_
      rw [entries_unuse, husr]
      exact hcnts

theorem SubsOk.create (userid rolemask : UInt32) (hnew : uuid ∉ s.used) :
    SubsOk (clientCreate s uuid userid rolemask) := by
  have hents : (clientCreate s uuid userid rolemask).entries
      = s.entries ++ [{ uuid := uuid, subscriptions := ∅, subscribed := []
                        unsubscribed := [] }] := by
    rw [Ctx.entries, clientCreate, map_append]
    rfl
  refine ⟨?_, ?_, ?_, ?_⟩
  · rw [hents, map_append, nodup_append]
    refine ⟨h.nodup, nodup_singleton _, ?_⟩
    rintro _ hmem _ hnew' rfl
    obtain ⟨e, he, heq⟩ := List.mem_map.1 hmem
    have huuid : e.uuid = uuid := heq.trans (mem_singleton.1 hnew')
    exact hnew (huuid ▸ h.used e he)
  · intro e he
    rw [hents, mem_append, mem_singleton] at he
    rcases he with he | rfl
    · exact mem_cons_of_mem _ (h.used e he)
    · exact mem_cons_self
  · intro e he
    rw [hents, mem_append, mem_singleton] at he
    rcases he with he | rfl
    · exact h.exact e he
    · exact fun t => ⟨le_rfl, rfl⟩
  · have husr : users (clientCreate s uuid userid rolemask).entries = users s.entries := by
      funext t
      rw [hents, users, countP_append, countP_singleton]
      simp [users]
    rw [husr]
    exact h.counts

/-- **The end of a client** takes its uses from the table of the module. -/
theorem SubsOk.destroy (hc : c ∈ s.clients) {topics : List Bytes}
    (htops : topics.Perm c.subscriptions.keys) (names : List Bytes) :
    SubsOk (clientDestroy s c topics names) := by
  have he := mem_entries hc
  have hsame : SameSubs s (c.disconnectNotify.foldl (disconnectSendmsg c.uuid)
      (clientDeregisterServices s names)) :=
    (calm_deregister names c.disconnectNotify).sameSubs
  rw [clientDestroy]
  generalize c.disconnectNotify.foldl (disconnectSendmsg c.uuid)
    (clientDeregisterServices s names) = s₁ at hsame ⊢
  have h₁ := h.of_same hsame
  obtain ⟨hcls, hused⟩ := foldl_globalUnsubscribe_clients topics s₁
  have hmem : ∀ t, t ∈ topics ↔ t ∈ c.entry.subscriptions := fun t => htops.mem_iff
  rw [← hsame.entries] at he
  have hcnts := counts_foldl_globalUnsubscribe
    (htops.nodup_iff.2 c.subscriptions.keys_nodup) h₁.counts fun t ht =>
      (countP_pos_iff.2 ⟨_, he, decide_eq_true ((hmem t).1 ht)⟩).ne'
  have hfilt : Ctx.entries { topics.foldl globalUnsubscribe s₁ with
        clients := (topics.foldl globalUnsubscribe s₁).clients.filter (·.uuid ≠ c.uuid) }
      = s₁.entries.filter (Entry.uuid · ≠ c.entry.uuid) := by
    rw [← entries_congr hcls, Ctx.entries, Ctx.entries, List.filter_map]
    rfl
  refine ⟨?_, ?_, ?_, ?_⟩
  · rw [hfilt]
    exact h₁.nodup.sublist (filter_sublist.map _)
  · intro e' he'
    rw [hfilt] at he'
    exact hused ▸ h₁.used e' (mem_of_mem_filter he')
  · intro e' he'
    rw [hfilt] at he'
    exact h₁.exact e' (mem_of_mem_filter he')
  · have husr : users (s₁.entries.filter (Entry.uuid · ≠ c.entry.uuid))
        = fun t => if t ∈ topics then users s₁.entries t - 1 else users s₁.entries t := by
      funext t
      have hcnt := KeyedList.countP_remove h₁.nodup he fun e => t ∈ e.subscriptions
      simp only [decide_eq_true_eq] at hcnt
      simp only [users, hmem t]
      split_ifs at hcnt ⊢ <;> omega
    rw [hfilt, husr]
    exact hcnts

theorem SubsOk.read (hc : c ∈ s.clients) (msg : Message) :
    SubsOk (clientReadCb s c msg) := by
  rcases clientReadCb_cases s c msg with hcalm | ⟨msg', hread⟩ | ⟨msg', hread⟩
  · exact h.of_same hcalm.sameSubs
  · rw [hread, subRequest]
    split
    · exact h.of_same (calm_respond _).sameSubs
    · exact (h.subscribe hc _).of_same (calm_respond _).sameSubs
  rw [hread, subRequest]
  split
  · exact h.of_same (calm_respond _).sameSubs
  rename_i topic _
  rw [if_neg Bool.false_ne_true]
  cases hunsub : clientUnsubscribe s c topic with
  | error e => exact h.of_same (calm_respond _).sameSubs
  | ok s' => exact (h.unsubscribe hc hunsub).of_same (calm_respond _).sameSubs

/-- **One step** of the module keeps the counts exact. -/
theorem SubsOk.step (hs' : (server fnmatch).step l s = some s') : SubsOk s' := by
  cases moved_of_step hs' with
  | connect hnew => exact h.create _ _ hnew
  | disconnect hc htops hnms => exact h.destroy hc htops _
  | read hc => exact h.read hc _
  | response htype => exact h.of_same sameSubs_responseCb
  | event => exact h.of_same sameSubs_eventCb
  | request hhs => exact h.of_same (calm_requestCb (handles_request hhs)).sameSubs
  | @reply i k result hk =>
    have h' : SubsOk { s with pending := s.pending.eraseIdx i } := h.of_same ⟨rfl, rfl, rfl, rfl⟩
    exact h'.of_same (calm_call k result).sameSubs

end

end Steps

/-! ### Whole runs -/

section Runs

theorem subsOk_reach (hs : (server fnmatch).Reach (fun _ _ => True) Start s) : SubsOk s := by
  refine hs.invariant SubsOk ?_ fun s l t _ h _ ht => h.step ht
  rintro s rfl
  exact ⟨nodup_nil, nofun, nofun, fun _ => ⟨rfl, rfl⟩⟩

theorem SubsOk.mem_iff (h : SubsOk s) (hc : c ∈ s.clients) (topic : Bytes) :
    topic ∈ c.subscriptions ↔ 0 < c.uses topic := by
  rw [← AList.lookup_isSome, h.lookup hc, positive]
  split_ifs with hzero
  · exact iff_of_false Bool.false_ne_true (by omega)
  · exact iff_of_true rfl (by omega)

theorem SubsOk.users_iff (h : SubsOk s) (topic : Bytes) :
    users s.entries topic ≠ 0 ↔ ∃ c ∈ s.clients, 0 < c.uses topic := by
  rw [← Nat.pos_iff_ne_zero, users, countP_pos_iff]
  constructor
  · rintro ⟨e, he, hmem⟩
    obtain ⟨c, hc, rfl⟩ := List.mem_map.1 he
    exact ⟨c, hc, (h.mem_iff hc topic).1 (of_decide_eq_true hmem)⟩
  · rintro ⟨c, hc, hpos⟩
    exact ⟨c.entry, mem_entries hc, decide_eq_true ((h.mem_iff hc topic).2 hpos)⟩

theorem SubsOk.clientIsSubscribed_iff (h : SubsOk s) (hc : c ∈ s.clients) (topic : Bytes) :
    clientIsSubscribed c topic = true ↔ ∃ t, 0 < c.uses t ∧ t <+: topic := by
  have hmem := h.mem_iff hc
  rw [clientIsSubscribed, Bool.or_eq_true, AList.lookup_isSome, List.any_eq_true]
  constructor
  · rintro (ht | ⟨t, ht, hpre⟩)
    · exact ⟨topic, (hmem topic).1 ht, prefix_rfl⟩
    · exact ⟨t, (hmem t).1 ht, isPrefixOf_iff_prefix.1 hpre⟩
  · rintro ⟨t, ht, hpre⟩
    exact .inr ⟨t, (hmem t).2 ht, isPrefixOf_iff_prefix.2 hpre⟩

/-- What an event does for a client. -/
def SentOnce (msg : Message) (topic : Bytes) (c c' : Client) : Prop :=
  ((∃ t, 0 < c.uses t ∧ t <+: topic) ∧ allowedMessage c msg = true →
      c'.outqueue = c.outqueue ++ [msg]) ∧
    (¬ ((∃ t, 0 < c.uses t ∧ t <+: topic) ∧ allowedMessage c msg = true) →
      c'.outqueue = c.outqueue)

/-- **Subscription counting is exact.** In every state of every run, an event is put on the
queue of a client once if the client uses an initial part of its topic and the message is
allowed, and not at all otherwise; the module has one subscription at the broker for each
topic that some client uses, and no other; and an unsubscribe of a topic that the client does
not use fails. -/
theorem subscriptions_exact (hs : (server fnmatch).Reach (fun _ _ => True) Start s) :
    (∀ msg topic s', msg.topic = some topic → (server fnmatch).step (.event msg) s = some s' →
      List.Forall₂ (SentOnce msg topic) s.clients s'.clients) ∧
    (∀ topic, s.brokerSubs.count topic ≤ 1 ∧
      (topic ∈ s.brokerSubs ↔ ∃ c ∈ s.clients, 0 < c.uses topic)) ∧
    ∀ c ∈ s.clients, ∀ topic, c.uses topic = 0 → clientUnsubscribe s c topic = .error .ENOENT := by
  have h := subsOk_reach hs
  refine ⟨fun msg topic s' htop hstep => ?_, fun topic => ?_, fun c hc topic hzero => ?_⟩
  · simp only [server] at hstep
    split_ifs at hstep
    cases hstep
    simp only [eventCb, htop]
    rw [forall₂_map_right_iff, forall₂_same]
    intro c hc
    have hiff := h.clientIsSubscribed_iff hc topic
    rw [SentOnce, ← hiff, ← Bool.and_eq_true]
    refine ⟨fun hsend => ?_, fun hsend => ?_⟩
    · rw [if_pos hsend]
      rfl
    · rw [if_neg hsend]
  · have hcnt := (h.counts topic).2
    rw [← count_pos_iff, ← h.users_iff, hcnt]
    split_ifs with hzero
    · exact ⟨by omega, iff_of_false (by omega) (not_not.2 hzero)⟩
    · exact ⟨le_rfl, iff_of_true Nat.one_pos hzero⟩
  · have hlk := h.lookup hc topic
    rw [hzero] at hlk
    rw [clientUnsubscribe, hlk]
    rfl

/-- The request of a client to subscribe to a topic, or to unsubscribe from it. -/
def subMessage (subscribe : Bool) (topic : Bytes) : Message :=
  { type := .request, topic := some (ascii (if subscribe then "local.sub" else "local.unsub"))
    payload := [("topic", topic)] }

/-- Two clients subscribe to one topic, the second of them twice; it unsubscribes once, also
from a topic that it does not use, and the first disconnects. -/
def twoSubscribers : List Label :=
  [.connect 1 10 roleUser, .connect 2 20 roleUser, .read 1 (subMessage true [104]),
    .read 2 (subMessage true [104]), .read 2 (subMessage true [104]),
    .read 2 (subMessage false [104]), .read 2 (subMessage false [105]), .disconnect 1 [[104]] []]

/-- The topic is still in use then, and the module is subscribed to it. -/
theorem subscriptions_exact_twoSubscribers :
    ∃ s, (server fun _ _ => false).Reach (fun _ _ => True) Start s ∧
      s.clients.map (·.uses [104]) = [1] ∧ [104] ∈ s.brokerSubs := by
  have hrun : ((server fun _ _ => false).run twoSubscribers {}).map
      (fun s => s.clients.map (·.uses [104])) = some [1] := by
    decide +kernel
  obtain ⟨s, hs, huses⟩ := Option.map_eq_some_iff.1 hrun
  have hrch : (server fun _ _ => false).Reach (fun _ _ => True) Start s :=
    .of_run (.start rfl) hs
  refine ⟨s, hrch, huses, (((subscriptions_exact hrch).2.1 [104]).2).2 ?_⟩
  have hmem : 1 ∈ s.clients.map (·.uses [104]) := by
    rw [huses]
    exact mem_singleton_self 1
  obtain ⟨c, hc, hone⟩ := List.mem_map.1 hmem
  exact ⟨c, hc, by omega⟩

end Runs

end FluxCore.ConnectorLocal.Server
