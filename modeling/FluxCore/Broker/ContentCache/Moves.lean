import FluxCore.Broker.ContentCache

/-!
# What Changes a Content Cache

The invariant of a content cache (`CacheInv`) and what the parts of its handlers may do to it
(`Moves`). The pieces are: a change of entries, an answer, a new entry, a new RPC, the end of
an RPC, and the removal of an entry. Every handler is a series of such pieces.

The invariant depends on a relation `good` between blobrefs and data, which all data that
come into the cache have. Besides the invariant, `Moves` says what other brokers rely on:
valid entries go away only if they are clean, and a parameter (`Allow`) says which entries
may become clean, which requests may be put off and what may be answered.
-/

namespace FluxCore.Broker.Content

open List

variable {ρ : Type}

/-! ### The invariant -/

/-- The RPC is the one for which the entry has a pending bit. -/
def Entry.Pending (good : Blobref → Bytes → Prop) (e : Entry ρ) : Call → Prop
  | .load r => r = e.blobref ∧ e.loadPending = true
  | .store d => e.storePending = true ∧ good e.blobref d

variable {e : Entry ρ}

theorem Entry.Pending.imp {good : Blobref → Bytes → Prop} {e' : Entry ρ} {call : Call}
    (h : e.Pending good call) (href : e'.blobref = e.blobref)
    (hload : call.isStore = false → e.loadPending = true → e'.loadPending = true)
    (hsto : call.isStore = true → e.storePending = true → e'.storePending = true) :
    e'.Pending good call := by
  cases call with
  | load r => exact ⟨h.1.trans href.symm, hload rfl h.2⟩
  | store d => exact ⟨hsto rfl h.1, href ▸ h.2⟩

/-- The bits and the requests of an entry fit together. -/
structure EntryOk (good : Blobref → Bytes → Prop) (rank : ℕ) (e : Entry ρ) : Prop where
  load_invalid : e.loadPending = true → e.valid = false
  dirty_valid : e.dirty = true → e.valid = true
  data_invalid : e.valid = false → e.data = []
  store_dirty : e.storePending = true → e.dirty = true
  loads : e.loadRequests ≠ [] → e.loadPending = true
  stores : e.storeRequests ≠ [] → e.storePending = true ∧ rank ≠ 0
  good : e.valid = true → good e.blobref e.data

/-- The invariant: entries are in order, futures belong to entries that are waiting for them,
and no entry has been removed that was dirty or that a future was pending on. -/
structure CacheInv (good : Blobref → Bytes → Prop) (c : Cache ρ) : Prop where
  entry : ∀ e ∈ c.entries, EntryOk good c.rank e
  id_unique : ∀ e ∈ c.entries, ∀ e' ∈ c.entries, e.id = e'.id → e = e'
  ref_unique : ∀ e ∈ c.entries, ∀ e' ∈ c.entries, e.blobref = e'.blobref → e = e'
  id_lt : ∀ e ∈ c.entries, e.id < c.next
  future_lt : ∀ f ∈ c.futures, f.id < c.next
  future_entry : ∀ f ∈ c.futures, ∃ e ∈ c.entries, e.id = f.entry ∧ e.Pending good f.call
  future_unique : ∀ f ∈ c.futures, ∀ f' ∈ c.futures, f.entry = f'.entry →
    f.call.isStore = f'.call.isStore → f.id = f'.id
  count : (c.futures.filter fun f => f.call.isStore).length ≤ c.flushBatchCount
  removed : ∀ p ∈ c.removed, p.entry.dirty = false ∧ p.pending = []

theorem cacheInv_new (good : Blobref → Bytes → Prop) (rank : ℕ) (limits : Limits) :
    CacheInv good ({ rank := rank, limits := limits } : Cache ρ) where
  entry := forall_mem_nil _
  id_unique := forall_mem_nil _
  ref_unique := forall_mem_nil _
  id_lt := forall_mem_nil _
  future_lt := forall_mem_nil _
  future_entry := forall_mem_nil _
  future_unique := forall_mem_nil _
  count := le_rfl
  removed := forall_mem_nil _

/-! ### Moves -/

namespace Cache

/-- The cache has the blob. -/
def Valid (c : Cache ρ) (r : Blobref) : Prop := ∃ e ∈ c.entries, e.blobref = r ∧ e.valid = true

/-- The cache has the blob, and it is not dirty. -/
def Clean (c : Cache ρ) (r : Blobref) : Prop :=
  ∃ e ∈ c.entries, e.blobref = r ∧ e.valid = true ∧ e.dirty = false

/-- The request waits for the blob. -/
def LoadWaits (c : Cache ρ) (q : ρ) (r : Blobref) : Prop :=
  ∃ e ∈ c.entries, e.blobref = r ∧ q ∈ e.loadRequests

/-- The request waits until the blob is stored at the next level. -/
def StoreWaits (c : Cache ρ) (q : ρ) (r : Blobref) : Prop :=
  ∃ e ∈ c.entries, e.blobref = r ∧ q ∈ e.storeRequests

end Cache

/-- An answer without data: it is done, or it has failed. -/
def Answer.Plain : Answer → Prop
  | .done => True
  | .error _ => True
  | _ => False

/-- What a series of moves may do: which blobs may become clean, which requests to load and to
store a blob and to flush the cache may be put off, and which answers may be given. -/
structure Allow (ρ : Type) where
  cleaned : Blobref → Prop := fun _ => False
  loads : ρ → Blobref → Prop := fun _ _ => False
  stores : ρ → Blobref → Prop := fun _ _ => False
  flushes : ρ → Prop := fun _ => False
  answers : ρ → Answer → Prop := fun _ _ => False

/-- From `c` to `c'` by moves that are allowed. -/
structure Moves (good : Blobref → Bytes → Prop) (p : Allow ρ) (c c' : Cache ρ) : Prop where
  inv : CacheInv good c'
  rank : c'.rank = c.rank
  backing : c.backing = true → c'.backing = true
  valid {r : Blobref} : c.Valid r → c'.Valid r ∨ c.Clean r ∨ p.cleaned r
  clean {r : Blobref} : c'.Clean r → c.Clean r ∨ p.cleaned r
  loads {q : ρ} {r : Blobref} : c'.LoadWaits q r → c.LoadWaits q r ∨ p.loads q r
  stores {q : ρ} {r : Blobref} : c'.StoreWaits q r → c.StoreWaits q r ∨ p.stores q r
  flushes {q : ρ} : q ∈ c'.flushRequests → q ∈ c.flushRequests ∨ p.flushes q
  answers {q : ρ} {a : Answer} : (q, a) ∈ c'.answers → (q, a) ∈ c.answers ∨ p.answers q a

variable {good : Blobref → Bytes → Prop} {p p' : Allow ρ} {c c' c'' : Cache ρ}

theorem Moves.refl (inv : CacheInv good c) : Moves good p c c :=
  ⟨inv, rfl, id, .inl, .inl, .inl, .inl, .inl, .inl⟩

theorem Moves.trans (m : Moves good p c c') (m' : Moves good p c' c'') : Moves good p c c'' where
  inv := m'.inv
  rank := m'.rank.trans m.rank
  backing h := m'.backing (m.backing h)
  valid h := by
    rcases m.valid h with h | h
    · rcases m'.valid h with h | h | h
      · exact .inl h
      · exact .inr (m.clean h)
      · exact .inr (.inr h)
    · exact .inr h
  clean h := (m'.clean h).elim m.clean .inr
  loads h := (m'.loads h).elim m.loads .inr
  stores h := (m'.stores h).elim m.stores .inr
  flushes h := (m'.flushes h).elim m.flushes .inr
  answers h := (m'.answers h).elim m.answers .inr

/-- What `Moves` depends on. -/
def Cache.core (c : Cache ρ) :=
  (c.rank, c.backing, c.entries, c.futures, c.flushRequests, c.answers, c.removed, c.next,
    c.flushBatchCount)

theorem Moves.congr (m : Moves good p c c') (h : c''.core = c'.core) : Moves good p c c'' := by
  simp only [Cache.core, Prod.mk.injEq] at h
  obtain ⟨hrank, hbacking, hents, hfuts, hflushes, hanss, hremd, hnext, hcnt⟩ := h
  obtain ⟨inv, mrank, mbacking, mvalid, mclean, mloads, mstores, mflushes, manswers⟩ := m
  refine ⟨⟨?_, ?_, ?_, ?_, ?_, ?_, ?_, ?_, ?_⟩, hrank.trans mrank, ?_, ?_, ?_, ?_, ?_, ?_, ?_⟩
  · rw [hents, hrank]
    exact inv.entry
  · rw [hents]
    exact inv.id_unique
  · rw [hents]
    exact inv.ref_unique
  · rw [hents, hnext]
    exact inv.id_lt
  · rw [hfuts, hnext]
    exact inv.future_lt
  · rw [hfuts, hents]
    exact inv.future_entry
  · rw [hfuts]
    exact inv.future_unique
  · rw [hfuts, hcnt]
    exact inv.count
  · rw [hremd]
    exact inv.removed
  · rw [hbacking]
    exact mbacking
  · simp only [Cache.Valid, hents] at mvalid ⊢
    exact mvalid
  · simp only [Cache.Clean, hents] at mclean ⊢
    exact mclean
  · simp only [Cache.LoadWaits, hents] at mloads ⊢
    exact mloads
  · simp only [Cache.StoreWaits, hents] at mstores ⊢
    exact mstores
  · rw [hflushes]
    exact mflushes
  · rw [hanss]
    exact manswers

/-! ### The pieces -/

section

variable (inv : CacheInv good c)
include inv

theorem Moves.enable : Moves good p c { c with backing := true } :=
  ⟨{ inv with }, rfl, fun _ => rfl, .inl, .inl, .inl, .inl, .inl,
    .inl⟩

theorem Moves.setFlushes (h : ∀ q ∈ reqs, q ∈ c.flushRequests ∨ p.flushes q) :
    Moves good p c { c with flushRequests := reqs } :=
  ⟨{ inv with }, rfl, id, .inl, .inl, .inl, .inl, fun {q} => h q,
    .inl⟩

theorem Moves.respondRequests {reqs : List ρ} {a : Answer} (h : ∀ q ∈ reqs, p.answers q a) :
    Moves good p c (c.respondRequests reqs a) := by
  refine ⟨{ inv with }, rfl, id, .inl, .inl, .inl,
    .inl, .inl, fun {q b} hmem => ?_⟩
  rcases mem_append.1 hmem with hmem | hmem
  · exact .inl hmem
  obtain ⟨q', hq', heq⟩ := List.mem_map.1 hmem
  cases heq
  exact .inr (h q hq')

theorem Moves.respond {q : ρ} {a : Answer} (h : p.answers q a) :
    Moves good p c (c.respond q a) :=
  @Moves.respondRequests ρ good p c inv [q] a (forall_mem_singleton.2 h)

end

/-- A change of an entry that keeps it in order, and keeps the futures of it. -/
structure Change (good : Blobref → Bytes → Prop) (p : Allow ρ) (c : Cache ρ)
    (e e' : Entry ρ) : Prop where
  id : e'.id = e.id
  blobref : e'.blobref = e.blobref
  ok : EntryOk good c.rank e'
  pending : ∀ f ∈ c.futures, f.entry = e.id → e.Pending good f.call → e'.Pending good f.call
  valid : e.valid = true → e'.valid = true
  clean : e'.valid = true → e'.dirty = false →
    (e.valid = true ∧ e.dirty = false) ∨ p.cleaned e.blobref
  loads : ∀ q ∈ e'.loadRequests, q ∈ e.loadRequests ∨ p.loads q e.blobref
  stores : ∀ q ∈ e'.storeRequests, q ∈ e.storeRequests ∨ p.stores q e.blobref

theorem Moves.map (inv : CacheInv good c) (h : ∀ e ∈ c.entries, Change good p c e (g e)) :
    Moves good p c { c with entries := c.entries.map g } := by
  have hmem : ∀ x ∈ c.entries.map g, ∃ e ∈ c.entries, x = g e := fun x hx => by
    obtain ⟨e, he, rfl⟩ := List.mem_map.1 hx
    exact ⟨e, he, rfl⟩
  refine ⟨⟨?_, ?_, ?_, ?_, inv.future_lt, ?_, inv.future_unique, inv.count, inv.removed⟩, rfl,
    fun hb => hb, ?_, ?_, ?_, ?_, .inl, .inl⟩
  · intro x hx
    obtain ⟨e, he, rfl⟩ := hmem x hx
    exact (h e he).ok
  · intro x hx y hy hid
    obtain ⟨e, he, rfl⟩ := hmem x hx
    obtain ⟨e', he', rfl⟩ := hmem y hy
    rw [(h e he).id, (h e' he').id] at hid
    rw [inv.id_unique e he e' he' hid]
  · intro x hx y hy href
    obtain ⟨e, he, rfl⟩ := hmem x hx
    obtain ⟨e', he', rfl⟩ := hmem y hy
    rw [(h e he).blobref, (h e' he').blobref] at href
    rw [inv.ref_unique e he e' he' href]
  · intro x hx
    obtain ⟨e, he, rfl⟩ := hmem x hx
    rw [(h e he).id]
    exact inv.id_lt e he
  · intro f hf
    obtain ⟨e, he, hid, hpend⟩ := inv.future_entry f hf
    exact ⟨g e, List.mem_map_of_mem he, (h e he).id.trans hid,
      (h e he).pending f hf hid.symm hpend⟩
  · rintro r ⟨e, he, rfl, hv⟩
    exact .inl ⟨g e, List.mem_map_of_mem he, (h e he).blobref, (h e he).valid hv⟩
  · rintro r ⟨x, hx, rfl, hv, hd⟩
    obtain ⟨e, he, rfl⟩ := hmem x hx
    rw [(h e he).blobref]
    rcases (h e he).clean hv hd with ⟨hv, hd⟩ | hcl
    · exact .inl ⟨e, he, rfl, hv, hd⟩
    · exact .inr hcl
  · rintro q r ⟨x, hx, rfl, hq⟩
    obtain ⟨e, he, rfl⟩ := hmem x hx
    rw [(h e he).blobref]
    exact ((h e he).loads q hq).imp_left fun hq => ⟨e, he, rfl, hq⟩
  · rintro q r ⟨x, hx, rfl, hq⟩
    obtain ⟨e, he, rfl⟩ := hmem x hx
    rw [(h e he).blobref]
    exact ((h e he).stores q hq).imp_left fun hq => ⟨e, he, rfl, hq⟩

theorem Change.refl (h : EntryOk good c.rank e) : Change good p c e e :=
  ⟨rfl, rfl, h, fun _ _ _ h => h, fun hv => hv, fun hv hd => .inl ⟨hv, hd⟩, fun _ => .inl, fun _ => .inl⟩

section

variable (inv : CacheInv good c)
include inv

theorem Moves.modify {e : Entry ρ} (he : e ∈ c.entries) {g : Entry ρ → Entry ρ}
    (h : Change good p c e (g e)) : Moves good p c (c.modify e.id g) := by
  refine Moves.map inv fun e' he' => ?_
  split_ifs with hid
  · rw [inv.id_unique e' he' e he hid]
    exact h
  · exact .refl (inv.entry e' he')

theorem Moves.insert (hnew : ∀ e ∈ c.entries, e.blobref ≠ r) :
    Moves good p c (c.insertEntry (c.cacheEntryCreate r)) := by
  have hmem : ∀ x ∈ c.entries ++ [c.cacheEntryCreate r],
      x ∈ c.entries ∨ x = c.cacheEntryCreate r := fun x hx => by
    simpa using hx
  refine ⟨⟨?_, ?_, ?_, ?_, ?_, ?_, inv.future_unique, inv.count, inv.removed⟩, rfl,
    fun hb => hb, ?_, ?_, ?_, ?_, .inl, .inl⟩
  · intro x hx
    rcases hmem x hx with hx | rfl
    · exact inv.entry x hx
    · exact ⟨nofun, nofun, fun _ => rfl, nofun, fun h => absurd rfl h, fun h => absurd rfl h, nofun⟩
  · intro x hx y hy hid
    rcases hmem x hx with hx | rfl
    · rcases hmem y hy with hy | rfl
      · exact inv.id_unique x hx y hy hid
      · exact absurd hid (inv.id_lt x hx).ne
    rcases hmem y hy with hy | rfl
    · exact absurd hid.symm (inv.id_lt y hy).ne
    · rfl
  · intro x hx y hy href
    rcases hmem x hx with hx | rfl
    · rcases hmem y hy with hy | rfl
      · exact inv.ref_unique x hx y hy href
      · exact absurd href (hnew x hx)
    rcases hmem y hy with hy | rfl
    · exact absurd href.symm (hnew y hy)
    · rfl
  · intro x hx
    rcases hmem x hx with hx | rfl
    · exact Nat.lt_succ_of_lt (inv.id_lt x hx)
    · exact Nat.lt_succ_self _
  · exact fun f hf => Nat.lt_succ_of_lt (inv.future_lt f hf)
  · intro f hf
    obtain ⟨e, he, h⟩ := inv.future_entry f hf
    exact ⟨e, mem_append_left _ he, h⟩
  · rintro r' ⟨e, he, h⟩
    exact .inl ⟨e, mem_append_left _ he, h⟩
  · rintro r' ⟨e, he, hr, hv, hd⟩
    rcases hmem e he with he | rfl
    · exact .inl ⟨e, he, hr, hv, hd⟩
    · cases hv
  · rintro q r' ⟨e, he, hr, hq⟩
    rcases hmem e he with he | rfl
    · exact .inl ⟨e, he, hr, hq⟩
    · cases hq
  · rintro q r' ⟨e, he, hr, hq⟩
    rcases hmem e he with he | rfl
    · exact .inl ⟨e, he, hr, hq⟩
    · cases hq

theorem Moves.send (he : e ∈ c.entries) (hpend : e.Pending good call)
    (hnone : ∀ f ∈ c.futures, f.entry = e.id → f.call.isStore ≠ call.isStore)
    (hn : n = if call.isStore then c.flushBatchCount + 1 else c.flushBatchCount) :
    Moves good p c { c.sendRpc e call with flushBatchCount := n } := by
  have hmem : ∀ f ∈ c.futures ++ [⟨c.next, e.id, call⟩],
      f ∈ c.futures ∨ f = ⟨c.next, e.id, call⟩ := fun f hf => by
    simpa using hf
  refine ⟨⟨inv.entry, inv.id_unique, inv.ref_unique, ?_, ?_, ?_, ?_, ?_, inv.removed⟩, rfl,
    fun hb => hb, .inl, .inl, .inl, .inl, .inl, .inl⟩
  · exact fun e he => Nat.lt_succ_of_lt (inv.id_lt e he)
  · intro f hf
    rcases hmem f hf with hf | rfl
    · exact Nat.lt_succ_of_lt (inv.future_lt f hf)
    · exact Nat.lt_succ_self _
  · intro f hf
    rcases hmem f hf with hf | rfl
    · exact inv.future_entry f hf
    · exact ⟨e, he, rfl, hpend⟩
  · intro f hf f' hf' hent hkind
    rcases hmem f hf with hf | rfl
    · rcases hmem f' hf' with hf' | rfl
      · exact inv.future_unique f hf f' hf' hent hkind
      · exact absurd hkind (hnone f hf hent)
    rcases hmem f' hf' with hf' | rfl
    · exact absurd hkind.symm (hnone f' hf' hent.symm)
    · rfl
  · have hcnt := inv.count
    simp only [Cache.sendRpc, filter_append, length_append, hn]
    cases hkind : call.isStore
    · simpa [hkind] using hcnt
    · simpa [hkind] using hcnt

theorem Moves.take (hf : f ∈ c.futures)
    (hn : n = if f.call.isStore then c.flushBatchCount - 1 else c.flushBatchCount) :
    Moves good p c { c.takeFuture f with flushBatchCount := n } := by
  refine ⟨⟨inv.entry, inv.id_unique, inv.ref_unique, inv.id_lt, ?_, ?_, ?_, ?_, inv.removed⟩, rfl,
    fun hb => hb, .inl, .inl, .inl, .inl, .inl, .inl⟩
  · exact fun f' hf' => inv.future_lt f' (mem_of_mem_filter hf')
  · exact fun f' hf' => inv.future_entry f' (mem_of_mem_filter hf')
  · exact fun f' hf' f'' hf'' =>
      inv.future_unique f' (mem_of_mem_filter hf') f'' (mem_of_mem_filter hf'')
  · have hcnt := inv.count
    simp only [Cache.takeFuture, hn]
    rw [filter_comm]
    split_ifs with hsto
    · have hlt : ((c.futures.filter fun f => f.call.isStore).filter
          fun f' => f'.id ≠ f.id).length < (c.futures.filter fun f => f.call.isStore).length :=
        length_filter_lt_length_iff_exists.2
          ⟨f, mem_filter.2 ⟨hf, hsto⟩, by simp⟩
      omega
    · exact (length_filter_le _ _).trans hcnt

theorem CacheInv.no_future (he : e ∈ c.entries) (hload : e.loadPending = false)
    (hsto : e.storePending = false) :
    ∀ f ∈ c.futures, f.entry ≠ e.id := by
  intro f hf hent
  obtain ⟨e', he', hid, hpend⟩ := inv.future_entry f hf
  obtain rfl : e' = e := inv.id_unique e' he' e he (hid.trans hent)
  cases hcall : f.call with
  | load r =>
    rw [hcall, Entry.Pending, hload] at hpend
    cases hpend.2
  | store d =>
    rw [hcall, Entry.Pending, hsto] at hpend
    cases hpend.1

theorem Moves.remove (he : e ∈ c.entries) (hdty : e.dirty = false)
    (hload : e.loadPending = false) : ∃ c', c.removeEntry e = .ok c' ∧ Moves good p c c' ∧
      c'.entries = c.entries.filter fun e' => e'.blobref ≠ e.blobref := by
  have hok := inv.entry e he
  have hsto : e.storePending = false := by
    refine Bool.eq_false_iff.2 fun h => ?_
    rw [hok.store_dirty h] at hdty
    cases hdty
  have hreqs : ¬ (e.loadRequests ≠ [] ∨ e.storeRequests ≠ []) := by
    rintro (h | h)
    · rw [hok.loads h] at hload
      cases hload
    · rw [(hok.stores h).1] at hsto
      cases hsto
  have hnone := inv.no_future he hload hsto
  refine ⟨_, if_neg hreqs, ⟨⟨?_, ?_, ?_, ?_, inv.future_lt, ?_, inv.future_unique, inv.count, ?_⟩,
    rfl, fun hb => hb, ?_, ?_, ?_, ?_, .inl, .inl⟩, rfl⟩
  · exact fun x hx => inv.entry x (mem_of_mem_filter hx)
  · exact fun x hx y hy =>
      inv.id_unique x (mem_of_mem_filter hx) y (mem_of_mem_filter hy)
  · exact fun x hx y hy =>
      inv.ref_unique x (mem_of_mem_filter hx) y (mem_of_mem_filter hy)
  · exact fun x hx => inv.id_lt x (mem_of_mem_filter hx)
  · intro f hf
    obtain ⟨e', he', hid, hpend⟩ := inv.future_entry f hf
    refine ⟨e', mem_filter.2 ⟨he', decide_eq_true fun href => ?_⟩, hid, hpend⟩
    rw [inv.ref_unique e' he' e he href] at hid
    exact hnone f hf hid.symm
  · intro q hq
    rcases mem_append.1 hq with hq | hq
    · exact inv.removed q hq
    obtain rfl := mem_singleton.1 hq
    refine ⟨hdty, filter_eq_nil_iff.2 fun f hf => ?_⟩
    simpa using hnone f hf
  · rintro r ⟨e', he', rfl, hv⟩
    by_cases href : e'.blobref = e.blobref
    · obtain rfl := inv.ref_unique e' he' e he href
      exact .inr (.inl ⟨e', he', rfl, hv, hdty⟩)
    · exact .inl ⟨e', mem_filter.2 ⟨he', decide_eq_true href⟩, rfl, hv⟩
  · rintro r ⟨e', he', h⟩
    exact .inl ⟨e', mem_of_mem_filter he', h⟩
  · rintro q r ⟨e', he', h⟩
    exact .inl ⟨e', mem_of_mem_filter he', h⟩
  · rintro q r ⟨e', he', h⟩
    exact .inl ⟨e', mem_of_mem_filter he', h⟩

end

end FluxCore.Broker.Content
