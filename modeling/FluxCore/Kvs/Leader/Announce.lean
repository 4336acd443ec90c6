import FluxCore.Kvs.Leader.Dirty

/-!
# The Announced Root Is in the Cache

`setroot_event_send` asserts that the directory of the new root is in the cache. The entry was
put there when the transaction stored the root, and while it is dirty nothing removes it; but
it becomes clean as soon as its own flush completes, and the transaction may have to wait for
the flushes of other entries. `KeepsRoots` is the condition on a step under which the roots
that are awaited stay where they are. At the end of the file is a run without the condition,
in which `kvs.dropcache` comes between two flushes.
-/

namespace FluxCore.Kvs

open List Option

/-! ### Entries that stay -/

/-- Every valid entry of `cache` under a reference that has the property `P` is still in
`cache'`, with the same contents. -/
def Cache.Keeps (P : Blobref → Prop) (cache cache' : Cache) : Prop :=
  ∀ r entry, P r → cache r = some entry → entry.valid = true →
    ∃ entry', cache' r = some entry' ∧ entry'.valid = true ∧ entry'.data = entry.data

/-- The entry under a reference decodes to a tree object. -/
def Cache.Decodes (c : Codec) (cache : Cache) (ref : Blobref) : Prop :=
  ∃ entry, cache ref = some entry ∧ (cacheEntryGetTreeobj c entry).isSome = true

namespace Cache

variable {cache cache' cache'' : Cache}

theorem Decodes.valid (h : (cacheEntryGetTreeobj c entry).isSome = true) :
    entry.valid = true := by
  rw [cacheEntryGetTreeobj] at h
  split_ifs at h with hv
  · exact (Bool.and_eq_true_iff.1 hv).1
  · cases h

theorem Keeps.refl (P : Blobref → Prop) (cache : Cache) : Keeps P cache cache :=
  fun _ entry _ hent hv => ⟨entry, hent, hv, rfl⟩

theorem getValid_of_some (hent : cache ref = some entry) (hv : entry.valid = true) :
    cache.getValid ref = true := by
  rw [Cache.getValid, hent]
  exact hv

section

variable (h : Keeps P cache cache')
include h

theorem Keeps.trans_of_valid (h' : Keeps Q cache' cache'')
    (hQ : ∀ r, P r → cache.getValid r = true → Q r) : Keeps P cache cache'' := by
  intro r entry hP hent hv
  obtain ⟨entry₁, hent₁, hv₁, hd₁⟩ := h r entry hP hent hv
  have hr : Q r := hQ r hP (getValid_of_some hent hv)
  obtain ⟨entry₂, hent₂, hv₂, hd₂⟩ := h' r entry₁ hr hent₁ hv₁
  exact ⟨entry₂, hent₂, hv₂, hd₂.trans hd₁⟩

theorem Keeps.trans (h' : Keeps P cache' cache'') :
    Keeps P cache cache'' :=
  h.trans_of_valid h' fun _ hP _ => hP

theorem Keeps.mono (hQ : ∀ r, Q r → P r) : Keeps Q cache cache' :=
  fun r entry hr => h r entry (hQ r hr)

theorem Keeps.decodes (hP : P ref) (hdec : Decodes c cache ref) :
    Decodes c cache' ref := by
  obtain ⟨entry, hent, hd⟩ := hdec
  obtain ⟨entry', hent', hv', hdata⟩ := h ref entry hP hent (Decodes.valid hd)
  refine ⟨entry', hent', ?_⟩
  rw [cacheEntryGetTreeobj, Decodes.valid hd] at hd
  rwa [cacheEntryGetTreeobj, hv', hdata]

end

theorem keeps_lookup (P : Blobref → Prop) (cache : Cache) (ref : Blobref) (epoch : ℕ) :
    Keeps P cache (cacheLookup cache ref epoch) := by
  intro r entry _ hent hv
  rw [cacheLookup_apply, hent, map_some]
  split_ifs <;> exact ⟨_, rfl, hv, rfl⟩

theorem keeps_set (P : Blobref → Prop) (cache : Cache)
    (h : ∀ entry, P ref → cache ref = some entry → entry.valid = true →
      entry'.valid = true ∧ entry'.data = entry.data) : Keeps P cache (cache.set ref entry') := by
  intro r entry hP hent hv
  by_cases hr : r = ref
  · subst hr
    exact ⟨entry', Cache.set_self _ _ _, h entry hP hent hv⟩
  · exact ⟨entry, (Cache.set_of_ne _ _ hr).trans hent, hv, rfl⟩

theorem keeps_fill (P : Blobref → Prop)
    (hent : (cacheLookup cache ref epoch ref).getD {} = entry) (hv : entry.valid = false) :
    Keeps P cache ((cacheLookup cache ref epoch).set ref entry') := by
  refine (keeps_lookup P _ ref epoch).trans (keeps_set P _ fun entry₁ _ hent₁ hv₁ => ?_)
  rw [hent₁, getD_some] at hent
  rw [hent, hv] at hv₁
  cases hv₁

theorem keeps_delete (cache : Cache) (ref : Blobref) :
    Keeps (fun r => r ≠ ref) cache (cache.delete ref) :=
  fun _ entry hr hent hv => ⟨entry, (Cache.delete_of_ne _ hr).trans hent, hv, rfl⟩

theorem keeps_removeEntry (cache : Cache) (ref : Blobref) :
    Keeps (fun r => r ≠ ref) cache (cacheRemoveEntry cache ref).1 := by
  rcases cacheRemoveEntry_cases cache ref with heq | ⟨_, -, -, -, -, heq⟩
  · rw [heq]
    exact .refl _ _
  · rw [heq]
    exact keeps_delete cache ref

theorem keeps_expire (cache : Cache) (epoch thresh : ℕ) :
    Keeps (fun r => (cacheExpireEntries cache epoch thresh r).isSome = true) cache
      (cacheExpireEntries cache epoch thresh) := by
  intro r entry hsome hent hv
  simp only [cacheExpireEntries, hent, bind_some] at hsome ⊢
  split_ifs at hsome ⊢
  · cases hsome
  · exact ⟨_, rfl, hv, rfl⟩
  · exact ⟨_, rfl, hv, rfl⟩

end Cache

/-! ### Calls of `kvstxn_process` -/

section Process

variable {ρ : Type} [DecidableEq ρ]

/-- The hash function has not met a collision: what a store has found in the cache is what
it was about to store. -/
def Mem.Agrees (c : Codec) (mem : Mem ρ) : Prop :=
  ∀ data ∈ mem.noopStores, ∀ entry ∈ mem.cache (c.blobrefHash data),
    entry.valid = true → entry.data = data

instance (c : Codec) (mem : Mem ρ) : Decidable (mem.Agrees c) :=
  inferInstanceAs (Decidable (∀ data ∈ mem.noopStores, ∀ entry ∈ mem.cache (c.blobrefHash data),
    entry.valid = true → entry.data = data))

omit [DecidableEq ρ] in
theorem Mem.Agrees.of_keeps {mem mem' : Mem ρ} (h : mem'.Agrees c)
    (hnoop : mem'.noopStores = mem.noopStores)
    (hk : Cache.Keeps (fun _ => True) mem.cache mem'.cache) : mem.Agrees c := by
  intro data hdata entry hent hv
  obtain ⟨entry', hent', hv', hd⟩ := hk _ entry trivial hent hv
  rw [← hd]
  exact h data (hnoop ▸ hdata) entry' hent' hv'

omit [DecidableEq ρ] in
theorem put_keeps (P : Blobref → Prop) (data : Bytes) (w : Work ρ) :
    Cache.Keeps P w.cache (w.put c epoch data).cache := by
  rcases put_cases (c := c) data w with ⟨_, -, -, heq⟩ | ⟨entry, hent, hv, heq⟩
  · rw [heq]
    exact Cache.keeps_lookup P _ _ _
  · rw [heq]
    exact Cache.keeps_fill P hent hv

/-- **Effects keep every entry.** -/
theorem Effects.keeps {w w' : Work ρ} (h : Effects c epoch w w') (P : Blobref → Prop) :
    Cache.Keeps P w.cache w'.cache := by
  induction h with
  | refl => exact .refl P _
  | tail _ he ih =>
    refine ih.trans ?_
    cases he with
    | lookup ref => exact Cache.keeps_lookup P _ _ _
    | put data => exact put_keeps P data _
    | enter | write => exact .refl P _

/-- **Effects make entries dirty** only where there was no valid entry. -/
theorem Effects.dirtied {w w' : Work ρ} (h : Effects c epoch w w') {r : Blobref}
    (hr : r ∈ w'.dirtyCacheEntries) : r ∈ w.dirtyCacheEntries ∨ w.cache.getValid r = false := by
  induction h with
  | refl => exact .inl hr
  | @tail w₁ w₂ hw he ih =>
    cases he with
    | lookup ref | enter | write => exact ih hr
    | put data =>
      rcases put_cases (c := c) data w₁ with
        ⟨_, -, -, heq⟩ | ⟨entry, hent, hv, heq⟩
      · rw [heq] at hr
        exact ih hr
      rw [heq] at hr
      rcases mem_cons.1 hr with rfl | hr
      · refine .inr ?_
        by_contra hval
        rw [Bool.not_eq_false, Cache.getValid] at hval
        split at hval
        · rename_i entry₀ hent₀
          obtain ⟨entry₁, hent₁, hv₁, -⟩ := (Effects.keeps hw fun _ => True).trans
            (Cache.keeps_lookup _ w₁.cache (c.blobrefHash data) epoch) _ _ trivial hent₀
              hval
          rw [hent₁, getD_some] at hent
          rw [hent, hv] at hv₁
          cases hv₁
        · cases hval
      · exact ih hr

theorem keeps_cleanup (hstate : state = .store ∨ state = .preFinished)
    (h : cleanupDirtyCacheList state refs cache = some cache') :
    Cache.Keeps (fun r => r ∉ refs) cache cache' := by
  refine (cleanup_induct (P := fun rest c => rest ⊆ refs ∧ Cache.Keeps (fun r => r ∉ refs) cache c)
    hstate (fun ref rest c _ ⟨hsub, hk⟩ _ _ _ => ?_) ⟨Subset.refl refs, .refl _ _⟩ h).2
  obtain ⟨hmem, hsub⟩ := cons_subset.1 hsub
  exact ⟨hsub, hk.trans ((Cache.keeps_delete c ref).mono fun r hr heq => hr (heq ▸ hmem))⟩

variable {p p' : Processing ρ}

/-- **A call keeps every entry** that was valid before and is not on the list of the
transaction. -/
theorem Proc.keeps (h : Proc c ns stack depth epoch rootref p (p', result)) :
    Cache.Keeps (fun r => r ∉ p.kt.dirtyCacheEntries) p.mem.cache p'.mem.cache := by
  cases h.leaves with
  | effects he => exact he.keeps _
  | @cleaned w cache he hcl hw =>
    have hca : p'.mem.cache = cache := congrArg (fun w => w.toMem.cache) hw
    rw [hca]
    refine (he.keeps _).trans_of_valid (keeps_cleanup (.inl rfl) hcl) fun r hr hv hmem => ?_
    rcases he.dirtied hmem with hmem | hinv
    · exact hr hmem
    · exact Bool.false_ne_true (hinv.symm.trans hv)

theorem Proc.dirtied (h : Proc c ns stack depth epoch rootref p (p', result)) {r : Blobref}
    (hr : r ∈ p'.kt.dirtyCacheEntries) :
    r ∈ p.kt.dirtyCacheEntries ∨ p.mem.cache.getValid r = false := by
  cases h.leaves with
  | effects he => exact he.dirtied hr
  | cleaned he hcl hw =>
    have hlist : p'.kt.dirtyCacheEntries = [] := congrArg Work.dirtyCacheEntries hw
    rw [hlist] at hr
    cases hr

omit [DecidableEq ρ] in
/-- **A stored tree object decodes.** -/
theorem storeCache_decodes (h : storeCache c epoch (.tree o) w = (w', .ok ref))
    (hagr : w'.toMem.Agrees c) : w'.cache.Decodes c ref := by
  rw [storeCache_eq] at h
  by_cases ho : o.validate = true
  · simp only [Storable.data, ho, if_true, Prod.mk.injEq, Except.ok.injEq] at h
    obtain ⟨rfl, rfl⟩ := h
    have hdec (entry : CacheEntry) (hv : entry.valid = true) (hd : entry.data = c.jsonDumps o) :
        (cacheEntryGetTreeobj c entry).isSome = true := by
      have hne : (c.jsonDumps o).isEmpty = false := by simpa using c.dumps_ne_nil o
      simp [cacheEntryGetTreeobj, hv, hd, hne, treeobjDecodeb_dumps c ho]
    rcases put_cases (c := c) (c.jsonDumps o) w with
      ⟨entry, hent, hv, heq⟩ | ⟨entry, -, -, heq⟩
    · obtain ⟨entry', hent', hv', -⟩ :=
        put_keeps (c := c) (fun _ => True) (c.jsonDumps o) w _ _ trivial hent hv
      refine ⟨entry', hent', hdec entry' hv' (hagr _ ?_ entry' hent' hv')⟩
      rw [heq]
      exact mem_cons_self
    · rw [heq]
      exact ⟨_, Cache.set_self _ _ _, hdec _ rfl rfl⟩
  · simp [Storable.data, ho] at h

theorem storeRoot_decodes {rootcpy root' : Treeobj ρ} {w w' : Work ρ} {newroot : Blobref}
    (h : storeRoot c depth epoch rootcpy w = (root', w', .ok newroot))
    (hagr : w'.toMem.Agrees c) : w'.cache.Decodes c newroot := by
  rw [storeRoot.eq_def] at h
  split at h
  · split at h
    · cases h
    · split at h
      · cases h
      · rename_i hsto
        cases h
        exact storeCache_decodes hsto hagr
  · cases h

theorem Proc.of_preFinished (h : Proc c ns stack depth epoch rootref p (p', result))
    (hs : p.kt.state = .preFinished) : p'.mem = p.mem ∧ p'.kt.newroot = p.kt.newroot := by
  cases h with
  | errored | idle | dirty | keysFailed | finish | finished => exact ⟨rfl, rfl⟩
  | pending hs' | rootMissing hs' | rootUndecodable hs' | rootLoaded hs' =>
    exact absurd (hs ▸ hs') (by decide)
  | opsFailed hs' | opsStalled hs' | opsApplied hs' | storeFailed hs' | stored hs' =>
    exact absurd (hs.symm.trans hs') (by decide)

/-- **The new root decodes** when a call ends with it. -/
theorem Proc.newroot_decodes {r : Processing ρ × Process}
    (h : Proc c ns stack depth epoch rootref p r)
    (hr : r.2 = .dirtyCacheEntries ∨ r.2 = .finished) (hagr : r.1.mem.Agrees c)
    (hfin : p.kt.state ≠ .finished)
    (hpre : p.kt.state = .preFinished → p.mem.cache.Decodes c p.kt.newroot) :
    r.1.mem.cache.Decodes c r.1.kt.newroot := by
  induction h with
  | rootLoaded _ _ _ _ _ _ ih | opsApplied _ _ _ _ _ _ ih =>
    exact ih hr hagr (by simp [Processing.modify]) (by simp [Processing.modify])
  | @stored p rootcpy root' w newroot r _ _ hsto h ih =>
    refine ih hr hagr (by simp [Processing.modify]) fun hs => ?_
    refine storeRoot_decodes hsto ?_
    have hmem : r.1.mem = w.toMem := (Proc.of_preFinished h hs).1
    rwa [hmem] at hagr
  | dirty hs | finish hs => exact hpre hs
  | finished hs => exact absurd hs hfin
  | _ => simp at hr

end Process

namespace Leader

variable {cfg : Config} {s s' t : Leader}

/-! ### Iterators -/

theorem keeps_loadCb (P : Blobref → Prop) (h : s.kvstxnLoadCb sendFails k ref = some (s', e)) :
    Cache.Keeps P s.mem.cache s'.mem.cache := by
  rcases kvstxnLoadCb_cases h with ⟨rfl, -⟩ | ⟨loads, entry, hent, hv, -, rfl⟩
  · exact .refl P _
  · exact Cache.keeps_fill P hent hv

theorem keeps_iterLoads (P : Blobref → Prop)
    (h : iterRefs (fun ref s => kvstxnLoadCb s sendFails k ref) (fun _ s => some s) refs s
      = some (s', e)) : Cache.Keeps P s.mem.cache s'.mem.cache :=
  iterRefs_induct (P := fun _ s' => Cache.Keeps P s.mem.cache s'.mem.cache)
    (fun _ _ _ _ hs hcb => hs.trans (keeps_loadCb P hcb))
    (fun _ _ _ _ _ _ hs hcb hcl => by
      cases hcl
      exact hs.trans (keeps_loadCb P hcb)) (.refl P _) h

theorem keeps_cacheCb (P : Blobref → Prop)
    (h : s.kvstxnCacheCb sendFails k ref = some (s', none)) :
    Cache.Keeps P s.mem.cache s'.mem.cache := by
  obtain ⟨entry, hent, hv, -, ⟨hne, -⟩ | ⟨-, rfl⟩⟩ := kvstxnCacheCb_cases h
  · exact absurd rfl hne
  refine Cache.keeps_set P _ fun entry₁ _ hent₁ _ => ?_
  rw [hent] at hent₁
  cases hent₁
  exact ⟨hv, rfl⟩

theorem keeps_cacheCb_failed (h : s.kvstxnCacheCb sendFails k ref = some (s', some err)) :
    Cache.Keeps (fun r => r ≠ ref) s.mem.cache s'.mem.cache := by
  obtain ⟨entry, -, -, -, ⟨-, -, -, rfl⟩ | ⟨hnone, -⟩⟩ := kvstxnCacheCb_cases h
  · exact Cache.keeps_delete _ ref
  · cases hnone

theorem keeps_iterFlushes
    (h : iterRefs (fun ref s => kvstxnCacheCb s sendFails k ref) (fun refs s => cleanup s refs)
      refs s = some (s', e)) : Cache.Keeps (fun r => r ∉ refs) s.mem.cache s'.mem.cache := by
  refine (iterRefs_induct (P := fun left s' => left ⊆ refs ∧
    Cache.Keeps (fun r => r ∉ refs) s.mem.cache s'.mem.cache) ?_ ?_ ⟨List.Subset.refl _, .refl _ _⟩
    h).2
  · rintro ref left s₁ s₂ ⟨hsub, hk⟩ hcb
    exact ⟨List.Subset.trans (subset_cons_self _ _) hsub, hk.trans (keeps_cacheCb _ hcb)⟩
  · rintro ref left s₁ s₂ s₃ err ⟨hsub, hk⟩ hcb hcl
    obtain ⟨cache, hca, rfl⟩ := map_eq_some_iff.1 hcl
    refine ⟨nil_subset _, (hk.trans ?_).trans ((keeps_cleanup (.inr rfl) hca).mono ?_)⟩
    · exact (keeps_cacheCb_failed hcb).mono fun r hr heq => hr (heq ▸ hsub mem_cons_self)
    · exact fun r hr hmem => hr (hsub (mem_cons_of_mem _ hmem))

theorem keeps_iterFlushes_ok (P : Blobref → Prop)
    (h : iterRefs (fun ref s => kvstxnCacheCb s sendFails k ref) (fun refs s => cleanup s refs)
      refs s = some (s', none)) : Cache.Keeps P s.mem.cache s'.mem.cache := by
  induction refs generalizing s with
  | nil =>
    cases h
    exact .refl P _
  | cons ref refs ih =>
    obtain ⟨⟨s₁, e₁⟩, hcb, h⟩ := bind_eq_some_iff.1 h
    cases e₁ with
    | some e₁ =>
      obtain ⟨s₂, -, h⟩ := map_eq_some_iff.1 h
      cases h
    | none => exact (keeps_cacheCb P hcb).trans (ih h)

/-! ### Roots that are awaited -/

/-- A transaction waits for the flushes of its entries, and its new root is `ref`. -/
def Awaits (s : Leader) (ref : Blobref) : Prop :=
  ∃ ns, ∃ kt ∈ s.ready ns, kt.state = .preFinished ∧ kt.auxErrnum = none ∧ kt.newroot = ref

variable (cfg) in
/-- **The invariant:** the roots that are awaited are in the cache and decode. -/
def RootsReady (s : Leader) : Prop := ∀ ref, s.Awaits ref → s.mem.cache.Decodes cfg.codec ref

/-- The memory when `kvstxn_apply` is at its label `done` or `stall`. -/
def Applied.mem : Applied → Mem ℕ
  | .stall s => s.mem
  | .done s _ _ => s.mem

variable (cfg) in
/-- The condition on a step: nothing happens to the entry of a root that is awaited. The
heartbeat and `kvs.dropcache` do not expire it; a load of it that is under way brings what it
holds; if a store of it fails, all that wait for it are told; a call of `kvstxn_apply` does
not have it on its own list, and has met no collision of the hash function. -/
def KeepsRoots (s : Leader) (l : Label) : Prop :=
  match l with
  | .heartbeat epoch => ∀ ref, s.Awaits ref → ((s.heartbeat epoch).mem.cache ref).isSome = true
  | .dropcache => ∀ ref, s.Awaits ref → (s.dropcache.mem.cache ref).isSome = true
  | .contentLoad ref errnum => s.Awaits ref →
      errnum = none ∧ ∀ entry, s.mem.cache ref = some entry → s.content ref = some entry.data
  | .contentStore ref errnum => errnum ≠ none → ∀ ns, ∀ kt ∈ s.ready ns,
      kt.state = .preFinished → kt.auxErrnum = none → kt.newroot = ref →
        ∀ entry, s.mem.cache ref = some entry → kt.id ∈ entry.waitlistNotdirty
  | l => ∀ s' k sendFails, call cfg s l = some (s', k, sendFails) →
      (∀ ref, s'.Awaits ref → ref ∉ s'.dirtyList k) ∧
        ∀ a, applyProcess cfg s' sendFails k = some a → a.mem.Agrees cfg.codec

theorem Awaits.of_ready (h : ∀ n, t.ready n = s.ready n) (ha : t.Awaits ref) : s.Awaits ref := by
  obtain ⟨ns, kt, hkt, hrest⟩ := ha
  exact ⟨ns, kt, h ns ▸ hkt, hrest⟩

theorem Awaits.of_marks (h : s.Marks t) (ha : t.Awaits ref) : s.Awaits ref := by
  rcases h with h | ⟨ks, e, -, h⟩
  · exact ha.of_ready fun n => ready_congr (congrFun h n)
  obtain ⟨ns, kt, hkt, hst, haux, href⟩ := ha
  rw [ready_setAuxErrnum h] at hkt
  obtain ⟨kt₀, hkt₀, rfl⟩ := List.mem_map.1 hkt
  by_cases hk : kt₀.id ∈ ks
  · rw [if_pos hk] at haux
    cases haux
  · rw [if_neg hk] at hst haux href
    exact ⟨ns, kt₀, hkt₀, hst, haux, href⟩

/-! ### Calls -/

theorem applyDone_keeps (P : Blobref → Prop) (ht : applyDone cfg s kt errnum = some t) :
    Cache.Keeps P s.mem.cache t.runWoken.mem.cache := by
  obtain ⟨root, -, ht⟩ := bind_eq_some_iff.1 ht
  cases errnum with
  | some e =>
    cases ht
    exact .refl P _
  | none =>
    obtain ⟨s₁, hs₁, rfl⟩ := map_eq_some_iff.1 ht
    obtain ⟨rootdir, -, rfl⟩ := map_eq_some_iff.1 hs₁
    exact Cache.keeps_lookup P _ _ _

theorem Head.applyDone_isSome (h : s.Head k root kt rest)
    (hdec : s.mem.cache.Decodes cfg.codec kt.newroot) :
    (applyDone cfg s kt none).isSome = true := by
  obtain ⟨entry, hent, hsome⟩ :=
    (Cache.keeps_lookup (fun _ => True) s.mem.cache kt.newroot s.epoch).decodes trivial hdec
  simp only [applyDone, h.id, h.lookup, bind_some, setrootEventSend, setroot_advance, isSome_map]
  change ((cacheLookup s.mem.cache kt.newroot s.epoch kt.newroot).bind _).isSome = true
  rwa [hent]

theorem Done.ready_fresh (h : s.Done k root kt rest) (ht : applyDone cfg s kt errnum = some t) :
    ∀ x ∈ t.runWoken.ready k.ns, x.Fresh := by
  rcases applyDone_cases h.toHead ht with ⟨e, -, rfl⟩ | ⟨-, rootdir, -, rfl⟩
  · intro x hx
    rw [ready_of_some (by rw [runWoken_roots, setRoot_roots, if_pos rfl])] at hx
    refine (h.queue.remove h.processing fun hf => ?_).2 x hx
    simp only [kvstxnFallback, kvstxnFallbackMergeable, Bool.and_eq_true] at hf
    exact hf.1.1
  · intro x hx
    rw [ready_of_some (by rw [runWoken_roots, setRoot_roots, if_pos rfl])] at hx
    exact (h.queue.remove h.processing (by simp)).2 x hx

/-- Up to its labels `done` and `stall`, `kvstxn_apply` keeps the entries that are not on the
list of the transaction. -/
theorem Outcome.keeps (h : Outcome cfg sendFails s k root kt rest a) :
    Cache.Keeps (fun r => r ∉ kt.dirtyCacheEntries) s.mem.cache a.mem.cache := by
  have hflsd {p : Processing ℕ} {result : Kvs.Process} {s' : Leader} {e : Option Errno}
      (hp : s.Process cfg k root kt p result)
      (hiter : iterRefs (fun ref s => kvstxnCacheCb s sendFails k ref)
        (fun refs s => cleanup s refs) p.kt.dirtyCacheEntries (s.withMem p.mem) = some (s', e)) :
      Cache.Keeps (fun r => r ∉ kt.dirtyCacheEntries) s.mem.cache s'.mem.cache := by
    refine hp.keeps.trans_of_valid (keeps_iterFlushes hiter) fun r hr hv hmem => ?_
    rcases hp.dirtied hmem with hmem | hinv
    · exact hr hmem
    · exact Bool.false_ne_true (hinv.symm.trans hv)
  cases h with
  | removed | auxFailed => exact .refl _ _
  | failed _ hp | finished _ hp => exact hp.keeps
  | loading _ hp hiter | loadFailed _ hp hiter => exact hp.keeps.trans (keeps_iterLoads _ hiter)
  | flushing _ hp hiter | flushFailed _ hp hiter =>
    have hkp := hflsd hp hiter
    exact hkp

/-- **A call keeps the entries** that are not on the list of its transaction. -/
theorem Called.keeps (h : s.Called k root kt rest) (ht : kvstxnApply cfg s sendFails k = some t) :
    Cache.Keeps (fun r => r ∉ kt.dirtyCacheEntries) s.mem.cache t.mem.cache := by
  have hmiss : kt.missingRefs = [] := h.ok.elim (·.missingRefs) (·.missingRefs)
  obtain ⟨a, ha, ht⟩ := bind_eq_some_iff.1 ht
  have hkp := (applyProcess_outcome h.toHead h.rest_ne hmiss ha).keeps
  cases a with
  | stall s' =>
    cases ht
    exact hkp
  | done s' kt' errnum =>
    obtain ⟨t', ht', rfl⟩ := map_eq_some_iff.1 ht
    exact hkp.trans (applyDone_keeps _ ht')

theorem Called.state_ne_finished (h : s.Called k root kt rest) : kt.state ≠ .finished := by
  rcases h.ok with hf | hst
  · rw [hf.state]
    decide
  · rcases hst.state with hs | hs | ⟨hs, -⟩ <;> rw [hs] <;> decide

theorem RootsReady.head (h : s.RootsReady cfg) (hc : s.Called k root kt rest)
    (haux : kt.auxErrnum = none) (hs : kt.state = .preFinished) :
    s.mem.cache.Decodes cfg.codec kt.newroot :=
  h kt.newroot ⟨k.ns, kt, hc.toHead.ready_eq ▸ mem_cons_self, hs, haux, rfl⟩

/-- **The root that a call waits for** is in the cache when the call ends. -/
theorem Called.stalled_decodes (h : s.Called k root kt rest) (hrdy : s.RootsReady cfg)
    (hagr : ∀ a, applyProcess cfg s sendFails k = some a → a.mem.Agrees cfg.codec)
    (ht : kvstxnApply cfg s sendFails k = some t) :
    ∀ x ∈ t.ready k.ns, x.state = .preFinished → x.auxErrnum = none →
      t.mem.cache.Decodes cfg.codec x.newroot := by
  have hmiss : kt.missingRefs = [] := h.ok.elim (·.missingRefs) (·.missingRefs)
  have hfr {x : Kvstxn ℕ} (hx : x.Fresh) (hs : x.state = .preFinished) : False := by
    rw [hx.state] at hs
    cases hs
  have hstall {s' : Leader} {kt' : Kvstxn ℕ} {x : Kvstxn ℕ}
      (hx : x ∈ (s'.setHead k root kt' rest).runWoken.ready k.ns)
      (hs : x.state = .preFinished) : x = kt' := by
    rw [ready_of_some (by rw [runWoken_roots, setHead_roots, if_pos rfl])] at hx
    rcases mem_cons.1 hx with rfl | hx
    · rfl
    · exact (hfr (h.queue.tail x hx) hs).elim
  obtain ⟨a, ha, ht⟩ := bind_eq_some_iff.1 ht
  intro x hx hs hxaux
  cases a with
  | done s' kt' errnum =>
    obtain ⟨t', ht', rfl⟩ := map_eq_some_iff.1 ht
    obtain ⟨root', hdone⟩ := h.ends ha
    exact (hfr (hdone.ready_fresh ht' x hx) hs).elim
  | stall s' =>
    cases ht
    cases applyProcess_outcome h.toHead h.rest_ne hmiss ha with
    | loading haux hp hiter hwait =>
      cases hstall hx hs
      rcases hp.loadMissingRefs_state rfl fun _ => hmiss with hs' | hs'
      · cases hs.symm.trans hs'
      · cases hs.symm.trans hs'
    | @flushing p s' err haux hp hiter hwait =>
      cases hstall hx hs
      cases hxaux
      have hnoop : s'.mem.noopStores = p.mem.noopStores := by
        obtain ⟨_, _, _, _, rfl⟩ := touched_iterFlushes hiter
        rfl
      have hagr' : p.mem.Agrees cfg.codec :=
        (hagr _ ha).of_keeps hnoop (keeps_iterFlushes_ok _ hiter)
      have hdec := hp.newroot_decodes (.inl rfl) hagr' h.state_ne_finished (hrdy.head h haux)
      exact (keeps_iterFlushes_ok (fun _ => True) hiter).decodes trivial hdec

/-- **A call keeps the roots ready.** -/
theorem RootsReady.called (hrdy : s.RootsReady cfg) (h : s.Called k root kt rest)
    (hlist : ∀ ref, s.Awaits ref → ref ∉ s.dirtyList k)
    (hagr : ∀ a, applyProcess cfg s sendFails k = some a → a.mem.Agrees cfg.codec)
    (ht : kvstxnApply cfg s sendFails k = some t) : t.RootsReady cfg := by
  rintro ref ⟨n, x, hx, hs, haux, rfl⟩
  by_cases hn : n = k.ns
  · subst hn
    exact h.stalled_decodes hrdy hagr ht x hx hs haux
  have hrts : t.roots n = s.roots n := by
    cases (h.ended ht).1 with
    | stalled _ _ _ _ _ _ _ _ _ _ hrts | failed _ _ _ _ hrts | published _ _ _ hrts =>
      rw [hrts, if_neg hn]
  have ha : s.Awaits x.newroot := ⟨n, x, ready_congr hrts ▸ hx, hs, haux, rfl⟩
  exact (h.keeps ht).decodes (h.toHead.dirtyList ▸ hlist _ ha) (hrdy _ ha)

theorem Inv.call_awaits (hi : s.Inv) (hc : Leader.call cfg s l = some (s', k, sendFails)) :
    s'.mem = s.mem ∧ ∀ ref, s'.Awaits ref → s.Awaits ref := by
  cases l with
  | check ns sendFails' =>
    obtain ⟨⟨s₁, k₁⟩, hr, hc⟩ := map_eq_some_iff.1 hc
    cases hc
    obtain ⟨root, kt₀, rest₀, kt, rest, hroot, hrdy, hb, hns, -, hfr, rfl, hcall⟩ :=
      hi.checkRoot hr
    refine ⟨rfl, ?_⟩
    rintro ref ⟨n, x, hx, hs, hrest⟩
    by_cases hn : n = ns
    · rw [ready_of_some (if_pos hn)] at hx
      have hx' : x.Fresh := by
        rcases mem_cons.1 hx with rfl | hx
        · exact hfr
        · exact hcall.queue.tail x hx
      rw [hx'.state] at hs
      cases hs
    · have hoth : Leader.ready { s.setRoot ns { root with ready := kt :: rest } with
          nextTxn := s.nextTxn + 1 } n = s.ready n := ready_congr (if_neg hn)
      exact ⟨n, x, hoth ▸ hx, hs, hrest⟩
  | run k' sendFails' =>
    simp only [Leader.call] at hc
    split_ifs at hc
    cases hc
    exact ⟨rfl, fun ref ha => ha⟩
  | _ => cases hc

/-! ### The environment -/

theorem keeps_lookupStep (P : Blobref → Prop) (s : Leader) (sendFails : Blobref → Option Errno)
    (ref : Blobref) : Cache.Keeps P s.mem.cache (s.load sendFails [] ref).1.mem.cache := by
  rcases load_cases s sendFails [] ref with heq | heq | ⟨loads, entry, hent, hv, heq⟩
  · rw [heq]
    exact .refl P _
  · rw [heq]
    exact Cache.keeps_lookup P _ ref s.epoch
  · rw [heq]
    exact Cache.keeps_fill P hent hv

theorem keeps_contentLoad (ht : s.contentLoadCompletion ref errnum = some t) :
    Cache.Keeps (fun r => r ≠ ref) s.mem.cache t.mem.cache := by
  have hset (entry' : CacheEntry) : Cache.Keeps (fun r => r ≠ ref) s.mem.cache
      ((cacheLookup s.mem.cache ref s.epoch).set ref entry') :=
    (Cache.keeps_lookup _ _ ref s.epoch).trans
      (Cache.keeps_set _ _ fun _ hne => absurd rfl hne)
  rcases contentLoadCompletion_cases ht with
    rfl | ⟨entry, -, ⟨e, rfl⟩ | rfl | ⟨data, -, -, rfl⟩⟩
  · exact .refl _ _
  · exact (hset _).trans (Cache.keeps_removeEntry _ ref)
  · exact Cache.keeps_lookup _ _ ref s.epoch
  · exact hset _

theorem contentLoad_same (ht : s.contentLoadCompletion ref none = some t)
    (hent : s.mem.cache ref = some entry) (hv : entry.valid = true)
    (hdata : s.content ref = some entry.data) :
    t.mem.cache = cacheLookup s.mem.cache ref s.epoch := by
  have hlook : cacheLookup s.mem.cache ref s.epoch ref
      = some { entry with lastuseEpoch := max entry.lastuseEpoch s.epoch } := by
    rw [cacheLookup_apply, hent, map_some, if_pos rfl]
  simp only [contentLoadCompletion] at ht
  split_ifs at ht
  simp only [hlook, hdata, hv, if_true, map_some, some.injEq] at ht
  rw [← ht]
  rfl

theorem keeps_contentStore (P : Blobref → Prop)
    (ht : s.contentStoreCompletion ref none = some t) :
    Cache.Keeps P s.mem.cache t.mem.cache := by
  obtain ⟨data, -, ⟨-, rfl⟩ | ⟨entry, hent, ⟨-, rfl⟩ | ⟨e, he, -⟩⟩⟩ :=
    contentStoreCompletion_cases ht
  · exact .refl P _
  · refine (Cache.keeps_lookup P _ ref s.epoch).trans
      (Cache.keeps_set P _ fun entry₁ _ hent₁ hv₁ => ?_)
    rw [hent] at hent₁
    cases hent₁
    rw [cacheEntrySetNotdirty]
    split_ifs
    · exact ⟨hv₁, rfl⟩
    · exact ⟨hv₁, rfl⟩
  · cases he

theorem keeps_contentStore_failed (ht : s.contentStoreCompletion ref (some err) = some t) :
    Cache.Keeps (fun r => r ≠ ref) s.mem.cache t.mem.cache ∧
      (t.mem.cache = s.mem.cache ∨ ∃ entry, s.mem.cache ref = some entry ∧
        t.roots = (s.setAuxErrnum entry.waitlistNotdirty err).roots) := by
  obtain ⟨data, -, ⟨-, rfl⟩ | ⟨entry, hent, ⟨he, -⟩ | ⟨e, he, rfl⟩⟩⟩ :=
    contentStoreCompletion_cases ht
  · exact ⟨.refl _ _, .inl rfl⟩
  · cases he
  cases he
  obtain ⟨entry₀, hent₀, rfl⟩ := eq_some_of_lookup hent
  refine ⟨((Cache.keeps_lookup _ _ ref s.epoch).trans (Cache.keeps_set _ _ ?_)).trans
    (Cache.keeps_removeEntry _ ref), .inr ⟨entry₀, hent₀, rfl⟩⟩
  exact fun _ hne => absurd rfl hne

/-- **The environment keeps the roots ready**, under the condition. -/
theorem RootsReady.env (h : s.RootsReady cfg) (hi : s.Inv) (hl : l.isEnv = true)
    (hg : KeepsRoots cfg s l) (ht : (machine cfg).step l s = some t) : t.RootsReady cfg := by
  intro ref' ha
  have ha' : s.Awaits ref' := ha.of_marks (hi.env hl ht).marks
  have hdec := h ref' ha'
  cases l with
  | lookup ref sendFails =>
    cases ht
    exact (keeps_lookupStep (fun _ => True) s sendFails ref).decodes trivial hdec
  | contentLoad ref errnum =>
    by_cases hr : ref' = ref
    · subst hr
      obtain ⟨rfl, hsame⟩ := hg ha'
      obtain ⟨entry, hent, hd⟩ := hdec
      rw [contentLoad_same ht hent (Cache.Decodes.valid hd) (hsame entry hent)]
      exact (Cache.keeps_lookup (fun _ => True) _ ref' s.epoch).decodes trivial
        ⟨entry, hent, hd⟩
    · exact (keeps_contentLoad ht).decodes hr hdec
  | contentStore ref errnum =>
    cases errnum with
    | none => exact (keeps_contentStore (fun _ => True) ht).decodes trivial hdec
    | some err =>
      obtain ⟨hkp, hcs⟩ := keeps_contentStore_failed ht
      by_cases hr : ref' = ref
      · subst hr
        rcases hcs with heq | ⟨entry, hent, hrts⟩
        · rwa [heq]
        obtain ⟨n, x, hx, hs, haux, href⟩ := ha
        rw [ready_setAuxErrnum hrts] at hx
        obtain ⟨kt, hkt, rfl⟩ := List.mem_map.1 hx
        by_cases hk : kt.id ∈ entry.waitlistNotdirty
        · rw [if_pos hk] at haux
          cases haux
        · rw [if_neg hk] at hs haux href
          exact absurd (hg (by simp) n kt hkt hs haux href entry hent) hk
      · exact hkp.decodes hr hdec
  | heartbeat epoch =>
    have hsome := hg ref' ha'
    simp only [machine] at ht
    split_ifs at ht
    cases ht
    obtain ⟨cache, hc, heq⟩ := heartbeat_cases s epoch
      (P := fun cache => Cache.Keeps (fun _ => True) s.mem.cache cache) (.refl _ _)
      fun cache ref hc => hc.trans (Cache.keeps_lookup _ _ ref epoch)
    rw [heq] at hsome ⊢
    exact (Cache.keeps_expire cache epoch 5).decodes hsome (hc.decodes trivial hdec)
  | dropcache =>
    cases ht
    exact (Cache.keeps_expire s.mem.cache s.epoch 0).decodes (hg ref' ha') hdec
  | _ => cases hl

theorem Admin.keeps (h : Admin cfg s t) (P : Blobref → Prop) :
    Cache.Keeps P s.mem.cache t.mem.cache := by
  cases h.primed with
  | same heq =>
    rw [heq]
    exact .refl P _
  | touched heq =>
    rw [heq]
    exact Cache.keeps_lookup P _ _ _
  | made _ _ hnone heq =>
    rw [heq]
    refine Cache.keeps_set P _ fun entry _ hent => ?_
    rw [hnone] at hent
    cases hent

/-! ### Steps and runs -/

theorem KeepsRoots.call (hg : KeepsRoots cfg s l) (hc : call cfg s l = some (s', k, sendFails)) :
    (∀ ref, s'.Awaits ref → ref ∉ s'.dirtyList k) ∧
      ∀ a, applyProcess cfg s' sendFails k = some a → a.mem.Agrees cfg.codec := by
  cases l with
  | check ns sf | run k' sf => exact hg s' k sendFails hc
  | _ => cases hc

theorem RootsReady.of_call (h : s.RootsReady cfg) (hi : s.Inv)
    (hc : call cfg s l = some (s', k, sendFails)) : s'.RootsReady cfg := by
  obtain ⟨hmem, hawaits⟩ := hi.call_awaits hc
  intro ref ha
  rw [hmem]
  exact h ref (hawaits ref ha)

/-- **A step keeps the roots ready**, under the condition. -/
theorem RootsReady.step (h : s.RootsReady cfg) (hi : s.Inv) (hg : KeepsRoots cfg s l)
    (ht : (machine cfg).step l s = some t) : t.RootsReady cfg := by
  cases hi.steps ht with
  | env hl henv => exact h.env hi hl hg ht
  | admin hl hadm =>
    intro ref ha
    exact (hadm.keeps fun _ => True).decodes trivial
      (h ref (ha.of_ready fun n => congrFun hadm.ready n))
  | call hc hcall ht =>
    obtain ⟨hlist, hagr⟩ := hg.call hc
    exact (h.of_call hi hc).called hcall hlist hagr ht
  | @add ns name ops flags ht =>
    obtain ⟨root, objs, nextObj, ops', hroot, -, rfl⟩ := addTransaction_cases ht
    rintro ref ⟨n, x, hx, hs, hrest⟩
    refine h ref ⟨n, x, ?_, hs, hrest⟩
    rw [ready] at hx
    change x ∈ (((if n = ns then _ else _) : Option Kvsroot).map _).getD _ at hx
    split_ifs at hx with hn
    · rw [hn, ready_of_some hroot]
      rcases mem_append.1 hx with hx | hx
      · exact hx
      · cases mem_singleton.1 hx
        cases hs
    · exact hx

theorem RootsReady.init (h : Init cfg s) : s.RootsReady cfg := by
  obtain ⟨content, rfl⟩ := h
  rintro ref ⟨n, x, hx, -⟩
  change x ∈ (((if n = "primary" then _ else _) : Option Kvsroot).map _).getD _ at hx
  split_ifs at hx <;> cases hx

theorem rootsReady_of_reach (hs : (machine cfg).Reach (KeepsRoots cfg) (Init cfg) s) :
    s.RootsReady cfg :=
  hs.invariant (RootsReady cfg) (fun _ => RootsReady.init) fun _ _ _ hr h hg ht =>
    h.step (inv_of_reach hr) hg ht

/-- **The announced root is in the cache:** in every run whose steps all meet the condition,
whenever a call of `kvstxn_apply` is at its label `done` without an error, the entry of the
new root is in the cache and decodes to a tree object, and the assertion of
`setroot_event_send` holds. -/
theorem announced_root_decodes {k : TxnId} {kt : Kvstxn ℕ} {sendFails : Blobref → Option Errno}
    {l : Label} (hs : (machine cfg).Reach (KeepsRoots cfg) (Init cfg) s)
    (hg : KeepsRoots cfg s l) (hc : call cfg s l = some (s', k, sendFails))
    (ha : applyProcess cfg s' sendFails k = some (.done t kt none)) :
    (∃ entry rootdir, t.mem.cache kt.newroot = some entry ∧
      cacheEntryGetTreeobj cfg.codec entry = some rootdir) ∧
    (kvstxnApply cfg s' sendFails k).isSome = true := by
  have hi := inv_of_reach hs
  have hrdy := (rootsReady_of_reach hs).of_call hi hc
  obtain ⟨root, kt₀, rest, hcall⟩ := hi.call hc
  have hmiss : kt₀.missingRefs = [] := hcall.ok.elim (·.missingRefs) (·.missingRefs)
  cases applyProcess_outcome hcall.toHead hcall.rest_ne hmiss ha with
  | @finished p haux hp =>
    have hdec : p.mem.cache.Decodes cfg.codec p.kt.newroot :=
      hp.newroot_decodes (.inr rfl) ((hg.call hc).2 _ ha) hcall.state_ne_finished
        (hrdy.head hcall haux)
    have hhead : ((s'.withMem p.mem).setHead k root p.kt rest).Head k
        { root with ready := p.kt :: rest } p.kt rest :=
      ⟨if_pos rfl, rfl, hp.sameRequest.id.trans hcall.id⟩
    obtain ⟨entry, hent, hsome⟩ := hdec
    obtain ⟨rootdir, hdir⟩ := isSome_iff_exists.1 hsome
    refine ⟨⟨entry, rootdir, hent, hdir⟩, ?_⟩
    rw [kvstxnApply, ha, bind_some, isSome_map]
    exact hhead.applyDone_isSome ⟨entry, hent, hsome⟩

variable (cfg) in
/-- The condition on a call, computed: the list of the transaction is empty. -/
def callKeepsRoots (s : Leader) (l : Label) : Bool :=
  match call cfg s l with
  | none => true
  | some (s', k, sendFails) => (s'.dirtyList k).isEmpty &&
      (applyProcess cfg s' sendFails k).all fun a => decide (a.mem.Agrees cfg.codec)

theorem callKeepsRoots_sound (h : callKeepsRoots cfg s l = true)
    (hc : call cfg s l = some (s', k, sendFails)) :
    (∀ ref, s'.Awaits ref → ref ∉ s'.dirtyList k) ∧
      ∀ a, applyProcess cfg s' sendFails k = some a → a.mem.Agrees cfg.codec := by
  simp only [callKeepsRoots, hc, Bool.and_eq_true, List.isEmpty_iff] at h
  refine ⟨fun ref _ => h.1 ▸ not_mem_nil, fun a ha => ?_⟩
  simpa [ha] using h.2

variable (cfg) in
/-- The condition, computed, for runs in which nothing expires, nothing is loaded and no store
fails. -/
def keepsRoots (s : Leader) (l : Label) : Bool :=
  match l with
  | .heartbeat _ | .dropcache | .contentLoad _ _ => false
  | .contentStore _ errnum => errnum.isNone
  | l => callKeepsRoots cfg s l

theorem keepsRoots_sound (h : keepsRoots cfg s l = true) : KeepsRoots cfg s l := by
  cases l with
  | heartbeat | dropcache | contentLoad => cases h
  | contentStore ref errnum =>
    cases errnum with
    | none => exact fun hne => absurd rfl hne
    | some e => cases h
  | check | run => exact fun _ _ _ hc => callKeepsRoots_sound h hc
  | _ => exact fun _ _ _ hc => by cases hc

/-- A value that is stored as a blob of its own. -/
def longValue : String :=
  "QUFBQUFBQUFBQUFBQUFBQUFBQUFBQUFBQUFBQUFBQUFBQUFBQUFBQUFBQUFBQUFBQUFBQUFBQUFB"

/-- The blobref of the root directory with a reference to `longValue`. -/
def longRoot : Blobref := "sha1-74997516cf7e135da129c9fff3afb762342ef13b"

/-- A transaction that assigns a long value is waiting, and the store of its root directory
has completed. -/
def rootStored : List Label :=
  [.addTransaction "primary" "t" [some ⟨"a", 0, some (.val longValue)⟩] 0,
    .check "primary" fun _ => none, .contentStore longRoot none]

/-- The store of the value completes. -/
def valueStored : Label := .contentStore "sha1-e8d6ea5c627fc8676fa662677b028640844dc35c" none

/-- The transaction runs again. -/
def runAgain : Label := .run ⟨"primary", 0⟩ fun _ => none

/-- Whether a call of `kvstxn_apply` is done without an error, the new root, and whether the
new root is in the cache. -/
def announces (cfg : Config) (s : Leader) (l : Label) : Option (Blobref × Bool) :=
  (call cfg s l).bind fun r =>
    (applyProcess cfg r.1 r.2.2 r.2.1).bind fun a =>
      match a with
      | .done t kt none => some (kt.newroot, (t.mem.cache kt.newroot).isSome)
      | _ => none

theorem announces_eq_some (h : announces cfg s l = some (ref, present)) :
    ∃ s' k sendFails t kt, call cfg s l = some (s', k, sendFails) ∧
      applyProcess cfg s' sendFails k = some (.done t kt none) ∧ kt.newroot = ref ∧
      (t.mem.cache kt.newroot).isSome = present := by
  obtain ⟨⟨s', k, sendFails⟩, hc, h⟩ := bind_eq_some_iff.1 h
  obtain ⟨a, ha, h⟩ := bind_eq_some_iff.1 h
  split at h
  · cases h
    exact ⟨s', k, sendFails, _, _, hc, ha, rfl, rfl⟩
  · cases h

theorem announced_root_decodes_stored :
    ∃ s s' t k kt sendFails, (machine rfc11).Reach (KeepsRoots rfc11) (Init rfc11) s ∧
      KeepsRoots rfc11 s runAgain ∧ call rfc11 s runAgain = some (s', k, sendFails) ∧
      applyProcess rfc11 s' sendFails k = some (.done t kt none) ∧ kt.newroot = longRoot ∧
      (∃ entry rootdir, t.mem.cache kt.newroot = some entry ∧
        cacheEntryGetTreeobj rfc11.codec entry = some rootdir) ∧
      (kvstxnApply rfc11 s' sendFails k).isSome = true := by
  have hrun : (((machine rfc11).runGuarded (keepsRoots rfc11) (rootStored ++ [valueStored])
      rfc11Initial).map fun s => (keepsRoots rfc11 s runAgain, announces rfc11 s runAgain))
      = some (true, some (longRoot, true)) := by decide +kernel
  obtain ⟨s, hs, heq⟩ := map_eq_some_iff.1 hrun
  obtain ⟨hkp, hann⟩ := Prod.mk.inj heq
  have hrch : (machine rfc11).Reach (KeepsRoots rfc11) (Init rfc11) s :=
    Machine.Reach.of_runGuarded (fun _ _ => keepsRoots_sound) (.start ⟨_, rfl⟩) hs
  have hg := keepsRoots_sound hkp
  obtain ⟨s', k, sendFails, t, kt, hc, ha, hnew, -⟩ := announces_eq_some hann
  exact ⟨s, s', t, k, kt, sendFails, hrch, hg, hc, ha, hnew,
    announced_root_decodes hrch hg hc ha⟩

/-- **The root may be gone when it is announced:** if `kvs.dropcache` comes after the store of
the new root directory has completed and before the store of a value has, the transaction
finishes, its new root is not in the cache, and the assertion of `setroot_event_send`
fails. -/
theorem announced_root_dropped :
    ∃ s s' t k kt sendFails, (machine rfc11).Reach (fun _ _ => True) (Init rfc11) s ∧
      call rfc11 s runAgain = some (s', k, sendFails) ∧
      applyProcess rfc11 s' sendFails k = some (.done t kt none) ∧
      t.mem.cache kt.newroot = none ∧ kvstxnApply rfc11 s' sendFails k = none := by
  have hrun : (((machine rfc11).run (rootStored ++ [.dropcache, valueStored]) rfc11Initial).map
      fun s => (announces rfc11 s runAgain, ((machine rfc11).step runAgain s).isNone))
      = some (some (longRoot, false), true) := by decide +kernel
  obtain ⟨s, hs, heq⟩ := map_eq_some_iff.1 hrun
  obtain ⟨hann, hnone⟩ := Prod.mk.inj heq
  obtain ⟨s', k, sendFails, t, kt, hc, ha, -, habs⟩ := announces_eq_some hann
  refine ⟨s, s', t, k, kt, sendFails, reach_rfc11 hs, hc, ha, by simpa using habs, ?_⟩
  have hstep : (machine rfc11).step runAgain s
      = (call rfc11 s runAgain).bind fun r => kvstxnApply rfc11 r.1 r.2.2 r.2.1 := rfl
  rw [hstep, hc, bind_some, isNone_iff_eq_none] at hnone
  exact hnone

end Leader

end FluxCore.Kvs
