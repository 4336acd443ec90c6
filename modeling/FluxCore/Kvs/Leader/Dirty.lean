import FluxCore.Kvs.Leader.Pending

/-!
# Orphaned Dirty Entries

A transaction that fails has to clean up the entries that it has made dirty and has not
handed to the content store. `kvstxn_process` does so when it fails to store the root
directory, and `kvstxn_iter_dirty_cache_entries` when a callback fails; nobody does so for a
transaction that fails earlier, after an append has made an entry dirty. This module shows
that these are the only entries that are left behind.
-/

namespace FluxCore.Kvs

open List Option Function

/-! ### Calls of `kvstxn_process` -/

section Process

variable {ρ : Type} [DecidableEq ρ]

omit [DecidableEq ρ] in
theorem put_pending (c : Codec) (epoch : ℕ) (data : Bytes) {w : Work ρ} (hok : w.cache.Ok) :
    ((w.put c epoch data).cache.pending = w.cache.pending ∧
      (w.put c epoch data).dirtyCacheEntries = w.dirtyCacheEntries) ∨
    (w.cache.pending (c.blobrefHash data) = none ∧
      (w.put c epoch data).cache.pending = Function.update w.cache.pending (c.blobrefHash data)
        (some ⟨data, [], some w.self⟩) ∧
      (w.put c epoch data).dirtyCacheEntries = c.blobrefHash data :: w.dirtyCacheEntries) := by
  rcases put_cases (c := c) data w with ⟨_, -, -, heq⟩ | ⟨entry, hent, hv, heq⟩
  · rw [heq]
    exact .inl ⟨Cache.pending_lookup _ _ _, rfl⟩
  have hok' : entry.Ok := hent ▸ hok.getD_lookup _ epoch
  have hd := hok'.invalid hv
  have hpend := Cache.pending_getD_lookup w.cache (c.blobrefHash data) epoch
  rw [hent, CacheEntry.pending_of_clean hd] at hpend
  rw [heq]
  refine .inr ⟨hpend.symm, ?_, rfl⟩
  rw [Cache.pending_set, Cache.pending_lookup]
  congr 1
  simp [CacheEntry.pending, hok'.clean hd]

omit [DecidableEq ρ] in
theorem put_claimed {data : Bytes} {w : Work ρ} (h : w.cache.Claimed) :
    (w.put c epoch data).cache.Claimed :=
  put_all (fun _ _ _ he => he) (fun _ _ _ hd => by cases hd) h data

/-- **Effects keep the bookkeeping**, with the list of the transaction that works. -/
theorem Effects.tracked {w w' : Work ρ} (h : Effects c epoch w w') (hok : w.cache.Ok)
    (ht : Tracked w.cache stores (Function.update lists w.self w.dirtyCacheEntries)) :
    Tracked w'.cache stores (Function.update lists w'.self w'.dirtyCacheEntries) := by
  induction h with
  | refl => exact ht
  | @tail w₁ w₂ hw he ih =>
    have hself := Effects.self_eq (.single he)
    rw [hself]
    cases he with
    | lookup ref => exact ih.lookup ref epoch
    | put data =>
      have hclm : (w₁.put c epoch data).cache.Claimed := put_claimed ih.claimed
      rcases put_pending c epoch data (Effects.cacheOk hw hok) with
        ⟨hp, hl⟩ | ⟨hnone, hp, hl⟩
      · rw [hl]
        exact ih.congr hclm hp
      · have := ih.put hnone hclm hp
        rwa [update_self, update_idem, ← hl] at this
    | enter | write => exact ih

/-- **Cleaning up** removes the entries of a list. -/
theorem Tracked.cleanup (hstate : state = .store ∨ state = .preFinished)
    (h : Tracked cache stores (Function.update lists k refs))
    (hc : cleanupDirtyCacheList state refs cache = some cache') :
    Tracked cache' stores (Function.update lists k []) :=
  cleanup_induct (P := fun refs cache => Tracked cache stores (Function.update lists k refs)) hstate
    (fun _ _ _ _ h _ _ _ => h.drop) h hc

/-- **A call keeps the bookkeeping**, and what it leaves on the list of the transaction is
what the transaction has made dirty. -/
theorem Proc.tracked {ns : String} {stack depth : ℕ} {rootref : Blobref} {p p' : Processing ρ}
    {result : Process} (h : Proc c ns stack depth epoch rootref p (p', result))
    (hok : p.mem.cache.Ok)
    (ht : Tracked p.mem.cache stores (Function.update lists p.kt.id p.kt.dirtyCacheEntries)) :
    Tracked p'.mem.cache stores (Function.update lists p.kt.id p'.kt.dirtyCacheEntries) := by
  have hid : p'.kt.id = p.kt.id := h.sameRequest.id
  cases h.leaves with
  | effects he =>
    rw [← hid]
    exact he.tracked hok ht
  | @cleaned w cache he hclean hw =>
    have hself : w.self = p.kt.id := he.self_eq
    have hca : p'.mem.cache = cache := congrArg (fun w => w.toMem.cache) hw
    have hlist : p'.kt.dirtyCacheEntries = [] := congrArg Work.dirtyCacheEntries hw
    rw [hca, hlist, ← hself]
    exact (he.tracked hok ht).cleanup (.inl rfl) hclean

end Process

namespace Leader

variable {cfg : Config} {s t : Leader}

/-! ### Iterators -/

theorem tracked_loadCb (h : Tracked s.mem.cache s.stores lists)
    (hcb : s.kvstxnLoadCb sendFails k ref = some (s', e)) :
    Tracked s'.mem.cache s'.stores lists := by
  rcases kvstxnLoadCb_cases hcb with ⟨rfl, -⟩ | ⟨loads, entry, hent, hv, -, rfl⟩
  · exact h
  have hpend := Cache.pending_getD_lookup s.mem.cache ref s.epoch
  have hclaim := h.claimed.getD_lookup ref s.epoch
  rw [hent] at hpend hclaim
  refine (h.lookup ref s.epoch).congr ?_ (Cache.pending_set_eq ?_)
  · refine Cache.Claimed.set (h.claimed.lookup ref s.epoch) ?_ ref
    exact hclaim
  · rw [Cache.pending_lookup, ← hpend]
    rfl

theorem tracked_iterLoads (h : Tracked s.mem.cache s.stores lists)
    (hiter : iterRefs (fun ref s => kvstxnLoadCb s sendFails k ref) (fun _ s => some s) refs s
      = some (s', e)) : Tracked s'.mem.cache s'.stores lists :=
  iterRefs_induct (P := fun _ s' => Tracked s'.mem.cache s'.stores lists)
    (fun _ _ _ _ hs hcb => tracked_loadCb hs hcb)
    (fun _ _ _ _ _ _ hs hcb hclean => by
      cases hclean
      exact tracked_loadCb hs hcb) h hiter

theorem tracked_cacheCb (h : Tracked s.mem.cache s.stores (Function.update lists k (ref :: refs)))
    (hcb : s.kvstxnCacheCb sendFails k ref = some (s', e)) :
    Tracked s'.mem.cache s'.stores (Function.update lists k refs) := by
  obtain ⟨entry, hent, hv, hd, ⟨-, hn, hl, rfl⟩ | ⟨-, rfl⟩⟩ := kvstxnCacheCb_cases hcb
  · exact h.drop
  · exact h.hand hd k

/-- **Draining the list** leaves nothing on it, also if a callback fails. -/
theorem tracked_iterFlushes (h : Tracked s.mem.cache s.stores (Function.update lists k refs))
    (hiter : iterRefs (fun ref s => kvstxnCacheCb s sendFails k ref) (fun refs s => cleanup s refs)
      refs s = some (s', e)) :
    Tracked s'.mem.cache s'.stores (Function.update lists k []) :=
  iterRefs_induct
    (P := fun refs s' => Tracked s'.mem.cache s'.stores (Function.update lists k refs))
    (fun _ _ _ _ hs hcb => tracked_cacheCb hs hcb)
    (fun _ _ _ _ _ _ hs hcb hclean => by
      obtain ⟨cache, hca, rfl⟩ := map_eq_some_iff.1 hclean
      exact (tracked_cacheCb hs hcb).cleanup (.inr rfl) hca) h hiter

/-! ### The lists of the leader -/

/-- The list of a transaction. Only the head of a queue has one that is not empty. -/
def dirtyList (s : Leader) (k : TxnId) : List Blobref :=
  match s.ready k.ns with
  | kt :: _ => if kt.id = k then kt.dirtyCacheEntries else []
  | [] => []

/-- **The invariant:** the lists of the transactions agree with the dirty entries. -/
def Dirty (s : Leader) : Prop := Tracked s.mem.cache s.stores s.dirtyList

/-- The transaction is in a ready queue. -/
def Queued (s : Leader) (k : TxnId) : Prop := ∃ kt ∈ s.ready k.ns, kt.id = k

/-- **No orphans:** an entry that a transaction has made dirty, and has not handed to a
callback that succeeded, is in the cache only while the transaction is in a ready queue. -/
def NoOrphans (s : Leader) : Prop :=
  ∀ ref entry k, s.mem.cache ref = some entry → entry.dirtiedBy = some k → s.Queued k

theorem Head.dirtyList (h : s.Head k root kt rest) : s.dirtyList k = kt.dirtyCacheEntries := by
  simp [Leader.dirtyList, h.ready_eq, h.id]

theorem Head.dirtyList_of_ne (h : s.Head k root kt rest) (hns : k'.ns = k.ns) (hne : k' ≠ k) :
    s.dirtyList k' = [] := by
  simp [Leader.dirtyList, hns, h.ready_eq, h.id, Ne.symm hne]

theorem dirtyList_of_fresh (hf : ∀ x ∈ s.ready k.ns, x.Fresh) : s.dirtyList k = [] := by
  rw [dirtyList]
  split
  · rename_i kt rest hr
    rw [(hf kt (by rw [hr]; exact mem_cons_self)).dirty]
    split_ifs <;> rfl
  · rfl

theorem dirtyList_congr (h : t.ready k.ns = s.ready k.ns) : t.dirtyList k = s.dirtyList k := by
  rw [dirtyList, h, dirtyList]

theorem Head.dirtyList_update (h : s.Head k root kt rest)
    (ht : ∀ n, t.roots n = if n = k.ns then some ⟨r, kt' :: rest⟩ else s.roots n)
    (hid : kt'.id = k) : t.dirtyList = Function.update s.dirtyList k kt'.dirtyCacheEntries := by
  have hhead : t.Head k ⟨r, kt' :: rest⟩ kt' rest := ⟨by rw [ht, if_pos rfl], rfl, hid⟩
  funext k'
  by_cases hk : k' = k
  · subst hk
    rw [update_self, hhead.dirtyList]
  rw [update_of_ne hk]
  by_cases hns : k'.ns = k.ns
  · rw [hhead.dirtyList_of_ne hns hk, h.dirtyList_of_ne hns hk]
  · exact dirtyList_congr (ready_congr (by rw [ht, if_neg hns]))

theorem Head.dirtyList_remove (h : s.Head k root kt rest)
    (ht : ∀ n, t.roots n = if n = k.ns then some root' else s.roots n)
    (hf : ∀ x ∈ root'.ready, x.Fresh) : t.dirtyList = Function.update s.dirtyList k [] := by
  have hrdy : t.ready k.ns = root'.ready := ready_of_some (by rw [ht, if_pos rfl])
  funext k'
  by_cases hk : k' = k
  · subst hk
    rw [update_self, dirtyList_of_fresh (hrdy ▸ hf)]
  rw [update_of_ne hk]
  by_cases hns : k'.ns = k.ns
  · rw [dirtyList_of_fresh (hns ▸ hrdy ▸ hf), h.dirtyList_of_ne hns hk]
  · exact dirtyList_congr (ready_congr (by rw [ht, if_neg hns]))

theorem Dirty.noOrphans (h : s.Dirty) : s.NoOrphans := by
  intro ref entry k hent hby
  have hd : entry.dirty = true := by
    cases hd : entry.dirty with
    | true => rfl
    | false =>
      rw [h.claimed ref entry hent hd] at hby
      cases hby
  have hmem : ref ∈ s.dirtyList k := (h.owner k ref).1
    ⟨_, by rw [Cache.pending_of_some hent, CacheEntry.pending_of_dirty hd], hby⟩
  rw [dirtyList] at hmem
  split at hmem
  · rename_i kt rest hrdy
    split_ifs at hmem with hid
    · exact ⟨kt, by rw [hrdy]; exact mem_cons_self, hid⟩
    · cases hmem
  · cases hmem

/-! ### Calls -/

/-- The outcome of a call is that the transaction has failed and has entries on its list. -/
def leavesDirty : Option Applied → Bool
  | some (.done _ kt (some _)) => !kt.dirtyCacheEntries.isEmpty
  | _ => false

/-- **The end of a call:** nothing is left behind, unless the list is not empty. -/
theorem Done.dirty (h : s.Done k root kt rest) (hd : s.Dirty)
    (ht : applyDone cfg s kt errnum = some t) : (kt.dirtyCacheEntries = [] → t.runWoken.Dirty) ∧
      (kt.dirtyCacheEntries ≠ [] → ¬ t.runWoken.NoOrphans) := by
  have key (fallback : Bool) (hf : fallback = true → kt.merged = true) (s' : Leader) (r : Root)
      (hrts : s'.roots = s.roots) (htr : Tracked s'.mem.cache s'.stores s.dirtyList) :
      (kt.dirtyCacheEntries = [] → (s'.setRoot k.ns
        ⟨r, kvstxnMgrRemoveTransaction (kt :: rest) kt fallback⟩).runWoken.Dirty) ∧
      (kt.dirtyCacheEntries ≠ [] → ¬ (s'.setRoot k.ns
        ⟨r, kvstxnMgrRemoveTransaction (kt :: rest) kt fallback⟩).runWoken.NoOrphans) := by
    constructor
    · intro hnil
      have hlist := h.toHead.dirtyList_remove (t := (s'.setRoot k.ns
        ⟨r, kvstxnMgrRemoveTransaction (kt :: rest) kt fallback⟩).runWoken)
        (fun n => by rw [runWoken_roots, setRoot_roots, hrts])
        (h.queue.remove h.processing hf).2
      rw [← hnil, ← h.toHead.dirtyList, update_eq_self] at hlist
      rw [Dirty, hlist]
      exact htr
    · intro hne hno
      obtain ⟨ref, hmem⟩ := exists_mem_of_ne_nil _ hne
      rw [← h.toHead.dirtyList] at hmem
      obtain ⟨p, hp, hby⟩ := (htr.owner k ref).2 hmem
      obtain ⟨entry, hent, -, rfl⟩ := Cache.pending_eq_some hp
      obtain ⟨x, hx, hxid⟩ := hno ref entry k hent hby
      rw [ready_of_some (by rw [runWoken_roots, setRoot_roots, if_pos rfl])] at hx
      obtain ⟨y, hy, rfl | rfl⟩ := mem_remove h.processing hx
      · exact h.queue.rest_id_ne hy (hxid.trans h.id.symm)
      · exact h.queue.rest_id_ne hy (hxid.trans h.id.symm)
  rcases applyDone_cases h.toHead ht with ⟨e, -, rfl⟩ | ⟨-, rootdir, -, rfl⟩
  · refine key (kvstxnFallback kt e) (fun hf => ?_) s root.toRoot rfl hd
    simp only [kvstxnFallback, kvstxnFallbackMergeable, Bool.and_eq_true] at hf
    exact hf.1.1
  · exact key false (by simp) _ _ rfl (hd.lookup _ _)

theorem Head.dirty_setHead {mem : Mem ℕ} (h : s.Head k root kt rest)
    (ht : (s.withMem mem).Touched s') (hid : kt'.id = k)
    (htr : Tracked s'.mem.cache s'.stores
      (Function.update s.dirtyList k kt'.dirtyCacheEntries)) :
    (s'.setHead k root kt' rest).Dirty := by
  have hrts : s'.roots = s.roots := by
    obtain ⟨_, _, _, _, rfl⟩ := ht
    rfl
  have hlist := h.dirtyList_update (t := s'.setHead k root kt' rest)
    (fun n => by rw [setHead_roots, hrts]) hid
  rw [Dirty, hlist]
  exact htr

theorem Called.process_tracked {p : Processing ℕ} {result : Kvs.Process}
    (h : s.Called k root kt rest) (hd : s.Dirty) (hp : s.Process cfg k root kt p result) :
    Tracked p.mem.cache s.stores (Function.update s.dirtyList k p.kt.dirtyCacheEntries) := by
  have hlists : Function.update s.dirtyList kt.id kt.dirtyCacheEntries = s.dirtyList := by
    rw [h.id, ← h.toHead.dirtyList, update_eq_self]
  have hd' : Tracked s.mem.cache s.stores
      (Function.update s.dirtyList kt.id kt.dirtyCacheEntries) := hlists.symm ▸ hd
  exact h.id ▸ hp.tracked h.cache hd'

theorem Called.dirty_ends (h : s.Called k root kt rest) (hd : s.Dirty)
    (ha : applyProcess cfg s sendFails k = some (.done s' kt' errnum)) :
    s'.Dirty ∧ (errnum = none → kt'.dirtyCacheEntries = []) := by
  have hmiss : kt.missingRefs = [] := h.ok.elim (·.missingRefs) (·.missingRefs)
  cases applyProcess_outcome h.toHead h.rest_ne hmiss ha with
  | removed hrem | auxFailed haux => exact ⟨hd, nofun⟩
  | failed haux hp he =>
    exact ⟨h.dirty_setHead (.refl _) (hp.sameRequest.id.trans h.id) (h.process_tracked hd hp),
      nofun⟩
  | finished haux hp =>
    have hstate : kt.state ≠ .finished := by
      rcases h.ok with hf | hst
      · rw [hf.state]
        decide
      · rcases hst.state with hs | hs | ⟨hs, -⟩ <;> rw [hs] <;> decide
    exact ⟨h.dirty_setHead (.refl _) (hp.sameRequest.id.trans h.id) (h.process_tracked hd hp),
      fun _ => (hp.finished_state rfl).2 hstate⟩
  | loadFailed haux hp hiter hwait =>
    exact ⟨h.dirty_setHead (touched_iterLoads hiter) (hp.sameRequest.id.trans h.id)
      (tracked_iterLoads (h.process_tracked hd hp) hiter), nofun⟩
  | flushFailed haux hp hiter hwait =>
    exact ⟨h.dirty_setHead (touched_iterFlushes hiter) (hp.sameRequest.id.trans h.id)
      (tracked_iterFlushes (h.process_tracked hd hp) hiter), nofun⟩

/-- **A call leaves orphans exactly if** the transaction fails with entries on its list. -/
theorem Called.dirty (h : s.Called k root kt rest) (hd : s.Dirty)
    (ht : kvstxnApply cfg s sendFails k = some t) :
    (leavesDirty (applyProcess cfg s sendFails k) = false → t.Dirty) ∧
      (leavesDirty (applyProcess cfg s sendFails k) = true → ¬ t.NoOrphans) := by
  have hmiss : kt.missingRefs = [] := h.ok.elim (·.missingRefs) (·.missingRefs)
  obtain ⟨a, ha, ht⟩ := bind_eq_some_iff.1 ht
  rw [ha]
  cases a with
  | done s' kt' errnum =>
    obtain ⟨t', ht', rfl⟩ := map_eq_some_iff.1 ht
    obtain ⟨root', hdone⟩ := h.ends ha
    obtain ⟨hd', hnil⟩ := h.dirty_ends hd ha
    cases errnum with
    | none => exact ⟨fun _ => (hdone.dirty hd' ht').1 (hnil rfl), fun hn => by cases hn⟩
    | some e =>
      exact ⟨fun hn => (hdone.dirty hd' ht').1 (by simpa [leavesDirty] using hn),
        fun hn => (hdone.dirty hd' ht').2 (by simpa [leavesDirty] using hn)⟩
  | stall s' =>
    cases ht
    refine ⟨fun _ => ?_, fun hn => by cases hn⟩
    cases applyProcess_outcome h.toHead h.rest_ne hmiss ha with
    | loading haux hp hiter hwait =>
      exact h.dirty_setHead (touched_iterLoads hiter) (hp.sameRequest.id.trans h.id)
        (tracked_iterLoads (h.process_tracked hd hp) hiter)
    | flushing haux hp hiter hwait =>
      exact h.dirty_setHead (touched_iterFlushes hiter) (hp.sameRequest.id.trans h.id)
        (tracked_iterFlushes (h.process_tracked hd hp) hiter)

/-! ### The environment -/

/-- **The environment keeps the bookkeeping.** -/
theorem Inv.tracked_env (h : s.Inv) (hl : l.isEnv = true) (ht : (machine cfg).step l s = some t)
    (htr : Tracked s.mem.cache s.stores lists) : Tracked t.mem.cache t.stores lists := by
  cases l with
  | lookup ref sendFails =>
    cases ht
    rcases load_cases s sendFails [] ref with heq | heq | ⟨loads, entry, hent, hv, heq⟩
    · rw [heq]
      exact htr
    · rw [heq]
      exact htr.lookup ref s.epoch
    have hpend := Cache.pending_getD_lookup s.mem.cache ref s.epoch
    have hclaim := htr.claimed.getD_lookup ref s.epoch
    rw [hent] at hpend hclaim
    rw [heq]
    refine (htr.lookup ref s.epoch).congr ?_ (Cache.pending_set_eq ?_)
    · refine Cache.Claimed.set (htr.claimed.lookup ref s.epoch) ?_ ref
      exact hclaim
    · rw [Cache.pending_lookup, ← hpend]
      rfl
  | contentLoad ref errnum =>
    rcases contentLoadCompletion_cases ht with
      rfl | ⟨entry, hent, ⟨e, rfl⟩ | rfl | ⟨data, hdata, hv, rfl⟩⟩
    · exact htr
    · have hl := htr.lookup ref s.epoch
      refine hl.congr (Cache.Claimed.removeEntry (Cache.Claimed.set hl.claimed ?_ ref) ref) ?_
      · exact hl.claimed ref entry hent
      · refine (Cache.pending_removeEntry _ _).trans (Cache.pending_set_eq ?_)
        rw [Cache.pending_of_some hent]
        rfl
    · exact htr.lookup ref s.epoch
    · have hl := htr.lookup ref s.epoch
      have hd := (h.cache.lookup ref s.epoch ref entry hent).invalid hv
      refine hl.congr (Cache.Claimed.set hl.claimed ?_ ref) (Cache.pending_set_eq ?_)
      · exact hl.claimed ref entry hent
      · rw [Cache.pending_of_some hent, CacheEntry.pending_of_clean hd]
        exact CacheEntry.pending_of_clean hd
  | contentStore ref errnum =>
    obtain ⟨data, hfind, hcs⟩ := contentStoreCompletion_cases ht
    have hl := htr.lookup ref s.epoch
    obtain ⟨ws, hpend⟩ := hl.inFlight _ (List.mem_of_find?_eq_some hfind)
    rcases hcs with ⟨hnone, -⟩ | ⟨entry, hent, hcs⟩
    · rw [Cache.pending_of_none hnone] at hpend
      cases hpend
    have hok := h.cache.lookup ref s.epoch ref entry hent
    have hby : entry.dirtiedBy = none := by
      rw [Cache.pending_of_some hent, CacheEntry.pending] at hpend
      split_ifs at hpend
      exact (Pending.mk.inj (some.inj hpend)).2.2
    rcases hcs with ⟨-, rfl⟩ | ⟨e, -, rfl⟩
    · refine hl.complete hfind (Cache.Claimed.set hl.claimed ?_ ref) ?_
      · rw [cacheEntrySetNotdirty]
        split_ifs <;> exact fun _ => hby
      · exact (Cache.pending_set _ _ _).trans
          (congrArg _ (CacheEntry.pending_setNotdirty hok))
    refine hl.complete hfind
      (Cache.Claimed.removeEntry (Cache.Claimed.set hl.claimed ?_ ref) ref) ?_
    · rw [cacheEntryForceClearDirty]
      split_ifs <;> exact fun _ => hby
    · exact (Cache.pending_removeEntry _ _).trans ((Cache.pending_set _ _ _).trans
        (congrArg _ (CacheEntry.pending_forceClearDirty hok)))
  | heartbeat epoch =>
    simp only [machine] at ht
    split_ifs at ht
    cases ht
    obtain ⟨cache, hc, heq⟩ := heartbeat_cases s epoch
      (P := fun cache => Tracked cache s.stores lists) htr fun cache ref hc =>
        hc.lookup ref epoch
    rw [heq]
    exact hc.congr (hc.claimed.expire epoch 5) (Cache.pending_expire _ _ _)
  | dropcache =>
    cases ht
    exact htr.congr (htr.claimed.expire _ _) (Cache.pending_expire _ _ _)
  | _ => cases hl

theorem Admin.tracked (h : Admin cfg s t) (htr : Tracked s.mem.cache s.stores lists) :
    Tracked t.mem.cache t.stores lists := by
  rw [h.stores]
  cases h.primed with
  | same heq =>
    rw [heq]
    exact htr
  | touched heq =>
    rw [heq]
    exact htr.lookup _ _
  | made _ _ hnone heq =>
    rw [heq]
    refine htr.congr (htr.claimed.set (fun _ => rfl) _) (Cache.pending_set_eq ?_)
    rw [Cache.pending_of_none hnone]
    rfl

/-! ### Steps and runs -/

theorem dirtyList_of_marks (h : s.Marks t) : t.dirtyList = s.dirtyList := by
  rcases h with h | ⟨ks, e, -, h⟩
  · funext k
    exact dirtyList_congr (ready_congr (congrFun h k.ns))
  funext k
  rw [dirtyList, ready_setAuxErrnum h, dirtyList]
  cases s.ready k.ns with
  | nil => rfl
  | cons kt rest =>
    simp only [map_cons]
    by_cases hk : kt.id ∈ ks
    · rw [if_pos hk]
    · rw [if_neg hk]

theorem dirtyList_add (hroot : s.roots ns = some root) (hx : kt.Fresh)
    (ht : ∀ n, t.roots n = if n = ns then some ⟨root.toRoot, root.ready ++ [kt]⟩ else s.roots n) :
    t.dirtyList = s.dirtyList := by
  funext k
  by_cases hk : k.ns = ns
  · have hrdy : t.ready k.ns = root.ready ++ [kt] :=
      ready_of_some (by rw [ht, if_pos hk])
    rw [dirtyList, hrdy, dirtyList, ready_of_some (hk ▸ hroot)]
    cases root.ready with
    | nil =>
      simp only [nil_append]
      rw [hx.dirty]
      split_ifs <;> rfl
    | cons x rest => rfl
  · exact dirtyList_congr (ready_congr (by rw [ht, if_neg hk]))

variable (cfg) in
/-- The condition on a step: no call of `kvstxn_apply` ends with an error for a transaction
that has entries on its list. -/
def failsClean (s : Leader) (l : Label) : Bool :=
  match call cfg s l with
  | some (s, k, sendFails) => !leavesDirty (applyProcess cfg s sendFails k)
  | none => true

theorem Dirty.call (h : s.Dirty) (hi : s.Inv) (hc : call cfg s l = some (s', k, sendFails)) :
    s'.Dirty := by
  cases l with
  | check ns sendFails' =>
    obtain ⟨⟨s₁, k₁⟩, hr, hc⟩ := map_eq_some_iff.1 hc
    cases hc
    obtain ⟨root, kt₀, rest₀, kt, rest, hroot, hrdy, hb, hns, -, hfr, rfl, hcall⟩ :=
      hi.checkRoot hr
    have hf := hi.head_fresh hroot hrdy hb
    have hf' : ∀ x ∈ kt :: rest, x.Fresh := by
      intro x hx
      rcases mem_cons.1 hx with rfl | hx
      · exact hfr
      · exact hcall.queue.tail x hx
    have hlist : dirtyList { s.setRoot ns { root with ready := kt :: rest } with
        nextTxn := s.nextTxn + 1 } = s.dirtyList := by
      funext k'
      by_cases hk : k'.ns = ns
      · rw [dirtyList_of_fresh (s := s) (by rw [hk, ready_of_some hroot, hrdy]; exact hf)]
        refine dirtyList_of_fresh ?_
        rw [ready_of_some (if_pos hk)]
        exact hf'
      · exact dirtyList_congr (ready_congr (if_neg hk))
    rw [Dirty, hlist]
    exact h
  | run k' sendFails' =>
    simp only [Leader.call] at hc
    split_ifs at hc
    cases hc
    exact h
  | _ => cases hc

/-- **A step leaves orphans exactly if** it does not meet the condition. -/
theorem Dirty.step (h : s.Dirty) (hi : s.Inv) (ht : (machine cfg).step l s = some t) :
    (failsClean cfg s l = true → t.Dirty) ∧ (failsClean cfg s l = false → ¬ t.NoOrphans) := by
  have hqt (hc : Leader.call cfg s l = none) (hd : t.Dirty) :
      (failsClean cfg s l = true → t.Dirty) ∧ (failsClean cfg s l = false → ¬ t.NoOrphans) :=
    ⟨fun _ => hd, fun hcl => by simp [failsClean, hc] at hcl⟩
  cases hi.steps ht with
  | env hl henv =>
    refine hqt (call_eq_none (.inl hl)) ?_
    rw [Dirty, dirtyList_of_marks henv.marks]
    exact hi.tracked_env hl ht h
  | admin hl hadm =>
    refine hqt (call_eq_none (.inr hl)) ?_
    have hlist : t.dirtyList = s.dirtyList := funext fun k =>
      dirtyList_congr (congrFun hadm.ready k.ns)
    rw [Dirty, hlist]
    exact hadm.tracked h
  | @call _ s' k sf root kt rest hc hcall ht =>
    have hd := hcall.dirty (h.call hi hc) ht
    exact ⟨fun hcl => hd.1 (by simpa [failsClean, hc] using hcl),
      fun hcl => hd.2 (by simpa [failsClean, hc] using hcl)⟩
  | add ht =>
    obtain ⟨root, objs, nextObj, ops', hroot, -, rfl⟩ := addTransaction_cases ht
    refine hqt rfl ?_
    rw [Dirty, dirtyList_add hroot ⟨rfl, rfl, rfl, rfl, rfl, rfl⟩ fun n => rfl]
    exact h

theorem Dirty.init (h : Init cfg s) : s.Dirty := by
  obtain ⟨content, rfl⟩ := h
  have hlist (k : TxnId) : (initial cfg content).dirtyList k = [] := by
    refine dirtyList_of_fresh fun x hx => ?_
    change x ∈ (((if k.ns = "primary" then _ else _) : Option Kvsroot).map _).getD _ at hx
    split_ifs at hx <;> cases hx
  have hpend : (initial cfg content).mem.cache.pending = fun _ => none := by
    funext r
    simp only [initial, Cache.pending_set]
    by_cases hr : r = cfg.codec.blobrefHash (emptyRoot cfg.codec)
    · rw [hr, update_self]
      rfl
    · rw [update_of_ne hr]
      rfl
  refine ⟨?_, fun k ref => ?_, fun k => ?_, fun x hx => absurd hx not_mem_nil, nodup_nil⟩
  · have hemp : Cache.Claimed fun _ => none := fun _ _ hn => by cases hn
    exact hemp.set (fun _ => rfl) _
  · rw [hpend, hlist]
    simp
  · rw [hlist]
    exact nodup_nil

/-- A transaction that assigns a key and then tries to unlink the root directory. -/
def failedPut : List Label :=
  [.addTransaction "primary" "t" [some ⟨"a", 0, some (.val "QQ==")⟩, some ⟨".", 0, none⟩] 0,
    .check "primary" fun _ => none]

/-- A transaction that assigns a key, appends to it, and then tries to unlink the root
directory. -/
def failedAppend : List Label :=
  [.addTransaction "primary" "t" [some ⟨"a", 0, some (.val "QQ==")⟩,
      some ⟨"a", 32, some (.val "Qg==")⟩, some ⟨".", 0, none⟩] 0,
    .check "primary" fun _ => none]

end Leader

end FluxCore.Kvs
