import FluxCore.Kvs.Leader.Outcome
import FluxCore.Kvs.Leader.Queue

/-!
# The Invariant of the Leader

A head of a ready queue that has stalled waits on the queues of cache entries until it is
run again. The invariant says that the ready queues keep their discipline and that what the
waiters record is what stands on the queues of the cache; every step keeps it.
-/

namespace FluxCore.Kvs.Leader

open List Option

variable {s t : Leader}

/-! ### The invariant -/

/-- **The invariant of the leader:** the ready queues keep their discipline, and what the
waiters record is what stands on the queues of the cache. -/
structure Inv (s : Leader) : Prop where
  queues : ∀ ns root, s.roots ns = some root → QueueOk ns s.nextTxn root.ready
  cache : s.mem.cache.Ok
  woken : s.mem.woken = []
  waiters : s.waiters.Sound s.mem.cache.standing s.Waiting

/-- The state in which `kvstxn_apply` is called for the head of a queue. -/
structure Called (s : Leader) (k : TxnId) (root : Kvsroot) (kt : Kvstxn ℕ)
    (rest : List (Kvstxn ℕ)) : Prop extends Head s k root kt rest where
  queues : ∀ ns root, s.roots ns = some root → QueueOk ns s.nextTxn root.ready
  processing : kt.processing = true
  cache : s.mem.cache.Ok
  woken : s.mem.woken = []
  waiters : s.waiters.Sound s.mem.cache.standing fun k' => s.Waiting k' ∧ k' ≠ k

/-- The state in which `kvstxn_apply` is at its label `done`. -/
structure Done (s : Leader) (k : TxnId) (root : Kvsroot) (kt : Kvstxn ℕ)
    (rest : List (Kvstxn ℕ)) : Prop extends Head s k root kt rest where
  queue : QueueWf k.ns s.nextTxn (kt :: rest)
  others : ∀ ns root, ns ≠ k.ns → s.roots ns = some root → QueueOk ns s.nextTxn root.ready
  processing : kt.processing = true
  cache : s.mem.cache.Ok
  waiters : s.waiters.Sound s.mem.standing fun k' => s.Waiting k' ∧ k' ≠ k

theorem Waiting.ns_ne (h : s.Waiting k') (hhead : s.Head k root kt rest) (hne : k' ≠ k) :
    k'.ns ≠ k.ns := by
  intro hns
  obtain ⟨root', kt', rest', h', -⟩ := h
  exact hne (hhead.unique h' hns).1

theorem Waiting.of_ready (h : s.Waiting k')
    (heq : (t.roots k'.ns).map (·.ready) = (s.roots k'.ns).map (·.ready)) : t.Waiting k' := by
  obtain ⟨root', kt', rest', h', hb⟩ := h
  rw [h'.lookup, map_some] at heq
  obtain ⟨root'', hlk, hrdy⟩ := map_eq_some_iff.1 heq
  exact ⟨root'', kt', rest', ⟨hlk, hrdy.trans h'.ready, h'.id⟩, hb⟩

section

variable (h : s.Called k root kt rest)
include h

theorem Called.queue : QueueOk k.ns s.nextTxn (kt :: rest) :=
  h.ready ▸ h.queues k.ns root h.lookup

theorem Called.ok : kt.Fresh ∨ kt.Stalled :=
  h.queue.head kt rfl

theorem Called.rest_ne : ∀ x ∈ rest, x.id ≠ k := fun _ hx =>
  h.id ▸ h.queue.rest_id_ne hx

theorem Called.not_runnable : k ∉ s.waiters.runnable := fun hk =>
  (h.waiters.live k (.inr hk)).2 rfl

theorem Called.done : s.Done k root kt rest where
  toHead := h.toHead
  queue := h.queue.toQueueWf
  others ns root _ hroot := h.queues ns root hroot
  processing := h.processing
  cache := h.cache
  waiters := by
    have : s.mem.standing = s.mem.cache.standing := by
      funext k' r
      rw [Mem.standing, h.woken, count_nil, Nat.add_zero]
    rw [this]
    exact h.waiters

end

/-! ### Calls keep the invariant -/

/-- The bookkeeping of waiters while a transaction runs an iterator. -/
structure Iterating (s : Leader) (k : TxnId) (live : TxnId → Prop) : Prop where
  cache : s.mem.cache.Ok
  waiters : s.waiters.Sound s.mem.standing live
  not_runnable : k ∉ s.waiters.runnable

variable {s' : Leader}

section

variable (h : s.Iterating k live)
include h

theorem Iterating.loadCb (hlive : live k) (hcb : s.kvstxnLoadCb sendFails k ref = some (s', e)) :
    s'.Iterating k live := by
  rcases kvstxnLoadCb_cases hcb with ⟨rfl, -⟩ | ⟨loads, entry, hent, hv, -, rfl⟩
  · exact h
  have hok : entry.Ok := hent ▸ h.cache.getD_lookup ref s.epoch
  have hok' : { entry with waitlistValid := entry.waitlistValid ++ [k] }.Ok :=
    ⟨fun hv' => absurd (hv.symm.trans hv') Bool.false_ne_true, hok.dirty, hok.clean⟩
  refine ⟨(h.cache.lookup _ _).set hok' _,
    h.waiters.stand h.not_runnable hlive fun k' r => ?_, h.not_runnable⟩
  · have hst := standing_getD_lookup s.mem.cache ref s.epoch k'
    rw [hent] at hst
    simp only [addWait, setCache, Mem.standing, Cache.standing_set, standing_cacheLookup]
    by_cases hr : r = ref
    · subst hr
      rw [if_pos rfl, ← hst]
      by_cases hk : k' = k
      · subst hk
        simp [CacheEntry.standing]
        omega
      · simp [CacheEntry.standing, hk, Ne.symm hk]
    · simp [hr]

theorem Iterating.cacheCb (hlive : live k) (hcb : s.kvstxnCacheCb sendFails k ref = some (s', e))
    : s'.Iterating k live := by
  obtain ⟨entry, hent, hv, hd, ⟨-, hn, hl, rfl⟩ | ⟨-, rfl⟩⟩ := kvstxnCacheCb_cases hcb
  · refine ⟨h.cache.delete ref, ?_, h.not_runnable⟩
    have : (s.setCache (s.mem.cache.delete ref)).mem.standing = s.mem.standing := by
      funext k' r
      simp only [setCache, Mem.standing, Cache.standing_delete]
      split_ifs with hr
      · rw [hr, Cache.standing_of_some hent]
        simp [CacheEntry.standing, hn, hl]
      · rfl
    rw [this]
    exact h.waiters
  · have hok := h.cache ref entry hent
    have hok' : CacheEntry.Ok { entry with
        waitlistNotdirty := entry.waitlistNotdirty ++ [k], dirtiedBy := none } :=
      ⟨hok.valid, hok.dirty, fun hd' => absurd (hd'.symm.trans hd) Bool.false_ne_true⟩
    refine ⟨h.cache.set hok' _,
      h.waiters.stand h.not_runnable hlive fun k' r => ?_, h.not_runnable⟩
    · simp only [addWait, setCache, Mem.standing, Cache.standing_set]
      by_cases hr : r = ref
      · subst hr
        rw [if_pos rfl, Cache.standing_of_some hent]
        by_cases hk : k' = k
        · subst hk
          simp [CacheEntry.standing]
          omega
        · simp [CacheEntry.standing, hk, Ne.symm hk]
      · simp [hr]

theorem Iterating.cleanup (hc : s.cleanup refs = some s') :
    s'.Iterating k live := by
  obtain ⟨cache, hcl, rfl⟩ := map_eq_some_iff.1 hc
  have hok : cache.Ok := Cache.All.cleanup (.inr rfl) h.cache hcl
  have hst := Cache.standing_cleanup (.inr rfl) hcl
  refine ⟨hok, ?_, h.not_runnable⟩
  have : (s.setCache cache).mem.standing = s.mem.standing := by
    funext k' r
    exact congrArg (· + _) (hst k' r)
  rw [this]
  exact h.waiters

theorem Iterating.loads (hlive : live k)
    (hiter : iterRefs (fun ref s => kvstxnLoadCb s sendFails k ref) (fun _ s => some s) refs s
      = some (s', e)) : s'.Iterating k live :=
  iterRefs_induct (P := fun _ s' => s'.Iterating k live)
    (fun _ _ _ _ hs hcb => hs.loadCb hlive hcb)
    (fun _ _ _ _ _ _ hs hcb hcl => by
      cases hcl
      exact hs.loadCb hlive hcb) h hiter

theorem Iterating.flushes (hlive : live k)
    (hiter : iterRefs (fun ref s => kvstxnCacheCb s sendFails k ref)
      (fun refs s => Leader.cleanup s refs) refs s = some (s', e)) : s'.Iterating k live :=
  iterRefs_induct (P := fun _ s' => s'.Iterating k live)
    (fun _ _ _ _ hs hcb => hs.cacheCb hlive hcb)
    (fun _ _ _ _ _ _ hs hcb hcl => (hs.cacheCb hlive hcb).cleanup hcl) h hiter

end

theorem Called.process (h : s.Called k root kt rest) (hp : s.Process cfg k root kt p result) :
    p.mem.cache.Ok ∧ s.waiters.Sound p.mem.standing fun k' => s.Waiting k' ∧ k' ≠ k := by
  have hst0 := h.done.waiters
  have hsame : p.kt.id = kt.id := hp.sameRequest.id
  cases hp.leaves with
  | effects he =>
    refine ⟨he.cacheOk h.cache, ?_⟩
    have : p.mem.standing = s.mem.standing := funext fun k' => funext fun r => he.standing k' r
    rw [this]
    exact hst0
  | @cleaned w cache he hcl hw =>
    have hok : cache.Ok := Cache.All.cleanup (.inl rfl) (he.cacheOk h.cache) hcl
    have hst := Cache.standing_cleanup (.inl rfl) hcl
    have hmem : p.mem = { w.toMem with cache := cache } := congrArg Work.toMem hw
    have : p.mem.standing = s.mem.standing := by
      funext k' r
      rw [hmem, Mem.standing, hst]
      exact he.standing k' r
    rw [this, hmem]
    exact ⟨hok, hst0⟩

theorem Called.iterating (h : s.Called k root kt rest) (hp : s.Process cfg k root kt p result) :
    (s.withMem p.mem).Iterating k fun k' => s.Waiting k' ∧ k' ≠ k ∨ k' = k :=
  ⟨(h.process hp).1, (h.process hp).2.weaken fun _ _ => Or.inl, h.not_runnable⟩

theorem Called.idle (_ : s.Called k root kt rest)
    (hi : s'.Iterating k fun k' => s.Waiting k' ∧ k' ≠ k ∨ k' = k)
    (hwait : s'.waiters.queues k = []) :
    s'.waiters.Sound s'.mem.standing fun k' => s.Waiting k' ∧ k' ≠ k := by
  refine hi.waiters.weaken fun k' hk' hl => hl.elim id fun he => ?_
  subst he
  exact absurd hk' (not_or.2 ⟨fun hne => hne hwait, hi.not_runnable⟩)

theorem Head.waiting_of_ne (h : s.Head k root kt rest)
    (ht : ∀ n, n ≠ k.ns → t.roots n = s.roots n) (hk : s.Waiting k') (hne : k' ≠ k) :
    t.Waiting k' :=
  hk.of_ready (by rw [ht _ (hk.ns_ne h hne)])

@[simp] theorem runWoken_roots (s : Leader) : s.runWoken.roots = s.roots := rfl

theorem setHead_roots (s : Leader) (k : TxnId) (root : Kvsroot) (kt : Kvstxn ℕ)
    (rest : List (Kvstxn ℕ)) (n : String) : (s.setHead k root kt rest).roots n =
      if n = k.ns then some { root with ready := kt :: rest } else s.roots n := rfl

theorem waiters_runWoken (h : s.waiters.Sound s.mem.standing live) :
    s.runWoken.waiters.Sound s.runWoken.mem.cache.standing live :=
  Waiters.Sound.releaseAll h

section

variable {mem : Mem ℕ} (h : s.Called k root kt rest) (ht : (s.withMem mem).Touched s')
include h ht

theorem Called.stall (hi : s'.Iterating k fun k' => s.Waiting k' ∧ k' ≠ k ∨ k' = k)
    (hsame : kt.SameEntry kt') (hst : kt'.Stalled) :
    (s'.setHead k root kt' rest).runWoken.Inv := by
  obtain ⟨cache, loads, stores, waiters, rfl⟩ := ht
  have hque := (h.queue.toQueueWf.replace_head hsame).ok_of_head (.inr hst)
  refine ⟨fun n root' hroot => ?_, hi.cache, rfl, waiters_runWoken (hi.waiters.weaken ?_)⟩
  · rw [runWoken_roots, setHead_roots] at hroot
    split_ifs at hroot with hn
    · cases hroot
      exact hn ▸ hque
    · exact h.queues n root' hroot
  · rintro k' - (⟨hk', hne⟩ | rfl)
    · refine h.waiting_of_ne (fun n hn => ?_) hk' hne
      rw [runWoken_roots, setHead_roots, if_neg hn]
      rfl
    · exact ⟨_, kt', rest, ⟨if_pos rfl, rfl, hsame.id.trans h.id⟩, hst.blocked⟩

theorem Called.to_done (hcache : s'.mem.cache.Ok)
    (hw : s'.waiters.Sound s'.mem.standing fun k' => s.Waiting k' ∧ k' ≠ k)
    (hsame : kt.SameEntry kt') :
    (s'.setHead k root kt' rest).Done k { root with ready := kt' :: rest } kt' rest := by
  obtain ⟨cache, loads, stores, waiters, rfl⟩ := ht
  refine { lookup := if_pos rfl, ready := rfl, id := hsame.id.trans h.id, cache := hcache,
           queue := h.queue.toQueueWf.replace_head hsame,
           others := fun n root' hn hroot => h.queues n root' ?_,
           processing := hsame.processing.trans h.processing,
           waiters := hw.weaken fun k' _ hk' => ⟨h.waiting_of_ne (fun n hn => ?_) hk'.1 hk'.2, hk'.2⟩ }
  · rw [setHead_roots, if_neg hn] at hroot
    exact hroot
  · rw [setHead_roots, if_neg hn]
    rfl

end

/-- **The end of a call:** the head is removed and the invariant holds. -/
theorem Done.apply (h : s.Done k root kt rest) (ht : applyDone cfg s kt errnum = some t) :
    t.runWoken.Inv := by
  have key (fallback : Bool) (hf : fallback = true → kt.merged = true) (s' : Leader) (r : Root)
      (hrts : s'.roots = s.roots) (hnext : s'.nextTxn = s.nextTxn) (hcache : s'.mem.cache.Ok)
      (hw : s'.waiters.Sound s'.mem.standing fun k' => s.Waiting k' ∧ k' ≠ k) :
      (s'.setRoot k.ns ⟨r, kvstxnMgrRemoveTransaction (kt :: rest) kt fallback⟩).runWoken.Inv := by
    refine ⟨fun n root' hroot => ?_, hcache, rfl, waiters_runWoken (hw.weaken ?_)⟩
    · change QueueOk n s'.nextTxn root'.ready
      rw [runWoken_roots, setRoot_roots, hrts] at hroot
      rw [hnext]
      split_ifs at hroot with hn
      · cases hroot
        rw [hn]
        exact (h.queue.remove h.processing hf).1
      · exact h.others n root' hn hroot
    · rintro k' - ⟨hk', hne⟩
      refine h.waiting_of_ne (fun n hn => ?_) hk' hne
      rw [runWoken_roots, setRoot_roots, if_neg hn, hrts]
  rcases applyDone_cases h.toHead ht with ⟨e, -, rfl⟩ | ⟨-, rootdir, -, rfl⟩
  · refine key (kvstxnFallback kt e) (fun hf => ?_) s root.toRoot rfl rfl h.cache h.waiters
    simp only [kvstxnFallback, kvstxnFallbackMergeable, Bool.and_eq_true] at hf
    exact hf.1.1
  · refine key false (by simp) _ _ rfl rfl (h.cache.lookup _ _) ?_
    exact (Mem.standing_lookup s.mem kt.newroot s.epoch).symm ▸ h.waiters

theorem Called.ends (h : s.Called k root kt rest)
    (ha : applyProcess cfg s sendFails k = some (.done s' kt' errnum)) :
    ∃ root', s'.Done k root' kt' rest := by
  have hmiss : kt.missingRefs = [] := h.ok.elim (·.missingRefs) (·.missingRefs)
  cases applyProcess_outcome h.toHead h.rest_ne hmiss ha with
  | removed hrem | auxFailed haux => exact ⟨root, h.done⟩
  | failed haux hp he | finished haux hp =>
    exact ⟨_, h.to_done (.refl _) (h.process hp).1 (h.process hp).2 hp.sameRequest.toSameEntry⟩
  | loadFailed haux hp hiter hwait =>
    have hi := (h.iterating hp).loads (.inr rfl) hiter
    exact ⟨_, h.to_done (touched_iterLoads hiter) hi.cache (h.idle hi hwait)
      { hp.sameRequest.toSameEntry with }⟩
  | flushFailed haux hp hiter hwait =>
    have hi := (h.iterating hp).flushes (.inr rfl) hiter
    exact ⟨_, h.to_done (touched_iterFlushes hiter) hi.cache (h.idle hi hwait)
      { hp.sameRequest.toSameEntry with }⟩

/-- **A call keeps the invariant.** -/
theorem Called.apply (h : s.Called k root kt rest) (ht : kvstxnApply cfg s sendFails k = some t) :
    t.Inv := by
  have herr : kt.errnum = none := h.ok.elim (·.errnum) (·.errnum)
  have hmiss : kt.missingRefs = [] := h.ok.elim (·.missingRefs) (·.missingRefs)
  obtain ⟨a, ha, ht⟩ := bind_eq_some_iff.1 ht
  cases a with
  | done s' kt' errnum =>
    obtain ⟨t', ht', rfl⟩ := map_eq_some_iff.1 ht
    obtain ⟨root', hdone⟩ := h.ends ha
    exact hdone.apply ht'
  | stall s' =>
    cases ht
    cases applyProcess_outcome h.toHead h.rest_ne hmiss ha with
    | loading haux hp hiter hwait =>
      refine h.stall (touched_iterLoads hiter) ((h.iterating hp).loads (.inr rfl) hiter)
        { hp.sameRequest.toSameEntry with } ?_
      exact ⟨hp.blocked_of_stall (.inl rfl), hp.sameRequest.processing.trans h.processing,
        hp.errnum_eq_none (by simp) herr, rfl,
        (hp.loadMissingRefs_state rfl fun _ => hmiss).imp_right Or.inl⟩
    | flushing haux hp hiter hwait =>
      refine h.stall (touched_iterFlushes hiter) ((h.iterating hp).flushes (.inr rfl) hiter)
        { hp.sameRequest.toSameEntry with } ?_
      exact ⟨hp.blocked_of_stall (.inr rfl), hp.sameRequest.processing.trans h.processing,
        hp.errnum_eq_none (by simp) herr, hp.missingRefs_eq_nil (by simp) hmiss,
        .inr (.inr ⟨(hp.dirtyCacheEntries_state rfl).1, rfl⟩)⟩

/-! ### Calls -/

theorem Inv.head_fresh (h : s.Inv) (hroot : s.roots ns = some root) (hrdy : root.ready = kt :: rest)
    (hb : kt.blocked = false) : ∀ x ∈ kt :: rest, x.Fresh := by
  have hq : QueueOk ns s.nextTxn (kt :: rest) := hrdy ▸ h.queues ns root hroot
  intro x hx
  rcases mem_cons.1 hx with rfl | hx
  · refine (hq.head x rfl).elim id fun hst => ?_
    rw [hst.blocked] at hb
    cases hb
  · exact hq.tail x hx

/-- **`kvstxn_check_root_cb`** calls `kvstxn_apply` for the head of the queue, after
merging. -/
theorem Inv.checkRoot (h : s.Inv) (hc : checkRoot cfg s ns = some (s', k)) :
    ∃ root kt₀ rest₀ kt rest, s.roots ns = some root ∧ root.ready = kt₀ :: rest₀ ∧
      kt₀.blocked = false ∧ k.ns = ns ∧ kvstxnMgrGetReadyTransaction (if cfg.transactionMerge then
        kvstxnMgrMergeReadyTransactions ⟨ns, s.nextTxn⟩ (kt₀.setProcessing :: rest₀)
        else kt₀.setProcessing :: rest₀) = some (kt :: rest, kt) ∧
      kt.Fresh ∧
      s' = { s.setRoot ns { root with ready := kt :: rest } with nextTxn := s.nextTxn + 1 } ∧
      s'.Called k { root with ready := kt :: rest } kt rest := by
  obtain ⟨root, hroot, hc⟩ := bind_eq_some_iff.1 hc
  obtain ⟨r, hr, hc⟩ := bind_eq_some_iff.1 hc
  obtain ⟨r', hr', hc⟩ := map_eq_some_iff.1 hc
  obtain ⟨kt₀, rest₀, hrdy, hb, rfl⟩ := getReadyTransaction_eq_some hr
  have hfr := h.head_fresh hroot hrdy hb
  have hq₀ : QueueOk ns s.nextTxn (kt₀.setProcessing :: rest₀) := by
    have hq : QueueOk ns s.nextTxn (kt₀ :: rest₀) := hrdy ▸ h.queues ns root hroot
    exact (hq.toQueueWf.setProcessing).ok_of_head
      (.inl (hfr kt₀ mem_cons_self).setProcessing)
  have hfr₀ : ∀ x ∈ kt₀.setProcessing :: rest₀, x.Fresh := by
    intro x hx
    rcases mem_cons.1 hx with rfl | hx
    · exact (hfr kt₀ mem_cons_self).setProcessing
    · exact hfr x (mem_cons_of_mem _ hx)
  obtain ⟨hq₁, hfr₁⟩ : QueueOk ns (s.nextTxn + 1) (if cfg.transactionMerge then
        kvstxnMgrMergeReadyTransactions ⟨ns, s.nextTxn⟩ (kt₀.setProcessing :: rest₀)
        else kt₀.setProcessing :: rest₀) ∧ ∀ x ∈ (if cfg.transactionMerge then
        kvstxnMgrMergeReadyTransactions ⟨ns, s.nextTxn⟩ (kt₀.setProcessing :: rest₀)
        else kt₀.setProcessing :: rest₀), x.Fresh := by
    split_ifs
    · exact hq₀.merge hfr₀
    · exact ⟨hq₀.mono (Nat.le_succ _), hfr₀⟩
  obtain ⟨kt₁, rest, hrdy₁, hb₁, rfl⟩ := getReadyTransaction_eq_some hr'
  rw [hrdy₁] at hq₁ hfr₁
  obtain ⟨rfl, rfl⟩ := Prod.mk.inj hc
  have hf := (hfr₁ kt₁ mem_cons_self).setProcessing
  have hq := (hq₁.toQueueWf.setProcessing).ok_of_head (.inl hf)
  have hns : kt₁.setProcessing.id.ns = ns := (hq.mem _ mem_cons_self).1
  refine ⟨root, kt₀, rest₀, _, rest, hroot, hrdy, hb, hns, hr', hf, rfl, ?_⟩
  refine { lookup := ?_, ready := rfl, id := rfl, queues := fun n root' hroot' => ?_,
           processing := rfl, cache := h.cache, woken := h.woken,
           waiters := h.waiters.weaken fun k' _ hk' => ?_ }
  · rw [hns]
    exact if_pos rfl
  · change (if n = ns then _ else _) = _ at hroot'
    split_ifs at hroot' with hn
    · cases hroot'
      exact hn ▸ hq
    · exact (h.queues n root' hroot').mono (Nat.le_succ _)
  · have hne : k'.ns ≠ ns := by
      rintro rfl
      obtain ⟨root', kt', rest', hh, hb'⟩ := hk'
      have hl := hh.lookup
      rw [hroot] at hl
      cases hl
      have hr := hh.ready
      rw [hrdy] at hr
      cases hr
      rw [hb] at hb'
      cases hb'
    refine ⟨hk'.of_ready ?_, fun he => hne (he ▸ hns)⟩
    change ((if k'.ns = ns then _ else _) : Option Kvsroot).map _ = _
    rw [if_neg hne]

/-- **A wait callback** calls `kvstxn_apply` for a head that has stalled. -/
theorem Inv.start (h : s.Inv) (hk : k ∈ s.waiters.runnable) : ∃ root kt rest, kt.Stalled ∧
      Called { s with waiters := s.waiters.start k } k root kt rest := by
  obtain ⟨hsnd, -⟩ := h.waiters.start hk
  obtain ⟨root, kt, rest, hhead, hb⟩ := h.waiters.live k (.inr hk)
  have hq : QueueOk k.ns s.nextTxn (kt :: rest) := hhead.ready ▸ h.queues k.ns root hhead.lookup
  have hst : kt.Stalled := (hq.head kt rfl).elim
    (fun hf => absurd (hf.blocked.symm.trans hb) Bool.false_ne_true) id
  exact ⟨root, kt, rest, hst, { hhead with }, h.queues, hst.processing,
    h.cache, h.woken, hsnd.weaken fun _ _ hk' => ⟨hk'.1.of_ready rfl, hk'.2⟩⟩

/-- **Every call** of `kvstxn_apply` is for the head of a queue. -/
theorem Inv.call (h : s.Inv) (hc : call cfg s l = some (s', k, sendFails)) :
    ∃ root kt rest, s'.Called k root kt rest := by
  cases l with
  | check ns sendFails' =>
    obtain ⟨⟨s₁, k₁⟩, hr, hc⟩ := map_eq_some_iff.1 hc
    cases hc
    obtain ⟨root, _, _, kt, rest, -, -, -, -, -, -, -, hcall⟩ := h.checkRoot hr
    exact ⟨_, kt, rest, hcall⟩
  | run k' sendFails' =>
    simp only [Leader.call] at hc
    split_ifs at hc with hk
    cases hc
    obtain ⟨root, kt, rest, -, hcall⟩ := h.start hk
    exact ⟨root, kt, rest, hcall⟩
  | _ => cases hc

/-! ### The environment -/

/-- What the environment does to the ready queues: nothing, or it marks transactions that
wait. -/
def Marks (s t : Leader) : Prop :=
  t.roots = s.roots ∨ ∃ ks e, (∀ k ∈ ks, s.Waiting k) ∧ t.roots = (s.setAuxErrnum ks e).roots

theorem Inv.waiting_of_mem (h : s.Inv) (hroot : s.roots ns = some root) (hkt : kt ∈ root.ready)
    (hw : s.Waiting kt.id) : kt.blocked = true := by
  obtain ⟨root', kt', rest, hhead, hb⟩ := hw
  have hns : kt.id.ns = ns := ((h.queues ns root hroot).mem kt hkt).1
  have hl := hhead.lookup
  rw [hns, hroot] at hl
  cases hl
  have hq := hhead.ready ▸ h.queues ns root hroot
  rw [hhead.ready] at hkt
  rcases mem_cons.1 hkt with rfl | hmem
  · exact hb
  · exact absurd hhead.id.symm (hq.rest_id_ne hmem)

/-- What a step has to do to the ready queues for the invariant to hold after it. -/
structure KeepsQueues (s t : Leader) : Prop where
  queues : ∀ ns root, t.roots ns = some root → QueueOk ns t.nextTxn root.ready
  waiting : ∀ k, s.Waiting k → t.Waiting k

theorem Inv.keepsQueues (h : s.Inv) (hnext : t.nextTxn = s.nextTxn)
    (hrdy : ∀ n, (t.roots n).map (·.ready) = (s.roots n).map (·.ready)) : s.KeepsQueues t := by
  refine ⟨fun n root hroot => ?_, fun k hk => hk.of_ready (hrdy _)⟩
  have := hrdy n
  rw [hroot, map_some] at this
  obtain ⟨root₀, hroot₀, heq⟩ := map_eq_some_iff.1 this.symm
  rw [hnext, ← heq]
  exact h.queues n root₀ hroot₀

theorem Inv.keepsQueues_of_marks (h : s.Inv) (hnext : t.nextTxn = s.nextTxn) (hm : s.Marks t) :
    s.KeepsQueues t := by
  rcases hm with hm | ⟨ks, e, hks, hm⟩
  · exact h.keepsQueues hnext fun n => by rw [hm]
  refine ⟨fun n root hroot => ?_, fun k hk => ?_⟩
  · rw [hm] at hroot
    obtain ⟨root₀, hroot₀, rfl⟩ := map_eq_some_iff.1 hroot
    rw [hnext]
    exact (h.queues n root₀ hroot₀).mark e fun kt hkt hid =>
      h.waiting_of_mem hroot₀ hkt (hks _ hid)
  · obtain ⟨root', kt, rest, hhead, hb⟩ := hk
    have hlk : t.roots k.ns = some { root' with ready := root'.ready.map fun kt =>
        if kt.id ∈ ks then { kt with auxErrnum := some e } else kt } := by
      rw [hm, setAuxErrnum]
      simp only [hhead.lookup, map_some]
    refine ⟨_, _, _, ⟨hlk, by rw [hhead.ready, map_cons], ?_⟩, ?_⟩
    · split_ifs <;> exact hhead.id
    · split_ifs <;> exact hb

section

variable (h : s.Inv) (hq : s.KeepsQueues t) (hcache : t.mem.cache.Ok)
  (hwoken : t.mem.woken = s.mem.woken)
include h hq hcache hwoken

/-- **The rule for the environment:** the ready queues are kept, and what leaves the queues
of the cache is released. -/
theorem Inv.environment (hw : t.waiters = s.waiters.releaseAll l)
    (hst : ∀ k r, s.mem.cache.standing k r = t.mem.cache.standing k r + l.count (r, k)) :
    t.Inv := by
  refine ⟨hq.queues, hcache, hwoken.trans h.woken, ?_⟩
  rw [hw]
  refine Waiters.Sound.releaseAll ?_
  have : s.mem.cache.standing = fun k r => t.mem.cache.standing k r + l.count (r, k) :=
    funext fun k => funext fun r => hst k r
  exact (this ▸ h.waiters).weaken fun k _ => hq.waiting k

theorem Inv.environment_quiet (hw : t.waiters = s.waiters)
    (hst : ∀ k r, t.mem.cache.standing k r = s.mem.cache.standing k r) : t.Inv :=
  h.environment hq hcache hwoken (l := []) hw fun k r => (hst k r).symm

end

/-! ### Steps of the environment -/

theorem Inv.lookup (h : s.Inv) (ref : Blobref) : (s.load sendFails [] ref).1.Inv := by
  rcases load_cases s sendFails [] ref with heq | heq | ⟨loads, entry, hent, hv, heq⟩
  · rw [heq]
    exact h
  · rw [heq]
    exact h.environment_quiet (h.keepsQueues rfl fun _ => rfl) (h.cache.lookup _ _) rfl rfl
      (standing_cacheLookup _ _ _)
  rw [heq]
  have hok : entry.Ok := hent ▸ h.cache.getD_lookup ref s.epoch
  have hok' : { entry with waitlistValid := entry.waitlistValid ++ [] }.Ok :=
    ⟨fun hv' => absurd (hv.symm.trans hv') Bool.false_ne_true, hok.dirty, hok.clean⟩
  refine h.environment_quiet (h.keepsQueues rfl fun _ => rfl) ((h.cache.lookup _ _).set hok' _)
    rfl rfl fun k r => ?_
  simp only [setCache, Cache.standing_set, standing_cacheLookup, append_nil]
  split_ifs with hr
  · rw [hr, ← standing_getD_lookup s.mem.cache ref s.epoch k, hent]
  · rfl

theorem Inv.waiting_of_entry (h : s.Inv) (hent : s.mem.cache ref = some entry)
    (hk : k ∈ entry.waitlistValid ∨ k ∈ entry.waitlistNotdirty) : s.Waiting k := by
  refine h.waiters.live_of_standing (q := ref) ?_
  rw [Cache.standing_of_some hent, CacheEntry.standing]
  rcases hk with hk | hk
  · have := count_pos_iff.2 hk
    omega
  · have := count_pos_iff.2 hk
    omega

theorem eq_some_of_lookup {cache : Cache} {epoch : ℕ} {entry : CacheEntry}
    (h : cacheLookup cache ref epoch ref = some entry) : ∃ entry₀, cache ref = some entry₀ ∧
      entry = { entry₀ with lastuseEpoch := max entry₀.lastuseEpoch epoch } := by
  rw [cacheLookup_apply] at h
  obtain ⟨entry₀, h₀, rfl⟩ := map_eq_some_iff.1 h
  exact ⟨entry₀, h₀, if_pos rfl⟩

section

variable (h : s.Inv)
include h

theorem Inv.contentLoadCacheEntryError
    (hent : cacheLookup s.mem.cache ref s.epoch ref = some entry) (e : Errno)
    (loads : List Blobref) : ({ s with loads := loads }.contentLoadCacheEntryError
      (cacheLookup s.mem.cache ref s.epoch) ref entry e).Inv := by
  obtain ⟨entry₀, hent₀, heq⟩ := eq_some_of_lookup hent
  have hok := h.cache.lookup ref s.epoch ref entry hent
  have hks : ∀ k ∈ entry.waitlistValid, s.Waiting k := fun k hk =>
    h.waiting_of_entry hent₀ (.inl (by rw [heq] at hk; exact hk))
  have hok' : { entry with waitlistValid := [] }.Ok := ⟨fun _ => rfl, hok.dirty, hok.clean⟩
  refine h.environment (h.keepsQueues_of_marks rfl (.inr ⟨_, e, hks, rfl⟩))
    (((h.cache.lookup _ _).set hok' _).removeEntry _) rfl rfl fun k r => ?_
  simp only [Leader.contentLoadCacheEntryError, runWaiters, setCache, standing_cacheRemoveEntry,
    Cache.standing_set, count_map_pair, standing_cacheLookup]
  split_ifs with hr
  · rw [hr, ← standing_cacheLookup s.mem.cache ref s.epoch, Cache.standing_of_some hent]
    simp only [CacheEntry.standing, count_nil]
    omega
  · rfl

theorem Inv.contentLoad (ht : s.contentLoadCompletion ref errnum = some t) :
    t.Inv := by
  rcases contentLoadCompletion_cases ht with
    rfl | ⟨entry, hent, ⟨e, rfl⟩ | rfl | ⟨data, hdata, hv, rfl⟩⟩
  · exact h.environment_quiet (h.keepsQueues rfl fun _ => rfl) h.cache rfl rfl fun _ _ => rfl
  · exact h.contentLoadCacheEntryError hent e _
  · exact h.environment_quiet (h.keepsQueues rfl fun _ => rfl) (h.cache.lookup _ _) rfl rfl
      (standing_cacheLookup _ _ _)
  have hok := h.cache.lookup ref s.epoch ref entry hent
  have hok' : { entry with data := data, valid := true, waitlistValid := [] }.Ok :=
    ⟨fun _ => rfl, fun _ => rfl, hok.clean⟩
  refine h.environment (h.keepsQueues rfl fun _ => rfl) ((h.cache.lookup _ _).set hok' _) rfl rfl
    fun k r => ?_
  simp only [runWaiters, setCache, Cache.standing_set, count_map_pair, standing_cacheLookup]
  split_ifs with hr
  · rw [hr, ← standing_cacheLookup s.mem.cache ref s.epoch, Cache.standing_of_some hent]
    simp only [CacheEntry.standing, count_nil]
    omega
  · rfl

theorem Inv.contentStore (ht : s.contentStoreCompletion ref errnum = some t) :
    t.Inv := by
  obtain ⟨data, -, ⟨-, rfl⟩ | ⟨entry, hent, ⟨-, rfl⟩ | ⟨e, -, rfl⟩⟩⟩ :=
    contentStoreCompletion_cases ht
  · exact h.environment_quiet (h.keepsQueues rfl fun _ => rfl) h.cache rfl rfl fun _ _ => rfl
  · have hok := h.cache.lookup ref s.epoch ref entry hent
    refine h.environment (h.keepsQueues rfl fun _ => rfl)
      ((h.cache.lookup _ _).set hok.setNotdirty _) rfl rfl fun k r => ?_
    simp only [runWaiters, setCache, acknowledge, Cache.standing_set, count_map_pair,
      standing_cacheLookup]
    split_ifs with hr
    · rw [hr, ← standing_cacheLookup s.mem.cache ref s.epoch, Cache.standing_of_some hent]
      exact cacheEntrySetNotdirty_standing entry k
    · rfl
  · obtain ⟨entry₀, hent₀, heq⟩ := eq_some_of_lookup hent
    have hok := h.cache.lookup ref s.epoch ref entry hent
    have hks : ∀ k ∈ entry.waitlistNotdirty, s.Waiting k := fun k hk =>
      h.waiting_of_entry hent₀ (.inr (by rw [heq] at hk; exact hk))
    refine h.environment (h.keepsQueues_of_marks rfl (.inr ⟨_, e, hks, rfl⟩))
      (((h.cache.lookup _ _).set hok.forceClearDirty _).removeEntry _) rfl rfl fun k r => ?_
    simp only [runWaiters, setCache, standing_cacheRemoveEntry, Cache.standing_set, count_map_pair,
      standing_cacheLookup]
    split_ifs with hr
    · rw [hr, ← standing_cacheLookup s.mem.cache ref s.epoch, Cache.standing_of_some hent]
      have : (cacheEntryForceClearDirty { entry with waitlistNotdirty := [] }).standing k
          = entry.waitlistValid.count k := by
        rw [cacheEntryForceClearDirty]
        split_ifs <;> simp [CacheEntry.standing]
      rw [this, CacheEntry.standing]
    · rfl

theorem Inv.heartbeat (epoch : ℕ) : (s.heartbeat epoch).Inv := by
  obtain ⟨cache, ⟨hok, hst⟩, heq⟩ := heartbeat_cases s epoch
    (P := fun cache => cache.Ok ∧ ∀ k r, cache.standing k r = s.mem.cache.standing k r)
    ⟨h.cache, fun _ _ => rfl⟩
    fun cache ref hc => ⟨hc.1.lookup ref epoch, fun k r => by
      rw [standing_cacheLookup]
      exact hc.2 k r⟩
  rw [heq]
  exact h.environment_quiet (h.keepsQueues rfl fun _ => rfl) (hok.expire epoch 5) rfl rfl
    fun k r => (hok.standing_expire epoch 5 k r).trans (hst k r)

theorem Inv.dropcache : s.dropcache.Inv :=
  h.environment_quiet (h.keepsQueues rfl fun _ => rfl) (h.cache.expire _ _) rfl rfl
    (h.cache.standing_expire _ _)

theorem Inv.prime (rootdir : Treeobj Empty) :
    (primeCacheWithRootdir cfg s rootdir).Inv := by
  rcases primeCacheWithRootdir_cases cfg s rootdir with heq | ⟨ref, heq⟩ | ⟨data, -, hnone, heq⟩
  · rw [heq]
    exact h
  · rw [heq]
    exact h.environment_quiet (h.keepsQueues rfl fun _ => rfl) (h.cache.lookup _ _) rfl rfl
      (standing_cacheLookup _ _ _)
  rw [heq]
  refine h.environment_quiet (h.keepsQueues rfl fun _ => rfl)
    (h.cache.set ⟨fun _ => rfl, fun _ => rfl, fun _ => rfl⟩ _) rfl rfl fun k r => ?_
  simp only [setCache, Cache.standing_set]
  split_ifs with hr
  · rw [hr, Cache.standing_of_none hnone]
    rfl
  · rfl

theorem Inv.setRoot (hroot : s.roots ns = some root) (r : Root) :
    (s.setRoot ns { root with toRoot := r }).Inv := by
  refine h.environment_quiet (h.keepsQueues rfl fun n => ?_) h.cache rfl rfl fun _ _ => rfl
  rw [setRoot_roots]
  split_ifs with hn
  · rw [hn, hroot]
    rfl
  · rfl

end

theorem primeCacheWithRootdir_roots (s : Leader) (rootdir : Treeobj Empty) :
    (primeCacheWithRootdir cfg s rootdir).roots = s.roots := by
  rcases primeCacheWithRootdir_cases cfg s rootdir with h | ⟨_, h⟩ | ⟨_, -, -, h⟩ <;>
    rw [h] <;> rfl

theorem Inv.setrootEvent (h : s.Inv) (ev : SetrootEvent) (events : List SetrootEvent) :
    (setrootEventCb cfg { s with events := events } ev).Inv := by
  have h' : Inv { s with events := events } :=
    h.environment_quiet (h.keepsQueues rfl fun _ => rfl) h.cache rfl rfl fun _ _ => rfl
  rw [setrootEventCb]
  split
  · exact h'
  rename_i root hroot
  split_ifs
  · exact h'
  · exact (h'.prime ev.rootdir).setRoot
      ((congrFun (primeCacheWithRootdir_roots _ _) ev.ns).trans hroot) _

theorem Inv.namespaceCreate (h : s.Inv) (ht : namespaceCreate cfg s ns = some t) : t.Inv := by
  rw [Leader.namespaceCreate] at ht
  split at ht
  · cases ht
  rename_i hnone
  cases ht
  refine h.environment_quiet ⟨fun n root hroot => ?_, fun k hk => hk.of_ready ?_⟩ h.cache rfl rfl
    fun _ _ => rfl
  · change (if n = ns then _ else _) = _ at hroot
    split_ifs at hroot
    · cases hroot
      exact QueueOk.nil
    · exact h.queues n root hroot
  · change ((if k.ns = ns then _ else _) : Option Kvsroot).map _ = _
    rw [if_neg]
    rintro rfl
    obtain ⟨root, kt, rest, hhead, -⟩ := hk
    rw [hhead.lookup] at hnone
    cases hnone

theorem Inv.startRootRemove (h : s.Inv) (ht : s.startRootRemove ns = some t) : t.Inv := by
  obtain ⟨root, hroot, rfl⟩ := map_eq_some_iff.1 ht
  exact h.setRoot hroot { root.toRoot with remove := true }

theorem Inv.addTransaction (h : s.Inv) (ht : s.addTransaction ns name ops flags = some t) :
    t.Inv := by
  obtain ⟨root, objs, nextObj, ops', hroot, -, rfl⟩ := addTransaction_cases ht
  have hq := h.queues ns root hroot
  refine h.environment_quiet ⟨fun m root' hroot' => ?_, fun k hk => ?_⟩ h.cache rfl rfl
    fun k r => rfl
  · change (if m = ns then _ else _) = _ at hroot'
    split_ifs at hroot' with hm
    · cases hroot'
      rw [hm]
      exact hq.add name _ flags _
    · exact (h.queues m root' hroot').mono (Nat.le_succ _)
  · by_cases hn : k.ns = ns
    · obtain ⟨root', kt, rest, hhead, hb⟩ := hk
      have hl := hhead.lookup
      rw [hn, hroot] at hl
      cases hl
      exact ⟨_, kt, rest ++ [kvstxnCreate ⟨ns, s.nextTxn⟩ name ops' flags [s.nextTxn]],
        ⟨if_pos hn, by rw [hhead.ready, cons_append], hhead.id⟩, hb⟩
    · refine hk.of_ready ?_
      change ((if k.ns = ns then _ else _) : Option Kvsroot).map _ = _
      rw [if_neg hn]

/-- **Every step keeps the invariant.** -/
theorem Inv.step (h : s.Inv) (ht : (machine cfg).step l s = some t) : t.Inv := by
  cases l with
  | addTransaction ns name ops flags => exact h.addTransaction ht
  | check ns sendFails =>
    obtain ⟨⟨s', k, sf⟩, hc, ht⟩ := bind_eq_some_iff.1 ht
    obtain ⟨root, kt, rest, hcall⟩ := h.call hc
    exact hcall.apply ht
  | run k sendFails =>
    obtain ⟨⟨s', k', sf⟩, hc, ht⟩ := bind_eq_some_iff.1 ht
    obtain ⟨root, kt, rest, hcall⟩ := h.call hc
    exact hcall.apply ht
  | lookup ref sendFails =>
    cases ht
    exact h.lookup ref
  | contentLoad ref errnum => exact h.contentLoad ht
  | contentStore ref errnum => exact h.contentStore ht
  | heartbeat epoch =>
    simp only [machine] at ht
    split_ifs at ht
    cases ht
    exact h.heartbeat epoch
  | dropcache =>
    cases ht
    exact h.dropcache
  | setrootEvent =>
    simp only [machine] at ht
    split at ht
    · cases ht
      exact h.setrootEvent _ _
    · cases ht
  | namespaceCreate ns => exact h.namespaceCreate ht
  | namespaceRemove ns => exact h.startRootRemove ht

theorem Init.inv (h : Init cfg s) : s.Inv := by
  obtain ⟨content, rfl⟩ := h
  have hok : (initial cfg content).mem.cache.Ok := by
    have hemp : Cache.Ok fun _ => none := fun _ _ hn => by cases hn
    exact hemp.set ⟨fun _ => rfl, fun _ => rfl, fun _ => rfl⟩ _
  refine ⟨fun n root hroot => ?_, hok, rfl, ⟨fun k r => ?_, by simp [initial], by simp [initial],
    fun k hk => by simp [initial] at hk⟩⟩
  · change (if n = "primary" then _ else _) = _ at hroot
    split_ifs at hroot
    cases hroot
    exact QueueOk.nil
  · simp only [initial, count_nil, Cache.standing_set]
    split_ifs
    · rfl
    · rfl

/-- **The discipline of the ready queues** holds in every state of every run. -/
theorem inv_of_reach {guard : Leader → Label → Prop}
    (hs : (machine cfg).Reach guard (Init cfg) s) : s.Inv :=
  hs.invariant Inv (fun _ => Init.inv) fun _ _ _ _ h _ ht => h.step ht

end FluxCore.Kvs.Leader
