import FluxCore.Kvs.Leader.Steps

/-!
# Integrity of the Cache

An entry of the cache is filled by a transaction, by a load, or with the root directory of a
`kvs.setroot` event. A producer computes the key from the contents, or it has asked the content
store for the contents of the key. The machine of this file is any rank: it takes the steps of
rank 0, and events with any root directory arrive from elsewhere. **Every valid entry holds
contents whose hash is its key.**
-/

namespace FluxCore.Kvs.Leader

open List Option

/-- The contents of the entry hash to its key, if it is valid. -/
def Keyed (c : Codec) (ref : Blobref) (entry : CacheEntry) : Prop :=
  entry.valid = true → c.blobrefHash entry.data = ref

/-- The content store returns for a blobref what hashes to it. -/
def ContentKeyed (c : Codec) (s : Leader) : Prop :=
  ∀ ref data, s.content ref = some data → c.blobrefHash data = ref

variable (cfg : Config) in
/-- Any rank: an event that arrives carries some root directory. -/
def rank : Machine Leader (Label ⊕ SetrootEvent) where
  step
    | .inl l, s => (machine cfg).step l s
    | .inr ev, s => some (setrootEventCb cfg s ev)

variable (cfg : Config) in
/-- The states in which a rank starts: rank 0 has the empty root directory in its cache, and
the others have nothing. -/
def Start (s : Leader) : Prop :=
  ContentKeyed cfg.codec s ∧ (Init cfg s ∨ s.mem.cache = (fun _ => none) ∧ s.stores = [])

/-- The cache, the stores in flight and the content store have contents under their hash. -/
structure Intact (c : Codec) (s : Leader) : Prop where
  cache : s.mem.cache.All (Keyed c)
  stores : ∀ x ∈ s.stores, c.blobrefHash x.2 = x.1
  content : ContentKeyed c s

/-! ### Calls of `kvstxn_apply` -/

variable {c : Codec} {cfg : Config} {s s' t : Leader}

theorem keyed_process {n : ℕ} {p p' : Processing ℕ}
    (h : Proc c ns stack depth n rootref p (p', result)) (hk : p.mem.cache.All (Keyed c)) :
    p'.mem.cache.All (Keyed c) := by
  have heff {w : Work ℕ} (he : Effects c n p.work w) : w.cache.All (Keyed c) :=
    Effects.all (fun _ _ _ he => he) (fun _ _ _ _ => rfl) he hk
  cases h.leaves with
  | effects he => exact heff he
  | @cleaned w cache he hclean hw =>
    have hca : p'.mem.cache = cache := congrArg (fun w => w.toMem.cache) hw
    rw [hca]
    exact (heff he).cleanup (.inl rfl) hclean

/-- The state in which `kvstxn_apply` stalls or is done. -/
def Applied.leader : Applied → Leader
  | .stall s | .done s _ _ => s

namespace Intact

section

variable (h : Intact c s)
include h

theorem lookup (ref : Blobref) : (cacheLookup s.mem.cache ref s.epoch).All (Keyed c) :=
  h.cache.lookup (fun _ _ _ he => he) ref s.epoch

/-- The waiters of an entry do not matter. -/
theorem await (ref : Blobref) (ks : List TxnId)
    (he : (cacheLookup s.mem.cache ref s.epoch ref).getD {} = entry) :
    ((cacheLookup s.mem.cache ref s.epoch).set ref
      { entry with waitlistValid := entry.waitlistValid ++ ks }).All (Keyed c) := by
  have hk : Keyed c ref entry :=
    he ▸ h.cache.getD_lookup (fun _ _ _ he => he) (fun hv => by cases hv) s.epoch
  exact (h.lookup ref).set hk

theorem loadCb (hcb : s.kvstxnLoadCb sendFails k ref = some (s', e)) : Intact c s' := by
  rcases kvstxnLoadCb_cases hcb with ⟨rfl, -⟩ | ⟨loads, entry, hent, hv, -, rfl⟩
  · exact h
  · exact { h with cache := h.await ref [k] hent }

theorem cacheCb (hcb : s.kvstxnCacheCb sendFails k ref = some (s', e)) : Intact c s' := by
  obtain ⟨entry, hent, hv, -, ⟨-, -, -, rfl⟩ | ⟨-, rfl⟩⟩ := kvstxnCacheCb_cases hcb
  · exact { h with cache := h.cache.delete ref }
  have hk : Keyed c ref entry := h.cache ref entry hent
  refine ⟨h.cache.set hk, fun x hx => ?_, h.content⟩
  rcases mem_append.1 hx with hx | hx
  · exact h.stores x hx
  · rw [mem_singleton.1 hx]
    exact hk hv

theorem cleanup (hc : s.cleanup refs = some s') : Intact c s' := by
  obtain ⟨cache, hca, rfl⟩ := map_eq_some_iff.1 hc
  exact { h with cache := h.cache.cleanup (.inr rfl) hca }

theorem afterIter (ha : afterIter s kt e = some a) : Intact c a.leader := by
  rw [Leader.afterIter.eq_def] at ha
  split at ha <;> split_ifs at ha <;> cases ha <;> exact { h with }

theorem iterLoads (hi : kvstxnIterMissingRefs (fun ref s => kvstxnLoadCb s sendFails k ref) kt s
    = some (kt', s', e)) : Intact c s' := by
  rw [kvstxnIterMissingRefs] at hi
  split_ifs at hi
  · cases hi
    exact h
  obtain ⟨r, hi, heq⟩ := map_eq_some_iff.1 hi
  cases heq
  refine iterRefs_induct (P := fun _ s => Intact c s) (fun _ _ _ _ hs hr => hs.loadCb hr)
    (fun _ _ _ _ _ _ hs hr hcl => ?_) h hi
  cases hcl
  exact hs.loadCb hr

theorem iterFlushes (hi : kvstxnIterDirtyCacheEntries
    (fun ref s => kvstxnCacheCb s sendFails k ref) (fun refs s => Leader.cleanup s refs) kt s
    = some (kt', s', e)) : Intact c s' := by
  rw [kvstxnIterDirtyCacheEntries] at hi
  split_ifs at hi
  · cases hi
    exact h
  obtain ⟨r, hi, heq⟩ := map_eq_some_iff.1 hi
  cases heq
  exact iterRefs_induct (P := fun _ s => Intact c s) (fun _ _ _ _ hs hr => hs.cacheCb hr)
    (fun _ _ _ _ _ _ hs hr hcl => (hs.cacheCb hr).cleanup hcl) h hi

end

variable (h : Intact cfg.codec s)
include h

theorem applyProcess (ha : applyProcess cfg s sendFails k = some a) :
    Intact cfg.codec a.leader := by
  obtain ⟨root, -, ha⟩ := bind_eq_some_iff.1 ha
  obtain ⟨kt, -, ha⟩ := bind_eq_some_iff.1 ha
  split_ifs at ha
  · cases ha
    exact h
  split at ha
  · cases ha
    exact h
  obtain ⟨⟨p, result⟩, hp, ha⟩ := bind_eq_some_iff.1 ha
  have hm : Intact cfg.codec (s.withMem p.mem) :=
    { h with cache := keyed_process (kvstxnProcess_proc hp) h.cache }
  cases result with
  | error | finished =>
    cases ha
    exact { hm with }
  | loadMissingRefs =>
    obtain ⟨⟨kt', s', e⟩, hi, ha⟩ := bind_eq_some_iff.1 ha
    exact (hm.iterLoads hi).afterIter ha
  | dirtyCacheEntries =>
    obtain ⟨⟨kt', s', e⟩, hi, ha⟩ := bind_eq_some_iff.1 ha
    exact (hm.iterFlushes hi).afterIter ha

theorem kvstxnApply (ht : kvstxnApply cfg s sendFails k = some t) : Intact cfg.codec t := by
  obtain ⟨a, ha, ht⟩ := bind_eq_some_iff.1 ht
  have hs := h.applyProcess ha
  cases a with
  | stall s' =>
    cases ht
    exact { hs with }
  | done s' kt errnum =>
    obtain ⟨t', hd, rfl⟩ := map_eq_some_iff.1 ht
    obtain ⟨root, -, hd⟩ := bind_eq_some_iff.1 hd
    cases errnum with
    | some e =>
      cases hd
      exact { hs with }
    | none =>
      obtain ⟨t', hsend, rfl⟩ := map_eq_some_iff.1 hd
      obtain ⟨rootdir, -, rfl⟩ := map_eq_some_iff.1 hsend
      exact { hs with cache := hs.lookup _ }

/-! ### Steps -/

theorem contentLoad (ht : s.contentLoadCompletion ref errnum = some t) : Intact cfg.codec t := by
  rcases contentLoadCompletion_cases ht with
    rfl | ⟨entry, hent, ⟨e, rfl⟩ | rfl | ⟨data, hdata, hv, rfl⟩⟩
  · exact { h with }
  · have hk : Keyed cfg.codec ref { entry with waitlistValid := [] } :=
      h.lookup ref ref entry hent
    exact { h with cache := ((h.lookup ref).set hk).removeEntry ref }
  · exact { h with cache := h.lookup ref }
  · exact { h with cache := (h.lookup ref).set fun _ => h.content ref data hdata }

theorem contentStore (ht : s.contentStoreCompletion ref errnum = some t) :
    Intact cfg.codec t := by
  obtain ⟨data, hf, hor⟩ := contentStoreCompletion_cases ht
  have hack : Intact cfg.codec (s.acknowledge ref data errnum) := by
    refine ⟨h.cache, fun x hx => h.stores x (mem_of_mem_eraseP hx), fun r d hd => ?_⟩
    simp only [acknowledge] at hd
    split_ifs at hd with hr
    · cases hd
      rw [hr.2]
      exact h.stores _ (mem_of_find?_eq_some hf)
    · exact h.content r d hd
  obtain ⟨-, rfl⟩ | ⟨entry, hent, hor⟩ := hor
  · exact hack
  have hk : Keyed cfg.codec ref entry := h.lookup ref ref entry hent
  obtain ⟨-, rfl⟩ | ⟨e, -, rfl⟩ := hor
  · refine { hack with cache := (h.lookup ref).set ?_ }
    rw [cacheEntrySetNotdirty]
    split_ifs <;> exact hk
  · refine { hack with cache := ((h.lookup ref).set ?_).removeEntry ref }
    rw [cacheEntryForceClearDirty]
    split_ifs <;> exact hk

theorem admin (ha : Admin cfg s t) : Intact cfg.codec t := by
  refine ⟨?_, ha.stores ▸ h.stores, fun ref data hd => h.content ref data (ha.content ▸ hd)⟩
  cases ha.primed with
  | same heq => exact heq ▸ h.cache
  | touched heq => exact heq ▸ h.lookup _
  | made _ _ _ heq => exact heq ▸ h.cache.set fun _ => rfl

theorem step (ht : (machine cfg).step l s = some t) : Intact cfg.codec t := by
  cases l with
  | addTransaction ns name ops flags =>
    obtain ⟨_, _, _, _, -, -, rfl⟩ := addTransaction_cases ht
    exact { h with }
  | check ns sendFails =>
    obtain ⟨_, hc, ht⟩ := bind_eq_some_iff.1 ht
    obtain ⟨_, hr, rfl⟩ := map_eq_some_iff.1 hc
    obtain ⟨root, -, hr⟩ := bind_eq_some_iff.1 hr
    obtain ⟨_, -, hr⟩ := bind_eq_some_iff.1 hr
    obtain ⟨_, -, rfl⟩ := map_eq_some_iff.1 hr
    refine kvstxnApply ?_ ht
    exact { h with }
  | run k sendFails =>
    obtain ⟨_, hc, ht⟩ := bind_eq_some_iff.1 ht
    simp only [Leader.call] at hc
    split_ifs at hc
    cases hc
    refine kvstxnApply ?_ ht
    exact { h with }
  | lookup ref sendFails =>
    cases ht
    rcases load_cases s sendFails [] ref with heq | heq | ⟨loads, entry, hent, -, heq⟩ <;> rw [heq]
    · exact h
    · exact { h with cache := h.lookup ref }
    · exact { h with cache := h.await ref [] hent }
  | contentLoad ref errnum => exact h.contentLoad ht
  | contentStore ref errnum => exact h.contentStore ht
  | heartbeat n =>
    simp only [machine] at ht
    split_ifs at ht
    cases ht
    obtain ⟨cache, hk, heq⟩ := heartbeat_cases s n h.cache
      fun _ ref hk => hk.lookup (fun _ _ _ he => he) ref n
    rw [heq]
    exact { h with cache := hk.expire (fun _ _ _ he => he) n 5 }
  | dropcache =>
    cases ht
    exact { h with cache := h.cache.expire (fun _ _ _ he => he) s.epoch 0 }
  | setrootEvent | namespaceCreate ns | namespaceRemove ns => exact h.admin (admin_of_step rfl ht)

end Intact

theorem Start.intact (h : Start cfg s) : Intact cfg.codec s := by
  obtain ⟨hc, ⟨content, rfl⟩ | ⟨hcache, hstores⟩⟩ := h
  · exact ⟨Cache.All.set (fun _ _ he => nomatch he) fun _ => rfl, (fun _ hx => nomatch hx), hc⟩
  · refine ⟨?_, ?_, hc⟩
    · rw [hcache]
      exact fun _ _ he => nomatch he
    · rw [hstores]
      exact fun _ hx => nomatch hx

end FluxCore.Kvs.Leader
