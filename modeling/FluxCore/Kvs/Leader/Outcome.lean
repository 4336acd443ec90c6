import FluxCore.Kvs.Leader
import FluxCore.Kvs.Leader.Standing

/-!
# What the Steps of the Leader Do

This module inverts the functions of the leader, once for each. `Outcome` is `kvstxn_apply`
up to its labels `done` and `stall` as a relation, with one rule for each way there; the
lemmas that end in `_cases` say what the other functions do to the state.
-/

namespace FluxCore.Kvs.Leader

open Option

variable {cfg : Config} {s t : Leader}

/-! ### The head of a queue -/

/-- The transaction at address `k` is the head of its ready queue. -/
structure Head (s : Leader) (k : TxnId) (root : Kvsroot) (kt : Kvstxn ℕ)
    (rest : List (Kvstxn ℕ)) : Prop where
  lookup : s.roots k.ns = some root
  ready : root.ready = kt :: rest
  id : kt.id = k

/-- The transaction at address `k` is at the head of its queue and has stalled. -/
def Waiting (s : Leader) (k : TxnId) : Prop :=
  ∃ root kt rest, s.Head k root kt rest ∧ kt.blocked = true

theorem Head.unique (h : s.Head k root kt rest) (h' : s.Head k' root' kt' rest')
    (hns : k'.ns = k.ns) : k' = k ∧ root' = root ∧ kt' = kt ∧ rest' = rest := by
  have hroot := h'.lookup
  rw [hns, h.lookup] at hroot
  cases hroot
  have hrdy := h'.ready
  rw [h.ready] at hrdy
  cases hrdy
  exact ⟨h'.id.symm.trans h.id, rfl, rfl, rfl⟩

theorem Head.findTxn (h : s.Head k root kt rest) : s.findTxn k = some kt := by
  simp [Leader.findTxn, h.lookup, h.ready, h.id]

@[simp] theorem setRoot_roots (s : Leader) (ns : String) (root : Kvsroot) (n : String) :
    (s.setRoot ns root).roots n = if n = ns then some root else s.roots n := rfl

theorem Head.modifyTxn (h : s.Head k root kt rest) (hrest : ∀ x ∈ rest, x.id ≠ k)
    (f : Kvstxn ℕ → Kvstxn ℕ) :
    s.modifyTxn k f = s.setRoot k.ns { root with ready := f kt :: rest } := by
  have hmap : rest.map (fun x => if x.id = k then f x else x) = rest := by
    conv_rhs => rw [← List.map_id rest]
    exact List.map_congr_left fun x hx => if_neg (hrest x hx)
  rw [Leader.modifyTxn, setRoot]
  congr 1
  funext n
  by_cases hn : n = k.ns
  · subst hn
    simp [h.lookup, h.ready, h.id, hmap]
  · simp [hn]

/-! ### `kvstxn_apply` as a relation -/

section Outcome

variable (cfg sendFails) in
/-- A call of `kvstxn_process` for the head of a queue. -/
abbrev Process (s : Leader) (k : TxnId) (root : Kvsroot) (kt : Kvstxn ℕ) (p : Processing ℕ)
    (result : Kvs.Process) : Prop :=
  Proc cfg.codec k.ns cfg.stack cfg.depth s.epoch root.ref ⟨kt, s.mem⟩ (p, result)

/-- The leader with new memory. -/
def withMem (s : Leader) (mem : Mem ℕ) : Leader := { s with mem := mem }

/-- The leader with a new head of a queue. -/
def setHead (s : Leader) (k : TxnId) (root : Kvsroot) (kt : Kvstxn ℕ) (rest : List (Kvstxn ℕ)) :
    Leader := s.setRoot k.ns { root with ready := kt :: rest }

variable (cfg sendFails) in
/-- **`kvstxn_apply` up to its labels `done` and `stall`**, for the head of a queue. -/
inductive Outcome (s : Leader) (k : TxnId) (root : Kvsroot) (kt : Kvstxn ℕ)
    (rest : List (Kvstxn ℕ)) : Applied → Prop
  | removed (hrem : root.remove = true) : Outcome s k root kt rest (.done s kt (some .ENOTSUP))
  | auxFailed {e} (haux : kt.auxErrnum = some e) : Outcome s k root kt rest (.done s kt (some e))
  | failed {p e} (haux : kt.auxErrnum = none) (hp : s.Process cfg k root kt p .error)
      (he : p.kt.errnum = some e) :
      Outcome s k root kt rest (.done ((s.withMem p.mem).setHead k root p.kt rest) p.kt (some e))
  | finished {p} (haux : kt.auxErrnum = none) (hp : s.Process cfg k root kt p .finished) :
      Outcome s k root kt rest (.done ((s.withMem p.mem).setHead k root p.kt rest) p.kt none)
  | loading {p s' err} (haux : kt.auxErrnum = none)
      (hp : s.Process cfg k root kt p .loadMissingRefs)
      (hiter : iterRefs (fun ref s => kvstxnLoadCb s sendFails k ref) (fun _ s => some s)
        p.kt.missingRefs (s.withMem p.mem) = some (s', err))
      (hwait : s'.waiters.queues k ≠ []) : Outcome s k root kt rest
        (.stall (s'.setHead k root { p.kt with missingRefs := [], auxErrnum := err } rest))
  | loadFailed {p s' e} (haux : kt.auxErrnum = none)
      (hp : s.Process cfg k root kt p .loadMissingRefs)
      (hiter : iterRefs (fun ref s => kvstxnLoadCb s sendFails k ref) (fun _ s => some s)
        p.kt.missingRefs (s.withMem p.mem) = some (s', some e))
      (hwait : s'.waiters.queues k = []) : Outcome s k root kt rest
        (.done (s'.setHead k root { p.kt with missingRefs := [] } rest)
          { p.kt with missingRefs := [] } (some e))
  | flushing {p s' err} (haux : kt.auxErrnum = none)
      (hp : s.Process cfg k root kt p .dirtyCacheEntries)
      (hiter : iterRefs (fun ref s => kvstxnCacheCb s sendFails k ref)
        (fun refs s => cleanup s refs) p.kt.dirtyCacheEntries (s.withMem p.mem) = some (s', err))
      (hwait : s'.waiters.queues k ≠ []) : Outcome s k root kt rest
        (.stall (s'.setHead k root { p.kt with dirtyCacheEntries := [], auxErrnum := err } rest))
  | flushFailed {p s' e} (haux : kt.auxErrnum = none)
      (hp : s.Process cfg k root kt p .dirtyCacheEntries)
      (hiter : iterRefs (fun ref s => kvstxnCacheCb s sendFails k ref)
        (fun refs s => cleanup s refs) p.kt.dirtyCacheEntries (s.withMem p.mem) = some (s', some e))
      (hwait : s'.waiters.queues k = []) : Outcome s k root kt rest
        (.done (s'.setHead k root { p.kt with dirtyCacheEntries := [] } rest)
          { p.kt with dirtyCacheEntries := [] } (some e))

end Outcome

/-- **What `kvstxn_load_cb` does:** the transaction stands on the queue of an entry that is
not valid, or nothing happens and the callback fails. -/
theorem kvstxnLoadCb_cases (h : s.kvstxnLoadCb sendFails k ref = some (s', e)) :
    (s' = s ∧ e ≠ none) ∨
      ∃ loads entry, (cacheLookup s.mem.cache ref s.epoch ref).getD {} = entry ∧
        entry.valid = false ∧ e = none ∧
        s' = ({ s with loads := loads }.setCache ((cacheLookup s.mem.cache ref s.epoch).set ref
          { entry with waitlistValid := entry.waitlistValid ++ [k] })).addWait k ref := by
  rw [kvstxnLoadCb, load] at h
  cases hc : cacheLookup s.mem.cache ref s.epoch ref with
  | none =>
    cases hf : sendFails ref with
    | some err =>
      simp only [hc, hf] at h
      cases h
      exact .inl ⟨rfl, some_ne_none _⟩
    | none =>
      simp only [hc, hf] at h
      cases h
      exact .inr ⟨_, {}, rfl, rfl, rfl, rfl⟩
  | some entry =>
    cases hv : entry.valid with
    | true => simp [hc, hv] at h
    | false =>
      simp only [hc] at h
      rw [if_neg (by simp [hv])] at h
      cases h
      exact .inr ⟨s.loads, entry, rfl, hv, rfl, rfl⟩

/-- **What `kvstxn_cache_cb` does:** a dirty entry is handed to the content store and the
transaction stands on its queue, or the entry is removed and the callback fails. -/
theorem kvstxnCacheCb_cases (h : s.kvstxnCacheCb sendFails k ref = some (s', e)) :
    ∃ entry, s.mem.cache ref = some entry ∧ entry.valid = true ∧ entry.dirty = true ∧
      ((e ≠ none ∧ entry.waitlistNotdirty = [] ∧ entry.waitlistValid = [] ∧
          s' = s.setCache (s.mem.cache.delete ref)) ∨
        (e = none ∧ s' = (({ s with stores := s.stores ++ [(ref, entry.data)] }.setCache
          (s.mem.cache.set ref { entry with
            waitlistNotdirty := entry.waitlistNotdirty ++ [k], dirtiedBy := none })).addWait
              k ref))) := by
  rw [kvstxnCacheCb] at h
  split at h
  · rename_i entry hent
    split_ifs at h with hc
    · simp only [Bool.and_eq_true] at hc
      refine ⟨entry, hent, hc.1, hc.2, ?_⟩
      split at h
      · obtain ⟨cache, hcl, heq⟩ := map_eq_some_iff.1 h
        cases heq
        obtain ⟨entry', hent', -, -, hn, hl, rfl⟩ :=
          cleanupDirtyCacheEntry_eq_some (.inr rfl) hcl
        rw [hent] at hent'
        cases hent'
        exact .inl ⟨some_ne_none _, hn, hl, rfl⟩
      · cases h
        exact .inr ⟨rfl, rfl⟩
  · cases h

/-- What the callbacks of the iterators change: the cache, the requests to the content store
and the waiters. -/
def Touched (s s' : Leader) : Prop :=
  ∃ cache loads stores waiters,
    s' = { s with mem := { s.mem with cache := cache }, loads := loads, stores := stores,
                  waiters := waiters }

theorem Touched.refl (s : Leader) : s.Touched s := ⟨_, _, _, _, rfl⟩

theorem Touched.trans {s₁ s₂ s₃ : Leader} (h : s₁.Touched s₂) (h' : s₂.Touched s₃) :
    s₁.Touched s₃ := by
  obtain ⟨_, _, _, _, rfl⟩ := h
  obtain ⟨_, _, _, _, rfl⟩ := h'
  exact ⟨_, _, _, _, rfl⟩

theorem touched_kvstxnLoadCb (h : s.kvstxnLoadCb sendFails k ref = some (s', e)) :
    s.Touched s' := by
  rcases kvstxnLoadCb_cases h with ⟨rfl, -⟩ | ⟨_, _, -, -, -, rfl⟩
  · exact .refl s'
  · exact ⟨_, _, _, _, rfl⟩

theorem touched_kvstxnCacheCb (h : s.kvstxnCacheCb sendFails k ref = some (s', e)) :
    s.Touched s' := by
  obtain ⟨_, -, -, -, ⟨-, -, -, rfl⟩ | ⟨-, rfl⟩⟩ := kvstxnCacheCb_cases h
  · exact ⟨_, _, _, _, rfl⟩
  · exact ⟨_, _, _, _, rfl⟩

theorem touched_iterLoads {refs : List Blobref}
    (h : iterRefs (fun ref s => kvstxnLoadCb s sendFails k ref) (fun _ s => some s) refs s
      = some (s', e)) : s.Touched s' :=
  iterRefs_induct (P := fun _ s' => s.Touched s')
    (fun _ _ _ _ hs hcb => hs.trans (touched_kvstxnLoadCb hcb))
    (fun _ _ _ _ _ _ hs hcb hcl => by
      cases hcl
      exact hs.trans (touched_kvstxnLoadCb hcb)) (.refl s) h

theorem touched_iterFlushes {refs : List Blobref}
    (h : iterRefs (fun ref s => kvstxnCacheCb s sendFails k ref) (fun refs s => cleanup s refs)
      refs s = some (s', e)) : s.Touched s' :=
  iterRefs_induct (P := fun _ s' => s.Touched s')
    (fun _ _ _ _ hs hcb => hs.trans (touched_kvstxnCacheCb hcb))
    (fun _ _ _ _ _ _ hs hcb hcl => by
      obtain ⟨cache, -, rfl⟩ := map_eq_some_iff.1 hcl
      exact (hs.trans (touched_kvstxnCacheCb hcb)).trans ⟨_, _, _, _, rfl⟩) (.refl s) h

theorem Head.touched (h : s.Head k root kt rest) (ht : s.Touched t) : t.Head k root kt rest := by
  obtain ⟨_, _, _, _, rfl⟩ := ht
  exact { h with }

section

variable (h : s.Head k root kt rest) (hrest : ∀ x ∈ rest, x.id ≠ k)
include h hrest

theorem Head.setTxn (hid : kt'.id = k) : s.setTxn kt' = s.setHead k root kt' rest := by
  rw [Leader.setTxn, hid, h.modifyTxn hrest, setHead]

theorem afterIter_outcome (hid : kt'.id = k) (haux : kt'.auxErrnum = none)
    (ha : afterIter s kt' err = some a) :
    (s.waiters.queues k ≠ [] ∧ a = .stall (s.setHead k root { kt' with auxErrnum := err } rest)) ∨
      (s.waiters.queues k = [] ∧ ∃ e, err = some e ∧
        a = .done (s.setHead k root kt' rest) kt' (some e)) := by
  subst hid
  by_cases hw : s.waiters.queues kt'.id = []
  · cases err with
    | none => simp [afterIter, hw] at ha
    | some e =>
      simp only [afterIter, hw, List.isEmpty_nil, if_true, some.injEq] at ha
      exact .inr ⟨hw, e, rfl, by rw [← ha, h.setTxn hrest rfl]⟩
  refine .inl ⟨hw, ?_⟩
  cases err with
  | none =>
    simp only [afterIter, List.isEmpty_iff, hw, if_false, some.injEq] at ha
    rw [← ha, h.setTxn hrest rfl, ← haux]
  | some e =>
    simp only [afterIter, List.isEmpty_iff, hw, if_false, some.injEq] at ha
    rw [← ha]
    exact congrArg Applied.stall (h.setTxn hrest rfl)

theorem applyProcess_outcome (hmiss : kt.missingRefs = [])
    (ha : applyProcess cfg s sendFails k = some a) :
    Outcome cfg sendFails s k root kt rest a := by
  simp only [applyProcess, h.lookup, bind_some, h.findTxn] at ha
  split_ifs at ha with hrem
  · cases ha
    exact .removed hrem
  split at ha
  · rename_i e haux
    cases ha
    exact .auxFailed haux
  rename_i haux
  obtain ⟨⟨p, result⟩, hproc, ha⟩ := bind_eq_some_iff.1 ha
  have hp := kvstxnProcess_proc hproc
  have hsame := hp.sameRequest
  have hid : p.kt.id = k := hsame.id.trans h.id
  have haux' : p.kt.auxErrnum = none := hsame.auxErrnum.trans haux
  have hhead : (s.withMem p.mem).Head k root kt rest := { h with }
  cases result with
  | error =>
    obtain ⟨e, he⟩ := isSome_iff_exists.1 (hp.errnum_isSome rfl)
    simp only [some.injEq] at ha
    have hset : { s with mem := p.mem }.setTxn p.kt = _ := hhead.setTxn hrest hid
    rw [← ha, hset, he]
    exact .failed haux hp he
  | finished =>
    simp only [some.injEq] at ha
    have hset : { s with mem := p.mem }.setTxn p.kt = _ := hhead.setTxn hrest hid
    rw [← ha, hset]
    exact .finished haux hp
  | loadMissingRefs =>
    have hst := hp.loadMissingRefs_state rfl fun _ => hmiss
    have hne : ¬ (p.kt.state ≠ .loadRoot ∧ p.kt.state ≠ .applyOps) := fun hc =>
      hst.elim hc.1 hc.2
    obtain ⟨⟨kt₁, s', err⟩, hiter, ha⟩ := bind_eq_some_iff.1 ha
    rw [kvstxnIterMissingRefs, if_neg hne] at hiter
    obtain ⟨⟨s₁, err₁⟩, hiter, heq⟩ := map_eq_some_iff.1 hiter
    cases heq
    have hid' : ({ p.kt with missingRefs := [] } : Kvstxn ℕ).id = k := hid
    rcases afterIter_outcome (hhead.touched (touched_iterLoads hiter)) hrest hid' haux' ha with
      ⟨hw, rfl⟩ | ⟨hw, e, rfl, rfl⟩
    · exact .loading haux hp hiter hw
    · exact .loadFailed haux hp hiter hw
  | dirtyCacheEntries =>
    have hst := (hp.dirtyCacheEntries_state rfl).1
    obtain ⟨⟨kt₁, s', err⟩, hiter, ha⟩ := bind_eq_some_iff.1 ha
    rw [kvstxnIterDirtyCacheEntries, if_neg (not_not.2 hst)] at hiter
    obtain ⟨⟨s₁, err₁⟩, hiter, heq⟩ := map_eq_some_iff.1 hiter
    cases heq
    have hid' : ({ p.kt with dirtyCacheEntries := [] } : Kvstxn ℕ).id = k := hid
    rcases afterIter_outcome (hhead.touched (touched_iterFlushes hiter)) hrest hid' haux' ha
      with ⟨hw, rfl⟩ | ⟨hw, e, rfl, rfl⟩
    · exact .flushing haux hp hiter hw
    · exact .flushFailed haux hp hiter hw

end

/-- The part of `kvstxn_apply` that announces a new root. -/
def announce (s : Leader) (k : TxnId) (root : Kvsroot) (kt : Kvstxn ℕ) (rootdir : Treeobj Empty) :
    Leader :=
  { s.setCache (cacheLookup s.mem.cache kt.newroot s.epoch) with
    published := ⟨k.ns, kt.rootcpyRef, root.ref, kt.newroot, root.seq + 1, kt.members⟩ :: s.published
    events := s.events ++ [⟨k.ns, root.seq + 1, kt.newroot, rootdir⟩] }

/-- The root of a namespace after a transaction. -/
def Kvsroot.advance (root : Kvsroot) (kt : Kvstxn ℕ) : Root :=
  { root.toRoot with ref := kt.newroot, seq := root.seq + 1 }

theorem setroot_advance (root : Kvsroot) (kt : Kvstxn ℕ) :
    setroot root.toRoot kt.newroot (root.seq + 1) = Kvsroot.advance root kt := by
  rw [setroot, if_pos (.inr (Nat.lt_succ_self _))]
  rfl

/-- **The end of `kvstxn_apply`:** the error is reported, or the new root is announced, and
the head is removed. -/
theorem applyDone_cases (h : s.Head k root kt rest) (ht : applyDone cfg s kt errnum = some t) :
    (∃ e, errnum = some e ∧ t = s.setRoot k.ns ⟨root.toRoot,
      kvstxnMgrRemoveTransaction (kt :: rest) kt (kvstxnFallback kt e)⟩) ∨
    (errnum = none ∧ ∃ rootdir, (cacheLookup s.mem.cache kt.newroot s.epoch kt.newroot).bind
        (cacheEntryGetTreeobj cfg.codec) = some rootdir ∧
      t = (s.announce k root kt rootdir).setRoot k.ns ⟨Kvsroot.advance root kt,
        kvstxnMgrRemoveTransaction (kt :: rest) kt false⟩) := by
  simp only [applyDone, h.id, h.lookup, bind_some, h.ready] at ht
  cases errnum with
  | some e =>
    simp only [some.injEq] at ht
    exact .inl ⟨e, rfl, ht.symm⟩
  | none =>
    simp only [setrootEventSend, setroot_advance, Option.map_map] at ht
    obtain ⟨rootdir, hdir, ht⟩ := map_eq_some_iff.1 ht
    exact .inr ⟨rfl, rootdir, hdir, ht.symm⟩

/-! ### The other functions -/

/-- **What `load` does.** -/
theorem load_cases (s : Leader) (sendFails : Blobref → Option Errno) (ks : List TxnId)
    (ref : Blobref) : (s.load sendFails ks ref).1 = s ∨
      (s.load sendFails ks ref).1 = s.setCache (cacheLookup s.mem.cache ref s.epoch) ∨
      ∃ loads entry, (cacheLookup s.mem.cache ref s.epoch ref).getD {} = entry ∧
        entry.valid = false ∧ (s.load sendFails ks ref).1 = { s with loads := loads }.setCache
          ((cacheLookup s.mem.cache ref s.epoch).set ref
            { entry with waitlistValid := entry.waitlistValid ++ ks }) := by
  rw [load]
  cases hc : cacheLookup s.mem.cache ref s.epoch ref with
  | none =>
    cases hf : sendFails ref with
    | some err => exact .inl rfl
    | none => exact .inr (.inr ⟨s.loads ++ [ref], {}, rfl, rfl, rfl⟩)
  | some entry =>
    cases hv : entry.valid with
    | true => exact .inr (.inl (by simp [hv]))
    | false =>
      refine .inr (.inr ⟨s.loads, entry, rfl, hv, ?_⟩)
      dsimp only
      rw [if_neg (by simp [hv])]

/-- **What `content_load_completion` does.** -/
theorem contentLoadCompletion_cases (ht : s.contentLoadCompletion ref errnum = some t) :
    t = { s with loads := s.loads.erase ref } ∨
      ∃ entry, cacheLookup s.mem.cache ref s.epoch ref = some entry ∧
        ((∃ e, t = { s with loads := s.loads.erase ref }.contentLoadCacheEntryError
            (cacheLookup s.mem.cache ref s.epoch) ref entry e) ∨
          t = { s with loads := s.loads.erase ref }.setCache
            (cacheLookup s.mem.cache ref s.epoch) ∨
          ∃ data, s.content ref = some data ∧ entry.valid = false ∧
            t = ({ s with loads := s.loads.erase ref }.setCache
              ((cacheLookup s.mem.cache ref s.epoch).set ref
                { entry with data := data, valid := true, waitlistValid := [] })).runWaiters
                  (entry.waitlistValid.map (ref, ·))) := by
  simp only [contentLoadCompletion] at ht
  split_ifs at ht
  cases hc : cacheLookup s.mem.cache ref s.epoch ref with
  | none =>
    simp only [hc, some.injEq] at ht
    exact .inl ht.symm
  | some entry =>
    refine .inr ⟨entry, rfl, ?_⟩
    cases errnum with
    | some e =>
      simp only [hc, some.injEq] at ht
      exact .inl ⟨e, ht.symm⟩
    | none =>
      simp only [hc] at ht
      obtain ⟨data, hdata, ht⟩ := map_eq_some_iff.1 ht
      split_ifs at ht with hv hsame
      · exact .inr (.inl ht.symm)
      · exact .inl ⟨_, ht.symm⟩
      · exact .inr (.inr ⟨data, hdata, by simpa using hv, ht.symm⟩)

/-- The content store after it has answered a store request. -/
def acknowledge (s : Leader) (ref : Blobref) (data : Bytes) (errnum : Option Errno) : Leader :=
  { s with stores := s.stores.eraseP (·.1 = ref),
           content := fun r => if errnum.isNone ∧ r = ref then some data else s.content r }

/-- **What `content_store_completion` does.** -/
theorem contentStoreCompletion_cases (ht : s.contentStoreCompletion ref errnum = some t) :
    ∃ data, s.stores.find? (·.1 = ref) = some (ref, data) ∧
      (cacheLookup s.mem.cache ref s.epoch ref = none ∧ t = s.acknowledge ref data errnum ∨
        ∃ entry, cacheLookup s.mem.cache ref s.epoch ref = some entry ∧
          ((errnum = none ∧ t = ((s.acknowledge ref data errnum).setCache
              ((cacheLookup s.mem.cache ref s.epoch).set ref
                (cacheEntrySetNotdirty entry).1)).runWaiters
                  ((cacheEntrySetNotdirty entry).2.map (ref, ·))) ∨
            ∃ e, errnum = some e ∧
              t = (((s.acknowledge ref data errnum).setAuxErrnum entry.waitlistNotdirty e).setCache
                (cacheRemoveEntry ((cacheLookup s.mem.cache ref s.epoch).set ref
                  (cacheEntryForceClearDirty { entry with waitlistNotdirty := [] })) ref).1).runWaiters
                    (entry.waitlistNotdirty.map (ref, ·)))) := by
  simp only [contentStoreCompletion] at ht
  split at ht
  · cases ht
  rename_i ref' data hfind
  have href : ref' = ref := by simpa using List.find?_some hfind
  subst href
  refine ⟨data, hfind, ?_⟩
  have hack : (if errnum.isNone = true then
      { s with stores := s.stores.eraseP (·.1 = ref'),
               content := fun r => if r = ref' then some data else s.content r }
      else { s with stores := s.stores.eraseP (·.1 = ref') }) = s.acknowledge ref' data errnum := by
    cases errnum with
    | none | some e => simp [acknowledge]
  rw [hack] at ht
  cases hc : cacheLookup s.mem.cache ref' s.epoch ref' with
  | none =>
    have hc' : cacheLookup (s.acknowledge ref' data errnum).mem.cache ref'
      (s.acknowledge ref' data errnum).epoch ref' = none := hc
    rw [hc'] at ht
    exact .inl ⟨rfl, (some.inj ht).symm⟩
  | some entry =>
    have hc' : cacheLookup (s.acknowledge ref' data errnum).mem.cache ref'
      (s.acknowledge ref' data errnum).epoch ref' = some entry := hc
    rw [hc'] at ht
    refine .inr ⟨entry, rfl, ?_⟩
    cases errnum with
    | none => exact .inl ⟨rfl, (some.inj ht).symm⟩
    | some e => exact .inr ⟨e, rfl, (some.inj ht).symm⟩

/-- **What `heartbeat_cb` does:** entries expire after lookups of the roots, which keep what
every lookup keeps. -/
theorem heartbeat_cases (s : Leader) (epoch : ℕ) {P : Cache → Prop} (hs : P s.mem.cache)
    (hlk : ∀ cache ref, P cache → P (cacheLookup cache ref epoch)) : ∃ cache, P cache ∧
      s.heartbeat epoch = { s.setCache (cacheExpireEntries cache epoch 5) with epoch := epoch } := by
  refine ⟨_, ?_, rfl⟩
  generalize s.mem.cache = cache at hs
  induction s.namespaces generalizing cache with
  | nil => exact hs
  | cons ns l ih =>
    rw [List.foldl_cons]
    refine ih _ ?_
    split
    · split_ifs
      · exact hs
      · exact hlk _ _ hs
    · exact hs

/-- **What `prime_cache_with_rootdir` does:** nothing, or an entry is touched, or a clean one
is made. -/
theorem primeCacheWithRootdir_cases (cfg : Config) (s : Leader) (rootdir : Treeobj Empty) :
    primeCacheWithRootdir cfg s rootdir = s ∨ (∃ ref, primeCacheWithRootdir cfg s rootdir
        = s.setCache (cacheLookup s.mem.cache ref s.epoch)) ∨
      ∃ data, data = cfg.codec.jsonDumps rootdir ∧
        s.mem.cache (cfg.codec.blobrefHash data) = none ∧
        primeCacheWithRootdir cfg s rootdir = s.setCache
          (s.mem.cache.set (cfg.codec.blobrefHash data) { data := data, valid := true }) := by
  rw [primeCacheWithRootdir.eq_def]
  split
  · rename_i d
    split_ifs
    · cases hc : s.mem.cache (cfg.codec.blobrefHash (cfg.codec.jsonDumps (.dir d))) with
      | some entry =>
        refine .inr (.inl ⟨cfg.codec.blobrefHash (cfg.codec.jsonDumps (.dir d)), ?_⟩)
        simp [cacheLookup_apply, hc]
      | none =>
        refine .inr (.inr ⟨_, rfl, hc, ?_⟩)
        simp [cacheLookup, hc]
    · exact .inl rfl
  · exact .inl rfl

/-- **What adding a transaction does.** -/
theorem addTransaction_cases (ht : s.addTransaction ns name ops flags = some t) :
    ∃ root objs nextObj ops', s.roots ns = some root ∧
      allocOps s.mem.objs s.nextObj ops = (objs, nextObj, ops') ∧
      t = { s.setRoot ns ⟨root.toRoot, root.ready ++
              [kvstxnCreate ⟨ns, s.nextTxn⟩ name ops' flags [s.nextTxn]]⟩ with
            mem := { s.mem with objs := objs }, nextObj := nextObj, nextTxn := s.nextTxn + 1,
            added := fun k => if k = ⟨ns, s.nextTxn⟩ then ops else s.added k } := by
  obtain ⟨root, hroot, ht⟩ := bind_eq_some_iff.1 ht
  split_ifs at ht
  cases ht
  exact ⟨root, _, _, _, hroot, rfl, rfl⟩

end FluxCore.Kvs.Leader
