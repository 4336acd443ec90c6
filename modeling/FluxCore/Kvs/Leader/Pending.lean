import FluxCore.Kvs.Leader.Steps

/-!
# Dirty Entries and Their Owners

An entry of the cache is made dirty by one transaction, which keeps it on its list until it
hands it to the content store. This module follows the dirty entries through every operation
on the cache. `Tracked` says that the lists of the transactions and the entries of the cache
agree, and that each store in flight is of an entry that is dirty and that nobody has on a
list.
-/

namespace FluxCore.Kvs

open List Option Function

/-- What matters of a dirty entry: its contents, who waits for it to become clean, and who
has made it dirty and has not handed it over. -/
structure Pending where
  data : Bytes
  waiters : List TxnId
  dirtiedBy : Option TxnId

/-- The entry, if it is dirty. -/
def CacheEntry.pending (entry : CacheEntry) : Option Pending :=
  if entry.dirty then some ⟨entry.data, entry.waitlistNotdirty, entry.dirtiedBy⟩ else none

/-- The dirty entries of the cache. -/
def Cache.pending (cache : Cache) (ref : Blobref) : Option Pending :=
  (cache ref).bind (·.pending)

/-- A clean entry belongs to nobody. -/
def Cache.Claimed (cache : Cache) : Prop :=
  ∀ ref entry, cache ref = some entry → entry.dirty = false → entry.dirtiedBy = none

variable {cache : Cache} {entry : CacheEntry}

theorem CacheEntry.pending_of_dirty (h : entry.dirty = true) :
    entry.pending = some ⟨entry.data, entry.waitlistNotdirty, entry.dirtiedBy⟩ := if_pos h

theorem CacheEntry.pending_of_clean (h : entry.dirty = false) : entry.pending = none :=
  if_neg (by simp [h])

theorem Cache.pending_eq_some (h : cache.pending ref = some p) :
    ∃ entry, cache ref = some entry ∧ entry.dirty = true ∧
      p = ⟨entry.data, entry.waitlistNotdirty, entry.dirtiedBy⟩ := by
  obtain ⟨entry, hent, hp⟩ := bind_eq_some_iff.1 h
  rw [CacheEntry.pending] at hp
  split_ifs at hp with hd
  cases hp
  exact ⟨entry, hent, hd, rfl⟩

theorem Cache.pending_of_some (h : cache ref = some entry) : cache.pending ref = entry.pending := by
  rw [Cache.pending, h, bind_some]

theorem Cache.pending_of_none (h : cache ref = none) : cache.pending ref = none := by
  rw [Cache.pending, h, bind_none]

theorem Cache.pending_set (cache : Cache) (ref : Blobref) (entry : CacheEntry) :
    (cache.set ref entry).pending = Function.update cache.pending ref entry.pending := by
  funext r
  by_cases hr : r = ref
  · subst hr
    rw [update_self, Cache.pending_of_some (Cache.set_self _ _ _)]
  · rw [update_of_ne hr, Cache.pending, Cache.set_of_ne _ _ hr, Cache.pending]

theorem Cache.pending_delete (cache : Cache) (ref : Blobref) :
    (cache.delete ref).pending = Function.update cache.pending ref none := by
  funext r
  by_cases hr : r = ref
  · subst hr
    rw [update_self, Cache.pending_of_none (Cache.delete_self _ _)]
  · rw [update_of_ne hr, Cache.pending, Cache.delete_of_ne _ hr, Cache.pending]

theorem Cache.pending_set_eq (h : entry.pending = cache.pending ref) :
    (cache.set ref entry).pending = cache.pending := by
  rw [Cache.pending_set, h, update_eq_self]

@[simp] theorem Cache.pending_lookup (cache : Cache) (ref : Blobref) (epoch : ℕ) :
    (cacheLookup cache ref epoch).pending = cache.pending := by
  funext r
  rw [Cache.pending, Cache.pending, cacheLookup_apply, bind_map]
  congr 1
  funext e
  simp only [comp_apply]
  split <;> rfl

@[simp] theorem Cache.pending_expire (cache : Cache) (epoch thresh : ℕ) :
    (cacheExpireEntries cache epoch thresh).pending = cache.pending := by
  funext r
  rw [Cache.pending, Cache.pending, cacheExpireEntries, bind_assoc]
  congr 1
  funext e
  cases hd : e.dirty with
  | true => simp [CacheEntry.expires, hd]
  | false =>
    rw [CacheEntry.pending_of_clean hd]
    split_ifs
    · rfl
    · simp [CacheEntry.pending]
    · exact CacheEntry.pending_of_clean hd

@[simp] theorem Cache.pending_removeEntry (cache : Cache) (ref : Blobref) :
    (cacheRemoveEntry cache ref).1.pending = cache.pending := by
  rcases cacheRemoveEntry_cases cache ref with h | ⟨entry, hent, hd, -, -, h⟩
  · rw [h]
  · rw [h, Cache.pending_delete, update_eq_self_iff, Cache.pending_of_some hent,
      CacheEntry.pending_of_clean hd]

theorem CacheEntry.pending_setNotdirty (h : entry.Ok) :
    (cacheEntrySetNotdirty entry).1.pending = none := by
  rw [cacheEntrySetNotdirty]
  split_ifs with hc
  · rfl
  refine CacheEntry.pending_of_clean ?_
  cases hd : entry.dirty with
  | false => rfl
  | true => simp [hd, h.dirty hd] at hc

theorem CacheEntry.pending_forceClearDirty (h : entry.Ok) :
    (cacheEntryForceClearDirty { entry with waitlistNotdirty := [] }).pending = none := by
  rw [cacheEntryForceClearDirty]
  split_ifs with hc
  · rfl
  refine CacheEntry.pending_of_clean ?_
  cases hd : entry.dirty with
  | false => rfl
  | true => simp [hd, h.dirty hd] at hc

theorem Cache.pending_getD_lookup (cache : Cache) (ref : Blobref) (epoch : ℕ) :
    ((cacheLookup cache ref epoch ref).getD {}).pending = cache.pending ref := by
  rw [← Cache.pending_lookup cache ref epoch]
  cases h : cacheLookup cache ref epoch ref with
  | none =>
    rw [Cache.pending_of_none h]
    rfl
  | some e => rw [Cache.pending_of_some h, getD_some]

/-! ### Claims -/

section

variable (h : cache.Claimed)
include h

theorem Cache.Claimed.set (he : entry.dirty = false → entry.dirtiedBy = none) (ref : Blobref) :
    (cache.set ref entry).Claimed :=
  Cache.All.set (P := fun _ e => e.dirty = false → e.dirtiedBy = none) h he

theorem Cache.Claimed.delete (ref : Blobref) : (cache.delete ref).Claimed :=
  Cache.All.delete h ref

theorem Cache.Claimed.lookup (ref : Blobref) (epoch : ℕ) :
    (cacheLookup cache ref epoch).Claimed :=
  Cache.All.lookup h (fun _ _ _ he => he) ref epoch

theorem Cache.Claimed.expire (epoch thresh : ℕ) :
    (cacheExpireEntries cache epoch thresh).Claimed :=
  Cache.All.expire h (fun _ _ _ he => he) epoch thresh

theorem Cache.Claimed.removeEntry (ref : Blobref) : (cacheRemoveEntry cache ref).1.Claimed :=
  Cache.All.removeEntry h ref

theorem Cache.Claimed.getD_lookup (ref : Blobref) (epoch : ℕ) :
    ((cacheLookup cache ref epoch ref).getD {}).dirty = false →
      ((cacheLookup cache ref epoch ref).getD {}).dirtiedBy = none :=
  Cache.All.getD_lookup h (fun _ _ _ he => he) (fun _ => rfl) epoch

end

/-! ### Lists and dirty entries agree -/

/-- **The bookkeeping of dirty entries:** `lists` are the lists of the transactions and
`stores` the stores in flight. -/
structure Tracked (cache : Cache) (stores : List (Blobref × Bytes))
    (lists : TxnId → List Blobref) : Prop where
  claimed : cache.Claimed
  owner : ∀ k ref, (∃ p, cache.pending ref = some p ∧ p.dirtiedBy = some k) ↔ ref ∈ lists k
  nodup : ∀ k, (lists k).Nodup
  inFlight : ∀ x ∈ stores, ∃ ws, cache.pending x.1 = some ⟨x.2, ws, none⟩
  distinct : (stores.map (·.1)).Nodup

variable {stores : List (Blobref × Bytes)}

theorem Tracked.congr (h : Tracked cache stores lists) (hc : cache'.Claimed)
    (hp : cache'.pending = cache.pending) : Tracked cache' stores lists where
  claimed := hc
  owner := hp ▸ h.owner
  nodup := h.nodup
  inFlight := hp ▸ h.inFlight
  distinct := h.distinct

theorem Tracked.lookup (h : Tracked cache stores lists) (ref : Blobref) (epoch : ℕ) :
    Tracked (cacheLookup cache ref epoch) stores lists :=
  h.congr (h.claimed.lookup ref epoch) (Cache.pending_lookup cache ref epoch)

/-- **A transaction makes an entry dirty**, which was not, and has it on its list. -/
theorem Tracked.put (h : Tracked cache stores lists) (hnone : cache.pending ref = none)
    (hc : cache'.Claimed)
    (hp : cache'.pending = Function.update cache.pending ref (some ⟨data, ws, some k⟩)) :
    Tracked cache' stores (Function.update lists k (ref :: lists k)) := by
  have hnot (k' : TxnId) : ref ∉ lists k' := fun hmem => by
    obtain ⟨p, hp, -⟩ := (h.owner k' ref).2 hmem
    rw [hnone] at hp
    cases hp
  refine ⟨hc, fun k' r => ?_, fun k' => ?_, fun x hx => ?_, h.distinct⟩
  · rw [hp]
    by_cases hr : r = ref
    · subst hr
      rw [update_self]
      by_cases hk : k' = k
      · subst hk
        simp
      · rw [update_of_ne hk]
        simp [Ne.symm hk, hnot k']
    · rw [update_of_ne hr, h.owner]
      by_cases hk : k' = k
      · subst hk
        simp [hr]
      · rw [update_of_ne hk]
  · by_cases hk : k' = k
    · subst hk
      rw [update_self]
      exact nodup_cons.2 ⟨hnot _, h.nodup _⟩
    · rw [update_of_ne hk]
      exact h.nodup k'
  · obtain ⟨ws', hx'⟩ := h.inFlight x hx
    refine ⟨ws', ?_⟩
    rw [hp, update_of_ne]
    · exact hx'
    · intro he
      rw [he, hnone] at hx'
      cases hx'

section

variable (h : Tracked cache stores (Function.update lists k (ref :: refs)))
include h

theorem Tracked.give (hq : ∀ p ∈ q, p.dirtiedBy = none) (hc : cache'.Claimed)
    (hp : cache'.pending = Function.update cache.pending ref q) :
    Tracked cache' stores (Function.update lists k refs) := by
  have hnd := h.nodup k
  rw [update_self] at hnd
  obtain ⟨hnot, hnd⟩ := nodup_cons.1 hnd
  obtain ⟨p, hpend, hby⟩ := (h.owner k ref).2 (by rw [update_self]; exact mem_cons_self)
  refine ⟨hc, fun k' r => ?_, fun k' => ?_, fun x hx => ?_, h.distinct⟩
  · rw [hp]
    by_cases hr : r = ref
    · subst hr
      rw [update_self]
      refine iff_of_false ?_ ?_
      · rintro ⟨p', hp', hby'⟩
        rw [hq p' hp'] at hby'
        cases hby'
      · by_cases hk : k' = k
        · subst hk
          rw [update_self]
          exact hnot
        · rw [update_of_ne hk]
          intro hmem
          obtain ⟨p', hp', hby'⟩ := (h.owner k' r).2 (by rw [update_of_ne hk]; exact hmem)
          rw [hpend] at hp'
          cases hp'
          rw [hby] at hby'
          exact hk (some.inj hby').symm
    · rw [update_of_ne hr, h.owner]
      by_cases hk : k' = k
      · subst hk
        simp [hr]
      · rw [update_of_ne hk, update_of_ne hk]
  · by_cases hk : k' = k
    · subst hk
      rw [update_self]
      exact hnd
    · have := h.nodup k'
      rw [update_of_ne hk] at this
      rwa [update_of_ne hk]
  · obtain ⟨ws, hx'⟩ := h.inFlight x hx
    refine ⟨ws, ?_⟩
    rw [hp, update_of_ne]
    · exact hx'
    · intro he
      rw [he, hpend] at hx'
      cases hx'
      cases hby

/-- **An entry is removed** by its owner. -/
theorem Tracked.drop :
    Tracked (cache.delete ref) stores (Function.update lists k refs) :=
  h.give (by simp) (h.claimed.delete ref) (Cache.pending_delete cache ref)

/-- **An entry is handed over** to the content store. -/
theorem Tracked.hand (hd : entry.dirty = true) (k' : TxnId) : Tracked (cache.set ref { entry with
        waitlistNotdirty := entry.waitlistNotdirty ++ [k'], dirtiedBy := none })
      (stores ++ [(ref, entry.data)]) (Function.update lists k refs) := by
  have hp : (cache.set ref { entry with
      waitlistNotdirty := entry.waitlistNotdirty ++ [k'], dirtiedBy := none }).pending
      = Function.update cache.pending ref
        (some ⟨entry.data, entry.waitlistNotdirty ++ [k'], none⟩) := by
    rw [Cache.pending_set, CacheEntry.pending, if_pos hd]
  have h' := h.give (by simp) (h.claimed.set (by simp) ref) hp
  obtain ⟨p, hpend, hby⟩ := (h.owner k ref).2 (by rw [update_self]; exact mem_cons_self)
  refine { h' with inFlight := fun x hx => ?_, distinct := ?_ }
  · rcases mem_append.1 hx with hx | hx
    · exact h'.inFlight x hx
    · rw [mem_singleton.1 hx, hp]
      exact ⟨_, update_self _ _ _⟩
  · rw [map_append, map_singleton]
    refine concat_eq_append ▸ List.Nodup.concat (fun hmem => ?_) h.distinct
    obtain ⟨x, hx, he⟩ := List.mem_map.1 hmem
    obtain ⟨ws, hx'⟩ := h.inFlight x hx
    rw [he, hpend] at hx'
    cases hx'
    cases hby

end

theorem ne_of_mem_eraseP (h : (stores.map (·.1)).Nodup) (hx : x ∈ stores.eraseP (·.1 = ref)) :
    x.1 ≠ ref := by
  induction stores with
  | nil => cases hx
  | cons y stores ih =>
    obtain ⟨hnot, hnd⟩ := nodup_cons.1 h
    by_cases hy : y.1 = ref
    · rw [eraseP_cons_of_pos (by simpa using hy)] at hx
      rintro rfl
      exact hnot (List.mem_map.2 ⟨x, hx, hy.symm⟩)
    rw [eraseP_cons_of_neg (by simpa using hy)] at hx
    rcases mem_cons.1 hx with rfl | hx
    · exact hy
    · exact ih hnd hx

/-- **A store completes:** the entry is clean or gone. -/
theorem Tracked.complete (h : Tracked cache stores lists)
    (hfind : stores.find? (·.1 = ref) = some (ref, data)) (hc : cache'.Claimed)
    (hp : cache'.pending = Function.update cache.pending ref none) :
    Tracked cache' (stores.eraseP (·.1 = ref)) lists := by
  have hmem := List.mem_of_find?_eq_some hfind
  obtain ⟨ws, hpend⟩ := h.inFlight _ hmem
  refine ⟨hc, fun k' r => ?_, h.nodup, fun x hx => ?_, ?_⟩
  · rw [hp]
    by_cases hr : r = ref
    · subst hr
      rw [update_self, ← h.owner, hpend]
      simp
    · rw [update_of_ne hr, h.owner]
  · obtain ⟨ws', hx'⟩ := h.inFlight x (mem_of_mem_eraseP hx)
    refine ⟨ws', ?_⟩
    rw [hp, update_of_ne]
    · exact hx'
    · exact ne_of_mem_eraseP h.distinct hx
  · exact h.distinct.sublist (eraseP_sublist.map _)

end FluxCore.Kvs
