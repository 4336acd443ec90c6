import FluxCore.Kvs.Proc
import Mathlib.Data.List.Count

/-!
# Waiters on Cache Entries

An entry of the cache has two queues, for waiters until it is valid and until it is clean.
This module says what is true of the queues of every entry, counts how often a transaction
stands on them, and shows for each operation on the cache how it changes the count.
-/

namespace FluxCore.Kvs

open List Option

/-- An entry that is valid has no waiters for it to become valid, only valid entries are
dirty, and an entry that is clean has no waiters for it to become clean. -/
structure CacheEntry.Ok (entry : CacheEntry) : Prop where
  valid : entry.valid = true → entry.waitlistValid = []
  dirty : entry.dirty = true → entry.valid = true
  clean : entry.dirty = false → entry.waitlistNotdirty = []

/-- Every entry of the cache is in order. -/
def Cache.Ok (cache : Cache) : Prop := ∀ ref entry, cache ref = some entry → entry.Ok

/-- How often a transaction stands on the queues of an entry. -/
def CacheEntry.standing (entry : CacheEntry) (k : TxnId) : ℕ :=
  entry.waitlistValid.count k + entry.waitlistNotdirty.count k

/-- How often a transaction stands on the queues of the entry of a reference. -/
def Cache.standing (cache : Cache) (k : TxnId) (ref : Blobref) : ℕ :=
  ((cache ref).map (·.standing k)).getD 0

/-- How often a transaction waits for a reference: on the queues of the entry, and among
the waiters that were released and have not been run. -/
def Mem.standing {ρ : Type} (m : Mem ρ) (k : TxnId) (ref : Blobref) : ℕ :=
  m.cache.standing k ref + m.woken.count (ref, k)

variable {cache : Cache} {ref : Blobref} {entry : CacheEntry}

theorem CacheEntry.Ok.default : CacheEntry.Ok {} := ⟨fun _ => rfl, fun h => h, fun _ => rfl⟩

theorem CacheEntry.Ok.invalid (h : entry.Ok) (hv : entry.valid = false) : entry.dirty = false := by
  cases hd : entry.dirty with
  | false => rfl
  | true => rw [h.dirty hd] at hv; cases hv

theorem CacheEntry.Ok.standing_eq_zero (h : entry.Ok) (hv : entry.valid = true)
    (hd : entry.dirty = false) (k : TxnId) : entry.standing k = 0 := by
  simp [CacheEntry.standing, h.valid hv, h.clean hd]

theorem Cache.Ok.set (h : cache.Ok) (he : entry.Ok) (ref : Blobref) : (cache.set ref entry).Ok :=
  Cache.All.set (P := fun _ e => e.Ok) h he

theorem Cache.Ok.delete (h : cache.Ok) (ref : Blobref) : (cache.delete ref).Ok :=
  Cache.All.delete h ref

theorem CacheEntry.Ok.used (h : entry.Ok) (n : ℕ) : { entry with lastuseEpoch := n }.Ok := { h with }

theorem Cache.standing_of_some (h : cache ref = some entry) (k : TxnId) :
    cache.standing k ref = entry.standing k := by
  rw [Cache.standing, h, map_some, getD_some]

theorem Cache.standing_of_none (h : cache ref = none) (k : TxnId) : cache.standing k ref = 0 := by
  rw [Cache.standing, h, map_none, getD_none]

theorem Cache.standing_set (cache : Cache) (ref : Blobref) (entry : CacheEntry) (k : TxnId)
    (r : Blobref) : (cache.set ref entry).standing k r =
      if r = ref then entry.standing k else cache.standing k r := by
  by_cases hr : r = ref
  · subst hr
    rw [if_pos rfl, Cache.standing_of_some (Cache.set_self _ _ _)]
  · rw [if_neg hr, Cache.standing, Cache.set_of_ne _ _ hr, Cache.standing]

theorem Cache.standing_delete (cache : Cache) (ref : Blobref) (k : TxnId) (r : Blobref) :
    (cache.delete ref).standing k r = if r = ref then 0 else cache.standing k r := by
  by_cases hr : r = ref
  · subst hr
    rw [if_pos rfl, Cache.standing_of_none (Cache.delete_self _ _)]
  · rw [if_neg hr, Cache.standing, Cache.delete_of_ne _ hr, Cache.standing]

/-! ### Operations of the cache -/

theorem cacheLookup_apply (cache : Cache) (ref : Blobref) (epoch : ℕ) (r : Blobref) :
    cacheLookup cache ref epoch r = (cache r).map fun entry =>
      if r = ref then { entry with lastuseEpoch := max entry.lastuseEpoch epoch } else entry := by
  by_cases hr : r = ref
  · subst hr
    cases h : cache r <;> simp [cacheLookup, h]
  cases h : cache ref with
  | none => simp [cacheLookup, h, hr]
  | some entry => simp [cacheLookup, h, hr, Cache.set_of_ne]

theorem Cache.Ok.lookup (h : cache.Ok) (ref : Blobref) (epoch : ℕ) :
    (cacheLookup cache ref epoch).Ok :=
  Cache.All.lookup h (fun _ _ n he => he.used n) ref epoch

theorem Cache.Ok.getD_lookup (h : cache.Ok) (ref : Blobref) (epoch : ℕ) :
    ((cacheLookup cache ref epoch ref).getD {}).Ok :=
  Cache.All.getD_lookup h (fun _ _ n he => he.used n) .default epoch

@[simp] theorem standing_cacheLookup (cache : Cache) (ref : Blobref) (epoch : ℕ) (k : TxnId)
    (r : Blobref) : (cacheLookup cache ref epoch).standing k r = cache.standing k r := by
  rw [Cache.standing, Cache.standing, cacheLookup_apply, Option.map_map]
  congr 2
  funext e
  simp only [Function.comp_apply]
  split <;> rfl

theorem Mem.standing_lookup {ρ : Type} (m : Mem ρ) (ref : Blobref) (epoch : ℕ) :
    Mem.standing { m with cache := cacheLookup m.cache ref epoch } = m.standing := by
  funext k r
  exact congrArg (· + _) (standing_cacheLookup m.cache ref epoch k r)

theorem Cache.Ok.expire (h : cache.Ok) (epoch thresh : ℕ) :
    (cacheExpireEntries cache epoch thresh).Ok :=
  Cache.All.expire h (fun _ _ n he => he.used n) epoch thresh

theorem Cache.Ok.standing_expire (h : cache.Ok) (epoch thresh : ℕ) (k : TxnId) (r : Blobref) :
    (cacheExpireEntries cache epoch thresh).standing k r = cache.standing k r := by
  cases hr : cache r with
  | none =>
    rw [Cache.standing_of_none hr, Cache.standing_of_none]
    rw [cacheExpireEntries, hr, bind_none]
  | some e =>
    rw [Cache.standing_of_some hr]
    by_cases hexp : e.expires epoch thresh = true
    · have hnone : cacheExpireEntries cache epoch thresh r = none := by
        simp [cacheExpireEntries, hr, hexp]
      rw [Cache.standing_of_none hnone]
      simp only [CacheEntry.expires, Bool.and_eq_true, Bool.not_eq_true'] at hexp
      exact ((h r e hr).standing_eq_zero hexp.1.1 hexp.1.2 k).symm
    by_cases hold : (e.valid && !e.dirty && e.lastuseEpoch == 0) = true
    · have hsome : cacheExpireEntries cache epoch thresh r
          = some { e with lastuseEpoch := epoch } := by
        simp only [cacheExpireEntries, hr, bind_some, if_neg hexp, if_pos hold]
      rw [Cache.standing_of_some hsome]
      rfl
    · have hsome : cacheExpireEntries cache epoch thresh r = some e := by
        simp only [cacheExpireEntries, hr, bind_some, if_neg hexp, if_neg hold]
      rw [Cache.standing_of_some hsome]

theorem cacheRemoveEntry_cases (cache : Cache) (ref : Blobref) :
    (cacheRemoveEntry cache ref).1 = cache ∨
      ∃ entry, cache ref = some entry ∧ entry.dirty = false ∧ entry.waitlistNotdirty = [] ∧
        entry.waitlistValid = [] ∧ (cacheRemoveEntry cache ref).1 = cache.delete ref := by
  rw [cacheRemoveEntry]
  split
  · rename_i entry h
    split_ifs with hc
    · simp only [Bool.and_eq_true, Bool.not_eq_true', List.isEmpty_iff] at hc
      exact .inr ⟨entry, h, hc.1.1, hc.1.2, hc.2, rfl⟩
    · exact .inl rfl
  · exact .inl rfl

theorem Cache.Ok.removeEntry (h : cache.Ok) (ref : Blobref) : (cacheRemoveEntry cache ref).1.Ok :=
  Cache.All.removeEntry h ref

@[simp] theorem standing_cacheRemoveEntry (cache : Cache) (ref : Blobref) (k : TxnId)
    (r : Blobref) : (cacheRemoveEntry cache ref).1.standing k r = cache.standing k r := by
  rcases cacheRemoveEntry_cases cache ref with he | ⟨entry, h, -, h1, h2, he⟩
  · rw [he]
  rw [he, Cache.standing_delete]
  split_ifs with hr
  · rw [hr, Cache.standing_of_some h]
    simp [CacheEntry.standing, h1, h2]
  · rfl

theorem cacheEntrySetNotdirty_standing (entry : CacheEntry) (k : TxnId) :
    entry.standing k = (cacheEntrySetNotdirty entry).1.standing k
      + (cacheEntrySetNotdirty entry).2.count k := by
  rw [cacheEntrySetNotdirty]
  split_ifs
  · simp [CacheEntry.standing]
  · simp

theorem CacheEntry.Ok.setNotdirty (h : entry.Ok) : (cacheEntrySetNotdirty entry).1.Ok := by
  rw [cacheEntrySetNotdirty]
  split_ifs
  · exact ⟨h.valid, fun hd => absurd hd Bool.false_ne_true, fun _ => rfl⟩
  · exact h

theorem CacheEntry.Ok.forceClearDirty (h : entry.Ok) :
    (cacheEntryForceClearDirty { entry with waitlistNotdirty := [] }).Ok := by
  rw [cacheEntryForceClearDirty]
  split_ifs
  · exact ⟨h.valid, fun hd => absurd hd Bool.false_ne_true, fun _ => rfl⟩
  · exact ⟨h.valid, h.dirty, fun _ => rfl⟩

/-! ### Cleaning up -/

/-- `kvstxn_cleanup_dirty_cache_entry`, in the states in which it acts: the entry was dirty
and had no waiters, and it is gone. -/
theorem cleanupDirtyCacheEntry_eq_some (hstate : state = .store ∨ state = .preFinished)
    (h : kvstxnCleanupDirtyCacheEntry state ref cache = some cache') :
    ∃ entry, cache ref = some entry ∧ entry.valid = true ∧ entry.dirty = true ∧
      entry.waitlistNotdirty = [] ∧ entry.waitlistValid = [] ∧ cache' = cache.delete ref := by
  rw [kvstxnCleanupDirtyCacheEntry, if_pos hstate] at h
  split at h
  · rename_i entry hent
    split_ifs at h with hc
    · simp only [Bool.and_eq_true, List.isEmpty_iff] at hc
      obtain ⟨⟨hv, hd⟩, hn⟩ := hc
      refine ⟨entry, hent, hv, hd, hn, ?_⟩
      simp only [cacheEntryClearDirty, hd, hn, isEmpty_nil, Bool.and_self, if_true,
        cacheRemoveEntry, Cache.set_self, Bool.not_false, Bool.true_and] at h
      split at h
      · rename_i hrem
        split_ifs at hrem with hl
        · cases hrem
          cases h
          refine ⟨by simpa using hl, ?_⟩
          funext r
          by_cases hr : r = ref
          · subst hr
            rw [Cache.delete_self, Cache.delete_self]
          · rw [Cache.delete_of_ne _ hr, Cache.delete_of_ne _ hr, Cache.set_of_ne _ _ hr]
        · cases hrem
      · cases h
  · cases h

/-- **The rule for cleaning up:** what holds of the list and is kept when its first entry,
which has no waiters, is deleted holds at the end. -/
theorem cleanup_induct {P : List Blobref → Cache → Prop}
    (hstate : state = .store ∨ state = .preFinished)
    (hstep : ∀ ref refs cache entry, P (ref :: refs) cache → cache ref = some entry →
      entry.waitlistNotdirty = [] → entry.waitlistValid = [] → P refs (cache.delete ref))
    (h : P refs cache) (hc : cleanupDirtyCacheList state refs cache = some cache') :
    P [] cache' := by
  induction refs generalizing cache with
  | nil =>
    cases hc
    exact h
  | cons ref refs ih =>
    obtain ⟨cache₁, h₁, hc⟩ := bind_eq_some_iff.1 hc
    obtain ⟨entry, hent, -, -, hn, hl, rfl⟩ := cleanupDirtyCacheEntry_eq_some hstate h₁
    exact ih (hstep ref refs cache entry h hent hn hl) hc

theorem Cache.All.cleanup (hstate : state = .store ∨ state = .preFinished) (h : cache.All P)
    (hc : cleanupDirtyCacheList state refs cache = some cache') : cache'.All P :=
  cleanup_induct (P := fun _ cache => cache.All P) hstate (fun ref _ _ _ h _ _ _ => h.delete ref)
    h hc

theorem Cache.standing_cleanup (hstate : state = .store ∨ state = .preFinished)
    (hc : cleanupDirtyCacheList state refs cache = some cache') (k : TxnId) (r : Blobref) :
    cache'.standing k r = cache.standing k r := by
  refine cleanup_induct (P := fun _ c => c.standing k r = cache.standing k r) hstate
    (fun ref refs c entry h hent hn hl => ?_) rfl hc
  rw [← h, Cache.standing_delete]
  split_ifs with hr
  · rw [hr, Cache.standing_of_some hent]
    simp [CacheEntry.standing, hn, hl]
  · rfl

/-! ### Effects -/

section Effects

variable {ρ : Type} [DecidableEq ρ] {c : Codec} {epoch : ℕ}

omit [DecidableEq ρ] in
/-- **What a put does:** nothing if there is a valid entry; otherwise the entry becomes
valid and dirty and goes on the list of the transaction. -/
theorem put_cases (data : Bytes) (w : Work ρ) :
    (∃ entry, w.cache (c.blobrefHash data) = some entry ∧ entry.valid = true ∧
      w.put c epoch data =
        { w.lookup epoch (c.blobrefHash data) with noopStores := data :: w.noopStores }) ∨
    (∃ entry, (cacheLookup w.cache (c.blobrefHash data) epoch (c.blobrefHash data)).getD {} = entry ∧
      entry.valid = false ∧ w.put c epoch data = { w with
          cache := (cacheLookup w.cache (c.blobrefHash data) epoch).set (c.blobrefHash data)
            { entry with data := data, valid := true, waitlistValid := [], dirty := true,
                         dirtiedBy := some w.self }
          woken := w.woken ++ entry.waitlistValid.map (c.blobrefHash data, ·)
          dirtyCacheEntries := c.blobrefHash data :: w.dirtyCacheEntries }) := by
  cases hv : ((cacheLookup w.cache (c.blobrefHash data) epoch (c.blobrefHash data)).getD {}).valid with
  | true =>
    left
    cases hw : w.cache (c.blobrefHash data) with
    | none => simp [cacheLookup_apply, hw] at hv
    | some entry =>
      refine ⟨entry, rfl, by simpa [cacheLookup_apply, hw] using hv, ?_⟩
      simp only [Work.put, storeData, hv, if_true, Bool.false_eq_true, if_false]
      rfl
  | false =>
    right
    refine ⟨_, rfl, hv, ?_⟩
    simp only [Work.put, storeData, hv, Bool.false_eq_true, if_false, if_true, cacheEntrySetRaw]

section All

-- a property that does not depend on the last use and that every new entry has
variable {P : Blobref → CacheEntry → Prop}
  (hP : ∀ ref entry n, P ref entry → P ref { entry with lastuseEpoch := n })
  (hput : ∀ data (entry : CacheEntry) k, P (c.blobrefHash data) { entry with
    data := data, valid := true, waitlistValid := [], dirty := true, dirtiedBy := some k })
include hP hput

omit [DecidableEq ρ] in
theorem put_all {w : Work ρ} (h : w.cache.All P) (data : Bytes) :
    (w.put c epoch data).cache.All P := by
  rcases put_cases (c := c) data w with ⟨_, -, -, heq⟩ | ⟨entry, hent, hv, heq⟩
  · rw [heq]
    exact h.lookup hP _ epoch
  · rw [heq]
    exact (h.lookup hP _ epoch).set (hput data entry w.self)

theorem Effects.all {w w' : Work ρ} (h : Effects c epoch w w') (ha : w.cache.All P) :
    w'.cache.All P := by
  induction h with
  | refl => exact ha
  | tail _ he ih =>
    cases he with
    | lookup ref => exact ih.lookup hP ref epoch
    | put data => exact put_all hP hput ih data
    | enter | write => exact ih

end All

theorem Effects.cacheOk {w w' : Work ρ} (h : Effects c epoch w w') (hok : w.cache.Ok) :
    w'.cache.Ok :=
  Effects.all (fun _ _ n he => he.used n)
    (fun _ _ _ => ⟨fun _ => rfl, fun _ => rfl, fun hd => by cases hd⟩) h hok

theorem count_map_pair (ref r : Blobref) (k : TxnId) (l : List TxnId) :
    (l.map (ref, ·)).count (r, k) = if r = ref then l.count k else 0 := by
  induction l with
  | nil => simp
  | cons x l ih =>
    rw [map_cons, count_cons, ih, count_cons]
    by_cases hr : r = ref
    · subst hr
      by_cases hx : x = k <;> simp [hx]
    · have : ¬ (ref = r) := Ne.symm hr
      simp [hr, this]

theorem standing_getD_lookup (cache : Cache) (ref : Blobref) (epoch : ℕ) (k : TxnId) :
    ((cacheLookup cache ref epoch ref).getD {}).standing k = cache.standing k ref := by
  rw [← standing_cacheLookup cache ref epoch k ref]
  cases h : cacheLookup cache ref epoch ref with
  | none =>
    rw [Cache.standing_of_none h]
    rfl
  | some e =>
    rw [Cache.standing_of_some h]
    rfl

/-- **Effects move waiters**, from the queues of entries that become valid to the waiters
that were released, and the count stays. -/
theorem Effects.standing {w w' : Work ρ} (h : Effects c epoch w w') (k : TxnId) (r : Blobref) :
    w'.toMem.standing k r = w.toMem.standing k r := by
  induction h with
  | refl => rfl
  | @tail w₁ _ hw he ih =>
    rw [← ih]
    cases he with
    | lookup ref => exact congrArg (· + _) (standing_cacheLookup _ _ _ _ _)
    | put data =>
      rcases put_cases (c := c) data w₁ with ⟨_, -, -, heq⟩ | ⟨entry, hent, hv, heq⟩
      · rw [heq]
        exact congrArg (· + _) (standing_cacheLookup _ _ _ _ _)
      have hst := standing_getD_lookup w₁.cache (c.blobrefHash data) epoch k
      rw [hent] at hst
      rw [heq]
      simp only [Mem.standing, Cache.standing_set, count_append, count_map_pair]
      split_ifs with hr
      · rw [hr, ← hst]
        simp only [CacheEntry.standing, count_nil]
        omega
      · rw [standing_cacheLookup, Nat.add_zero]
    | enter | write => rfl

end Effects

end FluxCore.Kvs
