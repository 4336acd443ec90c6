import FluxCore.Kvs.Treeobj

/-!
# The KVS Blob Cache

The cache of `modules/kvs/cache.c` maps blobrefs to entries. An entry is created invalid,
becomes valid when its contents arrive (from a load or from a transaction), and is dirty
while its contents have not been acknowledged by the content store. The waiters of an
entry are the transactions that have stalled on it; the functions that run a wait queue
return its waiters and leave it to the caller to run them.

The libraries that the module links are the fields of `Codec`: the hash function behind
`blobref_hash`, the JSON printer and parser, and the base64 decoder. Its laws say what
the module relies on.
-/

namespace FluxCore.Kvs

/-- The external functions of the KVS module, with their documented behaviour. -/
structure Codec where
  /-- `blobref_hash`, with the hash function of the instance -/
  blobrefHash : Bytes → Blobref
  /-- `json_dumps`, compact and with sorted keys -/
  jsonDumps : Treeobj Empty → Bytes
  /-- `json_loadb` -/
  jsonLoadb : Bytes → Option (Treeobj Empty)
  /-- `sodium_base642bin` -/
  sodiumBase642bin : String → Option Bytes
  validate_hash : ∀ data, blobrefValidate (blobrefHash data) = true
  load_dumps : ∀ o, jsonLoadb (jsonDumps o) = some o
  dumps_ne_nil : ∀ o, jsonDumps o ≠ []
  base642bin_ne_nil : ∀ s, s ≠ "" → sodiumBase642bin s ≠ some []

variable (c : Codec)

/-- `treeobj_decodeb`: only valid tree objects are accepted. -/
def treeobjDecodeb (buf : Bytes) : Option (Treeobj Empty) :=
  (c.jsonLoadb buf).filter Treeobj.validate

theorem treeobjDecodeb_dumps (h : o.validate = true) :
    treeobjDecodeb c (c.jsonDumps o) = some o := by
  simp [treeobjDecodeb, c.load_dumps, h]

/-- The address of a `struct kvstxn`: the namespace of its manager and a number. -/
structure TxnId where
  ns : String
  num : ℕ
deriving DecidableEq, Repr

/-- `struct cache_entry`. The field `dirtiedBy` is history: the transaction that made the
entry dirty, until it has handed the entry to the callback that flushes it. -/
structure CacheEntry where
  waitlistNotdirty : List TxnId := []
  waitlistValid : List TxnId := []
  data : Bytes := []
  lastuseEpoch : ℕ := 0
  valid : Bool := false
  dirty : Bool := false
  dirtiedBy : Option TxnId := none
deriving DecidableEq, Repr

/-- The cache: an entry for each blobref that is present. -/
abbrev Cache := Blobref → Option CacheEntry

/-- The cache with `entry` under `ref`. -/
def Cache.set (cache : Cache) (ref : Blobref) (entry : CacheEntry) : Cache :=
  fun r => if r = ref then some entry else cache r

/-- `zhashx_delete`. -/
def Cache.delete (cache : Cache) (ref : Blobref) : Cache :=
  fun r => if r = ref then none else cache r

@[simp] theorem Cache.set_self (cache : Cache) (ref : Blobref) (entry : CacheEntry) :
    cache.set ref entry ref = some entry := by
  simp [Cache.set]

theorem Cache.set_of_ne (cache : Cache) (entry : CacheEntry) (h : r ≠ ref) :
    cache.set ref entry r = cache r := by
  simp [Cache.set, h]

@[simp] theorem Cache.delete_self (cache : Cache) (ref : Blobref) :
    cache.delete ref ref = none := by
  simp [Cache.delete]

theorem Cache.delete_of_ne (cache : Cache) (h : r ≠ ref) : cache.delete ref r = cache r := by
  simp [Cache.delete, h]

/-- `cache_entry_get_valid`, of an entry that may be absent. -/
def Cache.getValid (cache : Cache) (ref : Blobref) : Bool :=
  match cache ref with
  | some entry => entry.valid
  | none => false

/-- `cache_entry_get_dirty`, of an entry that may be absent. -/
def Cache.getDirty (cache : Cache) (ref : Blobref) : Bool :=
  match cache ref with
  | some entry => entry.valid && entry.dirty
  | none => false

/-- `cache_lookup` marks the entry as used. -/
def cacheLookup (cache : Cache) (ref : Blobref) (epoch : ℕ) : Cache :=
  match cache ref with
  | some entry => cache.set ref { entry with lastuseEpoch := max entry.lastuseEpoch epoch }
  | none => cache

/-- `cache_entry_get_treeobj`. -/
def cacheEntryGetTreeobj (entry : CacheEntry) : Option (Treeobj Empty) :=
  if entry.valid && !entry.data.isEmpty then treeobjDecodeb c entry.data else none

/-- `cache_entry_set_raw` of an entry that is not valid yet: it takes the contents and
releases the waiters for a valid entry. -/
def cacheEntrySetRaw (entry : CacheEntry) (data : Bytes) : CacheEntry × List TxnId :=
  ({ entry with data := data, valid := true, waitlistValid := [] }, entry.waitlistValid)

/-- `cache_entry_set_dirty` with `false`: the waiters for a clean entry are released. -/
def cacheEntrySetNotdirty (entry : CacheEntry) : CacheEntry × List TxnId :=
  if entry.valid && entry.dirty then
    ({ entry with dirty := false, waitlistNotdirty := [] }, entry.waitlistNotdirty)
  else (entry, [])

/-- `cache_entry_clear_dirty` clears the dirty bit unless someone waits for it. -/
def cacheEntryClearDirty (entry : CacheEntry) : CacheEntry :=
  if entry.dirty && entry.waitlistNotdirty.isEmpty then { entry with dirty := false } else entry

/-- `cache_entry_force_clear_dirty` clears it even so. -/
def cacheEntryForceClearDirty (entry : CacheEntry) : CacheEntry :=
  if entry.valid && entry.dirty then { entry with dirty := false, waitlistNotdirty := [] }
  else entry

/-- `cache_remove_entry` removes an entry that is clean and that no one waits for. -/
def cacheRemoveEntry (cache : Cache) (ref : Blobref) : Cache × Bool :=
  match cache ref with
  | some entry =>
    if !entry.dirty && entry.waitlistNotdirty.isEmpty && entry.waitlistValid.isEmpty then
      (cache.delete ref, true)
    else (cache, false)
  | none => (cache, false)

/-- `cache_entry_age`, with the entry aged for the first time if need be. -/
def cacheEntryAge (entry : CacheEntry) (epoch : ℕ) : ℕ :=
  if entry.lastuseEpoch = 0 then 0 else epoch - entry.lastuseEpoch

/-- Whether `cache_expire_entries` drops this entry. -/
def CacheEntry.expires (entry : CacheEntry) (epoch thresh : ℕ) : Bool :=
  entry.valid && !entry.dirty && (thresh == 0 || thresh < cacheEntryAge entry epoch)

/-- `cache_expire_entries`. An entry that was never used is given an age when its turn
comes. -/
def cacheExpireEntries (cache : Cache) (epoch thresh : ℕ) : Cache := fun ref =>
  (cache ref).bind fun entry =>
    if entry.expires epoch thresh then none
    else if entry.valid && !entry.dirty && entry.lastuseEpoch == 0 then
      some { entry with lastuseEpoch := epoch }
    else some entry

/-! ### Properties of all entries -/

/-- Every entry of the cache has the property. -/
def Cache.All (P : Blobref → CacheEntry → Prop) (cache : Cache) : Prop :=
  ∀ ref entry, cache ref = some entry → P ref entry

section All

variable {P : Blobref → CacheEntry → Prop} {cache : Cache} (h : cache.All P)
include h

theorem Cache.All.set (he : P ref entry) : (cache.set ref entry).All P := by
  intro r e hr
  by_cases hrr : r = ref
  · subst hrr
    rw [Cache.set_self] at hr
    cases hr
    exact he
  · rw [Cache.set_of_ne _ _ hrr] at hr
    exact h r e hr

theorem Cache.All.delete (ref : Blobref) : (cache.delete ref).All P := by
  intro r e hr
  by_cases hrr : r = ref
  · subst hrr
    rw [Cache.delete_self] at hr
    cases hr
  · rw [Cache.delete_of_ne _ hrr] at hr
    exact h r e hr

theorem Cache.All.removeEntry (ref : Blobref) : (cacheRemoveEntry cache ref).1.All P := by
  rw [cacheRemoveEntry]
  split
  · split_ifs
    · exact h.delete ref
    · exact h
  · exact h

-- the time of the last use does not matter
variable (hP : ∀ ref entry n, P ref entry → P ref { entry with lastuseEpoch := n })
include hP

theorem Cache.All.lookup (ref : Blobref) (epoch : ℕ) : (cacheLookup cache ref epoch).All P := by
  rw [cacheLookup]
  split
  · rename_i entry hent
    exact h.set (hP _ _ _ (h ref entry hent))
  · exact h

theorem Cache.All.getD_lookup (hnew : P ref {}) (epoch : ℕ) :
    P ref ((cacheLookup cache ref epoch ref).getD {}) := by
  cases hc : cacheLookup cache ref epoch ref with
  | none => exact hnew
  | some entry => exact h.lookup hP ref epoch ref entry hc

theorem Cache.All.expire (epoch thresh : ℕ) : (cacheExpireEntries cache epoch thresh).All P := by
  intro r e hr
  obtain ⟨e₀, h₀, he⟩ := Option.bind_eq_some_iff.1 hr
  split_ifs at he <;> cases he
  · exact hP _ _ _ (h r e₀ h₀)
  · exact h r e h₀

end All

/-! ### Agreement with a store -/

section Store

/-- Every valid entry of the cache has the contents of the store. -/
def Consistent (store : Blobref → Option Bytes) (cache : Cache) : Prop :=
  ∀ ref entry, cache ref = some entry → entry.valid = true → store ref = some entry.data

variable {store : Blobref → Option Bytes} {cache : Cache}

theorem Consistent.set (h : Consistent store cache)
    (hent : entry.valid = true → store ref = some entry.data) :
    Consistent store (cache.set ref entry) :=
  Cache.All.set (P := fun ref e => e.valid = true → store ref = some e.data) h hent

theorem Consistent.delete (h : Consistent store cache) (ref : Blobref) :
    Consistent store (cache.delete ref) :=
  Cache.All.delete h ref

theorem Consistent.of_data (h : Consistent store cache)
    (hdata : ∀ r, (cache' r).map (fun e => (e.valid, e.data))
      = (cache r).map fun e => (e.valid, e.data)) : Consistent store cache' := by
  intro ref entry hent hval
  have heq := hdata ref
  rw [hent, Option.map_some, eq_comm, Option.map_eq_some_iff] at heq
  obtain ⟨entry', hent', hpair⟩ := heq
  obtain ⟨hv, hd⟩ := Prod.mk.inj hpair
  rw [← hd]
  exact h ref entry' hent' (hv.trans hval)

theorem cacheLookup_data (cache : Cache) (ref r : Blobref) (epoch : ℕ) :
    (cacheLookup cache ref epoch r).map (fun e => (e.valid, e.data))
      = (cache r).map fun e => (e.valid, e.data) := by
  rw [cacheLookup]
  cases hent : cache ref with
  | none => rfl
  | some entry =>
    by_cases hr : r = ref
    · simp [hr, hent]
    · simp only [Cache.set_of_ne _ _ hr]

theorem Consistent.cacheLookup (h : Consistent store cache) (ref : Blobref) (epoch : ℕ) :
    Consistent store (cacheLookup cache ref epoch) :=
  Cache.All.lookup h (fun _ _ _ hp => hp) ref epoch

theorem Consistent.foldl_cacheLookup (h : Consistent store cache) (refs : List Blobref)
    (epoch : ℕ) :
    Consistent store (refs.foldl (fun cache ref => Kvs.cacheLookup cache ref epoch) cache) := by
  induction refs generalizing cache with
  | nil => exact h
  | cons ref refs ih => exact ih (h.cacheLookup ref epoch)

end Store

end FluxCore.Kvs
