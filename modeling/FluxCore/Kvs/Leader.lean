import FluxCore.Kvs.Follower
import FluxCore.Kvs.Mgr
import FluxCore.Lib.Waiters

/-!
# The Leader

This module models the KVS module on rank 0: the namespaces with their ready queues, the
shared blob cache, the loads and stores that the content store has not completed, and the
transactions that wait for them. `kvstxn_apply` works on one transaction until it stalls or
is done; the callbacks for completed loads and stores, the heartbeat and requests to drop
the cache change the cache in between.

A transaction that has stalled has one `wait_t`, which is a waiter on the queues of cache
entries. When it has left the last one the source calls `kvstxn_apply` at once; here the
transaction becomes runnable, and running it is a step of its own.

A namespace that is removed stays known and fails its transactions. Its removal from
memory, after which the name could be used again, is left out.
-/

namespace FluxCore.Kvs

/-- `struct kvsroot` on rank 0. -/
structure Kvsroot extends Root where
  ready : List (Kvstxn ℕ) := []

/-- A `kvs.setroot` event on its way back to rank 0. -/
structure SetrootEvent where
  ns : String
  rootseq : ℕ
  rootref : Blobref
  rootdir : Treeobj Empty

/-- History: one call of `setroot` by `kvstxn_apply`, with the reference that the working
copy was made from and the one that the call replaced. -/
structure Publication where
  ns : String
  rootcpyRef : Blobref
  oldref : Blobref
  newref : Blobref
  seq : ℕ
  members : List ℕ
deriving DecidableEq, Repr

/-- The state of rank 0. `loads` and `stores` are the requests that the content store has
not answered and `content` is what it holds; `events` are on their way to rank 0. The
fields `added` and `published` are history: the operations of each transaction as they
were added, and the roots that were published, the last one first. -/
structure Leader where
  mem : Mem ℕ
  roots : String → Option Kvsroot := fun _ => none
  namespaces : List String := []
  waiters : Waiters TxnId Blobref := {}
  loads : List Blobref := []
  stores : List (Blobref × Bytes) := []
  content : Blobref → Option Bytes
  events : List SetrootEvent := []
  epoch : ℕ := 0
  nextObj : ℕ := 0
  nextTxn : ℕ := 0
  added : TxnId → List (Option (Op Empty)) := fun _ => []
  published : List Publication := []

/-- The part of the configuration that `kvstxn_apply` depends on: the codec, the depth of
the C stack in calls of `kvstxn_link_dirent` and `kvstxn_unroll`, and whether transactions
are merged. -/
structure Config where
  codec : Codec
  stack : ℕ
  depth : ℕ
  transactionMerge : Bool := true

namespace Leader

variable (cfg : Config) (s : Leader)

/-! ### Namespaces and transactions -/

/-- Change a namespace. -/
def setRoot (ns : String) (root : Kvsroot) : Leader :=
  { s with roots := fun n => if n = ns then some root else s.roots n }

/-- The transaction at an address. -/
def findTxn (k : TxnId) : Option (Kvstxn ℕ) :=
  (s.roots k.ns).bind fun root => root.ready.find? (·.id = k)

/-- Change the transaction at an address. -/
def modifyTxn (k : TxnId) (f : Kvstxn ℕ → Kvstxn ℕ) : Leader :=
  { s with
    roots := fun n =>
      if n = k.ns then
        (s.roots n).map fun root =>
          { root with ready := root.ready.map fun kt => if kt.id = k then f kt else kt }
      else s.roots n }

/-- Write a transaction back to its address. -/
def setTxn (kt : Kvstxn ℕ) : Leader := s.modifyTxn kt.id fun _ => kt

/-- Allocate the directory objects of the operations of a new transaction, from address
`next` on. -/
def allocOps (objs : ℕ → Dir ℕ) (next : ℕ) :
    List (Option (Op Empty)) → (ℕ → Dir ℕ) × ℕ × List (Option (Op ℕ))
  | [] => (objs, next, [])
  | none :: ops =>
    let (objs, next, ops) := allocOps objs next ops
    (objs, next, none :: ops)
  | some ⟨key, flags, some (.dir d)⟩ :: ops =>
    let (objs, next', ops) := allocOps (Function.update objs next d.copy) (next + 1) ops
    (objs, next', some ⟨key, flags, some (.held next)⟩ :: ops)
  | some ⟨key, flags, dirent⟩ :: ops =>
    let (objs, next, ops) := allocOps objs next ops
    (objs, next, some ⟨key, flags, dirent.map Treeobj.copy⟩ :: ops)

/-- `kvstxn_mgr_add_transaction`, from `commit_request_cb`, `relaycommit_request_cb` and the
end of a fence. A namespace that is being removed takes no transactions. -/
def addTransaction (ns name : String) (ops : List (Option (Op Empty))) (flags : ℕ) :
    Option Leader :=
  (s.roots ns).bind fun root =>
    if root.remove then none
    else
      let id : TxnId := ⟨ns, s.nextTxn⟩
      let (objs, nextObj, ops') := allocOps s.mem.objs s.nextObj ops
      let ready := kvstxnMgrAddTransaction root.ready id name ops' flags [s.nextTxn]
      some { s.setRoot ns { root with ready := ready } with
             mem := { s.mem with objs := objs }, nextObj := nextObj, nextTxn := s.nextTxn + 1,
             added := fun k => if k = id then ops else s.added k }

/-! ### Waiting -/

/-- `wait_runqueue`: the waiters leave a queue. -/
def runWaiters (woken : List (Blobref × TxnId)) : Leader :=
  { s with waiters := s.waiters.releaseAll woken }

/-- Run the waiters that were released by stores. -/
def runWoken : Leader :=
  { s with mem := { s.mem with woken := [] } }.runWaiters s.mem.woken

/-- `wait_aux_set_errnum` for each waiter of a queue, with `kvstxn_wait_error_cb`: their
transactions get an error. -/
def setAuxErrnum (waiters : List TxnId) (errnum : Errno) : Leader :=
  { s with
    roots := fun n => (s.roots n).map fun root =>
      { root with ready := root.ready.map fun kt =>
          if kt.id ∈ waiters then { kt with auxErrnum := some errnum } else kt } }

/-- Change the cache. -/
def setCache (cache : Cache) : Leader := { s with mem := { s.mem with cache := cache } }

/-- `wait_addqueue`: stand on the queue of an entry. -/
def addWait (k : TxnId) (ref : Blobref) : Leader := { s with waiters := s.waiters.stand k ref }

/-! ### Loads and stores -/

/-- `load`, on behalf of the transactions `waiters`. The oracle says for which references
the request cannot be sent. The result says whether the caller has to stall. -/
def load (sendFails : Blobref → Option Errno) (waiters : List TxnId) (ref : Blobref) :
    Leader × Except Errno Bool :=
  let cache := cacheLookup s.mem.cache ref s.epoch
  match cache ref with
  | none =>
    match sendFails ref with
    | some e => (s, .error e)
    | none =>
      ({ s with loads := s.loads ++ [ref] }.setCache
        (cache.set ref { waitlistValid := waiters }), .ok true)
  | some entry =>
    if entry.valid then (s.setCache cache, .ok false)
    else
      (s.setCache (cache.set ref { entry with waitlistValid := entry.waitlistValid ++ waiters }),
        .ok true)

/-- `kvstxn_load_cb`. It asserts that the load stalls. -/
def kvstxnLoadCb (sendFails : Blobref → Option Errno) (k : TxnId) (ref : Blobref) :
    Option (Leader × Option Errno) :=
  match s.load sendFails [k] ref with
  | (s, .error e) => some (s, some e)
  | (s, .ok true) => some (s.addWait k ref, none)
  | (_, .ok false) => none

/-- `kvstxn_cache_cb`: flush an entry that the transaction has made dirty. -/
def kvstxnCacheCb (sendFails : Blobref → Option Errno) (k : TxnId) (ref : Blobref) :
    Option (Leader × Option Errno) :=
  match s.mem.cache ref with
  | some entry =>
    if entry.valid && entry.dirty then
      match sendFails ref with
      | some e =>
        (kvstxnCleanupDirtyCacheEntry .preFinished ref s.mem.cache).map fun cache =>
          (s.setCache cache, some e)
      | none =>
        some (({ s with stores := s.stores ++ [(ref, entry.data)] }.setCache
          (s.mem.cache.set ref { entry with
            waitlistNotdirty := entry.waitlistNotdirty ++ [k], dirtiedBy := none })).addWait
              k ref, none)
    else none
  | none => none

/-- `cleanup_dirty_cache_list` from `kvstxn_iter_dirty_cache_entries`. -/
def cleanup (refs : List Blobref) : Option Leader :=
  (cleanupDirtyCacheList .preFinished refs s.mem.cache).map fun cache => s.setCache cache

/-! ### `kvstxn_apply` -/

/-- Where `kvstxn_apply` gets to: it stalls, or it is done, with an error or with a new
root to publish. -/
inductive Applied
  | stall (s : Leader)
  | done (s : Leader) (kt : Kvstxn ℕ) (errnum : Option Errno)

/-- The part of `kvstxn_apply` after an iterator has run: stall if something is in flight,
and else be done with the error. -/
def afterIter (s : Leader) (kt : Kvstxn ℕ) : Option Errno → Option Applied
  | none => if (s.waiters.queues kt.id).isEmpty then none else some (.stall (s.setTxn kt))
  | some e =>
    if (s.waiters.queues kt.id).isEmpty then some (.done (s.setTxn kt) kt (some e))
    else some (.stall (s.setTxn { kt with auxErrnum := some e }))

/-- `kvstxn_apply` up to its label `done` or `stall`. -/
def applyProcess (sendFails : Blobref → Option Errno) (k : TxnId) : Option Applied :=
  (s.roots k.ns).bind fun root =>
    (s.findTxn k).bind fun kt =>
      if root.remove then some (.done s kt (some .ENOTSUP))
      else
        match kt.auxErrnum with
        | some e => some (.done s kt (some e))
        | none =>
          (kvstxnProcess cfg.codec k.ns cfg.stack cfg.depth s.epoch root.ref ⟨kt, s.mem⟩).bind
            fun r =>
              let s := { s with mem := r.1.mem }
              match r.2 with
              | .error => some (.done (s.setTxn r.1.kt) r.1.kt r.1.kt.errnum)
              | .finished => some (.done (s.setTxn r.1.kt) r.1.kt none)
              | .loadMissingRefs =>
                (kvstxnIterMissingRefs (fun ref s => kvstxnLoadCb s sendFails k ref) r.1.kt
                  s).bind fun i => afterIter i.2.1 i.1 i.2.2
              | .dirtyCacheEntries =>
                (kvstxnIterDirtyCacheEntries (fun ref s => kvstxnCacheCb s sendFails k ref)
                  (fun refs s => cleanup s refs) r.1.kt s).bind fun i =>
                    afterIter i.2.1 i.1 i.2.2

/-- `setroot_event_send`: the event carries the root directory, which is asserted to be in
the cache. -/
def setrootEventSend (ns : String) (root : Kvsroot) : Option Leader :=
  let cache := cacheLookup s.mem.cache root.ref s.epoch
  ((cache root.ref).bind (cacheEntryGetTreeobj cfg.codec)).map fun rootdir =>
    { s.setCache cache with
      events := s.events ++ [⟨ns, root.seq, root.ref, rootdir⟩] }

/-- The rest of `kvstxn_apply`: publish the new root, or report the error, and remove the
transaction from the ready queue. -/
def applyDone (s : Leader) (kt : Kvstxn ℕ) (errnum : Option Errno) : Option Leader :=
  (s.roots kt.id.ns).bind fun root =>
    match errnum with
    | none =>
      let root' := { root with toRoot := setroot root.toRoot kt.newroot (root.seq + 1) }
      let s := { s with published :=
        ⟨kt.id.ns, kt.rootcpyRef, root.ref, kt.newroot, root.seq + 1, kt.members⟩ ::
          s.published }
      (setrootEventSend cfg s kt.id.ns root').map fun s =>
        s.setRoot kt.id.ns
          { root' with ready := kvstxnMgrRemoveTransaction root'.ready kt false }
    | some e =>
      some (s.setRoot kt.id.ns
        { root with ready := kvstxnMgrRemoveTransaction root.ready kt (kvstxnFallback kt e) })

/-- `kvstxn_apply`, and the waiters that it has released. -/
def kvstxnApply (sendFails : Blobref → Option Errno) (k : TxnId) : Option Leader :=
  (applyProcess cfg s sendFails k).bind fun a =>
    match a with
    | .stall s => some s.runWoken
    | .done s kt errnum => (applyDone cfg s kt errnum).map runWoken

/-- The head of the ready queue that `kvstxn_check_root_cb` works on, after merging. -/
def checkRoot (ns : String) : Option (Leader × TxnId) :=
  (s.roots ns).bind fun root =>
    (kvstxnMgrGetReadyTransaction root.ready).bind fun r =>
      let ready :=
        if cfg.transactionMerge then kvstxnMgrMergeReadyTransactions ⟨ns, s.nextTxn⟩ r.1 else r.1
      (kvstxnMgrGetReadyTransaction ready).map fun r =>
        ({ s.setRoot ns { root with ready := r.1 } with nextTxn := s.nextTxn + 1 }, r.2.id)

/-! ### Completions, the heartbeat, events -/

/-- `content_load_cache_entry_error`: the waiters learn of the error and the entry is
removed. -/
def contentLoadCacheEntryError (cache : Cache) (ref : Blobref) (entry : CacheEntry)
    (errnum : Errno) : Leader :=
  let s := s.setAuxErrnum entry.waitlistValid errnum
  let cache := cache.set ref { entry with waitlistValid := [] }
  (s.setCache (cacheRemoveEntry cache ref).1).runWaiters (entry.waitlistValid.map (ref, ·))

/-- `content_load_completion`. A load that succeeds brings what the content store holds. -/
def contentLoadCompletion (ref : Blobref) (errnum : Option Errno) : Option Leader :=
  if ref ∈ s.loads then
    let s := { s with loads := s.loads.erase ref }
    let cache := cacheLookup s.mem.cache ref s.epoch
    match cache ref, errnum with
    | none, _ => some s
    | some entry, some e => some (s.contentLoadCacheEntryError cache ref entry e)
    | some entry, none =>
      (s.content ref).map fun data =>
        if entry.valid then
          if entry.data = data then s.setCache cache
          else s.contentLoadCacheEntryError cache ref entry .EBADE
        else
          let (entry, waiters) := cacheEntrySetRaw entry data
          (s.setCache (cache.set ref entry)).runWaiters (waiters.map (ref, ·))
  else none

/-- `content_store_completion`. -/
def contentStoreCompletion (ref : Blobref) (errnum : Option Errno) : Option Leader :=
  match s.stores.find? (·.1 = ref) with
  | none => none
  | some (_, data) =>
    let s := { s with stores := s.stores.eraseP (·.1 = ref) }
    let s := if errnum.isNone then
        { s with content := fun r => if r = ref then some data else s.content r }
      else s
    let cache := cacheLookup s.mem.cache ref s.epoch
    match cache ref, errnum with
    | none, _ => some s
    | some entry, none =>
      let (entry, waiters) := cacheEntrySetNotdirty entry
      some ((s.setCache (cache.set ref entry)).runWaiters (waiters.map (ref, ·)))
    | some entry, some e =>
      let s := s.setAuxErrnum entry.waitlistNotdirty e
      let cache := cache.set ref
        (cacheEntryForceClearDirty { entry with waitlistNotdirty := [] })
      some ((s.setCache (cacheRemoveEntry cache ref).1).runWaiters
        (entry.waitlistNotdirty.map (ref, ·)))

/-- `heartbeat_cb`: the roots are touched and old entries expire. -/
def heartbeat (epoch : ℕ) : Leader :=
  let cache := s.namespaces.foldl (fun cache ns =>
    match s.roots ns with
    | some root => if root.remove then cache else cacheLookup cache root.ref epoch
    | none => cache) s.mem.cache
  { s.setCache (cacheExpireEntries cache epoch 5) with epoch := epoch }

/-- `dropcache_request_cb`. -/
def dropcache : Leader := s.setCache (cacheExpireEntries s.mem.cache s.epoch 0)

/-- `prime_cache_with_rootdir`. -/
def primeCacheWithRootdir (rootdir : Treeobj Empty) : Leader :=
  match rootdir with
  | .dir _ =>
    if rootdir.validate then
      let data := cfg.codec.jsonDumps rootdir
      let ref := cfg.codec.blobrefHash data
      let cache := cacheLookup s.mem.cache ref s.epoch
      match cache ref with
      | some _ => s.setCache cache
      | none => s.setCache (cache.set ref { data := data, valid := true })
    else s
  | _ => s

/-- `setroot_event_cb`, for an event that rank 0 has sent. -/
def setrootEventCb (ev : SetrootEvent) : Leader :=
  match s.roots ev.ns with
  | none => s
  | some root =>
    if root.remove then s
    else
      (primeCacheWithRootdir cfg s ev.rootdir).setRoot ev.ns
        { root with toRoot := setroot root.toRoot ev.rootref ev.rootseq }

/-- The root directory of a new namespace. -/
def emptyRoot (c : Codec) : Bytes := c.jsonDumps (.dir .nil)

/-- `namespace_create`. -/
def namespaceCreate (ns : String) : Option Leader :=
  match s.roots ns with
  | some _ => none
  | none =>
    some { s.setRoot ns { toRoot := setroot {} (cfg.codec.blobrefHash (emptyRoot cfg.codec)) 0 }
           with namespaces := ns :: s.namespaces }

/-- `start_root_remove`. -/
def startRootRemove (ns : String) : Option Leader :=
  (s.roots ns).map fun root => s.setRoot ns { root with remove := true }

/-! ### The machine -/

/-- What can happen on rank 0. -/
inductive Label
  | addTransaction (ns name : String) (ops : List (Option (Op Empty))) (flags : ℕ)
  | check (ns : String) (sendFails : Blobref → Option Errno)
  | run (k : TxnId) (sendFails : Blobref → Option Errno)
  | lookup (ref : Blobref) (sendFails : Blobref → Option Errno)
  | contentLoad (ref : Blobref) (errnum : Option Errno)
  | contentStore (ref : Blobref) (errnum : Option Errno)
  | heartbeat (epoch : ℕ)
  | dropcache
  | setrootEvent
  | namespaceCreate (ns : String)
  | namespaceRemove (ns : String)

/-- The call of `kvstxn_apply` that a step makes, if it makes one. -/
def call (l : Label) : Option (Leader × TxnId × (Blobref → Option Errno)) :=
  match l with
  | .check ns sendFails => (checkRoot cfg s ns).map fun r => (r.1, r.2, sendFails)
  | .run k sendFails =>
    if k ∈ s.waiters.runnable then
      some ({ s with waiters := s.waiters.start k }, k, sendFails)
    else none
  | _ => none

/-- The machine. -/
def machine : Machine Leader Label where
  step
    | .addTransaction ns name ops flags, s => s.addTransaction ns name ops flags
    | .check ns sendFails, s =>
      (call cfg s (.check ns sendFails)).bind fun r => kvstxnApply cfg r.1 r.2.2 r.2.1
    | .run k sendFails, s =>
      (call cfg s (.run k sendFails)).bind fun r => kvstxnApply cfg r.1 r.2.2 r.2.1
    | .lookup ref sendFails, s => some (s.load sendFails [] ref).1
    | .contentLoad ref errnum, s => s.contentLoadCompletion ref errnum
    | .contentStore ref errnum, s => s.contentStoreCompletion ref errnum
    | .heartbeat epoch, s => if s.epoch < epoch then some (s.heartbeat epoch) else none
    | .dropcache, s => some s.dropcache
    | .setrootEvent, s =>
      match s.events with
      | ev :: events => some (setrootEventCb cfg { s with events := events } ev)
      | [] => none
    | .namespaceCreate ns, s => namespaceCreate cfg s ns
    | .namespaceRemove ns, s => s.startRootRemove ns

/-- `mod_main` on rank 0: the empty root directory is in the cache and in the content
store, and the primary namespace is created with it. -/
def initial (content : Blobref → Option Bytes) : Leader :=
  let data := emptyRoot cfg.codec
  let ref := cfg.codec.blobrefHash data
  { mem := { cache := Cache.set (fun _ => none) ref { data := data, valid := true },
             objs := fun _ => .nil }
    content := fun r => if r = ref then some data else content r
    roots := fun n => if n = "primary" then some { toRoot := { ref := ref } } else none
    namespaces := ["primary"] }

/-- The states in which rank 0 starts: the content store may hold anything. -/
def Init (s : Leader) : Prop := ∃ content, s = initial cfg content

end Leader

end FluxCore.Kvs
