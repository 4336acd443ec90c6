import FluxCore.Util.Blobref

/-!
# The Content Cache of a Broker

A translation of `content-cache.c`: requests to load and to store blobs, the continuations of
the RPCs to the next level (the parent in the tree, or the backing store on rank 0), flushing,
dropping and purging.

An entry is an object with an address, since futures hold pointers to entries: the future of an
RPC names the address of its entry. Two things that a program cannot survive are faults: a
failed assertion, and the use of an entry after it was freed. Requests are values of any type
`ρ`; what they are answered is kept in the list `answers`. The list `removed` is a history of
the entries that were removed, each with the futures that were pending on it.

The order in which the hash of the entries is visited is an argument (`keys`), and so is the
error of a request that cannot be sent (`fail`). There is no lack of memory. The counter
`acct_valid` is only for statistics and is left out.
-/

namespace FluxCore.Broker.Content

/-- What stops the program. -/
inductive Fault
  | assertion
  | useAfterFree
deriving DecidableEq

/-- What a request is answered: the data of a blob, a blobref, an error, or nothing. -/
inductive Answer
  | data (d : Bytes)
  | blobref (r : Blobref)
  | error (e : Errno)
  | done
deriving DecidableEq

/-- `struct cache_entry`, with its address. -/
structure Entry (ρ : Type) where
  id : ℕ
  blobref : Blobref
  data : Bytes := []
  valid : Bool := false
  dirty : Bool := false
  loadPending : Bool := false
  storePending : Bool := false
  loadRequests : List ρ := []
  storeRequests : List ρ := []
  lastused : UInt32 := 0
deriving DecidableEq

/-- The RPCs of a cache. -/
inductive Call
  | load (blobref : Blobref)
  | store (data : Bytes)
deriving DecidableEq

/-- Is it an RPC to store a blob? -/
def Call.isStore : Call → Bool
  | .load _ => false
  | .store _ => true

/-- The future of an RPC, with the address of its entry. -/
structure Future where
  id : ℕ
  entry : ℕ
  call : Call
deriving DecidableEq

/-- A removed entry, and the futures that were pending on it. -/
structure Removal (ρ : Type) where
  entry : Entry ρ
  pending : List Future
deriving DecidableEq

/-- The limits of a cache, with their defaults. -/
structure Limits where
  blobSize : ℕ := 1048576 * 1024
  flushBatch : ℕ := 256
  purgeTargetEntries : ℕ := 1024 * 1024
  purgeTargetSize : UInt32 := 1024 * 1024 * 16
  purgeOldEntry : UInt32 := 5
  purgeLargeEntry : ℕ := 256
deriving DecidableEq

/-- `struct content_cache`. -/
structure Cache (ρ : Type) where
  rank : ℕ
  limits : Limits := {}
  backing : Bool := false
  entries : List (Entry ρ) := []
  futures : List Future := []
  flushRequests : List ρ := []
  answers : List (ρ × Answer) := []
  removed : List (Removal ρ) := []
  epoch : UInt32 := 0
  flushBatchCount : ℕ := 0
  acctSize : UInt32 := 0
  acctDirty : ℕ := 0
  next : ℕ := 0
deriving DecidableEq

namespace Cache

variable {ρ : Type} (c : Cache ρ)

/-! ### Entries -/

/-- Answer a request. -/
def respond (req : ρ) (a : Answer) : Cache ρ := { c with answers := c.answers ++ [(req, a)] }

/-- `respond_requests_raw`. -/
def respondRequests (reqs : List ρ) (a : Answer) : Cache ρ :=
  { c with answers := c.answers ++ reqs.map fun req => (req, a) }

/-- Change the entry at an address. -/
def modify (id : ℕ) (g : Entry ρ → Entry ρ) : Cache ρ :=
  { c with entries := c.entries.map fun e => if e.id = id then g e else e }

/-- `lookup_entry`. -/
def lookupEntry (blobref : Blobref) : Option (Entry ρ) :=
  c.entries.find? fun e => e.blobref = blobref

/-- `cache_entry_create`, at the next address. -/
def cacheEntryCreate (blobref : Blobref) : Entry ρ := { id := c.next, blobref := blobref }

/-- `insert_entry`, for a new entry. -/
def insertEntry (e : Entry ρ) : Cache ρ :=
  { c with entries := c.entries ++ [e], next := c.next + 1 }

/-- `cache_entry_fill`. -/
def cacheEntryFill (e : Entry ρ) (data : Bytes) : Except Fault (Entry ρ) :=
  if e.valid then .ok e
  else if e.data ≠ [] then .error .assertion
  else .ok { e with data := data }

/-- `remove_entry`. The hash frees the entry with `cache_entry_destroy`. -/
def removeEntry (e : Entry ρ) : Except Fault (Cache ρ) :=
  if e.loadRequests ≠ [] ∨ e.storeRequests ≠ [] then .error .assertion
  else .ok
    { c with
      entries := c.entries.filter fun e' => e'.blobref ≠ e.blobref
      removed := c.removed ++ [⟨e, c.futures.filter fun f => f.entry = e.id⟩]
      acctSize := if e.valid then c.acctSize - UInt32.ofNat e.data.length else c.acctSize
      acctDirty := if e.dirty then c.acctDirty - 1 else c.acctDirty }

/-- Send an RPC for an entry. -/
def sendRpc (e : Entry ρ) (call : Call) : Cache ρ :=
  { c with futures := c.futures ++ [⟨c.next, e.id, call⟩], next := c.next + 1 }

/-- The answer to an RPC has arrived. -/
def takeFuture (f : Future) : Cache ρ :=
  { c with futures := c.futures.filter fun f' => f'.id ≠ f.id }

/-- The answer to the RPC of a store has arrived. -/
def takeStore (f : Future) : Cache ρ :=
  { c.takeFuture f with flushBatchCount := c.flushBatchCount - 1 }

/-! ### Loading -/

/-- An error of the next level, as the cache reports it. -/
def loadErrno (e : Errno) : Errno := if e = .ENOSYS ∧ c.rank = 0 then .ENOENT else e

/-- `cache_load`. -/
def cacheLoad (e : Entry ρ) (fail : Option Errno) : Cache ρ × Option Errno :=
  if e.loadPending then (c, none)
  else
    match fail with
    | some errnum => (c, some (c.loadErrno errnum))
    | none =>
      ((c.sendRpc e (.load e.blobref)).modify e.id ({ · with loadPending := true }), none)

/-- `content_load_request`, for an entry that is not valid. -/
def loadMiss (req : ρ) (e : Entry ρ) (fail : Option Errno) : Cache ρ :=
  match c.cacheLoad e fail with
  | (c, some errnum) => c.respond req (.error errnum)
  | (c, none) => c.modify e.id fun e => { e with loadRequests := e.loadRequests ++ [req] }

/-- `content_load_request`. -/
def contentLoadRequest (req : ρ) (blobref : Blobref) (fail : Option Errno) : Cache ρ :=
  match c.lookupEntry blobref with
  | none =>
    if c.rank = 0 ∧ !c.backing then c.respond req (.error .ENOENT)
    else
      let e := c.cacheEntryCreate blobref
      (c.insertEntry e).loadMiss req e fail
  | some e =>
    if !e.valid then c.loadMiss req e fail
    else (c.modify e.id ({ · with lastused := c.epoch })).respond req (.data e.data)

/-- The entry of a load that has failed is removed. -/
def loadFailed (e : Entry ρ) (errnum : Errno) : Except Fault (Cache ρ) :=
  let c := c.modify e.id ({ · with loadPending := false, loadRequests := [] })
  (c.respondRequests e.loadRequests (.error errnum)).removeEntry
    { e with loadPending := false, loadRequests := [] }

/-- `cache_load_continuation`. -/
def cacheLoadContinuation (f : Future) (reply : Except Errno Bytes) : Except Fault (Cache ρ) :=
  match c.entries.find? fun e => e.id = f.entry with
  | none => .error .useAfterFree
  | some e =>
    let c := c.takeFuture f
    match reply with
    | .error errnum => c.loadFailed e (c.loadErrno errnum)
    | .ok data =>
      match cacheEntryFill e data with
      | .error fault => .error fault
      | .ok e' =>
        let c :=
          { c with
            acctSize := if e.valid then c.acctSize else c.acctSize + UInt32.ofNat data.length }
        let c := c.modify e.id fun e =>
          { e with
            data := e'.data, valid := true, loadPending := false, loadRequests := []
            lastused := c.epoch }
        .ok (c.respondRequests e.loadRequests (.data e'.data))

/-! ### Storing -/

/-- `cache_store`. -/
def cacheStore (e : Entry ρ) (fail : Option Errno) : Except Fault (Cache ρ × Option Errno) :=
  if !e.valid then .error .assertion
  else if e.storePending then .ok (c, none)
  else if c.rank = 0 ∧ c.limits.flushBatch ≤ c.flushBatchCount then .ok (c, none)
  else
    match fail with
    | some errnum => .ok (c, some errnum)
    | none =>
      let c := (c.sendRpc e (.store e.data)).modify e.id ({ · with storePending := true })
      .ok ({ c with flushBatchCount := c.flushBatchCount + 1 }, none)

/-- The difference of two counters, as 32 bit numbers. -/
def u32Sub (a b : ℕ) : ℕ := (a + (2 ^ 32 - b % 2 ^ 32)) % 2 ^ 32

/-- The loop of `cache_flush`, over the entries in the order of the hash. -/
def flushLoop (fail : Option Errno) :
    List Blobref → Cache ρ → Option Errno → Except Fault (Cache ρ × Option Errno)
  | [], c, rc => .ok (c, rc)
  | key :: keys, c, rc =>
    match c.lookupEntry key with
    | none => flushLoop fail keys c rc
    | some e =>
      if !e.dirty ∨ e.storePending then flushLoop fail keys c rc
      else
        match c.cacheStore e fail with
        | .error fault => .error fault
        | .ok (c, errnum) =>
          let rc := errnum.or rc
          if c.limits.flushBatch ≤ c.flushBatchCount then .ok (c, rc)
          else flushLoop fail keys c rc

/-- `cache_flush`. -/
def cacheFlush (keys : List Blobref) (fail : Option Errno) :
    Except Fault (Cache ρ × Option Errno) :=
  if u32Sub c.acctDirty c.flushBatchCount = 0 ∨ c.limits.flushBatch ≤ c.flushBatchCount then
    .ok (c, none)
  else flushLoop fail keys c none

/-- `flush_respond`. -/
def flushRespond : Cache ρ :=
  let a : Answer :=
    if c.acctDirty ≠ 0 then .error (if c.rank = 0 ∧ !c.backing then .ENOSYS else Errno.EIO) else .done
  { c.respondRequests c.flushRequests a with flushRequests := [] }

/-- `cache_store_continuation`, behind the responses. -/
def resumeFlush (keys : List Blobref) (fail : Option Errno) : Except Fault (Cache ρ) :=
  if c.acctDirty = 0 ∨ (c.rank = 0 ∧ !c.backing) then .ok c.flushRespond
  else if u32Sub c.acctDirty c.flushBatchCount > 0 ∧
      c.flushBatchCount ≤ c.limits.flushBatch / 2 then
    (c.cacheFlush keys fail).map Prod.fst
  else .ok c

/-- The entry of a store that has been acknowledged is clean. -/
def storeAcked (e : Entry ρ) : Cache ρ :=
  let c := c.modify e.id ({ · with dirty := false, storePending := false, storeRequests := [] })
  { c with acctDirty := if e.dirty then c.acctDirty - 1 else c.acctDirty }.respondRequests
    e.storeRequests (.blobref e.blobref)

/-- A store that has failed leaves the entry as it is. -/
def storeFailed (e : Entry ρ) (errnum : Errno) : Cache ρ :=
  (c.modify e.id ({ · with storePending := false, storeRequests := [] })).respondRequests
    e.storeRequests (.error errnum)

/-- `cache_store_continuation`. -/
def cacheStoreContinuation (f : Future) (reply : Except Errno Blobref) (keys : List Blobref)
    (fail : Option Errno) : Except Fault (Cache ρ) :=
  match c.entries.find? fun e => e.id = f.entry with
  | none => .error .useAfterFree
  | some e =>
    if c.flushBatchCount = 0 then .error .assertion
    else
      let c := c.takeStore f
      match reply with
      | .error errnum => (c.storeFailed e errnum).resumeFlush keys fail
      | .ok blobref =>
        if blobref ≠ e.blobref then (c.storeFailed e Errno.EIO).resumeFlush keys fail
        else (c.storeAcked e).resumeFlush keys fail

/-- `content_store_request`, for an entry that is not valid: it is filled, and it is dirty. -/
def storeFill (e : Entry ρ) (data : Bytes) : Except Fault (Cache ρ × Entry ρ) :=
  if e.valid then .ok (c, e)
  else
    match cacheEntryFill e data with
    | .error fault => .error fault
    | .ok e' =>
      let e' := { e' with valid := true, loadRequests := [], dirty := true }
      let c :=
        { c.modify e.id fun _ => e' with
          acctSize := c.acctSize + UInt32.ofNat data.length
          acctDirty := if e.dirty then c.acctDirty else c.acctDirty + 1 }
      .ok (c.respondRequests e.loadRequests (.data e'.data), e')

/-- `content_store_request`, for an entry that is valid: write-through to the next level, but
write-back on rank 0. -/
def storeValid (req : ρ) (e : Entry ρ) (fail : Option Errno) : Except Fault (Cache ρ) :=
  let c := c.modify e.id ({ · with lastused := c.epoch })
  if e.dirty then
    if 0 < c.rank ∨ c.backing then
      match c.cacheStore e fail with
      | .error fault => .error fault
      | .ok (c, some errnum) => .ok (c.respond req (.error errnum))
      | .ok (c, none) =>
        if 0 < c.rank then
          .ok (c.modify e.id fun e => { e with storeRequests := e.storeRequests ++ [req] })
        else .ok (c.respond req (.blobref e.blobref))
    else .ok (c.respond req (.blobref e.blobref))
  else if c.rank = 0 ∧ !c.backing then
    .ok ({ c.modify e.id ({ · with dirty := true }) with
      acctDirty := c.acctDirty + 1 }.respond req (.blobref e.blobref))
  else .ok (c.respond req (.blobref e.blobref))

/-- The entry of a blobref: if there is none, a new one is inserted. -/
def lookupOrInsert (blobref : Blobref) : Cache ρ × Entry ρ :=
  match c.lookupEntry blobref with
  | some e => (c, e)
  | none => (c.insertEntry (c.cacheEntryCreate blobref), c.cacheEntryCreate blobref)

/-- `content_store_request`. -/
def contentStoreRequest (hash : Bytes → Blobref) (req : ρ) (data : Bytes)
    (fail : Option Errno) : Except Fault (Cache ρ) :=
  if c.limits.blobSize < data.length then .ok (c.respond req (.error .EFBIG))
  else
    let (c, e) := c.lookupOrInsert (hash data)
    match c.storeFill e data with
    | .error fault => .error fault
    | .ok (c, e) => c.storeValid req e fail

/-! ### Other requests -/

/-- `content_flush_request`. -/
def contentFlushRequest (req : ρ) (keys : List Blobref) (fail : Option Errno) :
    Except Fault (Cache ρ) :=
  if c.acctDirty = 0 then .ok (c.respond req .done)
  else
    match c.cacheFlush keys fail with
    | .error fault => .error fault
    | .ok (c, some errnum) => .ok (c.respond req (.error errnum))
    | .ok (c, none) =>
      if 0 < c.acctDirty then .ok { c with flushRequests := c.flushRequests ++ [req] }
      else .ok (c.respond req .done)

/-- `content_backing_request`. -/
def contentBackingRequest (req : ρ) (backing : Bool) (keys : List Blobref)
    (fail : Option Errno) : Except Fault (Cache ρ) :=
  if c.rank ≠ 0 then .ok (c.respond req (.error .EINVAL))
  else if !c.backing ∧ backing then
    match { c with backing := true }.cacheFlush keys fail with
    | .error fault => .error fault
    | .ok (c, _) => .ok (c.respond req .done)
  else if c.backing ∧ !backing then .ok ({ c with backing := false }.respond req .done)
  else .ok (c.respond req .done)

/-- Remove the entries with the given keys, if they pass a test. -/
def removeAll (test : Entry ρ → Bool) : List Blobref → Cache ρ → Except Fault (Cache ρ)
  | [], c => .ok c
  | key :: keys, c =>
    match c.lookupEntry key with
    | none => removeAll test keys c
    | some e =>
      if test e then
        match c.removeEntry e with
        | .error fault => .error fault
        | .ok c => removeAll test keys c
      else removeAll test keys c

/-- `content_dropcache_request`. -/
def contentDropcacheRequest (req : ρ) : Except Fault (Cache ρ) :=
  match removeAll (fun e => e.valid && !e.dirty) (c.entries.map Entry.blobref) c with
  | .error fault => .error fault
  | .ok c => .ok (c.respond req .done)

/-- The first loop of `cache_purge`: the entries to remove, with the size and the number of
entries that would be left. -/
def purgeLoop (c : Cache ρ) : List Blobref → UInt32 → ℕ → List Blobref
  | [], _, _ => []
  | key :: keys, afterSize, afterEntries =>
    if afterSize ≤ c.limits.purgeTargetSize ∧ afterEntries ≤ c.limits.purgeTargetEntries then
      []
    else
      match c.lookupEntry key with
      | none => purgeLoop c keys afterSize afterEntries
      | some e =>
        if !e.valid ∨ e.dirty ∨ c.epoch - e.lastused < c.limits.purgeOldEntry ∨
            (afterEntries ≤ c.limits.purgeTargetEntries ∧
              e.data.length < c.limits.purgeLargeEntry) then
          purgeLoop c keys afterSize afterEntries
        else
          key :: purgeLoop c keys (afterSize - UInt32.ofNat e.data.length) (afterEntries - 1)

/-- `cache_purge`. -/
def cachePurge (keys : List Blobref) : Except Fault (Cache ρ) :=
  if c.acctDirty = c.entries.length then .ok c
  else removeAll (fun _ => true) (c.purgeLoop keys c.acctSize c.entries.length) c

/-- `heartbeat_event`. -/
def heartbeatEvent (epoch : UInt32) (keys : List Blobref) : Except Fault (Cache ρ) :=
  { c with epoch := epoch }.cachePurge keys

end Cache

end FluxCore.Broker.Content
