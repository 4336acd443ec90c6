import FluxCore.Broker.ContentCache.Removal
import FluxCore.Broker.Topology

/-!
# The Content Caches of a Tree of Brokers

The caches of all brokers of an instance, as one machine. The cache of a rank sends its RPCs to
the cache of its parent, and that of rank 0 to the backing store. Messages are handled, and
answers are delivered, in any order; no message is lost.

A store that has been acknowledged is to stay loadable: the blob is in the cache of rank 0, or
in the backing store. Two races break this. A load of the blob may be in flight when the blob
is stored: its failure then removes the stored blob, or is the answer to a load that was sent
later. And a rank may serve a load of a rank below from an entry that is still dirty: below,
the blob counts as stored.
-/

namespace FluxCore.Broker.Content

/-- Who has sent a request: a client, or the cache of a rank, with the future of the RPC. For
the load of a client, `late` says if a store of the blob had been acknowledged before. -/
inductive Req
  | client (n : ℕ) (late : Bool)
  | rpc (rank : ℕ) (f : Future)
deriving DecidableEq

/-- The state of an instance. The backing store holds the blobs `held` and has given the
answers `backAnswers`. The lists `handled` and `delivered` are the RPCs that have been handled
by the next level, and those of which the answer has come back. -/
structure Tree where
  caches : ℕ → Cache Req
  held : Blobref → Option Bytes
  backAnswers : List (Req × Answer) := []
  handled : List (ℕ × Future) := []
  delivered : List (ℕ × Future) := []

/-- What happens in an instance: the messages of clients to a rank, the heartbeat on a rank, an
RPC of a rank is handled, and the answer to it is delivered. -/
inductive Event
  | load (i n : ℕ) (blobref : Blobref)
  | store (i n : ℕ) (data : Bytes)
  | flush (i n : ℕ) (keys : List Blobref)
  | backing (i n : ℕ) (keys : List Blobref)
  | dropcache (i n : ℕ)
  | heartbeat (i : ℕ) (epoch : UInt32) (keys : List Blobref)
  | forward (i : ℕ) (f : Future) (refuse : Option Errno)
  | reply (i : ℕ) (f : Future) (keys : List Blobref)

/-- The answer to an RPC that loads a blob. -/
def Answer.toLoad : Answer → Except Errno Bytes
  | .data d => .ok d
  | .error e => .error e
  | _ => .error .EPROTO

/-- The answer to an RPC that stores a blob. -/
def Answer.toStore : Answer → Except Errno Blobref
  | .blobref r => .ok r
  | .error e => .error e
  | _ => .error .EPROTO

variable (top : Topology) (hash : Bytes → Blobref)

namespace Tree

variable (t : Tree)

/-- A store of the blob has been answered with success on some rank. -/
def Acked (r : Blobref) : Prop :=
  ∃ i < top.size, ∃ p ∈ (t.caches i).answers, p.2 = .blobref r

instance (r : Blobref) : Decidable (t.Acked top r) := by
  unfold Acked
  infer_instance

/-- The cache of a rank is replaced. -/
def set (i : ℕ) (c : Cache Req) : Tree := { t with caches := Function.update t.caches i c }

/-- A handler runs on a rank. -/
def run (i : ℕ) (handler : Cache Req → Except Fault (Cache Req)) : Except Fault Tree :=
  (handler (t.caches i)).map (t.set i)

/-- The answers to the RPCs of a rank are given by its parent, or by the backing store. -/
def replies (i : ℕ) : List (Req × Answer) :=
  if i = 0 then t.backAnswers else (t.caches (top.parent i)).answers

/-- The backing store answers. -/
def answerBack (f : Future) (a : Answer) : Tree :=
  { t with backAnswers := t.backAnswers ++ [(.rpc 0 f, a)] }

/-- The backing store keeps a blob. -/
def hold (d : Bytes) : Tree := { t with held := Function.update t.held (hash d) (some d) }

/-- The backing store handles an RPC of rank 0. It does not lose what it has acknowledged, but
it may refuse to store a blob. Before it is enabled it does not exist. -/
def handleBack (f : Future) (refuse : Option Errno) : Tree :=
  if (t.caches 0).backing then
    match f.call with
    | .load r =>
      match t.held r with
      | some d => t.answerBack f (.data d)
      | none => t.answerBack f (.error .ENOENT)
    | .store d =>
      match refuse with
      | some e => t.answerBack f (.error e)
      | none => (t.hold hash d).answerBack f (.blobref (hash d))
  else t.answerBack f (.error .ENOSYS)

/-- The next level handles an RPC. -/
def forward (i : ℕ) (f : Future) (refuse : Option Errno) : Except Fault Tree :=
  if i = 0 then .ok (t.handleBack hash f refuse)
  else
    match f.call with
    | .load r => t.run (top.parent i) fun c => .ok (c.contentLoadRequest (.rpc i f) r none)
    | .store d => t.run (top.parent i) fun c => c.contentStoreRequest hash (.rpc i f) d none

/-- The continuation of an RPC runs, with the answer. -/
def continuation (i : ℕ) (f : Future) (a : Answer) (keys : List Blobref) : Except Fault Tree :=
  match f.call with
  | .load _ => t.run i fun c => c.cacheLoadContinuation f a.toLoad
  | .store _ => t.run i fun c => c.cacheStoreContinuation f a.toStore keys none

/-- The state after an event. -/
def handle : Event → Option (Except Fault Tree)
  | .load i n r =>
    onRank i fun c => .ok (c.contentLoadRequest (.client n (t.Acked top r)) r none)
  | .store i n data => onRank i fun c => c.contentStoreRequest hash (.client n false) data none
  | .flush i n keys => onRank i fun c => c.contentFlushRequest (.client n false) keys none
  | .backing i n keys =>
    onRank i fun c => c.contentBackingRequest (.client n false) true keys none
  | .dropcache i n => onRank i fun c => c.contentDropcacheRequest (.client n false)
  | .heartbeat i epoch keys => onRank i fun c => c.heartbeatEvent epoch keys
  | .forward i f refuse =>
    if i < top.size ∧ f ∈ (t.caches i).futures ∧ (i, f) ∉ t.handled then
      some ((t.forward top hash i f refuse).map fun t =>
        { t with handled := (i, f) :: t.handled })
    else none
  | .reply i f keys =>
    if i < top.size ∧ f ∈ (t.caches i).futures ∧ (i, f) ∉ t.delivered then
      ((t.replies top i).find? fun p => p.1 = .rpc i f).map fun p =>
        (t.continuation i f p.2 keys).map fun t =>
          { t with delivered := (i, f) :: t.delivered }
    else none
where
  /-- A message to a rank. -/
  onRank (i : ℕ) (handler : Cache Req → Except Fault (Cache Req)) : Option (Except Fault Tree) :=
    if i < top.size then some (t.run i handler) else none

/-! ### What is stored, and the races -/

/-- The blob is in the backing store. -/
def Held (r : Blobref) : Prop := (t.caches 0).backing = true ∧ ∃ d, t.held r = some d

/-- The blob is in the cache of rank 0 or in the backing store. -/
def Stored (r : Blobref) : Prop := (t.caches 0).Valid r ∨ t.Held r

/-- The failure of a load of the blob `r` is on its way to rank `i`. -/
def isFailure (r : Blobref) (i : ℕ) : Req × Answer → Bool
  | (.rpc j f, .error _) => j = i ∧ f.call = .load r ∧ (i, f) ∉ t.delivered
  | _ => false

/-- No failure of a load of the blob is on its way. -/
def NoFailure (r : Blobref) : Prop :=
  ∀ i < top.size, ∀ p ∈ t.replies top i, t.isFailure r i p = false

/-- A blob is stored on a rank: no load of it is in flight there, and if the store is
acknowledged at once, no failure of a load is on its way. -/
def MayStore (i : ℕ) (r : Blobref) : Prop :=
  (∀ e ∈ (t.caches i).entries, e.blobref = r → e.loadPending = false) ∧
    (i = 0 ∨ (t.caches i).Clean r → t.NoFailure top r)

/-- A blob is loaded by a rank below: it is not dirty, unless on rank 0. -/
def MayServe (i : ℕ) (r : Blobref) : Prop :=
  i = 0 ∨ ∀ e ∈ (t.caches i).entries, e.blobref = r → e.dirty = false

end Tree

/-- The condition for a step: it is none of the races. -/
def NoRace : Except Fault Tree → Event → Prop
  | .ok t, .store i _ data => t.MayStore top i (hash data)
  | .ok t, .forward i f _ =>
    i = 0 ∨ match f.call with
      | .load r => t.MayServe (top.parent i) r
      | .store d => t.MayStore top (top.parent i) (hash d)
  | _, _ => True

/-- The machine. After a fault there are no more steps. -/
def treeMachine : Machine (Except Fault Tree) Event where
  step l
    | .ok t => t.handle top hash l
    | .error _ => none

/-- In the beginning all caches are empty, and the backing store is not enabled. It may hold
blobs. -/
def TreeInitial (s : Except Fault Tree) : Prop :=
  ∃ (limits : ℕ → Limits) (held : Blobref → Option Bytes), (∀ r d, held r = some d → hash d = r) ∧
      s = .ok { caches := fun i => { rank := i, limits := limits i }, held := held }

end FluxCore.Broker.Content
