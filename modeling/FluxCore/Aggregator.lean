import FluxCore.Broker.Topology
import FluxCore.Lib.Buckets
import FluxCore.Lib.Machine
import FluxCore.Lib.Net
import FluxCore.Libidset

/-!
# The Aggregator Module

The functions of `modules/aggregator/aggregator.c`. A push brings entries for a key, each a set
of ids with a common value. The module of a rank gathers the entries of a key in an aggregate.
On a rank other than 0 the aggregate is forwarded to the parent, and forgotten: when it is
complete, when it has the count that a push asked for, when its timer fires, or at once if the
timeout is 0. On rank 0 a complete aggregate is written to the KVS (`aggregate_sink`); if that
fails it is tried again, and then given up.

On the way the entries are a JSON object with the encoded idsets for its keys. The codec of
idsets is a parameter, as is the check that the KVS makes of a key. The members of an object are
visited in any order.

All that the module keeps for a key it keeps in the aggregate, so the state of a rank is one
`Slot` for each key. A callback that runs for an aggregate that has been freed, or values that
are read after the references to them have been given away, make the slot faulted.
-/

namespace FluxCore.Aggregator

open Libidset (invalidId)

/-- A JSON value. Of values that are not numbers only equality matters. -/
inductive Value
  | integer (v : ℤ)
  | real (v : ℚ)
  | other (text : String)
deriving DecidableEq

/-- The number that `json_unpack` gives for the format `F`. -/
def Value.toReal : Value → Option ℚ
  | .integer v => some v
  | .real v => some v
  | .other _ => none

/-- `struct aggregate_entry`: ids with a common value. -/
abbrev Entry := Bucket ℕ Value

/-- `struct aggregate`. The address tells an aggregate from a later one with the same key. The
references to the values are `given` away when the entries are written to a JSON object. -/
structure Aggregate where
  addr : ℕ
  timeout : ℚ
  sinkRetries : ℤ := 2
  fwdCount : BitVec 32 := 0
  count : BitVec 32 := 0
  total : BitVec 32
  entries : List Entry := []
  summary : Option (Value × Value) := none
  given : Bool := false

/-- An `aggregator.push` request. -/
structure Push (κ : Type) where
  key : String
  total : ℤ
  entries : List (κ × Value)
  timeout : Option ℚ := none
  fwdCount : Option ℤ := none

/-- What the module keeps for a key: the aggregate, and the commits and retry timers that hold
a pointer to one. The requests `sent` upstream and the calls of `aggregate_sink` are those of
the present call. -/
structure Slot (κ : Type) where
  aggregate : Option Aggregate := none
  next : ℕ := 0
  commits : List ℕ := []
  retries : List ℕ := []
  aborts : ℕ := 0
  faulted : Bool := false
  sent : List (Push κ) := []
  sunk : List Aggregate := []

/-- The encoding of idsets as strings, here of a type `κ`: `idset_encode` and `idset_decode`.
Only valid ids are decoded. -/
structure IdsetCodec (κ : Type) where
  encode : Finset ℕ → κ
  decode : κ → Option (Finset ℕ)
  valid : ∀ {s ids}, decode s = some ids → ∀ id ∈ ids, id < invalidId
  decode_encode : ∀ {ids}, (∀ id ∈ ids, id < invalidId) → decode (encode ids) = some ids

/-! ### Aggregates -/

/-- `summarize_int`: the least and the greatest value. Nothing changes if the summary is one of
reals. -/
def summarizeInt (v : ℤ) : Option (Value × Value) → Option (Value × Value)
  | none => some (.integer v, .integer v)
  | some (.integer min, .integer max) =>
    some (.integer (if min > v then v else min), .integer (if max < v then v else max))
  | some summary => some summary

/-- `summarize_real`. -/
def summarizeReal (v : ℚ) : Option (Value × Value) → Option (Value × Value)
  | none => some (.real v, .real v)
  | some (least, greatest) =>
    match least.toReal, greatest.toReal with
    | some min, some max =>
      some (if min > v then .real v else least, if max < v then .real v else greatest)
    | _, _ => some (least, greatest)

/-- `aggregate_update_summary`. -/
def updateSummary (summary : Option (Value × Value)) : Value → Option (Value × Value)
  | .integer v => summarizeInt v summary
  | .real v => summarizeReal v summary
  | .other _ => summary

namespace Aggregate

variable {κ : Type} [DecidableEq κ] (codec : IdsetCodec κ) (rank : ℕ) (ag : Aggregate)

/-- `aggregate_entry_find`, and `aggregate_entry_add` if there is no entry for the value. The
summary is kept on rank 0 only. -/
def entryAdd (value : Value) : Aggregate :=
  if value ∈ ag.entries.map Bucket.value then ag
  else
    { ag with
      entries := ⟨∅, value⟩ :: ag.entries
      summary := if rank = 0 then updateSummary ag.summary value else ag.summary }

/-- How many ids there are for a value. -/
def idCount (value : Value) : ℕ :=
  ((ag.entries.find? (·.value = value)).map (·.ids.card)).getD 0

/-- `aggregate_push`: the result says if the idset could be decoded. -/
def push (value : Value) (ids : κ) : Aggregate × Bool :=
  let ag := ag.entryAdd rank value
  match codec.decode ids with
  | none => (ag, false)
  | some nids =>
    let count := ag.idCount value
    let ag := { ag with entries := Bucket.addIds value nids ag.entries }
    let added := BitVec.ofNat 32 (ag.idCount value) - BitVec.ofNat 32 count
    ({ ag with count := ag.count + added }, true)

/-- `aggregate_push_json`, with the members of the object in the order of the visit. -/
def pushJson : Aggregate → List (κ × Value) → Aggregate × Bool
  | ag, [] => (ag, true)
  | ag, (ids, value) :: members =>
    match ag.push codec rank value ids with
    | (ag, true) => ag.pushJson members
    | (ag, false) => (ag, false)

/-- The count at which an aggregate is forwarded is set by a push that gives one. -/
def setFwdCount (fwdCount : ℤ) : Aggregate :=
  if fwdCount > 0 then { ag with fwdCount := BitVec.ofInt 32 fwdCount } else ag

/-- `json_object_set`: a member is added to an object, or it takes the place of the one with
the same key. -/
def jsonObjectSet {α : Type} (o : List (κ × α)) (key : κ) (value : α) : List (κ × α) :=
  if key ∈ o.map Prod.fst then o.map fun p => if p.1 = key then (key, value) else p
  else o ++ [(key, value)]

/-- `aggregate_entries_tojson`. -/
def entriesTojson : List (κ × Value) :=
  ag.entries.foldl (fun o e => jsonObjectSet o (codec.encode e.ids) e.value) []

/-- The request of `aggregate_forward`. -/
def forward (key : String) : Push κ where
  key := key
  total := ag.total.toInt
  entries := ag.entriesTojson codec
  timeout := some ag.timeout

end Aggregate

/-! ### Callbacks -/

namespace Slot

variable {κ : Type} [DecidableEq κ] (codec : IdsetCodec κ) (txnPut : String → Bool)
variable (rank : ℕ) (key : String) (slot : Slot κ) (ag : Aggregate)

/-- `sink_retry`, and what follows when there are no retries left: the aggregate is aborted and
deleted. -/
def sinkRetry : Slot κ :=
  let ag := { ag with sinkRetries := ag.sinkRetries - 1 }
  if ag.sinkRetries ≤ 0 then { slot with aggregate := none, aborts := slot.aborts + 1 }
  else { slot with aggregate := some ag, retries := slot.retries ++ [ag.addr] }

/-- `aggregate_sink`. -/
def sink : Slot κ :=
  let slot := { slot with sunk := slot.sunk ++ [ag] }
  if key = "." then slot.sinkRetry ag
  else if ag.given then { slot with faulted := true }
  else
    let ag := { ag with given := true }
    if txnPut key then { slot with aggregate := some ag, commits := slot.commits ++ [ag.addr] }
    else slot.sinkRetry ag

/-- `sink_continuation`, for the aggregate with the given address. -/
def sinkContinuation (addr : ℕ) (ok : Bool) : Slot κ :=
  match slot.aggregate with
  | some ag =>
    if ag.addr ≠ addr then { slot with faulted := true }
    else if ok then { slot with aggregate := none }
    else slot.sinkRetry ag
  | none => { slot with faulted := true }

/-- `aggregate_sink_again`. -/
def sinkAgain (addr : ℕ) : Slot κ :=
  match slot.aggregate with
  | some ag => if ag.addr ≠ addr then { slot with faulted := true } else slot.sink txnPut key ag
  | none => { slot with faulted := true }

/-- `aggregate_flush`: rank 0 would fail its assertion. -/
def flush : Slot κ :=
  if rank = 0 then { slot with faulted := true }
  else { slot with aggregate := none, sent := slot.sent ++ [ag.forward codec key] }

/-- `timer_cb`. -/
def timerCb : Slot κ :=
  match slot.aggregate with
  | some ag => slot.flush codec rank key ag
  | none => slot

/-- The timeout of a push that does not give one. -/
def defaultTimeout : ℚ := 1 / 100

/-- The aggregate of the key, or a new one (`aggregator_new_aggregate`). -/
def lookup (total : ℤ) (timeout : ℚ) : Slot κ × Aggregate :=
  match slot.aggregate with
  | some ag => (slot, ag)
  | none =>
    ({ slot with next := slot.next + 1 },
      { addr := slot.next, timeout, total := BitVec.ofInt 32 total })

/-- What `push_cb` does when the entries have been added. -/
def pushed (timeout : ℚ) : Slot κ :=
  let slot := { slot with aggregate := some ag }
  if rank > 0 then
    if ag.count = ag.total ∨ ag.count = ag.fwdCount ∨ timeout = 0 then
      slot.flush codec rank key ag
    else slot
  else if ag.count = ag.total then slot.sink txnPut key ag
  else slot

/-- `push_cb`, with the members of the object of entries in the order of the visit. -/
def pushCb (msg : Push κ) (visit : List (κ × Value)) : Slot κ :=
  let timeout := msg.timeout.getD defaultTimeout
  let (slot, ag) := slot.lookup msg.total timeout
  let ag := ag.setFwdCount (msg.fwdCount.getD 0)
  if ag.given ∧ ¬ ag.entries.isEmpty ∧ ¬ visit.isEmpty then { slot with faulted := true }
  else
    match ag.pushJson codec rank visit with
    | (ag, true) => slot.pushed codec txnPut rank key ag timeout
    | (ag, false) => { slot with aggregate := some ag }

end Slot

/-! ### The modules of an instance -/

/-- The state of an instance: the modules of the ranks, the requests in flight, and the calls of
`aggregate_sink` so far, with rank and key. -/
structure Instance (κ : Type) where
  net : Net (String → Slot κ) (Push κ)
  sinks : List (ℕ × String × Aggregate) := []

/-- What happens: a request in flight is handled, the timer of an aggregate fires, a commit for
an aggregate ends, or the time for a retry comes. -/
inductive Label (κ : Type)
  | push (n : ℕ) (visit : List (κ × Value))
  | timer (i : ℕ) (key : String)
  | commit (i : ℕ) (key : String) (n : ℕ) (ok : Bool)
  | again (i : ℕ) (key : String) (n : ℕ)

variable {κ : Type} [DecidableEq κ] (codec : IdsetCodec κ) (txnPut : String → Bool)
variable (top : Broker.Topology)

/-- A slot between two callbacks. -/
def Slot.clear (slot : Slot κ) : Slot κ := { slot with sent := [], sunk := [] }

/-- The end of a callback on a rank: its requests go to the parent. -/
def finish (s : Instance κ) (net : Net (String → Slot κ) (Push κ)) (i : ℕ) (key : String)
    (slot : Slot κ) : Instance κ where
  net := net.act i (Function.update (net.node i) key slot.clear)
    (slot.sent.map fun msg => (top.parent i, msg))
  sinks := s.sinks ++ slot.sunk.map fun ag => (i, key, ag)

/-- The modules of an instance. -/
def modules : Machine (Instance κ) (Label κ) where
  step
    | .push n visit, s =>
      match s.net.flight[n]? with
      | some (i, msg) =>
        if i < top.size ∧ visit.isPerm msg.entries then
          some (finish top s (s.net.take n) i msg.key
            ((s.net.node i msg.key).pushCb codec txnPut i msg.key msg visit))
        else none
      | none => none
    | .timer i key, s =>
      if i < top.size ∧ i ≠ 0 ∧ (s.net.node i key).aggregate.isSome then
        some (finish top s s.net i key ((s.net.node i key).timerCb codec i key))
      else none
    | .commit i key n ok, s =>
      let slot := s.net.node i key
      match slot.commits[n]? with
      | some addr =>
        let slot := { slot with commits := slot.commits.eraseIdx n }
        if i < top.size then some (finish top s s.net i key (slot.sinkContinuation addr ok))
        else none
      | none => none
    | .again i key n, s =>
      let slot := s.net.node i key
      match slot.retries[n]? with
      | some addr =>
        let slot := { slot with retries := slot.retries.eraseIdx n }
        if i < top.size then some (finish top s s.net i key (slot.sinkAgain txnPut key addr))
        else none
      | none => none

/-- At first no module has an aggregate, and the pushes of the clients are on their way to the
ranks. -/
def Start (pushes : List (ℕ × Push κ)) (s : Instance κ) : Prop :=
  s = { net := ⟨fun _ _ => {}, pushes⟩ }

end FluxCore.Aggregator
