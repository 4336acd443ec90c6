import Mathlib.Data.List.Infix
import FluxCore.Broker.Topology
import FluxCore.Lib.Machine
import FluxCore.Util.Blobref

/-!
# Publishing Events

All events of an instance go through rank 0. A request `event.pub`, or an event that some rank
sends upstream, ends up with the publisher there, which gives it the next number and hands it
to `handle_event`. On every rank, `handle_event` drops events that have no topic or whose number
is not above the last one; the others it passes to the children that have checked in, to the
broker's own services, and to the modules on the rank with a subscription to the topic.

The instance is a machine whose steps are the requests, the events sent by modules, and the
handling of the oldest message on one of the links, in any order.
-/

namespace FluxCore.Broker.Events

/-- An event message. A message need not have a topic, nor a payload. -/
structure Event where
  topic : Option Bytes
  seq : ℕ := 0
  payload : Option Bytes := none
deriving DecidableEq

/-- The payload of an `event.pub` request. The event's payload is in base64. -/
structure PubRequest where
  topic : Bytes
  flags : UInt32 := 0
  payload : Option Bytes := none
deriving DecidableEq

/-- `FLUX_MSGFLAG_PRIVATE`. -/
def msgflagPrivate : UInt32 := 0x20

/-- A module on a rank. The list `inbox` has all events it has been sent, oldest first. -/
structure Module where
  uuid : ℕ
  subs : List Bytes := []
  inbox : List Event := []
deriving DecidableEq

/-- What `handle_event` writes to the log. -/
inductive Complaint
  | malformed
  | lostEvents (first last : ℕ)
  | lostEvent (first : ℕ)
deriving DecidableEq

/-- The state of a broker that events touch. The children are those that have checked in,
`requeued` has the events for the broker's own services, and `accepted` all that `handle_event`
has not dropped. -/
structure Ctx where
  eventRecvSeq : ℕ := 0
  children : List ℕ := []
  subscriptions : List Bytes := []
  requeued : List Event := []
  modules : List Module := []
  log : List Complaint := []
  accepted : List Event := []
deriving DecidableEq

/-! ### Handling an event on a rank -/

/-- `match_sub`: some subscription of the module is the beginning of the topic. -/
def matchSub (p : Module) (topic : Bytes) : Bool :=
  p.subs.any fun s => s.isPrefixOf topic

/-- `module_event_mcast`: send an event to each module with a matching subscription. -/
def moduleEventMcast (modules : List Module) (topic : Bytes) (event : Event) : List Module :=
  modules.map fun p => if matchSub p topic then { p with inbox := p.inbox ++ [event] } else p

/-- The complaint about the numbers between the last event and this one. The last number is an
`int`, and so is the count of those that are missing. -/
def lost (recvSeq seq : ℕ) : List Complaint :=
  if 0 < recvSeq ∧ recvSeq < 2 ^ 31 then
    let first := recvSeq + 1
    let count := seq - first
    if count > 1 ∧ count < 2 ^ 31 then [.lostEvents first (seq - 1)]
    else if count = 1 then [.lostEvent first]
    else []
  else []

/-- What `handle_event` does on its own rank with an event that it does not drop. -/
def Ctx.accept (b : Ctx) (topic : Bytes) (event : Event) : Ctx :=
  { b with
      eventRecvSeq := event.seq
      log := b.log ++ lost b.eventRecvSeq event.seq
      requeued :=
        if b.subscriptions.any fun s => s.isPrefixOf topic then b.requeued ++ [event]
        else b.requeued
      modules := moduleEventMcast b.modules topic event
      accepted := b.accepted ++ [event] }

/-- `overlay_checkin_child`. -/
def Ctx.checkinChild (b : Ctx) (rank : ℕ) : Ctx :=
  if rank ∈ b.children then b else { b with children := b.children ++ [rank] }

/-- `module_subscribe`. -/
def Ctx.moduleSubscribe (b : Ctx) (uuid : ℕ) (topic : Bytes) : Ctx :=
  { b with
      modules := b.modules.map fun p =>
        if p.uuid = uuid then { p with subs := topic :: p.subs } else p }

/-- `module_unsubscribe`. -/
def Ctx.moduleUnsubscribe (b : Ctx) (uuid : ℕ) (topic : Bytes) : Ctx :=
  { b with
      modules := b.modules.map fun p =>
        if p.uuid = uuid then { p with subs := p.subs.erase topic } else p }

/-! ### The brokers of an instance -/

/-- The state of an instance. The events on the link from its parent to a rank are `down`, and
the messages on the link to its parent are `up`, of which those that are not events are `none`.
The publisher on rank 0 has the number `seq`; it has sent the events `published`, of which
`sendFailures` have failed, and has answered `event.pub` requests. -/
structure Instance where
  ctx : ℕ → Ctx := fun _ => {}
  down : ℕ → List Event := fun _ => []
  up : ℕ → List (Option Event) := fun _ => []
  seq : ℕ := 0
  published : List Event := []
  sendFailures : ℕ := 0
  answers : List (Except Errno ℕ) := []

namespace Instance

/-- Change the broker of a rank. -/
def setCtx (s : Instance) (r : ℕ) (b : Ctx) : Instance :=
  { s with ctx := Function.update s.ctx r b }

/-- `overlay_mcast_child`: put an event on the links to the children that have checked in. -/
def mcastChild (s : Instance) (r : ℕ) (event : Event) : Instance :=
  { s with down := fun c => if c ∈ (s.ctx r).children then s.down c ++ [event] else s.down c }

/-- What `handle_event` does with an event that it does not drop. -/
def accept (s : Instance) (r : ℕ) (topic : Bytes) (event : Event) : Instance :=
  (s.mcastChild r event).setCtx r ((s.ctx r).accept topic event)

/-- `handle_event` on a rank: the state afterwards, and if the event was accepted. -/
def handleEvent (s : Instance) (r : ℕ) (event : Event) : Instance × Bool :=
  match event.topic with
  | none => (s.setCtx r { s.ctx r with log := (s.ctx r).log ++ [.malformed] }, false)
  | some topic =>
    if event.seq ≤ (s.ctx r).eventRecvSeq then (s, false)
    else (s.accept r topic event, true)

/-- `send_event`: the only sender is `handle_event` on rank 0, and its failure is logged. -/
def sendEvent (s : Instance) (event : Event) : Instance :=
  let res := handleEvent { s with published := s.published ++ [event] } 0 event
  if res.2 then res.1 else { res.1 with sendFailures := res.1.sendFailures + 1 }

/-- `publisher_send`: number a copy of an event, and send it. -/
def publisherSend (s : Instance) (event : Event) : Instance :=
  let seq := (s.seq + 1) % 2 ^ 32
  sendEvent { s with seq } { event with seq }

/-- `broker_event_sendmsg`: pass an event upstream, or to the publisher. -/
def eventSendmsg (s : Instance) (r : ℕ) (event : Event) : Instance :=
  if r > 0 then { s with up := Function.update s.up r (s.up r ++ [some event]) }
  else s.publisherSend event

end Instance

/-- What happens: a request `event.pub` is handled, which may not unpack; the broker or a module
on a rank sends an event; a rank sends another message to its parent, as a keepalive; the parent
of a rank handles the oldest message from it; a rank handles the oldest event from its parent;
modules are loaded and removed, and subscribe and unsubscribe, as do the broker's services. -/
inductive Label
  | pub (req : Option PubRequest)
  | send (r : ℕ) (event : Event)
  | keepalive (r : ℕ)
  | child (r : ℕ)
  | parent (r : ℕ)
  | insmod (r uuid : ℕ)
  | rmmod (r uuid : ℕ)
  | subscribe (r uuid : ℕ) (topic : Bytes)
  | unsubscribe (r uuid : ℕ) (topic : Bytes)
  | brokerSubscribe (r : ℕ) (topic : Bytes)
  | brokerUnsubscribe (r : ℕ) (topic : Bytes)
deriving DecidableEq

section

variable (base64 : Bytes → Option Bytes)

/-- `encode_event`. -/
def encodeEvent (topic : Bytes) (seq : ℕ) (src : Option Bytes) : Except Errno Event :=
  match src with
  | none => .ok { topic := some topic, seq }
  | some src =>
    match base64 src with
    | none => .error .EPROTO
    | some dst => .ok { topic := some topic, seq, payload := some dst }

/-- `pub_cb`: the number is taken before the event is encoded, and given back on failure. -/
def Instance.pubCb (s : Instance) (req : Option PubRequest) : Instance :=
  match req with
  | none => { s with answers := s.answers ++ [.error .EPROTO] }
  | some req =>
    if req.flags &&& ~~~msgflagPrivate ≠ 0 then
      { s with answers := s.answers ++ [.error .EPROTO] }
    else
      let seq := (s.seq + 1) % 2 ^ 32
      match encodeEvent base64 req.topic seq req.payload with
      | .error e =>
        { s with seq := (seq + (2 ^ 32 - 1)) % 2 ^ 32, answers := s.answers ++ [.error e] }
      | .ok event =>
        let s := Instance.sendEvent { s with seq } event
        { s with answers := s.answers ++ [.ok s.seq] }

variable (top : Topology)

/-- The handling of the oldest message from a child, in `child_cb` of its parent: the child
checks in, and an event goes on. -/
def Instance.childCb (s : Instance) (r : ℕ) : Option Instance :=
  match s.up r with
  | [] => none
  | msg :: rest =>
    let q := top.parent r
    let s := { s with up := Function.update s.up r rest }
    let s := s.setCtx q ((s.ctx q).checkinChild r)
    some (msg.elim s (s.eventSendmsg q))

/-- The handling of the oldest event from the parent, in `parent_cb`. -/
def Instance.parentCb (s : Instance) (r : ℕ) : Option Instance :=
  match s.down r with
  | [] => none
  | event :: rest =>
    some (Instance.handleEvent { s with down := Function.update s.down r rest } r event).1

/-- The brokers of an instance as a machine. -/
def machine : Machine Instance Label where
  step l s :=
    match l with
    | .pub req => some (s.pubCb base64 req)
    | .send r event => if r < top.size then some (s.eventSendmsg r event) else none
    | .keepalive r =>
      if r ≠ 0 ∧ r < top.size then
        some { s with up := Function.update s.up r (s.up r ++ [none]) }
      else none
    | .child r => if r ≠ 0 ∧ r < top.size then s.childCb top r else none
    | .parent r => if r ≠ 0 ∧ r < top.size then s.parentCb r else none
    | .insmod r uuid =>
      if r < top.size ∧ ∀ p ∈ (s.ctx r).modules, p.uuid ≠ uuid then
        some (s.setCtx r
          { s.ctx r with modules := (s.ctx r).modules ++ [{ uuid }] })
      else none
    | .rmmod r uuid =>
      if r < top.size then
        some (s.setCtx r
          { s.ctx r with modules := (s.ctx r).modules.filter fun p => p.uuid ≠ uuid })
      else none
    | .subscribe r uuid topic =>
      if r < top.size then some (s.setCtx r ((s.ctx r).moduleSubscribe uuid topic))
      else none
    | .unsubscribe r uuid topic =>
      if r < top.size then some (s.setCtx r ((s.ctx r).moduleUnsubscribe uuid topic))
      else none
    | .brokerSubscribe r topic =>
      if r < top.size then
        some (s.setCtx r
          { s.ctx r with subscriptions := (s.ctx r).subscriptions ++ [topic] })
      else none
    | .brokerUnsubscribe r topic =>
      if r < top.size then
        some (s.setCtx r
          { s.ctx r with subscriptions := (s.ctx r).subscriptions.erase topic })
      else none

/-- The states an instance can reach from its start. -/
abbrev Reachable : Instance → Prop :=
  (machine base64 top).Reach (fun _ _ => True) (· = {})

end

end FluxCore.Broker.Events
