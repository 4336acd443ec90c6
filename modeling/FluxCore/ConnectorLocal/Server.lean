import Mathlib.Data.List.AList
import FluxCore.Broker.Route
import FluxCore.Lib.KeyedList
import FluxCore.Lib.Machine
import FluxCore.Util.Message

/-!
# The Local Connector as a Server

The module `connector-local/local.c` between its clients and the broker: the messages of a
client (`client_read_cb`), the responses, events and requests that the broker has for clients,
the subscriptions of clients, and the services that clients offer.

A message is what the module sees of it. A client object is known by its uuid, which is never
used twice, and its out-queue is the list of all messages that have been put on it; how they
are written to the socket is in `FluxCore.ConnectorLocal`. A `struct local_service` has an
address in `heap`, and the continuation of an RPC keeps the address: the state is `faulted`
once an object has been used after it was freed.

The order in which a hash table is visited is an argument of the step that visits it. The
broker does not fail, sends succeed, and so do allocations. The functions are called with
valid messages. `fnmatch` is a parameter.
-/

namespace FluxCore.ConnectorLocal.Server

open Broker

/-! ### Messages -/

/-- The bytes of an ASCII string. -/
def ascii (s : String) : Bytes := s.toList.map fun c => UInt8.ofNat c.toNat

/-- `FLUX_ROLE_NONE`. -/
def roleNone : UInt32 := 0

/-- `FLUX_ROLE_USER`. -/
def roleUser : UInt32 := 2

/-- The type of a message. -/
inductive MsgType
  | request
  | response
  | event
  | keepalive
deriving DecidableEq

/-- A message. The routes are `none` if they have not been enabled. The payload is an object:
its members with strings are listed. -/
structure Message where
  type : MsgType
  topic : Option Bytes := none
  userid : UInt32 := useridUnknown
  rolemask : UInt32 := roleNone
  isPrivate : Bool := false
  routes : Option (List RouteId) := none
  nodeid : ℕ := nodeidAny
  upstream : Bool := false
  matchtag : UInt32 := 0
  errnum : Option Errno := none
  payload : List (String × Bytes) := []
deriving DecidableEq

/-- A string of the payload, as `flux_request_unpack` with `{s:s}` finds it. -/
def Message.unpack (msg : Message) (key : String) : Except Errno Bytes :=
  match msg.payload.lookup key with
  | none => .error .EPROTO
  | some s => .ok s

/-- `flux_response_encode` and `flux_response_encode_error`. -/
def responseEncode (topic : Option Bytes) (errnum : Option Errno) : Message :=
  { type := .response, topic := topic, routes := some [], errnum := errnum }

/-- The message that `flux_respond` sends. -/
def deriveResponse (msg : Message) (errnum : Option Errno) : Message :=
  { msg with
    type := .response, userid := useridUnknown, rolemask := roleNone, errnum := errnum
    payload := [] }

/-! ### The state -/

/-- `client_t`. The topics of all calls of subscribe and of unsubscribe that have succeeded are
listed, and the requests that were sent to the client as a service and have not been
answered. -/
structure Client where
  uuid : ℕ
  userid : UInt32
  rolemask : UInt32
  disconnectNotify : List (Bytes × ℕ × Bool) := []
  subscriptions : AList (fun _ : Bytes => ℕ) := ∅
  outqueue : List Message := []
  subscribed : List Bytes := []
  unsubscribed : List Bytes := []
  unanswered : List Message := []

/-- `struct local_service`. The message handler is started when the broker has added the
service. -/
structure LocalService where
  name : Bytes
  client : ℕ
  started : Bool := false
deriving DecidableEq

/-- The continuation of an RPC, with its arguments: the address of the service, and the
request of the client. -/
inductive Continuation
  | serviceAdd (ls : ℕ) (msg : Message)
  | serviceRm (ls : ℕ) (msg : Message)
  | dereg
deriving DecidableEq

/-- `mod_local_ctx_t`, and what the module has outside: the subscriptions that it has made at
the broker, the messages that it has sent there, and the RPCs under way. -/
structure Ctx where
  clients : List Client := []
  subscriptions : AList (fun _ : Bytes => ℕ) := ∅
  services : AList (fun _ : Bytes => ℕ) := ∅
  heap : List (Option LocalService) := []
  brokerSubs : List Bytes := []
  sent : List Message := []
  pending : List Continuation := []
  used : List ℕ := []
  faulted : Bool := false

/-- The client with a uuid. -/
def Ctx.client? (s : Ctx) (uuid : ℕ) : Option Client := s.clients.find? (·.uuid = uuid)

/-- A client object is changed. -/
def Ctx.modify (s : Ctx) (uuid : ℕ) (f : Client → Client) : Ctx :=
  { s with clients := KeyedList.replace Client.uuid uuid f s.clients }

/-- `flux_send` on the handle of the module. -/
def Ctx.fluxSend (s : Ctx) (msg : Message) : Ctx := { s with sent := s.sent ++ [msg] }

/-- The request that `flux_rpc_pack` sends for a service. It has no credential. -/
def serviceRpc (topic name : Bytes) : Message :=
  { type := .request, topic := some topic, routes := some [], payload := [("service", name)] }

/-- `flux_rpc_pack` for a service, and `flux_future_then`. -/
def Ctx.rpc (s : Ctx) (topic name : Bytes) (k : Continuation) : Ctx :=
  { s.fluxSend (serviceRpc topic name) with pending := s.pending ++ [k] }

/-- A freed object is used. -/
def Ctx.fault (s : Ctx) : Ctx := { s with faulted := true }

/-! ### Output -/

/-- `client_send` and `client_send_nocopy`. -/
def Client.send (c : Client) (msg : Message) : Client :=
  { c with outqueue := c.outqueue ++ [msg] }

/-- The message of `client_respond`. -/
def clientResponse (msg : Message) (errnum : Option Errno) : Message :=
  { responseEncode msg.topic errnum with rolemask := roleOwner, matchtag := msg.matchtag }

/-- `client_respond`. -/
def clientRespond (s : Ctx) (uuid : ℕ) (msg : Message) (errnum : Option Errno) : Ctx :=
  s.modify uuid (·.send (clientResponse msg errnum))

/-- `allowed_message`. -/
def allowedMessage (c : Client) (msg : Message) : Bool :=
  if c.rolemask &&& roleOwner ≠ 0 then true
  else if !msg.isPrivate then true
  else if msg.userid = c.userid then true
  else false

/-! ### Subscriptions -/

/-- `global_subscribe`. -/
def globalSubscribe (s : Ctx) (topic : Bytes) : Ctx :=
  match s.subscriptions.lookup topic with
  | some usecount => { s with subscriptions := s.subscriptions.insert topic (usecount + 1) }
  | none =>
    { s with
      brokerSubs := topic :: s.brokerSubs
      subscriptions := s.subscriptions.insert topic 1 }

/-- `global_unsubscribe`. The last use removes the entry, and with it the subscription at the
broker. -/
def globalUnsubscribe (s : Ctx) (topic : Bytes) : Ctx :=
  match s.subscriptions.lookup topic with
  | none => s
  | some usecount =>
    if usecount - 1 = 0 then
      { s with
        brokerSubs := s.brokerSubs.erase topic
        subscriptions := s.subscriptions.erase topic }
    else { s with subscriptions := s.subscriptions.insert topic (usecount - 1) }

/-- The client with one more use of a topic. -/
def Client.use (c : Client) (topic : Bytes) (usecount : ℕ) : Client :=
  { c with
    subscriptions := c.subscriptions.insert topic usecount
    subscribed := topic :: c.subscribed }

/-- The client with one use of a topic less. -/
def Client.unuse (c : Client) (topic : Bytes) (usecount : ℕ) : Client :=
  { c with
    subscriptions :=
      if usecount = 0 then c.subscriptions.erase topic else c.subscriptions.insert topic usecount
    unsubscribed := topic :: c.unsubscribed }

/-- `client_subscribe`. -/
def clientSubscribe (s : Ctx) (c : Client) (topic : Bytes) : Ctx :=
  match c.subscriptions.lookup topic with
  | some usecount => s.modify c.uuid (·.use topic (usecount + 1))
  | none => (globalSubscribe s topic).modify c.uuid (·.use topic 1)

/-- `client_unsubscribe`. -/
def clientUnsubscribe (s : Ctx) (c : Client) (topic : Bytes) : Except Errno Ctx :=
  match c.subscriptions.lookup topic with
  | none => .error .ENOENT
  | some usecount =>
    let s' := s.modify c.uuid (·.unuse topic (usecount - 1))
    if usecount - 1 = 0 then .ok (globalUnsubscribe s' topic) else .ok s'

/-- `sub_request`. -/
def subRequest (s : Ctx) (c : Client) (msg : Message) (subscribe : Bool) : Except Errno Ctx :=
  match msg.unpack "topic" with
  | .error e => .error e
  | .ok topic => if subscribe then .ok (clientSubscribe s c topic) else clientUnsubscribe s c topic

/-- `client_is_subscribed`. -/
def clientIsSubscribed (c : Client) (topic : Bytes) : Bool :=
  (c.subscriptions.lookup topic).isSome || c.subscriptions.keys.any (·.isPrefixOf topic)

/-! ### Services -/

/-- The service at an address, if it has not been freed. -/
def Ctx.service? (s : Ctx) (ls : ℕ) : Option LocalService := (s.heap[ls]?).join

/-- `local_service_create`. The pattern of the message handler has to fit a buffer. -/
def localServiceCreate (s : Ctx) (c : Client) (name : Bytes) : Except Errno (ℕ × Ctx) :=
  if name.length + 2 ≥ 1024 then .error .EINVAL
  else
    .ok (s.heap.length, { s with heap := s.heap ++ [some { name := name, client := c.uuid }] })

/-- `local_service_add`. -/
def localServiceAdd (s : Ctx) (c : Client) (name : Bytes) : Except Errno (ℕ × Ctx) :=
  if (s.services.lookup name).isSome then .error .EEXIST
  else
    match localServiceCreate s c name with
    | .error e => .error e
    | .ok (ls, s) => .ok (ls, { s with services := s.services.insert name ls })

/-- A name is deleted from the table, which destroys the service. -/
def Ctx.deleteService (s : Ctx) (name : Bytes) : Ctx :=
  match s.services.lookup name with
  | none => s
  | some ls => { s with services := s.services.erase name, heap := s.heap.set ls none }

/-- `service_add_request`. -/
def serviceAddRequest (s : Ctx) (c : Client) (msg : Message) : Except Errno Ctx :=
  match msg.unpack "service" with
  | .error _ => .error .EPROTO
  | .ok name =>
    match localServiceAdd s c name with
    | .error e => .error e
    | .ok (ls, s) => .ok (s.rpc (ascii "service.add") name (.serviceAdd ls msg))

/-- `service_rm_request`. -/
def serviceRmRequest (s : Ctx) (c : Client) (msg : Message) : Except Errno Ctx :=
  match msg.unpack "service" with
  | .error _ => .error .EPROTO
  | .ok name =>
    match s.services.lookup name with
    | none => .error .ENOENT
    | some ls =>
      match s.service? ls with
      | none => .ok s.fault
      | some o =>
        if c.uuid ≠ o.client then .error .EPERM
        else .ok (s.rpc (ascii "service.remove") name (.serviceRm ls msg))

/-- `local_service_remove`, of a service that has not been freed. -/
def localServiceRemove (s : Ctx) (o : LocalService) : Ctx :=
  match s.client? o.client with
  | none => s.fault
  | some _ => s.deleteService o.name

/-- `local_service_start`. -/
def localServiceStart (s : Ctx) (ls : ℕ) (o : LocalService) : Ctx :=
  { s with heap := s.heap.set ls (some { o with started := true }) }

/-- The response at the end of a continuation, to a client that may have been freed. -/
def continuationRespond (s : Ctx) (uuid : ℕ) (msg : Message) (errnum : Option Errno) : Ctx :=
  match s.client? uuid with
  | none => s.fault
  | some _ => clientRespond s uuid msg errnum

/-- `service_add_continuation`. -/
def serviceAddContinuation (s : Ctx) (ls : ℕ) (msg : Message) (reply : Except Errno Unit) : Ctx :=
  match s.service? ls with
  | none => s.fault
  | some o =>
    match reply with
    | .error e => continuationRespond (localServiceRemove s o) o.client msg (some e)
    | .ok _ => continuationRespond (localServiceStart s ls o) o.client msg none

/-- `service_rm_continuation`. The comparison is inside the assignment to `rc`, which is never
negative: the client is always told that the service has been removed. -/
def serviceRmContinuation (s : Ctx) (ls : ℕ) (msg : Message) (reply : Except Errno Unit) : Ctx :=
  match s.service? ls with
  | none => s.fault
  | some o =>
    match reply with
    | .error _ => continuationRespond s o.client msg none
    | .ok _ => continuationRespond (localServiceRemove s o) o.client msg none

/-- A continuation is called with the reply to its RPC. -/
def Continuation.call (s : Ctx) (reply : Except Errno Unit) : Continuation → Ctx
  | serviceAdd ls msg => serviceAddContinuation s ls msg reply
  | serviceRm ls msg => serviceRmContinuation s ls msg reply
  | dereg => s

/-- `request_cb`. -/
def requestCb (s : Ctx) (uuid : ℕ) (msg : Message) : Ctx :=
  s.modify uuid fun c => { c.send msg with unanswered := msg :: c.unanswered }

/-! ### Messages of a client -/

/-- The part of `client_read_cb` that checks the credential of a message. -/
def checkCred (c : Client) (msg : Message) : Option Message :=
  let rolemask := if msg.rolemask = roleNone then c.rolemask else msg.rolemask
  let userid := if msg.userid = useridUnknown then c.userid else msg.userid
  if (userid ≠ c.userid ∨ rolemask ≠ c.rolemask) ∧ c.rolemask &&& roleOwner = 0 then none
  else some { msg with userid := userid, rolemask := rolemask }

/-- The end of a request that the module handles itself. -/
def doneRespond (s : Ctx) (c : Client) (msg : Message) : Except Errno Ctx → Ctx
  | .ok s' => clientRespond s' c.uuid msg none
  | .error e => clientRespond s c.uuid msg (some e)

/-- The end of a request that is answered by a continuation, unless it has failed. -/
def doneLater (s : Ctx) (c : Client) (msg : Message) : Except Errno Ctx → Ctx
  | .ok s' => s'
  | .error e => clientRespond s c.uuid msg (some e)

/-- `internal_request`, or `none` if the request is not for the module. -/
def internalRequest (s : Ctx) (c : Client) (msg : Message) : Option Ctx :=
  match msg.topic with
  | none => some s
  | some topic =>
    if topic = ascii "local.sub" then some (doneRespond s c msg (subRequest s c msg true))
    else if topic = ascii "local.unsub" then
      some (doneRespond s c msg (subRequest s c msg false))
    else if topic = ascii "service.add" then
      some (doneLater s c msg (serviceAddRequest s c msg))
    else if topic = ascii "service.remove" then
      some (doneLater s c msg (serviceRmRequest s c msg))
    else none

/-- `flux_msg_get_nodeid`. -/
def getNodeid (msg : Message) : Except Errno (ℕ × Bool) :=
  if (msg.upstream ∧ msg.nodeid = nodeidAny) ∨ msg.nodeid = nodeidUpstream then .error .EPROTO
  else .ok (msg.nodeid, msg.upstream)

/-- `disconnect_update`, with a key for each service, node id and flags. -/
def disconnectUpdate (s : Ctx) (c : Client) (msg : Message) : Except Errno Ctx :=
  match msg.topic, getNodeid msg with
  | none, _ => .error .EPROTO
  | _, .error e => .error e
  | some topic, .ok (nodeid, flags) =>
    .ok (s.modify c.uuid fun c =>
      { c with disconnectNotify := c.disconnectNotify.insert (subtopic topic, nodeid, flags) })

/-- A response of a client answers the request with its routes and matchtag. -/
def Message.answers (msg req : Message) : Bool :=
  msg.routes = req.routes ∧ msg.matchtag = req.matchtag

/-- The client has sent a response. -/
def Client.answer (c : Client) (msg : Message) : Client :=
  { c with unanswered := c.unanswered.filter fun req => !msg.answers req }

/-- `client_read_cb`, when a message has been read. -/
def clientReadCb (s : Ctx) (c : Client) (msg : Message) : Ctx :=
  match checkCred c msg with
  | none => if msg.type = .request then s.fluxSend (deriveResponse msg (some .EPERM)) else s
  | some msg =>
    match msg.type with
    | .request =>
      match internalRequest s c msg with
      | some s => s
      | none =>
        match disconnectUpdate s c msg with
        | .error _ => s
        | .ok s =>
          s.fluxSend
            { msg with routes := some (.uuid c.uuid :: msg.routes.getD []) }
    | .event => s.fluxSend msg
    | .response => (s.fluxSend msg).modify c.uuid (·.answer msg)
    | .keepalive => s

/-! ### Clients come and go -/

/-- `client_create`, of a client that has been authenticated. -/
def clientCreate (s : Ctx) (uuid : ℕ) (userid rolemask : UInt32) : Ctx :=
  { s with
    clients := s.clients ++ [{ uuid := uuid, userid := userid, rolemask := rolemask }]
    used := uuid :: s.used }

/-- The names of the services of a client. -/
def Ctx.serviceNames (s : Ctx) (uuid : ℕ) : List Bytes :=
  s.services.keys.filter fun name =>
    ((s.services.lookup name).bind s.service?).any (·.client = uuid)

/-- `deregister_service_noreply`, and then `local_service_remove`. -/
def deregisterService (s : Ctx) (name : Bytes) : Ctx :=
  (s.rpc (ascii "service.remove") name .dereg).deleteService name

/-- `client_deregister_services`. -/
def clientDeregisterServices (s : Ctx) (names : List Bytes) : Ctx :=
  names.foldl deregisterService s

/-- `disconnect_sendmsg`. -/
def disconnectSendmsg (uuid : ℕ) (s : Ctx) (d : Bytes × ℕ × Bool) : Ctx :=
  s.fluxSend
    { type := .request, topic := some (d.1 ++ ascii ".disconnect"), routes := some [.uuid uuid]
      nodeid := d.2.1, upstream := d.2.2 }

/-- `client_destroy`, and before it the removal from the list of clients. -/
def clientDestroy (s : Ctx) (c : Client) (topics names : List Bytes) : Ctx :=
  let s := clientDeregisterServices s names
  let s := c.disconnectNotify.foldl (disconnectSendmsg c.uuid) s
  let s := topics.foldl globalUnsubscribe s
  { s with clients := s.clients.filter (·.uuid ≠ c.uuid) }

/-! ### Messages of the broker -/

/-- `response_cb`. The message is sent before it is asked if it is allowed; the answer only
decides about a line in the log. -/
def responseCb (s : Ctx) (msg : Message) : Ctx :=
  match msg.routes with
  | some (.uuid uuid :: routes) =>
    match s.client? uuid with
    | some _ => s.modify uuid (·.send { msg with routes := some routes })
    | none => s
  | _ => s

/-- `event_cb`. -/
def eventCb (s : Ctx) (msg : Message) : Ctx :=
  match msg.topic with
  | none => s
  | some topic =>
    { s with
      clients := s.clients.map fun c =>
        if clientIsSubscribed c topic && allowedMessage c msg then c.send msg else c }

/-! ### The machine -/

/-- What happens: a client connects, or disconnects; a client has sent a message; the broker
has a response or an event for the module, or a request for a service; and the reply to an
RPC of the module has come. -/
inductive Label
  | connect (uuid : ℕ) (userid rolemask : UInt32)
  | disconnect (uuid : ℕ) (topics names : List Bytes)
  | read (uuid : ℕ) (msg : Message)
  | response (msg : Message)
  | event (msg : Message)
  | request (ls : ℕ) (msg : Message)
  | reply (i : ℕ) (result : Except Errno Unit)

/-- A request is given to the handler of a service that has been started, whose pattern
matches the topic, and that allows the role of the sender. -/
def handles (fnmatch : Bytes → Bytes → Bool) (o : LocalService) (msg : Message) : Bool :=
  o.started && msg.type = .request && msg.rolemask &&& roleOwner ≠ 0 &&
    msg.topic.any (fnmatch (o.name ++ ascii ".*"))

/-- **The machine of the module.** It stops with a fault. -/
def server (fnmatch : Bytes → Bytes → Bool) : Machine Ctx Label where
  step l s :=
    if s.faulted then none
    else
      match l with
      | .connect uuid userid rolemask =>
        if uuid ∉ s.used ∧ rolemask ≠ roleNone then some (clientCreate s uuid userid rolemask)
        else none
      | .disconnect uuid topics names =>
        match s.client? uuid with
        | none => none
        | some c =>
          if topics.Perm c.subscriptions.keys ∧ names.Perm (s.serviceNames uuid) then
            some (clientDestroy s c topics names)
          else none
      | .read uuid msg =>
        match s.client? uuid with
        | none => none
        | some c => some (clientReadCb s c msg)
      | .response msg => if msg.type = .response then some (responseCb s msg) else none
      | .event msg => if msg.type = .event then some (eventCb s msg) else none
      | .request ls msg =>
        match s.service? ls with
        | none => none
        | some o => if handles fnmatch o msg then some (requestCb s o.client msg) else none
      | .reply i result =>
        match s.pending[i]? with
        | none => none
        | some k => some (k.call { s with pending := s.pending.eraseIdx i } result)

/-- What a step of the module can do. -/
inductive Moved (fnmatch : Bytes → Bytes → Bool) (s : Ctx) : Label → Ctx → Prop
  | connect {uuid : ℕ} {userid rolemask : UInt32} (hnew : uuid ∉ s.used) :
    Moved fnmatch s (.connect uuid userid rolemask) (clientCreate s uuid userid rolemask)
  | disconnect {c : Client} {topics names : List Bytes} (hc : c ∈ s.clients)
    (htopics : topics.Perm c.subscriptions.keys) (hnames : names.Perm (s.serviceNames c.uuid)) :
    Moved fnmatch s (.disconnect c.uuid topics names) (clientDestroy s c topics names)
  | read {c : Client} {msg : Message} (hc : c ∈ s.clients) :
    Moved fnmatch s (.read c.uuid msg) (clientReadCb s c msg)
  | response {msg : Message} (htype : msg.type = .response) :
    Moved fnmatch s (.response msg) (responseCb s msg)
  | event {msg : Message} : Moved fnmatch s (.event msg) (eventCb s msg)
  | request {ls : ℕ} {o : LocalService} {msg : Message} (hhandles : handles fnmatch o msg) :
    Moved fnmatch s (.request ls msg) (requestCb s o.client msg)
  | reply {i : ℕ} {k : Continuation} {result : Except Errno Unit} (hk : s.pending[i]? = some k) :
    Moved fnmatch s (.reply i result) (k.call { s with pending := s.pending.eraseIdx i } result)

theorem moved_of_step (hs' : (server fnmatch).step l s = some s') : Moved fnmatch s l s' := by
  simp only [server] at hs'
  split_ifs at hs'
  cases l with
  | connect uuid userid rolemask =>
    simp only at hs'
    split_ifs at hs' with hnew
    cases hs'
    exact .connect hnew.1
  | disconnect uuid topics names =>
    simp only at hs'
    split at hs'
    · cases hs'
    rename_i c hc
    split_ifs at hs' with hperm
    cases hs'
    obtain ⟨hmem, rfl⟩ := KeyedList.find?_key hc
    exact .disconnect hmem hperm.1 hperm.2
  | read uuid msg =>
    simp only at hs'
    split at hs'
    · cases hs'
    rename_i c hc
    cases hs'
    obtain ⟨hmem, rfl⟩ := KeyedList.find?_key hc
    exact .read hmem
  | response msg =>
    simp only at hs'
    split_ifs at hs' with htype
    cases hs'
    exact .response htype
  | event msg =>
    simp only at hs'
    split_ifs at hs'
    cases hs'
    exact .event
  | request ls msg =>
    simp only at hs'
    split at hs'
    · cases hs'
    split_ifs at hs' with hhs
    cases hs'
    exact .request hhs
  | reply i result =>
    simp only at hs'
    split at hs'
    · cases hs'
    rename_i k hk
    cases hs'
    exact .reply hk

/-- The state at the start. -/
def Start (s : Ctx) : Prop := s = {}

end FluxCore.ConnectorLocal.Server
