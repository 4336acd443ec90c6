import FluxCore.Broker.Route

/-!
# Responses on Their Way Back

A response is made from a request, with its route stack, and every broker takes the next hop
from the top of the stack, after `broker_response_sendmsg` and `child_cb` of `broker.c` and
`module_sendmsg` and `module_recvmsg` of `module.c`.

On the way up the sockets work against the stack: the ROUTER of the parent prepends the rank
of the child to a response, as it does for a request, and `child_cb` takes off that frame and
the one that brought the response here. Every hop of a response undoes one hop of the
request, whether it went up or down (`returnPath_hop`), and so a response goes back all the
way (`returnPath_travels`).
-/

namespace FluxCore.Broker

open Kary NumberedTree List

/-- A response: the topic and the routes. -/
structure Response where
  topic : Bytes
  routes : List RouteId
deriving DecidableEq

/-- `derive_response`: a copy of the request, with its routes. -/
def deriveResponse (msg : Request) : Response :=
  { topic := msg.topic, routes := msg.routes }

/-- `flux_msg_pop_route`. -/
def Response.popRoute (msg : Response) : Response :=
  { msg with routes := msg.routes.tail }

/-- `module_recvmsg` for a request: the broker gets it from the module `uuid`. -/
def moduleRecvRequest (uuid : ℕ) (msg : Request) : Request :=
  { msg with routes := .uuid uuid :: msg.routes }

/-- `module_recvmsg` for a response. -/
def moduleRecvResponse (msg : Response) : Response := msg.popRoute

/-- `module_sendmsg` for a request: the broker gives it to a module, and pushes its rank as a
DEALER socket would. -/
def moduleSendRequest (rank : ℕ) (msg : Request) : Request :=
  { msg with routes := .rank rank :: msg.routes }

/-- `module_sendmsg` for a response. -/
def moduleSendResponse (msg : Response) : Response := msg.popRoute

/-- What a broker does with a response, if it does not fail: it is for the broker itself, it
goes to the parent or to a child, or a module gets it. -/
inductive Forward
  | handle (msg : Response)
  | parent (msg : Response)
  | child (msg : Response)
  | module (uuid : ℕ) (msg : Response)

/-- A tree of brokers with their services, and with the modules that each has loaded. -/
structure Instance extends Network where
  modhash : ℕ → List ℕ

/-- The way of a response: the ranks that handle it, and who gets it. -/
structure ReturnTrace where
  visited : List ℕ
  delivered : List (ℕ × Service × Response) := []
deriving DecidableEq

/-- The trace with more brokers at its start. -/
def ReturnTrace.after (ranks : List ℕ) (t : ReturnTrace) : ReturnTrace :=
  { t with visited := ranks ++ t.visited }

namespace Instance

variable (b : Instance)

/-- `module_response_sendmsg`. -/
def moduleResponseSendmsg (rank : ℕ) (msg : Response) : Except Errno Forward :=
  match msg.routes.head? with
  | none => .error .EPROTO
  | some (.rank _) => .error .ENOSYS
  | some (.uuid uuid) =>
    if uuid ∈ b.modhash rank then .ok (.module uuid (moduleSendResponse msg))
    else .error .ENOSYS

/-- `broker_response_sendmsg`. -/
def brokerResponseSendmsg (rank : ℕ) (msg : Response) : Except Errno Forward :=
  match msg.routes.head? with
  | none => .ok (.handle msg)
  | some uuid =>
    let parent := karyParentof b.k rank
    if parent ≠ karyNone ∧ uuid = .rank parent then
      if rank = 0 then .error .EHOSTUNREACH else .ok (.parent msg)
    else
      match b.moduleResponseSendmsg rank msg with
      | .error .ENOSYS => .ok (.child msg)
      | r => r

/-- Where a response that is sent to another broker arrives, and with which routes it comes
to `broker_response_sendmsg` there. The parent pops two frames in `child_cb`. -/
def arrive (rank : ℕ) : Forward → Option (ℕ × Response)
  | .parent msg =>
    some (karyParentof b.k rank,
      { msg with routes := .rank rank :: msg.routes }.popRoute.popRoute)
  | .child msg =>
    match msg.routes with
    | .rank c :: routes =>
      if c < b.size ∧ karyParentof b.k c = rank then
        some (c, { msg with routes := routes })
      else none
    | _ => none
  | .handle _ => none
  | .module _ _ => none

/-- A response is handled by the broker of the given rank, and then by those to which it is
sent on, for at most the given number of turns. -/
def returnPath : ℕ → ℕ → Response → Option ReturnTrace
  | 0, _, _ => none
  | turns + 1, rank, msg =>
    match b.brokerResponseSendmsg rank msg with
    | .error _ => some { visited := [rank] }
    | .ok (.handle msg) => some { visited := [rank], delivered := [(rank, .handle, msg)] }
    | .ok (.module uuid msg) =>
      some { visited := [rank], delivered := [(rank, .module uuid, msg)] }
    | .ok fwd =>
      match b.arrive rank fwd with
      | none => some { visited := [rank] }
      | some (rank', msg') => (returnPath turns rank' msg').map (.after [rank])

/-- What the service gets, and the response that the broker gets from it. A service of the
broker itself takes the request as it is, and a module gets it by its socket. -/
def serviceResponse (rank : ℕ) (msg : Request) : Service → Response
  | .handle => deriveResponse msg
  | .module _ => moduleRecvResponse (deriveResponse (moduleSendRequest rank msg))

/-- The service on a rank responds to a request. Every hop takes a frame from the stack. -/
def respond (rank : ℕ) (svc : Service) (msg : Request) : Option ReturnTrace :=
  let response := serviceResponse rank msg svc
  b.returnPath (response.routes.length + 1) rank response

end Instance

/-! ### The way of the request -/

/-- A request goes from `r` to the parent or to a child, the rank `y`, and arrives there
as `msg'`. -/
def Crosses (net : Network) (r : ℕ) (msg : Request) (y : ℕ) (msg' : Request) : Prop :=
  ∃ sent, (overlaySendmsgParent r msg = .ok sent ∨ ∃ c, subvertSendmsgChild r msg c = .ok sent) ∧
    net.hop r sent = some (y, msg')

/-- A request goes from rank to rank: from `r` by way of the ranks `path`, the last of which
is `x`, where it arrives as `msg'`. -/
inductive Travels (net : Network) : ℕ → Request → List ℕ → ℕ → Request → Prop
  | here (r : ℕ) (msg : Request) : Travels net r msg [] r msg
  | cross {r y x : ℕ} {msg msg₁ msg' : Request} {path : List ℕ}
      (hop : Crosses net r msg y msg₁) (rest : Travels net y msg₁ path x msg') :
      Travels net r msg (y :: path) x msg'

namespace Network

variable {net : Network} {rank : ℕ} {msg : Request}

theorem serviceSend_sent (h : net.serviceSend rank msg = .ok sent) :
    ∃ svc, sent = .service svc msg := by
  rcases net.serviceSend_cases rank msg with ⟨svc, -, hsend⟩ | ⟨-, hsend⟩
  · rw [hsend] at h
    cases h
    exact ⟨svc, rfl⟩
  · rw [hsend] at h
    cases h

theorem serviceOrParent_sent (h : net.serviceOrParent rank msg = .ok sent) :
    (∃ svc, sent = .service svc msg) ∨ overlaySendmsgParent rank msg = .ok sent := by
  rw [serviceOrParent] at h
  split at h
  · split at h
    · cases h
    · exact .inr h
  · exact .inl (serviceSend_sent h)

theorem brokerRequestSendmsg_sent (h : net.brokerRequestSendmsg rank msg = (asked, .ok sent)) :
    (∃ svc, sent = .service svc msg) ∨ overlaySendmsgParent rank msg = .ok sent ∨
      ∃ c, subvertSendmsgChild rank msg c = .ok sent := by
  rw [brokerRequestSendmsg] at h
  split at h
  · cases h
  simp only at h
  split_ifs at h <;> rw [Prod.mk.injEq] at h
  · exact .inr (.inl h.2)
  · exact (serviceOrParent_sent h.2).imp_right .inl
  · exact (serviceOrParent_sent h.2).imp_right .inl
  · exact .inl (serviceSend_sent h.2)
  · exact .inr (.inr ⟨_, h.2⟩)
  · exact .inr (.inl h.2)

theorem inject_sent (hdcd : net.brokerRequestSendmsg rank msg = (asked, .ok sent))
    (hsent : overlaySendmsgParent rank msg = .ok sent ∨
      ∃ c, subvertSendmsgChild rank msg c = .ok sent)
    (h : net.inject mode (turns + 1) rank msg = some t) : (match net.hop rank sent with
      | none => some { visited := [rank], asked := if asked then [rank] else [] }
      | some (y, msg₁) => (net.inject .respond turns y msg₁).map (.cons rank asked)) = some t := by
  rw [inject, hdcd] at h
  rcases hsent with hsent | ⟨c, hsent⟩
  · rw [overlaySendmsgParent] at hsent
    split_ifs at hsent
    cases hsent
    exact h
  · cases hsent
    exact h

/-- Of a delivered request, the first broker has given it to the service, or it has sent it
to another one. -/
theorem inject_cases (h : net.inject mode (turns + 1) rank msg = some t) :
    (∀ d ∈ t.delivered, t.visited = [rank] ∧ d.1 = rank ∧ d.2.2 = msg) ∨
      ∃ y msg₁ t', Crosses net rank msg y msg₁ ∧ net.inject .respond turns y msg₁ = some t' ∧
        t.visited = rank :: t'.visited ∧ t.delivered = t'.delivered := by
  rcases hdcd : net.brokerRequestSendmsg rank msg with ⟨asked, _ | sent⟩
  · rw [inject, hdcd] at h
    cases h
    exact .inl (forall_mem_nil _)
  have hsent := brokerRequestSendmsg_sent hdcd
  rcases hsent with ⟨svc, rfl⟩ | hsent
  · rw [inject, hdcd] at h
    cases h
    exact .inl (forall_mem_singleton.2 ⟨rfl, rfl, rfl⟩)
  have hgo := inject_sent hdcd hsent h
  rcases hhop : net.hop rank sent with _ | ⟨y, msg₁⟩
  · rw [hhop] at hgo
    cases hgo
    exact .inl (forall_mem_nil _)
  rw [hhop] at hgo
  obtain ⟨t', ht', rfl⟩ := Option.map_eq_some_iff.1 hgo
  exact .inr ⟨y, msg₁, t', ⟨sent, hsent, hhop⟩, ht', rfl, rfl⟩

theorem inject_travels (h : net.inject mode turns rank msg = some t) :
    ∀ d ∈ t.delivered, ∃ path, t.visited = rank :: path ∧
      Travels net rank msg path d.1 d.2.2 := by
  induction turns generalizing mode rank msg t with
  | zero => cases h
  | succ turns ih =>
    intro d hd
    rcases inject_cases h with hhere | ⟨y, msg₁, t', hcross, ht', hvisd, hdel⟩
    · obtain ⟨hvisd, hrank, hmsg⟩ := hhere d hd
      refine ⟨[], hvisd, ?_⟩
      rw [hrank, hmsg]
      exact .here rank msg
    · rw [hdel] at hd
      obtain ⟨path, hpath, htrav⟩ := ih ht' d hd
      exact ⟨y :: path, by rw [hvisd, hpath], .cross hcross htrav⟩

end Network

namespace Instance

variable {b : Instance} {r y : ℕ} {msg msg₁ : Request}

theorem crosses_spec (hr : r < b.size) (h : Crosses b.toNetwork r msg y msg₁) :
    Adjacent (parent b.k) r y ∧ y < b.size ∧
      msg₁ = { msg with routes := .rank r :: msg.routes } := by
  obtain ⟨sent, hsend | ⟨c, hsend⟩, hhop⟩ := h
  · rw [overlaySendmsgParent] at hsend
    split_ifs at hsend with hzero
    cases hsend
    obtain ⟨p, hkary, hp, hpsz⟩ :=
      Shape.karyParentof_pos (t := b.toShape) (Nat.pos_of_ne_zero hzero) hr
    rw [Network.hop, hkary] at hhop
    cases hhop
    exact ⟨.inl hp, hpsz, rfl⟩
  · cases hsend
    simp only [Network.hop] at hhop
    split_ifs at hhop with hch
    cases hhop
    exact ⟨.inr ((Shape.karyParentof_eq_iff hch.1 hr).1 hch.2), hch.1, rfl⟩

theorem returnPath_hop (hr : r < b.size) (hy : y < b.size) (hadj : Adjacent (parent b.k) r y)
    (topic : Bytes) (routes : List RouteId) :
    b.returnPath (turns + 1) y { topic := topic, routes := .rank r :: routes }
      = (b.returnPath turns r { topic := topic, routes := routes }).map (.after [y]) := by
  rcases hadj with hup | hdown
  · -- `y` is the parent: the response goes down to the child `r`
    have hne : ¬ (karyParentof b.k y ≠ karyNone ∧
        RouteId.rank r = .rank (karyParentof b.k y)) := by
      rintro ⟨-, heq⟩
      have hpar := (Shape.karyParentof_eq_iff hy hr).1 (RouteId.rank.inj heq).symm
      have := parent_lt hup
      have := parent_lt hpar
      omega
    have hkary := (Shape.karyParentof_eq_iff hr hy).2 hup
    rw [returnPath, brokerResponseSendmsg]
    simp only [List.head?_cons, if_neg hne, moduleResponseSendmsg, arrive, hr, hkary, and_self,
      if_true]
  · -- `y` is the child: the response goes up to the parent `r`
    have hkary := (Shape.karyParentof_eq_iff hy hr).2 hdown
    have hpos : y ≠ 0 := by
      have := parent_lt hdown
      omega
    rw [returnPath, brokerResponseSendmsg]
    simp only [List.head?_cons, hkary, ne_eq, b.ne_karyNone hr, not_false_eq_true, and_self,
      if_true, if_neg hpos, arrive, Response.popRoute, tail_cons]

/-- **A response goes back along the ranks by which the request has come.** Each of them has
left its frame on the stack. -/
theorem returnPath_travels (h : Travels b.toNetwork r msg path x msg') (hr : r < b.size) :
    b.returnPath (turns + path.length) x (deriveResponse msg')
      = (b.returnPath turns r (deriveResponse msg)).map (.after path.reverse) := by
  induction h generalizing turns with
  | here r msg => exact Option.map_id'.symm
  | @cross r y x msg msg₁ msg' path hop rest ih =>
    obtain ⟨hadj, hy, rfl⟩ := crosses_spec hr hop
    have hback := @returnPath_hop b r y turns hr hy hadj msg.topic msg.routes
    rw [length_cons, ← Nat.succ_add_eq_add_succ, ih hy]
    rw [deriveResponse, hback, Option.map_map, reverse_cons]
    congr 1
    funext t
    simp [ReturnTrace.after]

theorem length_routes_travels (h : Travels b.toNetwork r msg path x msg') (hr : r < b.size) :
    msg'.routes.length = msg.routes.length + path.length := by
  induction h with
  | here r msg => rfl
  | cross hop rest ih =>
    obtain ⟨-, hy, rfl⟩ := crosses_spec hr hop
    rw [ih hy, length_cons, length_cons]
    omega

theorem serviceResponse_eq (rank : ℕ) (msg : Request) (svc : Service) :
    serviceResponse rank msg svc = deriveResponse msg := by
  cases svc <;> rfl

theorem returnPath_module (hu : u ∈ b.modhash r) (msg : Request) :
    b.returnPath (turns + 1) r (deriveResponse (moduleRecvRequest u msg))
      = some { visited := [r], delivered := [(r, .module u, deriveResponse msg)] } := by
  rw [returnPath, brokerResponseSendmsg]
  simp [deriveResponse, moduleRecvRequest, moduleResponseSendmsg, hu, moduleSendResponse,
    Response.popRoute]

theorem respond_travels (hr : r < b.size) (hu : u ∈ b.modhash r)
    (h : Travels b.toNetwork r (moduleRecvRequest u msg) path x msg') (svc : Service) :
    b.respond x svc msg' = some
      { visited := (r :: path).reverse
        delivered := [(r, .module u, { topic := msg.topic, routes := msg.routes })] } := by
  have hlen : (deriveResponse msg').routes.length + 1
      = msg.routes.length + 1 + 1 + path.length := by
    have := length_routes_travels h hr
    simp only [moduleRecvRequest, length_cons] at this
    simp only [deriveResponse]
    omega
  rw [respond, serviceResponse_eq]
  simp only [hlen]
  rw [returnPath_travels h hr, returnPath_module hu, Option.map_some, reverse_cons]
  rfl

/-- **Responses retrace the request.** A module `u` on the rank `r` sends a request. Whatever
way the request goes from rank to rank, the response of a service at the end of it visits the
same ranks in reverse order and is delivered once, to the module, with the routes that the
request had when the module sent it. In particular this is so for the way that the brokers
choose. -/
theorem response_retraces (b : Instance) {r u : ℕ} (hr : r < b.size) (hu : u ∈ b.modhash r)
    (msg : Request) :
    (∀ {path x msg'}, Travels b.toNetwork r (moduleRecvRequest u msg) path x msg' →
      ∀ svc, b.respond x svc msg' = some
        { visited := (r :: path).reverse
          delivered := [(r, .module u, { topic := msg.topic, routes := msg.routes })] }) ∧
    ∀ t, b.send .respond r (moduleRecvRequest u msg) = some t →
      ∀ x svc msg', (x, svc, msg') ∈ t.delivered → b.respond x svc msg' = some
        { visited := t.visited.reverse
          delivered := [(r, .module u, { topic := msg.topic, routes := msg.routes })] } := by
  refine ⟨fun h svc => respond_travels hr hu h svc, fun t ht x svc msg' hd => ?_⟩
  obtain ⟨path, hpath, htrav⟩ := Network.inject_travels ht _ hd
  rw [hpath]
  exact respond_travels hr hu htrav svc

/-- A binary tree of four brokers: the module 7 on rank 3 sends requests to the service of a
module on rank 2. -/
def fourBrokers : Instance :=
  { k := 2, size := 4, arity_pos := Nat.zero_lt_two, size_pos := by decide, fit := by decide
    services := fun rank name => if rank = 2 ∧ name = [120] then some (.module 9) else none
    modhash := fun rank => if rank = 3 then [7] else if rank = 2 then [9] else [] }

theorem response_retraces_fourBrokers : fourBrokers.respond 2 (.module 9)
        { nodeid := 2, topic := [120], routes := [.rank 0, .rank 1, .rank 3, .uuid 7, .uuid 1] }
      = some { visited := [2, 0, 1, 3]
               delivered := [(3, .module 7, { topic := [120], routes := [.uuid 1] })] } :=
  (response_retraces fourBrokers (r := 3) (u := 7) (by decide) (by decide)
    { nodeid := 2, topic := [120], routes := [.uuid 1] }).2
    { visited := [3, 1, 0, 2], asked := [2], delivered := [(2, .module 9,
      { nodeid := 2, topic := [120], routes := [.rank 0, .rank 1, .rank 3, .uuid 7, .uuid 1] })] }
    (by decide +kernel) 2 (.module 9) _ (by decide)

end Instance

end FluxCore.Broker
