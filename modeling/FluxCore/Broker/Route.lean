import FluxCore.Util.Blobref
import FluxCore.Util.Kary

/-!
# Routing of Requests

How a request finds its way through the tree of brokers, after `broker_request_sendmsg` of
`broker.c`, `service_send` of `service.c` and `overlay_sendmsg_parent` of `overlay.c`.

A broker takes its decision from its rank and the table of its services. The sockets between
brokers are of type ROUTER at the parent and DEALER at the child: the ROUTER prepends the rank
of the child to what it receives, and takes the rank of the child from the top of the stack
for what it sends. All brokers are up, and sends succeed. A request has a topic, and a route
stack as `flux_msg_enable_route` makes it.

A route id is the decimal number of a rank or the uuid of a module, of 32 characters; no
string is both.
-/

namespace FluxCore.Broker

open Kary NumberedTree List

/-- A frame of a route stack. -/
inductive RouteId
  | rank (r : ℕ)
  | uuid (u : ℕ)
deriving DecidableEq

/-- Who answers to a service: the broker itself, or a module. -/
inductive Service
  | handle
  | module (uuid : ℕ)
deriving DecidableEq

/-- A request: the node id, the flag `FLUX_MSGFLAG_UPSTREAM`, the topic and the routes. -/
structure Request where
  nodeid : ℕ
  upstream : Bool := false
  topic : Bytes
  routes : List RouteId
deriving DecidableEq

/-- `FLUX_NODEID_ANY`. -/
def nodeidAny : ℕ := 2 ^ 32 - 1

/-- `FLUX_NODEID_UPSTREAM`, which stands for no node id in a message. -/
def nodeidUpstream : ℕ := 2 ^ 32 - 2

/-- A tree of brokers, with the services of each. -/
structure Network extends Shape where
  services : ℕ → Bytes → Option Service

/-- What a broker does with a request, if it does not fail: it sends it to the parent or to a
child, or calls the service. -/
inductive Sent
  | parent (msg : Request)
  | child (msg : Request)
  | service (svc : Service) (msg : Request)

/-- `flux_msg_get_nodeid`. -/
def fluxMsgGetNodeid (msg : Request) : Except Errno (ℕ × Bool) :=
  if (msg.upstream ∧ msg.nodeid = nodeidAny) ∨ msg.nodeid = nodeidUpstream then .error .EPROTO
  else .ok (msg.nodeid, msg.upstream)

/-- The name of a service: the first word of the topic. -/
def subtopic (topic : Bytes) : Bytes := topic.takeWhile (· ≠ 46)

/-- `overlay_sendmsg_parent`. Rank 0 has no parent. -/
def overlaySendmsgParent (rank : ℕ) (msg : Request) : Except Errno Sent :=
  if rank = 0 then .error .EHOSTUNREACH else .ok (.parent msg)

/-- `subvert_sendmsg_child`: the rank of the sender, and then the one of the child. -/
def subvertSendmsgChild (rank : ℕ) (msg : Request) (nodeid : ℕ) : Except Errno Sent :=
  .ok (.child { msg with routes := .rank nodeid :: .rank rank :: msg.routes })

namespace Network

variable (net : Network)

/-- `service_send`. -/
def serviceSend (rank : ℕ) (msg : Request) : Except Errno Sent :=
  match net.services rank (subtopic msg.topic) with
  | none => .error .ENOSYS
  | some svc => .ok (.service svc msg)

/-- Call the service here, or else send the request to the parent. -/
def serviceOrParent (rank : ℕ) (msg : Request) : Except Errno Sent :=
  match net.serviceSend rank msg with
  | .error .ENOSYS =>
    match overlaySendmsgParent rank msg with
    | .error .EHOSTUNREACH => .error .ENOSYS
    | r => r
  | r => r

/-- What `broker_request_sendmsg` does: whether it calls `service_send`, and the outcome. -/
def brokerRequestSendmsg (rank : ℕ) (msg : Request) : Bool × Except Errno Sent :=
  match fluxMsgGetNodeid msg with
  | .error e => (false, .error e)
  | .ok (nodeid, upstream) =>
    if upstream ∧ nodeid = rank then (false, overlaySendmsgParent rank msg)
    else if upstream ∧ nodeid ≠ rank then (true, net.serviceOrParent rank msg)
    else if nodeid = nodeidAny then (true, net.serviceOrParent rank msg)
    else if nodeid = rank then (true, net.serviceSend rank msg)
    else
      let gw := karyChildRoute net.k net.size rank nodeid
      if gw ≠ karyNone then (false, subvertSendmsgChild rank msg gw)
      else (false, overlaySendmsgParent rank msg)

/-- Where a message that is sent to another broker arrives, and what the ROUTER socket makes
of its routes. A ROUTER drops what is for none of its peers. -/
def hop (rank : ℕ) : Sent → Option (ℕ × Request)
  | .parent msg =>
    some (karyParentof net.k rank, { msg with routes := .rank rank :: msg.routes })
  | .child msg =>
    match msg.routes with
    | .rank c :: routes =>
      if c < net.size ∧ karyParentof net.k c = rank then
        some (c, { msg with routes := routes })
      else none
    | _ => none
  | .service _ _ => none

end Network

/-! ### A request on its way -/

/-- `request_error_mode_t`: a request that comes from a module or from another broker is
answered with an error, one that is sent on the broker's own handle makes the send fail. -/
inductive ErrorMode
  | respond
  | fail
deriving DecidableEq

/-- How an error is reported: by a response of the broker with the given rank, or by the
return value of the send. -/
inductive Report
  | response (rank : ℕ) (e : Errno)
  | returned (e : Errno)
deriving DecidableEq

/-- The report of an error. -/
def ErrorMode.report (rank : ℕ) (e : Errno) : ErrorMode → Report
  | .respond => .response rank e
  | .fail => .returned e

/-- What happens to a request: the ranks that handle it, those where it is given to
`service_send`, the services that get it, and the errors that are reported. -/
structure Trace where
  visited : List ℕ
  asked : List ℕ
  delivered : List (ℕ × Service × Request) := []
  reports : List Report := []
deriving DecidableEq

/-- The trace with one more broker at its start. -/
def Trace.cons (rank : ℕ) (asked : Bool) (t : Trace) : Trace :=
  { t with
    visited := rank :: t.visited
    asked := if asked then rank :: t.asked else t.asked }

/-- A request is handled by the broker of the given rank, and then by those to which it is
sent on, for at most the given number of turns. The error mode is that of the first. -/
def Network.inject (net : Network) (mode : ErrorMode) : ℕ → ℕ → Request → Option Trace
  | 0, _, _ => none
  | turns + 1, rank, msg =>
    let (asked, outcome) := net.brokerRequestSendmsg rank msg
    let here : Trace := { visited := [rank], asked := if asked then [rank] else [] }
    match outcome with
    | .error e => some { here with reports := [mode.report rank e] }
    | .ok (.service svc msg) => some { here with delivered := [(rank, svc, msg)] }
    | .ok sent =>
      match net.hop rank sent with
      | none => some here
      | some (rank', msg') => (net.inject .respond turns rank' msg').map (.cons rank asked)

/-- A request from a rank. It visits no rank twice on its way up, nor on its way down. -/
def Network.send (net : Network) (mode : ErrorMode) (rank : ℕ) (msg : Request) : Option Trace :=
  net.inject mode (2 * net.size + 1) rank msg

namespace Network

variable {net : Network} {mode : ErrorMode} {rank turns : ℕ} {msg : Request} {asked : Bool}

/-! ### One broker -/

theorem inject_error (h : net.brokerRequestSendmsg rank msg = (asked, .error e)) :
    net.inject mode (turns + 1) rank msg = some
      { visited := [rank], asked := if asked then [rank] else [],
        reports := [mode.report rank e] } := by
  rw [inject, h]

theorem inject_service (h : net.brokerRequestSendmsg rank msg = (asked, .ok (.service svc msg))) :
    net.inject mode (turns + 1) rank msg = some
      { visited := [rank], asked := if asked then [rank] else [],
        delivered := [(rank, svc, msg)] } := by
  rw [inject, h]

theorem inject_parent (hp : karyParentof net.k rank = p)
    (h : net.brokerRequestSendmsg rank msg = (asked, .ok (.parent msg))) :
    net.inject mode (turns + 1) rank msg
      = (net.inject .respond turns p { msg with routes := .rank rank :: msg.routes }).map
        (.cons rank asked) := by
  rw [inject, h]
  simp only [hop, hp]

theorem inject_child (hc : c < net.size) (hp : karyParentof net.k c = rank)
    (h : net.brokerRequestSendmsg rank msg = (asked, subvertSendmsgChild rank msg c)) :
    net.inject mode (turns + 1) rank msg
      = (net.inject .respond turns c { msg with routes := .rank rank :: msg.routes }).map
        (.cons rank asked) := by
  rw [inject, h]
  simp only [subvertSendmsgChild, hop, hc, hp, and_self, if_true]

theorem brokerRequestSendmsg_other (net : Network) (hup : msg.upstream = false)
    (hany : msg.nodeid ≠ nodeidAny) (hres : msg.nodeid ≠ nodeidUpstream)
    (hne : rank ≠ msg.nodeid) : net.brokerRequestSendmsg rank msg
      = (false, if karyChildRoute net.k net.size rank msg.nodeid ≠ karyNone
          then subvertSendmsgChild rank msg (karyChildRoute net.k net.size rank msg.nodeid)
          else overlaySendmsgParent rank msg) := by
  simp only [brokerRequestSendmsg, fluxMsgGetNodeid, hup, hany, hres, hne.symm, if_false,
    Bool.false_eq_true, false_and, or_self]
  split_ifs <;> rfl

theorem brokerRequestSendmsg_self (net : Network) (hup : msg.upstream = false)
    (hany : msg.nodeid ≠ nodeidAny) (hres : msg.nodeid ≠ nodeidUpstream) :
    net.brokerRequestSendmsg msg.nodeid msg = (true, net.serviceSend msg.nodeid msg) := by
  simp only [brokerRequestSendmsg, fluxMsgGetNodeid, hup, hany, hres, if_false,
    Bool.false_eq_true, false_and, or_self, if_true]

/-! ### Outcomes -/

/-- The rank has the service. -/
def Has (net : Network) (msg : Request) (x : ℕ) : Prop :=
  (net.services x (subtopic msg.topic)).isSome

/-- The request has been given to the service on the rank `x`, and no error is reported. -/
def Delivered (net : Network) (msg : Request) (t : Trace) (x : ℕ) : Prop :=
  ∃ svc msg', net.services x (subtopic msg.topic) = some svc ∧ t.delivered = [(x, svc, msg')] ∧
    t.reports = []

/-- The request has been given to no service, and one error is reported: by the send if it is
found by the broker that sends the request, and otherwise by a response. -/
def Failed (mode : ErrorMode) (r : ℕ) (t : Trace) (x : ℕ) (e : Errno) : Prop :=
  t.delivered = [] ∧ t.reports = [if x = r then mode.report x e else .response x e]

/-- The rank has the service and it gets the request, or the request fails there. -/
def Served (net : Network) (mode : ErrorMode) (r : ℕ) (msg : Request) (t : Trace)
    (x : ℕ) : Prop :=
  net.Has msg x ∧ net.Delivered msg t x ∨ ¬ net.Has msg x ∧ Failed mode r t x .ENOSYS

theorem Failed.cons (h : Failed .respond p t x e) (hne : x ≠ r) :
    Failed mode r (t.cons r asked) x e := by
  obtain ⟨hdel, hreports⟩ := h
  refine ⟨hdel, ?_⟩
  rw [if_neg hne, Trace.cons, hreports, ErrorMode.report, ite_self]

theorem Served.cons (h : net.Served .respond p { msg with routes := routes } t x) (hne : x ≠ r) :
    net.Served mode r msg (t.cons r asked) x := by
  rcases h with ⟨hhas, hdel⟩ | ⟨hno, hfailed⟩
  · exact .inl ⟨hhas, hdel⟩
  · exact .inr ⟨hno, hfailed.cons hne⟩

theorem serviceSend_cases (net : Network) (rank : ℕ) (msg : Request) :
    (∃ svc, net.services rank (subtopic msg.topic) = some svc ∧
        net.serviceSend rank msg = .ok (.service svc msg)) ∨
      ¬ net.Has msg rank ∧ net.serviceSend rank msg = .error .ENOSYS := by
  rw [serviceSend, Has]
  cases net.services rank (subtopic msg.topic) with
  | none => exact .inr ⟨nofun, rfl⟩
  | some svc => exact .inl ⟨svc, rfl, rfl⟩

theorem nodeid_of_lt (net : Network) (h : n < net.size) : n ≠ nodeidAny ∧ n ≠ nodeidUpstream := by
  have hlt := net.size_lt
  rw [karyNone] at hlt
  rw [nodeidAny, nodeidUpstream]
  omega

theorem inject_to_parent (hpos : 0 < r) (hr : r < net.size)
    (h : net.brokerRequestSendmsg r msg = (asked, overlaySendmsgParent r msg)) :
    ∃ p, parent net.k r = some p ∧ p < r ∧ p < net.size ∧ net.inject mode (turns + 1) r msg
        = (net.inject .respond turns p { msg with routes := .rank r :: msg.routes }).map
          (.cons r asked) := by
  obtain ⟨p, hkary, hp, hpsz⟩ := Shape.karyParentof_pos hpos hr
  rw [overlaySendmsgParent, if_neg hpos.ne'] at h
  exact ⟨p, hp, parent_lt hp, hpsz, inject_parent hkary h⟩

/-! ### Down and up the tree -/

theorem inject_down (mode : ErrorMode) (hup : msg.upstream = false)
    (hsize : msg.nodeid < net.size) (hbel : Below (parent net.k) rank msg.nodeid)
    (htns : msg.nodeid - rank < turns) : ∃ t, net.inject mode turns rank msg = some t ∧
      IsPath (parent net.k) rank msg.nodeid t.visited ∧ (∀ y ∈ t.visited, rank ≤ y) ∧
      (∀ y ∈ t.visited, Below (parent net.k) y msg.nodeid) ∧
      t.asked = [msg.nodeid] ∧ net.Served mode rank msg t msg.nodeid := by
  obtain ⟨hany, hres⟩ := net.nodeid_of_lt hsize
  induction turns generalizing rank msg mode with
  | zero => omega
  | succ turns ih =>
    have hle : rank ≤ msg.nodeid := hbel.le fun _ _ => parent_lt
    by_cases heq : rank = msg.nodeid
    · subst heq
      have hself := brokerRequestSendmsg_self net hup hany hres
      rcases net.serviceSend_cases msg.nodeid msg with ⟨svc, hsvc, hsend⟩ | ⟨hno, hsend⟩
      · rw [hsend] at hself
        refine ⟨_, inject_service hself, isPath_singleton _, ?_, ?_, rfl, .inl ⟨?_, ?_⟩⟩
        · exact forall_mem_singleton.2 le_rfl
        · exact forall_mem_singleton.2 .refl
        · rw [Has, hsvc]
          rfl
        · exact ⟨svc, msg, hsvc, rfl, rfl⟩
      · rw [hsend] at hself
        refine ⟨_, inject_error hself, isPath_singleton _, ?_, ?_, rfl, .inr ⟨hno, rfl, ?_⟩⟩
        · exact forall_mem_singleton.2 le_rfl
        · exact forall_mem_singleton.2 .refl
        · exact congrArg (fun r => [r]) (if_pos rfl).symm
    · have hrank : rank < net.size := by omega
      obtain ⟨c, hc, hcsize, hcparent, hcbelow⟩ :=
        (Shape.karyChildRoute_spec hrank).1 hsize ⟨heq, hbel⟩
      have hoth := brokerRequestSendmsg_other net hup hany hres heq
      rw [hc, if_pos (net.ne_karyNone hcsize)] at hoth
      have hrc : rank < c := parent_lt hcparent
      have hcn : c ≤ msg.nodeid := hcbelow.le fun _ _ => parent_lt
      have hkary : karyParentof net.k c = rank :=
        (Shape.karyParentof_eq_iff hcsize hrank).2 hcparent
      have hless : msg.nodeid - c < turns := by omega
      obtain ⟨t, ht, hpath, hge, hanc, hasked, hsrv⟩ :=
        @ih c { msg with routes := .rank rank :: msg.routes } .respond hup hsize hcbelow hless
          hany hres
      refine ⟨t.cons rank false, ?_, ?_, ?_, ?_, hasked, ?_⟩
      · rw [inject_child hcsize hkary hoth, ht, Option.map_some]
      · refine hpath.cons (.inr hcparent) fun hmem => ?_
        have := hge rank hmem
        omega
      · refine forall_mem_cons.2 ⟨le_rfl, fun y hy => ?_⟩
        exact hrc.le.trans (hge y hy)
      · exact forall_mem_cons.2 ⟨hbel, hanc⟩
      · exact hsrv.cons (Ne.symm heq)

/-- A request for any rank of the instance: it goes up to where the rank is below, and then
down. -/
theorem inject_path (hup : msg.upstream = false) (hsize : msg.nodeid < net.size)
    (hrank : rank < net.size) (htns : rank + net.size < turns) :
    ∃ t, net.inject mode turns rank msg = some t ∧
      IsPath (parent net.k) rank msg.nodeid t.visited ∧
      (∀ y ∈ t.visited, y ≤ rank ∨ Below (parent net.k) y msg.nodeid) ∧
      t.asked = [msg.nodeid] ∧ net.Served mode rank msg t msg.nodeid := by
  obtain ⟨hany, hres⟩ := net.nodeid_of_lt hsize
  induction turns generalizing rank msg mode with
  | zero => omega
  | succ turns ih =>
    by_cases hbel : Below (parent net.k) rank msg.nodeid
    · have hless : msg.nodeid - rank < turns + 1 := by omega
      obtain ⟨t, ht, hpath, -, hanc, hrest⟩ := inject_down mode hup hsize hbel hless
      exact ⟨t, ht, hpath, fun y hy => .inr (hanc y hy), hrest⟩
    have hne : rank ≠ msg.nodeid := by
      rintro rfl
      exact hbel .refl
    have hpos : 0 < rank := by
      refine Nat.pos_of_ne_zero ?_
      rintro rfl
      exact hbel (below_zero _)
    have hoth := brokerRequestSendmsg_other net hup hany hres hne
    rw [if_neg fun h => hbel ((Shape.karyChildRoute_spec hrank).2 h).2.2] at hoth
    obtain ⟨p, hp, hprank, hpsz, hinj⟩ := inject_to_parent hpos hrank hoth
    have hless : p + net.size < turns := by omega
    obtain ⟨t, ht, hpath, hle, hasked, hsrv⟩ :=
      @ih .respond p { msg with routes := .rank rank :: msg.routes } hup hsize hpsz hless
        hany hres
    refine ⟨t.cons rank false, ?_, ?_, ?_, hasked, hsrv.cons hne.symm⟩
    · rw [hinj, ht, Option.map_some]
    · refine hpath.cons (.inl hp) fun hmem => ?_
      rcases hle rank hmem with hle | hanc
      · omega
      · exact hbel hanc
    · refine forall_mem_cons.2 ⟨.inl le_rfl, fun y hy => ?_⟩
      exact (hle y hy).imp_left fun h => h.trans hprank.le

theorem inject_unreachable (hup : msg.upstream = false) (hsize : net.size ≤ msg.nodeid)
    (hany : msg.nodeid ≠ nodeidAny) (hres : msg.nodeid ≠ nodeidUpstream)
    (hrank : rank < net.size) (htns : rank < turns) :
    ∃ t, net.inject mode turns rank msg = some t ∧ Failed mode rank t 0 .EHOSTUNREACH := by
  induction turns generalizing rank msg mode with
  | zero => omega
  | succ turns ih =>
    have hne : rank ≠ msg.nodeid := by omega
    have hoth := brokerRequestSendmsg_other net hup hany hres hne
    rw [if_neg fun h => hsize.not_gt ((Shape.karyChildRoute_spec hrank).2 h).1] at hoth
    rcases Nat.eq_zero_or_pos rank with rfl | hpos
    · exact ⟨_, inject_error hoth, rfl, rfl⟩
    obtain ⟨p, hp, hprank, hpsz, hinj⟩ := inject_to_parent hpos hrank hoth
    have hless : p < turns := by omega
    obtain ⟨t, ht, hfailed⟩ :=
      @ih .respond p { msg with routes := .rank rank :: msg.routes } hup hsize hany hres
        hpsz hless
    refine ⟨t.cons rank false, ?_, hfailed.cons hpos.ne⟩
    rw [hinj, ht, Option.map_some]

/-- The request is given to the service on the nearest rank that has it, from `r` upwards, or
it fails at the root. -/
def ServedAbove (net : Network) (mode : ErrorMode) (r : ℕ) (msg : Request) (t : Trace)
    (x : ℕ) : Prop :=
  (∃ a, Nearest (parent net.k) (net.Has msg) x a ∧ net.Delivered msg t a) ∨
    (∀ a, Below (parent net.k) a x → ¬ net.Has msg a) ∧ Failed mode r t 0 .ENOSYS

theorem ServedAbove.cons (h : net.ServedAbove .respond p { msg with routes := routes } t x)
    (hne : 0 ≠ r) : net.ServedAbove mode r msg (t.cons r asked) x := by
  rcases h with ⟨a, hnear, hdel⟩ | ⟨hnone, hfailed⟩
  · exact .inl ⟨a, hnear, hdel⟩
  · exact .inr ⟨hnone, hfailed.cons hne⟩

theorem ServedAbove.step (hp : parent net.k x = some p) (hno : ¬ net.Has msg x)
    (h : net.ServedAbove mode r msg t p) : net.ServedAbove mode r msg t x := by
  rcases h with ⟨a, hnear, hdel⟩ | ⟨hnone, hfailed⟩
  · exact .inl ⟨a, hnear.step hp hno, hdel⟩
  refine .inr ⟨fun a ha => ?_, hfailed⟩
  rcases below_iff.1 ha with rfl | ⟨q, hq, ha⟩
  · exact hno
  rw [hp] at hq
  cases hq
  exact hnone a ha

theorem inject_above (hrank : rank < net.size) (htns : rank < turns)
    (htry : ∀ x ≤ rank, ∀ routes, net.brokerRequestSendmsg x { msg with routes := routes }
      = (true, net.serviceOrParent x { msg with routes := routes })) :
    ∃ t, net.inject mode turns rank msg = some t ∧ net.ServedAbove mode rank msg t rank := by
  induction turns generalizing rank msg mode with
  | zero => omega
  | succ turns ih =>
    have hdcd := htry rank le_rfl msg.routes
    rcases net.serviceSend_cases rank msg with ⟨svc, hsvc, hsend⟩ | ⟨hno, hsend⟩
    · have hserve : net.serviceOrParent rank msg = .ok (.service svc msg) := by
        rw [serviceOrParent, hsend]
      have hhas : net.Has msg rank := by
        rw [Has, hsvc]
        rfl
      exact ⟨_, inject_service (hdcd.trans (congrArg _ hserve)),
        .inl ⟨rank, nearest_self hhas, svc, msg, hsvc, rfl, rfl⟩⟩
    · rcases Nat.eq_zero_or_pos rank with rfl | hpos
      · have hfail : net.serviceOrParent 0 msg = .error .ENOSYS := by
          rw [serviceOrParent, hsend]
          rfl
        refine ⟨_, inject_error (hdcd.trans (congrArg _ hfail)), .inr ⟨?_, rfl, rfl⟩⟩
        intro a ha
        obtain rfl : a = 0 := Nat.le_zero.1 (ha.le fun _ _ => parent_lt)
        exact hno
      · have hpar : net.serviceOrParent rank msg = overlaySendmsgParent rank msg := by
          rw [serviceOrParent, hsend, overlaySendmsgParent, if_neg hpos.ne']
        obtain ⟨p, hp, hprank, hpsz, hinj⟩ :=
          inject_to_parent hpos hrank (hdcd.trans (congrArg _ hpar))
        obtain ⟨t, ht, hsrv⟩ :=
          @ih .respond p { msg with routes := .rank rank :: msg.routes } hpsz (by omega)
            fun x hx routes => htry x (hx.trans hprank.le) routes
        refine ⟨t.cons rank true, ?_, (hsrv.cons hpos.ne).step hp hno⟩
        rw [hinj, ht, Option.map_some]

/-! ### Requests from any rank -/

/-- What becomes of a request that is sent from the rank `r`. -/
structure Routed (net : Network) (mode : ErrorMode) (r : ℕ) (msg : Request) (t : Trace) :
    Prop where
  /-- To a rank of the instance: along the path to it, and to its service. -/
  rank : msg.upstream = false → msg.nodeid < net.size →
    IsPath (parent net.k) r msg.nodeid t.visited ∧ t.asked = [msg.nodeid] ∧
      net.Served mode r msg t msg.nodeid
  /-- To any rank: to the service on the nearest rank that has it. -/
  any : msg.upstream = false → msg.nodeid = nodeidAny → net.ServedAbove mode r msg t r
  /-- Upstream, from the root. -/
  upstream_root : msg.upstream = true → msg.nodeid = r → r = 0 → Failed mode r t 0 .EHOSTUNREACH
  /-- Upstream, from another rank: to the service on the nearest rank above that has it. -/
  upstream_above : msg.upstream = true → msg.nodeid = r → r ≠ 0 →
    ∃ p, parent net.k r = some p ∧ net.ServedAbove mode r msg t p
  /-- To a rank that does not exist. -/
  unreachable : msg.upstream = false → net.size ≤ msg.nodeid → msg.nodeid ≠ nodeidAny →
    msg.nodeid ≠ nodeidUpstream → Failed mode r t 0 .EHOSTUNREACH
  /-- To the reserved node id. -/
  reserved : msg.nodeid = nodeidUpstream → Failed mode r t r .EPROTO

theorem brokerRequestSendmsg_any (net : Network) (x : ℕ) (hup : msg.upstream = false)
    (hany : msg.nodeid = nodeidAny) :
    net.brokerRequestSendmsg x msg = (true, net.serviceOrParent x msg) := by
  have hres : nodeidAny ≠ nodeidUpstream := by decide
  simp only [brokerRequestSendmsg, fluxMsgGetNodeid, hup, hany, hres, Bool.false_eq_true,
    false_and, or_self, if_false, if_true]

theorem brokerRequestSendmsg_upstream (net : Network) (hup : msg.upstream = true)
    (hsize : msg.nodeid < net.size) (hne : x ≠ msg.nodeid) :
    net.brokerRequestSendmsg x msg = (true, net.serviceOrParent x msg) := by
  obtain ⟨hany, hres⟩ := net.nodeid_of_lt hsize
  simp only [brokerRequestSendmsg, fluxMsgGetNodeid, hup, hany, hres, hne.symm, and_false,
    or_self, if_false, ne_eq, not_false_eq_true, and_self, if_true]

theorem brokerRequestSendmsg_upstream_self (net : Network) (hup : msg.upstream = true)
    (hsize : msg.nodeid < net.size) :
    net.brokerRequestSendmsg msg.nodeid msg = (false, overlaySendmsgParent msg.nodeid msg) := by
  obtain ⟨hany, hres⟩ := net.nodeid_of_lt hsize
  simp only [brokerRequestSendmsg, fluxMsgGetNodeid, hup, hany, hres, and_false, or_self,
    if_false, and_self, if_true]

/-- **Requests reach their destination.** A request that is sent from a rank of the instance,
to whatever node id and in either error mode, is handled by finitely many brokers, and what
becomes of it is what `Routed` says: there is one delivery and no error, or no delivery and
one report of an error. -/
theorem request_routed (net : Network) (mode : ErrorMode) {r : ℕ} (hr : r < net.size)
    (msg : Request) (hup : msg.upstream = true → msg.nodeid = r ∨ msg.nodeid = nodeidUpstream) :
    ∃ t, net.send mode r msg = some t ∧ net.Routed mode r msg t := by
  have htns : r + net.size < 2 * net.size + 1 := by omega
  by_cases hres : msg.nodeid = nodeidUpstream
  · have hdcd : net.brokerRequestSendmsg r msg = (false, .error .EPROTO) := by
      simp only [brokerRequestSendmsg, fluxMsgGetNodeid, hres, or_true, if_true]
    have hsize : ¬ msg.nodeid < net.size := fun h => (net.nodeid_of_lt h).2 hres
    have hrank : msg.nodeid ≠ r := by omega
    refine ⟨_, inject_error hdcd, ?_⟩
    exact ⟨fun _ h => absurd h hsize, fun _ h => absurd (hres.symm.trans h) (by decide),
      fun _ h => absurd h hrank, fun _ h => absurd h hrank, fun _ _ _ h => absurd hres h,
      fun _ => ⟨rfl, congrArg (fun r => [r]) (if_pos rfl).symm⟩⟩
  · cases hflag : msg.upstream with
    | true =>
      obtain rfl : msg.nodeid = r := (hup hflag).resolve_right hres
      have hdcd := brokerRequestSendmsg_upstream_self net hflag hr
      have hup' : msg.upstream ≠ false := by simp [hflag]
      rcases Nat.eq_zero_or_pos msg.nodeid with hzero | hpos
      · rw [overlaySendmsgParent, if_pos hzero] at hdcd
        refine ⟨_, inject_error hdcd, ?_⟩
        exact ⟨fun h => absurd h hup', fun h => absurd h hup',
          fun _ _ _ => ⟨rfl, by rw [if_pos hzero.symm, hzero]⟩, fun _ _ h => absurd hzero h,
          fun h => absurd h hup', fun h => absurd h hres⟩
      obtain ⟨p, hp, hpr, hpsz, hinj⟩ := inject_to_parent hpos hr hdcd
      obtain ⟨t, ht, hsrv⟩ := @inject_above net .respond p (2 * net.size)
        { msg with routes := .rank msg.nodeid :: msg.routes } hpsz (by omega)
        fun x hx routes => brokerRequestSendmsg_upstream net hflag hr (by simp; omega)
      refine ⟨t.cons msg.nodeid false, by rw [send, hinj, ht, Option.map_some], ?_⟩
      exact ⟨fun h => absurd h hup', fun h => absurd h hup',
        fun _ _ h => absurd h hpos.ne', fun _ _ _ => ⟨p, hp, hsrv.cons hpos.ne⟩,
        fun h => absurd h hup', fun h => absurd h hres⟩
    | false =>
      have hup' : msg.upstream ≠ true := by simp [hflag]
      by_cases hsize : msg.nodeid < net.size
      · obtain ⟨hany, -⟩ := net.nodeid_of_lt hsize
        obtain ⟨t, ht, hpath, -, hasked, hsrv⟩ := inject_path hflag hsize hr htns
        refine ⟨t, ht, ?_⟩
        exact ⟨fun _ _ => ⟨hpath, hasked, hsrv⟩, fun _ h => absurd h hany,
          fun h => absurd h hup', fun h => absurd h hup',
          fun _ h => absurd hsize (not_lt.2 h), fun h => absurd h hres⟩
      by_cases hany : msg.nodeid = nodeidAny
      · obtain ⟨t, ht, hsrv⟩ := @inject_above net mode r (2 * net.size + 1) msg hr
          (by omega) fun x _ routes => brokerRequestSendmsg_any net x hflag hany
        refine ⟨t, ht, ?_⟩
        exact ⟨fun _ h => absurd h hsize, fun _ _ => hsrv,
          fun h => absurd h hup', fun h => absurd h hup',
          fun _ _ h => absurd hany h, fun h => absurd h hres⟩
      obtain ⟨t, ht, hfailed⟩ := @inject_unreachable net mode r (2 * net.size + 1) msg
        hflag (not_lt.1 hsize) hany hres hr (by omega)
      refine ⟨t, ht, ?_⟩
      exact ⟨fun _ h => absurd h hsize, fun _ h => absurd h hany,
        fun h => absurd h hup', fun h => absurd h hup',
        fun _ _ _ _ => hfailed, fun h => absurd h hres⟩

/-- A binary tree of three brokers, with the service `x` on the root. -/
def threeBrokers : Network :=
  { k := 2, size := 3, arity_pos := by decide, size_pos := by decide, fit := by decide
    services := fun rank name => if rank = 0 ∧ name = [120] then some .handle else none }

/-- From rank 2 to rank 1, and to the nearest service `x`. -/
theorem request_routed_threeBrokers : 2 < threeBrokers.size ∧
    (∃ t, threeBrokers.send .respond 2 { nodeid := 1, topic := [120], routes := [] } = some t ∧
      threeBrokers.Routed .respond 2 { nodeid := 1, topic := [120], routes := [] } t) ∧
    ∃ t, threeBrokers.send .respond 2
        { nodeid := 2, upstream := true, topic := [120], routes := [] } = some t ∧
      threeBrokers.Routed .respond 2
        { nodeid := 2, upstream := true, topic := [120], routes := [] } t :=
  ⟨by decide, request_routed threeBrokers .respond (by decide) _ nofun,
    request_routed threeBrokers .respond (by decide) _ fun _ => .inl rfl⟩

/-- A request to a rank that does not exist, sent on the handle of rank 0: there is no response,
the send fails. -/
theorem send_unreachable_no_response :
    threeBrokers.send .fail 0 { nodeid := 5, topic := [120], routes := [] }
      = some { visited := [0], asked := [], reports := [.returned .EHOSTUNREACH] } := by
  decide +kernel

end Network

end FluxCore.Broker
