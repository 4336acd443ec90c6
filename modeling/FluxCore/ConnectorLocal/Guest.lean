import FluxCore.ConnectorLocal.Services

/-!
# Guests and the Handlers of the Broker

A guest is a client without the role of the instance owner. The handlers `service_add_cb` and
`service_remove_cb` of `broker.c` are for the owner only, and a message of a guest keeps the
role of the guest all the way. But `service.add` and `service.remove` are not sent on: the
module makes an RPC of its own of them, without a credential, and `module_recvmsg` gives it
that of the owner.

`guest_handlers_iff` says which messages have this effect: the requests to add a service whose
name is free, and to remove one of the client's own.
-/

namespace FluxCore.ConnectorLocal.Server

open Broker

/-! ### The broker -/

/-- `module_recvmsg`: the broker gets a message of the module with the uuid `m`. What has no
credential gets that of the instance owner. -/
def moduleRecvmsg (m : ℕ) (owner : UInt32) (msg : Message) : Except Errno Message :=
  let cred (routes : Option (List RouteId)) : Message :=
    { msg with
      routes := routes
      userid := if msg.userid = useridUnknown then owner else msg.userid
      rolemask := if msg.rolemask = roleNone then roleOwner else msg.rolemask }
  match msg.type, msg.routes with
  | .response, none => .error .EPROTO
  | .response, some routes => .ok (cred (some routes.tail))
  | .request, none => .error .EPROTO
  | .request, some routes => .ok (cred (some (.uuid m :: routes)))
  | .event, none => .error .EPROTO
  | .event, some routes => .ok (cred (some (.uuid m :: routes)))
  | .keepalive, routes => .ok (cred routes)

/-- The handlers for services in the table `htab`. -/
inductive Handler
  | serviceAddCb
  | serviceRemoveCb
deriving DecidableEq

/-- `dispatch_message` and `call_handler`, for these handlers: the topic has to match, and the
message has to have the role of the owner. -/
def dispatchMessage (msg : Message) : Option Handler :=
  if msg.type = .request ∧ msg.rolemask &&& roleOwner ≠ 0 then
    if msg.topic = some (ascii "service.add") then some .serviceAddCb
    else if msg.topic = some (ascii "service.remove") then some .serviceRemoveCb
    else none
  else none

/-- The request that is routed. -/
def Message.toRequest (msg : Message) (topic : Bytes) : Request :=
  { nodeid := msg.nodeid, upstream := msg.upstream, topic := topic
    routes := msg.routes.getD [] }

/-- The handler that runs, on some rank, because the module has sent a message: the request has
to be routed to the handle of a broker. -/
def handlerRun (net : Network) (rank m : ℕ) (owner : UInt32) (msg : Message) : Option Handler :=
  match moduleRecvmsg m owner msg with
  | .error _ => none
  | .ok msg =>
    match msg.topic with
    | none => none
    | some topic =>
      if ((net.send .respond rank (msg.toRequest topic)).any fun t =>
          t.delivered.any (·.2.1 = .handle))
      then dispatchMessage msg else none

/-! ### Messages of a guest -/

/-- The client is no guest. -/
def Client.isOwner (c : Client) : Bool := c.rolemask &&& roleOwner ≠ 0

/-- The names that are free, and for which there is room in the pattern of the handler. -/
def Addable (s : Ctx) (name : Bytes) : Prop :=
  s.services.lookup name = none ∧ name.length + 2 < 1024

/-- The names of the services of a client. -/
def Removable (s : Ctx) (c : Client) (name : Bytes) : Prop :=
  ∃ ls ∈ s.services.lookup name, ∃ o ∈ s.service? ls, o.client = c.uuid

/-- What a message of the client `c` asks of the services: to add one with a name that is free,
and for which there is room, or to remove one of its own. -/
def Registers (s : Ctx) (c : Client) (msg : Message) : Prop :=
  (checkCred c msg).isSome ∧ msg.type = .request ∧ ∃ name ∈ msg.payload.lookup "service",
    (msg.topic = some (ascii "service.add") ∧ Addable s name) ∨
      (msg.topic = some (ascii "service.remove") ∧ Removable s c name)

/-- The messages that a step has sent to the broker. -/
def newSent (s s' : Ctx) : List Message := s'.sent.drop s.sent.length

/-- If the step is a message of a guest, then no handler for services runs because of it. -/
def NoHandler (net : Network) (rank m : ℕ) (owner : UInt32) (s : Ctx) (l : Label) (s' : Ctx) :
    Prop :=
  match l with
  | .read uuid _ => ∀ c ∈ s.client? uuid, c.isOwner = false →
      ∀ out ∈ newSent s s', handlerRun net rank m owner out = none
  | _ => True

/-- If the step is a message of a guest, then it does not register a service. -/
def Modest (s : Ctx) (l : Label) : Prop :=
  match l with
  | .read uuid msg => ∀ c ∈ s.client? uuid, c.isOwner = false → ¬ Registers s c msg
  | _ => True

instance (s : Ctx) (c : Client) (msg : Message) : Decidable (Registers s c msg) := by
  unfold Registers Addable Removable
  infer_instance

instance (net : Network) (rank m : ℕ) (owner : UInt32) (s : Ctx) (l : Label) (s' : Ctx) :
    Decidable (NoHandler net rank m owner s l s') :=
  match l with
  | .read uuid _ => inferInstanceAs (Decidable (∀ c ∈ s.client? uuid, c.isOwner = false →
      ∀ out ∈ newSent s s', handlerRun net rank m owner out = none))
  | .connect .. | .disconnect .. | .response _ | .event _ | .request .. | .reply .. =>
    .isTrue trivial

instance (s : Ctx) (l : Label) : Decidable (Modest s l) :=
  match l with
  | .read uuid msg => inferInstanceAs (Decidable (∀ c ∈ s.client? uuid, c.isOwner = false →
      ¬ Registers s c msg))
  | .connect .. | .disconnect .. | .response _ | .event _ | .request .. | .reply .. =>
    .isTrue trivial

/-! ### What is sent -/

variable {net : Network} {rank m : ℕ} {owner : UInt32} {s s' : Ctx} {c : Client} {msg : Message}

theorem newSent_of_eq (h : s'.sent = s.sent) : newSent s s' = [] := by
  rw [newSent, h, List.drop_length]

theorem newSent_of_append (h : s'.sent = s.sent ++ [out]) : newSent s s' = [out] := by
  rw [newSent, h, List.drop_left]

theorem handlerRun_none
    (h : msg.type = .request → msg.topic ≠ some (ascii "service.add") ∧
      msg.topic ≠ some (ascii "service.remove")) :
    handlerRun net rank m owner msg = none := by
  have hdispatch : ∀ msg', msg'.type = msg.type → msg'.topic = msg.topic →
      dispatchMessage msg' = none := by
    intro msg' htype htop
    rw [dispatchMessage]
    split_ifs with hreq hadd hrem
    · rw [htop] at hadd
      exact absurd hadd (h (htype ▸ hreq.1)).1
    · rw [htop] at hrem
      exact absurd hrem (h (htype ▸ hreq.1)).2
    · rfl
    · rfl
  rw [handlerRun]
  split
  · rfl
  rename_i msg' hrecv
  have hsame : msg'.type = msg.type ∧ msg'.topic = msg.topic := by
    rw [moduleRecvmsg] at hrecv
    split at hrecv <;> cases hrecv <;> exact ⟨rfl, rfl⟩
  split
  · rfl
  split_ifs
  · exact hdispatch msg' hsame.1 hsame.2
  · rfl

theorem dispatchMessage_ne_none (htype : msg.type = .request)
    (hrole : msg.rolemask &&& roleOwner ≠ 0)
    (htop : msg.topic = some (ascii "service.add") ∨
      msg.topic = some (ascii "service.remove")) : dispatchMessage msg ≠ none := by
  rw [dispatchMessage, if_pos ⟨htype, hrole⟩]
  split_ifs with hadd hrem
  · exact nofun
  · exact nofun
  rcases htop with htop | htop
  · exact absurd htop hadd
  · exact absurd htop hrem

theorem send_any (hany : req.nodeid = nodeidAny) (hup : req.upstream = false)
    (hsvc : net.services rank (subtopic req.topic) = some svc) :
    ∃ t, net.send .respond rank req = some t ∧ t.delivered = [(rank, svc, req)] := by
  have hdcd : net.brokerRequestSendmsg rank req = (true, .ok (.service svc req)) := by
    have hne : nodeidAny ≠ nodeidUpstream := by decide
    simp only [Network.brokerRequestSendmsg, fluxMsgGetNodeid, hup, hany, Bool.false_eq_true,
      false_and, hne, or_self, if_false, if_true, Network.serviceOrParent, Network.serviceSend,
      hsvc]
  exact ⟨_, Network.inject_service hdcd, rfl⟩

theorem handlerRun_rpc (hsvc : net.services rank (ascii "service") = some .handle)
    (name : Bytes) (htop : topic = ascii "service.add" ∨ topic = ascii "service.remove") :
    handlerRun net rank m owner (serviceRpc topic name) ≠ none := by
  have hsub : subtopic topic = ascii "service" := by
    rcases htop with rfl | rfl <;> decide
  simp only [handlerRun, moduleRecvmsg, serviceRpc]
  rw [← hsub] at hsvc
  rw [if_pos]
  · have hrole : roleOwner &&& roleOwner ≠ 0 := by decide
    refine dispatchMessage_ne_none rfl hrole ?_
    rcases htop with rfl | rfl
    · exact .inl rfl
    · exact .inr rfl
  · let req : Request := { nodeid := nodeidAny, topic := topic, routes := [.uuid m] }
    have hany : req.nodeid = nodeidAny := rfl
    obtain ⟨t, ht, hdel⟩ := send_any hany rfl hsvc
    simp only [Message.toRequest, Option.getD_some]
    rw [ht, Option.any_some, hdel]
    rfl

theorem sent_modify (f : Client → Client) (uuid : ℕ) : (s.modify uuid f).sent = s.sent := rfl

theorem sent_subRequest (h : subRequest s c msg subscribe = .ok s') : s'.sent = s.sent := by
  rw [subRequest] at h
  split at h
  · cases h
  split_ifs at h
  · cases h
    rw [clientSubscribe]
    split
    · rfl
    · rw [sent_modify, globalSubscribe]
      split <;> rfl
  rw [clientUnsubscribe] at h
  split at h
  · cases h
  simp only at h
  split_ifs at h <;> cases h
  · rw [globalUnsubscribe]
    split
    · rfl
    · split_ifs <;> rfl
  · rfl

theorem sent_doneRespond (subscribe : Bool) :
    (doneRespond s c msg (subRequest s c msg subscribe)).sent = s.sent := by
  cases h : subRequest s c msg subscribe with
  | error e => rfl
  | ok s' => exact (sent_modify _ _).trans (sent_subRequest h)

theorem unpack_eq (key : String) :
    msg.unpack key = (msg.payload.lookup key).elim (.error .EPROTO) .ok := by
  rw [Message.unpack]
  cases msg.payload.lookup key <;> rfl

theorem serviceAddRequest_sent (s : Ctx) (c : Client) (msg : Message) :
    (∃ name ∈ msg.payload.lookup "service", Addable s name ∧
        (doneLater s c msg (serviceAddRequest s c msg)).sent
          = s.sent ++ [serviceRpc (ascii "service.add") name]) ∨
      (∀ name ∈ msg.payload.lookup "service", ¬ Addable s name) ∧
        (doneLater s c msg (serviceAddRequest s c msg)).sent = s.sent := by
  rw [serviceAddRequest, unpack_eq]
  cases hname : msg.payload.lookup "service" with
  | none => exact .inr ⟨by simp, rfl⟩
  | some name =>
    simp only [Option.elim_some, Option.mem_def, Option.some_inj, exists_eq_left', forall_eq',
      Addable, localServiceAdd, localServiceCreate]
    by_cases hfree : s.services.lookup name = none
    · rw [hfree]
      by_cases hlen : name.length + 2 ≥ 1024
      · rw [if_pos hlen]
        exact .inr ⟨fun h => by omega, rfl⟩
      · rw [if_neg hlen]
        exact .inl ⟨⟨rfl, by omega⟩, rfl⟩
    · rw [if_pos (Option.isSome_iff_ne_none.2 hfree)]
      exact .inr ⟨fun h => hfree h.1, rfl⟩

theorem serviceRmRequest_sent (s : Ctx) (c : Client) (msg : Message) :
    (∃ name ∈ msg.payload.lookup "service", Removable s c name ∧
        (doneLater s c msg (serviceRmRequest s c msg)).sent
          = s.sent ++ [serviceRpc (ascii "service.remove") name]) ∨
      (∀ name ∈ msg.payload.lookup "service", ¬ Removable s c name) ∧
        (doneLater s c msg (serviceRmRequest s c msg)).sent = s.sent := by
  rw [serviceRmRequest, unpack_eq]
  cases hname : msg.payload.lookup "service" with
  | none => exact .inr ⟨by simp, rfl⟩
  | some name =>
    simp only [Option.elim_some, Option.mem_def, Option.some_inj, exists_eq_left', forall_eq',
      Removable]
    cases hls : s.services.lookup name with
    | none => exact .inr ⟨by simp, rfl⟩
    | some ls =>
      simp only [Option.some_inj, exists_eq_left']
      cases ho : s.service? ls with
      | none => exact .inr ⟨by simp, rfl⟩
      | some o =>
        simp only [Option.some_inj, exists_eq_left']
        by_cases hcli : o.client = c.uuid
        · rw [if_neg (not_not.2 hcli.symm)]
          exact .inl ⟨hcli, rfl⟩
        · rw [if_pos (Ne.symm hcli)]
          exact .inr ⟨hcli, rfl⟩

theorem quiet_iff (hsent : s'.sent = s.sent ∨ ∃ out, s'.sent = s.sent ++ [out] ∧
      handlerRun net rank m owner out = none) (hmod : ¬ Registers s c msg) :
    (∀ out ∈ newSent s s', handlerRun net rank m owner out = none) ↔ ¬ Registers s c msg := by
  refine iff_of_true ?_ hmod
  rcases hsent with hsent | ⟨out, hsent, hnone⟩
  · rw [newSent_of_eq hsent]
    exact List.forall_mem_nil _
  · rw [newSent_of_append hsent]
    exact List.forall_mem_singleton.2 hnone

theorem loud_iff (hsvc : net.services rank (ascii "service") = some .handle)
    (htop : topic = ascii "service.add" ∨ topic = ascii "service.remove")
    (hsent : s'.sent = s.sent ++ [serviceRpc topic name]) (hreg : Registers s c msg) :
    (∀ out ∈ newSent s s', handlerRun net rank m owner out = none) ↔ ¬ Registers s c msg := by
  refine iff_of_false ?_ (not_not.2 hreg)
  rw [newSent_of_append hsent, List.forall_mem_singleton]
  exact handlerRun_rpc hsvc name htop

theorem registers_iff (hcred : checkCred c msg = some msg') :
    Registers s c msg ↔ msg'.type = .request ∧ ∃ name ∈ msg'.payload.lookup "service",
      (msg'.topic = some (ascii "service.add") ∧ Addable s name) ∨
        (msg'.topic = some (ascii "service.remove") ∧ Removable s c name) := by
  obtain ⟨htype, htop, hpay, -, -⟩ := checkCred_rest hcred
  rw [Registers, hcred, htype, htop, hpay]
  exact and_iff_right rfl

theorem internal_handlers_iff (hsvc : net.services rank (ascii "service") = some .handle)
    (hcred : checkCred c msg = some msg') (hreq : msg'.type = .request)
    (hs' : internalRequest s c msg' = some s') :
    (∀ out ∈ newSent s s', handlerRun net rank m owner out = none) ↔ ¬ Registers s c msg := by
  have hreg := registers_iff (s := s) hcred
  have hlocal : ∀ topic, msg'.topic = some topic →
      topic ≠ ascii "service.add" ∧ topic ≠ ascii "service.remove" → ¬ Registers s c msg := by
    intro topic htop hne h
    obtain ⟨-, name, -, ⟨hadd, -⟩ | ⟨hrem, -⟩⟩ := hreg.1 h
    · exact hne.1 (Option.some_inj.1 (htop.symm.trans hadd))
    · exact hne.2 (Option.some_inj.1 (htop.symm.trans hrem))
  have hdist : ascii "service.add" ≠ ascii "service.remove" := by decide
  rw [internalRequest] at hs'
  split at hs'
  · rename_i hnone
    cases hs'
    refine quiet_iff (.inl rfl) fun h => ?_
    obtain ⟨-, name, -, ⟨hadd, -⟩ | ⟨hrem, -⟩⟩ := hreg.1 h
    · cases hnone.symm.trans hadd
    · cases hnone.symm.trans hrem
  rename_i topic htop
  split_ifs at hs' with hsub hunsub hadd hrem <;> cases hs'
  · exact quiet_iff (.inl (sent_doneRespond true)) (hlocal topic htop (by rw [hsub]; decide))
  · exact quiet_iff (.inl (sent_doneRespond false)) (hlocal topic htop (by rw [hunsub]; decide))
  · rw [hadd] at htop
    rcases serviceAddRequest_sent s c msg' with
      ⟨name, hname, haddable, hsent⟩ | ⟨hnone, hsent⟩
    · exact loud_iff hsvc (.inl rfl) hsent
        (hreg.2 ⟨hreq, name, hname, .inl ⟨htop, haddable⟩⟩)
    refine quiet_iff (.inl hsent) fun h => ?_
    obtain ⟨-, name, hname, ⟨-, haddable⟩ | ⟨hrem, -⟩⟩ := hreg.1 h
    · exact hnone name hname haddable
    · exact hdist (Option.some_inj.1 (htop.symm.trans hrem))
  · rw [hrem] at htop
    rcases serviceRmRequest_sent s c msg' with
      ⟨name, hname, hremv, hsent⟩ | ⟨hnone, hsent⟩
    · exact loud_iff hsvc (.inr rfl) hsent
        (hreg.2 ⟨hreq, name, hname, .inr ⟨htop, hremv⟩⟩)
    refine quiet_iff (.inl hsent) fun h => ?_
    obtain ⟨-, name, hname, ⟨hadd, -⟩ | ⟨-, hremv⟩⟩ := hreg.1 h
    · exact hdist (Option.some_inj.1 (hadd.symm.trans htop))
    · exact hnone name hname hremv

theorem internalRequest_none (h : internalRequest s c msg' = none) :
    msg'.topic ≠ some (ascii "service.add") ∧ msg'.topic ≠ some (ascii "service.remove") := by
  rw [internalRequest] at h
  split at h
  · cases h
  rename_i topic htop
  split_ifs at h with _ _ hadd hrem
  rw [htop]
  exact ⟨fun heq => hadd (Option.some_inj.1 heq), fun heq => hrem (Option.some_inj.1 heq)⟩

/-- **One message** of a client runs a handler for services exactly if it registers one. -/
theorem read_handlers_iff (hsvc : net.services rank (ascii "service") = some .handle)
    (s : Ctx) (c : Client) (msg : Message) :
    (∀ out ∈ newSent s (clientReadCb s c msg), handlerRun net rank m owner out = none) ↔
      ¬ Registers s c msg := by
  rw [clientReadCb]
  split
  · rename_i hcred
    have hmod : ¬ Registers s c msg := by
      rintro ⟨hsome, -⟩
      rw [hcred] at hsome
      cases hsome
    split_ifs
    · exact quiet_iff (.inr ⟨_, rfl, handlerRun_none fun h => by cases h⟩) hmod
    · exact quiet_iff (.inl rfl) hmod
  · rename_i msg' hcred
    have hmod : (msg'.type = .request → msg'.topic ≠ some (ascii "service.add") ∧
        msg'.topic ≠ some (ascii "service.remove")) → ¬ Registers s c msg := by
      intro hoth h
      obtain ⟨hreq, name, -, ⟨hadd, -⟩ | ⟨hrem, -⟩⟩ := (registers_iff hcred).1 h
      · exact (hoth hreq).1 hadd
      · exact (hoth hreq).2 hrem
    split
    · rename_i hreq
      split
      · rename_i hint
        exact internal_handlers_iff hsvc hcred hreq hint
      rename_i hint
      have hoth := internalRequest_none hint
      split
      · exact quiet_iff (.inl rfl) (hmod fun _ => hoth)
      rename_i hupd
      refine quiet_iff (.inr ⟨{ msg' with routes := some (.uuid c.uuid :: msg'.routes.getD []) },
        ?_, handlerRun_none fun _ => hoth⟩) (hmod fun _ => hoth)
      rw [disconnectUpdate] at hupd
      split at hupd <;> cases hupd
      rfl
    · rename_i hevent
      have hoth : msg'.type ≠ .request := by rw [hevent]; decide
      exact quiet_iff (.inr ⟨_, rfl, handlerRun_none fun h => absurd h hoth⟩)
        (hmod fun h => absurd h hoth)
    · rename_i hresponse
      have hoth : msg'.type ≠ .request := by rw [hresponse]; decide
      exact quiet_iff (.inr ⟨_, rfl, handlerRun_none fun h => absurd h hoth⟩)
        (hmod fun h => absurd h hoth)
    · rename_i hka
      have hoth : msg'.type ≠ .request := by rw [hka]; decide
      exact quiet_iff (.inl rfl) (hmod fun h => absurd h hoth)

/-- **Guests and the handlers for services.** In a run of the module, no message of a guest runs
one of the handlers on any broker, if and only if no message of a guest registers a service. -/
theorem guest_handlers_iff (net : Network) (rank m : ℕ) (owner : UInt32)
    (hservice : net.services rank (ascii "service") = some .handle)
    (fnmatch : Bytes → Bytes → Bool) (ls : List Label) :
    (server fnmatch).AllSteps (NoHandler net rank m owner) ls {} ↔
      (server fnmatch).AllSteps (fun s l _ => Modest s l) ls {} := by
  refine Machine.allSteps_congr (fun _ => True) (fun _ _ _ _ _ _ => trivial) ?_ ls trivial
  intro s l s' _ hs'
  cases l with
  | read uuid msg =>
    refine forall_congr' fun c => forall_congr' fun hc => forall_congr' fun _ => ?_
    simp only [server, Option.mem_def.1 hc] at hs'
    split_ifs at hs'
    cases hs'
    exact read_handlers_iff hservice s c msg
  | _ => exact Iff.rfl

/-- A single broker, with the services of the broker itself. -/
def loneBroker : Network :=
  { k := 1, size := 1, arity_pos := by decide, size_pos := by decide, fit := by decide
    services := fun _ name => if name = ascii "service" then some .handle else none }

/-- A guest that asks for nothing of the kind: its request is sent on with its own role, and a
request with the role of the owner is refused. -/
theorem guest_handlers_iff_loneBroker :
    (server fun _ _ => false).AllSteps (NoHandler loneBroker 0 5 0)
      [.connect 1 10 roleUser, .read 1 { type := .request, topic := some (ascii "service.list") },
        .read 1 { serviceMessage "service.add" [97] with rolemask := roleOwner }] {} :=
  (guest_handlers_iff loneBroker 0 5 0 rfl _ _).2 (by decide +kernel)

/-- **A guest adds a service:** the handler for the owner runs. -/
theorem guest_adds_service : ¬ (server fun _ _ => false).AllSteps (NoHandler loneBroker 0 5 0)
      [.connect 1 10 roleUser, .read 1 (serviceMessage "service.add" [97])] {} := by
  decide +kernel

end FluxCore.ConnectorLocal.Server
