import FluxCore.ConnectorLocal.Server

/-!
# What Most Steps Leave Alone

Most functions of the module change neither the credentials of a client nor its subscriptions,
and put on its queue only requests and messages that are not private (`Calm`). Each of them
has one lemma here; the rest are the handlers of `local.sub`, `local.unsub`, responses and
events, and the beginning and end of a client.
-/

namespace FluxCore.ConnectorLocal.Server

/-- What a client has about its subscriptions. -/
structure Entry where
  uuid : ℕ
  subscriptions : AList (fun _ : Bytes => ℕ)
  subscribed : List Bytes
  unsubscribed : List Bytes

/-- The entry of a client. -/
def Client.entry (c : Client) : Entry :=
  { uuid := c.uuid, subscriptions := c.subscriptions, subscribed := c.subscribed
    unsubscribed := c.unsubscribed }

/-- A message that may be put on any queue. -/
def Harmless (msg : Message) : Prop := msg.type = .request ∨ msg.isPrivate = false

/-- A client before and after a step that concerns neither its credential nor its
subscriptions. -/
structure CalmClient (c c' : Client) : Prop where
  entry : c'.entry = c.entry
  userid : c'.userid = c.userid
  rolemask : c'.rolemask = c.rolemask
  outqueue : ∀ msg ∈ c'.outqueue, msg ∈ c.outqueue ∨ Harmless msg

/-- A state before and after such a step. -/
structure Calm (s s' : Ctx) : Prop where
  clients : ∃ f, s'.clients = s.clients.map f ∧ ∀ c, CalmClient c (f c)
  subscriptions : s'.subscriptions = s.subscriptions
  brokerSubs : s'.brokerSubs = s.brokerSubs
  used : s'.used = s.used

theorem CalmClient.refl (c : Client) : CalmClient c c := ⟨rfl, rfl, rfl, fun _ h => .inl h⟩

theorem CalmClient.trans (h : CalmClient c c') (h' : CalmClient c' c'') : CalmClient c c'' := by
  refine ⟨h'.entry.trans h.entry, h'.userid.trans h.userid, h'.rolemask.trans h.rolemask, ?_⟩
  intro msg hmsg
  rcases h'.outqueue msg hmsg with hmsg | hharmless
  · exact h.outqueue msg hmsg
  · exact .inr hharmless

theorem CalmClient.send (c : Client) (h : Harmless msg) : CalmClient c (c.send msg) := by
  refine ⟨rfl, rfl, rfl, fun m hm => ?_⟩
  rcases List.mem_append.1 hm with hm | hm
  · exact .inl hm
  · exact .inr (List.mem_singleton.1 hm ▸ h)

theorem Calm.of_eq (hcls : s'.clients = s.clients)
    (hsubs : s'.subscriptions = s.subscriptions) (hbroker : s'.brokerSubs = s.brokerSubs)
    (hused : s'.used = s.used) : Calm s s' :=
  ⟨⟨id, by rw [hcls, List.map_id], CalmClient.refl⟩, hsubs, hbroker, hused⟩

theorem Calm.refl (s : Ctx) : Calm s s := .of_eq rfl rfl rfl rfl

theorem Calm.trans (h : Calm s s') (h' : Calm s' s'') : Calm s s'' := by
  obtain ⟨f, hf, hcalm⟩ := h.clients
  obtain ⟨f', hf', hcalm'⟩ := h'.clients
  refine ⟨⟨f' ∘ f, ?_, fun c => (hcalm c).trans (hcalm' (f c))⟩,
    h'.subscriptions.trans h.subscriptions, h'.brokerSubs.trans h.brokerSubs,
    h'.used.trans h.used⟩
  rw [hf', hf, List.map_map]

theorem Calm.foldl {α : Type*} {f : Ctx → α → Ctx} (hf : ∀ s a, Calm s (f s a))
    (as : List α) (s : Ctx) : Calm s (as.foldl f s) := by
  induction as generalizing s with
  | nil => exact .refl s
  | cons a as ih => exact (hf s a).trans (ih (f s a))

/-! ### The functions -/

variable {s s' : Ctx} {c : Client} {msg : Message} {uuid ls : ℕ} {topic name : Bytes}

theorem calm_modify (hf : ∀ c, CalmClient c (f c)) : Calm s (s.modify uuid f) := by
  refine ⟨⟨_, rfl, fun c => ?_⟩, rfl, rfl, rfl⟩
  split_ifs
  · exact hf c
  · exact .refl c

theorem calm_fluxSend : Calm s (s.fluxSend msg) := .of_eq rfl rfl rfl rfl

theorem calm_rpc (k : Continuation) : Calm s (s.rpc topic name k) := .of_eq rfl rfl rfl rfl

theorem calm_fault : Calm s s.fault := .of_eq rfl rfl rfl rfl

theorem calm_respond (errnum : Option Errno) : Calm s (clientRespond s uuid msg errnum) :=
  calm_modify fun c => .send c (.inr rfl)

theorem calm_deleteService : Calm s (s.deleteService name) := by
  rw [Ctx.deleteService]
  split
  · exact .refl s
  · exact .of_eq rfl rfl rfl rfl

theorem calm_localServiceRemove (o : LocalService) : Calm s (localServiceRemove s o) := by
  rw [localServiceRemove]
  split
  · exact calm_fault
  · exact calm_deleteService

theorem calm_localServiceStart (o : LocalService) : Calm s (localServiceStart s ls o) :=
  .of_eq rfl rfl rfl rfl

theorem calm_continuationRespond (errnum : Option Errno) :
    Calm s (continuationRespond s uuid msg errnum) := by
  rw [continuationRespond]
  split
  · exact calm_fault
  · exact calm_respond errnum

theorem calm_call (k : Continuation) (reply : Except Errno Unit) : Calm s (k.call s reply) := by
  cases k with
  | serviceAdd ls msg =>
    rw [Continuation.call, serviceAddContinuation]
    split
    · exact calm_fault
    cases reply with
    | error e => exact (calm_localServiceRemove _).trans (calm_continuationRespond _)
    | ok _ => exact (calm_localServiceStart _).trans (calm_continuationRespond _)
  | serviceRm ls msg =>
    rw [Continuation.call, serviceRmContinuation]
    split
    · exact calm_fault
    cases reply with
    | error e => exact calm_continuationRespond _
    | ok _ => exact (calm_localServiceRemove _).trans (calm_continuationRespond _)
  | dereg => exact .refl s

theorem calm_serviceAddRequest (h : serviceAddRequest s c msg = .ok s') : Calm s s' := by
  rw [serviceAddRequest] at h
  split at h
  · cases h
  simp only [localServiceAdd, localServiceCreate] at h
  split_ifs at h
  cases h
  exact .of_eq rfl rfl rfl rfl

theorem calm_serviceRmRequest (h : serviceRmRequest s c msg = .ok s') : Calm s s' := by
  rw [serviceRmRequest] at h
  split at h
  · cases h
  split at h
  · cases h
  split at h
  · cases h
    exact calm_fault
  split_ifs at h
  cases h
  exact calm_rpc _

theorem calm_doneLater (h : ∀ s', r = .ok s' → Calm s s') : Calm s (doneLater s c msg r) := by
  cases r with
  | error e => exact calm_respond _
  | ok s' => exact h s' rfl

theorem calm_disconnectUpdate (h : disconnectUpdate s c msg = .ok s') : Calm s s' := by
  rw [disconnectUpdate] at h
  split at h
  · cases h
  · cases h
  · cases h
    exact calm_modify fun _ => ⟨rfl, rfl, rfl, fun _ => .inl⟩

theorem calm_requestCb (h : msg.type = .request) : Calm s (requestCb s uuid msg) := by
  refine calm_modify fun c => ?_
  have hsend := CalmClient.send c (.inl h)
  exact { hsend with }

theorem handles_request (h : handles fnmatch o msg = true) : msg.type = .request := by
  simp only [handles, Bool.and_eq_true, decide_eq_true_eq] at h
  exact h.1.1.2

theorem calm_deregister (names : List Bytes) (ds : List (Bytes × ℕ × Bool)) :
    Calm s (ds.foldl (disconnectSendmsg uuid) (clientDeregisterServices s names)) := by
  refine Calm.trans (.foldl (fun s name => ?_) names s) (.foldl (fun s d => ?_) ds _)
  · exact (calm_rpc .dereg).trans calm_deleteService
  · exact calm_fluxSend

theorem clientReadCb_cases (s : Ctx) (c : Client) (msg : Message) :
    Calm s (clientReadCb s c msg) ∨
      (∃ msg', clientReadCb s c msg = doneRespond s c msg' (subRequest s c msg' true)) ∨
      ∃ msg', clientReadCb s c msg = doneRespond s c msg' (subRequest s c msg' false) := by
  rw [clientReadCb]
  split
  · left
    split_ifs
    · exact calm_fluxSend
    · exact .refl s
  rename_i msg _
  split
  · split
    · rename_i s' hint
      rw [internalRequest] at hint
      split at hint
      · cases hint
        exact .inl (.refl s)
      split_ifs at hint <;> cases hint
      · exact .inr (.inl ⟨msg, rfl⟩)
      · exact .inr (.inr ⟨msg, rfl⟩)
      · exact .inl (calm_doneLater fun _ => calm_serviceAddRequest)
      · exact .inl (calm_doneLater fun _ => calm_serviceRmRequest)
    · split
      · exact .inl (.refl s)
      · rename_i hupd
        exact .inl ((calm_disconnectUpdate hupd).trans calm_fluxSend)
  · exact .inl calm_fluxSend
  · exact .inl (calm_fluxSend.trans (calm_modify fun _ => ⟨rfl, rfl, rfl, fun _ => .inl⟩))
  · exact .inl (.refl s)

end FluxCore.ConnectorLocal.Server
