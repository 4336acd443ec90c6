import FluxCore.ConnectorLocal.Subscriptions

/-!
# Private Messages

A private message is for the instance owner and for the user who has sent it. `event_cb` asks
`allowed_message` before it sends. `response_cb` sends first: in its condition the send stands
to the left of the question, which is asked only if the send has failed.

A run keeps private messages private exactly if every response that it has for a client is
allowed for it (`private_iff`).
-/

namespace FluxCore.ConnectorLocal.Server

open List

/-- No client has a response or an event on its queue that it must not see. -/
def Discreet (s : Ctx) : Prop :=
  ∀ c ∈ s.clients, ∀ msg ∈ c.outqueue,
    (msg.type = .response ∨ msg.type = .event) → msg.isPrivate = true →
      c.rolemask &&& roleOwner ≠ 0 ∨ msg.userid = c.userid

instance (s : Ctx) : Decidable (Discreet s) := by
  unfold Discreet
  infer_instance

/-- If the step is a response that is for a client, it is allowed for it. -/
def ResponseAllowed (s : Ctx) : Label → Prop
  | .response msg =>
    ∀ c ∈ s.clients, (msg.routes.bind head?) = some (.uuid c.uuid) →
      msg.isPrivate = true → c.rolemask &&& roleOwner ≠ 0 ∨ msg.userid = c.userid
  | _ => True

variable {s s' : Ctx} {msg : Message} {c : Client}

theorem allowedMessage_iff : allowedMessage c msg = true ↔
      (msg.isPrivate = true → c.rolemask &&& roleOwner ≠ 0 ∨ msg.userid = c.userid) := by
  rw [allowedMessage]
  split_ifs with hown hpriv huser
  · exact iff_of_true rfl fun _ => .inl hown
  · refine iff_of_true rfl fun h => ?_
    rw [h] at hpriv
    cases hpriv
  · exact iff_of_true rfl fun _ => .inr huser
  · refine iff_of_false not_false fun h => ?_
    rcases h (by simpa using hpriv) with h | h
    · exact hown h
    · exact huser h

section

variable (h : Discreet s)
include h

theorem Discreet.of_calm (hcalm : Calm s s') : Discreet s' := by
  obtain ⟨f, hf, hcli⟩ := hcalm.clients
  intro c' hc' msg hmsg htype hpriv
  rw [hf] at hc'
  obtain ⟨c, hc, rfl⟩ := List.mem_map.1 hc'
  obtain ⟨-, huid, hrole, hque⟩ := hcli c
  rw [huid, hrole]
  rcases hque msg hmsg with hold | hreq | hpublic
  · exact h c hc msg hold htype hpriv
  · rw [hreq] at htype
    rcases htype with htype | htype <;> cases htype
  · rw [hpublic] at hpriv
    cases hpriv

theorem Discreet.of_clients (hs' : s'.clients = s.clients.map f)
    (hf : ∀ c, (f c).userid = c.userid ∧ (f c).rolemask = c.rolemask ∧
      (f c).outqueue = c.outqueue) : Discreet s' := by
  intro c' hc' msg hmsg htype hpriv
  rw [hs'] at hc'
  obtain ⟨c, hc, rfl⟩ := List.mem_map.1 hc'
  obtain ⟨huid, hrole, hque⟩ := hf c
  rw [hque] at hmsg
  rw [huid, hrole]
  exact h c hc msg hmsg htype hpriv

theorem Discreet.subRequest (hs' : subRequest s c msg subscribe = .ok s') :
    Discreet s' := by
  rw [Server.subRequest] at hs'
  split at hs'
  · cases hs'
  rename_i topic _
  split_ifs at hs'
  · cases hs'
    rw [clientSubscribe]
    split
    · refine h.of_clients rfl fun c => ?_
      split_ifs <;> exact ⟨rfl, rfl, rfl⟩
    · refine h.of_clients (congrArg _ (globalSubscribe_clients s _).1) fun c => ?_
      split_ifs <;> exact ⟨rfl, rfl, rfl⟩
  · rw [clientUnsubscribe] at hs'
    split at hs'
    · cases hs'
    rename_i usecount _
    have hmodify : Discreet (s.modify c.uuid (·.unuse topic (usecount - 1))) := by
      refine h.of_clients rfl fun c => ?_
      split_ifs <;> exact ⟨rfl, rfl, rfl⟩
    simp only at hs'
    split_ifs at hs'
    · cases hs'
      refine hmodify.of_clients (f := id) ?_ fun _ => ⟨rfl, rfl, rfl⟩
      rw [(globalUnsubscribe_clients _ _).1, List.map_id]
    · cases hs'
      exact hmodify

theorem Discreet.read (c : Client) (msg : Message) :
    Discreet (clientReadCb s c msg) := by
  have hdone : ∀ (msg : Message) (subscribe : Bool),
      Discreet (doneRespond s c msg (Server.subRequest s c msg subscribe)) := by
    intro msg subscribe
    cases hsub : Server.subRequest s c msg subscribe with
    | error e => exact h.of_calm (calm_respond _)
    | ok s' => exact (h.subRequest hsub).of_calm (calm_respond _)
  rcases clientReadCb_cases s c msg with hcalm | ⟨msg', hread⟩ | ⟨msg', hread⟩
  · exact h.of_calm hcalm
  · rw [hread]
    exact hdone msg' true
  · rw [hread]
    exact hdone msg' false

theorem Discreet.destroy (c : Client) (topics names : List Bytes) :
    Discreet (clientDestroy s c topics names) := by
  intro c' hc'
  have hmem := mem_of_mem_filter hc'
  rw [(foldl_globalUnsubscribe_clients topics _).1] at hmem
  exact h.of_calm (calm_deregister names c.disconnectNotify) c' hmem

theorem Discreet.event (msg : Message) : Discreet (eventCb s msg) := by
  rw [eventCb]
  split
  · exact h
  intro c' hc' m hm htype hpriv
  obtain ⟨c, hc, rfl⟩ := List.mem_map.1 hc'
  split_ifs at hm ⊢ with hsend
  · rcases mem_append.1 hm with hm | hm
    · exact h c hc m hm htype hpriv
    · rw [mem_singleton.1 hm] at hpriv ⊢
      rw [Bool.and_eq_true] at hsend
      exact allowedMessage_iff.1 hsend.2 hpriv
  · exact h c hc m hm htype hpriv

theorem Discreet.response_iff (htype : msg.type = .response) :
    Discreet (responseCb s msg) ↔ ResponseAllowed s (.response msg) := by
  rw [responseCb, ResponseAllowed]
  split
  · rename_i uuid routes hrtes
    split
    · constructor
      · intro hdiscreet c hc hhead hpriv
        rw [hrtes] at hhead
        cases hhead
        refine hdiscreet (c.send { msg with routes := some routes }) ?_
          { msg with routes := some routes } ?_ (.inl htype) hpriv
        · exact List.mem_map.2 ⟨c, hc, if_pos rfl⟩
        · exact mem_append_right _ (mem_singleton_self _)
      · intro hallowed c' hc' m hm htype' hpriv
        rcases KeyedList.mem_replace hc' with ⟨hc, -⟩ | ⟨c, hc, rfl, rfl⟩
        · exact h c' hc m hm htype' hpriv
        rcases mem_append.1 hm with hm | hm
        · exact h c hc m hm htype' hpriv
        · rw [mem_singleton.1 hm] at hpriv ⊢
          exact hallowed c hc (by rw [hrtes]; rfl) hpriv
    · rename_i hnone
      refine iff_of_true h fun c hc hhead => ?_
      rw [hrtes] at hhead
      cases hhead
      exact absurd (decide_eq_true rfl) (List.find?_eq_none.1 hnone c hc)
  · rename_i hrtes
    refine iff_of_true h fun c hc hhead => ?_
    obtain ⟨l, hl, hhead⟩ := Option.bind_eq_some_iff.1 hhead
    obtain ⟨routes, rfl⟩ := List.head?_eq_some_iff.1 hhead
    exact absurd hl (hrtes c.uuid routes)

/-- **One step** keeps private messages private exactly if it is no response, or one that is
allowed for its client. -/
theorem Discreet.step_iff (hs' : (server fnmatch).step l s = some s') :
    Discreet s' ↔ ResponseAllowed s l := by
  cases moved_of_step hs' with
  | connect hnew =>
    refine iff_of_true (fun c hc msg hmsg => ?_) trivial
    rcases mem_append.1 hc with hc | hc
    · exact h c hc msg hmsg
    · rw [mem_singleton.1 hc] at hmsg
      cases hmsg
  | disconnect hc htops hnms => exact iff_of_true (h.destroy _ _ _) trivial
  | read hc => exact iff_of_true (h.read _ _) trivial
  | response htype => exact h.response_iff htype
  | event => exact iff_of_true (h.event _) trivial
  | request hhs =>
    exact iff_of_true (h.of_calm (calm_requestCb (handles_request hhs))) trivial
  | @reply i k result hk =>
    have h' : Discreet { s with pending := s.pending.eraseIdx i } := h
    exact iff_of_true (h'.of_calm (calm_call k result)) trivial

end

/-- **A run keeps private messages private** exactly if every response of the broker is
allowed for the client that it is for. -/
theorem private_iff (fnmatch : Bytes → Bytes → Bool) (ls : List Label) :
    (server fnmatch).AllSteps (fun _ _ s' => Discreet s') ls {} ↔
      (server fnmatch).AllSteps (fun s l _ => ResponseAllowed s l) ls {} :=
  Machine.allSteps_congr Discreet (fun _ _ _ _ _ h => h) (fun _ _ _ h ht => h.step_iff ht) ls nofun

/-- A guest is connected, and the broker has a private response of another user for it. -/
theorem private_response_sent : ¬ (server fun _ _ => false).AllSteps (fun _ _ s' => Discreet s')
      [.connect 1 10 roleUser,
        .response { type := .response, userid := 20, isPrivate := true, routes := some [.uuid 1] }]
      {} := by
  decide +kernel

end FluxCore.ConnectorLocal.Server
