import FluxCore.Broker.Retrace
import FluxCore.ConnectorLocal.Guest

/-!
# Responses of Guests

A response is routed by its frames only. One that a client has written is sent on as it is, the
broker takes off the first frame, and whoever the others lead to gets it: `Leads` says hop by
hop that they are the ranks of neighbours and then the uuid of a module. Nobody asks if the
client has been sent a request with these frames.

`guest_forges_iff`: a run has no forged response if and only if every response of a guest whose
frames lead to a module is the answer to a request that the client was given.
-/

namespace FluxCore.ConnectorLocal.Server

open Broker Kary NumberedTree Option

/-! ### Where a response gets -/

/-- The frames lead from a rank to a module. -/
def Leads (b : Instance) : ℕ → List RouteId → Prop
  | _, [] => False
  | rank, .uuid u :: _ => u ∈ b.modhash rank
  | rank, .rank r :: routes => r < b.size ∧ Adjacent (parent b.k) r rank ∧ Leads b r routes

/-- Frames can be followed. -/
instance decidableLeads (b : Instance) : ∀ rank routes, Decidable (Leads b rank routes)
  | _, [] => .isFalse not_false
  | rank, .uuid u :: _ => inferInstanceAs (Decidable (u ∈ b.modhash rank))
  | rank, .rank r :: routes =>
    have : Decidable (Leads b r routes) := decidableLeads b r routes
    have : Decidable (Adjacent (parent b.k) r rank) :=
      inferInstanceAs (Decidable (parent b.k r = some rank ∨ parent b.k rank = some r))
    inferInstanceAs (Decidable (r < b.size ∧ Adjacent (parent b.k) r rank ∧ Leads b r routes))

/-- The response is delivered to a module. -/
def GetsToModule (b : Instance) (rank : ℕ) (msg : Response) : Prop :=
  ∃ t, b.returnPath (msg.routes.length + 1) rank msg = some t ∧
    ∃ d ∈ t.delivered, ∃ u, d.2.1 = .module u

variable {b : Instance} {rank : ℕ}

theorem getsToModule_nil (topic : Bytes) :
    ¬ GetsToModule b rank { topic := topic, routes := [] } := by
  rintro ⟨t, ht, d, hd, u, hu⟩
  cases ht
  rw [List.mem_singleton.1 hd] at hu
  cases hu

theorem getsToModule_uuid (u : ℕ) (routes : List RouteId) (topic : Bytes) :
    GetsToModule b rank { topic := topic, routes := .uuid u :: routes } ↔ u ∈ b.modhash rank := by
  rw [GetsToModule, Instance.returnPath, Instance.brokerResponseSendmsg]
  simp only [List.head?_cons, reduceCtorEq, and_false, if_false, Instance.moduleResponseSendmsg]
  by_cases hu : u ∈ b.modhash rank
  · simp only [hu, if_true, iff_true]
    exact ⟨_, rfl, _, List.mem_singleton_self _, u, rfl⟩
  simp only [hu, if_false, Instance.arrive, iff_false]
  rintro ⟨t, ht, d, hd, -⟩
  cases ht
  cases hd

theorem returnPath_stranger (hrank : rank < b.size)
    (hne : ¬ (r < b.size ∧ Adjacent (parent b.k) r rank)) (topic : Bytes)
    (routes : List RouteId) :
    b.returnPath (turns + 1) rank { topic := topic, routes := .rank r :: routes }
      = some { visited := [rank] } := by
  have hup : ¬ (karyParentof b.k rank ≠ karyNone ∧
      RouteId.rank r = .rank (karyParentof b.k rank)) := by
    rintro ⟨hnone, heq⟩
    rcases Nat.eq_zero_or_pos rank with rfl | hpos
    · exact hnone karyParentof_zero
    obtain ⟨p, hkary, hp, hpsz⟩ := Shape.karyParentof_pos (t := b.toShape) hpos hrank
    rw [hkary] at heq
    cases heq
    exact hne ⟨hpsz, .inr hp⟩
  have hdown : ¬ (r < b.size ∧ karyParentof b.k r = rank) := by
    rintro ⟨hr, hkary⟩
    exact hne ⟨hr, .inl ((Shape.karyParentof_eq_iff hr hrank).1 hkary)⟩
  rw [Instance.returnPath, Instance.brokerResponseSendmsg]
  simp only [List.head?_cons, if_neg hup, Instance.moduleResponseSendmsg, Instance.arrive,
    if_neg hdown]

/-- **The frames decide** who gets a response. -/
theorem getsToModule_iff (hrank : rank < b.size) (topic : Bytes) (routes : List RouteId) :
    GetsToModule b rank { topic := topic, routes := routes } ↔ Leads b rank routes := by
  induction routes generalizing rank with
  | nil => exact iff_of_false (getsToModule_nil topic) not_false
  | cons frame routes ih =>
    cases frame with
    | uuid u => exact getsToModule_uuid u routes topic
    | rank r =>
      by_cases hadj : r < b.size ∧ Adjacent (parent b.k) r rank
      · rw [Leads, and_iff_right hadj.1, and_iff_right hadj.2, ← ih hadj.1, GetsToModule,
          Instance.returnPath_hop hadj.1 hrank hadj.2]
        constructor
        · rintro ⟨t, ht, hd⟩
          obtain ⟨t', ht', rfl⟩ := map_eq_some_iff.1 ht
          exact ⟨t', ht', hd⟩
        · rintro ⟨t, ht, hd⟩
          exact ⟨_, map_eq_some_iff.2 ⟨t, ht, rfl⟩, hd⟩
      · refine iff_of_false ?_ fun hleads => hadj ⟨hleads.1, hleads.2.1⟩
        rintro ⟨t, ht, d, hd, -⟩
        rw [returnPath_stranger hrank hadj] at ht
        cases ht
        cases hd

/-! ### Responses of a client -/

/-- A message that the module has sent is a response that is delivered to a module. -/
def Delivered (b : Instance) (rank m : ℕ) (owner : UInt32) (out : Message) : Prop :=
  out.type = .response ∧ ∃ msg, moduleRecvmsg m owner out = .ok msg ∧
    GetsToModule b rank { topic := msg.topic.getD [], routes := msg.routes.getD [] }

/-- The message answers a request that the client has been given and has not answered. -/
def Solicited (c : Client) (msg : Message) : Prop := ∃ req ∈ c.unanswered, msg.answers req = true

/-- If the step is a response of a guest that is delivered, then it has been solicited. -/
def NotForged (b : Instance) (rank m : ℕ) (owner : UInt32) (s : Ctx) (l : Label) (s' : Ctx) :
    Prop :=
  match l with
  | .read uuid msg => ∀ c ∈ s.client? uuid, c.isOwner = false → msg.type = .response →
      (∃ out ∈ newSent s s', Delivered b rank m owner out) → Solicited c msg
  | _ => True

/-- If the step is a response of a guest with a valid credential, whose frames behind the first
lead to a module, then it has been solicited. -/
def Honest (b : Instance) (rank : ℕ) (s : Ctx) (l : Label) : Prop :=
  match l with
  | .read uuid msg => ∀ c ∈ s.client? uuid, c.isOwner = false → msg.type = .response →
      (checkCred c msg).isSome → Leads b rank (msg.routes.getD []).tail → Solicited c msg
  | _ => True

instance (b : Instance) (rank : ℕ) (s : Ctx) (l : Label) : Decidable (Honest b rank s l) :=
  match l with
  | .read uuid msg => inferInstanceAs (Decidable (∀ c ∈ s.client? uuid, c.isOwner = false →
      msg.type = .response → (checkCred c msg).isSome →
        Leads b rank (msg.routes.getD []).tail → ∃ req ∈ c.unanswered, msg.answers req = true))
  | .connect .. | .disconnect .. | .response _ | .event _ | .request .. | .reply .. =>
    .isTrue trivial

theorem delivered_iff (hrank : rank < b.size) (m : ℕ) (owner : UInt32)
    (htype : out.type = .response) :
    Delivered b rank m owner out ↔ Leads b rank (out.routes.getD []).tail := by
  rw [Delivered, and_iff_right htype]
  cases hrtes : out.routes with
  | none =>
    refine iff_of_false ?_ not_false
    rintro ⟨msg, hmsg, -⟩
    simp only [moduleRecvmsg, htype, hrtes] at hmsg
    cases hmsg
  | some routes =>
    simp only [moduleRecvmsg, htype, hrtes, Except.ok.injEq, exists_eq_left', getD_some]
    exact getsToModule_iff hrank _ _

theorem newSent_response (htype : msg.type = .response) :
    newSent s (clientReadCb s c msg) = (checkCred c msg).toList := by
  rw [clientReadCb]
  cases hcred : checkCred c msg with
  | none =>
    simp only [htype, reduceCtorEq, if_false]
    exact newSent_of_eq rfl
  | some msg' =>
    have htype' := (checkCred_rest hcred).1.trans htype
    simp only [htype']
    exact newSent_of_append rfl

/-- **Responses of guests.** A run has no forged response, delivered to a module or through one
to a client, if and only if every response of a guest whose frames lead to a module has been
solicited. -/
theorem guest_forges_iff (b : Instance) {rank : ℕ} (hrank : rank < b.size) (m : ℕ)
    (owner : UInt32) (fnmatch : Bytes → Bytes → Bool) (ls : List Label) :
    (server fnmatch).AllSteps (NotForged b rank m owner) ls {} ↔
      (server fnmatch).AllSteps (fun s l _ => Honest b rank s l) ls {} := by
  refine Machine.allSteps_congr (fun _ => True) (fun _ _ _ _ _ _ => trivial) ?_ ls trivial
  intro s l s' _ hs'
  cases l with
  | read uuid msg =>
    refine forall_congr' fun c => forall_congr' fun hc => forall_congr' fun _ =>
      forall_congr' fun htype => ?_
    simp only [server, mem_def.1 hc] at hs'
    split_ifs at hs'
    cases hs'
    rw [newSent_response htype]
    cases hcred : checkCred c msg with
    | none =>
      refine iff_of_true ?_ fun h => by cases h
      rintro ⟨out, hout, -⟩
      cases hout
    | some msg' =>
      obtain ⟨htype', -, -, hrtes, -⟩ := checkCred_rest hcred
      rw [toList_some, ← hrtes, ← delivered_iff hrank m owner (htype'.trans htype)]
      simp only [List.mem_singleton, exists_eq_left, isSome_some, forall_const]
  | _ => exact Iff.rfl

/-- A response with frames that lead from rank 2 over three hops to a module on rank 3. -/
def farResponse : Message :=
  { type := .response, matchtag := 1
    routes := some [.rank 2, .rank 0, .rank 1, .rank 3, .uuid 7, .uuid 4] }

/-- A guest has added a service, and it answers a request that it was given. -/
def honestGuest : List Label :=
  [.connect 1 10 roleUser, .read 1 (serviceMessage "service.add" [97]), .reply 0 (.ok ()),
    .request 0 { farResponse with
      type := .request, topic := some [97, 46, 98], userid := 0, rolemask := roleOwner },
    .read 1 farResponse]

theorem guest_forges_iff_honestGuest :
    (server fun _ _ => true).AllSteps (NotForged Instance.fourBrokers 2 9 0) honestGuest {} :=
  (guest_forges_iff Instance.fourBrokers (by decide) 9 0 _ _).2 (by decide +kernel)

/-- **A guest forges a response:** it has been given no request, and the module on rank 3 gets
the response. -/
theorem guest_forges : ¬ (server fun _ _ => true).AllSteps (NotForged Instance.fourBrokers 2 9 0)
      [.connect 1 10 roleUser, .read 1 farResponse] {} := by
  intro h
  obtain ⟨-, hread⟩ := h _ rfl
  obtain ⟨hforged, -⟩ := hread _ rfl
  have hleads : Leads Instance.fourBrokers 2 (farResponse.routes.getD []).tail := by
    decide +kernel
  obtain ⟨req, hreq, -⟩ := hforged _ rfl rfl rfl
    ⟨_, List.mem_singleton_self _, (delivered_iff (by decide) 9 0 rfl).2 hleads⟩
  cases hreq

end FluxCore.ConnectorLocal.Server
