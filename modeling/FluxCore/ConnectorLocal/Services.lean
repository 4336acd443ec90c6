import FluxCore.ConnectorLocal.Frame

/-!
# Services of Clients and Their Objects

The continuations of the RPCs `service.add` and `service.remove` keep the address of a
`struct local_service`. The object is owned by the table of services, and it is freed when its
name is deleted there: by a continuation, or because its client has disconnected. A
continuation that comes later uses a freed object.

In every run the table holds only services of clients that are connected. No freed object is
used in a run in which a client does not disconnect while an RPC for one of its services is
under way, and does not ask for the removal of a service for which one is (`services_safe`).
-/

namespace FluxCore.ConnectorLocal.Server

open List Option

/-- The address that a continuation keeps. -/
def Continuation.ls? : Continuation → Option ℕ
  | serviceAdd ls _ => some ls
  | serviceRm ls _ => some ls
  | dereg => none

/-- The addresses that are kept by the continuations of RPCs under way. -/
def Ctx.awaited (s : Ctx) : List ℕ := s.pending.filterMap Continuation.ls?

/-- **The condition.** If a client disconnects, then no RPC is under way for one of its
services; and if it asks for the removal of a service, then none is for that service. -/
def Unhurried (s : Ctx) : Label → Prop
  | .disconnect uuid _ _ => ∀ ls ∈ s.awaited, (s.service? ls).all (·.client ≠ uuid)
  | .read _ msg =>
    msg.topic = some (ascii "service.remove") → ∀ name ∈ msg.payload.lookup "service",
      ∀ ls ∈ s.services.lookup name, ls ∉ s.awaited
  | _ => True

instance (s : Ctx) (l : Label) : Decidable (Unhurried s l) := by
  cases l <;> unfold Unhurried <;> infer_instance

/-! ### The heap -/

section Heap

variable {heap : List (Option LocalService)}

theorem heap_set_none :
    ((heap.set a none)[ls]?).join = if ls = a then none else (heap[ls]?).join := by
  rw [List.getElem?_set]
  by_cases h : ls = a
  · subst h
    simp only [if_true]
    split_ifs <;> rfl
  · rw [if_neg (Ne.symm h), if_neg h]

theorem heap_set_some (h : (heap[a]?).join = some o) (o' : LocalService) :
    ((heap.set a (some o'))[ls]?).join = if ls = a then some o' else (heap[ls]?).join := by
  have hlt : a < heap.length := by
    by_contra hle
    rw [List.getElem?_eq_none (not_lt.1 hle)] at h
    cases h
  rw [List.getElem?_set]
  by_cases hls : ls = a
  · subst hls
    simp only [if_true, hlt]
    rfl
  · rw [if_neg (Ne.symm hls), if_neg hls]

theorem heap_append :
    ((heap ++ [some o])[ls]?).join = if ls = heap.length then some o else (heap[ls]?).join := by
  rcases lt_trichotomy ls heap.length with hlt | rfl | hgt
  · rw [List.getElem?_append_left hlt, if_neg hlt.ne]
  · rw [List.getElem?_append_right le_rfl, if_pos rfl, Nat.sub_self]
    rfl
  · rw [if_neg hgt.ne', List.getElem?_eq_none (by simp; omega), List.getElem?_eq_none hgt.le]

end Heap

/-! ### The table -/

/-- **The invariant of the table.** Its entries are the objects that have not been freed, and
their clients are connected. -/
structure TableOk (s : Ctx) : Prop where
  table : ∀ name ls, s.services.lookup name = some ls →
    ∃ o, s.service? ls = some o ∧ o.name = name ∧ o.client ∈ s.clients.map Client.uuid
  alive : ∀ ls o, s.service? ls = some o → s.services.lookup o.name = some ls

/-- The services, and what they depend on, are as they were. -/
structure SameServices (s s' : Ctx) : Prop where
  uuids : s'.clients.map Client.uuid = s.clients.map Client.uuid
  services : s'.services = s.services
  heap : s'.heap = s.heap
  pending : s'.pending = s.pending
  faulted : s'.faulted = s.faulted

variable {s s' : Ctx}

theorem service?_congr (h : s'.heap = s.heap) (ls : ℕ) : s'.service? ls = s.service? ls :=
  congrArg (fun heap : List (Option LocalService) => (heap[ls]?).join) h

theorem TableOk.of_same (h : TableOk s) (hs : SameServices s s') : TableOk s' := by
  refine ⟨fun name ls hlk => ?_, fun ls o ho => ?_⟩
  · rw [hs.services] at hlk
    rw [service?_congr hs.heap, hs.uuids]
    exact h.table name ls hlk
  · rw [service?_congr hs.heap] at ho
    rw [hs.services]
    exact h.alive ls o ho

theorem TableOk.client?_isSome (h : TableOk s) (ho : s.service? ls = some o) :
    ∃ c, s.client? o.client = some c := by
  obtain ⟨o', ho', -, hcli⟩ := h.table _ _ (h.alive ls o ho)
  rw [ho] at ho'
  cases ho'
  exact isSome_iff_exists.1 (KeyedList.find?_isSome_iff.2 hcli)

theorem TableOk.service?_delete (h : TableOk s) (ho : s.service? ls = some o) :
    (s.deleteService name).service? ls = if o.name = name then none else some o := by
  rw [Ctx.deleteService]
  split
  · rename_i hnone
    rw [ho, if_neg]
    rintro rfl
    rw [h.alive ls o ho] at hnone
    cases hnone
  rename_i a ha
  rw [Ctx.service?, heap_set_none]
  by_cases hname : o.name = name
  · subst hname
    rw [h.alive ls o ho] at ha
    cases ha
    rw [if_pos rfl, if_pos rfl]
  rw [if_neg hname, if_neg, ← ho]
  · rfl
  · rintro rfl
    obtain ⟨o', ho', hname', -⟩ := h.table name ls ha
    rw [ho] at ho'
    cases ho'
    exact hname hname'

theorem lookup_deleteService (s : Ctx) (name name' : Bytes) :
    (s.deleteService name).services.lookup name'
      = if name' = name then none else s.services.lookup name' := by
  rw [Ctx.deleteService]
  split
  · rename_i hnone
    split_ifs with hname
    · rw [hname, hnone]
    · rfl
  split_ifs with hname
  · rw [hname]
    exact AList.lookup_erase name s.services
  · exact AList.lookup_erase_ne hname

theorem deleteService_rest (s : Ctx) (name : Bytes) : (s.deleteService name).clients = s.clients ∧
      (s.deleteService name).pending = s.pending ∧
      (s.deleteService name).faulted = s.faulted := by
  rw [Ctx.deleteService]
  split <;> exact ⟨rfl, rfl, rfl⟩

theorem client?_deleteService (s : Ctx) (name : Bytes) (uuid : ℕ) :
    (s.deleteService name).client? uuid = s.client? uuid := by
  rw [Ctx.client?, (deleteService_rest s name).1]
  rfl

theorem service?_of_delete (ho : (s.deleteService name).service? ls = some o) :
    s.service? ls = some o := by
  rw [Ctx.deleteService] at ho
  split at ho
  · exact ho
  rw [Ctx.service?, heap_set_none] at ho
  split_ifs at ho
  exact ho

theorem TableOk.delete (h : TableOk s) (name : Bytes) : TableOk (s.deleteService name) := by
  refine ⟨fun name' ls hlk => ?_, fun ls o ho => ?_⟩
  · rw [lookup_deleteService] at hlk
    split_ifs at hlk with hne
    obtain ⟨o, ho, hname, hcli⟩ := h.table name' ls hlk
    rw [h.service?_delete ho, (deleteService_rest s name).1, hname, if_neg hne]
    exact ⟨o, rfl, hname, hcli⟩
  · have ho' := service?_of_delete ho
    rw [h.service?_delete ho'] at ho
    split_ifs at ho with hne
    rw [lookup_deleteService, if_neg hne]
    exact h.alive ls o ho'

/-! ### Continuations -/

/-- The continuations find their clients, since the table has the objects only of those that
are connected. -/
theorem sameServices_modify (hf : ∀ c, (f c).uuid = c.uuid) : SameServices s (s.modify uuid f) :=
  ⟨KeyedList.map_replace hf, rfl, rfl, rfl, rfl⟩

theorem SameServices.refl (s : Ctx) : SameServices s s := ⟨rfl, rfl, rfl, rfl, rfl⟩

theorem SameServices.trans (h : SameServices s s') (h' : SameServices s' s'') :
    SameServices s s'' :=
  ⟨h'.uuids.trans h.uuids, h'.services.trans h.services, h'.heap.trans h.heap,
    h'.pending.trans h.pending, h'.faulted.trans h.faulted⟩

theorem sameServices_fluxSend : SameServices s (s.fluxSend msg) := ⟨rfl, rfl, rfl, rfl, rfl⟩

theorem sameServices_respond (errnum : Option Errno) :
    SameServices s (clientRespond s uuid msg errnum) :=
  sameServices_modify fun _ => rfl

theorem sameServices_continuationRespond (hc : ∃ c, s.client? uuid = some c)
    (errnum : Option Errno) : SameServices s (continuationRespond s uuid msg errnum) := by
  obtain ⟨c, hc⟩ := hc
  rw [continuationRespond, hc]
  exact sameServices_respond errnum

/-- What a continuation does whose object has not been freed: the object is freed, or started,
or left as it is, and then the client gets a response. -/
theorem call_alive (h : TableOk s) (k : Continuation) (reply : Except Errno Unit)
    (hls : ∀ ls, k.ls? = some ls → (s.service? ls).isSome) : SameServices s (k.call s reply) ∨
      ∃ ls o, k.ls? = some ls ∧ s.service? ls = some o ∧
        (SameServices (s.deleteService o.name) (k.call s reply) ∨
          SameServices (localServiceStart s ls o) (k.call s reply)) := by
  have hrem : ∀ {ls o}, s.service? ls = some o →
      localServiceRemove s o = s.deleteService o.name ∧
        ∃ c, (s.deleteService o.name).client? o.client = some c := by
    intro ls o ho
    obtain ⟨c, hc⟩ := h.client?_isSome ho
    rw [localServiceRemove, client?_deleteService, hc]
    exact ⟨rfl, c, rfl⟩
  cases k with
  | dereg => exact .inl (.refl s)
  | serviceAdd ls msg =>
    obtain ⟨o, ho⟩ := isSome_iff_exists.1 (hls ls rfl)
    refine .inr ⟨ls, o, rfl, ho, ?_⟩
    simp only [Continuation.call, serviceAddContinuation, ho]
    cases reply with
    | error e =>
      rw [(hrem ho).1]
      exact .inl (sameServices_continuationRespond (hrem ho).2 _)
    | ok _ =>
      exact .inr (sameServices_continuationRespond (s := localServiceStart s ls o)
        (h.client?_isSome ho) _)
  | serviceRm ls msg =>
    obtain ⟨o, ho⟩ := isSome_iff_exists.1 (hls ls rfl)
    simp only [Continuation.call, serviceRmContinuation, ho]
    cases reply with
    | error e => exact .inl (sameServices_continuationRespond (h.client?_isSome ho) _)
    | ok _ =>
      refine .inr ⟨ls, o, rfl, ho, ?_⟩
      rw [(hrem ho).1]
      exact .inl (sameServices_continuationRespond (hrem ho).2 _)

theorem call_freed (k : Continuation) (reply : Except Errno Unit) (hk : k.ls? = some ls)
    (hfrd : s.service? ls = none) : k.call s reply = s.fault := by
  cases k with
  | dereg => cases hk
  | serviceAdd ls' msg =>
    cases hk
    rw [Continuation.call, serviceAddContinuation, hfrd]
  | serviceRm ls' msg =>
    cases hk
    rw [Continuation.call, serviceRmContinuation, hfrd]

theorem service?_start (ho : s.service? ls = some o) (ls' : ℕ) :
    (localServiceStart s ls o).service? ls'
      = if ls' = ls then some { o with started := true } else s.service? ls' :=
  heap_set_some ho _

theorem TableOk.start (h : TableOk s) (ho : s.service? ls = some o) :
    TableOk (localServiceStart s ls o) := by
  refine ⟨fun name ls' hlk => ?_, fun ls' o' ho' => ?_⟩
  · obtain ⟨o', ho', hname, hcli⟩ := h.table name ls' hlk
    rw [service?_start ho]
    split_ifs with heq
    · subst heq
      rw [ho] at ho'
      cases ho'
      exact ⟨_, rfl, hname, hcli⟩
    · exact ⟨o', ho', hname, hcli⟩
  · rw [service?_start ho] at ho'
    split_ifs at ho' with heq
    · cases ho'
      rw [heq]
      exact h.alive ls o ho
    · exact h.alive ls' o' ho'

theorem TableOk.fault (h : TableOk s) : TableOk s.fault := { h with }

theorem TableOk.call (h : TableOk s) (k : Continuation) (reply : Except Errno Unit) :
    TableOk (k.call s reply) := by
  by_cases hls : ∀ ls, k.ls? = some ls → (s.service? ls).isSome
  · rcases call_alive h k reply hls with hsame | ⟨ls, o, -, ho, hsame | hsame⟩
    · exact h.of_same hsame
    · exact (h.delete o.name).of_same hsame
    · exact (h.start ho).of_same hsame
  push Not at hls
  obtain ⟨ls, hk, hfrd⟩ := hls
  rw [call_freed k reply hk (by simpa using hfrd)]
  exact h.fault

/-! ### Requests -/

theorem serviceAddRequest_ok (h : serviceAddRequest s c msg = .ok s') :
    ∃ name, s.services.lookup name = none ∧ s'.clients = s.clients ∧
      s'.services = s.services.insert name s.heap.length ∧
      s'.heap = s.heap ++ [some { name := name, client := c.uuid }] ∧
      s'.pending = s.pending ++ [.serviceAdd s.heap.length msg] ∧ s'.faulted = s.faulted := by
  rw [serviceAddRequest] at h
  split at h
  · cases h
  rename_i name _
  simp only [localServiceAdd, localServiceCreate] at h
  split_ifs at h with hsome
  cases h
  exact ⟨name, not_isSome_iff_eq_none.1 hsome, rfl, rfl, rfl, rfl, rfl⟩

theorem serviceRmRequest_ok (htab : TableOk s) (h : serviceRmRequest s c msg = .ok s') :
    ∃ name ls, msg.payload.lookup "service" = some name ∧ s.services.lookup name = some ls ∧
      s' = s.rpc (ascii "service.remove") name (.serviceRm ls msg) := by
  rw [serviceRmRequest] at h
  split at h
  · cases h
  rename_i name hunp
  have hname : msg.payload.lookup "service" = some name := by
    rw [Message.unpack] at hunp
    split at hunp
    · cases hunp
    · cases hunp
      assumption
  split at h
  · cases h
  rename_i ls hls
  obtain ⟨o, ho, -, -⟩ := htab.table name ls hls
  simp only [ho] at h
  split_ifs at h
  cases h
  exact ⟨name, ls, hname, hls, rfl⟩

theorem sameServices_globalSubscribe (topic : Bytes) :
    SameServices s (globalSubscribe s topic) := by
  rw [globalSubscribe]
  split <;> exact ⟨rfl, rfl, rfl, rfl, rfl⟩

theorem sameServices_globalUnsubscribe (topic : Bytes) :
    SameServices s (globalUnsubscribe s topic) := by
  rw [globalUnsubscribe]
  split
  · exact .refl s
  · split_ifs <;> exact ⟨rfl, rfl, rfl, rfl, rfl⟩

theorem sameServices_subRequest (h : subRequest s c msg subscribe = .ok s') :
    SameServices s s' := by
  rw [subRequest] at h
  split at h
  · cases h
  split_ifs at h
  · cases h
    rw [clientSubscribe]
    split
    · exact sameServices_modify fun _ => rfl
    · exact (sameServices_globalSubscribe _).trans (sameServices_modify fun _ => rfl)
  rw [clientUnsubscribe] at h
  split at h
  · cases h
  simp only at h
  split_ifs at h <;> cases h
  · refine SameServices.trans ?_ (sameServices_globalUnsubscribe _)
    exact sameServices_modify fun _ => rfl
  · exact sameServices_modify fun _ => rfl

theorem sameServices_doneRespond (subscribe : Bool) :
    SameServices s (doneRespond s c msg (subRequest s c msg subscribe)) := by
  cases hsub : subRequest s c msg subscribe with
  | error e => exact sameServices_respond _
  | ok s' => exact (sameServices_subRequest hsub).trans (sameServices_respond _)

theorem checkCred_rest (h : checkCred c msg = some msg') :
    msg'.type = msg.type ∧ msg'.topic = msg.topic ∧ msg'.payload = msg.payload ∧
      msg'.routes = msg.routes ∧ msg'.matchtag = msg.matchtag := by
  simp only [checkCred, ite_none_left_eq_some, some_inj] at h
  obtain ⟨-, rfl⟩ := h
  exact ⟨rfl, rfl, rfl, rfl, rfl⟩

theorem sameServices_responseCb : SameServices s (responseCb s msg) := by
  rw [responseCb]
  split
  · split
    · exact sameServices_modify fun _ => rfl
    · exact .refl s
  · exact .refl s

theorem sameServices_eventCb : SameServices s (eventCb s msg) := by
  rw [eventCb]
  split
  · exact .refl s
  refine ⟨?_, rfl, rfl, rfl, rfl⟩
  rw [List.map_map]
  refine map_congr_left fun c _ => ?_
  rw [Function.comp_apply, apply_ite Client.uuid]
  exact ite_self _

theorem clientReadCb_services (s : Ctx) (c : Client) (msg : Message) :
    SameServices s (clientReadCb s c msg) ∨
      (∃ msg', serviceAddRequest s c msg' = .ok (clientReadCb s c msg)) ∨
      msg.topic = some (ascii "service.remove") ∧ ∃ msg', msg'.payload = msg.payload ∧
          serviceRmRequest s c msg' = .ok (clientReadCb s c msg) := by
  rw [clientReadCb]
  split
  · left
    split_ifs
    · exact sameServices_fluxSend
    · exact .refl s
  rename_i msg' hcred
  obtain ⟨-, htop, hpay, -, -⟩ := checkCred_rest hcred
  split
  · split
    · rename_i hint
      rw [internalRequest] at hint
      split at hint
      · cases hint
        exact .inl (.refl s)
      rename_i topic hsome
      split_ifs at hint with _ _ _ hrem <;> cases hint
      · exact .inl (sameServices_doneRespond true)
      · exact .inl (sameServices_doneRespond false)
      · cases hadd : serviceAddRequest s c msg' with
        | error e => exact .inl (sameServices_respond _)
        | ok s' => exact .inr (.inl ⟨msg', hadd⟩)
      cases hrm : serviceRmRequest s c msg' with
      | error e => exact .inl (sameServices_respond _)
      | ok s' =>
        refine .inr (.inr ⟨?_, msg', hpay, hrm⟩)
        rw [← htop, hsome, hrem]
    · split
      · exact .inl (.refl s)
      · rename_i hupd
        rw [disconnectUpdate] at hupd
        left
        split at hupd <;> cases hupd
        refine SameServices.trans ?_ sameServices_fluxSend
        exact sameServices_modify fun _ => rfl
  · exact .inl sameServices_fluxSend
  · exact .inl (sameServices_fluxSend.trans (sameServices_modify fun _ => rfl))
  · exact .inl (.refl s)

theorem TableOk.add (h : TableOk s) (hc : c ∈ s.clients)
    (hadd : serviceAddRequest s c msg = .ok s') : TableOk s' := by
  obtain ⟨name, hnone, hcls, hsvcs, hheap, -, -⟩ := serviceAddRequest_ok hadd
  have hsvc : ∀ ls, s'.service? ls = if ls = s.heap.length then
      some { name := name, client := c.uuid } else s.service? ls := by
    intro ls
    rw [Ctx.service?, hheap, heap_append]
    rfl
  have hlt : ∀ ls o, s.service? ls = some o → ls ≠ s.heap.length := by
    rintro ls o ho rfl
    rw [Ctx.service?, List.getElem?_eq_none le_rfl] at ho
    cases ho
  refine ⟨fun name' ls hlk => ?_, fun ls o ho => ?_⟩
  · rw [hsvcs] at hlk
    by_cases hname : name' = name
    · rw [hname, AList.lookup_insert] at hlk
      cases hlk
      rw [hsvc, if_pos rfl, hcls]
      exact ⟨_, rfl, hname.symm, List.mem_map_of_mem hc⟩
    rw [AList.lookup_insert_ne hname] at hlk
    obtain ⟨o, ho, hname', hcli⟩ := h.table name' ls hlk
    rw [hsvc, if_neg (hlt ls o ho), hcls]
    exact ⟨o, ho, hname', hcli⟩
  · rw [hsvc] at ho
    rw [hsvcs]
    split_ifs at ho with heq
    · cases ho
      rw [AList.lookup_insert, heq]
    have hlk := h.alive ls o ho
    rw [AList.lookup_insert_ne, hlk]
    rintro rfl
    rw [hnone] at hlk
    cases hlk

theorem TableOk.read (h : TableOk s) (hc : c ∈ s.clients) (msg : Message) :
    TableOk (clientReadCb s c msg) := by
  rcases clientReadCb_services s c msg with hsame | ⟨msg', hadd⟩ | ⟨-, msg', -, hrm⟩
  · exact h.of_same hsame
  · exact h.add hc hadd
  obtain ⟨name, ls, -, -, heq⟩ := serviceRmRequest_ok h hrm
  rw [heq]
  exact { h with }

/-! ### The end of a client -/

/-- The state when the services with the names have been deregistered. -/
structure Deregistered (s s' : Ctx) (names : List Bytes) : Prop where
  table : TableOk s'
  uuids : s'.clients.map Client.uuid = s.clients.map Client.uuid
  lookup : ∀ name, s'.services.lookup name
    = if name ∈ names then none else s.services.lookup name
  service : ∀ ls o, s.service? ls = some o →
    s'.service? ls = if o.name ∈ names then none else some o
  old : ∀ ls o, s'.service? ls = some o → s.service? ls = some o
  awaited : s'.awaited = s.awaited
  faulted : s'.faulted = s.faulted

theorem Deregistered.of_same (h : Deregistered s s' names) (hs : SameServices s' s'') :
    Deregistered s s'' names := by
  refine ⟨h.table.of_same hs, hs.uuids.trans h.uuids, fun name => ?_, fun ls o ho => ?_,
    fun ls o ho => ?_, ?_, hs.faulted.trans h.faulted⟩
  · rw [hs.services]
    exact h.lookup name
  · rw [service?_congr hs.heap]
    exact h.service ls o ho
  · rw [service?_congr hs.heap] at ho
    exact h.old ls o ho
  · rw [Ctx.awaited, hs.pending]
    exact h.awaited

theorem deregistered_one (h : TableOk s) (name : Bytes) :
    Deregistered s (deregisterService s name) [name] := by
  have hrpc : TableOk (s.rpc (ascii "service.remove") name .dereg) := { h with }
  obtain ⟨hcls, hpend, hflt⟩ :=
    deleteService_rest (s.rpc (ascii "service.remove") name .dereg) name
  refine ⟨hrpc.delete name, ?_, fun name' => ?_, fun ls o ho => ?_,
    fun ls o ho => ?_, ?_, hflt⟩
  · rw [deregisterService, hcls]
    rfl
  · rw [deregisterService, lookup_deleteService]
    simp only [mem_singleton]
    rfl
  · rw [deregisterService, hrpc.service?_delete (o := o) ho]
    simp only [mem_singleton]
  · exact service?_of_delete (s := s.rpc (ascii "service.remove") name .dereg) ho
  · rw [deregisterService, Ctx.awaited, hpend]
    simp [Ctx.rpc, Ctx.awaited, Continuation.ls?]

theorem Deregistered.cons (hone : Deregistered s s' [name]) (hrest : Deregistered s' s'' names) :
    Deregistered s s'' (name :: names) := by
  refine ⟨hrest.table, hrest.uuids.trans hone.uuids, fun name' => ?_, fun ls o ho => ?_,
    fun ls o ho => hone.old ls o (hrest.old ls o ho), hrest.awaited.trans hone.awaited,
    hrest.faulted.trans hone.faulted⟩
  · rw [hrest.lookup, hone.lookup]
    by_cases hname : name' = name
    · rw [if_pos (mem_singleton.2 hname), ite_self, if_pos (hname ▸ mem_cons_self)]
    · simp only [mem_cons, not_mem_nil, hname, or_false, false_or, if_false]
  · have hsvc := hone.service ls o ho
    by_cases hname : o.name = name
    · rw [if_pos (mem_singleton.2 hname)] at hsvc
      rw [if_pos (hname ▸ mem_cons_self)]
      cases hsome : s''.service? ls with
      | none => rfl
      | some o' =>
        rw [hrest.old ls o' hsome] at hsvc
        cases hsvc
    · rw [if_neg (mem_singleton.not.2 hname)] at hsvc
      rw [hrest.service ls o hsvc]
      simp only [mem_cons, hname, false_or]

theorem deregistered_all (h : TableOk s) (names : List Bytes) :
    Deregistered s (clientDeregisterServices s names) names := by
  induction names generalizing s with
  | nil => exact ⟨h, rfl, fun _ => rfl, fun _ _ ho => ho, fun _ _ ho => ho, rfl, rfl⟩
  | cons name names ih =>
    have hone := deregistered_one h name
    exact hone.cons (ih hone.table)

theorem SameServices.foldl {α : Type*} {f : Ctx → α → Ctx} (hf : ∀ s a, SameServices s (f s a))
    (as : List α) (s : Ctx) : SameServices s (as.foldl f s) := by
  induction as generalizing s with
  | nil => exact .refl s
  | cons a as ih => exact (hf s a).trans (ih (f s a))

theorem deregistered_destroy (h : TableOk s) (c : Client) (topics names : List Bytes) :
    Deregistered s (topics.foldl globalUnsubscribe (c.disconnectNotify.foldl
      (disconnectSendmsg c.uuid) (clientDeregisterServices s names))) names := by
  refine (deregistered_all h names).of_same (SameServices.trans (.foldl (fun s d => ?_) _ _)
    (.foldl (fun s topic => sameServices_globalUnsubscribe topic) _ _))
  exact sameServices_fluxSend

theorem TableOk.mem_serviceNames (h : TableOk s) (ho : s.service? ls = some o) :
    o.name ∈ s.serviceNames o.client := by
  have hlk := h.alive ls o ho
  refine mem_filter.2 ⟨?_, ?_⟩
  · exact AList.mem_keys.1 (AList.lookup_isSome.1 (isSome_of_eq_some hlk))
  · rw [hlk, bind_some, ho, any_some]
    exact decide_eq_true rfl

/-- **The end of a client** ends its services. -/
theorem TableOk.destroy (h : TableOk s) (c : Client) (hnms : names.Perm (s.serviceNames c.uuid))
    : TableOk (clientDestroy s c topics names) := by
  have hdereg := deregistered_destroy h c topics names
  rw [clientDestroy]
  refine ⟨fun name ls hlk => ?_, hdereg.table.alive⟩
  obtain ⟨o, ho, hname, hcli⟩ := hdereg.table.table name ls hlk
  refine ⟨o, ho, hname, ?_⟩
  obtain ⟨c', hc', heq⟩ := List.mem_map.1 hcli
  refine List.mem_map.2 ⟨c', mem_filter.2 ⟨hc', decide_eq_true fun huuid => ?_⟩, heq⟩
  have hmem := h.mem_serviceNames (hdereg.old ls o ho)
  rw [← heq, huuid, ← hnms.mem_iff, hname] at hmem
  have hnone := hdereg.lookup name
  rw [if_pos hmem, hlk] at hnone
  cases hnone

/-! ### Whole runs -/

/-- **One step** keeps the table in order. -/
theorem TableOk.step (h : TableOk s) (hs' : (server fnmatch).step l s = some s') :
    TableOk s' := by
  cases moved_of_step hs' with
  | connect hnew =>
    refine ⟨fun name ls hlk => ?_, h.alive⟩
    obtain ⟨o, ho, hname, hcli⟩ := h.table name ls hlk
    refine ⟨o, ho, hname, ?_⟩
    rw [clientCreate, map_append]
    exact mem_append_left _ hcli
  | disconnect hc htops hnms => exact h.destroy _ hnms
  | read hc => exact h.read hc _
  | response htype => exact h.of_same sameServices_responseCb
  | event => exact h.of_same sameServices_eventCb
  | request hhs => exact h.of_same (sameServices_modify fun _ => rfl)
  | @reply i k result hk =>
    have h' : TableOk { s with pending := s.pending.eraseIdx i } := { h with }
    exact h'.call k result

/-- **The invariant of the continuations:** no object that is awaited has been freed, and none
is awaited twice. -/
structure AwaitedOk (s : Ctx) : Prop where
  unfaulted : s.faulted = false
  alive : ∀ ls ∈ s.awaited, (s.service? ls).isSome
  nodup : s.awaited.Nodup

theorem AwaitedOk.of_same (h : AwaitedOk s) (hs : SameServices s s') : AwaitedOk s' := by
  have hawt : s'.awaited = s.awaited := congrArg (filterMap Continuation.ls?) hs.pending
  refine ⟨hs.faulted.trans h.unfaulted, fun ls hls => ?_, ?_⟩
  · rw [hawt] at hls
    rw [service?_congr hs.heap]
    exact h.alive ls hls
  · rw [hawt]
    exact h.nodup

theorem awaited_append (k : Continuation) (hpend : s'.pending = s.pending ++ [k])
    (hk : k.ls? = some ls) : s'.awaited = s.awaited ++ [ls] := by
  rw [Ctx.awaited, hpend, filterMap_append, filterMap_cons_some hk]
  rfl

section

variable (h : AwaitedOk s)
include h

theorem AwaitedOk.add (hadd : serviceAddRequest s c msg = .ok s') :
    AwaitedOk s' := by
  obtain ⟨name, -, -, -, hheap, hpend, hflt⟩ := serviceAddRequest_ok hadd
  have hawt := awaited_append _ hpend rfl
  have hsvc : ∀ ls, s'.service? ls = if ls = s.heap.length then
      some { name := name, client := c.uuid } else s.service? ls := by
    intro ls
    rw [Ctx.service?, hheap, heap_append]
    rfl
  refine ⟨hflt.trans h.unfaulted, fun ls hls => ?_, ?_⟩
  · rw [hsvc]
    split_ifs with heq
    · rfl
    · rw [hawt, mem_append, mem_singleton, or_iff_left heq] at hls
      exact h.alive ls hls
  · rw [hawt, nodup_append]
    refine ⟨h.nodup, nodup_singleton _, fun ls hls ls' hls' => ?_⟩
    rw [mem_singleton.1 hls']
    rintro rfl
    have halive := h.alive _ hls
    rw [Ctx.service?, List.getElem?_eq_none le_rfl] at halive
    cases halive

theorem AwaitedOk.rm (htab : TableOk s) (hname : s.services.lookup name = some ls)
    (hls : ls ∉ s.awaited) :
    AwaitedOk (s.rpc (ascii "service.remove") name (.serviceRm ls msg)) := by
  have hawt : (s.rpc (ascii "service.remove") name (.serviceRm ls msg)).awaited
      = s.awaited ++ [ls] := awaited_append _ rfl rfl
  refine ⟨h.unfaulted, fun ls' hls' => ?_, ?_⟩
  · rw [hawt, mem_append, mem_singleton] at hls'
    rcases hls' with hls' | rfl
    · exact h.alive ls' hls'
    · obtain ⟨o, ho, -, -⟩ := htab.table name ls' hname
      exact isSome_of_eq_some ho
  · rw [hawt, nodup_append]
    refine ⟨h.nodup, nodup_singleton _, fun ls' hls' ls'' hls'' => ?_⟩
    rw [mem_singleton.1 hls'']
    rintro rfl
    exact hls hls'

theorem AwaitedOk.delete (htab : TableOk s) (ho : s.service? ls = some o) (hls : ls ∉ s.awaited)
    : AwaitedOk (s.deleteService o.name) := by
  obtain ⟨-, hpend, hflt⟩ := deleteService_rest s o.name
  have hawt : (s.deleteService o.name).awaited = s.awaited :=
    congrArg (filterMap Continuation.ls?) hpend
  refine ⟨hflt.trans h.unfaulted, fun ls' hls' => ?_, hawt ▸ h.nodup⟩
  rw [hawt] at hls'
  obtain ⟨o', ho'⟩ := isSome_iff_exists.1 (h.alive ls' hls')
  rw [htab.service?_delete ho', if_neg]
  · rfl
  · intro hname
    have hlk := htab.alive ls' o' ho'
    rw [hname, htab.alive ls o ho] at hlk
    cases hlk
    exact hls hls'

theorem AwaitedOk.start (ho : s.service? ls = some o) :
    AwaitedOk (localServiceStart s ls o) := by
  refine { h with alive := fun ls' hls' => ?_ }
  rw [service?_start ho]
  split_ifs
  · rfl
  · exact h.alive ls' hls'

/-- The state in which a continuation is called: what it awaits is there, and awaited by no
other. -/
theorem AwaitedOk.take (hk : s.pending[i]? = some k) :
    AwaitedOk { s with pending := s.pending.eraseIdx i } ∧
      ∀ ls, k.ls? = some ls → (s.service? ls).isSome ∧
        ls ∉ Ctx.awaited { s with pending := s.pending.eraseIdx i } := by
  obtain ⟨hi, hget⟩ := List.getElem?_eq_some_iff.1 hk
  have hperm : s.pending.Perm (k :: s.pending.eraseIdx i) :=
    hget ▸ (getElem_cons_eraseIdx_perm hi).symm
  have hawt := hperm.filterMap Continuation.ls?
  have hsub := (s.pending.eraseIdx_sublist i).filterMap Continuation.ls?
  refine ⟨⟨h.unfaulted, fun ls hls => h.alive ls (hsub.subset hls), h.nodup.sublist hsub⟩, ?_⟩
  intro ls hls
  rw [filterMap_cons_some hls] at hawt
  exact ⟨h.alive ls (hawt.mem_iff.2 mem_cons_self),
    (nodup_cons.1 (hawt.nodup_iff.1 h.nodup)).1⟩

theorem AwaitedOk.reply (htab : TableOk s) {i : ℕ} {k : Continuation}
    (hk : s.pending[i]? = some k) (result : Except Errno Unit) :
    AwaitedOk (k.call { s with pending := s.pending.eraseIdx i } result) := by
  obtain ⟨h', hls⟩ := h.take hk
  have htab' : TableOk { s with pending := s.pending.eraseIdx i } :=
    { htab with }
  rcases call_alive htab' k result fun ls hk => (hls ls hk).1 with
    hsame | ⟨ls, o, hk, ho, hsame | hsame⟩
  · exact h'.of_same hsame
  · exact (h'.delete htab' ho (hls ls hk).2).of_same hsame
  · exact (h'.start ho).of_same hsame

theorem AwaitedOk.destroy (htab : TableOk s) (c : Client) (topics : List Bytes)
    (hnms : names.Perm (s.serviceNames c.uuid))
    (hc : ∀ ls ∈ s.awaited, (s.service? ls).all (·.client ≠ c.uuid)) :
    AwaitedOk (clientDestroy s c topics names) := by
  have hdereg := deregistered_destroy htab c topics names
  rw [clientDestroy]
  refine ⟨hdereg.faulted.trans h.unfaulted, fun ls hls => ?_, hdereg.awaited ▸ h.nodup⟩
  have hls' : ls ∈ s.awaited := hdereg.awaited ▸ hls
  obtain ⟨o, ho⟩ := isSome_iff_exists.1 (h.alive ls hls')
  have hcli := hc ls hls'
  rw [ho, all_some, decide_eq_true_eq] at hcli
  refine isSome_of_eq_some ((hdereg.service ls o ho).trans (if_neg fun hname => ?_))
  obtain ⟨-, hany⟩ := mem_filter.1 (hnms.mem_iff.1 hname)
  rw [htab.alive ls o ho, bind_some, ho, any_some] at hany
  exact hcli (of_decide_eq_true hany)

end

/-- **One step** that meets the condition keeps the awaited objects. -/
theorem AwaitedOk.step {fnmatch : Bytes → Bytes → Bool} {l : Label} (h : AwaitedOk s)
    (htab : TableOk s) (hl : Unhurried s l) (hs' : (server fnmatch).step l s = some s') :
    AwaitedOk s' := by
  cases moved_of_step hs' with
  | connect hnew => exact { h with }
  | disconnect hc htops hnms => exact h.destroy htab _ _ hnms hl
  | @read c msg hc =>
    rcases clientReadCb_services s c msg with
      hsame | ⟨msg', hadd⟩ | ⟨htop, msg', hpay, hrm⟩
    · exact h.of_same hsame
    · exact h.add hadd
    obtain ⟨name, ls, hname, hls, heq⟩ := serviceRmRequest_ok htab hrm
    rw [heq]
    exact h.rm htab hls (hl htop name (hpay ▸ hname) ls hls)
  | response htype => exact h.of_same sameServices_responseCb
  | event => exact h.of_same sameServices_eventCb
  | request hhs => exact h.of_same (sameServices_modify fun _ => rfl)
  | reply hk => exact h.reply htab hk _

theorem tableOk_start : TableOk {} := ⟨nofun, nofun⟩

theorem table_connected {fnmatch : Bytes → Bytes → Bool} {guard : Ctx → Label → Prop}
    (hs : (server fnmatch).Reach guard Start s) : TableOk s := by
  refine hs.invariant TableOk ?_ fun s l t _ h _ ht => h.step ht
  rintro s rfl
  exact tableOk_start

/-- **Services and disconnects.** In every run, a name is in the table only while its client is
connected. In a run whose steps all meet the condition, no continuation uses an object that
has been freed. -/
theorem services_safe {fnmatch : Bytes → Bytes → Bool} {s : Ctx} :
    ((server fnmatch).Reach (fun _ _ => True) Start s →
      ∀ name ls, s.services.lookup name = some ls →
        ∃ o, s.service? ls = some o ∧ ∃ c ∈ s.clients, c.uuid = o.client) ∧
    ((server fnmatch).Reach Unhurried Start s → s.faulted = false) := by
  refine ⟨fun hs name ls hlk => ?_, fun hs => ?_⟩
  · obtain ⟨o, ho, -, hcli⟩ := (table_connected hs).table name ls hlk
    exact ⟨o, ho, List.mem_map.1 hcli⟩
  · have hinv : AwaitedOk s := by
      refine hs.invariant AwaitedOk ?_ fun s l t hrch h hl ht =>
        h.step (table_connected hrch) hl ht
      rintro s rfl
      exact ⟨rfl, nofun, nodup_nil⟩
    exact hinv.unfaulted

/-- The request of a client about its service. -/
def serviceMessage (topic : String) (name : Bytes) : Message :=
  { type := .request, topic := some (ascii topic), payload := [("service", name)] }

/-- A client adds a service and removes it, waiting for each reply, and then adds another one
that it has when it disconnects. -/
def patientClient : List Label :=
  [.connect 1 10 roleUser, .read 1 (serviceMessage "service.add" [97]), .reply 0 (.ok ()),
    .read 1 (serviceMessage "service.remove" [97]), .reply 0 (.ok ()),
    .read 1 (serviceMessage "service.add" [98]), .reply 0 (.ok ()),
    .disconnect 1 [] [[98]], .reply 0 (.ok ())]

theorem services_safe_patientClient :
    ∃ s, (server fun _ _ => false).Reach Unhurried Start s ∧ s.heap.length = 2 ∧
      s.faulted = false := by
  have hrun : ((server fun _ _ => false).runGuarded (fun s l => decide (Unhurried s l))
      patientClient {}).map (·.heap.length) = some 2 := by
    decide +kernel
  obtain ⟨s, hs, hheap⟩ := map_eq_some_iff.1 hrun
  have hrch : (server fun _ _ => false).Reach Unhurried Start s :=
    .of_runGuarded (fun _ _ h => of_decide_eq_true h) (.start rfl) hs
  exact ⟨s, hrch, hheap, services_safe.2 hrch⟩

/-- **A client disconnects** before the reply to its `service.add` has come: the continuation
uses the service that has been freed. -/
theorem freed_service_used : ((server fun _ _ => false).run
      [.connect 1 10 roleUser, .read 1 (serviceMessage "service.add" [97]),
        .disconnect 1 [] [[97]], .reply 0 (.ok ())] {}).map (·.faulted) = some true := by
  decide +kernel

end FluxCore.ConnectorLocal.Server
