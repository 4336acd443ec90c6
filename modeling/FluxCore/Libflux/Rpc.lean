import FluxCore.Lib.Machine
import FluxCore.Libflux.Tagpool
import FluxCore.Util.Blobref

/-!
# RPCs and Their Responses

A handle with the futures of its RPCs, after `rpc.c`, `future.c`, `msg_handler.c` and the
matchtags of `handle.c`.

A future can be fulfilled in two contexts: by the dispatcher of the handle, once
`flux_future_then` has installed a handler, and inside `flux_future_wait_for`, which runs a
reactor of its own with a clone of the handle. Messages that the clone does not know are kept
aside and go back to the queue of the handle at the end, but not after a timeout. A thread
that is inside `flux_future_wait_for` does nothing else, so the state says whether it is.

The number of a future stands for its request too. Peers answer a request at any time: the
label of a step says which response arrives. There is no lack of memory.
-/

namespace FluxCore.Libflux.Rpc

open List Option

/-- A response: the request that it answers, and its matchtag. -/
structure Response where
  req : ℕ
  tag : ℕ
deriving DecidableEq

/-- How a future is fulfilled: by a response, by an error, or by nothing for a request that
expects no response. -/
inductive Result
  | response (r : Response)
  | error (e : Errno)
  | none
deriving DecidableEq

/-- A future made by `flux_rpc`: its matchtag, its results (the first of them is current), what
has been set up in the "now" context and in the "then" context, and which handlers there
are. -/
structure Future where
  id : ℕ
  tag : ℕ
  results : List Result := []
  running : Bool := false
  nowInit : Bool := false
  thenInit : Bool := false
  timer : Bool := false
  handler : Bool := false
  cloneHandler : Bool := false
  unmatched : List Response := []

/-- A handle. The responses in `net` have not been received yet; `handlers` are handlers
for responses of any tag. `fulfilled` is the history of the futures that were fulfilled by a
response. -/
structure Handle where
  pool : Tagpool
  net : List Response := []
  queue : List Response := []
  futures : List Future := []
  handlers : List ℕ := []
  waiting : Option (ℕ × Bool) := none
  next : ℕ := 0
  fulfilled : List (ℕ × Response) := []

/-- `future_is_ready`. -/
def Future.isReady (f : Future) : Bool := !f.results.isEmpty

/-- `flux_future_fulfill` and `flux_future_fulfill_error`: a result, behind those that are
there, and the timer of the "then" context is stopped. -/
def Future.fulfill (f : Future) (result : Result) : Future :=
  { f with results := f.results ++ [result], timer := false }

namespace Handle

variable (h : Handle)

/-- Change a future. -/
def modify (id : ℕ) (g : Future → Future) : Handle :=
  { h with futures := h.futures.map fun f => if f.id = id then g f else f }

/-- The future with the number `id`. -/
def find (id : ℕ) : Option Future := h.futures.find? fun f => f.id = id

/-- `response_cb`. -/
def responseCb (id : ℕ) (r : Response) : Handle :=
  { h.modify id (·.fulfill (.response r)) with fulfilled := (id, r) :: h.fulfilled }

/-- The handler of a tag, in the dispatcher of the handle. -/
def lookupHandler (tag : ℕ) : Option Future :=
  h.futures.find? fun f => f.handler ∧ f.tag = tag

/-- `initialize_cb`: a handler for the response, in the context of the caller. There can be
one for a tag in each dispatcher. -/
def initializeCb (f : Future) : Handle :=
  if f.running then
    if f.cloneHandler then h.modify f.id (·.fulfill (.error .EEXIST))
    else h.modify f.id ({ · with cloneHandler := true })
  else if f.tag = matchtagNone then { h with handlers := f.id :: h.handlers }
  else if (h.lookupHandler f.tag).isSome then h.modify f.id (·.fulfill (.error .EEXIST))
  else h.modify f.id ({ · with handler := true })

/-- The request of a new future is sent. -/
def issue (pool : Tagpool) (f : Future) : Handle :=
  { h with
    pool := pool
    net := h.net ++ [⟨f.id, f.tag⟩]
    futures := h.futures ++ [f]
    next := h.next + 1 }

/-- `flux_rpc`, with `FLUX_RPC_NORESPONSE` or not. If the request cannot be sent, the future
is destroyed before it is ready. -/
def fluxRpc (noresponse sent : Bool) : Handle :=
  if noresponse then
    if sent then h.issue h.pool (Future.fulfill { id := h.next, tag := matchtagNone } .none)
    else h
  else
    let (tag, pool) := tagpoolAlloc h.pool
    if tag = matchtagNone then { h with pool := pool }
    else if sent then h.issue pool { id := h.next, tag := tag }
    else { h with pool := pool }

/-- `dispatch_requeue`, for the clone of a future: what it has kept aside goes to the head of
the queue, the last message first. -/
def dispatchRequeue (f : Future) : Handle :=
  { h.modify f.id ({ · with unmatched := [] }) with queue := f.unmatched.reverse ++ h.queue }

/-- `flux_future_wait_for`, behind the run of its reactor. -/
def waitForEnd (f : Future) : Handle :=
  { (h.dispatchRequeue f).modify f.id ({ · with running := false }) with waiting := none }

/-- The timeout of `flux_future_wait_for`. -/
inductive Timeout
  | zero
  | bounded
  | unbounded
deriving DecidableEq

/-- `flux_future_wait_for`: the "now" context. -/
def waitForSetup (f : Future) : Handle :=
  let h := h.modify f.id ({ · with running := true })
  if f.nowInit then h
  else (h.initializeCb { f with running := true }).modify f.id ({ · with nowInit := true })

/-- `flux_future_wait_for`, up to the run of its reactor. -/
def fluxFutureWaitFor (f : Future) (timeout : Timeout) : Handle :=
  if f.isReady ∨ timeout = .zero then h
  else
    let h := h.waitForSetup f
    match h.find f.id with
    | none => h
    | some f =>
      if f.isReady then h.waitForEnd f
      else { h with waiting := some (f.id, timeout = .bounded) }

/-- `flux_future_then`. -/
def fluxFutureThen (f : Future) (timeout : Bool) : Handle :=
  let h := h.modify f.id ({ · with timer := timeout })
  if f.thenInit then h
  else (h.initializeCb { f with timer := timeout }).modify f.id ({ · with thenInit := true })

/-- `flux_recv` of any message: from the queue, or else the response to the request `req`. -/
def fluxRecv (req : ℕ) : Option (Response × Handle) :=
  match h.queue with
  | r :: queue => some (r, { h with queue := queue })
  | [] =>
    match h.net.find? fun r => r.req = req with
    | none => none
    | some r => some (r, { h with net := h.net.erase r })

/-- `handle_cb` of the dispatcher of the handle. -/
def handleCb (r : Response) : Handle :=
  match if r.tag ≠ matchtagNone then h.lookupHandler r.tag else none with
  | some f => h.responseCb f.id r
  | none =>
    match h.handlers with
    | id :: _ => h.responseCb id r
    | [] => h

/-- `handle_cb` of the dispatcher of a clone, inside `flux_future_wait_for`. -/
def cloneHandleCb (f : Future) (r : Response) : Handle :=
  if f.cloneHandler ∧ r.tag ≠ matchtagNone ∧ f.tag = r.tag then
    (h.responseCb f.id r).waitForEnd f
  else h.modify f.id fun f => { f with unmatched := r :: f.unmatched }

/-- `flux_matchtag_free`: queued responses with the tag are deleted. -/
def fluxMatchtagFree (tag : ℕ) : Handle :=
  { h with
    queue := h.queue.filter fun r => r.tag ≠ tag
    pool := tagpoolFree h.pool tag }

/-- `rpc_destroy`. -/
def rpcDestroy (f : Future) : Handle :=
  if f.tag ≠ matchtagNone ∧ f.isReady then h.fluxMatchtagFree f.tag else h

/-- `flux_future_destroy`, behind `rpc_destroy`: the clone, with what it has kept aside, and
the future itself. -/
def freeFuture (f : Future) : Handle :=
  let h := h.dispatchRequeue f
  { h with futures := h.futures.filter fun g => g.id ≠ f.id }

/-- `flux_future_destroy`. The handlers go first. -/
def fluxFutureDestroy (f : Future) : Handle :=
  let h := { h with handlers := h.handlers.erase f.id }
  (h.rpcDestroy f).freeFuture f

end Handle

/-- What a thread does with a handle, and what happens to it: calls of `flux_rpc`,
`flux_future_wait_for`, `flux_future_then` and `flux_future_destroy`, the arrival of a
message, and the timers and the check watcher of a future. -/
inductive Label
  | rpc (noresponse sent : Bool)
  | waitFor (id : ℕ) (timeout : Handle.Timeout)
  | thenCall (id : ℕ) (timeout : Bool)
  | receive (req : ℕ)
  | nowTimer
  | thenTimer (id : ℕ)
  | check (id : ℕ)
  | destroy (id : ℕ)

namespace Handle

/-- One step outside `flux_future_wait_for`. -/
def stepIdle (h : Handle) : Label → Option Handle
  | .rpc noresponse sent => some (h.fluxRpc noresponse sent)
  | .waitFor id timeout => (h.find id).map fun f => h.fluxFutureWaitFor f timeout
  | .thenCall id timeout => (h.find id).map fun f => h.fluxFutureThen f timeout
  | .receive req => (h.fluxRecv req).map fun p => p.2.handleCb p.1
  | .nowTimer => none
  | .thenTimer id =>
    (h.find id).bind fun f =>
      if f.timer then some (h.modify id (·.fulfill (.error .ETIMEDOUT))) else none
  | .check id =>
    (h.find id).bind fun f =>
      if f.thenInit ∧ f.isReady then some (h.modify id ({ · with timer := false })) else none
  | .destroy id => (h.find id).map fun f => h.fluxFutureDestroy f

/-- One step inside `flux_future_wait_for` of the future `id`. If its timer is set and
expires, the call returns as it is. -/
def stepWaiting (h : Handle) (id : ℕ) (timer : Bool) : Label → Option Handle
  | .receive req =>
    (h.fluxRecv req).bind fun p => (h.find id).map fun f => p.2.cloneHandleCb f p.1
  | .nowTimer => if timer then some { h with waiting := none } else none
  | _ => none

end Handle

/-- The handle as a machine. -/
def machine : Machine Handle Label where
  step l h :=
    match h.waiting with
    | none => h.stepIdle l
    | some (id, timer) => h.stepWaiting id timer l

/-- A new handle. -/
def Handle.create : Handle := { pool := tagpoolCreate }

namespace Handle

/-! ### What a step keeps -/

/-- The response has not been given to a future, and it has not been dropped. -/
def Outstanding (h : Handle) (r : Response) : Prop :=
  r ∈ h.net ∨ r ∈ h.queue ∨ ∃ f ∈ h.futures, r ∈ f.unmatched

/-- There is a future with this number and this tag. -/
def Live (h : Handle) (id tag : ℕ) : Prop := ∃ f ∈ h.futures, f.id = id ∧ f.tag = tag

/-- Between `h` and `h'` no tag is allocated or released, and there are no new futures and
no new responses. A future is fulfilled only by a response with its tag. -/
structure Keeps (h h' : Handle) : Prop where
  pool : h'.pool = h.pool
  live {id tag : ℕ} : h'.Live id tag → h.Live id tag
  outstanding {r : Response} : h'.Outstanding r → h.Outstanding r
  fulfilled : ∀ p ∈ h'.fulfilled, p ∈ h.fulfilled ∨
    h.Outstanding p.2 ∧ p.2.tag ≠ matchtagNone ∧ h.Live p.1 p.2.tag

variable {h h₀ : Handle} {id : ℕ} {f : Future} {r : Response}

theorem Keeps.refl (h : Handle) : h.Keeps h := ⟨rfl, fun hl => hl, fun hr => hr, fun _ => .inl⟩

section

variable (k : h₀.Keeps h)
include k

theorem Keeps.modify (hid : ∀ f, (g f).id = f.id) (htag : ∀ f, (g f).tag = f.tag)
    (hun : ∀ f ∈ h.futures, ∀ r ∈ (g f).unmatched, r ∈ f.unmatched ∨ h₀.Outstanding r) :
    h₀.Keeps (h.modify id g) := by
  refine ⟨k.pool, ?_, ?_, k.fulfilled⟩
  · rintro i t ⟨f', hf', rfl, rfl⟩
    obtain ⟨f, hf, rfl⟩ := List.mem_map.1 hf'
    refine k.live ⟨f, hf, ?_⟩
    split_ifs
    · exact ⟨(hid f).symm, (htag f).symm⟩
    · exact ⟨rfl, rfl⟩
  · rintro r (hr | hr | ⟨f', hf', hr⟩)
    · exact k.outstanding (.inl hr)
    · exact k.outstanding (.inr (.inl hr))
    · obtain ⟨f, hf, rfl⟩ := List.mem_map.1 hf'
      split_ifs at hr
      · rcases hun f hf r hr with hr | hr
        · exact k.outstanding (.inr (.inr ⟨f, hf, hr⟩))
        · exact hr
      · exact k.outstanding (.inr (.inr ⟨f, hf, hr⟩))

theorem Keeps.set (hg : ∀ f, (g f).id = f.id ∧ (g f).tag = f.tag ∧ (g f).unmatched = f.unmatched)
    :
    h₀.Keeps (h.modify id g) := by
  refine k.modify (fun f => (hg f).1) (fun f => (hg f).2.1) fun f _ r hr => ?_
  rw [(hg f).2.2] at hr
  exact .inl hr

theorem Keeps.waiting (w : Option (ℕ × Bool)) :
    h₀.Keeps { h with waiting := w } :=
  ⟨k.pool, k.live, k.outstanding, k.fulfilled⟩

theorem Keeps.handlers (l : List ℕ) : h₀.Keeps { h with handlers := l } :=
  ⟨k.pool, k.live, k.outstanding, k.fulfilled⟩

theorem Keeps.responseCb (hr : h₀.Outstanding r) (htag : r.tag ≠ matchtagNone)
    (hlive : h₀.Live id r.tag) : h₀.Keeps (h.responseCb id r) := by
  have hk : h₀.Keeps (h.modify id (·.fulfill (.response r))) := k.set fun _ => ⟨rfl, rfl, rfl⟩
  refine ⟨hk.pool, hk.live, hk.outstanding, fun p hp => ?_⟩
  rcases mem_cons.1 hp with rfl | hp
  · exact .inr ⟨hr, htag, hlive⟩
  · exact k.fulfilled p hp

theorem Keeps.initializeCb (f : Future) : h₀.Keeps (h.initializeCb f) := by
  rw [Handle.initializeCb]
  split_ifs
  · exact k.set fun _ => ⟨rfl, rfl, rfl⟩
  · exact k.set fun _ => ⟨rfl, rfl, rfl⟩
  · exact k.handlers _
  · exact k.set fun _ => ⟨rfl, rfl, rfl⟩
  · exact k.set fun _ => ⟨rfl, rfl, rfl⟩

theorem Keeps.dispatchRequeue (hf : ∀ r ∈ f.unmatched, h₀.Outstanding r) :
    h₀.Keeps (h.dispatchRequeue f) := by
  have hk : h₀.Keeps (h.modify f.id ({ · with unmatched := [] })) :=
    k.modify (fun _ => rfl) (fun _ => rfl) fun _ _ _ hr => by cases hr
  refine ⟨hk.pool, hk.live, ?_, hk.fulfilled⟩
  rintro r (hr | hr | hr)
  · exact hk.outstanding (.inl hr)
  · rcases mem_append.1 hr with hr | hr
    · exact hf r (mem_reverse.1 hr)
    · exact k.outstanding (.inr (.inl hr))
  · exact hk.outstanding (.inr (.inr hr))

theorem Keeps.waitForEnd (hf : ∀ r ∈ f.unmatched, h₀.Outstanding r) :
    h₀.Keeps (h.waitForEnd f) := by
  refine Keeps.waiting ?_ none
  exact (k.dispatchRequeue hf).set fun _ => ⟨rfl, rfl, rfl⟩

end

theorem mem_of_find (hfind : h.find id = some f) : f ∈ h.futures ∧ f.id = id := by
  refine ⟨List.mem_of_find?_eq_some hfind, ?_⟩
  simpa using List.find?_some hfind

theorem outstanding_of_find (hfind : h.find id = some f) : ∀ r ∈ f.unmatched, h.Outstanding r :=
  fun _ hr => .inr (.inr ⟨f, (mem_of_find hfind).1, hr⟩)

theorem Keeps.waitForSetup (k : h₀.Keeps h) (f : Future) : h₀.Keeps (h.waitForSetup f) := by
  have hrun : h₀.Keeps (h.modify f.id ({ · with running := true })) :=
    k.set fun _ => ⟨rfl, rfl, rfl⟩
  rw [Handle.waitForSetup]
  split_ifs
  · exact hrun
  · exact (hrun.initializeCb _).set fun _ => ⟨rfl, rfl, rfl⟩

theorem Keeps.fluxFutureWaitFor (f : Future) (timeout : Timeout) :
    h.Keeps (h.fluxFutureWaitFor f timeout) := by
  have hsetup := (Keeps.refl h).waitForSetup f
  simp only [Handle.fluxFutureWaitFor]
  generalize h.waitForSetup f = h' at hsetup ⊢
  split_ifs
  · exact .refl h
  split
  · exact hsetup
  rename_i f' hfind
  split_ifs
  · exact hsetup.waitForEnd fun r hr => hsetup.outstanding (outstanding_of_find hfind r hr)
  · exact hsetup.waiting _

theorem Keeps.fluxFutureThen (f : Future) (timeout : Bool) :
    h.Keeps (h.fluxFutureThen f timeout) := by
  have htimer : h.Keeps (h.modify f.id ({ · with timer := timeout })) :=
    (Keeps.refl h).set fun _ => ⟨rfl, rfl, rfl⟩
  rw [Handle.fluxFutureThen]
  split_ifs
  · exact htimer
  · exact (htimer.initializeCb _).set fun _ => ⟨rfl, rfl, rfl⟩

theorem fluxRecv_spec (hrecv : h.fluxRecv req = some (r, h')) :
    h.Outstanding r ∧ h.Keeps h' ∧ h'.futures = h.futures ∧ h'.handlers = h.handlers := by
  rw [fluxRecv] at hrecv
  split at hrecv
  · rename_i r' queue hque
    cases hrecv
    refine ⟨.inr (.inl (by rw [hque]; exact mem_cons_self)), ⟨rfl, fun hl => hl, ?_,
      fun _ => .inl⟩, rfl, rfl⟩
    rintro x (hx | hx | hx)
    · exact .inl hx
    · exact .inr (.inl (by rw [hque]; exact mem_cons_of_mem _ hx))
    · exact .inr (.inr hx)
  · split at hrecv
    · cases hrecv
    · rename_i r' hfind
      cases hrecv
      refine ⟨.inl (List.mem_of_find?_eq_some hfind), ⟨rfl, fun hl => hl, ?_, fun _ => .inl⟩,
        rfl, rfl⟩
      rintro x (hx | hx)
      · exact .inl (mem_of_mem_erase hx)
      · exact .inr hx

/-- The dispatcher of the handle, for a response that has a handler, or if there are no
other handlers. -/
theorem Keeps.handleCb (k : h₀.Keeps h) (hr : h₀.Outstanding r)
    (hown : h.handlers = [] ∨ r.tag ≠ matchtagNone ∧ (h.lookupHandler r.tag).isSome) :
    h₀.Keeps (h.handleCb r) := by
  rw [Handle.handleCb]
  split
  · rename_i f hf
    split_ifs at hf with htag
    have hmem := List.mem_of_find?_eq_some hf
    have hhandler : f.handler ∧ f.tag = r.tag := by simpa using List.find?_some hf
    exact k.responseCb hr htag (k.live ⟨f, hmem, rfl, hhandler.2⟩)
  rename_i hnone
  rcases hown with hno | ⟨htag, hsome⟩
  · rw [hno]
    exact k
  rw [if_pos htag] at hnone
  rw [hnone] at hsome
  cases hsome

theorem Keeps.cloneHandleCb (k : h₀.Keeps h) (hr : h₀.Outstanding r) (hf : f ∈ h₀.futures) :
    h₀.Keeps (h.cloneHandleCb f r) := by
  have hun : ∀ x ∈ f.unmatched, h₀.Outstanding x := fun x hx => .inr (.inr ⟨f, hf, hx⟩)
  rw [Handle.cloneHandleCb]
  split_ifs with hmatch
  · obtain ⟨-, htag, heq⟩ := hmatch
    exact (k.responseCb hr htag ⟨f, hf, rfl, heq⟩).waitForEnd hun
  refine k.modify (fun _ => rfl) (fun _ => rfl) fun g _ x hx => ?_
  rcases mem_cons.1 hx with rfl | hx
  · exact .inr hr
  · exact .inl hx

/-! ### Tags -/

/-- Futures have tags of their own, and a response with the tag of a future answers its
request. The tags of futures and of outstanding responses are out of the pool. -/
structure Inv (h : Handle) : Prop where
  none_taken : h.pool.Taken matchtagNone
  live_taken {id tag : ℕ} : h.Live id tag → h.pool.Taken tag
  live_unique {id id' tag : ℕ} : tag ≠ matchtagNone → h.Live id tag → h.Live id' tag → id = id'
  outstanding_taken {r : Response} : h.Outstanding r → h.pool.Taken r.tag
  outstanding_own {r : Response} {id : ℕ} : r.tag ≠ matchtagNone → h.Outstanding r →
    h.Live id r.tag → r.req = id
  fulfilled_own : ∀ p ∈ h.fulfilled, p.2.req = p.1

theorem inv_create : create.Inv where
  none_taken := taken_create
  live_taken := by rintro _ _ ⟨_, hf, -⟩; cases hf
  live_unique := by rintro _ _ _ - ⟨_, hf, -⟩; cases hf
  outstanding_taken := by rintro _ (hr | hr | ⟨_, hr, -⟩) <;> cases hr
  outstanding_own := by rintro _ _ - (hr | hr | ⟨_, hr, -⟩) <;> cases hr
  fulfilled_own := forall_mem_nil _

theorem Inv.keeps (inv : h₀.Inv) (k : h₀.Keeps h) : h.Inv where
  none_taken := k.pool ▸ inv.none_taken
  live_taken hl := k.pool ▸ inv.live_taken (k.live hl)
  live_unique htag hl hl' := inv.live_unique htag (k.live hl) (k.live hl')
  outstanding_taken hr := k.pool ▸ inv.outstanding_taken (k.outstanding hr)
  outstanding_own htag hr hl := inv.outstanding_own htag (k.outstanding hr) (k.live hl)
  fulfilled_own p hp := by
    rcases k.fulfilled p hp with hp | ⟨hr, htag, hl⟩
    · exact inv.fulfilled_own p hp
    · exact inv.outstanding_own htag hr hl

theorem live_issue {pool : Tagpool} {tag : ℕ} :
    (h.issue pool f).Live id tag ↔ h.Live id tag ∨ f.id = id ∧ f.tag = tag := by
  simp only [Live, issue, mem_append, mem_singleton, or_and_right, exists_or, exists_eq_left]

theorem outstanding_issue {pool : Tagpool} (hun : f.unmatched = []) :
    (h.issue pool f).Outstanding r ↔ h.Outstanding r ∨ r = ⟨f.id, f.tag⟩ := by
  simp only [Outstanding, issue, mem_append, mem_singleton, or_and_right, exists_or,
    exists_eq_left, hun, not_mem_nil, or_false]
  exact or_right_comm

theorem Inv.issue {pool : Tagpool} (inv : h.Inv)
    (htkn : ∀ x, pool.Taken x ↔ h.pool.Taken x ∨ x = f.tag)
    (hnew : f.tag = matchtagNone ∨ ¬ h.pool.Taken f.tag) (hun : f.unmatched = []) :
    (h.issue pool f).Inv where
  none_taken := (htkn _).2 (.inl inv.none_taken)
  live_taken hl := by
    rcases live_issue.1 hl with hl | ⟨-, rfl⟩
    · exact (htkn _).2 (.inl (inv.live_taken hl))
    · exact (htkn _).2 (.inr rfl)
  live_unique htag hl hl' := by
    rcases live_issue.1 hl with hl | ⟨rfl, rfl⟩
    · rcases live_issue.1 hl' with hl' | ⟨rfl, rfl⟩
      · exact inv.live_unique htag hl hl'
      · exact absurd (inv.live_taken hl) (hnew.resolve_left htag)
    rcases live_issue.1 hl' with hl' | ⟨rfl, -⟩
    · exact absurd (inv.live_taken hl') (hnew.resolve_left htag)
    · rfl
  outstanding_taken hr := by
    rcases (outstanding_issue hun).1 hr with hr | rfl
    · exact (htkn _).2 (.inl (inv.outstanding_taken hr))
    · exact (htkn _).2 (.inr rfl)
  outstanding_own htag hr hl := by
    rcases (outstanding_issue hun).1 hr with hr | rfl
    · rcases live_issue.1 hl with hl | ⟨-, heq⟩
      · exact inv.outstanding_own htag hr hl
      · rw [← heq] at htag
        have := inv.outstanding_taken hr
        rw [← heq] at this
        exact absurd this (hnew.resolve_left htag)
    · rcases live_issue.1 hl with hl | ⟨rfl, -⟩
      · exact absurd (inv.live_taken hl) (hnew.resolve_left htag)
      · rfl
  fulfilled_own := inv.fulfilled_own

theorem Inv.pool {pool : Tagpool} (inv : h.Inv) (htkn : ∀ x, h.pool.Taken x → pool.Taken x) :
    Inv { h with pool := pool } where
  none_taken := htkn _ inv.none_taken
  live_taken hl := htkn _ (inv.live_taken hl)
  live_unique := inv.live_unique
  outstanding_taken hr := htkn _ (inv.outstanding_taken hr)
  outstanding_own := inv.outstanding_own
  fulfilled_own := inv.fulfilled_own

theorem Inv.fluxRpc (inv : h.Inv) (noresponse sent : Bool) : (h.fluxRpc noresponse sent).Inv := by
  obtain ⟨htkn, hnew⟩ := tagpoolAlloc_spec inv.none_taken
  have hmore : ∀ x, h.pool.Taken x → (tagpoolAlloc h.pool).2.Taken x :=
    fun x hx => (htkn x).2 (.inl hx)
  simp only [Handle.fluxRpc]
  split_ifs
  · refine inv.issue (fun x => ⟨.inl, ?_⟩) (.inl rfl) rfl
    rintro (hx | rfl)
    · exact hx
    · exact inv.none_taken
  · exact inv
  · exact inv.pool hmore
  · exact inv.issue htkn hnew rfl
  · exact inv.pool hmore

theorem Inv.release (inv : h.Inv) (hlive : ∀ id, ¬ h.Live id tag)
    (hout : ∀ r, h.Outstanding r → r.tag ≠ tag) (htag : tag ≠ matchtagNone) :
    Inv { h with pool := tagpoolFree h.pool tag } where
  none_taken := taken_tagpoolFree.2 ⟨inv.none_taken, .inr htag.symm⟩
  live_taken {id t} hl := by
    refine taken_tagpoolFree.2 ⟨inv.live_taken hl, .inr ?_⟩
    rintro rfl
    exact hlive id hl
  live_unique := inv.live_unique
  outstanding_taken {r} hr := taken_tagpoolFree.2 ⟨inv.outstanding_taken hr, .inr (hout r hr)⟩
  outstanding_own := inv.outstanding_own
  fulfilled_own := inv.fulfilled_own

theorem Keeps.freeFuture (k : h₀.Keeps h) (hf : ∀ r ∈ f.unmatched, h₀.Outstanding r) :
    h₀.Keeps (h.freeFuture f) := by
  have hk := k.dispatchRequeue hf
  refine ⟨hk.pool, ?_, ?_, hk.fulfilled⟩
  · rintro id tag ⟨g, hg, heq⟩
    exact hk.live ⟨g, mem_of_mem_filter hg, heq⟩
  · rintro r (hr | hr | ⟨g, hg, hr⟩)
    · exact hk.outstanding (.inl hr)
    · exact hk.outstanding (.inr (.inl hr))
    · exact hk.outstanding (.inr (.inr ⟨g, mem_of_mem_filter hg, hr⟩))

theorem not_live_freeFuture : ¬ (h.freeFuture f).Live f.id tag := by
  rintro ⟨g, hg, heq, -⟩
  have hne := (mem_filter.1 hg).2
  simp [heq] at hne

/-- What is outstanding after a future is freed: as before, and the queue is longer by what
its clone had kept aside. -/
theorem outstanding_freeFuture (hr : (h.freeFuture f).Outstanding r) :
    r ∈ h.net ∨ r ∈ h.queue ∨ r ∈ f.unmatched ∨ ∃ g ∈ h.futures, r ∈ g.unmatched := by
  rcases hr with hr | hr | ⟨g, hg, hr⟩
  · exact .inl hr
  · rcases mem_append.1 hr with hr | hr
    · exact .inr (.inr (.inl (mem_reverse.1 hr)))
    · exact .inr (.inl hr)
  obtain ⟨g', hg', rfl⟩ := List.mem_map.1 (mem_of_mem_filter hg)
  split_ifs at hr
  · cases hr
  · exact .inr (.inr (.inr ⟨g', hg', hr⟩))

/-- **A tag is released in time:** if a future that is ready is destroyed only when the
response to its request is neither on its way nor kept aside by a clone. -/
theorem Inv.fluxFutureDestroy (inv : h.Inv) (hf : f ∈ h.futures)
    (hlate : f.tag ≠ matchtagNone → f.isReady → ∀ r,
      (r ∈ h.net ∨ ∃ g ∈ h.futures, r ∈ g.unmatched) → r.req ≠ f.id) :
    (h.fluxFutureDestroy f).Inv := by
  have hun : ∀ r ∈ f.unmatched, h.Outstanding r := fun r hr => .inr (.inr ⟨f, hf, hr⟩)
  simp only [Handle.fluxFutureDestroy, rpcDestroy]
  split_ifs with hrdy
  · obtain ⟨htag, hrdy⟩ := hrdy
    -- the queue without the responses that have the tag
    have hque : h.Keeps { h with
        handlers := h.handlers.erase f.id, queue := h.queue.filter fun r => r.tag ≠ f.tag } := by
      refine ⟨rfl, fun hl => hl, ?_, fun _ => .inl⟩
      rintro r (hr | hr | hr)
      · exact .inl hr
      · exact .inr (.inl (mem_of_mem_filter hr))
      · exact .inr (.inr hr)
    have hfrd := hque.freeFuture hun
    refine (inv.keeps hfrd).release ?_ ?_ htag
    · intro id hlive
      obtain rfl : id = f.id :=
        inv.live_unique htag (hfrd.live hlive) ⟨f, hf, rfl, rfl⟩
      exact not_live_freeFuture hlive
    · intro r hr heq
      have hown : r.req = f.id :=
        inv.outstanding_own (heq ▸ htag) (hfrd.outstanding hr) ⟨f, hf, rfl, heq.symm⟩
      rcases outstanding_freeFuture hr with hr | hr | hr | hr
      · exact hlate htag hrdy r (.inl hr) hown
      · have hne := (mem_filter.1 hr).2
        simp [heq] at hne
      · exact hlate htag hrdy r (.inr ⟨f, hf, hr⟩) hown
      · exact hlate htag hrdy r (.inr hr) hown
  · exact inv.keeps (((Keeps.refl h).handlers _).freeFuture hun)

end Handle

/-! ### Runs -/

/-- The condition for a step: a future that is ready is not destroyed while the response to
its request is on its way or kept aside by a clone, and the dispatcher of the handle gets no
response without a handler of its own while there are handlers for all responses. -/
def InTime (h : Handle) : Label → Prop
  | .destroy id => ∀ f ∈ h.find id, f.tag ≠ matchtagNone → f.isReady →
      (∀ r ∈ h.net, r.req ≠ id) ∧ ∀ g ∈ h.futures, ∀ r ∈ g.unmatched, r.req ≠ id
  | .receive req => h.waiting = none → h.handlers = [] ∨
      ∀ p ∈ h.fluxRecv req, p.1.tag ≠ matchtagNone ∧ (h.lookupHandler p.1.tag).isSome
  | _ => True

theorem Handle.Inv.stepIdle (inv : h.Inv) (hidle : h.waiting = none) (hg : InTime h l)
    (hstep : h.stepIdle l = some h') : h'.Inv := by
  cases l with
  | rpc noresponse sent =>
    cases hstep
    exact inv.fluxRpc noresponse sent
  | waitFor id timeout =>
    obtain ⟨f, hf, rfl⟩ := map_eq_some_iff.1 hstep
    exact inv.keeps (.fluxFutureWaitFor f timeout)
  | thenCall id timeout =>
    obtain ⟨f, hf, rfl⟩ := map_eq_some_iff.1 hstep
    exact inv.keeps (.fluxFutureThen f timeout)
  | receive req =>
    obtain ⟨⟨r, h₁⟩, hrecv, rfl⟩ := map_eq_some_iff.1 hstep
    obtain ⟨hr, hk, hfuts, hhdls⟩ := fluxRecv_spec hrecv
    refine inv.keeps (hk.handleCb hr ?_)
    rw [hhdls, lookupHandler, hfuts]
    exact (hg hidle).imp_right fun hown => hown _ hrecv
  | nowTimer => cases hstep
  | thenTimer id | check id =>
    obtain ⟨f, hf, hstep⟩ := bind_eq_some_iff.1 hstep
    split_ifs at hstep
    cases hstep
    exact inv.keeps ((Keeps.refl h).set fun _ => ⟨rfl, rfl, rfl⟩)
  | destroy id =>
    obtain ⟨f, hf, rfl⟩ := map_eq_some_iff.1 hstep
    obtain ⟨hmem, rfl⟩ := mem_of_find hf
    refine inv.fluxFutureDestroy hmem fun htag hrdy r hr => ?_
    obtain ⟨hnet, hkept⟩ := hg f hf htag hrdy
    rcases hr with hr | ⟨g, hgmem, hr⟩
    · exact hnet r hr
    · exact hkept g hgmem r hr

theorem Handle.Inv.stepWaiting {h h' : Handle} {l : Label} {id : ℕ} {timer : Bool}
    (inv : h.Inv) (hstep : h.stepWaiting id timer l = some h') : h'.Inv := by
  cases l with
  | receive req =>
    obtain ⟨⟨r, h₁⟩, hrecv, hstep⟩ := bind_eq_some_iff.1 hstep
    obtain ⟨f, hf, rfl⟩ := map_eq_some_iff.1 hstep
    obtain ⟨hr, hk, -, -⟩ := fluxRecv_spec hrecv
    exact inv.keeps (hk.cloneHandleCb hr (mem_of_find hf).1)
  | nowTimer =>
    rw [Handle.stepWaiting] at hstep
    split_ifs at hstep
    cases hstep
    exact inv.keeps ((Keeps.refl h).waiting none)
  | _ => cases hstep

theorem inv_of_reach {h : Handle} (hrch : machine.Reach InTime (· = .create) h) : h.Inv := by
  refine hrch.invariant Handle.Inv ?_ ?_
  · rintro _ rfl
    exact Handle.inv_create
  · intro s l t _ inv hg hstep
    simp only [machine] at hstep
    split at hstep
    · rename_i hidle
      exact inv.stepIdle hidle hg hstep
    · exact inv.stepWaiting hstep

/-- **A response never reaches the wrong RPC**, in every run that meets the condition: a future
is fulfilled by no response but the one to its own request, and the tag of a response that
has not been received is not in the pool. -/
theorem responses_own {h : Handle} (hreach : machine.Reach InTime (· = .create) h) :
    (∀ p ∈ h.fulfilled, p.2.req = p.1) ∧ ∀ r, h.Outstanding r → h.pool.Taken r.tag :=
  ⟨(inv_of_reach hreach).fulfilled_own, fun _ => (inv_of_reach hreach).outstanding_taken⟩

instance (h : Handle) (l : Label) : Decidable (InTime h l) := by
  cases l <;> unfold InTime <;> infer_instance

/-- Two requests with the same tag, one after the other: the first future is destroyed when
its response has arrived. -/
theorem responses_own_twice :
    ∃ h, machine.Reach InTime (· = .create) h ∧ h.fulfilled = [(1, ⟨1, 1⟩), (0, ⟨0, 1⟩)] ∧
      (∀ p ∈ h.fulfilled, p.2.req = p.1) ∧ ∀ r, h.Outstanding r → h.pool.Taken r.tag := by
  have hrun : ∃ h, machine.runGuarded (fun h l => InTime h l)
      [.rpc false true, .thenCall 0 true, .receive 0, .check 0, .destroy 0,
        .rpc false true, .waitFor 1 .bounded, .receive 1] .create = some h ∧
      h.fulfilled = [(1, ⟨1, 1⟩), (0, ⟨0, 1⟩)] :=
    ⟨_, rfl, rfl⟩
  obtain ⟨h, hrun, hful⟩ := hrun
  have hrch : machine.Reach InTime (· = .create) h :=
    .of_runGuarded (fun _ _ => of_decide_eq_true) (.start rfl) hrun
  exact ⟨h, hrch, hful, responses_own hrch⟩

/-- **A tag in use names its RPC:** it is out of the pool, no other future has it, and an
outstanding response with it answers the request of its future. -/
theorem tag_names_rpc {h : Handle} (hreach : machine.Reach InTime (· = .create) h)
    (htag : tag ≠ matchtagNone) (hlive : h.Live n tag) : h.pool.Taken tag ∧
      (∀ m, h.Live m tag → m = n) ∧ ∀ r, h.Outstanding r → r.tag = tag → r.req = n := by
  have inv := inv_of_reach hreach
  refine ⟨inv.live_taken hlive, fun _ hl => inv.live_unique htag hl hlive, ?_⟩
  rintro r hr rfl
  exact inv.outstanding_own htag hr hlive

/-- The first of two requests. -/
theorem tag_names_rpc_first : ∃ h : Handle, h.Live 0 1 ∧ ∀ m, h.Live m 1 → m = 0 := by
  have hrun : ∃ h, machine.runGuarded (fun h l => InTime h l) [.rpc false true, .rpc false true]
      .create = some h ∧ h.Live 0 1 := ⟨_, rfl, _, mem_cons_self, rfl, rfl⟩
  obtain ⟨h, hrun, hlive⟩ := hrun
  have hreach : machine.Reach InTime (· = .create) h :=
    .of_runGuarded (fun _ _ => of_decide_eq_true) (.start rfl) hrun
  exact ⟨h, hlive, (tag_names_rpc hreach (by decide) hlive).2.1⟩

/-- A future is destroyed after its timeout, its tag is used again, and the late response
fulfils the second future. -/
theorem late_response_wrong :
    ∃ h, machine.Reach (fun _ _ => True) (· = .create) h ∧ (1, ⟨0, 1⟩) ∈ h.fulfilled := by
  have hrun : ∃ h, machine.run
      [.rpc false true, .thenCall 0 true, .thenTimer 0, .destroy 0,
        .rpc false true, .thenCall 1 false, .receive 0] .create = some h ∧
      (1, ⟨0, 1⟩) ∈ h.fulfilled :=
    ⟨_, rfl, mem_singleton.2 rfl⟩
  obtain ⟨h, hrun, hful⟩ := hrun
  exact ⟨h, .of_run (.start rfl) hrun, hful⟩

/-- Without a timeout of `flux_future_then`: after a timeout of `flux_future_wait_for` it
makes the future ready with the error `EEXIST`. -/
example : (machine.run
    [.rpc false true, .waitFor 0 .bounded, .nowTimer, .thenCall 0 false, .destroy 0,
      .rpc false true, .waitFor 1 .unbounded, .receive 0] .create).map Handle.fulfilled
    = some [(1, ⟨0, 1⟩)] := by
  rfl

/-- The handler of a request that expects no response takes the response of a future that
was destroyed. -/
example : (machine.run
    [.rpc false true, .destroy 0, .rpc true true, .thenCall 1 false, .receive 0]
      .create).map Handle.fulfilled
    = some [(1, ⟨0, 1⟩)] := by
  rfl

end FluxCore.Libflux.Rpc
