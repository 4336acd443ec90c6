import FluxCore.Lib.Machine
import Mathlib.Data.Int.Notation
import Mathlib.Data.List.Basic

/-!
# Deferred Cron Tasks

If it has a synchronization event, the cron module (`cron.c`) does not run a task at once. The
entry goes on a list, and the handler of the event runs the tasks on the list. The handler is
started when the list gets its first entry; a request that changes or disables the event gives
it up, whatever is on the list (`deferred_awaited`).
-/

namespace FluxCore.Cron

/-- `cron_ctx_t`, and the topics that the module is subscribed to. The message handler has a
topic, and is started or not. Entries are known by their ids; `ran` are those whose tasks have
been run. Times are in nanoseconds. -/
structure Ctx where
  syncEvent : Option String := none
  mh : Option (String × Bool) := none
  lastSync : ℤ := 0
  syncEpsilon : ℤ := 15000000
  deferred : List ℕ := []
  subscribed : List String := []
  ran : List ℕ := []

namespace Ctx

variable (ctx : Ctx)

/-- `cron_ctx_sync_event_stop`. -/
def syncEventStop : Ctx :=
  match ctx.syncEvent with
  | none => ctx
  | some topic =>
    { ctx with subscribed := ctx.subscribed.erase topic, mh := none, syncEvent := none }

/-- `cron_ctx_sync_event_init`. -/
def syncEventInit (topic : String) : Ctx :=
  { ctx with
    syncEvent := some topic, mh := some (topic, false), subscribed := topic :: ctx.subscribed }

/-- `cron_sync_handler`. -/
def syncHandler (topic : Option String) (disable : Bool) (epsilon : Option ℤ) : Ctx :=
  let ctx := if topic.isSome || disable then ctx.syncEventStop else ctx
  let ctx := topic.elim ctx ctx.syncEventInit
  { ctx with syncEpsilon := epsilon.getD ctx.syncEpsilon }

/-- `cron_entry_defer`, for the entry `e` at a time. -/
def entryDefer (now : ℤ) (e : ℕ) : Ctx :=
  match ctx.mh with
  | none => { ctx with ran := ctx.ran ++ [e] }
  | some (topic, started) =>
    if now - ctx.lastSync < ctx.syncEpsilon then { ctx with ran := ctx.ran ++ [e] }
    else
      { ctx with
        deferred := e :: ctx.deferred
        mh := some (topic, started || ctx.deferred.isEmpty) }

/-- `deferred_cb`. -/
def deferredCb (now : ℤ) : Ctx :=
  { ctx with
    ran := ctx.ran ++ ctx.deferred, deferred := [], lastSync := now
    mh := ctx.mh.map fun mh => (mh.1, false) }

end Ctx

/-- What happens: a request `cron.sync`, another request for an entry, which leaves all this
alone, the trigger of an entry, and an event. -/
inductive Label
  | sync (topic : Option String) (disable : Bool) (epsilon : Option ℤ)
  | entryRequest
  | trigger (now : ℤ) (e : ℕ)
  | event (topic : String) (now : ℤ)

/-- **The module.** An event comes only to a started handler of its topic. -/
def cron : Machine Ctx Label where
  step
    | .sync topic disable epsilon, ctx => some (ctx.syncHandler topic disable epsilon)
    | .entryRequest, ctx => some ctx
    | .trigger now e, ctx => some (ctx.entryDefer now e)
    | .event topic now, ctx =>
      if topic ∈ ctx.subscribed then
        some (if ctx.mh = some (topic, true) then ctx.deferredCb now else ctx)
      else none

/-- The module starts with a synchronization event or without. -/
def Start (ctx : Ctx) : Prop := ∃ topic : Option String, ctx = topic.elim {} (Ctx.syncEventInit {})

/-- **The condition.** The event is not changed or disabled while tasks are deferred. -/
def Undisturbed (ctx : Ctx) : Label → Prop
  | .sync topic disable _ => (topic.isSome || disable) → ctx.deferred = []
  | _ => True

/-- The handler is for the event, and it is started if there is a task. -/
structure Ready (ctx : Ctx) : Prop where
  topic : ∀ mh ∈ ctx.mh, ctx.syncEvent = some mh.1 ∧ mh.1 ∈ ctx.subscribed
  started : ctx.deferred ≠ [] → ∃ topic, ctx.mh = some (topic, true)

variable {ctx ctx' : Ctx}

theorem Ready.step (h : Ready ctx) (hl : Undisturbed ctx l) (hs : cron.step l ctx = some ctx') :
    Ready ctx' := by
  cases l with
  | sync topic disable epsilon =>
    cases hs
    cases topic with
    | some topic =>
      have hnil : ctx.syncEventStop.deferred = [] := by
        rw [Ctx.syncEventStop]
        split <;> exact hl rfl
      refine ⟨?_, fun hne => absurd hnil hne⟩
      rintro _ ⟨⟩
      exact ⟨rfl, List.mem_cons_self⟩
    | none =>
      cases disable with
      | false => exact { h with }
      | true =>
        have hstop : Ready ctx.syncEventStop := by
          rw [Ctx.syncEventStop]
          split
          · exact h
          · exact ⟨nofun, fun hne => absurd (hl rfl) hne⟩
        exact { hstop with }
  | entryRequest =>
    cases hs
    exact h
  | trigger now e =>
    cases hs
    rw [Ctx.entryDefer]
    split
    · exact { h with }
    rename_i topic started hmh
    split
    · exact { h with }
    refine ⟨?_, fun _ => ⟨topic, ?_⟩⟩
    · rintro _ ⟨⟩
      exact h.topic (topic, started) hmh
    · -- The handler has been started with the first entry of the list.
      cases hd : ctx.deferred with
      | nil => rw [List.isEmpty_nil, Bool.or_true]
      | cons d ds =>
        obtain ⟨topic', hstrt⟩ := h.started (hd ▸ List.cons_ne_nil d ds)
        cases hmh.symm.trans hstrt
        rfl
  | event topic now =>
    simp only [cron] at hs
    split_ifs at hs with hsub hmh
    · cases hs
      refine ⟨fun mh hmh' => ?_, fun hne => absurd rfl hne⟩
      simp only [Ctx.deferredCb, hmh, Option.map_some, Option.mem_some_iff] at hmh'
      subst hmh'
      exact h.topic (topic, true) hmh
    · cases hs
      exact h

/-- **Every deferred task has a wake-up:** the handler of the event is there and started, and
with the next event the tasks are run. -/
theorem deferred_awaited (h : cron.Reach Undisturbed Start ctx) (hne : ctx.deferred ≠ []) :
    ∃ topic, ctx.syncEvent = some topic ∧ ctx.mh = some (topic, true) ∧
      topic ∈ ctx.subscribed ∧ ∀ now, ∃ ctx', cron.step (.event topic now) ctx = some ctx' ∧
        ctx'.deferred = [] ∧ ctx'.ran = ctx.ran ++ ctx.deferred := by
  have hrdy : Ready ctx := by
    refine h.invariant Ready ?_ fun s l t _ hs hl ht => hs.step hl ht
    rintro _ ⟨topic, rfl⟩
    cases topic with
    | none => exact ⟨nofun, fun hne => absurd rfl hne⟩
    | some topic =>
      refine ⟨?_, fun hne => absurd rfl hne⟩
      rintro _ ⟨⟩
      exact ⟨rfl, List.mem_cons_self⟩
  obtain ⟨topic, hmh⟩ := hrdy.started hne
  obtain ⟨hsync, hsub⟩ := hrdy.topic _ hmh
  refine ⟨topic, hsync, hmh, hsub, fun now => ⟨ctx.deferredCb now, ?_, rfl, rfl⟩⟩
  simp only [cron, hsub, hmh, if_true]

/-- A task is deferred to the event `hb`. -/
theorem deferred_awaited_hb : ∃ topic, topic = "hb" ∧ ∀ now, ∃ ctx',
    cron.step (.event topic now) ((Ctx.syncEventInit {} "hb").entryDefer 15000000 7) = some ctx' ∧
      ctx'.deferred = [] ∧ ctx'.ran = [7] := by
  obtain ⟨topic, htop, -, -, hrun⟩ := deferred_awaited
    (.step (.trigger 15000000 7) (.start ⟨some "hb", rfl⟩) trivial rfl) (List.cons_ne_nil 7 [])
  exact ⟨topic, (Option.some.inj htop).symm, hrun⟩

/-- **The event is changed** while a task is deferred, and the task stays on the list. -/
theorem deferred_forgotten :
    ((cron.run [.sync (some "a") false none, .trigger 15000000 7, .sync (some "b") false none,
        .event "b" 20000000] {}).map fun ctx => (ctx.deferred, ctx.mh)) =
      some ([7], some ("b", false)) := by
  decide

end FluxCore.Cron
