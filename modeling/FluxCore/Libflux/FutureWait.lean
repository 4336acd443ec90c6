import FluxCore.Lib.Machine
import Mathlib.Algebra.Order.Ring.Rat
import Mathlib.Data.List.Basic

/-!
# Waiting for a Future

`flux_future_wait_for` runs a reactor of its own until the future is fulfilled. While it does,
the future is in its `now` context: the functions that give the reactor and the handle of the
future give the temporary reactor and a clone of the handle. Messages that come in on the clone
and that no handler takes are kept, and are put back into the queue of the handle at the end.

If the temporary reactor stops with an error, as it does when the time is up, the function
returns at once. The future stays in its `now` context, and the messages stay with the clone
(`wait_clean_iff`).
-/

namespace FluxCore.Libflux.Futures

variable {μ : Type}

/-- The reactor and handle that a future is initialized on: those that were set for it, or the
temporary ones. -/
inductive Context
  | set
  | now
deriving DecidableEq

/-- `struct now_context`, with the messages that the clone of the handle keeps (`unmatched`). -/
structure NowContext (μ : Type) where
  initCalled : Bool := false
  running : Bool := false
  h : Option (List μ) := none
deriving DecidableEq

/-- A future that is waited for, with the queue of its handle. The field `thenInit` tells what
the future was initialized on by `flux_future_then`. -/
structure Awaited (μ : Type) where
  ready : Bool := false
  hasInit : Bool
  hasHandle : Bool
  now : Option (NowContext μ) := none
  thenInit : Option Context := none
  queue : List μ := []
deriving DecidableEq

/-- A call of `flux_future_wait_for`, and what happens during the call: the initialization may
ask for the handle and may fulfill the future; messages arrive, and the reactor hands out the
first `reads` messages of the queue, until it stops. -/
structure Wait (μ : Type) where
  timeout : ℚ
  initAsksHandle : Bool
  initFulfills : Bool
  arrived : List μ
  reads : ℕ
  matched : μ → Bool
  fulfilled : Bool
  failed : Bool

namespace Awaited

variable (f : Awaited μ) (w : Wait μ)

/-- `flux_future_get_reactor` and `flux_future_get_flux`: what they give. -/
def context : Context := if f.now.any NowContext.running then .now else .set

/-- The call of the initialization in the `now` context, unless there was one before. -/
def initNow (now : NowContext μ) : Awaited μ :=
  if f.hasInit ∧ ¬ now.initCalled then
    let h := if f.hasHandle ∧ w.initAsksHandle then some (now.h.getD []) else now.h
    { f with ready := w.initFulfills, now := some { now with initCalled := true, h } }
  else { f with now := some now }

/-- The messages that the clone hands out, and those of them that no handler takes. -/
def read : List μ := (f.queue ++ w.arrived).take w.reads

def unmatched : List μ := (f.read w).filter fun msg => !w.matched msg

/-- `flux_reactor_run` of the temporary reactor. -/
def reactorRun (now : NowContext μ) : Awaited μ :=
  match now.h with
  | none => { f with ready := w.fulfilled, queue := f.queue ++ w.arrived }
  | some kept =>
    { f with ready := w.fulfilled, queue := (f.queue ++ w.arrived).drop w.reads,
             now := some { now with h := some ((f.unmatched w).reverse ++ kept) } }

/-- `flux_dispatch_requeue` of the clone. -/
def requeue (now : NowContext μ) : Awaited μ :=
  { f with queue := (now.h.getD []).foldl (fun queue msg => msg :: queue) f.queue,
           now := some { now with running := false, h := now.h.map fun _ => [] } }

/-- The future when `flux_future_wait_for` has entered the `now` context. -/
def entered : Awaited μ := f.initNow w { f.now.getD {} with running := true }

/-- The future when the temporary reactor has been run, if it is run. -/
def ran : Awaited μ :=
  if (f.entered w).ready then f.entered w
  else (f.entered w).reactorRun w ((f.entered w).now.getD {})

/-- The temporary reactor is run, and stops with an error. -/
def Fails : Prop := ¬ (f.ready ∨ w.timeout = 0) ∧ ¬ (f.entered w).ready ∧ w.failed

instance : Decidable (f.Fails w) :=
  inferInstanceAs (Decidable (¬ (f.ready ∨ w.timeout = 0) ∧ ¬ (f.entered w).ready ∧ w.failed))

/-- `flux_future_wait_for`, without its result. -/
def waitFor : Awaited μ :=
  if f.ready ∨ w.timeout = 0 then f
  else if ¬ (f.entered w).ready ∧ w.failed then f.ran w
  else (f.ran w).requeue ((f.ran w).now.getD {})

/-- `flux_future_then`, for the initialization. -/
def startThen : Awaited μ :=
  if f.hasInit ∧ f.thenInit.isNone then { f with thenInit := some f.context } else f

/-- A future that is not in its `now` context, whose clone keeps no message. -/
def Clean : Prop := ∀ now ∈ f.now, now.running = false ∧ now.h.getD [] = []

end Awaited

/-- A future and the calls that wait for it. -/
def awaited : Machine (Awaited μ) (Wait μ) where
  step w f := some (f.waitFor w)

/-- A call leaves no trace: the future is not in its `now` context, every message that no handler
took is in the queue of the handle, or as before if nothing was read, and a call of
`flux_future_then` initializes the future on what was set for it. -/
def NoTrace (f : Awaited μ) (w : Wait μ) (f' : Awaited μ) : Prop :=
  f'.Clean ∧ (f'.queue = f.queue ∨ f'.queue = f.queue ++ w.arrived ∨
    f'.queue = f.unmatched w ++ (f.queue ++ w.arrived).drop w.reads) ∧
    f'.startThen.thenInit ≠ some .now

variable {f : Awaited μ} {w : Wait μ}

theorem foldl_cons (l q : List μ) : l.foldl (fun q msg => msg :: q) q = l.reverse ++ q := by
  induction l generalizing q with
  | nil => rfl
  | cons msg l ih => simp [ih]

theorem Awaited.Clean.startThen (h : f.Clean) (hthen : f.thenInit = none) :
    f.startThen.thenInit ≠ some .now := by
  have hany : f.now.any NowContext.running = false := by
    cases hnow : f.now with
    | none => rfl
    | some now => exact (h now hnow).1
  rw [Awaited.startThen]
  split_ifs <;> simp [Awaited.context, hany, hthen]

theorem entered_spec (f : Awaited μ) (w : Wait μ) :
    ∃ now, (f.entered w).now = some now ∧ now.running = true ∧
      now.h.getD [] = (f.now.getD {}).h.getD [] ∧ (f.entered w).queue = f.queue ∧
      (f.entered w).thenInit = f.thenInit := by
  rw [Awaited.entered, Awaited.initNow]
  split_ifs <;> exact ⟨_, rfl, rfl, rfl, rfl, rfl⟩

theorem ran_spec (f : Awaited μ) (w : Wait μ) :
    ∃ now, (f.ran w).now = some now ∧ now.running = true ∧ (f.ran w).thenInit = f.thenInit ∧
      (now.h.getD [] = (f.now.getD {}).h.getD [] ∧
          ((f.ran w).queue = f.queue ∨ (f.ran w).queue = f.queue ++ w.arrived) ∨
        now.h.getD [] = (f.unmatched w).reverse ++ (f.now.getD {}).h.getD [] ∧
          (f.ran w).queue = (f.queue ++ w.arrived).drop w.reads) := by
  obtain ⟨now, hnow, hrun, hh, hque, hthen⟩ := entered_spec f w
  rw [Awaited.ran]
  split_ifs
  · exact ⟨now, hnow, hrun, hthen, .inl ⟨hh, .inl hque⟩⟩
  rw [hnow, Option.getD_some, Awaited.reactorRun]
  cases hkept : now.h with
  | none =>
    rw [hkept] at hh
    refine ⟨now, hnow, hrun, hthen, .inl ⟨?_, .inr (by rw [hque])⟩⟩
    rw [hkept, hh]
  | some kept =>
    rw [hkept] at hh
    refine ⟨_, rfl, hrun, hthen, .inr ⟨?_, by rw [hque]⟩⟩
    rw [← hh, Awaited.unmatched, Awaited.read, hque]
    rfl

theorem not_clean_of_fails (h : f.Fails w) : ¬ (f.waitFor w).Clean := by
  rw [Awaited.waitFor, if_neg h.1, if_pos h.2]
  obtain ⟨now, hnow, hrun, -⟩ := ran_spec f w
  intro hcl
  have := (hcl now hnow).1
  rw [hrun] at this
  cases this

theorem noTrace_of_not_fails (hcl : f.Clean) (hthen : f.thenInit = none)
    (h : ¬ f.Fails w) : NoTrace f w (f.waitFor w) := by
  rw [Awaited.waitFor]
  split_ifs with hstart hfail
  · exact ⟨hcl, .inl rfl, hcl.startThen hthen⟩
  · exact absurd ⟨hstart, hfail⟩ h
  obtain ⟨now, hnow, -, hthen', hmsgs⟩ := ran_spec f w
  have hnone : (f.now.getD {}).h.getD [] = [] := by
    cases hnow : f.now with
    | none => rfl
    | some now => exact (hcl now hnow).2
  have haft : ((f.ran w).requeue now).Clean := by
    rintro now' ⟨⟩
    refine ⟨rfl, ?_⟩
    cases now.h <;> rfl
  rw [hnow, Option.getD_some]
  refine ⟨haft, ?_, haft.startThen (hthen'.trans hthen)⟩
  simp only [Awaited.requeue, foldl_cons]
  rcases hmsgs with ⟨hh, hque | hque⟩ | ⟨hh, hque⟩
  · exact .inl (by rw [hh, hnone, hque]; rfl)
  · exact .inr (.inl (by rw [hh, hnone, hque]; rfl))
  · exact .inr (.inr (by rw [hh, hnone, hque, List.append_nil, List.reverse_reverse]))

end FluxCore.Libflux.Futures
