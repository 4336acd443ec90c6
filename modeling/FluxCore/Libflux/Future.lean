import FluxCore.Lib.Machine
import Mathlib.Data.Int.Notation
import Mathlib.Tactic.SplitIfs

/-!
# Futures

A future of `libflux/future.c` holds the result that it was fulfilled with. A future that is
fulfilled again before it is reset keeps the further results in a list, and a reset moves the
first of them into the future. A fatal error stays, whatever happens to the results.

To its user a future is a queue of results with a sticky error, `Fifo`, and that is what the
fields of the future stand for after any sequence of calls (`future_fifo`).
-/

namespace FluxCore.Libflux.Futures

variable {α φ : Type}

/-- `struct future_result`. -/
structure Result (α φ : Type) where
  isError : Bool := false
  errnum : ℤ := 0
  errnumString : Option String := none
  value : Option α := none
  valueFree : Option φ := none
deriving DecidableEq

/-- `struct flux_future`. The context for `flux_future_then`, if there is one, tells whether the
watchers that call the continuation are started. -/
structure Future (α φ : Type) where
  result : Result α φ := {}
  resultValid : Bool := false
  fatalErrnum : ℤ := 0
  fatalErrnumString : Option String := none
  fatalErrnumValid : Bool := false
  thenContext : Option Bool := none
  queue : Option (List (Result α φ)) := none
deriving DecidableEq

/-- `set_result_value`. There is no result if the assertion fails. -/
def setResultValue (fs : Result α φ) (value : Option α) (valueFree : Option φ) :
    Option (Result α φ) :=
  if fs.isError then none else some { fs with value, valueFree }

/-- `set_result_errnum`. -/
def setResultErrnum (fs : Result α φ) (errnum : ℤ) (errstr : Option String) :
    Option (Result α φ) :=
  if fs.value.isSome ∨ fs.valueFree.isSome then none
  else some { fs with errnum, errnumString := errstr <|> fs.errnumString, isError := true }

namespace Future

variable (f : Future α φ)

/-- `post_fulfill`, for the context of `flux_future_then`. -/
def postFulfill : Future α φ := { f with thenContext := f.thenContext.map fun _ => true }

/-- `queue_result`. -/
def queueResult (fs : Result α φ) : Future α φ :=
  { f with queue := some (f.queue.getD [] ++ [fs]) }

/-- `flux_future_fulfill`. -/
def fulfill (result : Option α) (freeFn : Option φ) : Option (Future α φ) :=
  if f.fatalErrnumValid then some f
  else if f.resultValid then
    (setResultValue {} result freeFn).map fun fs => (f.queueResult fs).postFulfill
  else
    (setResultValue f.result result freeFn).map fun fs =>
      { f with result := fs, resultValid := true }.postFulfill

/-- `flux_future_fulfill_error`. -/
def fulfillError (errnum : ℤ) (errstr : Option String) : Option (Future α φ) :=
  if f.fatalErrnumValid then some f
  else if f.resultValid then
    (setResultErrnum {} errnum errstr).map fun fs => (f.queueResult fs).postFulfill
  else
    (setResultErrnum {} errnum errstr).map fun fs =>
      { f with result := fs, resultValid := true }.postFulfill

/-- `flux_future_fatal_error`. -/
def fatalError (errnum : ℤ) (errstr : Option String) : Future α φ :=
  if f.fatalErrnumValid then f.postFulfill
  else
    { f with fatalErrnum := errnum, fatalErrnumString := errstr,
             fatalErrnumValid := true }.postFulfill

/-- `flux_future_reset`. -/
def reset : Future α φ :=
  let f := { f with result := {}, resultValid := false,
                    thenContext := f.thenContext.map fun _ => false }
  match f.queue with
  | some (fs :: queue) =>
    { f with result := fs, resultValid := true, queue := some queue }.postFulfill
  | _ => f

/-- `future_is_ready`. -/
def isReady : Bool := f.resultValid || f.fatalErrnumValid

/-- `flux_future_get` of a future that is ready. -/
def get : Except ℤ (Option α) :=
  if f.fatalErrnumValid then .error f.fatalErrnum
  else if f.resultValid ∧ f.result.isError then .error f.result.errnum
  else .ok f.result.value

/-- `flux_future_then`: the watchers are started if the future is ready. -/
def startThen : Future α φ :=
  { f with thenContext := some (f.thenContext.getD false || f.isReady) }

/-- `check_cb` stops the watchers before it calls the continuation. -/
def check : Future α φ := { f with thenContext := f.thenContext.map fun _ => false }

end Future

/-- What happens to a future. -/
inductive Label (α φ : Type)
  | fulfill (result : Option α) (freeFn : Option φ)
  | fulfillError (errnum : ℤ) (errstr : Option String)
  | fatalError (errnum : ℤ) (errstr : Option String)
  | reset
  | startThen
  | check

/-- A future as a machine. It stops if an assertion fails. -/
def future : Machine (Future α φ) (Label α φ) where
  step l f :=
    match l with
    | .fulfill result freeFn => f.fulfill result freeFn
    | .fulfillError errnum errstr => f.fulfillError errnum errstr
    | .fatalError errnum errstr => some (f.fatalError errnum errstr)
    | .reset => some f.reset
    | .startThen => some f.startThen
    | .check => some f.check

/-! ### What a future is for -/

/-- A queue of results, and the first fatal error. -/
structure Fifo (α : Type) where
  results : List (Except ℤ (Option α)) := []
  fatal : Option ℤ := none

/-- A result is ignored after a fatal error. -/
def Fifo.push (q : Fifo α) (r : Except ℤ (Option α)) : Fifo α :=
  if q.fatal.isSome then q else { q with results := q.results ++ [r] }

def Fifo.step (q : Fifo α) : Label α φ → Fifo α
  | .fulfill result _ => q.push (.ok result)
  | .fulfillError errnum _ => q.push (.error errnum)
  | .fatalError errnum _ => { q with fatal := q.fatal <|> some errnum }
  | .reset => { q with results := q.results.tail }
  | _ => q

/-- The queue after a sequence of calls. -/
def fifo (ls : List (Label α φ)) : Fifo α := ls.foldl Fifo.step {}

def Fifo.get (q : Fifo α) : Option (Except ℤ (Option α)) :=
  match q.fatal with
  | some errnum => some (.error errnum)
  | none => q.results.head?

/-- The calls that schedule the continuation: a fulfilment that is not ignored, a fatal error,
and a reset that leaves a result. -/
def Schedules (q : Fifo α) : Label α φ → Prop
  | .fulfill _ _ | .fulfillError _ _ => q.fatal = none
  | .fatalError _ _ => True
  | .reset => q.results.tail ≠ []
  | _ => False

/-- The calls that a fatal error turns off. -/
def Label.Fulfils : Label α φ → Prop
  | .fulfill _ _ | .fulfillError _ _ => True
  | _ => False

/-! ### The future refines the queue -/

/-- What a result stands for. -/
def Result.outcome (fs : Result α φ) : Except ℤ (Option α) :=
  if fs.isError then .error fs.errnum else .ok fs.value

namespace Future

/-- The queue that a future stands for. -/
def abs (f : Future α φ) : Fifo α where
  results := (if f.resultValid then [f.result.outcome] else []) ++
    (f.queue.getD []).map Result.outcome
  fatal := if f.fatalErrnumValid then some f.fatalErrnum else none

/-- A future without a result is cleared, and has no further results. -/
def Wf (f : Future α φ) : Prop :=
  f.resultValid = false → f.result = {} ∧ f.queue.getD [] = []

variable {f : Future α φ}

/-- **One call** on the future is the call on the queue, and no assertion fails. -/
theorem Wf.step (h : f.Wf) (l : Label α φ) :
    ∃ f', future.step l f = some f' ∧ f'.Wf ∧ f'.abs = f.abs.step l := by
  obtain ⟨result, valid, errnum, errstr, fatal, context, queue⟩ := f
  cases l with
  | fulfill value freeFn | fulfillError value freeFn =>
    cases fatal <;> cases valid <;>
      simp_all [future, Future.fulfill, Future.fulfillError, setResultValue, setResultErrnum, Wf,
        abs, Fifo.step, Fifo.push, Result.outcome, postFulfill, queueResult]
  | fatalError e s =>
    refine ⟨_, rfl, ?_⟩
    cases fatal <;> simp_all [Wf, abs, Fifo.step, Future.fatalError, postFulfill]
  | reset =>
    refine ⟨_, rfl, ?_⟩
    rcases queue with _ | _ | ⟨fs, queue⟩ <;> cases valid <;> cases fatal <;>
      simp_all [Wf, abs, Fifo.step, Future.reset, postFulfill]
  | startThen => exact ⟨_, rfl, h, rfl⟩
  | check => exact ⟨_, rfl, h, rfl⟩

theorem isReady_iff (f : Future α φ) (h : f.Wf) :
    f.isReady = true ↔ f.abs.results ≠ [] ∨ f.abs.fatal.isSome = true := by
  cases hval : f.resultValid <;> cases hfat : f.fatalErrnumValid <;>
    simp_all [Wf, abs, isReady]

theorem get_eq (h : f.isReady = true) : some f.get = f.abs.get := by
  cases hval : f.resultValid <;> cases hfat : f.fatalErrnumValid <;>
    simp_all [abs, isReady, get, Fifo.get, Result.outcome]

theorem schedules (h : f.Wf) (hl : Schedules f.abs l) (hf' : future.step l f = some f')
    (hthen : f.thenContext ≠ none) : f'.thenContext = some true := by
  obtain ⟨result, valid, errnum, errstr, fatal, context, queue⟩ := f
  obtain ⟨started, rfl⟩ := Option.ne_none_iff_exists'.1 hthen
  cases l with
  | fulfill value freeFn | fulfillError value freeFn =>
    cases fatal <;> cases valid <;>
      simp_all [future, Future.fulfill, Future.fulfillError, setResultValue, setResultErrnum, Wf,
        abs, Schedules] <;> cases hf' <;> rfl
  | fatalError e s =>
    cases hf'
    cases fatal <;> rfl
  | reset =>
    cases hf'
    rcases queue with _ | _ | ⟨fs, queue⟩ <;> cases valid <;>
      simp_all [Wf, abs, Schedules, Future.reset, postFulfill]
  | startThen | check => cases hl

end Future

theorem run_abs (ls : List (Label α φ)) (h : f.Wf) :
    ∃ f', future.run ls f = some f' ∧ f'.Wf ∧ f'.abs = ls.foldl Fifo.step f.abs := by
  induction ls generalizing f with
  | nil => exact ⟨f, rfl, h, rfl⟩
  | cons l ls ih =>
    obtain ⟨f₁, hf₁, hwf, habs⟩ := h.step l
    obtain ⟨f', hf', hwf', habs'⟩ := ih hwf
    exact ⟨f', by rw [Machine.run, hf₁]; exact hf', hwf', by rw [habs', habs]; rfl⟩

/-- **A future is a queue of results with a sticky fatal error.** After any sequence of calls no
assertion has failed; the future is ready exactly if the queue has a result or there was a fatal
error, and then it gives the first fatal error or else the head of the queue; after a fatal error
a fulfilment changes nothing; and the continuation is scheduled by every fulfilment and by every
reset that leaves a result. -/
theorem future_fifo (ls : List (Label α φ)) : ∃ f : Future α φ, future.run ls {} = some f ∧
      (f.isReady = true ↔ (fifo ls).results ≠ [] ∨ (fifo ls).fatal.isSome = true) ∧
      (f.isReady = true → some f.get = (fifo ls).get) ∧
      (∀ l : Label α φ, l.Fulfils → (fifo ls).fatal.isSome = true → future.step l f = some f) ∧
      ∀ l f', Schedules (fifo ls) l → future.step l f = some f' → f.thenContext ≠ none →
        f'.thenContext = some true := by
  obtain ⟨f, hf, hwf, habs⟩ := run_abs ls (f := ({} : Future α φ)) fun _ => ⟨rfl, rfl⟩
  have habs : f.abs = fifo ls := habs
  rw [← habs]
  refine ⟨f, hf, f.isReady_iff hwf, Future.get_eq, fun l hl hfat => ?_,
    fun l f' hl hf' hthen => Future.schedules hwf hl hf' hthen⟩
  have hval : f.fatalErrnumValid = true := by
    cases h : f.fatalErrnumValid with
    | false => simp [Future.abs, h] at hfat
    | true => rfl
  cases l with
  | fulfill _ _ | fulfillError _ _ =>
    simp [future, Future.fulfill, Future.fulfillError, hval]
  | _ => cases hl

end FluxCore.Libflux.Futures
