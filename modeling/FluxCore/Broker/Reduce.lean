import Mathlib.Algebra.Order.Ring.Rat
import Mathlib.Data.UInt

/-!
# Reductions

The reduction handles of the broker. Items are appended to a handle one by one, each with the
number of its batch. The items of the current batch are kept and reduced to fewer, until the
handle is flushed: by its high-water mark, by its timer, or at once if it has neither. An item
that comes after the flush of its batch is a straggler, and is handed on by itself. To hand on
is to call the operation `sink` on rank 0 and `forward` on the other ranks.

The operations are callbacks. They work on the handle, from which they pop items, and on the
state of the code that owns it.
-/

namespace FluxCore.Broker

/-- A reduction handle, with items of a type `α`. The timer exists if the handle is flushed by
it, and is running when it is armed. -/
structure Reduce (α : Type) where
  items : List α := []
  oldItem : Option α := none
  oldFlag : Bool := false
  rank : ℕ
  hwmflush : Bool
  timedflush : Bool
  timerArmed : Bool := false
  hwm : UInt32 := 0
  hwmReadonly : Bool := false
  count : UInt32 := 0
  batchnum : ℤ := 0
  flushed : Bool := false
deriving DecidableEq

/-- A callback of a handle, with the batch it is called for and the state of the owner. There
is no result if an assertion of the callback fails, or if it exits. -/
abbrev ReduceOp (α σ : Type) := Reduce α → ℤ → σ → Option (Reduce α × σ)

/-- The callbacks of a handle. -/
structure ReduceOps (α σ : Type) where
  reduce : Option (ReduceOp α σ)
  sink : Option (ReduceOp α σ)
  forward : Option (ReduceOp α σ)
  itemweight : Option (α → ℤ)

namespace Reduce

variable {α σ : Type} (ops : ReduceOps α σ) (r : Reduce α) (a : σ)

/-- `flux_reduce_create`: a handle of a rank, unless the callbacks or the timeout do not fit
the flags. -/
def create (rank : ℕ) (timeout : ℚ) (hwmflush timedflush : Bool) : Option (Reduce α) :=
  if (hwmflush ∧ ops.itemweight.isNone) ∨ (timedflush ∧ timeout ≤ 0) then none
  else some { rank, hwmflush, timedflush }

/-- `flux_reduce_opt_set` of the high-water mark. -/
def setHwm (hwm : UInt32) : Reduce α := { r with hwm, hwmReadonly := true }

/-- `flux_reduce_pop`. -/
def pop : Option α × Reduce α :=
  if r.oldFlag then (r.oldItem, { r with oldItem := none })
  else (r.items.head?, { r with items := r.items.tail })

/-- `flux_reduce_push`. -/
def push (item : α) : Reduce α := { r with items := item :: r.items }

/-- The call of `forward` or `sink` with which a flush hands items on. -/
def handOn (batch : ℤ) : Option (Reduce α × σ) :=
  match if r.rank > 0 then ops.forward else ops.sink with
  | some op => op r batch a
  | none => some (r, a)

/-- Stop the timer of a handle, and mark its batch as flushed. -/
def markFlushed : Reduce α :=
  { r with timerArmed := if r.timedflush then false else r.timerArmed, flushed := true }

/-- `flush_current`: hand on the items of the current batch. -/
def flushCurrent : Option (Reduce α × σ) :=
  if r.items.isEmpty then some (r.markFlushed, a)
  else (r.handOn ops a r.batchnum).map fun (r, a) => ({ r with items := [] }.markFlushed, a)

/-- `timer_cb`. -/
def timerCb : Option (Reduce α × σ) := r.flushCurrent ops a

/-- `flush_old`: hand on a straggler. -/
def flushOld (item : α) (batchnum : ℤ) : Option (Reduce α × σ) :=
  if r.oldItem.isSome then none
  else
    let r := { r with oldItem := some item, oldFlag := true }
    (r.handOn ops a batchnum).map fun (r, a) => ({ r with oldItem := none, oldFlag := false }, a)

/-- Arm the timer of a handle that holds items. -/
def armTimer : Reduce α :=
  if r.timedflush ∧ ¬ r.items.isEmpty ∧ ¬ r.timerArmed then { r with timerArmed := true } else r

/-- Reduce the items of a handle, if there are several. -/
def reduceItems : Option (Reduce α × σ) :=
  match ops.reduce with
  | some reduce => if r.items.length > 1 then reduce r r.batchnum a else some (r, a)
  | none => some (r, a)

/-- Flush a handle that has reached its high-water mark. -/
def flushHwm : Option (Reduce α × σ) :=
  if r.hwmflush ∧ r.count ≥ r.hwm then r.flushCurrent ops a else some (r, a)

/-- Flush a handle that keeps nothing. -/
def flushUnheld : Option (Reduce α × σ) :=
  if ¬ r.hwmflush ∧ ¬ r.timedflush then r.flushCurrent ops a else some (r, a)

/-- What `flux_reduce_append` does with an item of the current batch. -/
def appendCurrent (item : α) (weight : ℤ) (batchnum : ℤ) : Option (Reduce α × σ) :=
  if batchnum ≠ r.batchnum then none
  else
    let r := { r with count := r.count + UInt32.ofInt weight, items := item :: r.items }
    (r.reduceItems ops a).bind fun (r, a) => (r.flushHwm ops a).bind fun (r, a) =>
      r.armTimer.flushUnheld ops a

/-- `flux_reduce_append`. -/
def append (item : α) (batchnum : ℤ) : Option (Reduce α × σ) :=
  let weight := match ops.itemweight with
    | some itemweight => itemweight item
    | none => 1
  if batchnum < r.batchnum - 1 then r.flushOld ops a item batchnum
  else if batchnum = r.batchnum - 1 then
    let r := if r.hwmReadonly then r else { r with hwm := r.hwm + UInt32.ofInt weight }
    r.flushOld ops a item batchnum
  else if batchnum = r.batchnum ∧ r.flushed then
    { r with count := r.count + UInt32.ofInt weight }.flushOld ops a item batchnum
  else if batchnum > r.batchnum then
    (r.flushCurrent ops a).bind fun (r, a) =>
      let r := if r.hwmReadonly then r else { r with hwm := r.count }
      { r with count := 0, batchnum, flushed := false }.appendCurrent ops a item weight batchnum
  else r.appendCurrent ops a item weight batchnum

end Reduce

end FluxCore.Broker
