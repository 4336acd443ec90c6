import Mathlib.Logic.Basic

/-!
# Labelled Machines and Guarded Runs

A machine is a partial step function over labels. Its runs are restricted by a guard, a
condition on each step in the state in which it is taken; the trivial guard gives all
runs. The file has the invariant rule for guarded runs, the rule that lets one invariant
use another, and the passage from a computed run to a reachable state.
-/

/-- A machine with states `σ` and labels `α`: the state after a step, if the label is
enabled. -/
structure Machine (σ α : Type) where
  step : α → σ → Option σ

namespace Machine

variable {σ α : Type} (m : Machine σ α)

/-- `m.Reach guard init s`: the state `s` is reached from an initial state by steps that
all meet the guard. -/
inductive Reach (guard : σ → α → Prop) (init : σ → Prop) : σ → Prop
  | start {s : σ} (h : init s) : Reach guard init s
  | step {s t : σ} (l : α) (hs : Reach guard init s) (hg : guard s l)
      (ht : m.step l s = some t) : Reach guard init t

variable {m} {guard guard' : σ → α → Prop} {init : σ → Prop}

/-- **Invariants:** what holds initially and is kept by every step that meets the guard
holds in every state reached. -/
theorem Reach.invariant (hs : m.Reach guard init s) (inv : σ → Prop) (hinit : ∀ s, init s → inv s)
    (hstep : ∀ s l t, m.Reach guard init s → inv s → guard s l → m.step l s = some t → inv t) :
    inv s := by
  induction hs with
  | start h => exact hinit _ h
  | step l hs hg ht ih => exact hstep _ l _ hs ih hg ht

/-- Take the steps of a list in order. -/
def run (m : Machine σ α) : List α → σ → Option σ
  | [], s => some s
  | l :: ls, s => (m.step l s).bind (m.run ls)

theorem run_append (m : Machine σ α) (ls ls' : List α) (s : σ) :
    m.run (ls ++ ls') s = (m.run ls s).bind (m.run ls') := by
  induction ls generalizing s with
  | nil => rfl
  | cons l ls ih =>
    rw [List.cons_append, run, run, Option.bind_assoc]
    exact congrArg _ (funext ih)

/-- Every step of the run along `ls` has the property `P`, of the state before it, its
label and the state after it. -/
def AllSteps (m : Machine σ α) (P : σ → α → σ → Prop) : List α → σ → Prop
  | [], _ => True
  | l :: ls, s => ∀ t, m.step l s = some t → P s l t ∧ m.AllSteps P ls t

/-- Properties of runs can be computed. -/
def decidableAllSteps (m : Machine σ α) {P : σ → α → σ → Prop}
    [∀ s l t, Decidable (P s l t)] : ∀ ls s, Decidable (m.AllSteps P ls s)
  | [], _ => .isTrue trivial
  | l :: ls, s =>
    match h : m.step l s with
    | none => .isTrue fun t ht => by rw [h] at ht; cases ht
    | some t =>
      have : Decidable (m.AllSteps P ls t) := decidableAllSteps m ls t
      decidable_of_iff (P s l t ∧ m.AllSteps P ls t)
        ⟨fun hp t' ht => by rw [h] at ht; cases ht; exact hp, fun hp => hp t h⟩

instance {P : σ → α → σ → Prop} [∀ s l t, Decidable (P s l t)] (ls : List α) (s : σ) :
    Decidable (m.AllSteps P ls s) :=
  decidableAllSteps m ls s

/-- Two properties of steps agree on whole runs if they agree under an invariant of the
steps that have them. -/
theorem allSteps_congr (inv : σ → Prop)
    (hinv : ∀ s l t, inv s → m.step l s = some t → P s l t → inv t)
    (h : ∀ s l t, inv s → m.step l s = some t → (P s l t ↔ Q s l t)) (ls : List α) (hs : inv s) :
    m.AllSteps P ls s ↔ m.AllSteps Q ls s := by
  induction ls generalizing s with
  | nil => exact Iff.rfl
  | cons l ls ih =>
    constructor
    · intro hP t ht
      obtain ⟨hp, hrest⟩ := hP t ht
      exact ⟨(h s l t hs ht).1 hp, (ih (hinv s l t hs ht hp)).1 hrest⟩
    · intro hQ t ht
      obtain ⟨hq, hrest⟩ := hQ t ht
      have hp := (h s l t hs ht).2 hq
      exact ⟨hp, (ih (hinv s l t hs ht hp)).2 hrest⟩

/-- Take the steps of a list in order, checking a guard before each step. -/
def runGuarded (m : Machine σ α) (check : σ → α → Bool) : List α → σ → Option σ
  | [], s => some s
  | l :: ls, s => if check s l then (m.step l s).bind (m.runGuarded check ls) else none

theorem Reach.of_runGuarded (hc : ∀ s l, check s l = true → guard s l) (hs : m.Reach guard init s)
    (h : m.runGuarded check ls s = some t) : m.Reach guard init t := by
  induction ls generalizing s with
  | nil =>
    cases h
    exact hs
  | cons l ls ih =>
    rw [runGuarded] at h
    split at h
    · rename_i hl
      obtain ⟨u, hu, ht⟩ := Option.bind_eq_some_iff.1 h
      exact ih (.step l hs (hc s l hl) hu) ht
    · cases h

theorem Reach.of_run (hs : m.Reach (fun _ _ => True) init s) (h : m.run ls s = some t) :
    m.Reach (fun _ _ => True) init t := by
  induction ls generalizing s with
  | nil =>
    cases h
    exact hs
  | cons l ls ih =>
    obtain ⟨u, hu, ht⟩ := Option.bind_eq_some_iff.1 h
    exact ih (.step l hs trivial hu) ht

end Machine
