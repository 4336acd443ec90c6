import FluxCore.Libflux.Future
import Mathlib.Data.List.Basic

/-!
# Composite Futures

A composite future that waits for all of its children registers a continuation with each of them
when it is initialized. The continuation fulfills the composite if all children are ready at that
time. It is called some time after its own child was fulfilled, so several of the continuations
may find all children ready, and each of them fulfills the composite. The number of times that
the composite is fulfilled is the number of continuations that are called after the last child
was fulfilled (`Reached.count`).
-/

namespace FluxCore.Libflux.Futures

variable {α φ : Type}

/-- A composite future with its children, made by `flux_future_wait_all_create`. -/
structure Composite (α φ : Type) where
  children : List (Future α φ)
  parent : Future α φ := {}
  initCalled : Bool := false
deriving DecidableEq

/-- What happens to a composite future and its children. -/
inductive CompositeLabel (α φ : Type)
  /-- the composite is initialized -/
  | init
  /-- a child is fulfilled: with a value, an error or a fatal error -/
  | fulfill (i : ℕ) (l : Label α φ)
  /-- the continuation of a child is called -/
  | call (i : ℕ)

namespace Composite

variable (s : Composite α φ)

/-- `wait_all_is_ready`. -/
def isReady : Bool := s.children.all Future.isReady

/-- `child_cb`. -/
def childCb : Option (Composite α φ) :=
  if s.isReady then (s.parent.fulfill none none).map fun parent => { s with parent }
  else some s

/-- The labels that fulfill a future. -/
def fulfills : Label α φ → Bool
  | .fulfill _ _ | .fulfillError _ _ | .fatalError _ _ => true
  | _ => false

end Composite

open Composite in
/-- A composite future as a machine. Each child is fulfilled once. -/
def composite : Machine (Composite α φ) (CompositeLabel α φ) where
  step l s :=
    match l with
    | .init =>
      if s.initCalled then none
      else some { s with children := s.children.map Future.startThen, initCalled := true }
    | .fulfill i l =>
      match s.children[i]? with
      | none => none
      | some child =>
        if child.isReady ∨ fulfills l = false then none
        else (future.step l child).map fun child => { s with children := s.children.set i child }
    | .call i =>
      match s.children[i]? with
      | none => none
      | some child =>
        if child.thenContext = some true then
          childCb { s with children := s.children.set i child.check }
        else none

/-- A composite of `n` futures. -/
def Composite.create (n : ℕ) : Composite α φ := { children := List.replicate n {} }

/-- How often the composite has been fulfilled. -/
def Composite.count (s : Composite α φ) : ℕ := s.parent.abs.results.length

/-- Nothing is left to happen: the composite is initialized, all children have been fulfilled and
all continuations have been called. -/
def Composite.Complete (s : Composite α φ) : Prop :=
  s.initCalled = true ∧ ∀ child ∈ s.children, child.isReady = true ∧ child.thenContext ≠ some true

/-- The number of continuations that are called after the last child was fulfilled. -/
def lateCalls (ls : List (CompositeLabel α φ)) : ℕ :=
  ls.foldl (fun n l => match l with
    | .init => n
    | .fulfill _ _ => 0
    | .call _ => n + 1) 0

/-! ### Whole schedules -/

/-- What holds of a composite after a schedule: if all children are ready, it was fulfilled by
each late call, and else it was not fulfilled. -/
structure Reached (ls : List (CompositeLabel α φ)) (s : Composite α φ) : Prop where
  wf : s.parent.Wf
  fatal : s.parent.fatalErrnumValid = false
  count : s.count = if s.isReady then lateCalls ls else 0

variable {s t : Composite α φ} {ls : List (CompositeLabel α φ)}

theorem lateCalls_append (l : CompositeLabel α φ) : lateCalls (ls ++ [l]) = match l with
      | .init => lateCalls ls
      | .fulfill _ _ => 0
      | .call _ => lateCalls ls + 1 := by
  rw [lateCalls, List.foldl_append]
  cases l <;> rfl

theorem isReady_set (hi : s.children[i]? = some child) (h : child'.isReady = child.isReady) :
    Composite.isReady { s with children := s.children.set i child' } = s.isReady := by
  obtain ⟨hlt, rfl⟩ := List.getElem?_eq_some_iff.1 hi
  have hmap : (s.children.set i child').map Future.isReady = s.children.map Future.isReady := by
    rw [List.map_set, h, ← List.map_set, List.set_getElem_self]
  have hall : ∀ l : List (Future α φ), l.all Future.isReady = (l.map Future.isReady).all id :=
    fun l => by rw [List.all_map]; rfl
  rw [Composite.isReady, Composite.isReady, hall, hmap, hall]

theorem Reached.fulfill (h : Reached ls s) :
    ∃ parent, s.parent.fulfill none none = some parent ∧ parent.Wf ∧
      parent.fatalErrnumValid = false ∧ parent.abs.results.length = s.count + 1 := by
  obtain ⟨parent, hpar, hwf, habs⟩ := h.wf.step (.fulfill none none)
  refine ⟨parent, hpar, hwf, ?_, ?_⟩
  · simp only [future, Future.fulfill, h.fatal, Bool.false_eq_true, if_false] at hpar
    split_ifs at hpar
    · obtain ⟨fs, -, rfl⟩ := Option.map_eq_some_iff.1 hpar
      exact h.fatal
    · obtain ⟨fs, -, rfl⟩ := Option.map_eq_some_iff.1 hpar
      rfl
  · rw [habs, Composite.count]
    simp [Fifo.step, Fifo.push, Future.abs, h.fatal, Nat.add_assoc]

/-- **One step** of a schedule. -/
theorem Reached.step (h : Reached ls s) (ht : composite.step l s = some t) :
    Reached (ls ++ [l]) t := by
  cases l with
  | init =>
    obtain ⟨-, ht⟩ := Option.ite_none_left_eq_some.1 ht
    cases ht
    refine ⟨h.wf, h.fatal, ?_⟩
    have hrdy : (s.children.map Future.startThen).all Future.isReady = s.isReady := by
      rw [List.all_map]
      rfl
    rw [lateCalls_append, Composite.isReady, hrdy]
    exact h.count
  | fulfill i l =>
    simp only [composite] at ht
    split at ht
    · cases ht
    rename_i child hch
    split_ifs at ht with hcond
    obtain ⟨child', -, rfl⟩ := Option.map_eq_some_iff.1 ht
    have hnot : s.isReady = false := by
      refine List.all_eq_false.2 ⟨child, List.mem_of_getElem? hch, ?_⟩
      exact fun hrdy => hcond (.inl hrdy)
    refine ⟨h.wf, h.fatal, ?_⟩
    have hcnt : s.count = 0 := by simpa [hnot] using h.count
    rw [lateCalls_append, ite_self]
    exact hcnt
  | call i =>
    simp only [composite] at ht
    split at ht
    · cases ht
    rename_i child hch
    split_ifs at ht
    have hrdy := isReady_set hch (show child.check.isReady = child.isReady from rfl)
    rw [Composite.childCb, hrdy] at ht
    split_ifs at ht with hall
    · obtain ⟨parent, hpar, hwf, hfat, hcnt⟩ := h.fulfill
      rw [hpar] at ht
      cases ht
      refine ⟨hwf, hfat, hcnt.trans ?_⟩
      rw [lateCalls_append, h.count, if_pos hall]
      exact (if_pos (hrdy.trans hall)).symm
    · cases ht
      refine ⟨h.wf, h.fatal, ?_⟩
      rw [hrdy, if_neg hall]
      exact h.count.trans (if_neg hall)

theorem reached_run (ls : List (CompositeLabel α φ)) (h : Reached ls₀ s)
    (ht : composite.run ls s = some t) : Reached (ls₀ ++ ls) t := by
  induction ls generalizing s ls₀ with
  | nil =>
    cases ht
    simpa using h
  | cons l ls ih =>
    obtain ⟨s₁, hs₁, ht⟩ := Option.bind_eq_some_iff.1 ht
    simpa using ih (h.step hs₁) ht

theorem reached_create (n : ℕ) : Reached [] (Composite.create n : Composite α φ) :=
  ⟨fun _ => ⟨rfl, rfl⟩, rfl, (ite_self 0).symm⟩

/-- **A composite is fulfilled exactly once** by a schedule in which everything happens, and not
before every child is ready, exactly if one continuation is called after the last child was
fulfilled. -/
theorem composite_once_iff {n : ℕ} (hs : composite.run ls (Composite.create n) = some s)
    (hcomplete : s.Complete) : (s.count = 1 ∧ ∀ ls₁ ls₂ t, ls = ls₁ ++ ls₂ →
      composite.run ls₁ (Composite.create n) = some t → t.count ≠ 0 → t.isReady = true) ↔
      lateCalls ls = 1 := by
  have hrchd := reached_run ls (reached_create n) hs
  have hrdy : s.isReady = true :=
    List.all_eq_true.2 fun child hch => (hcomplete.2 child hch).1
  have hcnt : s.count = lateCalls ls := by
    rw [hrchd.count, if_pos hrdy, List.nil_append]
  refine ⟨fun h => hcnt ▸ h.1, fun h => ⟨hcnt.trans h, fun ls₁ ls₂ t _ ht hne => ?_⟩⟩
  by_contra hno
  exact hne (by rw [(reached_run ls₁ (reached_create n) ht).count, if_neg hno])

/-- Two children, the second of which is fulfilled after the continuation of the first. -/
theorem composite_once_two : (composite.run [.init, .fulfill 0 (.fulfill none none), .call 0,
      .fulfill 1 (.fulfillError 5 none), .call 1] (Composite.create 2 : Composite Unit Unit)).map
        Composite.count = some 1 := by
  obtain ⟨s, hs, hcmp⟩ : ∃ s, composite.run [.init, .fulfill 0 (.fulfill none none), .call 0,
      .fulfill 1 (.fulfillError 5 none), .call 1] (Composite.create 2 : Composite Unit Unit)
        = some s ∧ s.Complete := ⟨_, rfl, by simp [Composite.Complete]; decide⟩
  rw [hs, Option.map_some, ((composite_once_iff hs hcmp).2 rfl).1]

/-- Both children are fulfilled before a continuation is called: the composite is fulfilled
twice. -/
theorem composite_twice :
    (composite.run [.init, .fulfill 0 (.fulfill none none), .fulfill 1 (.fulfill none none),
      .call 0, .call 1] (Composite.create 2 : Composite Unit Unit)).map Composite.count = some 2 :=
  rfl

end FluxCore.Libflux.Futures
