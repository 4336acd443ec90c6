import Mathlib.Data.List.Nodup

/-!
# Two-Way Pointers

Objects are kept by address. An owner lists the addresses of its items, and an item has the address
of its owner. The two directions agree (`Owned`), and they still do after the operations of this
file, each of which writes one owner, one item, or one of both.
-/

section Update

variable {α : Type} {g : ℕ → Option α}

theorem of_update_some (h : Function.update g i (some a) j = some b) :
    j = i ∧ a = b ∨ j ≠ i ∧ g j = some b := by
  by_cases hj : j = i
  · subst hj
    rw [Function.update_self, Option.some.injEq] at h
    exact .inl ⟨rfl, h⟩
  · rw [Function.update_of_ne hj] at h
    exact .inr ⟨hj, h⟩

theorem of_update_none (h : Function.update g i none j = some b) : j ≠ i ∧ g j = some b := by
  by_cases hj : j = i
  · rw [hj, Function.update_self] at h
    cases h
  · rw [Function.update_of_ne hj] at h
    exact ⟨hj, h⟩

end Update

/-- Owners and their items point to each other, and an owner lists an item once. -/
structure Owned {P Q : Type} (items : P → List ℕ) (owner : Q → ℕ) (ps : ℕ → Option P)
    (qs : ℕ → Option Q) : Prop where
  member : ∀ i p v, ps i = some p → v ∈ items p → ∃ q, qs v = some q ∧ owner q = i
  listed : ∀ v q, qs v = some q → ∃ p, ps (owner q) = some p ∧ v ∈ items p
  nodup : ∀ i p, ps i = some p → (items p).Nodup

namespace Owned

variable {P Q : Type} {items : P → List ℕ} {owner : Q → ℕ} {ps : ℕ → Option P} {qs : ℕ → Option Q}

section

variable (h : Owned items owner ps qs)
include h

theorem mem_items (hq : qs v = some q) (hp : ps (owner q) = some p) : v ∈ items p := by
  obtain ⟨p', hp', hv⟩ := h.listed v q hq
  cases hp.symm.trans hp'
  exact hv

theorem setOwner (hp : ps i = some p) (hits : items p' = items p) :
    Owned items owner (Function.update ps i (some p')) qs := by
  obtain ⟨hmbr, hlsd, hnd⟩ := h
  constructor <;> grind [Function.update_apply]

theorem setItem (hq : qs v = some q) (hown : owner q' = owner q) :
    Owned items owner ps (Function.update qs v (some q')) := by
  obtain ⟨hmbr, hlsd, hnd⟩ := h
  constructor <;> grind [Function.update_apply]

theorem newOwner (hp : ps i = none) (hits : items p = []) :
    Owned items owner (Function.update ps i (some p)) qs := by
  obtain ⟨hmbr, hlsd, hnd⟩ := h
  constructor <;> grind [Function.update_apply]

theorem removeOwner (hp : ps i = some p) (hits : items p = []) :
    Owned items owner (Function.update ps i none) qs := by
  obtain ⟨hmbr, hlsd, hnd⟩ := h
  constructor <;> grind [Function.update_apply]

theorem addItem (hp : ps i = some p) (hv : qs v = none) (hits : items p' = items p ++ [v])
    (hown : owner q = i) :
    Owned items owner (Function.update ps i (some p')) (Function.update qs v (some q)) := by
  obtain ⟨hmbr, hlsd, hnd⟩ := h
  constructor <;> grind [Function.update_apply, List.nodup_append]

theorem removeItem (hp : ps i = some p) (hv : v ∈ items p)
    (hits : items p' = (items p).erase v) :
    Owned items owner (Function.update ps i (some p')) (Function.update qs v none) := by
  obtain ⟨hmbr, hlsd, hnd⟩ := h
  constructor <;> grind [Function.update_apply, List.Nodup.mem_erase_iff, List.Nodup.erase]

end

end Owned
