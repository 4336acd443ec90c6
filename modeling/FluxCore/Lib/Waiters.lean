import Mathlib.Data.List.Count
import Mathlib.Data.List.Nodup

/-!
# Waiters on Several Queues

A waiter stands on a number of queues, possibly several times on one, and is to be run when
it has been released from all of them. The state records, for each waiter, the queues on
which it stands, and the waiters that are to be run.

The queues themselves belong to someone else. `Sound` relates the two: what the waiters
record is what is found on the queues, a waiter that is to be run stands on no queue, and
only waiters with a given property stand anywhere or are to be run.
-/

/-- For each waiter the queues on which it stands, and the waiters that are to be run. -/
structure Waiters (κ θ : Type) where
  queues : κ → List θ := fun _ => []
  runnable : List κ := []

namespace Waiters

open List

variable {κ θ : Type} [DecidableEq κ] [DecidableEq θ]

/-- A waiter takes a place on a queue. -/
def stand (w : Waiters κ θ) (k : κ) (q : θ) : Waiters κ θ :=
  { w with queues := Function.update w.queues k (w.queues k ++ [q]) }

/-- A waiter leaves a queue. If this was the last one it is to be run. -/
def release (w : Waiters κ θ) (q : θ) (k : κ) : Waiters κ θ :=
  let rest := (w.queues k).erase q
  { queues := Function.update w.queues k rest
    runnable := if rest.isEmpty then w.runnable ++ [k] else w.runnable }

/-- Several waiters leave queues, in order. -/
def releaseAll (w : Waiters κ θ) (l : List (θ × κ)) : Waiters κ θ :=
  l.foldl (fun w x => w.release x.1 x.2) w

/-- A waiter is run. -/
def start (w : Waiters κ θ) (k : κ) : Waiters κ θ := { w with runnable := w.runnable.erase k }

/-- **Soundness:** the waiters record what is found on the queues, `standing k q` being the
number of times that `k` is found on `q`; and only live waiters wait. -/
structure Sound (w : Waiters κ θ) (standing : κ → θ → ℕ) (live : κ → Prop) : Prop where
  count : ∀ k q, (w.queues k).count q = standing k q
  idle : ∀ k ∈ w.runnable, w.queues k = []
  nodup : w.runnable.Nodup
  live : ∀ k, w.queues k ≠ [] ∨ k ∈ w.runnable → live k

variable {w : Waiters κ θ} {standing : κ → θ → ℕ} {live : κ → Prop}

omit [DecidableEq κ] in
theorem Sound.weaken (h : w.Sound standing live)
    (hlive : ∀ k, w.queues k ≠ [] ∨ k ∈ w.runnable → live k → live' k) : w.Sound standing live' :=
  { h with live := fun k hk => hlive k hk (h.live k hk) }

omit [DecidableEq κ] in
theorem Sound.live_of_standing (h : w.Sound standing live) (hk : standing k q ≠ 0) : live k := by
  refine h.live k (.inl fun hnil => hk ?_)
  rw [← h.count, hnil, count_nil]

/-- **Standing:** the queue has the waiter once more. -/
theorem Sound.stand (h : w.Sound standing live) (hk : k ∉ w.runnable) (hlive : live k)
    (hs : ∀ k' q', standing' k' q' = standing k' q' + if k' = k ∧ q' = q then 1 else 0) :
    (w.stand k q).Sound standing' live where
  count k' q' := by
    rw [hs, Waiters.stand]
    by_cases hk' : k' = k
    · subst hk'
      by_cases hq : q' = q
      · subst hq
        simp [h.count]
      · simp [h.count, hq, Ne.symm hq]
    · simp [hk', h.count]
  idle k' hk' := by
    have hne : k' ≠ k := fun he => hk (he ▸ hk')
    simpa [Waiters.stand, hne] using h.idle k' hk'
  nodup := h.nodup
  live k' hk' := by
    by_cases hne : k' = k
    · exact hne ▸ hlive
    · exact h.live k' (by simpa [Waiters.stand, hne] using hk')

theorem Sound.release (h : w.Sound standing live)
    (hs : ∀ k' q', standing k' q' = standing' k' q' + if k' = k ∧ q' = q then 1 else 0) :
    (w.release q k).Sound standing' live := by
  have hmem : q ∈ w.queues k := by
    rw [← count_pos_iff, h.count, hs]
    simp
  have hk : k ∉ w.runnable := fun hk => by
    rw [h.idle k hk] at hmem
    cases hmem
  constructor
  case count =>
    intro k' q'
    by_cases hk' : k' = k
    · subst hk'
      by_cases hq : q' = q
      · subst hq
        simp [Waiters.release, h.count, hs]
      · simp [Waiters.release, h.count, hs, hq]
    · simp [Waiters.release, hk', h.count, hs]
  case idle =>
    intro k' hk'
    by_cases hne : k' = k
    · subst hne
      by_cases he : ((w.queues k').erase q).isEmpty
      · simpa [Waiters.release] using he
      · simp [Waiters.release, he, hk] at hk'
    have hk'' : k' ∈ w.runnable := by
      simp only [Waiters.release] at hk'
      split_ifs at hk'
      · simpa [hne] using hk'
      · exact hk'
    simpa [Waiters.release, hne] using h.idle k' hk''
  case nodup =>
    simp only [Waiters.release]
    split_ifs
    · exact concat_eq_append ▸ List.Nodup.concat hk h.nodup
    · exact h.nodup
  case live =>
    intro k' hk'
    by_cases hne : k' = k
    · exact hne ▸ h.live k (.inl (ne_nil_of_mem hmem))
    refine h.live k' ?_
    simp only [Waiters.release, Function.update_of_ne hne] at hk'
    refine hk'.imp_right fun hr => ?_
    split_ifs at hr
    · simpa [hne] using hr
    · exact hr

/-- **Releasing:** the waiters leave the queues that they were taken from. -/
theorem Sound.releaseAll (h : w.Sound (fun k q => standing k q + l.count (q, k)) live) :
    (w.releaseAll l).Sound standing live := by
  induction l generalizing w with
  | nil => simpa [Waiters.releaseAll] using h
  | cons x l ih =>
    obtain ⟨q, k⟩ := x
    refine ih (h.release (k := k) (q := q) fun k' q' => ?_)
    rw [count_cons, ← Nat.add_assoc]
    congr 1
    by_cases hk : k' = k ∧ q' = q
    · simp [hk]
    · have : ¬ (q = q' ∧ k = k') := fun ⟨hq, he⟩ => hk ⟨he.symm, hq.symm⟩
      simp [hk, this]

/-- **Running:** the waiter is gone, and others can wait as before. -/
theorem Sound.start (h : w.Sound standing live) (hk : k ∈ w.runnable) :
    (w.start k).Sound standing (fun k' => live k' ∧ k' ≠ k) ∧ k ∉ (w.start k).runnable := by
  have hnot : k ∉ w.runnable.erase k := h.nodup.not_mem_erase
  refine ⟨⟨h.count, fun k' hk' => h.idle k' (mem_of_mem_erase hk'), h.nodup.erase k, ?_⟩, hnot⟩
  intro k' hk'
  refine ⟨h.live k' (hk'.imp_right mem_of_mem_erase), ?_⟩
  rintro rfl
  rcases hk' with hk' | hk'
  · exact hk' (h.idle k' hk)
  · exact hnot hk'

end Waiters
