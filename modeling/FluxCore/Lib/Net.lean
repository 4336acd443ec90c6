import Mathlib.Algebra.BigOperators.Group.Finset.Basic
import Mathlib.Tactic.Abel

/-!
# Conservation in a Network

Numbered nodes, and messages in flight to them. A node acts: its state changes, and it sends
messages. A message is taken out of flight by its receiver, in any order; none is lost. What the
nodes hold and the messages carry adds up to a total, in any commutative monoid, and the file
says how the total changes with a step.
-/

/-- The states of the nodes, and the messages in flight with the nodes they go to. -/
structure Net (σ μ : Type*) where
  node : ℕ → σ
  flight : List (ℕ × μ)

namespace Net

open List

variable {σ μ M : Type*} (net : Net σ μ)

/-- The node `i` goes to the state `s` and sends messages. -/
def act (i : ℕ) (s : σ) (out : List (ℕ × μ)) : Net σ μ where
  node := Function.update net.node i s
  flight := net.flight ++ out

/-- The message at the place `k` is taken out of flight. -/
def take (k : ℕ) : Net σ μ := { net with flight := net.flight.eraseIdx k }

variable {net}

@[simp] theorem act_node_self : (net.act i s out).node i = s := Function.update_self ..

theorem act_node_of_ne (h : j ≠ i) : (net.act i s out).node j = net.node j :=
  Function.update_of_ne h ..

theorem act_act (net : Net σ μ) (i : ℕ) (s s' : σ) (out out' : List (ℕ × μ)) :
    (net.act i s out).act i s' out' = net.act i s' (out ++ out') := by
  rw [act, act, act, Function.update_idem, append_assoc]

theorem act_node_congr {β : Type*} (f : σ → β) (h : f s = f (net.node i)) (j : ℕ) :
    f ((net.act i s out).node j) = f (net.node j) := by
  by_cases hj : j = i
  · rw [hj, act_node_self, h]
  · rw [act_node_of_ne hj]

theorem forall_act {P : ℕ → σ → Prop} (hs : P i s) (h : ∀ j, P j (net.node j)) (j : ℕ) :
    P j ((net.act i s out).node j) := by
  by_cases hj : j = i
  · rw [hj, act_node_self]
    exact hs
  · rw [act_node_of_ne hj]
    exact h j

theorem forall_take {P : ℕ × μ → Prop} (h : ∀ p ∈ net.flight, P p) :
    ∀ p ∈ (net.take k).flight, P p :=
  fun p hp => h p (mem_of_mem_eraseIdx hp)

variable [AddCommMonoid M]

/-- What the first `n` nodes hold and the messages carry, together. -/
def total (n : ℕ) (held : ℕ → σ → M) (carried : ℕ × μ → M) (net : Net σ μ) : M :=
  ∑ i ∈ Finset.range n, held i (net.node i) + (net.flight.map carried).sum

variable {carried : ℕ × μ → M}

theorem total_eq_held_add (hi : i < n) : net.total n held carried = held i (net.node i)
      + (∑ j ∈ (Finset.range n).erase i, held j (net.node j) + (net.flight.map carried).sum) := by
  rw [total, ← Finset.add_sum_erase _ _ (Finset.mem_range.2 hi), add_assoc]

/-- **Acting:** the total changes as what the node holds, and by what it sends. -/
theorem total_act (net : Net σ μ) (held : ℕ → σ → M) (carried : ℕ × μ → M) (s : σ)
    (out : List (ℕ × μ)) (hi : i < n) :
    (net.act i s out).total n held carried + held i (net.node i)
      = net.total n held carried + (held i s + (out.map carried).sum) := by
  have hrest : ∑ j ∈ (Finset.range n).erase i, held j ((net.act i s out).node j)
      = ∑ j ∈ (Finset.range n).erase i, held j (net.node j) :=
    Finset.sum_congr rfl fun j hj => by rw [act_node_of_ne (Finset.ne_of_mem_erase hj)]
  rw [total_eq_held_add hi, total_eq_held_add hi, hrest, act_node_self, act, map_append,
    sum_append]
  abel

/-- **Taking:** the total loses what the message carries. -/
theorem total_take (n : ℕ) (held : ℕ → σ → M) (carried : ℕ × μ → M)
    (hk : net.flight[k]? = some (i, m)) :
    (net.take k).total n held carried + carried (i, m) = net.total n held carried := by
  obtain ⟨hlt, hget⟩ := List.getElem?_eq_some_iff.1 hk
  have hsum : ((net.flight.eraseIdx k).map carried).sum + carried (i, m)
      = (net.flight.map carried).sum := by
    have hperm := (getElem_cons_eraseIdx_perm hlt).map carried
    rw [← hperm.sum_eq, hget, map_cons, sum_cons, add_comm]
  rw [total, total, ← hsum, add_assoc]
  rfl

end Net
