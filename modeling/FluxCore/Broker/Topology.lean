import Mathlib.Data.Nat.Notation

/-!
# The Tree of Brokers
-/

namespace FluxCore.Broker

/-- The ranks of an instance, and their parents. -/
structure Topology where
  size : ℕ
  parent : ℕ → ℕ
  parent_lt : ∀ i, i ≠ 0 → parent i < i

end FluxCore.Broker
