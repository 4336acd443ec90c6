import Mathlib.Data.Finset.Max

/-!
# Sets with a Successor Search

Finite sets of numbers below a bound, given by an implementation with the operations put,
delete and successor. The successor of `x` is the least member from `x` on, or the bound if
there is none.

The members are visited in increasing order by a loop over the successors (`foldFrom`). Its
rule is `foldFrom_induct`: what holds of the numbers visited so far holds of all members at
the end.
-/

/-- An implementation of the finite sets of numbers below a bound. What is not below the bound
is ignored by `put` and `del`. -/
structure SuccSet (V : Type*) where
  bound : V → ℕ
  members : V → Finset ℕ
  empty : ℕ → V
  put : V → ℕ → V
  del : V → ℕ → V
  succ : V → ℕ → ℕ
  lt_bound : ∀ T, ∀ x ∈ members T, x < bound T
  bound_empty : ∀ M, bound (empty M) = M
  members_empty : ∀ M, members (empty M) = ∅
  bound_put : ∀ T x, bound (put T x) = bound T
  members_put : ∀ T x, members (put T x) = if x < bound T then insert x (members T) else members T
  bound_del : ∀ T x, bound (del T x) = bound T
  members_del : ∀ T x, members (del T x) = if x < bound T then (members T).erase x else members T
  succ_spec : ∀ T x,
    (succ T x ∈ members T ∧ x ≤ succ T x ∧ ∀ y ∈ members T, x ≤ y → succ T x ≤ y) ∨
      (∀ y ∈ members T, y < x) ∧ succ T x = bound T

namespace SuccSet

attribute [simp] bound_empty members_empty bound_put bound_del

variable {V : Type*} (S : SuccSet V) {T : V} {x y : ℕ}

theorem mem_put_iff : y ∈ S.members (S.put T x) ↔ y ∈ S.members T ∨ y = x ∧ x < S.bound T := by
  rw [members_put]
  split_ifs with hx
  · rw [Finset.mem_insert, or_comm, and_iff_left hx]
  · rw [or_iff_left (not_and_of_not_right _ hx)]

theorem mem_del_iff : y ∈ S.members (S.del T x) ↔ y ∈ S.members T ∧ y ≠ x := by
  rw [members_del]
  split_ifs with hx
  · rw [Finset.mem_erase, and_comm]
  refine ⟨fun hy => ⟨hy, ?_⟩, And.left⟩
  rintro rfl
  exact hx (S.lt_bound _ _ hy)

theorem succ_eq_self_iff : S.succ T x = x ↔ x ∈ S.members T ∨ x = S.bound T := by
  rcases S.succ_spec T x with ⟨hmem, hle, hlst⟩ | ⟨hnone, hsucc⟩
  · constructor
    · intro h
      rw [h] at hmem
      exact .inl hmem
    · rintro (hx | rfl)
      · exact le_antisymm (hlst x hx le_rfl) hle
      · exact absurd (S.lt_bound _ _ hmem) hle.not_gt
  · rw [hsucc]
    constructor
    · rintro rfl
      exact .inr rfl
    · rintro (hx | rfl)
      · exact absurd (hnone x hx) (lt_irrefl x)
      · rfl

theorem lt_succ_add_one (hx : x < S.bound T) : x < S.succ T (x + 1) := by
  rcases S.succ_spec T (x + 1) with ⟨-, hle, -⟩ | ⟨-, hsucc⟩
  · exact hle
  · rw [hsucc]
    exact hx

/-! ### The loop over the members -/

section Loop

variable {β : Type*} (f : β → ℕ → β)

/-- The loop that takes the successor of what follows `x`, for as long as `x` is below the
bound. -/
def foldFrom (T : V) (x : ℕ) (acc : β) : β :=
  if x < S.bound T then foldFrom T (S.succ T (x + 1)) (f acc x) else acc
termination_by S.bound T - x
decreasing_by
  have := S.lt_succ_add_one (by assumption : x < S.bound T)
  omega

variable {f}

theorem filter_succ_lt (hmem : S.succ T x ∈ S.members T)
    (hlst : ∀ y ∈ S.members T, x ≤ y → S.succ T x ≤ y) (hle : x ≤ S.succ T x) :
    {y ∈ S.members T | y < S.succ T x + 1}
      = insert (S.succ T x) {y ∈ S.members T | y < x} := by
  ext y
  simp only [Finset.mem_filter, Finset.mem_insert]
  constructor
  · rintro ⟨hy, hlt⟩
    by_cases hyx : y < x
    · exact .inr ⟨hy, hyx⟩
    · have := hlst y hy (by omega)
      exact .inl (by omega)
  · rintro (rfl | ⟨hy, hyx⟩)
    · exact ⟨hmem, by omega⟩
    · exact ⟨hy, by omega⟩

/-- **The rule of the loop.** The property `P` is about the members that have been visited, and
about what the loop has made of them. -/
theorem foldFrom_induct (P : Finset ℕ → β → Prop)
    (hstep : ∀ s acc y, y ∈ S.members T → y ∉ s → P s acc → P (insert y s) (f acc y))
    (acc : β) (h : P {y ∈ S.members T | y < x} acc) :
    P (S.members T) (S.foldFrom f T (S.succ T x) acc) := by
  induction hn : S.bound T - x using Nat.strong_induction_on generalizing x acc with
  | _ n ih =>
    rcases S.succ_spec T x with ⟨hmem, hle, hlst⟩ | ⟨hnone, hsucc⟩
    · have hlt := S.lt_bound _ _ hmem
      rw [foldFrom, if_pos hlt]
      refine ih _ ?_ _ ?_ rfl
      · omega
      · rw [S.filter_succ_lt hmem hlst hle]
        refine hstep _ _ _ hmem ?_ h
        rw [Finset.mem_filter]
        omega
    · rw [hsucc, foldFrom, if_neg (lt_irrefl _)]
      rw [Finset.filter_true_of_mem hnone] at h
      exact h

end Loop

/-! ### The list of the members -/

section List

/-- The members in increasing order, from a number `x` that the search has found. -/
def listFrom (T : V) (x : ℕ) : List ℕ :=
  if x < S.bound T then x :: listFrom T (S.succ T (x + 1)) else []
termination_by S.bound T - x
decreasing_by
  have := S.lt_succ_add_one (by assumption : x < S.bound T)
  omega

theorem succ_le_bound (x : ℕ) : S.succ T x ≤ S.bound T := by
  rcases S.succ_spec T x with ⟨hmem, -, -⟩ | ⟨-, hsucc⟩
  · exact (S.lt_bound _ _ hmem).le
  · exact hsucc.le

theorem mem_listFrom_succ (x : ℕ) : y ∈ S.listFrom T (S.succ T x) ↔ y ∈ S.members T ∧ x ≤ y := by
  induction hn : S.bound T - x using Nat.strong_induction_on generalizing x with
  | _ n ih =>
    rcases S.succ_spec T x with ⟨hmem, hle, hlst⟩ | ⟨hnone, hsucc⟩
    · have hlt := S.lt_bound _ _ hmem
      rw [listFrom, if_pos hlt, List.mem_cons, ih _ (by omega) _ rfl]
      constructor
      · rintro (rfl | ⟨hy, hlt⟩)
        · exact ⟨hmem, hle⟩
        · exact ⟨hy, by omega⟩
      · rintro ⟨hy, hxy⟩
        have := hlst y hy hxy
        rcases Nat.eq_or_lt_of_le this with heq | hlt
        · exact .inl heq.symm
        · exact .inr ⟨hy, hlt⟩
    · rw [hsucc, listFrom, if_neg (lt_irrefl _)]
      simp only [List.not_mem_nil, false_iff, not_and, not_le]
      exact hnone y

theorem listFrom_sorted (x : ℕ) : (S.listFrom T (S.succ T x)).Pairwise (· < ·) := by
  induction hn : S.bound T - x using Nat.strong_induction_on generalizing x with
  | _ n ih =>
    rcases S.succ_spec T x with ⟨hmem, hle, -⟩ | ⟨-, hsucc⟩
    · have hlt := S.lt_bound _ _ hmem
      rw [listFrom, if_pos hlt, List.pairwise_cons]
      refine ⟨fun y hy => ?_, ih _ (by omega) _ rfl⟩
      exact ((S.mem_listFrom_succ _).mp hy).2
    · rw [hsucc, listFrom, if_neg (lt_irrefl _)]
      exact List.Pairwise.nil

theorem length_listFrom_succ_zero : (S.listFrom T (S.succ T 0)).length = (S.members T).card := by
  have hset : (S.listFrom T (S.succ T 0)).toFinset = S.members T := by
    ext y
    rw [List.mem_toFinset, mem_listFrom_succ]
    exact and_iff_left (Nat.zero_le y)
  rw [← hset, List.toFinset_card_of_nodup]
  exact (S.listFrom_sorted 0).imp fun h => h.ne

variable {β : Type*}

/-- A fold that knows which element is the last one. -/
def foldLast (f : Bool → β → ℕ → β) : β → List ℕ → β
  | acc, [] => acc
  | acc, y :: ys => foldLast f (f ys.isEmpty acc y) ys

theorem foldLast_iterate {γ : Type*} (g : β → γ) (h : γ → γ)
    (hf : ∀ last acc y, g (f last acc y) = h (g acc)) (ys : List ℕ) (acc : β) :
    g (foldLast f acc ys) = h^[ys.length] (g acc) := by
  induction ys generalizing acc with
  | nil => rfl
  | cons y ys ih => rw [foldLast, ih, hf, List.length_cons, Function.iterate_succ_apply]

/-- **A loop that looks ahead** is a fold over the list. -/
theorem foldFrom_eq_foldLast (f : Bool → β → ℕ → β) (x : ℕ) (hx : x ≤ S.bound T) (acc : β) :
    S.foldFrom (fun acc y => f (S.succ T (y + 1) = S.bound T) acc y) T x acc =
      foldLast f acc (S.listFrom T x) := by
  induction hn : S.bound T - x using Nat.strong_induction_on generalizing x acc with
  | _ n ih =>
    rw [foldFrom, listFrom]
    by_cases hlt : x < S.bound T
    · have hstep := S.lt_succ_add_one hlt
      have hle : S.succ T (x + 1) ≤ S.bound T := S.succ_le_bound _
      have hlast : decide (S.succ T (x + 1) = S.bound T) =
          (S.listFrom T (S.succ T (x + 1))).isEmpty := by
        rw [listFrom]
        by_cases hend : S.succ T (x + 1) = S.bound T
        · rw [if_neg (by omega), decide_eq_true hend]
          rfl
        · rw [if_pos (by omega), decide_eq_false hend]
          rfl
      rw [if_pos hlt, if_pos hlt, foldLast, hlast, ih _ (by omega) _ hle _ rfl]
    · rw [if_neg hlt, if_neg hlt, foldLast]

end List

end SuccSet
