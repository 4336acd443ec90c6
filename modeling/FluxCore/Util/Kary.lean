import FluxCore.Lib.NumberedTree
import Mathlib.Algebra.BigOperators.Group.Finset.Basic
import Mathlib.Algebra.Order.Ring.Int
import Mathlib.Tactic.Ring

/-!
# K-ary Trees

The functions of `libutil/kary.c` that the brokers of an instance use to find their way in
their tree. They compute with `uint32_t`; where no intermediate result overflows they are
the parent and the children in the complete tree of arity `k`, the gateway from one rank
to another, and the number of ranks below a rank. That number is an `int`, which is too
small in a chain of more than `2 ^ 31` ranks.
-/

namespace FluxCore.Kary

open NumberedTree

/-- A number as an `uint32_t`. -/
def u32 (x : ℤ) : ℕ := (x % 2 ^ 32).toNat

/-- `KARY_NONE`. -/
def karyNone : ℕ := 2 ^ 32 - 1

/-- `kary_parentof`. -/
def karyParentof (k i : ℕ) : ℕ :=
  if i = 0 ∨ k = 0 then karyNone
  else if k = 1 then u32 (i - 1)
  else u32 ((u32 (k + (i + 1) - 2) / k : ℕ) - 1)

/-- `kary_childof`. -/
def karyChildof (k size i j : ℕ) : ℕ :=
  if 0 < k ∧ j < k then
    let n := u32 (k * (i + 1) - (k - 2) + j - 1)
    if n < size then n else karyNone
  else karyNone

/-- The outer loop of `kary_child_route`, for at most the given number of turns. -/
def childRouteLoop (k size src : ℕ) : ℕ → ℕ → Option ℕ
  | 0, _ => none
  | turns + 1, gw =>
    if gw = karyNone then some karyNone
    else if (List.range k).any fun j => gw = karyChildof k size src j then some gw
    else childRouteLoop k size src turns (karyParentof k gw)

/-- `kary_child_route`. The loop goes up from the parent of `dst`, and has enough turns. -/
def karyChildRoute (k size src dst : ℕ) : ℕ :=
  if 0 < k ∧ src ≠ dst ∧ dst < size ∧ src < size then
    if karyParentof k dst = src then dst
    else (childRouteLoop k size src (size + 1) (karyParentof k dst)).getD karyNone
  else karyNone

/-- The loop of `kary_parent_route`, for at most the given number of turns. -/
def parentRouteLoop (k dst gw : ℕ) : ℕ → ℕ → Option ℕ
  | 0, _ => none
  | turns + 1, n =>
    if n = karyNone then some karyNone
    else if n = dst then some gw
    else parentRouteLoop k dst gw turns (karyParentof k n)

/-- `kary_parent_route`. The loop goes up from the parent of `src`, and has enough turns. -/
def karyParentRoute (k size src dst : ℕ) : ℕ :=
  if 0 < k ∧ src ≠ dst ∧ dst < size ∧ src < size then
    (parentRouteLoop k dst (karyParentof k src) (size + 1) (karyParentof k src)).getD karyNone
  else karyNone

/-- A number as an `int`. -/
def i32 (x : ℤ) : ℤ := x.bmod (2 ^ 32)

/-- `kary_sum_descendants`, with calls nested to at most the given depth. -/
def karySumDescendants (k size : ℕ) : ℕ → ℕ → Option ℤ
  | 0, _ => none
  | depth + 1, i =>
    (List.range k).foldlM (fun sum j =>
      let n := karyChildof k size i j
      if n = karyNone then some sum
      else (karySumDescendants k size depth n).map fun below => i32 (sum + i32 (1 + below))) 0

/-! ### The tree -/

/-- The parent of a rank in the complete tree of arity `k`. -/
def parent (k i : ℕ) : Option ℕ := if i = 0 then none else some ((i - 1) / k)

theorem parent_lt (h : parent k i = some p) : p < i := by
  rw [parent] at h
  split_ifs at h with hi
  cases h
  exact lt_of_le_of_lt (Nat.div_le_self _ _) (by omega)

/-- The rank `a` is a strict ancestor of `b`. -/
def Above (k a b : ℕ) : Prop := a ≠ b ∧ Below (parent k) a b

open Classical in
/-- The rank `i` and the ranks below it. -/
noncomputable def branch (k size i : ℕ) : Finset ℕ :=
  {d ∈ Finset.range size | Below (parent k) i d}

/-- The ranks that have `i` as a strict ancestor. -/
noncomputable def descendants (k size i : ℕ) : Finset ℕ := (branch k size i).erase i

@[simp] theorem mem_branch : d ∈ branch k n i ↔ d < n ∧ Below (parent k) i d := by
  simp only [branch, Finset.mem_filter, Finset.mem_range]

theorem card_branch_le : (branch k n i).card ≤ n :=
  (Finset.card_le_card fun _ hd => Finset.mem_range.2 (mem_branch.1 hd).1).trans
    (Finset.card_range n).le

theorem card_branch (hi : i < n) : (branch k n i).card = (descendants k n i).card + 1 :=
  (Finset.card_erase_add_one (mem_branch.2 ⟨hi, .refl⟩)).symm

/-- Two ranks with one parent have no common descendant. -/
theorem sibling_eq (ha : parent k a = some i) (hb : parent k b = some i)
    (had : Below (parent k) a d) (hbd : Below (parent k) b d) : a = b := by
  have hlt : ∀ {x y}, parent k x = some i → parent k y = some i → Below (parent k) x y →
      x = y := by
    intro x y hx hy h
    rcases below_iff.1 h with heq | ⟨c, hc, hbel⟩
    · exact heq
    rw [hy] at hc
    cases hc
    have := parent_lt hx
    have := hbel.le fun _ _ => parent_lt
    omega
  rcases had.total hbd with h | h
  · exact hlt ha hb h
  · exact (hlt hb ha h).symm

theorem parent_eq_some_iff (hk : 0 < k) :
    parent k c = some i ↔ ∃ j < k, c = k * i + 1 + j := by
  rw [parent]
  constructor
  · intro h
    split_ifs at h with hc
    cases h
    have := Nat.div_add_mod (c - 1) k
    exact ⟨(c - 1) % k, Nat.mod_lt _ hk, by omega⟩
  · rintro ⟨j, hj, rfl⟩
    rw [if_neg (by omega), Nat.add_right_comm, Nat.add_sub_cancel, Nat.mul_add_div hk,
      Nat.div_eq_of_lt hj, Nat.add_zero]

theorem parent_child (hk : 0 < k) (hj : j < k) : parent k (k * i + 1 + j) = some i :=
  (parent_eq_some_iff hk).2 ⟨j, hj, rfl⟩

/-- A rank is below `i` through one of the children of `i`. -/
theorem above_iff (hk : 0 < k) :
    Above k i d ↔ ∃ j < k, Below (parent k) (k * i + 1 + j) d := by
  constructor
  · rintro ⟨hne, h⟩
    induction h with
    | refl => exact absurd rfl hne
    | @step b c hp hc ih =>
      by_cases hic : i = c
      · subst hic
        obtain ⟨j, hj, rfl⟩ := (parent_eq_some_iff hk).1 hp
        exact ⟨j, hj, .refl⟩
      · obtain ⟨j, hj, hbel⟩ := ih hic
        exact ⟨j, hj, .step hp hbel⟩
  · rintro ⟨j, hj, h⟩
    have hle := h.le fun _ _ => parent_lt
    have hlt := parent_lt (parent_child (i := i) hk hj)
    exact ⟨by omega, (Below.step (parent_child hk hj) .refl).trans h⟩

theorem below_zero (i : ℕ) : Below (parent k) 0 i := by
  induction i using Nat.strong_induction_on with
  | _ i ih =>
    by_cases hi : i = 0
    · rw [hi]
      exact .refl
    · have hp : parent k i = some ((i - 1) / k) := if_neg hi
      exact .step hp (ih _ (parent_lt hp))

theorem u32_natCast {n : ℕ} (h : n < 2 ^ 32) : u32 n = n := by
  rw [u32, Int.emod_eq_of_lt (by omega) (by omega), Int.toNat_natCast]

theorem i32_add (x y : ℤ) : i32 (i32 x + i32 (1 + i32 y)) = i32 (x + (y + 1)) := by
  rw [i32, i32, i32, Int.bmod_add_bmod, Int.add_bmod_bmod, ← Int.add_assoc, i32,
    Int.add_bmod_bmod, i32]
  ring_nf

theorem i32_eq_iff (n : ℕ) (h : n < 2 ^ 32) : i32 n = n ↔ n < 2 ^ 31 := by
  rw [i32, Int.bmod_def]
  split_ifs <;> omega

section Arith

variable {k size i : ℕ}

theorem karyParentof_zero : karyParentof k 0 = karyNone := if_pos (.inl rfl)

theorem karyParentof_eq (hk : 0 < k) (hi : 0 < i) (hfit : k + i < 2 ^ 32) :
    karyParentof k i = (i - 1) / k := by
  rw [karyParentof, if_neg (by omega)]
  split_ifs with hone
  · have hval : (i : ℤ) - 1 = ((i - 1 : ℕ) : ℤ) := by omega
    rw [hone, Nat.div_one, hval, u32_natCast (by omega)]
  have hval : (k : ℤ) + (i + 1) - 2 = ((i - 1 + k : ℕ) : ℤ) := by omega
  have hle : (i - 1) / k ≤ i - 1 := Nat.div_le_self _ _
  have hpred : (((i - 1) / k + 1 : ℕ) : ℤ) - 1 = ((i - 1) / k : ℕ) := by
    push_cast
    ring
  rw [hval, u32_natCast (by omega), Nat.add_div_right _ hk, hpred, u32_natCast (by omega)]

theorem karyChildof_eq {j : ℕ} (hj : j < k) (hi : i < size) (hfit : k * size + k < 2 ^ 32) :
    karyChildof k size i j = if k * i + 1 + j < size then k * i + 1 + j else karyNone := by
  have hmul : k * i + k ≤ k * size := by
    calc k * i + k = k * (i + 1) := by ring
      _ ≤ k * size := Nat.mul_le_mul_left k hi
  have hval : (k : ℤ) * (i + 1) - (k - 2) + j - 1 = ((k * i + 1 + j : ℕ) : ℤ) := by
    push_cast
    ring
  rw [karyChildof, if_pos ⟨by omega, hj⟩]
  dsimp only
  rw [hval, u32_natCast (by omega)]

theorem any_childof_iff (hk : 0 < k) (hsrc : src < size) (hgw : gw < size)
    (hfit : k * size + k < 2 ^ 32) :
    ((List.range k).any fun j => gw = karyChildof k size src j) = true
      ↔ parent k gw = some src := by
  have hsize : size < 2 ^ 32 - 1 := by
    have := Nat.le_mul_of_pos_left size hk
    omega
  rw [List.any_eq_true, parent_eq_some_iff hk]
  refine exists_congr fun j => ?_
  rw [List.mem_range, decide_eq_true_eq]
  refine and_congr_right fun hj => ?_
  rw [karyChildof_eq hj hsrc hfit]
  split_ifs with hlt
  · rfl
  · rw [karyNone]
    omega

end Arith

/-! ### Gateways -/

/-- The arity and the size of an instance for which no rank arithmetic overflows. -/
structure Shape where
  k : ℕ
  size : ℕ
  arity_pos : 0 < k
  size_pos : 0 < size
  fit : k * size + k < 2 ^ 32

namespace Shape

variable (t : Shape)

theorem size_lt : t.size < karyNone := by
  have := Nat.le_mul_of_pos_left t.size t.arity_pos
  have := t.fit
  have := t.arity_pos
  rw [karyNone]
  omega

theorem add_lt (h : i < t.size) : t.k + i < 2 ^ 32 := by
  have := Nat.le_mul_of_pos_left t.size t.arity_pos
  have := t.fit
  omega

theorem ne_karyNone (h : i < t.size) : i ≠ karyNone := (h.trans t.size_lt).ne

variable {t} {src dst : ℕ}

theorem karyParentof_pos (hi : 0 < i) (h : i < t.size) :
    ∃ p, karyParentof t.k i = p ∧ parent t.k i = some p ∧ p < t.size := by
  refine ⟨(i - 1) / t.k, karyParentof_eq t.arity_pos hi (t.add_lt h), if_neg hi.ne', ?_⟩
  exact lt_of_le_of_lt (Nat.div_le_self _ _) (by omega)

theorem karyParentof_eq_iff (h : i < t.size) (hp : p < t.size) :
    karyParentof t.k i = p ↔ parent t.k i = some p := by
  rcases Nat.eq_zero_or_pos i with rfl | hi
  · rw [karyParentof_zero]
    exact ⟨fun hnone => absurd hnone.symm (t.ne_karyNone hp), fun h => by cases h⟩
  · obtain ⟨q, hq, hparent, -⟩ := karyParentof_pos hi h
    rw [hq, hparent, Option.some_inj]

/-- A loop that goes up from `gw` stops at the nearest rank that passes its test, or at
`KARY_NONE` if there is none. -/
theorem climb {loop : ℕ → ℕ → Option ℕ} {res : ℕ → ℕ} {P : ℕ → Prop} [DecidablePred P]
    (hnone : ∀ turns, loop (turns + 1) karyNone = some karyNone)
    (hstep : ∀ turns gw, gw < t.size → loop (turns + 1) gw
      = if P gw then some (res gw) else loop turns (karyParentof t.k gw))
    (hgw : gw < t.size) (htns : gw + 1 < turns) :
    (∃ a, Nearest (parent t.k) P gw a ∧ loop turns gw = some (res a)) ∨
      (∀ a, Below (parent t.k) a gw → ¬ P a) ∧ loop turns gw = some karyNone := by
  induction turns generalizing gw with
  | zero => omega
  | succ turns ih =>
    rw [hstep turns gw hgw]
    by_cases hP : P gw
    · exact .inl ⟨gw, nearest_self hP, if_pos hP⟩
    rw [if_neg hP]
    rcases Nat.eq_zero_or_pos gw with rfl | hpos
    · -- the root has been reached
      obtain ⟨turns, rfl⟩ : ∃ n, turns = n + 1 := Nat.exists_eq_succ_of_ne_zero (by omega)
      refine .inr ⟨fun a ha => ?_, by rw [karyParentof_zero, hnone]⟩
      obtain rfl : a = 0 := Nat.le_zero.1 (ha.le fun _ _ => parent_lt)
      exact hP
    obtain ⟨p, hp, hparent, hlt⟩ := karyParentof_pos hpos hgw
    have hplt : p < gw := parent_lt hparent
    rw [hp]
    rcases ih hlt (by omega) with ⟨a, ha, hres⟩ | ⟨hall, hres⟩
    · exact .inl ⟨a, ha.step hparent hP, hres⟩
    refine .inr ⟨fun a ha => ?_, hres⟩
    rcases below_iff.1 ha with rfl | ⟨c, hc, hbel⟩
    · exact hP
    rw [hparent] at hc
    cases hc
    exact hall a hbel

/-- **`kary_child_route`** returns the child of `src` on the way to `dst`, if `dst` is below
`src`, and `KARY_NONE` otherwise. -/
theorem karyChildRoute_spec (hsrc : src < t.size) :
    (dst < t.size → Above t.k src dst →
      ∃ c, karyChildRoute t.k t.size src dst = c ∧ c < t.size ∧
        parent t.k c = some src ∧ Below (parent t.k) c dst) ∧
    (karyChildRoute t.k t.size src dst ≠ karyNone → dst < t.size ∧ Above t.k src dst) := by
  by_cases hargs : src ≠ dst ∧ dst < t.size
  swap
  · rw [karyChildRoute, if_neg (by tauto)]
    exact ⟨fun hdst h => absurd ⟨h.1, hdst⟩ hargs, absurd rfl⟩
  obtain ⟨hne, hdst⟩ := hargs
  have hstep : ∀ turns gw, gw < t.size → childRouteLoop t.k t.size src (turns + 1) gw
      = if parent t.k gw = some src then some gw
        else childRouteLoop t.k t.size src turns (karyParentof t.k gw) := fun turns gw hgw => by
    rw [childRouteLoop, if_neg (t.ne_karyNone hgw)]
    simp only [any_childof_iff t.arity_pos hsrc hgw t.fit]
  -- the test before the loop is the one that the loop makes, at `dst`
  have hroute : karyChildRoute t.k t.size src dst
      = (childRouteLoop t.k t.size src (t.size + 2) dst).getD karyNone := by
    rw [karyChildRoute, if_pos ⟨t.arity_pos, hne, hdst, hsrc⟩, hstep _ dst hdst]
    simp only [karyParentof_eq_iff hdst hsrc]
    split_ifs <;> rfl
  rw [hroute]
  rcases climb (fun _ => if_pos rfl) hstep hdst (by omega : dst + 1 < t.size + 2)
    with ⟨c, hc, hres⟩ | ⟨hall, hres⟩
  · rw [hres, Option.getD_some]
    have hle := hc.below.le fun _ _ => parent_lt
    exact ⟨fun _ _ => ⟨c, rfl, by omega, hc.holds, hc.below⟩,
      fun _ => ⟨hdst, hne, (Below.step hc.holds .refl).trans hc.below⟩⟩
  rw [hres, Option.getD_some]
  refine ⟨fun _ h => ?_, absurd rfl⟩
  obtain ⟨j, hj, hbel⟩ := (above_iff t.arity_pos).1 h
  exact absurd (parent_child t.arity_pos hj) (hall _ hbel)

/-- **`kary_parent_route`** returns the parent of `src`, if `src` is below `dst`, and
`KARY_NONE` otherwise. -/
theorem karyParentRoute_spec (hsrc : src < t.size) (hdst : dst < t.size) :
    (karyParentRoute t.k t.size src dst ≠ karyNone ↔ Above t.k dst src) ∧
      (Above t.k dst src → karyParentRoute t.k t.size src dst = karyParentof t.k src) := by
  by_cases hne : src = dst
  · have hno : ¬ Above t.k dst src := fun h => h.1 hne.symm
    rw [karyParentRoute, if_neg fun h => h.2.1 hne]
    exact ⟨iff_of_false (not_not.2 rfl) hno, fun h => absurd h hno⟩
  have hstep : ∀ turns n, n < t.size → parentRouteLoop t.k dst (karyParentof t.k src) (turns + 1) n
      = if n = dst then some (karyParentof t.k src)
        else parentRouteLoop t.k dst (karyParentof t.k src) turns (karyParentof t.k n) :=
    fun turns n hn => if_neg (t.ne_karyNone hn)
  have hfst := hstep (t.size + 1) src hsrc
  rw [if_neg hne] at hfst
  rw [karyParentRoute, if_pos ⟨t.arity_pos, hne, hdst, hsrc⟩, ← hfst]
  rcases climb (fun _ => if_pos rfl) hstep hsrc (by omega : src + 1 < t.size + 2)
    with ⟨a, ha, hres⟩ | ⟨hall, hres⟩
  · obtain rfl : a = dst := ha.holds
    have hle := ha.below.le fun _ _ => parent_lt
    obtain ⟨p, hp, -, hlt⟩ := karyParentof_pos (by omega) hsrc
    rw [hres, Option.getD_some]
    exact ⟨iff_of_true (hp.trans_ne (t.ne_karyNone hlt)) ⟨Ne.symm hne, ha.below⟩, fun _ => rfl⟩
  · have hno : ¬ Above t.k dst src := fun h => hall dst h.2 rfl
    rw [hres]
    exact ⟨iff_of_false (not_not.2 rfl) hno, fun h => absurd h hno⟩

/-! ### The number of descendants -/

/-- The descendants of a rank are in the branches of its children. -/
theorem sum_branch (i : ℕ) :
    ∑ j ∈ Finset.range t.k, (branch t.k t.size (t.k * i + 1 + j)).card
      = (descendants t.k t.size i).card := by
  rw [← Finset.card_biUnion]
  · congr 1
    ext d
    have habove := above_iff (i := i) (d := d) t.arity_pos
    simp only [Above] at habove
    simp only [descendants, Finset.mem_biUnion, Finset.mem_range, Finset.mem_erase, mem_branch,
      ne_comm (a := d)]
    grind
  · intro a ha b hb hab
    refine Finset.disjoint_left.2 fun d hd hd' => hab ?_
    have := sibling_eq (parent_child t.arity_pos (Finset.mem_range.1 ha))
      (parent_child t.arity_pos (Finset.mem_range.1 hb)) (mem_branch.1 hd).2 (mem_branch.1 hd').2
    omega

/-- **`kary_sum_descendants`** counts the ranks below a rank, in an `int`. -/
theorem karySumDescendants_eq (hi : i < t.size) (hdep : t.size ≤ i + depth) :
    karySumDescendants t.k t.size depth i = some (i32 (descendants t.k t.size i).card) := by
  induction depth generalizing i with
  | zero => omega
  | succ depth ih =>
    -- after `m` turns the sum counts the branches of the first `m` children
    have loop : ∀ m ≤ t.k, (List.range m).foldlM (fun sum j =>
        let n := karyChildof t.k t.size i j
        if n = karyNone then some sum
        else (karySumDescendants t.k t.size depth n).map fun below =>
          i32 (sum + i32 (1 + below))) 0
        = some (i32 (∑ j ∈ Finset.range m, (branch t.k t.size (t.k * i + 1 + j)).card : ℕ)) := by
      intro m
      induction m with
      | zero => simp [i32]
      | succ m ihm =>
        intro hm
        rw [List.range_succ, List.foldlM_append, ihm (by omega), Finset.sum_range_succ]
        simp only [List.foldlM_cons, List.foldlM_nil, Option.bind_eq_bind, Option.bind_some,
          karyChildof_eq hm hi t.fit]
        by_cases hlt : t.k * i + 1 + m < t.size
        · have hmul : i ≤ t.k * i := Nat.le_mul_of_pos_left i t.arity_pos
          rw [if_pos hlt, if_neg (t.ne_karyNone hlt), ih hlt (by omega), card_branch hlt]
          simp [i32_add]
        have hemp : branch t.k t.size (t.k * i + 1 + m) = ∅ := by
          refine Finset.eq_empty_of_forall_notMem fun d hd => ?_
          have := (mem_branch.1 hd).2.le fun _ _ => parent_lt
          have := (mem_branch.1 hd).1
          omega
        simp [if_neg hlt, hemp]
    rw [karySumDescendants, loop t.k le_rfl, sum_branch]

end Shape

/-! ### The tree arithmetic -/

/-- The functions of `kary.c` agree with the complete tree of `n` ranks of arity `k`. -/
structure Correct (k n : ℕ) : Prop where
  parent_iff : ∀ c < n, ∀ i < n, karyParentof k c = i ↔ parent k c = some i
  child_iff : ∀ c < n, ∀ i < n, (∃ j < k, karyChildof k n i j = c) ↔ karyParentof k c = i
  child_route : ∀ src < n, ∀ dst < n,
    (karyChildRoute k n src dst ≠ karyNone ↔ Above k src dst) ∧
      (Above k src dst → ∀ c, c = karyChildRoute k n src dst ↔
        parent k c = some src ∧ Below (parent k) c dst)
  parent_route : ∀ src < n, ∀ dst < n,
    (karyParentRoute k n src dst ≠ karyNone ↔ Above k dst src) ∧
      (Above k dst src → karyParentRoute k n src dst = karyParentof k src)
  sum_descendants : ∀ i < n, karySumDescendants k n n i = some ((descendants k n i).card : ℤ)

/-- The sum is right where the branch of a rank fits an `int`. -/
theorem sum_descendants_iff (hk : 1 ≤ k) (hfit : k * n + k < 2 ^ 32) (hi : i < n) :
    karySumDescendants k n n i = some ((descendants k n i).card : ℤ)
      ↔ (branch k n i).card ≤ 2 ^ 31 := by
  let t : Shape := ⟨k, n, hk, by omega, hfit⟩
  have heq : karySumDescendants k n n i = some (i32 (descendants k n i).card) :=
    Shape.karySumDescendants_eq (t := t) hi (Nat.le_add_left _ _)
  have hcard := card_branch (k := k) hi
  have hle := card_branch_le (k := k) (n := n) (i := i)
  have hroom := Nat.le_mul_of_pos_left n hk
  rw [heq, Option.some_inj, i32_eq_iff _ (by omega), hcard, Nat.succ_le_iff]

theorem card_branch_zero : (branch k n 0).card = n := by
  have hall : branch k n 0 = Finset.range n := by
    ext d
    simp [below_zero]
  rw [hall, Finset.card_range]

/-- **The tree arithmetic is correct exactly** where the tree is not a chain of more than
`2 ^ 31` ranks. -/
theorem correct_iff (k n : ℕ) (hk : 1 ≤ k) (hfit : k * n + k < 2 ^ 32) :
    Correct k n ↔ (k = 1 → n ≤ 2 ^ 31) := by
  rcases Nat.eq_zero_or_pos n with rfl | hpos
  · refine iff_of_true ?_ fun _ => Nat.zero_le _
    constructor <;> exact fun _ h => absurd h (Nat.not_lt_zero _)
  let t : Shape := ⟨k, n, hk, hpos, hfit⟩
  constructor
  · rintro h rfl
    have hroot := (sum_descendants_iff hk hfit hpos).1 (h.sum_descendants 0 hpos)
    rwa [card_branch_zero] at hroot
  · intro hn
    have hpar : ∀ c < n, ∀ i < n, karyParentof k c = i ↔ parent k c = some i :=
      fun c hc i hi => Shape.karyParentof_eq_iff (t := t) hc hi
    refine ⟨hpar, fun c hc i hi => ?_, fun src hsrc dst hdst => ?_,
      fun src hsrc dst hdst => Shape.karyParentRoute_spec (t := t) hsrc hdst, fun i hi => ?_⟩
    · rw [hpar c hc i hi, ← any_childof_iff hk hi hc hfit, List.any_eq_true]
      refine exists_congr fun j => ?_
      rw [List.mem_range, decide_eq_true_eq, eq_comm]
    · have hroute := @Shape.karyChildRoute_spec t src dst hsrc
      refine ⟨⟨fun h => (hroute.2 h).2, fun h => ?_⟩, fun h c => ?_⟩
      · obtain ⟨c, hc, hlt, -⟩ := hroute.1 hdst h
        exact hc.trans_ne (t.ne_karyNone hlt)
      · obtain ⟨d, hd, -, hparent, hbel⟩ := hroute.1 hdst h
        rw [show karyChildRoute k n src dst = d from hd]
        refine ⟨?_, fun hc => sibling_eq hc.1 hparent hc.2 hbel⟩
        rintro rfl
        exact ⟨hparent, hbel⟩
    · have htwo : k ≠ 1 → 2 * n ≤ k * n := fun hne => Nat.mul_le_mul_right n (by omega)
      have hle := card_branch_le (k := k) (n := n) (i := i)
      rw [sum_descendants_iff hk hfit hi]
      omega

theorem correct_iff_binary : Correct 2 6 ↔ (2 = 1 → 6 ≤ 2 ^ 31) :=
  correct_iff 2 6 (by decide) (by decide)

/-- In a chain of `2 ^ 31 + 1` ranks the number of descendants of the root is no `int`. -/
theorem not_correct_chain : 1 * (2 ^ 31 + 1) + 1 < 2 ^ 32 ∧ ¬ Correct 1 (2 ^ 31 + 1) := by
  refine ⟨by decide, fun h => ?_⟩
  have hroot := (sum_descendants_iff le_rfl (by decide) (Nat.succ_pos _)).1
    (h.sum_descendants 0 (Nat.succ_pos _))
  rw [card_branch_zero] at hroot
  exact absurd hroot (by decide)

end FluxCore.Kary
