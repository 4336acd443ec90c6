import Mathlib.Tactic.Ring

/-!
# The Pool of Matchtags

The regular tags of `tagpool.c`, a set of numbers that is doubled when it is empty. The tag 0
is `FLUX_MATCHTAG_NONE` and is never in the pool. The tags for groups are a pool of their own
and are left out.

`Taken` says which tags are out of the pool: `tagpoolAlloc_spec` and `taken_tagpoolFree` are
all that is used of the pool elsewhere.
-/

namespace FluxCore.Libflux.Rpc

/-! ### Sets of numbers -/

/-- `Veb`: a set of numbers below `M`. -/
structure Veb where
  M : ℕ
  mem : ℕ → Bool

/-- `vebnew`: the full or the empty set. -/
def vebnew (M : ℕ) (full : Bool) : Veb := ⟨M, fun _ => full⟩

/-- `vebput`. -/
def vebput (T : Veb) (x : ℕ) : Veb := { T with mem := fun y => y = x || T.mem y }

/-- `vebdel`. -/
def vebdel (T : Veb) (x : ℕ) : Veb := { T with mem := fun y => y ≠ x && T.mem y }

/-- The first member of the set in as many places from `x` on. -/
def Veb.search (T : Veb) : ℕ → ℕ → ℕ
  | 0, _ => T.M
  | places + 1, x => if T.mem x then x else T.search places (x + 1)

/-- `vebsucc`: the smallest member from `x` on, or `M`. -/
def vebsucc (T : Veb) (x : ℕ) : ℕ := T.search (T.M - x) x

theorem Veb.search_spec (T : Veb) (h : x + places = T.M) :
    (T.search places x < T.M ∧ T.mem (T.search places x) = true) ∨
      T.search places x = T.M ∧ ∀ y, x ≤ y → y < T.M → T.mem y = false := by
  induction places generalizing x with
  | zero => exact .inr ⟨rfl, by omega⟩
  | succ places ih =>
    rw [search]
    by_cases hx : T.mem x = true
    · rw [if_pos hx]
      exact .inl ⟨by omega, hx⟩
    rw [if_neg hx]
    rcases ih (x := x + 1) (by omega) with hfnd | ⟨hend, hnone⟩
    · exact .inl hfnd
    refine .inr ⟨hend, fun y hxy hy => ?_⟩
    rcases Nat.eq_or_lt_of_le hxy with rfl | hlt
    · simpa using hx
    · exact hnone y hlt hy

/-- `pool_set` with the value 1, for so many numbers from `x` on. -/
def poolSet (T : Veb) (x : ℕ) : ℕ → Veb
  | 0 => T
  | count + 1 => poolSet (vebput T x) (x + 1) count

theorem poolSet_M (T : Veb) (x count : ℕ) : (poolSet T x count).M = T.M := by
  induction count generalizing T x with
  | zero => rfl
  | succ count ih => exact ih _ _

theorem mem_poolSet (T : Veb) (x count y : ℕ) :
    (poolSet T x count).mem y = true ↔ T.mem y = true ∨ x ≤ y ∧ y < x + count := by
  induction count generalizing T x with
  | zero =>
    rw [poolSet]
    constructor
    · exact .inl
    · rintro (h | ⟨hx, hy⟩)
      · exact h
      · omega
  | succ count ih =>
    rw [poolSet, ih, vebput]
    simp only [Bool.or_eq_true, decide_eq_true_eq]
    constructor
    · rintro ((rfl | h) | ⟨hx, hy⟩)
      · exact .inr ⟨le_rfl, by omega⟩
      · exact .inl h
      · exact .inr ⟨by omega, by omega⟩
    · rintro (h | ⟨hx, hy⟩)
      · exact .inl (.inr h)
      · rcases Nat.eq_or_lt_of_le hx with rfl | hlt
        · exact .inl (.inl rfl)
        · exact .inr ⟨hlt, by omega⟩

/-! ### The pool -/

/-- `FLUX_MATCHTAG_NONE`. -/
def matchtagNone : ℕ := 0

/-- `struct tagpool`, without the tags for groups. -/
structure Tagpool where
  R : Veb

/-- `tagpool_create`. -/
def tagpoolCreate : Tagpool := ⟨vebdel (vebnew (2 ^ 10) true) matchtagNone⟩

/-- `alloc_with_resize`. -/
def allocWithResize (t : Tagpool) : ℕ × Tagpool :=
  let oldsize := t.R.M
  let newsize := oldsize * 2
  let tag := vebsucc t.R 0
  let (tag, R) :=
    if tag = t.R.M ∧ newsize ≤ 2 ^ 20 then
      let new := poolSet (vebnew newsize false) oldsize (newsize - oldsize)
      (vebsucc new oldsize, new)
    else (tag, t.R)
  if tag < R.M then (tag, ⟨vebdel R tag⟩) else (tag, ⟨R⟩)

/-- `tagpool_alloc`. -/
def tagpoolAlloc (t : Tagpool) : ℕ × Tagpool :=
  let (tag, t) := allocWithResize t
  if tag < t.R.M then (tag, t) else (matchtagNone, t)

/-- `tagpool_free`. -/
def tagpoolFree (t : Tagpool) (tag : ℕ) : Tagpool :=
  if tag ≠ matchtagNone then
    if tag < t.R.M then ⟨vebput t.R tag⟩ else t
  else t

/-- The tag is not in the pool. -/
def Tagpool.Taken (t : Tagpool) (tag : ℕ) : Prop := tag < t.R.M ∧ t.R.mem tag = false

theorem taken_create : tagpoolCreate.Taken matchtagNone := ⟨by decide, rfl⟩

theorem taken_vebdel (htag : tag < R.M) :
    Tagpool.Taken ⟨vebdel R tag⟩ x ↔ Tagpool.Taken ⟨R⟩ x ∨ x = tag := by
  simp only [Tagpool.Taken, vebdel]
  by_cases hx : x = tag
  · subst hx
    simp [htag]
  · simp [hx]

theorem taken_grown {t : Tagpool} (hfull : ∀ y, y < t.R.M → t.R.mem y = false) (x : ℕ) :
    Tagpool.Taken ⟨poolSet (vebnew (t.R.M * 2) false) t.R.M (t.R.M * 2 - t.R.M)⟩ x
      ↔ t.Taken x := by
  have hmem := mem_poolSet (vebnew (t.R.M * 2) false) t.R.M (t.R.M * 2 - t.R.M) x
  simp only [vebnew, Bool.false_eq_true, false_or] at hmem
  simp only [Tagpool.Taken, poolSet_M, vebnew, ← Bool.not_eq_true, hmem]
  constructor
  · rintro ⟨hlt, hno⟩
    have hx : x < t.R.M := by omega
    exact ⟨hx, by simp [hfull x hx]⟩
  · rintro ⟨hlt, -⟩
    exact ⟨by omega, by omega⟩

theorem taken_vebsucc (hx : x ≤ R.M) : (vebsucc R x < R.M ∧ ¬ Tagpool.Taken ⟨R⟩ (vebsucc R x)) ∨
      vebsucc R x = R.M ∧ ∀ y, x ≤ y → y < R.M → R.mem y = false := by
  rcases R.search_spec (show x + (R.M - x) = R.M by omega) with ⟨hlt, hmem⟩ | hnone
  · refine .inl ⟨hlt, fun htkn => ?_⟩
    rw [Tagpool.Taken, vebsucc, hmem] at htkn
    cases htkn.2
  · exact .inr hnone

theorem allocWithResize_spec {t : Tagpool} (h : 0 < t.R.M) :
    ((allocWithResize t).1 < (allocWithResize t).2.R.M ∧ ¬ t.Taken (allocWithResize t).1 ∧
        ∀ x, (allocWithResize t).2.Taken x ↔ t.Taken x ∨ x = (allocWithResize t).1) ∨
      ¬ (allocWithResize t).1 < (allocWithResize t).2.R.M ∧ (allocWithResize t).2 = t := by
  rw [allocWithResize]
  by_cases hgrow : vebsucc t.R 0 = t.R.M ∧ t.R.M * 2 ≤ 2 ^ 20
  · simp only [if_pos hgrow]
    have hfull : ∀ y, y < t.R.M → t.R.mem y = false := by
      rcases taken_vebsucc (R := t.R) (Nat.zero_le _) with ⟨hlt, -⟩ | ⟨-, hnone⟩
      · omega
      · exact fun y => hnone y (Nat.zero_le y)
    have hgrown := taken_grown hfull
    generalize hnew : poolSet (vebnew (t.R.M * 2) false) t.R.M (t.R.M * 2 - t.R.M) = new
      at hgrown ⊢
    have hM : new.M = t.R.M * 2 := by rw [← hnew, poolSet_M, vebnew]
    rcases taken_vebsucc (R := new) (x := t.R.M) (by omega) with ⟨hlt, hmem⟩ | ⟨-, hnone⟩
    · rw [if_pos hlt]
      refine .inl ⟨hlt, (hgrown _).not.1 hmem, fun x => ?_⟩
      rw [taken_vebdel hlt, hgrown]
    have hlt : t.R.M < new.M := by omega
    have htkn : t.Taken t.R.M := (hgrown _).1 ⟨hlt, hnone _ le_rfl hlt⟩
    exact absurd htkn.1 (lt_irrefl _)
  · simp only [if_neg hgrow]
    rcases taken_vebsucc (R := t.R) (Nat.zero_le _) with ⟨hlt, hmem⟩ | ⟨hend, -⟩
    · rw [if_pos hlt]
      exact .inl ⟨hlt, hmem, fun x => taken_vebdel hlt⟩
    · rw [hend, if_neg (lt_irrefl _)]
      exact .inr ⟨lt_irrefl _, rfl⟩

/-- **Allocation:** one more tag is taken, and it was in the pool; or the result is
`FLUX_MATCHTAG_NONE`. -/
theorem tagpoolAlloc_spec (h : t.Taken matchtagNone) :
    (∀ x, (tagpoolAlloc t).2.Taken x ↔ t.Taken x ∨ x = (tagpoolAlloc t).1) ∧
      ((tagpoolAlloc t).1 = matchtagNone ∨ ¬ t.Taken (tagpoolAlloc t).1) := by
  have hspec := allocWithResize_spec (t := t) (lt_of_le_of_lt (Nat.zero_le _) h.1)
  rw [tagpoolAlloc]
  rcases hspec with ⟨hlt, hfree, htkn⟩ | ⟨hge, hsame⟩
  · simp only [if_pos hlt]
    exact ⟨htkn, .inr hfree⟩
  simp only [if_neg hge]
  rw [hsame]
  refine ⟨fun x => ⟨.inl, ?_⟩, .inl trivial⟩
  rintro (hx | rfl)
  · exact hx
  · exact h

/-- **Release:** a tag goes back to the pool. -/
theorem taken_tagpoolFree :
    (tagpoolFree t tag).Taken x ↔ t.Taken x ∧ (tag = matchtagNone ∨ x ≠ tag) := by
  rw [tagpoolFree]
  split_ifs with hnone hlt
  · simp only [Tagpool.Taken, vebput]
    by_cases hx : x = tag
    · simp [hx, hnone]
    · simp [hx]
  · constructor
    · rintro ⟨hx, hmem⟩
      exact ⟨⟨hx, hmem⟩, .inr (by omega)⟩
    · exact And.left
  · rw [not_not] at hnone
    simp [hnone]

end FluxCore.Libflux.Rpc
