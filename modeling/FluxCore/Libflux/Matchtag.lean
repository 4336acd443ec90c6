import FluxCore.Lib.Machine
import FluxCore.Libflux.Tagpool
import Mathlib.Data.List.Nodup
import Mathlib.Data.List.Perm.Subperm

/-!
# The Pools of Regular and of Group Tags

All of `tagpool.c`. A `struct tagpool` has two trees, one for the regular tags below 2^20 and
one for the groups below 2^12; the tag of a group has the number of the group in its upper 12
bits. Both trees start with 2^10 numbers and are doubled when they are empty, and `reg_avail`
and `group_avail` count what is left of the full size, not of the tree.

A larger tree is built with only its upper half free. This is right because a tree is doubled
only if nothing is left in it (`Holds.grow`); with it each tree of the pool `Holds` the numbers
that are not out, through every doubling.
-/

namespace FluxCore.Libflux.Matchtag

open List

open Rpc (Veb vebnew vebput vebdel vebsucc poolSet matchtagNone)

/-- `TAGPOOL_COUNT_GROUP` and `TAGPOOL_COUNT_REGULAR`. -/
def tagpoolCount (group : Bool) : ℕ := if group then 2 ^ 12 else 2 ^ 20

/-- `TAGPOOL_START`. -/
def tagpoolStart : ℕ := 2 ^ 10

/-- `FLUX_MATCHTAG_GROUP_SHIFT`. -/
def groupShift : ℕ := 20

/-- `struct tagpool`. The calls of `grow_cb` are recorded with their arguments. -/
structure Tagpool where
  R : Veb
  regAvail : ℤ
  G : Veb
  groupAvail : ℤ
  growCb : Bool
  growDepth : ℕ
  grown : List (ℕ × ℕ × Bool)

/-- The tree that `alloc_with_resize` works on. -/
def Tagpool.veb (t : Tagpool) (group : Bool) : Veb := if group then t.G else t.R

/-- `*veb = new`. -/
def Tagpool.setVeb (t : Tagpool) (group : Bool) (veb : Veb) : Tagpool :=
  if group then { t with G := veb } else { t with R := veb }

/-- The number of tags that are left. -/
def Tagpool.avail (t : Tagpool) (group : Bool) : ℤ := if group then t.groupAvail else t.regAvail

/-- Add to `group_avail` or `reg_avail`. -/
def Tagpool.addAvail (t : Tagpool) (group : Bool) (n : ℤ) : Tagpool :=
  if group then { t with groupAvail := t.groupAvail + n }
  else { t with regAvail := t.regAvail + n }

/-- `tagpool_create`. -/
def tagpoolCreate : Tagpool where
  R := vebdel (vebnew tagpoolStart true) matchtagNone
  regAvail := tagpoolCount false - 1
  G := vebdel (vebnew tagpoolStart true) 0
  groupAvail := tagpoolCount true - 1
  growCb := false
  growDepth := 0
  grown := []

/-- `tagpool_set_grow_cb`, with a callback that does not call the pool. -/
def tagpoolSetGrowCb (t : Tagpool) (cb : Bool) : Tagpool := { t with growCb := cb }

/-- The call of the callback in `alloc_with_resize`. -/
def Tagpool.notify (t : Tagpool) (group : Bool) (oldsize newsize : ℕ) : Tagpool :=
  if t.growCb && t.growDepth == 0 then
    { t with grown := t.grown ++ [(oldsize, newsize, group)] }
  else t

/-- `alloc_with_resize`. -/
def allocWithResize (t : Tagpool) (group : Bool) : ℕ × Tagpool :=
  let veb := t.veb group
  let oldsize := veb.M
  let newsize := oldsize <<< 1
  let tag := vebsucc veb 0
  if tag = veb.M ∧ newsize ≤ tagpoolCount group then
    let t := t.notify group oldsize newsize
    let new := poolSet (vebnew newsize false) oldsize (newsize - oldsize)
    let tag := vebsucc new oldsize
    (tag, t.setVeb group (if tag < new.M then vebdel new tag else new))
  else
    (tag, t.setVeb group (if tag < veb.M then vebdel veb tag else veb))

/-- `tagpool_alloc`. -/
def tagpoolAlloc (t : Tagpool) (group : Bool) : ℕ × Tagpool :=
  let res := allocWithResize t group
  if res.1 < (res.2.veb group).M then
    (if group then res.1 <<< groupShift % 2 ^ 32 else res.1, res.2.addAvail group (-1))
  else (matchtagNone, res.2)

/-- `tagpool_free`. -/
def tagpoolFree (t : Tagpool) (tag : ℕ) : Tagpool :=
  if tag ≠ matchtagNone then
    let group := tag >>> groupShift
    if group > 0 then
      if group < t.G.M then (t.setVeb true (vebput t.G group)).addAvail true 1 else t
    else
      if tag < t.R.M then (t.setVeb false (vebput t.R tag)).addAvail false 1 else t
  else t

/-- The attributes of `tagpool_getattr`. -/
inductive Attr
  | size (group : Bool)
  | avail (group : Bool)

/-- `tagpool_getattr`. -/
def tagpoolGetattr (t : Tagpool) : Attr → ℕ
  | .size group => tagpoolCount group - 1
  | .avail group => (t.avail group % 2 ^ 32).toNat

/-! ### Use of a pool -/

/-- A pool, and the tags that are out of it, each with its kind. -/
structure Client where
  pool : Tagpool
  outstanding : List (Bool × ℕ)

/-- What a client does with its pool. -/
inductive Call
  | alloc (group : Bool)
  | free (tag : ℕ)
  | setGrowCb (cb : Bool)

/-- A call. Only a tag that is outstanding is freed. -/
def Client.step : Call → Client → Option Client
  | .alloc group, s =>
    let res := tagpoolAlloc s.pool group
    some ⟨res.2, if res.1 = matchtagNone then s.outstanding
      else s.outstanding ++ [(group, res.1)]⟩
  | .free tag, s =>
    if s.outstanding.any (fun o => o.2 = tag) then
      some ⟨tagpoolFree s.pool tag, s.outstanding.eraseP fun o => o.2 = tag⟩
    else none
  | .setGrowCb cb, s => some ⟨tagpoolSetGrowCb s.pool cb, s.outstanding⟩

/-- A pool in use. -/
def machine : Machine Client Call := ⟨Client.step⟩

/-- The states that a client of a new pool can reach. -/
def Reachable (s : Client) : Prop :=
  machine.Reach (fun _ _ => True) (fun s => s = ⟨tagpoolCreate, []⟩) s

/-! ### One half of the pool -/

/-- A tree that grows to `max` **holds** the numbers that are not out. -/
structure Holds (veb : Veb) (max : ℕ) (out : ℕ → Prop) : Prop where
  doubles : ∃ k, veb.M * 2 ^ k = max
  pos : 0 < veb.M
  taken : ∀ x, x < veb.M → (veb.mem x = false ↔ x = 0 ∨ out x)
  below : ∀ x, out x → 0 < x ∧ x < veb.M

variable {veb : Veb} {max : ℕ} {out : ℕ → Prop}

theorem Holds.exists_double (h : Holds veb max out) (hlt : veb.M ≠ max) :
    ∃ k, veb.M <<< 1 * 2 ^ k = max := by
  obtain ⟨k, hk⟩ := h.doubles
  cases k with
  | zero =>
    rw [pow_zero, mul_one] at hk
    exact absurd hk hlt
  | succ k =>
    refine ⟨k, ?_⟩
    rw [← hk, Nat.shiftLeft_eq, pow_succ]
    ring

theorem Holds.double_le_iff (h : Holds veb max out) : veb.M <<< 1 ≤ max ↔ veb.M ≠ max := by
  constructor
  · rintro hle rfl
    have := h.pos
    rw [Nat.shiftLeft_eq] at hle
    omega
  · intro hne
    obtain ⟨k, hk⟩ := h.exists_double hne
    rw [← hk]
    exact Nat.le_mul_of_pos_right _ (Nat.two_pow_pos k)

variable {x : ℕ}

theorem Holds.del (h : Holds veb max out) (hx : x < veb.M) (hmem : veb.mem x = true) :
    0 < x ∧ ¬ out x ∧ Holds (vebdel veb x) max fun y => out y ∨ y = x := by
  have hin : ¬ (x = 0 ∨ out x) := by
    rw [← h.taken x hx, hmem]
    decide
  rw [not_or] at hin
  refine ⟨Nat.pos_of_ne_zero hin.1, hin.2, h.doubles, h.pos, fun y hy => ?_, ?_⟩
  · by_cases hyx : y = x
    · simp [vebdel, hyx]
    · simpa [vebdel, hyx] using h.taken y hy
  · rintro y (hy | rfl)
    · exact h.below y hy
    · exact ⟨Nat.pos_of_ne_zero hin.1, hx⟩

theorem Holds.put (h : Holds veb max out) (hx : out x) :
    Holds (vebput veb x) max fun y => out y ∧ y ≠ x := by
  have hpos := (h.below x hx).1
  refine ⟨h.doubles, h.pos, fun y hy => ?_, fun y hy => h.below y hy.1⟩
  by_cases hyx : y = x
  · simp [vebput, hyx, hpos.ne']
  · simpa [vebput, hyx] using h.taken y hy

theorem Holds.congr (h : Holds veb max out) (hiff : ∀ x, out' x ↔ out x) : Holds veb max out' :=
  (funext fun x => propext (hiff x) : out' = out) ▸ h

/-- The tree that `alloc_with_resize` builds in place of an empty one. -/
def grownVeb (veb : Veb) : Veb :=
  poolSet (vebnew (veb.M <<< 1) false) veb.M (veb.M <<< 1 - veb.M)

theorem grownVeb_M (veb : Veb) : (grownVeb veb).M = veb.M <<< 1 := by
  rw [grownVeb, Rpc.poolSet_M, vebnew]

theorem mem_grownVeb (veb : Veb) (x : ℕ) :
    (grownVeb veb).mem x = true ↔ veb.M ≤ x ∧ x < veb.M <<< 1 := by
  have hle : veb.M ≤ veb.M <<< 1 := by
    rw [Nat.shiftLeft_eq]
    omega
  rw [grownVeb, Rpc.mem_poolSet, Nat.add_sub_cancel' hle]
  simp [vebnew]

theorem vebsucc_grownVeb (hpos : 0 < veb.M) : vebsucc (grownVeb veb) veb.M = veb.M := by
  have hplaces : (grownVeb veb).M - veb.M = (veb.M - 1) + 1 := by
    rw [grownVeb_M, Nat.shiftLeft_eq]
    omega
  have hmem : (grownVeb veb).mem veb.M = true := by
    rw [mem_grownVeb, Nat.shiftLeft_eq]
    omega
  rw [vebsucc, hplaces, Veb.search, if_pos hmem]

/-- **Doubling:** in place of a tree from which everything is out, one that holds all of the
upper half. -/
theorem Holds.grow (h : Holds veb max out) (hemp : ∀ x, x < veb.M → veb.mem x = false)
    (hne : veb.M ≠ max) : Holds (grownVeb veb) max out := by
  have hM := grownVeb_M veb
  have hpos := h.pos
  rw [Nat.shiftLeft_eq] at hM
  refine ⟨?_, by omega, fun x hx => ?_, fun x hx => ?_⟩
  · rw [grownVeb_M]
    exact h.exists_double hne
  · rw [← Bool.not_eq_true, mem_grownVeb, Nat.shiftLeft_eq]
    constructor
    · intro hlow
      have hx' : x < veb.M := by omega
      exact (h.taken x hx').mp (hemp x hx')
    · rintro (rfl | hout)
      · omega
      · have := (h.below x hout).2
        omega
  · have := h.below x hx
    omega

/-- `alloc_with_resize` on one tree. -/
def allocVeb (veb : Veb) (max : ℕ) : ℕ × Veb :=
  let new := if vebsucc veb 0 = veb.M ∧ veb.M <<< 1 ≤ max then grownVeb veb else veb
  let tag := if vebsucc veb 0 = veb.M ∧ veb.M <<< 1 ≤ max then vebsucc new veb.M
    else vebsucc veb 0
  (tag, if tag < new.M then vebdel new tag else new)

/-- **Allocation from a tree:** a number that was not out, or everything is out. -/
theorem Holds.alloc (h : Holds veb max out) :
    ((allocVeb veb max).1 < (allocVeb veb max).2.M ∧ 0 < (allocVeb veb max).1 ∧
        ¬ out (allocVeb veb max).1 ∧
        Holds (allocVeb veb max).2 max fun x => out x ∨ x = (allocVeb veb max).1) ∨
      ¬ (allocVeb veb max).1 < (allocVeb veb max).2.M ∧ (allocVeb veb max).2 = veb ∧
        ∀ x, 0 < x → x < max → out x := by
  have hfst := veb.search_spec (show 0 + (veb.M - 0) = veb.M by omega)
  rw [← vebsucc] at hfst
  rw [allocVeb]
  rcases hfst with ⟨hlt, hmem⟩ | ⟨hend, hnone⟩
  · -- a number is left
    obtain ⟨hpos, hnew, hhold⟩ := h.del hlt hmem
    have hstay : ¬ (vebsucc veb 0 = veb.M ∧ veb.M <<< 1 ≤ max) := fun hgrow => by omega
    simp only [if_neg hstay, if_pos hlt]
    exact .inl ⟨hlt, hpos, hnew, hhold⟩
  have hemp : ∀ x, x < veb.M → veb.mem x = false := fun x => hnone x (Nat.zero_le x)
  by_cases hmax : veb.M = max
  · -- the tree cannot grow
    have hstay : ¬ (vebsucc veb 0 = veb.M ∧ veb.M <<< 1 ≤ max) := fun hgrow =>
      h.double_le_iff.mp hgrow.2 hmax
    simp only [if_neg hstay]
    rw [hend, if_neg (lt_irrefl _)]
    refine .inr ⟨lt_irrefl _, rfl, fun x hx hlt => ?_⟩
    rw [← hmax] at hlt
    exact ((h.taken x hlt).mp (hemp x hlt)).resolve_left hx.ne'
  · -- the tree is doubled, and its first number is the old size
    have hgrow : vebsucc veb 0 = veb.M ∧ veb.M <<< 1 ≤ max := ⟨hend, h.double_le_iff.mpr hmax⟩
    have hlt : veb.M < (grownVeb veb).M := by
      have := h.pos
      rw [grownVeb_M, Nat.shiftLeft_eq]
      omega
    have hmem : (grownVeb veb).mem veb.M = true := by
      rw [mem_grownVeb, ← grownVeb_M]
      exact ⟨le_rfl, hlt⟩
    obtain ⟨hpos, hnew, hhold⟩ := (h.grow hemp hmax).del hlt hmem
    simp only [if_pos hgrow, vebsucc_grownVeb h.pos, if_pos hlt]
    exact .inl ⟨hlt, hpos, hnew, hhold⟩

/-! ### Both halves -/

section

variable (t : Tagpool) (g k : Bool)
include t g k

@[simp] theorem Tagpool.veb_setVeb (veb : Veb) :
    (t.setVeb g veb).veb k = if k = g then veb else t.veb k := by
  cases g <;> cases k <;> rfl

@[simp] theorem Tagpool.avail_setVeb (veb : Veb) :
    (t.setVeb g veb).avail k = t.avail k := by
  cases g <;> cases k <;> rfl

@[simp] theorem Tagpool.veb_addAvail (n : ℤ) :
    (t.addAvail g n).veb k = t.veb k := by
  cases g <;> cases k <;> rfl

@[simp] theorem Tagpool.avail_addAvail (n : ℤ) :
    (t.addAvail g n).avail k = if k = g then t.avail k + n else t.avail k := by
  cases g <;> cases k <;> rfl

@[simp] theorem Tagpool.veb_notify (a b : ℕ) :
    (t.notify g a b).veb k = t.veb k := by
  rw [notify]
  split <;> rfl

@[simp] theorem Tagpool.avail_notify (a b : ℕ) :
    (t.notify g a b).avail k = t.avail k := by
  rw [notify]
  split <;> rfl

end

theorem allocWithResize_eq (t : Tagpool) (g : Bool) :
    (allocWithResize t g).1 = (allocVeb (t.veb g) (tagpoolCount g)).1 ∧
      (∀ k, (allocWithResize t g).2.veb k =
        if k = g then (allocVeb (t.veb g) (tagpoolCount g)).2 else t.veb k) ∧
      ∀ k, (allocWithResize t g).2.avail k = t.avail k := by
  rw [allocWithResize, allocVeb]
  by_cases hgrow : vebsucc (t.veb g) 0 = (t.veb g).M ∧ (t.veb g).M <<< 1 ≤ tagpoolCount g
  · simp only [if_pos hgrow]
    exact ⟨rfl, fun k => by rw [Tagpool.veb_setVeb, Tagpool.veb_notify]; rfl, fun k => by simp⟩
  · simp only [if_neg hgrow]
    exact ⟨trivial, fun k => by rw [Tagpool.veb_setVeb], fun k => by simp⟩

/-- The tag of the number `x` of a half. -/
def tagOf (group : Bool) (x : ℕ) : ℕ := if group then x * 2 ^ 20 else x

/-- **The invariant:** the tags that are out are those of numbers of the two halves, no tag is
out twice, each half holds what is not out, and the counts are right. -/
structure Sound (s : Client) : Prop where
  nodup : (s.outstanding.map Prod.snd).Nodup
  tags : ∀ o ∈ s.outstanding, ∃ x, 0 < x ∧ x < tagpoolCount o.1 ∧ o.2 = tagOf o.1 x
  holds : ∀ g, Holds (s.pool.veb g) (tagpoolCount g) fun x => (g, tagOf g x) ∈ s.outstanding
  avail : ∀ g, s.pool.avail g + s.outstanding.countP (fun o => o.1 = g) = tagpoolCount g - 1

theorem tagOf_inj (hx : 0 < x) (hxg : x < tagpoolCount g) (hy : 0 < y) (hyk : y < tagpoolCount k)
    (h : tagOf g x = tagOf k y) : g = k ∧ x = y := by
  cases g <;> cases k <;>
    simp only [tagOf, tagpoolCount, if_true, Bool.false_eq_true, if_false, true_and,
      false_and, reduceCtorEq] at * <;> omega

theorem tagOf_eq_iff : tagOf g x = tagOf g y ↔ x = y := by
  cases g with
  | false | true => simp [tagOf]

theorem tagOf_pos (hx : 0 < x) : 0 < tagOf g x := by
  cases g <;> simp only [tagOf, if_true, Bool.false_eq_true, if_false] <;> omega

theorem Holds.lt_max (h : Holds veb max out) (hx : x < veb.M) : x < max := by
  obtain ⟨k, hk⟩ := h.doubles
  have := Nat.le_mul_of_pos_right veb.M (Nat.two_pow_pos k)
  omega

theorem tagOf_eq (hx : x < tagpoolCount g) :
    (if g then x <<< groupShift % 2 ^ 32 else x) = tagOf g x := by
  cases g with
  | false => simp [tagOf]
  | true =>
    have hsmall : x < 2 ^ 12 := hx
    have hlt : x * 2 ^ 20 < 2 ^ 32 := by omega
    rw [tagOf, if_pos rfl, if_pos rfl, groupShift, Nat.shiftLeft_eq, Nat.mod_eq_of_lt hlt]

/-- **What an allocation does** to a sound pool. -/
theorem Sound.tagpoolAlloc (h : Sound s) (g : Bool) :
    (∃ x, 0 < x ∧ x < tagpoolCount g ∧ (tagpoolAlloc s.pool g).1 = tagOf g x ∧
        (g, tagOf g x) ∉ s.outstanding ∧ Holds ((tagpoolAlloc s.pool g).2.veb g) (tagpoolCount g)
          (fun y => (g, tagOf g y) ∈ s.outstanding ∨ y = x) ∧
        (∀ k ≠ g, (tagpoolAlloc s.pool g).2.veb k = s.pool.veb k) ∧
        ∀ k, (tagpoolAlloc s.pool g).2.avail k = if k = g then s.pool.avail k - 1
          else s.pool.avail k) ∨
      (tagpoolAlloc s.pool g).1 = matchtagNone ∧
        (∀ x, 0 < x → x < tagpoolCount g → (g, tagOf g x) ∈ s.outstanding) ∧
        (∀ k, (tagpoolAlloc s.pool g).2.veb k = s.pool.veb k) ∧
        ∀ k, (tagpoolAlloc s.pool g).2.avail k = s.pool.avail k := by
  obtain ⟨htag, hveb, hav⟩ := allocWithResize_eq s.pool g
  have hsize : ((allocWithResize s.pool g).2.veb g).M =
      (allocVeb (s.pool.veb g) (tagpoolCount g)).2.M := by
    rw [hveb, if_pos rfl]
  have halloc := (h.holds g).alloc
  simp only [Matchtag.tagpoolAlloc, hsize, htag]
  generalize allocVeb (s.pool.veb g) (tagpoolCount g) = new at halloc hveb ⊢
  rcases halloc with ⟨hlt, hpos, hnew, hhold⟩ | ⟨hno, hsame, hall⟩
  · have hmax := hhold.lt_max hlt
    simp only [if_pos hlt, Tagpool.veb_addAvail, Tagpool.avail_addAvail, hveb, hav, if_true]
    exact .inl ⟨new.1, hpos, hmax, tagOf_eq hmax, hnew, hhold, fun k hk => if_neg hk,
      fun k => rfl⟩
  simp only [if_neg hno, hveb, hav]
  refine .inr ⟨trivial, hall, fun k => ?_, fun k => trivial⟩
  by_cases hk : k = g
  · rw [if_pos hk, hsame, hk]
  · rw [if_neg hk]

theorem Sound.alloc (h : Sound s) (ht : Client.step (.alloc g) s = some t) : Sound t := by
  cases ht
  rcases h.tagpoolAlloc g with ⟨x, hpos, hmax, htag, hnew, hhold, hoth, hav⟩ |
    ⟨hnone, -, hveb, hav⟩
  · have hne : tagOf g x ≠ matchtagNone := (tagOf_pos hpos).ne'
    simp only [htag, if_neg hne]
    refine ⟨?_, ?_, fun k => ?_, fun k => ?_⟩
    · rw [map_append, map_singleton]
      refine List.Nodup.append h.nodup (nodup_singleton _) ?_
      rw [disjoint_singleton]
      intro hmem
      obtain ⟨⟨k, tag⟩, ho, rfl : tag = tagOf g x⟩ := List.mem_map.mp hmem
      obtain ⟨y, hy, hyk, heq⟩ := h.tags _ ho
      obtain ⟨rfl, -⟩ := tagOf_inj hpos hmax hy hyk heq
      exact hnew ho
    · intro o ho
      rcases mem_append.mp ho with ho | ho
      · exact h.tags o ho
      · rw [mem_singleton.mp ho]
        exact ⟨x, hpos, hmax, rfl⟩
    · by_cases hk : k = g
      · subst hk
        refine hhold.congr fun y => ?_
        rw [mem_append, mem_singleton, Prod.mk.injEq, tagOf_eq_iff]
        simp only [true_and]
      · rw [hoth k hk]
        refine (h.holds k).congr fun y => ?_
        rw [mem_append, mem_singleton, Prod.mk.injEq]
        simp only [hk, false_and, or_false]
    · have := h.avail k
      rw [hav, countP_append, countP_singleton]
      by_cases hk : k = g
      · subst hk
        simp only [if_true, decide_true]
        push_cast
        omega
      · simp only [if_neg hk, decide_eq_true_eq, if_neg (Ne.symm hk)]
        push_cast
        omega
  · simp only [hnone, if_true]
    exact ⟨h.nodup, h.tags, fun k => by rw [hveb]; exact h.holds k,
      fun k => by rw [hav]; exact h.avail k⟩

theorem tagpoolFree_tagOf (t : Tagpool) (hpos : 0 < x) (hlt : x < tagpoolCount g)
    (hM : x < (t.veb g).M) :
    tagpoolFree t (tagOf g x) = (t.setVeb g (vebput (t.veb g) x)).addAvail g 1 := by
  have hne : tagOf g x ≠ matchtagNone := (tagOf_pos hpos).ne'
  rw [tagpoolFree, if_pos hne]
  cases g with
  | false =>
    have hlow : x >>> groupShift = 0 := by
      rw [groupShift, Nat.shiftRight_eq_div_pow]
      exact Nat.div_eq_of_lt hlt
    simp only [tagOf, Bool.false_eq_true, if_false, hlow, gt_iff_lt, lt_irrefl]
    exact if_pos hM
  | true =>
    have hhigh : (x * 2 ^ 20) >>> groupShift = x := by
      rw [groupShift, Nat.shiftRight_eq_div_pow]
      exact Nat.mul_div_cancel x (by decide)
    simp only [tagOf, if_true, hhigh, gt_iff_lt, hpos]
    exact if_pos hM

theorem Sound.release (h : Sound s) (hperm : s.outstanding.Perm (o :: rest)) :
    Sound ⟨tagpoolFree s.pool o.2, rest⟩ := by
  obtain ⟨g, tag⟩ := o
  have hmem : (g, tag) ∈ s.outstanding := hperm.mem_iff.mpr (mem_cons_self ..)
  obtain ⟨x, hpos, hlt, rfl : tag = tagOf g x⟩ := h.tags _ hmem
  have hM : x < (s.pool.veb g).M := ((h.holds g).below x hmem).2
  have hnd : tagOf g x ∉ rest.map Prod.snd ∧ (rest.map Prod.snd).Nodup := by
    have := (hperm.map Prod.snd).nodup_iff.mp h.nodup
    rwa [map_cons, nodup_cons] at this
  have hnot : (g, tagOf g x) ∉ rest := fun hrest =>
    hnd.1 (List.mem_map_of_mem (f := Prod.snd) hrest)
  rw [tagpoolFree_tagOf _ hpos hlt hM]
  refine ⟨hnd.2, fun o ho => h.tags o (hperm.mem_iff.mpr (mem_cons_of_mem _ ho)),
    fun k => ?_, fun k => ?_⟩
  · rw [Tagpool.veb_addAvail, Tagpool.veb_setVeb]
    by_cases hk : k = g
    · subst hk
      rw [if_pos rfl]
      refine ((h.holds k).put hmem).congr fun y => ?_
      rw [hperm.mem_iff, mem_cons, Prod.mk.injEq, tagOf_eq_iff]
      by_cases hy : y = x
      · subst hy
        simp [hnot]
      · simp [hy]
    · rw [if_neg hk]
      refine (h.holds k).congr fun y => ?_
      rw [hperm.mem_iff, mem_cons, Prod.mk.injEq]
      simp only [hk, false_and, false_or]
  · have := h.avail k
    rw [hperm.countP_eq, countP_cons] at this
    change (Tagpool.addAvail _ g 1).avail k + (rest.countP _ : ℤ) = _
    rw [Tagpool.avail_addAvail, Tagpool.avail_setVeb]
    by_cases hk : k = g
    · subst hk
      simp only [decide_true, if_true] at this
      rw [if_pos rfl]
      push_cast at this
      omega
    · simp only [decide_eq_true_eq, if_neg (Ne.symm hk)] at this
      rw [if_neg hk]
      push_cast at this
      omega

theorem Sound.free (h : Sound s) (ht : Client.step (.free tag) s = some t) : Sound t := by
  simp only [Client.step, Option.ite_none_right_eq_some, List.any_eq_true,
    decide_eq_true_eq, Option.some.injEq] at ht
  obtain ⟨⟨o, ho, htag⟩, rfl⟩ := ht
  obtain ⟨a, l₁, l₂, -, ha, hspl, herase⟩ :=
    exists_of_eraseP (p := fun o => decide (o.2 = tag)) ho (by simpa using htag)
  obtain rfl : a.2 = tag := by simpa using ha
  rw [herase]
  exact h.release (hspl ▸ perm_middle)

theorem sound_create : Sound ⟨tagpoolCreate, []⟩ where
  nodup := nodup_nil
  tags := forall_mem_nil _
  holds g := by
    have htkn : ∀ x, (vebdel (vebnew tagpoolStart true) 0).mem x = false ↔ x = 0 ∨ False := by
      intro x
      by_cases hx : x = 0 <;> simp [vebdel, vebnew, hx]
    cases g with
    | false => exact ⟨⟨10, by decide⟩, by decide, fun x _ => (htkn x).trans (by simp), by simp⟩
    | true => exact ⟨⟨2, by decide⟩, by decide, fun x _ => (htkn x).trans (by simp), by simp⟩
  avail g := by cases g <;> rfl

theorem Sound.countP_le (h : Sound s) (g : Bool) :
    s.outstanding.countP (fun o => o.1 = g) ≤ tagpoolCount g - 1 := by
  have hnd : ((s.outstanding.filter fun o => o.1 = g).map Prod.snd).Nodup :=
    h.nodup.sublist (filter_sublist.map Prod.snd)
  have hsub : (s.outstanding.filter fun o => o.1 = g).map Prod.snd ⊆
      (range' 1 (tagpoolCount g - 1)).map (tagOf g) := by
    intro tag htag
    obtain ⟨⟨k, tag⟩, ho, rfl⟩ := List.mem_map.mp htag
    rw [mem_filter, decide_eq_true_eq] at ho
    obtain ⟨ho, rfl : k = g⟩ := ho
    obtain ⟨x, hpos, hlt, rfl : tag = tagOf k x⟩ := h.tags _ ho
    have hlt' : x < tagpoolCount k := hlt
    exact List.mem_map_of_mem (List.mem_range'_1.mpr ⟨hpos, by omega⟩)
  have hle := (subperm_of_subset hnd hsub).length_le
  rw [length_map, length_map, length_range'] at hle
  rwa [countP_eq_length_filter]

theorem Reachable.sound (hs : Reachable s) : Sound s := by
  refine Machine.Reach.invariant hs Sound (fun s h => h ▸ sound_create) ?_
  intro s l t _ h _ ht
  cases l with
  | alloc group => exact h.alloc ht
  | free tag => exact h.free ht
  | setGrowCb cb =>
    cases ht
    exact { h with }

/-- **Matchtags are unique and not lost.** In every state of a pool in use the tags that are out
are distinct; the regular ones are not 0 and below 2^20, those of groups are non-zero multiples
of 2^20; the numbers of tags available are the sizes less what is out; and an allocation fails
exactly if all tags of its kind are out. -/
theorem matchtags_unique {s : Client} (hs : Reachable s) : (s.outstanding.map Prod.snd).Nodup ∧
      (∀ tag, (false, tag) ∈ s.outstanding → tag ≠ 0 ∧ tag < 2 ^ 20) ∧
      (∀ tag, (true, tag) ∈ s.outstanding → tag ≠ 0 ∧ tag < 2 ^ 32 ∧ 2 ^ 20 ∣ tag) ∧
      (∀ group, tagpoolGetattr s.pool (.avail group) +
        s.outstanding.countP (fun o => o.1 = group) = tagpoolGetattr s.pool (.size group)) ∧
      ((tagpoolAlloc s.pool false).1 = matchtagNone ↔
        ∀ x, 0 < x → x < 2 ^ 20 → (false, x) ∈ s.outstanding) ∧
      ((tagpoolAlloc s.pool true).1 = matchtagNone ↔
        ∀ x, 0 < x → x < 2 ^ 12 → (true, x * 2 ^ 20) ∈ s.outstanding) := by
  have h := hs.sound
  have hnone : ∀ g, (tagpoolAlloc s.pool g).1 = matchtagNone ↔
      ∀ x, 0 < x → x < tagpoolCount g → (g, tagOf g x) ∈ s.outstanding := by
    intro g
    rcases h.tagpoolAlloc g with ⟨x, hpos, hlt, htag, hnew, -⟩ | ⟨hnone, hall, -⟩
    · refine iff_of_false ?_ fun hall => hnew (hall x hpos hlt)
      rw [htag]
      exact (tagOf_pos hpos).ne'
    · exact iff_of_true hnone hall
  refine ⟨h.nodup, fun tag ho => ?_, fun tag ho => ?_, fun group => ?_, hnone false, hnone true⟩
  · obtain ⟨x, hpos, hlt, rfl : tag = x⟩ := h.tags _ ho
    exact ⟨hpos.ne', hlt⟩
  · obtain ⟨x, hpos, hlt, rfl : tag = x * 2 ^ 20⟩ := h.tags _ ho
    have hlt' : x < 2 ^ 12 := hlt
    exact ⟨by omega, by omega, Nat.dvd_mul_left _ _⟩
  · have hav := h.avail group
    have hcnt : 0 < tagpoolCount group ∧ tagpoolCount group < 2 ^ 32 := by
      cases group <;> decide
    have hle := h.countP_le group
    have hmod : s.pool.avail group % 2 ^ 32 = s.pool.avail group :=
      Int.emod_eq_of_lt (by omega) (by omega)
    simp only [tagpoolGetattr, hmod]
    omega

/-- Two regular tags and one of a group are taken, and the first one is freed. -/
theorem matchtags_unique_three : ∃ s, Reachable s ∧ s.outstanding = [(false, 2), (true, 2 ^ 20)] ∧
      tagpoolGetattr s.pool (.avail false) + s.outstanding.countP (fun o => o.1 = false) =
        2 ^ 20 - 1 := by
  have hrun : (machine.run [.alloc false, .alloc false, .alloc true, .free 1]
      ⟨tagpoolCreate, []⟩).map Client.outstanding = some [(false, 2), (true, 2 ^ 20)] := by
    decide +kernel
  obtain ⟨s, hs, hout⟩ := Option.map_eq_some_iff.mp hrun
  have hrch : Reachable s := Machine.Reach.of_run (.start rfl) hs
  exact ⟨s, hrch, hout, (matchtags_unique hrch).2.2.2.1 false⟩

end FluxCore.Libflux.Matchtag
