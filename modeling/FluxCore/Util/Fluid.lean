import Mathlib.Data.List.Infix
import Mathlib.Tactic.Ring

/-!
# FLUIDs

The generator of `libutil/fluid.c`. A FLUID has the time since the generator was set up in
its upper 40 bits, the number of the generator in the next 14, and the number of the FLUID
within its millisecond in the last 10. When these are used up, the generator waits for the
next millisecond.
-/

namespace FluxCore.Fluid

open List

/-- `struct fluid_generator`. -/
structure Generator where
  id : ℕ
  epoch : ℕ
  seq : ℕ := 0
  lastDs : ℕ := 0

/-- `fluid_init`, at the clock reading `now`. -/
def fluidInit (now id : ℕ) : Option Generator :=
  if 2 ^ 14 ≤ id then none else some { id := id, epoch := now }

namespace Generator

/-- The generator after it has read the clock. -/
def tick (gen : Generator) (s : ℕ) : Generator :=
  if s = gen.lastDs then { gen with seq := (gen.seq + 1) % 2 ^ 16 }
  else { gen with seq := 0, lastDs := s }

/-- The time since the generator was set up, as an `uint64_t`. -/
def ts (gen : Generator) (s : ℕ) : ℕ := (s + 2 ^ 64 - gen.epoch) % 2 ^ 64

/-- The fields of a FLUID, put together. -/
def fluid (gen : Generator) (s : ℕ) : ℕ :=
  (gen.ts s <<< 24) % 2 ^ 64 ||| gen.id <<< 10 ||| gen.seq

end Generator

/-- `fluid_generate`: the result, the generator and the clock readings that are left. The
call is still waiting after the last of them. -/
def fluidGenerate (gen : Generator) : List ℕ → Option (Option ℕ × Generator × List ℕ)
  | [] => none
  | s :: times =>
    if 2 ^ 40 ≤ gen.ts s then some (none, gen.tick s, times)
    else if 2 ^ 10 ≤ (gen.tick s).seq then fluidGenerate (gen.tick s) times
    else some (some ((gen.tick s).fluid s), gen.tick s, times)

/-- The FLUIDs that a generator produces while it reads the given times. -/
def fluids (gen : Generator) : List ℕ → List ℕ
  | [] => []
  | s :: times =>
    if 2 ^ 40 ≤ gen.ts s ∨ 2 ^ 10 ≤ (gen.tick s).seq then fluids (gen.tick s) times
    else (gen.tick s).fluid s :: fluids (gen.tick s) times

/-- The FLUIDs are the results of one call of `fluid_generate` after another. -/
theorem fluids_eq (h : fluidGenerate gen times = some (x, gen', rest)) :
    fluids gen times = x.toList ++ fluids gen' rest := by
  induction times generalizing gen with
  | nil => cases h
  | cons s times ih =>
    rw [fluidGenerate] at h
    rw [fluids]
    split_ifs at h with hts hseq
    · cases h
      exact if_pos (.inl hts)
    · rw [if_pos (.inr hseq)]
      exact ih h
    · cases h
      exact if_neg (not_or.2 ⟨hts, hseq⟩)

/-! ### The order of the FLUIDs -/

/-- The clock as a generator sees it: it does not decrease, stays in the range of the 40 bits,
and shows the same time less than `2 ^ 16` times in a row. -/
structure Clock (epoch : ℕ) (times : List ℕ) : Prop where
  sorted : (epoch :: times).Pairwise (· ≤ ·)
  range : ∀ s ∈ times, s < epoch + 2 ^ 40
  changes : ∀ n s, replicate n s <:+: times → n < 2 ^ 16

/-- The FLUID of a time and a number within its millisecond. -/
def pack (g : Generator) (s seq : ℕ) : ℕ := (s - g.epoch) * 2 ^ 24 + g.id * 2 ^ 10 + seq

/-- The order of time and number. -/
def Later (s seq r seq' : ℕ) : Prop := s < r ∨ s = r ∧ seq < seq'

/-- The FLUID is later than what a generator has counted. -/
def Ahead (g : Generator) (x : ℕ) : Prop :=
  ∃ s seq, x = pack g s seq ∧ seq < 2 ^ 10 ∧ Later g.lastDs g.seq s seq

theorem fluid_eq {g : Generator} (hid : g.id < 2 ^ 14) (hseq : g.seq < 2 ^ 10) (hle : g.epoch ≤ s)
    (hlt : s < g.epoch + 2 ^ 40) : g.fluid s = pack g s g.seq := by
  have hts : g.ts s = s - g.epoch := by
    rw [Generator.ts]
    omega
  have hlow : g.id <<< 10 ||| g.seq = g.id * 2 ^ 10 + g.seq := by
    rw [← Nat.shiftLeft_add_eq_or_of_lt hseq, Nat.shiftLeft_eq]
  have hhigh : ((s - g.epoch) <<< 24) % 2 ^ 64 = (s - g.epoch) <<< 24 := by
    rw [Nat.shiftLeft_eq]
    omega
  rw [Generator.fluid, hts, hhigh, Nat.or_assoc, hlow,
    ← Nat.shiftLeft_add_eq_or_of_lt (by omega), Nat.shiftLeft_eq, pack, Nat.add_assoc]

/-- A reading of the clock moves a generator on. As many of the last readings as it has
counted are equal. -/
theorem tick_spec {g : Generator} (hcnt : replicate g.seq g.lastDs <:+ past)
    (hle : g.lastDs ≤ s) (hchanges : ∀ n, replicate n s <:+: past ++ [s] → n < 2 ^ 16) :
    pack (g.tick s) = pack g ∧ (g.tick s).lastDs = s ∧
      replicate (g.tick s).seq s <:+ past ++ [s] ∧ Later g.lastDs g.seq s (g.tick s).seq := by
  rw [Generator.tick]
  split_ifs with hs
  · obtain ⟨before, rfl⟩ := hcnt
    have hmore : replicate (g.seq + 1) s <:+ before ++ replicate g.seq g.lastDs ++ [s] :=
      ⟨before, by rw [replicate_succ', ← append_assoc, hs]⟩
    have hseq : (g.seq + 1) % 2 ^ 16 = g.seq + 1 := Nat.mod_eq_of_lt (hchanges _ hmore.isInfix)
    dsimp only
    rw [hseq]
    exact ⟨rfl, hs.symm, hmore, .inr ⟨hs.symm, Nat.lt_succ_self _⟩⟩
  · exact ⟨rfl, rfl, nil_suffix, .inl (lt_of_le_of_ne hle (Ne.symm hs))⟩

theorem tick_same (g : Generator) (s : ℕ) : (g.tick s).id = g.id ∧ (g.tick s).epoch = g.epoch := by
  rw [Generator.tick]
  split <;> exact ⟨rfl, rfl⟩

/-- **The FLUIDs of a generator increase** from what it has counted. -/
theorem fluids_increase {g : Generator} {p l : List ℕ} (hclock : Clock g.epoch (p ++ l))
    (hid : g.id < 2 ^ 14) (hcnt : replicate g.seq g.lastDs <:+ p)
    (hahead : ∀ s ∈ l, g.lastDs ≤ s) :
    (fluids g l).Pairwise (· < ·) ∧ ∀ x ∈ fluids g l, Ahead g x := by
  induction l generalizing g p with
  | nil => exact ⟨.nil, by simp [fluids]⟩
  | cons s l ih =>
    rw [append_cons] at hclock
    have hmem : s ∈ p ++ [s] ++ l := by simp
    obtain ⟨hep, hsrt⟩ := pairwise_cons.1 hclock.sorted
    obtain ⟨hid', hep'⟩ := tick_same g s
    obtain ⟨hpack, hlast, hcnt', hkey⟩ := tick_spec hcnt (hahead s (by simp))
      fun n h => hclock.changes n s (h.trans (prefix_append ..).isInfix)
    obtain ⟨hpair, habove⟩ := ih (g := g.tick s) (p := p ++ [s]) (hep' ▸ hclock) (hid' ▸ hid)
      (by rwa [hlast]) fun r hr => hlast.trans_le ((pairwise_append.1 hsrt).2.2 s (by simp) r hr)
    have hlat : ∀ x ∈ fluids (g.tick s) l, Ahead g x := by
      intro x hx
      obtain ⟨r, seq, hx, hseq, hlat⟩ := habove x hx
      rw [hlast] at hlat
      exact ⟨r, seq, hpack ▸ hx, hseq, by unfold Later at *; omega⟩
    rw [fluids]
    split_ifs with hcond
    · exact ⟨hpair, hlat⟩
    have hseq : (g.tick s).seq < 2 ^ 10 := not_le.1 fun h => hcond (.inr h)
    rw [fluid_eq (hid' ▸ hid) hseq (hep' ▸ hep s hmem) (hep' ▸ hclock.range s hmem)]
    refine ⟨pairwise_cons.2 ⟨fun x hx => ?_, hpair⟩,
      forall_mem_cons.2 ⟨⟨s, _, congrFun₂ hpack s _, hseq, hkey⟩, hlat⟩⟩
    obtain ⟨r, seq, rfl, -, hlat⟩ := habove x hx
    have hle := hep s hmem
    rw [hlast, Later] at hlat
    rw [pack, pack, hep']
    omega

/-- **FLUIDs are unique and increasing**: every generator produces increasing ones, and two
generators with different numbers never produce the same. -/
theorem fluids_unique {ι : Type} (epoch id : ι → ℕ) (gen : ι → Generator) (times : ι → List ℕ)
    (hinit : ∀ i, fluidInit (epoch i) (id i) = some (gen i)) (hid : Function.Injective id)
    (hclock : ∀ i, Clock (epoch i) (times i)) :
    (∀ i, (fluids (gen i) (times i)).Pairwise (· < ·)) ∧
      ∀ i j, i ≠ j → ∀ x ∈ fluids (gen i) (times i), x ∉ fluids (gen j) (times j) := by
  have hgen : ∀ i, id i < 2 ^ 14 ∧ gen i = { id := id i, epoch := epoch i } := by
    intro i
    have h := hinit i
    rw [fluidInit] at h
    split_ifs at h with hlt
    exact ⟨not_le.1 hlt, (Option.some.inj h).symm⟩
  have hall (i : ι) := fluids_increase (g := gen i) (p := []) (l := times i)
    ((hgen i).2 ▸ hclock i) ((hgen i).2 ▸ (hgen i).1) ((hgen i).2 ▸ nil_suffix)
    ((hgen i).2 ▸ fun _ _ => Nat.zero_le _)
  refine ⟨fun i => (hall i).1, fun i j hne x hi hj => hne (hid ?_)⟩
  obtain ⟨s, seq, hx, hseq, -⟩ := (hall i).2 x hi
  obtain ⟨r, seq', hx', hseq', -⟩ := (hall j).2 x hj
  have hi := (hgen i).1
  have hj := (hgen j).1
  rw [hx, (hgen i).2, (hgen j).2, pack, pack] at hx'
  dsimp only at hx'
  omega

/-- Two generators that read the same millisecond twice. -/
theorem fluids_unique_two : (fluids { id := 1, epoch := 5 } [7, 7, 8]).Pairwise (· < ·) := by
  refine (fluids_unique (fun _ => 5) (Fin.val (n := 2)) (fun i => { id := i, epoch := 5 })
    (fun _ => [7, 7, 8]) (fun i => if_neg (by omega)) (fun _ _ => Fin.ext)
    fun _ => ⟨?_, ?_, ?_⟩).1 1
  · decide
  · decide
  · intro n s h
    have hle : n ≤ 3 := by simpa using h.length_le
    omega

end FluxCore.Fluid
