import FluxCore.KvsWatch.Turns

/-!
# The Assertion of watcher_respond

`watcher_respond` asserts that there is a commit. This holds along a run exactly if no watchers
are stranded in it (`assertion_safe_iff`).
-/

namespace FluxCore.KvsWatch

variable {V : Type}

variable [DecidableEq V]

/-- **The assertion of `watcher_respond` holds** along a run exactly if no watchers are
stranded in it. -/
theorem assertion_safe_iff (ls : List (Label V)) :
    machine.AllSteps (fun _ _ y => y ≠ .error .assertion) ls (.ok {}) ↔
      machine.AllSteps (fun x l _ => ∀ s, x = .ok s → ¬ Stranded s l) ls (.ok {}) := by
  refine Machine.allSteps_congr (fun x => ∀ s, x = .ok s → Wf s ∧ Rest s) ?_ ?_ ls fun s hs => ?_
  · intro x l y hx hstep hy t ht
    obtain ⟨s, rfl, htn⟩ := step_cases hstep
    obtain ⟨hwf, hrest⟩ := hx s rfl
    subst ht
    obtain ⟨hbad, hgood⟩ := turn_rests hwf hrest htn
    obtain ⟨t', ht', hacts, hrest'⟩ := hgood fun hc => by cases hbad hc
    cases ht'
    exact ⟨hwf.acts hacts, hrest'⟩
  · intro x l y hx hstep
    obtain ⟨s, rfl, htn⟩ := step_cases hstep
    obtain ⟨hwf, hrest⟩ := hx s rfl
    obtain ⟨hbad, hgood⟩ := turn_rests hwf hrest htn
    constructor
    · intro hy s' hs
      cases hs
      exact fun hc => hy (hbad hc)
    · intro hno hy
      obtain ⟨t, ht, -⟩ := hgood (hno s rfl)
      rw [ht] at hy
      cases hy
  · cases hs
    exact ⟨Wf.init, Rest.init⟩

/-- Two clients watch a namespace that does not exist yet, the first of them with
`FLUX_KVS_WAITCREATE`. -/
def twoWatchers : List (Label ℕ) :=
  [.lookup "first" 1 ⟨roleOwner, 0⟩ "other" "a" { watch := true, waitcreate := true },
    .lookup "second" 1 ⟨roleOwner, 0⟩ "other" "a" { watch := true }, .getroot 0 (.error .ENOTSUP)]

/-- The reply that the namespace does not exist stops the module. -/
theorem stranded_watcher_fails_assertion :
    ∃ x : Except Fault (State ℕ), machine.run twoWatchers (.ok {}) = some x ∧
      x = .error .assertion :=
  ⟨_, rfl, rfl⟩

end FluxCore.KvsWatch
