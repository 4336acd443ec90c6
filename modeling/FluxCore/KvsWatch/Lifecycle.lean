import FluxCore.KvsWatch.Turns

/-!
# The Life of a Watcher

A watcher is finished by the first error that it is sent, a cancellation included, and is
destroyed when its last outstanding lookup has been answered. From these two facts about
single actions follows the termination protocol (`termination_protocol`).
-/

namespace FluxCore.KvsWatch

open List Function

variable {V : Type}

/-- An error ends the responses of a watcher. -/
def Terminated (responses : List (Response V)) : Prop :=
  ∀ i errnum, responses[i]? = some (.error errnum) → i + 1 = responses.length

/-- There is no error among the responses. -/
def Open (responses : List (Response V)) : Prop := ∀ errnum, .error errnum ∉ responses

theorem Open.append (h : Open rs) (h' : Open rs') : Open (rs ++ rs') := by
  intro errnum hmem
  rcases mem_append.1 hmem with hmem | hmem
  · exact h errnum hmem
  · exact h' errnum hmem

theorem Open.terminated_append (h : Open rs) (h' : Terminated rs') : Terminated (rs ++ rs') := by
  intro i errnum hi
  rw [List.getElem?_append] at hi
  split at hi
  · exact absurd (mem_of_getElem? hi) (h errnum)
  have := h' _ errnum hi
  rw [length_append]
  omega

theorem terminated_nil : Terminated ([] : List (Response V)) := by
  intro i errnum hi
  simp at hi

theorem terminated_singleton (r : Response V) : Terminated [r] := by
  intro i errnum hi
  have hlt := (List.getElem?_eq_some_iff.1 hi).1
  simp only [length_singleton] at hlt ⊢
  omega

/-- The responses of every watcher are terminated, and those of a watcher that is not finished
are open. -/
structure Closes (s : State V) : Prop where
  terminated : ∀ v, Terminated (s.sent v)
  unfinished : ∀ v w, s.watchers v = some w → w.finished = false → Open (s.sent v)

section Sent

variable {s t : State V}

theorem Closes.send (h : Closes s) (hsent : t.sent = Function.update s.sent i (s.sent i ++ rs))
    (hws : t.watchers = Function.update s.watchers i (some w'))
    (hterm : Terminated (s.sent i ++ rs)) (hopen : w'.finished = false → Open (s.sent i ++ rs)) :
    Closes t := by
  constructor
  case terminated =>
    intro v
    rw [hsent]
    by_cases hv : v = i
    · subst hv
      rw [update_self]
      exact hterm
    · rw [update_of_ne hv]
      exact h.terminated v
  case unfinished =>
    intro v w hw hunf
    rw [hsent]
    rw [hws] at hw
    rcases of_update_some hw with ⟨rfl, rfl⟩ | ⟨hv, hw⟩
    · rw [update_self]
      exact hopen hunf
    · rw [update_of_ne hv]
      exact h.unfinished v w hw hunf

theorem Closes.setWatcher (h : Closes s) (hsent : t.sent = s.sent)
    (hws : t.watchers = Function.update s.watchers i (some w'))
    (hopen : w'.finished = false → Open (s.sent i)) : Closes t := by
  have hsent' : t.sent = Function.update s.sent i (s.sent i ++ []) := by
    rw [hsent, append_nil, update_eq_self]
  refine h.send hsent' hws ?_ ?_
  · rw [append_nil]
    exact h.terminated i
  · rwa [append_nil]

theorem Closes.init : Closes ({} : State V) :=
  ⟨fun _ => terminated_nil, fun _ _ h => by cases h⟩

end Sent

variable [DecidableEq V]

/-- What a turn of the loop of `lookup_continuation` sends: nothing to a finished watcher, and
to another one at most one response, which finishes it if it is an error. -/
theorem handleReady_sent (i : ℕ) (initial : Bool) (reply : Reply V) (w : Watcher V) :
    (w.finished = true → (handleReady i initial reply w).sent = [] ∧
        (handleReady i initial reply w).after.finished = true) ∧
    (w.finished = false → Terminated (handleReady i initial reply w).sent ∧
        ((handleReady i initial reply w).after.finished = false →
          Open (handleReady i initial reply w).sent)) := by
  constructor
  · intro hfin
    unfold handleReady
    simp only [hfin, if_true]
    refine ⟨trivial, ?_⟩
    split
    · rfl
    · exact hfin
  · intro hunf
    have key : Terminated (handleLookupResponse initial reply w).2 ∧
        ((handleLookupResponse initial reply w).1.finished = false →
          Open (handleLookupResponse initial reply w).2) := by
      have herr : ∀ (w : Watcher V) (errnum : Errno), Terminated (w.errorRespond errnum).2 ∧
          ((w.errorRespond errnum).1.finished = false → Open (w.errorRespond errnum).2) := by
        intro w errnum
        refine ⟨?_, fun h => by cases h⟩
        unfold Watcher.errorRespond
        dsimp only
        split
        · exact terminated_nil
        · exact terminated_singleton _
      have hvl : ∀ (val : V) (rootseq : ℤ), Open [Response.value val rootseq] := by
        intro val rootseq errnum hmem
        simp at hmem
      have hnone : Open ([] : List (Response V)) := fun errnum hmem => by simp at hmem
      unfold handleLookupResponse
      split
      · cases reply with
        | value val rootseq => exact ⟨terminated_singleton _, fun _ => hvl val rootseq⟩
        | enoent rootseq =>
          dsimp only
          split
          · exact ⟨terminated_nil, fun _ => hnone⟩
          · exact herr _ _
        | error errnum => exact herr _ _
      · cases reply with
        | value val rootseq =>
          dsimp only [handleCompareResponse, handleNormalResponse]
          split_ifs
          · exact ⟨terminated_nil, fun _ => hnone⟩
          · exact ⟨terminated_nil, fun _ => hnone⟩
          · exact ⟨terminated_nil, fun _ => hnone⟩
          · exact ⟨terminated_singleton _, fun _ => hvl val rootseq⟩
          · exact ⟨terminated_singleton _, fun _ => hvl val rootseq⟩
        | enoent rootseq | error errnum => exact herr _ _
    unfold handleReady
    simp only [hunf, Bool.false_eq_true, if_false]
    refine ⟨key.1, fun h => ?_⟩
    split at h
    · cases h
    · exact key.2 h

variable {s t : State V}

theorem Closes.act (hwf : Wf s) (h : Closes s) (hact : Act s t) : Closes t := by
  cases hact with
  | refuse _ | answer _ _ _ | run _ | update _ _ _ _ | monitor _ | delete _ _ =>
    exact { h with }
  | add _ _ _ _ _ _ =>
    refine h.setWatcher rfl rfl fun _ errnum hmem => ?_
    rw [hwf.bounded.sent s.next le_rfl] at hmem
    cases hmem
  | @mark i w hw _ | @queue i w _ _ hw _ _ _ _ => exact h.setWatcher rfl rfl (h.unfinished i w hw)
  | @fail i w hw hunf errnum =>
    refine h.send rfl rfl ((h.unfinished i w hw hunf).terminated_append ?_)
      (fun hff => by cases hff)
    unfold Watcher.errorRespond
    dsimp only
    split
    · exact terminated_nil
    · exact terminated_singleton _
  | @pop i f fs w fut reply hw hl hf hrep =>
    obtain ⟨hdone, hgo⟩ := handleReady_sent i fut.initial reply { w with lookups := fs }
    refine h.send rfl rfl ?_ ?_
    · by_cases hfin : w.finished = true
      · rw [(hdone hfin).1, append_nil]
        exact h.terminated i
      · have hunf : w.finished = false := by simpa using hfin
        exact (h.unfinished i w hw hunf).terminated_append (hgo hunf).1
    · intro haft
      by_cases hfin : w.finished = true
      · rw [(hdone hfin).2] at haft
        cases haft
      · have hunf : w.finished = false := by simpa using hfin
        exact (h.unfinished i w hw hunf).append ((hgo hunf).2 haft)
  | @destroy i w n hw hn hfin hl =>
    rw [destroy_eq _ hl]
    exact ⟨h.terminated, fun v u hu => h.unfinished v u (of_update_none hu).2⟩

/-- **The termination protocol.** In every run, no destroyed object is used; the responses of
each watcher end with the first error, if there is one; each watcher is destroyed at most
once, when it has no lookups left; and the continuation of every future that exists would
be called with a watcher that exists and has not been destroyed. -/
theorem termination_protocol {x : Except Fault (State V)}
    (hx : machine.Reach (fun _ _ => True) Initial x) : x ≠ .error .useAfterFree ∧ ∀ s, x = .ok s →
        (∀ v i errnum, (s.sent v)[i]? = some (.error errnum) → i + 1 = (s.sent v).length) ∧
        (s.destroyed.map Prod.fst).Nodup ∧ (∀ d ∈ s.destroyed, d.2 = []) ∧
        ∀ f fut, s.futures f = some fut →
          (s.watchers fut.watcher).isSome ∧ fut.watcher ∉ s.destroyed.map Prod.fst := by
  have hstep : ∀ s t : State V, Wf s → Closes s → Act s t → Closes t :=
    fun _ _ hwf h hact => h.act hwf hact
  rcases reach_invariant Closes.init hstep hx with rfl | ⟨s, rfl, hwf, hclose⟩
  · exact ⟨by simp, fun s hs => by cases hs⟩
  refine ⟨by simp, fun s' hs => ?_⟩
  cases hs
  refine ⟨hclose.terminated, hwf.destroyed.once, hwf.destroyed.idle, fun f fut hf => ?_⟩
  obtain ⟨w, hw, -⟩ := hwf.queued.listed f fut hf
  refine ⟨by simp [hw], fun hmem => ?_⟩
  obtain ⟨d, hd, hdw⟩ := List.mem_map.1 hmem
  rw [← hdw, (hwf.destroyed.gone d hd).1] at hw
  cases hw

/-- A client watches the key `a`, gets its value, and cancels while the lookup of the next
commit is outstanding. -/
def cancelledWatch : List (Label ℕ) :=
  [.lookup "client" 1 ⟨roleOwner, 0⟩ "primary" "a" { watch := true },
    .getroot 0 (.ok (0, "root0", 0)), .reply 2 (.value 7 0), .continuation 2,
    .setroot "primary" 1 "root1" 0 ["a"], .cancel "client" 1, .reply 3 (.value 8 1),
    .continuation 3]

/-- The value is sent, then the error that answers the cancellation, and the watcher is
destroyed by the continuation of its last lookup. -/
theorem termination_protocol_cancelledWatch :
    ∃ x : Except Fault (State ℕ), machine.run cancelledWatch (.ok {}) = some x ∧
      (x.toOption.map fun s => (s.sent 1, s.destroyed, s.names))
        = some ([.value 7 0, .error .ENODATA], [(1, [])], []) ∧
      x ≠ .error .useAfterFree := by
  obtain ⟨x, hx⟩ : ∃ x, machine.run cancelledWatch (.ok {}) = some x := ⟨_, rfl⟩
  refine ⟨x, hx, ?_, (termination_protocol (Machine.Reach.of_run (.start rfl) hx)).1⟩
  obtain rfl := Option.some.inj hx
  decide +kernel

end FluxCore.KvsWatch
