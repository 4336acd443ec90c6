import FluxCore.Lib.Machine
import FluxCore.Util.Blobref

/-!
# Roots and Followers

A rank keeps for each namespace that it knows the reference and the sequence number of a
root. On a rank other than 0 the pair is changed by two kinds of messages: `kvs.setroot`
events, which the leader sends for each root it publishes and which arrive in order, and
responses to `kvs.getroot` requests, which the rank sends for a namespace that it does not
know (or that is being removed). Several requests may be outstanding, and a response
carries a root that the leader had published when the response was sent.

The machine of this file is one namespace on one such rank, together with the messages
that are in transit to it. `stored_seq_monotone_iff` says exactly when the stored sequence
number never decreases.
-/

namespace FluxCore.Kvs

open Option

/-- The part of `struct kvsroot` that names a root. -/
structure Root where
  ref : Blobref := ""
  seq : ℕ := 0
  remove : Bool := false
deriving DecidableEq, Repr

/-- `setroot`. -/
def setroot (root : Root) (rootref : Blobref) (rootseq : ℕ) : Root :=
  if rootseq = 0 ∨ root.seq < rootseq then { root with ref := rootref, seq := rootseq } else root

theorem seq_le_setroot (h : 0 < rootseq ∨ root.seq = 0) :
    root.seq ≤ (setroot root rootref rootseq).seq := by
  rw [setroot]
  split_ifs with hc
  · rcases hc with h0 | hlt
    · rcases h with h | h <;> omega
    · exact hlt.le
  · exact le_rfl

theorem setroot_zero_seq (root : Root) (rootref : Blobref) :
    (setroot root rootref 0).seq = 0 := by
  simp [setroot]

namespace Follower

/-- A reference and its sequence number, as messages carry them. -/
structure Announced where
  rootref : Blobref
  rootseq : ℕ
deriving DecidableEq, Repr

/-- The state: the roots the leader has published (the one with sequence number `n` at
position `n`), the root stored on this rank, the `kvs.setroot` events on their way, the
number of `kvs.getroot` requests that are not answered yet, and the responses on their
way. -/
structure State where
  published : List Blobref
  root : Option Root := none
  events : List Announced := []
  requests : ℕ := 0
  responses : List Announced := []
deriving DecidableEq, Repr

/-- What can happen to the namespace on this rank. -/
inductive Label
  | publish (rootref : Blobref)
  | getrootRequest
  | getrootRespond (rootseq : ℕ)
  | setrootEvent
  | getrootCompletion (i : ℕ)
  | startRootRemove
  | removeRoot
deriving DecidableEq, Repr

/-- `setroot_event_cb`: an event for an unknown namespace, or for one that is being
removed, changes nothing. -/
def setrootEventCb (root : Option Root) (a : Announced) : Option Root :=
  root.map fun root => if root.remove then root else setroot root a.rootref a.rootseq

/-- `getroot_completion`: the namespace is created if it is not known, and the root is
set unless it is being removed. -/
def getrootCompletion (root : Option Root) (a : Announced) : Root :=
  let root := root.getD {}
  if root.remove then root else setroot root a.rootref a.rootseq

/-- The machine. -/
def machine : Machine State Label where
  step
    | .publish rootref, s =>
      some { s with published := s.published ++ [rootref],
                    events := s.events ++ [⟨rootref, s.published.length⟩] }
    | .getrootRequest, s =>
      match s.root with
      | some root => if root.remove then some { s with requests := s.requests + 1 } else none
      | none => some { s with requests := s.requests + 1 }
    | .getrootRespond rootseq, s =>
      match s.requests, s.published[rootseq]? with
      | n + 1, some rootref =>
        some { s with requests := n, responses := s.responses ++ [⟨rootref, rootseq⟩] }
      | _, _ => none
    | .setrootEvent, s =>
      match s.events with
      | a :: events => some { s with root := setrootEventCb s.root a, events := events }
      | [] => none
    | .getrootCompletion i, s =>
      (s.responses[i]?).map fun a =>
        { s with root := some (getrootCompletion s.root a), responses := s.responses.eraseIdx i }
    | .startRootRemove, s =>
      s.root.map fun root => { s with root := some { root with remove := true } }
    | .removeRoot, s =>
      match s.root with
      | some root => if root.remove then some { s with root := none } else none
      | none => none

/-- Initially the leader has published the initial root and the rank knows nothing. -/
def State.Init (s : State) : Prop := ∃ rootref, s = { published := [rootref] }

/-- The stored sequence number does not decrease in a step over which the namespace stays
known. -/
def SeqMonotone (s : State) (_ : Label) (t : State) : Prop :=
  ∀ root root', s.root = some root → t.root = some root' → root.seq ≤ root'.seq

/-- The step delivers a `kvs.getroot` response with the initial root to a rank that
stores a later one. -/
def DeliversStaleInitial (s : State) (l : Label) : Prop :=
  ∃ i a root, l = .getrootCompletion i ∧ s.responses[i]? = some a ∧ a.rootseq = 0 ∧
    s.root = some root ∧ root.remove = false ∧ 0 < root.seq

/-- Events carry positive sequence numbers. -/
def State.Inv (s : State) : Prop :=
  0 < s.published.length ∧ ∀ a ∈ s.events, 0 < a.rootseq

theorem State.Init.inv {s : State} (h : s.Init) : s.Inv := by
  obtain ⟨rootref, rfl⟩ := h
  exact ⟨Nat.one_pos, by simp⟩

theorem State.Inv.step (h : s.Inv) (ht : machine.step l s = some t) : t.Inv := by
  obtain ⟨hpub, hev⟩ := h
  cases l with
  | publish rootref =>
    cases ht
    refine ⟨by simp, fun a ha => ?_⟩
    rcases List.mem_append.1 ha with ha | ha
    · exact hev a ha
    · rw [List.mem_singleton.1 ha]
      exact hpub
  | getrootRequest =>
    simp only [machine] at ht
    split at ht
    · split at ht
      · cases ht
        exact ⟨hpub, hev⟩
      · cases ht
    · cases ht
      exact ⟨hpub, hev⟩
  | getrootRespond rootseq =>
    simp only [machine] at ht
    split at ht
    · cases ht
      exact ⟨hpub, hev⟩
    · cases ht
  | setrootEvent =>
    simp only [machine] at ht
    split at ht
    · rename_i a events he
      cases ht
      exact ⟨hpub, fun b hb => hev b (by rw [he]; exact List.mem_cons_of_mem _ hb)⟩
    · cases ht
  | getrootCompletion i =>
    obtain ⟨a, -, rfl⟩ := map_eq_some_iff.1 ht
    exact ⟨hpub, hev⟩
  | startRootRemove =>
    obtain ⟨root, -, rfl⟩ := map_eq_some_iff.1 ht
    exact ⟨hpub, hev⟩
  | removeRoot =>
    simp only [machine] at ht
    split at ht
    · split at ht
      · cases ht
        exact ⟨hpub, hev⟩
      · cases ht
    · cases ht

/-- A delivered response takes the stored root back exactly if it is a stale initial
root. -/
theorem getrootCompletion_seq_iff (root : Root) (a : Announced) :
    root.seq ≤ (getrootCompletion (some root) a).seq ↔
      ¬ (a.rootseq = 0 ∧ root.remove = false ∧ 0 < root.seq) := by
  simp only [getrootCompletion, getD_some]
  cases hr : root.remove with
  | true => simp
  | false =>
    by_cases h0 : a.rootseq = 0
    · simp [h0, setroot_zero_seq]
    have : root.seq ≤ (setroot root a.rootref a.rootseq).seq :=
      seq_le_setroot (.inl (Nat.pos_of_ne_zero h0))
    simp [h0, this]

/-- One step takes the stored sequence number back exactly if it delivers a stale initial
root. -/
theorem seqMonotone_iff (h : s.Inv) (ht : machine.step l s = some t) :
    SeqMonotone s l t ↔ ¬ DeliversStaleInitial s l := by
  have unchanged (hroot : t.root = s.root) : SeqMonotone s l t := by
    intro root root' hr hr'
    rw [hroot, hr] at hr'
    cases hr'
    exact le_rfl
  cases l with
  | publish rootref =>
    cases ht
    simp [DeliversStaleInitial, unchanged rfl]
  | getrootRequest =>
    simp only [machine] at ht
    have : t.root = s.root := by
      split at ht
      · split at ht
        · cases ht
          rfl
        · cases ht
      · cases ht
        rfl
    simp [DeliversStaleInitial, unchanged this]
  | getrootRespond rootseq =>
    simp only [machine] at ht
    split at ht
    · cases ht
      simp [DeliversStaleInitial, unchanged rfl]
    · cases ht
  | setrootEvent =>
    simp only [machine] at ht
    split at ht
    · rename_i a events he
      cases ht
      have hpos : 0 < a.rootseq := h.2 a (by rw [he]; exact List.mem_cons_self)
      simp only [DeliversStaleInitial, reduceCtorEq, false_and, exists_false, not_false_eq_true,
        iff_true]
      intro root root' hr hr'
      simp only [setrootEventCb, hr, map_some, some.injEq] at hr'
      subst hr'
      split_ifs
      · exact le_rfl
      · exact seq_le_setroot (.inl hpos)
    · cases ht
  | getrootCompletion i =>
    obtain ⟨a, ha, rfl⟩ := map_eq_some_iff.1 ht
    constructor
    · rintro hm ⟨j, b, root, hj, hb, h0, hr, hrem, hpos⟩
      cases hj
      rw [ha] at hb
      cases hb
      have hle := hm root _ hr rfl
      rw [hr] at hle
      exact (getrootCompletion_seq_iff root a).1 hle ⟨h0, hrem, hpos⟩
    · intro hns root root' hr hr'
      cases hr'
      rw [hr]
      refine (getrootCompletion_seq_iff root a).2 fun hc => hns ?_
      exact ⟨i, a, root, rfl, ha, hc.1, hr, hc.2.1, hc.2.2⟩
  | startRootRemove =>
    obtain ⟨root, hr, rfl⟩ := map_eq_some_iff.1 ht
    have : SeqMonotone s .startRootRemove
        { s with root := some { root with remove := true } } := by
      intro r r' hr1 hr2
      rw [hr] at hr1
      cases hr1
      cases hr2
      exact le_rfl
    simp [DeliversStaleInitial, this]
  | removeRoot =>
    simp only [machine] at ht
    split at ht
    · split at ht
      · cases ht
        simp [DeliversStaleInitial, SeqMonotone]
      · cases ht
    · cases ht

/-- **A follower goes back in time exactly through stale initial roots:** along every run
the stored sequence number never decreases while the namespace stays known if and only if
no `kvs.getroot` response that carries sequence number 0 is delivered while a later root
is stored. -/
theorem stored_seq_monotone_iff {s : State} (hs : s.Init) (ls : List Label) :
    machine.AllSteps SeqMonotone ls s ↔
      machine.AllSteps (fun s l _ => ¬ DeliversStaleInitial s l) ls s :=
  Machine.allSteps_congr State.Inv (fun _ _ _ h ht _ => h.step ht)
    (fun _ _ _ h ht => seqMonotone_iff h ht) ls hs.inv

/-- A rank that learns the namespace, follows it to the next root and receives no further
response keeps its sequence number. -/
theorem stored_seq_monotone_learning : machine.AllSteps SeqMonotone
      [.getrootRequest, .getrootRespond 0, .getrootCompletion 0, .publish "sha1-1",
        .setrootEvent] { published := ["sha1-0"] } := by
  refine (stored_seq_monotone_iff ⟨"sha1-0", rfl⟩ _).2 ?_
  intro s1 h1
  cases h1
  refine ⟨by simp [DeliversStaleInitial], fun s2 h2 => ?_⟩
  cases h2
  refine ⟨by simp [DeliversStaleInitial], fun s3 h3 => ?_⟩
  cases h3
  refine ⟨by simp [DeliversStaleInitial], fun s4 h4 => ?_⟩
  cases h4
  refine ⟨by simp [DeliversStaleInitial], fun s5 h5 => ?_⟩
  cases h5
  exact ⟨by simp [DeliversStaleInitial], trivial⟩

/-- Two requests are sent while the namespace is unknown and both are answered with the
initial root. The first response makes the namespace known and the event for the next
root follows; the second response then takes the rank back to the initial root. -/
theorem late_getroot_response_goes_back : ¬ machine.AllSteps SeqMonotone
      [.getrootRequest, .getrootRequest, .getrootRespond 0, .getrootRespond 0,
        .getrootCompletion 0, .publish "sha1-1", .setrootEvent, .getrootCompletion 0]
      { published := ["sha1-0"] } := by
  intro h
  obtain ⟨-, h⟩ := h _ rfl
  obtain ⟨-, h⟩ := h _ rfl
  obtain ⟨-, h⟩ := h _ rfl
  obtain ⟨-, h⟩ := h _ rfl
  obtain ⟨-, h⟩ := h _ rfl
  obtain ⟨-, h⟩ := h _ rfl
  obtain ⟨-, h⟩ := h _ rfl
  obtain ⟨hm, -⟩ := h _ rfl
  have hle := hm { ref := "sha1-1", seq := 1 } { ref := "sha1-0", seq := 0 } (by decide) (by decide)
  exact absurd hle (by decide)

/-! ### Followers agree with the leader -/

/-- The root with this reference has been published under this sequence number. -/
def State.Published (s : State) (rootref : Blobref) (rootseq : ℕ) : Prop :=
  s.published[rootseq]? = some rootref

/-- What is on its way to the rank, or stored there, has been published. -/
structure State.Agrees (s : State) : Prop where
  events : ∀ a ∈ s.events, s.Published a.rootref a.rootseq
  responses : ∀ a ∈ s.responses, s.Published a.rootref a.rootseq
  root : ∀ root ∈ s.root, s.Published root.ref root.seq

theorem setroot_cases (root : Root) (rootref : Blobref) (rootseq : ℕ) :
    setroot root rootref rootseq = root ∨
      setroot root rootref rootseq = { root with ref := rootref, seq := rootseq } := by
  rw [setroot]
  split_ifs <;> simp

theorem State.Agrees.setrootEventCb {s : State} (h : s.Agrees)
    (ha : s.Published a.rootref a.rootseq) :
    ∀ root ∈ Follower.setrootEventCb s.root a, s.Published root.ref root.seq := by
  intro root hr
  obtain ⟨old, hold, rfl⟩ := map_eq_some_iff.1 hr
  split_ifs
  · exact h.root old hold
  · rcases setroot_cases old a.rootref a.rootseq with he | he <;> rw [he]
    · exact h.root old hold
    · exact ha

/-- A namespace that `getroot_completion` creates takes the root of the response, whatever
its sequence number is. -/
theorem State.Agrees.getrootCompletion {s : State} (h : s.Agrees)
    (ha : s.Published a.rootref a.rootseq) :
    s.Published (Follower.getrootCompletion s.root a).ref
      (Follower.getrootCompletion s.root a).seq := by
  cases hroot : s.root with
  | some old => exact h.setrootEventCb ha _ (by rw [hroot]; rfl)
  | none => simpa [Follower.getrootCompletion, setroot, Nat.eq_zero_or_pos] using ha

theorem State.Agrees.step {s t : State} (h : s.Agrees) (ht : machine.step l s = some t) :
    t.Agrees := by
  cases l with
  | publish rootref =>
    cases ht
    have hkeep : ∀ r n, s.Published r n → (s.published ++ [rootref])[n]? = some r := by
      intro r n hp
      rw [List.getElem?_append_left (List.getElem?_eq_some_iff.1 hp).1, hp]
    refine ⟨fun a ha => ?_, fun a ha => hkeep _ _ (h.responses a ha),
      fun r hr => hkeep _ _ (h.root r hr)⟩
    rcases List.mem_append.1 ha with ha | ha
    · exact hkeep _ _ (h.events a ha)
    · rw [List.mem_singleton.1 ha]
      exact List.getElem?_concat_length
  | getrootRequest =>
    simp only [machine] at ht
    split at ht
    · split at ht
      · cases ht
        exact ⟨h.events, h.responses, h.root⟩
      · cases ht
    · cases ht
      exact ⟨h.events, h.responses, h.root⟩
  | getrootRespond rootseq =>
    simp only [machine] at ht
    split at ht
    · rename_i hp
      cases ht
      refine ⟨h.events, fun a ha => ?_, h.root⟩
      rcases List.mem_append.1 ha with ha | ha
      · exact h.responses a ha
      · rw [List.mem_singleton.1 ha]
        exact hp
    · cases ht
  | setrootEvent =>
    simp only [machine] at ht
    split at ht
    · rename_i a events he
      cases ht
      have hev := h.events
      rw [he, List.forall_mem_cons] at hev
      exact ⟨hev.2, h.responses, h.setrootEventCb hev.1⟩
    · cases ht
  | getrootCompletion i =>
    obtain ⟨a, ha, rfl⟩ := map_eq_some_iff.1 ht
    refine ⟨h.events, fun b hb => h.responses b (List.mem_of_mem_eraseIdx hb), fun r hr => ?_⟩
    cases hr
    exact h.getrootCompletion (h.responses a (List.mem_of_getElem? ha))
  | startRootRemove =>
    obtain ⟨root, hr, rfl⟩ := map_eq_some_iff.1 ht
    refine ⟨h.events, h.responses, fun r hr' => ?_⟩
    cases hr'
    exact h.root root hr
  | removeRoot =>
    simp only [machine] at ht
    split at ht
    · split at ht
      · cases ht
        exact ⟨h.events, h.responses, fun r hr => nomatch hr⟩
      · cases ht
    · cases ht

end Follower

end FluxCore.Kvs
