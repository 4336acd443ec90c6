import FluxCore.Barriers.Slots

/-!
# Barriers Separate Generations

A client that enters a barrier for the `g`-th time takes part in its generation `g`. A rank other
than 0 whose count reaches `nprocs` sends an exit event, but keeps the count, and if its timer
fires before the event has come back the count is passed upstream as well. There it completes
the barrier once more: a second exit event is published, and it may end the next generation
before all clients have entered. As long as no timer fires in this situation, each exit event
belongs to one generation, which all clients have entered.
-/

namespace FluxCore.Barriers

open List Option Function

section

variable {N : Type} {top : Broker.Topology} {users : Users N top}

/-- No timer fires on a rank where a count has terminated a barrier. -/
def Unspent (s : System N) (l : Label N) : Prop :=
  match l with
  | .timer r => ∀ n b, ((s.slot n).net.node r).barrier = some b → b.count ≠ b.nprocs
  | _ => True

/-- How many exit events for success were published. -/
def Slot.successes (s : Slot) : ℕ := s.published.count 0

/-- A barrier at rest: nothing is on its way, and no timer is armed. -/
structure AtRest (armed : ℕ → Bool) (s : Slot) : Prop where
  flight : s.net.flight = []
  rising : s.rising = []
  inbox : ∀ r, (s.net.node r).inbox = []
  armed : ∀ r, armed r = false

variable (users) in
/-- The generations of every barrier are separated: a client has been answered for a generation
only if all clients have entered it; there are no more exit events than generations that all
clients have entered, and no client is ahead of them by more than one; and at rest, if all
clients have entered as many generations, each of these has its exit event. -/
structure Separated (s : System N) : Prop where
  answered : ∀ n, ∀ c ∈ users.members n, ∀ d ∈ users.members n,
    (s.slot n).answered c ≤ (s.slot n).entered d
  successes : ∀ n, ∀ c ∈ users.members n, (s.slot n).successes ≤ (s.slot n).entered c ∧
    (s.slot n).entered c ≤ (s.slot n).successes + 1
  complete : ∀ n, AtRest s.armed (s.slot n) → ∀ c ∈ users.members n,
    (∀ d ∈ users.members n, (s.slot n).entered d = (s.slot n).entered c) →
      (s.slot n).successes = (s.slot n).entered c

variable (users) in
/-- What holds of all barriers in every state. -/
structure AllSound (s : System N) : Prop where
  root : s.armed 0 = false
  slot : ∀ n, Sound top (users.members n) users.rank s.armed (s.slot n)

theorem allSound_start (users : Users N top) : AllSound users {} := by
  refine ⟨rfl, fun n => ⟨⟨rfl, fun _ _ => rfl⟩, ⟨?_, ?_, ?_, ?_, rfl⟩, ⟨fun r c => ?_,
    fun _ => nodup_nil, fun _ _ => rfl, fun _ _ => .inl rfl⟩, ⟨fun r _ => ?_, ?_, ?_,
    fun _ _ => Nat.zero_le _⟩⟩⟩
  · exact forall_mem_nil _
  · exact forall_mem_nil _
  · exact fun _ => forall_mem_nil _
  · exact fun _ _ he => absurd he not_mem_nil
  · refine iff_of_false not_mem_nil ?_
    rintro ⟨-, -, hin⟩
    cases hin
  · exact ⟨fun b hb => (nomatch hb), fun _ hreq => absurd hreq not_mem_nil,
      fun hne => absurd rfl hne, fun b hb => (nomatch hb), fun pre req post heq =>
        absurd heq.symm (append_ne_nil_of_right_ne_nil _ (cons_ne_nil _ _))⟩
  · exact forall_mem_nil _
  · simp [Slot.total, Net.total, Module.held, unspent, Slot.sent]

/-! ### One step -/

theorem armed_enterRequestCb (r : ℕ) (armed : Bool) (barrier : Option Barrier)
    (sender : Option ℕ) (req : Enter) :
    (enterRequestCb r armed barrier sender req).armed = armed ∨
      (enterRequestCb r armed barrier sender req).armed = (armed || decide (r > 0)) := by
  have hadd : ∀ b count, (addCount r armed b count).armed = armed ∨
      (addCount r armed b count).armed = (armed || decide (r > 0)) := by
    intro b count
    rw [addCount]
    split
    · exact .inl rfl
    · exact .inr rfl
  cases sender with
  | none => exact hadd _ _
  | some client =>
    simp only [enterRequestCb]
    split
    · exact .inl rfl
    · exact hadd _ _

theorem Sound.handle (h : Sound top members rank armed s) (hsize : r < top.size)
    (hst : s.handle r (armed r) = some res) :
    Sound top members rank (Function.update armed r res.2) res.1 ∧
      (res.2 = armed r ∨ res.2 = (armed r || decide (r > 0))) := by
  rw [Slot.handle] at hst
  split at hst
  · cases hst
  · rename_i req rest hib
    obtain rfl := some.inj hst
    exact ⟨h.handleEnter hsize hib rfl, armed_enterRequestCb ..⟩
  rename_i e rest hib
  obtain rfl := some.inj hst
  refine ⟨?_, .inl rfl⟩
  rw [update_eq_self]
  exact h.exit hsize hib rfl

variable [DecidableEq N]

theorem AllSound.set (h : AllSound users s)
    (hslot : Sound top (users.members n) users.rank (Function.update s.armed r res.2) res.1)
    (harm : res.2 = s.armed r ∨ res.2 = (s.armed r || decide (r > 0))) :
    AllSound users (s.set n r res) := by
  have hmono : ∀ q, s.armed q = true → Function.update s.armed r res.2 q = true := by
    intro q hq
    by_cases hqr : q = r
    · subst hqr
      rw [update_self]
      rcases harm with heq | heq <;> simp [heq, hq]
    · rwa [update_of_ne hqr]
  refine ⟨?_, fun n' => ?_⟩
  · change Function.update s.armed r res.2 0 = false
    by_cases hr : 0 = r
    · subst hr
      rw [update_self]
      rcases harm with heq | heq <;> simp [heq, h.root]
    · rw [update_of_ne hr]
      exact h.root
  · by_cases hn : n' = n
    · subst hn
      simp only [System.set, update_self]
      exact hslot
    · simp only [System.set, update_of_ne hn]
      exact (h.slot n').mono hmono

theorem AllSound.setSlot {s : System N} (h : AllSound users s) {n : N} {slot : Slot}
    (hslot : Sound top (users.members n) users.rank s.armed slot) :
    AllSound users (s.setSlot n slot) := by
  refine ⟨h.root, fun n' => ?_⟩
  by_cases hn : n' = n
  · subst hn
    simp only [System.setSlot, update_self]
    exact hslot
  · simp only [System.setSlot, update_of_ne hn]
    exact h.slot n'

/-- **One step** keeps the barriers sound, if no timer fires where a count has terminated a
barrier. -/
theorem allSound_step (h : AllSound users s) (hl : Unspent s l)
    (hst : (machine users).step l s = some t) : AllSound users t := by
  cases l with
  | enter n c =>
    obtain ⟨⟨hc, hidle⟩, heq⟩ := ite_none_right_eq_some.1 hst
    obtain rfl := some.inj heq
    exact h.set ((h.slot n).enter hc rfl (users.rank_lt n c hc) hidle)
      (armed_enterRequestCb ..)
  | timer r =>
    obtain ⟨⟨hsize, harm⟩, heq⟩ := ite_none_right_eq_some.1 hst
    obtain rfl := some.inj heq
    have hr : r ≠ 0 := by
      rintro rfl
      rw [h.root] at harm
      cases harm
    refine ⟨?_, fun n => (h.slot n).timeout hr hsize (hl n)⟩
    change Function.update s.armed r false 0 = false
    rw [update_of_ne hr.symm]
    exact h.root
  | arrive n k =>
    obtain ⟨slot, hslot, rfl⟩ := map_eq_some_iff.1 hst
    exact h.setSlot ((h.slot n).arrive hslot)
  | publish n k =>
    obtain ⟨slot, hslot, rfl⟩ := map_eq_some_iff.1 hst
    exact h.setSlot ((h.slot n).publish users.size_pos hslot)
  | relay n r =>
    obtain ⟨⟨hr, hsize⟩, heq⟩ := ite_none_right_eq_some.1 hst
    obtain ⟨slot, hslot, rfl⟩ := map_eq_some_iff.1 heq
    exact h.setSlot ((h.slot n).relay hr hsize hslot)
  | handle n r =>
    obtain ⟨hsize, heq⟩ := ite_none_right_eq_some.1 hst
    obtain ⟨res, hres, rfl⟩ := map_eq_some_iff.1 heq
    obtain ⟨hslot, harm⟩ := (h.slot n).handle hsize hres
    exact h.set hslot harm

/-! ### Every run -/

theorem Sound.successes_eq (h : Sound top members rank armed s) :
    s.successes = s.published.length := by
  rw [Slot.successes, count_eq_length]
  exact fun e he => (h.clean.published e he).symm

/-- At rest all counts that have not terminated the barrier are on rank 0, where they are not
complete. -/
theorem Sound.total_ne_card (h : Sound top members rank armed s) (hrest : AtRest armed s)
    (hsize : 0 < top.size) (hpos : 0 < members.card) : s.total top ≠ members.card := by
  have hheld : ∀ r, (s.net.node r).held = unspent (s.net.node r).barrier := by
    intro r
    rw [Module.held, hrest.inbox r]
    rfl
  have helse : ∀ r ∈ Finset.range top.size, r ≠ 0 → (s.net.node r).held = 0 := by
    intro r hr hr0
    rw [hheld]
    by_contra huns
    have harm := ((h.counts.ok r (Finset.mem_range.1 hr)).current huns).2 hr0
    rw [hrest.armed r] at harm
    cases harm
  have htot : s.total top = unspent (s.net.node 0).barrier := by
    rw [Slot.total, Net.total, hrest.flight,
      Finset.sum_eq_single_of_mem 0 (Finset.mem_range.2 hsize) helse, hheld]
    rfl
  rw [htot]
  cases hb : (s.net.node 0).barrier with
  | none => exact hpos.ne
  | some b =>
    have hn := ((h.counts.ok 0 hsize).nprocs b hb).1
    change (if b.count = b.nprocs then 0 else b.count) ≠ members.card
    split
    · exact hpos.ne
    · rwa [← hn]

/-- **Barriers separate generations**, in every run in which no timer fires on a rank where a
count has terminated a barrier. -/
theorem separates_generations {s : System N}
    (hs : (machine users).Reach Unspent (· = {}) s) : Separated users s := by
  have h : AllSound users s := by
    refine hs.invariant (AllSound users) ?_ fun s l t _ h hl hst => allSound_step h hl hst
    rintro _ rfl
    exact allSound_start users
  have hhd : ∀ n r, ((s.slot n).net.node r).handled ≤ (s.slot n).published.length :=
    fun n r => (Nat.le_add_right ..).trans ((h.slot n).flow.through_le r)
  refine ⟨fun n c hc d hd => ?_, fun n c hc => ?_, fun n hrest c hc hall => ?_⟩
  · have hansd := (h.slot n).clients.answered c hc
    have hsent := (h.slot n).counts.sent_le d hd
    have hle := hhd n (users.rank c)
    rw [Slot.sent] at hsent
    omega
  · have hansd := (h.slot n).clients.answered c hc
    have hin := (h.slot n).clients.entered c hc
    have hsent := (h.slot n).counts.sent_le c hc
    have hle := hhd n (users.rank c)
    rw [Slot.sent] at hsent
    rw [(h.slot n).successes_eq]
    omega
  · have hsent : (s.slot n).sent = (s.slot n).published.length := by
      rw [Slot.sent, hrest.rising]
      rfl
    have hbel := (h.slot n).counts.sent_le c hc
    have habove := entered_le (h.slot n).flow (h.slot n).clients hc
    have hne := (h.slot n).total_ne_card hrest users.size_pos (Finset.card_pos.2 ⟨c, hc⟩)
    have htot := (h.slot n).counts.total
    rw [Finset.sum_const_nat hall] at htot
    rw [(h.slot n).successes_eq, ← hsent]
    by_contra hlate
    have hnext : (s.slot n).entered c = (s.slot n).sent + 1 := by omega
    rw [hnext, Nat.mul_succ] at htot
    omega

end

/-! ### A timer that fires too late -/

/-- Two ranks. -/
def twoRanks : Broker.Topology where
  size := 2
  parent _ := 0
  parent_lt _ hi := Nat.pos_of_ne_zero hi

/-- Two clients of one barrier, both on rank 1. -/
def together : Users Unit twoRanks where
  members _ := {0, 1}
  rank _ := 1
  rank_lt _ _ _ := Nat.one_lt_two
  size_pos := Nat.zero_lt_two

/-- Both clients enter, and the second completes the barrier on rank 1. The timer that the first
has armed fires before the exit event has come back, and rank 0 sends a second one. When it comes
to rank 1, the first client has entered again. -/
def lateTimer : List (Label Unit) :=
  [.enter () 0, .enter () 1, .timer 1, .publish () 0, .handle () 0, .arrive () 0, .handle () 0,
    .publish () 0, .relay () 1, .handle () 1, .enter () 0, .relay () 1, .handle () 1]

/-- The exit events published, and how often the two clients have entered and were answered. -/
def Slot.summary (s : Slot) : List ℕ × ℕ × ℕ × ℕ × ℕ :=
  (s.published, s.entered 0, s.answered 0, s.entered 1, s.answered 1)

/-- **A generation can end early:** two exit events are published for the first generation, and a
client is answered for the second one, which the other has not entered. -/
theorem second_exit_event : ∃ s, (machine together).run lateTimer {} = some s ∧
      (s.slot ()).summary = ([0, 0], 2, 2, 1, 1) ∧ ¬ Separated together s := by
  have hrun : ((machine together).run lateTimer {}).map (fun s => (s.slot ()).summary)
      = some ([0, 0], 2, 2, 1, 1) := by
    decide
  obtain ⟨s, hs, hsum⟩ := map_eq_some_iff.1 hrun
  refine ⟨s, hs, hsum, fun hsep => ?_⟩
  have hansd : (s.slot ()).answered 0 = 2 := congrArg (·.2.2.1) hsum
  have hin : (s.slot ()).entered 1 = 1 := congrArg (·.2.2.2.1) hsum
  have hle := hsep.answered () 0 (by decide) 1 (by decide)
  omega

/-- One client on each rank. -/
def apart : Users Unit twoRanks where
  members _ := {0, 1}
  rank c := if c = 0 then 1 else 0
  rank_lt _ c _ := by split <;> decide
  size_pos := Nat.zero_lt_two

/-- The count of rank 1 is passed upstream, and the barrier is completed on rank 0. -/
def passedOn : List (Label Unit) :=
  [.enter () 0, .timer 1, .arrive () 0, .handle () 0, .enter () 1, .publish () 0, .handle () 0,
    .relay () 1, .handle () 1]

/-- Does a timer not fire where a count has terminated the barrier? -/
def checkUnspent (s : System Unit) (l : Label Unit) : Bool :=
  match l with
  | .timer r => ((s.slot ()).net.node r).barrier.all fun b => b.count ≠ b.nprocs
  | _ => true

theorem separates_generations_passedOn :
    ∃ s, (machine apart).runGuarded checkUnspent passedOn {} = some s ∧
      (s.slot ()).summary = ([0], 1, 1, 1, 1) ∧ Separated apart s := by
  have hrun : ((machine apart).runGuarded checkUnspent passedOn {}).map
      (fun s => (s.slot ()).summary) = some ([0], 1, 1, 1, 1) := by
    decide
  obtain ⟨s, hs, hsum⟩ := map_eq_some_iff.1 hrun
  have hchk : ∀ s l, checkUnspent s l = true → Unspent s l := by
    intro s l hl
    cases l with
    | timer r =>
      intro n b hb
      rw [checkUnspent, hb] at hl
      exact of_decide_eq_true hl
    | _ => trivial
  exact ⟨s, hs, hsum, separates_generations (.of_runGuarded hchk (.start rfl) hs)⟩

end FluxCore.Barriers
