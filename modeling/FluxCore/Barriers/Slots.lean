import Mathlib.Algebra.BigOperators.Group.Finset.Piecewise
import Mathlib.Algebra.Order.BigOperators.Group.Finset
import FluxCore.Barriers.Counted

/-!
# One Barrier in an Instance

What holds of a barrier in every state, and why each step keeps it. The unspent counts that the
modules hold and the requests carry are the clients that have entered since the last exit event
was sent; exit events reach every rank, in order and once; and a module has answered its clients
as often as it has handled an exit event. A timer must not fire on a rank whose count is spent.
-/

namespace FluxCore.Barriers

open List Function

/-- How many exit events have been sent. -/
def Slot.sent (s : Slot) : ℕ := s.published.length + s.rising.length

section

variable (top : Broker.Topology) (members : Finset ℕ) (rank : ℕ → ℕ)

/-- The counts in an instance that have not terminated the barrier. -/
def Slot.total (s : Slot) : ℕ := s.net.total top.size (fun _ m => m.held) fun p => p.2.count

/-- Exit events are neither lost nor duplicated on their way down. -/
structure Flow (s : Slot) : Prop where
  root : (s.net.node 0).through = s.published.length
  link : ∀ r, r ≠ 0 →
    (s.net.node r).through + (s.down r).length = (s.net.node (top.parent r)).through

/-- No exit event has an error, and no client is answered with one. -/
structure Clean (s : Slot) : Prop where
  rising : ∀ e ∈ s.rising, e = 0
  published : ∀ e ∈ s.published, e = 0
  down : ∀ r, ∀ e ∈ s.down r, e = 0
  inbox : ∀ r e, .exit e ∈ (s.net.node r).inbox → e = 0
  refused : s.refused = []

/-- The modules know the clients that have entered and have not been answered; each client has
been answered as often as the module on its rank has handled an exit event. -/
structure Clients (s : Slot) : Prop where
  waiting : ∀ r c, c ∈ clientsOf (s.net.node r).barrier ↔
    c ∈ members ∧ rank c = r ∧ s.entered c = s.answered c + 1
  nodup : ∀ r, (clientsOf (s.net.node r).barrier).Nodup
  answered : ∀ c ∈ members, s.answered c = (s.net.node (rank c)).handled
  entered : ∀ c ∈ members, s.entered c = s.answered c ∨ s.entered c = s.answered c + 1

/-- The counts: all of them are of clients that have entered since the last exit event was sent,
and are found only where this event has been before. -/
structure Counts (armed : ℕ → Bool) (s : Slot) : Prop where
  ok : ∀ r, r < top.size → (s.net.node r).Ok members.card s.sent (r ≠ 0 → armed r = true)
  flight : ∀ p ∈ s.net.flight, p.1 < top.size ∧ 0 < p.2.count ∧ p.2.nprocs = members.card ∧
    (s.net.node p.1).through = s.sent
  total : s.total top + members.card * s.sent = ∑ c ∈ members, s.entered c
  sent_le : ∀ c ∈ members, s.sent ≤ s.entered c

variable {top members rank} {s t : Slot}

theorem Flow.through_le (h : Flow top s) (r : ℕ) :
    (s.net.node r).through ≤ s.published.length := by
  induction r using Nat.strong_induction_on with
  | _ r ih =>
    by_cases hr : r = 0
    · rw [hr]
      exact h.root.le
    have hlink := h.link r hr
    have hpar := ih (top.parent r) (top.parent_lt r hr)
    omega

theorem Flow.through_le_sent (h : Flow top s) (r : ℕ) : (s.net.node r).through ≤ s.sent :=
  (h.through_le r).trans (Nat.le_add_right ..)

theorem Flow.congr (h : Flow top s)
    (hthr : ∀ r, (t.net.node r).through = (s.net.node r).through)
    (hdown : t.down = s.down) (hpub : t.published = s.published) : Flow top t := by
  refine ⟨?_, fun r hr => ?_⟩
  · rw [hthr, hpub]
    exact h.root
  · rw [hthr, hthr, hdown]
    exact h.link r hr

theorem Clients.congr (h : Clients members rank s)
    (hcls : ∀ r, clientsOf (t.net.node r).barrier = clientsOf (s.net.node r).barrier)
    (hhd : ∀ r, (t.net.node r).handled = (s.net.node r).handled)
    (hin : t.entered = s.entered) (hansd : t.answered = s.answered) :
    Clients members rank t := by
  refine ⟨fun r c => ?_, fun r => ?_, fun c hc => ?_, fun c hc => ?_⟩
  · rw [hcls, hin, hansd]
    exact h.waiting r c
  · rw [hcls]
    exact h.nodup r
  · rw [hansd, hhd]
    exact h.answered c hc
  · rw [hin, hansd]
    exact h.entered c hc

theorem Counts.mono (h : Counts top members armed s)
    (harm : ∀ r, armed r = true → armed' r = true) : Counts top members armed' s :=
  { h with ok := fun r hr => (h.ok r hr).mono fun ha hr0 => harm r (ha hr0) }

theorem entered_le (hflow : Flow top s) (hcls : Clients members rank s) (hc : c ∈ members) :
    s.entered c ≤ s.sent + 1 := by
  have hthr := hflow.through_le_sent (rank c)
  have hhd : (s.net.node (rank c)).handled ≤ (s.net.node (rank c)).through :=
    Nat.le_add_right ..
  have hansd := hcls.answered c hc
  have hin := hcls.entered c hc
  omega

/-! ### An exit event at a broker -/

theorem through_handleEvent (u : Slot) (r e q : ℕ) :
    ((u.handleEvent top r e).net.node q).through =
      (u.net.node q).through + if q = r then 1 else 0 := by
  by_cases hq : q = r
  · subst hq
    simp [Slot.handleEvent, Module.through, Nat.add_assoc]
  · simp [Slot.handleEvent, Net.act_node_of_ne hq, hq]

theorem length_down_handleEvent (u : Slot) (r e q : ℕ) : ((u.handleEvent top r e).down q).length =
      (u.down q).length + if q ≠ 0 ∧ top.parent q = r then 1 else 0 := by
  rw [Slot.handleEvent]
  split_ifs <;> simp [*]

theorem flow_handleEvent {u : Slot} {r : ℕ} (e : ℕ)
    (hroot : (u.net.node 0).through + (if 0 = r then 1 else 0) = u.published.length)
    (hlink : ∀ q, q ≠ 0 → (u.net.node q).through + (if q = r then 1 else 0) + (u.down q).length =
      (u.net.node (top.parent q)).through) : Flow top (u.handleEvent top r e) := by
  refine ⟨?_, fun q hq => ?_⟩
  · rw [through_handleEvent]
    exact hroot
  · have hq' := hlink q hq
    rw [through_handleEvent, through_handleEvent, length_down_handleEvent]
    simp only [ne_eq, hq, not_false_eq_true, true_and]
    omega

theorem Counts.handleEvent (h : Counts top members armed s) {u : Slot} (hnet : u.net = s.net)
    (hsent : u.sent = s.sent) (hin : u.entered = s.entered) {r : ℕ} (hr : r < top.size)
    (hroom : (s.net.node r).through < s.sent) (e : ℕ) :
    Counts top members armed (u.handleEvent top r e) := by
  have hok : ({ u.net.node r with inbox := (u.net.node r).inbox ++ [.exit e] } : Module).Ok
      members.card s.sent (r ≠ 0 → armed r = true) := by
    rw [hnet]
    exact (h.ok r hr).receive fun req hreq => nomatch hreq
  have hthr : ∀ q, q ≠ r →
      ((u.handleEvent top r e).net.node q).through = (s.net.node q).through := by
    intro q hq
    rw [through_handleEvent, hnet, if_neg hq, Nat.add_zero]
  refine ⟨fun q hq => ?_, fun p hp => ?_, ?_, ?_⟩
  · change ((u.handleEvent top r e).net.node q).Ok members.card u.sent _
    rw [hsent]
    refine Net.forall_act (P := fun q (m : Module) => q < top.size →
      m.Ok members.card s.sent (q ≠ 0 → armed q = true)) (fun _ => hok) (fun q hq => ?_) q hq
    rw [hnet]
    exact h.ok q hq
  · have hp' : p ∈ s.net.flight := by
      rw [← hnet]
      simpa [Slot.handleEvent, Net.act] using hp
    obtain ⟨hsize, hpos, hn, hp1⟩ := h.flight p hp'
    have hne : p.1 ≠ r := by
      rintro rfl
      omega
    refine ⟨hsize, hpos, hn, ?_⟩
    rw [hthr _ hne, hp1]
    exact hsent.symm
  · have hact := u.net.total_act (fun _ m => m.held) (fun p => p.2.count)
      { u.net.node r with inbox := (u.net.node r).inbox ++ [.exit e] } [] hr
    have hheld : ({ u.net.node r with inbox := (u.net.node r).inbox ++ [.exit e] } : Module).held
        = (u.net.node r).held := by
      simp [Module.held, Msg.worth]
    have htot : (u.handleEvent top r e).total top = s.total top := by
      rw [Slot.total, Slot.total, ← hnet]
      simp only [hheld, map_nil, sum_nil, Nat.add_zero] at hact
      exact Nat.add_right_cancel hact
    change (u.handleEvent top r e).total top + members.card * u.sent = ∑ c ∈ members, u.entered c
    rw [htot, hsent, hin]
    exact h.total
  · change ∀ c ∈ members, u.sent ≤ u.entered c
    rw [hsent, hin]
    exact h.sent_le

variable (top members rank) in
/-- What holds of a barrier in every state. -/
structure Sound (armed : ℕ → Bool) (s : Slot) : Prop where
  flow : Flow top s
  clean : Clean s
  clients : Clients members rank s
  counts : Counts top members armed s

theorem Sound.mono (h : Sound top members rank armed s)
    (harm : ∀ r, armed r = true → armed' r = true) : Sound top members rank armed' s :=
  { h with counts := h.counts.mono harm }

theorem Clean.handleEvent (h : Clean u) (r : ℕ) (he : e = 0) : Clean (u.handleEvent top r e) where
  rising := h.rising
  published := h.published
  down q e' he' := by
    change e' ∈ (if _ then u.down q ++ [e] else u.down q) at he'
    split_ifs at he'
    · rcases mem_append.1 he' with he' | he'
      · exact h.down q e' he'
      · rw [mem_singleton.1 he', he]
    · exact h.down q e' he'
  inbox q e' he' := by
    refine Net.forall_act (P := fun _ (m : Module) => .exit e' ∈ m.inbox → e' = 0)
      (fun he' => ?_) (fun q => h.inbox q e') q he'
    rcases mem_append.1 he' with he' | he'
    · exact h.inbox r e' he'
    · cases mem_singleton.1 he'
      exact he
  refused := h.refused

theorem Clients.handleEvent (h : Clients members rank u) (r e : ℕ) :
    Clients members rank (u.handleEvent top r e) :=
  h.congr (Net.act_node_congr (fun m : Module => clientsOf m.barrier) rfl)
    (Net.act_node_congr Module.handled rfl) rfl rfl

/-- **An exit event reaches rank 0.** -/
theorem Sound.publish (h : Sound top members rank armed s) (hsize : 0 < top.size) {k : ℕ}
    (hst : s.publish top k = some t) : Sound top members rank armed t := by
  rw [Slot.publish] at hst
  split at hst
  swap
  · cases hst
  rename_i e hk
  obtain rfl := Option.some.inj hst
  have hlt : k < s.rising.length := (List.getElem?_eq_some_iff.1 hk).1
  have hzero : e = 0 := h.clean.rising e (mem_of_getElem? hk)
  set u : Slot := { s with rising := s.rising.eraseIdx k, published := s.published ++ [e] } with hu
  have hsent : u.sent = s.sent := by
    simp only [hu, Slot.sent, length_append, length_singleton, length_eraseIdx_of_lt hlt]
    omega
  have hcls : Clients members rank u := h.clients.congr (fun _ => rfl) (fun _ => rfl) rfl rfl
  refine ⟨flow_handleEvent e ?_ fun q hq => ?_, Clean.handleEvent ?_ 0 hzero,
    hcls.handleEvent 0 e, h.counts.handleEvent (u := u) rfl hsent rfl hsize ?_ e⟩
  · simpa [hu] using h.flow.root
  · rw [if_neg hq]
    exact h.flow.link q hq
  · refine { h.clean with rising := fun e' he' => h.clean.rising e' (mem_of_mem_eraseIdx he'), published := fun e' he' => ?_ }
    rcases mem_append.1 he' with he' | he'
    · exact h.clean.published e' he'
    · rw [mem_singleton.1 he', hzero]
  · rw [h.flow.root, Slot.sent]
    omega

/-- **An exit event reaches a rank from its parent.** -/
theorem Sound.relay (h : Sound top members rank armed s) {r : ℕ} (hr : r ≠ 0)
    (hsize : r < top.size) (hst : s.relay top r = some t) : Sound top members rank armed t := by
  rw [Slot.relay] at hst
  split at hst
  swap
  · cases hst
  rename_i e rest hdown
  obtain rfl := Option.some.inj hst
  have hlink := h.flow.link r hr
  rw [hdown, length_cons] at hlink
  have hmem : ∀ q, ∀ e' ∈ Function.update s.down r rest q, e' ∈ s.down q := by
    intro q e' he'
    by_cases hq : q = r
    · subst hq
      rw [update_self] at he'
      rw [hdown]
      exact mem_cons_of_mem _ he'
    · rwa [update_of_ne hq] at he'
  have hzero : e = 0 := h.clean.down r e (hdown ▸ mem_cons_self ..)
  set u : Slot := { s with down := Function.update s.down r rest } with hu
  have hcls : Clients members rank u := h.clients.congr (fun _ => rfl) (fun _ => rfl) rfl rfl
  refine ⟨flow_handleEvent e ?_ fun q hq => ?_, Clean.handleEvent ?_ r hzero,
    hcls.handleEvent r e, h.counts.handleEvent (u := u) rfl rfl rfl hsize ?_ e⟩
  · rw [if_neg hr.symm]
    exact h.flow.root
  · by_cases hqr : q = r
    · subst hqr
      rw [if_pos rfl]
      simp only [hu, update_self]
      omega
    · rw [if_neg hqr]
      simp only [hu, update_of_ne hqr]
      exact h.flow.link q hq
  · exact { h.clean with down := fun q e' he' => h.clean.down q e' (hmem q e' he') }
  · have := h.flow.through_le_sent (top.parent r)
    omega

/-! ### Requests and timers -/

/-- The module on a rank acts, and no exit event moves. -/
structure Acts (s t : Slot) (r : ℕ) (m : Module) : Prop where
  node : t.net.node = Function.update s.net.node r m
  down : t.down = s.down
  published : t.published = s.published

variable {m : Module}

theorem Acts.congr {β : Type} (hst : Acts s t r m) (f : Module → β)
    (hf : f m = f (s.net.node r)) (q : ℕ) : f (t.net.node q) = f (s.net.node q) := by
  rw [hst.node]
  by_cases hq : q = r
  · rw [hq, update_self, hf]
  · rw [update_of_ne hq]

theorem Flow.acts (h : Flow top s) (hst : Acts s t r m)
    (hthr : m.through = (s.net.node r).through) : Flow top t :=
  h.congr (hst.congr Module.through hthr) hst.down hst.published

theorem Clean.acts (h : Clean s) (hst : Acts s t r m) (hib : ∀ e, .exit e ∈ m.inbox → e = 0)
    (hrising : ∀ e ∈ t.rising, e = 0) (hrefused : t.refused = []) : Clean t := by
  refine ⟨hrising, ?_, ?_, fun q e => ?_, hrefused⟩
  · rw [hst.published]
    exact h.published
  · rw [hst.down]
    exact h.down
  · rw [hst.node]
    by_cases hq : q = r
    · rw [hq, update_self]
      exact hib e
    · rw [update_of_ne hq]
      exact h.inbox q e

theorem Counts.acts (h : Counts top members armed s) (hst : Acts s t r m)
    (hsent : t.sent = s.sent) (hin : t.entered = s.entered)
    (hok : m.Ok members.card s.sent (r ≠ 0 → armed' r = true))
    (harm : ∀ q, q ≠ r → armed q = true → armed' q = true)
    (hthr : m.through = (s.net.node r).through)
    (hfl : ∀ p ∈ t.net.flight, p.1 < top.size ∧ 0 < p.2.count ∧ p.2.nprocs = members.card ∧
      (s.net.node p.1).through = s.sent)
    (htot : t.total top = s.total top) : Counts top members armed' t := by
  refine ⟨fun q hq => ?_, fun p hp => ?_, ?_, ?_⟩
  · rw [hst.node, hsent]
    by_cases hqr : q = r
    · subst hqr
      rw [update_self]
      exact hok
    · rw [update_of_ne hqr]
      exact (h.ok q hq).mono fun ha hq0 => harm q hqr (ha hq0)
  · obtain ⟨hsize, hpos, hn, hp1⟩ := hfl p hp
    refine ⟨hsize, hpos, hn, ?_⟩
    rw [hst.congr Module.through hthr, hp1, hsent]
  · rw [htot, hsent, hin]
    exact h.total
  · rw [hsent, hin]
    exact h.sent_le

theorem total_act (net : Net Module Enter) (hr : r < top.size) (hnet : t.net = net.act r m out) :
    t.total top + (net.node r).held
      = net.total top.size (fun _ m => m.held) (fun p => p.2.count)
        + (m.held + (out.map fun p => p.2.count).sum) := by
  rw [Slot.total, hnet]
  exact net.total_act (fun _ m => m.held) (fun p => p.2.count) m out hr

theorem clientsOf_timeoutCb (barrier : Option Barrier) :
    clientsOf (timeoutCb barrier).1 = clientsOf barrier := by
  cases barrier with
  | none => rfl
  | some b =>
    rw [timeoutCb]
    split <;> rfl

/-- **The timer of a rank fires**, where no count has terminated a barrier. -/
theorem Sound.timeout (h : Sound top members rank armed s) (hr : r ≠ 0) (hsize : r < top.size)
    (hguard : ∀ b, (s.net.node r).barrier = some b → b.count ≠ b.nprocs) :
    Sound top members rank (Function.update armed r false) (s.timeout top r) := by
  obtain ⟨hok, hzero, hpsd, hreq⟩ :=
    (h.counts.ok r hsize).timeout (r ≠ 0 → Function.update armed r false r = true) hguard
  set m : Module := { s.net.node r with barrier := (timeoutCb (s.net.node r).barrier).1 } with hm
  have hst : Acts s (s.timeout top r) r m := ⟨rfl, rfl, rfl⟩
  refine ⟨h.flow.acts hst rfl, h.clean.acts hst (h.clean.inbox r) h.clean.rising h.clean.refused,
    h.clients.congr (hst.congr (fun m => clientsOf m.barrier) (clientsOf_timeoutCb _))
      (hst.congr Module.handled rfl) rfl rfl,
    h.counts.acts hst rfl rfl hok ?_ rfl (fun p hp => ?_) ?_⟩
  · intro q hq ha
    rwa [update_of_ne hq]
  · rcases mem_append.1 hp with hp | hp
    · exact h.counts.flight p hp
    · obtain ⟨req, hmem, rfl⟩ := List.mem_map.1 hp
      obtain ⟨hpos, hn, hhd⟩ := hreq req (Option.mem_toList.1 hmem)
      have hpar : (s.net.node (top.parent r)).through = s.sent := by
        have hlink := h.flow.link r hr
        have hle := h.flow.through_le_sent (top.parent r)
        have hge : (s.net.node r).handled ≤ (s.net.node r).through := Nat.le_add_right ..
        omega
      exact ⟨(top.parent_lt r hr).trans hsize, hpos, hn, hpar⟩
  · have hact := total_act (t := s.timeout top r) (m := m) s.net hsize rfl
    rw [List.map_map] at hact
    change _ = s.total top + (m.held
      + ((timeoutCb (s.net.node r).barrier).2.toList.map Enter.count).sum) at hact
    rw [← hpsd, Module.held, Module.held] at hact
    simp only [hm, hzero] at hact
    omega

/-- **A request reaches the broker it is for.** -/
theorem Sound.arrive (h : Sound top members rank armed s) (hst : s.arrive k = some t) :
    Sound top members rank armed t := by
  rw [Slot.arrive] at hst
  split at hst
  swap
  · cases hst
  rename_i r req hk
  obtain ht := (Option.some.inj hst).symm
  obtain ⟨hsize, hpos, hn, hthr⟩ := h.counts.flight _ (mem_of_getElem? hk)
  set m : Module := { s.net.node r with inbox := (s.net.node r).inbox ++ [.enter req] } with hm
  have hst : Acts s t r m := by
    rw [ht]
    exact ⟨rfl, rfl, rfl⟩
  have hsame : m.through = (s.net.node r).through := by
    simp [hm, Module.through]
  refine ⟨h.flow.acts hst hsame, h.clean.acts hst (fun e he => ?_) (ht ▸ h.clean.rising)
    (ht ▸ h.clean.refused),
    h.clients.congr (hst.congr (fun m => clientsOf m.barrier) rfl) (hst.congr Module.handled rfl)
      (ht ▸ rfl) (ht ▸ rfl),
    h.counts.acts hst (ht ▸ rfl) (ht ▸ rfl) ?_ (fun _ _ ha => ha) hsame (fun p hp => ?_) ?_⟩
  · rcases mem_append.1 he with he | he
    · exact h.clean.inbox r e he
    · cases mem_singleton.1 he
  · refine (h.counts.ok r hsize).receive fun req' hreq' => ?_
    cases hreq'
    exact ⟨hpos, hn, hthr⟩
  · rw [ht] at hp
    change p ∈ (s.net.take k).flight ++ [] at hp
    rw [append_nil] at hp
    exact Net.forall_take h.counts.flight p hp
  · have hact := total_act (t := t) (m := m) (r := r) (s.net.take k) hsize (by rw [ht])
    have htake : (s.net.take k).total top.size (fun _ m => m.held) (fun p => p.2.count)
        + req.count = s.total top :=
      Net.total_take top.size (fun _ m => m.held) (fun p => p.2.count) hk
    have hheld : m.held = (s.net.node r).held + req.count := by
      simp [hm, Module.held, Msg.worth, Nat.add_assoc]
    change t.total top + (s.net.node r).held = _ + (m.held + 0) at hact
    omega

/-! ### An exit event at a module -/

theorem count_exitEventCb (hnd : (clientsOf barrier).Nodup) (c : ℕ) :
    (exitEventCb barrier 0).count (c, 0) = if c ∈ clientsOf barrier then 1 else 0 := by
  have hmap : exitEventCb barrier 0 = (clientsOf barrier).map fun c => (c, 0) := by
    cases barrier <;> rfl
  have hinj : Function.Injective fun c : ℕ => (c, 0) := fun _ _ heq => (Prod.mk.inj heq).1
  rw [hmap, count_map_of_injective _ _ hinj, List.Nodup.count hnd]

theorem filter_exitEventCb (barrier : Option Barrier) :
    (exitEventCb barrier 0).filter (fun a => a.2 ≠ 0) = [] := by
  rw [filter_eq_nil_iff]
  intro a ha
  cases barrier with
  | none => cases ha
  | some b =>
    obtain ⟨c, -, rfl⟩ := List.mem_map.1 ha
    simp

/-- **An exit event is handled** by the module on a rank: all clients there have entered, and are
answered. -/
theorem Sound.exit (h : Sound top members rank armed s) (hsize : r < top.size)
    (hib : (s.net.node r).inbox = .exit e :: rest)
    (hm : m = { barrier := none, inbox := rest, handled := (s.net.node r).handled + 1 }) :
    Sound top members rank armed
      (Slot.answer { s with net := s.net.act r m [] }
        (exitEventCb (s.net.node r).barrier e)) := by
  obtain rfl : e = 0 := h.clean.inbox r e (hib ▸ mem_cons_self ..)
  set t := Slot.answer { s with net := s.net.act r m [] }
    (exitEventCb (s.net.node r).barrier 0) with ht
  have hst : Acts s t r m := ⟨rfl, rfl, rfl⟩
  have hthr : m.through = (s.net.node r).through := by
    simp only [hm, Module.through, hib, exits_exit]
    omega
  obtain ⟨huns, hok⟩ := (h.counts.ok r hsize).exit hib (h.flow.through_le_sent r)
  have hlt : (s.net.node r).handled < s.sent := by
    have := h.flow.through_le_sent r
    rw [← hthr, hm, Module.through] at this
    dsimp only at this
    omega
  have hansd : ∀ c, t.answered c = s.answered c
      + if c ∈ clientsOf (s.net.node r).barrier then 1 else 0 :=
    fun c => congrArg _ (count_exitEventCb (h.clients.nodup r) c)
  have hhere : ∀ c ∈ members, rank c = r → s.entered c = s.answered c + 1 ∧
      t.answered c = s.answered c + 1 := by
    intro c hc hcr
    have hhd := h.clients.answered c hc
    rw [hcr] at hhd
    have hin : s.entered c = s.answered c + 1 := by
      have := h.counts.sent_le c hc
      have := h.clients.entered c hc
      omega
    refine ⟨hin, ?_⟩
    rw [hansd, if_pos ((h.clients.waiting r c).2 ⟨hc, hcr, hin⟩)]
  have helse : ∀ c, rank c ≠ r → t.answered c = s.answered c := by
    intro c hcr
    rw [hansd, if_neg fun hmem => hcr ((h.clients.waiting r c).1 hmem).2.1, Nat.add_zero]
  have hself : t.net.node r = m := by
    rw [hst.node, update_self]
  have hoth : ∀ q, q ≠ r → t.net.node q = s.net.node q := by
    intro q hq
    rw [hst.node, update_of_ne hq]
  refine ⟨h.flow.acts hst hthr, h.clean.acts hst (fun e he => ?_) h.clean.rising ?_,
    ⟨fun q c => ?_, fun q => ?_, fun c hc => ?_, fun c hc => ?_⟩,
    h.counts.acts hst rfl rfl (hm ▸ hok) (fun _ _ ha => ha) hthr (fun p hp => ?_) ?_⟩
  · rw [hm] at he
    exact h.clean.inbox r e (hib ▸ mem_cons_of_mem _ he)
  · change s.refused ++ _ = []
    rw [h.clean.refused, filter_exitEventCb, nil_append]
  · by_cases hq : q = r
    · subst hq
      rw [hself, hm]
      refine iff_of_false not_mem_nil ?_
      rintro ⟨hc, hcr, hin⟩
      obtain ⟨hbef, haft⟩ := hhere c hc hcr
      change s.entered c = _ at hin
      omega
    · rw [hoth q hq, h.clients.waiting q c]
      refine and_congr_right fun hc => and_congr_right fun hcr => ?_
      rw [helse c (hcr.trans_ne hq)]
      rfl
  · by_cases hq : q = r
    · rw [hq, hself, hm]
      exact nodup_nil
    · rw [hoth q hq]
      exact h.clients.nodup q
  · by_cases hcr : rank c = r
    · rw [(hhere c hc hcr).2, hcr, hself, hm, h.clients.answered c hc, hcr]
    · rw [helse c hcr, hoth _ hcr]
      exact h.clients.answered c hc
  · by_cases hcr : rank c = r
    · obtain ⟨hbef, haft⟩ := hhere c hc hcr
      exact .inl (hbef.trans haft.symm)
    · rw [helse c hcr]
      exact h.clients.entered c hc
  · change p ∈ s.net.flight ++ [] at hp
    rw [append_nil] at hp
    exact h.counts.flight p hp
  · have hact := total_act (t := t) (m := m) s.net hsize rfl
    have hheld : m.held = (s.net.node r).held := by
      rw [Module.held, Module.held, huns, hib, hm]
      simp [unspent, Msg.worth]
    rw [hheld] at hact
    exact Nat.add_right_cancel hact

/-! ### A request at a module -/

theorem Slot.answer_nil (s : Slot) : s.answer [] = s := by
  simp [answer]

theorem of_total_eq_zero (h : s.total top = 0) :
    (∀ q, q < top.size → (s.net.node q).held = 0) ∧ ∀ p ∈ s.net.flight, p.2.count = 0 := by
  obtain ⟨hns, hfl⟩ := Nat.add_eq_zero_iff.1 h
  refine ⟨fun q hq => Finset.sum_eq_zero_iff.1 hns q (Finset.mem_range.2 hq), fun p hp => ?_⟩
  exact sum_eq_zero_iff.1 hfl _ (List.mem_map_of_mem hp)

/-- If all clients have entered at most once since the last exit event, and the barrier has been
completed again, all have entered. -/
theorem all_entered {sent total : ℕ} {entered : ℕ → ℕ}
    (htot : total + members.card * (sent + 1) = ∑ c ∈ members, entered c)
    (hbd : ∀ c ∈ members, entered c ≤ sent + 1) :
    total = 0 ∧ ∀ c ∈ members, entered c = sent + 1 := by
  have hconst : ∑ _c ∈ members, (sent + 1) = members.card * (sent + 1) :=
    Finset.sum_const_nat fun _ _ => rfl
  have hle := Finset.sum_le_sum hbd
  have heq : ∑ c ∈ members, entered c = ∑ _c ∈ members, (sent + 1) := by omega
  exact ⟨by omega, (Finset.sum_eq_sum_iff_of_le hbd).1 heq⟩

/-- **The counts after a request is handled**, of a module downstream or of a client: it may be
the last one that was missing. -/
theorem Counts.settle (h : Counts top members armed s) (hsize : r < top.size)
    (hib : (s.net.node r).inbox = .enter req :: rest)
    (hcnt : b.count = countOf (s.net.node r).barrier) (hn : b.nprocs = members.card)
    (hpos : 0 < members.card) (hbd : ∀ c ∈ members, s.entered c ≤ s.sent + 1) :
    Counts top members (Function.update armed r (addCount r (armed r) b req.count).armed)
      (s.settle r { s.net.node r with inbox := rest } (addCount r (armed r) b req.count)) := by
  set b' : Barrier := { b with count := b.count + req.count } with hb'
  set m : Module := { s.net.node r with barrier := some b', inbox := rest } with hm
  have hheld : (s.net.node r).held = b'.count + (rest.map Msg.worth).sum := by
    rw [Module.held, ((h.ok r hsize).current_of_head hib).2, ← hcnt, hib]
    simp only [hb', map_cons, sum_cons, Msg.worth]
    omega
  have hthr : m.through = (s.net.node r).through := by
    simp only [hm, Module.through, hib, exits_enter]
  by_cases hdone : b'.count = b'.nprocs
  · have hrep : addCount r (armed r) b req.count =
        { barrier := b', armed := armed r, exits := [0] } := if_pos hdone
    rw [hrep, update_eq_self, Slot.settle, Slot.answer_nil]
    set t : Slot := { s with net := s.net.act r m [], rising := s.rising ++ [0] } with ht
    have hsent : t.sent = s.sent + 1 := by
      simp only [ht, Slot.sent, length_append, length_singleton]
      omega
    have htot : t.total top + members.card * (s.sent + 1) = ∑ c ∈ members, s.entered c := by
      have hact := total_act (t := t) (m := m) s.net hsize rfl
      have hmheld : m.held = (rest.map Msg.worth).sum := by
        simp [hm, Module.held, unspent, hdone]
      have hbef := h.total
      rw [hheld, hmheld, hdone] at hact
      change _ = s.total top + (_ + 0) at hact
      have hsize : b'.nprocs = members.card := hn
      rw [Nat.mul_succ]
      omega
    obtain ⟨hzero, hall⟩ := all_entered htot hbd
    obtain ⟨hns, hfl⟩ := of_total_eq_zero hzero
    have hrest : (rest.map Msg.worth).sum = 0 := by
      have hself := hns r hsize
      simp only [ht, Net.act_node_self, Module.held, hm] at hself
      omega
    refine ⟨fun q hq => ?_, fun p hp => ?_, ?_, fun c hc => ?_⟩
    · rw [hsent]
      by_cases hqr : q = r
      · subst hqr
        simp only [ht, Net.act_node_self]
        exact (h.ok q hq).finish hib hn hpos hdone hrest
      have hq0 := hns q hq
      simp only [ht, Net.act_node_of_ne hqr] at hq0 ⊢
      exact (h.ok q hq).sent_succ hq0
    · have hpzero := hfl p hp
      change p ∈ s.net.flight ++ [] at hp
      rw [append_nil] at hp
      exact absurd hpzero (h.flight p hp).2.1.ne'
    · rw [hsent]
      exact htot
    · rw [hsent]
      exact (hall c hc).ge
  · have hrep : addCount r (armed r) b req.count =
        { barrier := b', armed := armed r || decide (r > 0) } := if_neg hdone
    rw [hrep, Slot.settle, Slot.answer_nil]
    refine h.acts (m := m) ⟨rfl, rfl, rfl⟩ ?_ rfl
      ((h.ok r hsize).add hib hn hpos hdone fun hr => ?_) (fun q hq ha => ?_) hthr
      (fun p hp => ?_) ?_
    · simp [Slot.sent]
    · rw [update_self]
      simp [Nat.pos_of_ne_zero hr]
    · rwa [update_of_ne hq]
    · change p ∈ s.net.flight ++ [] at hp
      rw [append_nil] at hp
      exact h.flight p hp
    · set t : Slot := { s with net := s.net.act r m [], rising := s.rising ++ [] }
      have hact := total_act (t := t) (m := m) s.net hsize rfl
      have hmheld : m.held = b'.count + (rest.map Msg.worth).sum := by
        simp [hm, Module.held, unspent, hdone]
      rw [hheld, hmheld] at hact
      exact Nat.add_right_cancel hact

theorem exits_addCount (r : ℕ) (armed : Bool) (b : Barrier) (count : ℕ) :
    ∀ e ∈ (addCount r armed b count).exits, e = 0 := by
  rw [addCount]
  split
  · intro e he
    exact mem_singleton.1 he
  · intro e he
    cases he

theorem answers_addCount (r : ℕ) (armed : Bool) (b : Barrier) (count : ℕ) :
    (addCount r armed b count).answers = [] := by
  rw [addCount]
  split <;> rfl

theorem clients_addCount (r : ℕ) (armed : Bool) (b : Barrier) (count : ℕ) :
    (addCount r armed b count).barrier.clients = b.clients := by
  rw [addCount]
  split <;> rfl

theorem Clean.settle (h : Clean s) (hib : ∀ e, .exit e ∈ m.inbox → e = 0)
    (hexits : ∀ e ∈ reply.exits, e = 0) (hanss : reply.answers = []) :
    Clean (s.settle r m reply) := by
  refine h.acts (r := r) (m := { m with barrier := some reply.barrier }) ⟨rfl, rfl, rfl⟩ hib
    (fun e he => ?_) ?_
  · rcases mem_append.1 he with he | he
    · exact h.rising e he
    · exact hexits e he
  · rw [Slot.settle, hanss, Slot.answer_nil]
    exact h.refused

theorem countOf_getD (barrier : Option Barrier) (nprocs : ℕ) :
    (barrier.getD { nprocs }).count = countOf barrier := by
  cases barrier <;> rfl

theorem clientsOf_getD (barrier : Option Barrier) (nprocs : ℕ) :
    (barrier.getD { nprocs }).clients = clientsOf barrier := by
  cases barrier <;> rfl

theorem nprocs_getD {size sent nprocs : ℕ} {armed : Prop} (h : m.Ok size sent armed)
    (hn : nprocs = size) : (m.barrier.getD { nprocs }).nprocs = size := by
  cases hb : m.barrier with
  | none => exact hn
  | some b => exact (h.nprocs b hb).1

theorem Counts.card_pos (h : Counts top members armed s) (hsize : r < top.size)
    (hreq : .enter req ∈ (s.net.node r).inbox) : 0 < members.card := by
  by_contra hzero
  have hemp : members = ∅ := by
    rw [← Finset.card_eq_zero]
    omega
  have htot := h.total
  rw [hemp, Finset.sum_empty, Finset.card_empty, Nat.zero_mul, Nat.add_zero] at htot
  exact (h.ok r hsize).notMem_of_held ((of_total_eq_zero htot).1 r hsize) req hreq

/-- **A request of a module downstream is handled.** -/
theorem Sound.handleEnter (h : Sound top members rank armed s) (hsize : r < top.size)
    (hib : (s.net.node r).inbox = .enter req :: rest)
    (hrep : reply = enterRequestCb r (armed r) (s.net.node r).barrier none req) :
    Sound top members rank (Function.update armed r reply.armed)
      (s.settle r { s.net.node r with inbox := rest } reply) := by
  set b := (s.net.node r).barrier.getD { nprocs := req.nprocs } with hb
  obtain rfl : reply = addCount r (armed r) b req.count := hrep
  have hok := h.counts.ok r hsize
  have hmem : .enter req ∈ (s.net.node r).inbox := hib ▸ mem_cons_self ..
  have hst : Acts s (s.settle r { s.net.node r with inbox := rest }
      (addCount r (armed r) b req.count)) r
      { s.net.node r with
          barrier := some (addCount r (armed r) b req.count).barrier
          inbox := rest } := ⟨rfl, rfl, rfl⟩
  refine ⟨h.flow.acts hst ?_, h.clean.settle (fun e he => ?_) (exits_addCount _ _ _ _)
    (answers_addCount ..), h.clients.congr (hst.congr (fun m => clientsOf m.barrier) ?_)
      (hst.congr Module.handled rfl) ?_ ?_,
    h.counts.settle hsize hib (countOf_getD ..) (nprocs_getD hok (hok.msg req hmem).2)
      (h.counts.card_pos hsize hmem) fun c hc => entered_le h.flow h.clients hc⟩
  · simp only [Module.through, hib, exits_enter]
  · exact h.clean.inbox r e (hib ▸ mem_cons_of_mem _ he)
  · exact (clients_addCount ..).trans (clientsOf_getD ..)
  · rw [Slot.settle, answers_addCount, Slot.answer_nil]
  · rw [Slot.settle, answers_addCount, Slot.answer_nil]

theorem Counts.client (h : Counts top members armed s) (hsize : r < top.size) (hc : c ∈ members)
    (hhd : (s.net.node r).handled = s.sent) : Counts top members armed
      { s with
          entered := Function.update s.entered c (s.entered c + 1)
          net := s.net.act r
            { s.net.node r with
                inbox := .enter { count := 1, nprocs := members.card } :: (s.net.node r).inbox }
            [] } := by
  set m : Module := { s.net.node r with
    inbox := .enter { count := 1, nprocs := members.card } :: (s.net.node r).inbox } with hm
  set t : Slot := { s with
    entered := Function.update s.entered c (s.entered c + 1), net := s.net.act r m [] } with ht
  have hsum : ∑ d ∈ members, t.entered d = ∑ d ∈ members, s.entered d + 1 := by
    rw [ht, Finset.sum_update_of_mem hc, ← Finset.add_sum_erase _ _ hc,
      Finset.sdiff_singleton_eq_erase]
    omega
  have htot : t.total top = s.total top + 1 := by
    have hact := total_act (t := t) (m := m) s.net hsize rfl
    have hheld : m.held = (s.net.node r).held + 1 := by
      simp only [hm, Module.held, map_cons, sum_cons, Msg.worth]
      omega
    rw [hheld] at hact
    change _ = s.total top + (_ + 1 + 0) at hact
    omega
  refine ⟨fun q hq => ?_, fun p hp => ?_, ?_, fun d hd => ?_⟩
  · exact Net.forall_act (P := fun q (m : Module) => q < top.size →
      m.Ok members.card s.sent (q ≠ 0 → armed q = true))
      (fun hr => (h.ok r hr).prepend Nat.one_pos rfl hhd) h.ok q hq
  · change p ∈ s.net.flight ++ [] at hp
    rw [append_nil] at hp
    obtain ⟨hp1, hpos, hn, hthr⟩ := h.flight p hp
    refine ⟨hp1, hpos, hn, ?_⟩
    rw [ht, Net.act_node_congr Module.through (by simp [hm, Module.through])]
    exact hthr
  · rw [hsum, htot, ← h.total]
    change _ + members.card * s.sent = _
    omega
  · have hle := h.sent_le d hd
    change s.sent ≤ Function.update s.entered c (s.entered c + 1) d
    by_cases hdc : d = c
    · subst hdc
      rw [update_self]
      omega
    · rw [update_of_ne hdc]
      exact hle

/-- A client that is not waiting is on a rank whose module has handled all exit events that were
sent. -/
theorem Sound.handled_of_idle (h : Sound top members rank armed s) (hc : c ∈ members)
    (hcr : rank c = r) (hidle : s.entered c = s.answered c) :
    (s.net.node r).handled = s.sent := by
  have hansd := h.clients.answered c hc
  have hsent := h.counts.sent_le c hc
  have hthr := h.flow.through_le_sent r
  have hle : (s.net.node r).handled ≤ (s.net.node r).through := Nat.le_add_right ..
  rw [hcr] at hansd
  omega

theorem Clients.enter (h : Clients members rank s) (hc : c ∈ members) (hcr : rank c = r)
    (hidle : s.entered c = s.answered c) (hst : Acts s t r m)
    (hm : clientsOf m.barrier = clientsOf (s.net.node r).barrier ++ [c])
    (hhd : m.handled = (s.net.node r).handled)
    (hin : t.entered = Function.update s.entered c (s.entered c + 1))
    (hansd : t.answered = s.answered) : Clients members rank t := by
  have hself : t.entered c = s.answered c + 1 := by
    rw [hin, update_self, hidle]
  have hoth : ∀ d, d ≠ c → t.entered d = s.entered d := by
    intro d hd
    rw [hin, update_of_ne hd]
  refine ⟨fun q d => ?_, fun q => ?_, fun d hd => ?_, fun d hd => ?_⟩
  · rw [hst.node, hansd]
    by_cases hq : q = r
    · subst hq
      rw [update_self, hm, mem_append, mem_singleton, h.waiting]
      by_cases hdc : d = c
      · subst hdc
        exact iff_of_true (.inr rfl) ⟨hc, hcr, hself⟩
      · rw [hoth d hdc]
        exact ⟨fun hor => hor.resolve_right hdc, .inl⟩
    · rw [update_of_ne hq, h.waiting]
      refine and_congr_right fun _ => and_congr_right fun hdq => ?_
      have hdc : d ≠ c := by
        rintro rfl
        exact hq (hdq.symm.trans hcr)
      rw [hoth d hdc]
  · rw [hst.node]
    by_cases hq : q = r
    · rw [hq, update_self, hm]
      refine (h.nodup r).append (nodup_singleton c) ?_
      rw [disjoint_singleton, h.waiting]
      rintro ⟨-, -, hwaiting⟩
      omega
    · rw [update_of_ne hq]
      exact h.nodup q
  · rw [hansd, hst.congr Module.handled hhd]
    exact h.answered d hd
  · rw [hansd]
    by_cases hdc : d = c
    · rw [hdc]
      exact .inr hself
    · rw [hoth d hdc]
      exact h.entered d hd

section

variable (h : Sound top members rank armed s) (hc : c ∈ members) (hcr : rank c = r)
  (hsize : r < top.size) (hidle : s.entered c = s.answered c)
include h hc hcr hsize hidle

theorem Sound.client (hcnt : b.count = countOf (s.net.node r).barrier)
    (hn : b.nprocs = members.card)
    (hcls : b.clients = clientsOf (s.net.node r).barrier ++ [c]) :
    Sound top members rank (Function.update armed r (addCount r (armed r) b 1).armed)
      (Slot.settle { s with entered := Function.update s.entered c (s.entered c + 1) } r
        (s.net.node r) (addCount r (armed r) b 1)) := by
  set u : Slot := { s with entered := Function.update s.entered c (s.entered c + 1) } with hu
  set reply := addCount r (armed r) b 1 with hrep
  have hanss : reply.answers = [] := answers_addCount ..
  have hst : Acts s (u.settle r (s.net.node r) reply) r
      { s.net.node r with barrier := some reply.barrier } := ⟨rfl, rfl, rfl⟩
  have hsettle : u.settle r (s.net.node r) reply = { u with
          net := s.net.act r { s.net.node r with barrier := some reply.barrier } []
          rising := s.rising ++ reply.exits } := by
    rw [Slot.settle, hanss, Slot.answer_nil]
  have hcl : Clean u :=
    { h.clean with }
  have hhd := h.handled_of_idle hc hcr hidle
  refine ⟨h.flow.acts hst rfl, hcl.settle (h.clean.inbox r) (exits_addCount _ _ _ _) hanss,
    h.clients.enter hc hcr hidle hst ((clients_addCount ..).trans hcls) rfl ?_ ?_, ?_⟩
  · rw [hsettle]
  · rw [hsettle]
  · have hfst := h.counts.client hsize hc hhd
    set m : Module := { s.net.node r with
      inbox := .enter { count := 1, nprocs := members.card } :: (s.net.node r).inbox } with hm
    set v : Slot := { u with net := s.net.act r m [] } with hv
    have hnode : v.net.node r = m := Net.act_node_self
    have hvcount : b.count = countOf (v.net.node r).barrier := by
      rw [hnode]
      exact hcnt
    have hbd : ∀ d ∈ members, v.entered d ≤ v.sent + 1 := by
      intro d hd
      change Function.update s.entered c (s.entered c + 1) d ≤ s.sent + 1
      by_cases hdc : d = c
      · subst hdc
        have hansd := h.clients.answered d hd
        rw [update_self, hidle, hansd, hcr, hhd]
      · rw [update_of_ne hdc]
        exact entered_le h.flow h.clients hd
    have hsec := Counts.settle (s := v) hfst hsize (congrArg Module.inbox hnode) hvcount hn
      (Finset.card_pos.2 ⟨c, hc⟩) hbd
    have heq : v.settle r { v.net.node r with inbox := (s.net.node r).inbox } reply =
        u.settle r (s.net.node r) reply := by
      rw [hsettle, Slot.settle, hanss, Slot.answer_nil, hnode]
      simp only [hv, Net.act_act, append_nil, hm, hu]
    rw [← heq]
    exact hsec

/-- **A client enters** that is not waiting. -/
theorem Sound.enter : Sound top members rank
      (Function.update armed r (s.enter r (armed r) c members.card).2)
      (s.enter r (armed r) c members.card).1 := by
  set b := (s.net.node r).barrier.getD { nprocs := members.card } with hb
  have hcls : b.clients = clientsOf (s.net.node r).barrier := clientsOf_getD ..
  have hnew : c ∉ b.clients := by
    rw [hcls, h.clients.waiting]
    rintro ⟨-, -, hwaiting⟩
    omega
  have hrep : enterRequestCb r (armed r) (s.net.node r).barrier (some c)
      { count := 1, nprocs := members.card } =
        addCount r (armed r) { b with clients := b.clients ++ [c] } 1 := by
    simp only [enterRequestCb, barrierAddClient, ← hb, if_neg hnew]
  rw [Slot.enter, hrep]
  refine h.client hc hcr hsize hidle (countOf_getD ..) (nprocs_getD (h.counts.ok r hsize) rfl) ?_
  rw [hcls]

end

end

end FluxCore.Barriers
