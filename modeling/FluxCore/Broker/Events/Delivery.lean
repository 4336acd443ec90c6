import Mathlib.Data.List.Forall2
import FluxCore.Broker.Events
import FluxCore.Lib.Relay

/-!
# Events Arrive in Order

The brokers of an instance relay the events that rank 0 publishes down the tree: what a rank has
accepted, with what is on the link to it, is a contiguous piece of what rank 0 has published. As
the publisher numbers events without gaps, no rank ever sees a gap, and the check for duplicates
in `handle_event` never drops an event.
-/

namespace FluxCore.Broker.Events

open List Option

theorem eq_range'_of_infix (h : l <:+: range' a n) : ∃ b, a ≤ b ∧ l = range' b l.length := by
  obtain ⟨before, after, hl⟩ := h
  rw [append_assoc] at hl
  obtain ⟨k, -, -, hrest⟩ := List.range'_eq_append_iff.1 hl.symm
  obtain ⟨m, -, hpc, -⟩ := List.range'_eq_append_iff.1 hrest.symm
  refine ⟨a + k * 1, Nat.le_add_right .., ?_⟩
  rw [hpc, length_range']

/-! ### One rank -/

/-- The number of the last event of a list, or `0`. -/
def lastSeq (events : List Event) : ℕ := (events.getLast?.map Event.seq).getD 0

theorem lastSeq_append (events : List Event) (event : Event) :
    lastSeq (events ++ [event]) = event.seq := by
  simp [lastSeq]

variable {event : Event}

/-- Where the numbers of a list of events are in a row, each is one more than the last one
before it. -/
theorem lastSeq_of_range' (h : (events ++ event :: rest).map Event.seq = range' a n) :
    lastSeq events = 0 ∨ event.seq = lastSeq events + 1 := by
  rw [map_append] at h
  obtain ⟨k, -, hbef, haft⟩ := List.range'_eq_append_iff.1 h.symm
  cases k with
  | zero =>
    left
    rw [List.range'_zero, map_eq_nil_iff] at hbef
    rw [hbef]
    rfl
  | succ k =>
    right
    have hlast : lastSeq events = a + k := by
      rw [lastSeq, ← getLast?_map, hbef, List.range'_1_concat]
      simp
    have hseq : event.seq = a + (k + 1) := by
      have hhead := congrArg head? haft
      rw [map_cons, List.head?_cons, List.head?_range'] at hhead
      split at hhead
      · cases hhead
      · simpa using hhead
    omega

theorem lost_of_next (h : recvSeq = 0 ∨ seq = recvSeq + 1) : lost recvSeq seq = [] := by
  rw [lost]
  rcases h with rfl | rfl
  · rfl
  · simp

/-- What holds on every rank: `eventRecvSeq` is the number of the last event accepted, nothing
was logged, and modules have been sent only accepted events, in order. -/
structure Ctx.Sound (b : Ctx) : Prop where
  recvSeq : b.eventRecvSeq = lastSeq b.accepted
  log : b.log = []
  inbox : ∀ p ∈ b.modules, p.inbox.Sublist b.accepted

/-- What a module is given of an accepted event: the event, once, if a subscription of the
module is the beginning of its topic. -/
def Given (topic : Bytes) (event : Event) (p p' : Module) : Prop :=
  p'.uuid = p.uuid ∧ p'.subs = p.subs ∧
    p'.inbox = p.inbox ++ if ∃ sub ∈ p.subs, sub <+: topic then [event] else []

theorem matchSub_iff : matchSub p topic = true ↔ ∃ sub ∈ p.subs, sub <+: topic := by
  simp [matchSub]

/-- **The modules on a rank:** `module_event_mcast` gives an event once to each module with a
matching subscription, and to no other. -/
theorem moduleEventMcast_given (modules : List Module) (topic : Bytes) (event : Event) :
    List.Forall₂ (Given topic event) modules (moduleEventMcast modules topic event) := by
  rw [moduleEventMcast, forall₂_map_right_iff, forall₂_same]
  intro p _
  by_cases h : matchSub p topic = true
  · rw [if_pos h]
    exact ⟨rfl, rfl, by rw [if_pos (matchSub_iff.1 h)]⟩
  rw [if_neg h]
  refine ⟨rfl, rfl, ?_⟩
  rw [if_neg (mt matchSub_iff.2 h), append_nil]

theorem Ctx.Sound.accept {b : Ctx} (h : b.Sound) (topic : Bytes) {event : Event}
    (hnext : b.eventRecvSeq = 0 ∨ event.seq = b.eventRecvSeq + 1) :
    (b.accept topic event).Sound := by
  refine ⟨(lastSeq_append _ _).symm, ?_, ?_⟩
  · rw [Ctx.accept, h.log, lost_of_next hnext, nil_append]
  · intro p' hp'
    obtain ⟨p, hp, hgiv⟩ : ∃ p ∈ b.modules, Given topic event p p' := by
      obtain ⟨p, hp, rfl⟩ := List.mem_map.1 hp'
      have hall := moduleEventMcast_given [p] topic event
      exact ⟨p, hp, (forall₂_cons.1 hall).1⟩
    rw [hgiv.2.2]
    refine (h.inbox p hp).append ?_
    split
    · exact List.Sublist.refl _
    · exact nil_sublist _

/-- What a step does on a rank that accepts no event: modules keep what they have been sent, and
new ones have been sent nothing. -/
structure Idle (b b' : Ctx) : Prop where
  accepted : b'.accepted = b.accepted
  recvSeq : b'.eventRecvSeq = b.eventRecvSeq
  inbox : ∀ p' ∈ b'.modules, (∃ p ∈ b.modules, p.uuid = p'.uuid ∧ p.inbox = p'.inbox) ∨
    (p'.inbox = [] ∧ ∀ p ∈ b.modules, p.uuid ≠ p'.uuid)

theorem Idle.of_modules (haccepted : b'.accepted = b.accepted)
    (hrecvSeq : b'.eventRecvSeq = b.eventRecvSeq) (hmods : b'.modules = b.modules) :
    Idle b b' :=
  ⟨haccepted, hrecvSeq, fun p hp => .inl ⟨p, hmods ▸ hp, rfl, rfl⟩⟩

theorem idle_self (b : Ctx) : Idle b b := .of_modules rfl rfl rfl

/-- What any step does on a rank: it accepts no event, or one, which each module with a matching
subscription is then sent once, and no other module is. -/
def Passes (b b' : Ctx) : Prop :=
  Idle b b' ∨ ∃ event topic, event.topic = some topic ∧ b'.accepted = b.accepted ++ [event] ∧
    List.Forall₂ (Given topic event) b.modules b'.modules

theorem idle_map (hf : ∀ p, (f p).uuid = p.uuid ∧ (f p).inbox = p.inbox) :
    Idle b { b with modules := b.modules.map f } := by
  refine ⟨rfl, rfl, fun p' hp' => ?_⟩
  obtain ⟨p, hp, rfl⟩ := List.mem_map.1 hp'
  exact .inl ⟨p, hp, (hf p).1.symm, (hf p).2.symm⟩

/-! ### The operations of an instance -/

variable {r : ℕ} {s : Instance}

namespace Instance

theorem ctx_setCtx_self (s : Instance) (r : ℕ) (b : Ctx) : (s.setCtx r b).ctx r = b :=
  Function.update_self ..

theorem ctx_setCtx_of_ne (s : Instance) (b : Ctx) (h : i ≠ r) : (s.setCtx r b).ctx i = s.ctx i :=
  Function.update_of_ne h ..

/-- A relation between the brokers of two states holds everywhere if it holds at the broker
that is changed. -/
theorem forall_setCtx {R : Ctx → Ctx → Prop} (hrefl : ∀ b, R b b) {b : Ctx} (h : R (s.ctx r) b)
    (i : ℕ) : R (s.ctx i) ((s.setCtx r b).ctx i) := by
  by_cases hi : i = r
  · rw [hi, ctx_setCtx_self]
    exact h
  · rw [ctx_setCtx_of_ne s b hi]
    exact hrefl _

theorem children_accept (s : Instance) (r : ℕ) (topic : Bytes) (event : Event) (i : ℕ) :
    ((s.accept r topic event).ctx i).children = (s.ctx i).children :=
  forall_setCtx (R := fun b b' => b'.children = b.children) (s := s.mcastChild r event)
    (b := (s.ctx r).accept topic event) (fun _ => rfl) rfl i

theorem accept_passes (s : Instance) (r : ℕ) {topic : Bytes} (ht : event.topic = some topic)
    (i : ℕ) : Passes (s.ctx i) ((s.accept r topic event).ctx i) :=
  forall_setCtx (s := s.mcastChild r event) (fun b => .inl (idle_self b))
    (.inr ⟨event, topic, ht, rfl, moduleEventMcast_given _ _ _⟩) i

/-- `handle_event` drops an event, and the brokers accept nothing; or the event has a topic and
a new number, and is accepted. -/
theorem handleEvent_cases (s : Instance) (r : ℕ) (event : Event) :
    ((s.handleEvent r event).2 = false ∧ ∀ i, Idle (s.ctx i) ((s.handleEvent r event).1.ctx i)) ∨
      ∃ topic, event.topic = some topic ∧ (s.ctx r).eventRecvSeq < event.seq ∧
        s.handleEvent r event = (s.accept r topic event, true) := by
  rw [handleEvent]
  split
  · exact .inl ⟨rfl, forall_setCtx idle_self (.of_modules rfl rfl rfl)⟩
  rename_i topic ht
  split
  · exact .inl ⟨rfl, fun i => idle_self _⟩
  · rename_i hseq
    exact .inr ⟨topic, ht, Nat.lt_of_not_le hseq, rfl⟩

theorem sendEvent_cases (s : Instance) (event : Event) :
    (0 < (s.sendEvent event).sendFailures ∧ ∀ i, Idle (s.ctx i) ((s.sendEvent event).ctx i)) ∨
      ∃ topic, event.topic = some topic ∧ s.sendEvent event =
          accept { s with published := s.published ++ [event] } 0 topic event := by
  rcases handleEvent_cases { s with published := s.published ++ [event] } 0 event with
    ⟨hdrop, hidle⟩ | ⟨topic, ht, -, hacc⟩
  · rw [sendEvent, if_neg (by simp [hdrop])]
    exact .inl ⟨Nat.succ_pos _, hidle⟩
  · rw [sendEvent, hacc]
    exact .inr ⟨topic, ht, rfl⟩

end Instance

/-! ### The instance as a relay -/

variable {t : Instance}

section

variable (top : Topology)

/-- The instance, seen as a tree of relays. -/
def Instance.relay (s : Instance) : Relay Event where
  log r := (s.ctx r).accepted
  link := s.down
  joined := { c | c ∈ (s.ctx (top.parent c)).children }

/-- What holds as long as no event has failed to be sent: the instance is a coherent tree of
relays whose root has taken all events published, and these are numbered from one. -/
structure Sound (s : Instance) : Prop where
  coherent : (s.relay top).Coherent top.parent
  child : ∀ r, ∀ c ∈ (s.ctx r).children, c ≠ 0 ∧ top.parent c = r
  ranks : ∀ r, (s.ctx r).Sound
  root : (s.ctx 0).accepted = s.published
  numbers : s.published.map Event.seq = range' 1 s.published.length
  seq : s.seq = s.published.length
  topics : ∀ event ∈ s.published, event.topic ≠ none

/-- Fewer than `2 ^ 31` events have been published, and all of them could be sent. -/
def Within (s : Instance) : Prop := s.published.length < 2 ^ 31 ∧ s.sendFailures = 0

theorem within_handleEvent : Within (s.handleEvent r event).1 ↔ Within s := by
  rw [Instance.handleEvent]
  split
  · exact Iff.rfl
  · split <;> exact Iff.rfl

variable {top}

/-- **Accepting an event** is taking an item of the relay. -/
theorem Instance.relay_accept (hch : ∀ c ∈ (s.ctx r).children, c ≠ 0 ∧ top.parent c = r)
    (topic : Bytes) (event : Event) :
    (s.accept r topic event).relay top = (s.relay top).take top.parent r event := by
  apply Relay.ext
  · funext i
    by_cases hi : i = r
    · subst hi
      simp [relay, accept, ctx_setCtx_self, Relay.take, Ctx.accept]
    · simp [relay, accept, ctx_setCtx_of_ne _ _ hi, Relay.take, hi, mcastChild]
  · funext c
    have hiff : c ∈ (s.ctx r).children ↔ c ≠ 0 ∧ top.parent c = r ∧ c ∈ (s.relay top).joined := by
      constructor
      · intro hc
        obtain ⟨hc0, hp⟩ := hch c hc
        refine ⟨hc0, hp, ?_⟩
        rw [← hp] at hc
        exact hc
      · rintro ⟨-, hp, hc⟩
        rw [← hp]
        exact hc
    by_cases hc : c ∈ (s.ctx r).children
    · exact (if_pos hc).trans (if_pos (hiff.1 hc)).symm
    · exact (if_neg hc).trans (if_neg (mt hiff.2 hc)).symm
  · ext c
    change c ∈ ((s.accept r topic event).ctx (top.parent c)).children ↔
      c ∈ (s.ctx (top.parent c)).children
    rw [children_accept]

/-- A change of an instance in which no event moves. -/
structure Quiet (s t : Instance) : Prop where
  idle : ∀ r, Idle (s.ctx r) (t.ctx r)
  log : ∀ r, (t.ctx r).log = (s.ctx r).log
  down : t.down = s.down
  published : t.published = s.published
  seq : t.seq = s.seq
  sendFailures : t.sendFailures = s.sendFailures

theorem quiet_setCtx {b : Ctx} (hidle : Idle (s.ctx r) b) (hlog : b.log = (s.ctx r).log) :
    Quiet s (s.setCtx r b) where
  idle := Instance.forall_setCtx idle_self hidle
  log := Instance.forall_setCtx (R := fun b b' => b'.log = b.log) (fun _ => rfl) hlog
  down := rfl
  published := rfl
  seq := rfl
  sendFailures := rfl

theorem Ctx.Sound.idle (h : b.Sound) (hidle : Idle b b') (hlog : b'.log = b.log) : b'.Sound := by
  refine ⟨?_, hlog.trans h.log, fun p' hp' => ?_⟩
  · rw [hidle.recvSeq, hidle.accepted]
    exact h.recvSeq
  · rw [hidle.accepted]
    rcases hidle.inbox p' hp' with ⟨p, hp, -, hib⟩ | ⟨hib, -⟩
    · rw [← hib]
      exact h.inbox p hp
    · rw [hib]
      exact nil_sublist _

theorem Quiet.sound (hst : Quiet s t) (h : Sound top s)
    (hcoh : (t.relay top).Coherent top.parent)
    (hch : ∀ r, ∀ c ∈ (t.ctx r).children, c ≠ 0 ∧ top.parent c = r) : Sound top t where
  coherent := hcoh
  child := hch
  ranks r := (h.ranks r).idle (hst.idle r) (hst.log r)
  root := by rw [(hst.idle 0).accepted, hst.published, h.root]
  numbers := by rw [hst.published, h.numbers]
  seq := by rw [hst.published, hst.seq, h.seq]
  topics := by rw [hst.published]; exact h.topics

theorem Quiet.sound_of_children (hst : Quiet s t) (h : Sound top s)
    (hchn : ∀ r, (t.ctx r).children = (s.ctx r).children) : Sound top t := by
  have hrelay : t.relay top = s.relay top := by
    apply Relay.ext
    · exact funext fun r => (hst.idle r).accepted
    · exact hst.down
    · ext c
      change c ∈ (t.ctx (top.parent c)).children ↔ c ∈ (s.ctx (top.parent c)).children
      rw [hchn]
  refine hst.sound h ?_ fun r => ?_
  · rw [hrelay]
    exact h.coherent
  · rw [hchn]
    exact h.child r

/-- **A check-in** is a node of the tree that joins. -/
theorem Sound.checkin (h : Sound top s) (hc : c ≠ 0) :
    Sound top (s.setCtx (top.parent c) ((s.ctx (top.parent c)).checkinChild c)) := by
  by_cases hmem : c ∈ (s.ctx (top.parent c)).children
  · rw [Ctx.checkinChild, if_pos hmem, Instance.setCtx, Function.update_eq_self]
    exact h
  rw [Ctx.checkinChild, if_neg hmem]
  set b : Ctx := { s.ctx (top.parent c) with
    children := (s.ctx (top.parent c)).children ++ [c] } with hb
  have hst : Quiet s (s.setCtx (top.parent c) b) :=
    quiet_setCtx (.of_modules rfl rfl rfl) rfl
  have hchn : ∀ r d, d ∈ ((s.setCtx (top.parent c) b).ctx r).children ↔
      d ∈ (s.ctx r).children ∨ (r = top.parent c ∧ d = c) := by
    intro r d
    by_cases hr : r = top.parent c
    · rw [hr, Instance.ctx_setCtx_self]
      simp [hb]
    · rw [Instance.ctx_setCtx_of_ne s b hr]
      simp [hr]
  have hrelay : (s.setCtx (top.parent c) b).relay top =
      { s.relay top with joined := insert c (s.relay top).joined } := by
    apply Relay.ext
    · exact funext fun r => (hst.idle r).accepted
    · rfl
    · ext d
      change d ∈ ((s.setCtx (top.parent c) b).ctx (top.parent d)).children ↔
        d = c ∨ d ∈ (s.ctx (top.parent d)).children
      rw [hchn]
      constructor
      · rintro (hd | ⟨-, hd⟩)
        · exact .inr hd
        · exact .inl hd
      · rintro (rfl | hd)
        · exact .inr ⟨rfl, rfl⟩
        · exact .inl hd
  refine hst.sound h ?_ fun r d hd => ?_
  · rw [hrelay]
    exact (Relay.Step.join _ c).coherent top.parent_lt h.coherent
  · rcases (hchn r d).1 hd with hd | ⟨rfl, rfl⟩
    · exact h.child r d hd
    · exact ⟨hc, rfl⟩

theorem ranks_accept (h : ∀ r, (s.ctx r).Sound) (topic : Bytes)
    (hnext : (s.ctx r).eventRecvSeq = 0 ∨ event.seq = (s.ctx r).eventRecvSeq + 1) (i : ℕ) :
    ((s.accept r topic event).ctx i).Sound :=
  Instance.forall_setCtx (R := fun b b' => b.Sound → b'.Sound) (s := s.mcastChild r event)
    (fun _ hb => hb) (fun hb => hb.accept topic hnext) i (h i)

theorem child_accept (h : ∀ r, ∀ c ∈ (s.ctx r).children, c ≠ 0 ∧ top.parent c = r) (r : ℕ)
    (topic : Bytes) (event : Event) (i : ℕ) :
    ∀ c ∈ ((s.accept r topic event).ctx i).children, c ≠ 0 ∧ top.parent c = i := by
  rw [Instance.children_accept]
  exact h i

section

variable (h : Sound top s)
include h

/-- **Publishing an event:** the number of the next event is the number of events then
published, and rank 0 accepts it. -/
theorem Sound.publish (ht : event.topic = some topic) (hseq : event.seq = s.published.length + 1)
    : Sound top (Instance.accept
      { s with seq := event.seq, published := s.published ++ [event] } 0 topic event) := by
  set u : Instance := { s with seq := event.seq, published := s.published ++ [event] } with hu
  have hlast : (s.ctx 0).eventRecvSeq = s.published.length := by
    rw [(h.ranks 0).recvSeq, h.root, lastSeq, ← getLast?_map, h.numbers]
    cases s.published.length with
    | zero => rfl
    | succ n => rw [List.range'_1_concat]; simp [Nat.add_comm]
  refine ⟨?_, child_accept (s := u) h.child 0 topic event, ?_, ?_, ?_, ?_, ?_⟩
  · rw [Instance.relay_accept (s := u) (h.child 0)]
    exact (Relay.Step.inject (u.relay top) event).coherent top.parent_lt h.coherent
  · exact ranks_accept (s := u) h.ranks topic (.inr (by rw [hseq, ← hlast]))
  · rw [Instance.accept, Instance.ctx_setCtx_self, Ctx.accept]
    exact congrArg (· ++ [event]) h.root
  · change (s.published ++ [event]).map Event.seq = range' 1 (s.published ++ [event]).length
    rw [map_append, h.numbers, length_append, length_singleton,
      List.range'_1_concat, Nat.add_comm 1]
    exact congrArg (_ ++ [·]) hseq
  · change event.seq = (s.published ++ [event]).length
    rw [hseq, length_append, length_singleton]
  · intro e he
    rcases mem_append.1 he with he | he
    · exact h.topics e he
    · rw [mem_singleton.1 he, ht]
      exact some_ne_none topic

/-- **An event from the parent** has a topic and the next number, so that it is accepted. -/
theorem Sound.next (hr : r ≠ 0) (hdown : s.down r = event :: rest) :
    (∃ topic, event.topic = some topic) ∧ 0 < event.seq ∧
      ((s.ctx r).eventRecvSeq = 0 ∨ event.seq = (s.ctx r).eventRecvSeq + 1) := by
  have hpc : (s.ctx r).accepted ++ event :: rest <:+: s.published := by
    have hstream := h.coherent.stream_infix top.parent_lt hr
    change (s.ctx r).accepted ++ s.down r <:+: (s.ctx 0).accepted at hstream
    rwa [hdown, h.root] at hstream
  have hmem : event ∈ s.published :=
    hpc.subset (mem_append_right _ (mem_cons_self ..))
  refine ⟨ne_none_iff_exists'.1 (h.topics event hmem), ?_, ?_⟩
  · have hseq := List.mem_map_of_mem (f := Event.seq) hmem
    rw [h.numbers, List.mem_range'_1] at hseq
    exact hseq.1
  · obtain ⟨a, -, hnums⟩ := eq_range'_of_infix (h.numbers ▸ hpc.map Event.seq)
    rw [(h.ranks r).recvSeq]
    exact lastSeq_of_range' hnums

theorem Sound.parentCb_eq (hr : r ≠ 0) (hdown : s.down r = event :: rest) :
    ∃ topic, s.parentCb r = some
      (Instance.accept { s with down := Function.update s.down r rest } r topic event) := by
  obtain ⟨⟨topic, ht⟩, hpos, hnext⟩ := h.next hr hdown
  have hnew : ¬ event.seq ≤ (s.ctx r).eventRecvSeq := by omega
  refine ⟨topic, ?_⟩
  rw [Instance.parentCb, hdown]
  simp only [Instance.handleEvent, ht, if_neg hnew]

/-- **Handling an event from the parent.** -/
theorem Sound.parentCb (hr : r ≠ 0) (hst : s.parentCb r = some t) :
    Sound top t := by
  obtain ⟨event, rest, hdown⟩ : ∃ event rest, s.down r = event :: rest := by
    rw [Instance.parentCb] at hst
    split at hst
    · cases hst
    · exact ⟨_, _, by assumption⟩
  obtain ⟨topic, hacc⟩ := h.parentCb_eq hr hdown
  obtain rfl := some.inj (hacc.symm.trans hst)
  set u : Instance := { s with down := Function.update s.down r rest } with hu
  refine ⟨?_, child_accept (s := u) h.child r topic event, ?_, ?_, h.numbers, h.seq, h.topics⟩
  · rw [Instance.relay_accept (s := u) (h.child r)]
    exact (Relay.Step.relay (s.relay top) hr hdown).coherent top.parent_lt h.coherent
  · exact ranks_accept (s := u) h.ranks topic (h.next hr hdown).2.2
  · rw [Instance.accept, Instance.ctx_setCtx_of_ne _ _ hr.symm]
    exact h.root

/-! ### Every step of an instance -/

theorem Sound.of_messages (up : ℕ → List (Option Event)) (answers : List (Except Errno ℕ)) :
    Sound top { s with up, answers } :=
  { h with }

end

theorem sound_sendEvent (h : Within s → Sound top s) (event : Event)
    (hseq : event.seq = (s.seq + 1) % 2 ^ 32)
    (ht : Within (Instance.sendEvent { s with seq := event.seq } event)) :
    Sound top (Instance.sendEvent { s with seq := event.seq } event) := by
  rcases Instance.sendEvent_cases { s with seq := event.seq } event with
    ⟨hfail, -⟩ | ⟨topic, htop, hsend⟩
  · have := ht.2
    omega
  rw [hsend] at ht ⊢
  have hlen : (s.published ++ [event]).length < 2 ^ 31 := ht.1
  rw [length_append, length_singleton] at hlen
  have hs : Sound top s := h ⟨by omega, ht.2⟩
  have hnext : event.seq = s.published.length + 1 := by
    rw [hseq, hs.seq, Nat.mod_eq_of_lt (by omega)]
  exact hs.publish htop hnext

theorem sound_eventSendmsg (h : Within s → Sound top s) (ht : Within (s.eventSendmsg r event)) :
    Sound top (s.eventSendmsg r event) := by
  rw [Instance.eventSendmsg] at ht ⊢
  split at ht
  · rw [if_pos ‹_›]
    exact (h ht).of_messages _ _
  · rw [if_neg ‹_›]
    exact sound_sendEvent h { event with seq := (s.seq + 1) % 2 ^ 32 } rfl ht

theorem encodeEvent_seq (h : encodeEvent base64 topic seq src = .ok event) : event.seq = seq := by
  unfold encodeEvent at h
  split at h
  · cases h
    rfl
  split at h
  · cases h
  · cases h
    rfl

/-- A request `event.pub` is answered with an error, and the number is given back if it was
taken; or an event with the next number is sent. -/
theorem pubCb_cases (base64 : Bytes → Option Bytes) (s : Instance) (req : Option PubRequest) :
    (∃ seq e, (seq = s.seq ∨ seq = ((s.seq + 1) % 2 ^ 32 + (2 ^ 32 - 1)) % 2 ^ 32) ∧
        s.pubCb base64 req = { s with seq, answers := s.answers ++ [.error e] }) ∨
      ∃ event answers, event.seq = (s.seq + 1) % 2 ^ 32 ∧ s.pubCb base64 req =
          { Instance.sendEvent { s with seq := event.seq } event with answers } := by
  cases req with
  | none => exact .inl ⟨_, _, .inl rfl, rfl⟩
  | some req =>
    simp only [Instance.pubCb]
    split
    · exact .inl ⟨_, _, .inl rfl, rfl⟩
    split
    · exact .inl ⟨_, _, .inr rfl, rfl⟩
    rename_i event he
    have hseq := encodeEvent_seq he
    have hstate : { s with seq := (s.seq + 1) % 2 ^ 32 } = { s with seq := event.seq } := by
      rw [hseq]
    rw [hstate]
    exact .inr ⟨event, _, hseq, rfl⟩

theorem sound_pubCb (h : Within s → Sound top s) (ht : Within (s.pubCb base64 req)) :
    Sound top (s.pubCb base64 req) := by
  rcases pubCb_cases base64 s req with ⟨seq, e, hseq, heq⟩ | ⟨event, answers, hseq, heq⟩
  · rw [heq] at ht ⊢
    have hs : Sound top s := h ht
    have hback : seq = s.seq := by
      have hfew : s.published.length < 2 ^ 31 := ht.1
      have := hs.seq
      omega
    rw [hback]
    exact hs.of_messages _ _
  · rw [heq] at ht ⊢
    exact (sound_sendEvent h event hseq ht).of_messages _ _

theorem sound_childCb (h : Within s → Sound top s) (hr : r ≠ 0) (hst : s.childCb top r = some t)
    (ht : Within t) : Sound top t := by
  rw [Instance.childCb] at hst
  split at hst
  · cases hst
  rename_i msg rest hup
  obtain rfl := some.inj hst
  set u : Instance := { s with up := Function.update s.up r rest } with hu
  have hchkd : Within u →
      Sound top (u.setCtx (top.parent r) ((u.ctx (top.parent r)).checkinChild r)) := by
    intro hw
    exact Sound.checkin ((h hw).of_messages _ _) hr
  cases msg with
  | none => exact hchkd ht
  | some event => exact sound_eventSendmsg hchkd ht

variable {base64 : Bytes → Option Bytes}

/-- What the steps of an instance are: modules come, go and subscribe, and messages are sent that
are no events; an event is published or passed upstream; or the oldest message on a link is
handled. -/
theorem step_cases {l : Label} (hst : (machine base64 top).step l s = some t) :
    (Quiet s t ∧ ∀ r, (t.ctx r).children = (s.ctx r).children) ∨
      (∃ req, t = s.pubCb base64 req) ∨ (∃ r event, t = s.eventSendmsg r event) ∨
      (∃ r, r ≠ 0 ∧ s.childCb top r = some t) ∨ ∃ r, r ≠ 0 ∧ s.parentCb r = some t := by
  have hset : ∀ {r : ℕ} {b : Ctx}, some (s.setCtx r b) = some t → Idle (s.ctx r) b →
      b.log = (s.ctx r).log → b.children = (s.ctx r).children →
      Quiet s t ∧ ∀ r, (t.ctx r).children = (s.ctx r).children := by
    rintro r b heq hidle hlog hchn
    obtain rfl := some.inj heq
    exact ⟨quiet_setCtx hidle hlog,
      Instance.forall_setCtx (R := fun b b' => b'.children = b.children) (fun _ => rfl)
        hchn⟩
  cases l with
  | pub req => exact .inr (.inl ⟨req, (some.inj hst).symm⟩)
  | send r event =>
    obtain ⟨-, heq⟩ := ite_none_right_eq_some.1 hst
    exact .inr (.inr (.inl ⟨r, event, (some.inj heq).symm⟩))
  | keepalive r =>
    obtain ⟨-, heq⟩ := ite_none_right_eq_some.1 hst
    obtain rfl := some.inj heq
    exact .inl ⟨⟨fun i => idle_self _, fun _ => rfl, rfl, rfl, rfl, rfl⟩, fun _ => rfl⟩
  | child r =>
    obtain ⟨hr, heq⟩ := ite_none_right_eq_some.1 hst
    exact .inr (.inr (.inr (.inl ⟨r, hr.1, heq⟩)))
  | parent r =>
    obtain ⟨hr, heq⟩ := ite_none_right_eq_some.1 hst
    exact .inr (.inr (.inr (.inr ⟨r, hr.1, heq⟩)))
  | insmod r uuid =>
    obtain ⟨⟨-, hnew⟩, heq⟩ := ite_none_right_eq_some.1 hst
    refine .inl (hset heq ⟨rfl, rfl, fun p hp => ?_⟩ rfl rfl)
    rcases mem_append.1 hp with hp | hp
    · exact .inl ⟨p, hp, rfl, rfl⟩
    · obtain rfl := mem_singleton.1 hp
      exact .inr ⟨rfl, hnew⟩
  | rmmod r uuid =>
    obtain ⟨-, heq⟩ := ite_none_right_eq_some.1 hst
    refine .inl (hset heq ⟨rfl, rfl, fun p hp => ?_⟩ rfl rfl)
    exact .inl ⟨p, mem_of_mem_filter hp, rfl, rfl⟩
  | subscribe r uuid topic | unsubscribe r uuid topic =>
    obtain ⟨-, heq⟩ := ite_none_right_eq_some.1 hst
    refine .inl (hset heq (idle_map fun p => ?_) rfl rfl)
    split <;> exact ⟨rfl, rfl⟩
  | brokerSubscribe r topic | brokerUnsubscribe r topic =>
    obtain ⟨-, heq⟩ := ite_none_right_eq_some.1 hst
    exact .inl (hset heq (.of_modules rfl rfl rfl) rfl rfl)

/-- **One step** keeps an instance sound, as long as events can be sent. -/
theorem sound_step (h : Within s → Sound top s) (hst : (machine base64 top).step l s = some t)
    (ht : Within t) : Sound top t := by
  rcases step_cases hst with
    ⟨hqt, hchn⟩ | ⟨req, rfl⟩ | ⟨r, event, rfl⟩ | ⟨r, hr, hcb⟩ | ⟨r, hr, hcb⟩
  · have hs : Within s := by
      rw [Within, ← hqt.published, ← hqt.sendFailures]
      exact ht
    exact hqt.sound_of_children (h hs) hchn
  · exact sound_pubCb h ht
  · exact sound_eventSendmsg h ht
  · exact sound_childCb h hr hcb ht
  · have hs : Within s := by
      rw [Instance.parentCb] at hcb
      split at hcb
      · cases hcb
      obtain rfl := some.inj hcb
      have hu := within_handleEvent.1 ht
      exact hu
    exact (h hs).parentCb hr hcb

/-- **Every run** keeps an instance sound, as long as events can be sent. -/
theorem Reachable.sound (hs : Reachable base64 top s) (hw : Within s) : Sound top s := by
  refine hs.invariant (fun s => Within s → Sound top s) ?_ ?_ hw
  · rintro _ rfl -
    refine ⟨⟨fun c _ => nil_suffix, fun c _ _ => ⟨rfl, rfl⟩⟩, fun r c hc => ?_, fun r => ?_,
      rfl, rfl, rfl, fun event he => ?_⟩
    · cases hc
    · exact ⟨rfl, rfl, fun p hp => by cases hp⟩
    · cases he
  · intro s l t _ h _ hst
    exact sound_step h hst

/-! ### What each step passes to the modules -/

theorem Idle.passes (h : Idle b b') (hmods : b'.modules = b.modules) (h' : Passes b' b'') :
    Passes b b'' := by
  rcases h' with hidle | ⟨event, topic, ht, haccepted, hgiv⟩
  · refine .inl ⟨hidle.accepted.trans h.accepted, hidle.recvSeq.trans h.recvSeq, ?_⟩
    rw [← hmods]
    exact hidle.inbox
  rw [h.accepted] at haccepted
  rw [hmods] at hgiv
  exact .inr ⟨event, topic, ht, haccepted, hgiv⟩

theorem Instance.handleEvent_passes (s : Instance) (r : ℕ) (event : Event) (i : ℕ) :
    Passes (s.ctx i) ((s.handleEvent r event).1.ctx i) := by
  rcases s.handleEvent_cases r event with ⟨-, hidle⟩ | ⟨topic, ht, -, hacc⟩
  · exact .inl (hidle i)
  · rw [hacc]
    exact accept_passes s r ht i

theorem Instance.sendEvent_passes (s : Instance) (event : Event) (i : ℕ) :
    Passes (s.ctx i) ((s.sendEvent event).ctx i) := by
  rcases s.sendEvent_cases event with ⟨-, hidle⟩ | ⟨topic, ht, hacc⟩
  · exact .inl (hidle i)
  · rw [hacc]
    exact accept_passes { s with published := s.published ++ [event] } 0 ht i

theorem Instance.eventSendmsg_passes (s : Instance) (r : ℕ) (event : Event) (i : ℕ) :
    Passes (s.ctx i) ((s.eventSendmsg r event).ctx i) := by
  rw [eventSendmsg]
  split
  · exact .inl (idle_self _)
  · exact sendEvent_passes { s with seq := (s.seq + 1) % 2 ^ 32 } _ i

theorem Instance.childCb_passes (hst : s.childCb top r = some t) (i : ℕ) :
    Passes (s.ctx i) (t.ctx i) := by
  rw [childCb] at hst
  split at hst
  · cases hst
  rename_i msg rest hup
  obtain rfl := some.inj hst
  set u : Instance := { s with up := Function.update s.up r rest } with hu
  set v : Instance := u.setCtx (top.parent r) ((u.ctx (top.parent r)).checkinChild r) with hv
  have hchkd : Idle (s.ctx i) (v.ctx i) ∧ (v.ctx i).modules = (s.ctx i).modules := by
    refine forall_setCtx (R := fun b b' => Idle b b' ∧ b'.modules = b.modules) (s := u)
      (fun b => ⟨idle_self b, rfl⟩) ?_ i
    rw [Ctx.checkinChild]
    split
    · exact ⟨idle_self _, rfl⟩
    · exact ⟨.of_modules rfl rfl rfl, rfl⟩
  cases msg with
  | none => exact .inl hchkd.1
  | some event => exact hchkd.1.passes hchkd.2 (v.eventSendmsg_passes _ event i)

/-- **One step:** a rank accepts no event, or passes the one it accepts once to each module with
a matching subscription. -/
theorem step_passes (hst : (machine base64 top).step l s = some t) (r : ℕ) :
    Passes (s.ctx r) (t.ctx r) := by
  rcases step_cases hst with
    ⟨hqt, -⟩ | ⟨req, rfl⟩ | ⟨q, event, rfl⟩ | ⟨q, -, hcb⟩ | ⟨q, -, hcb⟩
  · exact .inl (hqt.idle r)
  · rcases pubCb_cases base64 s req with ⟨seq, e, -, heq⟩ | ⟨event, answers, -, heq⟩
    · rw [heq]
      exact .inl (idle_self _)
    · rw [heq]
      exact Instance.sendEvent_passes { s with seq := event.seq } event r
  · exact s.eventSendmsg_passes q event r
  · exact Instance.childCb_passes hcb r
  · rw [Instance.parentCb] at hcb
    split at hcb
    · cases hcb
    · obtain rfl := some.inj hcb
      exact Instance.handleEvent_passes { s with down := Function.update s.down q _ } q _ r

variable (top base64) in
/-- Events are numbered and delivered in order: rank 0 has numbered what it has published from
one on, and has accepted all of it; what any rank has accepted has numbers in a row; an event
that comes from the parent is accepted; modules have been sent accepted events only, in order;
and each accepted event is passed once to each module with a matching subscription. -/
structure InOrder (s : Instance) : Prop where
  numbers : s.published.map Event.seq = range' 1 s.published.length
  root : (s.ctx 0).accepted = s.published
  accepted : ∀ r, (s.ctx r).accepted <:+: s.published ∧
    ∃ first, (s.ctx r).accepted.map Event.seq = range' first (s.ctx r).accepted.length
  received : ∀ r event rest, r ≠ 0 → r < top.size → s.down r = event :: rest →
    ∃ t, (machine base64 top).step (.parent r) s = some t ∧
      (t.ctx r).accepted = (s.ctx r).accepted ++ [event]
  inbox : ∀ r, ∀ p ∈ (s.ctx r).modules, p.inbox.Sublist (s.ctx r).accepted
  passed : ∀ l t, (machine base64 top).step l s = some t → ∀ r, Passes (s.ctx r) (t.ctx r)

end

/-- Two ranks. -/
def pair : Topology where
  size := 2
  parent _ := 0
  parent_lt _ hi := Nat.pos_of_ne_zero hi

/-- A decoder that takes only the empty text. -/
def emptyOnly (src : Bytes) : Option Bytes := if src = [] then some [] else none

/-- An event is published before rank 1 has checked in; a request fails to encode; and the rank
sends an event itself, which comes back to it and to its module after another one. -/
def joinLate : List Label :=
  [.pub (some { topic := [1] }), .keepalive 1, .child 1, .insmod 1 7, .subscribe 1 7 [2],
    .pub (some { topic := [2], payload := some [61] }), .send 1 { topic := some [2, 3] },
    .pub (some { topic := [4], payload := some [] }), .child 1, .parent 1, .parent 1]

/-- The numbers of the events published, accepted on rank 1 and sent to its modules, and the
count of those that could not be sent. -/
def Instance.numbers (s : Instance) : List ℕ × List ℕ × List (List ℕ) × ℕ :=
  (s.published.map Event.seq, (s.ctx 1).accepted.map Event.seq,
    (s.ctx 1).modules.map fun p => p.inbox.map Event.seq, s.sendFailures)

/-- An event without a topic is given a number, but `handle_event` drops it: this is a failure
to send. -/
example : ((machine emptyOnly pair).run
    [.send 0 { topic := none }, .pub (some { topic := [1] })] {}).map
      (fun s => ((s.ctx 0).accepted.map Event.seq, s.sendFailures)) = some ([2], 1) := by
  decide

end FluxCore.Broker.Events
