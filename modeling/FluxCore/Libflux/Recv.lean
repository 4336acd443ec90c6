import FluxCore.Libflux.Message
import Mathlib.Data.List.TakeWhile

/-!
# Receiving with a Match

`flux_recv` of `libflux/handle.c`: take messages from the queue of the handle, and then from
its connector, up to one that matches; the others are put back at the tail of the queue.

The source of a handle lists what the calls of the connector's `recv` return: a message or an
error. The error `EAGAIN` (which is `EWOULDBLOCK`) means that there is no message yet, and so
does the end of the list. Other errors are fatal to the call, which then loses the messages it
has put aside. The queue is one of copies, which have the same frames. `fnmatch` is the
pattern matching of the C library.
-/

namespace FluxCore.Libflux

open List

/-! ### Matching -/

/-- `struct flux_match`. -/
structure Match where
  typemask : ℕ
  matchtag : ℕ := 0
  topicGlob : Option Bytes := none

/-- `FLUX_MATCH_ANY`. -/
def matchAny : Match := { typemask := 0x0f }

/-- `FLUX_MATCH_RESPONSE`. -/
def matchResponse : Match := { typemask := 0x02 }

/-- `flux_msg_get_type`; `none` is `EPROTO`. -/
def fluxMsgGetType (z : Zmsg) : Option UInt8 := z.frames.getLast?.bind protoGetType

/-- `flux_msg_get_matchtag`. -/
def fluxMsgGetMatchtag (z : Zmsg) : Option ℕ := do
  let type ← fluxMsgGetType z
  if type ≠ 1 ∧ type ≠ 2 then none else z.frames.getLast?.bind protoGetBigint2

/-- `flux_msg_get_route_count`. -/
def fluxMsgGetRouteCount (z : Zmsg) : Option ℕ := do
  let flags ← fluxMsgGetFlags z
  if flags &&& msgflagRoute = 0 then none
  else some (z.frames.takeWhile (·.length > 0)).length

/-- `flux_msg_get_topic`: a string with its terminator. -/
def fluxMsgGetTopic (z : Zmsg) : Option Bytes := do
  let flags ← fluxMsgGetFlags z
  if flags &&& msgflagTopic = 0 then none
  else
    let i ← (skipRouteFrames z flags).1
    let frame := z.frames.getD i []
    if frame.getLast? ≠ some 0 then none else some (frame.takeWhile (· ≠ 0))

/-- `FLUX_MATCHTAG_GROUP_SHIFT`. -/
def matchtagGroupShift : ℕ := 20

/-- `flux_msg_cmp_matchtag`. Messages with routes belong to another matchtag domain. -/
def fluxMsgCmpMatchtag (z : Zmsg) (matchtag : ℕ) : Bool :=
  if (fluxMsgGetRouteCount z).any (· > 0) then false
  else
    match fluxMsgGetMatchtag z with
    | none => false
    | some tag =>
      let matchgroup := matchtag >>> matchtagGroupShift
      if matchgroup > 0 ∧ tag >>> matchtagGroupShift ≠ matchgroup then false
      else if matchgroup = 0 ∧ tag ≠ matchtag then false
      else true

/-- `isa_glob`. -/
def isaGlob (s : Bytes) : Bool := s.contains 42 || s.contains 63

/-- `flux_msg_cmp`. -/
def fluxMsgCmp (fnmatch : Bytes → Bytes → Bool) (z : Zmsg) (m : Match) : Bool :=
  (m.typemask = 0 || (fluxMsgGetType z).any fun type => type.toNat &&& m.typemask ≠ 0) &&
    (m.matchtag = matchtagNone.toNat || fluxMsgCmpMatchtag z m.matchtag) &&
    match m.topicGlob with
    | none => true
    | some glob =>
      if glob.length > 0 ∧ glob ≠ [42] then
        match fluxMsgGetTopic z with
        | none => false
        | some topic => if isaGlob glob then fnmatch glob topic else glob = topic
      else true

/-! ### The queue of a handle -/

/-- The queue of a handle, and what its connector returns. -/
structure Handle where
  queue : List Zmsg := []
  source : List (Except Errno Zmsg) := []

/-- `flux_recv_any`. -/
def fluxRecvAny (h : Handle) : Except Errno Zmsg × Handle :=
  match h.queue with
  | msg :: queue => (.ok msg, { h with queue := queue })
  | [] =>
    match h.source with
    | [] => (.error .EAGAIN, h)
    | r :: source => (r, { h with source := source })

/-- `defer_requeue`. -/
def deferRequeue (l : List Zmsg) (h : Handle) : Handle := { h with queue := h.queue ++ l }

/-- The loop of `flux_recv`, with the list `l` of the messages that have been put aside, for
at most the given number of turns. -/
def recvMatchLoop (cmp : Zmsg → Bool) : ℕ → List Zmsg → Handle → Option (Except Errno Zmsg × Handle)
  | 0, _, _ => none
  | turns + 1, l, h =>
    match fluxRecvAny h with
    | (.error e, h) =>
      if e ≠ .EAGAIN then some (.error e, h) else some (.error .EAGAIN, deferRequeue l h)
    | (.ok msg, h) =>
      if !cmp msg then recvMatchLoop cmp turns (l ++ [msg]) h
      else some (.ok msg, deferRequeue l h)

/-- `flux_recv`, with the comparison that a match stands for. A turn takes a message or ends
the loop. -/
def fluxRecv (cmp : Zmsg → Bool) (h : Handle) : Option (Except Errno Zmsg × Handle) :=
  recvMatchLoop cmp (h.queue.length + h.source.length + 1) [] h

/-- The messages that the given number of calls of `flux_recv` return. -/
def recvAll (cmp : Zmsg → Bool) : ℕ → Handle → List Zmsg
  | 0, _ => []
  | n + 1, h =>
    match fluxRecv cmp h with
    | none => []
    | some (.error _, h) => recvAll cmp n h
    | some (.ok msg, h) => msg :: recvAll cmp n h

/-- The messages that a handle has or will get. -/
def Handle.pending (h : Handle) : List Zmsg := h.queue ++ h.source.filterMap Except.toOption

/-- **All later messages**, in the order in which calls with the comparison `any` return
them. -/
def Handle.deliveries (any : Zmsg → Bool) (h : Handle) : List Zmsg :=
  recvAll any (h.queue.length + h.source.length) h

/-! ### What a call does -/

/-- How a call ends. The match is in the queue, or it is delivered by the connector; or the
connector has none, for now or for good. -/
inductive Recvd (cmp : Zmsg → Bool) (l : List Zmsg) (h : Handle) : Except Errno Zmsg × Handle → Prop
  | queued {a b : List Zmsg} {msg : Zmsg} (hqueue : h.queue = a ++ msg :: b)
      (ha : ∀ m ∈ a, cmp m = false) (hmsg : cmp msg = true) :
      Recvd cmp l h (.ok msg, ⟨b ++ (l ++ a), h.source⟩)
  | delivered {xs : List Zmsg} {msg : Zmsg} {source : List (Except Errno Zmsg)}
      (hqueue : ∀ m ∈ h.queue, cmp m = false) (hxs : ∀ m ∈ xs, cmp m = false)
      (hsource : h.source = xs.map .ok ++ .ok msg :: source) (hmsg : cmp msg = true) :
      Recvd cmp l h (.ok msg, ⟨l ++ h.queue ++ xs, source⟩)
  | blocked {xs : List Zmsg} {source : List (Except Errno Zmsg)}
      (hqueue : ∀ m ∈ h.queue, cmp m = false) (hxs : ∀ m ∈ xs, cmp m = false)
      (hsource : h.source = xs.map .ok ++ .error .EAGAIN :: source ∨
        h.source = xs.map .ok ∧ source = []) :
      Recvd cmp l h (.error .EAGAIN, ⟨l ++ h.queue ++ xs, source⟩)
  | fatal {xs : List Zmsg} {e : Errno} {source : List (Except Errno Zmsg)}
      (hqueue : ∀ m ∈ h.queue, cmp m = false) (hxs : ∀ m ∈ xs, cmp m = false)
      (hsource : h.source = xs.map .ok ++ .error e :: source) (he : e ≠ .EAGAIN) :
      Recvd cmp l h (.error e, ⟨[], source⟩)

section Spec

variable {cmp : Zmsg → Bool}

theorem forall_mem_cons_false (hmsg : cmp msg = false) (h : ∀ m ∈ queue, cmp m = false) :
    ∀ m ∈ msg :: queue, cmp m = false :=
  forall_mem_cons.2 ⟨hmsg, h⟩

theorem Recvd.defer_queue (hmsg : cmp msg = false)
    (h : Recvd cmp (l ++ [msg]) ⟨queue, source⟩ r) : Recvd cmp l ⟨msg :: queue, source⟩ r := by
  cases h with
  | @queued a b m hque ha hm =>
    have hl : b ++ (l ++ [msg] ++ a) = b ++ (l ++ msg :: a) := by
      simp
    rw [hl]
    exact .queued (congrArg (msg :: ·) hque) (forall_mem_cons_false hmsg ha) hm
  | @delivered xs m source' hque hxs hsrc hm =>
    have hl : l ++ [msg] ++ queue ++ xs = l ++ msg :: queue ++ xs := by
      simp
    rw [hl]
    exact .delivered (forall_mem_cons_false hmsg hque) hxs hsrc hm
  | @blocked xs source' hque hxs hsrc =>
    have hl : l ++ [msg] ++ queue ++ xs = l ++ msg :: queue ++ xs := by
      simp
    rw [hl]
    exact .blocked (forall_mem_cons_false hmsg hque) hxs hsrc
  | fatal hque hxs hsrc he =>
    exact .fatal (forall_mem_cons_false hmsg hque) hxs hsrc he

theorem Recvd.defer_source (hmsg : cmp msg = false)
    (h : Recvd cmp (l ++ [msg]) ⟨[], source⟩ r) : Recvd cmp l ⟨[], .ok msg :: source⟩ r := by
  cases h with
  | @queued a b m hque ha hm => simp at hque
  | @delivered xs m source' hque hxs hsrc hm =>
    have hl : l ++ [msg] ++ [] ++ xs = l ++ [] ++ msg :: xs := by
      simp
    rw [hl]
    exact .delivered nofun (forall_mem_cons_false hmsg hxs) (congrArg (.ok msg :: ·) hsrc) hm
  | @blocked xs source' hque hxs hsrc =>
    have hl : l ++ [msg] ++ [] ++ xs = l ++ [] ++ msg :: xs := by
      simp
    rw [hl]
    refine .blocked nofun (forall_mem_cons_false hmsg hxs) ?_
    rcases hsrc with hsrc | ⟨hsrc, hnil⟩
    · exact .inl (congrArg (.ok msg :: ·) hsrc)
    · exact .inr ⟨congrArg (.ok msg :: ·) hsrc, hnil⟩
  | fatal hque hxs hsrc he =>
    exact .fatal nofun (forall_mem_cons_false hmsg hxs) (congrArg (.ok msg :: ·) hsrc) he

theorem recvMatchLoop_spec (cmp : Zmsg → Bool) (turns : ℕ) (l queue : List Zmsg)
    (source : List (Except Errno Zmsg)) (htns : queue.length + source.length < turns) :
    ∃ r, recvMatchLoop cmp turns l ⟨queue, source⟩ = some r ∧ Recvd cmp l ⟨queue, source⟩ r := by
  induction turns generalizing l queue source with
  | zero => omega
  | succ turns ih =>
    cases queue with
    | cons msg queue =>
      rw [length_cons] at htns
      cases hcmp : cmp msg with
      | true =>
        refine ⟨(.ok msg, ⟨queue ++ (l ++ []), source⟩), ?_, .queued rfl nofun hcmp⟩
        simp [recvMatchLoop, fluxRecvAny, hcmp, deferRequeue]
      | false =>
        obtain ⟨r, hr, hspec⟩ := ih (l ++ [msg]) queue source (by omega)
        refine ⟨r, ?_, hspec.defer_queue hcmp⟩
        simpa [recvMatchLoop, fluxRecvAny, hcmp] using hr
    | nil =>
      cases source with
      | nil =>
        refine ⟨(.error .EAGAIN, ⟨l ++ [] ++ [], []⟩), ?_, .blocked nofun nofun (.inr ⟨rfl, rfl⟩)⟩
        simp [recvMatchLoop, fluxRecvAny, deferRequeue]
      | cons res source =>
        rw [length_cons] at htns
        cases res with
        | error e =>
          by_cases he : e = .EAGAIN
          · subst he
            refine ⟨(.error .EAGAIN, ⟨l ++ [] ++ [], source⟩), ?_,
              .blocked nofun nofun (.inl rfl)⟩
            simp [recvMatchLoop, fluxRecvAny, deferRequeue]
          have hsrc : .error e :: source
              = ([] : List Zmsg).map Except.ok ++ .error e :: source := rfl
          refine ⟨(.error e, ⟨[], source⟩), ?_, .fatal nofun (forall_mem_nil _) hsrc he⟩
          simp [recvMatchLoop, fluxRecvAny, he]
        | ok msg =>
          cases hcmp : cmp msg with
          | true =>
            refine ⟨(.ok msg, ⟨l ++ [] ++ [], source⟩), ?_, .delivered nofun nofun rfl hcmp⟩
            simp [recvMatchLoop, fluxRecvAny, hcmp, deferRequeue]
          | false =>
            obtain ⟨r, hr, hspec⟩ := ih (l ++ [msg]) [] source (by omega)
            refine ⟨r, ?_, hspec.defer_source hcmp⟩
            simpa [recvMatchLoop, fluxRecvAny, hcmp] using hr

/-- **A call returns**, in one of the four ways. -/
theorem fluxRecv_spec (cmp : Zmsg → Bool) (h : Handle) :
    ∃ r, fluxRecv cmp h = some r ∧ Recvd cmp [] h r :=
  recvMatchLoop_spec cmp _ [] h.queue h.source (Nat.lt_succ_self _)

end Spec

/-! ### All later messages -/

theorem pending_of_source (queue : List Zmsg) (h : source = xs.map Except.ok ++ source') :
    Handle.pending ⟨queue, source⟩ = queue ++ xs ++ source'.filterMap Except.toOption := by
  have hxs : (xs.map (Except.ok : Zmsg → Except Errno Zmsg)).filterMap Except.toOption = xs := by
    rw [filterMap_map]
    exact filterMap_some
  rw [Handle.pending, h, filterMap_append, hxs, append_assoc]

variable {any : Zmsg → Bool}

theorem filter_eq_nil_of_false {xs : List Zmsg} (h : ∀ m ∈ xs, any m = false) :
    xs.filter any = [] := by
  rw [filter_eq_nil_iff]
  intro m hm
  rw [h m hm]
  decide

/-- **Calls with one comparison return the messages in order**, as the messages that they put
aside do not compare. -/
theorem recvAll_eq (n : ℕ) (h : Handle) (hn : (h.queue.filter any).length + h.source.length ≤ n) :
    recvAll any n h = h.pending.filter any := by
  induction n generalizing h with
  | zero =>
    obtain ⟨queue, source⟩ := h
    dsimp only at hn
    have hque : queue.filter any = [] := length_eq_zero_iff.1 (by omega)
    have hsrc : source = [] := length_eq_zero_iff.1 (by omega)
    subst hsrc
    rw [Handle.pending, filterMap_nil, append_nil, hque]
    rfl
  | succ n ih =>
    obtain ⟨r, hr, hspec⟩ := fluxRecv_spec any h
    obtain ⟨queue, source⟩ := h
    rw [recvAll, hr]
    cases hspec with
    | @queued a b msg hque ha hmsg =>
      dsimp only at hque hn ⊢
      subst hque
      have ha' := filter_eq_nil_of_false ha
      rw [filter_append, ha', filter_cons_of_pos hmsg] at hn
      rw [ih]
      · simp [Handle.pending, ha', hmsg]
      · simp [ha'] at hn ⊢
        omega
    | @delivered xs msg source' hque hxs hsrc hmsg =>
      dsimp only at hque hsrc hn ⊢
      have hq' := filter_eq_nil_of_false hque
      have hx' := filter_eq_nil_of_false hxs
      rw [hsrc] at hn
      rw [ih, pending_of_source _ hsrc]
      · simp [Handle.pending, hq', hx', hmsg, Except.toOption]
      · simp [hq', hx'] at hn ⊢
        omega
    | @blocked xs source' hque hxs hsrc =>
      dsimp only at hque hsrc hn ⊢
      have hq' := filter_eq_nil_of_false hque
      have hx' := filter_eq_nil_of_false hxs
      rcases hsrc with hsrc | ⟨hsrc, rfl⟩
      · rw [hsrc] at hn
        rw [ih, pending_of_source _ hsrc]
        · simp [Handle.pending, hq', hx', filterMap_cons, Except.toOption]
        · simp [hq', hx'] at hn ⊢
          omega
      · rw [← append_nil (xs.map Except.ok)] at hsrc
        rw [ih, pending_of_source _ hsrc]
        · simp [Handle.pending]
        · simp [hq', hx']
    | @fatal xs e source' hque hxs hsrc he =>
      dsimp only at hque hsrc hn ⊢
      have hq' := filter_eq_nil_of_false hque
      have hx' := filter_eq_nil_of_false hxs
      rw [hsrc] at hn
      rw [ih, pending_of_source _ hsrc]
      · simp [Handle.pending, hq', hx', filterMap_cons, Except.toOption]
      · simp at hn ⊢
        omega

theorem deliveries_eq (any : Zmsg → Bool) (h : Handle) :
    h.deliveries any = h.pending.filter any :=
  recvAll_eq _ h (Nat.add_le_add_right (length_filter_le _ _) _)

/-! ### Order -/

/-- **The order of messages is preserved** by a call with the comparison `cmp`. It returns; a
message that it returns is the first pending one that compares, and the later messages are
the other pending ones in their order; if it would block, they are all of them. -/
def Handle.InOrder (any cmp : Zmsg → Bool) (h : Handle) : Prop :=
  ∃ r h', fluxRecv cmp h = some (r, h') ∧ (∀ msg, r = .ok msg → h.pending.find? cmp = some msg ∧
      h'.deliveries any = (h.pending.eraseP cmp).filter any) ∧
    (r = .error .EAGAIN → h'.deliveries any = h.pending.filter any)

/-- The messages of the queue before and behind the first one that compares can be exchanged
without changing the order of the messages. -/
def Handle.Commutes (any cmp : Zmsg → Bool) (h : Handle) : Prop :=
  (h.queue.takeWhile (!cmp ·) ++ (h.queue.dropWhile (!cmp ·)).tail).filter any
    = ((h.queue.dropWhile (!cmp ·)).tail ++ h.queue.takeWhile (!cmp ·)).filter any

instance (any cmp : Zmsg → Bool) (h : Handle) : Decidable (h.Commutes any cmp) :=
  inferInstanceAs (Decidable (_ = _))

theorem commutes_of_false {cmp : Zmsg → Bool} {h : Handle} (hque : ∀ m ∈ h.queue, cmp m = false)
    : h.Commutes any cmp := by
  have htake : h.queue.takeWhile (!cmp ·) = h.queue := by
    rw [takeWhile_eq_self_iff]
    intro m hm
    rw [hque m hm]
    rfl
  have hdrop : h.queue.dropWhile (!cmp ·) = [] := by
    rw [dropWhile_eq_nil_iff]
    intro m hm
    rw [hque m hm]
    rfl
  rw [Handle.Commutes, htake, hdrop, tail_nil, append_nil, nil_append]

theorem find_eraseP_of_false {cmp : Zmsg → Bool} {a b : List Zmsg} {msg : Zmsg}
    (ha : ∀ m ∈ a, cmp m = false) (hmsg : cmp msg = true) :
    (a ++ msg :: b).find? cmp = some msg ∧ (a ++ msg :: b).eraseP cmp = a ++ b := by
  have ha' : ∀ m ∈ a, ¬ cmp m = true := fun m hm => by
    rw [ha m hm]
    decide
  refine ⟨?_, ?_⟩
  · rw [List.find?_append, List.find?_eq_none.2 ha', List.find?_cons_of_pos hmsg]
    rfl
  · rw [eraseP_append_right _ ha', eraseP_cons_of_pos hmsg]

theorem commutes_iff_of_queued {cmp : Zmsg → Bool} {a b : List Zmsg} {msg : Zmsg}
    {source : List (Except Errno Zmsg)} (ha : ∀ m ∈ a, cmp m = false) (hmsg : cmp msg = true) :
    Handle.Commutes any cmp ⟨a ++ msg :: b, source⟩
      ↔ (a ++ b).filter any = (b ++ a).filter any := by
  have ha' : ∀ m ∈ a, (!cmp m) = true := fun m hm => by
    rw [ha m hm]
    rfl
  have htake : (a ++ msg :: b).takeWhile (!cmp ·) = a := by
    rw [takeWhile_append_of_pos ha', takeWhile_cons_of_neg (by simp [hmsg]), append_nil]
  have hdrop : (a ++ msg :: b).dropWhile (!cmp ·) = msg :: b := by
    rw [dropWhile_append_of_pos ha', dropWhile_cons_of_neg (by simp [hmsg])]
  rw [Handle.Commutes, htake, hdrop, tail_cons]

theorem inOrder_iff_commutes (any cmp : Zmsg → Bool) (h : Handle) :
    h.InOrder any cmp ↔ h.Commutes any cmp := by
  obtain ⟨⟨r, h'⟩, hr, hspec⟩ := fluxRecv_spec cmp h
  obtain ⟨queue, source⟩ := h
  cases hspec with
  | @queued a b msg hque ha hmsg =>
    dsimp only at hque
    subst hque
    rw [commutes_iff_of_queued ha hmsg]
    have hpend : Handle.pending ⟨a ++ msg :: b, source⟩
        = a ++ msg :: (b ++ source.filterMap Except.toOption) := by
      simp [Handle.pending]
    obtain ⟨hfind, herase⟩ := find_eraseP_of_false (b := b ++ source.filterMap Except.toOption)
      ha hmsg
    rw [← hpend] at hfind herase
    have hlat : Handle.deliveries any ⟨b ++ ([] ++ a), source⟩
        = (b ++ a).filter any ++ (source.filterMap Except.toOption).filter any := by
      rw [deliveries_eq, Handle.pending, filter_append, nil_append]
    have hrest : ((Handle.pending ⟨a ++ msg :: b, source⟩).eraseP cmp).filter any
        = (a ++ b).filter any ++ (source.filterMap Except.toOption).filter any := by
      rw [herase, ← append_assoc, filter_append]
    constructor
    · rintro ⟨r, h', hr', hok, -⟩
      rw [hr] at hr'
      cases hr'
      have horder := (hok msg rfl).2
      rw [hlat, hrest] at horder
      exact (append_cancel_right horder).symm
    · intro hcomm
      refine ⟨_, _, hr, ?_, nofun⟩
      rintro _ ⟨⟩
      exact ⟨hfind, by rw [hlat, hrest, hcomm]⟩
  | @delivered xs msg source' hque hxs hsrc hmsg =>
    refine iff_of_true ⟨_, _, hr, ?_, nofun⟩ (commutes_of_false hque)
    rintro _ ⟨⟩
    have hpend := pending_of_source queue hsrc
    have hff : ∀ m ∈ queue ++ xs, cmp m = false := fun m hm =>
      (mem_append.1 hm).elim (hque m) (hxs m)
    have hcons : (Except.ok msg :: source').filterMap Except.toOption
        = msg :: source'.filterMap Except.toOption := rfl
    rw [hcons] at hpend
    obtain ⟨hfind, herase⟩ := find_eraseP_of_false (b := source'.filterMap Except.toOption)
      hff hmsg
    rw [hpend]
    exact ⟨hfind, by rw [herase, deliveries_eq]; rfl⟩
  | @blocked xs source' hque hxs hsrc =>
    refine iff_of_true ⟨_, _, hr, nofun, fun _ => ?_⟩ (commutes_of_false hque)
    rw [deliveries_eq]
    rcases hsrc with hsrc | ⟨hsrc, rfl⟩
    · rw [pending_of_source _ hsrc]
      rfl
    dsimp only at hsrc
    rw [← append_nil (xs.map Except.ok)] at hsrc
    rw [pending_of_source _ hsrc]
    rfl
  | @fatal xs e source' hque hxs hsrc he =>
    refine iff_of_true ⟨_, _, hr, nofun, ?_⟩ (commutes_of_false hque)
    rintro ⟨⟩
    exact absurd rfl he

/-- **Receiving with a match preserves the order of messages exactly if the messages before
and behind the first match in the queue may be exchanged.** -/
theorem recv_inOrder_iff (fnmatch : Bytes → Bytes → Bool) (m : Match) (h : Handle) :
    h.InOrder (fluxMsgCmp fnmatch · matchAny) (fluxMsgCmp fnmatch · m)
      ↔ h.Commutes (fluxMsgCmp fnmatch · matchAny) (fluxMsgCmp fnmatch · m) :=
  inOrder_iff_commutes _ _ h

/-- The proto block of a message of the given type. -/
def protoOf (type : ℕ) : Bytes := (protoSetType (protoInit 0) type).getD []

/-- A request, a response and an event are queued, and the response is asked for: the event
is then received before the request. -/
theorem recv_overtakes :
    ∃ h : Handle, (h.queue = [⟨[protoOf 1], 0⟩, ⟨[protoOf 2], 0⟩, ⟨[protoOf 4], 0⟩] ∧
      h.source = []) ∧ (fluxRecv (fluxMsgCmp (fun _ _ => false) · matchResponse) h).map
          (fun r => r.2.deliveries (fluxMsgCmp (fun _ _ => false) · matchAny))
        = some [⟨[protoOf 4], 0⟩, ⟨[protoOf 1], 0⟩] ∧
      ¬ h.InOrder (fluxMsgCmp (fun _ _ => false) · matchAny)
        (fluxMsgCmp (fun _ _ => false) · matchResponse) := by
  refine ⟨⟨[⟨[protoOf 1], 0⟩, ⟨[protoOf 2], 0⟩, ⟨[protoOf 4], 0⟩], []⟩, ⟨rfl, rfl⟩, ?_, ?_⟩
  · decide +kernel
  · rw [inOrder_iff_commutes]
    decide +kernel

end FluxCore.Libflux
