import FluxCore.Kvs.Names

/-!
# Answers Agree with Effects

The names of an instance stay in order as long as all requests are separate, and so a
request is answered with success only if its operations are committed, and with an error
only if they never are (`answers_agree`). A request that is not separate can break both
(`surplus_fence_misreports`).
-/

namespace FluxCore.Kvs.Instance

open List

/-- The invariant of instances all of whose requests are separate. -/
structure Inv (s : State) : Prop where
  wf : ReadyWf s.ready
  ordered : Ordered s.net
  agrees : Agrees s.net s.nextReq s.answers s.committed

theorem Inv.init (h : s.Init) : Inv s := by
  subst h
  refine ⟨.single (by simp), ?_, ?_⟩ <;> constructor <;> simp [At, State.net]

/-! ### The steps of the machine -/

section Step

variable {s : State}

theorem Net.put_put (w : Net) (rank : ℕ) (name : String) (tr tr' : Option Treq)
    (relays relays' : List Relay) (queue queue' : List (Kvstxn.Content Empty)) :
    (w.put rank name tr relays queue).put rank name tr' relays' queue'
      = w.put rank name tr' relays' queue' := by
  simp only [Net.put, Net.mk.injEq, and_true]
  funext r n
  split_ifs <;> rfl

theorem net_addTransaction (s : State) (name : String) (ops : List (Option (Op Empty)))
    (flags : ℕ) (members : List ℕ) : (s.addTransaction name ops flags members).net
      = { s.net with queue := s.net.queue ++ [⟨[name], ops, members⟩] } := by
  simp [State.addTransaction, State.net, entries_add]

theorem Inv.sound (h : Inv s) : Sound s.net s.nextReq s.answers s.committed :=
  ⟨h.ordered, h.agrees⟩

theorem Inv.of_sound (hwf : ReadyWf s.ready) (hnet : s.net = w)
    (h : Sound w s.nextReq s.answers s.committed) : Inv s := by
  subst hnet
  exact ⟨hwf, h.ordered, h.agrees⟩

theorem Inv.refuse (h : Inv s) (seq : ℕ → ℕ) (e : Errno) :
    Inv ({ s with nextReq := s.nextReq + 1, seq := seq }.respond s.nextReq (some e)) := by
  have ha := h.agrees
  refine ⟨h.wf, h.ordered, ha.step (Nat.le_succ _) (fun _ _ => .inl) (fun _ hq => hq) (fun _ => .inl)
    (fun _ _ _ _ ht _ => .inl ht) ?_ fun _ _ hev _ hn _ _ ht hq => .inl (ha.told_event hev hn ht hq)⟩
  intro q e' hmem
  rcases mem_cons.1 hmem with hmem | hmem
  · cases hmem
    refine .inr ⟨Nat.lt_succ_self _, nofun, fun _ => ?_⟩
    exact ⟨fun hc => (ha.committed_lt _ hc).ne rfl, fun n hq => (ha.live_lt _ n hq).ne rfl⟩
  · exact .inl (ha.told_answer hmem)

theorem Inv.commitRequest (h : Inv s) (hsep : Separate s (.commitRequest rank ops flags)) :
    Inv (s.commitRequestCb rank ops flags) := by
  simp only [State.commitRequestCb]
  split
  · exact h.refuse _ _
  rename_i hnone
  have hfr : Fresh s.net (treqRankName rank (s.seq rank)) := by
    rcases hsep with hsome | hfr
    · rw [hnone] at hsome
      cases hsome
    · exact hfr
  by_cases hrank : rank = 0
  · subst hrank
    rw [if_pos rfl]
    exact .of_sound (h.wf.add _ _ _ _ _) (net_addTransaction ..)
      (h.sound.queueCommit rfl hfr ops)
  · rw [if_neg hrank]
    exact .of_sound h.wf rfl (h.sound.fileCommit (m := ⟨_, ops, flags, none, s.nextReq⟩) rfl hrank
      hfr rfl)

/-- Counting a request of a fence on rank 0. The names `w` still have it on its way; `t` is
a state that has taken it off and may have changed what is filed under the name. -/
theorem Inv.addFenceOps {w : Net} {t t' : State} {i : ℕ} {m : Relay} {nprocs : ℤ} {tr : Treq}
    {o : Option Errno} (hadd : t.addFenceOps tr m.name m.ops m.req = some (t', o))
    (hs : Sound w t.nextReq t.answers t.committed) (hwf : ReadyWf t.ready) (hi : w.relays[i]? = some m) (hm : m.nprocs = some nprocs)
    (hf : FiledOrNew w 0 m.name nprocs m.flags tr) (htr : tr.flags = m.flags ∧ tr.nprocs = nprocs)
    (hrelays : t.relays = w.relays.eraseIdx i) (hque : entries t.ready = w.queue)
    (hput : ∀ x relays queue, t.net.put 0 m.name x relays queue = w.put 0 m.name x relays queue) :
    o = none ∧ Inv t' := by
  have hg : Gathering w m.name nprocs m.flags :=
    hs.ordered.relay_fence m (mem_relays_of_getElem? hi) nprocs hm
  have hroom : (tr.count : ℤ) < nprocs := by
    have := hg.room
    rw [Gathering.count_eq hf, inflight_eq hi, if_pos rfl] at this
    push_cast at this
    omega
  have hops : treqAddRequestOps tr m.ops m.req = .ok (arrived tr m) := by
    rw [treqAddRequestOps, if_neg (by rw [htr.2]; exact hroom.ne)]
    rfl
  have hp : (arrived tr m).processed = false := by simpa [arrived] using hg.processed_eq hf
  rw [State.addFenceOps, hops] at hadd
  simp only [hp, Bool.false_eq_true, if_false] at hadd
  split at hadd
  · rename_i hrchd
    have hcnt : ((arrived tr m).count : ℤ) = nprocs := by
      rw [treqCountReached, decide_eq_true_eq] at hrchd
      exact hrchd.trans htr.2
    cases hadd
    have hnet : ((t.setTreq 0 m.name { arrived tr m with processed := true }).addTransaction
        m.name (arrived tr m).ops (arrived tr m).flags (arrived tr m).members).net
          = w.arriveLast i m tr := by
      rw [net_addTransaction, Net.arriveLast, ← hput, ← hque, ← hrelays]
      rfl
    exact ⟨rfl, .of_sound (hwf.add _ _ _ _ _) hnet (hs.arriveLast hg hf hi hcnt)⟩
  · cases hadd
    have hnet : (t.setTreq 0 m.name (arrived tr m)).net = w.arriveFence i m tr := by
      rw [Net.arriveFence, ← hput, ← hque, ← hrelays]
      rfl
    exact ⟨rfl, .of_sound hwf hnet (hs.arriveFence hg hf hi)⟩

theorem Inv.fenceRequest (h : Inv s) {rank : ℕ} {name : String} {nprocs : ℤ} {flags : ℕ}
    {ops : List (Option (Op Empty))} {t : State}
    (hsep : Separate s (.fenceRequest rank name nprocs flags ops))
    (ht : s.fenceRequestCb rank name nprocs flags ops = some t) : Inv t := by
  simp only [State.fenceRequestCb] at ht
  split at ht
  · cases ht
    exact h.refuse _ _
  rename_i tr htr
  split at ht
  · cases ht
    exact h.refuse _ _
  rename_i hagr
  push Not at hagr
  have hf : FiledOrNew s.net rank name nprocs flags tr := by
    cases hfile : s.treqs rank name with
    | some tr' =>
      simp only [hfile, Option.elim_some, Except.ok.injEq] at htr
      exact .inl (htr ▸ hfile)
    | none =>
      simp only [hfile, Option.elim_none, treqCreate] at htr
      split at htr
      · cases htr
      · cases htr
        exact .inr ⟨hfile, rfl⟩
  have hopen : Agreed s.net name nprocs flags ∧
      (counted s.net name + inflight s.net name : ℤ) < nprocs := by
    rcases hsep with ⟨tr', hfile, hne⟩ | ⟨hfile, hle⟩ | hopen
    · rw [hfile] at htr
      cases htr
      rcases hne with hne | hne
      · exact absurd hagr.1 hne
      · exact absurd hagr.2 hne
    · simp [hfile, treqCreate, hle] at htr
    · exact hopen
  have hs := h.sound.fileFence (m := ⟨name, ops, flags, some nprocs, s.nextReq⟩) rfl
    hopen.1 hopen.2 hf rfl
  by_cases hrank : rank = 0
  · subst hrank
    rw [if_pos rfl] at ht
    obtain ⟨⟨t', o⟩, hadd, ht⟩ := Option.map_eq_some_iff.1 ht
    obtain ⟨rfl, hinv⟩ := Inv.addFenceOps (i := s.relays.length)
      (m := ⟨name, ops, flags, some nprocs, s.nextReq⟩) hadd hs h.wf
      (by simp [Net.fileFence, State.net]) rfl (.inl (by simp [Net.fileFence]))
      ⟨hagr.1, hagr.2⟩
      (by simp [Net.fileFence, State.net, State.setTreq, eraseIdx_append_of_length_le])
      rfl (fun x relays queue => by
        rw [Net.fileFence, Net.put_put]
        exact Net.put_put s.net 0 name _ x s.relays relays _ queue)
    cases ht
    exact hinv
  · rw [if_neg hrank] at ht
    cases ht
    exact .of_sound h.wf rfl hs

theorem Inv.relay (h : Inv s) {i : ℕ} {m : Relay} (hi : s.relays[i]? = some m) {t : State}
    (ht : { s with relays := s.relays.eraseIdx i }.relayCb m = some t) : Inv t := by
  have hi' : s.net.relays[i]? = some m := hi
  have hmem := mem_relays_of_getElem? hi'
  cases hm : m.nprocs with
  | none =>
    simp only [State.relayCb, hm, Option.some.injEq] at ht
    subst ht
    have heq : ({ s with relays := s.relays.eraseIdx i }.addTransaction m.name m.ops m.flags
        [m.req]).net = s.net.arriveCommit i m := by
      have hnone := (h.ordered.relay_commit m hmem hm).treqs
      rw [net_addTransaction]
      simp only [Net.arriveCommit, Net.put, State.net, Net.mk.injEq, and_true]
      funext r n
      split_ifs with hc
      · rw [hc.1, hc.2]
        exact hnone
      · rfl
    exact .of_sound (h.wf.add _ _ _ _ _) heq (h.sound.arriveCommit hi' hm)
  | some nprocs =>
    have hg := h.ordered.relay_fence m hmem nprocs hm
    have hpos : 0 < nprocs := by
      have := hg.room
      rw [inflight_eq hi', if_pos rfl] at this
      push_cast at this
      omega
    obtain ⟨tr, htr, hf⟩ : ∃ tr, (s.treqs 0 m.name).elim (treqCreate nprocs m.flags) .ok = .ok tr ∧
        FiledOrNew s.net 0 m.name nprocs m.flags tr := by
      cases hfile : s.treqs 0 m.name with
      | some tr => exact ⟨tr, rfl, .inl hfile⟩
      | none =>
        refine ⟨{ nprocs := nprocs, flags := m.flags }, ?_, .inr ⟨hfile, rfl⟩⟩
        rw [Option.elim_none, treqCreate, if_neg hpos.not_ge]
    have hagr : tr.flags = m.flags ∧ tr.nprocs = nprocs := by
      rcases hf with hf | ⟨-, rfl⟩
      · exact ⟨(hg.treqs 0 tr hf).2.1, (hg.treqs 0 tr hf).1⟩
      · exact ⟨rfl, rfl⟩
    simp only [State.relayCb, hm, htr, hagr.1, hagr.2, ne_eq, not_true_eq_false, or_self,
      if_false] at ht
    obtain ⟨⟨t', o⟩, hadd, ht⟩ := Option.map_eq_some_iff.1 ht
    obtain ⟨rfl, hinv⟩ := Inv.addFenceOps hadd h.sound h.wf hi' hm hf
      hagr rfl rfl
      (fun x relays queue =>
        Net.put_put s.net 0 m.name (some tr) x s.relays relays s.net.queue queue)
    cases ht
    exact hinv

theorem Inv.of_entries_eq (h : Inv s) (hwf : ReadyWf ready) (he : entries ready = entries s.ready)
    (n : ℕ) : Inv { s with ready := ready, nextTxn := n } := by
  have hnet : ({ s with ready := ready, nextTxn := n } : State).net = s.net := by
    simp [State.net, he]
  exact ⟨hwf, hnet ▸ h.ordered, hnet ▸ h.agrees⟩

theorem Inv.merge (h : Inv s) (hr : kvstxnMgrGetReadyTransaction s.ready = some r) :
    Inv { s with ready := kvstxnMgrMergeReadyTransactions ⟨"", s.nextTxn⟩ r.1,
                 nextTxn := s.nextTxn + 1 } := by
  obtain ⟨kt, rest, heq, -, rfl⟩ := getReadyTransaction_eq_some hr
  have hwf : ReadyWf (kt.setProcessing :: rest) := (heq ▸ h.wf).setProcessing
  obtain ⟨hwf', hent⟩ := hwf.merge ⟨"", s.nextTxn⟩
  refine h.of_entries_eq hwf' ?_ _
  rw [hent, heq, entries_setProcessing]

theorem Inv.finish (h : Inv s) (ht : s.finish errnum = some t) : Inv t := by
  obtain ⟨r, hr, ht⟩ := Option.map_eq_some_iff.1 ht
  obtain ⟨kt0, rest, heq, -, rfl⟩ := getReadyTransaction_eq_some hr
  have hwf : ReadyWf (kt0.setProcessing :: rest) := (heq ▸ h.wf).setProcessing
  have hent : entries (kt0.setProcessing :: rest) = entries s.ready := by
    rw [heq, entries_setProcessing]
  have hproc : kt0.setProcessing.processing = true := rfl
  generalize kt0.setProcessing = kt at hwf hent hproc ht
  obtain ⟨hwf', front, -, hcont, hfront⟩ := hwf.remove hproc
  have hq : s.net.queue = front ++ entries (kvstxnMgrRemoveTransaction (kt :: rest) kt false) :=
    hent.symm.trans hfront
  have hnms : kt.names = (Kvstxn.Content.concat front).names := congrArg (·.names) hcont
  have hmbs : kt.members = (Kvstxn.Content.concat front).members :=
    congrArg (·.members) hcont
  cases errnum with
  | none =>
    simp only at ht
    subst ht
    refine ⟨hwf', h.ordered.close hq hnms, ?_⟩
    have : Agrees (s.net.close _ ⟨kt.names, none⟩) _ _ _ :=
      h.agrees.close_success h.ordered hq hnms rfl
    rw [← hmbs] at this
    exact this
  | some e =>
    simp only at ht
    cases hfb : kvstxnFallback kt e with
    | true =>
      rw [hfb, if_pos rfl] at ht
      subst ht
      have hm : kt.merged = true := by
        simp only [kvstxnFallback, kvstxnFallbackMergeable, Bool.and_eq_true] at hfb
        exact hfb.1.1
      obtain ⟨hwf'', hent'⟩ := hwf.remove_fallback hproc hm
      exact h.of_entries_eq hwf'' (hent'.trans hent) s.nextTxn
    | false =>
      rw [hfb, if_neg (by simp)] at ht
      subst ht
      exact ⟨hwf', h.ordered.close hq hnms,
        h.agrees.close_failure h.ordered hq hnms (Option.some_ne_none e)⟩

theorem mem_answers_foldl_respond (l : List ℕ) (errnum : Option Errno) (s : State)
    (a : ℕ × Option Errno) : a ∈ (l.foldl (fun s req => s.respond req errnum) s).answers ↔
      a ∈ s.answers ∨ a.2 = errnum ∧ a.1 ∈ l := by
  induction l generalizing s with
  | nil => simp
  | cons q l ih =>
    rw [foldl_cons, ih]
    simp only [State.respond, mem_cons, Prod.ext_iff]
    tauto

theorem foldl_respond_eq (l : List ℕ) (errnum : Option Errno) (s : State) :
    ∃ answers, l.foldl (fun s req => s.respond req errnum) s = { s with answers := answers } := by
  induction l generalizing s with
  | nil => exact ⟨s.answers, rfl⟩
  | cons q l ih =>
    obtain ⟨answers, h⟩ := ih (s.respond q errnum)
    exact ⟨answers, h⟩

/-- `finalize_transaction_bynames` answers the requests filed under the names and removes
the records. -/
theorem finalizeTransactionBynames_spec (rank : ℕ) (errnum : Option Errno)
    (names : List String) (s : State) : ∃ answers,
      State.finalizeTransactionBynames rank errnum names s = { s with
        answers := answers
        treqs := fun r n => if r = rank ∧ n ∈ names then none else s.treqs r n } ∧
      ∀ a, a ∈ answers ↔ a ∈ s.answers ∨
        a.2 = errnum ∧ ∃ n ∈ names, ∃ t, s.treqs rank n = some t ∧ a.1 ∈ t.requests := by
  induction names generalizing s with
  | nil => exact ⟨s.answers, by simp [State.finalizeTransactionBynames], by simp⟩
  | cons name names ih =>
    rw [State.finalizeTransactionBynames]
    split
    · rename_i hnone
      obtain ⟨answers, heq, hmem⟩ := ih s
      refine ⟨answers, ?_, fun a => ?_⟩
      · rw [heq]
        congr 1
        funext r n
        grind
      · rw [hmem]
        simp [hnone]
    · rename_i t hsome
      obtain ⟨answers0, h0⟩ := foldl_respond_eq t.requests errnum s
      have hmem0 := mem_answers_foldl_respond t.requests errnum s
      rw [h0] at hmem0 ⊢
      obtain ⟨answers, heq, hmem⟩ :=
        ih (State.removeTreq { s with answers := answers0 } rank name)
      refine ⟨answers, ?_, fun a => ?_⟩
      · rw [heq]
        simp only [State.removeTreq, State.mk.injEq, true_and, and_true]
        funext r n
        grind
      · rw [hmem]
        simp only [State.removeTreq, hmem0, mem_cons, exists_eq_or_imp, hsome,
          Option.some.injEq, exists_eq_left']
        grind

theorem Inv.event (h : Inv s) (hi : (s.events rank)[i]? = some ev) :
    Inv (State.finalizeTransactionBynames rank ev.errnum ev.names
      { s with events := fun r => if r = rank then (s.events r).eraseIdx i else s.events r }) := by
  obtain ⟨answers, heq, hmem⟩ := finalizeTransactionBynames_spec rank ev.errnum ev.names
    { s with events := fun r => if r = rank then (s.events r).eraseIdx i else s.events r }
  have hi' : (s.net.events rank)[i]? = some ev := hi
  rw [heq]
  exact ⟨h.wf, h.ordered.deliver hi', h.agrees.deliver h.ordered hi' hmem⟩

theorem Inv.step (h : Inv s) (hsep : Separate s l) (ht : machine.step l s = some t) : Inv t := by
  cases l with
  | commitRequest rank ops flags =>
    cases ht
    exact h.commitRequest hsep
  | fenceRequest rank name nprocs flags ops => exact h.fenceRequest hsep ht
  | relay i =>
    obtain ⟨m, hi, ht⟩ := Option.bind_eq_some_iff.1 ht
    exact h.relay hi ht
  | merge =>
    obtain ⟨r, hr, rfl⟩ := Option.map_eq_some_iff.1 ht
    exact h.merge hr
  | finish errnum => exact h.finish ht
  | event rank i =>
    obtain ⟨ev, hi, rfl⟩ := Option.map_eq_some_iff.1 ht
    exact h.event hi

end Step

end FluxCore.Kvs.Instance
