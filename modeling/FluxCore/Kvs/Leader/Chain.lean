import FluxCore.Kvs.Leader.Steps

/-!
# No Lost Update

The root directory is copied into the working copy of a transaction at one event and
replaced many events later. This module shows that nothing comes between: the roots that
rank 0 publishes for a namespace form a chain, each made from a copy of its predecessor by
one transaction, and the transactions take their turns in the order in which they were
added.
-/

namespace FluxCore.Kvs.Leader

open List Option

/-- **A chain of roots:** the publications of a namespace, the last one first, lead from the
empty root directory to `ref`. Each was made from a copy of its predecessor, which it
replaced, and has the next sequence number. -/
inductive RootChain (c : Codec) : List Publication → Blobref → ℕ → Prop
  | empty : RootChain c [] (c.blobrefHash (emptyRoot c)) 0
  | publish {log : List Publication} {ref : Blobref} {seq : ℕ} (p : Publication)
      (h : RootChain c log ref seq) (hcopied : p.rootcpyRef = ref) (hreplaced : p.oldref = ref)
      (hseq : p.seq = seq + 1) : RootChain c (p :: log) p.newref p.seq

/-- The publications of a namespace. -/
def log (s : Leader) (ns : String) : List Publication := s.published.filter (·.ns = ns)

/-- The transactions of a log, in the order in which they were published. A transaction is
named by its number, and numbers are given in the order in which transactions are added. -/
def committed (log : List Publication) : List ℕ := log.reverse.flatMap (·.members)

/-- The transactions that are in a ready queue. -/
def queued (ready : List (Kvstxn ℕ)) : List ℕ := (entries ready).flatMap (·.members)

/-- What holds for one namespace: the chain leads to its root, a head that has a working copy
made it from that root, and published and queued transactions are in order. -/
structure Chained (c : Codec) (bound : ℕ) (root : Kvsroot) (log : List Publication) : Prop where
  chain : RootChain c log root.ref root.seq
  copied : ∀ kt ∈ root.ready.head?, State.applyOps.rank ≤ kt.state.rank → kt.rootcpyRef = root.ref
  sorted : (committed log ++ queued root.ready).Pairwise (· < ·)
  below : ∀ n ∈ committed log ++ queued root.ready, n < bound

/-- The invariant. An event on its way to rank 0 is not ahead of the root there. -/
structure Chains (c : Codec) (s : Leader) : Prop where
  known : ∀ ns root, s.roots ns = some root → Chained c s.nextTxn root (s.log ns)
  unknown : ∀ ns, s.roots ns = none → s.log ns = []
  events : ∀ ev ∈ s.events, ∃ root, s.roots ev.ns = some root ∧ 0 < ev.rootseq ∧
    ev.rootseq ≤ root.seq

variable {cfg : Config} {s t : Leader} {log : List Publication}

/-! ### One namespace -/

theorem Chained.mono (h : Chained c bound root log) (hb : bound ≤ bound') :
    Chained c bound' root log :=
  { h with below := fun n hn => (h.below n hn).trans_le hb }

/-- The queue may change as long as its entries stay in order and its head was copied from
the root. -/
theorem Chained.of_queue (h : Chained c bound root log) {ready : List (Kvstxn ℕ)} {r : Root}
    (href : r.ref = root.ref) (hseq : r.seq = root.seq)
    (hq : (queued ready).Sublist (queued root.ready))
    (hcpd : ∀ kt ∈ ready.head?, State.applyOps.rank ≤ kt.state.rank →
      kt.rootcpyRef = root.ref) : Chained c bound ⟨r, ready⟩ log where
  chain := by
    change RootChain c log r.ref r.seq
    rw [href, hseq]
    exact h.chain
  copied := by
    intro kt hkt hr
    rw [hcpd kt hkt hr]
    exact href.symm
  sorted := h.sorted.sublist ((List.Sublist.refl _).append hq)
  below n hn := h.below n (((List.Sublist.refl _).append hq).mem hn)

theorem queued_head (h : kt.SameEntry kt') (rest : List (Kvstxn ℕ)) :
    queued (kt' :: rest) = queued (kt :: rest) := by
  rw [queued, entries_replace_head h.content h.merged, queued]

theorem copied_of_fresh {ready : List (Kvstxn ℕ)} (h : ∀ x ∈ ready, x.Fresh) {ref : Blobref} :
    ∀ kt ∈ ready.head?, State.applyOps.rank ≤ kt.state.rank → kt.rootcpyRef = ref := by
  intro kt hkt hr
  rw [(h kt (mem_of_mem_head? hkt)).state] at hr
  exact absurd hr (by decide)

section

variable (h : Chained c bound root log) (hready : root.ready = kt :: rest)
  (hq : QueueWf ns bound (kt' :: rest)) (hsame : kt.SameEntry kt') (hproc : kt'.processing = true)
include h hready hq hsame hproc

/-- **A transaction that fails** leaves the chain as it is; its members leave the queue, or,
as a fallback, stay there. -/
theorem Chained.fail (e : Errno) : Chained c bound
      ⟨root.toRoot, kvstxnMgrRemoveTransaction (kt' :: rest) kt' (kvstxnFallback kt' e)⟩ log := by
  have hmrg (hf : kvstxnFallback kt' e = true) : kt'.merged = true := by
    simp only [kvstxnFallback, kvstxnFallbackMergeable, Bool.and_eq_true] at hf
    exact hf.1.1
  have hfr := (hq.remove hproc hmrg).2
  refine h.of_queue rfl rfl ?_ (copied_of_fresh hfr)
  rw [hready, ← queued_head hsame rest]
  cases hf : kvstxnFallback kt' e with
  | true =>
    rw [queued, (hq.wf.remove_fallback hproc (hmrg hf)).2]
    exact List.Sublist.refl _
  | false =>
    obtain ⟨-, front, -, -, heq⟩ := hq.wf.remove hproc
    rw [queued, queued, heq, flatMap_append]
    exact sublist_append_right _ _

/-- **A transaction that is published** extends the chain, and its members move from the
front of the queue to the end of the log. -/
theorem Chained.publish (hcpd : kt'.rootcpyRef = root.ref) (ns' : String) :
    Chained c bound
      ⟨Kvsroot.advance root kt', kvstxnMgrRemoveTransaction (kt' :: rest) kt' false⟩
      (⟨ns', kt'.rootcpyRef, root.ref, kt'.newroot, root.seq + 1, kt'.members⟩ :: log) := by
  obtain ⟨-, front, -, hcont, heq⟩ := hq.wf.remove hproc
  have hfr := (hq.remove hproc (by simp : false = true → kt'.merged = true)).2
  have hmbs : kt'.members = front.flatMap (·.members) :=
    congrArg (fun x => x.members) hcont
  have hmove : committed (⟨ns', kt'.rootcpyRef, root.ref, kt'.newroot, root.seq + 1,
        kt'.members⟩ :: log)
        ++ queued (kvstxnMgrRemoveTransaction (kt' :: rest) kt' false)
      = committed log ++ queued root.ready := by
    rw [hready, ← queued_head hsame rest, queued, queued, heq, flatMap_append, committed,
      committed, reverse_cons, flatMap_append, flatMap_singleton, hmbs, append_assoc]
  refine ⟨.publish _ h.chain hcpd rfl rfl, copied_of_fresh hfr, ?_, ?_⟩
  · rw [hmove]
    exact h.sorted
  · rw [hmove]
    exact h.below

end

/-- **A transaction that is added** is the last one. -/
theorem Chained.add (h : Chained c bound root log) (id : TxnId) (name : String)
    (ops : List (Option (Op ℕ))) (flags : ℕ) : Chained c (bound + 1)
      ⟨root.toRoot, root.ready ++ [kvstxnCreate id name ops flags [bound]]⟩ log := by
  have hq : queued (root.ready ++ [kvstxnCreate id name ops flags [bound]])
      = queued root.ready ++ [bound] := by
    rw [queued, entries_append, flatMap_append]
    rfl
  refine ⟨h.chain, fun kt hkt hr => ?_, ?_, fun n hn => ?_⟩
  · cases hready : root.ready with
    | nil =>
      rw [hready] at hkt
      cases hkt
      exact absurd hr (by simp [kvstxnCreate, State.rank])
    | cons x rest =>
      rw [hready] at hkt
      exact h.copied kt (by rw [hready]; exact hkt) hr
  · rw [hq, ← append_assoc, pairwise_append]
    refine ⟨h.sorted, pairwise_singleton _ _, fun a ha b hb => ?_⟩
    rw [mem_singleton.1 hb]
    exact h.below a ha
  · rw [hq, ← append_assoc] at hn
    rcases mem_append.1 hn with hn | hn
    · exact (h.below n hn).trans (Nat.lt_succ_self _)
    · rw [mem_singleton.1 hn]
      exact Nat.lt_succ_self _

/-! ### Steps -/

theorem Chained.mark (h : Chained c bound root log) (ks : List TxnId) (e : Errno) :
    Chained c bound { root with ready := root.ready.map fun kt =>
      if kt.id ∈ ks then { kt with auxErrnum := some e } else kt } log := by
  set f := fun kt : Kvstxn ℕ => if kt.id ∈ ks then { kt with auxErrnum := some e } else kt
  have hf (kt : Kvstxn ℕ) : f kt = { kt with auxErrnum := (f kt).auxErrnum } := by
    simp only [f]
    split_ifs <;> rfl
  have hmrg (kt : Kvstxn ℕ) : (f kt).merged = kt.merged := by rw [hf]
  have hcont (kt : Kvstxn ℕ) : (f kt).content = kt.content := by rw [hf]; rfl
  have hents : entries (root.ready.map f) = entries root.ready := by
    simp only [entries, List.filter_map, List.map_map]
    have h1 : ((fun kt => !kt.merged) ∘ f) = fun kt => !kt.merged :=
      funext fun kt => congrArg (!·) (hmrg kt)
    have h2 : Kvstxn.content ∘ f = Kvstxn.content := funext hcont
    rw [h1, h2]
  refine h.of_queue rfl rfl ?_ fun kt hkt hr => ?_
  · rw [queued, hents, queued]
  · rw [List.head?_map] at hkt
    obtain ⟨kt₀, hkt₀, rfl⟩ := map_eq_some_iff.1 hkt
    rw [hf] at hr ⊢
    exact h.copied kt₀ hkt₀ hr

theorem Chains.env (h : Chains c s) (ht : s.Env t) : Chains c t := by
  have hlog (ns : String) : t.log ns = s.log ns := by rw [Leader.log, ht.published, Leader.log]
  rcases ht.marks with hm | ⟨ks, e, -, hm⟩
  · refine ⟨fun n r hr => ?_, fun n hn => ?_, fun ev hev => ?_⟩
    · rw [hm] at hr
      rw [hlog, ht.nextTxn]
      exact h.known n r hr
    · rw [hm] at hn
      rw [hlog]
      exact h.unknown n hn
    · rw [ht.events] at hev
      rw [hm]
      exact h.events ev hev
  · refine ⟨fun n r hr => ?_, fun n hn => ?_, fun ev hev => ?_⟩
    · rw [hm] at hr
      obtain ⟨r₀, hr₀, rfl⟩ := map_eq_some_iff.1 hr
      rw [hlog, ht.nextTxn]
      exact (h.known n r₀ hr₀).mark ks e
    · rw [hm] at hn
      rw [hlog]
      exact h.unknown n (map_eq_none_iff.1 hn)
    · rw [ht.events] at hev
      obtain ⟨r, hr, h1, h2⟩ := h.events ev hev
      have hr' := congrFun hm ev.ns
      rw [setAuxErrnum] at hr'
      simp only [hr, map_some] at hr'
      exact ⟨_, hr', h1, h2⟩

theorem Chains.update (h : Chains c s) (hroot : s.roots ns = some root)
    (hrts : ∀ n, t.roots n = if n = ns then some root' else s.roots n)
    (hnext : s.nextTxn ≤ t.nextTxn) (hlog : ∀ n, n ≠ ns → t.log n = s.log n)
    (hchained : Chained c t.nextTxn root' (t.log ns)) (hseq : root.seq ≤ root'.seq)
    (hevs : ∀ ev ∈ t.events, ev ∈ s.events ∨
      ev.ns = ns ∧ 0 < ev.rootseq ∧ ev.rootseq ≤ root'.seq) : Chains c t := by
  refine ⟨fun n r hr => ?_, fun n hn => ?_, fun ev hev => ?_⟩
  · rw [hrts] at hr
    split_ifs at hr with hn
    · cases hr
      exact hn ▸ hchained
    · rw [hlog n hn]
      exact (h.known n r hr).mono hnext
  · rw [hrts] at hn
    split_ifs at hn with hne
    rw [hlog n hne]
    exact h.unknown n hn
  · rw [hrts]
    rcases hevs ev hev with hev | ⟨rfl, h1, h2⟩
    · obtain ⟨r, hr, h1, h2⟩ := h.events ev hev
      split_ifs with hn
      · rw [hn, hroot] at hr
        cases hr
        exact ⟨root', rfl, h1, h2.trans hseq⟩
      · exact ⟨r, hr, h1, h2⟩
    · exact ⟨root', if_pos rfl, h1, h2⟩

theorem Process.copied (hp : s.Process cfg k root kt p result)
    (hcpd : State.applyOps.rank ≤ kt.state.rank → kt.rootcpyRef = root.ref)
    (hr : State.applyOps.rank ≤ p.kt.state.rank) : p.kt.rootcpyRef = root.ref := by
  rcases hp.rootcpyRef hr with ⟨hk, heq⟩ | ⟨-, heq⟩
  · exact heq.trans (hcpd hk)
  · exact heq

theorem Chains.apply (h : Chains cfg.codec s) (hc : s.Called k root kt rest)
    (ht : kvstxnApply cfg s sendFails k = some t) : Chains cfg.codec t := by
  obtain ⟨hend, hrest⟩ := hc.ended ht
  have hch := h.known k.ns root hc.lookup
  have hcpd : State.applyOps.rank ≤ kt.state.rank → kt.rootcpyRef = root.ref :=
    hch.copied kt (by rw [hc.ready]; rfl)
  cases hend with
  | @stalled p result kt' hp _ hsame _ hst href _ _ _ _ hrts hpub hev =>
    have hlog (n : String) : t.log n = s.log n := by rw [Leader.log, hpub, Leader.log]
    refine h.update hc.lookup hrts hrest.nextTxn.ge (fun n _ => hlog n) ?_ le_rfl
      fun ev hev' => .inl (hev ▸ hev')
    rw [hlog, hrest.nextTxn]
    refine hch.of_queue rfl rfl ?_ fun x hx hr => ?_
    · rw [queued_head hsame rest, hc.ready]
    · cases hx
      rw [href]
      exact Process.copied hp hcpd (hst ▸ hr)
  | @failed _ kt' e _ hsame _ _ hrts hpub hev =>
    have hlog (n : String) : t.log n = s.log n := by rw [Leader.log, hpub, Leader.log]
    refine h.update hc.lookup hrts hrest.nextTxn.ge (fun n _ => hlog n) ?_ le_rfl
      fun ev hev' => .inl (hev ▸ hev')
    rw [hlog, hrest.nextTxn]
    exact hch.fail hc.ready (hc.queue.toQueueWf.replace_head hsame) hsame
      (hsame.processing.trans hc.processing) e
  | @published p rootdir hp _ _ hrts hpub hev =>
    have hsame := hp.sameRequest.toSameEntry
    have hlog : t.log k.ns = ⟨k.ns, p.kt.rootcpyRef, root.ref, p.kt.newroot, root.seq + 1,
        p.kt.members⟩ :: s.log k.ns := by
      rw [Leader.log, hpub, filter_cons_of_pos (by simp), Leader.log]
    refine h.update hc.lookup hrts hrest.nextTxn.ge (fun n hn => ?_) ?_ (Nat.le_succ _)
      fun ev hev' => ?_
    · rw [Leader.log, hpub, filter_cons_of_neg (by simpa using Ne.symm hn), Leader.log]
    · rw [hlog, hrest.nextTxn]
      refine hch.publish hc.ready (hc.queue.toQueueWf.replace_head hsame) hsame
        (hsame.processing.trans hc.processing) (Process.copied hp hcpd ?_) k.ns
      rw [(hp.finished_state rfl).1]
      decide
    · rw [hev] at hev'
      rcases mem_append.1 hev' with hev' | hev'
      · exact .inl hev'
      · rw [mem_singleton.1 hev']
        exact .inr ⟨rfl, Nat.succ_pos _, le_rfl⟩

theorem Chains.checkRoot {s' : Leader} (h : Chains c s) (hi : s.Inv)
    (hc : checkRoot cfg s ns = some (s', k)) : Chains c s' := by
  obtain ⟨root, kt₀, rest₀, kt, rest, hroot, hready, hb, hns, hget, hfr, rfl, -⟩ :=
    hi.checkRoot hc
  have hch := h.known ns root hroot
  have hwf : ReadyWf (kt₀.setProcessing :: rest₀) :=
    (hready ▸ hi.queues ns root hroot).wf.setProcessing
  have hent : entries (kt :: rest) = entries root.ready := by
    obtain ⟨kt₁, rest₁, h1, -, h2⟩ := getReadyTransaction_eq_some hget
    cases h2
    rw [entries_setProcessing, ← h1, hready]
    split_ifs
    · rw [(hwf.merge _).2, entries_setProcessing]
    · rw [entries_setProcessing]
  refine h.update hroot
    (fun n => rfl) (Nat.le_succ _) (fun _ _ => rfl) ?_ le_rfl fun ev hev => .inl hev
  refine (hch.mono (Nat.le_succ _)).of_queue rfl rfl ?_ fun x hx hr => ?_
  · rw [queued, hent, queued]
  · cases hx
    rw [hfr.state] at hr
    exact absurd hr (by decide)

theorem setroot_of_le (h0 : 0 < seq) (hle : seq ≤ r.seq) : setroot r ref seq = r := by
  rw [setroot, if_neg]
  omega

theorem Chains.setrootEvent (h : Chains c s) {ev : SetrootEvent} {events : List SetrootEvent}
    (hev : s.events = ev :: events) :
    Chains c (setrootEventCb cfg { s with events := events } ev) := by
  have hmem {e : SetrootEvent} (he : e ∈ events) : e ∈ s.events := hev ▸ mem_cons_of_mem _ he
  have h' : Chains c { s with events := events } :=
    ⟨h.known, h.unknown, fun e he => h.events e (hmem he)⟩
  obtain ⟨root, hroot, h0, hle⟩ := h.events ev (hev ▸ mem_cons_self)
  have hprime : ∀ s' : Leader, Chains c s' → Chains c (primeCacheWithRootdir cfg s' ev.rootdir) := by
    intro s' hs'
    rcases primeCacheWithRootdir_cases cfg s' ev.rootdir with
      heq | ⟨_, heq⟩ | ⟨_, -, -, heq⟩ <;> rw [heq] <;> exact { hs' with }
  rw [setrootEventCb]
  simp only [hroot]
  split_ifs
  · exact h'
  rw [setroot_of_le h0 hle]
  have hp := hprime _ h'
  have hroot' : (primeCacheWithRootdir cfg { s with events := events } ev.rootdir).roots ev.ns
      = some root := (congrFun (primeCacheWithRootdir_roots _ _) ev.ns).trans hroot
  exact hp.update hroot' (fun n => rfl) le_rfl (fun _ _ => rfl) (hp.known _ _ hroot') le_rfl
    fun e he => .inl he

theorem Chains.namespaceCreate (h : Chains cfg.codec s)
    (ht : namespaceCreate cfg s ns = some t) : Chains cfg.codec t := by
  rw [Leader.namespaceCreate] at ht
  split at ht
  · cases ht
  rename_i hnone
  cases ht
  refine ⟨fun n r hr => ?_, fun n hn => ?_, fun ev hev => ?_⟩
  · change (if n = ns then _ else _) = _ at hr
    split_ifs at hr with hn
    · cases hr
      change Chained cfg.codec s.nextTxn _ (s.log n)
      rw [hn, h.unknown ns hnone]
      exact ⟨.empty, by simp, by simp [committed, queued], by simp [committed, queued]⟩
    · exact h.known n r hr
  · change (if n = ns then _ else _) = _ at hn
    split_ifs at hn
    exact h.unknown n hn
  · obtain ⟨r, hr, h1, h2⟩ := h.events ev hev
    refine ⟨r, ?_, h1, h2⟩
    change (if ev.ns = ns then _ else _) = _
    rw [if_neg]
    · exact hr
    · rintro rfl
      rw [hnone] at hr
      cases hr

/-- **Every step keeps the chains.** -/
theorem Chains.step {l : Label} (h : Chains cfg.codec s) (hi : s.Inv)
    (ht : (machine cfg).step l s = some t) : Chains cfg.codec t := by
  cases hl : l.isEnv with
  | true => exact h.env (hi.env hl ht)
  | false =>
    cases l with
    | addTransaction ns name ops flags =>
      obtain ⟨root, objs, nextObj, ops', hroot, -, rfl⟩ := addTransaction_cases ht
      exact h.update hroot (fun n => rfl) (Nat.le_succ _) (fun _ _ => rfl)
        ((h.known ns root hroot).add _ name ops' flags) le_rfl fun ev hev => .inl hev
    | check ns sendFails =>
      obtain ⟨⟨s', k, sf⟩, hc, ht⟩ := bind_eq_some_iff.1 ht
      obtain ⟨root, kt, rest, hcall⟩ := hi.call hc
      obtain ⟨⟨s₁, k₁⟩, hr, hc⟩ := map_eq_some_iff.1 hc
      cases hc
      exact (h.checkRoot hi hr).apply hcall ht
    | run k sendFails =>
      obtain ⟨⟨s', k', sf⟩, hc, ht⟩ := bind_eq_some_iff.1 ht
      obtain ⟨root, kt, rest, hcall⟩ := hi.call hc
      simp only [call] at hc
      split_ifs at hc
      cases hc
      have h' : Chains cfg.codec { s with waiters := s.waiters.start k } :=
        { h with }
      exact h'.apply hcall ht
    | setrootEvent =>
      simp only [machine] at ht
      split at ht
      · rename_i ev events hev
        cases ht
        exact h.setrootEvent hev
      · cases ht
    | namespaceCreate ns => exact h.namespaceCreate ht
    | namespaceRemove ns =>
      obtain ⟨root, hroot, rfl⟩ := map_eq_some_iff.1 ht
      refine h.update hroot (fun n => rfl) le_rfl (fun _ _ => rfl) ?_ le_rfl
        fun ev hev => .inl hev
      exact (h.known ns root hroot).of_queue rfl rfl (List.Sublist.refl _)
        (h.known ns root hroot).copied
    | _ => cases hl

theorem Chains.init (h : Init cfg s) : Chains cfg.codec s := by
  obtain ⟨content, rfl⟩ := h
  refine ⟨fun n r hr => ?_, fun n _ => rfl, fun ev hev => by cases hev⟩
  change (if n = "primary" then _ else _) = _ at hr
  split_ifs at hr
  cases hr
  exact ⟨.empty, by simp, by simp [committed, queued, Leader.log, initial],
    by simp [committed, queued, Leader.log, initial]⟩

/-- **No lost update:** in every state of every run, the roots that were published for a
namespace form a chain that leads to its present root, each made from a copy of its
predecessor, and the transactions that made them were added in this order. -/
theorem published_roots_chain {root : Kvsroot} {ns : String}
    (hs : (machine cfg).Reach (fun _ _ => True) (Init cfg) s)
    (hroot : s.roots ns = some root) : RootChain cfg.codec (s.log ns) root.ref root.seq ∧
      (committed (s.log ns)).Pairwise (· < ·) := by
  have h : Chains cfg.codec s := hs.invariant (Chains cfg.codec) (fun _ => Chains.init)
    fun _ _ _ hr h _ ht => h.step (inv_of_reach hr) ht
  have hch := h.known ns root hroot
  exact ⟨hch.chain, (pairwise_append.1 hch.sorted).1⟩

/-- Two transactions, the second one added while the first one waits for its flush. -/
def twoCommits : List Label :=
  [.addTransaction "primary" "t1" [some ⟨"a", 0, some (.val "QQ==")⟩] 0,
    .check "primary" fun _ => none,
    .addTransaction "primary" "t2" [some ⟨"b", 0, some (.val "QQ==")⟩] 0,
    .contentStore "sha1-075bb047451b8f4b285fa9454c41dc81af099ae1" none,
    .run ⟨"primary", 0⟩ fun _ => none, .check "primary" fun _ => none,
    .contentStore "sha1-681b73f882df0c5d79444cebef0233db802dd181" none,
    .run ⟨"primary", 2⟩ fun _ => none]

theorem published_roots_chain_twoCommits :
    ∃ s root, (machine rfc11).Reach (fun _ _ => True) (Init rfc11) s ∧
      s.roots "primary" = some root ∧ root.seq = 2 ∧ committed (s.log "primary") = [0, 2] ∧
      RootChain rfc11.codec (s.log "primary") root.ref root.seq := by
  have hrun : (((machine rfc11).run twoCommits rfc11Initial).bind fun s =>
      (s.roots "primary").map fun root => (root.seq, committed (s.log "primary")))
      = some (2, [0, 2]) := by decide +kernel
  obtain ⟨s, hs, hroot⟩ := bind_eq_some_iff.1 hrun
  obtain ⟨root, hroot, heq⟩ := map_eq_some_iff.1 hroot
  obtain ⟨hseq, hcomd⟩ := Prod.mk.inj heq
  have hrch := reach_rfc11 hs
  exact ⟨s, root, hrch, hroot, hseq, hcomd, (published_roots_chain hrch hroot).1⟩

theorem Chains.of_reach (hs : (machine cfg).Reach (fun _ _ => True) (Init cfg) s) :
    Chains cfg.codec s :=
  hs.invariant (Chains cfg.codec) (fun _ => Chains.init) fun _ _ _ hr h _ ht =>
    h.step (inv_of_reach hr) ht

/-- **First come, first served:** the transactions of a namespace that have been committed, and
then those in its ready queue, are in the order in which they were added, each of them once. -/
theorem committed_then_queued {root : Kvsroot} {ns : String}
    (hs : (machine cfg).Reach (fun _ _ => True) (Init cfg) s) (hroot : s.roots ns = some root) :
    (committed (s.log ns) ++ queued root.ready).Pairwise (· < ·) :=
  ((Chains.of_reach hs).known ns root hroot).sorted

theorem committed_then_queued_twoCommits : ∃ s root,
    (machine rfc11).run (twoCommits.take 5) rfc11Initial = some s ∧
      s.roots "primary" = some root ∧ committed (s.log "primary") ++ queued root.ready = [0, 2] ∧
      (committed (s.log "primary") ++ queued root.ready).Pairwise (· < ·) := by
  have hrun : (((machine rfc11).run (twoCommits.take 5) rfc11Initial).bind fun s =>
      (s.roots "primary").map fun root => committed (s.log "primary") ++ queued root.ready)
        = some [0, 2] := by decide +kernel
  obtain ⟨s, hs, hroot⟩ := bind_eq_some_iff.1 hrun
  obtain ⟨root, hroot, heq⟩ := map_eq_some_iff.1 hroot
  exact ⟨s, root, hs, hroot, heq, committed_then_queued (reach_rfc11 hs) hroot⟩

/-- **Events that come back:** rank 0 receives the events that it has sent, when its roots may have
moved on, and they change none of them. -/
theorem setrootEvent_roots (hs : (machine cfg).Reach (fun _ _ => True) (Init cfg) s)
    (ht : (machine cfg).step .setrootEvent s = some t) : t.roots = s.roots := by
  simp only [machine] at ht
  split at ht
  · rename_i ev events hev
    cases ht
    obtain ⟨root, hroot, h0, hle⟩ := (Chains.of_reach hs).events ev (hev ▸ mem_cons_self)
    simp only [setrootEventCb, hroot]
    split_ifs
    · rfl
    · funext n
      simp only [setRoot, primeCacheWithRootdir_roots, setroot_of_le h0 hle]
      split_ifs with hn
      · rw [hn, hroot]
      · rfl
  · cases ht

/-- The event of the first commit comes back after the second one. -/
theorem setrootEvent_roots_twoCommits : ∃ s t,
    (machine rfc11).run twoCommits rfc11Initial = some s ∧
      (machine rfc11).step .setrootEvent s = some t ∧ t.roots = s.roots := by
  have hrun : (((machine rfc11).run twoCommits rfc11Initial).bind
      ((machine rfc11).step .setrootEvent)).isSome := by decide +kernel
  obtain ⟨t, ht⟩ := isSome_iff_exists.1 hrun
  obtain ⟨s, hs, ht⟩ := bind_eq_some_iff.1 ht
  exact ⟨s, t, hs, ht, setrootEvent_roots (reach_rfc11 hs) ht⟩

/-- **Waits are for transactions that are there:** a transaction that stands on the queues of the
cache, or is to be run again, is stalled at the head of the ready queue of its namespace. It is to
be run once, and only when it has left all queues. -/
theorem waits_live (hs : (machine cfg).Reach (fun _ _ => True) (Init cfg) s) :
    s.waiters.runnable.Nodup ∧ (∀ k ∈ s.waiters.runnable, s.Waiting k ∧
      ∀ ref, s.mem.cache.standing k ref = 0) ∧
    ∀ k ref, s.mem.cache.standing k ref ≠ 0 → s.Waiting k := by
  have h := (inv_of_reach hs).waiters
  refine ⟨h.nodup, fun k hk => ⟨h.live k (.inr hk), fun ref => ?_⟩, fun k ref => h.live_of_standing⟩
  rw [← h.count, h.idle k hk, count_nil]

/-- The first transaction waits for its flush. -/
theorem waits_live_twoCommits : ∃ s, (machine rfc11).run (twoCommits.take 2) rfc11Initial = some s ∧
    s.Waiting ⟨"primary", 0⟩ := by
  have hrun : ((machine rfc11).run (twoCommits.take 2) rfc11Initial).map (fun s =>
      s.mem.cache.standing ⟨"primary", 0⟩ "sha1-075bb047451b8f4b285fa9454c41dc81af099ae1")
        = some 1 := by decide +kernel
  obtain ⟨s, hs, hst⟩ := map_eq_some_iff.1 hrun
  exact ⟨s, hs, (waits_live (reach_rfc11 hs)).2.2 _ _ (hst ▸ Nat.one_ne_zero)⟩

end FluxCore.Kvs.Leader
