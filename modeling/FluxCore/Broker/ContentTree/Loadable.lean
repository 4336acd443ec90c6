import FluxCore.Broker.ContentTree.Inv

/-!
# Acknowledged Stores Stay Loadable

Every event keeps the invariant of an instance if it is none of the races (`Inv.handle`). So
acknowledged stores stay loadable in the runs without races (`acked_loadable`), and not in all
runs (`acked_not_loadable`).
-/

namespace FluxCore.Broker.Content

open List

variable {top : Topology} {hash : Bytes → Blobref}

namespace Tree

variable {t t' : Tree}

/-! ### Requests -/

theorem MayLoad.error (h : t.MayLoad top q r) (hs : ¬ t.Secured top r) (e : Errno) :
    t.MayAnswer top hash q (.error e) := by
  cases h with
  | @client n late _ h =>
    cases late with
    | true => exact absurd (h rfl) hs
    | false => exact .plain trivial
  | rpc hf => exact .rpcError

theorem MayDefer.error (h : MayDefer hash q r) (e : Errno) :
    t.MayAnswer top hash q (.error e) := by
  cases h with
  | client => exact .plain trivial
  | rpc hf => exact .rpcError

theorem MayDefer.acked (h : MayDefer hash q r) (hs : t.Secured top r) :
    t.MayAnswer top hash q (.blobref r) := by
  cases h with
  | client => exact .acked hs
  | rpc hf => exact .rpcAcked hf hs

theorem MayDefer.not_load (h : MayDefer hash (.rpc j f) r) : f.call ≠ .load r' := by
  cases h with
  | rpc hf =>
    rw [hf]
    nofun

theorem Inv.loadRequest (inv : t.Inv top hash) (hq : t.MayLoad top q r)
    (hdata : ∀ e ∈ (t.caches i).entries, e.blobref = r → e.valid = true →
      t.MayAnswer top hash q (.data e.data)) :
    ∃ t', t.run i (fun c => .ok (c.contentLoadRequest q r none)) = .ok t' ∧ t'.Inv top hash := by
  let p : Allow Req :=
    { loads := fun q' r' => q' = q ∧ r' = r
      answers := fun q' a => q' = q ∧
        ((∃ e ∈ (t.caches i).entries, e.blobref = r ∧ e.valid = true ∧ a = .data e.data) ∨
          a = .error .ENOENT ∧ ¬ t.Stored r) }
  have hp : t.Permits top hash i p := by
    refine ⟨nofun, nofun, ?_, nofun, nofun, ?_⟩
    · rintro q' r' ⟨rfl, rfl⟩
      exact hq
    · rintro j f e r' ⟨rfl, ⟨_, _, _, _, ha⟩ | ⟨-, hs⟩⟩ hf hsec
      · cases ha
      · cases hq with
        | rpc hload =>
          cases hload.symm.trans hf
          exact hs hsec.1
  refine inv.run hp ?_ ⟨_, rfl, .contentLoadRequest (inv.cache i) ⟨rfl, rfl⟩ ?_ ?_ nofun⟩
  · rintro q' a ⟨rfl, ⟨e, he, href, hv, rfl⟩ | ⟨rfl, hs⟩⟩
    · exact hdata e he href hv
    · exact hq.error (fun h => hs h.1) _
  · exact fun e he href hv => ⟨rfl, .inl ⟨e, he, href, hv, rfl⟩⟩
  · intro hrank hback hnone
    obtain rfl : i = 0 := (inv.rank i).symm.trans hrank
    refine ⟨rfl, .inr ⟨rfl, ?_⟩⟩
    rintro (⟨e, he, href, -⟩ | ⟨hb, -⟩)
    · exact hnone e he href
    · exact Bool.false_ne_true (hback.symm.trans hb)

theorem Inv.storeRequest (inv : t.Inv top hash) (hq : MayDefer hash q (hash data))
    (hg : t.MayStore top i (hash data)) :
    ∃ t', t.run i (fun c => c.contentStoreRequest hash q data none) = .ok t' ∧
      t'.Inv top hash := by
  let p : Allow Req :=
    { stores := fun q' r => q' = q ∧ r = hash data
      answers := fun q' a => q' = q ∧
        (a = .error .EFBIG ∨ a = .blobref (hash data) ∧ (i = 0 ∨ (t.caches i).Clean (hash data)) ∧
          data.length ≤ (t.caches i).limits.blobSize) }
  have hload : ∀ j f e r, p.answers (.rpc j f) (.error e) → f.call ≠ .load r := by
    rintro j f e r ⟨rfl, -⟩
    exact hq.not_load
  have hp : t.Permits top hash i p := by
    refine ⟨nofun, nofun, nofun, ?_, nofun, fun ha hf _ => hload _ _ _ _ ha hf⟩
    rintro q' r ⟨rfl, rfl⟩
    exact hq
  obtain ⟨c, hc, m, hval⟩ : ∃ c, (t.caches i).contentStoreRequest hash q data none = .ok c ∧
        Moves (Hashes hash) p (t.caches i) c ∧ (data.length ≤ (t.caches i).limits.blobSize →
          c.Valid (hash data) ∨ (t.caches i).Clean (hash data) ∨ p.cleaned (hash data)) := by
    refine Moves.contentStoreRequest (inv.cache i) rfl hg.1 (fun _ => ⟨rfl, rfl⟩) ?_
      (fun _ => ⟨rfl, .inl rfl⟩) nofun
    intro hsize h
    rw [inv.rank i] at h
    exact ⟨rfl, .inr ⟨rfl, h, hsize⟩⟩
  have k := Keeps.set inv hp m
  refine ⟨t.set i c, by rw [Tree.run, hc]; rfl, inv.set hp m ?_⟩
  rintro q' a ⟨rfl, rfl | ⟨rfl, hnow, hsize⟩⟩
  · exact hq.error _
  have hstd : (t.set i c).Stored (hash data) := by
    rcases hval hsize with h | h | h
    · rcases hnow with rfl | hcl
      · refine .inl ?_
        rwa [set_caches_self]
      · exact k.stored (inv.clean hcl)
    · exact k.stored (inv.clean h)
    · exact h.elim
  exact hq.acked ⟨hstd, (hg.2 hnow).set m fun j f e => hload j f e _⟩

variable (n : ℕ)

/-- A request of a client that is answered without data. -/
def plain : Allow Req where
  flushes := fun q => q = .client n false
  answers := fun q a => q = .client n false ∧ a.Plain

theorem permits_plain : t.Permits top hash i (plain n) :=
  ⟨nofun, nofun, nofun, nofun, fun hq => ⟨n, hq⟩, fun h => by cases h.1⟩

theorem Inv.plain (inv : t.Inv top hash)
    (h : ∃ c, handler (t.caches i) = .ok c ∧ Moves (Hashes hash) (plain n) (t.caches i) c) :
    ∃ t', t.run i handler = .ok t' ∧ t'.Inv top hash := by
  refine inv.run (permits_plain n) ?_ h
  rintro q a ⟨rfl, ha⟩
  exact .plain ha

/-! ### RPCs -/

theorem Inv.back_not_valid (inv : t.Inv top hash) (hf : f ∈ (t.caches i).futures)
    (hcall : f.call = .load r) : ¬ (t.caches i).Valid r := by
  rintro ⟨e', he', href', hv⟩
  obtain ⟨e, he, -, -, href, hload⟩ := (inv.cache i).find_load hf hcall
  obtain rfl := (inv.cache i).ref_unique e he e' he' (href.trans href'.symm)
  exact Bool.false_ne_true ((((inv.cache i).entry e he).load_invalid hload).symm.trans hv)

theorem Inv.answerBack (inv : t.Inv top hash) (ha : t.MayAnswerBack hash (.rpc 0 f) a)
    (hfail : ∀ e r, a = .error e → f.call = .load r → ¬ t.Secured top r) :
    (t.answerBack f a).Inv top hash := by
  have k : t.Keeps top (t.answerBack f a) := by
    refine ⟨fun h => h, fun h => h, fun {r} h => ⟨h.1, fun j hj x hx => ?_⟩⟩
    by_contra hx'
    have hold : x ∉ t.replies top j := fun hx => hx' (h.2 j hj x hx)
    rw [replies] at hx hold
    split_ifs at hx hold
    · rcases mem_append.1 hx with hx | hx
      · exact hold hx
      · obtain rfl := mem_singleton.1 hx
        cases a with
        | error e =>
          rw [Bool.not_eq_false, isFailure, decide_eq_true_iff] at hx'
          exact hfail e r rfl hx'.2.1 h
        | data | blobref | done => exact hx' rfl
    · exact hold hx
  refine ⟨inv.cache, inv.rank, inv.held, inv.root_clean, inv.clean,
    fun h => (inv.loads h).keeps k, inv.stores, inv.flushes, fun h => (inv.answers h).keeps k,
    fun h => ?_⟩
  rcases mem_append.1 h with h | h
  · exact (inv.back h).keeps k
  · cases mem_singleton.1 h
    exact ha.keeps k

theorem hold_self : (t.hold hash d).held (hash d) = some d :=
  Function.update_self ..

theorem hold_ne (h : r ≠ hash d) : (t.hold hash d).held r = t.held r :=
  Function.update_of_ne h ..

section

variable (inv : t.Inv top hash)
include inv

theorem Inv.hold (d : Bytes) : (t.hold hash d).Inv top hash := by
  have hheld : ∀ {r}, t.Held r → (t.hold hash d).Held r := by
    rintro r ⟨hb, d', hd'⟩
    by_cases hr : r = hash d
    · exact ⟨hb, d, by rw [hr, hold_self]⟩
    · exact ⟨hb, d', by rw [hold_ne hr, hd']⟩
  have k : t.Keeps top (t.hold hash d) :=
    ⟨hheld, Or.imp_right hheld, fun h => ⟨h.1.imp_right hheld, h.2⟩⟩
  refine ⟨inv.cache, inv.rank, fun {r d'} h => ?_, fun h => hheld (inv.root_clean h),
    fun h => k.stored (inv.clean h), fun h => (inv.loads h).keeps k, inv.stores, inv.flushes,
    fun h => (inv.answers h).keeps k, fun h => (inv.back h).keeps k⟩
  by_cases hr : r = hash d
  · subst hr
    rw [hold_self] at h
    cases h
    rfl
  · rw [hold_ne hr] at h
    exact inv.held h

theorem Inv.handleBack (hf : f ∈ (t.caches 0).futures) (refuse : Option Errno) :
    (t.handleBack hash f refuse).Inv top hash := by
  rw [Tree.handleBack]
  by_cases hb : (t.caches 0).backing = true
  · rw [if_pos hb]
    cases hcall : f.call with
    | load r =>
      simp only
      cases hheld : t.held r with
      | some d =>
        obtain rfl := inv.held hheld
        exact inv.answerBack (.data hcall ⟨hb, d, hheld⟩) nofun
      | none =>
        refine inv.answerBack .error ?_
        rintro e r' - hr' ⟨hv | ⟨-, d, hd⟩, -⟩
        · exact inv.back_not_valid hf hr' hv
        cases hcall.symm.trans hr'
        rw [hheld] at hd
        cases hd
    | store d =>
      simp only
      cases refuse with
      | some e =>
        refine inv.answerBack .error ?_
        rintro _ r - hr
        cases hcall.symm.trans hr
      | none =>
        exact (inv.hold d).answerBack (.acked hcall ⟨hb, d, hold_self⟩) nofun
  · rw [if_neg hb]
    refine inv.answerBack .error ?_
    rintro e r - hr ⟨hv | ⟨hb', -⟩, -⟩
    · exact inv.back_not_valid hf hr hv
    · exact hb hb'

theorem Inv.forward (hf : f ∈ (t.caches i).futures) (refuse : Option Errno)
    (hg : NoRace top hash (.ok t) (.forward i f refuse)) :
    ∃ t', t.forward top hash i f refuse = .ok t' ∧ t'.Inv top hash := by
  rw [Tree.forward]
  by_cases hi : i = 0
  · subst hi
    rw [if_pos rfl]
    exact ⟨_, rfl, inv.handleBack hf refuse⟩
  rw [if_neg hi]
  have hrace := hg.resolve_left hi
  cases hcall : f.call with
  | load r =>
    rw [hcall] at hrace
    refine inv.loadRequest (.rpc hcall) fun e he href hv => ?_
    have hhash : hash e.data = r := href ▸ ((inv.cache _).entry e he).good hv
    subst hhash
    refine .rpcData hcall ?_
    rcases hrace with hroot | hdty
    · rw [hroot] at he
      exact .inl ⟨e, he, href, hv⟩
    · exact inv.clean ⟨e, he, href, hv, hdty e he href⟩
  | store d =>
    rw [hcall] at hrace
    exact inv.storeRequest (.rpc hcall) hrace

theorem Inv.reply_load (hmem : (.rpc i f, a) ∈ t.replies top i) (hcall : f.call = .load r) :
    (∃ e, a = .error e) ∨
      ∃ d, a = .data d ∧ hash d = r ∧ t.Stored r ∧ (i = 0 → t.Held r) := by
  rw [replies] at hmem
  split_ifs at hmem with hi
  · cases inv.back hmem with
    | error => exact .inl ⟨_, rfl⟩
    | data hf h =>
      cases hcall.symm.trans hf
      exact .inr ⟨_, rfl, rfl, .inr h, fun _ => h⟩
    | acked hf h => cases hcall.symm.trans hf
  cases inv.answers hmem with
  | rpcError => exact .inl ⟨_, rfl⟩
  | rpcData hf h =>
    cases hcall.symm.trans hf
    exact .inr ⟨_, rfl, rfl, h, fun h => absurd h hi⟩
  | rpcAcked hf h => cases hcall.symm.trans hf

theorem Inv.reply_store (hmem : (.rpc i f, a) ∈ t.replies top i) (hcall : f.call = .store d) :
    (∃ e, a = .error e) ∨
      a = .blobref (hash d) ∧ t.Stored (hash d) ∧ (i = 0 → t.Held (hash d)) ∧
        (i ≠ 0 → t.Secured top (hash d)) := by
  rw [replies] at hmem
  split_ifs at hmem with hi
  · cases inv.back hmem with
    | error => exact .inl ⟨_, rfl⟩
    | data hf h => cases hcall.symm.trans hf
    | acked hf h =>
      cases hcall.symm.trans hf
      exact .inr ⟨rfl, .inr h, fun _ => h, fun h => absurd hi h⟩
  cases inv.answers hmem with
  | rpcError => exact .inl ⟨_, rfl⟩
  | rpcData hf h => cases hcall.symm.trans hf
  | rpcAcked hf h =>
    cases hcall.symm.trans hf
    exact .inr ⟨rfl, h.1, fun h => absurd h hi, fun _ => h⟩

theorem Inv.loadContinuation (hi : i < top.size) (hf : f ∈ (t.caches i).futures)
    (hnew : (i, f) ∉ t.delivered) (hmem : (.rpc i f, a) ∈ t.replies top i)
    (hcall : f.call = .load r) :
    ∃ t', t.run i (fun c => c.cacheLoadContinuation f a.toLoad) = .ok t' ∧ t'.Inv top hash := by
  rcases inv.reply_load hmem hcall with ⟨e, rfl⟩ | ⟨d, rfl, rfl, hstd, hheld⟩
  · have hsec : ¬ t.Secured top r := fun h => by
      have := h.2 i hi _ hmem
      simp [isFailure, hcall, hnew] at this
    let p : Allow Req :=
      { answers := fun q a => (t.caches i).LoadWaits q r ∧ ∃ e, a = .error e }
    have hp : t.Permits top hash i p := by
      refine ⟨False.elim, fun _ => False.elim, False.elim, False.elim, False.elim, ?_⟩
      rintro j f' e' r' ⟨hw, -⟩ hf'
      cases inv.loads hw with
      | rpc hload =>
        cases hload.symm.trans hf'
        exact hsec
    refine inv.run hp ?_
      (Moves.cacheLoadContinuation (inv.cache i) hf hcall (fun _ h => by cases h) ?_)
    · rintro q a ⟨hw, e', rfl⟩
      exact (inv.loads hw).error hsec e'
    · exact fun _ _ q hw => ⟨hw, _, rfl⟩
  · let p : Allow Req :=
      { cleaned := fun r => r = hash d
        answers := fun q a => (t.caches i).LoadWaits q (hash d) ∧ a = .data d }
    have hp : t.Permits top hash i p := by
      refine ⟨?_, ?_, False.elim, False.elim, False.elim, fun h => by cases h.2⟩
      · rintro r rfl
        exact hstd
      · rintro r h0 rfl
        exact hheld h0
    refine inv.run hp ?_
      (Moves.cacheLoadContinuation (inv.cache i) hf hcall ?_ fun _ h => by cases h)
    · rintro q a ⟨hw, rfl⟩
      cases inv.loads hw with
      | client h => exact .data
      | rpc hload => exact .rpcData hload hstd
    · intro data hdata
      cases hdata
      exact ⟨rfl, rfl, fun q hw => ⟨hw, rfl⟩⟩

theorem Inv.storeContinuation (hf : f ∈ (t.caches i).futures)
    (hmem : (.rpc i f, a) ∈ t.replies top i) (hcall : f.call = .store d) (keys : List Blobref) :
    ∃ t', t.run i (fun c => c.cacheStoreContinuation f a.toStore keys none) = .ok t' ∧
      t'.Inv top hash := by
  let p : Allow Req :=
    { cleaned := fun r => r = hash d ∧ a = .blobref r
      answers := fun q a' =>
        ((∃ r, (t.caches i).StoreWaits q r) ∧ ∃ e, a' = .error e) ∨
        ((t.caches i).StoreWaits q (hash d) ∧ a' = .blobref (hash d) ∧ a = .blobref (hash d)) ∨
        (q ∈ (t.caches i).flushRequests ∧ a'.Plain) }
  have hok : a = .blobref (hash d) → t.Stored (hash d) ∧ (i = 0 → t.Held (hash d)) ∧
      (i ≠ 0 → t.Secured top (hash d)) := by
    rintro rfl
    rcases inv.reply_store hmem hcall with ⟨e, he⟩ | ⟨-, h⟩
    · cases he
    · exact h
  have hp : t.Permits top hash i p := by
    refine ⟨?_, ?_, nofun, nofun, nofun, ?_⟩
    · rintro r ⟨rfl, ha⟩
      exact (hok ha).1
    · rintro r h0 ⟨rfl, ha⟩
      exact (hok ha).2.1 h0
    · rintro j f' e r (⟨⟨r', hw⟩, -⟩ | ⟨-, ha, -⟩ | ⟨hw, -⟩) hf'
      · exact absurd hf' (inv.stores hw).not_load
      · cases ha
      · obtain ⟨n, hn⟩ := inv.flushes hw
        cases hn
  refine inv.run hp ?_ (Moves.cacheStoreContinuation (inv.cache i) hf hcall ?_ ?_ ?_)
  · rintro q a' (⟨⟨r', hw⟩, e, rfl⟩ | ⟨hw, rfl, ha⟩ | ⟨hw, ha⟩)
    · exact (inv.stores hw).error e
    · refine (inv.stores hw).acked ((hok ha).2.2 ?_)
      -- on rank 0 no request waits for a store
      obtain ⟨e, he, -, hq⟩ := hw
      have hstores := (inv.cache i).entry e he |>.stores (ne_nil_of_mem hq)
      rw [inv.rank i] at hstores
      exact hstores.2
    · obtain ⟨n, rfl⟩ := inv.flushes hw
      exact .plain ha
  · intro r hr hgood
    have ha : a = .blobref r := by
      cases a with
      | blobref r' =>
        cases hr
        rfl
      | data | error | done => cases hr
    obtain rfl : hash d = r := hgood
    exact ⟨⟨rfl, ha⟩, fun q hw => .inr (.inl ⟨hw, rfl, ha⟩)⟩
  · exact fun q r e hw => .inl ⟨⟨r, hw⟩, e, rfl⟩
  · rintro q (hq | hq) a' ha'
    · exact .inr (.inr ⟨hq, ha'⟩)
    · exact hq.elim

end

/-! ### Runs -/

theorem handle_onRank (h : handle.onRank top t i handler = some s) : s = t.run i handler := by
  rw [handle.onRank] at h
  split_ifs at h
  cases h
  rfl

/-- **One step.** There is no fault, and the invariant is kept. -/
theorem Inv.handle (inv : t.Inv top hash) (hg : NoRace top hash (.ok t) l)
    (hstep : t.handle top hash l = some s) : ∃ t', s = .ok t' ∧ t'.Inv top hash := by
  cases l with
  | load i n r =>
    rw [handle_onRank hstep]
    refine inv.loadRequest (.client fun h => inv.secured (of_decide_eq_true h)) ?_
    exact fun _ _ _ _ => .data
  | store i n data =>
    rw [handle_onRank hstep]
    exact inv.storeRequest .client hg
  | flush i n keys =>
    rw [handle_onRank hstep]
    exact inv.plain n (Moves.contentFlushRequest (inv.cache i) rfl fun _ ha => ⟨rfl, ha⟩)
  | backing i n keys =>
    rw [handle_onRank hstep]
    exact inv.plain n (Moves.contentBackingRequest (inv.cache i) fun _ ha => ⟨rfl, ha⟩)
  | dropcache i n =>
    rw [handle_onRank hstep]
    exact inv.plain n (Moves.contentDropcacheRequest (inv.cache i) fun _ ha => ⟨rfl, ha⟩)
  | heartbeat i epoch keys =>
    rw [handle_onRank hstep]
    exact inv.plain 0 (Moves.heartbeatEvent (inv.cache i) epoch keys)
  | forward i f refuse =>
    rw [Tree.handle] at hstep
    split_ifs at hstep with h
    obtain ⟨t', ht', inv'⟩ := inv.forward h.2.1 refuse hg
    cases hstep
    rw [ht']
    exact ⟨_, rfl, inv'.mark _ _ fun _ hx => hx⟩
  | reply i f keys =>
    rw [Tree.handle] at hstep
    split_ifs at hstep with h
    obtain ⟨⟨q, a⟩, hfind, rfl⟩ := Option.map_eq_some_iff.1 hstep
    have hmem := List.mem_of_find?_eq_some hfind
    obtain rfl : q = .rpc i f := by simpa using List.find?_some hfind
    obtain ⟨t', ht', inv'⟩ : ∃ t', t.continuation i f a keys = .ok t' ∧ t'.Inv top hash := by
      rw [continuation]
      cases hcall : f.call with
      | load r => exact inv.loadContinuation h.1 h.2.1 h.2.2 hmem hcall
      | store d => exact inv.storeContinuation h.2.1 hmem hcall keys
    rw [ht']
    exact ⟨_, rfl, inv'.mark _ _ fun _ hx => mem_cons_of_mem _ hx⟩

theorem inv_initial {limits : ℕ → Limits} {held : Blobref → Option Bytes}
    (hheld : ∀ r d, held r = some d → hash d = r) :
    ({ caches := fun i => { rank := i, limits := limits i }, held := held } : Tree).Inv
      top hash where
  cache i := cacheInv_new _ i (limits i)
  rank i := rfl
  held := hheld _ _
  root_clean := fun ⟨_, he, _⟩ => by cases he
  clean := fun ⟨_, he, _⟩ => by cases he
  loads := fun ⟨_, he, _⟩ => by cases he
  stores := fun ⟨_, he, _⟩ => by cases he
  flushes := nofun
  answers := nofun
  back := nofun

end Tree

/-- **An acknowledged store stays loadable**, in every run without the races. There is no fault,
and: every blob that was acknowledged is in the cache of rank 0 or in the backing store; no
load that was sent after an acknowledgement of the blob has been answered with an error; no
dirty entry has been removed. What the caches and the backing store have under a blobref are
data of the blob. -/
theorem acked_loadable {s : Except Fault Tree}
    (hreach : (treeMachine top hash).Reach (NoRace top hash) (TreeInitial hash) s) :
    ∃ t, s = .ok t ∧ (∀ r, t.Acked top r → t.Stored r) ∧
      (∀ i n e, (.client n true, .error e) ∉ (t.caches i).answers) ∧
      (∀ i, ∀ p ∈ (t.caches i).removed, p.entry.dirty = false) ∧
      (∀ i, ∀ e ∈ (t.caches i).entries, e.valid = true → hash e.data = e.blobref) ∧
      ∀ r d, t.held r = some d → hash d = r := by
  have hinv : ∃ t, s = .ok t ∧ t.Inv top hash := by
    refine hreach.invariant (fun s => ∃ t, s = .ok t ∧ t.Inv top hash) ?_ ?_
    · rintro _ ⟨limits, held, hheld, rfl⟩
      exact ⟨_, rfl, Tree.inv_initial hheld⟩
    · rintro _ l t - ⟨t₀, rfl, inv⟩ hg hstep
      exact inv.handle hg hstep
  obtain ⟨t, rfl, inv⟩ := hinv
  refine ⟨t, rfl, fun r h => (inv.secured h).1, fun i n e h => ?_,
    fun i p hp => ((inv.cache i).removed p hp).1,
    fun i e he hv => ((inv.cache i).entry e he).good hv, fun r d => inv.held⟩
  cases inv.answers h

instance (t : Tree) (r : Blobref) : Decidable (t.NoFailure top r) := by
  unfold Tree.NoFailure
  infer_instance

instance (t : Tree) (i : ℕ) (r : Blobref) : Decidable (t.MayStore top i r) := by
  unfold Tree.MayStore Cache.Clean
  infer_instance

instance (t : Tree) (i : ℕ) (r : Blobref) : Decidable (t.MayServe i r) := by
  unfold Tree.MayServe
  infer_instance

instance (s : Except Fault Tree) (l : Event) : Decidable (NoRace top hash s l) := by
  unfold NoRace
  split
  · infer_instance
  · rename_i f _
    cases f.call <;> infer_instance
  · infer_instance

/-- A binary tree of four brokers. -/
def fourBrokers : Topology where
  size := 4
  parent i := (i - 1) / 2
  parent_lt i hi := by omega

/-- Nothing has happened, and the backing store is empty. -/
def emptyTree : Tree where
  caches i := { rank := i }
  held _ := none

theorem emptyTree_initial : TreeInitial oneHash (.ok emptyTree) :=
  ⟨fun _ => {}, fun _ => none, nofun, rfl⟩

/-- A blob is stored on rank 3, and then loaded on rank 2. -/
theorem acked_loadable_fourBrokers :
    ∃ t, (treeMachine fourBrokers oneHash).Reach (NoRace fourBrokers oneHash)
        (TreeInitial oneHash) (.ok t) ∧
      (Req.client 2 true, Answer.data [1]) ∈ (t.caches 2).answers ∧
      ∃ t', Except.ok t = Except.ok (ε := Fault) t' ∧
        (∀ r, t'.Acked fourBrokers r → t'.Stored r) ∧
        (∀ i n e, (.client n true, .error e) ∉ (t'.caches i).answers) ∧
        (∀ i, ∀ p ∈ (t'.caches i).removed, p.entry.dirty = false) ∧
        (∀ i, ∀ e ∈ (t'.caches i).entries, e.valid = true → oneHash e.data = e.blobref) ∧
        ∀ r d, t'.held r = some d → oneHash d = r := by
  have hrun : ∃ t, (treeMachine fourBrokers oneHash).runGuarded
      (fun s l => NoRace fourBrokers oneHash s l)
      [.store 3 1 [1], .forward 3 ⟨1, 0, .store [1]⟩ none, .forward 1 ⟨1, 0, .store [1]⟩ none,
        .reply 1 ⟨1, 0, .store [1]⟩ [], .reply 3 ⟨1, 0, .store [1]⟩ [],
        .load 2 2 "sha1-0", .forward 2 ⟨1, 0, .load "sha1-0"⟩ none,
        .reply 2 ⟨1, 0, .load "sha1-0"⟩ []] (.ok emptyTree) = some (.ok t) ∧
      (Req.client 2 true, Answer.data [1]) ∈ (t.caches 2).answers :=
    ⟨_, rfl, by decide⟩
  obtain ⟨t, hrun, hans⟩ := hrun
  have hrch : (treeMachine fourBrokers oneHash).Reach (NoRace fourBrokers oneHash)
      (TreeInitial oneHash) (.ok t) :=
    .of_runGuarded (fun _ _ => of_decide_eq_true) (.start emptyTree_initial) hrun
  exact ⟨t, hrch, hans, acked_loadable hrch⟩

/-- A blob is dirty on rank 1, while its store is in flight, and rank 3 loads it. There it counts
as stored, and a store of it is acknowledged. A later load on rank 2 fails. -/
theorem acked_not_loadable :
    ∃ t, (treeMachine fourBrokers oneHash).Reach (fun _ _ => True) (TreeInitial oneHash)
        (.ok t) ∧
      (Req.client 4 true, Answer.error .ENOENT) ∈ (t.caches 2).answers := by
  have hrun : ∃ t, (treeMachine fourBrokers oneHash).run
      [.store 1 1 [1], .load 3 2 "sha1-0", .forward 3 ⟨1, 0, .load "sha1-0"⟩ none,
        .reply 3 ⟨1, 0, .load "sha1-0"⟩ [], .store 3 3 [1],
        .load 2 4 "sha1-0", .forward 2 ⟨1, 0, .load "sha1-0"⟩ none,
        .reply 2 ⟨1, 0, .load "sha1-0"⟩ []] (.ok emptyTree) = some (.ok t) ∧
      (Req.client 4 true, Answer.error .ENOENT) ∈ (t.caches 2).answers :=
    ⟨_, rfl, by decide⟩
  obtain ⟨t, hrun, hans⟩ := hrun
  exact ⟨t, .of_run (.start emptyTree_initial) hrun, hans⟩

/-- The failure of a load is on its way to rank 1 when the blob is stored on rank 0. -/
example : ∃ t, (treeMachine fourBrokers oneHash).run
    [.load 1 1 "sha1-0", .forward 1 ⟨1, 0, .load "sha1-0"⟩ none, .store 0 2 [1],
      .load 1 3 "sha1-0", .reply 1 ⟨1, 0, .load "sha1-0"⟩ []] (.ok emptyTree) = some (.ok t) ∧
    (t.caches 1).answers =
      [(.client 1 false, .error .ENOENT), (.client 3 true, .error .ENOENT)] :=
  ⟨_, rfl, rfl⟩

/-- On rank 0 with a backing store, the failure of a load removes the dirty entry. -/
example : ∃ t, (treeMachine fourBrokers oneHash).run
    [.backing 0 1 [], .load 0 2 "sha1-0", .store 0 3 [1],
      .forward 0 ⟨1, 0, .load "sha1-0"⟩ none, .reply 0 ⟨1, 0, .load "sha1-0"⟩ []]
      (.ok emptyTree) = some (.ok t) ∧
    (t.caches 0).entries = [] ∧ (t.caches 0).removed.map (fun p => p.entry.dirty) = [true] :=
  ⟨_, rfl, rfl, rfl⟩

end FluxCore.Broker.Content
