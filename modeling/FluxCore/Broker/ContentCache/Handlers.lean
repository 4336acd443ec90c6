import FluxCore.Broker.ContentCache.Moves

/-!
# The Handlers of a Content Cache

Every handler is a series of moves: one theorem for each handler says so, and that no
assertion fails and no freed entry is used. What the moves are allowed to do (`p`) is left
open; the hypotheses say what each handler needs. The store of a blob needs that no load of
it is in flight.
-/

namespace FluxCore.Broker.Content

open List

variable {ρ : Type} {good : Blobref → Bytes → Prop} {p : Allow ρ} {c : Cache ρ} {e : Entry ρ}

theorem Cache.mem_of_lookup (h : c.lookupEntry r = some e) : e ∈ c.entries ∧ e.blobref = r :=
  ⟨List.mem_of_find?_eq_some h, by simpa using List.find?_some h⟩

theorem Cache.ne_of_lookup_none (h : c.lookupEntry r = none) :
    ∀ e ∈ c.entries, e.blobref ≠ r := by
  simpa [lookupEntry] using h

theorem Cache.mem_modify (he : e ∈ c.entries) (g : Entry ρ → Entry ρ) :
    g e ∈ (c.modify e.id g).entries :=
  List.mem_map.2 ⟨e, he, if_pos rfl⟩

section

variable (inv : CacheInv good c) (he : e ∈ c.entries)
include inv he

theorem Moves.start (g : Entry ρ → Entry ρ) (call : Call) (hchg : Change good p c e (g e))
    (hpend : (g e).Pending good call)
    (hnone : ∀ f ∈ c.futures, f.entry = e.id → f.call.isStore ≠ call.isStore) {n : ℕ}
    (hn : n = if call.isStore then c.flushBatchCount + 1 else c.flushBatchCount) :
    Moves good p c { (c.sendRpc e call).modify e.id g with flushBatchCount := n } := by
  have hmod := Moves.modify inv he hchg
  have hsend : Moves good p (c.modify e.id g)
      { (c.modify e.id g).sendRpc (g e) call with flushBatchCount := n } := by
    refine Moves.send hmod.inv (Cache.mem_modify he g) hpend (fun f hf hent => ?_) hn
    exact hnone f hf (hent.trans hchg.id)
  refine (hmod.trans hsend).congr ?_
  simp only [Cache.core, Cache.sendRpc, Cache.modify, hchg.id]

theorem CacheInv.no_load (hload : e.loadPending = false) :
    ∀ f ∈ c.futures, f.entry = e.id → f.call.isStore ≠ false := by
  intro f hf hent hkind
  obtain ⟨e', he', hid, hpend⟩ := inv.future_entry f hf
  obtain rfl : e' = e := inv.id_unique e' he' e he (hid.trans hent)
  cases hcall : f.call with
  | load r =>
    rw [hcall, Entry.Pending, hload] at hpend
    cases hpend.2
  | store d =>
    rw [hcall] at hkind
    cases hkind

theorem CacheInv.no_store (hsto : e.storePending = false) :
    ∀ f ∈ c.futures, f.entry = e.id → f.call.isStore ≠ true := by
  intro f hf hent hkind
  obtain ⟨e', he', hid, hpend⟩ := inv.future_entry f hf
  obtain rfl : e' = e := inv.id_unique e' he' e he (hid.trans hent)
  cases hcall : f.call with
  | load r =>
    rw [hcall] at hkind
    cases hkind
  | store d =>
    rw [hcall, Entry.Pending, hsto] at hpend
    cases hpend.1

theorem Moves.touch (epoch : UInt32) :
    Moves good p c (c.modify e.id ({ · with lastused := epoch })) := by
  have hok := inv.entry e he
  refine .modify inv he ⟨rfl, rfl, ?_, fun f _ _ h => h.imp rfl (fun _ => id) fun _ => id, id,
    fun hv hd => .inl ⟨hv, hd⟩, fun _ => .inl, fun _ => .inl⟩
  exact { hok with }

end

section

variable (inv : CacheInv good c)
include inv

/-- The futures that are left when an RPC has been answered: none of the same kind for the
same entry. -/
theorem CacheInv.take_kind (hf : f ∈ c.futures) (hf' : f' ∈ (c.takeFuture f).futures)
    (hent : f'.entry = f.entry) :
    f'.call.isStore ≠ f.call.isStore := by
  intro hkind
  obtain ⟨hmem, hne⟩ := mem_filter.1 hf'
  simp [inv.future_unique f' hmem f hf hent hkind] at hne

/-! ### Loading -/

theorem Moves.deferLoad (he : e ∈ c.entries) (hload : e.loadPending = true) {req : ρ}
    (hreq : p.loads req e.blobref) : Moves good p c
      (c.modify e.id fun e => { e with loadRequests := e.loadRequests ++ [req] }) := by
  have hok := inv.entry e he
  refine Moves.modify inv he ⟨rfl, rfl, ?_, fun f _ _ h => h.imp rfl (fun _ => id) fun _ => id,
    id, fun hv hd => .inl ⟨hv, hd⟩, fun q hq => ?_, fun _ => .inl⟩
  · exact { hok with loads := fun _ => hload }
  · rcases mem_append.1 hq with hq | hq
    · exact .inl hq
    · obtain rfl := mem_singleton.1 hq
      exact .inr hreq

theorem Moves.loadMiss (he : e ∈ c.entries) (hv : e.valid = false) {req : ρ} {fail : Option Errno}
    (hreq : p.loads req e.blobref)
    (hfail : ∀ errnum, fail = some errnum → p.answers req (.error (c.loadErrno errnum))) :
    Moves good p c (c.loadMiss req e fail) := by
  have hok := inv.entry e he
  unfold Cache.loadMiss Cache.cacheLoad
  by_cases hload : e.loadPending = true
  · rw [if_pos hload]
    exact .deferLoad inv he hload hreq
  rw [if_neg hload]
  rw [Bool.not_eq_true] at hload
  cases fail with
  | some errnum => exact .respond inv (hfail errnum rfl)
  | none =>
    have hchg : Change good p c e { e with loadPending := true } := by
      refine ⟨rfl, rfl, ?_, fun f _ _ h => h.imp rfl (fun _ _ => rfl) fun _ => id, id,
        fun hv hd => .inl ⟨hv, hd⟩, fun _ => .inl, fun _ => .inl⟩
      exact { hok with load_invalid := fun _ => hv, loads := fun _ => rfl }
    have hstart := Moves.start (p := p) inv he ({ · with loadPending := true })
      (.load e.blobref) hchg ⟨rfl, rfl⟩ (inv.no_load he hload) rfl
    exact hstart.trans (.deferLoad hstart.inv (Cache.mem_modify he _) rfl hreq)

theorem Moves.contentLoadRequest (hreq : p.loads req r)
    (hdata : ∀ e ∈ c.entries, e.blobref = r → e.valid = true → p.answers req (.data e.data))
    (hnone : c.rank = 0 → c.backing = false → (∀ e ∈ c.entries, e.blobref ≠ r) →
      p.answers req (.error .ENOENT))
    (hfail : ∀ errnum, fail = some errnum → p.answers req (.error (c.loadErrno errnum))) :
    Moves good p c (c.contentLoadRequest req r fail) := by
  rw [Cache.contentLoadRequest]
  cases hlk : c.lookupEntry r with
  | none =>
    have hne := Cache.ne_of_lookup_none hlk
    simp only
    split_ifs with hroot
    · exact .respond inv (hnone hroot.1 (by simpa using hroot.2) hne)
    have hins : Moves good p c (c.insertEntry (c.cacheEntryCreate r)) := .insert inv hne
    refine hins.trans (.loadMiss hins.inv ?_ rfl hreq hfail)
    exact mem_append_right _ (mem_singleton.2 rfl)
  | some e =>
    obtain ⟨he, rfl⟩ := Cache.mem_of_lookup hlk
    simp only
    split_ifs with hv
    · exact .loadMiss inv he (by simpa using hv) hreq hfail
    have hval : e.valid = true := by simpa using hv
    have htch : Moves good p c (c.modify e.id ({ · with lastused := c.epoch })) :=
      .touch inv he c.epoch
    exact htch.trans (.respond htch.inv (hdata e he rfl hval))

theorem CacheInv.find_id (he : e ∈ c.entries) {id : ℕ} (hid : e.id = id) :
    c.entries.find? (fun e => e.id = id) = some e := by
  cases hfind : c.entries.find? fun e => e.id = id with
  | none =>
    have := List.find?_eq_none.1 hfind e he
    simp [hid] at this
  | some e' =>
    have hid' : e'.id = id := by simpa using List.find?_some hfind
    rw [inv.id_unique e' (List.mem_of_find?_eq_some hfind) e he (hid'.trans hid.symm)]

theorem CacheInv.find_load {f : Future} (hf : f ∈ c.futures) {r : Blobref}
    (hcall : f.call = .load r) :
    ∃ e ∈ c.entries, c.entries.find? (fun e => e.id = f.entry) = some e ∧ e.id = f.entry ∧
      e.blobref = r ∧ e.loadPending = true := by
  obtain ⟨e, he, hid, hpend⟩ := inv.future_entry f hf
  rw [hcall] at hpend
  exact ⟨e, he, inv.find_id he hid, hid, hpend.1.symm, hpend.2⟩

end

section

variable (inv : CacheInv good c) (hf : f ∈ c.futures) (hcall : f.call = .load r)
include inv hf hcall

theorem Moves.loadFailed (he : e ∈ c.entries) (hid : e.id = f.entry)
    (hload : e.loadPending = true) (hans : ∀ q ∈ e.loadRequests, p.answers q (.error errnum)) :
    ∃ c', (c.takeFuture f).loadFailed e errnum = .ok c' ∧ Moves good p c c' := by
  have hok := inv.entry e he
  have hv := hok.load_invalid hload
  have hdty : e.dirty = false := by
    refine Bool.eq_false_iff.2 fun h => ?_
    rw [hok.dirty_valid h] at hv
    cases hv
  have htake : Moves good p c (c.takeFuture f) :=
    .take inv hf (by rw [hcall, Call.isStore, if_neg Bool.false_ne_true])
  have hmod : Moves good p (c.takeFuture f)
      ((c.takeFuture f).modify e.id ({ · with loadPending := false, loadRequests := [] })) := by
    refine .modify htake.inv he ⟨rfl, rfl, ?_, fun f' hf' hent h => ?_, id,
      fun hv hd => .inl ⟨hv, hd⟩, nofun, fun _ => .inl⟩
    · exact { hok with load_invalid := nofun, loads := fun h => absurd rfl h }
    · refine h.imp rfl (fun hkind => ?_) fun _ => id
      have hne := inv.take_kind hf hf' (hent.trans hid)
      rw [hcall] at hne
      exact absurd hkind hne
  have hresp := htake.trans (hmod.trans (.respondRequests hmod.inv hans))
  have hmem : { e with loadPending := false, loadRequests := [] } ∈ ((c.takeFuture f).modify e.id
        ({ · with loadPending := false, loadRequests := [] })).entries :=
    Cache.mem_modify he _
  obtain ⟨c', hc', hrem, -⟩ := Moves.remove (p := p) hresp.inv hmem hdty rfl
  exact ⟨c', hc', hresp.trans hrem⟩

theorem Moves.loaded (he : e ∈ c.entries) (hid : e.id = f.entry) (hload : e.loadPending = true)
    (hgood : good e.blobref data) (hcl : p.cleaned e.blobref) (size epoch : UInt32) :
    Moves good p c
      (({ c.takeFuture f with acctSize := size } : Cache ρ).modify e.id fun e =>
        { e with
          data := data, valid := true, loadPending := false, loadRequests := []
          lastused := epoch }) := by
  have hok := inv.entry e he
  have hv := hok.load_invalid hload
  have htake : Moves good p c { c.takeFuture f with acctSize := size } :=
    (Moves.take inv hf (by rw [hcall, Call.isStore, if_neg Bool.false_ne_true]; rfl)).congr rfl
  refine htake.trans (.modify htake.inv he ⟨rfl, rfl, ?_, fun f' hf' hent h => ?_,
    fun _ => rfl, fun _ _ => .inr hcl, nofun, fun _ => .inl⟩)
  · exact ⟨nofun, fun _ => rfl, nofun, hok.store_dirty, fun h => absurd rfl h, hok.stores,
      fun _ => hgood⟩
  · refine h.imp rfl (fun hkind => ?_) fun _ => id
    have hne := inv.take_kind hf hf' (hent.trans hid)
    rw [hcall] at hne
    exact absurd hkind hne

theorem Moves.cacheLoadContinuation
    (hok : ∀ data, reply = .ok data →
      good r data ∧ p.cleaned r ∧ ∀ q, c.LoadWaits q r → p.answers q (.data data))
    (herror : ∀ errnum, reply = .error errnum →
      ∀ q, c.LoadWaits q r → p.answers q (.error (c.loadErrno errnum))) :
    ∃ c', c.cacheLoadContinuation f reply = .ok c' ∧ Moves good p c c' := by
  obtain ⟨e, he, hfind, hid, href, hload⟩ := inv.find_load hf hcall
  have hwts : ∀ q ∈ e.loadRequests, c.LoadWaits q r := fun q hq => ⟨e, he, href, hq⟩
  rw [Cache.cacheLoadContinuation, hfind]
  cases reply with
  | error errnum =>
    exact Moves.loadFailed inv hf hcall he hid hload
      fun q hq => herror errnum rfl q (hwts q hq)
  | ok data =>
    obtain ⟨hgood, hcl, hans⟩ := hok data rfl
    have hv := (inv.entry e he).load_invalid hload
    have hfill : Cache.cacheEntryFill e data = .ok { e with data := data } := by
      rw [Cache.cacheEntryFill, hv, if_neg Bool.false_ne_true,
        if_neg (not_not.2 ((inv.entry e he).data_invalid hv))]
    subst href
    have hmod := Moves.loaded (p := p) inv hf hcall he hid hload hgood hcl
      (if e.valid then c.acctSize else c.acctSize + UInt32.ofNat data.length) c.epoch
    simp only [hfill]
    exact ⟨_, rfl, hmod.trans (.respondRequests hmod.inv fun q hq => hans q (hwts q hq))⟩

end

/-! ### Storing -/

/-- `cache_store`, for a dirty entry. On the ranks with a parent, the entry has a store in
flight afterwards. -/
theorem Moves.cacheStore (inv : CacheInv good c) (he : e ∈ c.entries) (hdty : e.dirty = true)
    (fail : Option Errno) : ∃ c' o, c.cacheStore e fail = .ok (c', o) ∧ Moves good p c c' ∧
      (∀ errnum, o = some errnum → fail = some errnum) ∧
      (o = none → c.rank ≠ 0 → ∃ e' ∈ c'.entries, e'.id = e.id ∧ e'.blobref = e.blobref ∧
        e'.storePending = true) := by
  have hok := inv.entry e he
  have hv := hok.dirty_valid hdty
  unfold Cache.cacheStore
  rw [hv, if_neg (by decide)]
  by_cases hsto : e.storePending = true
  · rw [if_pos hsto]
    exact ⟨c, none, rfl, .refl inv, nofun, fun _ _ => ⟨e, he, rfl, rfl, hsto⟩⟩
  rw [if_neg hsto]
  rw [Bool.not_eq_true] at hsto
  by_cases hlim : c.rank = 0 ∧ c.limits.flushBatch ≤ c.flushBatchCount
  · rw [if_pos hlim]
    exact ⟨c, none, rfl, .refl inv, nofun, fun _ h => absurd hlim.1 h⟩
  rw [if_neg hlim]
  cases fail with
  | some errnum => exact ⟨c, some errnum, rfl, .refl inv, fun _ h => h, nofun⟩
  | none =>
    refine ⟨_, none, rfl, ?_, nofun, fun _ _ => ⟨_, Cache.mem_modify he _, rfl, rfl, rfl⟩⟩
    refine Moves.start inv he _ (.store e.data) ?_ ⟨rfl, hok.good hv⟩
      (inv.no_store he hsto) rfl
    refine ⟨rfl, rfl, ?_, fun f _ _ h => h.imp rfl (fun _ => id) fun _ _ => rfl, id,
      fun hv hd => .inl ⟨hv, hd⟩, fun _ => .inl, fun _ => .inl⟩
    exact { hok with store_dirty := fun _ => hdty, stores := fun h => ⟨rfl, (hok.stores h).2⟩ }

theorem Moves.flushLoop (keys : List Blobref) (inv : CacheInv good c) (rc : Option Errno) :
    ∃ c' o, Cache.flushLoop fail keys c rc = .ok (c', o) ∧ Moves good p c c' := by
  induction keys generalizing c rc with
  | nil => exact ⟨c, rc, rfl, .refl inv⟩
  | cons key keys ih =>
    rw [Cache.flushLoop]
    cases hlk : c.lookupEntry key with
    | none => exact ih inv rc
    | some e =>
      have he := (Cache.mem_of_lookup hlk).1
      simp only
      split_ifs with hskip
      · exact ih inv rc
      have hdty : e.dirty = true := by
        by_contra h
        exact hskip (.inl (by simpa using h))
      obtain ⟨c₁, o, hsto, hmv, -, -⟩ := Moves.cacheStore (p := p) inv he hdty fail
      rw [hsto]
      simp only
      split_ifs
      · exact ⟨c₁, _, rfl, hmv⟩
      · obtain ⟨c₂, o', hrest, hmv'⟩ := ih hmv.inv (o.or rc)
        exact ⟨c₂, o', hrest, hmv.trans hmv'⟩

section

variable (inv : CacheInv good c)
include inv

theorem Moves.cacheFlush (keys : List Blobref) (fail : Option Errno) :
    ∃ c' o, c.cacheFlush keys fail = .ok (c', o) ∧ Moves good p c c' := by
  rw [Cache.cacheFlush]
  split_ifs
  · exact ⟨c, none, rfl, .refl inv⟩
  · exact Moves.flushLoop keys inv none

theorem Moves.flushRespond (hfls : ∀ q ∈ c.flushRequests, ∀ a : Answer, a.Plain → p.answers q a)
    :
    Moves good p c c.flushRespond := by
  have hresp : ∀ a : Answer, a.Plain →
      Moves good p c { c.respondRequests c.flushRequests a with flushRequests := [] } := by
    intro a ha
    have hmv : Moves good p c (c.respondRequests c.flushRequests a) :=
      .respondRequests inv fun q hq => hfls q hq a ha
    exact hmv.trans (.setFlushes hmv.inv nofun)
  refine hresp _ ?_
  split_ifs <;> trivial

theorem Moves.resumeFlush (keys : List Blobref) (fail : Option Errno)
    (hfls : ∀ q ∈ c.flushRequests, ∀ a : Answer, a.Plain → p.answers q a) :
    ∃ c', c.resumeFlush keys fail = .ok c' ∧ Moves good p c c' := by
  rw [Cache.resumeFlush]
  split_ifs
  · exact ⟨_, rfl, .flushRespond inv hfls⟩
  · obtain ⟨c', o, hfls, hmv⟩ := Moves.cacheFlush (p := p) inv keys fail
    exact ⟨c', by rw [hfls]; rfl, hmv⟩
  · exact ⟨c, rfl, .refl inv⟩

theorem CacheInv.find_store {f : Future} (hf : f ∈ c.futures) {d : Bytes}
    (hcall : f.call = .store d) :
    ∃ e ∈ c.entries, c.entries.find? (fun e => e.id = f.entry) = some e ∧ e.id = f.entry ∧
      good e.blobref d ∧ e.storePending = true := by
  obtain ⟨e, he, hid, hpend⟩ := inv.future_entry f hf
  rw [hcall] at hpend
  exact ⟨e, he, inv.find_id he hid, hid, hpend.2, hpend.1⟩

theorem Moves.stored (hf : f ∈ c.futures) (hcall : f.call = .store d) (he : e ∈ c.entries)
    (hid : e.id = f.entry) (g : Entry ρ → Entry ρ) (dirty : Bool)
    (hg : g e = { e with dirty := dirty, storePending := false, storeRequests := [] })
    (hdty : dirty = e.dirty ∨ dirty = false ∧ p.cleaned e.blobref) :
    Moves good p c ((c.takeStore f).modify e.id g) := by
  have hok := inv.entry e he
  have htake : Moves good p c (c.takeStore f) :=
    .take inv hf (by rw [hcall, Call.isStore, if_pos rfl])
  have hval : dirty = true → e.valid = true := by
    rcases hdty with rfl | ⟨rfl, -⟩
    · exact hok.dirty_valid
    · nofun
  refine htake.trans (.modify htake.inv he ?_)
  rw [hg]
  refine ⟨rfl, rfl, ?_, fun f' hf' hent h => ?_, id, fun hv hd => ?_, fun _ => .inl, nofun⟩
  · exact { hok with dirty_valid := hval, store_dirty := nofun, stores := fun h => absurd rfl h }
  · refine h.imp rfl (fun _ => id) fun hkind => ?_
    have hne := inv.take_kind hf hf' (hent.trans hid)
    rw [hcall] at hne
    exact absurd hkind hne
  · rcases hdty with rfl | ⟨-, hcl⟩
    · exact .inl ⟨hv, hd⟩
    · exact .inr hcl

end

theorem Moves.cacheStoreContinuation {keys : List Blobref} (inv : CacheInv good c)
    (hf : f ∈ c.futures) (hcall : f.call = .store d)
    (hok : ∀ r, reply = .ok r → good r d → p.cleaned r ∧
      ∀ q, c.StoreWaits q r → p.answers q (.blobref r))
    (herror : ∀ q r errnum, c.StoreWaits q r → p.answers q (.error errnum))
    (hfls : ∀ q, q ∈ c.flushRequests ∨ p.flushes q → ∀ a : Answer, a.Plain → p.answers q a) :
    ∃ c', c.cacheStoreContinuation f reply keys fail = .ok c' ∧ Moves good p c c' := by
  obtain ⟨e, he, hfind, hid, hgood, hsto⟩ := inv.find_store hf hcall
  have hwts : ∀ q ∈ e.storeRequests, c.StoreWaits q e.blobref := fun q hq => ⟨e, he, rfl, hq⟩
  have hcnt : c.flushBatchCount ≠ 0 := by
    have hmem : f ∈ c.futures.filter fun f => f.call.isStore :=
      mem_filter.2 ⟨hf, by rw [hcall, Call.isStore]⟩
    have := length_pos_of_mem hmem
    have := inv.count
    omega
  -- whatever the moves so far, flushing goes on
  have hresm : ∀ {c'}, Moves good p c c' →
      ∃ c'', c'.resumeFlush keys fail = .ok c'' ∧ Moves good p c c'' := fun {c'} hmv => by
    obtain ⟨c'', hc'', hrest⟩ := Moves.resumeFlush (p := p) hmv.inv keys fail
      fun q hq => hfls q (hmv.flushes hq)
    exact ⟨c'', hc'', hmv.trans hrest⟩
  have hfailed : ∀ errnum, Moves good p c ((c.takeStore f).storeFailed e errnum) :=
    fun errnum => by
      have hend : Moves good p c ((c.takeStore f).modify e.id
          ({ · with storePending := false, storeRequests := [] })) :=
        .stored inv hf hcall he hid _ e.dirty rfl (.inl rfl)
      exact hend.trans (.respondRequests hend.inv fun q hq => herror q _ errnum (hwts q hq))
  rw [Cache.cacheStoreContinuation, hfind]
  simp only [hcnt, if_false]
  cases reply with
  | error errnum => exact hresm (hfailed errnum)
  | ok r =>
    simp only
    split_ifs with hne
    · exact hresm (hfailed Errno.EIO)
    rw [not_not] at hne
    subst hne
    obtain ⟨hcl, hans⟩ := hok e.blobref rfl hgood
    have hend : Moves good p c ((c.takeStore f).modify e.id
        ({ · with dirty := false, storePending := false, storeRequests := [] })) :=
      .stored inv hf hcall he hid _ false rfl (.inr ⟨rfl, hcl⟩)
    have hacct : Moves good p c
        { (c.takeStore f).modify e.id
            ({ · with dirty := false, storePending := false, storeRequests := [] }) with
          acctDirty := if e.dirty then (c.takeStore f).acctDirty - 1
            else (c.takeStore f).acctDirty } :=
      hend.congr rfl
    exact hresm (hacct.trans (.respondRequests hacct.inv fun q hq =>
      hans q (hwts q hq)))

section

variable (inv : CacheInv good c) (he : e ∈ c.entries)
include inv he

theorem Moves.storeFill (hload : e.loadPending = false) (hgood : good e.blobref data) :
    ∃ c' e', c.storeFill e data = .ok (c', e') ∧ Moves good p c c' ∧ e' ∈ c'.entries ∧
      e'.blobref = e.blobref ∧ e'.valid = true ∧
      (e'.dirty = false → e.valid = true ∧ e.dirty = false) := by
  have hok := inv.entry e he
  rw [Cache.storeFill]
  by_cases hv : e.valid = true
  · rw [if_pos hv]
    exact ⟨c, e, rfl, .refl inv, he, rfl, hv, fun hd => ⟨hv, hd⟩⟩
  rw [if_neg hv]
  rw [Bool.not_eq_true] at hv
  have hfill : Cache.cacheEntryFill e data = .ok { e with data := data } := by
    rw [Cache.cacheEntryFill, hv, if_neg Bool.false_ne_true,
      if_neg (not_not.2 (hok.data_invalid hv))]
  have hreqs : e.loadRequests = [] := by
    by_contra h
    rw [hok.loads h] at hload
    cases hload
  have hfild : Moves good p c (c.modify e.id fun _ =>
      { e with data := data, valid := true, loadRequests := [], dirty := true }) := by
    refine .modify inv he ⟨rfl, rfl, ?_, fun f _ _ h => h.imp rfl (fun _ => id) fun _ => id,
      fun _ => rfl, nofun, nofun, fun _ => .inl⟩
    exact ⟨fun h => absurd (hload.symm.trans h) Bool.false_ne_true, fun _ => rfl, nofun,
      fun _ => rfl, fun h => absurd rfl h, hok.stores, fun _ => hgood⟩
  rw [hfill]
  refine ⟨_, _, rfl, ?_, Cache.mem_modify he _, rfl, rfl, nofun⟩
  rw [hreqs]
  refine Moves.trans (hfild.congr ?_) (.respondRequests (hfild.congr ?_).inv nofun) <;> rfl

theorem Moves.deferStore (hsto : e.storePending = true) (hrank : c.rank ≠ 0)
    (hreq : p.stores req e.blobref) :
    Moves good p c
      (c.modify e.id fun e => { e with storeRequests := e.storeRequests ++ [req] }) := by
  have hok := inv.entry e he
  refine .modify inv he ⟨rfl, rfl, ?_, fun f _ _ h => h.imp rfl (fun _ => id) fun _ => id, id,
    fun hv hd => .inl ⟨hv, hd⟩, fun _ => .inl, fun q hq => ?_⟩
  · exact { hok with stores := fun _ => ⟨hsto, hrank⟩ }
  · rcases mem_append.1 hq with hq | hq
    · exact .inl hq
    · obtain rfl := mem_singleton.1 hq
      exact .inr hreq

theorem Moves.storeValid (hv : e.valid = true) (req : ρ) (fail : Option Errno)
    (hreq : c.rank ≠ 0 → p.stores req e.blobref)
    (hans : c.rank = 0 ∨ e.dirty = false → p.answers req (.blobref e.blobref))
    (hfail : ∀ errnum, fail = some errnum → p.answers req (.error errnum)) :
    ∃ c', c.storeValid req e fail = .ok c' ∧ Moves good p c c' := by
  have htch : Moves good p c (c.modify e.id ({ · with lastused := c.epoch })) :=
    .touch inv he c.epoch
  have he₁ : { e with lastused := c.epoch } ∈
      (c.modify e.id ({ · with lastused := c.epoch })).entries :=
    Cache.mem_modify he _
  simp only [Cache.storeValid]
  by_cases hdty : e.dirty = true
  · rw [if_pos hdty]
    by_cases hup : 0 < c.rank ∨ c.backing = true
    · obtain ⟨c₂, o, hsto, hmv, herr, hpend⟩ :=
        Moves.cacheStore (p := p) htch.inv he₁ hdty fail
      have hstd := htch.trans hmv
      rw [if_pos (show 0 < (c.modify e.id _).rank ∨ (c.modify e.id _).backing = true from hup)]
      rw [show (c.modify e.id ({ · with lastused := c.epoch })).cacheStore e fail
        = .ok (c₂, o) from hsto]
      cases o with
      | some errnum =>
        exact ⟨_, rfl, hstd.trans (.respond hstd.inv (hfail errnum (herr errnum rfl)))⟩
      | none =>
        simp only
        split_ifs with hrank
        · have hne : c.rank ≠ 0 := by
            rw [hstd.rank] at hrank
            omega
          obtain ⟨e', he', hid, href, hbit⟩ := hpend rfl hne
          have hdefer : Moves good p c₂ (c₂.modify e'.id fun e =>
              { e with storeRequests := e.storeRequests ++ [req] }) :=
            .deferStore hstd.inv he' hbit hrank.ne' (href ▸ hreq hne)
          rw [hid] at hdefer
          exact ⟨_, rfl, hstd.trans hdefer⟩
        · have hzero : c.rank = 0 := by
            rw [hstd.rank] at hrank
            omega
          exact ⟨_, rfl, hstd.trans (.respond hstd.inv (hans (.inl hzero)))⟩
    · rw [if_neg (show ¬ (0 < (c.modify e.id _).rank ∨ (c.modify e.id _).backing = true)
        from hup)]
      have hzero : c.rank = 0 := by
        by_contra h
        exact hup (.inl (Nat.pos_of_ne_zero h))
      exact ⟨_, rfl, htch.trans (.respond htch.inv (hans (.inl hzero)))⟩
  · rw [if_neg hdty]
    rw [Bool.not_eq_true] at hdty
    split_ifs
    · have hok := inv.entry e he
      have hred : Moves good p (c.modify e.id ({ · with lastused := c.epoch }))
          ((c.modify e.id ({ · with lastused := c.epoch })).modify e.id
            ({ · with dirty := true })) := by
        refine .modify htch.inv he₁ ⟨rfl, rfl, ?_, fun f _ _ h => h.imp rfl (fun _ => id)
          fun _ => id, id, nofun, fun _ => .inl, fun _ => .inl⟩
        exact { hok with dirty_valid := fun _ => hv, store_dirty := fun _ => rfl }
      have hacct : Moves good p c
          { (c.modify e.id ({ · with lastused := c.epoch })).modify e.id
              ({ · with dirty := true }) with
            acctDirty := c.acctDirty + 1 } :=
        (htch.trans hred).congr rfl
      exact ⟨_, rfl, hacct.trans (.respond hacct.inv (hans (.inr hdty)))⟩
    · exact ⟨_, rfl, htch.trans (.respond htch.inv (hans (.inr hdty)))⟩

end

theorem Moves.lookupOrInsert (inv : CacheInv good c) (r : Blobref) :
    Moves good p c (c.lookupOrInsert r).1 ∧
      (c.lookupOrInsert r).2 ∈ (c.lookupOrInsert r).1.entries ∧
      (c.lookupOrInsert r).2.blobref = r ∧ ((c.lookupOrInsert r).2 ∈ c.entries ∨
        (c.lookupOrInsert r).2.valid = false ∧ (c.lookupOrInsert r).2.loadPending = false) := by
  rw [Cache.lookupOrInsert]
  cases hlk : c.lookupEntry r with
  | none =>
    exact ⟨.insert inv (Cache.ne_of_lookup_none hlk),
      mem_append_right _ (mem_singleton.2 rfl), rfl, .inr ⟨rfl, rfl⟩⟩
  | some e =>
    obtain ⟨he, href⟩ := Cache.mem_of_lookup hlk
    exact ⟨.refl inv, he, href, .inl he⟩

/-- `content_store_request`, for a blob that no load is in flight of. The cache has the blob
afterwards (a clean entry might be removed, as far as moves are concerned). -/
theorem Moves.contentStoreRequest {hash : Bytes → Blobref} (inv : CacheInv good c) {req : ρ}
    {data : Bytes} {fail : Option Errno} (hgood : good (hash data) data)
    (hload : ∀ e ∈ c.entries, e.blobref = hash data → e.loadPending = false)
    (hreq : c.rank ≠ 0 → p.stores req (hash data))
    (hans : data.length ≤ c.limits.blobSize → c.rank = 0 ∨ c.Clean (hash data) →
      p.answers req (.blobref (hash data)))
    (hsize : c.limits.blobSize < data.length → p.answers req (.error .EFBIG))
    (hfail : ∀ errnum, fail = some errnum → p.answers req (.error errnum)) :
    ∃ c', c.contentStoreRequest hash req data fail = .ok c' ∧ Moves good p c c' ∧
      (data.length ≤ c.limits.blobSize →
        c'.Valid (hash data) ∨ c.Clean (hash data) ∨ p.cleaned (hash data)) := by
  rw [Cache.contentStoreRequest]
  split_ifs with hlarge
  · exact ⟨_, rfl, .respond inv (hsize hlarge), fun h => absurd hlarge h.not_gt⟩
  have hspec := Moves.lookupOrInsert (p := p) inv (hash data)
  generalize c.lookupOrInsert (hash data) = ce at hspec ⊢
  obtain ⟨c₁, e⟩ := ce
  obtain ⟨hmv, he, href, hold⟩ := hspec
  have hbit : e.loadPending = false := by
    rcases hold with hold | hnew
    · exact hload e hold href
    · exact hnew.2
  obtain ⟨c₂, e', hfill, hmv', he', href', hv, hcl⟩ :=
    Moves.storeFill (p := p) hmv.inv he hbit (href ▸ hgood)
  have hfild := hmv.trans hmv'
  simp only [hfill]
  have hr : e'.blobref = hash data := href'.trans href
  obtain ⟨c₃, hc₃, hmv''⟩ := Moves.storeValid (p := p) hfild.inv he' hv req fail
    (fun h => hr ▸ hreq (hfild.rank ▸ h)) (fun h => by
      rw [hr]
      refine hans (not_lt.1 hlarge) (h.imp (fun h => hfild.rank ▸ h) fun hd => ?_)
      obtain ⟨hv, hd⟩ := hcl hd
      rcases hold with hold | hnew
      · exact ⟨e, hold, href, hv, hd⟩
      · exact absurd (hnew.1.symm.trans hv) Bool.false_ne_true) hfail
  refine ⟨c₃, hc₃, hfild.trans hmv'', fun _ => ?_⟩
  exact (hmv''.valid ⟨e', he', hr, hv⟩).imp_right (Or.elim · hfild.clean .inr)

/-! ### Other requests -/

theorem Moves.contentFlushRequest {keys : List Blobref} (inv : CacheInv good c)
    (hreq : p.flushes req) (hans : ∀ a : Answer, a.Plain → p.answers req a) :
    ∃ c', c.contentFlushRequest req keys fail = .ok c' ∧ Moves good p c c' := by
  rw [Cache.contentFlushRequest]
  split_ifs
  · exact ⟨_, rfl, .respond inv (hans _ trivial)⟩
  obtain ⟨c₁, o, hfls, hmv⟩ := Moves.cacheFlush (p := p) inv keys fail
  rw [hfls]
  cases o with
  | some errnum => exact ⟨_, rfl, hmv.trans (.respond hmv.inv (hans _ trivial))⟩
  | none =>
    simp only
    split_ifs
    · refine ⟨_, rfl, hmv.trans (.setFlushes hmv.inv fun q hq => ?_)⟩
      rcases mem_append.1 hq with hq | hq
      · exact .inl hq
      · obtain rfl := mem_singleton.1 hq
        exact .inr hreq
    · exact ⟨_, rfl, hmv.trans (.respond hmv.inv (hans _ trivial))⟩

theorem Moves.contentBackingRequest {keys : List Blobref} (inv : CacheInv good c)
    (hans : ∀ a : Answer, a.Plain → p.answers req a) :
    ∃ c', c.contentBackingRequest req true keys fail = .ok c' ∧ Moves good p c c' := by
  rw [Cache.contentBackingRequest]
  split_ifs
  · exact ⟨_, rfl, .respond inv (hans _ trivial)⟩
  · have henable : Moves good p c { c with backing := true } := .enable inv
    obtain ⟨c₁, o, hfls, hmv⟩ := Moves.cacheFlush (p := p) henable.inv keys fail
    rw [hfls]
    exact ⟨_, rfl, (henable.trans hmv).trans (.respond hmv.inv (hans _ trivial))⟩
  · rename_i h
    simp at h
  · exact ⟨_, rfl, .respond inv (hans _ trivial)⟩

theorem Moves.removeAll (test : Entry ρ → Bool) (keys : List Blobref) (inv : CacheInv good c)
    (htest : ∀ e ∈ c.entries, e.blobref ∈ keys → test e = true →
      e.valid = true ∧ e.dirty = false) :
    ∃ c', Cache.removeAll test keys c = .ok c' ∧ Moves good p c c' := by
  induction keys generalizing c with
  | nil => exact ⟨c, rfl, .refl inv⟩
  | cons key keys ih =>
    have hrest : ∀ e ∈ c.entries, e.blobref ∈ keys → test e = true →
        e.valid = true ∧ e.dirty = false :=
      fun e he hkey => htest e he (mem_cons_of_mem _ hkey)
    rw [Cache.removeAll]
    cases hlk : c.lookupEntry key with
    | none => exact ih inv hrest
    | some e =>
      obtain ⟨he, hkey⟩ := Cache.mem_of_lookup hlk
      simp only
      split_ifs with ht
      · obtain ⟨hv, hdty⟩ := htest e he (hkey ▸ mem_cons_self) ht
        have hload : e.loadPending = false := by
          refine Bool.eq_false_iff.2 fun h => ?_
          rw [(inv.entry e he).load_invalid h] at hv
          cases hv
        obtain ⟨c₁, hrem, hmv, hents⟩ := Moves.remove (p := p) inv he hdty hload
        rw [hrem]
        obtain ⟨c₂, hc₂, hmv'⟩ := ih hmv.inv fun e' he' => by
          rw [hents] at he'
          exact hrest e' (mem_of_mem_filter he')
        exact ⟨c₂, hc₂, hmv.trans hmv'⟩
      · exact ih inv hrest

theorem Moves.contentDropcacheRequest (inv : CacheInv good c)
    (hans : ∀ a : Answer, a.Plain → p.answers req a) :
    ∃ c', c.contentDropcacheRequest req = .ok c' ∧ Moves good p c c' := by
  obtain ⟨c', hc', hmv⟩ := Moves.removeAll (p := p)
    (fun e => e.valid && !e.dirty) (c.entries.map Entry.blobref) inv
    fun e _ _ htest => by simpa using htest
  rw [Cache.contentDropcacheRequest, hc']
  exact ⟨_, rfl, hmv.trans (.respond hmv.inv (hans _ trivial))⟩

theorem purgeLoop_clean (inv : CacheInv good c) (keys : List Blobref) :
    ∀ e ∈ c.entries, e.blobref ∈ c.purgeLoop keys size n → e.valid = true ∧ e.dirty = false := by
  induction keys generalizing size n with
  | nil => exact fun e _ h => absurd h not_mem_nil
  | cons key keys ih =>
    intro e he hkey
    rw [Cache.purgeLoop] at hkey
    split_ifs at hkey
    · cases hkey
    cases hlk : c.lookupEntry key with
    | none =>
      rw [hlk] at hkey
      exact ih e he hkey
    | some e' =>
      obtain ⟨he', hkey'⟩ := Cache.mem_of_lookup hlk
      rw [hlk] at hkey
      simp only at hkey
      split_ifs at hkey with hskip
      · exact ih e he hkey
      rcases mem_cons.1 hkey with heq | hkey
      · rw [inv.ref_unique e he e' he' (heq.trans hkey'.symm)]
        simp only [not_or] at hskip
        exact ⟨by simpa using hskip.1, by simpa using hskip.2.1⟩
      · exact ih e he hkey

theorem Moves.heartbeatEvent (inv : CacheInv good c) (epoch : UInt32) (keys : List Blobref) :
    ∃ c', c.heartbeatEvent epoch keys = .ok c' ∧ Moves good p c c' := by
  have hep : Moves good p c { c with epoch := epoch } := (Moves.refl inv).congr rfl
  rw [Cache.heartbeatEvent, Cache.cachePurge]
  split_ifs
  · exact ⟨_, rfl, hep⟩
  obtain ⟨c', hc', hmv⟩ := Moves.removeAll (p := p) (fun _ => true) _ hep.inv
    fun e he hkey _ => purgeLoop_clean hep.inv keys e he hkey
  exact ⟨c', hc', hep.trans hmv⟩

end FluxCore.Broker.Content
