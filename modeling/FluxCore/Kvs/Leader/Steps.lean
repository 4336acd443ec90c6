import FluxCore.Kvs.Leader.Inv
import FluxCore.Kvs.Rfc11

/-!
# Steps of the Leader, Summarised

Summaries of what a step does to the namespaces, to the announcements and to the objects of
operations: `Ended` for a call of `kvstxn_apply`, `Env` for the steps of the environment,
which leave all of this alone but for the errors that they report to transactions that wait,
and `Admin` for what happens to namespaces. At the end of the file is a configuration whose runs can be
computed.
-/

namespace FluxCore.Kvs.Leader

open Option

variable {cfg : Config} {s t : Leader}

/-! ### Calls -/

variable (cfg) in
/-- The objects of operations are changed by `kvstxn_process` only, if it is called. -/
def Touches (s : Leader) (k : TxnId) (root : Kvsroot) (kt : Kvstxn ℕ) (t : Leader) : Prop :=
  (t.mem.objs = s.mem.objs ∧ t.mem.entered = s.mem.entered) ∨
    ∃ p result, s.Process cfg k root kt p result ∧ t.mem.objs = p.mem.objs ∧
      t.mem.entered = p.mem.entered

/-- What is not changed by a call. -/
structure SameRest (s t : Leader) : Prop where
  nextTxn : t.nextTxn = s.nextTxn
  nextObj : t.nextObj = s.nextObj
  added : t.added = s.added

variable (cfg sendFails) in
/-- **How a call of `kvstxn_apply` ends.** -/
inductive Ended (s : Leader) (k : TxnId) (root : Kvsroot) (kt : Kvstxn ℕ)
    (rest : List (Kvstxn ℕ)) (t : Leader) : Prop
  | stalled {p result kt'} (hp : s.Process cfg k root kt p result) (hresult : result ≠ .error)
      (hsame : kt.SameEntry kt') (hblocked : kt'.blocked = true)
      (hstate : kt'.state = p.kt.state) (href : kt'.rootcpyRef = p.kt.rootcpyRef)
      (hnewroot : kt'.newroot = p.kt.newroot) (hrootcpy : kt'.rootcpy = p.kt.rootcpy)
      (hobjs : t.mem.objs = p.mem.objs) (hentered : t.mem.entered = p.mem.entered)
      (hroots : ∀ n, t.roots n =
        if n = k.ns then some { root with ready := kt' :: rest } else s.roots n)
      (hpublished : t.published = s.published) (hevents : t.events = s.events)
  | failed {s' kt' e} (hdone : applyProcess cfg s sendFails k = some (.done s' kt' (some e)))
      (hsame : kt.SameEntry kt') (htouches : Touches cfg s k root kt t)
      (hentered : t.mem.entered = s'.mem.entered)
      (hroots : ∀ n, t.roots n = if n = k.ns then some ⟨root.toRoot,
        kvstxnMgrRemoveTransaction (kt' :: rest) kt' (kvstxnFallback kt' e)⟩ else s.roots n)
      (hpublished : t.published = s.published) (hevents : t.events = s.events)
  | published {p rootdir} (hp : s.Process cfg k root kt p .finished)
      (hobjs : t.mem.objs = p.mem.objs) (hentered : t.mem.entered = p.mem.entered)
      (hroots : ∀ n, t.roots n = if n = k.ns then some ⟨Kvsroot.advance root p.kt,
        kvstxnMgrRemoveTransaction (p.kt :: rest) p.kt false⟩ else s.roots n)
      (hpublished : t.published = ⟨k.ns, p.kt.rootcpyRef, root.ref, p.kt.newroot, root.seq + 1,
        p.kt.members⟩ :: s.published)
      (hevents : t.events = s.events ++ [⟨k.ns, root.seq + 1, p.kt.newroot, rootdir⟩])

theorem setRoot_setHead_roots (s' : Leader) (hrts : s'.roots = s.roots) (kt' : Kvstxn ℕ)
    (root' : Kvsroot) (n : String) : ((s'.setHead k root kt' rest).setRoot k.ns root').roots n =
      if n = k.ns then some root' else s.roots n := by
  rw [setRoot_roots, setHead_roots, hrts]
  split_ifs <;> rfl

/-- **Every call ends** in one of the three ways. -/
theorem Called.ended (h : s.Called k root kt rest) (ht : kvstxnApply cfg s sendFails k = some t) :
    Ended cfg sendFails s k root kt rest t ∧ s.SameRest t := by
  have hmiss : kt.missingRefs = [] := h.ok.elim (·.missingRefs) (·.missingRefs)
  obtain ⟨a, ha, ht⟩ := bind_eq_some_iff.1 ht
  have hfail {s' t' : Leader} {root' : Kvsroot} {kt' : Kvstxn ℕ} {e : Errno}
      (hdone : applyProcess cfg s sendFails k = some (.done s' kt' (some e)))
      (hhead : s'.Head k root' kt' rest) (hroot : root'.toRoot = root.toRoot)
      (hrts : ∀ n, n ≠ k.ns → s'.roots n = s.roots n) (hpub : s'.published = s.published)
      (hev : s'.events = s.events) (hrest : s.SameRest s') (htch : Touches cfg s k root kt s')
      (hsame : kt.SameEntry kt') (ht' : applyDone cfg s' kt' (some e) = some t') :
      Ended cfg sendFails s k root kt rest t'.runWoken ∧ s.SameRest t'.runWoken := by
    rcases applyDone_cases hhead ht' with ⟨e', he, rfl⟩ | ⟨he, -⟩
    · cases he
      refine ⟨.failed hdone hsame htch rfl (fun n => ?_) hpub hev, ⟨hrest.1, hrest.2, hrest.3⟩⟩
      rw [runWoken_roots, setRoot_roots, hroot]
      split_ifs with hn
      · rfl
      · exact hrts n hn
    · cases he
  have hthr {s' : Leader} {kt' : Kvstxn ℕ} {mem : Mem ℕ} (htt : (s.withMem mem).Touched s')
      (hid : kt'.id = k) :
      (s'.setHead k root kt' rest).Head k { root with ready := kt' :: rest } kt' rest ∧
        (∀ n, n ≠ k.ns → (s'.setHead k root kt' rest).roots n = s.roots n) ∧
        s'.published = s.published ∧ s'.events = s.events ∧
        s.SameRest (s'.setHead k root kt' rest) ∧
        (s'.setHead k root kt' rest).mem.objs = mem.objs ∧
        (s'.setHead k root kt' rest).mem.entered = mem.entered := by
    obtain ⟨_, _, _, _, rfl⟩ := htt
    exact ⟨⟨if_pos rfl, rfl, hid⟩, fun n hn => if_neg hn, rfl, rfl, ⟨rfl, rfl, rfl⟩, rfl, rfl⟩
  have hrts {s' : Leader} {kt' : Kvstxn ℕ} {mem : Mem ℕ} (htt : (s.withMem mem).Touched s')
      (n : String) : (s'.setHead k root kt' rest).runWoken.roots n =
        if n = k.ns then some { root with ready := kt' :: rest } else s.roots n := by
    obtain ⟨_, _, _, _, rfl⟩ := htt
    rfl
  cases applyProcess_outcome h.toHead h.rest_ne hmiss ha with
  | removed hrem | auxFailed haux =>
    obtain ⟨t', ht', rfl⟩ := map_eq_some_iff.1 ht
    exact hfail ha h.toHead rfl (fun _ _ => rfl) rfl rfl ⟨rfl, rfl, rfl⟩ (.inl ⟨rfl, rfl⟩)
      ⟨rfl, rfl, rfl, rfl, rfl⟩ ht'
  | @failed p e haux hp he =>
    obtain ⟨t', ht', rfl⟩ := map_eq_some_iff.1 ht
    obtain ⟨h1, h2, h3, h4, h5, h6, h7⟩ :=
      hthr (.refl (s.withMem p.mem)) (hp.sameRequest.id.trans h.id)
    exact hfail ha h1 rfl h2 h3 h4 h5 (.inr ⟨p, _, hp, h6, h7⟩)
      hp.sameRequest.toSameEntry ht'
  | @loadFailed p _ _ haux hp hiter hwait =>
    obtain ⟨t', ht', rfl⟩ := map_eq_some_iff.1 ht
    have hsame : kt.SameEntry { p.kt with missingRefs := [] } :=
      { hp.sameRequest.toSameEntry with }
    obtain ⟨h1, h2, h3, h4, h5, h6, h7⟩ :=
      hthr (touched_iterLoads hiter) (hsame.id.trans h.id)
    exact hfail ha h1 rfl h2 h3 h4 h5 (.inr ⟨p, _, hp, h6, h7⟩) hsame ht'
  | @flushFailed p _ _ haux hp hiter hwait =>
    obtain ⟨t', ht', rfl⟩ := map_eq_some_iff.1 ht
    have hsame : kt.SameEntry { p.kt with dirtyCacheEntries := [] } :=
      { hp.sameRequest.toSameEntry with }
    obtain ⟨h1, h2, h3, h4, h5, h6, h7⟩ :=
      hthr (touched_iterFlushes hiter) (hsame.id.trans h.id)
    exact hfail ha h1 rfl h2 h3 h4 h5 (.inr ⟨p, _, hp, h6, h7⟩) hsame ht'
  | @loading p s' err haux hp hiter hwait =>
    cases ht
    have hsame : kt.SameEntry { p.kt with missingRefs := [], auxErrnum := err } :=
      { hp.sameRequest.toSameEntry with }
    obtain ⟨h1, h2, h3, h4, h5, h6, h7⟩ :=
      hthr (touched_iterLoads hiter) (hsame.id.trans h.id)
    exact ⟨.stalled hp (by simp) hsame (hp.blocked_of_stall (.inl rfl)) rfl rfl rfl rfl h6 h7
      (hrts (touched_iterLoads hiter)) h3 h4, ⟨h5.1, h5.2, h5.3⟩⟩
  | @flushing p s' err haux hp hiter hwait =>
    cases ht
    have hsame : kt.SameEntry { p.kt with dirtyCacheEntries := [], auxErrnum := err } :=
      { hp.sameRequest.toSameEntry with }
    obtain ⟨h1, h2, h3, h4, h5, h6, h7⟩ :=
      hthr (touched_iterFlushes hiter) (hsame.id.trans h.id)
    exact ⟨.stalled hp (by simp) hsame (hp.blocked_of_stall (.inr rfl)) rfl rfl rfl rfl h6 h7
      (hrts (touched_iterFlushes hiter)) h3 h4, ⟨h5.1, h5.2, h5.3⟩⟩
  | @finished p haux hp =>
    obtain ⟨t', ht', rfl⟩ := map_eq_some_iff.1 ht
    obtain ⟨h1, h2, h3, h4, h5, h6, h7⟩ :=
      hthr (.refl (s.withMem p.mem)) (hp.sameRequest.id.trans h.id)
    rcases applyDone_cases h1 ht' with ⟨e', he, -⟩ | ⟨-, rootdir, -, rfl⟩
    · cases he
    · exact ⟨.published hp h6 h7 (setRoot_setHead_roots _ rfl _ _) rfl rfl, ⟨rfl, rfl, rfl⟩⟩

/-! ### The environment -/

/-- The steps of the environment: they complete requests, age the cache, and serve lookups. -/
def Label.isEnv : Label → Bool
  | .lookup _ _ | .contentLoad _ _ | .contentStore _ _ | .heartbeat _ | .dropcache => true
  | _ => false

/-- **What a step of the environment does not change.** -/
structure Env (s t : Leader) : Prop extends SameRest s t where
  marks : s.Marks t
  published : t.published = s.published
  events : t.events = s.events
  objs : t.mem.objs = s.mem.objs
  entered : t.mem.entered = s.mem.entered

theorem Inv.env (h : s.Inv) (hl : l.isEnv = true) (ht : (machine cfg).step l s = some t) :
    s.Env t := by
  cases l with
  | lookup ref sendFails =>
    cases ht
    rcases load_cases s sendFails [] ref with heq | heq | ⟨loads, entry, -, -, heq⟩ <;>
      rw [heq] <;> exact ⟨⟨rfl, rfl, rfl⟩, .inl rfl, rfl, rfl, rfl, rfl⟩
  | contentLoad ref errnum =>
    rcases contentLoadCompletion_cases ht with
      rfl | ⟨entry, hent, ⟨e, rfl⟩ | rfl | ⟨data, hdata, hv, rfl⟩⟩
    · exact ⟨⟨rfl, rfl, rfl⟩, .inl rfl, rfl, rfl, rfl, rfl⟩
    · obtain ⟨entry₀, hent₀, heq⟩ := eq_some_of_lookup hent
      exact ⟨⟨rfl, rfl, rfl⟩, .inr ⟨entry.waitlistValid, e, fun k hk =>
        h.waiting_of_entry hent₀ (.inl (by rw [heq] at hk; exact hk)), rfl⟩, rfl, rfl, rfl, rfl⟩
    · exact ⟨⟨rfl, rfl, rfl⟩, .inl rfl, rfl, rfl, rfl, rfl⟩
    · exact ⟨⟨rfl, rfl, rfl⟩, .inl rfl, rfl, rfl, rfl, rfl⟩
  | contentStore ref errnum =>
    obtain ⟨data, -, ⟨-, rfl⟩ | ⟨entry, hent, ⟨-, rfl⟩ | ⟨e, -, rfl⟩⟩⟩ :=
      contentStoreCompletion_cases ht
    · exact ⟨⟨rfl, rfl, rfl⟩, .inl rfl, rfl, rfl, rfl, rfl⟩
    · exact ⟨⟨rfl, rfl, rfl⟩, .inl rfl, rfl, rfl, rfl, rfl⟩
    obtain ⟨entry₀, hent₀, heq⟩ := eq_some_of_lookup hent
    exact ⟨⟨rfl, rfl, rfl⟩, .inr ⟨entry.waitlistNotdirty, e, fun k hk =>
      h.waiting_of_entry hent₀ (.inr (by rw [heq] at hk; exact hk)), rfl⟩, rfl, rfl, rfl, rfl⟩
  | heartbeat epoch =>
    simp only [machine] at ht
    split_ifs at ht
    cases ht
    exact ⟨⟨rfl, rfl, rfl⟩, .inl rfl, rfl, rfl, rfl, rfl⟩
  | dropcache =>
    cases ht
    exact ⟨⟨rfl, rfl, rfl⟩, .inl rfl, rfl, rfl, rfl, rfl⟩
  | _ => cases hl

/-! ### Namespaces -/

/-- The ready queue of a namespace. -/
def ready (s : Leader) (ns : String) : List (Kvstxn ℕ) := ((s.roots ns).map (·.ready)).getD []

/-- Steps that create or remove a namespace or that deliver an announcement. -/
def Label.isAdmin : Label → Bool
  | .setrootEvent | .namespaceCreate _ | .namespaceRemove _ => true
  | _ => false

variable (cfg) in
/-- What an announcement does to the cache: an entry is touched, or a clean one is made. -/
inductive Primed (s t : Leader) : Prop
  | same (h : t.mem.cache = s.mem.cache)
  | touched {ref} (h : t.mem.cache = cacheLookup s.mem.cache ref s.epoch)
  | made {ev data} (hev : ev ∈ s.events) (hdata : data = cfg.codec.jsonDumps ev.rootdir)
      (hnone : s.mem.cache (cfg.codec.blobrefHash data) = none)
      (h : t.mem.cache = s.mem.cache.set (cfg.codec.blobrefHash data)
        { data := data, valid := true })

variable (cfg) in
/-- **What a step on namespaces does not change.** -/
structure Admin (s t : Leader) : Prop extends SameRest s t where
  ready : t.ready = s.ready
  published : t.published = s.published
  objs : t.mem.objs = s.mem.objs
  entered : t.mem.entered = s.mem.entered
  noopStores : t.mem.noopStores = s.mem.noopStores
  stores : t.stores = s.stores
  content : t.content = s.content
  waiters : t.waiters = s.waiters
  events : ∀ ev ∈ t.events, ev ∈ s.events
  primed : Primed cfg s t

theorem ready_of_some (h : s.roots ns = some root) : s.ready ns = root.ready := by
  rw [ready, h, map_some, getD_some]

theorem Head.ready_eq (h : s.Head k root kt rest) : s.ready k.ns = kt :: rest :=
  (ready_of_some h.lookup).trans h.ready

theorem ready_congr (h : t.roots ns = s.roots ns) : t.ready ns = s.ready ns := by
  rw [ready, h, ready]

theorem ready_setAuxErrnum (h : t.roots = (s.setAuxErrnum ks e).roots) (ns : String) :
    t.ready ns = (s.ready ns).map fun kt =>
      if kt.id ∈ ks then { kt with auxErrnum := some e } else kt := by
  rw [ready, h, ready]
  change (((s.roots ns).map _).map _).getD _ = _
  cases s.roots ns <;> rfl

theorem ready_setRoot (hroot : s.roots ns = some root) (r : Root) :
    (s.setRoot ns { root with toRoot := r }).ready = s.ready := by
  funext n
  rw [ready, ready, setRoot_roots]
  split_ifs with hn
  · rw [hn, hroot]
    rfl
  · rfl

theorem admin_setrootEvent {ev : SetrootEvent} {events : List SetrootEvent}
    (hev : s.events = ev :: events) :
    Admin cfg s (setrootEventCb cfg { s with events := events } ev) := by
  have hmem : ∀ e ∈ events, e ∈ s.events := fun e he => hev ▸ List.mem_cons_of_mem _ he
  have hqt : Admin cfg s { s with events := events } :=
    ⟨⟨rfl, rfl, rfl⟩, rfl, rfl, rfl, rfl, rfl, rfl, rfl, rfl, hmem, .same rfl⟩
  rw [setrootEventCb]
  split
  · exact hqt
  rename_i root hroot
  split_ifs
  · exact hqt
  have hroot' : (primeCacheWithRootdir cfg { s with events := events } ev.rootdir).roots ev.ns
      = some root := (congrFun (primeCacheWithRootdir_roots _ _) ev.ns).trans hroot
  have hrdy := ready_setRoot hroot' (setroot root.toRoot ev.rootref ev.rootseq)
  rcases primeCacheWithRootdir_cases cfg { s with events := events } ev.rootdir with
    heq | ⟨ref, heq⟩ | ⟨data, hdata, hnone, heq⟩ <;> rw [heq] at hrdy ⊢
  · exact ⟨⟨rfl, rfl, rfl⟩, hrdy, rfl, rfl, rfl, rfl, rfl, rfl, rfl, hmem, .same rfl⟩
  · exact ⟨⟨rfl, rfl, rfl⟩, hrdy, rfl, rfl, rfl, rfl, rfl, rfl, rfl, hmem, .touched rfl⟩
  · exact ⟨⟨rfl, rfl, rfl⟩, hrdy, rfl, rfl, rfl, rfl, rfl, rfl, rfl, hmem,
      .made (hev ▸ List.mem_cons_self) hdata hnone rfl⟩

theorem admin_of_step (hl : l.isAdmin = true) (ht : (machine cfg).step l s = some t) :
    Admin cfg s t := by
  cases l with
  | setrootEvent =>
    simp only [machine] at ht
    split at ht
    · rename_i ev events hev
      cases ht
      exact admin_setrootEvent hev
    · cases ht
  | namespaceCreate ns =>
    simp only [machine, namespaceCreate] at ht
    split at ht
    · cases ht
    rename_i hnone
    cases ht
    refine ⟨⟨rfl, rfl, rfl⟩, ?_, rfl, rfl, rfl, rfl, rfl, rfl, rfl, fun _ h => h, .same rfl⟩
    funext n
    change (((if n = ns then _ else _) : Option Kvsroot).map _).getD _ = _
    split_ifs with hn
    · rw [ready, hn, hnone]
      rfl
    · rfl
  | namespaceRemove ns =>
    obtain ⟨root, hroot, rfl⟩ := map_eq_some_iff.1 ht
    exact ⟨⟨rfl, rfl, rfl⟩, ready_setRoot hroot _, rfl, rfl, rfl, rfl, rfl, rfl, rfl,
      fun _ h => h, .same rfl⟩
  | _ => cases hl

/-! ### All steps -/

variable (cfg) in
/-- **The four kinds of steps.** -/
inductive Steps (s : Leader) (t : Leader) : Label → Prop
  | env {l} (hl : l.isEnv = true) (henv : s.Env t) : Steps s t l
  | admin {l} (hl : l.isAdmin = true) (hadmin : Admin cfg s t) : Steps s t l
  | call {l s' k sendFails root kt rest} (hc : call cfg s l = some (s', k, sendFails))
      (hcalled : s'.Called k root kt rest) (ht : kvstxnApply cfg s' sendFails k = some t) :
      Steps s t l
  | add {ns name ops flags} (ht : s.addTransaction ns name ops flags = some t) :
      Steps s t (.addTransaction ns name ops flags)

theorem Inv.steps (h : s.Inv) (ht : (machine cfg).step l s = some t) : Steps cfg s t l := by
  have hcall (hc : (Leader.call cfg s l).bind (fun r => kvstxnApply cfg r.1 r.2.2 r.2.1) = some t) :
      Steps cfg s t l := by
    obtain ⟨⟨s', k, sf⟩, hc, ht⟩ := bind_eq_some_iff.1 hc
    obtain ⟨root, kt, rest, hcalled⟩ := h.call hc
    exact .call hc hcalled ht
  cases l with
  | addTransaction ns name ops flags => exact .add ht
  | check ns sendFails | run k sendFails => exact hcall ht
  | setrootEvent | namespaceCreate ns | namespaceRemove ns =>
    exact .admin rfl (admin_of_step rfl ht)
  | lookup ref sendFails | contentLoad ref errnum | contentStore ref errnum
  | heartbeat epoch | dropcache => exact .env rfl (h.env rfl ht)

theorem call_eq_none (h : l.isEnv = true ∨ l.isAdmin = true) : call cfg s l = none := by
  cases l with
  | check ns sf | run k sf => exact absurd h (by simp [Label.isEnv, Label.isAdmin])
  | _ => rfl

/-! ### Computed runs -/

/-- A configuration that can be run. -/
def rfc11 : Config := { codec := Rfc11.codec, stack := 4, depth := 4 }

/-- Rank 0 with an empty content store. -/
def rfc11Initial : Leader := initial rfc11 fun _ => none

theorem reach_rfc11 (h : (machine rfc11).run ls rfc11Initial = some s) :
    (machine rfc11).Reach (fun _ _ => True) (Init rfc11) s :=
  Machine.Reach.of_run (.start ⟨_, rfl⟩) h

end FluxCore.Kvs.Leader
