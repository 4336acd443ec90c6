import FluxCore.Lib.Machine
import FluxCore.Broker.ContentCache.Handlers

/-!
# Removal of Entries While an RPC Is in Flight

The content cache of one broker as a machine: requests of all kinds, heartbeats, and the
replies to its RPCs, in any order. The store of a blob that is just being loaded makes the
entry valid although its load is in flight, and then the entry is removed under the other
RPC. If this does not happen, no entry is removed while an RPC on it is in flight
(`no_removal_in_flight`).
-/

namespace FluxCore.Broker.Content

variable {ρ : Type}

/-- What happens to a cache. A reply names the future that it is for. -/
inductive Label (ρ : Type)
  | load (req : ρ) (blobref : Blobref) (fail : Option Errno)
  | store (req : ρ) (data : Bytes) (fail : Option Errno)
  | flush (req : ρ) (keys : List Blobref) (fail : Option Errno)
  | backing (req : ρ) (enable : Bool) (keys : List Blobref) (fail : Option Errno)
  | dropcache (req : ρ)
  | heartbeat (epoch : UInt32) (keys : List Blobref)
  | loadReply (id : ℕ) (reply : Except Errno Bytes)
  | storeReply (id : ℕ) (reply : Except Errno Blobref) (keys : List Blobref)
      (fail : Option Errno)

/-- The handlers. -/
def Cache.handle (hash : Bytes → Blobref) (c : Cache ρ) :
    Label ρ → Option (Except Fault (Cache ρ))
  | .load req blobref fail => some (.ok (c.contentLoadRequest req blobref fail))
  | .store req data fail => some (c.contentStoreRequest hash req data fail)
  | .flush req keys fail => some (c.contentFlushRequest req keys fail)
  | .backing req enable keys fail => some (c.contentBackingRequest req enable keys fail)
  | .dropcache req => some (c.contentDropcacheRequest req)
  | .heartbeat epoch keys => some (c.heartbeatEvent epoch keys)
  | .loadReply id reply =>
    (c.futures.find? fun f => f.id = id ∧ !f.call.isStore).map fun f =>
      c.cacheLoadContinuation f reply
  | .storeReply id reply keys fail =>
    (c.futures.find? fun f => f.id = id ∧ f.call.isStore).map fun f =>
      c.cacheStoreContinuation f reply keys fail

/-- The cache of one broker. After a fault there are no more steps. -/
def machine (hash : Bytes → Blobref) : Machine (Except Fault (Cache ρ)) (Label ρ) where
  step l
    | .ok c => c.handle hash l
    | .error _ => none

/-- A cache without entries, on any rank and with any limits. -/
def Initial (s : Except Fault (Cache ρ)) : Prop :=
  ∃ rank limits, s = .ok { rank := rank, limits := limits }

/-- The condition for a step: a blob is not stored while a load of it is in flight. -/
def NotLoading (hash : Bytes → Blobref) : Except Fault (Cache ρ) → Label ρ → Prop
  | .ok c, .store _ data _ => ∀ e ∈ c.entries, e.blobref = hash data → e.loadPending = false
  | _, _ => True

/-- All data and all moves. -/
def anyData : Blobref → Bytes → Prop := fun _ _ => True

def Allow.all (ρ : Type) : Allow ρ :=
  ⟨fun _ => True, fun _ _ => True, fun _ _ => True, fun _ => True, fun _ _ => True⟩

theorem CacheInv.disable (inv : CacheInv good c) (req : ρ) (keys : List Blobref)
    (fail : Option Errno) :
    ∃ c', c.contentBackingRequest req false keys fail = .ok c' ∧ CacheInv good c' := by
  have hoff : CacheInv good { c with backing := false } :=
    { inv with }
  have hrsp : ∀ {c : Cache ρ}, CacheInv good c → ∀ a, CacheInv good (c.respond req a) :=
    fun hc _ => (Moves.respond (p := Allow.all ρ) hc trivial).inv
  rw [Cache.contentBackingRequest]
  split_ifs
  · exact ⟨_, rfl, hrsp inv _⟩
  · rename_i h
    cases h.2
  · exact ⟨_, rfl, hrsp hoff _⟩
  · exact ⟨_, rfl, hrsp inv _⟩

/-- **One step.** There is no fault, and the invariant is kept. -/
theorem CacheInv.handle {hash : Bytes → Blobref} {c : Cache ρ} (inv : CacheInv anyData c)
    {l : Label ρ} (hg : NotLoading hash (.ok c) l) {s : Except Fault (Cache ρ)}
    (hstep : c.handle hash l = some s) : ∃ c', s = .ok c' ∧ CacheInv anyData c' := by
  have hmv : ∀ {r : Except Fault (Cache ρ)},
      (∃ c', r = .ok c' ∧ Moves anyData (Allow.all ρ) c c') →
        ∃ c', r = .ok c' ∧ CacheInv anyData c' := by
    rintro r ⟨c', hr, hm⟩
    exact ⟨c', hr, hm.inv⟩
  cases l with
  | load req blobref fail =>
    cases hstep
    exact hmv ⟨_, rfl, .contentLoadRequest inv trivial (fun _ _ _ _ => trivial)
      (fun _ _ _ => trivial) fun _ _ => trivial⟩
  | store req data fail =>
    cases hstep
    have hsto : c.rank ≠ 0 → (Allow.all ρ).stores req (hash data) := fun _ => trivial
    obtain ⟨c', hc', hm, -⟩ := Moves.contentStoreRequest inv trivial hg hsto
      (fun _ _ => trivial) (fun _ => trivial) fun _ _ => trivial
    exact hmv ⟨c', hc', hm⟩
  | flush req keys fail =>
    cases hstep
    exact hmv (Moves.contentFlushRequest inv trivial fun _ _ => trivial)
  | backing req enable keys fail =>
    cases hstep
    cases enable with
    | true => exact hmv (Moves.contentBackingRequest inv fun _ _ => trivial)
    | false => exact inv.disable req keys fail
  | dropcache req =>
    cases hstep
    exact hmv (Moves.contentDropcacheRequest inv fun _ _ => trivial)
  | heartbeat epoch keys =>
    cases hstep
    exact hmv (Moves.heartbeatEvent inv epoch keys)
  | loadReply id reply =>
    obtain ⟨f, hf, rfl⟩ := Option.map_eq_some_iff.1 hstep
    have hkind := List.find?_some hf
    cases hcall : f.call with
    | store d => simp [hcall, Call.isStore] at hkind
    | load r =>
      exact hmv (Moves.cacheLoadContinuation inv (List.mem_of_find?_eq_some hf) hcall
        (fun _ _ => ⟨trivial, trivial, fun _ _ => trivial⟩) fun _ _ _ _ => trivial)
  | storeReply id reply keys fail =>
    obtain ⟨f, hf, rfl⟩ := Option.map_eq_some_iff.1 hstep
    have hkind := List.find?_some hf
    cases hcall : f.call with
    | load r => simp [hcall, Call.isStore] at hkind
    | store d =>
      exact hmv (Moves.cacheStoreContinuation inv (List.mem_of_find?_eq_some hf) hcall
        (fun _ _ _ => ⟨trivial, fun _ _ => trivial⟩) (fun _ _ _ _ => trivial)
        fun _ _ _ _ => trivial)

/-- **No entry is removed while an RPC on it is in flight**, in every run in which no blob is
stored while it is being loaded: there is no fault (neither does an assertion of
`cache_entry_destroy` fail, nor is a freed entry used), and when an entry was removed, no
future was pending on it. -/
theorem no_removal_in_flight (hash : Bytes → Blobref) {s : Except Fault (Cache ρ)}
    (hreach : (machine hash).Reach (NotLoading hash) Initial s) :
    ∃ c, s = .ok c ∧ ∀ p ∈ c.removed, p.pending = [] := by
  have hinv : ∃ c, s = .ok c ∧ CacheInv anyData c := by
    refine hreach.invariant (fun s => ∃ c, s = .ok c ∧ CacheInv anyData c) ?_ ?_
    · rintro _ ⟨rank, limits, rfl⟩
      exact ⟨_, rfl, cacheInv_new anyData rank limits⟩
    · rintro _ l t - ⟨c, rfl, inv⟩ hg hstep
      exact inv.handle hg hstep
  obtain ⟨c, rfl, inv⟩ := hinv
  exact ⟨c, rfl, fun p hp => (inv.removed p hp).2⟩

/-- For the examples: all blobs have the same hash. -/
def oneHash : Bytes → Blobref := fun _ => "sha1-0"

instance (hash : Bytes → Blobref) (s : Except Fault (Cache ρ)) (l : Label ρ) :
    Decidable (NotLoading hash s l) := by
  cases s <;> cases l <;> unfold NotLoading <;> infer_instance

/-- A blob that has been loaded is stored again, without an RPC, and dropped. -/
theorem no_removal_in_flight_dropped :
    ∃ c : Cache ℕ, (machine oneHash).Reach (NotLoading oneHash) Initial (.ok c) ∧
      c.removed.length = 1 ∧ ∃ c', Except.ok c = Except.ok (ε := Fault) c' ∧
        ∀ p ∈ c'.removed, p.pending = [] := by
  have hrun : ∃ c : Cache ℕ, (machine oneHash).runGuarded (fun s l => NotLoading oneHash s l)
      [.load 1 "sha1-0" none, .loadReply 1 (.ok [1]), .store 2 [1] none, .dropcache 3]
      (.ok { rank := 1 }) = some (.ok c) ∧ c.removed.length = 1 :=
    ⟨_, rfl, rfl⟩
  obtain ⟨c, hrun, hremd⟩ := hrun
  have hrch : (machine oneHash).Reach (NotLoading oneHash) Initial (.ok c) :=
    .of_runGuarded (fun _ _ => of_decide_eq_true) (.start ⟨1, {}, rfl⟩) hrun
  exact ⟨c, hrch, hremd, no_removal_in_flight oneHash hrch⟩

/-- A load is in flight when the blob is stored. The store is acknowledged, and the entry, valid
and clean now, is dropped. The reply to the load finds it freed. -/
theorem removal_in_flight :
    (machine (ρ := ℕ) oneHash).Reach (fun _ _ => True) Initial (.error .useAfterFree) := by
  have hrun : (machine (ρ := ℕ) oneHash).run
      [.load 1 "sha1-0" none, .store 2 [1] none, .storeReply 2 (.ok "sha1-0") [] none,
        .dropcache 3, .loadReply 1 (.ok [1])] (.ok { rank := 1 }) =
      some (.error .useAfterFree) := by
    decide +kernel
  exact .of_run (.start ⟨1, {}, rfl⟩) hrun

/-- If the load fails instead, an assertion of `cache_entry_destroy` fails. -/
example : (machine (ρ := ℕ) oneHash).run
    [.load 1 "sha1-0" none, .store 2 [1] none, .loadReply 1 (.error .ENOENT)]
    (.ok { rank := 1 }) = some (.error .assertion) := by
  decide +kernel

end FluxCore.Broker.Content
