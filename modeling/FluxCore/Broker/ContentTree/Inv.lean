import FluxCore.Broker.ContentTree

/-!
# The Invariant of the Content Caches of a Tree

The invariant of an instance (`Tree.Inv`) and how it is kept. The key notion is that of a blob
that is secured: it is stored, and no failure of a load of it is on its way. A blob that has
been acknowledged is secured, and stays so, since a load of it does not fail any more.

A step of one cache is a series of moves. What the moves have to observe is `Tree.Permits`.
-/

namespace FluxCore.Broker.Content

variable {top : Topology} {hash : Bytes → Blobref}

variable (hash) in
/-- The data of a blob. -/
def Hashes : Blobref → Bytes → Prop := fun r d => hash d = r

namespace Tree

variable (top) in
/-- No load of the blob can fail any more. -/
def Secured (t : Tree) (r : Blobref) : Prop := t.Stored r ∧ t.NoFailure top r

variable (top) in
/-- Who may wait for a blob. -/
inductive MayLoad (t : Tree) : Req → Blobref → Prop
  | client {n : ℕ} {late : Bool} {r : Blobref} (h : late = true → t.Secured top r) :
      MayLoad t (.client n late) r
  | rpc {i : ℕ} {f : Future} {r : Blobref} (hf : f.call = .load r) : MayLoad t (.rpc i f) r

variable (hash) in
/-- Who may wait for a store. -/
inductive MayDefer : Req → Blobref → Prop
  | client {n : ℕ} {r : Blobref} : MayDefer (.client n false) r
  | rpc {i : ℕ} {f : Future} {d : Bytes} (hf : f.call = .store d) : MayDefer (.rpc i f) (hash d)

variable (top hash) in
/-- The answers that a cache may give. -/
inductive MayAnswer (t : Tree) : Req → Answer → Prop
  | plain {n : ℕ} {a : Answer} (ha : a.Plain) : MayAnswer t (.client n false) a
  | data {n : ℕ} {late : Bool} {d : Bytes} : MayAnswer t (.client n late) (.data d)
  | acked {n : ℕ} {late : Bool} {r : Blobref} (h : t.Secured top r) :
      MayAnswer t (.client n late) (.blobref r)
  | rpcError {i : ℕ} {f : Future} {e : Errno} : MayAnswer t (.rpc i f) (.error e)
  | rpcData {i : ℕ} {f : Future} {d : Bytes} (hf : f.call = .load (hash d))
      (h : t.Stored (hash d)) : MayAnswer t (.rpc i f) (.data d)
  | rpcAcked {i : ℕ} {f : Future} {d : Bytes} (hf : f.call = .store d)
      (h : t.Secured top (hash d)) : MayAnswer t (.rpc i f) (.blobref (hash d))

variable (hash) in
/-- The answers that the backing store may give. -/
inductive MayAnswerBack (t : Tree) : Req → Answer → Prop
  | error {i : ℕ} {f : Future} {e : Errno} : MayAnswerBack t (.rpc i f) (.error e)
  | data {i : ℕ} {f : Future} {d : Bytes} (hf : f.call = .load (hash d))
      (h : t.Held (hash d)) : MayAnswerBack t (.rpc i f) (.data d)
  | acked {i : ℕ} {f : Future} {d : Bytes} (hf : f.call = .store d) (h : t.Held (hash d)) :
      MayAnswerBack t (.rpc i f) (.blobref (hash d))

variable (top hash) in
/-- The invariant of an instance. -/
structure Inv (t : Tree) : Prop where
  cache (i : ℕ) : CacheInv (Hashes hash) (t.caches i)
  rank (i : ℕ) : (t.caches i).rank = i
  held {r : Blobref} {d : Bytes} : t.held r = some d → hash d = r
  root_clean {r : Blobref} : (t.caches 0).Clean r → t.Held r
  clean {i : ℕ} {r : Blobref} : (t.caches i).Clean r → t.Stored r
  loads {i : ℕ} {q : Req} {r : Blobref} : (t.caches i).LoadWaits q r → t.MayLoad top q r
  stores {i : ℕ} {q : Req} {r : Blobref} : (t.caches i).StoreWaits q r → MayDefer hash q r
  flushes {i : ℕ} {q : Req} : q ∈ (t.caches i).flushRequests → ∃ n, q = .client n false
  answers {i : ℕ} {q : Req} {a : Answer} :
    (q, a) ∈ (t.caches i).answers → t.MayAnswer top hash q a
  back {q : Req} {a : Answer} : (q, a) ∈ t.backAnswers → t.MayAnswerBack hash q a

variable (top) in
/-- Nothing that is stored or secured is lost. -/
structure Keeps (t t' : Tree) : Prop where
  held {r : Blobref} : t.Held r → t'.Held r
  stored {r : Blobref} : t.Stored r → t'.Stored r
  secured {r : Blobref} : t.Secured top r → t'.Secured top r

variable {t t' : Tree}

theorem MayLoad.keeps (h : t.MayLoad top q r) (k : t.Keeps top t') : t'.MayLoad top q r := by
  cases h with
  | client h => exact .client fun hl => k.secured (h hl)
  | rpc hf => exact .rpc hf

theorem MayAnswer.keeps (h : t.MayAnswer top hash q a) (k : t.Keeps top t') :
    t'.MayAnswer top hash q a := by
  cases h with
  | plain ha => exact .plain ha
  | data => exact .data
  | acked h => exact .acked (k.secured h)
  | rpcError => exact .rpcError
  | rpcData hf h => exact .rpcData hf (k.stored h)
  | rpcAcked hf h => exact .rpcAcked hf (k.secured h)

theorem MayAnswerBack.keeps (h : t.MayAnswerBack hash q a) (k : t.Keeps top t') :
    t'.MayAnswerBack hash q a := by
  cases h with
  | error => exact .error
  | data hf h => exact .data hf (k.held h)
  | acked hf h => exact .acked hf (k.held h)

theorem Inv.secured (inv : t.Inv top hash) (h : t.Acked top r) : t.Secured top r := by
  obtain ⟨i, -, ⟨q, a⟩, hmem, rfl⟩ := h
  cases inv.answers hmem with
  | plain ha => exact ha.elim
  | acked h | rpcAcked hf h => exact h

/-! ### Steps of one cache -/

variable (top hash) in
/-- What a cache is allowed to do on rank `i`. -/
structure Permits (t : Tree) (i : ℕ) (p : Allow Req) : Prop where
  cleaned {r : Blobref} : p.cleaned r → t.Stored r
  root_cleaned {r : Blobref} : i = 0 → p.cleaned r → t.Held r
  loads {q : Req} {r : Blobref} : p.loads q r → t.MayLoad top q r
  stores {q : Req} {r : Blobref} : p.stores q r → MayDefer hash q r
  flushes {q : Req} : p.flushes q → ∃ n, q = .client n false
  failures {j : ℕ} {f : Future} {e : Errno} {r : Blobref} :
    p.answers (.rpc j f) (.error e) → f.call = .load r → ¬ t.Secured top r

theorem set_caches_self : (t.set i c).caches i = c := Function.update_self ..

theorem set_caches_ne (h : j ≠ i) : (t.set i c).caches j = t.caches j :=
  Function.update_of_ne h ..

theorem forall_set {P : ℕ → Cache Req → Prop} (hi : P i c) (h : ∀ j ≠ i, P j (t.caches j))
    (j : ℕ) : P j ((t.set i c).caches j) := by
  by_cases hj : j = i
  · subst hj
    rwa [set_caches_self]
  · rw [set_caches_ne hj]
    exact h j hj

theorem NoFailure.set (h : t.NoFailure top r) (m : Moves (Hashes hash) p (t.caches i) c)
    (hnew : ∀ j f e, p.answers (.rpc j f) (.error e) → f.call ≠ .load r) :
    (t.set i c).NoFailure top r := by
  rintro j hj ⟨q, a⟩ hx
  by_contra hfail
  have hold : (q, a) ∉ t.replies top j := fun hx => hfail (h j hj _ hx)
  have hans : p.answers q a := by
    rw [replies] at hx hold
    split_ifs at hx hold
    · exact absurd hx hold
    by_cases hpar : top.parent j = i
    · rw [hpar] at hx hold
      rw [set_caches_self] at hx
      exact (m.answers hx).resolve_left hold
    · rw [set_caches_ne hpar] at hx
      exact absurd hx hold
  cases q with
  | client n late => exact hfail rfl
  | rpc k f =>
    cases a with
    | error e =>
      rw [Bool.not_eq_false, isFailure, decide_eq_true_iff] at hfail
      exact hnew k f e hans hfail.2.1
    | data | blobref | done => exact hfail rfl

section

variable (inv : t.Inv top hash) (hp : t.Permits top hash i p)
  (m : Moves (Hashes hash) p (t.caches i) c)
include inv hp m

theorem Keeps.set : t.Keeps top (t.set i c) := by
  have hheld : ∀ {r}, t.Held r → (t.set i c).Held r := by
    rintro r ⟨hb, hd⟩
    refine ⟨?_, hd⟩
    by_cases hi : i = 0
    · subst hi
      rw [set_caches_self]
      exact m.backing hb
    · rwa [set_caches_ne (Ne.symm hi)]
  have hstd : ∀ {r}, t.Stored r → (t.set i c).Stored r := by
    rintro r (hv | hh)
    · by_cases hi : i = 0
      · subst hi
        rcases m.valid hv with h | h | h
        · refine .inl ?_
          rwa [set_caches_self]
        · exact .inr (hheld (inv.root_clean h))
        · exact .inr (hheld (hp.root_cleaned rfl h))
      · refine .inl ?_
        rwa [set_caches_ne (Ne.symm hi)]
    · exact .inr (hheld hh)
  refine ⟨hheld, hstd, fun hs => ⟨hstd hs.1, hs.2.set m fun j f e ha hf => ?_⟩⟩
  exact hp.failures ha hf hs

theorem Inv.set (ha : ∀ q a, p.answers q a → (t.set i c).MayAnswer top hash q a) :
    (t.set i c).Inv top hash := by
  have k := Keeps.set inv hp m
  refine ⟨?_, ?_, inv.held, ?_, ?_, ?_, ?_, ?_, ?_, fun h => (inv.back h).keeps k⟩
  · exact forall_set m.inv fun j _ => inv.cache j
  · refine forall_set (P := fun j c => c.rank = j) ?_ fun j _ => inv.rank j
    exact m.rank.trans (inv.rank i)
  · intro r hcl
    by_cases hi : i = 0
    · subst hi
      rw [set_caches_self] at hcl
      exact k.held ((m.clean hcl).elim inv.root_clean (hp.root_cleaned rfl))
    · rw [set_caches_ne (Ne.symm hi)] at hcl
      exact k.held (inv.root_clean hcl)
  · intro j r
    refine forall_set (P := fun _ c => c.Clean r → (t.set i _).Stored r) (fun h => ?_)
      (fun j _ h => k.stored (inv.clean h)) j
    exact k.stored ((m.clean h).elim inv.clean hp.cleaned)
  · intro j q r
    refine forall_set (P := fun _ c => c.LoadWaits q r → (t.set i _).MayLoad top q r)
      (fun h => ?_) (fun j _ h => (inv.loads h).keeps k) j
    exact ((m.loads h).elim inv.loads hp.loads).keeps k
  · intro j q r
    refine forall_set (P := fun _ c => c.StoreWaits q r → MayDefer hash q r)
      (fun h => ?_) (fun j _ h => inv.stores h) j
    exact (m.stores h).elim inv.stores hp.stores
  · intro j q
    refine forall_set (P := fun _ c => q ∈ c.flushRequests → ∃ n, q = .client n false)
      (fun h => ?_) (fun j _ h => inv.flushes h) j
    exact (m.flushes h).elim inv.flushes hp.flushes
  · intro j q a
    refine forall_set (P := fun _ c => (q, a) ∈ c.answers → (t.set i _).MayAnswer top hash q a)
      (fun h => ?_) (fun j _ h => (inv.answers h).keeps k) j
    exact (m.answers h).elim (fun h => (inv.answers h).keeps k) (ha q a)

end

theorem Inv.mark (inv : t.Inv top hash) (hs ds : List (ℕ × Future)) (hd : t.delivered ⊆ ds) :
    ({ t with handled := hs, delivered := ds } : Tree).Inv top hash := by
  have hfailure : ∀ r i x,
      ({ t with handled := hs, delivered := ds } : Tree).isFailure r i x = true →
        t.isFailure r i x = true := by
    rintro r i ⟨q | ⟨j, f⟩, a⟩ h
    · cases h
    cases a with
    | error e =>
      simp only [isFailure, decide_eq_true_iff] at h ⊢
      exact ⟨h.1, h.2.1, fun hmem => h.2.2 (hd hmem)⟩
    | data | blobref | done => cases h
  have k : t.Keeps top { t with handled := hs, delivered := ds } := by
    refine ⟨fun h => h, fun h => h, fun {r} h => ⟨h.1, fun i hi x hx => ?_⟩⟩
    refine Bool.eq_false_iff.2 fun hfail => ?_
    exact Bool.false_ne_true ((h.2 i hi x hx).symm.trans (hfailure r i x hfail))
  exact ⟨inv.cache, inv.rank, inv.held, inv.root_clean, inv.clean,
    fun h => (inv.loads h).keeps k, inv.stores, inv.flushes, fun h => (inv.answers h).keeps k,
    fun h => (inv.back h).keeps k⟩

theorem Inv.run (inv : t.Inv top hash) (hp : t.Permits top hash i p)
    (ha : ∀ q a, p.answers q a → t.MayAnswer top hash q a)
    (h : ∃ c, handler (t.caches i) = .ok c ∧ Moves (Hashes hash) p (t.caches i) c) :
    ∃ t', t.run i handler = .ok t' ∧ t'.Inv top hash := by
  obtain ⟨c, hc, m⟩ := h
  refine ⟨t.set i c, by rw [Tree.run, hc]; rfl, inv.set hp m fun q a hq => ?_⟩
  exact (ha q a hq).keeps (.set inv hp m)

end Tree

end FluxCore.Broker.Content
