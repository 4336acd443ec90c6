import FluxCore.Kvs.Lookup.Frame
import FluxCore.Kvs.Rfc11

/-!
# Lookups Keep Other Namespaces Confidential

A handle reads the root of a namespace only after `kvsroot_check_user` has accepted its
credential. Two tables of namespaces that differ only in roots which the credential cannot
read are therefore the same for a handle (`lookup_congr`), in one call and over all calls
of a handle, whatever happens to the cache and to the tables in between
(`lookup_confidential`).
-/

namespace FluxCore.Kvs.Lookup

open Option

/-- The tables have the same namespaces, owners and `remove` flags, and differ only in
namespaces that the credential cannot read. -/
structure Hides (cred : Cred) (krm₁ krm₂ : KvsrootMgr) : Prop where
  owner : ∀ ns, (krm₁ ns).map (fun root => (root.owner, root.remove))
    = (krm₂ ns).map fun root => (root.owner, root.remove)
  readable : ∀ ns root, krm₁ ns = some root → kvsrootCheckUser root cred = true →
    krm₂ ns = some root

section Congr

variable {cred : Cred} {krm₁ krm₂ : KvsrootMgr}

/-- A namespace is known in both tables or in none; its root is the same, or the credential
is rejected in both. -/
theorem Hides.cases (h : Hides cred krm₁ krm₂) (ns : String) : (krm₁ ns = none ∧ krm₂ ns = none) ∨
      ∃ root₁ root₂, krm₁ ns = some root₁ ∧ krm₂ ns = some root₂ ∧ root₁.remove = root₂.remove ∧
        ((root₁ = root₂ ∧ kvsrootCheckUser root₁ cred = true) ∨
          (kvsrootCheckUser root₁ cred = false ∧ kvsrootCheckUser root₂ cred = false)) := by
  have howner := h.owner ns
  cases h₁ : krm₁ ns with
  | none =>
    rw [h₁, map_none, eq_comm, map_eq_none_iff] at howner
    exact .inl ⟨rfl, howner⟩
  | some root₁ =>
    rw [h₁, map_some, eq_comm, map_eq_some_iff] at howner
    obtain ⟨root₂, h₂, heq⟩ := howner
    obtain ⟨hown, hrem⟩ := Prod.mk.inj heq
    refine .inr ⟨root₁, root₂, rfl, h₂, hrem.symm, ?_⟩
    cases hchk : kvsrootCheckUser root₁ cred with
    | true =>
      have heq := h.readable ns root₁ h₁ hchk
      rw [h₂, some.injEq] at heq
      exact .inl ⟨heq.symm, rfl⟩
    | false =>
      refine .inr ⟨rfl, ?_⟩
      rw [kvsrootCheckUser, hown, ← kvsrootCheckUser]
      exact hchk

theorem symlinkNamespace_congr (h : Hides cred krm₁ krm₂) (linkpath : String) :
    symlinkNamespace krm₁ cred linkpath = symlinkNamespace krm₂ cred linkpath := by
  rw [symlinkNamespace, symlinkNamespace]
  split
  · rfl
  · rfl
  rename_i ns suffix _
  rcases h.cases ns with ⟨h₁, h₂⟩ | ⟨root₁, root₂, h₁, h₂, -, ⟨rfl, -⟩ | ⟨hc₁, hc₂⟩⟩
  · simp only [h₁, h₂]
  · simp only [h₁, h₂]
  · simp only [h₁, h₂, hc₁, hc₂, Bool.false_eq_true, if_false]

theorem kvsrootMgrLookupRootSafe_cases (h : Hides cred krm₁ krm₂) (ns : String) :
    (kvsrootMgrLookupRootSafe krm₁ ns = none ∧ kvsrootMgrLookupRootSafe krm₂ ns = none) ∨
      ∃ root₁ root₂, kvsrootMgrLookupRootSafe krm₁ ns = some root₁ ∧
        kvsrootMgrLookupRootSafe krm₂ ns = some root₂ ∧
        ((root₁ = root₂ ∧ kvsrootCheckUser root₁ cred = true) ∨
          (kvsrootCheckUser root₁ cred = false ∧ kvsrootCheckUser root₂ cred = false)) := by
  rw [kvsrootMgrLookupRootSafe, kvsrootMgrLookupRootSafe]
  rcases h.cases ns with ⟨h₁, h₂⟩ | ⟨root₁, root₂, h₁, h₂, hrem, hroot⟩
  · exact .inl ⟨by rw [h₁]; rfl, by rw [h₂]; rfl⟩
  rw [h₁, h₂]
  cases hr : root₁.remove with
  | true =>
    rw [hr] at hrem
    exact .inl ⟨by simp [hr], by simp [← hrem]⟩
  | false =>
    rw [hr] at hrem
    exact .inr ⟨root₁, root₂, by simp [hr], by simp [← hrem], hroot⟩

variable {lh : Handle}

theorem replayCheck_congr (h : Hides lh.cred krm₁ krm₂) (isReplay : Bool) :
    replayCheck isReplay krm₁ lh = replayCheck isReplay krm₂ lh := by
  rw [replayCheck, replayCheck, namespaceStillValid, namespaceStillValid]
  rcases kvsrootMgrLookupRootSafe_cases h lh.ns with
    ⟨h₁, h₂⟩ | ⟨root₁, root₂, h₁, h₂, ⟨rfl, -⟩ | ⟨hc₁, hc₂⟩⟩
  · rw [h₁, h₂]
  · rw [h₁, h₂]
  · rw [h₁, h₂]
    simp only [hc₁, hc₂]

theorem walkTurn_congr (c : Codec) (h : Hides lh.cred krm₁ krm₂) (cache : Cache) (wl : WalkLevel)
    (below : List WalkLevel) :
    walkTurn c krm₁ cache lh wl below = walkTurn c krm₂ cache lh wl below := by
  have hsym : ∀ d target, walkSymlink krm₁ lh.cred lh.flags wl d target
      = walkSymlink krm₂ lh.cred lh.flags wl d target := by
    intro d target
    rw [walkSymlink, walkSymlink, symlinkNamespace_congr h]
  have hdir : ∀ pathcomp ref dir, walkDir krm₁ lh wl below pathcomp ref dir
      = walkDir krm₂ lh wl below pathcomp ref dir := by
    intro pathcomp ref dir
    simp only [walkDir, hsym]
  simp only [walkTurn, hdir]

theorem walk_congr (c : Codec) (turns : ℕ) (h : Hides lh.cred krm₁ krm₂) (cache : Cache) :
    walk c krm₁ turns cache lh = walk c krm₂ turns cache lh := by
  induction turns generalizing cache lh with
  | zero => rfl
  | succ turns ih =>
    rw [walk, walk]
    split
    · rfl
    rename_i wl below _
    rw [walkTurn_congr c h]
    split
    · rename_i cache' levels _
      have h' : Hides ({ lh with levels := levels } : Handle).cred krm₁ krm₂ := h
      exact ih h' cache'
    · rfl
    · rfl

theorem lookupFromValue_congr (c : Codec) (isReplay : Bool) (h : Hides lh.cred krm₁ krm₂)
    (cache : Cache) :
    lookupFromValue c isReplay krm₁ cache lh = lookupFromValue c isReplay krm₂ cache lh := by
  rw [lookupFromValue, lookupFromValue, replayCheck_congr h]

section

variable (c : Codec) (turns : ℕ) (isReplay : Bool) (h : Hides lh.cred krm₁ krm₂) (cache : Cache)
include c turns isReplay h cache

theorem lookupFromWalk_congr : lookupFromWalk c turns isReplay krm₁ cache lh
      = lookupFromWalk c turns isReplay krm₂ cache lh := by
  rw [lookupFromWalk, lookupFromWalk, replayCheck_congr h, walk_congr c turns h]
  split
  · rfl
  cases hwalk : walk c krm₂ turns cache lh with
  | useAfterFree | running => rfl
  | ok r =>
    have hcred : r.lh.cred = lh.cred := (walk_continues hwalk).cred
    have h' : Hides ({ r.lh with state := .value } : Handle).cred krm₁ krm₂ := hcred ▸ h
    simp only [Outcome.bind, lookupFromValue_congr c isReplay h']

theorem lookupFromCheckRoot_congr (rootRef : Blobref) :
    lookupFromCheckRoot c turns isReplay krm₁ cache lh rootRef
      = lookupFromCheckRoot c turns isReplay krm₂ cache lh rootRef := by
  rw [lookupFromCheckRoot, lookupFromCheckRoot, replayCheck_congr h, lookupFromWalkInit,
    lookupFromWalkInit, lookupFromWalk_congr]
  exact h

theorem lookupFromCheckNamespace_congr :
    lookupFromCheckNamespace c turns isReplay krm₁ cache lh
      = lookupFromCheckNamespace c turns isReplay krm₂ cache lh := by
  rw [lookupFromCheckNamespace, lookupFromCheckNamespace]
  split
  · rw [lookupFromCheckRoot_congr]
    exact h
  rcases kvsrootMgrLookupRootSafe_cases h lh.ns with
    ⟨h₁, h₂⟩ | ⟨root₁, root₂, h₁, h₂, ⟨rfl, -⟩ | ⟨hc₁, hc₂⟩⟩
  · simp only [h₁, h₂]
  · simp only [h₁, h₂]
    rw [lookupFromCheckRoot_congr]
    exact h
  · simp only [h₁, h₂, hc₁, hc₂, Bool.not_false, if_true]

end

/-- **A call does not depend on roots that the credential cannot read.** -/
theorem lookup_congr (c : Codec) (turns : ℕ) (h : Hides lh.cred krm₁ krm₂) (cache : Cache) :
    lookup c turns krm₁ cache lh = lookup c turns krm₂ cache lh := by
  have h' : Hides ({ lh with state := .checkNamespace } : Handle).cred krm₁ krm₂ := h
  rw [lookup, lookup, lookupFromCheckNamespace_congr c turns false h', lookupFromCheckNamespace_congr c turns true h,
    lookupFromCheckRoot_congr c turns true h, lookupFromWalkInit, lookupFromWalkInit,
    lookupFromWalk_congr c turns true h, lookupFromValue_congr c true h]
  rw [lookupFromWalk_congr]
  exact h

end Congr

/-! ### All calls of a handle -/

/-- The same thing happens, but for the roots that the credential cannot read. -/
inductive Label.Similar (cred : Cred) : Label → Label → Prop
  | call (turns epoch : ℕ) : Similar cred (.call turns epoch) (.call turns epoch)
  | entry (ref : Blobref) (entry : CacheEntry) : Similar cred (.entry ref entry) (.entry ref entry)
  | expire (ref : Blobref) : Similar cred (.expire ref) (.expire ref)
  | krm {krm₁ krm₂ : KvsrootMgr} (h : Hides cred krm₁ krm₂) : Similar cred (.krm krm₁) (.krm krm₂)

/-- What can be observed of a session: the cache, the handle with its value and its error,
and the results and missing references of its calls. -/
def Session.observed (s : Session) : Cache × Handle × List (Process × Except Errno (List Blobref)) :=
  (s.cache, s.lh, s.results)

/-- The sessions are the same but for the roots that the credential cannot read. -/
structure Session.Similar (cred : Cred) (s₁ s₂ : Session) : Prop where
  observed : s₁.observed = s₂.observed
  lhCred : s₁.lh.cred = cred
  krm : Hides cred s₁.krm s₂.krm

/-- The results of two steps: both are not possible, both read freed memory, or both lead to
similar sessions. -/
inductive Agree (cred : Cred) : Option (Option Session) → Option (Option Session) → Prop
  | disabled : Agree cred none none
  | useAfterFree : Agree cred (some none) (some none)
  | session {t₁ t₂ : Session} (h : t₁.Similar cred t₂) : Agree cred (some (some t₁)) (some (some t₂))

theorem Session.Similar.step (h : s₁.Similar cred s₂) (hl : l₁.Similar cred l₂) :
    Agree cred ((machine c).step l₁ (some s₁)) ((machine c).step l₂ (some s₂)) := by
  obtain ⟨hobs, rfl, hkrm⟩ := h
  obtain ⟨cache, krm₁, lh, results⟩ := s₁
  obtain ⟨cache₂, krm₂, lh₂, results₂⟩ := s₂
  simp only [Session.observed, Prod.mk.injEq] at hobs
  obtain ⟨rfl, rfl, rfl⟩ := hobs
  simp only at hkrm
  simp only [machine, bind_some]
  cases hl with
  | call turns epoch =>
    have hkrm' : Hides ({ lh with currentEpoch := epoch } : Handle).cred krm₁ krm₂ := hkrm
    have hcall : Session.call c ⟨cache, krm₂, lh, results⟩ turns epoch
        = (Session.call c ⟨cache, krm₁, lh, results⟩ turns epoch).bind
            fun t => .ok { t with krm := krm₂ } := by
      simp only [Session.call, ← lookup_congr c turns hkrm' cache]
      cases lookup c turns krm₁ cache { lh with currentEpoch := epoch } with
      | ok r =>
        simp only [Outcome.bind]
        split <;> simp_all
      | useAfterFree | running => rfl
    dsimp only
    rw [hcall]
    cases hr : Session.call c ⟨cache, krm₁, lh, results⟩ turns epoch with
    | ok t =>
      obtain ⟨hlh, htab⟩ := Session.call_continues hr
      exact .session ⟨rfl, hlh.cred, htab ▸ hkrm⟩
    | useAfterFree => exact .useAfterFree
    | running => exact .disabled
  | entry ref entry =>
    dsimp only
    split
    · exact .disabled
    · exact .session ⟨rfl, rfl, hkrm⟩
  | expire ref =>
    dsimp only
    split
    · exact .disabled
    split
    · exact .session ⟨rfl, rfl, hkrm⟩
    · exact .disabled
  | krm h => exact .session ⟨rfl, rfl, h⟩

/-- **Confidentiality.** Two runs of a handle that was created without a root reference, in
which the same things happen but for roots that its credential cannot read, cannot be told
apart: the calls return the same and report the same missing references, and the handles
end with the same value or error. -/
theorem lookup_confidential (c : Codec) {epoch : ℕ} {ns path : String} {cred : Cred}
    {flags : Flags} {lh : Handle} (hlh : lookupCreate epoch ns none 0 path cred flags = .ok lh)
    (cache : Cache) {krm₁ krm₂ : KvsrootMgr} (hkrm : Hides cred krm₁ krm₂) {ls₁ ls₂ : List Label}
    (hls : List.Forall₂ (Label.Similar cred) ls₁ ls₂) :
    ((machine c).run ls₁ (some ⟨cache, krm₁, lh, []⟩)).map (Option.map Session.observed)
      = ((machine c).run ls₂ (some ⟨cache, krm₂, lh, []⟩)).map (Option.map Session.observed) := by
  have hcred : lh.cred = cred := by
    obtain ⟨ns', path', seq, rfl⟩ := lookupCreate_eq hlh
    rfl
  have hsim : Session.Similar cred ⟨cache, krm₁, lh, []⟩ ⟨cache, krm₂, lh, []⟩ := ⟨rfl, hcred, hkrm⟩
  generalize (⟨cache, krm₁, lh, []⟩ : Session) = s₁ at hsim ⊢
  generalize (⟨cache, krm₂, lh, []⟩ : Session) = s₂ at hsim ⊢
  induction hls generalizing s₁ s₂ with
  | nil => exact congrArg (fun o => some (some o)) hsim.observed
  | @cons l₁ l₂ ls₁ ls₂ hl hls ih =>
    rw [Machine.run, Machine.run]
    have hstep := hsim.step (c := c) hl
    generalize (machine c).step l₁ (some s₁) = o₁ at hstep ⊢
    generalize (machine c).step l₂ (some s₂) = o₂ at hstep ⊢
    cases hstep with
    | disabled => rfl
    | useAfterFree => cases hls <;> rfl
    | session h => exact ih _ _ h

/-- **The codec of a Flux instance**, with the base64 encoder. -/
def codec : Codec where
  toCodec := Rfc11.codec
  sodiumBin2base64 := Rfc11.sodiumBin2base64
  base642bin_bin2base64 := fun data _ => Rfc11.sodiumBase642bin_sodiumBin2base64 data
  bin2base64_nil := rfl

/-- The root directory of the primary namespace in the examples below: `a` is a link into
the namespace of another user. -/
def linkToOther : Dir Empty := .cons "a" (.symlink "ns:other/b") .nil

/-- The namespaces, with some root in the one of the other user. -/
def twoNamespaces (ref : Blobref) (seq : ℕ) : KvsrootMgr := fun ns =>
  if ns = "primary" then some { ref := "root", seq := 1, owner := 0 }
  else if ns = "other" then some { ref := ref, seq := seq, owner := 7 }
  else none

/-- A user looks up the key `a`. The handle stalls on the root directory, the directory
arrives and the other user commits, and the next call fails with `EPERM`. -/
theorem lookup_confidential_twoNamespaces :
    let lh : Handle := { ns := "primary", path := "a", cred := ⟨roleUser, 0⟩, flags := {} }
    let root : CacheEntry := { data := codec.jsonDumps (.dir linkToOther), valid := true }
    let ls (ref : Blobref) (seq : ℕ) : List Label :=
      [.call 9 1, .entry "root" root, .krm (twoNamespaces ref seq), .call 9 1]
    lookupCreate 0 "primary" none 0 "a" ⟨roleUser, 0⟩ {} = .ok lh ∧
    ((machine codec).run (ls "y" 3) (some ⟨fun _ => none, twoNamespaces "x" 2, lh, []⟩)).map
        (Option.map fun s => (s.lh.errnum, s.results.map Prod.fst))
      = some (some (some .EPERM, [.error, .loadMissingRefs])) ∧
    ((machine codec).run (ls "y" 3) (some ⟨fun _ => none, twoNamespaces "x" 2, lh, []⟩)).map
        (Option.map Session.observed)
      = ((machine codec).run (ls "w" 5) (some ⟨fun _ => none, twoNamespaces "v" 4, lh, []⟩)).map
        (Option.map Session.observed) := by
  have hides : ∀ ref ref' seq seq',
      Hides ⟨roleUser, 0⟩ (twoNamespaces ref seq) (twoNamespaces ref' seq') := by
    intro ref ref' seq seq'
    constructor
    · intro ns
      unfold twoNamespaces
      split_ifs <;> rfl
    · intro ns root hroot hchk
      unfold twoNamespaces at hroot ⊢
      split_ifs at hroot ⊢
      · exact hroot
      cases hroot
      have hrej : kvsrootCheckUser ⟨⟨ref, seq, false⟩, 7⟩ ⟨roleUser, 0⟩ = false := rfl
      rw [hrej] at hchk
      cases hchk
  have hcre : lookupCreate 0 "primary" none 0 "a" ⟨roleUser, 0⟩ {}
      = .ok { ns := "primary", path := "a", cred := ⟨roleUser, 0⟩, flags := {} } := by decide
  refine ⟨hcre, by decide +kernel, ?_⟩
  exact lookup_confidential codec hcre _ (hides _ _ _ _)
    (.cons (.call 9 1) (.cons (.entry _ _) (.cons (.krm (hides _ _ _ _)) (.cons (.call 9 1) .nil))))

end FluxCore.Kvs.Lookup
