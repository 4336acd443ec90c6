import FluxCore.Kvs.Lookup.Confidential
import FluxCore.Kvs.Lookup.Value

/-!
# A Lookup Reads a Snapshot

The calls of one handle, with changes of the cache and of the namespaces between them, give
the result that the recursive resolution has over the full store, from the root that the
first call has taken (`lookup_snapshot`).

Two things can go wrong, and the guard of the runs excludes them. A handle that has stalled
points into a cached directory; if that cache entry expires, the next call reads freed
memory (`lookup_after_expiry`). A followed target that ends with a link to the root leaves
the entry of a level that is destroyed.
-/

namespace FluxCore.Kvs.Lookup

open List Option

variable {c : Codec}

/-! ### What a handle has left to do -/

/-- The handle has no result yet. -/
structure Pending (lh : Handle) : Prop where
  val : lh.val = none
  errnum : lh.errnum = none

/-- The handle is on its way to the snapshot of its root, or has it as its result. -/
inductive Holds (c : Codec) (store : Blobref → Option Bytes) (lh : Handle) : Prop
  | fresh (hstate : lh.state = .init ∨ lh.state = .checkNamespace)
      (huser : lh.rootRefSetByUser = lh.rootRef.isSome) (hp : Pending lh)
      (hlevels : lh.levels = []) (hd : lh.wdirent = none) (hrefs : lh.valrefMissingRefs = none)
  | root {ref : Blobref} (hstate : lh.state = .checkRoot) (href : lh.rootRef = some ref)
      (hpath : lh.path = ".") (hp : Pending lh) (hd : lh.wdirent = none)
      (hrefs : lh.valrefMissingRefs = none)
  | walk {ref : Blobref} {wl : WalkLevel} {below : List WalkLevel} (hstate : lh.state = .walk)
      (href : lh.rootRef = some ref) (hpath : lh.path ≠ ".") (hp : Pending lh)
      (hd : lh.wdirent = none) (hrefs : lh.valrefMissingRefs = none)
      (hlevels : lh.levels = wl :: below)
      (hwalks : Walks c store lh.flags plainHop ref
        (resolvePath c store lh.flags plainHop ref lh.path) wl below)
  | value {ref : Blobref} {d : Dirent} (hstate : lh.state = .value) (href : lh.rootRef = some ref)
      (hpath : lh.path ≠ ".") (hp : Pending lh) (hd : lh.wdirent = some d)
      (hfreed : d.owner ≠ .freed)
      (hE : resolvePath c store lh.flags plainHop ref lh.path = .found d.obj)
      (hrefs : ∀ d', lh.valrefMissingRefs = some d' → d' = d)
  | finished {ref : Blobref} (hstate : lh.state = .finished) (href : lh.rootRef = some ref)
      (hS : snapshot c store lh.flags plainHop ref lh.path = .result lh.val lh.errnum)

theorem walks_walkLevelCreate (flags : Flags) (hop : Blobref → String → Hop) (ref : Blobref)
    (path : String) : Walks c store flags hop ref (resolvePath c store flags hop ref path)
      (walkLevelCreate ref path 0) [] := by
  constructor
  case standing => exact ⟨rfl, Nat.zero_le _, fun h => absurd rfl h, trivial, .inl rfl, fun _ => rfl⟩
  case bottom =>
    intro l hl _
    rw [mem_singleton.1 hl]
    rfl
  case bad =>
    intro hbad
    exact ⟨if_pos hbad, components_ne_nil path, rfl, rfl⟩
  case good =>
    intro hgood
    have hpass : ∀ r, passOn c store flags hop r [] = r := by
      intro r
      cases r <;> rfl
    rw [finish, hpass, resolvePath, if_neg hgood, levelResolve]
    exact (congrFun (congrFun (congrFun (resolve_eq_resolveFrom c store flags hop
      (Nat.zero_le _) false) _) _) _).symm

/-! ### A call -/

/-- The computation does not read freed memory, and it returns with a handle that is on its
way or has the result. -/
def Proceeds (c : Codec) (store : Blobref → Option Bytes) (o : Outcome Return) : Prop :=
  o = .running ∨ ∃ ret, o = .ok ret ∧ Consistent store ret.cache ∧ Holds c store ret.lh

section Call

variable {isReplay : Bool} {ref : Blobref} {turns : ℕ}

theorem ValueSpec.holds (h : ValueSpec store S lh ret) (href : lh.rootRef = some ref)
    (hp : Pending lh) (hS : snapshot c store lh.flags plainHop ref lh.path = S)
    (href' : ∀ r, Holds c store { lh with missingRef := some r })
    (hrefs' : ∀ d, lh.wdirent = some d → Holds c store { lh with valrefMissingRefs := some d }) :
    Consistent store ret.cache ∧ Holds c store ret.lh := by
  cases h with
  | fail hc hres =>
    refine ⟨hc, .finished rfl href ?_⟩
    rw [hres, ← hp.val] at hS
    exact hS
  | done hc hres =>
    refine ⟨hc, .finished rfl href ?_⟩
    rw [hres, ← hp.errnum] at hS
    exact hS
  | missingRef hc => exact ⟨hc, href' _⟩
  | missingRefs hc hd => exact ⟨hc, hrefs' _ hd⟩

section

variable (hcache : Consistent store cache) (hcheck : replayCheck isReplay krm lh = none)
include hcache hcheck

theorem lookupFromValue_proceeds (hstate : lh.state = .value) (h : Holds c store lh) :
    Proceeds c store (lookupFromValue c isReplay krm cache lh) := by
  cases h with
  | fresh hs => rcases hs with hs | hs <;> simp [hs] at hstate
  | root hs | walk hs | finished hs => simp [hs] at hstate
  | value hs href hpath hp hd hfrd hE hrefs =>
    obtain ⟨ret, hret, hspec⟩ := lookupFromValue_spec (c := c) hcache hcheck hd hfrd
    refine .inr ⟨ret, hret, hspec.holds href hp ?_ ?_ ?_⟩
    · rw [snapshot, if_neg hpath, hE, Resolved.value]
    · exact fun r => .value hs href hpath { hp with } hd hfrd hE hrefs
    · intro d' hd'
      refine .value hs href hpath { hp with } hd hfrd hE fun d'' hd'' => ?_
      cases hd''
      exact some.inj (hd'.symm.trans hd)

theorem lookupFromWalk_proceeds (hstate : lh.state = .walk) (h : Holds c store lh)
    (hmeaning : ∀ ref, lh.rootRef = some ref →
      snapshot c store lh.flags plainHop ref lh.path ≠ .outside ∧
        snapshot c store lh.flags plainHop ref lh.path ≠ .dangling) :
    Proceeds c store (lookupFromWalk c turns isReplay krm cache lh) := by
  cases h with
  | fresh hs => rcases hs with hs | hs <;> simp [hs] at hstate
  | root hs | value hs | finished hs => simp [hs] at hstate
  | @walk ref wl below hs href hpath hp hd hrefs hlvs hwk =>
    have hsnap : snapshot c store lh.flags plainHop ref lh.path
        = (resolvePath c store lh.flags plainHop ref lh.path).value c store lh.flags :=
      if_neg hpath
    have hout : resolvePath c store lh.flags plainHop ref lh.path ≠ .outside := by
      intro hE
      rw [hE] at hsnap
      exact (hmeaning ref href).1 hsnap
    have hdang : resolvePath c store lh.flags plainHop ref lh.path ≠ .dangling := by
      intro hE
      rw [hE] at hsnap
      exact (hmeaning ref href).2 hsnap
    rw [lookupFromWalk, hcheck]
    dsimp only
    rcases hwk.walk hlvs hcache rfl (plainHop_follows krm lh.cred) hout hdang turns with
      hrun | ⟨⟨cache', lh', result⟩, hret, hcache', hspec⟩
    · rw [hrun]
      exact .inl rfl
    rw [hret, Outcome.bind]
    dsimp only at hspec hcache' ⊢
    cases hspec with
    | @found levels d hfrd hE =>
      exact lookupFromValue_proceeds hcache' hcheck rfl
        (.value rfl href hpath { hp with } rfl hfrd hE
          fun d' hd' => by cases hrefs.symm.trans hd')
    | absent hE =>
      dsimp only
      rw [hd]
      refine .inr ⟨_, rfl, hcache', .finished rfl href ?_⟩
      simpa [hE, Resolved.value, done, hp.val, hp.errnum] using hsnap
    | error hE =>
      refine .inr ⟨_, rfl, hcache', .finished rfl href ?_⟩
      simpa [hE, Resolved.value, hp.val] using hsnap
    | stalled hwk' =>
      exact .inr ⟨_, rfl, hcache', .walk hs href hpath { hp with } hd hrefs rfl hwk'⟩

theorem lookupFromCheckRoot_proceeds (hstate : lh.state = .checkRoot)
    (href : lh.rootRef = some ref) (hp : Pending lh) (hlvs : lh.path = "." ∨ lh.levels = [])
    (hd : lh.wdirent = none) (hrefs : lh.valrefMissingRefs = none)
    (hmeaning : ∀ ref, lh.rootRef = some ref →
      snapshot c store lh.flags plainHop ref lh.path ≠ .outside ∧
        snapshot c store lh.flags plainHop ref lh.path ≠ .dangling) :
    Proceeds c store (lookupFromCheckRoot c turns isReplay krm cache lh ref) := by
  rw [lookupFromCheckRoot, hcheck]
  dsimp only
  by_cases hpath : lh.path = "."
  · rw [if_pos hpath]
    refine .inr ⟨_, rfl, (lookupRoot_spec (c := c) hcache ref).holds href hp ?_ ?_ ?_⟩
    · rw [snapshot, if_pos hpath]
    · exact fun r => .root hstate href hpath { hp with } hd hrefs
    · exact fun d hd' => by cases hd.symm.trans hd'
  rw [if_neg hpath, lookupFromWalkInit]
  have hnil : lh.levels = [] := hlvs.resolve_left hpath
  refine lookupFromWalk_proceeds hcache hcheck rfl ?_ hmeaning
  refine .walk rfl href hpath { hp with } hd hrefs ?_
    (walks_walkLevelCreate lh.flags plainHop ref lh.path)
  dsimp only
  rw [hnil]

end

/-- The namespace of the handle is there for its user, or has not been asked for. -/
def Available (krm : KvsrootMgr) (lh : Handle) : Prop :=
  lh.rootRefSetByUser = true ∨ match kvsrootMgrLookupRootSafe krm lh.ns with
    | none => lh.rootRef = none
    | some root => kvsrootCheckUser root lh.cred = true

/-- The root that a call reads from. -/
def usedRoot (krm : KvsrootMgr) (lh : Handle) : Option Blobref :=
  lh.rootRef.or ((kvsrootMgrLookupRootSafe krm lh.ns).map fun root => root.ref)

/-- The lookup has a meaning that the code can compute: no link on the way has a namespace
prefix, and no followed target ends with a link to the root. -/
def Meaningful (c : Codec) (store : Blobref → Option Bytes) (krm : KvsrootMgr) (lh : Handle) :
    Prop :=
  ∀ ref ∈ usedRoot krm lh, snapshot c store lh.flags plainHop ref lh.path ≠ .outside ∧
    snapshot c store lh.flags plainHop ref lh.path ≠ .dangling

theorem Meaningful.of_rootRef (h : Meaningful c store krm lh) : ∀ ref, lh.rootRef = some ref →
      snapshot c store lh.flags plainHop ref lh.path ≠ .outside ∧
        snapshot c store lh.flags plainHop ref lh.path ≠ .dangling := by
  intro ref href
  refine h ref ?_
  rw [usedRoot, href]
  rfl

theorem Available.replayCheck (h : Available krm lh) (href : lh.rootRef = some ref) :
    replayCheck isReplay krm lh = none := by
  rw [Lookup.replayCheck]
  split_ifs
  · rw [namespaceStillValid]
    rcases h with h | h
    · rw [if_pos h]
    split_ifs
    · rfl
    split
    · rename_i hnone
      rw [hnone] at h
      simp [href] at h
    rename_i root hroot
    rw [hroot] at h
    exact if_pos h
  · rfl

section

variable (hcache : Consistent store cache) (havail : Available krm lh)
  (hmeaning : Meaningful c store krm lh)
include hcache havail hmeaning

theorem lookupFromCheckNamespace_proceeds (hstate : lh.state = .checkNamespace)
    (huser : lh.rootRefSetByUser = lh.rootRef.isSome) (hp : Pending lh) (hlvs : lh.levels = [])
    (hd : lh.wdirent = none) (hrefs : lh.valrefMissingRefs = none) :
    Proceeds c store (lookupFromCheckNamespace c turns isReplay krm cache lh) := by
  unfold lookupFromCheckNamespace
  split
  · rename_i ref href
    exact lookupFromCheckRoot_proceeds hcache (havail.replayCheck href) rfl href
      { hp with } (.inr hlvs) hd hrefs hmeaning.of_rootRef
  rename_i hnone
  have huser' : lh.rootRefSetByUser = false := by rw [huser, hnone, isSome_none]
  split
  · exact .inr ⟨_, rfl, hcache, .fresh (.inr hstate) huser { hp with } hlvs hd hrefs⟩
  rename_i root hroot
  have hcheck : kvsrootCheckUser root lh.cred = true := by
    rw [Available, hroot, huser'] at havail
    exact havail.resolve_left Bool.false_ne_true
  have hused : usedRoot krm lh = some root.ref := by rw [usedRoot, hnone, hroot]; rfl
  have havail' : Available krm
      { lh with rootRef := some root.ref, rootSeq := root.seq, state := .checkRoot } := by
    rw [Available, hroot]
    exact .inr hcheck
  rw [hcheck]
  refine lookupFromCheckRoot_proceeds hcache (havail'.replayCheck rfl) rfl rfl
    { hp with } (.inr hlvs) hd hrefs fun ref href => ?_
  cases href
  exact hmeaning _ hused

/-- **A call of the handle.** -/
theorem lookup_proceeds (h : Holds c store lh) :
    Proceeds c store (lookup c turns krm cache lh) := by
  unfold lookup
  split_ifs with herr
  · exact .inr ⟨_, rfl, hcache, h⟩
  cases h with
  | fresh hs huser hp hlvs hd hrefs =>
    rcases hs with hs | hs
    · rw [hs]
      exact lookupFromCheckNamespace_proceeds hcache havail hmeaning rfl huser
        { hp with } hlvs hd hrefs
    rw [hs]
    exact lookupFromCheckNamespace_proceeds hcache havail hmeaning hs huser hp hlvs hd
      hrefs
  | root hs href hpath hp hd hrefs =>
    rw [hs, href]
    exact lookupFromCheckRoot_proceeds hcache (havail.replayCheck href) hs href hp (.inl hpath)
      hd hrefs hmeaning.of_rootRef
  | walk hs href hpath hp hd hrefs hlvs hwk =>
    rw [hs]
    exact lookupFromWalk_proceeds hcache (havail.replayCheck href) hs
      (.walk hs href hpath hp hd hrefs hlvs hwk) hmeaning.of_rootRef
  | value hs href hpath hp hd hfrd hE hrefs =>
    rw [hs]
    exact lookupFromValue_proceeds hcache (havail.replayCheck href) hs
      (.value hs href hpath hp hd hfrd hE hrefs)
  | finished hs href hS =>
    rw [hs]
    exact .inr ⟨_, rfl, hcache, .finished rfl href hS⟩

end

theorem Holds.iterMissingRefs (h : Holds c store lh) (hcache : Consistent store cache) :
    ∃ m, lookupIterMissingRefs cache lh = .ok m ∧ Consistent store m.1 := by
  unfold lookupIterMissingRefs
  split_ifs with hstate
  · have hread : ∀ d, lh.valrefMissingRefs = some d → d.owner ≠ .freed := by
      intro d hsome
      cases h with
      | fresh _ _ _ _ _ hrefs | root _ _ _ _ _ hrefs | walk _ _ _ _ _ hrefs =>
        exact absurd (hrefs.symm.trans hsome) nofun
      | value _ _ _ _ _ hfrd _ hrefs =>
        rw [hrefs d hsome]
        exact hfrd
      | finished hs => simp [hs] at hstate
    split
    · exact ⟨_, rfl, hcache⟩
    rename_i d hd
    rw [Dirent.read, if_neg (hread d hd)]
    split
    · rename_i hno
      cases hno
    · exact ⟨_, rfl, hcache.foldl_cacheLookup _ lh.currentEpoch⟩
    · exact ⟨_, rfl, hcache⟩
  · exact ⟨_, rfl, hcache⟩

theorem Holds.epoch (h : Holds c store lh) (epoch : ℕ) :
    Holds c store { lh with currentEpoch := epoch } := by
  cases h with
  | fresh hs huser hp hlvs hd hrefs =>
    exact .fresh hs huser { hp with } hlvs hd hrefs
  | root hs href hpath hp hd hrefs => exact .root hs href hpath { hp with } hd hrefs
  | walk hs href hpath hp hd hrefs hlvs hwk =>
    exact .walk hs href hpath { hp with } hd hrefs hlvs hwk
  | value hs href hpath hp hd hfrd hE hrefs =>
    exact .value hs href hpath { hp with } hd hfrd hE hrefs
  | finished hs href hS => exact .finished hs href hS

end Call

/-! ### The expiry of a cache entry -/

/-- The entry that the next call reads. -/
def Handle.pending (lh : Handle) : Option Dirent :=
  match lh.state with
  | .walk => lh.levels.head?.map fun wl => wl.dirent
  | .value => lh.wdirent
  | _ => none

theorem Walks.map_below (h : Walks c store flags hop r E wl below) (f : Dirent → Dirent) :
    Walks c store flags hop r E wl (below.map fun wl => { wl with dirent := f wl.dirent }) := by
  have hstk : ∀ below, Stacked below →
      Stacked (below.map fun wl : WalkLevel => { wl with dirent := f wl.dirent }) := by
    intro below hst
    induction below with
    | nil => trivial
    | cons p below ih => exact ⟨by simpa using hst.1, hst.2.1, ih hst.2.2⟩
  have hpass : ∀ below R, passOn c store flags hop R
      (below.map fun wl : WalkLevel => { wl with dirent := f wl.dirent })
        = passOn c store flags hop R below := by
    intro below
    induction below with
    | nil => exact fun R => rfl
    | cons p below ih =>
      intro R
      cases R with
      | found o => exact ih _
      | _ => rfl
  obtain ⟨⟨hdep, hlim, hnms, hst, hown, hroot⟩, hbot, hbad, hgood⟩ := h
  refine ⟨⟨?_, hlim, ?_, hstk below hst, hown, hroot⟩, ?_, hbad, fun h => ?_⟩
  · rw [hdep, length_map]
  · exact fun hne => hnms fun hnil => hne (by rw [hnil, map_nil])
  · rw [forall_mem_cons] at hbot ⊢
    refine ⟨hbot.1, fun l hl => ?_⟩
    obtain ⟨p, hp, rfl⟩ := List.mem_map.1 hl
    exact hbot.2 p hp
  · rw [finish, hpass]
    exact hgood h

theorem Holds.free (h : Holds c store lh) (hpend : ∀ d ∈ lh.pending, d.owner ≠ .entry ref) :
    Holds c store (lh.free ref) := by
  have hkeep : ∀ d : Dirent, d.owner ≠ .entry ref →
      d.free (fun owner => owner = .entry ref) = d := by
    intro d hd
    rw [Dirent.free, if_neg]
    simpa using hd
  cases h with
  | fresh hs huser hp hlvs hd hrefs =>
    refine .fresh hs huser { hp with } ?_ ?_ ?_
    · rw [Handle.free, hlvs, map_nil]
    · rw [Handle.free, hd, map_none]
    · rw [Handle.free, hrefs, map_none]
  | root hs href hpath hp hd hrefs =>
    refine .root hs href hpath { hp with } ?_ ?_
    · rw [Handle.free, hd, map_none]
    · rw [Handle.free, hrefs, map_none]
  | @walk ref' wl below hs href hpath hp hd hrefs hlvs hwk =>
    have hwl : wl.dirent.owner ≠ .entry ref := by
      refine hpend wl.dirent ?_
      rw [Handle.pending, hs, hlvs]
      rfl
    refine .walk hs href hpath { hp with } ?_ ?_ ?_
      (hwk.map_below fun d => d.free fun owner => owner = .entry ref)
    · rw [Handle.free, hd, map_none]
    · rw [Handle.free, hrefs, map_none]
    · simp only [Handle.free, hlvs, map_cons, hkeep _ hwl]
  | @value ref' d hs href hpath hp hd hfrd hE hrefs =>
    have hwl : d.owner ≠ .entry ref := by
      refine hpend d ?_
      rw [Handle.pending, hs, hd]
      rfl
    refine .value hs href hpath { hp with } ?_ hfrd hE ?_
    · rw [Handle.free, hd, map_some, hkeep d hwl]
    · intro d' hd'
      obtain ⟨d₀, hd₀, heq⟩ := map_eq_some_iff.1 hd'
      rw [← heq, hrefs d₀ hd₀, hkeep d hwl]
  | finished hs href hS => exact .finished hs href hS

/-! ### Runs -/

/-- What the theorem asks of a step: the namespace of a handle that is called is there for
its user and the lookup is meaningful; a cache entry that becomes valid has the contents of
the store; the entry that the next call reads does not expire. -/
def Guard (c : Codec) (store : Blobref → Option Bytes) : Option Session → Label → Prop
  | some s, .call _ _ => Available s.krm s.lh ∧ Meaningful c store s.krm s.lh
  | some _, .entry ref entry => entry.valid = true → store ref = some entry.data
  | some s, .expire ref => ∀ d ∈ s.lh.pending, d.owner ≠ .entry ref
  | _, _ => True

/-- The session goes well. -/
structure Session.Sound (c : Codec) (store : Blobref → Option Bytes) (s : Session) : Prop where
  cache : Consistent store s.cache
  holds : Holds c store s.lh

/-- **A step keeps the session sound**, and the handle keeps its root. -/
theorem Session.Sound.step (h : s.Sound c store) (hg : Guard c store (some s) l)
    (ht : (machine c).step l (some s) = some t) :
    ∃ t', t = some t' ∧ t'.Sound c store ∧ Continues s.lh t'.lh := by
  simp only [machine, bind_some] at ht
  cases l with
  | call turns epoch =>
    dsimp only at ht
    obtain ⟨havail, hmeaning⟩ := hg
    have hcall : ∃ t', s.call c turns epoch = .running ∨
        s.call c turns epoch = .ok t' ∧ t'.Sound c store := by
      have hlk : Proceeds c store
          (lookup c turns s.krm s.cache { s.lh with currentEpoch := epoch }) :=
        lookup_proceeds h.cache havail hmeaning (h.holds.epoch epoch)
      rw [Session.call]
      dsimp only
      rcases hlk with hrun | ⟨ret, hret, hcache, hhold⟩
      · refine ⟨s, .inl ?_⟩
        rw [hrun]
        rfl
      rw [hret, Outcome.bind]
      split_ifs
      · obtain ⟨m, hm, hcache'⟩ := hhold.iterMissingRefs hcache
        rw [hm]
        exact ⟨_, .inr ⟨rfl, hcache', hhold⟩⟩
      · exact ⟨_, .inr ⟨rfl, hcache, hhold⟩⟩
    obtain ⟨t', hrun | ⟨hok, hsnd⟩⟩ := hcall
    · rw [hrun] at ht
      cases ht
    rw [hok] at ht
    cases ht
    exact ⟨t', rfl, hsnd, (Session.call_continues hok).1⟩
  | entry ref entry =>
    dsimp only at ht
    split_ifs at ht
    cases ht
    exact ⟨_, rfl, ⟨h.cache.set hg, h.holds⟩, .refl _⟩
  | expire ref =>
    dsimp only at ht
    split at ht
    · cases ht
    split_ifs at ht
    cases ht
    exact ⟨_, rfl, ⟨h.cache.delete ref, h.holds.free hg⟩, Handle.free_continues _ _⟩
  | krm krm =>
    cases ht
    exact ⟨_, rfl, { h with }, .refl _⟩

/-- **Snapshot lookup.** In a run from a new handle whose steps all meet the guard, the
process does not read freed memory. If the handle finishes, its value or error is the result
of the recursive resolution over the full store from the root reference that the handle has
taken, and it never changes that reference. -/
theorem lookup_snapshot (c : Codec) (store : Blobref → Option Bytes) {epoch : ℕ}
    {ns path : String} {rootRef : Option Blobref} {rootSeq : ℕ} {cred : Cred} {flags : Flags}
    {lh : Handle} (hlh : lookupCreate epoch ns rootRef rootSeq path cred flags = .ok lh)
    {cache : Cache} (hcache : Consistent store cache) (krm : KvsrootMgr) {s : Session}
    (hs : (machine c).Reach (Guard c store) (· = some ⟨cache, krm, lh, []⟩) (some s))
    {t : Option Session} (ht : (machine c).Reach (Guard c store) (· = some s) t) :
    ∃ t', t = some t' ∧ t'.lh.path = lh.path ∧ t'.lh.flags = flags ∧
      (∀ ref, s.lh.rootRef = some ref → t'.lh.rootRef = some ref) ∧
      (t'.lh.state = .finished → ∃ ref, t'.lh.rootRef = some ref ∧
        snapshot c store flags plainHop ref lh.path = .result t'.lh.val t'.lh.errnum) := by
  have hstep : ∀ (lh₀ : Handle) (u : Option Session) (l : Label) (v : Option Session),
      (∃ u', u = some u' ∧ u'.Sound c store ∧ Continues lh₀ u'.lh) → Guard c store u l →
        (machine c).step l u = some v →
          ∃ v', v = some v' ∧ v'.Sound c store ∧ Continues lh₀ v'.lh := by
    rintro lh₀ _ l v ⟨u', rfl, hu, hc⟩ hg hv
    obtain ⟨v', rfl, hv', hc'⟩ := hu.step hg hv
    exact ⟨v', rfl, hv', hc.trans hc'⟩
  have hfr : Holds c store lh ∧ lh.flags = flags := by
    obtain ⟨ns', path', seq, rfl⟩ := lookupCreate_eq hlh
    exact ⟨.fresh (.inl rfl) rfl ⟨rfl, rfl⟩ rfl rfl rfl, rfl⟩
  obtain ⟨hfr, rfl⟩ := hfr
  obtain ⟨s', hs', hsnd, hfst⟩ := hs.invariant
    (fun u => ∃ u', u = some u' ∧ u'.Sound c store ∧ Continues lh u'.lh)
    (fun u hu => ⟨_, hu, ⟨hcache, hfr⟩, .refl _⟩) (fun u l v _ => hstep lh u l v)
  cases hs'
  obtain ⟨t', rfl, hsnd', hlat⟩ := ht.invariant
    (fun u => ∃ u', u = some u' ∧ u'.Sound c store ∧ Continues s.lh u'.lh)
    (fun u hu => ⟨s, hu, hsnd, .refl _⟩) (fun u l v _ => hstep _ u l v)
  have hc := hfst.trans hlat
  refine ⟨t', rfl, hc.path, hc.flags, hlat.rootRef, fun hfin => ?_⟩
  cases hsnd'.holds with
  | fresh hs => rcases hs with hs | hs <;> simp [hs] at hfin
  | root hs | walk hs | value hs => simp [hs] at hfin
  | finished hs href hS =>
    rw [hc.path, hc.flags] at hS
    exact ⟨_, href, hS⟩

/-! ### A run that goes well and one that does not -/

instance (krm : KvsrootMgr) (lh : Handle) : Decidable (Available krm lh) := by
  unfold Available
  cases kvsrootMgrLookupRootSafe krm lh.ns <;> infer_instance

instance (c : Codec) (store : Blobref → Option Bytes) (s : Option Session) (l : Label) :
    Decidable (Guard c store s l) := by
  unfold Guard Meaningful
  split <;> infer_instance

/-- The reference of the subdirectory in the runs below. -/
def subRef : Blobref := "sha1-0000000000000000000000000000000000000000"

/-- A store of two directories: `a` is a link to `b`, which has the value `x`. -/
def linkedStore (ref : Blobref) : Option Bytes :=
  if ref = "root" then
    some (codec.jsonDumps (.dir (.cons "a" (.symlink "b") (.cons "b" (.dirref [subRef]) .nil))))
  else if ref = subRef then some (codec.jsonDumps (.dir (.cons "x" (.val "QQ==") .nil)))
  else none

/-- The cache entry of a blob of the store. -/
def linkedEntry (ref : Blobref) : CacheEntry :=
  { data := (linkedStore ref).getD [], valid := true }

/-- The primary namespace, at some root. -/
def primaryAt (ref : Blobref) (seq : ℕ) : KvsrootMgr := fun ns =>
  if ns = "primary" then some { ref := ref, seq := seq, owner := 0 } else none

/-- The handle of a lookup of `a.x`. -/
def linkedHandle : Handle :=
  { ns := "primary", path := "a.x", cred := ⟨1, 0⟩, flags := {} }

/-- The lookup stalls on both directories. In between, a new root is committed. -/
def linkedRun : List Label :=
  [.call 9 1, .entry "root" (linkedEntry "root"), .krm (primaryAt "other" 2), .call 9 1,
    .entry subRef (linkedEntry subRef), .call 9 1]

theorem lookup_snapshot_linked :
    ∃ s, (machine codec).runGuarded (fun s l => decide (Guard codec linkedStore s l)) linkedRun
          (some ⟨fun _ => none, primaryAt "root" 1, linkedHandle, []⟩) = some (some s) ∧
      s.lh.state = .finished ∧ s.lh.rootRef = some "root" ∧ s.lh.val = some (.val "QQ==") ∧
      snapshot codec linkedStore {} plainHop "root" "a.x" = .result s.lh.val s.lh.errnum := by
  have hcre : lookupCreate 0 "primary" none 0 "a..x" ⟨1, 0⟩ {} = .ok linkedHandle := by decide
  have hend : ((machine codec).runGuarded (fun s l => decide (Guard codec linkedStore s l))
      linkedRun (some ⟨fun _ => none, primaryAt "root" 1, linkedHandle, []⟩)).map
        (Option.map fun s => (s.lh.state, s.lh.rootRef, s.lh.val))
        = some (some (.finished, some "root", some (.val "QQ=="))) := by decide +kernel
  obtain ⟨t, ht, hsome⟩ := map_eq_some_iff.1 hend
  obtain ⟨s, rfl, hval⟩ := map_eq_some_iff.1 hsome
  simp only [Prod.mk.injEq] at hval
  obtain ⟨hstate, hroot, hval⟩ := hval
  have hrch : (machine codec).Reach (Guard codec linkedStore)
      (· = some ⟨fun _ => none, primaryAt "root" 1, linkedHandle, []⟩) (some s) :=
    .of_runGuarded (fun s l h => of_decide_eq_true h) (.start rfl) ht
  obtain ⟨t', rfl', -, -, -, hfin⟩ := lookup_snapshot codec linkedStore hcre
    (fun ref entry h => by cases h) (primaryAt "root" 1) hrch (.start rfl)
  cases rfl'
  obtain ⟨ref, href, hS⟩ := hfin hstate
  cases hroot.symm.trans href
  exact ⟨s, ht, hstate, hroot, hval, hS⟩

/-- **A stalled lookup does not survive the expiry** of the directory that it has stalled in:
the next call reads the entry of `b`, which was freed with the root directory. The full store
has a value under the path. -/
theorem lookup_after_expiry :
    snapshot codec linkedStore {} plainHop "root" "a.x" = .result (some (.val "QQ==")) none ∧
      (machine codec).run
        [.call 9 1, .entry "root" (linkedEntry "root"), .call 9 1, .expire "root",
          .entry subRef (linkedEntry subRef), .call 9 1]
        (some ⟨fun _ => none, primaryAt "root" 1, linkedHandle, []⟩) = some none := by
  refine ⟨by decide +kernel, ?_⟩
  have hnone : ((machine codec).run
      [.call 9 1, .entry "root" (linkedEntry "root"), .call 9 1, .expire "root",
        .entry subRef (linkedEntry subRef), .call 9 1]
      (some ⟨fun _ => none, primaryAt "root" 1, linkedHandle, []⟩)).map isNone
        = some true := by decide +kernel
  obtain ⟨t, ht, hisNone⟩ := map_eq_some_iff.1 hnone
  rw [ht, isNone_iff_eq_none.1 hisNone]

end FluxCore.Kvs.Lookup
