import FluxCore.Kvs.Lookup.Resolve

/-!
# The Walk Computes the Resolution

The levels of a walk are a stack of paths that are not resolved to their ends yet: what is
left to do is to resolve the path of the top level and to pass the entry on to the level
below (`finish`). Every turn of the loop keeps that (`Walks.turn`), as long as the
resolution is not `outside` or `dangling`.
-/

namespace FluxCore.Kvs.Lookup

open List Option

variable (c : Codec) (store : Blobref → Option Bytes) (flags : Flags)
  (hop : Blobref → String → Hop)

/-! ### What the levels have left to do -/

/-- How a level follows links. -/
def nestedAt (depth : ℕ) : Option (Blobref → List String → Resolved) :=
  if depth = symlinkCycleLimit then none
  else some fun ref names =>
    resolve c store flags hop (symlinkCycleLimit - (depth + 1)) true ref names (.dirref [ref])

/-- Resolve the components `names` from the entry `o` at a level. -/
def levelResolve (wl : WalkLevel) (names : List String) (o : Treeobj Empty) : Resolved :=
  resolveFrom c store flags hop (nestedAt c store flags hop wl.depth) (wl.depth ≠ 0) wl.rootRef
    names o

/-- Pass what was found to the levels below. -/
def passOn : Resolved → List WalkLevel → Resolved
  | .found o, wl :: below => passOn (levelResolve c store flags hop wl wl.pathcomps.tail o) below
  | r, _ => r

/-- What the levels have left to do. -/
def finish (wl : WalkLevel) (below : List WalkLevel) : Resolved :=
  passOn c store flags hop (levelResolve c store flags hop wl wl.pathcomps wl.dirent.obj) below

theorem resolve_eq_resolveFrom (h : depth ≤ symlinkCycleLimit) (inner : Bool) :
    resolve c store flags hop (symlinkCycleLimit - depth) inner
      = resolveFrom c store flags hop (nestedAt c store flags hop depth) inner := by
  rw [nestedAt]
  split_ifs with hlimit
  · rw [hlimit, Nat.sub_self]
    rfl
  obtain ⟨k, hk⟩ : ∃ k, symlinkCycleLimit - depth = k + 1 :=
    Nat.exists_eq_succ_of_ne_zero (by omega)
  have hk' : symlinkCycleLimit - (depth + 1) = k := by omega
  rw [hk, hk']
  rfl

theorem passOn_of_ne_found (h : ∀ o, r ≠ .found o) (below : List WalkLevel) :
    passOn c store flags hop r below = r := by
  cases r with
  | found o => exact absurd rfl (h o)
  | _ => cases below <;> rfl

/-- The levels below the top wait for the entry of their first component. -/
def Stacked : List WalkLevel → Prop
  | [] => True
  | wl :: below => wl.depth = below.length ∧ wl.pathcomps ≠ [] ∧ Stacked below

/-- The shape of the levels between two turns. -/
structure Standing (wl : WalkLevel) (below : List WalkLevel) : Prop where
  depth : wl.depth = below.length
  limit : wl.depth ≤ symlinkCycleLimit
  names : below ≠ [] → wl.pathcomps ≠ []
  stacked : Stacked below
  owner : wl.dirent.owner = .rootDirent wl.depth ∨ wl.dirent.owner = .tmpDirent wl.depth ∨
    ∃ ref, wl.dirent.owner = .entry ref
  root : wl.dirent.owner = .rootDirent wl.depth → wl.dirent.obj = .dirref [wl.rootRef]

variable {c store flags hop}

theorem Standing.not_freed (h : Standing wl below) : wl.dirent.owner ≠ .freed := by
  rcases h.owner with ho | ho | ⟨ref, ho⟩ <;> rw [ho] <;> exact Owner.noConfusion

theorem Standing.read (h : Standing wl below) : wl.dirent.read = some wl.dirent.obj := by
  rw [Dirent.read, if_neg h.not_freed]

theorem walkLevelDestroy_entry (h : d.owner = .entry ref) (depth : ℕ) :
    walkLevelDestroy depth d = d := by
  rw [walkLevelDestroy, Dirent.free, h]
  simp

/-- The levels `wl' :: below'` go on where the first component of `wl` has been resolved and
the components `rest` are left. -/
structure Unwound (c : Codec) (store : Blobref → Option Bytes) (flags : Flags)
    (hop : Blobref → String → Hop) (wl : WalkLevel) (below : List WalkLevel) (rest : List String)
    (wl' : WalkLevel) (below' : List WalkLevel) : Prop where
  standing : Standing wl' below'
  finish : finish c store flags hop wl' below'
    = passOn c store flags hop (levelResolve c store flags hop wl rest wl.dirent.obj) below
  owner : wl'.dirent.owner = wl.dirent.owner
  bottom : ∀ r, (∀ l ∈ wl :: below, l.depth = 0 → l.rootRef = r) →
    ∀ l ∈ wl' :: below', l.depth = 0 → l.rootRef = r

section Unwind

variable {wl : WalkLevel}

section

variable (hnames : wl.pathcomps = name :: rest) (hdepth : wl.depth = below.length)
  (hlimit : wl.depth ≤ symlinkCycleLimit) (hstacked : Stacked below)
include hnames hdepth hlimit hstacked

theorem unwound_stay (hstay : rest ≠ [] ∨ below = [])
    (howner : wl.dirent.owner = .rootDirent wl.depth ∨ wl.dirent.owner = .tmpDirent wl.depth ∨
      ∃ ref, wl.dirent.owner = .entry ref)
    (hroot : wl.dirent.owner = .rootDirent wl.depth → wl.dirent.obj = .dirref [wl.rootRef]) :
    Unwound c store flags hop wl below rest { wl with pathcomps := wl.pathcomps.tail } below := by
  have htail : wl.pathcomps.tail = rest := by rw [hnames, tail_cons]
  rw [htail]
  constructor
  case standing => exact ⟨hdepth, hlimit, fun hne => hstay.resolve_right hne, hstacked, howner, hroot⟩
  case finish => rfl
  case owner => rfl
  case bottom =>
    intro r h
    rw [forall_mem_cons] at h ⊢
    exact h

theorem unwind_entry (hent : wl.dirent.owner = .entry ref) :
    ∃ wl' below', unwind wl below = wl' :: below' ∧
      Unwound c store flags hop wl below rest wl' below' := by
  have hroot : wl.dirent.owner = .rootDirent wl.depth → wl.dirent.obj = .dirref [wl.rootRef] := by
    rw [hent]
    exact Owner.noConfusion
  induction below generalizing wl name rest with
  | nil =>
    exact ⟨_, _, rfl, unwound_stay hnames hdepth hlimit hstacked (.inr rfl)
      (.inr (.inr ⟨ref, hent⟩)) hroot⟩
  | cons p below ih =>
    rw [unwind]
    split
    · rename_i hlast
      have hrest : rest = [] := by
        rw [hnames] at hlast
        simpa using hlast.1
      subst hrest
      obtain ⟨hpdepth, hpnames, hpstacked⟩ := hstacked
      obtain ⟨name', rest', hp⟩ := exists_cons_of_ne_nil hpnames
      have hplimit : p.depth ≤ symlinkCycleLimit := by
        rw [length_cons] at hdepth
        omega
      rw [walkLevelDestroy_entry hent]
      have hpnotroot : wl.dirent.owner = .rootDirent p.depth →
          wl.dirent.obj = .dirref [p.rootRef] := by
        rw [hent]
        exact Owner.noConfusion
      have hpar : ∃ wl' below', unwind { p with dirent := wl.dirent } below = wl' :: below' ∧
          Unwound c store flags hop { p with dirent := wl.dirent } below rest' wl' below' :=
        ih hp hpdepth hplimit hpstacked hent hpnotroot
      obtain ⟨wl', below', hunwind, hst, hfin, hown, hbot⟩ := hpar
      refine ⟨wl', below', hunwind, hst, ?_, hown, fun r h => hbot r ?_⟩
      · have hptail : p.pathcomps.tail = rest' := by rw [hp, tail_cons]
        rw [hfin, levelResolve, levelResolve, resolveFrom, passOn, hptail]
        rfl
      · rw [forall_mem_cons] at h ⊢
        obtain ⟨-, h⟩ := h
        rw [forall_mem_cons] at h
        exact h
    · rename_i hmore
      have hstay : rest ≠ [] := by
        intro hrest
        rw [hnames, hrest] at hmore
        refine hmore ⟨rfl, ?_⟩
        rw [hdepth]
        exact Nat.succ_ne_zero _
      exact ⟨_, _, rfl, unwound_stay hnames hdepth hlimit hstacked (.inl hstay)
        (.inr (.inr ⟨ref, hent⟩)) hroot⟩

theorem unwind_root (hstay : rest ≠ [] ∨ below = [])
    (howner : wl.dirent.owner = .rootDirent wl.depth ∨ wl.dirent.owner = .tmpDirent wl.depth)
    (hroot : wl.dirent.owner = .rootDirent wl.depth → wl.dirent.obj = .dirref [wl.rootRef]) :
    ∃ wl' below', unwind wl below = wl' :: below' ∧
      Unwound c store flags hop wl below rest wl' below' := by
  have howner' : wl.dirent.owner = .rootDirent wl.depth ∨ wl.dirent.owner = .tmpDirent wl.depth ∨
      ∃ ref, wl.dirent.owner = .entry ref :=
    howner.elim .inl fun h => .inr (.inl h)
  refine ⟨_, _, ?_, unwound_stay hnames hdepth hlimit hstacked hstay howner' hroot⟩
  cases below with
  | nil => rfl
  | cons p below =>
    have hrest : rest ≠ [] := hstay.resolve_right (cons_ne_nil p below)
    rw [unwind, if_neg]
    rw [hnames]
    exact fun h => hrest (by simpa using h.1)

end

end Unwind

/-! ### The turns of the loop -/

theorem components_ne_nil (path : String) : components path ≠ [] := by
  simp [components, splitOn_ne_nil]

theorem dirOf_eq_none (h : ∀ dir, o = some (.dir dir) → False) : dirOf o = none := by
  unfold dirOf
  split
  · exact (h _ rfl).elim
  · rfl

theorem storeDir_of_consistent (h : Consistent store cache) (he : cache ref = some entry)
    (hvalid : entry.valid = true) :
    storeDir c store ref = some (dirOf (cacheEntryGetTreeobj c.toCodec entry)) := by
  rw [storeDir, h ref entry he hvalid, map_some, cacheEntryGetTreeobj, hvalid]
  cases hemp : entry.data.isEmpty <;> simp

/-- Where links lead with the namespaces of a table. -/
def tableHop (krm : KvsrootMgr) (cred : Cred) (rootRef : Blobref) (target : String) : Hop :=
  match symlinkNamespace krm cred target with
  | .error e => .error e
  | .loadMissingNamespace _ => .outside
  | .finished none => .follow rootRef target
  | .finished (some (root, path)) => .follow root.ref path

/-- The links that `hop` can follow lead where they lead with the table. -/
def Follows (hop : Blobref → String → Hop) (krm : KvsrootMgr) (cred : Cred) : Prop :=
  ∀ rootRef target, hop rootRef target = .outside ∨
    hop rootRef target = tableHop krm cred rootRef target

theorem plainHop_follows (krm : KvsrootMgr) (cred : Cred) : Follows plainHop krm cred := by
  intro rootRef target
  rw [plainHop, tableHop, symlinkNamespace]
  cases kvsNamespacePrefix target with
  | error e => exact .inl rfl
  | ok o =>
    cases o with
    | none => exact .inr rfl
    | some p => exact .inl rfl

/-- The levels resolve the path of a lookup from the root `r`, with the result `E`. -/
structure Walks (c : Codec) (store : Blobref → Option Bytes) (flags : Flags)
    (hop : Blobref → String → Hop) (r : Blobref) (E : Resolved) (wl : WalkLevel)
    (below : List WalkLevel) : Prop where
  standing : Standing wl below
  bottom : ∀ l ∈ wl :: below, l.depth = 0 → l.rootRef = r
  bad : storeDir c store r = some none →
    E = .error .EINVAL ∧ wl.pathcomps ≠ [] ∧ wl.depth = 0 ∧ wl.dirent.owner = .rootDirent 0
  good : storeDir c store r ≠ some none → finish c store flags hop wl below = E

/-- What a turn of the loop may do if the resolution ends with `E`. -/
inductive TurnSpec (c : Codec) (store : Blobref → Option Bytes) (flags : Flags)
    (hop : Blobref → String → Hop) (r : Blobref) (E : Resolved) (lh : Handle) : Turn → Prop
  | again {wl : WalkLevel} {below : List WalkLevel} (h : Walks c store flags hop r E wl below) :
      TurnSpec c store flags hop r E lh (.again (wl :: below))
  | found {d : Dirent} (hd : d.owner ≠ .freed) (hE : E = .found d.obj) :
      TurnSpec c store flags hop r E lh (.ret { lh with wdirent := some d } .finished)
  | absent (hE : E = .absent) : TurnSpec c store flags hop r E lh (.ret lh .finished)
  | error {e : Errno} (hE : E = .error e) : TurnSpec c store flags hop r E lh (walkError lh e)
  | stalled (ref : Blobref) :
      TurnSpec c store flags hop r E lh (.ret { lh with missingRef := some ref } .loadMissingRefs)

section Turn

variable {lh : Handle}

section

variable (h : Walks c store flags hop r E wl below) (hgood : storeDir c store r ≠ some none)
include h hgood

theorem Walks.ends (hR : levelResolve c store flags hop wl wl.pathcomps wl.dirent.obj = R)
    (hne : ∀ o, R ≠ .found o) : E = R := by
  rw [← h.good hgood, finish, hR, passOn_of_ne_found c store flags hop hne]

theorem Walks.unwound
    (hR : levelResolve c store flags hop wl wl.pathcomps wl.dirent.obj
      = levelResolve c store flags hop wl rest d.obj)
    (hunwind : ∃ wl' below', unwind { wl with dirent := d } below = wl' :: below' ∧
      Unwound c store flags hop { wl with dirent := d } below rest wl' below') :
    TurnSpec c store flags hop r E lh (.again (unwind { wl with dirent := d } below)) := by
  obtain ⟨wl', below', heq, hu⟩ := hunwind
  rw [heq]
  refine .again ⟨hu.standing, hu.bottom r ?_, fun hbad => absurd hbad hgood, fun _ => ?_⟩
  · have hbottom := h.bottom
    rw [forall_mem_cons] at hbottom ⊢
    exact hbottom
  · rw [hu.finish, ← h.good hgood, finish, hR]
    rfl

theorem Walks.entry (hnames : wl.pathcomps = name :: rest)
    (hR : levelResolve c store flags hop wl wl.pathcomps wl.dirent.obj
      = levelResolve c store flags hop wl rest o) :
    TurnSpec c store flags hop r E lh
      (.again (unwind { wl with dirent := ⟨o, .entry ref⟩ } below)) :=
  h.unwound hgood hR
    (unwind_entry hnames h.standing.depth h.standing.limit h.standing.stacked rfl)

end

/-- A symbolic link is followed to `path` from the root `ref'`: the path is the root itself,
which `owner` owns, or a new level is pushed. -/
theorem Walks.follow (h : Walks c store flags hop r E wl below) (lh : Handle)
    (hgood : storeDir c store r ≠ some none) (hnames : wl.pathcomps = name :: rest)
    (hlimit : wl.depth ≠ symlinkCycleLimit) (hdangling : E ≠ .dangling)
    (howner : owner = .rootDirent wl.depth ∧ ref' = wl.rootRef ∨ owner = .tmpDirent wl.depth)
    (hR : levelResolve c store flags hop wl wl.pathcomps wl.dirent.obj
      = if path = "." then
          if (decide (wl.depth ≠ 0)) = true ∧ rest = [] then .dangling
          else levelResolve c store flags hop wl rest (.dirref [ref'])
        else
          match resolve c store flags hop (symlinkCycleLimit - (wl.depth + 1)) true ref'
            (components path) (.dirref [ref']) with
          | .found o => levelResolve c store flags hop wl rest o
          | R => R) :
    TurnSpec c store flags hop r E lh
      (if path = "." then .again (unwind { wl with dirent := ⟨.dirref [ref'], owner⟩ } below)
        else .again (walkLevelCreate ref' path (wl.depth + 1) :: { wl with dirent := d } :: below)) := by
  have hst := h.standing
  by_cases hpath : path = "."
  · rw [if_pos hpath] at hR ⊢
    have hstay : rest ≠ [] ∨ below = [] := by
      by_contra hno
      push Not at hno
      obtain ⟨hrest, hbel⟩ := hno
      have hdepth : wl.depth ≠ 0 := by
        rw [hst.depth, ne_eq, length_eq_zero_iff]
        exact hbel
      rw [if_pos ⟨decide_eq_true hdepth, hrest⟩] at hR
      exact hdangling (h.ends hgood hR fun o => Resolved.noConfusion)
    have hinner : ¬ ((decide (wl.depth ≠ 0)) = true ∧ rest = []) := by
      rintro ⟨hdepth, hrest⟩
      rw [decide_eq_true_eq, hst.depth, ne_eq, length_eq_zero_iff] at hdepth
      exact hstay.elim (fun hne => hne hrest) hdepth
    rw [if_neg hinner] at hR
    refine h.unwound hgood hR (unwind_root hnames hst.depth hst.limit hst.stacked hstay ?_ ?_)
    · exact howner.imp And.left id
    · intro how
      rcases howner with ⟨-, heq⟩ | heq
      · rw [heq]
      · exact absurd (heq.symm.trans how) Owner.noConfusion
  · rw [if_neg hpath] at hR ⊢
    have hlt : wl.depth + 1 ≤ symlinkCycleLimit := lt_of_le_of_ne hst.limit hlimit
    refine .again ⟨⟨?_, hlt, ?_, ?_, .inl rfl, fun _ => rfl⟩, ?_, fun hbad => absurd hbad hgood,
      fun _ => ?_⟩
    · change wl.depth + 1 = below.length + 1
      rw [hst.depth]
    · exact fun _ => components_ne_nil path
    · exact ⟨hst.depth, by simp [hnames], hst.stacked⟩
    · rw [forall_mem_cons, forall_mem_cons]
      have hbottom := h.bottom
      rw [forall_mem_cons] at hbottom
      exact ⟨fun h0 => absurd h0 (Nat.succ_ne_zero _), hbottom⟩
    · rw [← h.good hgood, finish, finish, hR]
      have hlevel : levelResolve c store flags hop (walkLevelCreate ref' path (wl.depth + 1))
          (components path) (.dirref [ref'])
            = resolve c store flags hop (symlinkCycleLimit - (wl.depth + 1)) true ref'
              (components path) (.dirref [ref']) := by
        rw [resolve_eq_resolveFrom c store flags hop hlt, levelResolve]
        simp [walkLevelCreate]
      change passOn c store flags hop (levelResolve c store flags hop
        (walkLevelCreate ref' path (wl.depth + 1)) (components path) (.dirref [ref'])) _ = _
      rw [hlevel]
      cases hres : resolve c store flags hop (symlinkCycleLimit - (wl.depth + 1)) true ref'
          (components path) (.dirref [ref']) with
      | found o =>
        rw [passOn]
        change passOn c store flags hop (levelResolve c store flags hop wl wl.pathcomps.tail o)
          below = _
        rw [hnames, tail_cons]
      | _ => exact (passOn_of_ne_found c store flags hop (fun o => Resolved.noConfusion) below).symm

theorem levelResolve_symlink (hdir : storeDir c store ref = some (some dir))
    (hget : dir.get name = some (.symlink target)) :
    levelResolve c store flags hop wl (name :: rest) (.dirref [ref])
      = if rest ≠ [] ∨ flags.follow = true then
          match nestedAt c store flags hop wl.depth with
          | none => .error .ELOOP
          | some follow =>
            match hop wl.rootRef target with
            | .error e => .error e
            | .outside => .outside
            | .follow ref path =>
              if path = "." then
                if (decide (wl.depth ≠ 0)) = true ∧ rest = [] then .dangling
                else levelResolve c store flags hop wl rest (.dirref [ref])
              else
                match follow ref (components path) with
                | .found o => levelResolve c store flags hop wl rest o
                | R => R
        else levelResolve c store flags hop wl rest (.symlink target) := by
  rw [levelResolve, resolveFrom, hdir]
  simp only [hget]
  rfl

section

variable (h : Walks c store flags hop r E wl below) (hgood : storeDir c store r ≠ some none)
  (hnames : wl.pathcomps = name :: rest) (hflags : lh.flags = flags)
  (hhop : Follows hop krm lh.cred) (houtside : E ≠ .outside) (hdangling : E ≠ .dangling)
include h hgood hnames hflags hhop houtside hdangling

theorem Walks.symlink (hobj : wl.dirent.obj = .dirref [ref])
    (hdir : storeDir c store ref = some (some dir))
    (hget : dir.get name = some (.symlink target)) :
    TurnSpec c store flags hop r E lh (walkDir krm lh wl below name ref dir) := by
  have hR : levelResolve c store flags hop wl wl.pathcomps wl.dirent.obj
      = levelResolve c store flags hop wl (name :: rest) (.dirref [ref]) := by rw [hnames, hobj]
  have hcond : (1 < wl.pathcomps.length ∨ (!lh.flags.readlink && !lh.flags.treeobj) = true) ↔
      (rest ≠ [] ∨ flags.follow = true) := by
    rw [hnames, hflags, length_cons, ne_eq, ← length_eq_zero_iff, Flags.follow]
    exact or_congr (by omega) Iff.rfl
  have hlink := hR.trans (levelResolve_symlink hdir hget)
  rw [walkDir, hget]
  dsimp only
  by_cases hfol : rest ≠ [] ∨ flags.follow = true
  · rw [walkSymlink, if_pos (hcond.2 hfol)]
    rw [if_pos hfol] at hlink
    by_cases hlimit : wl.depth = symlinkCycleLimit
    · rw [if_pos hlimit]
      rw [nestedAt, if_pos hlimit] at hlink
      exact .error (h.ends hgood hlink fun o => Resolved.noConfusion)
    rw [if_neg hlimit]
    rw [nestedAt, if_neg hlimit] at hlink
    rcases hhop wl.rootRef target with hout | htab
    · rw [hout] at hlink
      exact absurd (h.ends hgood hlink fun o => Resolved.noConfusion) houtside
    rw [htab, tableHop] at hlink
    cases hns : symlinkNamespace krm lh.cred target with
    | error e =>
      rw [hns] at hlink
      exact .error (h.ends hgood hlink fun o => Resolved.noConfusion)
    | loadMissingNamespace ns =>
      rw [hns] at hlink
      exact absurd (h.ends hgood hlink fun o => Resolved.noConfusion) houtside
    | finished o =>
      cases o with
      | none =>
        rw [hns] at hlink
        have hspec := h.follow lh hgood hnames hlimit hdangling
          (.inl ⟨rfl, rfl⟩) (d := ⟨.symlink target, .entry ref⟩) hlink
        dsimp only
        split_ifs at hspec ⊢ <;> exact hspec
      | some p =>
        rw [hns] at hlink
        have hspec := h.follow lh hgood hnames hlimit hdangling
          (.inr rfl) (d := ⟨.symlink target, .entry ref⟩) hlink
        dsimp only
        split_ifs at hspec ⊢ <;> exact hspec
  · rw [walkSymlink, if_neg (fun hc => hfol (hcond.1 hc))]
    rw [if_neg hfol] at hlink
    exact h.entry hgood hnames hlink

theorem Walks.dir {ref : Blobref} {dir : Dir Empty} (hobj : wl.dirent.obj = .dirref [ref])
    (hdir : storeDir c store ref = some (some dir)) :
    TurnSpec c store flags hop r E lh (walkDir krm lh wl below name ref dir) := by
  have hR : levelResolve c store flags hop wl wl.pathcomps wl.dirent.obj
      = levelResolve c store flags hop wl (name :: rest) (.dirref [ref]) := by rw [hnames, hobj]
  cases hget : dir.get name with
  | none =>
    have hlink : levelResolve c store flags hop wl (name :: rest) (.dirref [ref]) = .absent := by
      rw [levelResolve, resolveFrom, hdir]
      simp only [hget]
    rw [walkDir, hget]
    exact .absent (h.ends hgood (hR.trans hlink) fun o => Resolved.noConfusion)
  | some o =>
    by_cases hsym : ∃ target, o = .symlink target
    · obtain ⟨target, rfl⟩ := hsym
      exact h.symlink hgood hnames hflags hhop houtside hdangling hobj hdir hget
    have hlink : levelResolve c store flags hop wl (name :: rest) (.dirref [ref])
        = levelResolve c store flags hop wl rest o := by
      rw [levelResolve, resolveFrom, hdir]
      cases o with
      | symlink target => exact absurd ⟨target, rfl⟩ hsym
      | _ =>
        simp only [hget]
        rfl
    have htn : walkDir krm lh wl below name ref dir
        = .again (unwind { wl with dirent := ⟨o, .entry ref⟩ } below) := by
      rw [walkDir]
      cases o with
      | symlink target => exact absurd ⟨target, rfl⟩ hsym
      | _ => simp only [hget]
    rw [htn]
    exact h.entry hgood hnames (hR.trans hlink)

end

theorem Walks.bad_obj (h : Walks c store flags hop r E wl below)
    (hbad : storeDir c store r = some none) : wl.dirent.obj = .dirref [r] := by
  obtain ⟨-, -, hdepth, howner⟩ := h.bad hbad
  rw [h.standing.root (by rw [hdepth]; exact howner), h.bottom wl mem_cons_self hdepth]

/-- **A turn of the loop** goes on with the resolution, or stops with its result. -/
theorem Walks.turn (h : Walks c store flags hop r E wl below) (hca : Consistent store cache)
    (hflags : lh.flags = flags) (hhop : Follows hop krm lh.cred) (houtside : E ≠ .outside)
    (hdangling : E ≠ .dangling) : Consistent store (walkTurn c krm cache lh wl below).1 ∧
      TurnSpec c store flags hop r E lh (walkTurn c krm cache lh wl below).2 := by
  have hst := h.standing
  unfold walkTurn
  split
  · rename_i hnil
    refine ⟨hca, .found hst.not_freed ?_⟩
    have hbel : below = [] := by
      by_contra hne
      exact hst.names hne hnil
    have hgood : storeDir c store r ≠ some none := fun hbad => (h.bad hbad).2.1 hnil
    rw [← h.good hgood, finish, hnil, hbel, levelResolve, resolveFrom, passOn]
    exact fun wl below => by simp
  · rename_i name rest hnames
    rw [hst.read]
    have hgood : wl.dirent.obj ≠ .dirref [r] → storeDir c store r ≠ some none := by
      intro hne hbad
      exact hne (h.bad_obj hbad)
    dsimp only
    split
    · rename_i heq
      cases heq
    · rename_i ref heq
      have hobj : wl.dirent.obj = .dirref [ref] := some.inj heq
      have hca' := hca.cacheLookup ref lh.currentEpoch
      split
      · exact ⟨hca', .stalled ref⟩
      rename_i entry hent
      split
      · exact ⟨hca', .stalled ref⟩
      rename_i hvalid
      have hdir := storeDir_of_consistent (c := c) hca' hent (by simpa using hvalid)
      split
      · rename_i dir hget
        rw [hget] at hdir
        have hgood : storeDir c store r ≠ some none := by
          intro hbad
          have hrefs := h.bad_obj hbad
          rw [hobj] at hrefs
          cases hrefs
          rw [hdir] at hbad
          cases hbad
        exact ⟨hca', h.dir hgood hnames hflags hhop houtside hdangling hobj hdir⟩
      · rename_i hnot
        rw [dirOf_eq_none hnot] at hdir
        split
        · rename_i hroot
          have href : ref = r := by
            have hroot' := hst.root (by rw [hroot.1]; exact hroot.2)
            rw [hobj, h.bottom wl mem_cons_self hroot.1] at hroot'
            cases hroot'
            rfl
          exact ⟨hca', .error (h.bad (href ▸ hdir)).1⟩
        · rename_i hroot
          have hgood : storeDir c store r ≠ some none := fun hbad => hroot (h.bad hbad).2.2
          refine ⟨hca', .error (h.ends hgood ?_ fun o => Resolved.noConfusion)⟩
          rw [hnames, hobj, levelResolve, resolveFrom, hdir]
    · rename_i data heq
      have hobj : wl.dirent.obj = .val data := some.inj heq
      refine ⟨hca, .absent (h.ends (hgood ?_) ?_ fun o => Resolved.noConfusion)⟩
      · simp [hobj]
      · rw [hnames, hobj, levelResolve, resolveFrom]
    · rename_i refs heq
      have hobj : wl.dirent.obj = .valref refs := some.inj heq
      refine ⟨hca, .absent (h.ends (hgood ?_) ?_ fun o => Resolved.noConfusion)⟩
      · simp [hobj]
      · rw [hnames, hobj, levelResolve, resolveFrom]
    · rename_i o hdirref hval hvalref heq
      have hobj : wl.dirent.obj = o := some.inj heq
      refine ⟨hca, .error (h.ends (hgood ?_) ?_ fun o => Resolved.noConfusion)⟩
      · rw [hobj]
        exact hdirref r
      · rw [hnames, hobj, levelResolve, resolveFrom]
        · exact hdirref
        · exact hval
        · exact hvalref

end Turn

/-! ### The walk -/

/-- How a call of `walk` may return if the resolution ends with `E`. -/
inductive WalkSpec (c : Codec) (store : Blobref → Option Bytes) (flags : Flags)
    (hop : Blobref → String → Hop) (r : Blobref) (E : Resolved) (lh : Handle) :
    Handle → Process → Prop
  | found {levels : List WalkLevel} {d : Dirent} (hd : d.owner ≠ .freed) (hE : E = .found d.obj) :
      WalkSpec c store flags hop r E lh { lh with levels := levels, wdirent := some d } .finished
  | absent {levels : List WalkLevel} (hE : E = .absent) :
      WalkSpec c store flags hop r E lh { lh with levels := levels } .finished
  | error {levels : List WalkLevel} {e : Errno} (hE : E = .error e) :
      WalkSpec c store flags hop r E lh
        { lh with levels := levels, errnum := some e, wdirent := none } .error
  | stalled {wl : WalkLevel} {below : List WalkLevel} {ref : Blobref}
      (h : Walks c store flags hop r E wl below) : WalkSpec c store flags hop r E lh
        { lh with levels := wl :: below, missingRef := some ref } .loadMissingRefs

/-- **The walk computes the resolution**: it does not read freed memory, and it returns with
the result of the resolution or stalls. -/
theorem Walks.walk (h : Walks c store flags hop r E wl below) (hlvs : lh.levels = wl :: below)
    (hca : Consistent store cache) (hflags : lh.flags = flags) (hhop : Follows hop krm lh.cred)
    (houtside : E ≠ .outside) (hdangling : E ≠ .dangling) (turns : ℕ) :
    Lookup.walk c krm turns cache lh = .running ∨
      ∃ ret, Lookup.walk c krm turns cache lh = .ok ret ∧ Consistent store ret.cache ∧
        WalkSpec c store flags hop r E lh ret.lh ret.result := by
  induction turns generalizing cache lh wl below with
  | zero => exact .inl rfl
  | succ turns ih =>
    rw [Lookup.walk, hlvs]
    dsimp only
    obtain ⟨hca', htn⟩ := h.turn hca hflags hhop houtside hdangling
    generalize walkTurn c krm cache lh wl below = turn at hca' htn ⊢
    obtain ⟨cache', turn⟩ := turn
    cases htn with
    | @again wl' below' h' =>
      have hnext : Lookup.walk c krm turns cache' { lh with levels := wl' :: below' } = .running ∨
          ∃ ret, Lookup.walk c krm turns cache' { lh with levels := wl' :: below' } = .ok ret ∧
            Consistent store ret.cache ∧
            WalkSpec c store flags hop r E { lh with levels := wl' :: below' } ret.lh
              ret.result :=
        ih h' rfl hca' hflags hhop
      rcases hnext with hrun | ⟨⟨cache₂, lh₂, result⟩, hret, hc, hspec⟩
      · exact .inl hrun
      refine .inr ⟨_, hret, hc, ?_⟩
      cases hspec with
      | found hd hE => exact .found hd hE
      | absent hE => exact .absent hE
      | error hE => exact .error hE
      | stalled h'' => exact .stalled h''
    | found hd hE => exact .inr ⟨_, rfl, hca', .found hd hE⟩
    | absent hE => exact .inr ⟨_, rfl, hca', .absent hE⟩
    | error hE => exact .inr ⟨_, rfl, hca', .error hE⟩
    | stalled ref =>
      refine .inr ⟨_, rfl, hca', ?_⟩
      have hsame : ({ lh with missingRef := some ref } : Handle)
          = { lh with levels := wl :: below, missingRef := some ref } := by rw [← hlvs]
      rw [hsame]
      exact .stalled h

end FluxCore.Kvs.Lookup
