import FluxCore.Kvs.Rfc11
import FluxCore.Kvs.Walk

/-!
# Chains of Symbolic Links

`kvstxn_link_dirent` follows a symbolic link by calling itself with the key that the link leads
to, and does not count the links. A walk that meets a link has only expanded references to
directories on its way, so that every key leads to the same key as before (`Walks.target`). The
call therefore returns exactly if the chain of keys that starts with the given one, in the tree
as it is before the call, comes to an end (`link_terminates_iff`).
-/

namespace FluxCore.Kvs

open Option

variable {ρ : Type} (c : Codec) (ns : String)

/-- The directory in the cache entry of a reference. -/
def cachedDir (cache : Cache) (ref : Blobref) : Option (Dir Empty) :=
  match (cache ref).bind (cacheEntryGetTreeobj c) with
  | some (.dir sub) => some sub
  | _ => none

/-- The key that the first symbolic link on the way down the components `names` leads to. -/
def linkTarget (w : Mem ρ) : List String → Dir ρ → Option String
  | name :: next :: names, dir =>
    match dir.get name with
    | some (.dir sub) => linkTarget w (next :: names) sub
    | some (.held i) => linkTarget w (next :: names) (w.objs i)
    | some (.dirref [ref]) =>
      (cachedDir c w.cache ref).bind fun sub => linkTarget w (next :: names) sub.copy
    | some (.symlink target) =>
      match checkCrossNamespace ns target with
      | .ok suffix => some (suffix.getD target ++ "." ++ joinComponents (next :: names))
      | .error _ => none
    | _ => none
  | _, _ => none

/-- The key that a key leads to, if there is a symbolic link on its way. -/
def nextKey (root : Treeobj ρ) (w : Mem ρ) (key : String) : Option String :=
  match checkCrossNamespace ns key with
  | .error _ => none
  | .ok suffix =>
    if kvsUtilNormalizeKey (suffix.getD key) = "." then none
    else
      match root with
      | .dir dir => linkTarget c ns w (components (kvsUtilNormalizeKey (suffix.getD key))) dir
      | _ => none

/-- The key after `n` symbolic links. -/
def followed (root : Treeobj ρ) (w : Mem ρ) : ℕ → String → Option String
  | 0, key => some key
  | n + 1, key => (nextKey c ns root w key).bind (followed root w n)

/-- The call returns: some size of the stack is enough for it. -/
def Terminates [DecidableEq ρ] (epoch : ℕ) (op : Op ρ) (key : String) (root : Treeobj ρ)
    (w : Work ρ) : Prop :=
  ∃ stack, (kvstxnLinkDirent c epoch ns op stack key root w).2.2 ≠ .fail .crash

/-- Every key leads to the same in two directories. -/
def Alike (w : Mem ρ) (dir dir' : Dir ρ) : Prop :=
  ∀ names, linkTarget c ns w names dir' = linkTarget c ns w names dir

/-- The directories in the cache are the same, and those of the operations alike. -/
structure Similar (w w' : Mem ρ) : Prop where
  cache : ∀ ref, cachedDir c w'.cache ref = cachedDir c w.cache ref
  objs : ∀ i, Alike c ns w (w.objs i) (w'.objs i)

variable {c ns} {w w' w'' : Mem ρ} {dir sub : Dir ρ} {name next : String} {names : List String}

/-! ### Similar memories -/

theorem Similar.target (h : Similar c ns w w') (names : List String) (dir : Dir ρ) :
    linkTarget c ns w' names dir = linkTarget c ns w names dir := by
  match names with
  | [] => rfl
  | [_] => rfl
  | name :: next :: names =>
    have ih := h.target (next :: names)
    rw [linkTarget, linkTarget]
    split
    case h_1 sub _ => exact ih sub
    case h_2 i _ => exact (ih (w'.objs i)).trans (h.objs i _)
    case h_3 ref _ => simp only [h.cache, ih]
    case h_4 => rfl
    case h_5 => rfl

theorem Similar.refl (w : Mem ρ) : Similar c ns w w := ⟨fun _ => rfl, fun _ _ => rfl⟩

theorem Similar.trans (h : Similar c ns w w') (h' : Similar c ns w' w'') :
    Similar c ns w w'' := by
  refine ⟨fun ref => (h'.cache ref).trans (h.cache ref), fun i names => ?_⟩
  calc linkTarget c ns w names (w''.objs i)
      = linkTarget c ns w' names (w''.objs i) := (h.target names _).symm
    _ = linkTarget c ns w' names (w'.objs i) := h'.objs i names
    _ = linkTarget c ns w names (w'.objs i) := h.target names _
    _ = linkTarget c ns w names (w.objs i) := h.objs i names

theorem cachedDir_lookup (cache : Cache) (ref r : Blobref) (epoch : ℕ) :
    cachedDir c (cacheLookup cache ref epoch) r = cachedDir c cache r := by
  have hdata := cacheLookup_data cache ref r epoch
  have hbind : (cacheLookup cache ref epoch r).bind (cacheEntryGetTreeobj c)
      = (cache r).bind (cacheEntryGetTreeobj c) := by
    cases h : cacheLookup cache ref epoch r <;> cases h' : cache r <;>
      simp_all [cacheEntryGetTreeobj]
  rw [cachedDir, cachedDir, hbind]

variable (c ns) in
theorem similar_lookup (w : Work ρ) (ref : Blobref) (epoch : ℕ) :
    Similar c ns w.toMem (w.lookup epoch ref).toMem :=
  ⟨fun r => cachedDir_lookup w.cache ref r epoch, fun _ _ => rfl⟩

variable (c ns) in
theorem similar_enter (w : Work ρ) (i : ρ) : Similar c ns w.toMem (w.enter i).toMem :=
  ⟨fun _ => rfl, fun _ _ => rfl⟩

theorem Similar.write [DecidableEq ρ] {w' : Work ρ} (h : Similar c ns w w'.toMem) {i : ρ}
    (hsub : Alike c ns w (w.objs i) sub) : Similar c ns w (w'.write i sub).toMem := by
  refine ⟨h.cache, fun j => ?_⟩
  by_cases hj : j = i
  · subst hj
    rw [show (w'.write j sub).objs j = sub from Function.update_self ..]
    exact hsub
  · rw [show (w'.write i sub).objs j = w'.objs j from Function.update_of_ne hj ..]
    exact h.objs j

/-- A directory in which one entry is replaced by a directory that every key leads through in
the same way. -/
theorem alike_insert
    (h : ∀ next names, linkTarget c ns w (next :: names) sub
      = linkTarget c ns w (name :: next :: names) dir) :
    Alike c ns w dir (dir.insert name (.dir sub)) := by
  intro names
  match names with
  | [] => rfl
  | [_] => rfl
  | name' :: next :: names =>
    by_cases hname : name' = name
    · subst hname
      rw [linkTarget, Dir.get_insert, if_pos rfl]
      exact h next names
    · rw [linkTarget, linkTarget, Dir.get_insert, if_neg hname]

/-! ### The way of a key -/

theorem linkTarget_nil (names : List String) : linkTarget c ns w names (.nil : Dir ρ) = none := by
  match names with
  | [] => rfl
  | [_] => rfl
  | _ :: _ :: _ => rfl

theorem linkTarget_blank (h : dir.Blank name) :
    linkTarget c ns w (name :: next :: names) dir = none := by
  rcases h with h | ⟨_, h⟩ | ⟨_, h⟩ | h <;> simp only [linkTarget, h]

theorem linkTarget_dir (h : dir.get name = some (.dir sub)) :
    linkTarget c ns w (name :: next :: names) dir = linkTarget c ns w (next :: names) sub := by
  simp only [linkTarget, h]

theorem linkTarget_held (h : dir.get name = some (.held i)) :
    linkTarget c ns w (name :: next :: names) dir =
      linkTarget c ns w (next :: names) (w.objs i) := by
  simp only [linkTarget, h]

theorem linkTarget_ref (h : dir.get name = some (.dirref [ref])) :
    linkTarget c ns w (name :: next :: names) dir = (cachedDir c w.cache ref).bind
      fun sub => linkTarget c ns w (next :: names) sub.copy := by
  simp only [linkTarget, h]

variable (c ns) in
/-- What is known of a walk: it restarts exactly with the key that its own key leads to, and
then it has changed nothing that a key could lead through. -/
structure Targeted (names : List String) (dir : Dir ρ) (w : Mem ρ)
    (res : Dir ρ × Work ρ × Walk) : Prop where
  target : ∀ key, res.2.2 = .restart key ↔ linkTarget c ns w names dir = some key
  similar : ∀ key, res.2.2 = .restart key → Similar c ns w res.2.1.toMem ∧ Alike c ns w dir res.1

theorem Targeted.ended (hres : ∀ key, res.2.2 ≠ .restart key)
    (h : linkTarget c ns w names dir = none) : Targeted c ns names dir w res :=
  ⟨fun key => by simp [hres key, h], fun key hkey => absurd hkey (hres key)⟩

theorem followed_congr (h : ∀ key, nextKey c ns root' w' key = nextKey c ns root w key) (n : ℕ)
    (key : String) : followed c ns root' w' n key = followed c ns root w n key := by
  induction n generalizing key with
  | zero => rfl
  | succ n ih => rw [followed, followed, h, funext ih]

variable [DecidableEq ρ] {epoch : ℕ} {op : Op ρ}

/-- **A walk goes the way of its key.** -/
theorem Walks.target {w : Work ρ} {res : Dir ρ × Work ρ × Walk}
    (h : Walks c epoch ns op names dir w res) : Targeted c ns names dir w.toMem res := by
  induction h with
  | nil | final _ | failed _ => exact .ended (by simp) rfl
  | skip hbl _ => exact .ended (by simp) (linkTarget_blank hbl)
  | create hbl _ _ ih =>
    refine .ended (fun key hkey => ?_) (linkTarget_blank hbl)
    have := (ih.target key).1 hkey
    rw [linkTarget_nil] at this
    cases this
  | dir hget _ ih =>
    refine ⟨fun key => (ih.target key).trans (by rw [linkTarget_dir hget]), fun key hkey => ?_⟩
    obtain ⟨hsim, halike⟩ := ih.similar key hkey
    refine ⟨hsim, alike_insert fun next names => ?_⟩
    rw [linkTarget_dir hget]
    exact halike _
  | @held _ _ _ _ w i _ _ _ hget _ ih =>
    have henter := similar_enter c ns w i
    refine ⟨fun key => (ih.target key).trans ?_, fun key hkey => ?_⟩
    · rw [linkTarget_held hget, henter.target]
    · obtain ⟨hsim, halike⟩ := ih.similar key hkey
      exact ⟨henter.trans (Similar.write hsim halike), fun _ => rfl⟩
  | @ref _ _ _ _ w ref entry sub _ _ _ hget hent _ hsub _ ih =>
    have hlk := similar_lookup c ns w ref epoch
    have hcad : cachedDir c w.cache ref = some sub := by
      rw [← hlk.cache, cachedDir, hent, bind_some, hsub]
    refine ⟨fun key => (ih.target key).trans ?_, fun key hkey => ?_⟩
    · rw [linkTarget_ref hget, hcad, hlk.target]
      rfl
    · obtain ⟨hsim, halike⟩ := ih.similar key hkey
      refine ⟨hlk.trans hsim, alike_insert fun next names => ?_⟩
      rw [linkTarget_ref hget, hcad, ← hlk.target]
      exact (halike _).trans (hlk.target _ _)
  | @refNonDir _ next names _ w ref entry o hget hent _ hsub hdir =>
    obtain ⟨e, he⟩ := linkNonDir_eq_error op (next :: names)
    refine .ended (by simp [he]) ?_
    rw [linkTarget_ref hget, ← (similar_lookup c ns w ref epoch).cache, cachedDir,
      hent, bind_some, hsub]
    cases o with
    | dir sub => exact absurd rfl (hdir sub)
    | _ => rfl
  | @absent _ _ _ _ w ref hget habs =>
    refine .ended (by simp) ?_
    rw [linkTarget_ref hget, ← (similar_lookup c ns w ref epoch).cache, cachedDir]
    cases h : (w.lookup epoch ref).cache ref <;> simp_all [Cache.getValid, cacheEntryGetTreeobj]
  | @undecodable _ _ _ _ w ref entry hget hent _ hsub =>
    refine .ended (by simp) ?_
    rw [linkTarget_ref hget, ← (similar_lookup c ns w ref epoch).cache, cachedDir,
      hent, bind_some, hsub]
    rfl
  | @multiref _ _ _ _ _ refs hget hrefs =>
    refine .ended (by simp) ?_
    rcases refs with _ | ⟨r, _ | ⟨r', refs⟩⟩
    · simp only [linkTarget, hget]
    · exact absurd rfl (hrefs r)
    · simp only [linkTarget, hget]
  | foreign hget hns => exact .ended (by simp) (by simp only [linkTarget, hget, hns])
  | restart hget hns =>
    refine ⟨fun key => ?_, fun _ _ => ⟨.refl _, fun _ => rfl⟩⟩
    simp only [linkTarget, hget, hns, Walk.restart.injEq, some.injEq]

/-! ### The chain of keys -/

theorem Links.crash_iff {stack : ℕ} {key : String} {root : Treeobj ρ} {w : Work ρ}
    {res : Treeobj ρ × Work ρ × Link} (h : Links c epoch ns op stack key root w res) :
    res.2.2 = .fail .crash ↔ (followed c ns root w.toMem stack key).isSome = true := by
  induction h with
  | crash => simp [followed]
  | foreign hns => simp [followed, nextKey, hns]
  | rootKey hns hdot => simp [followed, nextKey, hns, hdot]
  | nonDir hns hdot hroot he => simp_all [followed, nextKey]
  | @walked stack key dir w suffix dir' w' out link hns hdot hw hlink =>
    have hnone : linkTarget c ns w.toMem (components (kvsUtilNormalizeKey (suffix.getD key))) dir
        = none := by
      refine eq_none_iff_forall_ne_some.2 fun nkey hkey => ?_
      have := (hw.target.target nkey).2 hkey
      simp_all [Walk.toLink]
    have hlink : link ≠ .fail .crash := by
      cases out <;> simp_all [Walk.toLink] <;> grind
    simp [followed, nextKey, hns, hdot, hnone, hlink]
  | @restarted stack key dir w suffix dir' w' nkey r hns hdot hw _ ih =>
    obtain ⟨hsim, halike⟩ := hw.target.similar nkey rfl
    have hnext : ∀ key, nextKey c ns (.dir dir') w'.toMem key
        = nextKey c ns (.dir dir) w.toMem key := by
      intro key
      simp only [nextKey, hsim.target]
      split
      · rfl
      · rw [halike]
    rw [ih, followed_congr hnext, followed]
    simp only [nextKey, hns, hdot, if_false, (hw.target.target nkey).1 rfl, bind_some]

/-- **The call returns exactly if the chain of keys ends**: following the symbolic links from
the key on, in the tree before the call, leads to a key without a symbolic link on its way. -/
theorem link_terminates_iff (c : Codec) (ns : String) (epoch : ℕ) (op : Op ρ) (key : String)
    (root : Treeobj ρ) (w : Work ρ) : Terminates c ns epoch op key root w ↔
      ∃ n, followed c ns root w.toMem n key = none := by
  refine exists_congr fun stack => ?_
  rw [ne_eq, (kvstxnLinkDirent_links c epoch ns op stack key root w).crash_iff,
    not_isSome_iff_eq_none]

/-- A directory with a symbolic link to itself. -/
def selfLinked : Treeobj Empty := .dir (.cons "a" (.symlink "a") .nil)

/-- Memory before the first transaction. -/
def emptyWork : Work Empty := { cache := fun _ => none, objs := nofun, self := ⟨"primary", 0⟩ }

theorem followed_selfLinked (n : ℕ) :
    followed Rfc11.codec "primary" selfLinked emptyWork.toMem n "a.b" = some "a.b" := by
  induction n with
  | zero => rfl
  | succ n ih =>
    rw [followed, show nextKey Rfc11.codec "primary" selfLinked _ "a.b" = some "a.b" from rfl,
      Option.bind_some, ih]

/-- Below a symbolic link to itself nothing can be removed: the call does not return. -/
theorem not_terminates_selfLinked :
    ¬ Terminates Rfc11.codec "primary" 0 ⟨"a.b", 0, none⟩ "a.b" selfLinked emptyWork := by
  rintro ⟨stack, hstack⟩
  refine hstack ((kvstxnLinkDirent_links Rfc11.codec 0 "primary" _ stack "a.b" selfLinked
    emptyWork).crash_iff.2 ?_)
  rw [followed_selfLinked]
  rfl

end FluxCore.Kvs
