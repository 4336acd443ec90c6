import FluxCore.Kvs.Process

/-!
# Walks and Their Effects

A walk of `kvstxn_link_dirent` down a key takes one branch at each component. `Walks` is
the walk as a relation, with one rule for each branch, and proofs about walks are by
induction on it.

What a walk, an append or an unrolling does to memory is a sequence of effects: an entry of
the cache is marked as used, a blob is put into the cache, a directory object of an
operation is entered, and an object that has been entered is written. Whatever these four
effects keep is kept by `kvstxn_process`.
-/

namespace FluxCore.Kvs

variable {ρ : Type} [DecidableEq ρ] (c : Codec) (epoch : ℕ)

/-! ### The walk as a relation -/

/-- There is nothing under `name` that a walk could enter: it creates a directory there. -/
def Dir.Blank (dir : Dir ρ) (name : String) : Prop :=
  dir.get name = none ∨ (∃ data, dir.get name = some (.val data)) ∨
    (∃ refs, dir.get name = some (.valref refs)) ∨ dir.get name = some .invalid

/-- The entry of a reference, as `cache_lookup` returns it. -/
def Work.lookup (w : Work ρ) (ref : Blobref) : Work ρ :=
  { w with cache := cacheLookup w.cache ref epoch }

/-- A directory object of an operation is entered. -/
def Work.enter (w : Work ρ) (i : ρ) : Work ρ := { w with entered := i :: w.entered }

/-- A directory object of an operation is written. -/
def Work.write (w : Work ρ) (i : ρ) (dir : Dir ρ) : Work ρ :=
  { w with objs := Function.update w.objs i dir }

/-- **The walk down a key**, with one rule for each branch of the loop. -/
inductive Walks (ns : String) (op : Op ρ) :
    List String → Dir ρ → Work ρ → Dir ρ × Work ρ × Walk → Prop
  | nil {dir w} : Walks ns op [] dir w (dir, w, .success)
  | final {name dir w dir' w'} (h : linkFinal c epoch op name dir w = (dir', w', none)) :
      Walks ns op [name] dir w (dir', w', .success)
  | failed {name dir w dir' w' e} (h : linkFinal c epoch op name dir w = (dir', w', some e)) :
      Walks ns op [name] dir w (dir', w', .error e)
  | skip {name next names dir w} (hblank : dir.Blank name) (hop : op.dirent = none) :
      Walks ns op (name :: next :: names) dir w (dir, w, .success)
  | create {name next names dir w sub w' out} (hblank : dir.Blank name) (hop : op.dirent ≠ none)
      (h : Walks ns op (next :: names) .nil w (sub, w', out)) :
      Walks ns op (name :: next :: names) dir w (dir.insert name (.dir sub), w', out)
  | dir {name next names dir w sub sub' w' out} (hget : dir.get name = some (.dir sub))
      (h : Walks ns op (next :: names) sub w (sub', w', out)) :
      Walks ns op (name :: next :: names) dir w (dir.insert name (.dir sub'), w', out)
  | held {name next names dir w i sub w' out} (hget : dir.get name = some (.held i))
      (h : Walks ns op (next :: names) (w.objs i) (w.enter i) (sub, w', out)) :
      Walks ns op (name :: next :: names) dir w (dir, w'.write i sub, out)
  | ref {name next names dir w ref entry sub sub' w' out}
      (hget : dir.get name = some (.dirref [ref]))
      (hentry : (w.lookup epoch ref).cache ref = some entry) (hvalid : entry.valid = true)
      (hsub : cacheEntryGetTreeobj c entry = some (.dir sub))
      (h : Walks ns op (next :: names) sub.copy (w.lookup epoch ref) (sub', w', out)) :
      Walks ns op (name :: next :: names) dir w (dir.insert name (.dir sub'), w', out)
  | refNonDir {name next names dir w ref entry o}
      (hget : dir.get name = some (.dirref [ref]))
      (hentry : (w.lookup epoch ref).cache ref = some entry) (hvalid : entry.valid = true)
      (hsub : cacheEntryGetTreeobj c entry = some o) (hdir : ∀ sub, o ≠ .dir sub) :
      Walks ns op (name :: next :: names) dir w
        (dir.insert name o.copy, w.lookup epoch ref, linkNonDir op (next :: names))
  | absent {name next names dir w ref} (hget : dir.get name = some (.dirref [ref]))
      (habsent : (w.lookup epoch ref).cache.getValid ref = false) :
      Walks ns op (name :: next :: names) dir w (dir, w.lookup epoch ref, .stall ref)
  | undecodable {name next names dir w ref entry} (hget : dir.get name = some (.dirref [ref]))
      (hentry : (w.lookup epoch ref).cache ref = some entry) (hvalid : entry.valid = true)
      (hsub : cacheEntryGetTreeobj c entry = none) : Walks ns op (name :: next :: names) dir w
        (dir, w.lookup epoch ref, .error .ENOTRECOVERABLE)
  | multiref {name next names dir w refs} (hget : dir.get name = some (.dirref refs))
      (hrefs : ∀ ref, refs ≠ [ref]) :
      Walks ns op (name :: next :: names) dir w (dir, w, .error .ENOTRECOVERABLE)
  | foreign {name next names dir w target e} (hget : dir.get name = some (.symlink target))
      (hns : checkCrossNamespace ns target = .error e) :
      Walks ns op (name :: next :: names) dir w (dir, w, .error e)
  | restart {name next names dir w target suffix} (hget : dir.get name = some (.symlink target))
      (hns : checkCrossNamespace ns target = .ok suffix) :
      Walks ns op (name :: next :: names) dir w
        (dir, w, .restart (suffix.getD target ++ "." ++ joinComponents (next :: names)))

variable {c epoch} {ns : String} {op : Op ρ}

variable (c epoch ns op) in
theorem linkDir_walks (names : List String) (dir : Dir ρ) (w : Work ρ) :
    Walks c epoch ns op names dir w (linkDir c epoch ns op names dir w) := by
  match names with
  | [] => exact .nil
  | [name] =>
    rw [linkDir]
    cases h : linkFinal c epoch op name dir w with
    | mk dir' r =>
      obtain ⟨w', e⟩ := r
      cases e with
      | none => exact .final h
      | some e => exact .failed h
  | name :: next :: names =>
    have ih := linkDir_walks (next :: names)
    have hcre (hbl : dir.Blank name) : Walks c epoch ns op (name :: next :: names) dir w
          (if op.dirent.isNone then (dir, w, Walk.success) else
            (dir.insert name (.dir (linkDir c epoch ns op (next :: names) .nil w).1),
              (linkDir c epoch ns op (next :: names) .nil w).2)) := by
      cases hop : op.dirent with
      | none => exact .skip hbl hop
      | some o => exact .create hbl (by simp [hop]) (ih .nil w)
    rw [linkDir]
    split
    case h_1 hget => exact hcre (.inl hget)
    case h_2 sub hget => exact .dir hget (ih sub w)
    case h_3 i hget => exact .held hget (ih (w.objs i) (w.enter i))
    case h_4 ref hget =>
      dsimp only
      split
      case h_1 hnone =>
        have hnone : (w.lookup epoch ref).cache ref = none := hnone
        exact .absent hget (by rw [Cache.getValid, hnone])
      case h_2 entry hent =>
        have hent : (w.lookup epoch ref).cache ref = some entry := hent
        split
        case isTrue hval =>
          exact .absent hget (by rw [Cache.getValid, hent]; simpa using hval)
        case isFalse hval =>
          have hval : entry.valid = true := by simpa using hval
          split
          case h_1 hsub => exact .undecodable hget hent hval hsub
          case h_2 sub hsub => exact .ref hget hent hval hsub (ih _ _)
          case h_3 o hne hsub =>
            exact .refNonDir hget hent hval hsub hne
    case h_5 refs hne hget => exact .multiref hget hne
    case h_6 target hget =>
      split
      case h_1 e hns => exact .foreign hget hns
      case h_2 suffix hns => exact .restart hget hns
    case h_7 data hget => exact hcre (.inr (.inl ⟨data, hget⟩))
    case h_8 refs hget => exact hcre (.inr (.inr (.inl ⟨refs, hget⟩)))
    case h_9 hget => exact hcre (.inr (.inr (.inr hget)))

/-- What a walk that does not restart means for `kvstxn_link_dirent`. -/
def Walk.toLink : Walk → Option Link
  | .success => some .success
  | .stall ref => some (.stall ref)
  | .error e => some (.fail (.errno e))
  | .restart _ => none

variable (c epoch ns op) in
/-- **`kvstxn_link_dirent` as a relation**, with one rule for each way it goes. -/
inductive Links : ℕ → String → Treeobj ρ → Work ρ → Treeobj ρ × Work ρ × Link → Prop
  | crash {key root w} : Links 0 key root w (root, w, .fail .crash)
  | foreign {stack key root w e} (hns : checkCrossNamespace ns key = .error e) :
      Links (stack + 1) key root w (root, w, .fail (.errno e))
  | rootKey {stack key root w suffix} (hns : checkCrossNamespace ns key = .ok suffix)
      (hdot : kvsUtilNormalizeKey (suffix.getD key) = ".") :
      Links (stack + 1) key root w (root, w, .fail (.errno .EINVAL))
  | nonDir {stack key root w suffix} (hns : checkCrossNamespace ns key = .ok suffix)
      (hdot : kvsUtilNormalizeKey (suffix.getD key) ≠ ".") (hroot : ∀ dir, root ≠ .dir dir)
      {e : Errno}
      (he : linkNonDir op (components (kvsUtilNormalizeKey (suffix.getD key))) = .error e) :
      Links (stack + 1) key root w (root, w, .fail (.errno e))
  | walked {stack key dir w suffix dir' w' walk out} (hns : checkCrossNamespace ns key = .ok suffix)
      (hdot : kvsUtilNormalizeKey (suffix.getD key) ≠ ".")
      (h : Walks c epoch ns op (components (kvsUtilNormalizeKey (suffix.getD key))) dir w
        (dir', w', walk)) (hout : walk.toLink = some out) :
      Links (stack + 1) key (.dir dir) w (.dir dir', w', out)
  | restarted {stack key dir w suffix dir' w' nkey r}
      (hns : checkCrossNamespace ns key = .ok suffix)
      (hdot : kvsUtilNormalizeKey (suffix.getD key) ≠ ".")
      (h : Walks c epoch ns op (components (kvsUtilNormalizeKey (suffix.getD key))) dir w
        (dir', w', .restart nkey)) (hr : Links stack nkey (.dir dir') w' r) :
      Links (stack + 1) key (.dir dir) w r

omit [DecidableEq ρ] in
theorem linkNonDir_eq_error (op : Op ρ) (names : List String) :
    ∃ e, linkNonDir op names = .error e := by
  rw [linkNonDir]
  split
  · exact ⟨_, rfl⟩
  · split <;> exact ⟨_, rfl⟩

variable (c epoch ns op) in
theorem kvstxnLinkDirent_links (stack : ℕ) (key : String) (root : Treeobj ρ) (w : Work ρ) :
    Links c epoch ns op stack key root w (kvstxnLinkDirent c epoch ns op stack key root w) := by
  induction stack generalizing key root w with
  | zero => exact .crash
  | succ stack ih =>
    rw [kvstxnLinkDirent]
    split
    case h_1 e hns => exact .foreign hns
    case h_2 suffix hns =>
      dsimp only
      split
      case isTrue hdot => exact .rootKey hns hdot
      case isFalse hdot =>
        split
        case h_1 dir =>
          have hw := linkDir_walks c epoch ns op
            (components (kvsUtilNormalizeKey (suffix.getD key))) dir w
          split
          case h_1 heq => exact .walked hns hdot (heq ▸ hw) rfl
          case h_2 heq => exact .walked hns hdot (heq ▸ hw) rfl
          case h_3 heq => exact .walked hns hdot (heq ▸ hw) rfl
          case h_4 nkey heq => exact .restarted hns hdot (heq ▸ hw) (ih nkey _ _)
        case h_2 hroot =>
          obtain ⟨e, he⟩ := linkNonDir_eq_error op
            (components (kvsUtilNormalizeKey (suffix.getD key)))
          rw [he]
          exact .nonDir hns hdot hroot he

/-! ### Effects -/

/-- Put contents into the cache, unless they are there, and the entry on the list of the
transaction. -/
def Work.put (c : Codec) (epoch : ℕ) (data : Bytes) (w : Work ρ) : Work ρ :=
  let (w, dirty) := storeData c epoch data w
  if dirty then { w with dirtyCacheEntries := c.blobrefHash data :: w.dirtyCacheEntries } else w

omit [DecidableEq ρ] in
theorem storeCache_eq (o : Storable) (w : Work ρ) : storeCache c epoch o w = match o.data c with
      | .error e => (w, .error e)
      | .ok data => (w.put c epoch data, .ok (c.blobrefHash data)) := by
  rw [storeCache]
  cases o.data c with
  | error e => rfl
  | ok data =>
    simp only [Work.put]
    split <;> rfl

variable (c epoch) in
/-- One effect of a transaction on the memory. -/
inductive Effect : Work ρ → Work ρ → Prop
  | lookup (w : Work ρ) (ref : Blobref) : Effect w (w.lookup epoch ref)
  | put (w : Work ρ) (data : Bytes) : Effect w (w.put c epoch data)
  | enter (w : Work ρ) (i : ρ) : Effect w (w.enter i)
  | write (w : Work ρ) (i : ρ) (dir : Dir ρ) (h : i ∈ w.entered) : Effect w (w.write i dir)

variable (c epoch) in
/-- A sequence of effects. -/
abbrev Effects : Work ρ → Work ρ → Prop := Relation.ReflTransGen (Effect c epoch)

variable {w : Work ρ}

theorem storeCache_effects (h : storeCache c epoch o w = (w', r)) : Effects c epoch w w' := by
  rw [storeCache_eq] at h
  split at h
  · cases h
    exact .refl
  · cases h
    exact .single (.put w _)

omit [DecidableEq ρ] in
theorem put_entered (data : Bytes) (w : Work ρ) : (w.put c epoch data).entered = w.entered := by
  simp only [Work.put, storeData]
  split
  · rfl
  · rfl

theorem Effects.entered_subset (h : Effects c epoch w w') (hi : i ∈ w.entered) :
    i ∈ w'.entered := by
  induction h with
  | refl => exact hi
  | tail _ he ih =>
    cases he with
    | lookup | write => exact ih
    | put data =>
      rw [put_entered]
      exact ih
    | enter => exact List.mem_cons_of_mem _ ih

theorem kvstxnAppend_effects (h : kvstxnAppend c epoch dirent dir name w = (dir', w', e)) :
    Effects c epoch w w' := by
  rw [kvstxnAppend.eq_def] at h
  split at h
  · split at h
    case h_2 refs _ =>
      split at h
      · rename_i hs
        cases h
        exact storeCache_effects hs
      · rename_i hs
        split at h <;> cases h <;> exact storeCache_effects hs
    case h_3 data0 _ =>
      split at h
      · rename_i hs
        cases h
        exact storeCache_effects hs
      rename_i hs
      split at h <;>
        (rename_i hs'; cases h; exact (storeCache_effects hs).trans (storeCache_effects hs'))
    all_goals
      cases h
      exact .refl
  · cases h
    exact .refl

theorem linkFinal_effects (h : linkFinal c epoch op name dir w = (dir', w', e)) :
    Effects c epoch w w' := by
  rw [linkFinal] at h
  split at h
  · cases h
    exact .refl
  split at h
  · exact kvstxnAppend_effects h
  · split at h <;> cases h <;> exact .refl

theorem Walks.effects {names : List String} {dir : Dir ρ} {r : Dir ρ × Work ρ × Walk}
    (h : Walks c epoch ns op names dir w r) : Effects c epoch w r.2.1 := by
  induction h with
  | final h | failed h => exact linkFinal_effects h
  | create _ _ _ ih | dir _ _ ih => exact ih
  | @held _ _ _ _ w i _ w' _ _ _ ih =>
    have hi : i ∈ w'.entered := ih.entered_subset List.mem_cons_self
    exact (Relation.ReflTransGen.head (.enter w i) ih).tail (.write w' i _ hi)
  | @ref _ _ _ _ w ref _ _ _ _ _ _ _ _ _ _ ih => exact .head (.lookup w ref) ih
  | @refNonDir _ _ _ _ w ref | @absent _ _ _ _ w ref | @undecodable _ _ _ _ w ref =>
    exact .single (.lookup w ref)
  | _ => exact .refl

theorem Links.effects {stack : ℕ} {key : String} {root : Treeobj ρ} {w : Work ρ}
    {r : Treeobj ρ × Work ρ × Link} (h : Links c epoch ns op stack key root w r) :
    Effects c epoch w r.2.1 := by
  induction h with
  | walked _ _ h _ => exact h.effects
  | restarted _ _ h _ ih => exact h.effects.trans ih
  | _ => exact .refl

variable (c epoch ns) in
theorem applyOps_effects (stack : ℕ) (ops : List (Option (Op ρ))) (a : Applied ρ) :
    Effects c epoch a.work (applyOps c ns stack epoch ops a).1.work := by
  induction ops generalizing a with
  | nil => exact .refl
  | cons op ops ih =>
    cases op with
    | none => exact .refl
    | some op =>
      have hw := (kvstxnLinkDirent_links c epoch ns op stack op.key a.rootcpy a.work).effects
      rw [applyOps]
      split
      all_goals
        rename_i h
        rw [h] at hw
      · exact hw
      · exact hw.trans (ih ⟨_, _, _⟩)
      · exact hw.trans (ih ⟨_, _, _⟩)

/-! ### Effects of unrolling -/

section Unroll

variable {held : ρ → Work ρ → Work ρ × Option Fail}

mutual
theorem unrollEntry_effects (hheld : ∀ i w, Effects c epoch w (held i w).1) (o : Treeobj ρ)
    (w : Work ρ) : Effects c epoch w (unrollEntry c epoch held o w).2.1 := by
  cases o with
  | dir sub =>
    have hsub := unrollDir_effects hheld sub w
    rw [unrollEntry]
    split
    all_goals
      rename_i h
      rw [h] at hsub
    · exact hsub
    · split <;> (rename_i hs; exact hsub.trans (storeCache_effects hs))
  | held i =>
    have hi := hheld i w
    rw [unrollEntry]
    split
    all_goals
      rename_i h
      rw [h] at hi
    · exact hi
    · split <;> (rename_i hs; exact hi.trans (storeCache_effects hs))
  | val data =>
    rw [unrollEntry]
    split
    · split <;> (rename_i hs; exact storeCache_effects hs)
    · exact .refl
  | valref refs | dirref refs | symlink target | invalid => exact .refl

theorem unrollDir_effects (hheld : ∀ i w, Effects c epoch w (held i w).1) (dir : Dir ρ)
    (w : Work ρ) : Effects c epoch w (unrollDir c epoch held dir w).2.1 := by
  cases dir with
  | nil => exact .refl
  | cons name o rest =>
    have ho := unrollEntry_effects hheld o w
    rw [unrollDir]
    split
    all_goals
      rename_i h
      rw [h] at ho
    · exact ho
    · exact ho.trans (unrollDir_effects hheld rest _)
end

theorem unrollHeld_effects (depth : ℕ) (i : ρ) (w : Work ρ) :
    Effects c epoch w (unrollHeld c epoch depth i w).1 := by
  induction depth generalizing i w with
  | zero => exact .refl
  | succ depth ih =>
    have h := unrollDir_effects ih (w.objs i) (w.enter i)
    have hi := h.entered_subset List.mem_cons_self
    exact (Relation.ReflTransGen.head (.enter w i) h).tail (.write _ i _ hi)

end Unroll

variable (c epoch) in
theorem storeRoot_effects (depth : ℕ) (rootcpy : Treeobj ρ) (w : Work ρ) :
    Effects c epoch w (storeRoot c depth epoch rootcpy w).2.1 := by
  rw [storeRoot.eq_def]
  split
  · rename_i dir
    have h : Effects c epoch w (kvstxnUnroll c epoch depth dir w).2.1 :=
      unrollDir_effects (unrollHeld_effects depth) dir w
    split
    all_goals
      rename_i hu
      rw [hu] at h
    · exact h
    · split <;> (rename_i hs; exact h.trans (storeCache_effects hs))
  · exact .refl

end FluxCore.Kvs
