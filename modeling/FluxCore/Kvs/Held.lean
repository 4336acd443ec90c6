import FluxCore.Kvs.Proc

/-!
# Directory Objects of Operations

An operation may hold a directory object, which is linked into the working copy as it is, and
which later walks and the unrolling enter and write. This module has what a call of
`kvstxn_process` can reach through them: if the operations refer to objects of a set `I`, and
these to objects of `I` again, then **no other object is entered or written**.
-/

namespace FluxCore.Kvs

open List Function

variable {ρ : Type}

mutual
/-- All directory objects of operations are in `I`. -/
def Treeobj.All (I : ρ → Prop) : Treeobj ρ → Prop
  | .dir d => d.All I
  | .held i => I i
  | .val _ | .valref _ | .dirref _ | .symlink _ | .invalid => True

/-- All directory objects of the members of a directory. -/
def Dir.All (I : ρ → Prop) : Dir ρ → Prop
  | .nil => True
  | .cons _ o r => o.All I ∧ r.All I
end

mutual
/-- An object from the cache refers to no object of an operation. -/
theorem Treeobj.all_copy {I : ρ → Prop} (o : Treeobj Empty) : (o.copy : Treeobj ρ).All I := by
  cases o with
  | dir d => exact Dir.all_copy d
  | held i => exact i.elim
  | val data | valref refs | dirref refs | symlink target | invalid => trivial

theorem Dir.all_copy {I : ρ → Prop} (d : Dir Empty) : (d.copy : Dir ρ).All I := by
  match d with
  | .nil => trivial
  | .cons _ o r => exact ⟨Treeobj.all_copy o, Dir.all_copy r⟩
end

section Members

variable {I : ρ → Prop} {d : Dir ρ}

theorem Dir.All.get (h : d.All I) (hget : d.get name = some o) : o.All I := by
  induction d with
  | nil => cases hget
  | cons n o' r ih =>
    rw [Dir.get] at hget
    split_ifs at hget
    · cases hget
      exact h.1
    · exact ih h.2 hget

theorem Dir.All.insert (h : d.All I) (ho : o.All I) : (d.insert name o).All I := by
  induction d with
  | nil => exact ⟨ho, trivial⟩
  | cons n o' r ih =>
    rw [Dir.insert]
    split_ifs
    · exact ⟨ho, h.2⟩
    · exact ⟨ho, h⟩
    · exact ⟨h.1, ih h.2⟩

theorem Dir.All.erase (h : d.All I) : (d.erase name).All I := by
  induction d with
  | nil => trivial
  | cons n o' r ih =>
    rw [Dir.erase]
    split_ifs
    · exact ih h.2
    · exact ⟨h.1, ih h.2⟩

end Members

/-! ### Work -/

/-- What a call changes: only objects in `I` are entered and written, and what is written has
been entered. -/
structure Changed (I : ρ → Prop) (mem mem' : Mem ρ) : Prop where
  sub : ∀ i ∈ mem.entered, i ∈ mem'.entered
  entered : ∀ i ∈ mem'.entered, i ∈ mem.entered ∨ I i
  frame : ∀ i, ¬ I i → mem'.objs i = mem.objs i
  written : ∀ i, i ∉ mem'.entered → mem'.objs i = mem.objs i

/-- The objects in `I` refer to objects in `I`. -/
abbrev Closed (I : ρ → Prop) (mem : Mem ρ) : Prop := ∀ i, I i → (mem.objs i).All I

/-- What work changes and keeps. -/
structure Kept (I : ρ → Prop) (w w' : Work ρ) : Prop extends Changed I w.toMem w'.toMem where
  objs : Closed I w'.toMem

variable {I : ρ → Prop} {c : Codec} {epoch : ℕ}

theorem Changed.of_eq {mem mem' : Mem ρ} (hobjs : mem'.objs = mem.objs)
    (hin : mem'.entered = mem.entered) : Changed I mem mem' :=
  ⟨fun _ h => hin ▸ h, fun _ h => .inl (hin ▸ h), fun _ _ => by rw [hobjs],
    fun _ _ => by rw [hobjs]⟩

theorem Changed.trans (h : Changed I mem mem') (h' : Changed I mem' mem'') :
    Changed I mem mem'' where
  sub i hi := h'.sub i (h.sub i hi)
  entered i hi := (h'.entered i hi).elim (h.entered i) .inr
  frame i hi := (h'.frame i hi).trans (h.frame i hi)
  written i hi := (h'.written i hi).trans (h.written i fun hm => hi (h'.sub i hm))

namespace Kept

variable {w w' w'' : Work ρ} (hw : Closed I w.toMem)

theorem trans (h : Kept I w w') (h' : Kept I w' w'') : Kept I w w'' :=
  ⟨h.toChanged.trans h'.toChanged, h'.objs⟩

include hw

theorem quiet (hobjs : w'.objs = w.objs) (hin : w'.entered = w.entered) : Kept I w w' :=
  ⟨.of_eq hobjs hin, fun i hi => hobjs ▸ hw i hi⟩

theorem refl : Kept I w w := .quiet hw rfl rfl

theorem store [DecidableEq ρ] (h : storeCache c epoch x w = (w', r)) : Kept I w w' := by
  rw [storeCache_eq] at h
  split at h
  · cases h
    exact .refl hw
  · cases h
    refine .quiet hw ?_ (put_entered _ w)
    simp only [Work.put, storeData]
    split <;> rfl

theorem enter (hi : I i) : Kept I w (w.enter i) where
  sub _ := mem_cons_of_mem i
  entered j hj := by
    rcases mem_cons.1 hj with rfl | hj
    · exact .inr hi
    · exact .inl hj
  frame _ _ := rfl
  written _ _ := rfl
  objs := hw

theorem write [DecidableEq ρ] (hmem : i ∈ w.entered) (hi : I i) (hd : d.All I) :
    Kept I w (w.write i d) where
  sub _ hj := hj
  entered _ hj := .inl hj
  frame j hj := update_of_ne (by rintro rfl; exact hj hi) ..
  written j hj := update_of_ne (by rintro rfl; exact hj hmem) ..
  objs j hj := by
    change (update w.objs i d j).All I
    by_cases hji : j = i
    · rwa [hji, update_self]
    · rw [update_of_ne hji]
      exact hw j hj

end Kept

variable [DecidableEq ρ]

/-! ### Walks -/

theorem kvstxnAppend_kept (h : kvstxnAppend c epoch dirent dir name w = (dir', w', e))
    (hd : dir.All I) (hw : Closed I w.toMem) : dir'.All I ∧ Kept I w w' := by
  rw [kvstxnAppend.eq_def] at h
  split at h
  · split at h
    case h_1 =>
      cases h
      exact ⟨hd.insert trivial, .refl hw⟩
    case h_2 =>
      split at h
      · rename_i hs
        cases h
        exact ⟨hd, .store hw hs⟩
      rename_i hs
      rw [treeobjInsertEntry] at h
      split_ifs at h <;> cases h
      · exact ⟨hd.insert trivial, .store hw hs⟩
      · exact ⟨hd, .store hw hs⟩
    case h_3 =>
      split at h
      · rename_i hs
        cases h
        exact ⟨hd, .store hw hs⟩
      rename_i hs
      have hk := Kept.store hw hs
      split at h
      all_goals
        rename_i hs'
        cases h
      · exact ⟨hd, hk.trans (.store hk.objs hs')⟩
      · exact ⟨hd.insert trivial, hk.trans (.store hk.objs hs')⟩
    all_goals
      cases h
      exact ⟨hd, .refl hw⟩
  · cases h
    exact ⟨hd, .refl hw⟩

section

variable {op : Op ρ} {dir : Dir ρ} {root : Treeobj ρ} {w : Work ρ}
  (hop : ∀ o, op.dirent = some o → o.All I) (hw : Closed I w.toMem)
include hop hw

theorem linkFinal_kept (h : linkFinal c epoch op name dir w = (dir', w', e)) (hd : dir.All I) :
    dir'.All I ∧ Kept I w w' := by
  rw [linkFinal] at h
  split at h
  · cases h
    exact ⟨hd.erase, .refl hw⟩
  rename_i dirent hdirent
  split_ifs at h
  · exact kvstxnAppend_kept h hd hw
  rw [treeobjInsertEntry] at h
  split_ifs at h <;> cases h
  · exact ⟨hd.insert (hop dirent hdirent), .refl hw⟩
  · exact ⟨hd, .refl hw⟩

/-- **Walks keep to `I`.** -/
theorem Walks.kept (h : Walks c epoch ns op names dir w r) (hd : dir.All I) :
    r.1.All I ∧ Kept I w r.2.1 := by
  induction h with
  | nil | skip | multiref | foreign | restart => exact ⟨hd, .refl hw⟩
  | final h | failed h => exact linkFinal_kept hop hw h hd
  | create _ _ _ ih =>
    obtain ⟨hsub, hk⟩ := ih hw trivial
    exact ⟨hd.insert hsub, hk⟩
  | dir hget _ ih =>
    obtain ⟨hsub, hk⟩ := ih hw (hd.get hget)
    exact ⟨hd.insert hsub, hk⟩
  | @held _ _ _ dir w i _ w' _ hget _ ih =>
    have hi : I i := hd.get hget
    have hk := Kept.enter hw hi
    obtain ⟨hsub, hk'⟩ := ih hk.objs (hk.objs i hi)
    exact ⟨hd, hk.trans (hk'.trans (.write hk'.objs (hk'.sub i mem_cons_self) hi hsub))⟩
  | @ref _ _ _ _ w ref =>
    rename_i ih
    have hk : Kept I w (w.lookup epoch ref) := .quiet hw rfl rfl
    obtain ⟨hsub, hk'⟩ := ih hk.objs (Dir.all_copy _)
    exact ⟨hd.insert hsub, hk.trans hk'⟩
  | refNonDir => exact ⟨hd.insert (Treeobj.all_copy _), .quiet hw rfl rfl⟩
  | absent | undecodable => exact ⟨hd, .quiet hw rfl rfl⟩

theorem Links.kept (h : Links c epoch ns op stack key root w r) (hd : root.All I) :
    r.1.All I ∧ Kept I w r.2.1 := by
  induction h with
  | walked _ _ h _ => exact h.kept hop hw hd
  | restarted _ _ h _ ih =>
    obtain ⟨hd', hk⟩ := h.kept hop hw hd
    obtain ⟨hd'', hk'⟩ := ih hk.objs hd'
    exact ⟨hd'', hk.trans hk'⟩
  | _ => exact ⟨hd, .refl hw⟩

end

variable (c epoch) in
/-- **The loop over the operations keeps to `I`.** -/
theorem applyOps_kept (ns : String) (stack : ℕ) (ops : List (Option (Op ρ))) (a : Applied ρ)
    (hops : ∀ op, some op ∈ ops → ∀ o, op.dirent = some o → o.All I)
    (hd : a.rootcpy.All I) (hw : Closed I a.work.toMem) :
    (applyOps c ns stack epoch ops a).1.rootcpy.All I ∧
      Kept I a.work (applyOps c ns stack epoch ops a).1.work := by
  induction ops generalizing a with
  | nil => exact ⟨hd, .refl hw⟩
  | cons op ops ih =>
    cases op with
    | none => exact ⟨hd, .refl hw⟩
    | some op =>
      obtain ⟨hd', hk⟩ := (kvstxnLinkDirent_links c epoch ns op stack op.key a.rootcpy a.work).kept
        (hops op mem_cons_self) hw hd
      rw [applyOps]
      split
      all_goals
        rename_i heq
        rw [heq] at hd' hk
      · exact ⟨hd', hk⟩
      all_goals
        obtain ⟨hd'', hk'⟩ := ih ⟨_, _, _⟩ (fun op' hop' => hops op' (mem_cons_of_mem _ hop'))
          hd' hk.objs
        exact ⟨hd'', hk.trans hk'⟩

/-! ### Unrolling -/

section Unroll

variable {held : ρ → Work ρ → Work ρ × Option Fail}

mutual
theorem unrollEntry_kept (hheld : ∀ i w, I i → Closed I w.toMem → Kept I w (held i w).1)
    (o : Treeobj ρ) (w : Work ρ) (ho : o.All I) (hw : Closed I w.toMem) :
    (unrollEntry c epoch held o w).1.All I ∧ Kept I w (unrollEntry c epoch held o w).2.1 := by
  cases o with
  | dir sub =>
    obtain ⟨hsub, hk⟩ := unrollDir_kept hheld sub w ho hw
    rw [unrollEntry]
    split
    all_goals
      rename_i h
      rw [h] at hsub hk
    · exact ⟨hsub, hk⟩
    split
    all_goals
      rename_i hs
    · exact ⟨hsub, hk.trans (.store hk.objs hs)⟩
    · exact ⟨trivial, hk.trans (.store hk.objs hs)⟩
  | held i =>
    have hk := hheld i w ho hw
    rw [unrollEntry]
    split
    all_goals
      rename_i h
      rw [h] at hk
    · exact ⟨ho, hk⟩
    split
    all_goals
      rename_i hs
    · exact ⟨ho, hk.trans (.store hk.objs hs)⟩
    · exact ⟨trivial, hk.trans (.store hk.objs hs)⟩
  | val data =>
    rw [unrollEntry]
    split
    · split <;> (rename_i hs; exact ⟨trivial, .store hw hs⟩)
    · exact ⟨trivial, .refl hw⟩
  | valref refs | dirref refs | symlink target | invalid => exact ⟨ho, .refl hw⟩

theorem unrollDir_kept (hheld : ∀ i w, I i → Closed I w.toMem → Kept I w (held i w).1)
    (dir : Dir ρ) (w : Work ρ) (hd : dir.All I) (hw : Closed I w.toMem) :
    (unrollDir c epoch held dir w).1.All I ∧ Kept I w (unrollDir c epoch held dir w).2.1 := by
  cases dir with
  | nil => exact ⟨trivial, .refl hw⟩
  | cons name o rest =>
    obtain ⟨ho, hk⟩ := unrollEntry_kept hheld o w hd.1 hw
    rw [unrollDir]
    split
    all_goals
      rename_i h
      rw [h] at ho hk
    · exact ⟨⟨ho, hd.2⟩, hk⟩
    · obtain ⟨hr, hk'⟩ := unrollDir_kept hheld rest _ hd.2 hk.objs
      exact ⟨⟨ho, hr⟩, hk.trans hk'⟩
end

theorem unrollHeld_kept (depth : ℕ) (i : ρ) (w : Work ρ) (hi : I i) (hw : Closed I w.toMem) :
    Kept I w (unrollHeld c epoch depth i w).1 := by
  induction depth generalizing i w with
  | zero => exact .refl hw
  | succ depth ih =>
    have hk := Kept.enter hw hi
    obtain ⟨hd, hk'⟩ := unrollDir_kept ih (w.objs i) (w.enter i) (hk.objs i hi) hk.objs
    exact hk.trans (hk'.trans (.write hk'.objs (hk'.sub i mem_cons_self) hi hd))

end Unroll

theorem storeRoot_kept (depth : ℕ) (h : storeRoot c depth epoch root w = (root', w', out))
    (hd : root.All I) (hw : Closed I w.toMem) : Kept I w w' := by
  rw [storeRoot.eq_def] at h
  split at h
  · rename_i dir
    obtain ⟨-, hk⟩ := unrollDir_kept (unrollHeld_kept depth) dir w hd hw
    rw [kvstxnUnroll] at h
    split at h
    all_goals
      rename_i hu
      rw [hu] at hk
    · cases h
      exact hk
    split at h
    all_goals
      rename_i hs
      cases h
      exact hk.trans (.store hk.objs hs)
  · cases h
    exact .refl hw

/-! ### The state machine -/

/-- The operations of a transaction, its working copy and the objects in `I` refer to objects
in `I`. -/
structure Processing.Safe (I : ρ → Prop) (p : Processing ρ) : Prop where
  ops : ∀ op, some op ∈ p.kt.ops → ∀ o, op.dirent = some o → o.All I
  rootcpy : State.applyOps.rank ≤ p.kt.state.rank → ∀ o, p.kt.rootcpy = some o → o.All I
  objs : Closed I p.mem

theorem Processing.Safe.applied {p : Processing ρ} (hs : p.Safe I) (hst : p.kt.state = .applyOps)
    (hr : p.kt.rootcpy = some root)
    (ha : applyOps c ns stack epoch p.kt.ops ⟨root, [], p.work⟩ = (a, f)) :
    a.rootcpy.All I ∧ Kept I p.work a.work := by
  have hroot : root.All I := hs.rootcpy (by rw [hst]) _ hr
  have hk := applyOps_kept c epoch ns stack p.kt.ops ⟨root, [], p.work⟩ hs.ops hroot hs.objs
  rwa [ha] at hk

/-- **A call changes objects of its own operations only.** -/
theorem Proc.changed (h : Proc c ns stack depth epoch rootref p r) (hs : p.Safe I) :
    Changed I p.mem r.1.mem ∧ (r.2 ≠ .error → r.1.Safe I) := by
  induction h with
  | errored | finished => exact ⟨.of_eq rfl rfl, fun _ => hs⟩
  | idle | keysFailed => exact ⟨.of_eq rfl rfl, fun hr => absurd rfl hr⟩
  | pending | dirty => exact ⟨.of_eq rfl rfl, fun _ => { hs with }⟩
  | finish hst =>
    refine ⟨.of_eq rfl rfl, fun _ => ⟨hs.ops, fun _ => hs.rootcpy ?_, hs.objs⟩⟩
    rw [hst]
    decide
  | rootMissing =>
    exact ⟨.of_eq rfl rfl, fun _ => ⟨hs.ops, fun hr => absurd hr (by simp [Processing.modify,
      State.rank]), hs.objs⟩⟩
  | rootUndecodable => exact ⟨.of_eq rfl rfl, fun hr => absurd rfl hr⟩
  | @rootLoaded _ _ rootdir _ _ _ _ _ _ _ ih =>
    have hcpy := Treeobj.all_copy (I := I) rootdir
    obtain ⟨hch, hsafe⟩ := ih ⟨hs.ops, fun _ o ho => Option.some.inj ho ▸ hcpy, hs.objs⟩
    exact ⟨{ hch with }, hsafe⟩
  | opsFailed hst _ hroot ha =>
    exact ⟨(hs.applied hst hroot ha).2.toChanged, fun hr => absurd rfl hr⟩
  | opsStalled hst _ hroot ha =>
    obtain ⟨hcpy, hk⟩ := hs.applied hst hroot ha
    exact ⟨hk.toChanged, fun _ => ⟨hs.ops, fun _ o ho => Option.some.inj ho ▸ hcpy, hk.objs⟩⟩
  | opsApplied hst _ hroot ha _ _ ih =>
    obtain ⟨hcpy, hk⟩ := hs.applied hst hroot ha
    obtain ⟨hch, hsafe⟩ := ih ⟨hs.ops, fun _ o ho => Option.some.inj ho ▸ hcpy, hk.objs⟩
    exact ⟨hk.toChanged.trans hch, hsafe⟩
  | storeFailed hst hroot hsto =>
    have hk := storeRoot_kept depth hsto (hs.rootcpy (by rw [hst]; decide) _ hroot) hs.objs
    exact ⟨{ hk with }, fun hr => absurd rfl hr⟩
  | stored hst hroot hsto _ ih =>
    have hk := storeRoot_kept depth hsto (hs.rootcpy (by rw [hst]; decide) _ hroot) hs.objs
    obtain ⟨hch, hsafe⟩ := ih ⟨hs.ops, fun _ _ ho => (Option.some_ne_none _ ho.symm).elim,
      hk.objs⟩
    exact ⟨hk.toChanged.trans hch, hsafe⟩

end FluxCore.Kvs
