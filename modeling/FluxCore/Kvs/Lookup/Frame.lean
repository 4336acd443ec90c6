import FluxCore.Kvs.Lookup

/-!
# What a Lookup Keeps

A handle keeps what it was created with, and the root reference once it has one.
-/

namespace FluxCore.Kvs.Lookup

/-- The handle `lh'` is a later state of the handle `lh`. -/
structure Continues (lh lh' : Handle) : Prop where
  ns : lh'.ns = lh.ns
  path : lh'.path = lh.path
  cred : lh'.cred = lh.cred
  flags : lh'.flags = lh.flags
  rootRefSetByUser : lh'.rootRefSetByUser = lh.rootRefSetByUser
  rootRef : ∀ ref, lh.rootRef = some ref → lh'.rootRef = some ref

theorem Continues.refl (lh : Handle) : Continues lh lh := ⟨rfl, rfl, rfl, rfl, rfl, fun _ h => h⟩

theorem Continues.trans (h : Continues lh lh') (h' : Continues lh' lh'') : Continues lh lh'' :=
  ⟨h'.ns.trans h.ns, h'.path.trans h.path, h'.cred.trans h.cred, h'.flags.trans h.flags,
    h'.rootRefSetByUser.trans h.rootRefSetByUser, fun ref hr => h'.rootRef ref (h.rootRef ref hr)⟩

/-- What the handle was created with, and its root reference. -/
def Handle.inputs (lh : Handle) : String × String × Cred × Flags × Bool × Option Blobref :=
  (lh.ns, lh.path, lh.cred, lh.flags, lh.rootRefSetByUser, lh.rootRef)

theorem Continues.of_eq (h : lh'.inputs = lh.inputs) : Continues lh lh' := by
  simp only [Handle.inputs, Prod.mk.injEq] at h
  obtain ⟨hns, hpath, hcred, hflg, huser, hroot⟩ := h
  exact ⟨hns, hpath, hcred, hflg, huser, fun _ hr => hroot.trans hr⟩

theorem Continues.after (h : Continues lh' lh'') (heq : lh'.inputs = lh.inputs) :
    Continues lh lh'' :=
  (Continues.of_eq heq).trans h

variable {turns : ℕ} {r : Return} {isReplay : Bool}

section

variable {c : Codec} {krm : KvsrootMgr} {cache : Cache} {lh : Handle}

theorem walkTurn_continues (h : walkTurn c krm cache lh wl below = (cache', .ret lh' result)) :
    Continues lh lh' := by
  have hdir : ∀ pathcomp ref dir, walkDir krm lh wl below pathcomp ref dir = .ret lh' result →
      Continues lh lh' := by
    intro pathcomp ref dir h
    unfold walkDir at h
    split at h
    · cases h
      exact .refl lh
    · dsimp only at h
      split at h <;> cases h <;> exact .of_eq rfl
    · cases h
  unfold walkTurn at h
  split at h
  · cases h
    exact .of_eq rfl
  split at h
  · cases h
  · dsimp only at h
    split at h
    · cases h
      exact .of_eq rfl
    split at h
    · cases h
      exact .of_eq rfl
    split at h
    · exact hdir _ _ _ (Prod.mk.inj h).2
    · split at h <;> cases h <;> exact .of_eq rfl
  · cases h
    exact .refl lh
  · cases h
    exact .refl lh
  · cases h
    exact .of_eq rfl

theorem walk_continues (h : walk c krm turns cache lh = .ok r) : Continues lh r.lh := by
  induction turns generalizing cache lh with
  | zero => cases h
  | succ turns ih =>
    rw [walk] at h
    split at h
    · cases h
    split at h
    · exact (ih h).after rfl
    · rename_i heq
      cases h
      exact walkTurn_continues heq
    · cases h

theorem lookupFromValue_continues (h : lookupFromValue c isReplay krm cache lh = .ok r) :
    Continues lh r.lh := by
  have hdirref : ∀ refs, Continues lh (lookupDirref c cache lh refs).lh := by
    intro refs
    unfold lookupDirref
    split_ifs
    · exact .of_eq rfl
    · exact .of_eq rfl
    split
    · dsimp only
      split
      · exact .of_eq rfl
      split_ifs
      · exact .of_eq rfl
      · split <;> exact .of_eq rfl
    · exact .of_eq rfl
  have hvalref : ∀ d refs, Continues lh (lookupValref c cache lh d refs).lh := by
    intro d refs
    unfold lookupValref
    split_ifs
    · exact .of_eq rfl
    · exact .of_eq rfl
    split
    · exact .of_eq rfl
    · dsimp only
      split
      · exact .of_eq rfl
      · split_ifs <;> exact .of_eq rfl
    · split <;> exact .of_eq rfl
  unfold lookupFromValue at h
  split at h
  · cases h
    exact .of_eq rfl
  split at h
  · cases h
  split at h
  · cases h
  split at h
  · cases h
    exact .of_eq rfl
  split at h
  · cases h
    exact hdirref _
  · cases h
    exact hvalref _ _
  all_goals
    try split_ifs at h
    all_goals
      cases h
      exact .of_eq rfl

theorem Outcome.bind_eq_ok {α β : Type} {o : Outcome α} {f : α → Outcome β} {b : β}
    (h : o.bind f = .ok b) : ∃ a, o = .ok a ∧ f a = .ok b := by
  cases o with
  | ok a => exact ⟨a, rfl, h⟩
  | useAfterFree | running => cases h

theorem lookupFromWalk_continues (h : lookupFromWalk c turns isReplay krm cache lh = .ok r) :
    Continues lh r.lh := by
  unfold lookupFromWalk at h
  split at h
  · cases h
    exact .of_eq rfl
  obtain ⟨r', hr', h⟩ := Outcome.bind_eq_ok h
  have hwalk := walk_continues hr'
  split at h
  · cases h
    exact hwalk.trans (.of_eq rfl)
  · cases h
    exact hwalk
  · cases h
    exact hwalk
  · split_ifs at h
    · cases h
      exact hwalk.trans (.of_eq rfl)
    · exact hwalk.trans ((lookupFromValue_continues h).after rfl)

theorem lookupFromWalkInit_continues
    (h : lookupFromWalkInit c turns isReplay krm cache lh rootRef = .ok r) :
    Continues lh r.lh := by
  rw [lookupFromWalkInit] at h
  exact (lookupFromWalk_continues h).after rfl

theorem lookupFromCheckRoot_continues
    (h : lookupFromCheckRoot c turns isReplay krm cache lh rootRef = .ok r) :
    Continues lh r.lh := by
  have hroot : Continues lh (lookupRoot c cache lh rootRef).lh := by
    unfold lookupRoot
    split_ifs
    · exact .of_eq rfl
    · exact .of_eq rfl
    dsimp only
    split
    · exact .of_eq rfl
    split_ifs
    · exact .of_eq rfl
    · split <;> exact .of_eq rfl
  unfold lookupFromCheckRoot at h
  split at h
  · cases h
    exact .of_eq rfl
  split_ifs at h
  · cases h
    exact hroot
  · exact (lookupFromWalkInit_continues h).after rfl

theorem lookupFromCheckNamespace_continues
    (h : lookupFromCheckNamespace c turns isReplay krm cache lh = .ok r) : Continues lh r.lh := by
  unfold lookupFromCheckNamespace at h
  split at h
  · exact (lookupFromCheckRoot_continues h).after rfl
  rename_i hnone
  split at h
  · cases h
    exact .of_eq rfl
  split_ifs at h
  · cases h
    exact .of_eq rfl
  refine .trans ?_ (lookupFromCheckRoot_continues h)
  refine ⟨rfl, rfl, rfl, rfl, rfl, fun ref hr => ?_⟩
  rw [hnone] at hr
  cases hr

/-- **A call keeps what the handle was created with.** -/
theorem lookup_continues (h : lookup c turns krm cache lh = .ok r) : Continues lh r.lh := by
  unfold lookup at h
  split_ifs at h
  · cases h
    exact .refl lh
  split at h
  · exact (lookupFromCheckNamespace_continues h).after rfl
  · exact lookupFromCheckNamespace_continues h
  · exact lookupFromCheckRoot_continues h
  · exact lookupFromWalkInit_continues h
  · exact lookupFromWalk_continues h
  · exact lookupFromValue_continues h
  · cases h
    exact .of_eq rfl

theorem Session.call_continues {s t : Session} {epoch : ℕ} (h : s.call c turns epoch = .ok t) :
    Continues s.lh t.lh ∧ t.krm = s.krm := by
  obtain ⟨r, hr, h⟩ := Outcome.bind_eq_ok h
  obtain ⟨m, -, h⟩ := Outcome.bind_eq_ok h
  cases h
  exact ⟨(lookup_continues hr).after rfl, rfl⟩

end

theorem lookupCreate_eq (h : lookupCreate epoch ns rootRef rootSeq path cred flags = .ok lh) :
    ∃ ns' path' seq, lh =
      { ns := ns', rootRef := rootRef, rootSeq := seq, rootRefSetByUser := rootRef.isSome,
        path := kvsUtilNormalizeKey path', cred := cred, flags := flags,
        currentEpoch := epoch } := by
  unfold lookupCreate at h
  dsimp only at h
  split at h
  · cases h
  · cases h
    exact ⟨_, _, _, rfl⟩
  split at h
  · cases h
  · cases h
    exact ⟨_, _, _, rfl⟩

theorem Handle.free_continues (lh : Handle) (ref : Blobref) : Continues lh (lh.free ref) :=
  .of_eq rfl

end FluxCore.Kvs.Lookup
