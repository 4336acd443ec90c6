import FluxCore.Kvs.Mgr
import FluxCore.Kvs.Walk

/-!
# The State Machine as a Relation

`Proc` is `kvstxn_process` as a relation, with one rule for each exit of its `switch` and
one for each fall through to the next state. What every rule keeps, every call keeps.
-/

namespace FluxCore.Kvs

open Option

variable {ρ : Type} [DecidableEq ρ]

/-- The memory, as the transaction works on it. -/
def Processing.work (p : Processing ρ) : Work ρ :=
  { p.mem with self := p.kt.id, dirtyCacheEntries := p.kt.dirtyCacheEntries }

/-- The transaction and the memory after some work. -/
def Processing.withWork (p : Processing ρ) (w : Work ρ) : Processing ρ :=
  { kt := { p.kt with dirtyCacheEntries := w.dirtyCacheEntries }, mem := w.toMem }

/-- Change the transaction. -/
def Processing.modify (p : Processing ρ) (f : Kvstxn ρ → Kvstxn ρ) : Processing ρ :=
  { p with kt := f p.kt }

variable (c : Codec) (ns : String) (stack depth epoch : ℕ) (rootref : Blobref)

/-- **`kvstxn_process` as a relation.** -/
inductive Proc : Processing ρ → Processing ρ × Process → Prop
  | errored {p} (h : p.kt.errnum.isSome = true) : Proc p (p, .error)
  | idle {p} (h : p.kt.processing = false) :
      Proc p (p.modify fun kt => { kt with errnum := some .EINVAL }, .error)
  | pending {p} (hs : p.kt.state.rank ≤ State.applyOps.rank) (hm : p.kt.missingRefs ≠ []) :
      Proc p (p.modify fun kt => { kt with blocked := true }, .loadMissingRefs)
  | rootMissing {p} (hs : p.kt.state.rank ≤ State.loadRoot.rank) (hm : p.kt.missingRefs = [])
      (hcache : (p.work.lookup epoch rootref).cache.getValid rootref = false) :
      Proc p ((p.withWork (p.work.lookup epoch rootref)).modify fun kt =>
        { kt with state := .loadRoot, missingRefs := [rootref], blocked := true },
        .loadMissingRefs)
  | rootUndecodable {p entry} (hs : p.kt.state.rank ≤ State.loadRoot.rank)
      (hm : p.kt.missingRefs = [])
      (hentry : (p.work.lookup epoch rootref).cache rootref = some entry)
      (hvalid : entry.valid = true) (hdir : cacheEntryGetTreeobj c entry = none) :
      Proc p ((p.withWork (p.work.lookup epoch rootref)).modify fun kt =>
        { kt with state := .loadRoot, errnum := some .ENOTRECOVERABLE }, .error)
  | rootLoaded {p entry rootdir r} (hs : p.kt.state.rank ≤ State.loadRoot.rank)
      (hm : p.kt.missingRefs = [])
      (hentry : (p.work.lookup epoch rootref).cache rootref = some entry)
      (hvalid : entry.valid = true) (hdir : cacheEntryGetTreeobj c entry = some rootdir)
      (h : Proc ((p.withWork (p.work.lookup epoch rootref)).modify fun kt =>
        { kt with rootcpy := some rootdir.copy, state := .applyOps, rootcpyRef := rootref }) r) :
      Proc p r
  | opsFailed {p rootcpy a e} (hs : p.kt.state = .applyOps) (hm : p.kt.missingRefs = [])
      (hroot : p.kt.rootcpy = some rootcpy)
      (ha : applyOps c ns stack epoch p.kt.ops ⟨rootcpy, [], p.work⟩ = (a, some (.errno e))) :
      Proc p ((p.withWork a.work).modify fun kt =>
        { kt with rootcpy := some a.rootcpy, missingRefs := [], errnum := some e }, .error)
  | opsStalled {p rootcpy a} (hs : p.kt.state = .applyOps) (hm : p.kt.missingRefs = [])
      (hroot : p.kt.rootcpy = some rootcpy)
      (ha : applyOps c ns stack epoch p.kt.ops ⟨rootcpy, [], p.work⟩ = (a, none))
      (hmiss : a.missingRefs ≠ []) : Proc p ((p.withWork a.work).modify fun kt =>
        { kt with rootcpy := some a.rootcpy, missingRefs := a.missingRefs, blocked := true },
        .loadMissingRefs)
  | opsApplied {p rootcpy a r} (hs : p.kt.state = .applyOps) (hm : p.kt.missingRefs = [])
      (hroot : p.kt.rootcpy = some rootcpy)
      (ha : applyOps c ns stack epoch p.kt.ops ⟨rootcpy, [], p.work⟩ = (a, none))
      (hmiss : a.missingRefs = [])
      (h : Proc ((p.withWork a.work).modify fun kt =>
        { kt with rootcpy := some a.rootcpy, missingRefs := [], state := .store }) r) :
      Proc p r
  | storeFailed {p rootcpy root' w e cache} (hs : p.kt.state = .store)
      (hroot : p.kt.rootcpy = some rootcpy)
      (hstore : storeRoot c depth epoch rootcpy p.work = (root', w, .error (.errno e)))
      (hclean : cleanupDirtyCacheList .store w.dirtyCacheEntries w.cache = some cache) :
      Proc p ((p.withWork { w with cache := cache, dirtyCacheEntries := [] }).modify fun kt =>
        { kt with rootcpy := some root', errnum := some e }, .error)
  | stored {p rootcpy root' w newroot r} (hs : p.kt.state = .store)
      (hroot : p.kt.rootcpy = some rootcpy)
      (hstore : storeRoot c depth epoch rootcpy p.work = (root', w, .ok newroot))
      (h : Proc ((p.withWork w).modify fun kt =>
        { kt with rootcpy := none, newroot := newroot, state := .preFinished }) r) :
      Proc p r
  | dirty {p} (hs : p.kt.state = .preFinished) (hd : p.kt.dirtyCacheEntries ≠ []) :
      Proc p (p.modify fun kt => { kt with blocked := true }, .dirtyCacheEntries)
  | keysFailed {p} (hs : p.kt.state = .preFinished) (hd : p.kt.dirtyCacheEntries = [])
      (hk : keysFromOps p.kt.ops = none) :
      Proc p (p.modify fun kt => { kt with errnum := some .ENOMEM }, .error)
  | finish {p keys} (hs : p.kt.state = .preFinished) (hd : p.kt.dirtyCacheEntries = [])
      (hk : keysFromOps p.kt.ops = some keys) :
      Proc p (p.modify fun kt => { kt with keys := keys, state := .finished }, .finished)
  | finished {p} (hs : p.kt.state = .finished) : Proc p (p, .finished)

variable {c ns stack depth epoch rootref} {p : Processing ρ} {r : Processing ρ × Process}

theorem processFromPreFinished_proc (hs : p.kt.state = .preFinished)
    (h : processFromPreFinished p = some r) : Proc c ns stack depth epoch rootref p r := by
  rw [processFromPreFinished, processPreFinished] at h
  split at h
  case isTrue hd =>
    cases h
    exact .dirty hs (by simpa using hd)
  case isFalse hd =>
    have hd : p.kt.dirtyCacheEntries = [] := by simpa using hd
    split at h
    case h_1 hk =>
      cases h
      exact .keysFailed hs hd hk
    case h_2 keys hk =>
      cases h
      exact .finish hs hd hk

theorem processFromStore_proc (hs : p.kt.state = .store)
    (h : processFromStore c depth epoch p = some r) :
    Proc c ns stack depth epoch rootref p r := by
  obtain ⟨n, hn, h⟩ := bind_eq_some_iff.1 h
  rw [processStore] at hn
  split at hn
  case h_1 => cases hn
  case h_2 rootcpy hroot =>
    split at hn
    case h_1 => cases hn
    case h_2 root' w e hsto =>
      obtain ⟨cache, hcl, rfl⟩ := map_eq_some_iff.1 hn
      cases h
      exact .storeFailed hs hroot hsto (hs ▸ hcl)
    case h_3 root' w newroot hsto =>
      cases hn
      exact .stored hs hroot hsto (processFromPreFinished_proc rfl h)

theorem processFromApplyOps_proc (hs : p.kt.state = .applyOps)
    (h : processFromApplyOps c ns stack depth epoch p = some r) :
    Proc c ns stack depth epoch rootref p r := by
  obtain ⟨n, hn, h⟩ := bind_eq_some_iff.1 h
  rw [processApplyOps] at hn
  split at hn
  case isTrue hm =>
    cases hn
    cases h
    exact .pending (hs ▸ le_rfl) (by simpa using hm)
  case isFalse hm =>
    have hm : p.kt.missingRefs = [] := by simpa using hm
    split at hn
    case h_1 => cases hn
    case h_2 rootcpy hroot =>
      cases ha : applyOps c ns stack epoch p.kt.ops ⟨rootcpy, [], p.work⟩ with
      | mk a f =>
        rw [Processing.work] at ha
        rw [ha] at hn
        cases f with
        | some f =>
          cases f with
          | crash => cases hn
          | errno e =>
            cases hn
            cases h
            exact .opsFailed hs hm hroot ha
        | none =>
          by_cases hmiss : a.missingRefs = []
          · simp only [hmiss, List.isEmpty_nil, Bool.not_true, Bool.false_eq_true, if_false] at hn
            cases hn
            exact .opsApplied hs hm hroot ha hmiss (processFromStore_proc rfl h)
          have : (!a.missingRefs.isEmpty) = true := by simpa using hmiss
          simp only [this, if_true] at hn
          cases hn
          cases h
          exact .opsStalled hs hm hroot ha hmiss

theorem processLoadRoot_proc (hs : p.kt.state.rank ≤ State.loadRoot.rank)
    (h : (processLoadRoot c epoch rootref p).andThen
      (processFromApplyOps c ns stack depth epoch) = some r) :
    Proc c ns stack depth epoch rootref p r := by
  rw [processLoadRoot] at h
  split at h
  case isTrue hm =>
    cases h
    exact .pending (hs.trans (by decide)) (by simpa using hm)
  case isFalse hm =>
    have hm : p.kt.missingRefs = [] := by simpa using hm
    dsimp only at h
    split at h
    case h_1 hnone =>
      have hnone : (p.work.lookup epoch rootref).cache rootref = none := hnone
      cases h
      exact .rootMissing hs hm (by rw [Cache.getValid, hnone])
    case h_2 entry hent =>
      have hent : (p.work.lookup epoch rootref).cache rootref = some entry := hent
      split at h
      case isTrue hval =>
        cases h
        exact .rootMissing hs hm (by rw [Cache.getValid, hent]; simpa using hval)
      case isFalse hval =>
        have hval : entry.valid = true := by simpa using hval
        split at h
        case h_1 hdir =>
          cases h
          exact .rootUndecodable hs hm hent hval hdir
        case h_2 rootdir hdir =>
          exact .rootLoaded hs hm hent hval hdir (processFromApplyOps_proc rfl h)

theorem kvstxnProcess_proc (h : kvstxnProcess c ns stack depth epoch rootref p = some r) :
    Proc c ns stack depth epoch rootref p r := by
  rw [kvstxnProcess] at h
  split at h
  case isTrue he =>
    cases h
    exact .errored he
  case isFalse =>
    split at h
    case isTrue hp =>
      cases h
      exact .idle (by simpa using hp)
    case isFalse =>
      cases hs : p.kt.state with
      | init =>
        rw [hs] at h
        exact processLoadRoot_proc (hs ▸ by decide) h
      | loadRoot =>
        rw [hs] at h
        exact processLoadRoot_proc (hs ▸ le_rfl) h
      | applyOps =>
        rw [hs] at h
        exact processFromApplyOps_proc hs h
      | store =>
        rw [hs] at h
        exact processFromStore_proc hs h
      | preFinished =>
        rw [hs] at h
        exact processFromPreFinished_proc hs h
      | finished =>
        rw [hs] at h
        cases h
        exact .finished hs

/-! ### What a call keeps -/

/-- Two states of one transaction: the fields that `kvstxn_apply` does not change. -/
structure Kvstxn.SameEntry (kt kt' : Kvstxn ρ) : Prop where
  id : kt'.id = kt.id
  content : kt'.content = kt.content
  processing : kt'.processing = kt.processing
  merged : kt'.merged = kt.merged
  mergeComponent : kt'.mergeComponent = kt.mergeComponent

/-- The fields that `kvstxn_process` does not change. -/
structure Kvstxn.SameRequest (kt kt' : Kvstxn ρ) : Prop extends kt.SameEntry kt' where
  auxErrnum : kt'.auxErrnum = kt.auxErrnum

theorem Proc.sameRequest (h : Proc c ns stack depth epoch rootref p r) :
    p.kt.SameRequest r.1.kt := by
  induction h with
  | rootLoaded _ _ _ _ _ _ ih | opsApplied _ _ _ _ _ _ ih | stored _ _ _ _ ih => exact { ih with }
  | _ => exact ⟨⟨rfl, rfl, rfl, rfl, rfl⟩, rfl⟩

theorem Effects.self_eq {w w' : Work ρ} (h : Effects c epoch w w') : w'.self = w.self := by
  induction h with
  | refl => rfl
  | tail _ he ih =>
    rw [← ih]
    cases he with
    | lookup | enter | write => rfl
    | put data =>
      simp only [Work.put, storeData]
      split <;> rfl

omit [DecidableEq ρ] in
theorem Processing.work_withWork (hw : w.self = p.kt.id) (hid : ∀ kt, (f kt).id = kt.id)
    (hdty : ∀ kt, (f kt).dirtyCacheEntries = kt.dirtyCacheEntries) :
    ((p.withWork w).modify f).work = w := by
  obtain ⟨mem, self, dirty⟩ := w
  simp only at hw
  subst hw
  simp [Processing.work, Processing.modify, Processing.withWork, hid, hdty]

/-- What a call leaves in memory: the outcome of a sequence of effects, or, if storing the
root has failed, that outcome with the dirty entries removed. -/
inductive Leaves (c : Codec) (epoch : ℕ) (p p' : Processing ρ) (result : Process) : Prop
  | effects (h : Effects c epoch p.work p'.work)
  | cleaned {w : Work ρ} {cache : Cache} (h : Effects c epoch p.work w)
      (hclean : cleanupDirtyCacheList .store w.dirtyCacheEntries w.cache = some cache)
      (hw : p'.work = { w with cache := cache, dirtyCacheEntries := [] })
      (hresult : result = .error)

theorem Leaves.head (h' : Leaves c epoch p₁ p' result) (h : Effects c epoch p.work p₁.work) :
    Leaves c epoch p p' result := by
  cases h' with
  | effects h' => exact .effects (h.trans h')
  | cleaned h' hcl hw hres => exact .cleaned (h.trans h') hcl hw hres

section

variable (h : Proc c ns stack depth epoch rootref p r)
include h

theorem Proc.leaves : Leaves c epoch p r.1 r.2 := by
  have looked (p : Processing ρ) : Effects c epoch p.work (p.work.lookup epoch rootref) :=
    .single (.lookup _ _)
  have applied {p : Processing ρ} {root : Treeobj ρ} {a : Applied ρ} {f : Option Fail}
      (ha : applyOps c ns stack epoch p.kt.ops ⟨root, [], p.work⟩ = (a, f)) :
      Effects c epoch p.work a.work := by
    have := applyOps_effects c epoch ns stack p.kt.ops ⟨root, [], p.work⟩
    rwa [ha] at this
  have stored {p : Processing ρ} {root root' : Treeobj ρ} {w : Work ρ} {out : Except Fail Blobref}
      (hs : storeRoot c depth epoch root p.work = (root', w, out)) :
      Effects c epoch p.work w := by
    have := storeRoot_effects c epoch depth root p.work
    rwa [hs] at this
  have kept {p : Processing ρ} {w : Work ρ} {f : Kvstxn ρ → Kvstxn ρ}
      (hw : Effects c epoch p.work w) (hid : ∀ kt, (f kt).id = kt.id)
      (hd : ∀ kt, (f kt).dirtyCacheEntries = kt.dirtyCacheEntries) :
      Effects c epoch p.work ((p.withWork w).modify f).work := by
    rwa [Processing.work_withWork hw.self_eq hid hd]
  induction h with
  | rootMissing | rootUndecodable => exact .effects (kept (looked _) (fun _ => rfl) fun _ => rfl)
  | rootLoaded _ _ _ _ _ _ ih => exact ih.head (kept (looked _) (fun _ => rfl) fun _ => rfl)
  | opsFailed _ _ _ ha | opsStalled _ _ _ ha =>
    exact .effects (kept (applied ha) (fun _ => rfl) fun _ => rfl)
  | opsApplied _ _ _ ha _ _ ih => exact ih.head (kept (applied ha) (fun _ => rfl) fun _ => rfl)
  | storeFailed _ _ hs hcl =>
    refine .cleaned (stored hs) hcl (Processing.work_withWork ?_ (fun _ => rfl) fun _ => rfl)
      rfl
    exact (stored hs).self_eq
  | stored _ _ hs _ ih => exact ih.head (kept (stored hs) (fun _ => rfl) fun _ => rfl)
  | _ => exact .effects .refl

theorem Proc.blocked_of_stall (hr : r.2 = .loadMissingRefs ∨ r.2 = .dirtyCacheEntries) :
    r.1.kt.blocked = true := by
  induction h with
  | rootLoaded _ _ _ _ _ _ ih | opsApplied _ _ _ _ _ _ ih | stored _ _ _ _ ih => exact ih hr
  | pending | rootMissing | opsStalled | dirty => rfl
  | _ => simp at hr

theorem Proc.loadMissingRefs_state (hr : r.2 = .loadMissingRefs)
    (hinit : p.kt.state = .init → p.kt.missingRefs = []) :
    r.1.kt.state = .loadRoot ∨ r.1.kt.state = .applyOps := by
  induction h with
  | rootLoaded _ _ _ _ _ _ ih | opsApplied _ _ _ _ _ _ ih | stored _ _ _ _ ih =>
    exact ih hr (by simp [Processing.modify])
  | @pending p hs hm =>
    simp only [Processing.modify]
    cases hst : p.kt.state with
    | init => exact absurd (hinit hst) hm
    | loadRoot => exact .inl rfl
    | applyOps => exact .inr rfl
    | _ =>
      rw [hst] at hs
      exact absurd hs (by decide)
  | rootMissing => exact .inl rfl
  | opsStalled hs => exact .inr hs
  | _ => simp at hr

theorem Proc.missingRefs_eq_nil (hr : r.2 ≠ .loadMissingRefs) (hm : p.kt.missingRefs = []) :
    r.1.kt.missingRefs = [] := by
  induction h with
  | rootLoaded _ _ _ _ _ _ ih | stored _ _ _ _ ih => exact ih hr hm
  | opsApplied _ _ _ _ _ _ ih => exact ih hr rfl
  | pending | rootMissing | opsStalled => exact absurd rfl hr
  | opsFailed => rfl
  | _ => exact hm

theorem Proc.dirtyCacheEntries_state (hr : r.2 = .dirtyCacheEntries) :
    r.1.kt.state = .preFinished ∧ r.1.kt.dirtyCacheEntries ≠ [] := by
  induction h with
  | rootLoaded _ _ _ _ _ _ ih | opsApplied _ _ _ _ _ _ ih | stored _ _ _ _ ih => exact ih hr
  | dirty hs hd => exact ⟨hs, hd⟩
  | _ => simp at hr

theorem Proc.finished_state (hr : r.2 = .finished) :
    r.1.kt.state = .finished ∧ (p.kt.state ≠ .finished → r.1.kt.dirtyCacheEntries = []) := by
  induction h with
  | rootLoaded _ _ _ _ _ _ ih | opsApplied _ _ _ _ _ _ ih | stored _ _ _ _ ih =>
    exact ⟨(ih hr).1, fun _ => (ih hr).2 (by simp [Processing.modify])⟩
  | finish _ hd => exact ⟨rfl, fun _ => hd⟩
  | finished hs => exact ⟨hs, fun hne => absurd hs hne⟩
  | _ => simp at hr

theorem Proc.errnum_eq_none (hr : r.2 ≠ .error) (he : p.kt.errnum = none) :
    r.1.kt.errnum = none := by
  induction h with
  | rootLoaded _ _ _ _ _ _ ih | opsApplied _ _ _ _ _ _ ih | stored _ _ _ _ ih => exact ih hr he
  | pending | rootMissing | opsStalled | dirty | finish | finished => exact he
  | _ => simp at hr

theorem Proc.errnum_isSome (hr : r.2 = .error) :
    r.1.kt.errnum.isSome = true := by
  induction h with
  | rootLoaded _ _ _ _ _ _ ih | opsApplied _ _ _ _ _ _ ih | stored _ _ _ _ ih => exact ih hr
  | errored h => exact h
  | idle | rootUndecodable | opsFailed | storeFailed | keysFailed => rfl
  | _ => simp at hr

theorem Proc.rootcpyRef (hr : State.applyOps.rank ≤ r.1.kt.state.rank) :
    (State.applyOps.rank ≤ p.kt.state.rank ∧ r.1.kt.rootcpyRef = p.kt.rootcpyRef) ∨
      (p.kt.state.rank ≤ State.loadRoot.rank ∧ r.1.kt.rootcpyRef = rootref) := by
  induction h with
  | rootMissing | rootUndecodable => exact absurd hr (by simp [Processing.modify, State.rank])
  | rootLoaded hs _ _ _ _ _ ih =>
    rcases ih hr with ⟨-, h⟩ | ⟨h, -⟩
    · exact .inr ⟨hs, h⟩
    · exact absurd h (by simp [Processing.modify, State.rank])
  | opsApplied hs _ _ _ _ _ ih =>
    rcases ih hr with ⟨-, h⟩ | ⟨h, -⟩
    · exact .inl ⟨(congrArg State.rank hs).ge, h⟩
    · exact absurd h (by simp [Processing.modify, State.rank])
  | stored hs _ _ _ ih =>
    rcases ih hr with ⟨-, h⟩ | ⟨h, -⟩
    · exact .inl ⟨by simp [hs, State.rank], h⟩
    · exact absurd h (by simp [Processing.modify, State.rank])
  | errored | idle | pending | opsFailed | opsStalled | storeFailed | dirty | keysFailed
  | finished => exact .inl ⟨hr, rfl⟩
  | finish hs => exact .inl ⟨by simp [hs, State.rank], rfl⟩

end

/-! ### Draining the lists -/

omit [DecidableEq ρ] in
/-- **The rule for iterators:** a property of the references that are left and the state
holds at the end if a callback that succeeds keeps it and one that fails, with the clean-up
after it, establishes it for no reference left. -/
theorem iterRefs_induct {σ : Type} {cb : Blobref → σ → Option (σ × Option Errno)}
    {cleanup : List Blobref → σ → Option σ} {P : List Blobref → σ → Prop}
    (hok : ∀ ref refs s s', P (ref :: refs) s → cb ref s = some (s', none) → P refs s')
    (hfail : ∀ ref refs s s' s'' e, P (ref :: refs) s → cb ref s = some (s', some e) →
      cleanup refs s' = some s'' → P [] s'')
    {refs : List Blobref} {s s' : σ} {e : Option Errno} (hs : P refs s)
    (h : iterRefs cb cleanup refs s = some (s', e)) : P [] s' := by
  induction refs generalizing s with
  | nil =>
    cases h
    exact hs
  | cons ref refs ih =>
    obtain ⟨⟨s₁, e₁⟩, hcb, h⟩ := bind_eq_some_iff.1 h
    cases e₁ with
    | some e₁ =>
      obtain ⟨s₂, hcl, h⟩ := map_eq_some_iff.1 h
      cases h
      exact hfail ref refs s s₁ s' e₁ hs hcb hcl
    | none => exact ih (hok ref refs s s₁ hs hcb) h

end FluxCore.Kvs
