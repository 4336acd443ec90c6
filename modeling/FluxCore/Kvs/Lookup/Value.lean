import FluxCore.Kvs.Lookup.Walk

/-!
# The Value of an Entry

The last state of a handle turns the entry that the walk has found into a value. It reads
the blobs of a directory or of a value from the cache, and either stalls or ends with the
result that the store has (`lookupFromValue_spec`); so does the special case of the root.
-/

namespace FluxCore.Kvs.Lookup

open List

variable {c : Codec} {store : Blobref → Option Bytes}

/-- How a handle may return if the result of the lookup is `S`. -/
inductive ValueSpec (store : Blobref → Option Bytes) (S : Snapshot) (lh : Handle) : Return → Prop
  | fail {cache : Cache} {e : Errno} (hc : Consistent store cache) (hS : S = .result none (some e)) :
      ValueSpec store S lh (fail cache lh e)
  | done {cache : Cache} {v : Option (Treeobj Empty)} (hc : Consistent store cache)
      (hS : S = .result v none) : ValueSpec store S lh (done cache { lh with val := v })
  | missingRef {cache : Cache} {ref : Blobref} (hc : Consistent store cache) :
      ValueSpec store S lh ⟨cache, { lh with missingRef := some ref }, .loadMissingRefs⟩
  | missingRefs {cache : Cache} {d : Dirent} (hc : Consistent store cache)
      (hd : lh.wdirent = some d) :
      ValueSpec store S lh ⟨cache, { lh with valrefMissingRefs := some d }, .loadMissingRefs⟩

/-! ### Blobs of a value -/

theorem getMultiBlobrefValrefLength_data (epoch : ℕ) (refs : List Blobref) (total : ℕ)
    (cache : Cache) (r : Blobref) :
    ((getMultiBlobrefValrefLength epoch refs total cache).1 r).map (fun e => (e.valid, e.data))
      = (cache r).map fun e => (e.valid, e.data) := by
  induction refs generalizing total cache with
  | nil => rfl
  | cons ref refs ih =>
    rw [getMultiBlobrefValrefLength]
    split
    · exact cacheLookup_data cache ref r epoch
    split
    · exact cacheLookup_data cache ref r epoch
    split
    · exact cacheLookup_data cache ref r epoch
    · exact (ih _ _).trans (cacheLookup_data cache ref r epoch)

/-- The lengths of the blobs are added up, and their contents are put together, as the store
has them. -/
theorem getMultiBlobrefValref_spec (c : Codec) (hcache : Consistent store cache) (epoch : ℕ)
    (refs : List Blobref) (data : Bytes) :
    match getMultiBlobrefValrefLength epoch refs data.length cache with
    | (_, .error e) => concatBlobs c store refs data = .result none (some e)
    | (_, .ok none) => True
    | (cache', .ok (some _)) => concatBlobs c store refs data
        = .result (some (treeobjCreateVal c (data ++ getMultiBlobrefValrefData cache' refs))) none := by
  induction refs generalizing data cache with
  | nil =>
    simp only [getMultiBlobrefValrefLength, concatBlobs, getMultiBlobrefValrefData,
      flatMap_nil, append_nil]
  | cons ref refs ih =>
    rw [getMultiBlobrefValrefLength]
    have hcache' := hcache.cacheLookup ref epoch
    cases hent : cacheLookup cache ref epoch ref with
    | none => exact trivial
    | some entry =>
      dsimp only
      cases hval : entry.valid with
      | false => exact trivial
      | true =>
        have hsto := hcache' ref entry hent hval
        rw [concatBlobs, hsto]
        simp only [Bool.not_true, Bool.false_eq_true, if_false]
        by_cases hover : intMax - data.length < entry.data.length
        · rw [if_pos hover, if_pos hover]
        rw [if_neg hover, if_neg hover, ← length_append]
        have hrest := ih hcache' (data ++ entry.data)
        have hkeep := getMultiBlobrefValrefLength_data epoch refs
          (data ++ entry.data).length (cacheLookup cache ref epoch) ref
        generalize getMultiBlobrefValrefLength epoch refs (data ++ entry.data).length
          (cacheLookup cache ref epoch) = res at hrest hkeep ⊢
        obtain ⟨cache', res⟩ := res
        rw [hent, Option.map_some, Option.map_eq_some_iff] at hkeep
        obtain ⟨entry', hent', hpair⟩ := hkeep
        replace hent' : cache' ref = some entry' := hent'
        have hdata : entry'.data = entry.data := (Prod.mk.inj hpair).2
        match res, hrest with
        | .error e, hrest => exact hrest
        | .ok none, _ => exact trivial
        | .ok (some n), hrest =>
          simp only at hrest ⊢
          rw [hrest, getMultiBlobrefValrefData, getMultiBlobrefValrefData,
            flatMap_cons, hent', Option.getD_some, hdata, append_assoc]

/-! ### The states -/

section States

variable {cache : Cache} {lh : Handle}

section

variable (hcache : Consistent store cache)
include hcache

theorem lookupDirref_spec (htree : lh.flags.treeobj = false) (refs : List Blobref) :
    ValueSpec store (valueOf c store lh.flags (.dirref refs)) lh (lookupDirref c cache lh refs) := by
  unfold lookupDirref valueOf
  rw [htree]
  simp only [Bool.false_eq_true, if_false]
  split_ifs
  · exact .fail hcache rfl
  · exact .fail hcache rfl
  rcases refs with _ | ⟨ref, _ | ⟨ref', refs⟩⟩
  · exact .fail hcache rfl
  · have hcache' := hcache.cacheLookup ref lh.currentEpoch
    dsimp only
    cases hent : cacheLookup cache ref lh.currentEpoch ref with
    | none => exact .missingRef hcache'
    | some entry =>
      dsimp only
      cases hval : entry.valid with
      | false => exact .missingRef hcache'
      | true =>
        simp only [Bool.not_true, Bool.false_eq_true, if_false]
        rw [storeDir_of_consistent hcache' hent hval]
        rcases cacheEntryGetTreeobj c.toCodec entry with _ | o
        · exact .fail hcache' rfl
        cases o with
        | dir dir => exact .done hcache' rfl
        | _ => exact .fail hcache' rfl
  · exact .fail hcache rfl

theorem lookupValref_spec (htree : lh.flags.treeobj = false) (hd : lh.wdirent = some d)
    (refs : List Blobref) :
    ValueSpec store (valueOf c store lh.flags (.valref refs)) lh
      (lookupValref c cache lh d refs) := by
  unfold lookupValref valueOf
  rw [htree]
  simp only [Bool.false_eq_true, if_false]
  split_ifs
  · exact .fail hcache rfl
  · exact .fail hcache rfl
  rcases refs with _ | ⟨ref, _ | ⟨ref', refs⟩⟩
  · exact .fail hcache rfl
  · have hcache' := hcache.cacheLookup ref lh.currentEpoch
    dsimp only
    cases hent : cacheLookup cache ref lh.currentEpoch ref with
    | none => exact .missingRefs hcache' hd
    | some entry =>
      dsimp only
      cases hval : entry.valid with
      | false => exact .missingRefs hcache' hd
      | true =>
        rw [hcache' ref entry hent hval]
        exact .done hcache' rfl
  · have hspec := getMultiBlobrefValref_spec c hcache lh.currentEpoch (ref :: ref' :: refs) []
    have hcache' : Consistent store (getMultiBlobrefValrefLength lh.currentEpoch
        (ref :: ref' :: refs) 0 cache).1 :=
      hcache.of_data (getMultiBlobrefValrefLength_data lh.currentEpoch _ _ cache)
    rw [length_nil] at hspec
    dsimp only
    generalize getMultiBlobrefValrefLength lh.currentEpoch (ref :: ref' :: refs) 0 cache = res
      at hspec hcache' ⊢
    obtain ⟨cache', e | _ | n⟩ := res
    · exact .fail hcache' hspec
    · exact .missingRefs hcache' hd
    · exact .done hcache' (by simpa using hspec)

/-- **The value of the entry that was found.** -/
theorem lookupFromValue_spec (hchk : replayCheck isReplay krm lh = none)
    (hd : lh.wdirent = some d) (hfrd : d.owner ≠ .freed) :
    ∃ ret, lookupFromValue c isReplay krm cache lh = .ok ret ∧
      ValueSpec store (valueOf c store lh.flags d.obj) lh ret := by
  have hread : d.read = some d.obj := if_neg hfrd
  unfold lookupFromValue
  rw [hchk]
  dsimp only
  split
  · rename_i hnone
    rw [hd] at hnone
    exact nomatch hnone
  rename_i d' hd'
  cases Option.some.inj (hd.symm.trans hd')
  rw [hread]
  dsimp only
  cases htree : lh.flags.treeobj with
  | true =>
    refine ⟨_, if_pos rfl, .done hcache ?_⟩
    unfold valueOf
    rw [htree, if_pos rfl]
  | false =>
    simp only [Bool.false_eq_true, if_false]
    cases hobj : d.obj with
    | dirref refs => exact ⟨_, rfl, lookupDirref_spec hcache htree refs⟩
    | valref refs => exact ⟨_, rfl, lookupValref_spec hcache htree hd refs⟩
    | held i => exact i.elim
    | invalid =>
      refine ⟨_, rfl, .fail hcache ?_⟩
      unfold valueOf
      rw [htree]
      rfl
    | dir dir | val data | symlink target =>
      unfold valueOf
      rw [htree]
      simp only [Bool.false_eq_true, if_false]
      split_ifs
      · exact ⟨_, rfl, .fail hcache rfl⟩
      · exact ⟨_, rfl, .fail hcache rfl⟩
      · exact ⟨_, rfl, .done hcache rfl⟩

theorem lookupRoot_spec (rootRef : Blobref) :
    ValueSpec store (rootValue c store lh.flags rootRef) lh (lookupRoot c cache lh rootRef) := by
  rw [lookupRoot, rootValue]
  split_ifs
  · exact .done hcache rfl
  · exact .fail hcache rfl
  have hcache' := hcache.cacheLookup rootRef lh.currentEpoch
  dsimp only
  cases hent : cacheLookup cache rootRef lh.currentEpoch rootRef with
  | none => exact .missingRef hcache'
  | some entry =>
    dsimp only
    cases hval : entry.valid with
    | false => exact .missingRef hcache'
    | true =>
      have hget : (if entry.data.isEmpty then none
          else treeobjDecodeb c.toCodec entry.data)
            = cacheEntryGetTreeobj c.toCodec entry := by
        rw [cacheEntryGetTreeobj, hval]
        cases entry.data.isEmpty <;> rfl
      rw [hcache' rootRef entry hent hval]
      simp only [Bool.not_true, Bool.false_eq_true, if_false]
      rw [hget]
      match cacheEntryGetTreeobj c.toCodec entry with
      | none => exact .fail hcache' rfl
      | some (.dir dir) => exact .done hcache' rfl
      | some (.dirref _) | some (.val _) | some (.valref _) | some (.symlink _)
      | some (.held _) | some .invalid => exact .fail hcache' rfl

end

end States

end FluxCore.Kvs.Lookup
