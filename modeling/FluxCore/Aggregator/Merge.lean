import FluxCore.Aggregator

/-!
# Merging Entries into an Aggregate

An aggregate stands for a relation between ids and values. The entries of a push are added to
it: no id is lost or moved to another value, the count is the number of ids, and the summary is
the least and the greatest value. The relation can be read off the JSON object that is sent
upstream, because entries with different ids have different encodings.
-/

namespace FluxCore.Aggregator

open List

open Libidset (invalidId)

variable {κ : Type} (codec : IdsetCodec κ)

/-- The pairs of ids and values in an object of entries. -/
def contents (members : List (κ × Value)) : Multiset (ℕ × Value) :=
  (members.map fun p => ((codec.decode p.1).getD ∅).val.map fun id => (id, p.2)).sum

/-- An entry of a push: some ids, with an integer. -/
def EntryOk (p : κ × Value) : Prop :=
  ∃ ids v, codec.decode p.1 = some ids ∧ ids.Nonempty ∧ p.2 = .integer v

/-- The pairs of ids and values in an aggregate. -/
def Aggregate.pairs (ag : Aggregate) : Multiset (ℕ × Value) := Bucket.pairs ag.entries

/-- The summary is the least and the greatest of the values. -/
def SummaryOk (entries : List Entry) (summary : Option (Value × Value)) : Prop :=
  entries = [] ∧ summary = none ∨ ∃ min max, summary = some (.integer min, .integer max) ∧
      IsLeast {v | Value.integer v ∈ entries.map Bucket.value} min ∧
      IsGreatest {v | Value.integer v ∈ entries.map Bucket.value} max

/-- A sound aggregate for a total of `n` ids. -/
structure Sound (n rank : ℕ) (ag : Aggregate) : Prop where
  given : ag.given = false
  nodup : (ag.entries.map Bucket.value).Nodup
  nonempty : ∀ e ∈ ag.entries, e.ids.Nonempty
  valid : ∀ e ∈ ag.entries, ∀ id ∈ e.ids, id < invalidId
  integer : ∀ e ∈ ag.entries, ∃ v, e.value = .integer v
  total : ag.total = BitVec.ofNat 32 n
  count : ag.count = BitVec.ofNat 32 ag.pairs.card
  summary : rank = 0 → SummaryOk ag.entries ag.summary

variable {codec} {n rank : ℕ} {ag ag' : Aggregate} {value : Value}

/-! ### One entry -/

theorem entryAdd_entries : (ag.entryAdd rank value).entries = Bucket.addValue value ag.entries := by
  rw [Aggregate.entryAdd, Bucket.addValue]
  split <;> rfl

theorem summarizeInt_ok (h : SummaryOk entries summary) :
    SummaryOk (⟨∅, .integer v⟩ :: entries) (summarizeInt v summary) := by
  have hset : {u | Value.integer u ∈ (⟨∅, .integer v⟩ :: entries : List Entry).map Bucket.value}
      = insert v {u | Value.integer u ∈ entries.map Bucket.value} := by
    ext u
    simp
  rw [SummaryOk, hset]
  refine .inr ?_
  obtain ⟨rfl, rfl⟩ | ⟨least, greatest, rfl, hlst, hgr⟩ := h
  · refine ⟨v, v, rfl, ?_⟩
    simp [IsLeast, IsGreatest]
  refine ⟨min v least, max v greatest, ?_, hlst.insert v, hgr.insert v⟩
  simp only [summarizeInt, min_def, max_def]
  congr 3 <;> split_ifs <;> omega

theorem entryAdd_summary (h : SummaryOk ag.entries ag.summary) :
    SummaryOk (ag.entryAdd 0 (.integer v)).entries (ag.entryAdd 0 (.integer v)).summary := by
  rw [Aggregate.entryAdd]
  split
  · exact h
  · exact summarizeInt_ok h

theorem entryAdd_rest : (ag.entryAdd rank value).addr = ag.addr ∧
    (ag.entryAdd rank value).total = ag.total ∧ (ag.entryAdd rank value).count = ag.count ∧
      (ag.entryAdd rank value).given = ag.given := by
  rw [Aggregate.entryAdd]
  split <;> exact ⟨rfl, rfl, rfl, rfl⟩

theorem idCount_of_mem (hnodup : (ag.entries.map Bucket.value).Nodup) (he : e ∈ ag.entries) :
    ag.idCount e.value = e.ids.card := by
  rw [Aggregate.idCount, Bucket.find?_of_mem hnodup he]
  rfl

theorem count_add (hc : c = BitVec.ofNat 32 a) :
    c + (BitVec.ofNat 32 (b + m) - BitVec.ofNat 32 b) = BitVec.ofNat 32 (a + m) := by
  rw [hc, BitVec.ofNat_add b m, BitVec.ofNat_add a m, BitVec.add_comm (BitVec.ofNat 32 b),
    BitVec.add_sub_cancel]

theorem push_sound (h : Sound n rank ag) (hdec : codec.decode s = some nids)
    (hne : nids.Nonempty) (hnew : ∀ id ∈ nids, (id, Value.integer v) ∉ ag.pairs) :
    ∃ ag', ag.push codec rank (.integer v) s = (ag', true) ∧ Sound n rank ag' ∧
      ag'.addr = ag.addr ∧ ag'.pairs = ag.pairs + nids.val.map fun id => (id, .integer v) := by
  set ag₁ := ag.entryAdd rank (.integer v) with hag₁
  obtain ⟨haddr, htot, hcnt, hgiv⟩ : ag₁.addr = ag.addr ∧ ag₁.total = ag.total ∧
    ag₁.count = ag.count ∧ ag₁.given = ag.given := entryAdd_rest
  have hents : ag₁.entries = Bucket.addValue (.integer v) ag.entries := entryAdd_entries
  have hnodup₁ : (ag₁.entries.map Bucket.value).Nodup := hents ▸ Bucket.nodup_addValue h.nodup
  have hmem : Value.integer v ∈ ag₁.entries.map Bucket.value := hents ▸ Bucket.mem_addValue
  have hps₁ : Bucket.pairs ag₁.entries = ag.pairs := by
    rw [hents, Bucket.pairs_addValue]
    rfl
  let ag₂ : Aggregate := { ag₁ with entries := Bucket.addIds (.integer v) nids ag₁.entries }
  have hnodup₂ : (ag₂.entries.map Bucket.value).Nodup := by
    rw [Bucket.map_addIds]
    exact hnodup₁
  have hps₂ : ag₂.pairs = ag.pairs + nids.val.map fun id => (id, Value.integer v) := by
    rw [← hps₁]
    exact Bucket.pairs_addIds hnodup₁ hmem fun id hid => hps₁ ▸ hnew id hid
  -- The number of ids of the value, before and after.
  obtain ⟨e, he, hv⟩ := List.mem_map.1 hmem
  have hdisj : Disjoint e.ids nids := Finset.disjoint_left.2 fun id hid hid' =>
    hnew id hid' (hps₁ ▸ Bucket.mem_pairs.2 ⟨e, he, hv, hid⟩)
  have hbef : ag₁.idCount (.integer v) = e.ids.card := hv ▸ idCount_of_mem hnodup₁ he
  have haft : ag₂.idCount (.integer v) = e.ids.card + nids.card := by
    have he' : { e with ids := e.ids ∪ nids } ∈ ag₂.entries :=
      List.mem_map.2 ⟨e, he, if_pos hv⟩
    rw [← Finset.card_union_of_disjoint hdisj]
    exact hv ▸ idCount_of_mem hnodup₂ he'
  let ag₃ : Aggregate := { ag₂ with count := ag₂.count +
    (BitVec.ofNat 32 (ag₂.idCount (.integer v)) - BitVec.ofNat 32 (ag₁.idCount (.integer v))) }
  have hpush : ag.push codec rank (.integer v) s = (ag₃, true) := by
    simp only [Aggregate.push, hdec]
    rfl
  have hcs : ∀ e' ∈ ag₂.entries, e' ∈ ag.entries ∨ e'.value = .integer v ∧ nids ⊆ e'.ids ∧
      ∀ id ∈ e'.ids, id ∈ nids ∨ ∃ e'' ∈ ag.entries, id ∈ e''.ids := by
    intro e' he'
    simp only [ag₂, hents] at he'
    exact Bucket.mem_addIds_addValue he'
  refine ⟨ag₃, hpush, ?_, haddr, hps₂⟩
  exact {
    given := hgiv.trans h.given
    nodup := hnodup₂
    nonempty := fun e' he' => by
      rcases hcs e' he' with he' | ⟨-, hsub, -⟩
      · exact h.nonempty e' he'
      · exact hne.mono hsub
    valid := fun e' he' id hid => by
      rcases hcs e' he' with he' | ⟨-, -, hids⟩
      · exact h.valid e' he' id hid
      rcases hids id hid with hid | ⟨e'', he'', hid⟩
      · exact codec.valid hdec id hid
      · exact h.valid e'' he'' id hid
    integer := fun e' he' => by
      rcases hcs e' he' with he' | ⟨hvl, -⟩
      · exact h.integer e' he'
      · exact ⟨v, hvl⟩
    total := htot.trans h.total
    count := by
      have hcard : ag₃.pairs.card = ag.pairs.card + nids.card := by
        rw [show ag₃.pairs = ag₂.pairs from rfl, hps₂, Multiset.card_add, Multiset.card_map,
          Finset.card_val]
      rw [hcard]
      simp only [ag₃, haft, hbef]
      exact count_add (hcnt.trans h.count)
    summary := fun hr => by
      subst hr
      have hsum := entryAdd_summary (h.summary rfl) (v := v)
      rw [SummaryOk] at hsum ⊢
      rw [show ag₃.entries = Bucket.addIds (.integer v) nids ag₁.entries from rfl,
        Bucket.map_addIds]
      refine hsum.imp_left fun hnil => ⟨?_, hnil.2⟩
      rw [hag₁, hnil.1]
      rfl }

/-! ### All entries of a push -/

theorem contents_cons : contents codec (p :: members)
      = (((codec.decode p.1).getD ∅).val.map fun id => (id, p.2)) + contents codec members :=
  sum_cons

/-- **Merging:** the entries of a push are added to an aggregate, if no id comes twice. -/
theorem pushJson_sound (h : Sound n rank ag) (hents : ∀ p ∈ visit, EntryOk codec p)
    (hnodup : ((ag.pairs + contents codec visit).map Prod.fst).Nodup) :
    ∃ ag', ag.pushJson codec rank visit = (ag', true) ∧ Sound n rank ag' ∧
      ag'.addr = ag.addr ∧ ag'.pairs = ag.pairs + contents codec visit := by
  induction visit generalizing ag with
  | nil => exact ⟨ag, rfl, h, rfl, (add_zero _).symm⟩
  | cons p visit ih =>
    obtain ⟨s, value⟩ := p
    obtain ⟨nids, v, hdec, hne, hvl⟩ := hents _ mem_cons_self
    obtain rfl : value = .integer v := hvl
    have hcons : contents codec ((s, .integer v) :: visit)
        = (nids.val.map fun id => (id, Value.integer v)) + contents codec visit := by
      rw [contents_cons, hdec]
      rfl
    rw [hcons, ← add_assoc] at hnodup
    have hfst : ((ag.pairs + nids.val.map fun id => (id, Value.integer v)).map
        Prod.fst).Nodup := (Multiset.nodup_add.1 (Multiset.map_add _ _ _ ▸ hnodup)).1
    have hnew : ∀ id ∈ nids, (id, Value.integer v) ∉ ag.pairs := by
      intro id hid hmem
      rw [Multiset.map_add, Multiset.nodup_add, Multiset.disjoint_left] at hfst
      refine hfst.2.2 (Multiset.mem_map.2 ⟨_, hmem, rfl⟩) ?_
      rw [Multiset.map_map]
      exact Multiset.mem_map.2 ⟨id, hid, rfl⟩
    obtain ⟨ag₁, hpush, hsnd, haddr, hps⟩ := push_sound h hdec hne hnew
    obtain ⟨ag', hrest, hsnd', haddr', hps'⟩ := ih hsnd
      (fun p hp => hents p (mem_cons_of_mem _ hp)) (hps ▸ hnodup)
    refine ⟨ag', ?_, hsnd', haddr'.trans haddr, ?_⟩
    · rw [Aggregate.pushJson, hpush]
      exact hrest
    · rw [hps', hps, hcons, add_assoc]

theorem contents_perm (h : visit.Perm members) : contents codec visit = contents codec members :=
  (h.map _).sum_eq

/-! ### The JSON object of an aggregate -/

variable [DecidableEq κ]

theorem foldl_jsonObjectSet {α β : Type} (key : β → κ) (val : β → α) (l : List β)
    (o : List (κ × α)) (hnodup : (o.map Prod.fst ++ l.map key).Nodup) :
    l.foldl (fun o e => Aggregate.jsonObjectSet o (key e) (val e)) o
      = o ++ l.map fun e => (key e, val e) := by
  induction l generalizing o with
  | nil => exact (append_nil o).symm
  | cons e l ih =>
    have hkey : key e ∉ o.map Prod.fst := fun hmem =>
      (disjoint_of_nodup_append hnodup) hmem mem_cons_self
    rw [foldl_cons, Aggregate.jsonObjectSet, if_neg hkey, ih, append_assoc]
    · rfl
    · rw [map_append, append_assoc]
      exact hnodup

section

variable (h : Sound n rank ag) (hnodup : (ag.pairs.map Prod.fst).Nodup)
include h hnodup

/-- **Encoding:** no entry of an aggregate is lost in its JSON object. -/
theorem entriesTojson_eq :
    ag.entriesTojson codec = ag.entries.map fun e => (codec.encode e.ids, e.value) := by
  have hids : (ag.entries.map Bucket.ids).Nodup := Bucket.nodup_ids hnodup h.nonempty
  have hkeys : (ag.entries.map fun e => codec.encode e.ids).Nodup := by
    refine List.Nodup.map_on (fun e he e' he' heq => ?_) (List.Nodup.of_map _ hids)
    have hdec := codec.decode_encode (h.valid e he)
    rw [heq, codec.decode_encode (h.valid e' he')] at hdec
    exact inj_on_of_nodup_map hids he he' (Option.some_inj.1 hdec).symm
  exact foldl_jsonObjectSet (fun e : Entry => codec.encode e.ids) Bucket.value ag.entries [] hkeys

theorem contents_entriesTojson :
    contents codec (ag.entriesTojson codec) = ag.pairs := by
  rw [entriesTojson_eq h hnodup, contents, Aggregate.pairs, Bucket.pairs, List.map_map]
  refine congrArg sum (map_congr_left fun e he => ?_)
  simp only [Function.comp_apply, codec.decode_encode (h.valid e he), Option.getD_some]

theorem entryOk_of_mem_entriesTojson : ∀ p ∈ ag.entriesTojson codec, EntryOk codec p := by
  intro p hp
  rw [entriesTojson_eq h hnodup] at hp
  obtain ⟨e, he, rfl⟩ := List.mem_map.1 hp
  obtain ⟨v, hv⟩ := h.integer e he
  exact ⟨e.ids, v, codec.decode_encode (h.valid e he), h.nonempty e he, hv⟩

end

end FluxCore.Aggregator
