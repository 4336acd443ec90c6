import FluxCore.Kvs.Process

/-!
# The Ready Queue

The transaction manager of a namespace keeps the transactions that are ready in a queue
and works on its head. Adjacent transactions with the same flags may be merged: a new
transaction with the operations of all of them is pushed in front of them, and they stay
in the queue as its components. When the merged transaction is removed the components are
removed with it, or, as a fallback, they are released to be processed one at a time.
-/

namespace FluxCore.Kvs

open List

variable {ρ : Type}

/-- `flags & FLUX_KVS_NO_MERGE`. -/
def Kvstxn.noMerge (kt : Kvstxn ρ) : Bool := kt.flags.testBit 0

/-- `kvstxn_create`, for the operations of the requests `members`. -/
def kvstxnCreate (id : TxnId) (name : String) (ops : List (Option (Op ρ))) (flags : ℕ)
    (members : List ℕ) : Kvstxn ρ :=
  { id := id, ops := ops, names := [name], flags := flags, members := members }

/-- `kvstxn_create_empty`. -/
def kvstxnCreateEmpty (id : TxnId) (flags : ℕ) : Kvstxn ρ :=
  { id := id, ops := [], names := [], flags := flags }

/-- `kvstxn_mgr_add_transaction`. -/
def kvstxnMgrAddTransaction (ready : List (Kvstxn ρ)) (id : TxnId) (name : String)
    (ops : List (Option (Op ρ))) (flags : ℕ) (members : List ℕ) : List (Kvstxn ρ) :=
  ready ++ [kvstxnCreate id name ops flags members]

/-- `kvstxn_mgr_transaction_ready`. -/
def kvstxnMgrTransactionReady (ready : List (Kvstxn ρ)) : Bool :=
  match ready with
  | kt :: _ => !kt.blocked
  | [] => false

/-- Set the bit `KVSTXN_PROCESSING`. -/
def Kvstxn.setProcessing (kt : Kvstxn ρ) : Kvstxn ρ := { kt with processing := true }

/-- `kvstxn_mgr_get_ready_transaction`. The result is the queue, with the head marked as
being processed, and the head. -/
def kvstxnMgrGetReadyTransaction : List (Kvstxn ρ) → Option (List (Kvstxn ρ) × Kvstxn ρ)
  | kt :: rest =>
    if kt.blocked then none
    else some (kt.setProcessing :: rest, kt.setProcessing)
  | [] => none

/-- `kvstxn_merge`, of a transaction that can be merged. -/
def kvstxnMerge (dest src : Kvstxn ρ) : Kvstxn ρ :=
  { dest with names := dest.names ++ src.names, ops := dest.ops ++ src.ops,
              keys := dest.keys ++ src.keys, members := dest.members ++ src.members }

/-- Whether `kvstxn_merge` accepts `src`. -/
def kvstxnMergeable (flags : ℕ) (src : Kvstxn ρ) : Bool :=
  !src.noMerge && flags == src.flags

/-- Mark a transaction as a component of a merged one. -/
def Kvstxn.toComponent (kt : Kvstxn ρ) : Kvstxn ρ :=
  { kt with processing := false, mergeComponent := true }

/-- Whether `kvstxn_mgr_merge_ready_transactions` may start merging at `first`. -/
def Kvstxn.canStartMerge (first : Kvstxn ρ) : Bool :=
  first.errnum.isNone && first.auxErrnum.isNone && first.state.rank ≤ State.applyOps.rank &&
    !first.noMerge && !first.merged

/-- `kvstxn_mgr_merge_ready_transactions`; `id` is the address of the new transaction, if
there is one. -/
def kvstxnMgrMergeReadyTransactions (id : TxnId) (ready : List (Kvstxn ρ)) : List (Kvstxn ρ) :=
  match ready with
  | first :: second :: _ =>
    if first.canStartMerge && kvstxnMergeable first.flags second then
      let components := ready.takeWhile (kvstxnMergeable first.flags)
      let new := components.foldl kvstxnMerge
        { kvstxnCreateEmpty id first.flags with merged := true }
      new :: components.map Kvstxn.toComponent
        ++ ready.dropWhile (kvstxnMergeable first.flags)
    else ready
  | _ => ready

/-- Whether a transaction that has failed with `errnum` falls back to its components
(`kvstxn_apply`): errors that are the end of the namespace or of the module are final. -/
def kvstxnFallback (kt : Kvstxn ρ) (errnum : Errno) : Bool :=
  kvstxnFallbackMergeable kt && errnum != .ENOMEM && errnum != .ENOTSUP

/-- Release a component: it is a transaction of its own again and is not merged anymore. -/
def Kvstxn.release (kt : Kvstxn ρ) : Kvstxn ρ :=
  { kt with mergeComponent := false, flags := kt.flags ||| 1 }

/-- `kvstxn_mgr_remove_transaction`. -/
def kvstxnMgrRemoveTransaction (ready : List (Kvstxn ρ)) (kt : Kvstxn ρ) (fallback : Bool) :
    List (Kvstxn ρ) :=
  if kt.processing then
    let rest := ready.eraseP (·.id = kt.id)
    if kt.merged then
      let components := rest.takeWhile (·.mergeComponent)
      let others := rest.dropWhile (·.mergeComponent)
      if fallback then components.map Kvstxn.release ++ others else others
    else rest
  else ready

/-! ### The queue as a list of requests -/

/-- What a transaction stands for: its names, its operations and the requests they come
from. -/
structure Kvstxn.Content (ρ : Type) where
  names : List String
  ops : List (Option (Op ρ))
  members : List ℕ

/-- The content of a transaction. -/
def Kvstxn.content (kt : Kvstxn ρ) : Kvstxn.Content ρ := ⟨kt.names, kt.ops, kt.members⟩

/-- The content of several transactions in sequence. -/
def Kvstxn.Content.concat (l : List (Kvstxn.Content ρ)) : Kvstxn.Content ρ :=
  ⟨l.flatMap (·.names), l.flatMap (·.ops), l.flatMap (·.members)⟩

/-- The transactions that were added to the queue and are still there, without the merged
transaction that may stand in front of them. -/
def entries (ready : List (Kvstxn ρ)) : List (Kvstxn.Content ρ) :=
  (ready.filter fun kt => !kt.merged).map Kvstxn.content

/-- A transaction as it was added. -/
def Kvstxn.Single (kt : Kvstxn ρ) : Prop := kt.merged = false ∧ kt.mergeComponent = false

/-- A transaction that has been merged into another one. -/
def Kvstxn.Component (kt : Kvstxn ρ) : Prop := kt.merged = false ∧ kt.mergeComponent = true

/-- **The shape of a ready queue:** transactions as they were added, or a merged
transaction with its components in front of such transactions. -/
inductive ReadyWf : List (Kvstxn ρ) → Prop
  | single {ready : List (Kvstxn ρ)} (h : ∀ kt ∈ ready, kt.Single) : ReadyWf ready
  | merged {kt : Kvstxn ρ} {comps others : List (Kvstxn ρ)} (hkt : kt.merged = true)
      (hne : comps ≠ []) (hcomps : ∀ x ∈ comps, x.Component) (hothers : ∀ x ∈ others, x.Single)
      (hcontent : kt.content = .concat (comps.map Kvstxn.content)) :
      ReadyWf (kt :: (comps ++ others))

@[simp] theorem entries_nil : entries ([] : List (Kvstxn ρ)) = [] := rfl

theorem entries_append (l l' : List (Kvstxn ρ)) : entries (l ++ l') = entries l ++ entries l' := by
  simp [entries]

variable {kt : Kvstxn ρ}

theorem entries_cons_merged (h : kt.merged = true) (l : List (Kvstxn ρ)) :
    entries (kt :: l) = entries l := by
  simp [entries, h]

theorem entries_of_not_merged {l : List (Kvstxn ρ)} (h : ∀ kt ∈ l, kt.merged = false) :
    entries l = l.map Kvstxn.content := by
  rw [entries, filter_eq_self.2]
  intro kt hkt
  simp [h kt hkt]

@[simp] theorem Kvstxn.Content.concat_singleton (x : Kvstxn.Content ρ) :
    Kvstxn.Content.concat [x] = x := by
  simp [Kvstxn.Content.concat]

theorem Kvstxn.Content.mem_concat_names :
    name ∈ (Kvstxn.Content.concat l).names ↔ ∃ x ∈ l, name ∈ x.names := by
  simp [Kvstxn.Content.concat]

theorem Kvstxn.Content.mem_concat_members :
    n ∈ (Kvstxn.Content.concat l).members ↔ ∃ x ∈ l, n ∈ x.members := by
  simp [Kvstxn.Content.concat]

/-! ### Adding -/

theorem entries_add (ready : List (Kvstxn ρ)) (id : TxnId) (name : String)
    (ops : List (Option (Op ρ))) (flags : ℕ) (members : List ℕ) :
    entries (kvstxnMgrAddTransaction ready id name ops flags members)
      = entries ready ++ [⟨[name], ops, members⟩] := by
  rw [kvstxnMgrAddTransaction, entries_append]
  rfl

variable {ready : List (Kvstxn ρ)}

theorem ReadyWf.append_single (h : ReadyWf ready) (hkt : kt.Single) :
    ReadyWf (ready ++ [kt]) := by
  cases h with
  | single h =>
    refine .single fun x hx => ?_
    rcases mem_append.1 hx with hx | hx
    · exact h x hx
    · rw [mem_singleton.1 hx]
      exact hkt
  | @merged m comps others hm hne hcps hoths hcont =>
    rw [cons_append, append_assoc]
    refine .merged hm hne hcps (fun x hx => ?_) hcont
    rcases mem_append.1 hx with hx | hx
    · exact hoths x hx
    · rw [mem_singleton.1 hx]
      exact hkt

theorem ReadyWf.add (h : ReadyWf ready) (id : TxnId) (name : String) (ops : List (Option (Op ρ)))
    (flags : ℕ) (members : List ℕ) :
    ReadyWf (kvstxnMgrAddTransaction ready id name ops flags members) :=
  h.append_single ⟨rfl, rfl⟩

/-! ### Working on the head -/

variable {rest : List (Kvstxn ρ)}

theorem ReadyWf.replace_head (h : ReadyWf (kt :: rest)) (hcont : kt'.content = kt.content)
    (hmrg : kt'.merged = kt.merged) (hcomp : kt'.mergeComponent = kt.mergeComponent) :
    ReadyWf (kt' :: rest) := by
  generalize hr : kt :: rest = ready at h
  cases h with
  | single h =>
    subst hr
    refine .single fun x hx => ?_
    rcases mem_cons.1 hx with rfl | hx
    · obtain ⟨h1, h2⟩ := h kt mem_cons_self
      exact ⟨hmrg.trans h1, hcomp.trans h2⟩
    · exact h x (mem_cons_of_mem _ hx)
  | merged hm hne hcps hoths hc =>
    cases hr
    exact .merged (hmrg.trans hm) hne hcps hoths (hcont.trans hc)

theorem entries_replace_head (hcont : kt'.content = kt.content)
    (hmrg : kt'.merged = kt.merged) (rest : List (Kvstxn ρ)) :
    entries (kt' :: rest) = entries (kt :: rest) := by
  cases hm : kt.merged with
  | true => rw [entries_cons_merged hm, entries_cons_merged (hmrg.trans hm)]
  | false => simp [entries, hm, hmrg.trans hm, hcont]

theorem getReadyTransaction_eq_some (h : kvstxnMgrGetReadyTransaction ready = some r) :
    ∃ kt rest, ready = kt :: rest ∧ kt.blocked = false ∧
      r = (kt.setProcessing :: rest, kt.setProcessing) := by
  cases ready with
  | nil => cases h
  | cons kt rest =>
    rw [kvstxnMgrGetReadyTransaction] at h
    split at h
    · cases h
    rename_i hb
    cases h
    exact ⟨kt, rest, rfl, by simpa using hb, rfl⟩

theorem ReadyWf.setProcessing (h : ReadyWf (kt :: rest)) : ReadyWf (kt.setProcessing :: rest) :=
  h.replace_head rfl rfl rfl

theorem entries_setProcessing (kt : Kvstxn ρ) (rest : List (Kvstxn ρ)) :
    entries (kt.setProcessing :: rest) = entries (kt :: rest) :=
  entries_replace_head (show kt.setProcessing.content = kt.content from rfl) rfl rest

/-! ### Merging -/

theorem foldl_kvstxnMerge (comps : List (Kvstxn ρ)) (kt : Kvstxn ρ) : comps.foldl kvstxnMerge kt =
      { kt with names := kt.names ++ comps.flatMap (·.names),
                ops := kt.ops ++ comps.flatMap (·.ops), keys := kt.keys ++ comps.flatMap (·.keys),
                members := kt.members ++ comps.flatMap (·.members) } := by
  induction comps generalizing kt with
  | nil => simp
  | cons x comps ih =>
    rw [foldl_cons, ih]
    simp [kvstxnMerge]

/-- **Merging keeps the queue's content** and its shape. -/
theorem ReadyWf.merge (h : ReadyWf ready) (id : TxnId) :
    ReadyWf (kvstxnMgrMergeReadyTransactions id ready) ∧
      entries (kvstxnMgrMergeReadyTransactions id ready) = entries ready := by
  rw [kvstxnMgrMergeReadyTransactions.eq_def]
  split
  · rename_i first second rest
    split
    · rename_i hcond
      simp only [Bool.and_eq_true, Kvstxn.canStartMerge, Bool.not_eq_true'] at hcond
      obtain ⟨⟨⟨-, hnm⟩, hfst⟩, -⟩ := hcond
      generalize hr : first :: second :: rest = ready at h
      cases h with
      | merged hm =>
        rw [← (List.cons.inj hr).1, hfst] at hm
        cases hm
      | single hs =>
        set p := kvstxnMergeable (ρ := ρ) first.flags with hp
        have hspl : ready.takeWhile p ++ ready.dropWhile p = ready :=
          takeWhile_append_dropWhile
        have hne : ready.takeWhile p ≠ [] := by
          have : p first = true := by
            rw [hp, kvstxnMergeable, hnm]
            simp
          rw [← hr, takeWhile_cons, if_pos this]
          exact cons_ne_nil _ _
        have hmem (x : Kvstxn ρ) (hx : x ∈ ready.takeWhile p) : x.Single :=
          hs x (List.takeWhile_prefix p |>.mem hx)
        have hmem' (x : Kvstxn ρ) (hx : x ∈ ready.dropWhile p) : x.Single :=
          hs x (dropWhile_suffix p |>.mem hx)
        constructor
        · refine .merged ?_ (by simpa using hne) ?_ hmem' ?_
          · rw [foldl_kvstxnMerge]
          · intro x hx
            obtain ⟨y, hy, rfl⟩ := List.mem_map.1 hx
            exact ⟨(hmem y hy).1, rfl⟩
          · rw [foldl_kvstxnMerge]
            simp only [Kvstxn.content, kvstxnCreateEmpty, nil_append,
              Kvstxn.Content.concat, List.map_map, flatMap_map]
            rfl
        · rw [cons_append, entries_cons_merged (by rw [foldl_kvstxnMerge]),
            entries_append, entries_of_not_merged (fun x hx => (hmem' x hx).1),
            entries_of_not_merged, entries_of_not_merged (fun x hx => (hs x hx).1), List.map_map]
          · conv_rhs => rw [← hspl, map_append]
            rfl
          · intro x hx
            obtain ⟨y, hy, rfl⟩ := List.mem_map.1 hx
            exact (hmem y hy).1
    · exact ⟨h, rfl⟩
  · exact ⟨h, rfl⟩

/-! ### Removing the head -/

theorem takeWhile_components {comps others : List (Kvstxn ρ)} (hcps : ∀ x ∈ comps, x.Component)
    (hoths : ∀ x ∈ others, x.Single) : (comps ++ others).takeWhile (·.mergeComponent) = comps ∧
      (comps ++ others).dropWhile (·.mergeComponent) = others := by
  have hnil : others.takeWhile (·.mergeComponent) = [] ∧
      others.dropWhile (·.mergeComponent) = others := by
    cases others with
    | nil => exact ⟨rfl, rfl⟩
    | cons x others => simp [(hoths x mem_cons_self).2]
  rw [takeWhile_append_of_pos (fun x hx => (hcps x hx).2),
    dropWhile_append_of_pos (fun x hx => (hcps x hx).2), hnil.1, hnil.2, append_nil]
  exact ⟨rfl, rfl⟩

/-- **A fallback keeps the queue's content:** the merged transaction goes and its
components are transactions of their own again. -/
theorem ReadyWf.remove_fallback (h : ReadyWf (kt :: rest)) (hp : kt.processing = true)
    (hm : kt.merged = true) : ReadyWf (kvstxnMgrRemoveTransaction (kt :: rest) kt true) ∧
      entries (kvstxnMgrRemoveTransaction (kt :: rest) kt true) = entries (kt :: rest) := by
  generalize hr : kt :: rest = ready at h
  cases h with
  | single h =>
    subst hr
    rw [(h kt mem_cons_self).1] at hm
    cases hm
  | @merged _ comps others _ hne hcps hoths _ =>
    cases hr
    obtain ⟨ht, hd⟩ := takeWhile_components hcps hoths
    have hrel (x : Kvstxn ρ) (hx : x ∈ comps.map Kvstxn.release) : x.Single := by
      obtain ⟨y, hy, rfl⟩ := List.mem_map.1 hx
      exact ⟨(hcps y hy).1, rfl⟩
    have heq : kvstxnMgrRemoveTransaction (kt :: (comps ++ others)) kt true
        = comps.map Kvstxn.release ++ others := by
      simp [kvstxnMgrRemoveTransaction, hp, hm, ht, hd]
    rw [heq]
    constructor
    · refine .single fun x hx => ?_
      rcases mem_append.1 hx with hx | hx
      · exact hrel x hx
      · exact hoths x hx
    · rw [entries_cons_merged hm, entries_append, entries_append,
        entries_of_not_merged (fun x hx => (hrel x hx).1),
        entries_of_not_merged (fun x hx => (hcps x hx).1), List.map_map]
      rfl

/-- **Removing the head removes its content from the front of the queue.** -/
theorem ReadyWf.remove (h : ReadyWf (kt :: rest)) (hp : kt.processing = true) :
    ReadyWf (kvstxnMgrRemoveTransaction (kt :: rest) kt false) ∧
      ∃ front, front ≠ [] ∧ kt.content = .concat front ∧ entries (kt :: rest)
          = front ++ entries (kvstxnMgrRemoveTransaction (kt :: rest) kt false) := by
  generalize hr : kt :: rest = ready at h
  cases h with
  | single h =>
    subst hr
    have hkt := h kt mem_cons_self
    have heq : kvstxnMgrRemoveTransaction (kt :: rest) kt false = rest := by
      simp [kvstxnMgrRemoveTransaction, hp, hkt.1]
    rw [heq]
    refine ⟨.single fun x hx => h x (mem_cons_of_mem _ hx), [kt.content],
      cons_ne_nil _ _, (Kvstxn.Content.concat_singleton _).symm, ?_⟩
    simp [entries, hkt.1]
  | @merged _ comps others hm hne hcps hoths hcont =>
    cases hr
    obtain ⟨-, hd⟩ := takeWhile_components hcps hoths
    have heq : kvstxnMgrRemoveTransaction (kt :: (comps ++ others)) kt false = others := by
      simp [kvstxnMgrRemoveTransaction, hp, hm, hd]
    rw [heq]
    refine ⟨.single hoths, comps.map Kvstxn.content, by simpa using hne, hcont, ?_⟩
    rw [entries_cons_merged hm, entries_append,
      entries_of_not_merged (fun x hx => (hcps x hx).1)]

end FluxCore.Kvs
