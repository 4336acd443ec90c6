import FluxCore.Kvs.Leader.Shared

/-!
# Transactions That Are Tried Again

The ownership of directory objects, over whole runs of the leader. If a merged transaction
falls back only when none of the objects of its operations has been entered, then after every
failure the operations that are left in the queue are the ones that were added. At the end of
the file is a run without the condition: a key of a transaction that has failed is committed
by another one.
-/

namespace FluxCore.Kvs

open List Option

/-! ### Queues -/

namespace QueueShared

variable {owner owner' : ℕ → TxnId} {nextObj nextObj' : ℕ}
  {added added' : TxnId → List (Option (Op Empty))}

theorem nil : QueueShared owner nextObj added mem [] :=
  ⟨fun _ h => absurd h not_mem_nil, fun _ h => absurd h not_mem_nil,
    fun _ h => absurd h not_mem_nil, fun _ h => absurd h (by simp)⟩

section

variable (h : QueueShared owner nextObj added mem ready)
include h

theorem of_objs (hobjs : mem'.objs = mem.objs) (hin : mem'.entered = mem.entered) :
    QueueShared owner nextObj added mem' ready := by
  refine ⟨h.owned, ?_, ?_, fun kt hkt hb => ?_⟩
  · rw [hobjs, hin]
    exact h.added
  · rw [hin]
    exact h.pristine
  · have hs := h.closed kt hkt hb
    refine { hs with objs := ?_ }
    change ∀ i, _ → (mem'.objs i).All _
    rw [hobjs]
    exact hs.objs

theorem mono (howner : ∀ i < nextObj, owner' i = owner i) (hnext : nextObj ≤ nextObj')
    (hadded : ∀ kt ∈ ready, added' kt.id = added kt.id) :
    QueueShared owner' nextObj' added' mem ready := by
  refine ⟨fun x hx hm i hi => ?_, fun x hx hm => ?_, h.pristine, h.closed⟩
  · obtain ⟨h1, h2⟩ := h.owned x hx hm i hi
    exact ⟨(howner i h2).trans h1, h2.trans_le hnext⟩
  · rw [hadded x hx]
    exact h.added x hx hm

theorem denotes (hx : x ∈ ready) (hm : x.merged = false) (hu : ¬ UnderWay ready x) :
    List.Forall₂ (Op.Denotes mem.objs) x.ops (added x.id) := by
  have hpris := h.pristine x hx hm hu
  have hall (l : List (Option (Op ℕ))) (l' : List (Option (Op Empty)))
      (hl : List.Forall₂ (Allocated mem.objs mem.entered) l l')
      (hi : ∀ op ∈ l, ∀ i, Op.heldObj op = some i → i ∉ mem.entered) :
      List.Forall₂ (Op.Denotes mem.objs) l l' := by
    induction hl with
    | nil => exact .nil
    | @cons op _ l _ hop _ ih =>
      exact .cons (hop.denotes (hi op mem_cons_self))
        (ih fun o ho => hi o (mem_cons_of_mem _ ho))
  exact hall _ _ (h.added x hx hm) fun op hop i hi => hpris i (mem_held.2 ⟨op, hop, hi⟩)

end

end QueueShared

theorem mem_merge {id : TxnId} {ready : List (Kvstxn ℕ)} {x : Kvstxn ℕ}
    (hx : x ∈ kvstxnMgrMergeReadyTransactions id ready) (hm : x.merged = false) :
    ∃ y ∈ ready, x = y ∨ x = y.toComponent := by
  rw [kvstxnMgrMergeReadyTransactions.eq_def] at hx
  split at hx
  · split_ifs at hx
    · rcases mem_append.1 hx with hx | hx
      · rcases mem_cons.1 hx with rfl | hx
        · rw [foldl_kvstxnMerge] at hm
          cases hm
        · obtain ⟨y, hy, rfl⟩ := List.mem_map.1 hx
          exact ⟨y, takeWhile_subset _ hy, .inr rfl⟩
      · exact ⟨x, dropWhile_subset _ hx, .inl rfl⟩
    · exact ⟨x, hx, .inl rfl⟩
  · exact ⟨x, hx, .inl rfl⟩

theorem mem_getReady (h : kvstxnMgrGetReadyTransaction ready = some (ready', kt))
    (hx : x ∈ ready') : ∃ y ∈ ready, x = y ∨ x = y.setProcessing := by
  obtain ⟨kt₁, rest₁, rfl, -, heq⟩ := getReadyTransaction_eq_some h
  cases heq
  rcases mem_cons.1 hx with rfl | hx
  · exact ⟨kt₁, mem_cons_self, .inr rfl⟩
  · exact ⟨x, mem_cons_of_mem _ hx, .inl rfl⟩

namespace Leader

variable {cfg : Config} {s s' t : Leader}

/-! ### The invariant -/

/-- **The invariant:** in every queue the objects of operations are shared as they should be,
and no object has been entered that has not been allocated. -/
structure Shared (owner : ℕ → TxnId) (s : Leader) : Prop where
  queues : ∀ ns, QueueShared owner s.nextObj s.added s.mem (s.ready ns)
  entered : ∀ i ∈ s.mem.entered, i < s.nextObj

variable (cfg) in
/-- The condition on a step: if a merged transaction fails and falls back, none of the
directory objects that its operations carry has been entered, by a walk along a key or to be
unrolled. -/
def fallsBackClean (s : Leader) (l : Label) : Bool :=
  match call cfg s l with
  | none => true
  | some (s', k, sendFails) =>
    match applyProcess cfg s' sendFails k with
    | some (.done t kt (some e)) =>
      !kvstxnFallback kt e || kt.held.all fun i => i ∉ t.mem.entered
    | _ => true

theorem fallsBackClean.held (h : fallsBackClean cfg s l = true)
    (hc : call cfg s l = some (s', k, sendFails))
    (ha : applyProcess cfg s' sendFails k = some (.done t kt (some e)))
    (hf : kvstxnFallback kt e = true) : ∀ i ∈ kt.held, i ∉ t.mem.entered := by
  simpa only [fallsBackClean, hc, ha, hf, Bool.not_true, Bool.false_or, List.all_eq_true,
    decide_eq_true_eq] using h

/-! ### Steps that leave the operations alone -/

theorem Inv.queueWf (h : s.Inv) (ns : String) : QueueWf ns s.nextTxn (s.ready ns) := by
  cases hroot : s.roots ns with
  | none =>
    rw [ready, hroot]
    exact QueueOk.nil.toQueueWf
  | some root =>
    rw [ready_of_some hroot]
    exact (h.queues ns root hroot).toQueueWf

section

variable (h : s.Shared owner)
include h

theorem Shared.env (ht : s.Env t) : t.Shared owner := by
  refine ⟨fun ns => ?_, fun i hi => ?_⟩
  · rw [ht.nextObj, ht.added]
    rcases ht.marks with hrts | ⟨ks, e, -, hrts⟩
    · rw [ready_congr (congrFun hrts ns)]
      exact (h.queues ns).of_objs ht.objs ht.entered
    · rw [ready_setAuxErrnum hrts]
      exact ((h.queues ns).mark ks e).of_objs ht.objs ht.entered
  · rw [ht.nextObj]
    exact h.entered i (ht.entered ▸ hi)

theorem Shared.admin (ht : Admin cfg s t) : t.Shared owner := by
  refine ⟨fun ns => ?_, fun i hi => ?_⟩
  · rw [ht.nextObj, ht.added, ht.ready]
    exact (h.queues ns).of_objs ht.objs ht.entered
  · rw [ht.nextObj]
    exact h.entered i (ht.entered ▸ hi)

/-! ### New transactions -/

theorem Shared.add (hi : s.Inv) (ht : s.addTransaction ns name ops flags = some t) :
    ∃ owner', t.Shared owner' := by
  obtain ⟨root, objs, nextObj, ops', hroot, halloc, rfl⟩ := addTransaction_cases ht
  have hspec := allocOps_spec s.mem.objs s.nextObj s.mem.entered ops
  rw [halloc] at hspec
  obtain ⟨hnext, hobjs, hall, hheld⟩ := hspec
  set id : TxnId := ⟨ns, s.nextTxn⟩
  set owner' : ℕ → TxnId := fun i => if i < s.nextObj then owner i else id
  set added' := fun k => if k = id then ops else s.added k
  have hold (n : String) : QueueShared owner' nextObj added' { s.mem with objs := objs }
      (s.ready n) := by
    refine QueueShared.mono ((h.queues n).frame (hi.queueWf n) (fun _ h => h)
      (fun i _ hlt => hobjs i hlt) fun _ _ h => h) (fun i hlt => if_pos hlt) hnext fun x hx => ?_
    refine if_neg fun heq => ?_
    have hlt := ((hi.queueWf n).mem x hx).2
    rw [heq] at hlt
    exact lt_irrefl _ hlt
  refine ⟨owner', fun n => ?_, fun i hi => (h.entered i hi).trans_le hnext⟩
  by_cases hn : n = ns
  · subst hn
    rw [ready_of_some (if_pos rfl)]
    have hq := hold n
    rw [ready_of_some hroot] at hq
    refine hq.add (fun i hi => ?_) ?_ (fun i hi he => ?_) rfl
    · obtain ⟨op, hop, hheld'⟩ := mem_held.1 hi
      obtain ⟨hle, hlt⟩ := hheld op hop i hheld'
      exact ⟨if_neg hle.not_gt, hlt⟩
    · have heq : added' id = ops := if_pos rfl
      exact heq.symm ▸ hall
    · obtain ⟨op, hop, hheld'⟩ := mem_held.1 hi
      exact (hheld op hop i hheld').1.not_gt (h.entered i he)
  · rw [ready_congr (if_neg hn)]
    exact hold n

/-! ### Calls -/

theorem Shared.call (hi : s.Inv) (hc : Leader.call cfg s l = some (s', k, sendFails)) :
    s'.Shared owner := by
  cases l with
  | check ns sendFails' =>
    obtain ⟨⟨s₁, k₁⟩, hr, hc⟩ := map_eq_some_iff.1 hc
    cases hc
    obtain ⟨root, kt₀, rest₀, kt, rest, hroot, hrdy, hb, hns, hget, hfr, rfl, hcall⟩ :=
      hi.checkRoot hr
    refine ⟨fun n => ?_, h.entered⟩
    by_cases hn : n = ns
    · rw [ready_of_some (if_pos hn)]
      have hq := h.queues ns
      rw [ready_of_some hroot, hrdy] at hq
      refine hq.of_entries (fun x hx => (hi.head_fresh hroot hrdy hb x hx).blocked)
        (fun x hx => ?_) fun x hx hm => ?_
      · rcases mem_cons.1 hx with rfl | hx
        · exact hfr.blocked
        · exact (hcall.queue.tail x hx).blocked
      · obtain ⟨y, hy, hxy⟩ := mem_getReady hget hx
        have hym : y.merged = false := by rcases hxy with rfl | rfl <;> exact hm
        obtain ⟨z, hz, hyz⟩ : ∃ z ∈ kt₀.setProcessing :: rest₀, y = z ∨ y = z.toComponent := by
          split_ifs at hy
          · exact mem_merge hy hym
          · exact ⟨y, hy, .inl rfl⟩
        obtain ⟨u, hu, hzu⟩ : ∃ u ∈ kt₀ :: rest₀, z = u ∨ z = u.setProcessing := by
          rcases mem_cons.1 hz with rfl | hz
          · exact ⟨kt₀, mem_cons_self, .inr rfl⟩
          · exact ⟨z, mem_cons_of_mem _ hz, .inl rfl⟩
        refine ⟨u, hu, ?_⟩
        rcases hxy with rfl | rfl <;> rcases hyz with rfl | rfl <;> rcases hzu with rfl | rfl <;>
          exact ⟨hm, rfl, rfl⟩
    · rw [ready_congr (if_neg hn)]
      exact h.queues n
  | run k' sendFails' =>
    simp only [Leader.call] at hc
    split_ifs at hc
    cases hc
    exact { h with }
  | _ => cases hc

theorem Shared.safe (hc : s.Called k root kt rest) :
    Processing.Safe (· ∈ kt.held) ⟨kt, s.mem⟩ := by
  have hq := h.queues k.ns
  rw [hc.toHead.ready_eq] at hq
  rcases hc.ok with hf | hst
  · exact (hq.safe_of_fresh hc.queue.wf hf).1
  · exact hq.closed kt rfl hst.blocked

end

theorem Touches.changed (h : Touches cfg s k root kt t)
    (hs : Processing.Safe (· ∈ kt.held) ⟨kt, s.mem⟩) :
    Changed (· ∈ kt.held) s.mem t.mem := by
  rcases h with ⟨hobjs, hin⟩ | ⟨p, result, hp, hobjs, hin⟩
  · exact .of_eq hobjs hin
  · obtain ⟨⟨h1, h2, h3, h4⟩, -⟩ := hp.changed hs
    exact ⟨hin ▸ h1, hin ▸ h2, hobjs ▸ h3, hobjs ▸ hin ▸ h4⟩

theorem Shared.of_head (h : s.Shared owner) (hi : ∀ ns, QueueWf ns s.nextTxn (s.ready ns))
    (hc : s.Called k root kt rest) (hrest : s.SameRest t)
    (hch : Changed (· ∈ kt.held) s.mem t.mem) (hoth : ∀ n, n ≠ k.ns → t.roots n = s.roots n)
    (hown : QueueShared owner s.nextObj s.added t.mem (t.ready k.ns)) : t.Shared owner := by
  have hheld {i : ℕ} (hi : i ∈ kt.held) : (owner i).ns = k.ns ∧ i < s.nextObj := by
    have hq := h.queues k.ns
    rw [hc.toHead.ready_eq] at hq
    exact hq.head_owned hc.queue.toQueueWf hi
  refine ⟨fun n => ?_, fun i hie => ?_⟩
  · rw [hrest.nextObj, hrest.added]
    by_cases hn : n = k.ns
    · rw [hn]
      exact hown
    rw [ready_congr (hoth n hn)]
    refine (h.queues n).frame (hi n) hch.sub (fun i howner _ => hch.frame i fun hi => ?_)
      fun i howner hie => (hch.entered i hie).resolve_right fun hi => ?_
    · exact hn (howner.symm.trans (hheld hi).1)
    · exact hn (howner.symm.trans (hheld hi).1)
  · rw [hrest.nextObj]
    rcases hch.entered i hie with hie | hi
    · exact h.entered i hie
    · exact (hheld hi).2

/-- **A call keeps the invariant**, if what falls back has not been entered. -/
theorem Shared.called (h : s.Shared owner) (hc : s.Called k root kt rest)
    (hcl : ∀ u kt' e, applyProcess cfg s sendFails k = some (.done u kt' (some e)) →
      kvstxnFallback kt' e = true → ∀ i ∈ kt'.held, i ∉ u.mem.entered)
    (ht : kvstxnApply cfg s sendFails k = some t) : t.Shared owner := by
  have hq : QueueShared owner s.nextObj s.added s.mem (kt :: rest) :=
    hc.toHead.ready_eq ▸ h.queues k.ns
  have hsafe := h.safe hc
  have hwf (n : String) : QueueWf n s.nextTxn (s.ready n) := by
    cases hroot : s.roots n with
    | none =>
      rw [ready, hroot]
      exact QueueOk.nil.toQueueWf
    | some root =>
      rw [ready_of_some hroot]
      exact (hc.queues n root hroot).toQueueWf
  obtain ⟨hend, hrest⟩ := hc.ended ht
  cases hend with
  | @stalled p result kt' hp hres hsame hblk hstate href hnewroot hrcpy hobjs hin
      hrts _ _ =>
      have hch : Changed (· ∈ kt.held) s.mem t.mem :=
        Touches.changed (.inr ⟨p, result, hp, hobjs, hin⟩) hsafe
      have hps := (hp.changed hsafe).2 hres
      refine h.of_head hwf hc hrest hch (fun n hn => by rw [hrts, if_neg hn]) ?_
      rw [ready_of_some (by rw [hrts, if_pos rfl])]
      refine hq.stalled hc.queue.toQueueWf hsame hblk hch ⟨?_, ?_, ?_⟩
      · intro op hop o ho
        have hops : kt'.ops = p.kt.ops := (congrArg Kvstxn.Content.ops hsame.content).trans
          (congrArg Kvstxn.Content.ops hp.sameRequest.content).symm
        exact hps.ops op (hops ▸ hop) o ho
      · intro hr o ho
        exact hps.rootcpy (hstate ▸ hr) o (hrcpy ▸ ho)
      · intro i hi
        change (t.mem.objs i).All _
        rw [hobjs]
        exact hps.objs i hi
  | @failed s' kt' e hdone hsame htchs hin hrts _ _ =>
    have hch : Changed (· ∈ kt.held) s.mem t.mem := htchs.changed hsafe
    refine h.of_head hwf hc hrest hch (fun n hn => by rw [hrts, if_neg hn]) ?_
    rw [ready_of_some (by rw [hrts, if_pos rfl])]
    refine hq.removed hc.queue.toQueueWf hsame (hsame.processing.trans hc.processing) hch
      fun hf => ?_
    rw [hin]
    exact hcl s' kt' e hdone hf
  | @published p rootdir hp hobjs hin hrts _ _ =>
    have hch : Changed (· ∈ kt.held) s.mem t.mem :=
      Touches.changed (.inr ⟨p, _, hp, hobjs, hin⟩) hsafe
    refine h.of_head hwf hc hrest hch (fun n hn => by rw [hrts, if_neg hn]) ?_
    rw [ready_of_some (by rw [hrts, if_pos rfl])]
    exact hq.removed hc.queue.toQueueWf hp.sameRequest.toSameEntry
      (hp.sameRequest.processing.trans hc.processing) hch (fun hf => by cases hf)

theorem Outcome.done_head (h : Outcome cfg sendFails s k root kt rest (.done u kt' errnum))
    (hh : s.Head k root kt rest) : (∃ root', u.Head k root' kt' rest) ∧ kt.SameEntry kt' := by
  have hhead {s' : Leader} {mem : Mem ℕ} (htt : (s.withMem mem).Touched s')
      (hid : kt'.id = kt.id) : ∃ root', (s'.setHead k root kt' rest).Head k root' kt' rest := by
    obtain ⟨_, _, _, _, rfl⟩ := htt
    exact ⟨{ root with ready := kt' :: rest }, if_pos rfl, rfl, hid.trans hh.id⟩
  cases h with
  | removed | auxFailed => exact ⟨⟨root, hh⟩, ⟨rfl, rfl, rfl, rfl, rfl⟩⟩
  | failed _ hp | finished _ hp =>
    exact ⟨hhead (.refl _) hp.sameRequest.id, hp.sameRequest.toSameEntry⟩
  | loadFailed _ hp hiter =>
    exact ⟨hhead (touched_iterLoads hiter) hp.sameRequest.id, { hp.sameRequest.toSameEntry with }⟩
  | flushFailed _ hp hiter =>
    exact ⟨hhead (touched_iterFlushes hiter) hp.sameRequest.id,
      { hp.sameRequest.toSameEntry with }⟩

/-- **When a call has failed** the queue holds transactions as they were added, and none is
under way. -/
theorem Called.ready_of_failed (hc : s.Called k root kt rest)
    (ha : applyProcess cfg s sendFails k = some (.done u kt' (some e)))
    (ht : kvstxnApply cfg s sendFails k = some t) :
    ∀ x ∈ t.ready k.ns, x.Fresh ∧ x.merged = false := by
  have hmiss : kt.missingRefs = [] := hc.ok.elim (·.missingRefs) (·.missingRefs)
  obtain ⟨⟨root', hhead⟩, hsame⟩ :=
    (applyProcess_outcome hc.toHead hc.rest_ne hmiss ha).done_head hc.toHead
  have hwf := hc.queue.toQueueWf.replace_head hsame
  have hp : kt'.processing = true := hsame.processing.trans hc.processing
  rw [kvstxnApply, ha, bind_some] at ht
  obtain ⟨t', ht', rfl⟩ := map_eq_some_iff.1 ht
  rcases applyDone_cases hhead ht' with ⟨e', -, rfl⟩ | ⟨he, -⟩
  · intro x hx
    rw [ready_of_some (by rw [runWoken_roots, setRoot_roots, if_pos rfl])] at hx
    obtain ⟨y, hy, rfl | rfl⟩ := mem_remove hp hx
    · exact ⟨hwf.tail x hy, hwf.wf.rest_not_merged hy⟩
    · have hm : y.merged = false := hwf.wf.rest_not_merged hy
      exact ⟨(hwf.tail y hy).release, hm⟩
  · cases he

/-! ### Steps and runs -/

/-- **A step keeps the invariant**, under the condition. -/
theorem Shared.step (h : s.Shared owner) (hi : s.Inv) (hg : fallsBackClean cfg s l = true)
    (ht : (machine cfg).step l s = some t) : ∃ owner', t.Shared owner' := by
  cases hi.steps ht with
  | env hl henv => exact ⟨owner, h.env henv⟩
  | admin hl hadm => exact ⟨owner, h.admin hadm⟩
  | call hc hcall ht =>
    exact ⟨owner, (h.call hi hc).called hcall (fun u kt' e hdone hf =>
      fallsBackClean.held hg hc hdone hf) ht⟩
  | add ht => exact h.add hi ht

theorem Shared.init (h : Init cfg s) : s.Shared fun _ => ⟨"primary", 0⟩ := by
  obtain ⟨content, rfl⟩ := h
  refine ⟨fun n => ?_, fun i hi => absurd hi not_mem_nil⟩
  have hnil : (initial cfg content).ready n = [] := by
    change (((if n = "primary" then _ else _) : Option Kvsroot).map _).getD _ = _
    split_ifs <;> rfl
  rw [hnil]
  exact .nil

theorem shared_of_reach
    (hs : (machine cfg).Reach (fun s l => fallsBackClean cfg s l = true) (Init cfg) s) :
    ∃ owner, s.Shared owner :=
  hs.invariant (fun s => ∃ owner, s.Shared owner) (fun _ h => ⟨_, Shared.init h⟩)
    fun _ _ _ hr ⟨_, h⟩ hg ht => h.step (inv_of_reach hr) hg ht

/-- The ready queue of the primary namespace is checked. -/
def checkPrimary : Label := .check "primary" fun _ => none

/-- The error with which a call of `kvstxn_apply` is done, and the state after it. -/
def failure (cfg : Config) (s : Leader) (l : Label) : Option (Errno × Leader) :=
  (call cfg s l).bind fun r =>
    (applyProcess cfg r.1 r.2.2 r.2.1).bind fun a =>
      match a with
      | .done _ _ (some e) => (kvstxnApply cfg r.1 r.2.2 r.2.1).map (e, ·)
      | _ => none

theorem failure_eq_some (h : failure cfg s l = some (e, t)) :
    ∃ s' k sendFails u kt, call cfg s l = some (s', k, sendFails) ∧
      applyProcess cfg s' sendFails k = some (.done u kt (some e)) ∧
      kvstxnApply cfg s' sendFails k = some t := by
  obtain ⟨⟨s', k, sendFails⟩, hc, h⟩ := bind_eq_some_iff.1 h
  obtain ⟨a, ha, h⟩ := bind_eq_some_iff.1 h
  split at h
  · rename_i u kt e'
    obtain ⟨t', ht', heq⟩ := map_eq_some_iff.1 h
    cases heq
    exact ⟨s', k, sendFails, u, kt, hc, ha, ht'⟩
  · cases h

/-- Two transactions that are merged; the second one fails, and no object is entered. -/
def putThenFail : List Label :=
  [.addTransaction "primary" "t" [some ⟨"a", 0, some (.val "QQ==")⟩] 0,
    .addTransaction "primary" "u" [some ⟨".", 0, none⟩] 0]

/-- Two transactions that are merged: the first one creates a directory, the second one
assigns a key in it and then fails. -/
def mkdirThenFail : List Label :=
  [.addTransaction "primary" "t" [some ⟨"a", 0, some (.dir .nil)⟩] 0,
    .addTransaction "primary" "u" [some ⟨"a.b", 0, some (.val "QQ==")⟩, some ⟨".", 0, none⟩] 0]

/-- The blobref of the directory with the key `b`. -/
def dirWithB : Blobref := "sha1-78a88054fa77ce10a0fb977a6698dc492f30f5fd"

/-- The blobref of the root directory in which that directory is `a`. -/
def rootWithA : Blobref := "sha1-185d17ea6d5c0d36f47cad9ea110869351609e05"

/-- The first transaction is tried again, and is committed. -/
def commitFirst : List Label :=
  [checkPrimary, .contentStore rootWithA none, .contentStore dirWithB none,
    .run ⟨"primary", 0⟩ fun _ => none]

/-- The tree object under a reference. -/
def treeobjAt (cfg : Config) (s : Leader) (ref : Blobref) : Option (Treeobj Empty) :=
  (s.mem.cache ref).bind (cacheEntryGetTreeobj cfg.codec)

end Leader

end FluxCore.Kvs
