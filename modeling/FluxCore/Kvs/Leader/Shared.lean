import FluxCore.Kvs.Leader.Steps
import FluxCore.Kvs.Held

/-!
# Objects That Operations Share

A directory that a client sends in an operation is linked into the working copy as it is, and
later operations change it in place. A merged transaction works on the operations of its
components, so an attempt that fails can leave its marks in operations that are then tried
again one transaction at a time. This module shows when it does not: if no directory object
of an operation has been entered by the attempt.
-/

namespace FluxCore.Kvs

open List

/-! ### What an operation denotes -/

mutual
/-- The plain value that an object in memory stands for. -/
inductive Treeobj.Denotes (objs : ℕ → Dir ℕ) : Treeobj ℕ → Treeobj Empty → Prop
  | val (data : String) : Treeobj.Denotes objs (.val data) (.val data)
  | valref (refs : List Blobref) : Treeobj.Denotes objs (.valref refs) (.valref refs)
  | dirref (refs : List Blobref) : Treeobj.Denotes objs (.dirref refs) (.dirref refs)
  | symlink (target : String) : Treeobj.Denotes objs (.symlink target) (.symlink target)
  | invalid : Treeobj.Denotes objs .invalid .invalid
  | dir {d d'} (h : Dir.Denotes objs d d') : Treeobj.Denotes objs (.dir d) (.dir d')
  | held {i d'} (h : Dir.Denotes objs (objs i) d') : Treeobj.Denotes objs (.held i) (.dir d')

/-- The plain value of the members of a directory. -/
inductive Dir.Denotes (objs : ℕ → Dir ℕ) : Dir ℕ → Dir Empty → Prop
  | nil : Dir.Denotes objs .nil .nil
  | cons {n o o' r r'} (ho : Treeobj.Denotes objs o o') (hr : Dir.Denotes objs r r') :
      Dir.Denotes objs (.cons n o r) (.cons n o' r')
end

/-- The operation that an operation in memory stands for. -/
inductive Op.Denotes (objs : ℕ → Dir ℕ) : Option (Op ℕ) → Option (Op Empty) → Prop
  | undecodable : Op.Denotes objs none none
  | unlink (key : String) (flags : ℕ) :
      Op.Denotes objs (some ⟨key, flags, none⟩) (some ⟨key, flags, none⟩)
  | link {key flags o o'} (h : Treeobj.Denotes objs o o') :
      Op.Denotes objs (some ⟨key, flags, some o⟩) (some ⟨key, flags, some o'⟩)

mutual
theorem Treeobj.denotes_copy (objs : ℕ → Dir ℕ) (o : Treeobj Empty) : o.copy.Denotes objs o := by
  cases o with
  | val data => exact .val data
  | valref refs => exact .valref refs
  | dirref refs => exact .dirref refs
  | symlink target => exact .symlink target
  | dir d => exact .dir (Dir.denotes_copy objs d)
  | held i => exact i.elim
  | invalid => exact .invalid

theorem Dir.denotes_copy (objs : ℕ → Dir ℕ) (d : Dir Empty) : d.copy.Denotes objs d := by
  match d with
  | .nil => exact .nil
  | .cons _ o r => exact .cons (Treeobj.denotes_copy objs o) (Dir.denotes_copy objs r)
end

/-! ### Operations as they were added -/

/-- The directory object that an operation holds. -/
def Op.heldObj : Option (Op ℕ) → Option ℕ
  | some ⟨_, _, some (.held i)⟩ => some i
  | _ => none

/-- The directory objects that the operations of a transaction hold. -/
def Kvstxn.held (kt : Kvstxn ℕ) : List ℕ := kt.ops.filterMap Op.heldObj

/-- The operation is as it was allocated, but for an object that has been entered. -/
inductive Allocated (objs : ℕ → Dir ℕ) (entered : List ℕ) :
    Option (Op ℕ) → Option (Op Empty) → Prop
  | undecodable : Allocated objs entered none none
  | unlink (key : String) (flags : ℕ) :
      Allocated objs entered (some ⟨key, flags, none⟩) (some ⟨key, flags, none⟩)
  | copy (key : String) (flags : ℕ) (o : Treeobj Empty) (ho : ∀ d, o ≠ .dir d) :
      Allocated objs entered (some ⟨key, flags, some o.copy⟩) (some ⟨key, flags, some o⟩)
  | dir {key flags i d} (h : i ∉ entered → objs i = d.copy) :
      Allocated objs entered (some ⟨key, flags, some (.held i)⟩) (some ⟨key, flags, some (.dir d)⟩)

theorem Allocated.change (h : Allocated objs entered op op') (hsub : ∀ i ∈ entered, i ∈ entered')
    (hobjs : ∀ i, Op.heldObj op = some i → i ∉ entered' → objs' i = objs i) :
    Allocated objs' entered' op op' := by
  cases h with
  | undecodable => exact .undecodable
  | unlink key flags => exact .unlink key flags
  | copy key flags o ho => exact .copy key flags o ho
  | dir h => exact .dir fun hi => (hobjs _ rfl hi).trans (h fun he => hi (hsub _ he))

theorem allocated_change (h : List.Forall₂ (Allocated objs entered) ops' ops)
    (hsub : ∀ i ∈ entered, i ∈ entered')
    (hobjs : ∀ i ∈ ops'.filterMap Op.heldObj, i ∉ entered' → objs' i = objs i) :
    List.Forall₂ (Allocated objs' entered') ops' ops := by
  induction h with
  | nil => exact .nil
  | @cons op _ ops _ h _ ih =>
    refine .cons (h.change hsub fun i hi => hobjs i ?_) (ih fun i hi => hobjs i ?_)
    · exact mem_filterMap.2 ⟨op, mem_cons_self, hi⟩
    · obtain ⟨o, ho, hi⟩ := mem_filterMap.1 hi
      exact mem_filterMap.2 ⟨o, mem_cons_of_mem _ ho, hi⟩

theorem Allocated.denotes (h : Allocated objs entered op op')
    (hi : ∀ i, Op.heldObj op = some i → i ∉ entered) : Op.Denotes objs op op' := by
  cases h with
  | undecodable => exact .undecodable
  | unlink key flags => exact .unlink key flags
  | copy key flags o ho => exact .link (Treeobj.denotes_copy objs o)
  | dir h =>
    refine .link (.held ?_)
    rw [h (hi _ rfl)]
    exact Dir.denotes_copy objs _

theorem heldObj_copy (key : String) (flags : ℕ) (o : Treeobj Empty) :
    Op.heldObj (some ⟨key, flags, some o.copy⟩) = none := by
  cases o with
  | held i => exact i.elim
  | _ => rfl

theorem Allocated.all (h : Allocated objs entered op op') (hI : ∀ i, Op.heldObj op = some i → I i)
    (ho : op = some o) (ht : o.dirent = some t) : t.All I := by
  cases h with
  | undecodable => cases ho
  | unlink key flags =>
    cases ho
    cases ht
  | copy key flags o' =>
    cases ho
    cases ht
    exact Treeobj.all_copy o'
  | dir =>
    cases ho
    cases ht
    exact hI _ rfl

theorem Allocated.exists_dir (h : Allocated objs entered op op') (hi : Op.heldObj op = some i) :
    ∃ d : Dir Empty, i ∉ entered → objs i = d.copy := by
  cases h with
  | undecodable | unlink key flags => cases hi
  | copy key flags o =>
    rw [heldObj_copy] at hi
    cases hi
  | @dir key flags j d h =>
    cases hi
    exact ⟨d, h⟩

theorem mem_of_forall₂ (h : List.Forall₂ (Allocated objs entered) ops' ops) (hop : op ∈ ops') :
    ∃ op', Allocated objs entered op op' := by
  induction h with
  | nil => cases hop
  | cons h _ ih =>
    rcases mem_cons.1 hop with rfl | hop
    · exact ⟨_, h⟩
    · exact ih hop

namespace Leader

/-- **What allocating operations does:** the objects come from a fresh range. -/
theorem allocOps_spec (objs : ℕ → Dir ℕ) (next : ℕ) (entered : List ℕ)
    (ops : List (Option (Op Empty))) : let r := allocOps objs next ops
    next ≤ r.2.1 ∧ (∀ i < next, r.1 i = objs i) ∧ List.Forall₂ (Allocated r.1 entered) r.2.2 ops ∧
      ∀ op ∈ r.2.2, ∀ i, Op.heldObj op = some i → next ≤ i ∧ i < r.2.1 := by
  induction ops generalizing objs next with
  | nil => exact ⟨le_rfl, fun _ _ => rfl, .nil, fun _ h => by cases h⟩
  | cons op ops ih =>
    have hpl (op' : Option (Op ℕ)) (hop : ∀ objs, Allocated objs entered op' op)
        (hheld : Op.heldObj op' = none) : let r := allocOps objs next ops
        next ≤ r.2.1 ∧ (∀ i < next, r.1 i = objs i) ∧
          List.Forall₂ (Allocated r.1 entered) (op' :: r.2.2) (op :: ops) ∧
          ∀ o ∈ op' :: r.2.2, ∀ i, Op.heldObj o = some i → next ≤ i ∧ i < r.2.1 := by
      obtain ⟨h1, h2, h3, h4⟩ := ih objs next
      refine ⟨h1, h2, .cons (hop _) h3, fun o ho i hi => ?_⟩
      rcases mem_cons.1 ho with rfl | ho
      · rw [hheld] at hi
        cases hi
      · exact h4 o ho i hi
    match op with
    | none => exact hpl none (fun _ => .undecodable) rfl
    | some ⟨key, flags, none⟩ => exact hpl _ (fun _ => .unlink key flags) rfl
    | some ⟨key, flags, some (.dir d)⟩ =>
      obtain ⟨h1, h2, h3, h4⟩ := ih (Function.update objs next d.copy) (next + 1)
      refine ⟨(Nat.le_succ _).trans h1, fun i hi => ?_, .cons (.dir fun _ => ?_) h3,
        fun o ho i hi => ?_⟩
      · refine (h2 i (hi.trans (Nat.lt_succ_self _))).trans ?_
        rw [Function.update_of_ne hi.ne]
      · refine (h2 next (Nat.lt_succ_self _)).trans ?_
        rw [Function.update_self]
      · rcases mem_cons.1 ho with rfl | ho
        · cases hi
          exact ⟨le_rfl, h1⟩
        · exact ⟨(Nat.le_succ _).trans (h4 o ho i hi).1, (h4 o ho i hi).2⟩
    | some ⟨key, flags, some (.val data)⟩ =>
      exact hpl _ (fun _ => .copy key flags (.val data) (by simp)) rfl
    | some ⟨key, flags, some (.valref refs)⟩ =>
      exact hpl _ (fun _ => .copy key flags (.valref refs) (by simp)) rfl
    | some ⟨key, flags, some (.dirref refs)⟩ =>
      exact hpl _ (fun _ => .copy key flags (.dirref refs) (by simp)) rfl
    | some ⟨key, flags, some (.symlink target)⟩ =>
      exact hpl _ (fun _ => .copy key flags (.symlink target) (by simp)) rfl
    | some ⟨key, flags, some .invalid⟩ =>
      exact hpl _ (fun _ => .copy key flags .invalid (by simp)) rfl

end Leader

/-! ### Queues -/

/-- The transaction is being worked on: it is the head and has stalled, or it is a component
of such a head. -/
def UnderWay : List (Kvstxn ℕ) → Kvstxn ℕ → Prop
  | head :: _, kt =>
    head.blocked = true ∧ (kt.id = head.id ∨ head.merged = true ∧ kt.mergeComponent = true)
  | [], _ => False

/-- What holds of the operations in one queue: each object belongs to one transaction, the
operations are as they were added but for objects that have been entered, no object has been
entered of a transaction that is not under way, and a head that has stalled refers to its own
objects only. -/
structure QueueShared (owner : ℕ → TxnId) (nextObj : ℕ) (added : TxnId → List (Option (Op Empty)))
    (mem : Mem ℕ) (ready : List (Kvstxn ℕ)) : Prop where
  owned : ∀ kt ∈ ready, kt.merged = false → ∀ i ∈ kt.held, owner i = kt.id ∧ i < nextObj
  added : ∀ kt ∈ ready, kt.merged = false →
    List.Forall₂ (Allocated mem.objs mem.entered) kt.ops (added kt.id)
  pristine : ∀ kt ∈ ready, kt.merged = false → ¬ UnderWay ready kt → ∀ i ∈ kt.held,
    i ∉ mem.entered
  closed : ∀ kt ∈ ready.head?, kt.blocked = true →
    Processing.Safe (· ∈ kt.held) ⟨kt, mem⟩

variable {added : TxnId → List (Option (Op Empty))} {kt kt' x : Kvstxn ℕ}

theorem mem_held : i ∈ kt.held ↔ ∃ op ∈ kt.ops, Op.heldObj op = some i := mem_filterMap

section

variable (h : ReadyWf (kt :: rest))
include h

/-- The operations of the head of a queue are its own or, if it is merged, those of its
components. -/
theorem ReadyWf.exists_op (hop : op ∈ kt.ops) :
    ∃ x ∈ kt :: rest, x.merged = false ∧ op ∈ x.ops ∧
      (x = kt ∨ kt.merged = true ∧ x.mergeComponent = true) := by
  generalize hr : kt :: rest = ready at h
  cases h with
  | single h =>
    subst hr
    exact ⟨kt, mem_cons_self, (h kt mem_cons_self).1, hop, .inl rfl⟩
  | @merged _ comps others hm _ hcps _ hcont =>
    cases hr
    have hops := congrArg Kvstxn.Content.ops hcont
    simp only [Kvstxn.content, Kvstxn.Content.concat, flatMap_map] at hops
    rw [hops] at hop
    obtain ⟨x, hx, hop⟩ := mem_flatMap.1 hop
    exact ⟨x, mem_cons_of_mem _ (mem_append_left _ hx), (hcps x hx).1, hop,
      .inr ⟨hm, (hcps x hx).2⟩⟩

theorem ReadyWf.exists_held (hi : i ∈ kt.held) :
    ∃ x ∈ kt :: rest, x.merged = false ∧ i ∈ x.held ∧
      (x = kt ∨ kt.merged = true ∧ x.mergeComponent = true) := by
  obtain ⟨op, hop, hheld⟩ := mem_held.1 hi
  obtain ⟨x, hx, hm, hop, hor⟩ := h.exists_op hop
  exact ⟨x, hx, hm, mem_held.2 ⟨op, hop, hheld⟩, hor⟩

theorem ReadyWf.held_of_component (hx : x ∈ rest) (hc : x.mergeComponent = true) (hi : i ∈ x.held)
    : i ∈ kt.held := by
  generalize hr : kt :: rest = ready at h
  cases h with
  | single h =>
    subst hr
    rw [(h x (mem_cons_of_mem _ hx)).2] at hc
    cases hc
  | @merged _ comps others hm _ hcps hoths hcont =>
    cases hr
    rcases mem_append.1 hx with hx | hx
    · have hops := congrArg Kvstxn.Content.ops hcont
      simp only [Kvstxn.content, Kvstxn.Content.concat, flatMap_map] at hops
      obtain ⟨op, hop, hheld⟩ := mem_held.1 hi
      exact mem_held.2 ⟨op, hops ▸ mem_flatMap.2 ⟨x, hx, hop⟩, hheld⟩
    · rw [(hoths x hx).2] at hc
      cases hc

/-- What stays in the queue when its head is removed is not a component, or it is released as
a fallback. -/
theorem ReadyWf.mem_remove (hp : kt.processing = true)
    (hx : x ∈ kvstxnMgrRemoveTransaction (kt :: rest) kt fallback) :
    ∃ y ∈ rest, (x = y ∨ x = y.release) ∧ (y.mergeComponent = true → fallback = true) := by
  cases fallback with
  | true =>
    obtain ⟨y, hy, hor⟩ := Kvs.mem_remove hp hx
    exact ⟨y, hy, hor, fun _ => rfl⟩
  | false =>
    generalize hr : kt :: rest = ready at h
    cases h with
    | single h =>
      subst hr
      obtain ⟨y, hy, hor⟩ := Kvs.mem_remove hp hx
      refine ⟨y, hy, hor, fun hc => ?_⟩
      rw [(h y (mem_cons_of_mem _ hy)).2] at hc
      cases hc
    | @merged _ comps others hm _ hcps hoths _ =>
      cases hr
      have heq : kvstxnMgrRemoveTransaction (kt :: (comps ++ others)) kt false = others := by
        simp [kvstxnMgrRemoveTransaction, hp, hm, (takeWhile_components hcps hoths).2]
      rw [heq] at hx
      refine ⟨x, mem_append_right _ hx, .inl rfl, fun hc => ?_⟩
      rw [(hoths x hx).2] at hc
      cases hc

theorem ReadyWf.rest_not_merged (hx : x ∈ rest) : x.merged = false := by
  generalize hr : kt :: rest = ready at h
  cases h with
  | single h =>
    subst hr
    exact (h x (mem_cons_of_mem _ hx)).1
  | merged _ _ hcps hoths _ =>
    cases hr
    rcases mem_append.1 hx with hx | hx
    · exact (hcps x hx).1
    · exact (hoths x hx).1

end

namespace QueueShared

theorem head_owned (h : QueueShared owner nextObj added mem (kt :: rest))
    (hwf : QueueWf ns bound (kt :: rest)) (hi : i ∈ kt.held) :
    (owner i).ns = ns ∧ i < nextObj := by
  obtain ⟨x, hx, hm, hix, -⟩ := hwf.wf.exists_held hi
  obtain ⟨h1, h2⟩ := h.owned x hx hm i hix
  exact ⟨h1 ▸ (hwf.mem x hx).1, h2⟩

/-- **Changes to objects that are not held in this queue** do not concern it. -/
theorem frame (h : QueueShared owner nextObj added mem ready) (hwf : QueueWf ns bound ready)
    (hsub : ∀ i ∈ mem.entered, i ∈ mem'.entered)
    (hobjs : ∀ i, (owner i).ns = ns → i < nextObj → mem'.objs i = mem.objs i)
    (hin : ∀ i, (owner i).ns = ns → i ∈ mem'.entered → i ∈ mem.entered) :
    QueueShared owner nextObj added mem' ready := by
  have hns {x : Kvstxn ℕ} (hx : x ∈ ready) (hm : x.merged = false) {i : ℕ} (hi : i ∈ x.held) :
      (owner i).ns = ns := (h.owned x hx hm i hi).1 ▸ (hwf.mem x hx).1
  refine ⟨h.owned, fun x hx hm => ?_, fun x hx hm hu i hi he => ?_, fun x hx hb => ?_⟩
  · exact allocated_change (h.added x hx hm) hsub fun i hi _ =>
      hobjs i (hns hx hm hi) (h.owned x hx hm i hi).2
  · exact h.pristine x hx hm hu i hi (hin i (hns hx hm hi) he)
  · cases ready with
    | nil => cases hx
    | cons kt rest =>
      cases hx
      have hs := h.closed _ rfl hb
      refine ⟨hs.ops, hs.rootcpy, fun i hi => ?_⟩
      obtain ⟨h1, h2⟩ := h.head_owned hwf hi
      change (mem'.objs i).All _
      rw [hobjs i h1 h2]
      exact hs.objs i hi

theorem add (h : QueueShared owner nextObj added mem ready)
    (howned : ∀ i ∈ kt.held, owner i = kt.id ∧ i < nextObj)
    (hadded : List.Forall₂ (Allocated mem.objs mem.entered) kt.ops (added kt.id))
    (hin : ∀ i ∈ kt.held, i ∉ mem.entered) (hb : kt.blocked = false) :
    QueueShared owner nextObj added mem (ready ++ [kt]) := by
  refine ⟨fun x hx hm => ?_, fun x hx hm => ?_, fun x hx hm hu => ?_, fun x hx hb' => ?_⟩
  · rcases mem_append.1 hx with hx | hx
    · exact h.owned x hx hm
    · rw [mem_singleton.1 hx]
      exact howned
  · rcases mem_append.1 hx with hx | hx
    · exact h.added x hx hm
    · rw [mem_singleton.1 hx]
      exact hadded
  · rcases mem_append.1 hx with hx | hx
    · refine h.pristine x hx hm fun hu' => hu ?_
      cases ready with
      | nil => exact hu'.elim
      | cons y ready => exact hu'
    · rw [mem_singleton.1 hx]
      exact hin
  · cases ready with
    | nil =>
      cases hx
      rw [hb] at hb'
      cases hb'
    | cons y ready => exact h.closed x hx hb'

/-- A head that has not stalled refers to its own objects only, which are as they were
added. -/
theorem safe_of_fresh (h : QueueShared owner nextObj added mem (kt :: rest))
    (hwf : ReadyWf (kt :: rest)) (hf : kt.Fresh) :
    Processing.Safe (· ∈ kt.held) ⟨kt, mem⟩ ∧ ∀ i ∈ kt.held, i ∉ mem.entered := by
  have hnu (x : Kvstxn ℕ) : ¬ UnderWay (kt :: rest) x := by
    rintro ⟨hb, -⟩
    rw [hf.blocked] at hb
    cases hb
  have hops : ∀ op ∈ kt.ops, ∃ op', Allocated mem.objs mem.entered op op' := by
    intro op hop
    obtain ⟨x, hx, hm, hop, -⟩ := hwf.exists_op hop
    exact mem_of_forall₂ (h.added x hx hm) hop
  have hpris : ∀ i ∈ kt.held, i ∉ mem.entered := by
    intro i hi
    obtain ⟨x, hx, hm, hix, -⟩ := hwf.exists_held hi
    exact h.pristine x hx hm (hnu x) i hix
  refine ⟨⟨fun op hop o ho => ?_, fun hr => ?_, fun i hi => ?_⟩, hpris⟩
  · obtain ⟨op', ha⟩ := hops _ hop
    exact ha.all (fun i hi => mem_held.2 ⟨_, hop, hi⟩) rfl ho
  · rw [hf.state] at hr
    exact absurd hr (by decide)
  · obtain ⟨op, hop, hheld⟩ := mem_held.1 hi
    obtain ⟨op', ha⟩ := hops op hop
    obtain ⟨d, hd⟩ := ha.exists_dir hheld
    change (mem.objs i).All _
    rw [hd (hpris i hi)]
    exact Dir.all_copy d

end QueueShared

/-! ### Calls -/

theorem Kvstxn.SameEntry.held (h : kt.SameEntry kt') : kt'.held = kt.held := by
  have : kt'.ops = kt.ops := congrArg Kvstxn.Content.ops h.content
  rw [Kvstxn.held, this, Kvstxn.held]

namespace QueueShared

section

variable (h : QueueShared owner nextObj added mem (kt :: rest))
  (hwf : QueueWf ns bound (kt :: rest))
include h hwf

theorem not_entered (hch : Changed (· ∈ kt.held) mem mem') (hx : x ∈ rest)
    (hc : ¬ (kt.merged = true ∧ x.mergeComponent = true)) (hi : i ∈ x.held) :
    i ∉ mem'.entered := by
  have hx' : x ∈ kt :: rest := mem_cons_of_mem _ hx
  have hm := hwf.wf.rest_not_merged hx
  have hne : x.id ≠ kt.id := hwf.rest_id_ne hx
  intro he
  rcases hch.entered i he with he | he
  · exact h.pristine x hx' hm (fun hu => hu.2.elim hne hc) i hi he
  obtain ⟨y, hy, hym, hiy, hor⟩ := hwf.wf.exists_held he
  have hid : x.id = y.id := (h.owned x hx' hm i hi).1.symm.trans (h.owned y hy hym i hiy).1
  rcases hor with rfl | hor
  · exact hne hid
  · have hxy : x = y := inj_on_of_nodup_map hwf.nodup hx' hy hid
    exact hc (hxy ▸ hor)

/-- **A call that stalls.** -/
theorem stalled (hsame : kt.SameEntry kt') (hb : kt'.blocked = true)
    (hch : Changed (· ∈ kt.held) mem mem')
    (hsafe : Processing.Safe (· ∈ kt.held) ⟨kt', mem'⟩) :
    QueueShared owner nextObj added mem' (kt' :: rest) := by
  refine ⟨fun x hx hm => ?_, fun x hx hm => ?_, fun x hx hm hu i hi => ?_, fun x hx _ => ?_⟩
  · rcases mem_cons.1 hx with rfl | hx
    · rw [hsame.held, hsame.id]
      exact h.owned kt mem_cons_self (hsame.merged ▸ hm)
    · exact h.owned x (mem_cons_of_mem _ hx) hm
  · rcases mem_cons.1 hx with rfl | hx
    · have hops : x.ops = kt.ops := congrArg Kvstxn.Content.ops hsame.content
      rw [hops, hsame.id]
      exact allocated_change (h.added kt mem_cons_self (hsame.merged ▸ hm)) hch.sub
        fun i _ hi => hch.written i hi
    · exact allocated_change (h.added x (mem_cons_of_mem _ hx) hm) hch.sub
        fun i _ hi => hch.written i hi
  · rcases mem_cons.1 hx with rfl | hx
    · exact absurd ⟨hb, .inl rfl⟩ hu
    · refine h.not_entered hwf hch hx (fun hc => hu ⟨hb, .inr ⟨?_, hc.2⟩⟩) hi
      rw [hsame.merged]
      exact hc.1
  · cases hx
    rw [hsame.held]
    exact hsafe

/-- **A call that is done.** If the head falls back, none of its objects has been entered. -/
theorem removed (hsame : kt.SameEntry kt') (hp : kt'.processing = true)
    (hch : Changed (· ∈ kt.held) mem mem')
    (hf : fallback = true → ∀ i ∈ kt'.held, i ∉ mem'.entered) :
    QueueShared owner nextObj added mem' (kvstxnMgrRemoveTransaction (kt' :: rest) kt' fallback) := by
  have hwf' := hwf.replace_head hsame
  have hmem {x : Kvstxn ℕ} (hx : x ∈ kvstxnMgrRemoveTransaction (kt' :: rest) kt' fallback) :
      ∃ y ∈ rest, x.id = y.id ∧ x.ops = y.ops ∧ (y.mergeComponent = true → fallback = true) := by
    obtain ⟨y, hy, rfl | rfl, hc⟩ := hwf'.wf.mem_remove hp hx
    · exact ⟨x, hy, rfl, rfl, hc⟩
    · exact ⟨y, hy, rfl, rfl, hc⟩
  have hheld {x y : Kvstxn ℕ} (hops : x.ops = y.ops) : x.held = y.held := by
    rw [Kvstxn.held, hops, Kvstxn.held]
  refine ⟨fun x hx _ => ?_, fun x hx _ => ?_, fun x hx _ _ i hi => ?_, fun x hx hb => ?_⟩
  · obtain ⟨y, hy, hid, hops, -⟩ := hmem hx
    rw [hheld hops, hid]
    exact h.owned y (mem_cons_of_mem _ hy) (hwf.wf.rest_not_merged hy)
  · obtain ⟨y, hy, hid, hops, -⟩ := hmem hx
    rw [hops, hid]
    exact allocated_change (h.added y (mem_cons_of_mem _ hy) (hwf.wf.rest_not_merged hy))
      hch.sub fun i _ hi => hch.written i hi
  · obtain ⟨y, hy, -, hops, hc⟩ := hmem hx
    rw [hheld hops] at hi
    cases hyc : y.mergeComponent with
    | true => exact hf (hc hyc) i (hwf'.wf.held_of_component hy hyc hi)
    | false => exact h.not_entered hwf hch hy (by simp [hyc]) hi
  · obtain ⟨y, hy, hor⟩ := mem_remove hp (mem_of_mem_head? hx)
    have hfr : x.Fresh := by
      rcases hor with rfl | rfl
      · exact hwf.tail x hy
      · exact (hwf.tail y hy).release
    rw [hfr.blocked] at hb
    cases hb

end

/-- **A queue of which nothing is under way**, and another one with the same requests. -/
theorem of_entries (h : QueueShared owner nextObj added mem ready)
    (hf : ∀ x ∈ ready, x.blocked = false) (hf' : ∀ x ∈ ready', x.blocked = false)
    (hmem : ∀ x ∈ ready', x.merged = false →
      ∃ y ∈ ready, y.merged = false ∧ y.id = x.id ∧ y.ops = x.ops) :
    QueueShared owner nextObj added mem ready' := by
  have hheld {x y : Kvstxn ℕ} (hops : y.ops = x.ops) : x.held = y.held := by
    rw [Kvstxn.held, ← hops, Kvstxn.held]
  refine ⟨fun x hx hm => ?_, fun x hx hm => ?_, fun x hx hm _ i hi => ?_, fun x hx hb => ?_⟩
  · obtain ⟨y, hy, hym, hid, hops⟩ := hmem x hx hm
    rw [hheld hops, ← hid]
    exact h.owned y hy hym
  · obtain ⟨y, hy, hym, hid, hops⟩ := hmem x hx hm
    rw [← hops, ← hid]
    exact h.added y hy hym
  · obtain ⟨y, hy, hym, -, hops⟩ := hmem x hx hm
    rw [hheld hops] at hi
    refine h.pristine y hy hym (fun hu => ?_) i hi
    cases ready with
    | nil => exact hu
    | cons z ready =>
      have hb := hu.1
      rw [hf z mem_cons_self] at hb
      cases hb
  · rw [hf' x (mem_of_mem_head? hx)] at hb
    cases hb

theorem mark (h : QueueShared owner nextObj added mem ready) (ks : List TxnId) (e : Errno) :
    QueueShared owner nextObj added mem (ready.map fun kt =>
      if kt.id ∈ ks then { kt with auxErrnum := some e } else kt) := by
  set f := fun kt : Kvstxn ℕ => if kt.id ∈ ks then { kt with auxErrnum := some e } else kt
  have hf (kt : Kvstxn ℕ) : f kt = { kt with auxErrnum := (f kt).auxErrnum } := by
    simp only [f]
    split_ifs <;> rfl
  have hu {x : Kvstxn ℕ} (hu : UnderWay ready x) : UnderWay (ready.map f) (f x) := by
    cases ready with
    | nil => exact hu
    | cons y ready =>
      rw [map_cons, hf x, hf y]
      exact hu
  refine ⟨fun x hx hm => ?_, fun x hx hm => ?_, fun x hx hm hn => ?_, fun x hx hb => ?_⟩
  · obtain ⟨y, hy, rfl⟩ := List.mem_map.1 hx
    rw [hf] at hm ⊢
    exact h.owned y hy hm
  · obtain ⟨y, hy, rfl⟩ := List.mem_map.1 hx
    rw [hf] at hm ⊢
    exact h.added y hy hm
  · obtain ⟨y, hy, rfl⟩ := List.mem_map.1 hx
    have hn' : ¬ UnderWay ready y := fun hy' => hn (hu hy')
    rw [hf] at hm ⊢
    exact h.pristine y hy hm hn'
  · rw [List.head?_map] at hx
    obtain ⟨y, hy, rfl⟩ := Option.map_eq_some_iff.1 hx
    rw [hf] at hb ⊢
    have hs := h.closed y hy hb
    exact { hs with }

end QueueShared

end FluxCore.Kvs
