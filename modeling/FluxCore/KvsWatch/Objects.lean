import FluxCore.KvsWatch
import FluxCore.Lib.Owners

/-!
# The Objects of kvs-watch

Whatever the module does is a sequence of small actions (`Act`), each of which keeps the
pointers between namespaces, watchers and futures in order (`Wf`). The handlers are
compositions of these actions and never follow a pointer to a destroyed object
(`State.turn_acts`), so that every further invariant is proved one action at a time.
-/

namespace FluxCore.KvsWatch

open List Option Function

variable {V : Type}

/-! ### Pointers in order -/

/-- The hash has exactly the namespaces that exist, under their names. -/
structure Named (names : List (String × ℕ)) (namespaces : ℕ → Option Namespace) : Prop where
  nodup : (names.map Prod.fst).Nodup
  lookup : ∀ name i, names.lookup name = some i ↔ ∃ n, namespaces i = some n ∧ n.name = name

/-- Namespaces and their watchers point to each other. -/
abbrev Linked : (ℕ → Option Namespace) → (ℕ → Option (Watcher V)) → Prop :=
  Owned Namespace.watchers Watcher.ns

/-- Watchers and the futures of their lookups point to each other. -/
abbrev Queued : (ℕ → Option (Watcher V)) → (ℕ → Option (Future V)) → Prop :=
  Owned Watcher.lookups Future.watcher

/-- Addresses from `next` on are free and have no history. -/
structure Bounded (s : State V) : Prop where
  namespaces : ∀ i, s.next ≤ i → s.namespaces i = none
  watchers : ∀ v, s.next ≤ v → s.watchers v = none
  futures : ∀ f, s.next ≤ f → s.futures f = none
  sent : ∀ v, s.next ≤ v → s.sent v = []
  handled : ∀ turn ∈ s.handled, turn.watcher < s.next

/-- A watcher is destroyed once, when it has no lookups left. -/
structure Destroyed (s : State V) : Prop where
  gone : ∀ d ∈ s.destroyed, s.watchers d.1 = none ∧ d.1 < s.next
  idle : ∀ d ∈ s.destroyed, d.2 = []
  once : (s.destroyed.map Prod.fst).Nodup

/-- The pointers of a state are in order. -/
structure Wf (s : State V) : Prop where
  named : Named s.names s.namespaces
  linked : Linked s.namespaces s.watchers
  queued : Queued s.watchers s.futures
  bounded : Bounded s
  destroyed : Destroyed s

section Named

variable {names : List (String × ℕ)}

theorem lookup_filter (names : List (String × ℕ)) (name name' : String) :
    (names.filter fun p => p.1 != name).lookup name'
      = if name' = name then none else names.lookup name' := by
  induction names with
  | nil => simp
  | cons p names ih =>
    obtain ⟨k, i⟩ := p
    by_cases hk : k = name
    · subst hk
      rw [filter_cons_of_neg (by simp), ih]
      by_cases hn : name' = k
      · rw [if_pos hn, if_pos hn]
      · have hne : (name' == k) = false := by simpa using hn
        rw [if_neg hn, if_neg hn, lookup_cons, hne]
    rw [filter_cons_of_pos (by simpa using hk), lookup_cons, lookup_cons, ih]
    by_cases hn : name' = k
    · subst hn
      simp [hk]
    · have hne : (name' == k) = false := by simpa using hn
      rw [hne]

theorem lookup_of_mem (name : String) (hmem : name ∈ names.map Prod.fst) :
    ∃ i, names.lookup name = some i := by
  by_contra hno
  have hnone : names.lookup name = none := by
    cases hl : names.lookup name with
    | none => rfl
    | some i => exact absurd ⟨i, hl⟩ hno
  obtain ⟨p, hp, rfl⟩ := List.mem_map.1 hmem
  have := lookup_eq_none_iff.1 hnone p hp
  simp at this

theorem Named.setNamespace (h : Named names namespaces) {n' : Namespace}
    (hn : namespaces i = some n) (hname : n'.name = n.name) :
    Named names (Function.update namespaces i (some n')) := by
  refine ⟨h.nodup, fun name j => ?_⟩
  rw [h.lookup]
  by_cases hj : j = i
  · subst hj
    simp [hn, hname]
  · rw [update_of_ne hj]

theorem Named.newNamespace (h : Named names namespaces) (hi : namespaces i = none)
    (hn : names.lookup n.name = none) :
    Named ((n.name, i) :: names) (Function.update namespaces i (some n)) := by
  constructor
  case nodup =>
    rw [map_cons, nodup_cons]
    refine ⟨fun hmem => ?_, h.nodup⟩
    obtain ⟨p, hp, hpn⟩ := List.mem_map.1 hmem
    have := lookup_eq_none_iff.1 hn p hp
    simp [hpn] at this
  case lookup =>
    intro name j
    rw [lookup_cons]
    by_cases hj : j = i
    · subst hj
      have hno : names.lookup name ≠ some j := by
        intro hl
        obtain ⟨m, hm, -⟩ := (h.lookup name j).1 hl
        rw [hi] at hm
        cases hm
      by_cases hname : name = n.name
      · simp [hname]
      · have : (name == n.name) = false := by simpa using hname
        simp [this, hno, Ne.symm hname]
    · rw [update_of_ne hj, ← h.lookup]
      by_cases hname : name = n.name
      · subst hname
        simp [hn, Ne.symm hj]
      · have : (name == n.name) = false := by simpa using hname
        simp [this]

theorem Named.deleteNamespace (h : Named names namespaces) (hn : namespaces i = some n) :
    Named (names.filter fun p => p.1 != n.name) (Function.update namespaces i none) := by
  constructor
  case nodup => exact h.nodup.sublist (filter_sublist.map _)
  case lookup =>
    intro name j
    rw [lookup_filter]
    have hi : names.lookup n.name = some i := (h.lookup _ _).2 ⟨n, hn, rfl⟩
    by_cases hj : j = i
    · subst hj
      rw [update_self]
      by_cases hname : name = n.name
      · simp [hname]
      · rw [if_neg hname, h.lookup]
        simp [hn, Ne.symm hname]
    rw [update_of_ne hj]
    by_cases hname : name = n.name
    · subst hname
      rw [if_pos rfl, ← h.lookup, hi]
      simp [Ne.symm hj]
    · rw [if_neg hname, h.lookup]

end Named

/-! ### Actions -/

section Act

variable [DecidableEq V]

/-- The small actions that the handlers are made of. -/
inductive Act (s : State V) : State V → Prop
  /-- A request is refused. -/
  | refuse (refused : List (String × UInt32 × Errno)) : Act s { s with refused := refused }
  /-- A lookup is answered. -/
  | answer {f : ℕ} {fut : Future V} {reply : Reply V} (hf : s.futures f = some fut)
      (hnone : fut.reply = none) (hreply : Answers fut.request reply) :
      Act s (s.setFuture f { fut with reply := some reply })
  /-- A continuation is run. -/
  | run {f : ℕ} {fut : Future V} (hf : s.futures f = some fut) :
      Act s (s.setFuture f { fut with ran := true })
  /-- The data of a namespace changes. -/
  | update {i : ℕ} {n n' : Namespace} (hn : s.namespaces i = some n) (hname : n'.name = n.name)
      (hwatchers : n'.watchers = n.watchers)
      (hcommit : ∀ c ∈ n.commit, ∃ c' ∈ n'.commit, c.rootseq ≤ c'.rootseq) :
      Act s (s.setNamespace i n')
  /-- A namespace is created. -/
  | monitor {name : String} (hnone : s.names.lookup name = none) : Act s (s.newNamespace name)
  /-- A watcher is created. -/
  | add {i : ℕ} {n : Namespace} (hn : s.namespaces i = some n) (sender : String)
      (matchtag : UInt32) (cred : Cred) (key : String) (flags : Flags) : Act s (s.addWatcher i n
        { sender := sender, matchtag := matchtag, cred := cred, key := key, flags := flags,
          ns := i })
  /-- A watcher is cancelled. -/
  | mark {i : ℕ} {w : Watcher V} (hw : s.watchers i = some w) (mute : Bool) :
      Act s (s.setWatcher i { w with cancelled := true, mute := mute })
  /-- A lookup is sent. -/
  | queue {i : ℕ} {w : Watcher V} {n : Namespace} {commit : Commit} (hw : s.watchers i = some w)
      (hn : s.namespaces w.ns = some n) (hcommit : n.commit = some commit)
      (hunfinished : w.finished = false) (hseq : w.rootseq < commit.rootseq) :
      Act s (s.processLookupResponse n commit i w)
  /-- A watcher is finished with an error. -/
  | fail {i : ℕ} {w : Watcher V} (hw : s.watchers i = some w) (hunfinished : w.finished = false)
      (errnum : Errno) :
      Act s ((s.send i (w.errorRespond errnum).2).setWatcher i (w.errorRespond errnum).1)
  /-- A reply is handled. -/
  | pop {i f : ℕ} {fs : List ℕ} {w : Watcher V} {fut : Future V} {reply : Reply V}
      (hw : s.watchers i = some w) (hl : w.lookups = f :: fs) (hf : s.futures f = some fut)
      (hreply : fut.reply = some reply) :
      Act s (s.endTurn f (handleReady i fut.initial reply { w with lookups := fs }))
  /-- A watcher is destroyed. -/
  | destroy {i : ℕ} {w : Watcher V} {n : Namespace} (hw : s.watchers i = some w)
      (hn : s.namespaces w.ns = some n) (hfinished : w.finished = true) (hl : w.lookups = []) :
      Act s ((s.setNamespace w.ns { n with watchers := n.watchers.erase i }).watcherDestroy i w)
  /-- A namespace is destroyed. -/
  | delete {i : ℕ} {n : Namespace} (hn : s.namespaces i = some n) (hl : n.watchers = []) :
      Act s { s with names := s.names.filter fun p => p.1 != n.name,
                     namespaces := Function.update s.namespaces i none }

/-- A sequence of actions. -/
abbrev Acts : State V → State V → Prop := Relation.ReflTransGen Act

/-! ### What handling a reply leaves alone -/

/-- What no reply changes in a watcher. -/
structure SameFrame (w w' : Watcher V) : Prop where
  ns : w'.ns = w.ns
  lookups : w'.lookups = w.lookups
  flags : w'.flags = w.flags
  rootseq : w'.rootseq = w.rootseq
  initialRpcSent : w'.initialRpcSent = w.initialRpcSent
  cancelled : w'.cancelled = w.cancelled

theorem SameFrame.handleLookupResponse (initial : Bool) (reply : Reply V) (w : Watcher V) :
    SameFrame w (handleLookupResponse initial reply w).1 := by
  unfold KvsWatch.handleLookupResponse handleCompareResponse
  split
  · cases reply with
    | value val rootseq | error errnum => exact ⟨rfl, rfl, rfl, rfl, rfl, rfl⟩
    | enoent rootseq =>
      dsimp only
      split <;> exact ⟨rfl, rfl, rfl, rfl, rfl, rfl⟩
  cases reply with
  | value val rootseq =>
    dsimp only
    split_ifs <;> exact ⟨rfl, rfl, rfl, rfl, rfl, rfl⟩
  | enoent rootseq | error errnum => exact ⟨rfl, rfl, rfl, rfl, rfl, rfl⟩

theorem SameFrame.handleReady (i : ℕ) (initial : Bool) (reply : Reply V) (w : Watcher V) :
    SameFrame w (handleReady i initial reply w).after := by
  have h : SameFrame w
      (if w.finished then (w, []) else KvsWatch.handleLookupResponse initial reply w).1 := by
    split
    · exact ⟨rfl, rfl, rfl, rfl, rfl, rfl⟩
    · exact SameFrame.handleLookupResponse initial reply w
  unfold KvsWatch.handleReady
  dsimp only
  generalize (if w.finished then (w, []) else KvsWatch.handleLookupResponse initial reply w) = r
    at h ⊢
  split
  · exact { h with }
  · exact h

end Act

/-! ### Actions keep the pointers in order -/

variable {w : Watcher V}

section Wf

variable {s t : State V}

/-! An object lies below the address from which all are free, and a table stays free from
there on when an entry below changes, or the address itself is taken. -/

section Above

variable {α : Type} {g : ℕ → Option α}

theorem lt_of_above (h : ∀ j, k ≤ j → g j = none) (hi : g i = some a) : i < k := by
  by_contra hlt
  rw [h i (Nat.le_of_not_lt hlt)] at hi
  cases hi

theorem above_succ {α : Type} {g : ℕ → α} {b : α} (h : ∀ j, k ≤ j → g j = b) :
    ∀ j, k + 1 ≤ j → g j = b :=
  fun j hj => h j (Nat.le_of_succ_le hj)

theorem update_above {α : Type} {g : ℕ → α} {a b : α} (h : ∀ j, k ≤ j → g j = b) (hi : i < k) :
    ∀ j, k ≤ j → Function.update g i a j = b :=
  fun j hj => (update_of_ne (by omega) ..).trans (h j hj)

theorem set_above (h : ∀ j, k ≤ j → g j = none) (hi : g i = some a) {x : Option α} :
    ∀ j, k ≤ j → Function.update g i x j = none :=
  update_above h (lt_of_above h hi)

theorem take_above (h : ∀ j, k ≤ j → g j = none) {x : Option α} :
    ∀ j, k + 1 ≤ j → Function.update g k x j = none :=
  update_above (above_succ h) (Nat.lt_succ_self k)

end Above

theorem destroy_eq (n : Namespace) (hl : w.lookups = []) :
    (s.setNamespace w.ns n).watcherDestroy i w
      = { s with namespaces := Function.update s.namespaces w.ns (some n),
                 watchers := Function.update s.watchers i none,
                 destroyed := s.destroyed ++ [(i, [])] } := by
  rw [State.watcherDestroy, hl]
  rfl

theorem Destroyed.setWatcher (h : Destroyed s) (hw : s.watchers i = some w) {w' : Watcher V}
    (ht : t.watchers = Function.update s.watchers i (some w')) (hnext : s.next ≤ t.next)
    (hd : t.destroyed = s.destroyed) : Destroyed t := by
  refine ⟨fun d hmem => ?_, fun d hmem => h.idle d (hd ▸ hmem), hd ▸ h.once⟩
  obtain ⟨hnone, hlt⟩ := h.gone d (hd ▸ hmem)
  have hne : d.1 ≠ i := fun e => by rw [e, hw] at hnone; cases hnone
  exact ⟨by rw [ht, update_of_ne hne, hnone], hlt.trans_le hnext⟩

theorem Wf.init : Wf ({} : State V) := by
  refine ⟨⟨nodup_nil, ?_⟩, ⟨?_, ?_, ?_⟩, ⟨?_, ?_, ?_⟩, ⟨?_, ?_, ?_, ?_, ?_⟩, ⟨?_, ?_, ?_⟩⟩ <;>
    simp

variable [DecidableEq V]

theorem Wf.act (h : Wf s) (hact : Act s t) : Wf t := by
  have hb := h.bounded
  have hd := h.destroyed
  have hhd : ∀ turn ∈ s.handled, turn.watcher < s.next + 1 :=
    fun turn hmem => Nat.lt_succ_of_lt (hb.handled turn hmem)
  cases hact with
  | refuse refused => exact { h with bounded := { hb with }, destroyed := { hd with } }
  | answer hf hnone hrep | run hf =>
    exact { h with
      queued := h.queued.setItem hf rfl
      bounded := { hb with futures := set_above hb.futures hf }
      destroyed := { hd with } }
  | update hn hname hws hcom =>
    exact ⟨h.named.setNamespace hn hname, h.linked.setOwner hn hws, h.queued,
      { hb with namespaces := set_above hb.namespaces hn }, { hd with }⟩
  | @monitor name hnone =>
    have hfree := hb.namespaces s.next le_rfl
    exact ⟨h.named.newNamespace (n := { name := name, getrootf := true }) hfree hnone,
      h.linked.newOwner hfree rfl, h.queued,
      ⟨take_above hb.namespaces, above_succ hb.watchers, above_succ hb.futures,
        above_succ hb.sent, hhd⟩,
      { hd with gone := fun d hmem => (hd.gone d hmem).imp_right Nat.lt_succ_of_lt }⟩
  | add hn sender matchtag cred key flags =>
    have hfree := hb.watchers s.next le_rfl
    refine ⟨h.named.setNamespace hn rfl, h.linked.addItem hn hfree rfl rfl,
      h.queued.newOwner hfree rfl,
      ⟨above_succ (set_above hb.namespaces hn), take_above hb.watchers, above_succ hb.futures,
        above_succ hb.sent, hhd⟩, { hd with gone := fun d hmem => ?_ }⟩
    obtain ⟨hnone, hlt⟩ := hd.gone d hmem
    exact ⟨(update_of_ne hlt.ne ..).trans hnone, Nat.lt_succ_of_lt hlt⟩
  | mark hw mute =>
    exact ⟨h.named, h.linked.setItem hw rfl, h.queued.setOwner hw rfl,
      { hb with watchers := set_above hb.watchers hw }, hd.setWatcher hw rfl le_rfl rfl⟩
  | queue hw hn hcom hunf hseq =>
    exact ⟨h.named, h.linked.setItem hw rfl,
      h.queued.addItem hw (hb.futures s.next le_rfl) rfl rfl,
      ⟨above_succ hb.namespaces, above_succ (set_above hb.watchers hw), take_above hb.futures,
        above_succ hb.sent, hhd⟩, hd.setWatcher hw rfl (Nat.le_succ _) rfl⟩
  | fail hw hunf errnum =>
    exact ⟨h.named, h.linked.setItem hw rfl, h.queued.setOwner hw rfl,
      { hb with
        watchers := set_above hb.watchers hw
        sent := update_above hb.sent (lt_of_above hb.watchers hw) },
      hd.setWatcher hw rfl le_rfl rfl⟩
  | @pop i f fs w fut reply hw hl hf hrep =>
    have hfrm := SameFrame.handleReady i fut.initial reply { w with lookups := fs }
    have hlt := lt_of_above hb.watchers hw
    refine ⟨h.named, h.linked.setItem hw hfrm.ns,
      h.queued.removeItem hw (by simp [hl]) (hfrm.lookups.trans (by simp [hl])),
      ⟨hb.namespaces, set_above hb.watchers hw, set_above hb.futures hf,
        update_above hb.sent hlt, fun turn hmem => ?_⟩, hd.setWatcher hw rfl le_rfl rfl⟩
    rcases mem_append.1 hmem with hmem | hmem
    · exact hb.handled turn hmem
    · obtain rfl := mem_singleton.1 hmem
      exact hlt
  | @destroy i w n hw hn hfin hl =>
    rw [destroy_eq _ hl]
    refine ⟨h.named.setNamespace hn rfl, h.linked.removeItem hn (h.linked.mem_items hw hn) rfl,
      h.queued.removeOwner hw hl,
      { hb with
        namespaces := set_above hb.namespaces hn
        watchers := set_above hb.watchers hw }, ⟨?_, ?_, ?_⟩⟩
    · intro d hmem
      rcases mem_append.1 hmem with hmem | hmem
      · obtain ⟨hnone, hlt⟩ := hd.gone d hmem
        have hne : d.1 ≠ i := fun e => by rw [e, hw] at hnone; cases hnone
        exact ⟨(update_of_ne hne ..).trans hnone, hlt⟩
      · obtain rfl := mem_singleton.1 hmem
        exact ⟨update_self .., lt_of_above hb.watchers hw⟩
    · intro d hmem
      rcases mem_append.1 hmem with hmem | hmem
      · exact hd.idle d hmem
      · obtain rfl := mem_singleton.1 hmem
        rfl
    · rw [map_append]
      refine hd.once.append (nodup_singleton i) (disjoint_singleton.2 fun hmem => ?_)
      obtain ⟨d, hgone, rfl⟩ := List.mem_map.1 hmem
      rw [(hd.gone d hgone).1] at hw
      cases hw
  | delete hn hl =>
    exact ⟨h.named.deleteNamespace hn, h.linked.removeOwner hn hl, h.queued,
      { hb with namespaces := set_above hb.namespaces hn }, { hd with }⟩

theorem Wf.acts (h : Wf s) (hacts : Acts s t) : Wf t := by
  induction hacts with
  | refl => exact h
  | tail _ hact ih => exact ih.act hact

end Wf

end FluxCore.KvsWatch
