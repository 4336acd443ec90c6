import FluxCore.KvsWatch.Objects

/-!
# Turns of the Reactor

Between two turns of the reactor no namespace has an error pending, and the watchers of a
namespace without a commit have not been sent anything (`Rest`). The handlers are compositions
of actions that never follow a pointer to a destroyed object, and lead to such a state again
(`turn_rests`). The assertion of `watcher_respond` that there is a commit is reached without one
in a single case: the initial `kvs.getroot` request is answered with `ENOTSUP`, and a watcher
that waits for the namespace to be created clears the pending error before another watcher
sees it (`Stranded`).
-/

namespace FluxCore.KvsWatch

open List Option Function

variable {V : Type}

/-- A watcher between two turns: if it is cancelled it is finished, and if it is finished it
waits for outstanding lookups. -/
def Watcher.Tidy (w : Watcher V) : Prop :=
  (w.cancelled = true → w.finished = true) ∧ (w.finished = true → w.lookups ≠ [])

/-- A namespace without a commit has not sent a lookup or a response for any watcher. -/
def Unstarted (s : State V) : Prop :=
  ∀ v w n, s.watchers v = some w → s.namespaces w.ns = some n → n.commit = none →
    w.lookups = [] ∧ w.responded = false

/-- A state between two turns of the reactor. -/
structure Rest (s : State V) : Prop where
  unstarted : Unstarted s
  tidy : ∀ v w, s.watchers v = some w → w.Tidy
  errnum : ∀ i n, s.namespaces i = some n → n.errnum = none

theorem Rest.init : Rest ({} : State V) := by
  constructor <;> simp [Unstarted]

variable {i : ℕ} {w : Watcher V}

section Act

variable [DecidableEq V] {s t : State V}

theorem Unstarted.act (hwf : Wf s) (h : Unstarted s) (hact : Act s t) : Unstarted t := by
  intro v w n hw hn hnone
  cases hact with
  | refuse _ | answer _ _ _ | run _ => exact h v w n hw hn hnone
  | @update i m m' hm hname hws hcom =>
    rcases of_update_some hn with ⟨hi, rfl⟩ | ⟨-, hn⟩
    · refine h v w m hw (hi ▸ hm) ?_
      by_contra hsome
      obtain ⟨c, hc⟩ := ne_none_iff_exists'.1 hsome
      obtain ⟨c', hc', -⟩ := hcom c hc
      rw [hnone] at hc'
      cases hc'
    · exact h v w n hw hn hnone
  | monitor _ =>
    rcases of_update_some hn with ⟨hi, rfl⟩ | ⟨-, hn⟩
    · obtain ⟨m, hm, -⟩ := hwf.linked.listed v w hw
      rw [hi, hwf.bounded.namespaces s.next le_rfl] at hm
      cases hm
    · exact h v w n hw hn hnone
  | @add i m hm sender matchtag cred key flags =>
    rcases of_update_some hw with ⟨-, rfl⟩ | ⟨-, hw⟩
    · exact ⟨rfl, rfl⟩
    rcases of_update_some hn with ⟨hi, rfl⟩ | ⟨-, hn⟩
    · exact h v w m hw (hi ▸ hm) hnone
    · exact h v w n hw hn hnone
  | @mark i u hu mute | @fail i u hu hunf errnum =>
    rcases of_update_some hw with ⟨rfl, rfl⟩ | ⟨-, hw⟩
    · exact h v u n hu hn hnone
    · exact h v w n hw hn hnone
  | @queue i u m commit hu hm hcom hunf hseq =>
    rcases of_update_some hw with ⟨rfl, rfl⟩ | ⟨-, hw⟩
    · have hn : s.namespaces u.ns = some n := hn
      rw [hm, some.injEq] at hn
      subst hn
      rw [hcom] at hnone
      cases hnone
    · exact h v w n hw hn hnone
  | @pop i f fs u fut reply hu hl hf hrep =>
    rcases of_update_some hw with ⟨rfl, rfl⟩ | ⟨-, hw⟩
    · have hfrm := SameFrame.handleReady v fut.initial reply { u with lookups := fs }
      have := (h v u n hu (hfrm.ns ▸ hn) hnone).1
      rw [hl] at this
      cases this
    · exact h v w n hw hn hnone
  | @destroy i u m hu hm hfinished hl =>
    rw [destroy_eq _ hl] at hw hn
    obtain ⟨-, hw⟩ := of_update_none hw
    rcases of_update_some hn with ⟨hi, rfl⟩ | ⟨-, hn⟩
    · exact h v w m hw (hi ▸ hm) hnone
    · exact h v w n hw hn hnone
  | delete _ _ => exact h v w n hw (of_update_none hn).2 hnone

theorem Unstarted.acts (hwf : Wf s) (h : Unstarted s) (hacts : Acts s t) : Unstarted t := by
  induction hacts with
  | refl => exact h
  | tail hsu hact ih => exact ih.act (hwf.acts hsu) hact

/-! ### Cleaning up -/

/-- The watchers of the namespace at address `i`. -/
def State.watchersOf (s : State V) (i : ℕ) : List ℕ := (s.namespaces i).elim [] Namespace.watchers

/-- Responding to the watcher `i` of the namespace `ns` leaves the other watchers of the
namespace, and the other namespaces, in place. -/
structure Visited (ns i : ℕ) (s t : State V) : Prop where
  watchers : ∀ v ∈ s.watchersOf ns, v ≠ i → v ∈ t.watchersOf ns
  namespaces : ∀ j, j ≠ ns → t.namespaces j = s.namespaces j

omit [DecidableEq V] in
theorem Visited.refl (ns i : ℕ) (s : State V) : Visited ns i s s := ⟨fun _ h _ => h, fun _ _ => rfl⟩

omit [DecidableEq V] in
theorem deleteNamespace_eq (h : Wf s) (hn : s.namespaces i = some n) (hl : n.watchers = []) :
    s.deleteNamespace n.name
      = .ok { s with names := s.names.filter fun p => p.1 != n.name,
                     namespaces := Function.update s.namespaces i none } := by
  have hi : s.names.lookup n.name = some i := (h.named.lookup _ _).2 ⟨n, hn, rfl⟩
  simp [State.deleteNamespace, hi, hn, hl, State.destroyWatchers, Except.map]

/-- The state after an idle watcher is cleaned up. The namespace goes with its last watcher,
unless its `kvs.getroot` request is outstanding. -/
theorem watcherCleanup_idle (h : Wf s) (hw : s.watchers i = some w)
    (hn : s.namespaces w.ns = some n) (hfin : w.finished = true) (hl : w.lookups = []) :
    ∃ t, s.watcherCleanup w.ns i = .ok t ∧ Acts s t ∧
      t.watchers = Function.update s.watchers i none ∧
      t.namespaces = Function.update s.namespaces w.ns
        (if (n.watchers.erase i).isEmpty && !n.getrootf then none
          else some { n with watchers := n.watchers.erase i }) := by
  have hact := Act.destroy hw hn hfin hl
  have hwf := h.act hact
  simp only [State.watcherCleanup, hn, hw, hl, isEmpty_nil, if_true]
  rw [destroy_eq _ hl] at hact hwf ⊢
  split
  · rename_i hcond
    simp only [Bool.and_eq_true, List.isEmpty_iff] at hcond
    exact ⟨_, deleteNamespace_eq hwf (n := { n with watchers := n.watchers.erase i })
      (update_self ..) hcond.1, .tail (.single hact) (.delete (update_self ..) hcond.1), rfl,
      update_idem ..⟩
  · exact ⟨_, rfl, .single hact, rfl, rfl⟩

/-! ### Responding to a watcher -/

/-- What visiting the watcher `i` of the namespace `ns` gives when the assertion holds. -/
structure Settled (ns i : ℕ) (s t : State V) : Prop where
  visited : Visited ns i s t
  acts : Acts s t
  tidy : ∀ v w, t.watchers v = some w → w.Tidy
  data : ∀ n', t.namespaces ns = some n' → ∃ n, s.namespaces ns = some n ∧
    n'.commit = n.commit ∧ n'.fatalErrnum = n.fatalErrnum ∧ n'.errnum = n.errnum

omit [DecidableEq V] in
theorem tidy_of_ne (htidy : ∀ v u, v ≠ i → s.watchers v = some u → u.Tidy)
    (hw : s.watchers i = some w) (hi : w.Tidy) : ∀ v u, s.watchers v = some u → u.Tidy := by
  intro v u hu
  by_cases hv : v = i
  · cases hw.symm.trans (hv ▸ hu)
    exact hi
  · exact htidy v u hv hu

theorem Settled.refl (htidy : ∀ v u, s.watchers v = some u → u.Tidy) : Settled ns i s s :=
  ⟨.refl .., .refl, htidy, fun n' hn' => ⟨n', hn', rfl, rfl, rfl⟩⟩

theorem Settled.after (hact : Act s u) (hns : u.namespaces = s.namespaces)
    (h : Settled ns i u t) : Settled ns i s t := by
  obtain ⟨⟨hws, hothers⟩, hacts, htidy, hdata⟩ := h
  simp only [State.watchersOf, hns] at hws hothers hdata
  exact ⟨⟨hws, hothers⟩, .head hact hacts, htidy, hdata⟩

section

variable (h : Wf s) (hw : s.watchers i = some w)
variable (htidy : ∀ v u, v ≠ i → s.watchers v = some u → u.Tidy)
include h hw htidy

theorem watcherCleanup_settled (hfin : w.finished = true) :
    ∃ t, s.watcherCleanup w.ns i = .ok t ∧ Settled w.ns i s t := by
  obtain ⟨n, hn, hmem⟩ := h.linked.listed i w hw
  by_cases hl : w.lookups = []
  · obtain ⟨t, ht, hacts, hws, hnss⟩ := watcherCleanup_idle h hw hn hfin hl
    refine ⟨t, ht, ⟨fun v hv hne => ?_, fun j hj => ?_⟩, hacts, fun v u hu => ?_, fun n' hn' => ?_⟩
    · simp only [State.watchersOf, hn, elim_some] at hv
      have hv' := (mem_erase_of_ne hne).2 hv
      simpa [State.watchersOf, hnss, ne_nil_of_mem hv'] using hv'
    · rw [hnss, update_of_ne hj]
    · rw [hws] at hu
      obtain ⟨hv, hu⟩ := of_update_none hu
      exact htidy v u hv hu
    · rw [hnss, update_self] at hn'
      split at hn'
      · cases hn'
      · cases hn'
        exact ⟨n, hn, rfl, rfl, rfl⟩
  · refine ⟨s, ?_, .refl (tidy_of_ne htidy hw ⟨fun _ => hfin, fun _ => hl⟩)⟩
    have hne : n.watchers ≠ [] := ne_nil_of_mem hmem
    simp [State.watcherCleanup, hn, hw, hl, hne]

theorem errorRespond_settled (hunf : w.finished = false) (errnum : Errno) :
    ∃ t, s.errorRespond w.ns i w errnum = .ok t ∧ Settled w.ns i s t := by
  have hact := Act.fail hw hunf errnum
  obtain ⟨t, ht, hset⟩ := watcherCleanup_settled (w := (w.errorRespond errnum).1) (h.act hact)
    (update_self ..) (fun v u hv hu => htidy v u hv ((update_of_ne hv ..).symm.trans hu)) rfl
  exact ⟨t, ht, hset.after hact rfl⟩

/-- Responding to a watcher without a fault: it is finished or cancelled, or the namespace has
been removed or has a commit. -/
theorem watcherRespond_settled (hn : s.namespaces w.ns = some n) (herr : n.errnum = none)
    (hsafe : w.finished = true ∨ w.cancelled = true ∨ n.fatalErrnum.isSome ∨ n.commit.isSome) :
    ∃ t, s.watcherRespond w.ns i = .ok t ∧ Settled w.ns i s t := by
  simp only [State.watcherRespond, hn, hw, herr]
  split
  · exact watcherCleanup_settled h hw htidy ‹_›
  rename_i hfin
  have hunf : w.finished = false := by simpa using hfin
  split
  · exact errorRespond_settled h hw htidy hunf _
  rename_i hcan
  have hi : w.Tidy := ⟨fun hc => absurd hc hcan, fun hf => absurd hf hfin⟩
  have hsame : Settled w.ns i s s := .refl (tidy_of_ne htidy hw hi)
  cases hfat : n.fatalErrnum with
  | some errnum => exact errorRespond_settled h hw htidy hunf _
  | none =>
    obtain ⟨commit, hcom⟩ : ∃ commit, n.commit = some commit :=
      isSome_iff_exists.1 (by simpa [hfin, hcan, hfat] using hsafe)
    simp only [hcom]
    split
    · exact ⟨s, rfl, hsame⟩
    rename_i hseq
    split
    · exact errorRespond_settled h hw htidy hunf _
    split
    · refine ⟨_, rfl, ⟨fun v hv _ => hv, fun _ _ => rfl⟩,
        .single (.queue hw hn hcom hunf (not_le.1 hseq)), fun v u hu => ?_, hsame.data⟩
      rcases of_update_some hu with ⟨rfl, rfl⟩ | ⟨hv, hu⟩
      · exact ⟨hi.1, fun hf => absurd hf hfin⟩
      · exact htidy v u hv hu
    · exact ⟨s, rfl, hsame⟩

end

/-! ### Responding to all watchers of a namespace that is decided -/

omit [DecidableEq V] in
/-- Visiting the watchers of a namespace one after another. Each of them is still there when
its turn comes, because only a watcher's own visit removes it. -/
theorem visitEach_settled {ns : ℕ} (visit : State V → ℕ → Except Fault (State V))
    {P : State V → Prop}
    (hvisit : ∀ s i, P s → i ∈ s.watchersOf ns → ∃ t, visit s i = .ok t ∧ Visited ns i s t ∧ P t)
    {loop : List ℕ → State V → Except Fault (State V)} (hnil : ∀ s, loop [] s = .ok s)
    (hcons : ∀ i is s, loop (i :: is) s = (visit s i).bind (loop is)) (is : List ℕ)
    (hnd : is.Nodup) (hp : P s) (hmem : ∀ i ∈ is, i ∈ s.watchersOf ns) :
    ∃ t, loop is s = .ok t ∧ P t ∧ ∀ j, j ≠ ns → t.namespaces j = s.namespaces j := by
  induction is generalizing s with
  | nil => exact ⟨s, hnil s, hp, fun _ _ => rfl⟩
  | cons i is ih =>
    obtain ⟨hi, hnd⟩ := nodup_cons.1 hnd
    obtain ⟨t, ht, hvis, hpt⟩ := hvisit s i hp (hmem i (by simp))
    have hrest : ∀ j ∈ is, j ∈ t.watchersOf ns := fun j hj =>
      hvis.watchers j (hmem j (by simp [hj])) (fun e => hi (e ▸ hj))
    obtain ⟨u, hu, hpu, hother⟩ := ih hnd hpt hrest
    refine ⟨u, ?_, hpu, fun j hj => (hother j hj).trans (hvis.namespaces j hj)⟩
    rw [hcons, ht]
    exact hu

omit [DecidableEq V] in
theorem exists_of_mem_watchersOf (h : Wf s) (hi : i ∈ s.watchersOf ns) :
    ∃ w, s.watchers i = some w ∧ w.ns = ns := by
  cases hn : s.namespaces ns with
  | none => simp [State.watchersOf, hn] at hi
  | some n =>
    rw [State.watchersOf, hn, elim_some] at hi
    exact h.linked.member ns n i hn hi

/-- Nothing is pending in the namespace `ns`, and all watchers are between turns. -/
structure Calm (ns : ℕ) (s : State V) : Prop where
  wf : Wf s
  tidy : ∀ v w, s.watchers v = some w → w.Tidy
  errnum : ∀ n, s.namespaces ns = some n → n.errnum = none

/-- Moreover the namespace has been removed or has a commit. -/
structure Decided (ns : ℕ) (s : State V) : Prop extends Calm ns s where
  decided : ∀ n, s.namespaces ns = some n → n.fatalErrnum.isSome ∨ n.commit.isSome

theorem Settled.calm (h : Settled ns i s t) (hwf : Wf s)
    (herr : ∀ n, s.namespaces ns = some n → n.errnum = none) : Calm ns t := by
  refine ⟨hwf.acts h.acts, h.tidy, fun n' hn' => ?_⟩
  obtain ⟨n, hn, -, -, he⟩ := h.data n' hn'
  rw [he]
  exact herr n hn

theorem watcherRespondNs_settled {ns : ℕ} {n : Namespace} (h : Decided ns s)
    (hn : s.namespaces ns = some n) : ∃ t, s.watcherRespondNs ns = .ok t ∧
      (Acts s t ∧ Calm ns t) ∧ ∀ j, j ≠ ns → t.namespaces j = s.namespaces j := by
  rw [State.watcherRespondNs, hn]
  have hvisit : ∀ (u : State V) i, Acts s u ∧ Decided ns u → i ∈ u.watchersOf ns →
      ∃ t, u.watcherRespond ns i = .ok t ∧ Visited ns i u t ∧ Acts s t ∧ Decided ns t := by
    rintro u i ⟨hsu, h⟩ hi
    obtain ⟨w, hw, rfl⟩ := exists_of_mem_watchersOf h.wf hi
    obtain ⟨m, hm, -⟩ := h.wf.linked.listed i w hw
    obtain ⟨t, ht, hset⟩ := watcherRespond_settled h.wf hw (fun v u _ => h.tidy v u) hm
      (h.errnum m hm) (.inr (.inr (h.decided m hm)))
    refine ⟨t, ht, hset.visited, hsu.trans hset.acts, hset.calm h.wf h.errnum, fun n' hn' => ?_⟩
    obtain ⟨m', hm', hcom, hfat, -⟩ := hset.data n' hn'
    rw [hcom, hfat]
    exact h.decided m' hm'
  obtain ⟨t, ht, ⟨hst, hp⟩, hother⟩ : ∃ t, State.respondEach ns n.watchers s = .ok t ∧
      (Acts s t ∧ Decided ns t) ∧ ∀ j, j ≠ ns → t.namespaces j = s.namespaces j :=
    visitEach_settled _ hvisit (fun _ => rfl) (fun _ _ _ => rfl) n.watchers
      (h.wf.linked.nodup ns n hn) ⟨.refl, h⟩ (by simp [State.watchersOf, hn])
  exact ⟨t, ht, ⟨hst, hp.toCalm⟩, hother⟩

theorem watcherCancelNs_settled {ns : ℕ} {n : Namespace} (h : Calm ns s)
    (hn : s.namespaces ns = some n) (sender : String) (matchtag : UInt32) (mute : Bool) :
    ∃ t, s.watcherCancelNs sender matchtag mute ns = .ok t ∧ (Acts s t ∧ Calm ns t) ∧
      ∀ j, j ≠ ns → t.namespaces j = s.namespaces j := by
  rw [State.watcherCancelNs, hn]
  have hvisit : ∀ (u : State V) i, Acts s u ∧ Calm ns u → i ∈ u.watchersOf ns →
      ∃ t, u.watcherCancel ns sender matchtag mute i = .ok t ∧ Visited ns i u t ∧ Acts s t ∧
        Calm ns t := by
    rintro u i ⟨hsu, h⟩ hi
    obtain ⟨w, hw, rfl⟩ := exists_of_mem_watchersOf h.wf hi
    obtain ⟨m, hm, -⟩ := h.wf.linked.listed i w hw
    rw [State.watcherCancel, hw]
    dsimp only
    split
    · exact ⟨u, rfl, .refl _ _ _, hsu, h⟩
    split
    · have hact := Act.mark hw mute
      obtain ⟨t, ht, hset⟩ := watcherRespond_settled (n := m)
        (w := { w with cancelled := true, mute := mute }) (h.wf.act hact) (update_self ..)
        (fun v u hv hu => h.tidy v u ((update_of_ne hv ..).symm.trans hu)) hm
        (h.errnum m hm) (.inr (.inl rfl))
      have hset : Settled w.ns i u t := hset.after hact rfl
      exact ⟨t, ht, hset.visited, hsu.trans hset.acts, hset.calm h.wf h.errnum⟩
    · exact ⟨u, rfl, .refl _ _ _, hsu, h⟩
  exact visitEach_settled _ hvisit (fun _ => rfl) (fun _ _ _ => rfl) n.watchers
    (h.wf.linked.nodup ns n hn) ⟨.refl, h⟩ (by simp [State.watchersOf, hn])

/-! ### A pending error -/

/-- A watcher waits for its namespace to be created. -/
def State.waits (s : State V) (v : ℕ) : Bool := (s.watchers v).any fun w => w.flags.waitcreate

/-- A watcher that waits is followed by another one. -/
def strands (waits : ℕ → Bool) : List ℕ → Bool
  | v :: u :: vs => waits v || strands waits (u :: vs)
  | _ => false

theorem strands_congr (h : ∀ v ∈ vs, waits v = waits' v) :
    strands waits vs = strands waits' vs := by
  induction vs with
  | nil => rfl
  | cons v vs ih =>
    cases vs with
    | nil => rfl
    | cons u vs =>
      rw [strands, strands, h v (by simp), ih fun x hx => h x (mem_cons_of_mem _ hx)]

theorem errorRespond_idle (h : Wf s) (hw : s.watchers i = some w)
    (hn : s.namespaces w.ns = some n) (hl : w.lookups = []) (hunf : w.finished = false)
    (errnum : Errno) : ∃ t, s.errorRespond w.ns i w errnum = .ok t ∧ Acts s t ∧
      t.watchers = Function.update s.watchers i none ∧
      t.namespaces = Function.update s.namespaces w.ns
        (if (n.watchers.erase i).isEmpty && !n.getrootf then none
          else some { n with watchers := n.watchers.erase i }) := by
  have hact := Act.fail hw hunf errnum
  obtain ⟨t, ht, hacts, hws, hnss⟩ := watcherCleanup_idle (n := n)
    (w := (w.errorRespond errnum).1) (h.act hact) (update_self ..) hn rfl hl
  refine ⟨t, ht, .head hact hacts, ?_, hnss⟩
  rw [hws]
  exact update_idem ..

/-- The watchers `vs` of a namespace without a commit are about to be told of an error. -/
structure Failing (ns : ℕ) (errnum : Errno) (n : Namespace) (vs : List ℕ) (s : State V) :
    Prop where
  wf : Wf s
  namespaces : s.namespaces ns = some n
  watchers : n.watchers = vs
  getrootf : n.getrootf = false
  commit : n.commit = none
  errnum : n.errnum = some errnum
  tidy : ∀ v w, s.watchers v = some w → w.Tidy
  idle : ∀ v ∈ vs, ∀ w, s.watchers v = some w → w.lookups = [] ∧ w.responded = false

section Failing

variable {ns v : ℕ} {errnum : Errno} {n : Namespace} {vs : List ℕ}

omit [DecidableEq V] in
theorem Failing.member (h : Failing ns errnum n vs s) (hv : v ∈ vs) :
    ∃ w, s.watchers v = some w ∧ w.ns = ns ∧ w.lookups = [] ∧ w.responded = false ∧
      w.finished = false ∧ w.cancelled = false := by
  obtain ⟨w, hw, hns⟩ := h.wf.linked.member ns n v h.namespaces (h.watchers ▸ hv)
  obtain ⟨hl, hresp⟩ := h.idle v hv w hw
  have hunf : w.finished = false := by
    by_contra hfin
    exact (h.tidy v w hw).2 (by simpa using hfin) hl
  have hunc : w.cancelled = false := by
    by_contra hcan
    have hfin := (h.tidy v w hw).1 (by simpa using hcan)
    rw [hunf] at hfin
    cases hfin
  exact ⟨w, hw, hns, hl, hresp, hunf, hunc⟩

omit [DecidableEq V] in
theorem Failing.watcherRespond_eq (h : Failing ns errnum n (v :: vs) s)
    (hw : s.watchers v = some w) : s.watcherRespond ns v = match n.fatalErrnum with
      | some e => s.errorRespond ns v w e
      | none =>
        if w.flags.waitcreate = true ∧ errnum = .ENOTSUP then
          .ok (s.setNamespace ns { n with errnum := none })
        else s.errorRespond ns v w errnum := by
  obtain ⟨w', hw', -, -, hresp, hunf, hunc⟩ := h.member mem_cons_self
  rw [hw, some.injEq] at hw'
  subst hw'
  simp only [State.watcherRespond, h.namespaces, hw, hunf, hunc, h.errnum, hresp]
  cases n.fatalErrnum <;> simp

/-- The next watcher is finished with an error and destroyed, and the others are still to be
told. -/
theorem Failing.fail (h : Failing ns errnum n (v :: vs) s) (hw : s.watchers v = some w)
    (e : Errno) : ∃ t, s.errorRespond ns v w e = .ok t ∧ Acts s t ∧
      (∀ u w, t.watchers u = some w → w.Tidy) ∧ (∀ j, j ≠ ns → t.namespaces j = s.namespaces j) ∧ (∀ u ∈ vs, t.waits u = s.waits u) ∧
      (vs = [] → t.namespaces ns = none) ∧
      (vs ≠ [] → Failing ns errnum { n with watchers := vs } vs t) := by
  obtain ⟨w', hw', rfl, hl, hresp, hunf, hunc⟩ := h.member mem_cons_self
  rw [hw, some.injEq] at hw'
  subst hw'
  obtain ⟨t, ht, hacts, hws, hnss⟩ :=
    errorRespond_idle h.wf hw h.namespaces hl hunf e
  have hnd := nodup_cons.1 (h.watchers ▸ h.wf.linked.nodup _ n h.namespaces)
  rw [h.watchers, erase_cons_head, h.getrootf] at hnss
  have hold : ∀ u x, t.watchers u = some x → s.watchers u = some x := fun u x hx =>
    (of_update_none (hws ▸ hx)).2
  refine ⟨t, ht, hacts, fun u x hx => h.tidy u x (hold u x hx), fun j hj => ?_, fun u hu => ?_,
    fun hvs => ?_, fun hvs => ⟨h.wf.acts hacts, ?_, rfl, h.getrootf, h.commit, h.errnum,
      fun u x hx => h.tidy u x (hold u x hx),
      fun u hu x hx => h.idle u (by simp [hu]) x (hold u x hx)⟩⟩
  · rw [hnss, update_of_ne hj]
  · have hne : u ≠ v := fun e => hnd.1 (e ▸ hu)
    rw [State.waits, hws, update_of_ne hne, State.waits]
  · rw [hnss, hvs]
    simp
  · rw [hnss, update_self, if_neg (by simp [hvs])]
    simp [h.getrootf]

omit [DecidableEq V] in
theorem watcherRespond_assertion (hn : s.namespaces ns = some n) (hw : s.watchers v = some w)
    (hunf : w.finished = false) (hunc : w.cancelled = false)
    (hfat : n.fatalErrnum = none) (herr : n.errnum = none) (hcom : n.commit = none) :
    s.watcherRespond ns v = .error .assertion := by
  simp [State.watcherRespond, hn, hw, hunf, hunc, hfat, herr, hcom]

/-- **Telling the watchers of a pending error.** The assertion fails exactly if the namespace
does not exist and a watcher that waits for it is followed by another one; otherwise
nothing is pending in the end. -/
theorem respondEach_failing (h : Failing ns errnum n vs s) :
    (n.fatalErrnum = none ∧ errnum = .ENOTSUP ∧ strands s.waits vs = true →
      State.respondEach ns vs s = .error .assertion) ∧
    (¬ (n.fatalErrnum = none ∧ errnum = .ENOTSUP ∧ strands s.waits vs = true) →
      ∃ t, State.respondEach ns vs s = .ok t ∧ Acts s t ∧
        (∀ v w, t.watchers v = some w → w.Tidy) ∧
        (vs ≠ [] → ∀ n', t.namespaces ns = some n' → n'.errnum = none) ∧
        ∀ j, j ≠ ns → t.namespaces j = s.namespaces j) := by
  induction vs generalizing s n with
  | nil =>
    refine ⟨fun hc => ?_, fun _ => ⟨s, rfl, .refl, h.tidy, by simp, fun _ _ => rfl⟩⟩
    cases hc.2.2
  | cons v vs ih =>
    obtain ⟨w, hw, -⟩ := h.member mem_cons_self
    have hwts : s.waits v = w.flags.waitcreate := by simp [State.waits, hw]
    have heq := h.watcherRespond_eq hw
    by_cases hwait : n.fatalErrnum = none ∧ errnum = .ENOTSUP ∧ w.flags.waitcreate = true
    · obtain ⟨hfat, rfl, hwc⟩ := hwait
      have hset : s.watcherRespond ns v = .ok (s.setNamespace ns { n with errnum := none }) := by
        rw [heq]
        split
        · rename_i e he
          rw [hfat] at he
          cases he
        · exact if_pos ⟨hwc, rfl⟩
      have hloop : State.respondEach ns (v :: vs) s
          = State.respondEach ns vs (s.setNamespace ns { n with errnum := none }) := by
        rw [State.respondEach, hset]
        rfl
      rw [hloop]
      cases vs with
      | nil =>
        refine ⟨fun hc => absurd hc.2.2 (by simp [strands]), fun _ =>
          ⟨_, rfl, .single (.update h.namespaces rfl rfl fun c hc => ⟨c, hc, le_rfl⟩), h.tidy,
            ?_, ?_⟩⟩
        · intro _ n' hn'
          rcases of_update_some hn' with ⟨-, rfl⟩ | ⟨hne, -⟩
          · rfl
          · exact absurd rfl hne
        · exact fun j hj => update_of_ne hj ..
      | cons u us =>
        refine ⟨fun _ => ?_, fun hno => (hno ⟨hfat, rfl, ?_⟩).elim⟩
        · obtain ⟨x, hx, -, -, -, hunf, hunc⟩ := h.member (v := u) (by simp)
          rw [State.respondEach, watcherRespond_assertion
            (s := s.setNamespace ns { n with errnum := none }) (n := { n with errnum := none })
            (update_self ..) hx hunf hunc hfat rfl h.commit]
          rfl
        · simp [strands, hwts, hwc]
    · obtain ⟨e, he⟩ : ∃ e, s.watcherRespond ns v = s.errorRespond ns v w e := by
        cases hfat : n.fatalErrnum with
        | some e => exact ⟨e, by rw [heq, hfat]⟩
        | none =>
          refine ⟨errnum, ?_⟩
          rw [heq, hfat]
          exact if_neg fun hc => hwait ⟨hfat, hc.2, hc.1⟩
      obtain ⟨t, ht, hacts, htidy, hother, hsame, hlast, hrest⟩ := h.fail hw e
      have hloop : State.respondEach ns (v :: vs) s = State.respondEach ns vs t := by
        rw [State.respondEach, he, ht]
        rfl
      rw [hloop]
      cases vs with
      | nil =>
        refine ⟨fun hc => absurd hc.2.2 (by simp [strands]),
          fun _ => ⟨t, rfl, hacts, htidy, fun _ n' hn' => ?_, hother⟩⟩
        rw [hlast rfl] at hn'
        cases hn'
      | cons u us =>
        have hcond : (n.fatalErrnum = none ∧ errnum = .ENOTSUP ∧
            strands s.waits (v :: u :: us) = true) ↔ (n.fatalErrnum = none ∧ errnum = .ENOTSUP ∧
              strands t.waits (u :: us) = true) := by
          rw [strands_congr hsame, strands, Bool.or_eq_true, hwts]
          constructor
          · rintro ⟨hf, he, hv | hrest⟩
            · exact (hwait ⟨hf, he, hv⟩).elim
            · exact ⟨hf, he, hrest⟩
          · exact fun ⟨hf, he, hrest⟩ => ⟨hf, he, .inr hrest⟩
        obtain ⟨hbad, hgood⟩ := ih (hrest (by simp))
        rw [hcond]
        refine ⟨hbad, fun hno => ?_⟩
        obtain ⟨t', ht', hacts', htd, hnone, hoth⟩ := hgood hno
        exact ⟨t', ht', hacts.trans hacts', htd, fun _ => hnone (by simp),
          fun j hj => (hoth j hj).trans (hother j hj)⟩

end Failing

/-! ### Turns of the reactor -/

/-- The handler ends by a sequence of actions in a state between two turns. -/
def Ends (s : State V) (r : Except Fault (State V)) : Prop :=
  ∃ t, r = .ok t ∧ Acts s t ∧ Rest t

theorem Ends.of_acts (hwf : Wf s) (h : Rest s) (hacts : Acts s t)
    (htidy : ∀ v w, t.watchers v = some w → w.Tidy)
    (herr : ∀ i n, t.namespaces i = some n → n.errnum = none) : Ends s (.ok t) :=
  ⟨t, rfl, hacts, h.unstarted.acts hwf hacts, htidy, herr⟩

omit [DecidableEq V] in
theorem Calm.errnum_all (h : Calm ns t) (hother : ∀ j, j ≠ ns → t.namespaces j = s.namespaces j)
    (hs : ∀ j n, j ≠ ns → s.namespaces j = some n → n.errnum = none) :
    ∀ j n, t.namespaces j = some n → n.errnum = none := by
  intro j n hn
  by_cases hj : j = ns
  · exact h.errnum n (hj ▸ hn)
  · exact hs j n hj (hother j hj ▸ hn)

omit [DecidableEq V] in
theorem errnum_setNamespace (h : Rest s) (herr : n.errnum = none) :
    ∀ j m, (s.setNamespace i n).namespaces j = some m → m.errnum = none := by
  intro j m hm
  rcases of_update_some hm with ⟨-, rfl⟩ | ⟨-, hm⟩
  · exact herr
  · exact h.errnum j m hm

/-- Writing the data of a namespace, so that it has been removed or has a commit, and
responding to its watchers. -/
theorem updateAndRespond_rests (hwf : Wf s) (h : Rest s) (hn : s.namespaces i = some n)
    (hname : n'.name = n.name) (hws : n'.watchers = n.watchers)
    (hcom : ∀ c ∈ n.commit, ∃ c' ∈ n'.commit, c.rootseq ≤ c'.rootseq) (herr : n'.errnum = none)
    (hdecided : n'.fatalErrnum.isSome ∨ n'.commit.isSome) :
    Ends s ((s.setNamespace i n').watcherRespondNs i) := by
  have hact := Act.update hn hname hws hcom
  have hn' : (s.setNamespace i n').namespaces i = some n' := update_self ..
  have herrs := errnum_setNamespace (i := i) h herr
  have hdec : Decided i (s.setNamespace i n') := by
    refine ⟨⟨hwf.act hact, h.tidy, herrs i⟩, fun m hm => ?_⟩
    cases hn'.symm.trans hm
    exact hdecided
  obtain ⟨t, ht, ⟨hacts, hcalm⟩, hother⟩ := watcherRespondNs_settled hdec hn'
  rw [ht]
  exact .of_acts hwf h (.head hact hacts) hcalm.tidy
    (hcalm.errnum_all hother fun j m _ => herrs j m)

theorem watcherCancelAll_rests (sender : String) (matchtag : UInt32) (mute : Bool)
    (names : List String) (hnd : names.Nodup) (hwf : Wf s) (h : Rest s)
    (hmem : ∀ name ∈ names, ∃ i, s.names.lookup name = some i) :
    Ends s (State.watcherCancelAll sender matchtag mute names s) := by
  induction names generalizing s with
  | nil => exact ⟨s, rfl, .refl, h⟩
  | cons name names ih =>
    obtain ⟨hname, hnd⟩ := nodup_cons.1 hnd
    obtain ⟨i, hi⟩ := hmem name (by simp)
    obtain ⟨n, hn, hnn⟩ := (hwf.named.lookup name i).1 hi
    obtain ⟨t, ht, ⟨hacts, hcalm⟩, hother⟩ := watcherCancelNs_settled
      ⟨hwf, h.tidy, fun m hm => h.errnum i m hm⟩ hn sender matchtag mute
    have hrest : Rest t := ⟨h.unstarted.acts hwf hacts, hcalm.tidy,
      hcalm.errnum_all hother fun j m _ hm => h.errnum j m hm⟩
    obtain ⟨u, hu, htu, hrest'⟩ := ih hnd hcalm.wf hrest fun name' hmem' => by
      obtain ⟨j, hj⟩ := hmem name' (by simp [hmem'])
      obtain ⟨m, hm, hmn⟩ := (hwf.named.lookup name' j).1 hj
      have hji : j ≠ i := by
        rintro rfl
        rw [hn, some.injEq] at hm
        subst hm
        exact hname (hnn ▸ hmn ▸ hmem')
      exact ⟨j, (hcalm.wf.named.lookup name' j).2 ⟨m, by rw [hother j hji, hm], hmn⟩⟩
    simp only [State.watcherCancelAll, hi, ht, Except.bind]
    exact ⟨u, hu, hacts.trans htu, hrest'⟩

/-- The loop of `lookup_continuation` changes only its watcher, which stays finished if it
was. -/
theorem popReady_acts (h : Wf s) (hw : s.watchers i = some w) :
    ∃ t, State.popReady i w.lookups s = .ok t ∧ Acts s t ∧ t.namespaces = s.namespaces ∧
      (∀ v, v ≠ i → t.watchers v = s.watchers v) ∧
      ∃ w', t.watchers i = some w' ∧ w'.ns = w.ns ∧ w'.cancelled = w.cancelled ∧
        (w.finished = true → w'.finished = true) := by
  induction hl : w.lookups generalizing s w with
  | nil => exact ⟨s, rfl, .refl, rfl, fun _ _ => rfl, w, hw, rfl, rfl, id⟩
  | cons f fs ih =>
    obtain ⟨fut, hf, -⟩ := h.queued.member i w f hw (by simp [hl])
    simp only [State.popReady, hw, hf]
    split
    · exact ⟨s, rfl, .refl, rfl, fun _ _ => rfl, w, hw, rfl, rfl, id⟩
    rename_i reply hrep
    have hact := Act.pop hw hl hf hrep
    have hfrm := SameFrame.handleReady i fut.initial reply { w with lookups := fs }
    obtain ⟨t, ht, hacts, hns, hother, w', hw', h₁, h₂, h₃⟩ :=
      ih (h.act hact) (update_self ..) hfrm.lookups
    refine ⟨t, ht, .head hact hacts, hns, fun v hv => (hother v hv).trans (update_of_ne hv ..), w',
      hw', h₁.trans hfrm.ns, h₂.trans hfrm.cancelled, fun hfin => h₃ ?_⟩
    unfold handleReady
    simp only [hfin, if_true]
    split <;> simp

theorem lookupContinuation_rests (hwf : Wf s) (h : Rest s) (hw : s.watchers i = some w) :
    Ends s (s.lookupContinuation i) := by
  obtain ⟨u, hu, hacts, hns, hother, w', hw', hwns, hcanc, hfinished⟩ := popReady_acts hwf hw
  have hwf' := hwf.acts hacts
  have htidy : ∀ v x, v ≠ i → u.watchers v = some x → x.Tidy := fun v x hv hx =>
    h.tidy v x (hother v hv ▸ hx)
  have herr : ∀ j n, u.namespaces j = some n → n.errnum = none := fun j n hn =>
    h.errnum j n (hns ▸ hn)
  simp only [State.lookupContinuation, hw, hu, Except.bind, hw']
  split
  · rename_i hfin
    obtain ⟨t, ht, hset⟩ := watcherCleanup_settled hwf' hw' htidy hfin
    rw [ht]
    exact .of_acts hwf h (hacts.trans hset.acts) hset.tidy
      ((hset.calm hwf' (herr _)).errnum_all hset.visited.namespaces fun j n _ => herr j n)
  · rename_i hfin
    have hi : w'.Tidy :=
      ⟨fun hc => hfinished ((h.tidy i w hw).1 (hcanc ▸ hc)), fun hf => absurd hf hfin⟩
    exact .of_acts hwf h hacts (tidy_of_ne htidy hw' hi) herr

theorem lookupCb_rests (hwf : Wf s) (h : Rest s) (sender : String) (matchtag : UInt32)
    (cred : Cred) (name key : String) (flags : Flags) :
    Ends s (s.lookupCb sender matchtag cred name key flags) := by
  rw [State.lookupCb]
  split
  · exact .of_acts hwf h (.single (.refuse _)) h.tidy h.errnum
  rename_i split _
  obtain ⟨i, u, hmon, hacts, hrest, n, hn⟩ : ∃ i u, s.namespaceMonitor (split.elim name Prod.fst)
      = (i, u) ∧ Acts s u ∧ Rest u ∧ ∃ n, u.namespaces i = some n := by
    rw [State.namespaceMonitor]
    split
    · rename_i i hi
      obtain ⟨n, hn, -⟩ := (hwf.named.lookup _ i).1 hi
      exact ⟨i, s, rfl, .refl, h, n, hn⟩
    rename_i hnone
    have hact := Act.monitor hnone
    exact ⟨_, _, rfl, .single hact,
      ⟨h.unstarted.act hwf hact, h.tidy, errnum_setNamespace h rfl⟩, _, update_self ..⟩
  simp only [hmon, hn]
  have hact := Act.add hn sender matchtag cred
    (Kvs.kvsUtilNormalizeKey (split.elim key Prod.snd)) flags
  have hwf' := (hwf.acts hacts).act hact
  set t := u.addWatcher i n _ with ht
  have hnew : t.watchers u.next = some _ := update_self ..
  have htidy : ∀ v w, v ≠ u.next → t.watchers v = some w → w.Tidy := fun v w hv hw =>
    hrest.tidy v w ((update_of_ne hv ..).symm.trans hw)
  have herr : ∀ j m, t.namespaces j = some m → m.errnum = none :=
    errnum_setNamespace hrest (hrest.errnum i n hn)
  split
  · rename_i hcom
    obtain ⟨t', ht', hset⟩ := watcherRespond_settled hwf' hnew htidy (update_self ..)
      (hrest.errnum i n hn) (.inr (.inr (.inr hcom)))
    rw [ht']
    exact .of_acts hwf h ((hacts.tail hact).trans hset.acts) hset.tidy
      ((hset.calm hwf' (herr i)).errnum_all hset.visited.namespaces fun j m _ => herr j m)
  · exact .of_acts hwf h (hacts.tail hact)
      (tidy_of_ne htidy hnew ⟨fun hc => Bool.noConfusion hc, fun hf => Bool.noConfusion hf⟩) herr

/-- The initial `kvs.getroot` request of a namespace is answered with `ENOTSUP`, while it has
neither a commit nor been removed, and a watcher that waits for the namespace to be created
is followed by another one. -/
def Stranded (s : State V) : Label V → Prop
  | .getroot i (.error .ENOTSUP) =>
    ∃ n, s.namespaces i = some n ∧ n.commit = none ∧ n.fatalErrnum = none ∧
      strands s.waits n.watchers = true
  | _ => False

theorem getroot_rests (hwf : Wf s) (h : Rest s) (hn : s.namespaces i = some n)
    (reply : Except Errno (ℤ × Blobref × UInt32)) : (Stranded s (.getroot i reply) →
      s.namespaceGetrootContinuation i n reply = .error .assertion) ∧
    (¬ Stranded s (.getroot i reply) → Ends s (s.namespaceGetrootContinuation i n reply)) := by
  have hstr : Stranded s (.getroot i reply) ↔ reply = .error .ENOTSUP ∧ n.commit = none ∧
      n.fatalErrnum = none ∧ strands s.waits n.watchers = true := by
    unfold Stranded
    split
    · rename_i j heq
      cases heq
      simp [hn]
    rename_i hno
    refine ⟨False.elim, fun hr => ?_⟩
    exact hno i (by rw [hr.1])
  rw [hstr]
  unfold State.namespaceGetrootContinuation
  by_cases hemp : n.watchers = []
  · refine ⟨fun hc => ?_, fun _ => ?_⟩
    · rw [hemp] at hc
      cases hc.2.2.2
    · rw [if_pos (by simp [hemp]), deleteNamespace_eq hwf hn hemp]
      exact .of_acts hwf h (.single (.delete hn hemp)) h.tidy
        fun j m hm => h.errnum j m (of_update_none hm).2
  rw [if_neg (by simpa using hemp)]
  by_cases hcom : n.commit.isSome
  · refine ⟨fun hc => ?_, fun _ => ?_⟩
    · rw [hc.2.1] at hcom
      cases hcom
    · rw [if_pos hcom]
      exact .of_acts hwf h (.single (.update hn rfl rfl fun c hc => ⟨c, hc, le_rfl⟩)) h.tidy
        (errnum_setNamespace h (h.errnum i n hn))
  · rw [if_neg hcom]
    have hnone : n.commit = none := by simpa using hcom
    cases reply with
    | ok r =>
      refine ⟨fun hc => (by cases hc.1), fun _ => ?_⟩
      exact updateAndRespond_rests hwf h hn rfl rfl (fun c hc => by simp [hnone] at hc)
        (h.errnum i n hn) (.inr rfl)
    | error e =>
      have hact : Act s (s.setNamespace i { n with errnum := some e, getrootf := false }) :=
        .update hn rfl rfl fun c hc => ⟨c, hc, le_rfl⟩
      have hn' : (s.setNamespace i { n with errnum := some e, getrootf := false }).namespaces i
          = some { n with errnum := some e, getrootf := false } := update_self ..
      have hfailing : Failing i e { n with errnum := some e, getrootf := false } n.watchers
          (s.setNamespace i { n with errnum := some e, getrootf := false }) := by
        refine ⟨hwf.act hact, hn', rfl, rfl, hnone, rfl, h.tidy, fun v hv w hw => ?_⟩
        obtain ⟨w', hw', hns⟩ := hwf.linked.member i n v hn hv
        cases hw.symm.trans hw'
        exact h.unstarted v w n hw (hns ▸ hn) hnone
      obtain ⟨hbad, hgood⟩ := respondEach_failing hfailing
      simp only [State.watcherRespondNs, hn']
      constructor
      · rintro ⟨he, -, hfat, hstrands⟩
        cases he
        exact hbad ⟨hfat, rfl, hstrands⟩
      · intro hno
        obtain ⟨t, ht, hacts, htidy, herr, hother⟩ := hgood fun hc =>
          hno ⟨by rw [hc.2.1], hnone, hc.1, hc.2.2⟩
        rw [ht]
        refine .of_acts hwf h (.head hact hacts) htidy fun j m hm => ?_
        by_cases hj : j = i
        · subst hj
          exact herr hemp m hm
        · rw [hother j hj] at hm
          exact h.errnum j m ((update_of_ne hj ..).symm.trans hm)

omit [DecidableEq V] in
theorem lookupNamespace_eq (hl : s.lookupNamespace name = some (i, n)) :
    s.names.lookup name = some i ∧ s.namespaces i = some n := by
  obtain ⟨j, hj, hn⟩ := bind_eq_some_iff.1 hl
  obtain ⟨m, hm, heq⟩ := map_eq_some_iff.1 hn
  cases heq
  exact ⟨hj, hm⟩

/-- **One turn of the reactor:** the assertion fails exactly if watchers are stranded, and
otherwise the turn ends in a state between two turns. -/
theorem turn_rests (hwf : Wf s) (h : Rest s) (hr : s.turn l = some r) :
    (Stranded s l → r = .error .assertion) ∧ (¬ Stranded s l → Ends s r) := by
  have hnms : ∀ name ∈ s.names.map Prod.fst, ∃ i, s.names.lookup name = some i :=
    fun name => lookup_of_mem name
  cases l with
  | lookup sender matchtag cred name key flags =>
    cases hr
    exact ⟨False.elim, fun _ => lookupCb_rests hwf h sender matchtag cred name key flags⟩
  | cancel sender matchtag | disconnect sender =>
    cases hr
    exact ⟨False.elim, fun _ => watcherCancelAll_rests _ _ _ _ hwf.named.nodup hwf h hnms⟩
  | setroot name rootseq rootref owner keys =>
    cases hr
    refine ⟨False.elim, fun _ => ?_⟩
    rw [State.setrootCb]
    split
    · exact ⟨s, rfl, .refl, h⟩
    rename_i i n hl
    split
    · exact ⟨s, rfl, .refl, h⟩
    rename_i hold
    refine updateAndRespond_rests hwf h (lookupNamespace_eq hl).2 rfl rfl (fun c hc =>
      ⟨_, rfl, ?_⟩) (h.errnum i n (lookupNamespace_eq hl).2) (.inr rfl)
    rw [mem_def] at hc
    simp only [hc, any_some, decide_eq_true_eq, not_le] at hold
    exact hold.le
  | created name rootseq rootref owner =>
    cases hr
    refine ⟨False.elim, fun _ => ?_⟩
    rw [State.namespaceCreatedCb]
    split
    · exact ⟨s, rfl, .refl, h⟩
    rename_i i n hl
    split
    · exact ⟨s, rfl, .refl, h⟩
    rename_i hcom
    have hnone : n.commit = none := by simpa using hcom
    exact updateAndRespond_rests hwf h (lookupNamespace_eq hl).2 rfl rfl (fun c hc => by
      simp [hnone] at hc) (h.errnum i n (lookupNamespace_eq hl).2) (.inr rfl)
  | removed name =>
    cases hr
    refine ⟨False.elim, fun _ => ?_⟩
    rw [State.removedCb]
    split
    · exact ⟨s, rfl, .refl, h⟩
    rename_i i n hl
    exact updateAndRespond_rests hwf h (lookupNamespace_eq hl).2 rfl rfl
      (fun c hc => ⟨c, hc, le_rfl⟩) (h.errnum i n (lookupNamespace_eq hl).2) (.inl rfl)
  | getroot i reply =>
    rw [State.turn] at hr
    split at hr
    · cases hr
    rename_i n hn
    split at hr
    · cases hr
      exact getroot_rests hwf h hn reply
    · cases hr
  | reply f reply =>
    refine ⟨False.elim, fun _ => ?_⟩
    rw [State.turn] at hr
    split at hr
    · cases hr
    rename_i fut hf
    split at hr
    · rename_i hanss
      cases hr
      exact .of_acts hwf h (.single (.answer hf (isNone_iff_eq_none.1 hanss.1) hanss.2)) h.tidy
        h.errnum
    · cases hr
  | continuation f =>
    refine ⟨False.elim, fun _ => ?_⟩
    rw [State.turn] at hr
    split at hr
    · cases hr
    rename_i fut hf
    split at hr
    · cases hr
      obtain ⟨w, hw, -⟩ := hwf.queued.listed f fut hf
      have hact := Act.run hf
      obtain ⟨t, ht, hacts, hrest⟩ := lookupContinuation_rests (hwf.act hact) { h with } hw
      exact ⟨t, ht, .head hact hacts, hrest⟩
    · cases hr

theorem turn_acts (hwf : Wf s) (h : Rest s) (hr : s.turn l = some r) :
    r = .error .assertion ∨ Ends s r := by
  by_cases hstr : Stranded s l
  · exact .inl ((turn_rests hwf h hr).1 hstr)
  · exact .inr ((turn_rests hwf h hr).2 hstr)

end Act

/-! ### Runs -/

section Runs

variable [DecidableEq V]

/-- The module starts without namespaces. -/
def Initial (x : Except Fault (State V)) : Prop := x = .ok {}

theorem step_cases {x y : Except Fault (State V)} {l : Label V} (h : machine.step l x = some y) :
    ∃ s, x = .ok s ∧ s.turn l = some y := by
  cases x with
  | error fault => cases h
  | ok s => exact ⟨s, rfl, h⟩

/-- Every state reached is between two turns, and has any property that is kept by every action
on states with pointers in order. -/
theorem reach_rests {inv : State V → Prop} (hinit : inv {})
    (hact : ∀ s t, Wf s → inv s → Act s t → inv t) {guard : Except Fault (State V) → Label V → Prop}
    {x : Except Fault (State V)} (hx : machine.Reach guard Initial x) :
    x = .error .assertion ∨ ∃ s, x = .ok s ∧ Wf s ∧ Rest s ∧ inv s := by
  refine hx.invariant (fun x => x = .error .assertion ∨ ∃ s, x = .ok s ∧ Wf s ∧ Rest s ∧ inv s)
    ?_ ?_
  · rintro x rfl
    exact .inr ⟨_, rfl, Wf.init, Rest.init, hinit⟩
  · intro x l y _ hinv _ hstep
    obtain ⟨s, rfl, hturn⟩ := step_cases hstep
    rcases hinv with hinv | ⟨s', hs, hwf, hrest, hinv⟩
    · cases hinv
    cases hs
    rcases turn_acts hwf hrest hturn with rfl | ⟨t, rfl, hacts, hrest'⟩
    · exact .inl rfl
    refine .inr ⟨t, rfl, hwf.acts hacts, hrest', ?_⟩
    clear hturn hstep hrest'
    induction hacts with
    | refl => exact hinv
    | tail hsu hact' ih => exact hact _ _ (hwf.acts hsu) ih hact'

theorem reach_invariant {inv : State V → Prop} (hinit : inv {})
    (hact : ∀ s t, Wf s → inv s → Act s t → inv t) {guard : Except Fault (State V) → Label V → Prop}
    {x : Except Fault (State V)} (hx : machine.Reach guard Initial x) :
    x = .error .assertion ∨ ∃ s, x = .ok s ∧ Wf s ∧ inv s :=
  (reach_rests hinit hact hx).imp_right fun ⟨s, hs, hwf, _, hinv⟩ => ⟨s, hs, hwf, hinv⟩

end Runs

end FluxCore.KvsWatch
