import FluxCore.KvsWatch.Turns

/-!
# The Order of Responses

The lookups of a watcher are queued in commit order behind the initial one, which is
answered at whatever root the KVS has by then. A later reply is dropped if its root is
older than the one of the initial reply. It is not dropped if the two roots are the same,
and it is not dropped if the key does not exist there, since that is tested first. These
are exactly the cases in which a commit is reported twice
(`responses_increasing_iff`) and in which an outdated reply has an effect
(`outdated_ignored_iff`).
-/

namespace FluxCore.KvsWatch

open List Option Function

variable {V : Type}

/-- The root sequence numbers of the values among the responses. -/
def values (responses : List (Response V)) : List ℤ :=
  responses.filterMap fun
    | .value _ rootseq => some rootseq
    | .error _ => none

@[simp] theorem values_nil : values ([] : List (Response V)) = [] := rfl

@[simp] theorem values_append (rs rs' : List (Response V)) :
    values (rs ++ rs') = values rs ++ values rs' := filterMap_append

@[simp] theorem values_value (val : V) (rootseq : ℤ) :
    values [Response.value val rootseq] = [rootseq] := rfl

@[simp] theorem values_errorRespond (w : Watcher V) (errnum : Errno) :
    values (w.errorRespond errnum).2 = [] := by
  unfold Watcher.errorRespond
  dsimp only
  split <;> rfl

/-- The root at which the lookup with the future `f` was sent, if it is not the initial one. -/
def State.root (s : State V) (f : ℕ) : Option ℤ :=
  (s.futures f).bind fun fut => fut.request.root.map Prod.snd

/-- The roots of the outstanding lookups of a watcher. -/
def State.roots (s : State V) (w : Watcher V) : List (Option ℤ) := w.lookups.map s.root

/-- The replies that were handled for a watcher. -/
def State.turns (s : State V) (v : ℕ) : List (Handled V) :=
  s.handled.filter fun turn => turn.watcher = v

/-- Every reply with a value is passed on: `FLUX_KVS_WATCH` without `FLUX_KVS_WATCH_FULL` and
`FLUX_KVS_WATCH_UNIQ`. -/
def Flags.plain (flags : Flags) : Prop :=
  flags.watch = true ∧ flags.watchFull = false ∧ flags.watchUniq = false

/-! ### Watchers that are not finished -/

/-- The outstanding lookups: the initial one, if it has been sent and not been answered, and
then those at the roots `qs`. -/
structure Pending (w : Watcher V) (roots : List (Option ℤ)) (qs : List ℤ) : Prop where
  shape : roots = (if w.initialRpcSent && !w.initialRpcReceived then [none] else []) ++ qs.map some
  sorted : qs.Pairwise (· < ·)
  le : ∀ q ∈ qs, q ≤ w.rootseq
  unsent : w.initialRpcSent = false → qs = [] ∧ w.initialRpcReceived = false

/-- What is known of a watcher that is not finished: its outstanding lookups, the replies
that were handled for it and the values that it was sent. -/
structure Live (w : Watcher V) (roots : List (Option ℤ)) (turns : List (Handled V))
    (vals : List ℤ) : Prop where
  waiting : w.initialRpcReceived = false → turns = [] ∧ w.responded = false ∧ vals = []
  started : w.initialRpcReceived = true →
    ∃ turn ∈ turns, turn.initial = true ∧ turn.reply.rootseq = some w.initialRootseq
  initial : ∀ turn ∈ turns, turn.initial = true → turn.reply.rootseq = some w.initialRootseq
  going : ¬ (w.responded = true ∧ w.flags.waitcreate = true ∧ w.flags.watch = false)
  responded : w.flags.plain → (w.responded = true ↔ vals ≠ [])
  pending : ∃ qs, Pending w roots qs ∧ ∀ x ∈ vals, w.initialRootseq ≤ x ∧
      (x = w.initialRootseq ∨ x ≤ w.rootseq ∧ ∀ q ∈ qs, x < q)

/-- What is known of all watchers. -/
structure Tracked (s : State V) : Prop where
  futures : ∀ f fut, s.futures f = some fut →
    fut.initial = fut.request.root.isNone ∧ ∀ reply ∈ fut.reply, Answers fut.request reply
  flags : ∀ v w, s.watchers v = some w → ∀ turn ∈ s.turns v, turn.before.flags = w.flags
  logged : ∀ v, values (s.sent v) ≠ [] → s.turns v ≠ []
  first : ∀ v w, s.watchers v = some w → none ∈ s.roots w →
    s.turns v = [] ∧ ∃ qs : List ℤ, s.roots w = none :: qs.map some
  live : ∀ v w, s.watchers v = some w → w.finished = false →
    Live w (s.roots w) (s.turns v) (values (s.sent v))

theorem Tracked.init : Tracked ({} : State V) := by
  constructor <;> simp

variable {turn : Handled V}

section Frame

variable {s t : State V}

theorem roots_congr (h : ∀ f ∈ w.lookups, t.root f = s.root f) :
    t.roots w = s.roots w := map_congr_left h

/-- What is known of one watcher. -/
structure Known (s : State V) (v : ℕ) (w : Watcher V) : Prop where
  flags : ∀ turn ∈ s.turns v, turn.before.flags = w.flags
  first : none ∈ s.roots w → s.turns v = [] ∧ ∃ qs : List ℤ, s.roots w = none :: qs.map some
  live : w.finished = false → Live w (s.roots w) (s.turns v) (values (s.sent v))

theorem Tracked.known (h : Tracked s) (hw : s.watchers v = some w) : Known s v w :=
  ⟨h.flags v w hw, h.first v w hw, h.live v w hw⟩

theorem Known.congr (h : Known s v w) (hrts : t.roots w = s.roots w)
    (htns : t.turns v = s.turns v) (hsent : values (t.sent v) = values (s.sent v)) :
    Known t v w := by
  constructor
  · rw [htns]
    exact h.flags
  · rw [hrts, htns]
    exact h.first
  · rw [hrts, htns, hsent]
    exact h.live

theorem Tracked.of_known (hfutures : ∀ f fut, t.futures f = some fut →
      fut.initial = fut.request.root.isNone ∧ ∀ reply ∈ fut.reply, Answers fut.request reply)
    (hlogged : ∀ v, values (t.sent v) ≠ [] → t.turns v ≠ [])
    (hkn : ∀ v w, t.watchers v = some w → Known t v w) : Tracked t :=
  ⟨hfutures, fun v w hw => (hkn v w hw).flags, hlogged,
    fun v w hw => (hkn v w hw).first, fun v w hw => (hkn v w hw).live⟩

section

variable (h : Tracked s)
  (hfutures : ∀ f fut, t.futures f = some fut → fut.initial = fut.request.root.isNone ∧ ∀ reply ∈ fut.reply, Answers fut.request reply)
  (hhandled : t.handled = s.handled) (hsent : ∀ v, values (t.sent v) = values (s.sent v))
include h hfutures hhandled hsent

/-- Changes that concern neither the replies that were handled nor the values that were
sent. -/
theorem Tracked.frame
    (hws : ∀ v w, t.watchers v = some w →
      (s.watchers v = some w ∧ t.roots w = s.roots w) ∨ Known t v w) : Tracked t := by
  have htns : ∀ v, t.turns v = s.turns v := fun v => by rw [State.turns, hhandled, State.turns]
  refine .of_known hfutures (fun v hv => ?_) fun v w hw => ?_
  · rw [htns]
    exact h.logged v (hsent v ▸ hv)
  · rcases hws v w hw with ⟨hw, hrts⟩ | hkn
    · exact (h.known hw).congr hrts (htns v) (hsent v)
    · exact hkn

theorem Tracked.setWatcher (hws : t.watchers = Function.update s.watchers i (some w))
    (hrts : ∀ v u, s.watchers v = some u → v ≠ i → t.roots u = s.roots u) (hkn : Known t i w)
    : Tracked t := by
  refine h.frame hfutures hhandled hsent fun v u hu => ?_
  rw [hws] at hu
  rcases of_update_some hu with ⟨rfl, rfl⟩ | ⟨hv, hu⟩
  · exact .inr hkn
  · exact .inl ⟨hu, hrts v u hu hv⟩

end

theorem root_setFuture (hf : s.futures f = some fut) (hreq : fut'.request = fut.request)
    (g : ℕ) : (s.setFuture f fut').root g = s.root g := by
  by_cases hg : g = f
  · subst hg
    simp [State.root, State.setFuture, hf, hreq]
  · simp [State.root, State.setFuture, hg]

/-- A future that stands for the same request. -/
theorem Tracked.setFuture (h : Tracked s) (hf : s.futures f = some fut)
    (hreq : fut'.request = fut.request) (hini : fut'.initial = fut'.request.root.isNone)
    (hrep : ∀ reply ∈ fut'.reply, Answers fut'.request reply) : Tracked (s.setFuture f fut') := by
  refine h.frame (fun g fut₀ hg => ?_) rfl (fun _ => rfl) fun v w hw =>
    .inl ⟨hw, roots_congr fun g _ => root_setFuture hf hreq g⟩
  rcases of_update_some hg with ⟨rfl, rfl⟩ | ⟨-, hg⟩
  · exact ⟨hini, hrep⟩
  · exact h.futures g fut₀ hg

theorem Wf.roots_of_ne (h : Wf s) (hw : s.watchers v = some w)
    (hf : ∀ fut, s.futures f = some fut → fut.watcher ≠ v)
    (ht : ∀ g, g ≠ f → t.futures g = s.futures g) : t.roots w = s.roots w := by
  refine roots_congr fun g hg => ?_
  obtain ⟨fut, hfut, hv⟩ := h.queued.member v w g hw hg
  have hgf : g ≠ f := by
    rintro rfl
    exact hf fut hfut hv
  rw [State.root, State.root, ht g hgf]

section

variable (hi : turn.watcher = i)
include hi

theorem turns_endTurn_self :
    (s.endTurn f turn).turns i = s.turns i ++ [turn] := by
  rw [State.turns, show (s.endTurn f turn).handled = s.handled ++ [turn] from rfl,
    filter_append, State.turns, filter_cons_of_pos (by simpa using hi), filter_nil]

theorem turns_endTurn_of_ne (hv : v ≠ i) :
    (s.endTurn f turn).turns v = s.turns v := by
  rw [State.turns, show (s.endTurn f turn).handled = s.handled ++ [turn] from rfl,
    filter_append, State.turns, filter_cons_of_neg (by simpa [hi] using hv.symm),
    filter_nil, append_nil]

theorem sent_endTurn_self :
    (s.endTurn f turn).sent i = s.sent i ++ turn.sent := by
  subst hi
  exact update_self ..

theorem sent_endTurn_of_ne (hv : v ≠ i) :
    (s.endTurn f turn).sent v = s.sent v := by
  subst hi
  exact update_of_ne hv ..

end

end Frame

section Head

theorem Tracked.live_cons (h : Tracked s) (hw : s.watchers i = some w)
    (hl : w.lookups = f :: fs) (hunf : w.finished = false) :
    Live w (s.root f :: fs.map s.root) (s.turns i) (values (s.sent i)) := by
  have hlive := h.live i w hw hunf
  rwa [State.roots, hl, map_cons] at hlive

theorem Tracked.root_of_initial (h : Tracked s) (hf : s.futures f = some fut) :
    fut.initial = (s.root f).isNone := by
  rw [(h.futures f fut hf).1, State.root, hf]
  simp

theorem Tracked.reply_of_root (h : Tracked s) (hf : s.futures f = some fut)
    (hreply : fut.reply = some reply) : ∀ q ∈ s.root f, ∀ p ∈ reply.rootseq, p = q := by
  intro q hq p hp
  rw [State.root, hf, bind_some, mem_def, map_eq_some_iff] at hq
  obtain ⟨root, hroot, rfl⟩ := hq
  exact (h.futures f fut hf).2 reply hreply root hroot p hp

end Head

theorem Pending.head_initial (h : Pending w (none :: roots) qs) :
    w.initialRpcSent = true ∧ w.initialRpcReceived = false ∧ roots = qs.map some := by
  have hshp := h.shape
  split at hshp
  · rename_i hcond
    simp only [Bool.and_eq_true, Bool.not_eq_true'] at hcond
    exact ⟨hcond.1, hcond.2, (List.cons.inj hshp).2⟩
  cases qs with
  | nil => cases hshp
  | cons q qs => cases (List.cons.inj hshp).1

theorem Pending.head_later (h : Pending w (some q :: roots) qs) :
    w.initialRpcSent = true ∧ w.initialRpcReceived = true ∧
      ∃ qs', qs = q :: qs' ∧ roots = qs'.map some := by
  have hshp := h.shape
  split at hshp
  · cases (List.cons.inj hshp).1
  rename_i hcond
  cases qs with
  | nil => cases hshp
  | cons q' qs' =>
    obtain ⟨hq, hrts⟩ := List.cons.inj hshp
    cases hq
    have hsent : w.initialRpcSent = true := by
      by_contra hno
      have := (h.unsent (by simpa using hno)).1
      cases this
    simp only [hsent, Bool.true_and, Bool.not_eq_true', Bool.not_eq_false] at hcond
    exact ⟨hsent, hcond, qs', rfl, hrts⟩

/-! ### Handling a reply -/

variable [DecidableEq V]

theorem handleReady_finished (i : ℕ) (initial : Bool) (reply : Reply V) (h : w.finished = true) :
    (handleReady i initial reply w).sent = [] ∧ (handleReady i initial reply w).after = w := by
  unfold handleReady
  simp only [h, if_true]
  refine ⟨trivial, ?_⟩
  split
  · rw [← h]
  · rfl

theorem handleReady_going {i : ℕ} {initial : Bool} {reply : Reply V} {w : Watcher V}
    (h : w.finished = false) (haft : (handleReady i initial reply w).after.finished = false) :
    handleLookupResponse initial reply w
        = ((handleReady i initial reply w).after, (handleReady i initial reply w).sent) ∧
      ¬ ((handleReady i initial reply w).after.responded = true ∧
        (handleReady i initial reply w).after.flags.waitcreate = true ∧
        (handleReady i initial reply w).after.flags.watch = false) := by
  unfold handleReady at haft ⊢
  simp only [h, Bool.false_eq_true, if_false] at haft ⊢
  split at haft
  · cases haft
  rename_i hcond
  rw [if_neg hcond]
  refine ⟨rfl, ?_⟩
  rintro ⟨h₁, h₂, h₃⟩
  simp [h₁, h₂, h₃] at hcond

theorem handleReady_sent_eq (i : ℕ) (initial : Bool) (reply : Reply V) (h : w.finished = false) :
    (handleReady i initial reply w).sent = (handleLookupResponse initial reply w).2 := by
  unfold handleReady
  simp [h]

/-- An initial reply that does not finish the watcher: the value is sent, or nothing is. -/
theorem handleInitial_cases {reply : Reply V} {w w' : Watcher V} {sent : List (Response V)}
    (h : handleLookupResponse true reply w = (w', sent)) (hw' : w'.finished = false) :
    reply.rootseq = some w'.initialRootseq ∧ w'.initialRpcReceived = true ∧
      w'.initialRpcSent = w.initialRpcSent ∧ w'.rootseq = w.rootseq ∧
      (w'.responded = true ∧ values sent = [w'.initialRootseq] ∨
        w'.responded = w.responded ∧ values sent = []) := by
  cases reply with
  | value val q =>
    cases h
    exact ⟨rfl, rfl, rfl, rfl, .inl ⟨rfl, rfl⟩⟩
  | enoent q =>
    simp only [handleLookupResponse, if_true] at h
    split at h
    · cases h
      exact ⟨rfl, rfl, rfl, rfl, .inr ⟨rfl, rfl⟩⟩
    · cases h
      cases hw'
  | error errnum =>
    cases h
    cases hw'

theorem handleValue_cases (val : V) (q : ℤ) (w : Watcher V) :
    ((q < w.initialRootseq ∨ w.mute = true ∨ ¬ w.flags.plain) ∧
      handleLookupResponse false (.value val q) w = (w, [])) ∨
    (w.initialRootseq ≤ q ∧ w.mute = false ∧ ∃ prev, handleLookupResponse false (.value val q) w
      = ({ w with prev := prev, responded := true }, [.value val q])) := by
  simp only [handleLookupResponse, Bool.false_eq_true, if_false]
  split
  · exact .inl ⟨.inl ‹_›, rfl⟩
  rename_i hq
  split
  · exact .inl ⟨.inr (.inl ‹_›), rfl⟩
  rename_i hmute
  have hmute : w.mute = false := by simpa using hmute
  split
  · rename_i hflg
    have hpl : ¬ w.flags.plain := by
      rintro ⟨-, hfull, huniq⟩
      simp [hfull, huniq] at hflg
    unfold handleCompareResponse
    split
    · exact .inl ⟨.inr (.inr hpl), rfl⟩
    · exact .inr ⟨not_lt.1 hq, hmute, _, rfl⟩
  · exact .inr ⟨not_lt.1 hq, hmute, w.prev, rfl⟩

theorem handleLater_value {reply : Reply V} {w : Watcher V}
    (h : (handleLookupResponse false reply w).1.finished = false) :
    ∃ val q, reply = .value val q := by
  cases reply with
  | value val q => exact ⟨val, q, rfl⟩
  | enoent q | error errnum => cases h

theorem Live.pop {i : ℕ} {fs : List ℕ} {w : Watcher V} {root : Option ℤ}
    {turns : List (Handled V)} {vals : List ℤ} {initial : Bool} {reply : Reply V}
    (h : Live w (root :: roots) turns vals) (hunf : w.finished = false)
    (hini : initial = root.isNone) (hreply : ∀ q ∈ root, ∀ p ∈ reply.rootseq, p = q)
    (haft : (handleReady i initial reply { w with lookups := fs }).after.finished = false) :
    Live (handleReady i initial reply { w with lookups := fs }).after roots
      (turns ++ [handleReady i initial reply { w with lookups := fs }])
      (vals ++ values (handleReady i initial reply { w with lookups := fs }).sent) := by
  obtain ⟨qs, hpnd, hvals⟩ := h.pending
  obtain ⟨heq, hgo⟩ := handleReady_going (w := { w with lookups := fs }) hunf haft
  have htn : (handleReady i initial reply { w with lookups := fs }).initial = initial ∧
      (handleReady i initial reply { w with lookups := fs }).reply = reply := ⟨rfl, rfl⟩
  generalize handleReady i initial reply { w with lookups := fs } = turn at *
  cases root with
  | none =>
    obtain ⟨hsent, hrcv, rfl⟩ := hpnd.head_initial
    obtain ⟨rfl, hresp, rfl⟩ := h.waiting hrcv
    subst hini
    obtain ⟨hroot, hrcv', hsent', hseq, hrspd⟩ := handleInitial_cases heq haft
    constructor
    case waiting => exact fun hff => by cases hrcv'.symm.trans hff
    case started => exact fun _ => ⟨turn, by simp, htn.1, by rw [htn.2, hroot]⟩
    case initial =>
      intro turn' hmem _
      obtain rfl := mem_singleton.1 hmem
      rw [htn.2, hroot]
    case going => exact hgo
    case responded =>
      intro _
      rcases hrspd with ⟨hr, hv⟩ | ⟨hr, hv⟩
      · simp [hr, hv]
      · simp [hr, hv, hresp]
    case pending =>
      refine ⟨qs, ⟨by simp [hrcv'], hpnd.sorted, fun q hq => ?_, fun hff => ?_⟩, ?_⟩
      · rw [hseq]
        exact hpnd.le q hq
      · rw [hsent', show Watcher.initialRpcSent _ = true from hsent] at hff
        cases hff
      · intro x hx
        rcases hrspd with ⟨-, hv⟩ | ⟨-, hv⟩
        · obtain rfl : x = turn.after.initialRootseq := by simpa [hv] using hx
          exact ⟨le_rfl, .inl rfl⟩
        · simp [hv] at hx
  | some q₀ =>
    obtain ⟨hsent, hrcv, qs', rfl, rfl⟩ := hpnd.head_later
    subst hini
    obtain ⟨val, q, rfl⟩ := handleLater_value (w := { w with lookups := fs })
      (by rw [show isNone (some q₀) = false from rfl] at heq; rw [heq]; exact haft)
    obtain rfl : q = q₀ := hreply q₀ rfl q rfl
    obtain ⟨turn₀, htn₀, hinit₀, hroot₀⟩ := h.started hrcv
    have hini : ∀ turn' ∈ turns ++ [turn], turn'.initial = true →
        turn'.reply.rootseq = some w.initialRootseq := by
      intro turn' hmem hinit
      rcases mem_append.1 hmem with hmem | hmem
      · exact h.initial turn' hmem hinit
      obtain rfl := mem_singleton.1 hmem
      rw [htn.1] at hinit
      cases hinit
    have hsrt := pairwise_cons.1 hpnd.sorted
    have hrest : ∀ x ∈ vals, w.initialRootseq ≤ x ∧
        (x = w.initialRootseq ∨ x ≤ w.rootseq ∧ ∀ p ∈ qs', x < p) := by
      intro x hx
      obtain ⟨hle, hor⟩ := hvals x hx
      exact ⟨hle, hor.imp id fun hlt => ⟨hlt.1, fun p hp => hlt.2 p (by simp [hp])⟩⟩
    have hpend : ∀ w' : Watcher V, w'.initialRpcSent = true → w'.initialRpcReceived = true →
        w'.rootseq = w.rootseq → Pending w' (qs'.map some) qs' := by
      intro w' hs hr hseq
      refine ⟨by simp [hr], hsrt.2, fun p hp => ?_, fun hff => ?_⟩
      · rw [hseq]
        exact hpnd.le p (by simp [hp])
      · rw [hs] at hff
        cases hff
    -- the value is dropped, or it is sent
    rcases handleValue_cases val q { w with lookups := fs } with ⟨-, hr⟩ | ⟨hle, -, prev, hr⟩
    all_goals
      rw [show isNone (some q) = false from rfl, hr] at heq
      obtain ⟨hr₁, hr₂⟩ := Prod.mk.inj heq
      rw [← hr₁] at hgo
      rw [← hr₂, ← hr₁]
      refine ⟨fun hff => ?_, fun _ => ⟨turn₀, by simp [htn₀], hinit₀, hroot₀⟩, hini, hgo, ?_, qs',
        hpend _ hsent hrcv rfl, ?_⟩
      · cases hrcv.symm.trans hff
    · simpa using h.responded
    · simpa using hrest
    · exact fun _ => by simp
    · intro x hx
      rcases mem_append.1 hx with hx | hx
      · exact hrest x hx
      · obtain rfl : x = q := by simpa using hx
        exact ⟨hle, .inr ⟨hpnd.le x (by simp), hsrt.1⟩⟩

/-! ### Actions -/

section Act

variable {s t : State V}

theorem Tracked.act (hwf : Wf s) (h : Tracked s) (hact : Act s t) : Tracked t := by
  cases hact with
  | refuse _ | update _ _ _ _ | monitor _ | delete _ _ =>
    exact h.frame h.futures rfl (fun _ => rfl) fun v w hw => .inl ⟨hw, rfl⟩
  | @answer f fut reply hf hnone hreply =>
    refine h.setFuture hf rfl (h.futures f fut hf).1 fun reply' hr => ?_
    cases hr
    exact hreply
  | @run f fut hf => exact h.setFuture hf rfl (h.futures f fut hf).1 (h.futures f fut hf).2
  | @destroy i w n hw hn hfinished hl =>
    rw [destroy_eq _ hl]
    exact h.frame h.futures rfl (fun _ => rfl) fun v u hu => .inl ⟨(of_update_none hu).2, rfl⟩
  | @mark i w hw mute =>
    refine h.setWatcher h.futures rfl (fun _ => rfl) rfl (fun _ _ _ _ => rfl)
      ⟨h.flags i w hw, h.first i w hw, fun hunf => ?_⟩
    have hl := h.live i w hw hunf
    obtain ⟨qs, hp, hvals⟩ := hl.pending
    exact ⟨hl.waiting, hl.started, hl.initial, hl.going, hl.responded,
      qs, { hp with }, hvals⟩
  | @fail i w hw hunf errnum =>
    refine h.setWatcher h.futures rfl (fun v => ?_) rfl (fun _ _ _ _ => rfl)
      ⟨h.flags i w hw, h.first i w hw, fun hff => by cases hff⟩
    by_cases hv : v = i
    · subst hv
      simp [State.setWatcher, State.send]
    · simp [State.setWatcher, State.send, hv]
  | @add i n hn sender matchtag cred key flags =>
    have hsent := hwf.bounded.sent s.next le_rfl
    have htns : s.turns s.next = [] := by
      rw [State.turns, filter_eq_nil_iff]
      intro turn hmem heq
      have := hwf.bounded.handled turn hmem
      simp only [decide_eq_true_eq] at heq
      omega
    refine h.setWatcher h.futures rfl (fun _ => rfl) rfl (fun _ _ _ _ => rfl) ⟨?_, ?_, fun _ => ?_⟩
    · intro turn hmem
      have hmem : turn ∈ s.turns s.next := hmem
      simp [htns] at hmem
    · intro hnone
      simp [State.roots] at hnone
    · refine (?_ : Live _ [] (s.turns s.next) (values (s.sent s.next)))
      rw [htns, hsent]
      constructor
      case waiting => exact fun _ => ⟨rfl, rfl, rfl⟩
      case pending => exact ⟨[], ⟨rfl, .nil, by simp, fun _ => ⟨rfl, rfl⟩⟩, by simp⟩
      all_goals simp
  | @queue i w n commit hw hn hcom hunf hseq =>
    have hfree := hwf.bounded.futures s.next le_rfl
    have hl := h.live i w hw hunf
    obtain ⟨qs, hp, hvals⟩ := hl.pending
    have hrts : (s.processLookupResponse n commit i w).roots
        { w with initialRpcSent := true, lookups := w.lookups ++ [s.next],
                 rootseq := commit.rootseq }
          = s.roots w ++ [if w.initialRpcSent then some commit.rootseq else none] := by
      rw [State.roots, map_append, State.roots]
      congr 1
      · refine map_congr_left fun g hg => ?_
        obtain ⟨fut, hfut, -⟩ := hwf.queued.member i w g hw hg
        have hne : g ≠ s.next := (lt_of_above hwf.bounded.futures hfut).ne
        simp [State.root, State.processLookupResponse, State.setWatcher, State.setFuture, hne]
      · cases hsent : w.initialRpcSent <;>
          simp [State.root, State.processLookupResponse, State.setWatcher, State.setFuture, hsent]
    refine h.setWatcher ?_ rfl (fun _ => rfl) rfl (fun v u hu _ => ?_)
      ⟨h.flags i w hw, ?_, fun _ => ?_⟩
    · intro f fut hf
      rcases of_update_some hf with ⟨rfl, rfl⟩ | ⟨-, hf⟩
      · refine ⟨?_, fun reply hr => by cases hr⟩
        cases w.initialRpcSent <;> simp
      · exact h.futures f fut hf
    · exact hwf.roots_of_ne hu (fun fut hf => by rw [hfree] at hf; cases hf)
        fun g hg => update_of_ne hg ..
    · rw [hrts]
      intro hnone
      cases hsent : w.initialRpcSent with
      | false =>
        obtain ⟨rfl, hrcv⟩ := hp.unsent hsent
        refine ⟨(hl.waiting hrcv).1, [], ?_⟩
        rw [hp.shape]
        simp [hsent]
      | true =>
        have hnone : none ∈ s.roots w := by simpa [hsent] using hnone
        obtain ⟨htns, qs', hqs'⟩ := h.first i w hw hnone
        exact ⟨htns, qs' ++ [commit.rootseq], by rw [hqs']; simp⟩
    · rw [hrts, hp.shape]
      cases hsent : w.initialRpcSent with
      | false =>
        obtain ⟨rfl, hrcv⟩ := hp.unsent hsent
        exact ⟨hl.waiting, hl.started, hl.initial, hl.going, hl.responded, [],
          ⟨by simp [hrcv], .nil, by simp, fun hff => by cases hff⟩,
          fun x hx => by cases (hl.waiting hrcv).2.2 ▸ hx⟩
      | true =>
        refine ⟨hl.waiting, hl.started, hl.initial, hl.going, hl.responded,
          qs ++ [commit.rootseq], ⟨by simp, ?_, ?_, fun hff => by cases hff⟩, ?_⟩
        · rw [pairwise_append]
          refine ⟨hp.sorted, pairwise_singleton _ _, fun q hq p hmem => ?_⟩
          obtain rfl := mem_singleton.1 hmem
          exact (hp.le q hq).trans_lt hseq
        · intro q hq
          rcases mem_append.1 hq with hq | hq
          · exact (hp.le q hq).trans hseq.le
          · obtain rfl := mem_singleton.1 hq
            exact le_rfl
        · intro x hx
          obtain ⟨hle, hor⟩ := hvals x hx
          refine ⟨hle, hor.imp id fun hlt => ⟨hlt.1.trans hseq.le, fun q hq => ?_⟩⟩
          rcases mem_append.1 hq with hq | hq
          · exact hlt.2 q hq
          · obtain rfl := mem_singleton.1 hq
            exact hlt.1.trans_lt hseq
  | @pop i f fs w fut reply hw hl hf hreply =>
    have hfrm := SameFrame.handleReady i fut.initial reply { w with lookups := fs }
    obtain ⟨fut', hf', hfi⟩ := hwf.queued.member i w f hw (by simp [hl])
    rw [hf, some.injEq] at hf'
    subst hf'
    have hnd := nodup_cons.1 (hl ▸ hwf.queued.nodup i w hw)
    set turn := handleReady i fut.initial reply { w with lookups := fs } with htn
    have hwr : turn.watcher = i := rfl
    have hbef : turn.before.flags = w.flags := rfl
    have haft : (s.endTurn f turn).roots turn.after = fs.map s.root := by
      rw [State.roots, hfrm.lookups]
      refine map_congr_left fun g hg => ?_
      have hgf : g ≠ f := fun e => hnd.1 (e ▸ hg)
      simp [State.root, State.endTurn, State.setWatcher, State.send, State.futureDestroy, hgf]
    have hrts : ∀ v u, s.watchers v = some u → v ≠ i →
        (s.endTurn f turn).roots u = s.roots u := by
      intro v u hu hv
      refine hwf.roots_of_ne hu (f := f) ?_ fun g hg => update_of_ne hg ..
      intro gut hg heq
      rw [hf, some.injEq] at hg
      subst hg
      exact hv (heq.symm.trans hfi)
    refine .of_known (fun g gut hg => h.futures g gut (of_update_none hg).2) ?_ ?_
    · intro v hv
      by_cases hvi : v = i
      · rw [hvi, turns_endTurn_self hwr]
        simp
      rw [sent_endTurn_of_ne hwr hvi] at hv
      rw [turns_endTurn_of_ne hwr hvi]
      exact h.logged v hv
    · intro v u hu
      rcases of_update_some hu with ⟨rfl, rfl⟩ | ⟨hv, hu⟩
      · refine ⟨fun turn' hmem => ?_, fun hnone => ?_, fun hunf => ?_⟩
        · rw [turns_endTurn_self hwr] at hmem
          refine Eq.trans ?_ hfrm.flags.symm
          rcases mem_append.1 hmem with hmem | hmem
          · exact h.flags v w hw turn' hmem
          · rw [mem_singleton.1 hmem]
            exact hbef
        · rw [haft] at hnone
          obtain ⟨-, qs, hqs⟩ := h.first v w hw (by
            rw [State.roots, hl, map_cons]
            exact mem_cons_of_mem _ hnone)
          rw [State.roots, hl, map_cons] at hqs
          rw [(List.cons.inj hqs).2] at hnone
          simp at hnone
        · rw [turns_endTurn_self hwr, sent_endTurn_self hwr, values_append]
          have hwun : w.finished = false := by
            by_contra hno
            have haft := (handleReady_finished v fut.initial reply
              (w := { w with lookups := fs }) (by simpa using hno)).2
            rw [← htn] at haft
            rw [haft] at hunf
            exact hno (by simpa using hunf)
          rw [haft]
          refine (h.live_cons hw hl hwun).pop hwun ?_ ?_ hunf
          · exact h.root_of_initial hf
          · exact h.reply_of_root hf hreply
      · refine (h.known hu).congr (hrts v u hu hv) (turns_endTurn_of_ne hwr hv) ?_
        rw [sent_endTurn_of_ne hwr hv]

theorem act_cases (hact : Act s t) :
    (t.handled = s.handled ∧ ∀ v, values (t.sent v) = values (s.sent v)) ∨
    ∃ i f fs w fut reply, s.watchers i = some w ∧ w.lookups = f :: fs ∧ s.futures f = some fut ∧
      fut.reply = some reply ∧
      t = s.endTurn f (handleReady i fut.initial reply { w with lookups := fs }) := by
  cases hact with
  | @fail i w hw hunf errnum =>
    refine .inl ⟨rfl, fun v => ?_⟩
    by_cases hv : v = i
    · subst hv
      simp [State.setWatcher, State.send]
    · simp [State.setWatcher, State.send, hv]
  | pop hw hl hf hreply => exact .inr ⟨_, _, _, _, _, _, hw, hl, hf, hreply, rfl⟩
  | destroy hw hn hfinished hl =>
    rw [destroy_eq _ hl]
    exact .inl ⟨rfl, fun _ => rfl⟩
  | refuse _ | answer _ _ _ | run _ | update _ _ _ _ | monitor _ | add _ _ _ _ _ _
  | mark _ _ | queue _ _ _ _ _ | delete _ _ => exact .inl ⟨rfl, fun _ => rfl⟩

end Act

/-! ### Runs -/

/-- The replies that are handled in a turn of the reactor. -/
def State.handles (s : State V) (l : Label V) : List (Handled V) :=
  match s.turn l with
  | some (.ok t) => t.handled.drop s.handled.length
  | _ => []

/-- If a property of states is lost exactly by the actions that handle a bad reply, then it
holds along a run exactly if no bad reply is handled in it. -/
theorem allSteps_iff_of_act {good : State V → Prop} {bad : Handled V → Prop} (hinit : good {})
    (hact : ∀ s t, Wf s → Tracked s → Act s t → ∃ turns, t.handled = s.handled ++ turns ∧
      (good t ↔ good s ∧ ∀ turn ∈ turns, ¬ bad turn)) (ls : List (Label V)) :
    machine.AllSteps (fun _ _ y => ∀ t, y = .ok t → good t) ls (.ok {}) ↔
      machine.AllSteps (fun x l _ => ∀ s, x = .ok s → ∀ turn ∈ s.handles l, ¬ bad turn) ls
        (.ok {}) := by
  have hacts : ∀ s t : State V, Wf s → Tracked s → Acts s t →
      Tracked t ∧ ∃ turns, t.handled = s.handled ++ turns ∧
        (good t ↔ good s ∧ ∀ turn ∈ turns, ¬ bad turn) := by
    intro s t hwf htrk hst
    induction hst with
    | refl => exact ⟨htrk, [], by simp⟩
    | @tail u t hsu hut ih =>
      obtain ⟨hu, turns, hhandled, hgood⟩ := ih
      obtain ⟨turns', hhandled', hgood'⟩ := hact u t (hwf.acts hsu) hu hut
      refine ⟨hu.act (hwf.acts hsu) hut, turns ++ turns', ?_, ?_⟩
      · rw [hhandled', hhandled, append_assoc]
      · rw [hgood', hgood, and_assoc, forall_mem_append]
  refine Machine.allSteps_congr (fun x => ∀ s, x = .ok s → Wf s ∧ Rest s ∧ Tracked s ∧ good s)
    ?_ ?_ ls fun s hs => ?_
  · intro x l y hx hstep hy t ht
    obtain ⟨s, rfl, htn⟩ := step_cases hstep
    obtain ⟨hwf, hrest, htrk, hgood⟩ := hx s rfl
    rcases turn_acts hwf hrest htn with rfl | ⟨t', rfl, hst, hrest'⟩
    · cases ht
    · cases ht
      exact ⟨hwf.acts hst, hrest', (hacts s t hwf htrk hst).1, hy t rfl⟩
  · intro x l y hx hstep
    obtain ⟨s, rfl, htn⟩ := step_cases hstep
    obtain ⟨hwf, hrest, htrk, hgood⟩ := hx s rfl
    rcases turn_acts hwf hrest htn with rfl | ⟨t, rfl, hst, -⟩
    · have hnone : s.handles l = [] := by rw [State.handles, htn]
      exact ⟨fun _ s' hs => by cases hs; simp [hnone], fun _ t ht => by cases ht⟩
    obtain ⟨-, turns, hhandled, hiff⟩ := hacts s t hwf htrk hst
    have htns : s.handles l = turns := by
      rw [State.handles, htn]
      simp [hhandled]
    constructor
    · intro hy s' hs
      cases hs
      rw [htns]
      exact (hiff.1 (hy t rfl)).2
    · intro hx t' ht
      cases ht
      exact hiff.2 ⟨hgood, htns ▸ hx s rfl⟩
  · cases hs
    exact ⟨Wf.init, Rest.init, Tracked.init, hinit⟩

/-! ### Values are sent in the order of commits -/

/-- The values that plain watchers are sent have strictly increasing root sequence numbers. -/
def Increasing (s : State V) : Prop :=
  ∀ v, (∀ turn ∈ s.turns v, turn.before.flags.plain) → (values (s.sent v)).Pairwise (· < ·)

/-- A later reply with a value at the root of the initial reply is handled for a plain
watcher that has been sent the value of the initial reply. -/
def Handled.repeats (turn : Handled V) : Prop :=
  turn.initial = false ∧ turn.before.flags.plain ∧ turn.before.finished = false ∧
    turn.before.mute = false ∧ turn.before.responded = true ∧
    ∃ val, turn.reply = .value val turn.before.initialRootseq

section Increasing

variable {s : State V}

/-- A value that is sent for a later reply is not lower than those sent before, and it is
higher unless it repeats the value of the initial reply. -/
theorem Tracked.pairwise_endTurn (h : Tracked s) (hw : s.watchers i = some w)
    (hl : w.lookups = f :: fs) (hf : s.futures f = some fut) (hreply : fut.reply = some reply)
    (hpl : w.flags.plain) :
    (values (s.sent i ++ (handleReady i fut.initial reply { w with lookups := fs }).sent)).Pairwise
        (· < ·) ↔
      (values (s.sent i)).Pairwise (· < ·) ∧
        ¬ (handleReady i fut.initial reply { w with lookups := fs }).repeats := by
  rw [values_append]
  have hini := h.root_of_initial hf
  have hroot := h.reply_of_root hf hreply
  by_cases hfin : w.finished = true
  · rw [(handleReady_finished i fut.initial reply (w := { w with lookups := fs }) hfin).1]
    have hno : ¬ (handleReady i fut.initial reply { w with lookups := fs }).repeats := by
      rintro ⟨-, -, hff, -⟩
      rw [show (_ : Handled V).before.finished = w.finished from rfl, hfin] at hff
      cases hff
    simp [hno]
  have hunf : w.finished = false := by simpa using hfin
  have hlive := h.live_cons hw hl hunf
  obtain ⟨qs, hpnd, hvals⟩ := hlive.pending
  rw [handleReady_sent_eq i fut.initial reply (w := { w with lookups := fs }) hunf]
  have hrepeats : (handleReady i fut.initial reply { w with lookups := fs }).repeats ↔
      fut.initial = false ∧ w.mute = false ∧ w.responded = true ∧
        ∃ val, reply = .value val w.initialRootseq :=
    ⟨fun ⟨h₁, _, _, h₂, h₃, h₄⟩ => ⟨h₁, h₂, h₃, h₄⟩,
      fun ⟨h₁, h₂, h₃, h₄⟩ => ⟨h₁, hpl, hunf, h₂, h₃, h₄⟩⟩
  rw [hrepeats]
  cases hr : s.root f with
  | none =>
    rw [hr] at hini hpnd
    obtain ⟨-, hrcv, -⟩ := hpnd.head_initial
    rw [(hlive.waiting hrcv).2.2, hini]
    have hone : (values (handleLookupResponse true reply
        { w with lookups := fs }).2).Pairwise (· < ·) := by
      cases reply with
      | value val q => exact pairwise_singleton _ _
      | enoent q =>
        simp only [handleLookupResponse, if_true]
        split_ifs
        · exact .nil
        · simp
      | error errnum => simp [handleLookupResponse]
    simpa using hone
  | some q₀ =>
    rw [hr] at hini hpnd hroot
    obtain ⟨-, hrcv, qs', rfl, -⟩ := hpnd.head_later
    have hff : fut.initial = false := hini
    rw [hff]
    cases reply with
    | enoent q | error errnum => simp [handleLookupResponse]
    | value val q =>
      obtain rfl : q = q₀ := hroot q₀ rfl q rfl
      rcases handleValue_cases val q { w with lookups := fs } with
        ⟨hwhy, heq⟩ | ⟨hle, hmute, prev, heq⟩
      · rw [heq, values_nil, append_nil, iff_self_and]
        rintro - ⟨-, hmute, -, val', hval⟩
        cases hval
        rcases hwhy with hlt | hmute' | hnot
        · exact lt_irrefl _ hlt
        · exact absurd hmute' (by simp [hmute])
        · exact hnot hpl
      · rw [heq, values_value, pairwise_append]
        have hle : w.initialRootseq ≤ q := hle
        constructor
        · rintro ⟨hpre, -, hlt⟩
          refine ⟨hpre, ?_⟩
          rintro ⟨-, -, hresp, val', hval⟩
          cases hval
          obtain ⟨x, hx⟩ := exists_mem_of_ne_nil _ ((hlive.responded hpl).1 hresp)
          have := hlt x hx _ (mem_singleton_self _)
          have := (hvals x hx).1
          omega
        · rintro ⟨hpre, hno⟩
          refine ⟨hpre, pairwise_singleton _ _, fun x hx y hy => ?_⟩
          obtain rfl := mem_singleton.1 hy
          rcases (hvals x hx).2 with heqx | ⟨-, hlt⟩
          · have hresp := (hlive.responded hpl).2 (ne_nil_of_mem hx)
            have hne : y ≠ w.initialRootseq := by
              rintro rfl
              exact hno ⟨rfl, hmute, hresp, val, rfl⟩
            omega
          · exact hlt y (by simp)

theorem increasing_act (h : Tracked s) (hact : Act s t) :
    ∃ turns, t.handled = s.handled ++ turns ∧
      (Increasing t ↔ Increasing s ∧ ∀ turn ∈ turns, ¬ turn.repeats) := by
  rcases act_cases hact with ⟨hhandled, hsent⟩ | ⟨i, f, fs, w, fut, reply, hw, hl, hf, hreply, rfl⟩
  · refine ⟨[], by simpa using hhandled, ?_⟩
    simp only [Increasing, State.turns, hhandled, hsent]
    simp
  set turn := handleReady i fut.initial reply { w with lookups := fs } with htn
  refine ⟨[turn], rfl, ?_⟩
  have hi : turn.watcher = i := rfl
  have hpl : (∀ turn' ∈ s.turns i ++ [turn], turn'.before.flags.plain) ↔ w.flags.plain := by
    constructor
    · exact fun hall => hall turn (by simp)
    · intro hp turn' hmem
      rcases mem_append.1 hmem with hmem | hmem
      · rwa [h.flags i w hw turn' hmem]
      · rw [mem_singleton.1 hmem]
        exact hp
  constructor
  · intro hinc
    constructor
    · intro v hv
      by_cases hvi : v = i
      · subst hvi
        by_cases hnone : s.turns v = []
        · have : values (s.sent v) = [] := by
            by_contra hne
            exact h.logged v hne hnone
          rw [this]
          exact .nil
        obtain ⟨turn', hmem⟩ := exists_mem_of_ne_nil _ hnone
        have hp : w.flags.plain := h.flags v w hw turn' hmem ▸ hv turn' hmem
        have := hinc v (by rw [turns_endTurn_self hi]; exact hpl.2 hp)
        rw [sent_endTurn_self hi] at this
        exact ((h.pairwise_endTurn hw hl hf hreply hp).1 this).1
      · rw [← sent_endTurn_of_ne hi hvi]
        exact hinc v (by rw [turns_endTurn_of_ne hi hvi]; exact hv)
    · intro turn' hmem
      obtain rfl := mem_singleton.1 hmem
      intro hrep
      have := hinc i (by rw [turns_endTurn_self hi]; exact hpl.2 hrep.2.1)
      rw [sent_endTurn_self hi] at this
      exact ((h.pairwise_endTurn hw hl hf hreply hrep.2.1).1 this).2 hrep
  · rintro ⟨hinc, hno⟩ v hv
    by_cases hvi : v = i
    · subst hvi
      rw [turns_endTurn_self hi] at hv
      rw [sent_endTurn_self hi]
      exact (h.pairwise_endTurn hw hl hf hreply (hpl.1 hv)).2
        ⟨hinc v fun turn' hmem => hv turn' (by simp [hmem]), hno turn (by simp)⟩
    · rw [sent_endTurn_of_ne hi hvi]
      exact hinc v (by rw [← turns_endTurn_of_ne hi hvi]; exact hv)

end Increasing

/-- **Values are sent in strictly increasing commit order** to all plain watchers along a run
exactly if no later reply with a value is handled at the root at which the watcher was sent
the value of the initial reply. -/
theorem responses_increasing_iff (ls : List (Label V)) :
    machine.AllSteps (fun _ _ y => ∀ t, y = .ok t → Increasing t) ls (.ok {}) ↔
      machine.AllSteps (fun x l _ => ∀ s, x = .ok s → ∀ turn ∈ s.handles l, ¬ turn.repeats) ls
        (.ok {}) :=
  allSteps_iff_of_act (fun _ _ => .nil) (fun _ _ _ h hact => increasing_act h hact) ls

/-- The commit with sequence number 1 is announced while the initial lookup is outstanding,
and the initial lookup is answered at the root of that commit. -/
def reportedTwice : List (Label ℕ) :=
  [.lookup "client" 1 ⟨roleOwner, 0⟩ "primary" "a" { watch := true },
    .getroot 0 (.ok (0, "root0", 0)), .setroot "primary" 1 "root1" 0 ["a"],
    .reply 2 (.value 7 1), .reply 3 (.value 7 1), .continuation 2]

/-- The value of the commit is sent twice. -/
theorem commit_reported_twice : ∃ s : State ℕ, machine.run reportedTwice (.ok {}) = some (.ok s) ∧
      s.sent 1 = [.value 7 1, .value 7 1] ∧ ¬ Increasing s := by
  obtain ⟨s, hs, hsent, hflg⟩ : ∃ s : State ℕ, machine.run reportedTwice (.ok {}) = some (.ok s) ∧
      s.sent 1 = [.value 7 1, .value 7 1] ∧
      ∀ flags ∈ (s.turns 1).map fun turn => turn.before.flags, flags = { watch := true } :=
    ⟨_, rfl, by decide +kernel, by decide +kernel⟩
  refine ⟨s, hs, hsent, fun hinc => ?_⟩
  have hpl : ∀ turn ∈ s.turns 1, turn.before.flags.plain := fun turn hmem => by
    rw [hflg _ (List.mem_map_of_mem hmem)]
    exact ⟨rfl, rfl, rfl⟩
  have hincreasing := hinc 1 hpl
  rw [hsent] at hincreasing
  exact absurd hincreasing (by decide)

/-! ### Outdated replies -/

/-- A later reply whose root is older than the one of the initial reply has no effect. -/
def OutdatedIgnored (s : State V) : Prop :=
  ∀ first ∈ s.handled, ∀ turn ∈ s.handled, first.watcher = turn.watcher → first.initial = true →
    turn.initial = false → (∃ p ∈ first.reply.rootseq, ∃ q ∈ turn.reply.rootseq, q < p) →
    turn.sent = [] ∧ turn.after = turn.before

/-- The key does not exist at the root of a later reply, which is older than the root of the
initial reply, and the watcher is not finished. -/
def Handled.outdatedEnoent (turn : Handled V) : Prop :=
  turn.initial = false ∧ turn.before.finished = false ∧
    ∃ q, turn.reply = .enoent q ∧ q < turn.before.initialRootseq

theorem handleReady_outdated {i : ℕ} {val : V} {q : ℤ} {w : Watcher V}
    (hgo : ¬ (w.responded = true ∧ w.flags.waitcreate = true ∧ w.flags.watch = false))
    (hq : q < w.initialRootseq) (hunf : w.finished = false) :
    (handleReady i false (.value val q) w).sent = [] ∧
      (handleReady i false (.value val q) w).after = w := by
  have heq : handleLookupResponse false (.value val q) w = (w, []) := by
    simp only [handleLookupResponse, Bool.false_eq_true, if_false, if_pos hq]
  unfold handleReady
  simp only [hunf, Bool.false_eq_true, if_false, heq]
  refine ⟨trivial, if_neg fun hcond => hgo ?_⟩
  simpa [and_assoc] using hcond

theorem outdated_act {s t : State V} (h : Tracked s) (hact : Act s t) :
    ∃ turns, t.handled = s.handled ++ turns ∧
      (OutdatedIgnored t ↔ OutdatedIgnored s ∧ ∀ turn ∈ turns, ¬ turn.outdatedEnoent) := by
  rcases act_cases hact with ⟨hhandled, -⟩ | ⟨i, f, fs, w, fut, reply, hw, hl, hf, hreply, rfl⟩
  · exact ⟨[], by simpa using hhandled, by simp [OutdatedIgnored, hhandled]⟩
  set turn := handleReady i fut.initial reply { w with lookups := fs } with htn
  refine ⟨[turn], rfl, ?_⟩
  have hmem : ∀ turn', turn' ∈ (s.endTurn f turn).handled ↔ turn' ∈ s.handled ∨ turn' = turn := by
    intro turn'
    rw [show (s.endTurn f turn).handled = s.handled ++ [turn] from rfl, mem_append,
      mem_singleton]
  have hini := h.root_of_initial hf
  constructor
  · intro hign
    refine ⟨fun first hfst turn' htn' => hign first ((hmem _).2 (.inl hfst)) turn'
      ((hmem _).2 (.inl htn')), fun turn' htn' => ?_⟩
    obtain rfl := mem_singleton.1 htn'
    rintro ⟨hlat, hunf, q, hq, hlt⟩
    have hunf : w.finished = false := hunf
    have hlive := h.live_cons hw hl hunf
    obtain ⟨qs, hpnd, -⟩ := hlive.pending
    have hlat : fut.initial = false := hlat
    rw [hini] at hlat
    obtain ⟨q₀, hq₀⟩ := isSome_iff_exists.1 (isNone_eq_false_iff.1 hlat)
    rw [hq₀] at hpnd
    obtain ⟨first, hfst, hinit, hroot⟩ := hlive.started hpnd.head_later.2.1
    rw [State.turns, mem_filter, decide_eq_true_eq] at hfst
    have hno := hign first ((hmem _).2 (.inl hfst.1)) turn ((hmem _).2 (.inr rfl)) hfst.2 hinit
      (by rw [htn]; exact hini.trans hlat)
      ⟨_, hroot, q, by rw [hq]; rfl, hlt⟩
    have hreply' : reply = .enoent q := hq
    have hfinished : turn.after.finished = true := by
      rw [htn, hini, hlat, hreply']
      unfold handleReady handleLookupResponse
      simp only [hunf, Bool.false_eq_true, if_false, Watcher.errorRespond]
      split <;> rfl
    rw [hno.2] at hfinished
    exact absurd hfinished (by rw [show turn.before.finished = w.finished from rfl]; simp [hunf])
  · rintro ⟨hign, hno⟩ first hfst turn' htn' hsame hinit hlat ⟨p, hp, q, hq, hlt⟩
    rcases (hmem turn').1 htn' with htn' | rfl
    · rcases (hmem first).1 hfst with hfst | rfl
      · exact hign first hfst turn' htn' hsame hinit hlat ⟨p, hp, q, hq, hlt⟩
      · have hnone : s.root f = none := by
          have hinit : fut.initial = true := hinit
          rw [hini] at hinit
          exact isNone_iff_eq_none.1 hinit
        obtain ⟨htns, -⟩ := h.first i w hw (by rw [State.roots, hl, map_cons, hnone]; simp)
        have hmem' : turn' ∈ s.turns i := by
          rw [State.turns, mem_filter, decide_eq_true_eq]
          exact ⟨htn', hsame.symm⟩
        rw [htns] at hmem'
        cases hmem'
    · rcases (hmem first).1 hfst with hfst | rfl
      · by_cases hfin : w.finished = true
        · exact handleReady_finished i fut.initial reply (w := { w with lookups := fs }) hfin
        · have hunf : w.finished = false := by simpa using hfin
          have hlive := h.live_cons hw hl hunf
          have hroot := hlive.initial first (by
            rw [State.turns, mem_filter, decide_eq_true_eq]
            exact ⟨hfst, hsame⟩) hinit
          rw [hroot, mem_def, some.injEq] at hp
          subst hp
          have hff : fut.initial = false := hlat
          cases reply with
          | value val q' =>
            cases hq
            rw [htn, hff]
            exact handleReady_outdated hlive.going hlt hunf
          | enoent q' =>
            cases hq
            exact absurd ⟨hlat, hunf, _, rfl, hlt⟩ (hno turn (by simp))
          | error errnum => cases hq
      · rw [hinit] at hlat
        cases hlat

/-- **Outdated replies have no effect** along a run exactly if no reply is handled, for a
watcher that is not finished, that reports the key missing at a root older than the one of
the initial reply. -/
theorem outdated_ignored_iff (ls : List (Label V)) :
    machine.AllSteps (fun _ _ y => ∀ t, y = .ok t → OutdatedIgnored t) ls (.ok {}) ↔
      machine.AllSteps
        (fun x l _ => ∀ s, x = .ok s → ∀ turn ∈ s.handles l, ¬ turn.outdatedEnoent) ls (.ok {}) :=
  allSteps_iff_of_act (by simp [OutdatedIgnored]) (fun _ _ _ h hact => outdated_act h hact) ls

/-- The key exists at the roots 0 and 2 and does not exist at the root 1. Both later commits are
announced while the initial lookup is outstanding, and it is answered at the root 2. -/
def absentBetween : List (Label ℕ) :=
  [.lookup "client" 1 ⟨roleOwner, 0⟩ "primary" "a" { watch := true },
    .getroot 0 (.ok (0, "root0", 0)), .setroot "primary" 1 "root1" 0 ["a"],
    .setroot "primary" 2 "root2" 0 ["a"], .reply 2 (.value 8 2), .reply 3 (.enoent 1),
    .continuation 2]

/-- The outdated reply of the lookup at the root 1 ends the watch with an error. -/
theorem outdated_reply_ends_watch :
    ∃ s : State ℕ, machine.run absentBetween (.ok {}) = some (.ok s) ∧
      s.sent 1 = [.value 8 2, .error .ENOENT] ∧ ¬ OutdatedIgnored s := by
  obtain ⟨s, hs, hsent, htns⟩ : ∃ s : State ℕ,
      machine.run absentBetween (.ok {}) = some (.ok s) ∧
      s.sent 1 = [.value 8 2, .error .ENOENT] ∧
      (s.handled.map fun turn => (turn.watcher, turn.initial, turn.reply.rootseq, turn.sent))
        = [(1, true, some 2, [.value 8 2]), (1, false, some 1, [.error .ENOENT])] :=
    ⟨_, rfl, by decide +kernel, by decide +kernel⟩
  refine ⟨s, hs, hsent, fun hign => ?_⟩
  obtain ⟨first, second, hhandled⟩ : ∃ first second, s.handled = [first, second] :=
    length_eq_two.1 (by simpa using congrArg length htns)
  rw [hhandled] at htns
  simp only [map_cons, map_nil, List.cons.injEq, Prod.mk.injEq, and_true] at htns
  obtain ⟨⟨hw₁, hi₁, hr₁, -⟩, hw₂, hi₂, hr₂, hsent₂⟩ := htns
  have hnone := (hign first (by simp [hhandled]) second (by simp [hhandled]) (hw₁.trans hw₂.symm)
    hi₁ hi₂ ⟨2, hr₁, 1, hr₂, by decide⟩).1
  rw [hsent₂] at hnone
  cases hnone

end FluxCore.KvsWatch
