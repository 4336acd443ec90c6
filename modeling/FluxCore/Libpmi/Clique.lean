import Mathlib.Algebra.Order.BigOperators.Group.List
import Mathlib.Tactic.Ring
import Mathlib.Tactic.Linarith

/-!
# Process mappings and PMI cliques

The value of `PMI_process_mapping` is a vector of blocks, each of which lays out `procs`
consecutive ranks on each of `nodes` consecutive node ids. Three functions of `clique.c` walk
such a vector: `find_nodeid` locates one rank, `find_nranks` counts the ranks of a node below a
given size, and `find_ranks` lists them.

The two nested loops of the latter are loops over one flat list, the `layout`: the nodes in the
order in which they are filled. Along it the three functions are compared with `ranksOn`, the
ranks below `size` that a node is given.

The last two functions cut a node that reaches beyond `size` by `lsize -= (brank - size)`, where
`brank` is the first rank of that node and not the first rank after it. The node at the cut
gets `procs` ranks too many, and each node behind it is given the difference between its `procs`
and that of the node before it. `Spared` says which nodes are not touched by this.
-/

namespace FluxCore.Libpmi.Clique

open List

/-- `struct pmi_map_block`. -/
structure MapBlock where
  nodeid : ℤ
  nodes : ℤ
  procs : ℤ
deriving DecidableEq, Repr

/-- The PMI results other than `PMI_SUCCESS` that the functions below return. -/
inductive Failure
  | fail
  | invalidSize
deriving DecidableEq, Repr

/-! ### The three walks -/

/-- The loop of `find_nodeid` from a block on; `brank` is the first rank of that block. -/
def findNodeidFrom (rank : ℤ) : ℤ → List MapBlock → Except Failure ℤ
  | _, [] => .error .fail
  | brank, b :: blocks =>
    let lsize := b.nodes * b.procs
    let lrank := rank - brank
    if lrank ≥ 0 ∧ lrank < lsize then
      .ok (b.nodeid + lrank.tdiv b.procs)
    else
      findNodeidFrom rank (brank + lsize) blocks

/-- `pmi_process_mapping_find_nodeid`. -/
def findNodeid (blocks : List MapBlock) (rank : ℤ) : Except Failure ℤ :=
  findNodeidFrom rank 0 blocks

/-- The number of ranks that the two loops below give to a node whose first rank is `brank`. -/
def lsizeOf (size brank procs : ℤ) : ℤ :=
  if brank + procs > size then procs - (brank - size) else procs

/-- One turn of the inner loop of `find_nranks`, on `brank` and `nranks`. -/
def countNode (nodeid size : ℤ) (b : MapBlock) (st : ℤ × ℤ) (j : ℕ) : ℤ × ℤ :=
  let lsize := lsizeOf size st.1 b.procs
  (st.1 + lsize, if b.nodeid + j = nodeid then st.2 + lsize else st.2)

/-- `pmi_process_mapping_find_nranks`, which always succeeds. -/
def findNranks (blocks : List MapBlock) (nodeid size : ℤ) : ℤ :=
  (blocks.foldl (fun st b => (range b.nodes.toNat).foldl (countNode nodeid size b) st)
    (0, 0)).2

/-- The innermost loop of `find_ranks`; the ranks written so far are a list of length `nx`. -/
def listRanks (nranks brank lsize : ℤ) (ranks : List ℤ) : Except Failure (List ℤ) :=
  (range lsize.toNat).foldlM (fun ranks (k : ℕ) =>
    if (ranks.length : ℤ) ≥ nranks then .error .invalidSize else .ok (ranks ++ [brank + k])) ranks

/-- One turn of the middle loop of `find_ranks`, on `brank` and the ranks written. -/
def listNode (nodeid size nranks : ℤ) (b : MapBlock) (st : ℤ × List ℤ) (j : ℕ) :
    Except Failure (ℤ × List ℤ) := do
  let lsize := lsizeOf size st.1 b.procs
  let ranks ←
    if b.nodeid + j = nodeid then listRanks nranks st.1 lsize st.2 else .ok st.2
  .ok (st.1 + lsize, ranks)

/-- `pmi_process_mapping_find_ranks` for an array of `nranks` ranks. -/
def findRanks (blocks : List MapBlock) (nodeid size nranks : ℤ) : Except Failure (List ℤ) := do
  let st ← blocks.foldlM
    (fun st b => (range b.nodes.toNat).foldlM (listNode nodeid size nranks b) st) (0, [])
  if (st.2.length : ℤ) ≠ nranks then .error .invalidSize else .ok st.2

/-- The `nodeid` of `struct clique_context`: the node of the caller, or -1 if there is none. -/
def contextNodeid (blocks : List MapBlock) (rank : ℤ) : ℤ :=
  match findNodeid blocks rank with
  | .ok nodeid => nodeid
  | .error _ => -1

/-- `pmi_process_mapping_get_clique_size` on the rank `rank` of `size`. -/
def getCliqueSize (blocks : List MapBlock) (rank size : ℤ) : ℤ :=
  if contextNodeid blocks rank = -1 then 1
  else findNranks blocks (contextNodeid blocks rank) size

/-- `pmi_process_mapping_get_clique_ranks` on the rank `rank` of `size`. -/
def getCliqueRanks (blocks : List MapBlock) (rank size length : ℤ) : Except Failure (List ℤ) :=
  if contextNodeid blocks rank = -1 then
    if length < 1 then .error .invalidSize else .ok [rank]
  else
    findRanks blocks (contextNodeid blocks rank) size length

/-! ### What the walks are for -/

/-- The number of processes a mapping describes. -/
def total (blocks : List MapBlock) : ℤ :=
  (blocks.map fun b => b.nodes * b.procs).sum

/-- Every block has at least one node and every node at least one process. -/
def Positive (blocks : List MapBlock) : Prop :=
  ∀ b ∈ blocks, 0 < b.nodes ∧ 0 < b.procs

instance (blocks : List MapBlock) : Decidable (Positive blocks) :=
  inferInstanceAs (Decidable (∀ b ∈ blocks, 0 < b.nodes ∧ 0 < b.procs))

/-- The `count` consecutive ranks from `brank` on. -/
def span (brank count : ℤ) : List ℤ :=
  (range count.toNat).map fun k : ℕ => brank + k

/-- The ranks below `size` that `find_nodeid` places on node `n`, in increasing order. -/
def clique (blocks : List MapBlock) (n size : ℤ) : List ℤ :=
  (span 0 size).filter fun r => findNodeid blocks r = .ok n

/-- The three functions **agree** on node `n`: `find_nranks` counts its ranks, and `find_ranks`
called with that length lists them. -/
def Agree (blocks : List MapBlock) (size n : ℤ) : Prop :=
  findNranks blocks n size = (clique blocks n size).length ∧
    findRanks blocks n size (findNranks blocks n size) = .ok (clique blocks n size)

instance (blocks : List MapBlock) (size n : ℤ) : Decidable (Agree blocks size n) :=
  inferInstanceAs (Decidable (_ ∧ _))

/-! ### Consecutive ranks -/

@[simp] theorem length_span (brank count : ℤ) : (span brank count).length = count.toNat := by
  simp [span]

variable {brank : ℤ}

theorem mem_span {count r : ℤ} : r ∈ span brank count ↔ brank ≤ r ∧ r < brank + count := by
  simp only [span, List.mem_map, mem_range]
  constructor
  · rintro ⟨k, hk, rfl⟩
    omega
  · rintro ⟨hle, hlt⟩
    exact ⟨(r - brank).toNat, by omega, by omega⟩

theorem span_eq_nil {count : ℤ} : span brank count = [] ↔ count ≤ 0 := by
  rw [← length_eq_zero_iff, length_span]
  omega

theorem span_add (brank : ℤ) (ha : 0 ≤ a) (hb : 0 ≤ b) :
    span brank (a + b) = span brank a ++ span (brank + a) b := by
  have hsum : (a + b).toNat = a.toNat + b.toNat := by omega
  simp only [span, hsum, range_add, map_append, List.map_map]
  congr 1
  apply map_congr_left
  intro k _
  simp only [Function.comp_apply]
  omega

/-! ### The layout -/

/-- A node of the layout: its id and the number of processes on it. -/
structure Node where
  nodeid : ℤ
  procs : ℤ
deriving DecidableEq, Repr

/-- The nodes a mapping describes, in the order in which ranks are laid out on them. -/
def layout (blocks : List MapBlock) : List Node :=
  blocks.flatMap fun b => (range b.nodes.toNat).map fun j : ℕ => ⟨b.nodeid + j, b.procs⟩

theorem layout_cons (b : MapBlock) (blocks : List MapBlock) : layout (b :: blocks) =
      ((range b.nodes.toNat).map fun j : ℕ => ⟨b.nodeid + j, b.procs⟩) ++ layout blocks := by
  rw [layout, flatMap_cons, layout]

variable {blocks : List MapBlock}

theorem procs_pos_of_mem_layout (hpos : Positive blocks) (hv : v ∈ layout blocks) :
    0 < v.procs := by
  simp only [layout, mem_flatMap, List.mem_map] at hv
  obtain ⟨b, hb, j, -, rfl⟩ := hv
  exact (hpos b hb).2

/-- The node of the layout that holds `rank`, if the first rank of the layout is `brank`. -/
def nodeAt (rank : ℤ) : ℤ → List Node → Except Failure ℤ
  | _, [] => .error .fail
  | brank, v :: nodes =>
    if brank ≤ rank ∧ rank < brank + v.procs then .ok v.nodeid
    else nodeAt rank (brank + v.procs) nodes

/-- The ranks below `size` on node `n`, if the first rank of the layout is `brank`. -/
def ranksOn (n size : ℤ) : ℤ → List Node → List ℤ
  | _, [] => []
  | brank, v :: nodes =>
    (if v.nodeid = n then span brank (min v.procs (size - brank)) else []) ++
      ranksOn n size (brank + v.procs) nodes

/-- What `find_nranks` counts from a node on. -/
def counted (n size : ℤ) : ℤ → List Node → ℤ
  | _, [] => 0
  | brank, v :: nodes =>
    (if v.nodeid = n then lsizeOf size brank v.procs else 0) +
      counted n size (brank + lsizeOf size brank v.procs) nodes

/-- What `find_ranks` lists from a node on. -/
def listed (n size : ℤ) : ℤ → List Node → List ℤ
  | _, [] => []
  | brank, v :: nodes =>
    (if v.nodeid = n then span brank (lsizeOf size brank v.procs) else []) ++
      listed n size (brank + lsizeOf size brank v.procs) nodes

/-! ### `find_nodeid` along the layout -/

theorem nodeAt_block (id procs rank : ℤ) (hp : 0 < procs) (rest : List Node) (m : ℕ) :
    ∀ (j : ℕ) (brank : ℤ), brank ≤ rank →
      nodeAt rank brank (((range' j m).map fun i : ℕ => ⟨id + i, procs⟩) ++ rest) =
        if rank - brank < m * procs then .ok (id + j + (rank - brank).tdiv procs)
        else nodeAt rank (brank + m * procs) rest := by
  induction m with
  | zero =>
    intro j brank hle
    have hno : ¬ rank - brank < ((0 : ℕ) : ℤ) * procs := by
      rw [Nat.cast_zero, zero_mul]
      omega
    rw [if_neg hno]
    simp
  | succ m ih =>
    intro j brank hle
    have hmul : ((m + 1 : ℕ) : ℤ) * procs = procs + m * procs := by
      push_cast
      ring
    simp only [List.range'_succ, map_cons, cons_append, nodeAt, hmul]
    by_cases hin : rank < brank + procs
    · have hz : (rank - brank).tdiv procs = 0 :=
        Int.tdiv_eq_zero_of_lt (by omega) (by omega)
      have hm : (0 : ℤ) ≤ m * procs := by positivity
      rw [if_pos ⟨hle, hin⟩, if_pos (by omega), hz, add_zero]
    rw [if_neg (by omega), ih (j + 1) (brank + procs) (by omega)]
    have hdiv : (rank - brank).tdiv procs = (rank - (brank + procs)).tdiv procs + 1 := by
      have hspl : rank - brank = rank - (brank + procs) + procs * 1 := by ring
      rw [Int.tdiv_eq_ediv_of_nonneg (by omega), Int.tdiv_eq_ediv_of_nonneg (by omega),
        hspl, Int.add_mul_ediv_left _ _ hp.ne']
    have hiff : rank - (brank + procs) < m * procs ↔ rank - brank < procs + m * procs := by
      constructor <;> intro h <;> linarith
    rw [hdiv, if_congr hiff rfl rfl, add_assoc brank]
    congr 2
    push_cast
    ring

theorem findNodeidFrom_eq (hpos : Positive blocks) (rank : ℤ) : ∀ brank, brank ≤ rank →
      findNodeidFrom rank brank blocks = nodeAt rank brank (layout blocks) := by
  induction blocks with
  | nil => exact fun _ _ => rfl
  | cons b blocks ih =>
    intro brank hle
    obtain ⟨hn, hp⟩ := hpos b (mem_cons_self ..)
    have hcast : (b.nodes.toNat : ℤ) = b.nodes := Int.toNat_of_nonneg hn.le
    rw [layout_cons, range_eq_range', nodeAt_block _ _ _ hp _ _ _ _ hle, hcast, findNodeidFrom]
    by_cases hin : rank - brank < b.nodes * b.procs
    · rw [if_pos hin, if_pos ⟨by omega, hin⟩]
      simp
    · rw [if_neg hin, if_neg (fun h => hin h.2)]
      exact ih (fun c hc => hpos c (mem_cons_of_mem _ hc)) _ (by linarith)

variable {size : ℤ} {nodes : List Node}

theorem ranksOn_of_le {n : ℤ} (hpos : ∀ v ∈ nodes, 0 < v.procs) :
    ∀ {brank : ℤ}, size ≤ brank → ranksOn n size brank nodes = [] := by
  induction nodes with
  | nil => exact fun _ => rfl
  | cons v nodes ih =>
    intro brank hle
    obtain ⟨hp, hpos'⟩ := forall_mem_cons.mp hpos
    have hnil : span brank (min v.procs (size - brank)) = [] := span_eq_nil.mpr (by omega)
    rw [ranksOn, hnil, ite_self, nil_append]
    exact ih hpos' (by omega)

theorem filter_nodeAt (n size : ℤ) (hpos : ∀ v ∈ nodes, 0 < v.procs) :
    ∀ brank : ℤ, (span brank (size - brank)).filter (fun r => nodeAt r brank nodes = .ok n) =
      ranksOn n size brank nodes := by
  induction nodes with
  | nil => exact fun brank => by simp [nodeAt, ranksOn]
  | cons v nodes ih =>
    intro brank
    obtain ⟨hp, hpos'⟩ := forall_mem_cons.mp hpos
    -- on the ranks of the first node, `nodeAt` is constant
    have hfst : ∀ count ≤ v.procs,
        (span brank count).filter (fun r => nodeAt r brank (v :: nodes) = .ok n) =
          if v.nodeid = n then span brank count else [] := by
      intro count hcnt
      have hat : ∀ r ∈ span brank count, nodeAt r brank (v :: nodes) = .ok v.nodeid := by
        intro r hr
        rw [mem_span] at hr
        rw [nodeAt, if_pos ⟨hr.1, by omega⟩]
      by_cases hv : v.nodeid = n
      · rw [if_pos hv, filter_eq_self]
        intro r hr
        simp [hat r hr, hv]
      rw [if_neg hv, filter_eq_nil_iff]
      intro r hr
      simp [hat r hr, hv]
    by_cases hcut : size - brank ≤ v.procs
    · rw [ranksOn, ranksOn_of_le hpos' (by omega), append_nil, min_eq_right hcut]
      exact hfst _ hcut
    have hspl : size - brank = v.procs + (size - (brank + v.procs)) := by ring
    have hrest : (span (brank + v.procs) (size - (brank + v.procs))).filter
          (fun r => nodeAt r brank (v :: nodes) = .ok n) =
        ranksOn n size (brank + v.procs) nodes := by
      rw [← ih hpos']
      apply filter_congr
      intro r hr
      rw [mem_span] at hr
      rw [nodeAt, if_neg (by omega)]
    rw [ranksOn, min_eq_left (by omega), hspl, span_add _ hp.le (by omega),
      filter_append, hfst _ le_rfl, hrest]

/-- **The clique of a node, read off the layout.** -/
theorem clique_eq_ranksOn (hpos : Positive blocks) (n size : ℤ) :
    clique blocks n size = ranksOn n size 0 (layout blocks) := by
  rw [clique, ← filter_nodeAt n size (fun v hv => procs_pos_of_mem_layout hpos hv), sub_zero]
  apply filter_congr
  intro r hr
  rw [findNodeid, findNodeidFrom_eq hpos _ _ (mem_span.mp hr).1]

/-! ### The nested loops along the layout -/

theorem counted_foldl_nodes (n size : ℤ) (b : MapBlock) (rest : List Node) (js : List ℕ) :
    ∀ st : ℤ × ℤ, (js.foldl (countNode n size b) st).2 +
          counted n size (js.foldl (countNode n size b) st).1 rest =
        st.2 + counted n size st.1 ((js.map fun j : ℕ => ⟨b.nodeid + j, b.procs⟩) ++ rest) := by
  induction js with
  | nil => exact fun st => rfl
  | cons j js ih =>
    intro st
    rw [foldl_cons, ih, map_cons, cons_append, counted]
    by_cases hj : b.nodeid + j = n
    · simp only [countNode, if_pos hj]
      ring
    · simp only [countNode, if_neg hj]
      ring

theorem findNranks_eq (blocks : List MapBlock) (n size : ℤ) :
    findNranks blocks n size = counted n size 0 (layout blocks) := by
  have hfold : ∀ st : ℤ × ℤ,
      (blocks.foldl (fun st b => (range b.nodes.toNat).foldl (countNode n size b) st) st).2 =
        st.2 + counted n size st.1 (layout blocks) := by
    induction blocks with
    | nil => exact fun st => (add_zero _).symm
    | cons b blocks ih =>
      intro st
      rw [foldl_cons, ih, counted_foldl_nodes, layout_cons]
  rw [findNranks, hfold, zero_add]

theorem listRanks_eq (nranks brank lsize : ℤ) (ranks : List ℤ) :
    listRanks nranks brank lsize ranks =
      if lsize ≤ 0 ∨ ranks.length + lsize ≤ nranks then .ok (ranks ++ span brank lsize)
      else .error .invalidSize := by
  have hloop : ∀ m : ℕ, (range m).foldlM (fun ranks (k : ℕ) => if (ranks.length : ℤ) ≥ nranks then
          .error .invalidSize else .ok (ranks ++ [brank + k])) ranks =
        if m = 0 ∨ (ranks.length + m : ℤ) ≤ nranks then
          Except.ok (ranks ++ (range m).map fun k : ℕ => brank + k)
        else .error Failure.invalidSize := by
    intro m
    induction m with
    | zero => simp [pure, Except.pure]
    | succ m ih =>
      rw [range_succ, foldlM_append, ih]
      by_cases hfit : m = 0 ∨ (ranks.length + m : ℤ) ≤ nranks
      · rw [if_pos hfit]
        by_cases hroom : (ranks.length + m : ℤ) ≥ nranks
        · rw [if_neg (by omega)]
          simp [bind, Except.bind, hroom]
        · rw [if_pos (by omega)]
          simp [bind, Except.bind, pure, Except.pure, hroom]
      · rw [if_neg hfit, if_neg (by omega)]
        rfl
  rw [listRanks, hloop, span]
  by_cases hfit : lsize ≤ 0 ∨ ranks.length + lsize ≤ nranks
  · rw [if_pos hfit, if_pos (by omega)]
  · rw [if_neg hfit, if_neg (by omega)]

/-- What `find_ranks` returns if it has written `ranks` and goes on with `nodes`. -/
def settle (n size nranks : ℤ) (st : ℤ × List ℤ) (nodes : List Node) : Except Failure (List ℤ) :=
  if ((st.2 ++ listed n size st.1 nodes).length : ℤ) = nranks then
    .ok (st.2 ++ listed n size st.1 nodes)
  else .error .invalidSize

theorem settle_listNode (n size nranks : ℤ) (b : MapBlock) (rest : List Node) (j : ℕ)
    (st : ℤ × List ℤ) :
    (listNode n size nranks b st j >>= fun st' => settle n size nranks st' rest) =
      settle n size nranks st (⟨b.nodeid + j, b.procs⟩ :: rest) := by
  obtain ⟨brank, ranks⟩ := st
  by_cases hj : b.nodeid + j = n
  · simp only [listNode, if_pos hj, listRanks_eq]
    by_cases hfit : lsizeOf size brank b.procs ≤ 0 ∨
        ranks.length + lsizeOf size brank b.procs ≤ nranks
    · rw [if_pos hfit]
      simp [bind, Except.bind, settle, listed, hj]
    rw [if_neg hfit, settle, if_neg]
    · rfl
    · simp only [listed, hj, if_true, length_append, length_span]
      omega
  · simp [listNode, hj, bind, Except.bind, settle, listed]

theorem settle_foldlM_nodes (n size nranks : ℤ) (b : MapBlock) (rest : List Node) (js : List ℕ) :
    ∀ st : ℤ × List ℤ,
      (js.foldlM (listNode n size nranks b) st >>= fun st' => settle n size nranks st' rest) =
        settle n size nranks st ((js.map fun j : ℕ => ⟨b.nodeid + j, b.procs⟩) ++ rest) := by
  induction js with
  | nil => exact fun st => rfl
  | cons j js ih =>
    intro st
    rw [foldlM_cons, bind_assoc, map_cons, cons_append, ← settle_listNode]
    exact congrArg _ (funext ih)

theorem findRanks_eq (blocks : List MapBlock) (n size nranks : ℤ) :
    findRanks blocks n size nranks = settle n size nranks (0, []) (layout blocks) := by
  have hfold : ∀ st : ℤ × List ℤ, (blocks.foldlM (fun st b =>
          (range b.nodes.toNat).foldlM (listNode n size nranks b) st) st >>= fun st' =>
        settle n size nranks st' []) = settle n size nranks st (layout blocks) := by
    induction blocks with
    | nil => exact fun st => rfl
    | cons b blocks ih =>
      intro st
      rw [foldlM_cons, bind_assoc, layout_cons, ← settle_foldlM_nodes]
      exact congrArg _ (funext ih)
  rw [findRanks, ← hfold]
  congr 1
  funext st
  simp [settle, listed]

/-! ### Before, at and behind the cut -/

/-- Every node numbered `n` has as many processes as the node before it. -/
def EvenFor (n : ℤ) : ℤ → List Node → Prop
  | _, [] => True
  | prev, v :: nodes => (v.nodeid = n → v.procs = prev) ∧ EvenFor n v.procs nodes

/-- Node `n` is **spared** by the cut at `size`: it is not the node that reaches beyond `size`,
and behind that node each node numbered `n` has as many processes as the node before it. -/
def Spared (n size : ℤ) : ℤ → List Node → Prop
  | _, [] => True
  | brank, v :: nodes =>
    if brank + v.procs ≤ size then Spared n size (brank + v.procs) nodes
    else v.nodeid ≠ n ∧ EvenFor n v.procs nodes

theorem lsizeOf_le (h : brank + procs ≤ size) : lsizeOf size brank procs = procs := by
  rw [lsizeOf, if_neg (by omega)]

theorem lsizeOf_gt (h : size < brank + procs) :
    lsizeOf size brank procs = procs - (brank - size) := by
  rw [lsizeOf, if_pos h]

theorem counted_le_length_listed (n size : ℤ) (nodes : List Node) :
    ∀ brank, counted n size brank nodes ≤ (listed n size brank nodes).length := by
  induction nodes with
  | nil => exact fun _ => le_rfl
  | cons v nodes ih =>
    intro brank
    have hrest := ih (brank + lsizeOf size brank v.procs)
    by_cases hv : v.nodeid = n
    · simp only [counted, listed, if_pos hv, length_append, length_span]
      omega
    · simpa only [counted, listed, if_neg hv, zero_add, nil_append] using hrest

theorem behind_cut {n : ℤ} (hpos : ∀ v ∈ nodes, 0 < v.procs) : ∀ prev, 0 < prev →
      (counted n size (size + prev) nodes = 0 ∧ listed n size (size + prev) nodes = [] ↔
        EvenFor n prev nodes) := by
  induction nodes with
  | nil => exact fun _ _ => ⟨fun _ => trivial, fun _ => ⟨rfl, rfl⟩⟩
  | cons v nodes ih =>
    intro prev hprev
    obtain ⟨hp, hpos'⟩ := forall_mem_cons.mp hpos
    have hsize : lsizeOf size (size + prev) v.procs = v.procs - prev := by
      rw [lsizeOf_gt (by omega)]
      ring
    have hnext : size + prev + (v.procs - prev) = size + v.procs := by ring
    have hle := counted_le_length_listed n size nodes (size + v.procs)
    simp only [EvenFor, ← ih hpos' v.procs hp, counted, listed, hsize, hnext, append_eq_nil_iff]
    by_cases hv : v.nodeid = n
    · simp only [hv, if_true, span_eq_nil, true_imp_iff]
      constructor
      · rintro ⟨hcnt, hfew, hnil⟩
        rw [hnil, length_nil] at hle
        exact ⟨by omega, by omega, hnil⟩
      · rintro ⟨heven, hcnt, hnil⟩
        exact ⟨by omega, by omega, hnil⟩
    · simp [hv]

/-- From a node on, the count and the list are those of the ranks below `size`. -/
def AgreeFrom (n size brank : ℤ) (nodes : List Node) : Prop :=
  counted n size brank nodes = (ranksOn n size brank nodes).length ∧
    listed n size brank nodes = ranksOn n size brank nodes

theorem agreeFrom_before (hp : 0 < v.procs) (hle : brank + v.procs ≤ size) :
    AgreeFrom n size brank (v :: nodes) ↔ AgreeFrom n size (brank + v.procs) nodes := by
  have hmin : min v.procs (size - brank) = v.procs := min_eq_left (by omega)
  simp only [AgreeFrom, counted, listed, ranksOn, lsizeOf_le hle, hmin, append_cancel_left_eq]
  by_cases hv : v.nodeid = n
  · simp only [if_pos hv, length_append, length_span]
    constructor
    · rintro ⟨hcnt, hlist⟩
      exact ⟨by omega, hlist⟩
    · rintro ⟨hcnt, hlist⟩
      exact ⟨by omega, hlist⟩
  · simp [hv]

theorem agreeFrom_at_cut (hpos : ∀ w ∈ v :: nodes, 0 < w.procs) (hbrank : brank ≤ size)
    (hgt : size < brank + v.procs) :
    AgreeFrom n size brank (v :: nodes) ↔ v.nodeid ≠ n ∧ EvenFor n v.procs nodes := by
  obtain ⟨hp, hpos'⟩ := forall_mem_cons.mp hpos
  have hmin : min v.procs (size - brank) = size - brank := min_eq_right (by omega)
  have hnext : brank + (v.procs - (brank - size)) = size + v.procs := by ring
  simp only [AgreeFrom, counted, listed, ranksOn, lsizeOf_gt hgt, hmin, hnext,
    ranksOn_of_le hpos' hgt.le, append_nil]
  by_cases hv : v.nodeid = n
  · simp only [hv, if_true, ne_eq, not_true, false_and, iff_false, not_and]
    intro _ hlist
    have hmem : size ∈ span brank (size - brank) := by
      rw [← hlist, mem_append, mem_span]
      omega
    rw [mem_span] at hmem
    omega
  · simp only [hv, if_false, ne_eq, not_false_iff, true_and, zero_add, nil_append,
      length_nil, Nat.cast_zero]
    exact behind_cut hpos' v.procs hp

theorem agreeFrom_iff (hpos : ∀ v ∈ nodes, 0 < v.procs) :
    ∀ brank ≤ size, AgreeFrom n size brank nodes ↔ Spared n size brank nodes := by
  induction nodes with
  | nil => exact fun _ _ => ⟨fun _ => trivial, fun _ => ⟨rfl, rfl⟩⟩
  | cons v nodes ih =>
    intro brank hbrank
    obtain ⟨hp, hpos'⟩ := forall_mem_cons.mp hpos
    by_cases hle : brank + v.procs ≤ size
    · rw [agreeFrom_before hp hle, Spared, if_pos hle, ih hpos' _ hle]
    · rw [agreeFrom_at_cut hpos hbrank (not_le.mp hle), Spared, if_neg hle]

theorem agree_iff_agreeFrom (hpos : Positive blocks) (size n : ℤ) :
    Agree blocks size n ↔ AgreeFrom n size 0 (layout blocks) := by
  simp only [Agree, AgreeFrom, findNranks_eq, findRanks_eq, clique_eq_ranksOn hpos, settle,
    nil_append]
  constructor
  · rintro ⟨hcnt, hlist⟩
    split_ifs at hlist with hlen
    exact ⟨hcnt, Except.ok.inj hlist⟩
  · rintro ⟨hcnt, hlist⟩
    refine ⟨hcnt, ?_⟩
    rw [if_pos (by rw [hcnt, hlist]), hlist]

/-! ### No cut at all -/

/-- The number of processes on the nodes of a layout. -/
def procsOf (nodes : List Node) : ℤ :=
  (nodes.map Node.procs).sum

theorem procsOf_layout (hpos : Positive blocks) : procsOf (layout blocks) = total blocks := by
  induction blocks with
  | nil => rfl
  | cons b blocks ih =>
    obtain ⟨hn, -⟩ := hpos b (mem_cons_self ..)
    have hcast : (b.nodes.toNat : ℤ) = b.nodes := Int.toNat_of_nonneg hn.le
    have hrest := ih fun c hc => hpos c (mem_cons_of_mem _ hc)
    simp only [procsOf, total, layout_cons, map_append, sum_append, map_cons, sum_cons] at hrest ⊢
    rw [hrest, List.map_map]
    simp [Function.comp_def, hcast]

theorem forall_spared_iff (hpos : ∀ v ∈ nodes, 0 < v.procs) :
    ∀ brank ≤ size, (∀ n, Spared n size brank nodes) ↔ brank + procsOf nodes ≤ size := by
  induction nodes with
  | nil => exact fun brank hle => by simpa [Spared, procsOf] using hle
  | cons v nodes ih =>
    intro brank hbrank
    obtain ⟨hp, hpos'⟩ := forall_mem_cons.mp hpos
    have hsum : procsOf (v :: nodes) = v.procs + procsOf nodes := by
      simp [procsOf]
    have hrest : 0 ≤ procsOf nodes :=
      List.sum_nonneg fun p hmem => by
        obtain ⟨w, hw, rfl⟩ := List.mem_map.mp hmem
        exact (hpos' w hw).le
    by_cases hle : brank + v.procs ≤ size
    · simp only [Spared, if_pos hle]
      rw [ih hpos' _ hle, hsum]
      constructor <;> intro h <;> omega
    simp only [Spared, if_neg hle]
    constructor
    · exact fun h => absurd rfl (h v.nodeid).1
    · intro h
      omega

/-- **Where the cliques are consistent.** For a size within the mapping, `find_nodeid`,
`find_nranks` and `find_ranks` agree on exactly the nodes that the cut at `size` spares, and they
agree on all nodes exactly if the size is the number of processes described. -/
theorem cliques_agree_iff {blocks : List MapBlock} (hpos : Positive blocks) {size : ℤ}
    (hone : 1 ≤ size) (htotal : size ≤ total blocks) :
    (∀ n, Agree blocks size n ↔ Spared n size 0 (layout blocks)) ∧
      ((∀ n, Agree blocks size n) ↔ size = total blocks) := by
  have hlay : ∀ v ∈ layout blocks, 0 < v.procs := fun v => procs_pos_of_mem_layout hpos
  have hiff : ∀ n, Agree blocks size n ↔ Spared n size 0 (layout blocks) := fun n =>
    (agree_iff_agreeFrom hpos size n).trans (agreeFrom_iff hlay 0 (by omega))
  refine ⟨hiff, (forall_congr' hiff).trans ?_⟩
  rw [forall_spared_iff hlay 0 (by omega), procsOf_layout hpos]
  omega

/-- One node of four processes, of which two are used: the node is said to run six. -/
theorem nranks_of_half_used_node :
    findNranks [⟨0, 1, 4⟩] 0 2 = 6 ∧ clique [⟨0, 1, 4⟩] 0 2 = [0, 1] ∧
      ¬ Agree [⟨0, 1, 4⟩] 2 0 := by
  decide

/-- Two blocks that share a node, used to the last process. -/
theorem cliques_agree_overlapping : let blocks : List MapBlock := [⟨0, 2, 2⟩, ⟨1, 1, 1⟩]
    (Positive blocks ∧ 5 = total blocks) ∧ ∀ n, Agree blocks 5 n := by
  intro blocks
  have hpos : Positive blocks := by decide
  exact ⟨⟨hpos, by decide⟩, (cliques_agree_iff hpos (by decide) (by decide)).2.mpr (by decide)⟩

/-- **The clique of a rank**, where all processes of the mapping are used: the size and the ranks
that are reported for it agree, and the ranks are ranks of its node, with itself among them. -/
theorem rank_mem_getCliqueRanks (hpos : Positive blocks) (hrank : 0 ≤ rank)
    (hlt : rank < total blocks) :
    ∃ ranks, getCliqueRanks blocks rank (total blocks)
        (getCliqueSize blocks rank (total blocks)) = .ok ranks ∧ rank ∈ ranks ∧
      ∀ r ∈ ranks, findNodeid blocks r = findNodeid blocks rank := by
  have hlay : ∀ v ∈ layout blocks, 0 < v.procs := fun v => procs_pos_of_mem_layout hpos
  rw [getCliqueRanks, getCliqueSize]
  by_cases hnone : contextNodeid blocks rank = -1
  · rw [if_pos hnone, if_pos hnone]
    exact ⟨[rank], rfl, mem_singleton_self rank, fun r hr => by rw [mem_singleton.1 hr]⟩
  rw [if_neg hnone, if_neg hnone]
  have hspared : ∀ n, Spared n (total blocks) 0 (layout blocks) := by
    rw [forall_spared_iff hlay 0 (by omega), procsOf_layout hpos, zero_add]
  obtain ⟨-, hlist⟩ := (agree_iff_agreeFrom hpos _ _).mpr
    ((agreeFrom_iff hlay 0 (by omega)).mpr (hspared (contextNodeid blocks rank)))
  have hnode : findNodeid blocks rank = .ok (contextNodeid blocks rank) := by
    rw [contextNodeid] at hnone ⊢
    split at hnone
    · assumption
    · exact absurd rfl hnone
  rw [clique] at hlist
  refine ⟨_, hlist, ?_, fun r hr => ?_⟩
  · rw [mem_filter, mem_span, decide_eq_true_eq]
    exact ⟨⟨hrank, by omega⟩, hnode⟩
  · rw [mem_filter, decide_eq_true_eq] at hr
    exact hr.2.trans hnode.symm

/-- The last process of the blocks that share a node. -/
theorem rank_mem_getCliqueRanks_overlapping : ∃ ranks,
    getCliqueRanks [⟨0, 2, 2⟩, ⟨1, 1, 1⟩] 4 5 3 = .ok ranks ∧ 4 ∈ ranks ∧
      ∀ r ∈ ranks, findNodeid [⟨0, 2, 2⟩, ⟨1, 1, 1⟩] r = .ok 1 :=
  rank_mem_getCliqueRanks (by decide) (by decide) (by decide)

end FluxCore.Libpmi.Clique
