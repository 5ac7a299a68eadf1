import Mathlib.Algebra.BigOperators.Ring.Nat

/-!
# The dependency graph of a dataflow block

`DFLOWinitBlk` records for each instruction of a block which ones are to be woken up when it is
done: those that use its results, and for each variable that it uses the one at which the life of
the variable ends.  The first edge of an instruction has a place of its own in the arrays `nodes`
and `edges`, each further one takes the next place behind.  `runMALdataflow` allots one place for
each argument of the block, but an argument can give rise to two edges.

## Main definitions

* `blockEdges`: the edges of a block, in the order in which they are recorded
* `DFLOWinitBlk`: the arrays, if all places that are written exist

## Main results

* `isSome_DFLOWinitBlk_iff`: when there are enough places
-/

namespace MonetInR.Mal.Dataflow

open List Function Option Finset

/-- An instruction with its variables, of which the first `retc` are its results. -/
structure Instr where
  retc : ℕ
  argv : List ℕ

/-- A block of `count` instructions behind the bracket at `startpc`. -/
structure Block where
  stmt : ℕ → Instr
  isVarConstant : ℕ → Bool
  /-- The instruction at which the life of a variable ends. -/
  endOfLife : ℕ → ℕ
  startpc : ℕ
  count : ℕ

namespace Block

variable (B : Block)

/-- The bracket is not part of the flow. -/
def start : ℕ := B.startpc + 1

def stoppc : ℕ := B.start + B.count

def DFLOWgraphSize : ℕ :=
  ((range' B.startpc (B.stoppc - B.startpc)).map fun pc => (B.stmt pc).argv.length).sum

/-- The places that `runMALdataflow` allots. -/
def size : ℕ := B.DFLOWgraphSize + (B.stoppc - B.startpc)

/-- The last instruction that has assigned to a variable when the `n`-th one is looked at. -/
def assign : ℕ → ℕ → ℕ
  | 0, _ => 0
  | n + 1, v =>
    let p := B.stmt (B.start + n)
    if v ∈ p.argv.take p.retc then B.start + n else assign n v

/-- The edges that an argument of the `n`-th instruction gives rise to. -/
def argEdges (n v : ℕ) : List (ℕ × ℕ) :=
  if B.isVarConstant v then []
  else
    let k := B.assign n v
    let l := B.endOfLife v
    (if k = 0 then [] else [(k - B.start, n)]) ++
      if l ≠ B.start + n ∧ l < B.stoppc ∧ B.start < l then [(n, l - B.start)] else []

/-- The edges of the block. -/
def blockEdges : List (ℕ × ℕ) := (List.range B.count).flatMap fun n =>
    let p := B.stmt (B.start + n)
    (p.argv.drop p.retc).flatMap (B.argEdges n)

end Block

/-- The arrays, with the next place that is free, and what each instruction waits for. -/
structure Graph where
  nodes : ℕ → ℕ
  edges : ℕ → ℤ
  etop : ℕ
  blocks : ℕ → ℕ

/-- `for (i = k; edges[i] > 0; i = edges[i])` -/
def lastEdge (edges : ℕ → ℤ) : ℕ → ℕ → ℕ
  | 0, i => i
  | f + 1, i => if 0 < edges i then lastEdge edges f (edges i).toNat else i

/-- Record the edge from `e.1` to `e.2`; `none` if the loop does not end or a place is written that
does not exist. -/
def addEdge (size : ℕ) (g : Graph) (e : ℕ × ℕ) : Option Graph :=
  let blocks := update g.blocks e.2 (g.blocks e.2 + 1)
  if g.nodes e.1 ≠ 0 then
    let i := lastEdge g.edges g.etop e.1
    if g.edges i ≤ 0 ∧ i < size ∧ g.etop < size then
      some ⟨update g.nodes g.etop e.2,
        update (update g.edges g.etop (-1)) i g.etop, g.etop + 1, blocks⟩
    else none
  else if e.1 < size then
    some ⟨update g.nodes e.1 e.2, update g.edges e.1 (-1), g.etop, blocks⟩
  else none

/-- Record the edges in cleared arrays with `size` places, of which the first `n` are taken. -/
def addEdges (size n : ℕ) (es : List (ℕ × ℕ)) : Option Graph :=
  es.foldlM (addEdge size) ⟨fun _ => 0, fun _ => 0, n, fun _ => 0⟩

/-- Record all edges of a block, in arrays with `size` places. -/
def DFLOWinitBlk (B : Block) (size : ℕ) : Option Graph := addEdges size B.count B.blockEdges

/-! ## The edges of a block -/

theorem Block.assign_cases (B : Block) (n v : ℕ) :
    B.assign n v = 0 ∨ B.start ≤ B.assign n v ∧ B.assign n v < B.start + n := by
  induction n with
  | zero => exact .inl rfl
  | succ n ih =>
    rw [assign]
    split_ifs
    · omega
    · omega

/-- The edges start at instructions of the block and do not lead to the first one. -/
theorem Block.of_mem_blockEdges {B : Block} {e : ℕ × ℕ} (h : e ∈ B.blockEdges) :
    e.1 < B.count ∧ e.2 ≠ 0 := by
  simp only [blockEdges, List.mem_flatMap, List.mem_range] at h
  obtain ⟨n, hn, v, -, he⟩ := h
  have hassign := B.assign_cases n v
  rw [argEdges] at he
  split at he
  · cases he
  rcases mem_append.mp he with he | he
  · split_ifs at he
    · cases he
    · obtain rfl := List.mem_singleton.mp he
      constructor
      · omega
      · omega
  · split_ifs at he with hl
    · obtain rfl := List.mem_singleton.mp he
      exact ⟨hn, (Nat.sub_pos_of_lt hl.2.2).ne'⟩
    · cases he

/-! ## The places that are taken -/

/-- The instructions that edges start at. -/
def sources (es : List (ℕ × ℕ)) : Finset ℕ := (es.map Prod.fst).toFinset

theorem sources_concat (es : List (ℕ × ℕ)) (e : ℕ × ℕ) :
    sources (es ++ [e]) = insert e.1 (sources es) := by
  simp [sources]

/-- The edges `es` have been recorded: all but the first one of each instruction have taken a place
of their own, and the links lead to places behind. -/
structure Stored (N : ℕ) (es : List (ℕ × ℕ)) (g : Graph) : Prop where
  etop : g.etop + (sources es).card = N + es.length
  node : ∀ k < N, g.nodes k ≠ 0 ↔ k ∈ sources es
  link : ∀ i, 0 < g.edges i → i < g.edges i ∧ g.edges i < g.etop

variable {N size : ℕ} {es : List (ℕ × ℕ)} {e : ℕ × ℕ} {g : Graph}

theorem Stored.le_etop (h : Stored N es g) : N ≤ g.etop := by
  have hcard : (sources es).card ≤ es.length := by
    simpa [sources] using toFinset_card_le (es.map Prod.fst)
  have := h.etop
  omega

/-- The loop comes to the end of the list. -/
theorem lastEdge_spec (h : Stored N es g) {f i : ℕ} (hi : i < g.etop) (hf : g.etop ≤ i + f) :
    g.edges (lastEdge g.edges f i) ≤ 0 ∧ lastEdge g.edges f i < g.etop := by
  induction f generalizing i with
  | zero => omega
  | succ f ih =>
    rw [lastEdge]
    split_ifs with hpos
    · have hlink := h.link i hpos
      exact ih (by omega) (by omega)
    · exact ⟨not_lt.mp hpos, hi⟩

/-- **One more edge** needs a place unless it is the first one of its instruction. -/
theorem Stored.isSome_addEdge_iff (h : Stored N es g) (hN : N ≤ size) (hk : e.1 < N) :
    (addEdge size g e).isSome ↔ (e.1 ∈ sources es → g.etop < size) := by
  have hnode := h.node e.1 hk
  unfold addEdge
  by_cases hmem : e.1 ∈ sources es
  · obtain ⟨hend, hlt⟩ := lastEdge_spec h (hk.trans_le h.le_etop) (Nat.le_add_left _ e.1)
    dsimp only
    rw [if_pos (hnode.mpr hmem)]
    split_ifs with hroom
    · exact iff_of_true rfl fun _ => hroom.2.2
    · exact iff_of_false Bool.false_ne_true fun h =>
        hroom ⟨hend, hlt.trans (h hmem), h hmem⟩
  · rw [if_neg (mt hnode.mp hmem), if_pos (hk.trans_le hN)]
    exact iff_of_true rfl fun h => absurd h hmem

/-- It is stored then. -/
theorem Stored.addEdge (h : Stored N es g) (hk : e.1 < N) (ht : e.2 ≠ 0) {g' : Graph}
    (hg : addEdge size g e = some g') : Stored N (es ++ [e]) g' := by
  have hnode := h.node e.1 hk
  have hN := h.le_etop
  have hetop := h.etop
  unfold Dataflow.addEdge at hg
  dsimp only at hg
  split_ifs at hg with hmem hroom hsize
  · obtain rfl := some.inj hg
    obtain ⟨-, hlt⟩ := lastEdge_spec h (hk.trans_le hN) (Nat.le_add_left _ e.1)
    have hsame : sources (es ++ [e]) = sources es := by
      rw [sources_concat, insert_eq_self.mpr (hnode.mp hmem)]
    refine ⟨?_, fun k hk' => ?_, fun j hj => ?_⟩
    · rw [hsame, length_append, length_singleton]
      dsimp only
      omega
    · dsimp only
      rw [update_of_ne (by omega), h.node k hk', hsame]
    · -- the last place of the list is linked to the new one
      simp only [update_apply] at hj ⊢
      split_ifs at hj ⊢ with h1 h2
      · omega
      · omega
      · have := h.link j hj
        omega
  · obtain rfl := some.inj hg
    refine ⟨?_, fun k hk' => ?_, fun j hj => ?_⟩
    · rw [sources_concat, card_insert_of_notMem (mt hnode.mpr hmem), length_append,
        length_singleton]
      dsimp only
      omega
    · rw [sources_concat, mem_insert, ← h.node k hk']
      by_cases hke : k = e.1
      · simp [hke, ht]
      · simp [hke]
    · simp only [update_apply] at hj ⊢
      split_ifs at hj ⊢
      · omega
      · exact h.link j hj

theorem addEdges_concat : addEdges size N (es ++ [e]) = (addEdges size N es).bind fun g =>
    addEdge size g e := by
  simp [addEdges]

/-- **All edges** are recorded if there are as many places as there are instructions and edges
beyond the first one of each instruction. -/
theorem isSome_addEdges_iff (hN : N ≤ size) (hes : ∀ e ∈ es, e.1 < N ∧ e.2 ≠ 0) :
    (∀ g, addEdges size N es = some g → Stored N es g) ∧
      ((addEdges size N es).isSome ↔ N + es.length ≤ size + (sources es).card) := by
  induction es using reverseRecOn with
  | nil =>
    refine ⟨?_, iff_of_true rfl hN⟩
    rintro g ⟨⟩
    exact ⟨rfl, fun k _ => by simp [sources], fun i hi => absurd hi (lt_irrefl 0)⟩
  | append_singleton es e ih =>
    obtain ⟨hstored, hiff⟩ := ih fun e he => hes e (mem_append_left _ he)
    obtain ⟨hk, ht⟩ := hes e (by simp)
    rw [addEdges_concat, sources_concat, length_append, length_singleton]
    cases hg : addEdges size N es with
    | none =>
      have hcard := card_insert_le e.1 (sources es)
      rw [hg] at hiff
      simp only [isSome_none, Bool.false_eq_true, false_iff, bind_none] at hiff ⊢
      exact ⟨by simp, by omega⟩
    | some g =>
      have hst := hstored g hg
      have hetop := hst.etop
      rw [hg] at hiff
      refine ⟨fun g' hg' => hst.addEdge hk ht hg', ?_⟩
      rw [bind_some, hst.isSome_addEdge_iff hN hk]
      by_cases hmem : e.1 ∈ sources es
      · rw [insert_eq_self.mpr hmem]
        simp only [hmem, true_implies]
        omega
      · rw [card_insert_of_notMem hmem]
        simp only [isSome_some, true_iff] at hiff
        simp only [hmem, false_implies, true_iff]
        omega

/-- **When the graph fits** into the arrays: there are at most as many edges as there are arguments,
bracket included, and instructions that edges start at, and one. -/
theorem isSome_DFLOWinitBlk_iff (B : Block) : (DFLOWinitBlk B B.size).isSome ↔
    B.blockEdges.length ≤ B.DFLOWgraphSize + (sources B.blockEdges).card + 1 := by
  have hsize : B.size = B.DFLOWgraphSize + B.count + 1 := by
    unfold Block.size Block.stoppc Block.start
    omega
  rw [DFLOWinitBlk, (isSome_addEdges_iff (by omega) fun _ => Block.of_mem_blockEdges).2]
  omega

/-- A variable that is assigned once and used eight times by the next instruction, before the one at
which its life ends. -/
def usedOften : Block where
  stmt := fun
    | 1 => ⟨1, [1]⟩
    | 2 => ⟨1, [2, 1, 1, 1, 1, 1, 1, 1, 1]⟩
    | 3 => ⟨1, [3, 1]⟩
    | _ => ⟨1, [0]⟩
  isVarConstant _ := false
  endOfLife v := if v = 1 then 3 else 0
  startpc := 0
  count := 3

/-- Its 17 edges, from two instructions, would need 18 places, and there are 17. -/
theorem DFLOWinitBlk_usedOften :
    usedOften.size = 17 ∧ DFLOWinitBlk usedOften usedOften.size = none := by
  decide +kernel

end MonetInR.Mal.Dataflow
