import MonetInR.Gdk.Join.LeftJoin

/-!
# The hash join

For every left row the hash join looks up the right positions with the same value and keeps
those that are candidates.  It counts the oids of a left column without candidate array from
`BUNfirst`, and it compares right oids with the right positions that `CANDINIT` found; both are
only right for some columns.

`BATsubleftjoin` takes the merge join if the right column is flagged as sorted or reverse sorted,
and this one otherwise.

## Main results

* `binsearchcand_iff`: the search in a candidate array
* `mem_hashProbe`: the right oids found for a value
* `isLeftJoin_hashjoin_iff`: the hash join is right exactly under `HashExact`
-/

namespace MonetInR.Gdk

open IntervalSearch RowBlocks List

/-! ## Searching a candidate array

`binsearchcand` tests one more entry after its loop has ended, which is why the loop must keep more
than the usual invariant. -/

section Binsearchcand

variable {cand : ℕ → ℕ} {v : ℕ}

/-- The loop keeps `v` in `[lo, hi]` if it is there; when the interval is empty, the last test
is made at an entry known to differ. -/
theorem binsearchcand_loop_iff (n : ℕ) {lo hi : ℕ} (hn : hi + 1 - lo ≤ n)
    (hmono : ∀ i j, lo ≤ i → i < j → j ≤ hi → cand i < cand j) (hend : hi < lo → cand lo ≠ v) :
    binsearchcand.loop cand v n lo hi = true ↔ ∃ i, lo ≤ i ∧ i ≤ hi ∧ cand i = v := by
  induction n generalizing lo hi with
  | zero =>
    have hlt : hi < lo := by omega
    rw [binsearchcand.loop, beq_iff_eq]
    exact iff_of_false (hend hlt) (by omega)
  | succ n ih =>
    rw [binsearchcand.loop]
    dsimp only
    split_ifs with hlt heq hless
    · exact iff_of_true rfl ⟨(lo + hi) / 2, by omega, by omega, heq⟩
    · rw [ih (by omega) (fun i j h1 h2 h3 => hmono i j (by omega) h2 h3) (by omega)]
      constructor
      · rintro ⟨i, h1, h2, rfl⟩
        exact ⟨i, by omega, h2, rfl⟩
      rintro ⟨i, h1, h2, rfl⟩
      refine ⟨i, ?_, h2, rfl⟩
      by_contra hle
      rcases Nat.lt_or_ge i ((lo + hi) / 2) with h | h
      · have := hmono i _ h1 h (by omega)
        omega
      · obtain rfl : i = (lo + hi) / 2 := by omega
        exact heq rfl
    · have hgt : v < cand ((lo + hi) / 2) := by omega
      have hlo : (lo + hi) / 2 - 1 < lo → cand lo ≠ v := by
        rcases Nat.eq_or_lt_of_le (show lo ≤ (lo + hi) / 2 by omega) with h' | h'
        · rw [← h'] at hgt
          omega
        · omega
      -- `mid - 1` does not wrap: an entry above `v` at position 0 was ruled out before
      rw [ih (by omega) (fun i j h1 h2 h3 => hmono i j h1 h2 (by omega)) hlo]
      constructor
      · rintro ⟨i, h1, h2, rfl⟩
        exact ⟨i, h1, by omega, rfl⟩
      rintro ⟨i, h1, h2, rfl⟩
      refine ⟨i, h1, ?_, rfl⟩
      by_contra hle
      rcases Nat.eq_or_lt_of_le (show (lo + hi) / 2 ≤ i by omega) with h | h
      · rw [← h] at hgt
        omega
      · have := hmono _ i (by omega) h h2
        omega
    · rcases Nat.eq_or_lt_of_le (not_lt.mp hlt) with rfl | hgt
      · rw [beq_iff_eq]
        constructor
        · exact fun h => ⟨_, le_rfl, le_rfl, h⟩
        · rintro ⟨i, h1, h2, rfl⟩
          rw [le_antisymm h1 h2]
      · rw [beq_iff_eq]
        exact iff_of_false (hend hgt) (by omega)

theorem binsearchcand_iff {n : ℕ} (hn : 0 < n) (hn' : n < 2 ^ 64)
    (hmono : ∀ i j, i < j → j < n → cand i < cand j) :
    binsearchcand cand 0 n v = true ↔ ∃ i < n, cand i = v := by
  have hsub : sub64 n 1 = n - 1 := sub64_of_le (by omega) hn'
  rw [binsearchcand, hsub]
  split_ifs with hout
  · refine iff_of_false (by simp) ?_
    rintro ⟨i, hi, rfl⟩
    rcases hout with h | h
    · rcases Nat.eq_zero_or_pos i with rfl | hpos
      · omega
      · have := hmono 0 i hpos hi
        omega
    · rcases Nat.eq_or_lt_of_le (show i ≤ n - 1 by omega) with rfl | hlt
      · omega
      · have := hmono i (n - 1) hlt (by omega)
        omega
  · rw [binsearchcand_loop_iff _ (by omega) (fun i j _ h2 h3 => hmono i j h2 (by omega)) (by omega)]
    constructor
    · rintro ⟨i, -, h2, h3⟩
      exact ⟨i, by omega, h3⟩
    · rintro ⟨i, h2, h3⟩
      exact ⟨i, Nat.zero_le i, by omega, h3⟩

end Binsearchcand

variable {α : Type*} [Atom α] {l r : Column α} {sl sr : Option Candidates} (J : HashJoin α)
  (res : JoinResult)

/-! ## The right oids of a value -/

theorem mem_hashProbe (r : Column α) (c : CandRange) (mem : ℕ → ℕ) (v : α × ℕ) (ro : ℕ) :
    ro ∈ hashProbe r c mem v ↔
      (r.Contains ro ∧ r.atOid ro = v.1 ∧ r.InBucket mem ro v.2) ∧ hashAccepts c ro = true := by
  rw [hashProbe, mem_filter, mem_hashOids]

/-- With a candidate array, the right oids accepted are the candidates. -/
theorem hashAccepts_iff_of_cand (hr : r.Takes sr) {cand : ℕ → ℕ}
    (hc : (CANDINIT r sr).cand = some cand) (ro : ℕ) :
    hashAccepts (CANDINIT r sr) ro = true ↔ IsCandidate r sr ro := by
  cases sr with
  | none => simp [CANDINIT] at hc
  | some s =>
    have hu := hr s rfl
    simp only [CANDINIT] at hc ⊢
    split_ifs at hc ⊢ with h0
    cases hseq : s.tseq with
    | some seq => simp [hseq] at hc
    | none =>
      have hs : s.count < 2 ^ 64 := (enumerates_array hu hseq 0 0).small
      have hiff := binsearchcand_iff (v := ro) (show 0 < s.count by omega) hs
        fun i j hij hj => hu.strictMono hij hj
      change binsearchcand s.tail 0 s.count ro = true ↔ _
      rw [hiff]
      constructor
      · rintro ⟨i, hi, rfl⟩
        refine ⟨hu.within hseq i hi, fun s' hs' => ?_⟩
        obtain rfl := Option.some.inj hs'
        exact ⟨i, hi, rfl⟩
      · rintro ⟨-, hmem⟩
        exact hmem s rfl

/-- Without candidate array, the candidates are the oids of the positions found by `CANDINIT`,
while the code compares oids with those positions. -/
theorem isCandidate_iff_of_none (hr : r.Takes sr) (hc : (CANDINIT r sr).cand = none) (i : ℕ) :
    IsCandidate r sr (i + r.hseqbase) ↔ (CANDINIT r sr).start ≤ i ∧ i < (CANDINIT r sr).stop := by
  have he := candinit_enumerates hr
  have hside : r.among sr = r.side ⟨(CANDINIT r sr).start, (CANDINIT r sr).stop,
      none, (CANDINIT r sr).ncand⟩ := by rw [← hc]
  rw [hside] at he
  constructor
  · intro h
    obtain ⟨c, h1, h2, hoid⟩ := he.surj _ h
    have hci : c + r.hseqbase = i + r.hseqbase := hoid
    obtain rfl : c = i := by omega
    exact ⟨h1, h2⟩
  · rintro ⟨h1, h2⟩
    exact (he.mem i h1 h2).1

/-! ## The left rows

The join runs over the left rows with the hashes of their values.  Their oids may be wrong; the
values and the order are not. -/

/-- The oid that the hash join gives to the left row with oid `o`. -/
def hashOid (l : Column α) (c : CandRange) (o : ℕ) : ℕ :=
  match c.cand with
  | some _ => o
  | none => sub64 o l.first

/-- The value of a left row with its hash. -/
def hashKey (l : Column α) (x : ℕ × α) : α × ℕ := (x.2, l.hashAtOid x.1)

/-- The left rows of the hash join are the candidate rows with the hashes of their values, up to
their oids. -/
theorem hashRows_eq (hl : l.Takes sl) : hashRows l (CANDINIT l sl) =
      (candRows l sl).map fun x => (hashOid l (CANDINIT l sl) x.1, hashKey l x) := by
  have hcap := l.small
  have hfit := l.fits
  have hoids := l.oids_small
  have he := candinit_enumerates hl
  unfold candRows Side.rows slice hashRows hashOid
  unfold Column.among Column.side at he
  unfold Column.side
  cases hc : (CANDINIT l sl).cand with
  | some cand =>
    rw [hc] at he
    simp only [map_map, range_eq_range']
    refine map_congr_left fun i hi => ?_
    -- the position of a candidate does not wrap
    obtain ⟨h1, h2⟩ := (he.mem i (Nat.zero_le i) (by simpa using (mem_range'_1.mp hi).2)).1.1
    have hpos : sub64 (cand i) l.hseqbase = cand i - l.hseqbase := by
      exact sub64_of_le h1 (lt_of_lt_of_le h2 (by omega))
    refine Prod.ext rfl (Prod.ext rfl ?_)
    change l.hashAt (l.first + sub64 (cand i) l.hseqbase) = _
    rw [hpos]
    rfl
  | none =>
    simp only [map_map, range'_eq_map_range]
    refine map_congr_left fun i hi => ?_
    refine Prod.ext ?_ (Prod.ext rfl ?_)
    · change (sub64 (CANDINIT l sl).start l.first + l.hseqbase + i) % 2 ^ 64 =
        sub64 ((CANDINIT l sl).start + i + l.hseqbase) l.first
      unfold sub64
      omega
    · change _ = l.hashAt (l.first + ((CANDINIT l sl).start + i + l.hseqbase - l.hseqbase))
      rw [Nat.add_sub_cancel]
      rfl

/-- The right oids that a hash join pairs a left value with. -/
def HashJoin.partners (J : HashJoin α) (v : α × ℕ) : List ℕ :=
  if J.semi then (J.probe v).take 1 else J.probe v

/-- The pairs of one left row. -/
def HashJoin.rowPairs (J : HashJoin α) (x : ℕ × α × ℕ) : List (ℕ × ℕ) :=
  if J.nilMatches = false ∧ x.2.1 = ⊥ then []
  else if J.partners x.2 = [] ∧ J.nilOnMiss = true then [(x.1, oidNil)]
  else (J.partners x.2).map fun o => (x.1, o)

theorem HashJoin.pairs_iter (x : ℕ × α × ℕ) : (J.iter res x).pairs = res.pairs ++ J.rowPairs x := by
  simp only [iter, rowPairs, partners, Bool.and_eq_true, Bool.not_eq_true', beq_iff_eq,
    atomCmp_eq_zero, length_eq_zero_iff]
  split_ifs <;> simp

theorem HashJoin.pairs_loop : (J.loop res).pairs = res.pairs ++ J.rows.flatMap J.rowPairs := by
  unfold loop
  induction J.rows generalizing res with
  | nil => simp
  | cons x rows ih =>
    rw [foldl_cons, ih, J.pairs_iter, flatMap_cons, append_assoc]

/-- The hash join that two columns are joined with. -/
def hashOf (l r : Column α) (sl sr : Option Candidates) (mem : ℕ → ℕ)
    (nilMatches nilOnMiss semi : Bool) : HashJoin α :=
  { rows := hashRows l (CANDINIT l sl)
    probe := hashProbe r (CANDINIT r sr) mem
    nilMatches := nilMatches
    nilOnMiss := nilOnMiss
    semi := semi
    missKey := (CANDINIT l sl).cand.isSome }

theorem pairs_hashjoin (hl : l.Takes sl) (hr : r.Takes sr)
    (mem : ℕ → ℕ) (nilMatches nilOnMiss semi : Bool) :
    (hashjoin l r sl sr mem nilMatches nilOnMiss semi joininitresults).pairs =
      if candRows l sl = [] ∨ nilOnMiss = false ∧ candRows r sr = [] then []
      else (candRows l sl).flatMap fun x =>
        (hashOf l r sl sr mem nilMatches nilOnMiss semi).rowPairs
          (hashOid l (CANDINIT l sl) x.1, hashKey l x) := by
  have hiff : ((CANDINIT l sl).start = (CANDINIT l sl).stop ∨
      (!nilOnMiss) = true ∧ (CANDINIT r sr).start = (CANDINIT r sr).stop) ↔
      candRows l sl = [] ∨ nilOnMiss = false ∧ candRows r sr = [] := by
    rw [candRows_eq_nil hl, candRows_eq_nil hr, Bool.not_eq_true']
  rw [hashjoin]
  by_cases hnil : candRows l sl = [] ∨ nilOnMiss = false ∧ candRows r sr = []
  · rw [if_pos (hiff.mpr hnil), if_pos hnil]
    rfl
  · rw [if_neg (mt hiff.mp hnil)]
    dsimp only
    split_ifs
    all_goals
      rw [HashJoin.pairs_loop]
      simp only [hashRows_eq hl, flatMap_map]
      rfl

/-! ## When the hash join is right

The condition is necessary as well: shifted oids could only be right if the set of left oids in the
result were mapped to itself, and a finite set is not, unless it is empty. -/

/-- Right candidates are in the bucket that the left rows with an equal value select.  They are if
equal values have equal bits. -/
def BucketsMatch (l r : Column α) (sl sr : Option Candidates) (mem : ℕ → ℕ) : Prop :=
  ∀ x ∈ candRows l sl, x.2 ≠ ⊥ → ∀ y ∈ candRows r sr, y.2 = x.2 →
    r.InBucket mem y.1 (l.hashAtOid x.1)

theorem bucketsMatch_of_hashAtOid {mem : ℕ → ℕ} (h : ∀ x ∈ candRows l sl, ∀ y ∈ candRows r sr,
    y.2 = x.2 → r.hashAtOid y.1 = l.hashAtOid x.1) : BucketsMatch l r sl sr mem := by
  intro x hx _ y hy hyx
  rw [Column.InBucket, h x hx y hy hyx]

/-- Without right candidate array, the right rows that a left row matches lie in the range of
candidate positions exactly if their oids, taken as positions, do. -/
def PositionsMatch (l r : Column α) (sl sr : Option Candidates) (mem : ℕ → ℕ) : Prop :=
  ∀ x ∈ candRows l sl, x.2 ≠ ⊥ → (CANDINIT r sr).cand = none → ∀ i < r.count, r.value i = x.2 →
    r.InBucket mem (i + r.hseqbase) (l.hashAtOid x.1) →
    ((CANDINIT r sr).start ≤ i + r.hseqbase ∧ i + r.hseqbase < (CANDINIT r sr).stop ↔
      (CANDINIT r sr).start ≤ i ∧ i < (CANDINIT r sr).stop)

/-- When the hash join is right: equal values are in the same bucket, the right oids are compared
with the right positions, and a left column without candidate array starts at position 0 unless
nothing matches. -/
def HashExact (l r : Column α) (sl sr : Option Candidates) (mem : ℕ → ℕ) : Prop :=
  (BucketsMatch l r sl sr mem ∧ PositionsMatch l r sl sr mem) ∧
  ((CANDINIT l sl).cand = none → l.first = 0 ∨ joinRows (candRows l sl) (candRows r sr) = [])

section Exact

variable (hl : l.Takes sl) (hr : r.Takes sr)
  (mem : ℕ → ℕ)

/-- The right oids found for a value. -/
def found (r : Column α) (sr : Option Candidates) (mem : ℕ → ℕ) (v : α × ℕ) : List ℕ :=
  hashProbe r (CANDINIT r sr) mem v

theorem nodup_found (v : α × ℕ) : (found r sr mem v).Nodup :=
  (nodup_hashOids r mem v.1 v.2).filter _

/-- The pairs of one left row. -/
def hashPairsOf (l r : Column α) (sl sr : Option Candidates) (mem : ℕ → ℕ) (x : ℕ × α) :
    List (ℕ × ℕ) :=
  if x.2 = ⊥ then []
  else (found r sr mem (hashKey l x)).map fun o => (hashOid l (CANDINIT l sl) x.1, o)

/-- The pairs of a hash join. -/
def hashPairs (l r : Column α) (sl sr : Option Candidates) (mem : ℕ → ℕ) : List (ℕ × ℕ) :=
  (candRows l sl).flatMap (hashPairsOf l r sl sr mem)

theorem mem_hashPairs {p : ℕ × ℕ} : p ∈ hashPairs l r sl sr mem ↔
    ∃ x ∈ candRows l sl, x.2 ≠ ⊥ ∧ p.1 = hashOid l (CANDINIT l sl) x.1 ∧
      p.2 ∈ found r sr mem (hashKey l x) :=
  mem_flatMap_ite

/-- The first half of `HashExact`: the right oids found are the matching candidates. -/
def FoundRight (l r : Column α) (sl sr : Option Candidates) (mem : ℕ → ℕ) : Prop :=
  ∀ x ∈ candRows l sl, x.2 ≠ ⊥ → ∀ ro,
    ro ∈ found r sr mem (hashKey l x) ↔ (ro, x.2) ∈ candRows r sr

include hr in
theorem foundRight_iff :
    FoundRight l r sl sr mem ↔ BucketsMatch l r sl sr mem ∧ PositionsMatch l r sl sr mem := by
  have hacc : (CANDINIT r sr).cand = none → ∀ ro, hashAccepts (CANDINIT r sr) ro = true ↔
      (CANDINIT r sr).start ≤ ro ∧ ro < (CANDINIT r sr).stop := by
    intro hc ro
    simp only [hashAccepts, hc]
    simp
  constructor
  · intro h
    refine ⟨fun x hx hv y hy hyx => ?_, fun x hx hv hc i hi hval hbucket => ?_⟩
    · have hro := (h x hx hv y.1).mpr (hyx ▸ hy)
      exact ((mem_hashProbe r _ mem _ y.1).mp hro).1.2.2
    · have hcont : r.Contains (i + r.hseqbase) := ⟨by omega, by omega⟩
      have hat : r.atOid (i + r.hseqbase) = x.2 := by rw [Column.atOid, Nat.add_sub_cancel, hval]
      rw [← hacc hc, ← isCandidate_iff_of_none hr hc]
      have hro := h x hx hv (i + r.hseqbase)
      rw [found, mem_hashProbe, and_iff_right ⟨hcont, hat, hbucket⟩, mem_candRows hr] at hro
      exact hro.trans (and_iff_left hat.symm)
  · rintro ⟨hbuckets, hpositions⟩ x hx hv ro
    rw [found, mem_hashProbe, mem_candRows hr]
    -- a row found is accepted exactly if it is a candidate
    have hiff : r.Contains ro → r.atOid ro = x.2 → r.InBucket mem ro (l.hashAtOid x.1) →
        (hashAccepts (CANDINIT r sr) ro = true ↔ IsCandidate r sr ro) := by
      intro hcont hat hbucket
      cases hc : (CANDINIT r sr).cand with
      | some cand => exact hashAccepts_iff_of_cand hr hc ro
      | none =>
        obtain ⟨h1, h2⟩ := hcont
        obtain ⟨i, rfl⟩ := Nat.exists_eq_add_of_le' h1
        rw [Column.atOid, Nat.add_sub_cancel] at hat
        rw [hacc hc, isCandidate_iff_of_none hr hc]
        exact hpositions x hx hv hc i (by omega) hat hbucket
    constructor
    · rintro ⟨⟨hcont, hat, hbucket⟩, haccept⟩
      exact ⟨(hiff hcont hat hbucket).mp haccept, hat.symm⟩
    · rintro ⟨hcand, hat⟩
      have hbucket := hbuckets x hx hv (ro, x.2) ((mem_candRows hr).mpr ⟨hcand, hat⟩) rfl
      exact ⟨⟨hcand.1, hat.symm, hbucket⟩, (hiff hcand.1 hat.symm hbucket).mpr hcand⟩

include hl in
theorem eq_of_fst_eq {x y : ℕ × α} (hx : x ∈ candRows l sl) (hy : y ∈ candRows l sl)
    (h : x.1 = y.1) : x = y := by
  refine Prod.ext h ?_
  rw [((mem_candRows hl).mp hx).2, ((mem_candRows hl).mp hy).2, h]

include hl in
/-- The left oids are those of the candidates if there is a candidate array, or if the column starts
at position 0. -/
theorem hashOid_eq_self (hshift : ¬ ((CANDINIT l sl).cand = none ∧ l.first ≠ 0)) {x : ℕ × α}
    (hx : x ∈ candRows l sl) : hashOid l (CANDINIT l sl) x.1 = x.1 := by
  have hxc := ((mem_candRows hl).mp hx).1.1.2
  have hoids := l.oids_small
  unfold hashOid
  cases hc : (CANDINIT l sl).cand with
  | some cand => rfl
  | none =>
    have hfirst : l.first = 0 := by
      by_contra h
      exact hshift ⟨hc, h⟩
    rw [hfirst]
    exact sub64_of_le (Nat.zero_le _) (by omega)

include hl hr in
/-- With right oids on the left, the hash join is right exactly if it finds the right rows. -/
theorem isLeftJoin_hashPairs_of_oid (hid : ∀ x ∈ candRows l sl,
    hashOid l (CANDINIT l sl) x.1 = x.1) :
    IsLeftJoin l r sl sr (hashPairs l r sl sr mem) ↔ FoundRight l r sl sr mem := by
  have hmem : ∀ p : ℕ × ℕ, p ∈ hashPairs l r sl sr mem ↔
      ∃ v, v ≠ ⊥ ∧ (p.1, v) ∈ candRows l sl ∧ p.2 ∈ found r sr mem (hashKey l (p.1, v)) := by
    intro p
    rw [mem_hashPairs]
    constructor
    · rintro ⟨x, hx, hv, hoid, hf⟩
      rw [hid x hx] at hoid
      rw [hoid]
      exact ⟨x.2, hv, hx, hf⟩
    · rintro ⟨v, hv, hx, hf⟩
      exact ⟨_, hx, hv, (hid _ hx).symm, hf⟩
  constructor
  · intro h x hx hv ro
    have hiff := h.mem_joinRows_iff hl hr (x.1, ro)
    rw [hmem, mem_joinRows] at hiff
    constructor
    · intro hf
      obtain ⟨v, -, hxv, hr'⟩ := hiff.mp ⟨x.2, hv, hx, hf⟩
      have hvx : v = x.2 := congrArg Prod.snd (eq_of_fst_eq hl hxv hx rfl)
      exact hvx ▸ hr'
    · intro hr'
      obtain ⟨v, -, hxv, hf⟩ := hiff.mpr ⟨x.2, hv, hx, hr'⟩
      rwa [eq_of_fst_eq hl hxv hx rfl] at hf
  · intro h
    -- the pairs of a left row come together, and its right oids differ
    have hlex : (hashPairs l r sl sr mem).Pairwise
        fun p q => p.1 < q.1 ∨ p.1 = q.1 ∧ p.2 ≠ q.2 := by
      refine pairwise_flatMap_ite ?_ fun x _ _ => nodup_found mem (hashKey l x)
      refine (ordered_candRows hl).imp_of_mem fun {x y} hx hy hxy => ?_
      rwa [hid x hx, hid y hy]
    refine ⟨fun lo ro => ?_, hlex.imp ?_, pairwise_map.mpr (hlex.imp ?_)⟩
    · rw [← (isLeftJoin_joinRows hl hr).mem, hmem, mem_joinRows]
      exact exists_congr fun v => and_congr_right fun hv =>
        and_congr_right fun hx => h _ hx hv ro
    · rintro p q h rfl
      simp at h
    · intro p q h
      omega

omit [Atom α] in
/-- A finite set of numbers that every member leaves upwards is empty. -/
theorem not_mem_of_ascending {P : ℕ → Prop} (bound : ℕ) (hb : ∀ o, P o → o < bound)
    (hup : ∀ o, P o → ∃ o', P o' ∧ o < o') (o : ℕ) : ¬ P o := by
  have hall : ∀ k o, bound - o ≤ k → ¬ P o := by
    intro k
    induction k with
    | zero =>
      intro o hk ho
      have := hb o ho
      omega
    | succ k ih =>
      intro o hk ho
      obtain ⟨o', ho', hlt⟩ := hup o ho
      exact ih o' (by omega) ho'
  exact hall _ o le_rfl

include hl hr in
/-- Left oids that are shifted are wrong as soon as there is a pair: the left oids of the result
would have to be the same set as the shifted ones. -/
theorem joinRows_eq_nil_of_shifted (hc : (CANDINIT l sl).cand = none) (hfirst : l.first ≠ 0)
    (h : IsLeftJoin l r sl sr (hashPairs l r sl sr mem)) :
    joinRows (candRows l sl) (candRows r sr) = [] := by
  have hcap := l.small
  have hfit := l.fits
  have hoids := l.oids_small
  have hshift : ∀ o, hashOid l (CANDINIT l sl) o = sub64 o l.first := by
    intro o
    simp only [hashOid, hc]
  refine eq_nil_iff_forall_not_mem.mpr fun p hp => ?_
  refine not_mem_of_ascending (P := fun o => ∃ ro, (o, ro) ∈ joinRows (candRows l sl)
    (candRows r sr)) (l.hseqbase + l.count) ?_ ?_ p.1 ⟨p.2, hp⟩
  · rintro o ⟨ro, ho⟩
    obtain ⟨v, -, hx, -⟩ := mem_joinRows.mp ho
    exact ((mem_candRows hl).mp hx).1.1.2
  rintro o ⟨ro, ho⟩
  -- the pair comes from a left row whose oid is larger by `BUNfirst(l)`
  obtain ⟨x, hx, hv, hoid, hf⟩ := (mem_hashPairs mem).mp ((h.mem_joinRows_iff hl hr _).mpr ho)
  rw [hshift] at hoid
  have hxc := ((mem_candRows hl).mp hx).1.1
  have hoc : l.Contains o := by
    obtain ⟨v, -, hxo, -⟩ := mem_joinRows.mp ho
    exact ((mem_candRows hl).mp hxo).1.1
  unfold Column.Contains at hxc hoc
  have hxo : o = x.1 - l.first ∧ l.first ≤ x.1 := by
    change o = sub64 x.1 l.first at hoid
    unfold sub64 at hoid
    omega
  refine ⟨x.1, ⟨ro, ?_⟩, by omega⟩
  -- the right row found is a candidate, so the larger oid has a partner as well
  have hcand := ((h.mem _ _).mp ((h.mem_joinRows_iff hl hr _).mpr ho)).2.1
  have hat := ((mem_hashProbe r _ mem _ ro).mp hf).1.2.1
  exact mem_joinRows.mpr ⟨x.2, hv, hx, (mem_candRows hr).mpr ⟨hcand, hat.symm⟩⟩

include hl hr in
theorem isLeftJoin_hashPairs_iff :
    IsLeftJoin l r sl sr (hashPairs l r sl sr mem) ↔ HashExact l r sl sr mem := by
  rw [HashExact, ← foundRight_iff hr mem]
  by_cases hid : ∀ x ∈ candRows l sl, hashOid l (CANDINIT l sl) x.1 = x.1
  · rw [isLeftJoin_hashPairs_of_oid hl hr mem hid]
    refine (and_iff_left_of_imp fun _ hc => ?_).symm
    rcases eq_or_ne (candRows l sl) [] with hnil | hne
    · rw [hnil]
      exact .inr rfl
    -- a row whose oid is not shifted
    obtain ⟨x, hx⟩ := exists_mem_of_ne_nil _ hne
    have hxc := ((mem_candRows hl).mp hx).1.1
    have heq := hid x hx
    have hoids := l.oids_small
    have hfit := l.fits
    have hcap := l.small
    simp only [hashOid, hc, sub64] at heq
    unfold Column.Contains at hxc
    exact .inl (by omega)
  · obtain ⟨hc, hfirst⟩ : (CANDINIT l sl).cand = none ∧ l.first ≠ 0 := by
      by_contra hshift
      exact hid fun x hx => hashOid_eq_self hl hshift hx
    constructor
    · intro h
      have hnil := joinRows_eq_nil_of_shifted hl hr mem hc hfirst h
      refine ⟨fun x hx hv ro => ?_, fun _ => .inr hnil⟩
      have hnone : ∀ p, p ∉ hashPairs l r sl sr mem := by
        intro p hp
        rw [h.mem_joinRows_iff hl hr, hnil] at hp
        exact not_mem_nil hp
      refine iff_of_false (fun hf => hnone (_, ro) ((mem_hashPairs mem).mpr
        ⟨x, hx, hv, rfl, hf⟩)) fun hro => ?_
      exact joinRows_eq_nil.mp hnil x hx ⟨hv, _, hro, rfl⟩
    · rintro ⟨hfound, hor⟩
      have hnil := (hor hc).resolve_left hfirst
      have hempty : hashPairs l r sl sr mem = [] := by
        refine eq_nil_iff_forall_not_mem.mpr fun p hp => ?_
        obtain ⟨x, hx, hv, -, hf⟩ := (mem_hashPairs mem).mp hp
        exact joinRows_eq_nil.mp hnil x hx ⟨hv, _, (hfound x hx hv _).mp hf, rfl⟩
      rw [hempty, ← hnil]
      exact isLeftJoin_joinRows hl hr

include hl hr in
/-- **The hash join is right exactly under `HashExact`.** -/
theorem isLeftJoin_hashjoin_iff :
    IsLeftJoin l r sl sr (hashjoin l r sl sr mem false false false joininitresults).pairs ↔
      HashExact l r sl sr mem := by
  rw [pairs_hashjoin hl hr]
  by_cases hnil : candRows l sl = [] ∨ candRows r sr = []
  · -- nothing to join
    have hempty : joinRows (candRows l sl) (candRows r sr) = [] := by
      rcases hnil with h | h <;> simp [h]
    rw [if_pos (by simpa using hnil), ← hempty]
    refine iff_of_true (isLeftJoin_joinRows hl hr)
      ⟨⟨fun x hx _ y hy _ => ?_, fun x hx _ _ i _ _ _ => ?_⟩, fun _ => .inr hempty⟩
    · rcases hnil with h | h
      · exact absurd (h ▸ hx) not_mem_nil
      · exact absurd (h ▸ hy) not_mem_nil
    · rcases hnil with h | h
      · exact absurd (h ▸ hx) not_mem_nil
      · rw [candRows_eq_nil hr] at h
        omega
  · rw [if_neg (by simpa using hnil), ← isLeftJoin_hashPairs_iff hl hr mem]
    refine iff_of_eq (congrArg (IsLeftJoin l r sl sr) (flatMap_congr fun x _ => ?_))
    unfold HashJoin.rowPairs hashPairsOf
    simp only [hashOf, HashJoin.partners, found, Bool.false_eq_true, and_false, true_and, if_false]
    rfl

end Exact

/-! ## The operator -/

/-- When the left join is right: `MergeExact` or `HashExact`, according to the flags of the right
column. -/
def LeftJoinExact (l r : Column α) (sl sr : Option Candidates) (mem : ℕ → ℕ) : Prop :=
  if r.tsorted || r.trevsorted then MergeExact l r sl sr else HashExact l r sl sr mem

/-- Arguments that pass the checks have sorted candidate lists without duplicates. -/
theorem usable_of_joinparamcheck {func : String} (h : joinparamcheck l r sl sr func = .ok ())
    (hl : ∀ c, sl = some c → c.Within l) (hr : ∀ c, sr = some c → c.Within r) :
    (l.Takes sl) ∧ (r.Takes sr) := by
  unfold joinparamcheck at h
  split_ifs at h with _ _ _ _ _ hsorted hkey
  simp only [Bool.not_eq_true, Bool.or_eq_false_iff] at hsorted hkey
  constructor
  · rintro c rfl
    exact ⟨by simpa using hsorted.1, by simpa using hkey.1, hl c rfl⟩
  · rintro c rfl
    exact ⟨by simpa using hsorted.2, by simpa using hkey.2, hr c rfl⟩

/-- **The left join returns exactly the pairs of candidates with equal values other than nil,
once each and in the order of the left oids, if and only if `LeftJoinExact` holds.** -/
theorem isLeftJoin_BATsubleftjoin_iff (hok : joinparamcheck l r sl sr "BATsubleftjoin" = .ok ())
    (hl : ∀ c, sl = some c → c.Within l) (hr : ∀ c, sr = some c → c.Within r) (mem : ℕ → ℕ) :
    (∃ res, BATsubleftjoin l r sl sr mem = .ok res ∧ IsLeftJoin l r sl sr res.pairs) ↔
      LeftJoinExact l r sl sr mem := by
  obtain ⟨hul, hur⟩ := usable_of_joinparamcheck hok hl hr
  rw [LeftJoinExact, BATsubleftjoin, hok]
  split_ifs with hsorted
  · rw [← isLeftJoin_mergejoin_iff hul hur hsorted]
    simp [pure, Except.pure, bind, Except.bind]
  · rw [← isLeftJoin_hashjoin_iff hul hur mem]
    simp [pure, Except.pure, bind, Except.bind]

/-! ## A failing input -/

/-- The values 5 and 3, flagged as reverse sorted. -/
def fiveThree : Column (IntVal .bte) :=
  bteColumn [⟨5, bte_five⟩, ⟨3, bte_three⟩] false true (by decide) (by decide) (by decide)

/-- The value 3, flagged as sorted both ways. -/
def justThree : Column (IntVal .bte) :=
  bteColumn [⟨3, bte_three⟩] true true (by decide) (by decide) (by decide)

/-- The right column is flagged as sorted, so it is scanned upwards while the left one runs
downwards.  The value 5 passes the 3 on the right, and the loop ends before it comes to the 3 on
the left. -/
theorem BATsubleftjoin_loses_pair :
    ¬ ∃ res, BATsubleftjoin fiveThree justThree none none (fun _ => 0) = .ok res ∧
      IsLeftJoin fiveThree justThree none none res.pairs := by
  rintro ⟨res, hres, hjoin⟩
  have hpairs : (BATsubleftjoin fiveThree justThree none none fun _ => 0).map JoinResult.pairs =
      .ok [] := by decide
  rw [hres] at hpairs
  have hnil : res.pairs = [] := by simpa [Except.map] using hpairs
  have hmem := (hjoin.mem 1 0).mpr
    ⟨⟨by decide, by simp⟩, ⟨by decide, by simp⟩, by decide, by decide⟩
  rw [hnil] at hmem
  exact not_mem_nil hmem

/-- The values 3, nil, 5 and 3, without a flag. -/
def threeNilFive : Column (IntVal .bte) :=
  bteColumn [⟨3, bte_three⟩, ⊥, ⟨5, bte_five⟩, ⟨3, bte_three⟩] false false nofun nofun (by decide)

/-- All values of these columns have the bits that go with them. -/
theorem bucketsMatch_threeNilFive {l : Column (IntVal .bte)} (mem : ℕ → ℕ)
    (hash : ∀ p, l.hashAt p = Atom.atomHash (l.val p)) :
    BucketsMatch l threeNilFive none none mem := by
  refine bucketsMatch_of_hashAtOid fun x hx y hy hyx => ?_
  have hnone : ∀ b : Column (IntVal .bte), b.Takes none := fun b => by simp [Column.Takes]
  rw [((mem_candRows (hnone _)).mp hx).2, ((mem_candRows (hnone _)).mp hy).2] at hyx
  exact (congrArg Atom.atomHash hyx).trans (hash _).symm

/-- The hash join of 5 and 3 with 3, nil, 5 and 3 returns the three pairs of equal values. -/
theorem BATsubleftjoin_threeNilFive :
    ∃ res, BATsubleftjoin fiveThree threeNilFive none none (fun _ => 0) = .ok res ∧
      IsLeftJoin fiveThree threeNilFive none none res.pairs := by
  refine (isLeftJoin_BATsubleftjoin_iff (by decide) (by simp) (by simp) _).mpr ?_
  refine ⟨⟨bucketsMatch_threeNilFive _ fun _ => rfl, fun x _ _ _ i _ _ _ => Iff.rfl⟩, ?_⟩
  exact fun _ => .inl rfl

end MonetInR.Gdk
