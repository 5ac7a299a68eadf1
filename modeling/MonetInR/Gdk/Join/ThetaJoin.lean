import MonetInR.Gdk.Join.HashPath

/-!
# The theta join

`thetajoin` is the join for other comparisons than equality: a nested loop over the candidates of
both columns.  It returns the pairs of candidates whose values compare as the operator says, in the
order of the two loops.  The operator comes as a string, and for `=` the code looks at the byte
behind the end of the string: unless that byte happens to be 0, the operator is not known.

## Main definitions

* `thetaOpcode`, `thetajoin`: the operator as a bit mask, and the nested loop
* `thetaPartners`: the right oids that a left row is paired with
* `CompareMode`: the comparisons, with their texts
* `IsThetaJoin`: the pairs that a theta join is to return

## Main results

* `pairs_thetaIter`: what one left row does
* `isThetaJoin_thetajoin_iff`: the pairs are right, if the operator is read
-/

namespace MonetInR.Gdk

open RowBlocks List Prod Nat

variable {α : Type*} [Atom α]

/-! ## The nested loop

Besides the pairs, the loop keeps track of the flags of the results; these do not influence the
pairs. -/

/-- `MASK_EQ` and its like: one bit for each outcome of a comparison. -/
def maskEq : ℕ := 1
def maskLt : ℕ := 2
def maskGt : ℕ := 4
def maskLe : ℕ := maskEq ||| maskLt
def maskGe : ℕ := maskEq ||| maskGt
def maskNe : ℕ := maskLt ||| maskGt

/-- Encode an operator as a bit mask; 0 if it is not known.  `op` is the memory from the operator
on: for the operator `=` the byte behind the terminator is read as well. -/
def thetaOpcode (op : ℕ → Char) : ℕ :=
  let ends := fun i => (op i).toNat = 0
  if op 0 = '=' ∧ ((op 1 = '=' ∧ ends 2) ∨ ends 2) then maskEq
  else if op 0 = '!' ∧ op 1 = '=' ∧ ends 2 then maskNe
  else if op 0 = '<' then
    if ends 1 then maskLt
    else if op 1 = '=' ∧ ends 2 then maskLe
    else if op 1 = '>' ∧ ends 2 then maskNe
    else 0
  else if op 0 = '>' then
    if ends 1 then maskGt
    else if op 1 = '=' ∧ ends 2 then maskGe
    else 0
  else 0

/-- The comparison of two values has an outcome that the operator asks for. -/
def thetaHolds (opcode : ℕ) (vl vr : α) : Bool :=
  let c := atomCmp vl vr
  (opcode &&& maskLt != 0 && decide (c < 0)) || (opcode &&& maskGt != 0 && decide (0 < c)) ||
    (opcode &&& maskEq != 0 && decide (c = 0))

/-- The state of the inner loop: the results, the last oid put into the second one, and how many
pairs the current left row has. -/
structure ThetaState where
  res : JoinResult
  lastr : ℕ
  nr : ℕ

/-- One right row of the inner loop, for the left row `row`. -/
def thetaInner (opcode : ℕ) (row : ℕ × α) (st : ThetaState) (right : ℕ × α) : ThetaState :=
  if atomCmp right.2 ⊥ = 0 then st
  else if !thetaHolds opcode row.2 right.2 then st
  else
    let res :=
      if st.nr = 0 ∧ 0 < st.res.pairs.length then
        let r1 := { st.res.r1 with trevsorted := false }
        let r2 :=
          if right.1 < st.lastr then { st.res.r2 with tsorted := false, tkey := false }
          else if st.lastr < right.1 then { st.res.r2 with trevsorted := false }
          else st.res.r2
        { st.res with r1 := r1, r2 := r2 }
      else st.res
    ⟨{ res with pairs := res.pairs ++ [(row.1, right.1)] }, right.1, st.nr + 1⟩

/-- One left row. -/
def thetaIter (opcode : ℕ) (R : List (ℕ × α)) (st : ThetaState) (row : ℕ × α) : ThetaState :=
  if atomCmp row.2 ⊥ = 0 then st
  else
    let st := R.foldl (thetaInner opcode row) { st with nr := 0 }
    if 1 < st.nr then
      { st with res := { st.res with
          r1 := { st.res.r1 with tkey := false }
          r2 := { st.res.r2 with trevsorted := false } } }
    else st

/-- Nested-loop join for a comparison. -/
def thetajoin (l r : Column α) (sl sr : Option Candidates) (op : ℕ → Char) (res : JoinResult) :
    Except String JoinResult :=
  let opcode := thetaOpcode op
  if opcode = 0 then .error "BATthetasubjoin: unknown operator.\n"
  else
    let res := { res with
      r1 := { res.r1 with tkey := true, tsorted := true, trevsorted := true }
      r2 := { res.r2 with tkey := true, tsorted := true, trevsorted := true } }
    .ok ((candRows l sl).foldl (thetaIter opcode (candRows r sr)) ⟨res, 0, 0⟩).res

/-! ## The partners of a left row -/

variable {opcode : ℕ} {R L : List (ℕ × α)} {x : ℕ × α}

/-- The right row is a partner of the left row. -/
def ThetaPartner (opcode : ℕ) (x y : ℕ × α) : Prop :=
  x.2 ≠ ⊥ ∧ y.2 ≠ ⊥ ∧ thetaHolds opcode x.2 y.2 = true
  deriving Decidable

/-- The oids of the partners of a left row. -/
def thetaPartners (opcode : ℕ) (R : List (ℕ × α)) (x : ℕ × α) : List ℕ :=
  (R.filter fun y => ThetaPartner opcode x y).map fst

theorem mem_thetaPartners {o : ℕ} :
    o ∈ thetaPartners opcode R x ↔ ∃ y ∈ R, ThetaPartner opcode x y ∧ y.1 = o := by
  simp only [thetaPartners, mem_map, mem_filter, decide_eq_true_iff, and_assoc]

theorem pairwise_thetaPartners (hR : Ordered R) (x : ℕ × α) :
    (thetaPartners opcode R x).Pairwise (· < ·) := by
  rw [thetaPartners, pairwise_map]
  exact hR.filter _

theorem thetaPartners_of_nil (hx : x.2 = ⊥) : thetaPartners opcode R x = [] := by
  rw [thetaPartners, filter_eq_nil_iff.mpr fun y _ => ?_, map_nil]
  simpa using fun h : ThetaPartner opcode x y => h.1 hx

/-! ## The pairs of the loops -/

theorem pairs_thetaInner (hx : x.2 ≠ ⊥) (st : ThetaState) (y : ℕ × α) :
    (thetaInner opcode x st y).res.pairs =
      if ThetaPartner opcode x y then st.res.pairs ++ [(x.1, y.1)] else st.res.pairs := by
  by_cases hy : y.2 = ⊥
  · rw [if_neg fun h => h.2.1 hy, thetaInner, if_pos (by simp [hy])]
  by_cases hh : thetaHolds opcode x.2 y.2 = true
  · rw [if_pos ⟨hx, hy, hh⟩, thetaInner, if_neg (by simpa using hy), if_neg (by simp [hh])]
    dsimp only
    split_ifs <;> rfl
  · rw [if_neg fun h => hh h.2.2, thetaInner, if_neg (by simpa using hy), if_pos (by simp [hh])]

/-- The inner loop appends the partners of the left row. -/
theorem pairs_foldl_thetaInner (hx : x.2 ≠ ⊥) (st : ThetaState) :
    (R.foldl (thetaInner opcode x) st).res.pairs =
      st.res.pairs ++ (thetaPartners opcode R x).map fun o => (x.1, o) := by
  induction R generalizing st with
  | nil => exact (append_nil _).symm
  | cons y R ih =>
    rw [foldl_cons, ih, pairs_thetaInner hx]
    by_cases hp : ThetaPartner opcode x y <;> simp [thetaPartners, hp]

/-- **One left row** is paired with its partners. -/
theorem pairs_thetaIter (st : ThetaState) (x : ℕ × α) :
    (thetaIter opcode R st x).res.pairs =
      st.res.pairs ++ (thetaPartners opcode R x).map fun o => (x.1, o) := by
  unfold thetaIter
  by_cases hx : x.2 = ⊥
  · rw [if_pos (by simpa using hx), thetaPartners_of_nil hx]
    exact (append_nil _).symm
  · rw [if_neg (by simpa using hx), ← pairs_foldl_thetaInner hx { st with nr := 0 }]
    dsimp only
    split_ifs <;> rfl

/-- **All left rows.** -/
theorem pairs_foldl_thetaIter (L : List (ℕ × α)) (st : ThetaState) :
    (L.foldl (thetaIter opcode R) st).res.pairs =
      st.res.pairs ++ expand (L.map fun x => (x.1, thetaPartners opcode R x)) := by
  induction L generalizing st with
  | nil => exact (append_nil _).symm
  | cons x L ih =>
    rw [foldl_cons, ih, pairs_thetaIter, append_assoc]
    rfl

/-! ## The comparisons

The operator is decoded from its characters.  Those of `=` are tested at the wrong index. -/

/-- The comparisons. -/
inductive CompareMode
  | lt
  | le
  | eq
  | ge
  | gt
  deriving DecidableEq, Repr

namespace CompareMode

/-- The operator as a string. -/
def text : CompareMode → List Char
  | lt => ['<']
  | le => ['<', '=']
  | eq => ['=']
  | ge => ['>', '=']
  | gt => ['>']

/-- The memory from `op` on holds the operator and the end of the string. -/
structure StoredAt (m : CompareMode) (op : ℕ → Char) : Prop where
  chars : ∀ i < m.text.length, m.text[i]? = some (op i)
  ends : (op m.text.length).toNat = 0

/-- Two values compare as the operator says. -/
def Compares {α : Type*} [LinearOrder α] : CompareMode → α → α → Prop
  | lt, a, b => a < b
  | le, a, b => a ≤ b
  | eq, a, b => a = b
  | ge, a, b => b ≤ a
  | gt, a, b => b < a

/-- The bit mask of an operator. -/
def mask : CompareMode → ℕ
  | lt => maskLt
  | le => maskLe
  | eq => maskEq
  | ge => maskGe
  | gt => maskGt

variable {m : CompareMode} {op : ℕ → Char}

/-- The mask that is found.  The operator `=` is recognised by the byte behind the end of the
string. -/
theorem thetaOpcode_eq (h : m.StoredAt op) :
    thetaOpcode op = if m = eq ∧ (op 2).toNat ≠ 0 then 0 else m.mask := by
  have hend := h.ends
  cases m with
  | lt =>
    have h0 : op 0 = '<' := by simpa [text] using (h.chars 0 (by decide)).symm
    have h1 : (op 1).toNat = 0 := hend
    simp [thetaOpcode, h0, h1, mask]
  | le =>
    have h0 : op 0 = '<' := by simpa [text] using (h.chars 0 (by decide)).symm
    have h1 : op 1 = '=' := by simpa [text] using (h.chars 1 (by decide)).symm
    have h2 : (op 2).toNat = 0 := hend
    simp [thetaOpcode, h0, h1, h2, mask]
  | eq =>
    have h0 : op 0 = '=' := by simpa [text] using (h.chars 0 (by decide)).symm
    -- index 2 is behind the end of the string
    by_cases h2 : (op 2).toNat = 0
    · simp [thetaOpcode, h0, h2, mask]
    · simp [thetaOpcode, h0, h2]
  | ge =>
    have h0 : op 0 = '>' := by simpa [text] using (h.chars 0 (by decide)).symm
    have h1 : op 1 = '=' := by simpa [text] using (h.chars 1 (by decide)).symm
    have h2 : (op 2).toNat = 0 := hend
    simp [thetaOpcode, h0, h1, h2, mask]
  | gt =>
    have h0 : op 0 = '>' := by simpa [text] using (h.chars 0 (by decide)).symm
    have h1 : (op 1).toNat = 0 := hend
    simp [thetaOpcode, h0, h1, mask]

theorem thetaHolds_mask (m : CompareMode) (a b : α) :
    thetaHolds m.mask a b = true ↔ m.Compares a b := by
  have hlt := @atomCmp_lt_zero α _ a b
  have hgt := @atomCmp_pos α _ a b
  cases m with
  | lt => simp [thetaHolds, mask, maskLt, maskGt, maskEq, Compares, hlt]
  | le => simp [thetaHolds, mask, maskLe, maskLt, maskGt, maskEq, Compares, hlt, le_iff_lt_or_eq]
  | eq => simp [thetaHolds, mask, maskLt, maskGt, maskEq, Compares]
  | ge =>
    simp [thetaHolds, mask, maskGe, maskLt, maskGt, maskEq, Compares, hgt, le_iff_lt_or_eq,
      @eq_comm _ b a]
  | gt => simp [thetaHolds, mask, maskLt, maskGt, maskEq, Compares, hgt]

theorem mask_ne_zero (m : CompareMode) : m.mask ≠ 0 := by
  cases m <;> decide

end CompareMode

/-! ## The pairs -/

variable {l r : Column α} {sl sr : Option Candidates} {m : CompareMode}
  {op : ℕ → Char}

/-- The pairs that a theta join is to return: those of candidates whose values are not nil and
compare as the operator says, in lexicographic order. -/
structure IsThetaJoin (m : CompareMode) (l r : Column α) (sl sr : Option Candidates)
    (pairs : List (ℕ × ℕ)) : Prop where
  mem : ∀ lo ro, (lo, ro) ∈ pairs ↔ IsCandidate l sl lo ∧ IsCandidate r sr ro ∧
    l.atOid lo ≠ ⊥ ∧ r.atOid ro ≠ ⊥ ∧ m.Compares (l.atOid lo) (r.atOid ro)
  asc : pairs.Pairwise fun p q => p.1 < q.1 ∨ p.1 = q.1 ∧ p.2 < q.2

theorem isThetaJoin_expand (hl : l.Takes sl) (hr : r.Takes sr) :
    IsThetaJoin m l r sl sr
      (expand ((candRows l sl).map fun x => (x.1, thetaPartners m.mask (candRows r sr) x))) where
  mem lo ro := by
    simp only [mem_expand, mem_map, exists_exists_and_eq_and, mem_thetaPartners]
    constructor
    · rintro ⟨x, hx, rfl, y, hy, ⟨h1, h2, h3⟩, rfl⟩
      obtain ⟨hxc, hxv⟩ := (mem_candRows hl).mp hx
      obtain ⟨hyc, hyv⟩ := (mem_candRows hr).mp hy
      rw [CompareMode.thetaHolds_mask] at h3
      rw [← hxv, ← hyv]
      exact ⟨hxc, hyc, h1, h2, h3⟩
    · rintro ⟨hlo, hro, h1, h2, h3⟩
      refine ⟨(lo, l.atOid lo), (mem_candRows hl).mpr ⟨hlo, rfl⟩, rfl, (ro, r.atOid ro),
        (mem_candRows hr).mpr ⟨hro, rfl⟩, ⟨h1, h2, ?_⟩, rfl⟩
      exact (CompareMode.thetaHolds_mask m _ _).mpr h3
  asc := by
    refine pairwise_expand ?_ fun x hx => ?_
    · rw [pairwise_map]
      exact ordered_candRows hl
    · obtain ⟨y, -, rfl⟩ := mem_map.mp hx
      exact pairwise_thetaPartners (ordered_candRows hr) y

/-- **The theta join returns the pairs of candidates whose values are not nil and compare as the
operator says, in the order of the candidates, if and only if the operator is not `=` or the byte
behind its string is 0.** -/
theorem isThetaJoin_thetajoin_iff (h : m.StoredAt op) (hl : ∀ c, sl = some c → c.Usable l)
    (hr : ∀ c, sr = some c → c.Usable r) :
    (∃ res, thetajoin l r sl sr op joininitresults = .ok res ∧
        IsThetaJoin m l r sl sr res.pairs) ↔ (m = .eq → (op 2).toNat = 0) := by
  have hop := CompareMode.thetaOpcode_eq h
  by_cases hbad : m = .eq ∧ (op 2).toNat ≠ 0
  · -- the operator is not known
    rw [if_pos hbad] at hop
    refine iff_of_false ?_ fun himp => hbad.2 (himp hbad.1)
    rintro ⟨res, hres, -⟩
    dsimp only [thetajoin] at hres
    rw [if_pos hop] at hres
    exact nomatch hres
  · rw [if_neg hbad] at hop
    have hgood : m = .eq → (op 2).toNat = 0 := fun hm => not_not.mp fun hne => hbad ⟨hm, hne⟩
    refine iff_of_true ?_ hgood
    dsimp only [thetajoin]
    rw [hop, if_neg m.mask_ne_zero]
    refine ⟨_, rfl, ?_⟩
    rw [pairs_foldl_thetaIter]
    exact isThetaJoin_expand hl hr

/-! ## A failing input -/

/-- An operator and the end of the string, with the byte `behind` in the memory behind it. -/
def CompareMode.stored (m : CompareMode) (behind : Char) : ℕ → Char :=
  fun i => (m.text ++ [Char.ofNat 0]).getD i behind

/-- The operator `=` is not known if the byte behind it is not 0. -/
theorem thetajoin_unknown_eq : ¬ ∃ res,
    thetajoin justThree justThree none none (CompareMode.eq.stored 'x') joininitresults = .ok res ∧
      IsThetaJoin .eq justThree justThree none none res.pairs := by
  rintro ⟨res, hres, -⟩
  exact nomatch hres

/-- The values 5 and 3 are at least 3. -/
theorem thetajoin_fiveThree : ∃ res,
    thetajoin fiveThree justThree none none (CompareMode.ge.stored 'x') joininitresults = .ok res ∧
      IsThetaJoin .ge fiveThree justThree none none res.pairs :=
  (isThetaJoin_thetajoin_iff ⟨by decide, by decide⟩ (by simp) (by simp)).mpr nofun

end MonetInR.Gdk
