import Mathlib.Order.Nat

/-!
# Removing aliases

`OPTaliases` frees the instructions `y := x` of a MAL block after which neither variable is
assigned again, and puts `x` in the place of `y` from there on.  What it takes for such an
instruction is any assignment with two variables.  An instruction `(y, x);`, which has two results
and no operand, is one as well: it copies nothing, and afterwards `x` is read for `y`.

## Main definitions

* `setLifespan`, `OPTaliasesImplementation`: the pass on straight-line code
* `exec`: what the interpreter does with an instruction
* `Preserves`: the instructions that are left read and compute the same
* `Unmerged`: no operand is read from a variable that only such an instruction puts in its place

## Main results

* `preserves_iff_unmerged`: the blocks that do the same after the pass, whatever the values are
-/

namespace MonetInR.Mal.Aliases

open Function List

inductive Token
  | ASSIGNsymbol | NOOPsymbol
  | call (fcn : ℕ)
  deriving DecidableEq

/-- An instruction of straight-line code, where `barrier` is zero. -/
structure Instr where
  token : Token
  rets : List ℕ
  args : List ℕ

namespace Instr

def argv (p : Instr) : List ℕ := p.rets ++ p.args

def getArg (p : Instr) (i : ℕ) : ℕ := p.argv.getD i 0

end Instr

/-! ## The pass -/

/-- What the pass reads of the life spans of variables. -/
structure Lifespan where
  beginLifespan : ℕ → ℕ
  lastUpdate : ℕ → ℕ

/-- One instruction; the first place of a variable is unset if it is zero. -/
def Lifespan.visit (span : Lifespan) (pc : ℕ) (p : Instr) : Lifespan :=
  if p.token = .NOOPsymbol then span
  else
    ⟨fun v => if v ∈ p.argv ∧ span.beginLifespan v = 0 then pc else span.beginLifespan v,
      fun v => if v ∈ p.rets then pc else span.lastUpdate v⟩

def lifespanLoop : ℕ → Lifespan → List Instr → Lifespan
  | _, span, [] => span
  | pc, span, p :: ps => lifespanLoop (pc + 1) (span.visit pc p) ps

def setLifespan (stmt : List Instr) : Lifespan := lifespanLoop 0 ⟨fun _ => 0, fun _ => 0⟩ stmt

def OPTisAlias (p : Instr) : Prop := p.token = .ASSIGNsymbol ∧ p.argv.length = 2
  deriving Decidable

/-- The instruction at place `i` is freed. -/
def freed (span : Lifespan) (i : ℕ) (p : Instr) : Prop :=
  OPTisAlias p ∧ span.lastUpdate (p.getArg 0) = i ∧ span.beginLifespan (p.getArg 0) = i ∧
    span.lastUpdate (p.getArg 1) ≤ i
  deriving Decidable

def OPTaliasRemap (al : ℕ → ℕ) (p : Instr) : Instr :=
  { p with rets := p.rets.map al, args := p.args.map al }

/-- The loop, with `none` for an instruction that is freed. -/
def aliasLoop (span : Lifespan) : ℕ → (ℕ → ℕ) → List Instr → List (Option Instr)
  | _, _, [] => []
  | i, al, p :: ps =>
    if freed span i p then
      none :: aliasLoop span (i + 1) (update al (p.getArg 0) (al (p.getArg 1))) ps
    else some (OPTaliasRemap al p) :: aliasLoop span (i + 1) al ps

def OPTaliasesImplementation : List Instr → List (Option Instr)
  | [] => []
  | sig :: ps => some sig :: aliasLoop (setLifespan (sig :: ps)) 1 id ps

/-! ## What the interpreter does -/

variable {V : Type*}

/-- The loop over an assignment copies one value after the other. -/
def assign (σ : ℕ → V) : List ℕ → List ℕ → ℕ → V
  | l :: ls, r :: rs => assign (update σ l (σ r)) ls rs
  | _, _ => σ

def store (σ : ℕ → V) : List ℕ → List V → ℕ → V
  | l :: ls, x :: xs => store (update σ l x) ls xs
  | _, _ => σ

variable (call : ℕ → List V → List V) {pc : ℕ}

def exec (σ : ℕ → V) (p : Instr) : ℕ → V :=
  match p.token with
  | .ASSIGNsymbol => assign σ p.rets p.args
  | .NOOPsymbol => σ
  | .call fcn => store σ p.rets (call fcn (p.args.map σ))

/-- From `σ` and `τ`, each instruction that is left reads and computes what it did. -/
def Same : (ℕ → V) → (ℕ → V) → List Instr → List (Option Instr) → Prop
  | σ, τ, p :: ps, none :: qs => Same (exec call σ p) τ ps qs
  | σ, τ, p :: ps, some q :: qs =>
    (p.token ≠ .NOOPsymbol → q.args.map τ = p.args.map σ ∧
      q.rets.map (exec call τ q) = p.rets.map (exec call σ p)) ∧
    Same (exec call σ p) (exec call τ q) ps qs
  | _, _, _, _ => True

/-- **The rewritten block does the same**, from values `σ` on. -/
def Preserves (σ : ℕ → V) (stmt : List Instr) : Prop :=
  Same call σ σ stmt.tail (OPTaliasesImplementation stmt).tail

/-- A freed instruction copies its operand, if it has one. -/
def copied (copy : ℕ → ℕ) (p : Instr) : ℕ → ℕ :=
  if p.rets.length = 1 then update copy (p.getArg 0) (copy (p.getArg 1)) else copy

/-- **The condition** on the block.  `copy` follows only the instructions that do copy a value:
every operand of an instruction that is left is read from where `copy` leads. -/
def Unmerged (span : Lifespan) : ℕ → (ℕ → ℕ) → (ℕ → ℕ) → List Instr → Prop
  | _, _, _, [] => True
  | i, al, copy, p :: ps =>
    if freed span i p then
      Unmerged span (i + 1) (update al (p.getArg 0) (al (p.getArg 1))) (copied copy p) ps
    else
      (p.token ≠ .NOOPsymbol → ∀ v ∈ p.args, al v = copy v) ∧ Unmerged span (i + 1) al copy ps

/-! ## Life spans

What the pass is told about the variables is true from place 1 on: a variable is not assigned after
its last update, and does not occur before its first place.  About the signature, at place 0, it is
told nothing. -/

/-- No instruction from place `i` on assigns a variable after its last update. -/
def Late (span : Lifespan) : ℕ → List Instr → Prop
  | _, [] => True
  | i, p :: ps => (p.token ≠ .NOOPsymbol → ∀ v ∈ p.rets, i ≤ span.lastUpdate v) ∧
      Late span (i + 1) ps

/-- No instruction from place `i` on has a variable before its first place. -/
def Early (span : Lifespan) : ℕ → List Instr → Prop
  | _, [] => True
  | i, p :: ps => (p.token ≠ .NOOPsymbol → ∀ v ∈ p.argv, span.beginLifespan v ≤ i) ∧
      Early span (i + 1) ps

section

variable {span : Lifespan} (h : ∀ v, span.lastUpdate v ≤ pc) (ps : List Instr)

include h

theorem visit_lastUpdate (p : Instr) (v : ℕ) :
    span.lastUpdate v ≤ (span.visit pc p).lastUpdate v ∧
      (span.visit pc p).lastUpdate v ≤ pc + 1 := by
  have hv := h v
  unfold Lifespan.visit
  split
  · exact ⟨le_rfl, by omega⟩
  · dsimp only
    split <;> omega

theorem le_lastUpdate_loop (v : ℕ) :
    span.lastUpdate v ≤ (lifespanLoop pc span ps).lastUpdate v := by
  induction ps generalizing pc span with
  | nil => exact le_rfl
  | cons p ps ih =>
    exact (visit_lastUpdate h p v).1.trans (ih fun w => (visit_lastUpdate h p w).2)

theorem late_lifespanLoop : Late (lifespanLoop pc span ps) pc ps := by
  induction ps generalizing pc span with
  | nil => trivial
  | cons p ps ih =>
    have hnext := fun w => (visit_lastUpdate h p w).2
    refine ⟨fun hp v hv => ?_, ih hnext⟩
    have hpc : (span.visit pc p).lastUpdate v = pc := by simp [Lifespan.visit, hp, hv]
    exact hpc.ge.trans (le_lastUpdate_loop hnext ps v)

end

theorem visit_beginLifespan {span : Lifespan} (h : ∀ v, span.beginLifespan v ≤ pc) (p : Instr)
    (v : ℕ) : (span.visit pc p).beginLifespan v ≤ pc ∧
      (span.beginLifespan v ≠ 0 → (span.visit pc p).beginLifespan v = span.beginLifespan v) ∧
      (p.token ≠ .NOOPsymbol → v ∈ p.argv → pc ≠ 0 → (span.visit pc p).beginLifespan v ≠ 0) := by
  have hv := h v
  unfold Lifespan.visit
  split_ifs with htok
  · exact ⟨hv, fun _ => rfl, fun h => absurd htok h⟩
  · dsimp only
    split_ifs with hset
    · exact ⟨le_rfl, fun h => absurd hset.2 h, fun _ _ => id⟩
    · exact ⟨hv, fun _ => rfl, fun _ hmem _ h0 => hset ⟨hmem, h0⟩⟩

theorem beginLifespan_loop {span : Lifespan} (h : ∀ v, span.beginLifespan v ≤ pc) (ps : List Instr)
    {v : ℕ} (hv : span.beginLifespan v ≠ 0) :
    (lifespanLoop pc span ps).beginLifespan v = span.beginLifespan v := by
  induction ps generalizing pc span with
  | nil => rfl
  | cons p ps ih =>
    have hvisit := (visit_beginLifespan h p v).2.1 hv
    have hnext := fun w => (visit_beginLifespan h p w).1.trans (Nat.le_succ pc)
    exact (ih hnext (hvisit.trans_ne hv)).trans hvisit

theorem early_lifespanLoop {span : Lifespan} (h : ∀ v, span.beginLifespan v ≤ pc) (hpc : pc ≠ 0)
    (ps : List Instr) : Early (lifespanLoop pc span ps) pc ps := by
  induction ps generalizing pc span with
  | nil => trivial
  | cons p ps ih =>
    have hnext := fun w => (visit_beginLifespan h p w).1.trans (Nat.le_succ pc)
    refine ⟨fun hp v hv => ?_, ih hnext (Nat.succ_ne_zero pc)⟩
    obtain ⟨hle, -, hne⟩ := visit_beginLifespan h p v
    exact (beginLifespan_loop hnext ps (hne hp hv hpc)).trans_le hle

theorem early_setLifespan (sig : Instr) (ps : List Instr) : Early (setLifespan (sig :: ps)) 1 ps :=
  early_lifespanLoop (fun v => (visit_beginLifespan (fun _ => le_rfl) sig v).1.trans
    (Nat.zero_le 1)) Nat.one_ne_zero ps

/-! ## The two runs -/

/-- Nothing but `t` stands for `t`. -/
def Fixed (m : ℕ → ℕ) (t : ℕ) : Prop := ∀ x, m x = t ↔ x = t

/-- Variables with another one in their place, and those, are not assigned from place `i` on. -/
def Settled (span : Lifespan) (i : ℕ) (m : ℕ → ℕ) : Prop :=
  ∀ v, m v ≠ v → span.lastUpdate v < i ∧ span.lastUpdate (m v) < i

variable {call} {span : Lifespan} {i v t : ℕ} {m m' : ℕ → ℕ} {σ τ : ℕ → V} {p : Instr}
  {ps : List Instr}

theorem Settled.fixed (h : Settled span i m) (ht : i ≤ span.lastUpdate t) : Fixed m t := by
  intro x
  by_cases hx : m x = x
  · rw [hx]
  · have := h x hx
    refine iff_of_false ?_ ?_ <;> rintro rfl <;> omega

theorem Settled.succ (h : Settled span i m) : Settled span (i + 1) m :=
  fun v hv => ⟨Nat.lt_succ_of_lt (h v hv).1, Nat.lt_succ_of_lt (h v hv).2⟩

theorem Settled.update (h : Settled span i m) (hp : freed span i p) :
    Settled span (i + 1) (update m (p.getArg 0) (m (p.getArg 1))) := by
  obtain ⟨-, hy, -, hx⟩ := hp
  intro v hv
  by_cases hvy : v = p.getArg 0
  · rw [hvy, update_self] at hv ⊢
    by_cases hm : m (p.getArg 1) = p.getArg 1
    · rw [hm]
      omega
    · have := h _ hm
      omega
  · rw [update_of_ne hvy] at hv ⊢
    exact h.succ v hv

theorem agree_update (ht : Fixed m t) (h : τ (m v) = σ v) (x : V) :
    update τ t x (m v) = update σ t x v := by
  by_cases hv : v = t
  · rw [(ht v).mpr hv, hv, update_self, update_self]
  · rw [update_of_ne hv, update_of_ne fun h' => hv ((ht v).mp h'), h]

theorem store_agree {ls : List ℕ} (hls : ∀ t ∈ ls, Fixed m t) (h : τ (m v) = σ v) (xs : List V) :
    store τ ls xs (m v) = store σ ls xs v := by
  induction ls generalizing σ τ xs with
  | nil => exact h
  | cons l ls ih =>
    cases xs with
    | nil => exact h
    | cons x xs =>
      exact ih (fun t ht => hls t (mem_cons_of_mem _ ht))
        (agree_update (hls l mem_cons_self) h x) xs

theorem assign_agree {ls rs : List ℕ} (hls : ∀ t ∈ ls, Fixed m t) (hls' : ∀ t ∈ ls, Fixed m' t)
    (hrs : ∀ r ∈ rs, τ (m r) = σ r) (h : τ (m' v) = σ v) :
    assign τ ls (rs.map m) (m' v) = assign σ ls rs v := by
  induction ls generalizing σ τ rs with
  | nil => exact h
  | cons l ls ih =>
    cases rs with
    | nil => exact h
    | cons r rs =>
      have hl := mem_cons_self (a := l) (l := ls)
      simp only [map_cons, assign, hrs r mem_cons_self]
      exact ih (fun t ht => hls t (mem_cons_of_mem _ ht))
        (fun t ht => hls' t (mem_cons_of_mem _ ht))
        (fun s hs => agree_update (hls l hl) (hrs s (mem_cons_of_mem _ hs)) _)
        (agree_update (hls' l hl) h _)

/-- **An instruction that is left**, if its operands have their values. -/
theorem exec_agree (hm : Settled span i m) (hm' : Settled span i m')
    (hlate : p.token ≠ .NOOPsymbol → ∀ v ∈ p.rets, i ≤ span.lastUpdate v)
    (hargs : p.token ≠ .NOOPsymbol → ∀ v ∈ p.args, τ (m v) = σ v) (h : ∀ v, τ (m' v) = σ v)
    (v : ℕ) : exec call τ (OPTaliasRemap m p) (m' v) = exec call σ p v := by
  have hrets : p.token ≠ .NOOPsymbol → p.rets.map m = p.rets := fun hp =>
    (map_congr_left fun t ht => (hm.fixed (hlate hp t ht) t).mpr rfl).trans (map_id _)
  unfold exec OPTaliasRemap
  cases hp : p.token with
  | NOOPsymbol => exact h v
  | ASSIGNsymbol =>
    have hp : p.token ≠ .NOOPsymbol := by simp [hp]
    rw [hrets hp]
    exact assign_agree (fun t ht => hm.fixed (hlate hp t ht))
      (fun t ht => hm'.fixed (hlate hp t ht)) (hargs hp) (h v)
  | call fcn =>
    have hp : p.token ≠ .NOOPsymbol := by simp [hp]
    rw [hrets hp, map_map, map_congr_left (f := τ ∘ m) (g := σ) (hargs hp)]
    exact store_agree (fun t ht => hm'.fixed (hlate hp t ht)) (h v) _

/-- **An instruction that is freed.** -/
theorem freed_agree (hp : freed span i p) (h : ∀ v, τ (m' v) = σ v) (v : ℕ) :
    τ (copied m' p v) = exec call σ p v := by
  obtain ⟨⟨htok, hlen⟩, -⟩ := hp
  obtain ⟨tok, rets, args⟩ := p
  obtain rfl : tok = .ASSIGNsymbol := htok
  rw [Instr.argv, length_append] at hlen
  rcases rets with - | ⟨y, - | ⟨x, rets⟩⟩
  · exact h v
  · obtain ⟨x, rfl⟩ := length_eq_one_iff.mp (by simpa [Nat.add_comm] using hlen)
    change τ (update m' y (m' x) v) = update σ y (σ x) v
    by_cases hv : v = y
    · rw [hv, update_self, update_self, h]
    · rw [update_of_ne hv, update_of_ne hv, h]
  · -- two results and nothing to copy
    obtain rfl : args = [] := length_eq_zero_iff.mp (by simp at hlen; omega)
    exact h v

theorem Settled.copied (hm : Settled span i m) (hp : freed span i p) :
    Settled span (i + 1) (copied m p) := by
  unfold Aliases.copied
  split_ifs
  · exact hm.update hp
  · exact hm.succ

/-- **Both runs.**  If operands are read from where `copy` leads, `copy` keeps track of all
variables. -/
theorem same_of_unmerged (hlate : Late span i ps) (hm : Settled span i m) (hm' : Settled span i m')
    (h : ∀ v, τ (m' v) = σ v) (hun : Unmerged span i m m' ps) :
    Same call σ τ ps (aliasLoop span i m ps) := by
  induction ps generalizing i m m' σ τ with
  | nil => trivial
  | cons p ps ih =>
    obtain ⟨hp, hps⟩ := hlate
    unfold Unmerged at hun
    unfold aliasLoop
    split_ifs at hun ⊢ with hf
    · exact ih hps (hm.update hf) (hm'.copied hf) (freed_agree hf h) hun
    have hread : p.token ≠ .NOOPsymbol → ∀ v ∈ p.args, τ (m v) = σ v := fun htok v hv => by
      rw [hun.1 htok v hv, h v]
    have hexec : ∀ v, exec call τ (OPTaliasRemap m p) (m' v) = exec call σ p v :=
      exec_agree hm hm' hp hread h
    refine ⟨fun htok => ⟨?_, ?_⟩, ih hps hm.succ hm'.succ hexec hun.2⟩
    · simpa [OPTaliasRemap] using hread htok
    -- a result stands for itself
    simp only [OPTaliasRemap, map_map, map_inj_left]
    intro t ht
    have hlast := hp htok t ht
    have hval := hexec t
    rw [(hm'.fixed hlast t).mpr rfl] at hval
    rw [comp_apply, (hm.fixed hlast t).mpr rfl]
    exact hval

/-! ## A run that shows the difference

If an operand is read from another variable than `copy` leads to, the latter is a result `y` of an
instruction without operands, whose first place that is.  The rewritten block never reads it, so
that it alone can be given a value of its own: nothing is computed, and only copies are made. -/

/-- Variables are in the same place in both maps, or the one that `copy` leads to is read by
nobody. -/
def Parted (m m' : ℕ → ℕ) : Prop := ∀ v, m v = m' v ∨ ∀ x, m x ≠ m' v

theorem Parted.update (h : Parted m m') (hm : Settled span i m) (hm' : Settled span i m')
    (hp : freed span i p) :
    Parted (Function.update m (p.getArg 0) (m (p.getArg 1))) (copied m' p) := by
  have hy : Fixed m (p.getArg 0) := hm.fixed hp.2.1.ge
  have hrange : ∀ {z}, (∀ x, m x ≠ z) →
      ∀ x, Function.update m (p.getArg 0) (m (p.getArg 1)) x ≠ z := by
    intro z hz x
    rw [update_apply]
    split_ifs
    · exact hz _
    · exact hz x
  unfold copied
  intro v
  by_cases hv : v = p.getArg 0
  · rw [hv, update_self]
    split_ifs
    · rw [update_self]
      exact (h _).imp_right hrange
    · -- nothing has been copied, and `y` is not read any more
      rw [((hm'.fixed hp.2.1.ge) _).mpr rfl]
      by_cases hx : m (p.getArg 1) = p.getArg 0
      · exact .inl hx
      · refine .inr fun x => ?_
        rw [update_apply]
        split_ifs with hxy
        · exact hx
        · exact fun h' => hxy ((hy x).mp h')
  · rw [update_of_ne hv]
    split_ifs
    · rw [update_of_ne hv]
      exact (h v).imp_right hrange
    · exact (h v).imp_right hrange

/-- The variable `y` is not read from place `i` on: nothing leads to it, or it has not occurred yet
and will be freed at its first place. -/
def Unread (span : Lifespan) (i : ℕ) (m : ℕ → ℕ) (y : ℕ) : Prop :=
  (∀ x, m x ≠ y) ∨ (i ≤ span.beginLifespan y ∧ span.lastUpdate y = span.beginLifespan y)

variable {a b : V} {y : ℕ}

theorem assign_unread {ls rs : List ℕ} (hls : y ∉ ls) (hrs : y ∉ rs) :
    assign (update (fun _ => a) y b) ls rs = update (fun _ => a) y b := by
  induction ls generalizing rs with
  | nil => rfl
  | cons l ls ih =>
    cases rs with
    | nil => rfl
    | cons r rs =>
      rw [mem_cons, not_or] at hls hrs
      have hsame : update (update (fun _ => a) y b) l (update (fun _ => a) y b r) =
          update (fun _ => a) y b := by
        rw [update_eq_self_iff, update_of_ne (Ne.symm hrs.1), update_of_ne (Ne.symm hls.1)]
      rw [assign, hsame]
      exact ih hls.2 hrs.2

/-- **A block with a merged operand** does not do the same if only that operand has the value `b`,
and calls have no results. -/
theorem exists_not_same (hlate : Late span i ps) (hearly : Early span i ps) (hm : Settled span i m)
    (hm' : Settled span i m') (hpart : Parted m m') (hab : a ≠ b)
    (hun : ¬ Unmerged span i m m' ps) :
    ∃ y, Unread span i m y ∧ ∀ σ : ℕ → V, (∀ v, update (fun _ => a) y b (m' v) = σ v) →
      ¬ Same (fun _ _ => []) σ (update (fun _ => a) y b) ps (aliasLoop span i m ps) := by
  induction ps generalizing i m m' with
  | nil => exact absurd trivial hun
  | cons p ps ih =>
    obtain ⟨hp, hps⟩ := hlate
    obtain ⟨hq, hqs⟩ := hearly
    unfold Unmerged at hun
    unfold aliasLoop
    split_ifs at hun ⊢ with hf
    · obtain ⟨y, hy, hnot⟩ := ih hps hqs (hm.update hf) (hm'.copied hf)
        (hpart.update hm hm' hf) hun
      refine ⟨y, ?_, fun σ h => hnot _ (freed_agree hf h)⟩
      rcases hy with hy | hy
      · by_cases hyp : y = p.getArg 0
        · exact .inr (hyp ▸ ⟨hf.2.2.1.ge, hf.2.1.trans hf.2.2.1.symm⟩)
        · refine .inl fun x hx => ?_
          have hfix := ((hm.fixed hf.2.1.ge) (p.getArg 0)).mpr rfl
          rcases eq_or_ne x (p.getArg 0) with rfl | hne
          · exact hyp (hx.symm.trans hfix)
          · exact hy x (by rwa [update_of_ne hne])
      · exact .inr ⟨Nat.le_of_succ_le hy.1, hy.2⟩
    by_cases hread : p.token ≠ .NOOPsymbol → ∀ v ∈ p.args, m v = m' v
    · obtain ⟨y, hy, hnot⟩ := ih hps hqs hm.succ hm'.succ hpart fun h => hun ⟨hread, h⟩
      have hmap : p.token ≠ .NOOPsymbol → y ∉ (p.rets.map m) ∧ y ∉ (p.args.map m) := by
        intro htok
        rw [mem_map, mem_map]
        rcases hy with hy | ⟨hb, hl⟩
        · exact ⟨fun ⟨x, _, hx⟩ => hy x hx, fun ⟨x, _, hx⟩ => hy x hx⟩
        · have hfix : Fixed m y := hm.fixed (by omega)
          have hnotin : y ∉ p.argv := fun hmem => by
            have := hq htok y hmem
            omega
          refine ⟨fun ⟨x, hx, hxy⟩ => hnotin ?_, fun ⟨x, hx, hxy⟩ => hnotin ?_⟩
          · exact mem_append_left _ ((hfix x).mp hxy ▸ hx)
          · exact mem_append_right _ ((hfix x).mp hxy ▸ hx)
      refine ⟨y, hy.imp_right fun h => ⟨Nat.le_of_succ_le h.1, h.2⟩, fun σ h hsame => ?_⟩
      have hexec : ∀ v, exec (fun _ _ => []) (update (fun _ => a) y b) (OPTaliasRemap m p) (m' v) =
          exec (fun _ _ => []) σ p v :=
        exec_agree hm hm' hp (fun htok v hv => by rw [hread htok v hv, h v]) h
      -- the instruction changes nothing
      have hstay : exec (fun _ _ => []) (update (fun _ => a) y b) (OPTaliasRemap m p) =
          update (fun _ => a) y b := by
        unfold exec OPTaliasRemap
        cases htok : p.token with
        | NOOPsymbol => rfl
        | ASSIGNsymbol =>
          obtain ⟨h1, h2⟩ := hmap (by simp [htok])
          exact assign_unread h1 h2
        | call fcn => cases p.rets.map m <;> rfl
      rw [hstay] at hexec
      have hrest := hsame.2
      rw [hstay] at hrest
      exact hnot _ hexec hrest
    · -- an operand of this instruction
      simp only [not_forall, exists_prop] at hread
      obtain ⟨htok, v, hv, hne⟩ := hread
      have hhidden := (hpart v).resolve_left hne
      refine ⟨m' v, .inl hhidden, fun σ h hsame => ?_⟩
      have hval : update (fun _ => a) (m' v) b (m v) = σ v := by
        have hargs := (hsame.1 htok).1
        simp only [OPTaliasRemap, map_map, map_inj_left] at hargs
        exact hargs v hv
      rw [← h v, update_self, update_of_ne hne] at hval
      exact hab hval

theorem settled_id : Settled span i id := fun _ hv => absurd rfl hv

theorem parted_id : Parted id id := fun _ => .inl rfl

/-- **Every block**: after the pass it does the same, whatever the values and the functions called
are, if and only if no operand is read from a variable that no copy put in its place. -/
theorem preserves_iff_unmerged [Nontrivial V] (sig : Instr) (ps : List Instr) :
    (∀ (call : ℕ → List V → List V) (σ : ℕ → V), Preserves call σ (sig :: ps)) ↔
      Unmerged (setLifespan (sig :: ps)) 1 id id ps := by
  have hlate : Late (setLifespan (sig :: ps)) 0 (sig :: ps) := late_lifespanLoop (fun _ => le_rfl) _
  constructor
  · intro hall
    by_contra hun
    obtain ⟨a, b, hab⟩ := exists_pair_ne V
    obtain ⟨y, -, hnot⟩ := exists_not_same hlate.2 (early_setLifespan sig ps) settled_id settled_id
      parted_id hab hun
    exact hnot _ (fun _ => rfl) (hall _ _)
  · exact fun hun call σ => same_of_unmerged hlate.2 settled_id settled_id (fun _ => rfl) hun

/-- Nothing is merged if every assignment has as many operands as results. -/
theorem unmerged_of_paired (h : ∀ p ∈ ps, p.token = .ASSIGNsymbol → p.args.length = p.rets.length) :
    Unmerged span i m m ps := by
  induction ps generalizing i m with
  | nil => trivial
  | cons p ps ih =>
    have hps : ∀ q ∈ ps, q.token = .ASSIGNsymbol → q.args.length = q.rets.length :=
      fun q hq => h q (mem_cons_of_mem _ hq)
    unfold Unmerged
    split_ifs with hf
    · have hlen := hf.1.2
      have hpair := h p mem_cons_self hf.1.1
      rw [Instr.argv, length_append] at hlen
      rw [copied, if_pos (by omega)]
      exact ih hps
    · exact ⟨fun _ _ _ => rfl, ih hps⟩

/-- **Blocks in which an assignment has as many operands as results** do the same. -/
theorem preserves_of_paired (call : ℕ → List V → List V) (σ : ℕ → V) (sig : Instr)
    (h : ∀ p ∈ ps, p.token = .ASSIGNsymbol → p.args.length = p.rets.length) :
    Preserves call σ (sig :: ps) := by
  have hlate : Late (setLifespan (sig :: ps)) 0 (sig :: ps) := late_lifespanLoop (fun _ => le_rfl) _
  exact same_of_unmerged hlate.2 settled_id settled_id (fun _ => rfl) (unmerged_of_paired h)

theorem preserves_of_paired_copy : Preserves (V := ℕ) (fun _ xs => xs) id
    [⟨.call 0, [0], [1]⟩, ⟨.ASSIGNsymbol, [2], [1]⟩, ⟨.call 1, [3], [2]⟩] :=
  preserves_of_paired _ _ _ (by decide)

/-- `(x1, x2);` in a block whose last instruction reads a copy of `x2` only. -/
theorem preserves_declared_unread : Preserves (V := ℕ) (fun _ xs => xs) id
    [⟨.call 0, [0], [1, 2]⟩, ⟨.ASSIGNsymbol, [1, 2], []⟩, ⟨.ASSIGNsymbol, [3], [2]⟩,
      ⟨.call 1, [4], [3]⟩] := by
  refine (preserves_iff_unmerged _ _).mpr ?_ _ _
  simp [Unmerged, copied, freed, OPTisAlias, Instr.argv, Instr.getArg, setLifespan, lifespanLoop,
    Lifespan.visit, update_apply]

/-- `(x1, x2); x3 := f(x1)` reads `x2`. -/
theorem not_preserves_declared : ¬ Preserves (V := ℕ) (fun _ xs => xs) id
    [⟨.call 0, [0], [1, 2]⟩, ⟨.ASSIGNsymbol, [1, 2], []⟩, ⟨.call 1, [3], [1]⟩] := by
  rintro ⟨h, -⟩
  exact absurd (h (by decide)).1 (by decide)

end MonetInR.Mal.Aliases
