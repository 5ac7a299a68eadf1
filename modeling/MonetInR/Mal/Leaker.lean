import Mathlib.Data.List.Chain

/-!
# The leaker pass

The optimizer takes the calls of module `io` out of a MAL block and turns the calls that send a
result to a client into calls that hand it to R.  Its first loop goes on to the next place after it
has removed an instruction, although the rest has moved to the front by one: of two neighbouring
calls of `io` the second one stays.

## Main definitions

* `OPTleakerImplementation`: the pass
* `Leaked`, `IsLeaked`: what it is to make of an instruction and of a block

## Main results

* `isLeaked_iff`: the blocks of which it makes that
-/

namespace MonetInR.Mal

open List Option

/-- The names of modules and functions. -/
inductive Name
  | io | sql | leak
  | rsColumn | exportResult | exportValue | resultSet
  | addColumn | «seal» | leakValue | rs
  | other (name : String)
deriving DecidableEq

/-- An instruction with the names of what it calls and its variables, the results first. -/
structure Instr where
  moduleId : Name
  fcnId : Name
  argv : List ℕ

/-- A block, with the number of its variables. -/
structure MalBlk where
  stmt : List Instr
  vtop : ℕ

namespace Leaker

/-- The first loop, at place `i`, with the number of actions. -/
def removeIo : ℕ → ℕ → List Instr → ℕ → List Instr × ℕ
  | 0, _, stmt, actions => (stmt, actions)
  | f + 1, i, stmt, actions =>
    match stmt[i]? with
    | none => (stmt, actions)
    | some p =>
      -- `removeInstruction` moves what is behind `p`, and the loop goes on at `i + 1` all the same
      if p.moduleId = .io then removeIo f (i + 1) (stmt.eraseIdx i) (actions + 1)
      else removeIo f (i + 1) stmt actions

/-- `for (j = 2; j < argc; j++) argv[j-1] = argv[j]` -/
def shiftArgs (argv : List ℕ) : List ℕ :=
  (range' 2 (argv.length - 2)).foldl (fun argv j => argv.set (j - 1) (argv.getD j 0)) argv

/-- An instruction in the second loop, with the number of variables and of actions; `none` if a
place is used that holds no argument. -/
def leak (vtop : ℕ) : Instr → Option (Instr × ℕ × ℕ)
  | ⟨.sql, .rsColumn, argv⟩ =>
    some (⟨.leak, .addColumn, (shiftArgs argv).take (argv.length - 1)⟩, vtop, 1)
  | ⟨.sql, .exportResult, argv⟩ =>
    if argv.length < 1 then none else some (⟨.leak, .seal, argv.take 1⟩, vtop, 1)
  | ⟨.sql, .exportValue, argv⟩ =>
    let argc := argv.length
    if argc < 3 then none
    else
      let argv := argv.set (argc - 3) (argv.getD (argc - 2) 0)
      some (⟨.leak, .leakValue, (shiftArgs argv).take (argc - 3)⟩, vtop, 1)
  | ⟨.sql, .resultSet, argv⟩ =>
    if argv.length < 2 then none
    else some (⟨.leak, .rs, (argv.set 0 vtop).take 2⟩, vtop + 1, 1)
  | p => some (p, vtop, 0)

/-- The second loop. -/
def leakAll : List Instr → ℕ → ℕ → Option (List Instr × ℕ × ℕ)
  | [], vtop, actions => some ([], vtop, actions)
  | p :: stmt, vtop, actions =>
    (leak vtop p).bind fun r =>
      (leakAll stmt r.2.1 (actions + r.2.2)).map fun rest => (r.1 :: rest.1, rest.2)

end Leaker

open Leaker

/-- The pass, with the number of its actions.  The signature at place 0 is not looked at. -/
def OPTleakerImplementation (mb : MalBlk) : Option (MalBlk × ℕ) :=
  let (stmt, actions) := removeIo mb.stmt.length 1 mb.stmt 0
  (leakAll (stmt.drop 1) mb.vtop actions).map fun r => (⟨stmt.take 1 ++ r.1, r.2.1⟩, r.2.2)

namespace Leaker

/-! ## What the pass is for -/

/-- The variables that a call needs to be replaced, or 0 if it is not replaced. -/
def minArgs : Instr → ℕ
  | ⟨.sql, .rsColumn, _⟩ => 2
  | ⟨.sql, .exportResult, _⟩ => 1
  | ⟨.sql, .exportValue, _⟩ => 5
  | ⟨.sql, .resultSet, _⟩ => 2
  | _ => 0

/-- What becomes of an instruction, by the signatures of module `leak`: `addColumn` drops the
result set, `leakValue` the type of the query, the class of the type and the text behind the value,
and `rs` takes the number of columns only and has a new variable for its result. -/
inductive Leaked (vtop : ℕ) : Instr → Instr → Prop
  | rsColumn (r s : ℕ) (args : List ℕ) :
    Leaked vtop ⟨.sql, .rsColumn, r :: s :: args⟩ ⟨.leak, .addColumn, r :: args⟩
  | exportResult (r : ℕ) (args : List ℕ) :
    Leaked vtop ⟨.sql, .exportResult, r :: args⟩ ⟨.leak, .seal, [r]⟩
  | exportValue (r q c v w : ℕ) (args : List ℕ) :
    Leaked vtop ⟨.sql, .exportValue, r :: q :: (args ++ [c, v, w])⟩
      ⟨.leak, .leakValue, r :: (args ++ [v])⟩
  | resultSet (r n t : ℕ) (args : List ℕ) (h : vtop ≤ t) :
    Leaked vtop ⟨.sql, .resultSet, r :: n :: args⟩ ⟨.leak, .rs, [t, n]⟩
  | other (p : Instr) (h : minArgs p = 0) : Leaked vtop p p

/-- The calls of other modules than `io` are left, in their order and with what becomes of them. -/
def IsLeaked (mb : MalBlk) : Prop :=
  ∃ mb' actions, OPTleakerImplementation mb = some (mb', actions) ∧
    List.Forall₂ (Leaked mb.vtop) (mb.stmt.filter (·.moduleId ≠ .io)) mb'.stmt

variable {p q : Instr} {l l' : List Instr} {v vtop actions : ℕ}

/-! ## The first loop -/

/-- What the first loop leaves from some place on. -/
def sweep : List Instr → List Instr
  | [] => []
  | [p] => if p.moduleId = .io then [] else [p]
  | p :: q :: l => if p.moduleId = .io then q :: sweep l else p :: sweep (q :: l)

theorem removeIo_eq (f : ℕ) (pre l : List Instr) (actions : ℕ) (hf : l.length ≤ f) :
    (removeIo f pre.length (pre ++ l) actions).1 = pre ++ sweep l := by
  induction f generalizing pre l actions with
  | zero =>
    rw [length_eq_zero_iff.mp (Nat.le_zero.mp hf)]
    rfl
  | succ f ih =>
    -- the place after the next one, once an instruction has been passed
    have hnext : ∀ q l', l'.length ≤ f → ∀ a,
        (removeIo f (pre.length + 1) (pre ++ q :: l') a).1 = pre ++ q :: sweep l' := by
      intro q l' hl a
      have h := ih (pre ++ [q]) l' a hl
      rwa [length_append, append_assoc, append_assoc] at h
    rw [removeIo]
    rcases l with _ | ⟨p, _ | ⟨q, l⟩⟩
    · simp [sweep]
    · cases f <;> by_cases h : p.moduleId = .io <;>
        simp [removeIo, sweep, h, eraseIdx_append_of_length_le]
    · have hl : (q :: l).length ≤ f := Nat.le_of_succ_le_succ hf
      by_cases h : p.moduleId = .io
      · simpa [sweep, h, eraseIdx_append_of_length_le] using
          hnext q l (Nat.le_of_succ_le hl) (actions + 1)
      · simpa [sweep, h] using hnext p (q :: l) hl actions

/-- Of two neighbours one at most is a call of `io`. -/
def NotBothIo (p q : Instr) : Prop := p.moduleId = .io → q.moduleId ≠ .io

theorem sweep_eq_filter (h : l.IsChain NotBothIo) :
    sweep l = l.filter (·.moduleId ≠ .io) := by
  fun_induction sweep l with
  | case1 => rfl
  | case2 p hp => simp [hp]
  | case3 p hp => simp [hp]
  | case4 p q l hp ih =>
    rw [isChain_cons_cons] at h
    simp [hp, h.1 hp, ih h.2.tail]
  | case5 p q l hp ih =>
    rw [isChain_cons_cons] at h
    simp [hp, ih h.2]

theorem isChain_of_sweep (h : ∀ p ∈ sweep l, p.moduleId ≠ .io) : l.IsChain NotBothIo := by
  fun_induction sweep l with
  | case1 => exact .nil
  | case2 p hp => exact .singleton p
  | case3 p hp => exact .singleton p
  | case4 p q l hp ih =>
    have hq := h q mem_cons_self
    refine .cons_cons (fun _ => hq) (List.IsChain.cons ?_ ?_)
    · exact ih fun p hp => h p (mem_cons_of_mem q hp)
    · exact fun _ _ hio => absurd hio hq
  | case5 p q l hp ih =>
    exact .cons_cons (fun hio => absurd hio hp) (ih fun p hp => h p (mem_cons_of_mem _ hp))

/-! ## The second loop -/

theorem take_shift (pre : List ℕ) (x : ℕ) (args : List ℕ) :
    ((range' (pre.length + 1) args.length).foldl
      (fun argv j => argv.set (j - 1) (argv.getD j 0)) (pre ++ x :: args)).take
      (pre.length + args.length) = pre ++ args := by
  induction args generalizing pre x with
  | nil => simp
  | cons a args ih =>
    have h := ih (pre ++ [a]) a
    simpa [range'_succ, Nat.add_right_comm, Nat.add_assoc] using h

theorem take_shiftArgs (r x : ℕ) (args : List ℕ) :
    (shiftArgs (r :: x :: args)).take (args.length + 1) = r :: args := by
  have h := take_shift [r] x args
  rwa [length_singleton, Nat.add_comm 1 args.length] at h

theorem of_leaked (h : List.Forall₂ (Leaked v) l l') (hl : ∀ p ∈ l, p.moduleId ≠ .io) :
    (∀ q ∈ l', q.moduleId ≠ .io) ∧ ∀ p ∈ l, minArgs p ≤ p.argv.length := by
  induction h with
  | nil => simp
  | cons h _ ih =>
    all_goals cases h <;> simp_all [minArgs]

theorem leak_io (vtop : ℕ) (h : p.moduleId = .io) :
    minArgs p = 0 ∧ leak vtop p = some (p, vtop, 0) := by
  obtain ⟨m, f, argv⟩ := p
  obtain rfl : m = .io := h
  exact ⟨rfl, rfl⟩

theorem exists_append_three (t : List ℕ) (h : 3 ≤ t.length) :
    ∃ args c v w, t = args ++ [c, v, w] := by
  have h3 : (t.drop (t.length - 3)).length = 3 := by
    rw [length_drop]
    omega
  obtain ⟨c, v, w, hw⟩ := length_eq_three.mp h3
  exact ⟨t.take (t.length - 3), c, v, w, by rw [← hw, take_append_drop]⟩

/-- A call with the variables that it needs is replaced as it should be. -/
theorem leak_spec (h : minArgs p ≤ p.argv.length) (hv : v ≤ vtop) :
    ∃ r, leak vtop p = some r ∧ vtop ≤ r.2.1 ∧ Leaked v p r.1 := by
  unfold leak
  split
  next argv =>
    rcases argv with _ | ⟨r, _ | ⟨s, args⟩⟩
    · simp [minArgs] at h
    · simp [minArgs] at h
    · exact ⟨_, rfl, le_rfl, take_shiftArgs r s args ▸ .rsColumn r s args⟩
  next argv =>
    rcases argv with _ | ⟨r, args⟩
    · simp [minArgs] at h
    · exact ⟨_, rfl, le_rfl, .exportResult r args⟩
  next argv =>
    rcases argv with _ | ⟨r, _ | ⟨q, t⟩⟩
    · simp [minArgs] at h
    · simp [minArgs] at h
    · obtain ⟨args, c, x, w, rfl⟩ := exists_append_three t (by simpa [minArgs] using h)
      have hargs : (shiftArgs (r :: q :: (args ++ [x, x, w]))).take (args.length + 2) =
          r :: (args ++ [x]) := by
        have h := congrArg (take (args.length + 2)) (take_shiftArgs r q (args ++ [x, x, w]))
        rwa [take_take, Nat.min_eq_left (by simp), take_succ_cons, take_length_add_append] at h
      simpa [hargs] using Leaked.exportValue r q c x w args
  next argv =>
    rcases argv with _ | ⟨r, _ | ⟨n, args⟩⟩
    · simp [minArgs] at h
    · simp [minArgs] at h
    · exact ⟨_, rfl, Nat.le_succ _, .resultSet r n vtop args hv⟩
  next =>
    refine ⟨_, rfl, le_rfl, .other p ?_⟩
    unfold minArgs
    split <;> simp_all

theorem leakAll_spec (h : ∀ p ∈ l, minArgs p ≤ p.argv.length) (hv : v ≤ vtop) :
    ∃ r, leakAll l vtop actions = some r ∧ List.Forall₂ (Leaked v) l r.1 := by
  induction l generalizing vtop actions with
  | nil => exact ⟨_, rfl, .nil⟩
  | cons p l ih =>
    obtain ⟨hp, hl⟩ := forall_mem_cons.mp h
    obtain ⟨r, hr, hle, hleaked⟩ := leak_spec hp hv
    obtain ⟨rest, hrest, hall⟩ := ih hl (hv.trans hle)
    refine ⟨(r.1 :: rest.1, rest.2), ?_, .cons hleaked hall⟩
    rw [leakAll, hr, bind_some, hrest, map_some]

/-- A call of `io` that has come to the second loop stays. -/
theorem mem_of_leakAll (hp : p ∈ l) (hio : p.moduleId = .io) {r : List Instr × ℕ × ℕ}
    (h : leakAll l vtop actions = some r) : p ∈ r.1 := by
  induction l generalizing vtop actions r with
  | nil => cases hp
  | cons q l ih =>
    obtain ⟨s, hs, h⟩ := bind_eq_some_iff.mp h
    obtain ⟨rest, hrest, rfl⟩ := map_eq_some_iff.mp h
    rcases mem_cons.mp hp with rfl | hp
    · rw [(leak_io _ hio).2, some_inj] at hs
      exact hs ▸ mem_cons_self
    · exact mem_cons_of_mem _ (ih hp hrest)

/-- **When the pass does what it is for**: the signature is no call that it looks for, each call
that it replaces has the variables that it needs, and of two neighbours behind the signature one at
most is a call of `io`. -/
theorem isLeaked_iff (mb : MalBlk) : IsLeaked mb ↔
    (∀ p ∈ mb.stmt.head?, p.moduleId ≠ .io ∧ minArgs p = 0) ∧
      (∀ p ∈ mb.stmt, minArgs p ≤ p.argv.length) ∧ mb.stmt.tail.IsChain NotBothIo := by
  obtain ⟨stmt, vtop⟩ := mb
  rcases stmt with _ | ⟨p, l⟩
  · exact ⟨fun _ => by simp, fun _ => ⟨_, _, rfl, .nil⟩⟩
  -- the first instruction is never looked at
  obtain ⟨actions, hremove⟩ : ∃ a, removeIo (l.length + 1) 1 (p :: l) 0 = (p :: sweep l, a) :=
    ⟨_, Prod.ext (removeIo_eq (l.length + 1) [p] l 0 (Nat.le_succ _)) rfl⟩
  have hrun : OPTleakerImplementation ⟨p :: l, vtop⟩ =
      (leakAll (sweep l) vtop actions).map fun r => (⟨p :: r.1, r.2.1⟩, r.2.2) := by
    rw [OPTleakerImplementation, length_cons, hremove]
    rfl
  constructor
  · rintro ⟨mb', k, hres, hall⟩
    rw [hrun] at hres
    obtain ⟨r, hr, hmb⟩ := map_eq_some_iff.mp hres
    obtain ⟨rfl, -⟩ := Prod.mk.inj hmb
    obtain ⟨hio, hargs⟩ := of_leaked hall fun q hq => by simpa using (mem_filter.mp hq).2
    have hp : p.moduleId ≠ .io := hio p mem_cons_self
    refine ⟨?_, fun q hq => ?_, isChain_of_sweep fun q hq h => ?_⟩
    · rintro _ ⟨⟩
      rw [filter_cons_of_pos (by simpa using hp)] at hall
      cases hall with
      | cons h => cases h with
        | other _ h => exact ⟨hp, h⟩
    · by_cases h : q.moduleId = .io
      · rw [(leak_io 0 h).1]
        exact Nat.zero_le _
      · exact hargs q (mem_filter.mpr ⟨hq, by simpa using h⟩)
    · exact hio q (mem_cons_of_mem p (mem_of_leakAll hq h hr)) h
  · rintro ⟨hhead, hargs, hchain⟩
    obtain ⟨hp, h0⟩ := hhead p rfl
    have hsweep : sweep l = _ := sweep_eq_filter hchain
    have hall : ∃ r, leakAll (sweep l) vtop actions = some r ∧
        List.Forall₂ (Leaked vtop) (sweep l) r.1 := by
      refine leakAll_spec (fun q hq => ?_) le_rfl
      rw [hsweep] at hq
      exact hargs q (mem_cons_of_mem p (mem_of_mem_filter hq))
    obtain ⟨r, hr, hall⟩ := hall
    refine ⟨_, _, by rw [hrun, hr, map_some], ?_⟩
    rw [filter_cons_of_pos (by simpa using hp)]
    exact .cons (.other p h0) (hsweep ▸ hall)

/-- A query that prints two texts. -/
def printsTwice : MalBlk := ⟨[⟨.other "user", .other "main", [0]⟩, ⟨.io, .other "print", [1, 2]⟩,
    ⟨.io, .other "print", [3, 4]⟩], 5⟩

/-- Of two neighbouring calls of `io` the second one is left. -/
theorem OPTleakerImplementation_printsTwice :
    OPTleakerImplementation printsTwice = some (⟨[⟨.other "user", .other "main", [0]⟩,
      ⟨.io, .other "print", [3, 4]⟩], 5⟩, 1) ∧ ¬ IsLeaked printsTwice := by
  refine ⟨rfl, ?_⟩
  rintro ⟨mb', k, hres, hall⟩
  cases hres
  have hlen := hall.length_eq
  exact absurd hlen (by decide)

end Leaker

end MonetInR.Mal
