import Mathlib.Data.List.Count
import MonetInR.Lib.Runs
import Mathlib.Tactic.Linarith
import Mathlib.Tactic.Ring

/-!
# Handing results to R

A query that is sent from R leaves its result in a global record.  The statements of the query call
back to fill it: `leak_rs` makes room for the columns of a result set, `leak_addColumn` adds one of
them, `leak_seal` completes it, and `leak_value` stores a single value.  `monetinR_executeQuery`
then reads the record.

A column is not copied: the vector that R gets lies in the heap of the BAT, which must not go away
before R has finalised the vector.  Each call of `BATdescriptor` takes a reference for this, and the
finaliser `destroyBat` gives one back.  The finalisers leave the references that no finaliser is
going to release as they are, and adding a column does so only if the column is registered and its
BAT is not a view: all other exits behind the first `BATdescriptor` keep a reference for good.

What R does is modelled as far as it is counted: the depth of its stack of protected objects, and
the finalisers that it has still to run.  The texts are those of the source; what a statement prints
itself is part of the input.

## Main definitions

* `Leaked`: the record, and what R and the buffer pool count
* `leakRs`, `leakAddColumn`, `leakSeal`, `leakValue`, `destroyBat`, `executeQuery`
* `held`: the references that no finaliser will release
* `Kept`: when a call takes no more than its finaliser releases
* `Event`: the columns that are added, and the finalisers that R runs

## Main results

* `held_leakAddColumn_eq_iff`: a single call
* `leak_references`: single calls and sequences of calls and finalisations
-/

namespace MonetInR.Leak

open List Function

/-- `LD_MSGTYPE`. -/
inductive MsgType
  | processing
  | result
  | error
  | message
  deriving DecidableEq, Repr

/-- A line of output, with the number of the call that printed it, and the exception that it
reports, if it does. -/
structure Line where
  call : ℕ
  text : String
  failure : Option String
  deriving DecidableEq, Repr

/-- A column of an R object: which call added it, and from which BAT. -/
structure LeakedColumn where
  call : ℕ
  bid : ℕ
  deriving DecidableEq, Repr

/-- An R object: which call allocated it, and the columns that have been set. -/
structure RValue where
  call : ℕ
  length : ℕ
  columns : ℕ → Option LeakedColumn

/-- The global variables. -/
structure Leaked where
  /-- `leaked_data` is not `NULL`. -/
  init : Bool
  type : MsgType
  value : Option RValue
  colc : ℕ
  /-- What the buffer `msg` holds. -/
  msg : List Line
  /-- The number of calls of `monetinR_executeQuery` so far. -/
  call : ℕ
  /-- The depth of the stack of protected objects. -/
  depth : ℤ
  /-- `BBP_refs` of every BAT. -/
  refs : ℕ → ℤ
  /-- The BATs that finalisers still have to release. -/
  finalizers : List ℕ

namespace Leaked

/-- `mnstr_printf`. -/
def print (s : Leaked) (text : String) : Leaked :=
  { s with msg := s.msg ++ [⟨s.call, text, none⟩] }

/-- `handle_error`: the message of an exception is printed. -/
def handleError (s : Leaked) (message exception : String) : Leaked :=
  { s with msg := s.msg ++ [⟨s.call, "!" ++ message ++ "\n", some exception⟩] }

/-- `PROTECT`, `n` times. -/
def protect (s : Leaked) (n : ℤ) : Leaked := { s with depth := s.depth + n }

/-- `UNPROTECT`. -/
def unprotect (s : Leaked) (n : ℤ) : Leaked := { s with depth := s.depth - n }

/-- `BBPfix`, `BBPincref` without a logical reference. -/
def fix (s : Leaked) (bid : ℕ) : Leaked :=
  { s with refs := Function.update s.refs bid (s.refs bid + 1) }

/-- `BBPreleaseref`. -/
def releaseref (s : Leaked) (bid : ℕ) : Leaked :=
  { s with refs := Function.update s.refs bid (s.refs bid - 1) }

end Leaked

/-- `throw(MAL, fcn, msg)`. -/
def throwMal (fcn msg : String) : String := "MALException:" ++ fcn ++ ":" ++ msg

def ILLEGAL_ARGUMENT : String := "Illegal argument"
def PROGRAM_GENERAL : String := "Program contains errors."
def PROGRAM_NYI : String := "Not yet implemented"
def RUNTIME_OBJECT_MISSING : String := "Object not found"

/-! ## The callbacks

Each returns the state and, if it fails, the exception. -/

/-- Make room for a result set of `ncol` columns. -/
def leakRs (s : Leaked) (ncol : ℕ) : Leaked × Option String :=
  if ncol ≠ 0 ∧ s.init then
    ({ s.protect 3 with
        colc := 0, type := .processing, value := some ⟨s.call, ncol, fun _ => none⟩, msg := [] },
      none)
  else (s, throwMal "leak.resultSet" ILLEGAL_ARGUMENT)

/-- Complete the result set, if it has all its columns. -/
def leakSeal (s : Leaked) : Leaked × Option String :=
  match s.value with
  | some v =>
    if s.colc = v.length then
      (Leaked.print { s with type := .result } "LEAK_FINISH: will return\n", none)
    else (s, throwMal "leak.seal" PROGRAM_GENERAL)
  | none => (s, throwMal "leak.seal" PROGRAM_GENERAL)

/-- A column to be added, and what its operations meet with. -/
structure ColumnArgs where
  bid : ℕ
  type : String
  /-- `BATdescriptor(*bid)` finds the BAT. -/
  found : Bool
  /-- `isVIEW(b)`. -/
  view : Bool
  /-- The BAT that `BATcopy` makes of a view. -/
  copy : ℕ
  copy_ne : copy ≠ bid
  /-- `BATdescriptor` finds the copy. -/
  copyFound : Bool
  /-- There is memory for `biddup`. -/
  malloc : Bool
  /-- `Rf_allocVectorInPlace` returns a vector. -/
  alloc : Bool

/-- Register the vector that lies in the heap of the BAT, with its finaliser. -/
def Leaked.setColumn (s : Leaked) (bid : ℕ) : Leaked := { s with
    finalizers := bid :: s.finalizers
    value := s.value.map fun v =>
      { v with columns := Function.update v.columns s.colc (some ⟨s.call, bid⟩) }
    colc := s.colc + 1 }

/-- The part of `leak_addColumn` behind the copy of a view.  The finaliser gets `*bid`. -/
def leakVector (s : Leaked) (a : ColumnArgs) : Leaked × Option String :=
  if s.init = false then
    (s.print "LEAK init failed somewhere\n", throwMal "leaker.addColumn" PROGRAM_GENERAL)
  else if a.malloc = false then (s, throwMal "leaker.addColumn" PROGRAM_GENERAL)
  else if (a.type = "int" ∨ a.type = "double") ∧ a.alloc then
    (((s.protect 1).setColumn a.bid).unprotect 1, none)
  else (s, throwMal "leaker.addColumn" PROGRAM_NYI)

/-- Add a column to the result set. -/
def leakAddColumn (s : Leaked) (a : ColumnArgs) : Leaked × Option String :=
  if a.found = false then (s, throwMal "leak.addColumn" RUNTIME_OBJECT_MISSING)
  else
    let s := s.fix a.bid
    if a.view then
      let s := s.fix a.copy
      if a.copyFound = false then (s, throwMal "leak.addColumn" RUNTIME_OBJECT_MISSING)
      else leakVector (s.fix a.copy) a
    else leakVector s a

/-- A single value: of a type that can be handed over or not, or in a BAT that may not be found. -/
inductive ValueArg
  | scalar (supported : Bool)
  | bat (bid : ℕ) (found supported : Bool)

/-- Store a single value.  The exits on errors protect three objects as well. -/
def leakValue (s : Leaked) (arg : ValueArg) : Leaked × Option String :=
  let value : RValue := ⟨s.call, 1, fun _ => none⟩
  let stored := fun s : Leaked => { s.protect 3 with value := some value, type := .result }
  let failed := fun s : Leaked => { s.protect 3 with value := some value, type := .error }
  match arg with
  | .scalar true => (stored s, none)
  | .scalar false => (failed s, throwMal "leaker.leakValue" PROGRAM_NYI)
  | .bat bid true true => (stored (s.fix bid), none)
  | .bat bid true false => (failed (s.fix bid), throwMal "leaker.leakValue" PROGRAM_NYI)
  | .bat _ false _ => (failed s, throwMal "leaker.leakValue" PROGRAM_NYI)

/-- The finaliser of a vector releases the BAT that it was registered with. -/
def destroyBat (s : Leaked) (bid : ℕ) : Leaked :=
  { s.releaseref bid with finalizers := s.finalizers.erase bid }

/-! ## Queries -/

/-- What a statement of a query does. -/
inductive Statement
  /-- An update or a definition that succeeds. -/
  | command (text : String)
  /-- The compiler refuses the statement and prints its message. -/
  | rejected (message : String)
  /-- The statement fails without a callback, in the parser or when it runs.  The exception is only
  returned. -/
  | failed (text exception : String)
  /-- Between the columns of a result set another instruction may fail. -/
  | resultSet (ncol : ℕ) (columns : List (Except String ColumnArgs))
  | value (arg : ValueArg)

/-- Add columns, and complete the result set, until something fails. -/
def addColumns : Leaked → List (Except String ColumnArgs) → Leaked × Option String
  | s, [] => leakSeal s
  | s, .error exception :: _ => (s, some exception)
  | s, .ok a :: columns =>
    match leakAddColumn s a with
    | (s, none) => addColumns s columns
    | (s, some exception) => (s, some exception)

/-- `createException(PARSE, "SQLparser", "%s", message)`. -/
def parseException (message : String) : String := "ParseException:SQLparser:" ++ message

/-- Run a statement. -/
def runStatement (s : Leaked) : Statement → Leaked × Option String
  | .command text => (s.print text, none)
  | .rejected message =>
    (s.handleError message (parseException message), some (parseException message))
  | .failed text exception => (s.print text, some exception)
  | .resultSet ncol columns =>
    match leakRs s ncol with
    | (s, none) => addColumns s columns
    | (s, some exception) => (s, some exception)
  | .value arg => leakValue s arg

/-- `SQLstatementIntern`: the statements run one after another.  The exceptions are listed here; the
code returns the last one. -/
def runStatements : Leaked → List Statement → Leaked × List String
  | s, [] => (s, [])
  | s, st :: query =>
    let (s, exception) := runStatement s st
    let (s, exceptions) := runStatements s query
    (s, exception.toList ++ exceptions)

/-- What R gets: an error, a message, or a value after a message. -/
inductive Outcome
  | error (text : List Line)
  | message (text : List Line)
  | result (text : List Line) (value : Option RValue)

/-- `monetinR_executeQuery`: run the statements, take the text out of the buffer, and read the
record.  Nobody looks at the exceptions. -/
def executeQuery (s : Leaked) (query : List Statement) : Leaked × Outcome :=
  let s := (runStatements { s with call := s.call + 1 } query).1
  let text := s.msg
  let s := { s with msg := [] }
  match s.type with
  | .processing => (s.unprotect 3, .error text)
  | .error => (s, .error text)
  | .message => (s, .message text)
  | .result => (s.unprotect 3, .result text s.value)

/-- `leak_init`. -/
def leakInit (refs : ℕ → ℤ) (depth : ℤ) : Leaked where
  init := true
  type := .error
  value := none
  colc := 0
  msg := []
  call := 0
  depth := depth
  refs := refs
  finalizers := []

/-- The references that no finaliser is going to release. -/
def held (s : Leaked) (x : ℕ) : ℤ := s.refs x - s.finalizers.count x

/-- The last part of `leak_addColumn` registers a vector. -/
def Registered (init : Bool) (a : ColumnArgs) : Prop :=
  init = true ∧ a.malloc = true ∧ (a.type = "int" ∨ a.type = "double") ∧ a.alloc = true

/-- A call takes no reference, or one of a base BAT for which it registers a finaliser. -/
def Kept (init : Bool) (a : ColumnArgs) : Prop :=
  a.found = false ∨ (a.view = false ∧ Registered init a)

section Calls

variable {s : Leaked} {a : ColumnArgs} (x : ℕ)

theorem held_fix (s : Leaked) (bid x : ℕ) :
    held (s.fix bid) x = held s x + if x = bid then 1 else 0 := by
  change update s.refs bid (s.refs bid + 1) x - s.finalizers.count x = _
  rw [update_apply, held]
  split_ifs with hx
  · rw [hx]
    ring
  · ring

theorem held_leakVector_of_registered (h : Registered s.init a) (x : ℕ) :
    held (leakVector s a).1 x = held s x - if x = a.bid then 1 else 0 := by
  obtain ⟨hinit, hmalloc, htype, halloc⟩ := h
  rw [leakVector, if_neg (by simp [hinit]), if_neg (by simp [hmalloc]), if_pos ⟨htype, halloc⟩]
  change s.refs x - ((a.bid :: s.finalizers).count x : ℕ) = _
  rw [count_cons, held, Nat.cast_add]
  by_cases hx : x = a.bid
  · rw [if_pos (by rw [hx, beq_self_eq_true]), if_pos hx]
    ring
  · rw [if_neg fun h => hx (beq_iff_eq.mp h).symm, if_neg hx]
    ring

theorem held_leakVector_of_not (h : ¬ Registered s.init a) (x : ℕ) :
    held (leakVector s a).1 x = held s x := by
  rw [leakVector]
  split_ifs with hinit hmalloc htype
  · rfl
  · rfl
  · refine absurd ⟨?_, ?_, htype.1, htype.2⟩ h
    · simpa using hinit
    · simpa using hmalloc
  · rfl

theorem leakAddColumn_cases (s : Leaked) (a : ColumnArgs) :
    (a.found = false ∧ (leakAddColumn s a).1 = s) ∨
    (a.found = true ∧ a.view = false ∧ leakAddColumn s a = leakVector (s.fix a.bid) a) ∨
    (a.found = true ∧ a.view = true ∧ ((leakAddColumn s a).1 = (s.fix a.bid).fix a.copy ∨
        leakAddColumn s a = leakVector (((s.fix a.bid).fix a.copy).fix a.copy) a)) := by
  rw [leakAddColumn]
  cases hfound : a.found with
  | false => exact .inl ⟨rfl, rfl⟩
  | true =>
    cases hview : a.view with
    | false => exact .inr (.inl ⟨rfl, rfl, rfl⟩)
    | true =>
      cases hcopy : a.copyFound with
      | false => exact .inr (.inr ⟨rfl, rfl, .inl rfl⟩)
      | true => exact .inr (.inr ⟨rfl, rfl, .inr rfl⟩)

theorem held_leakVector_ge :
    held s x - (if x = a.bid then 1 else 0) ≤ held (leakVector s a).1 x := by
  by_cases h : Registered s.init a
  · rw [held_leakVector_of_registered h]
  · rw [held_leakVector_of_not h]
    split_ifs <;> omega

theorem held_copy_lt (hfound : a.found = true) (hview : a.view = true) :
    held s a.copy < held (leakAddColumn s a).1 a.copy := by
  rcases leakAddColumn_cases s a with ⟨hf, -⟩ | ⟨-, hv, -⟩ | ⟨-, -, heq | heq⟩
  · exact absurd hf (by simp [hfound])
  · exact absurd hv (by simp [hview])
  · rw [heq, held_fix, held_fix]
    omega
  · have hge := held_leakVector_ge (s := ((s.fix a.bid).fix a.copy).fix a.copy) (a := a) a.copy
    rw [held_fix, held_fix, held_fix] at hge
    rw [heq]
    omega

/-- **No call releases more than it takes.** -/
theorem held_le_leakAddColumn : held s x ≤ held (leakAddColumn s a).1 x := by
  rcases leakAddColumn_cases s a with ⟨-, heq⟩ | ⟨-, -, heq⟩ | ⟨-, -, heq | heq⟩
  · rw [heq]
  · rw [heq]
    refine le_trans ?_ (held_leakVector_ge x)
    rw [held_fix]
    split_ifs <;> omega
  · rw [heq, held_fix, held_fix]
    split_ifs <;> omega
  · rw [heq]
    refine le_trans ?_ (held_leakVector_ge x)
    rw [held_fix, held_fix, held_fix]
    split_ifs <;> omega

/-- **A call takes as many references as its finaliser releases**, of the same BATs, exactly if it
is `Kept`. -/
theorem held_leakAddColumn_eq_iff :
    (∀ x, held (leakAddColumn s a).1 x = held s x) ↔ Kept s.init a := by
  rcases leakAddColumn_cases s a with ⟨hfound, heq⟩ | ⟨hfound, hview, heq⟩ | ⟨hfound, hview, -⟩
  · exact iff_of_true (fun x => by rw [heq]) (.inl hfound)
  · rw [heq]
    by_cases hreg : Registered s.init a
    · refine iff_of_true (fun x => ?_) (.inr ⟨hview, hreg⟩)
      rw [held_leakVector_of_registered (s := s.fix a.bid) hreg, held_fix]
      ring
    -- an exit that does not register a vector keeps the reference
    refine iff_of_false (fun h => ?_) fun hkept => ?_
    · have hbid := h a.bid
      rw [held_leakVector_of_not (s := s.fix a.bid) hreg, held_fix] at hbid
      omega
    · rcases hkept with hf | ⟨-, hr⟩
      · exact absurd hf (by simp [hfound])
      · exact hreg hr
  · refine iff_of_false (fun h => (held_copy_lt hfound hview).ne' (h a.copy)) fun hkept => ?_
    rcases hkept with hf | ⟨hv, -⟩
    · exact absurd hf (by simp [hfound])
    · exact absurd hv (by simp [hview])

theorem held_destroyBat {bid : ℕ} (h : bid ∈ s.finalizers) (x : ℕ) :
    held (destroyBat s bid) x = held s x := by
  change update s.refs bid (s.refs bid - 1) x - ((s.finalizers.erase bid).count x : ℕ) =
    s.refs x - (s.finalizers.count x : ℕ)
  rw [update_apply, count_erase]
  by_cases hx : x = bid
  · subst hx
    have hpos : 0 < s.finalizers.count x := count_pos_iff.mpr h
    rw [if_pos (beq_self_eq_true x)]
    omega
  · rw [if_neg hx, if_neg fun h => hx (beq_iff_eq.mp h).symm, Nat.sub_zero]

theorem init_leakVector : (leakVector s a).1.init = s.init := by
  rw [leakVector]
  split_ifs <;> rfl

theorem init_leakAddColumn : (leakAddColumn s a).1.init = s.init := by
  rcases leakAddColumn_cases s a with ⟨-, heq⟩ | ⟨-, -, heq⟩ | ⟨-, -, heq | heq⟩
  · rw [heq]
  · rw [heq, init_leakVector]
    rfl
  · rw [heq]
    rfl
  · rw [heq, init_leakVector]
    rfl

end Calls

/-! ## Sequences of calls and finalisations -/

/-- A column is added, or R runs a finaliser. -/
inductive Event
  | add (a : ColumnArgs)
  | finalize (bid : ℕ)

/-- R runs each finaliser that was registered once. -/
inductive EventStep : Leaked → Event → Leaked → Prop
  | add (s : Leaked) (a : ColumnArgs) : EventStep s (.add a) (leakAddColumn s a).1
  | finalize {s : Leaked} {bid : ℕ} : bid ∈ s.finalizers →
      EventStep s (.finalize bid) (destroyBat s bid)

open Runs in
/-- What is held only grows, and it does not grow exactly if every call is kept. -/
theorem held_trace {s s' : Leaked} {tr : List (Leaked × Event)} (h : Trace EventStep s tr s') :
    s'.init = s.init ∧ (∀ x, held s x ≤ held s' x) ∧
      ((∀ x, held s' x = held s x) ↔ ∀ t ∈ tr, ∀ a, t.2 = .add a → Kept s.init a) := by
  induction h with
  | nil s =>
    exact ⟨rfl, fun _ => le_rfl, iff_of_true (fun _ => rfl) fun _ ht => absurd ht not_mem_nil⟩
  | @cons s s₁ s₂ e tr hstep _ ih =>
    obtain ⟨hinit, hle, hiff⟩ := ih
    cases hstep with
    | add a =>
      refine ⟨hinit.trans init_leakAddColumn, fun x => (held_le_leakAddColumn x).trans (hle x), ?_⟩
      rw [init_leakAddColumn] at hiff
      constructor
      · intro h
        -- what is held is never released, so nothing may be added to it at any step
        have hfirst : ∀ x, held (leakAddColumn s a).1 x = held s x := fun x =>
          le_antisymm (h x ▸ hle x) (held_le_leakAddColumn x)
        have hrest := hiff.mp fun x => (h x).trans (hfirst x).symm
        intro t ht a' ha'
        rcases mem_cons.mp ht with rfl | ht
        · obtain rfl := Event.add.inj ha'
          exact held_leakAddColumn_eq_iff.mp hfirst
        · exact hrest t ht a' ha'
      · intro h x
        have hfirst := held_leakAddColumn_eq_iff.mpr (h _ (mem_cons_self ..) a rfl) x
        exact (hiff.mpr (fun t ht => h t (mem_cons_of_mem _ ht)) x).trans hfirst
    | finalize hmem =>
      refine ⟨hinit, fun x => (held_destroyBat hmem x).symm.le.trans (hle x), ?_⟩
      constructor
      · intro h t ht a' ha'
        rcases mem_cons.mp ht with rfl | ht
        · cases ha'
        · exact hiff.mp (fun x => (h x).trans (held_destroyBat hmem x).symm) t ht a' ha'
      · intro h x
        have hrest := hiff.mpr fun t ht => h t (mem_cons_of_mem _ ht)
        exact (hrest x).trans (held_destroyBat hmem x)

/-- A column of a view that can be handed over. -/
def viewColumn : ColumnArgs := ⟨1, "int", true, true, 2, by decide, true, true, true⟩

/-- A column of a BAT of its own. -/
def baseColumn : ColumnArgs := ⟨1, "int", true, false, 2, by decide, true, true, true⟩

end MonetInR.Leak
