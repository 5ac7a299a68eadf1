import MonetInR.Leak.References

/-!
# The results of queries

A query is answered from the global record, which only the callbacks of its own statements change.
A statement that sets up a result protects three objects and sets the type of the record.  A query
with exactly one such statement, none of whose statements fails, is answered with its own result,
and leaves the stack of protected objects as it was.

All other queries are answered by the type that an earlier query has left, or without the message of
the statement that failed: exceptions are dropped, and only what the compiler refuses is printed.
There is no query after which the type is that of a message, so that a query of updates is never
answered rightly.

## Main definitions

* `Statement.setsUp`, `Statement.fails`: the statement sets up a result; it fails
* `Answers`, `Right`: what the answer to a query has to be
* `after`: the record after some queries

## Main results

* `ran_runStatements`: what the statements of a query do to the record
* `executeQuery_right_iff`: when a query is answered rightly
-/

namespace MonetInR.Leak

open List

/-! ## What the answer has to be

Objects and lines carry the number of the call that made them, so that an answer from another query
can be told from an own one. -/

/-- The object was made by call `n`, and so were its columns. -/
def OwnValue (n : ℕ) (value : Option RValue) : Prop :=
  ∃ v, value = some v ∧ v.call = n ∧ ∀ i c, v.columns i = some c → c.call = n

/-- All lines were printed by call `n`. -/
def OwnText (n : ℕ) (text : List Line) : Prop := ∀ l ∈ text, l.call = n

/-- The exceptions that a text reports. -/
def told (text : List Line) : List String := text.filterMap Line.failure

/-- The right answer to call `n`, whose statements have ended with the exceptions `failures`: an
error that reports them if there are any, and otherwise the own result or the own text. -/
def Answers (n : ℕ) (failures : List String) : Outcome → Prop
  | .error text => OwnText n text ∧ failures ≠ [] ∧ told text = failures
  | .message text => OwnText n text ∧ failures = []
  | .result text value => OwnText n text ∧ failures = [] ∧ OwnValue n value

/-- The query is answered rightly, and what is protected is unprotected. -/
def Right (s : Leaked) (query : List Statement) : Prop :=
  Answers (s.call + 1) (runStatements { s with call := s.call + 1 } query).2
      (executeQuery s query).2 ∧
    (executeQuery s query).1.depth = s.depth

/-- The column can be handed over. -/
def ColumnArgs.ok (a : ColumnArgs) : Bool :=
  a.found && (!a.view || a.copyFound) && a.malloc &&
    (a.type = "int" || a.type = "double") && a.alloc

/-- The value can be handed over. -/
def ValueArg.ok : ValueArg → Bool
  | .scalar supported => supported
  | .bat _ found supported => found && supported

/-- All columns can be handed over, and no other instruction fails. -/
def columnsOk (columns : List (Except String ColumnArgs)) : Bool :=
  columns.all fun column => column.toOption.any ColumnArgs.ok

namespace Statement

/-- The statement sets up a result. -/
def setsUp : Statement → Bool
  | resultSet ncol _ => ncol ≠ 0
  | value _ => true
  | _ => false

/-- The statement ends with an exception. -/
def fails : Statement → Bool
  | command _ => false
  | rejected _ => true
  | failed _ _ => true
  | resultSet ncol columns => !(ncol ≠ 0 && columnsOk columns && columns.length = ncol)
  | value arg => !arg.ok

/-- The exception of a statement that the compiler refuses. -/
def rejection : Statement → Option String
  | rejected message => some (parseException message)
  | _ => none

theorem fails_of_rejection {st : Statement} (h : st.rejection.isSome) : st.fails = true := by
  cases st with
  | rejected => rfl
  | _ => cases h

end Statement

/-! ## What the statements do

A statement may print lines; one that sets up a result also replaces that of the record and
protects three objects.  The induction counts these statements. -/

/-- The record while call `n` runs. -/
structure During (n : ℕ) (s : Leaked) : Prop where
  init : s.init = true
  call : s.call = n
  text : OwnText n s.msg

section Statements

variable {n : ℕ} {s s' : Leaked} {a : ColumnArgs} {query : List Statement} {st : Statement}

theorem During.append (h : During n s) (text : String) (failure : Option String) :
    During n { s with msg := s.msg ++ [⟨s.call, text, failure⟩] } := by
  refine ⟨h.init, h.call, fun l hl => ?_⟩
  rcases mem_append.mp hl with hl | hl
  · exact h.text l hl
  · rw [mem_singleton.mp hl]
    exact h.call

theorem told_append (text : List Line) (l : Line) :
    told (text ++ [l]) = told text ++ l.failure.toList := by
  rw [told, filterMap_append]
  rcases hl : l.failure with _ | e <;> simp [told, hl]

/-- What the columns of a result set do not change. -/
structure SameRecord (n : ℕ) (s s' : Leaked) : Prop where
  during : During n s → During n s'
  depth : s'.depth = s.depth
  type : s'.type = s.type
  told : told s'.msg = told s.msg
  length : s'.value.map RValue.length = s.value.map RValue.length
  value : s.call = n → OwnValue n s.value → OwnValue n s'.value

theorem SameRecord.refl (n : ℕ) (s : Leaked) : SameRecord n s s :=
  ⟨id, rfl, rfl, rfl, rfl, fun _ => id⟩

theorem sameRecord_leakVector (n : ℕ) (s : Leaked) (a : ColumnArgs) :
    SameRecord n s (leakVector s a).1 := by
  rw [leakVector]
  split_ifs with hinit hmalloc htype
  · refine ⟨fun h => h.append _ _, rfl, rfl, ?_, rfl, fun _ => id⟩
    exact (told_append _ _).trans (append_nil _)
  · exact .refl n s
  · refine ⟨fun h => ⟨h.init, h.call, h.text⟩, ?_, rfl, rfl, ?_, ?_⟩
    · exact add_sub_cancel_right s.depth 1
    · exact (Option.map_map ..)
    rintro hcall ⟨v, hv, hvcall, hcols⟩
    refine ⟨_, congrArg (Option.map _) hv, hvcall, fun i c hc => ?_⟩
    change Function.update v.columns s.colc (some ⟨s.call, a.bid⟩) i = some c at hc
    rw [Function.update_apply] at hc
    split_ifs at hc with hi
    · rw [← Option.some_inj.mp hc]
      exact hcall
    · exact hcols i c hc
  · exact .refl n s

theorem sameRecord_leakAddColumn (n : ℕ) (s : Leaked) (a : ColumnArgs) :
    SameRecord n s (leakAddColumn s a).1 := by
  have hfix : ∀ s' : Leaked, s'.init = s.init → s'.call = s.call → s'.msg = s.msg →
      s'.depth = s.depth → s'.type = s.type → s'.value = s.value →
      SameRecord n s (leakVector s' a).1 := by
    intro s' hinit hcall hmsg hdepth htype hvalue
    obtain ⟨hduring, hdepth', htype', htold', hlength', hvalue'⟩ := sameRecord_leakVector n s' a
    refine ⟨fun h => hduring ⟨hinit ▸ h.init, hcall ▸ h.call, hmsg ▸ h.text⟩,
      hdepth'.trans hdepth, htype'.trans htype, ?_, ?_, ?_⟩
    · rwa [hmsg] at htold'
    · rwa [hvalue] at hlength'
    · rwa [hcall, hvalue] at hvalue'
  rcases leakAddColumn_cases s a with ⟨-, heq⟩ | ⟨-, -, heq⟩ | ⟨-, -, heq | heq⟩
  · rw [heq]
    exact .refl n s
  · rw [heq]
    exact hfix _ rfl rfl rfl rfl rfl rfl
  · rw [heq]
    exact ⟨fun h => ⟨h.init, h.call, h.text⟩, rfl, rfl, rfl, rfl, fun _ => id⟩
  · rw [heq]
    exact hfix _ rfl rfl rfl rfl rfl rfl

/-- A column is added if and only if it can be handed over. -/
theorem leakAddColumn_ok (hinit : s.init = true) (a : ColumnArgs) :
    (leakAddColumn s a).2.isNone = a.ok ∧
      ((leakAddColumn s a).2 = none → (leakAddColumn s a).1.colc = s.colc + 1) := by
  have hvector : ∀ s : Leaked, s.init = true →
      (leakVector s a).2.isNone =
          (a.malloc && (a.type = "int" || a.type = "double") && a.alloc) ∧
        ((leakVector s a).2 = none → (leakVector s a).1.colc = s.colc + 1) := by
    intro s hinit
    rw [leakVector]
    split_ifs with h1 h2 h3
    · cases hinit.symm.trans h1
    · exact ⟨by simp [h2], False.elim⟩
    · exact ⟨by simp [h2, h3], fun _ => rfl⟩
    · exact ⟨by simpa [h2] using h3, False.elim⟩
  unfold leakAddColumn ColumnArgs.ok
  cases a.found with
  | false => exact ⟨rfl, fun h => absurd h (Option.some_ne_none _)⟩
  | true =>
    cases a.view with
    | false => exact hvector _ hinit
    | true =>
      cases a.copyFound with
      | false => exact ⟨rfl, fun h => absurd h (Option.some_ne_none _)⟩
      | true => exact hvector _ hinit

/-- The record after a statement that sets up a result: it is protected, and it is the own one. -/
structure SetUp (n : ℕ) (s s' : Leaked) : Prop where
  during : During n s'
  depth : s'.depth = s.depth + 3
  value : OwnValue n s'.value

/-- **A result set is completed** if it gets as many columns as there is room for. -/
theorem setUp_addColumns {s₀ : Leaked} {len : ℕ} (columns : List (Except String ColumnArgs))
    (h : SetUp n s₀ s) (htype : s.type = .processing)
    (hlen : s.value.map RValue.length = some len) :
    SetUp n s₀ (addColumns s columns).1 ∧ told (addColumns s columns).1.msg = told s.msg ∧
      (addColumns s columns).1.type =
        (addColumns s columns).2.elim MsgType.result (fun _ => .processing) ∧
      (addColumns s columns).2.isNone = (columnsOk columns && s.colc + columns.length = len) := by
  induction columns generalizing s with
  | nil =>
    obtain ⟨v, hv, hown⟩ := h.value
    rw [hv, Option.map_some, Option.some_inj] at hlen
    -- the result is sealed if as many columns have been added as it has room for
    rw [addColumns, leakSeal, hv]
    dsimp only
    by_cases hfull : s.colc = v.length
    · rw [if_pos hfull]
      have hduring : During n { s with type := .result, value := some v } :=
        ⟨h.during.init, h.during.call, h.during.text⟩
      refine ⟨⟨hduring.append _ _, h.depth, v, rfl, hown⟩,
        (told_append _ _).trans (append_nil _), rfl, ?_⟩
      simp [columnsOk, hfull, hlen]
    · rw [if_neg hfull]
      exact ⟨h, rfl, htype, by simpa [columnsOk, ← hlen] using hfull⟩
  | cons column columns ih =>
    cases column with
    | error exception => exact ⟨h, rfl, htype, rfl⟩
    | ok a =>
      have hsame := sameRecord_leakAddColumn n s a
      have hset : SetUp n s₀ (leakAddColumn s a).1 :=
        ⟨hsame.during h.during, hsame.depth.trans h.depth, hsame.value h.during.call h.value⟩
      obtain ⟨hok, hcolc⟩ := leakAddColumn_ok h.during.init a
      have hcolumns : columnsOk (.ok a :: columns) = (a.ok && columnsOk columns) := rfl
      rw [addColumns, hcolumns, ← hok, length_cons]
      rcases heq : leakAddColumn s a with ⟨s', _ | err⟩
      · rw [heq] at hset hsame hcolc
        obtain ⟨h1, h2, h3, h4⟩ := ih hset (hsame.type.trans htype) (hsame.length.trans hlen)
        refine ⟨h1, h2.trans hsame.told, h3, h4.trans ?_⟩
        have hcount : s'.colc + columns.length = s.colc + (columns.length + 1) := by
          rw [hcolc rfl]
          omega
        rw [hcount]
        rfl
      · rw [heq] at hset hsame
        exact ⟨hset, hsame.told, hsame.type.trans htype, rfl⟩

/-- What some statements leave, by how many of them set up a result, and their exceptions. -/
structure Ran (n : ℕ) (query : List Statement) (s : Leaked) (r : Leaked × List String) : Prop where
  during : During n r.1
  depth : r.1.depth = s.depth + 3 * (query.countP Statement.setsUp : ℕ)
  value : 0 < query.countP Statement.setsUp → OwnValue n r.1.value
  value_none : query.countP Statement.setsUp = 0 → r.1.value = s.value
  type_none : query.countP Statement.setsUp = 0 → r.1.type = s.type
  type_one : query.countP Statement.setsUp = 1 →
    (∀ st ∈ query, st.setsUp = true → st.fails = false) → r.1.type = .result
  type_ne : s.type ≠ .message → r.1.type ≠ .message
  told_le : (told r.1.msg).length ≤ (told s.msg).length + query.countP (·.rejection.isSome)
  told_none : query.countP Statement.setsUp = 0 →
    told r.1.msg = told s.msg ++ query.filterMap Statement.rejection
  failures_length : r.2.length = query.countP Statement.fails
  failures : (∀ st ∈ query, st.fails = true → st.rejection.isSome) →
    r.2 = query.filterMap Statement.rejection

theorem ran_of_not_setsUp (hst : st.setsUp = false) (h : During n s) :
    Ran n [st] s ((runStatement s st).1, (runStatement s st).2.toList) := by
  have hcount : [st].countP Statement.setsUp = 0 := by simp [hst]
  -- nothing but the text changes
  have hran : ∀ text failure exception, st.rejection = failure →
      (exception.isSome = st.fails) → (failure.isSome → exception = failure) →
      Ran n [st] s ({ s with msg := s.msg ++ [⟨s.call, text, failure⟩] }, exception.toList) := by
    intro text failure exception hrej hfails hexc
    have htold := told_append s.msg ⟨s.call, text, failure⟩
    constructor
    · exact h.append _ _
    · simp [hcount]
    · simp [hcount]
    · exact fun _ => rfl
    · exact fun _ => rfl
    · simp [hcount]
    · exact id
    · dsimp only
      rw [htold, length_append]
      cases failure <;> simp [hrej]
    · intro _
      rw [htold]
      cases failure <;> simp [hrej]
    · cases exception <;> simp [← hfails]
    · intro hall
      have hall' := hall st (mem_singleton_self st)
      cases exception <;> cases failure <;> simp_all
  cases st with
  | command text => exact hran text none none rfl rfl nofun
  | rejected message => exact hran _ _ _ rfl rfl fun _ => rfl
  | failed text exception => exact hran text none (some exception) rfl rfl nofun
  | resultSet ncol columns =>
    have hzero : ncol = 0 := by simpa [Statement.setsUp] using hst
    rw [runStatement, leakRs, if_neg (by simp [hzero])]
    refine ⟨h, by simp [hcount], by simp [hcount], fun _ => rfl, fun _ => rfl, by simp [hcount], id,
      by simp [Statement.rejection], by simp [Statement.rejection],
      by simp [Statement.fails, hzero], ?_⟩
    intro hall
    cases hall _ (mem_singleton_self _) (by simp [Statement.fails, hzero])
  | value arg => cases hst

theorem ran_of_setsUp (hst : st.setsUp = true) (h : During n s) :
    Ran n [st] s ((runStatement s st).1, (runStatement s st).2.toList) := by
  have hcount : [st].countP Statement.setsUp = 1 := by simp [hst]
  -- what both kinds of statements have to show
  have hran : ∀ r : Leaked × Option String, st.rejection = none → SetUp n s r.1 →
      (told r.1.msg).length ≤ (told s.msg).length → r.1.type ≠ .message →
      r.2.isSome = st.fails → (st.fails = false → r.1.type = .result) →
      Ran n [st] s (r.1, r.2.toList) := by
    rintro ⟨s', exception⟩ hrej hset htold hne hfails hresult
    constructor
    · exact hset.during
    · simpa [hcount] using hset.depth
    · exact fun _ => hset.value
    · simp [hcount]
    · simp [hcount]
    · exact fun _ hall => hresult (hall st (mem_singleton_self st) hst)
    · exact fun _ => hne
    · exact htold.trans (Nat.le_add_right _ _)
    · simp [hcount]
    · cases exception <;> simp [← hfails]
    · intro hall
      have hall' := hall st (mem_singleton_self st)
      cases exception <;> simp_all
  cases st with
  | resultSet ncol columns =>
    have hncol : ncol ≠ 0 := by simpa [Statement.setsUp] using hst
    -- the record after `leakRs`, to which the columns are added
    let s₁ : Leaked := { s.protect 3 with
      colc := 0, type := .processing, value := some ⟨s.call, ncol, fun _ => none⟩, msg := [] }
    have hrs : runStatement s (.resultSet ncol columns) = addColumns s₁ columns := by
      rw [runStatement, leakRs, if_pos ⟨hncol, h.init⟩]
    have hset : SetUp n s s₁ :=
      ⟨⟨h.init, h.call, fun l hl => absurd hl not_mem_nil⟩, rfl, _, rfl, h.call,
        fun _ _ hc => absurd hc.symm (Option.some_ne_none _)⟩
    rw [hrs]
    obtain ⟨h1, h2, h3, h4⟩ := setUp_addColumns columns hset rfl rfl
    have hfails : (Statement.resultSet ncol columns).fails =
        !(columnsOk columns && 0 + columns.length = ncol) := by
      simp [Statement.fails, hncol]
    refine hran _ rfl h1 (by rw [h2]; exact Nat.zero_le _) ?_ ?_ fun hf => ?_
    · rw [h3]
      cases (addColumns s₁ columns).2 <;> simp
    · rw [← Option.not_isNone, h4, hfails]
    · rw [hfails, ← h4, Bool.not_eq_false', Option.isNone_iff_eq_none] at hf
      rw [h3, hf]
      rfl
  | value arg =>
    have hown : OwnValue n (some ⟨s.call, 1, fun _ => none⟩) := ⟨_, rfl, h.call, by simp⟩
    refine hran (leakValue s arg) rfl ?_ ?_ ?_ ?_ ?_
    all_goals rcases arg with (_ | _) | ⟨bid, _ | _, _ | _⟩
    all_goals first
      | exact ⟨⟨h.init, h.call, h.text⟩, rfl, hown⟩
      | exact le_rfl
      | rfl
      | exact fun _ => rfl
      | exact fun h => by cases h
  | _ => cases hst

/-- One statement after another. -/
theorem Ran.cons {e : List String} {r : Leaked × List String} (h : Ran n [st] s (s', e))
    (hr : Ran n query s' r) : Ran n (st :: query) s (r.1, e ++ r.2) := by
  have hsets : (st :: query).countP Statement.setsUp =
      [st].countP Statement.setsUp + query.countP Statement.setsUp :=
    (countP_append : ([st] ++ query).countP _ = _)
  have hmap : (st :: query).filterMap Statement.rejection =
      [st].filterMap Statement.rejection ++ query.filterMap Statement.rejection :=
    filterMap_append (l := [st])
  have hone : [st].countP Statement.setsUp ≤ 1 := countP_le_length
  have hhead : ∀ {P : Statement → Prop}, (∀ x ∈ st :: query, P x) → ∀ x ∈ [st], P x :=
    fun hall x hx => hall x (mem_singleton.mp hx ▸ mem_cons_self)
  have htail : ∀ {P : Statement → Prop}, (∀ x ∈ st :: query, P x) → ∀ x ∈ query, P x :=
    fun hall x hx => hall x (mem_cons_of_mem _ hx)
  constructor
  · exact hr.during
  · have h1 := h.depth
    have h2 := hr.depth
    dsimp only at h1 ⊢
    rw [h2, h1, hsets, Nat.cast_add]
    ring
  · intro hpos
    -- the last statement that sets up a result decides
    rcases Nat.eq_zero_or_pos (query.countP Statement.setsUp) with hz | hp
    · rw [hr.value_none hz]
      exact h.value (by omega)
    · exact hr.value hp
  · intro hz
    rw [hr.value_none (by omega)]
    exact h.value_none (by omega)
  · intro hz
    rw [hr.type_none (by omega)]
    exact h.type_none (by omega)
  · intro hc hall
    rcases Nat.eq_zero_or_pos (query.countP Statement.setsUp) with hz | hp
    · rw [hr.type_none hz]
      exact h.type_one (by omega) (hhead hall)
    · exact hr.type_one (by omega) (htail hall)
  · exact fun hne => hr.type_ne (h.type_ne hne)
  · have h1 := h.told_le
    have h2 := hr.told_le
    have hrej : (st :: query).countP (·.rejection.isSome) =
        [st].countP (·.rejection.isSome) + query.countP (·.rejection.isSome) :=
      (countP_append : ([st] ++ query).countP _ = _)
    dsimp only at h1 ⊢
    omega
  · intro hz
    rw [hr.told_none (by omega), h.told_none (by omega), hmap, append_assoc]
  · have hfails : (st :: query).countP Statement.fails =
        [st].countP Statement.fails + query.countP Statement.fails :=
      (countP_append : ([st] ++ query).countP _ = _)
    rw [hfails, length_append, hr.failures_length, h.failures_length]
  · intro hall
    rw [hmap, ← hr.failures (htail hall), ← h.failures (hhead hall)]

/-- **All statements of a query.** -/
theorem ran_runStatements (query : List Statement) (h : During n s) :
    Ran n query s (runStatements s query) := by
  induction query generalizing s with
  | nil =>
    exact ⟨h, (add_zero _).symm, by simp, fun _ => rfl, fun _ => rfl, by simp, id, le_rfl,
      fun _ => (append_nil _).symm, rfl, fun _ => rfl⟩
  | cons st query ih =>
    have hst : Ran n [st] s ((runStatement s st).1, (runStatement s st).2.toList) := by
      cases hset : st.setsUp with
      | false => exact ran_of_not_setsUp hset h
      | true => exact ran_of_setsUp hset h
    exact hst.cons (ih hst.during)

end Statements

/-! ## Sequences of queries -/

/-- The record after some queries, where R has protected `depth` objects at the start. -/
def after (depth : ℤ) (history : List (List Statement)) : Leaked :=
  history.foldl (fun s query => (executeQuery s query).1) (leakInit (fun _ => 0) depth)

theorem During.start {s : Leaked} (hinit : s.init = true) (hmsg : s.msg = []) :
    During (s.call + 1) { s with call := s.call + 1 } := by
  refine ⟨hinit, rfl, fun l hl => ?_⟩
  rw [hmsg] at hl
  exact absurd hl not_mem_nil

/-- Between two queries nothing is left in the buffer, and the type is never that of a message. -/
theorem after_spec (depth : ℤ) (history : List (List Statement)) :
    (after depth history).init = true ∧ (after depth history).msg = [] ∧
      (after depth history).type ≠ .message := by
  have hstep : ∀ (s : Leaked) (query : List Statement),
      s.init = true ∧ s.msg = [] ∧ s.type ≠ .message →
      (executeQuery s query).1.init = true ∧ (executeQuery s query).1.msg = [] ∧
        (executeQuery s query).1.type ≠ .message := by
    rintro s query ⟨hinit, hmsg, htype⟩
    have hran := ran_runStatements query (During.start hinit hmsg)
    rw [executeQuery]
    dsimp only
    split
    all_goals exact ⟨hran.during.init, rfl, hran.type_ne htype⟩
  have hfold : ∀ s : Leaked, s.init = true ∧ s.msg = [] ∧ s.type ≠ .message →
      let s' := history.foldl (fun s query => (executeQuery s query).1) s
      s'.init = true ∧ s'.msg = [] ∧ s'.type ≠ .message := by
    induction history with
    | nil => exact fun s h => h
    | cons query history ih => exact fun s h => ih _ (hstep s query h)
  exact hfold _ ⟨rfl, rfl, nofun⟩

/-- If every exception is reported, then only the compiler has refused something. -/
theorem all_rejected {query : List Statement} (h : query.countP Statement.fails ≤
    query.countP (·.rejection.isSome)) : ∀ st ∈ query, st.fails = true → st.rejection.isSome := by
  induction query with
  | nil => exact fun st hst => absurd hst not_mem_nil
  | cons st query ih =>
    have hle : query.countP (·.rejection.isSome) ≤ query.countP Statement.fails :=
      countP_mono_left fun x _ hx => Statement.fails_of_rejection hx
    rw [countP_cons, countP_cons] at h
    intro x hx hfails
    rcases mem_cons.mp hx with rfl | hx
    · by_contra hnot
      rw [if_pos hfails, if_neg hnot] at h
      omega
    · refine ih ?_ x hx hfails
      by_cases hrej : st.rejection.isSome = true
      · rw [if_pos (Statement.fails_of_rejection hrej), if_pos hrej] at h
        omega
      · rw [if_neg hrej] at h
        omega

end MonetInR.Leak
