import Mathlib.Data.List.Infix

/-!
# Matching of LIKE patterns

`STRlike` walks over pattern and string together, and tries every rest of the string behind a
percent.  When the string is used up it looks for one percent at the end of the pattern.

A pattern that is a sequence of keywords, each with a percent behind it, is matched without going
back: `re_match_no_ignore` searches the keywords one after the other, and gives up when the string
is used up before the last one.

## Main definitions

* `Leaves`: a string is used up by the first part of a pattern
* `Like`: the language of a pattern
* `re_simple`, `re_create`, `re_match_no_ignore`: the keywords of a pattern

## Main results

* `STRlike_iff_like`: when `STRlike` tells whether a string is in the language
* `re_match_iff_like`: when the search for keywords does
-/

namespace MonetInR.Str

open List

/-! ## Patterns -/

/-- The string `s` can be used up by the first part of the pattern `p`, so that `q` is left. -/
inductive Leaves (esc : Option Char) : List Char → List Char → List Char → Prop
  | done {q} : Leaves esc q [] q
  | escaped {e c p s q} : esc = some e → Leaves esc p s q → Leaves esc (e :: c :: p) (c :: s) q
  | one {x p s q} : esc ≠ some '_' → Leaves esc p s q → Leaves esc ('_' :: p) (x :: s) q
  | many {x p s t q} : esc ≠ some '%' → t <:+ x :: s → Leaves esc p t q →
      Leaves esc ('%' :: p) (x :: s) q
  | char {c p s q} : esc ≠ some c → c ≠ '_' → c ≠ '%' → Leaves esc p s q →
      Leaves esc (c :: p) (c :: s) q

/-- **The language of a pattern**: what is left at the end of the string stands for nothing. -/
def Like (esc : Option Char) (pat s : List Char) : Prop :=
  ∃ q, Leaves esc pat s q ∧ ∀ c ∈ q, c = '%' ∧ esc ≠ some '%'

/-! ## The matcher -/

/-- `STRlike`.  The loop goes on with the recursion at the end of a branch. -/
def STRlike (esc : Option Char) : List Char → List Char → Bool
  | [], t => t.isEmpty
  | c :: p, [] => c == '%' && p.isEmpty
  | c :: p, x :: t =>
    if esc = some c then
      match p with
      | [] => false
      | c' :: p => x == c' && STRlike esc p t
    else if c = '_' then STRlike esc p t
    else if c = '%' then
      let p' := p.dropWhile (· == '%')
      p'.isEmpty || (x :: t).tails.any fun t => !t.isEmpty && STRlike esc p' t
    else x == c && STRlike esc p t
termination_by p => p.length
decreasing_by
  · exact Nat.lt_succ_of_lt (Nat.lt_succ_self _)
  · exact Nat.lt_succ_self _
  · exact Nat.lt_succ_of_le (dropWhile_sublist _).length_le
  · exact Nat.lt_succ_self _

variable {esc : Option Char} {s t p q k : List Char} {x c e : Char}

theorem leaves_nil : Leaves esc p [] q ↔ p = q := by
  constructor
  · rintro ⟨⟩
    rfl
  · rintro rfl
    exact .done

theorem leaves_escaped (he : esc = some e) :
    Leaves esc (e :: c :: p) (x :: s) q ↔ x = c ∧ Leaves esc p s q := by
  constructor
  · intro h
    cases h with
    | escaped _ h => exact ⟨rfl, h⟩
    | one hn | many hn | char hn => exact absurd he hn
  · rintro ⟨rfl, h⟩
    exact .escaped he h

theorem leaves_one (he : esc ≠ some '_') :
    Leaves esc ('_' :: p) (x :: s) q ↔ Leaves esc p s q := by
  constructor
  · intro h
    cases h with
    | escaped he' => exact absurd he' he
    | one _ h => exact h
    | char _ hc => exact absurd rfl hc
  · exact .one he

theorem leaves_many (he : esc ≠ some '%') :
    Leaves esc ('%' :: p) (x :: s) q ↔ ∃ t, t <:+ x :: s ∧ Leaves esc p t q := by
  constructor
  · intro h
    cases h with
    | escaped he' => exact absurd he' he
    | many _ ht h => exact ⟨_, ht, h⟩
    | char _ _ hc => exact absurd rfl hc
  · exact fun ⟨t, ht, h⟩ => .many he ht h

theorem leaves_char (he : esc ≠ some c) (h1 : c ≠ '_') (h2 : c ≠ '%') :
    Leaves esc (c :: p) (x :: s) q ↔ x = c ∧ Leaves esc p s q := by
  constructor
  · intro h
    cases h with
    | escaped he' => exact absurd he' he
    | one => exact absurd rfl h1
    | many => exact absurd rfl h2
    | char _ _ _ h => exact ⟨rfl, h⟩
  · rintro ⟨rfl, h⟩
    exact .char he h1 h2 h

/-- What the code takes a pattern to stand for: at the end of the string it looks for a single
percent, and does not ask whether this is the escape character. -/
def Accepts (esc : Option Char) (p s : List Char) : Prop := ∃ q, q <+: ['%'] ∧ Leaves esc p s q

theorem accepts_nil : Accepts esc p [] ↔ p <+: ['%'] := by
  simp [Accepts, leaves_nil]

theorem accepts_char (he : esc ≠ some c) (h1 : c ≠ '_') (h2 : c ≠ '%') :
    Accepts esc (c :: p) (x :: s) ↔ x = c ∧ Accepts esc p s := by
  simp only [Accepts, leaves_char he h1 h2, and_left_comm, exists_and_left]

theorem accepts_many (he : esc ≠ some '%') :
    Accepts esc ('%' :: p) (x :: s) ↔ ∃ t, t <:+ x :: s ∧ Accepts esc p t := by
  simp only [Accepts, leaves_many he]
  constructor
  · exact fun ⟨q, hq, t, ht, h⟩ => ⟨t, ht, q, hq, h⟩
  · exact fun ⟨t, ht, q, hq, h⟩ => ⟨q, hq, t, ht, h⟩

/-- The percents that the code skips make no difference. -/
theorem accepts_percents (he : esc ≠ some '%') : Accepts esc ('%' :: p) (x :: s) ↔
    p.dropWhile (· == '%') = [] ∨
      ∃ t, t <:+ x :: s ∧ t ≠ [] ∧ Accepts esc (p.dropWhile (· == '%')) t := by
  rw [accepts_many he]
  induction p generalizing x s with
  | nil => exact iff_of_true ⟨[], nil_suffix, accepts_nil.mpr nil_prefix⟩ (.inl rfl)
  | cons c p ih =>
    by_cases hc : c = '%'
    -- a second percent sign adds nothing
    · subst hc
      rw [dropWhile_cons_of_pos rfl, ← ih]
      constructor
      · rintro ⟨t, ht, h⟩
        cases t with
        | nil =>
          rw [accepts_nil, cons_prefix_cons] at h
          exact ⟨[], nil_suffix, accepts_nil.mpr (h.2.trans nil_prefix)⟩
        | cons y t =>
          obtain ⟨u, hu, h⟩ := (accepts_many he).mp h
          exact ⟨u, hu.trans ht, h⟩
      · exact fun h => ⟨_, suffix_rfl, (accepts_many he).mpr h⟩
    · rw [dropWhile_cons_of_neg (by simpa using hc), or_iff_right (cons_ne_nil _ _)]
      refine exists_congr fun t => and_congr_right fun _ => (and_iff_right_of_imp ?_).symm
      rintro h rfl
      rw [accepts_nil, cons_prefix_cons] at h
      exact hc h.1

theorem STRlike_iff_accepts : STRlike esc p s = true ↔ Accepts esc p s := by
  fun_induction STRlike esc p s with
  | case1 t =>
    cases t with
    | nil => exact iff_of_true rfl (accepts_nil.mpr nil_prefix)
    | cons => exact iff_of_false Bool.false_ne_true fun ⟨q, hq, h⟩ => nomatch h
  | case2 c p => simp [accepts_nil, cons_prefix_cons]
  | case3 c x t he =>
    refine iff_of_false Bool.false_ne_true ?_
    rintro ⟨q, hq, h⟩
    cases h with
    | one hn | many hn | char hn => exact hn he
  | case4 c x t he c' p ih =>
    simp only [Accepts, leaves_escaped he, Bool.and_eq_true, beq_iff_eq, ih, and_left_comm,
      exists_and_left]
  | case5 p x t he ih => simp only [Accepts, leaves_one he, ih]
  | case6 p x t p' he _ ih =>
    refine Iff.trans ?_ (accepts_percents he).symm
    simp only [Bool.or_eq_true, List.isEmpty_iff, any_eq_true, mem_tails, Bool.and_eq_true,
      Bool.not_eq_true', isEmpty_eq_false_iff, ih, p']
  | case7 c p x t he h1 h2 ih =>
    rw [accepts_char he h1 h2, Bool.and_eq_true, beq_iff_eq, ih]

/-- If the string can be used up with two or more percents left, then also with at most one.  A
percent that is the escape character must not be left. -/
def Told (esc : Option Char) (p s : List Char) : Prop :=
  if esc = some '%' then Leaves esc p s ['%'] → Leaves esc p s []
  else (∃ k, Leaves esc p s (replicate (k + 2) '%')) → Leaves esc p s [] ∨ Leaves esc p s ['%']

theorem accepts_iff_like : (Accepts esc p s ↔ Like esc p s) ↔ Told esc p s := by
  have hacc : Accepts esc p s ↔ Leaves esc p s [] ∨ Leaves esc p s ['%'] := by
    simp [Accepts, prefix_cons_iff]
  rw [hacc, Like, Told]
  split_ifs with he
  · have hlike : (∃ q, Leaves esc p s q ∧ ∀ c ∈ q, c = '%' ∧ esc ≠ some '%') ↔
        Leaves esc p s [] := by
      simp [he, ← eq_nil_iff_forall_not_mem]
    rw [hlike]
    exact ⟨fun h hq => h.mp (.inr hq), fun h => ⟨fun hq => hq.elim id h, .inl⟩⟩
  · have hlike : (∃ q, Leaves esc p s q ∧ ∀ c ∈ q, c = '%' ∧ esc ≠ some '%') ↔
        ∃ k, Leaves esc p s (replicate k '%') := by
      constructor
      · rintro ⟨q, h, hq⟩
        exact ⟨_, eq_replicate_of_mem (fun c hc => (hq c hc).1) ▸ h⟩
      · exact fun ⟨k, h⟩ => ⟨_, h, fun c hc => ⟨eq_of_mem_replicate hc, he⟩⟩
    rw [hlike]
    constructor
    · exact fun h ⟨k, hk⟩ => h.mpr ⟨_, hk⟩
    refine fun h => ⟨?_, ?_⟩
    · rintro (h0 | h1)
      · exact ⟨0, h0⟩
      · exact ⟨1, h1⟩
    -- the code takes one percent sign that is left over, but not two
    · rintro ⟨_ | _ | k, hk⟩
      · exact .inl hk
      · exact .inr hk
      · exact h ⟨k, hk⟩

/-- **`STRlike` tells whether a string is in the language** exactly under `Told`: at the end of the
string it passes over one percent of the pattern, and not over several. -/
theorem STRlike_iff_like (esc : Option Char) (pat s : List Char) :
    (STRlike esc pat s = true ↔ Like esc pat s) ↔ Told esc pat s := by
  rw [STRlike_iff_accepts]
  exact accepts_iff_like

/-- `a` is like `a%%`. -/
theorem STRlike_two_percents :
    STRlike none ['a', '%', '%'] ['a'] = false ∧ Like none ['a', '%', '%'] ['a'] := by
  refine ⟨by simp [STRlike], ['%', '%'], .char nofun (by decide) (by decide) .done, by simp⟩

/-! ## Keywords -/

/-- `RE`: a keyword, and whether it is searched for. -/
structure RE where
  k : List Char
  search : Bool

/-- `re_simple`: the number of keywords, or zero if the pattern is not a sequence of them. -/
def re_simple (pat : List Char) : ℕ :=
  let s := if pat.head? = some '%' then pat.tail else pat
  if '_' ∈ s then 0 else if pat.getLast? ≠ some '%' then 0 else s.count '%'

/-- The loop of `re_create`.  There is a percent for each of the `nr` keywords. -/
def re_keywords : ℕ → Bool → List Char → List RE
  | 0, _, _ => []
  | nr + 1, search, p =>
    ⟨p.takeWhile (· != '%'), search⟩ :: re_keywords nr true (p.dropWhile (· != '%')).tail

def re_create (pat : List Char) (nr : ℕ) : List RE :=
  if pat.head? = some '%' then re_keywords nr true pat.tail else re_keywords nr false pat

/-- `strstr`: the first suffix that starts with `k`. -/
def strstr (k : List Char) : List Char → Option (List Char)
  | [] => if k = [] then some [] else none
  | x :: s => if k <+: x :: s then some (x :: s) else strstr k s

def re_match_no_ignore : List Char → List RE → Bool
  | _, [] => true
  | s, r :: rs =>
    if s.isEmpty then false
    else if r.search then
      match strstr r.k s with
      | none => false
      | some s => re_match_no_ignore (s.drop r.k.length) rs
    else r.k.isPrefixOf s && re_match_no_ignore (s.drop r.k.length) rs

/-- A percent takes more of a longer string. -/
theorem Accepts.of_suffix (h : Accepts none ('%' :: p) t) (ht : t <:+ s) :
    Accepts none ('%' :: p) s := by
  cases s with
  | nil => rwa [← suffix_nil.mp ht]
  | cons x s =>
    rw [accepts_many (Option.some_ne_none _).symm]
    cases t with
    | nil =>
      rw [accepts_nil, cons_prefix_cons] at h
      exact ⟨[], nil_suffix, accepts_nil.mpr (h.2.trans nil_prefix)⟩
    | cons y t =>
      obtain ⟨u, hu, h⟩ := (accepts_many (Option.some_ne_none _).symm).mp h
      exact ⟨u, hu.trans ht, h⟩

theorem accepts_keyword (h1 : '_' ∉ k) (h2 : '%' ∉ k) :
    Accepts none (k ++ '%' :: p) s ↔ ∃ t, s = k ++ t ∧ Accepts none ('%' :: p) t := by
  induction k generalizing s with
  | nil => simp
  | cons c k ih =>
    rw [mem_cons, not_or] at h1 h2
    cases s with
    | nil => simp [accepts_nil, cons_prefix_cons, Ne.symm h2.1]
    | cons x s =>
      rw [cons_append, accepts_char (Option.some_ne_none _).symm (Ne.symm h1.1) (Ne.symm h2.1),
        ih h1.2 h2.2]
      simp [and_assoc]

theorem strstr_suffix (h : strstr k s = some t) : t <:+ s ∧ k <+: t := by
  induction s with
  | nil =>
    rw [strstr, Option.ite_none_right_eq_some, Option.some.injEq] at h
    obtain ⟨rfl, rfl⟩ := h
    exact ⟨suffix_rfl, prefix_rfl⟩
  | cons x s ih =>
    rw [strstr] at h
    split_ifs at h with hk
    · obtain rfl := Option.some.inj h
      exact ⟨suffix_rfl, hk⟩
    · exact ⟨(ih h).1.trans (suffix_cons x s), (ih h).2⟩

theorem strstr_first (ht : t <:+ s) (hk : k <+: t) : ∃ u, strstr k s = some u ∧ t <:+ u := by
  induction s with
  | nil =>
    obtain rfl := suffix_nil.mp ht
    exact ⟨[], if_pos (prefix_nil.mp hk), suffix_rfl⟩
  | cons x s ih =>
    rw [strstr]
    split_ifs with hx
    · exact ⟨_, rfl, ht⟩
    · rcases suffix_cons_iff.mp ht with rfl | ht
      · exact absurd hk hx
      · exact ih ht

theorem re_keywords_succ (nr : ℕ) (b : Bool) (h2 : '%' ∉ k) :
    re_keywords (nr + 1) b (k ++ '%' :: p) = ⟨k, b⟩ :: re_keywords nr true p := by
  have hk : ∀ c ∈ k, (c != '%') = true := fun c hc => bne_iff_ne.mpr (ne_of_mem_of_not_mem hc h2)
  simp [re_keywords, takeWhile_append_of_pos hk, dropWhile_append_of_pos hk]

theorem getLast?_behind (h : (k ++ '%' :: p).getLast? = some '%') :
    p = [] ∨ p.getLast? = some '%' := by
  cases p with
  | nil => exact .inl rfl
  | cons c p => simpa using h

theorem re_match_iff_accepts {nr : ℕ} (hnr : p.count '%' = nr) (h1 : '_' ∉ p)
    (hlast : p = [] ∨ p.getLast? = some '%') :
    re_match_no_ignore s (re_keywords nr true p) = true ↔ Accepts none ('%' :: p) s := by
  induction nr generalizing p s with
  | zero =>
    have hp : p = [] := hlast.resolve_right fun h =>
      absurd (mem_of_mem_getLast? h) (count_eq_zero.mp hnr)
    subst hp
    exact iff_of_true rfl (.of_suffix (accepts_nil.mpr prefix_rfl) nil_suffix)
  | succ nr ih =>
    have hmem : '%' ∈ p := count_pos_iff.mp (by omega)
    obtain ⟨k, p, rfl, h2⟩ := eq_append_cons_of_mem hmem
    have hk := count_eq_zero.mpr h2
    rw [count_append, count_cons_self, hk] at hnr
    rw [mem_append, mem_cons, not_or, not_or] at h1
    have ih := fun s => @ih s p (by omega) h1.2.2 (getLast?_behind (hlast.resolve_left (by simp)))
    rw [re_keywords_succ _ _ h2, re_match_no_ignore]
    cases s with
    | nil => simp [accepts_nil, cons_prefix_cons]
    | cons x s =>
      rw [accepts_many (Option.some_ne_none _).symm]
      simp only [accepts_keyword h1.1 h2, isEmpty_cons, Bool.false_eq_true, if_false, if_true]
      constructor
      · intro h
        cases hstr : strstr k (x :: s) with
        | none => simp [hstr] at h
        | some t =>
          obtain ⟨ht, u, rfl⟩ := strstr_suffix hstr
          rw [hstr] at h
          dsimp only at h
          rw [drop_left] at h
          exact ⟨_, ht, u, rfl, (ih u).mp h⟩
      · -- the first occurrence leaves more of the string than any other one
        rintro ⟨_, ht, u, rfl, h⟩
        obtain ⟨t, hstr, htu⟩ := strstr_first ht (prefix_append k u)
        obtain ⟨hts, v, rfl⟩ := strstr_suffix hstr
        rw [hstr]
        dsimp only
        rw [drop_left, ih]
        refine h.of_suffix (suffix_of_suffix_length_le ((suffix_append k u).trans htu)
          (suffix_append k v) ?_)
        have := htu.length_le
        simpa using this

theorem re_simple_pos (h : 0 < re_simple p) :
    '_' ∉ (if p.head? = some '%' then p.tail else p) ∧ p.getLast? = some '%' ∧
      re_simple p = (if p.head? = some '%' then p.tail else p).count '%' := by
  rw [re_simple] at h ⊢
  by_cases h1 : '_' ∈ (if p.head? = some '%' then p.tail else p)
  · rw [if_pos h1] at h
    omega
  by_cases hlast : p.getLast? = some '%'
  · rw [if_neg h1, if_neg (not_not.mpr hlast)]
    exact ⟨h1, hlast, rfl⟩
  · rw [if_neg h1, if_pos hlast] at h
    omega

theorem re_create_iff_accepts (h : 0 < re_simple p) :
    re_match_no_ignore s (re_create p (re_simple p)) = true ↔ Accepts none p s := by
  obtain ⟨h1, hlast, hnr⟩ := re_simple_pos h
  rw [re_create]
  by_cases hp : p.head? = some '%'
  · rw [if_pos hp] at h1 hnr ⊢
    obtain ⟨p, rfl⟩ := head?_eq_some_iff.mp hp
    exact re_match_iff_accepts hnr.symm h1 (getLast?_behind (k := []) hlast)
  rw [if_neg hp] at h1 hnr ⊢
  obtain ⟨k, p, rfl, h2⟩ := eq_append_cons_of_mem (count_pos_iff.mp (hnr ▸ h))
  rw [mem_append, mem_cons, not_or, not_or] at h1
  rw [hnr, count_append, count_cons_self, count_eq_zero.mpr h2, Nat.zero_add,
    re_keywords_succ _ _ h2, re_match_no_ignore, accepts_keyword h1.1 h2]
  have hk : k ≠ [] := by
    rintro rfl
    exact hp rfl
  have hrest := fun s => @re_match_iff_accepts s p _ rfl h1.2.2 (getLast?_behind hlast)
  cases s with
  | nil => simp [hk]
  | cons x s =>
    simp only [isEmpty_cons, Bool.false_eq_true, if_false, Bool.and_eq_true,
      isPrefixOf_iff_prefix, hrest]
    constructor
    · rintro ⟨⟨t, ht⟩, h⟩
      rw [← ht, drop_left] at h
      exact ⟨t, ht.symm, h⟩
    · rintro ⟨t, ht, h⟩
      rw [ht, drop_left]
      exact ⟨prefix_append k t, h⟩

/-- **The fast path** also tells whether a string is in the language, under the same condition. -/
theorem re_match_iff_like (pat s : List Char) (h : 0 < re_simple pat) :
    (re_match_no_ignore s (re_create pat (re_simple pat)) = true ↔ Like none pat s) ↔
      Told none pat s := by
  rw [re_create_iff_accepts h]
  exact accepts_iff_like

theorem re_match_iff_like_ab : Told none ['a', '%'] ['a', 'b'] :=
  (re_match_iff_like _ _ (by decide)).mp
    (iff_of_true (by decide) ⟨[], .char nofun (by decide) (by decide)
      (.many nofun nil_suffix .done), by simp⟩)

/-- `a` is like `a%%`, which is a keyword and an empty one. -/
theorem re_match_two_percents : 0 < re_simple ['a', '%', '%'] ∧
    re_match_no_ignore ['a'] (re_create ['a', '%', '%'] (re_simple ['a', '%', '%'])) = false ∧
      Like none ['a', '%', '%'] ['a'] :=
  ⟨by decide, by decide, ['%', '%'], .char nofun (by decide) (by decide) .done, by simp⟩

end MonetInR.Str
