import MonetInR.Lib.ByteStore

/-!
# Widening the offsets of a column

A column of variable-sized values keeps offsets into its second heap, in 1, 2, 4 or 8 bytes each.
Offsets of 1 and 2 bytes are kept less `GDK_VAROFFSET`.  `GDKupgradevarheap` widens all offsets in
place, from the back to the front.

## Main definitions

* `VarHeapVal`: the offset an entry stands for
* `GDKupgradevarheap`

## Main results

* `upgradeLoop_decodes`: what the loop leaves
* `upgradevarheap_decodes`: every entry stands for the same offset as before
-/

namespace MonetInR.Gdk

open ByteStore Nat

/-- `GDK_VAROFFSET`: the hash table of 1024 entries at the start of a heap. -/
def varOffset : ℕ := 8192

/-- What is added to an entry of a given width. -/
def bias (width : ℕ) : ℕ := if width = 1 ∨ width = 2 then varOffset else 0

/-- The offset in entry `p`.  `GDK_VARSHIFT` is 0. -/
def VarHeapVal (mem : ℕ → ℕ) (p width : ℕ) : ℕ := loadNum mem (p * width) width + bias width

/-- The parts of a `COLrec` that matter: the width is `2 ^ shift`. -/
structure VarColumn where
  shift : ℕ
  mem : ℕ → ℕ
  free : ℕ
  size : ℕ
  shift_le : shift ≤ 3
  bytes : ∀ p, mem p < 256

def VarColumn.width (c : VarColumn) : ℕ := 2 ^ c.shift

/-- An offset `v`, which is asserted to be at least `GDK_VAROFFSET`, does not fit entries of `width`
bytes. -/
def tooNarrow (v width : ℕ) : Prop :=
  width < 8 ∧ (if width ≤ 2 then v - varOffset else v) ≥ 2 ^ (8 * width)
  deriving Decidable

/-- The loop that doubles the width until `v` fits. -/
def newShift (v : ℕ) : ℕ → ℕ → ℕ
  | 0, shift => shift
  | fuel + 1, shift => if tooNarrow v (2 ^ shift) then newShift v fuel (shift + 1) else shift

/-- What the loops of the switch add to an entry. -/
def added (width width' : ℕ) : ℕ :=
  match width, width' with
  | 1, 2 => 0
  | 1, _ => varOffset
  | 2, _ => varOffset
  | _, _ => 0

/-- The loops of the switch, for the `n` first entries, starting with the last. -/
def upgradeLoop (width width' : ℕ) : ℕ → (ℕ → ℕ) → ℕ → ℕ
  | 0, mem => mem
  | n + 1, mem =>
    upgradeLoop width width' n
      (store mem (n * width') (toBytes width' (loadNum mem (n * width) width + added width width')))

/-- The number of entries that are converted. -/
def entries (c : VarColumn) (copyall : Bool) : ℕ := (if copyall then c.size else c.free) >>> c.shift

/-- A column after its offsets have been widened. -/
structure Widened where
  width : ℕ
  mem : ℕ → ℕ
  free : ℕ
  size : ℕ

/-- Widen the offsets so that `v` fits.  `grown` is the memory of the extended heap, if it could be
extended. -/
def GDKupgradevarheap (c : VarColumn) (v : ℕ) (copyall : Bool) (grown : Option (ℕ → ℕ)) :
    Option Widened :=
  let shift := newShift v (3 - c.shift) c.shift
  grown.map fun mem =>
    { width := 2 ^ shift
      mem := upgradeLoop c.width (2 ^ shift) (entries c copyall) mem
      free := c.free <<< (shift - c.shift)
      size := (c.size >>> c.shift) <<< shift }

/-- `HEAPextend` keeps the bytes below `free`, which is set to the size of the heap in copy mode. -/
def Extends (c : VarColumn) (copyall : Bool) (grown : ℕ → ℕ) : Prop :=
  ∀ p < (if copyall then c.size else c.free), grown p = c.mem p

/-! ## The loop -/

section Loop

variable {width width' n i : ℕ} {mem : ℕ → ℕ}

theorem upgradeLoop_behind : ∀ {n : ℕ} {mem : ℕ → ℕ} {q : ℕ}, n * width' ≤ q →
    upgradeLoop width width' n mem q = mem q
  | 0, _, _, _ => rfl
  | n + 1, mem, q, h => by
    rw [succ_mul] at h
    rw [upgradeLoop, upgradeLoop_behind (by omega), store_outside]
    rw [length_toBytes]
    exact .inr h

/-- An entry of the loop is written once, with what was in it before the loop: the entries that are
written earlier lie behind it. -/
theorem upgradeLoop_decodes (hw : width ≤ width') : ∀ {n : ℕ} {mem : ℕ → ℕ}, i < n →
    loadNum (upgradeLoop width width' n mem) (i * width') width' =
      (loadNum mem (i * width) width + added width width') % 256 ^ width'
  | 0, _, h => absurd h (not_lt_zero i)
  | n + 1, mem, h => by
    rw [upgradeLoop]
    rcases lt_or_eq_of_le (le_of_lt_succ h) with hlt | rfl
    · rw [upgradeLoop_decodes hw hlt]
      congr 2
      apply loadNum_congr
      intro j hj
      have h1 : (i + 1) * width ≤ n * width := mul_le_mul_right width hlt
      have h2 : n * width ≤ n * width' := mul_le_mul_left n hw
      rw [succ_mul] at h1
      exact store_outside (.inl (by omega))
    · rw [loadNum_congr fun j _ => upgradeLoop_behind (le_add_right (i * width') j),
        loadNum_store]

theorem loadNum_lt (h : ∀ p, mem p < 256) (p k : ℕ) : loadNum mem p k < 256 ^ k := by
  have hall : ∀ bs : List ℕ, (∀ b ∈ bs, b < 256) → ofBytes bs < 256 ^ bs.length := by
    intro bs
    induction bs with
    | nil => exact fun _ => one_pos
    | cons b bs ih =>
      intro hbs
      have hb := hbs b List.mem_cons_self
      have := ih fun x hx => hbs x (List.mem_cons_of_mem b hx)
      rw [ofBytes, List.length_cons]
      omega
  have := hall (load mem p k) fun b hb => by
    obtain ⟨i, -, rfl⟩ := List.mem_map.mp hb
    exact h _
  rwa [load, List.length_map, List.length_range] at this

end Loop

/-! ## The widths -/

theorem newShift_spec (v : ℕ) : ∀ fuel shift, shift + fuel = 3 →
    shift ≤ newShift v fuel shift ∧ newShift v fuel shift ≤ 3
  | 0, shift, h => by rw [newShift]; omega
  | fuel + 1, shift, h => by
    have := newShift_spec v fuel (shift + 1) (by omega)
    rw [newShift]
    split_ifs <;> omega

/-- For every pair of widths the loop adds what the new width does not, and nothing is cut off. -/
theorem added_eq {s s' x : ℕ} (hlt : s < s') (hle : s' ≤ 3) (hx : x < 256 ^ 2 ^ s) :
    (x + added (2 ^ s) (2 ^ s')) % 256 ^ 2 ^ s' + bias (2 ^ s') = x + bias (2 ^ s) := by
  have key : ∀ {a b b' w : ℕ}, x + a < w → a + b' = b → (x + a) % w + b' = x + b :=
    fun hw hb => by rw [mod_eq_of_lt hw, ← hb, add_assoc]
  obtain ⟨rfl, rfl⟩ | ⟨rfl, rfl⟩ | ⟨rfl, rfl⟩ | ⟨rfl, rfl⟩ | ⟨rfl, rfl⟩ | ⟨rfl, rfl⟩ :
      s = 0 ∧ s' = 1 ∨ s = 0 ∧ s' = 2 ∨ s = 0 ∧ s' = 3 ∨ s = 1 ∧ s' = 2 ∨ s = 1 ∧ s' = 3 ∨
        s = 2 ∧ s' = 3 := by omega
  all_goals
    exact key (Nat.lt_of_lt_of_le (Nat.add_lt_add_right hx _) (by decide)) (by decide)

/-- **Widening keeps the offsets.**  If `v` does not fit the old width, every entry of the widened
heap stands for the offset it stood for before. -/
theorem upgradevarheap_decodes (c : VarColumn) (v : ℕ) (copyall : Bool) (grown : ℕ → ℕ)
    (hv : tooNarrow v c.width) (hext : Extends c copyall grown) :
    ∃ c', GDKupgradevarheap c v copyall (some grown) = some c' ∧ c.width < c'.width ∧
      ∀ i < entries c copyall, VarHeapVal c'.mem i c'.width = VarHeapVal c.mem i c.width := by
  have hlt : c.shift < 3 :=
    (Nat.pow_lt_pow_iff_right (by norm_num)).mp (show 2 ^ c.shift < 2 ^ 3 from hv.1)
  have hspec := newShift_spec v (3 - (c.shift + 1)) (c.shift + 1) (by omega)
  have hstep : newShift v (3 - c.shift) c.shift =
      newShift v (3 - (c.shift + 1)) (c.shift + 1) := by
    rw [show 3 - c.shift = 3 - (c.shift + 1) + 1 by omega]
    exact if_pos hv
  rw [← hstep] at hspec
  refine ⟨_, rfl, Nat.pow_lt_pow_right (by norm_num) hspec.1, fun i hi => ?_⟩
  unfold VarHeapVal
  have hle : c.width ≤ 2 ^ newShift v (3 - c.shift) c.shift :=
    Nat.pow_le_pow_right (by norm_num) (by omega)
  rw [upgradeLoop_decodes hle hi]
  -- the entry lies in the part that was copied
  have hcopy : loadNum grown (i * c.width) c.width = loadNum c.mem (i * c.width) c.width := by
    refine loadNum_congr fun j hj => hext _ ?_
    have hend : (i + 1) * c.width ≤ entries c copyall * c.width := mul_le_mul_right _ hi
    have hdiv := div_mul_le_self (if copyall then c.size else c.free) c.width
    rw [entries, shiftRight_eq_div_pow] at hend
    rw [succ_mul] at hend
    exact (show i * c.width + j < i * c.width + c.width by omega).trans_le (hend.trans hdiv)
  rw [hcopy]
  exact added_eq hspec.1 hspec.2 (loadNum_lt c.bytes _ _)

/-- A heap of two offsets of one byte. -/
def twoOffsets : VarColumn where
  shift := 0
  mem p := if p = 0 then 3 else 7
  free := 2
  size := 2
  shift_le := by decide
  bytes p := by split_ifs <;> decide

theorem upgradevarheap_twoOffsets : ∃ c',
    GDKupgradevarheap twoOffsets (varOffset + 256) true (some twoOffsets.mem) = some c' ∧
      twoOffsets.width < c'.width ∧ ∀ i < entries twoOffsets true,
        VarHeapVal c'.mem i c'.width = VarHeapVal twoOffsets.mem i twoOffsets.width :=
  upgradevarheap_decodes twoOffsets (varOffset + 256) true twoOffsets.mem (by decide) fun _ _ => rfl

end MonetInR.Gdk
