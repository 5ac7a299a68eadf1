import Mathlib.Data.List.Basic
import Mathlib.Tactic.Ring

/-!
# Numbers and strings in a byte memory

A memory maps addresses to bytes.  Numbers of a fixed width are kept with the lowest byte first,
strings end with a zero byte.

## Main definitions

* `store`, `clear`: write some bytes, or zeros
* `loadNum`, `toBytes`: read a number, and the bytes to write for one
* `Holds`, `readStr`: the string at an address

## Main results

* `loadNum_store`, `holds_store`: what was written is read back
* `loadNum_congr`, `Holds.congr`: a write elsewhere changes neither
* `Holds.unique`, `readStr_eq`
-/

namespace ByteStore

open List Nat

variable {m m' : ℕ → ℕ} {p q k n : ℕ} {v w bs : List ℕ}

/-! ## Bytes -/

/-- The memory with the bytes `bs` from `p` on. -/
def store (m : ℕ → ℕ) (p : ℕ) (bs : List ℕ) (q : ℕ) : ℕ :=
  if p ≤ q then (bs[q - p]?).getD (m q) else m q

/-- The memory with `n` zeros from `p` on. -/
def clear (m : ℕ → ℕ) (p n q : ℕ) : ℕ := if p ≤ q ∧ q < p + n then 0 else m q

theorem store_outside (h : q < p ∨ p + bs.length ≤ q) : store m p bs q = m q := by
  unfold store
  rcases h with h | h
  · rw [if_neg (by omega)]
  · rw [if_pos (by omega), getElem?_eq_none (by omega)]
    rfl

theorem store_inside (hle : p ≤ q) (hlt : q - p < bs.length) : store m p bs q = bs[q - p] := by
  unfold store
  rw [if_pos hle, getElem?_eq_getElem hlt]
  rfl

/-! ## Numbers -/

/-- The `k` lowest bytes of a number. -/
def toBytes : ℕ → ℕ → List ℕ
  | 0, _ => []
  | k + 1, n => n % 256 :: toBytes k (n / 256)

/-- The number with the given bytes. -/
def ofBytes : List ℕ → ℕ
  | [] => 0
  | b :: bs => b + 256 * ofBytes bs

@[simp] theorem length_toBytes : ∀ k n, (toBytes k n).length = k
  | 0, _ => rfl
  | k + 1, n => by rw [toBytes, length_cons, length_toBytes k]

theorem ofBytes_toBytes : ∀ k n, ofBytes (toBytes k n) = n % 256 ^ k
  | 0, n => by rw [pow_zero, mod_one]; rfl
  | k + 1, n => by rw [toBytes, ofBytes, ofBytes_toBytes k, pow_succ', mod_mul]

/-- The `k` bytes at an address. -/
def load (m : ℕ → ℕ) (p k : ℕ) : List ℕ := (range k).map fun i => m (p + i)

/-- The number in the `k` bytes at an address. -/
def loadNum (m : ℕ → ℕ) (p k : ℕ) : ℕ := ofBytes (load m p k)

theorem loadNum_congr (h : ∀ i < k, m (p + i) = m' (p + i)) : loadNum m p k = loadNum m' p k :=
  congrArg ofBytes (map_congr_left fun i hi => h i (mem_range.mp hi))

theorem load_store (bs : List ℕ) : load (store m p bs) p bs.length = bs := by
  apply ext_getElem
  · rw [load, length_map, length_range]
  · intro i h1 h2
    have hi : p + i - p = i := Nat.add_sub_cancel_left p i
    simp only [load, getElem_map, getElem_range]
    rw [store_inside (le_add_right p i) (by omega)]
    simp only [hi]

/-- **A number is read back**, cut to its width. -/
theorem loadNum_store : loadNum (store m p (toBytes k n)) p k = n % 256 ^ k := by
  have h := load_store (m := m) (p := p) (toBytes k n)
  rw [length_toBytes] at h
  rw [loadNum, h, ofBytes_toBytes]

theorem ofBytes_eq_zero : ∀ {bs : List ℕ}, (∀ b ∈ bs, b = 0) → ofBytes bs = 0
  | [], _ => rfl
  | b :: bs, h => by
    rw [ofBytes, h b mem_cons_self, ofBytes_eq_zero fun c hc => h c (mem_cons_of_mem b hc)]

/-- Zeros are the number zero. -/
theorem loadNum_clear (hle : p ≤ q) (hlt : q + k ≤ p + n) : loadNum (clear m p n) q k = 0 := by
  apply ofBytes_eq_zero
  intro b hb
  obtain ⟨i, hi, rfl⟩ := mem_map.mp hb
  have hi := mem_range.mp hi
  exact if_pos (by omega)

/-! ## Strings -/

/-- The memory holds the string `v` at `p`, with the zero byte at its end. -/
def Holds (m : ℕ → ℕ) : ℕ → List ℕ → Prop
  | p, [] => m p = 0
  | p, b :: v => m p = b ∧ Holds m (p + 1) v

theorem Holds.congr (h : Holds m p v) (hm : ∀ q, p ≤ q → q < p + v.length + 1 → m' q = m q) :
    Holds m' p v := by
  induction v generalizing p with
  | nil => exact (hm p le_rfl (lt_add_one p)).trans h
  | cons b v ih =>
    rw [length_cons] at hm
    exact ⟨(hm p le_rfl (by omega)).trans h.1, ih h.2 fun q h1 h2 => hm q (by omega) (by omega)⟩

/-- There is only one string at an address. -/
theorem Holds.unique (hv : ∀ b ∈ v, b ≠ 0) (hw : ∀ b ∈ w, b ≠ 0) (h : Holds m p v)
    (h' : Holds m p w) : v = w := by
  induction v generalizing p w with
  | nil =>
    cases w with
    | nil => rfl
    | cons c w => exact absurd (h'.1.symm.trans h) (hw c mem_cons_self)
  | cons b v ih =>
    cases w with
    | nil => exact absurd (h.1.symm.trans h') (hv b mem_cons_self)
    | cons c w =>
      have htail := ih (fun x hx => hv x (mem_cons_of_mem b hx))
        (fun x hx => hw x (mem_cons_of_mem c hx)) h.2 h'.2
      rw [htail, ← h.1, h'.1]

/-- **A string is read back.** -/
theorem holds_store (m : ℕ → ℕ) (p : ℕ) (v : List ℕ) : Holds (store m p (v ++ [0])) p v := by
  suffices h : ∀ u v, Holds (store m p (u ++ v ++ [0])) (p + u.length) v by
    have := h [] v
    rwa [nil_append] at this
  intro u v
  induction v generalizing u with
  | nil =>
    have hsub : p + u.length - p = u.length := Nat.add_sub_cancel_left _ _
    change store m p (u ++ [] ++ [0]) (p + u.length) = 0
    rw [store_inside (le_add_right _ _) (by simp)]
    simp [hsub]
  | cons b v ih =>
    have hsub : p + u.length - p = u.length := Nat.add_sub_cancel_left _ _
    refine ⟨?_, ?_⟩
    · rw [store_inside (le_add_right _ _) (by simp)]
      simp [hsub]
    · have := ih (u ++ [b])
      simpa [add_assoc] using this

/-- Read the string at an address. -/
def readStr (m : ℕ → ℕ) : ℕ → ℕ → List ℕ
  | 0, _ => []
  | fuel + 1, p => if m p = 0 then [] else m p :: readStr m fuel (p + 1)

theorem readStr_eq (hv : ∀ b ∈ v, b ≠ 0) (h : Holds m p v) {fuel : ℕ} (hfuel : v.length < fuel) :
    readStr m fuel p = v := by
  induction v generalizing p fuel with
  | nil =>
    obtain ⟨fuel, rfl⟩ := exists_eq_add_one_of_ne_zero (by omega : fuel ≠ 0)
    rw [readStr, if_pos (show m p = 0 from h)]
  | cons b v ih =>
    obtain ⟨fuel, rfl⟩ := exists_eq_add_one_of_ne_zero (by omega : fuel ≠ 0)
    have hb := hv b mem_cons_self
    rw [readStr, h.1, if_neg hb, ih (fun x hx => hv x (mem_cons_of_mem b hx)) h.2]
    rw [length_cons] at hfuel
    omega

end ByteStore
