import MonetInR.Lib.ByteStore
import Mathlib.Data.List.Lex
import MonetInR.Gdk.Atom
import MonetInR.Gdk.Heap.Extend
import Mathlib.Data.List.Perm.Subperm
import MonetInR.Lib.LinkArray
import MonetInR.Lib.Runs

/-!
# String heaps

The strings of a column are kept in a heap.  At its start there is a hash table of positions; as
long as the heap is small, every string is preceded by the position of the next one in its bucket,
so that no string is stored twice.  Later the table is flushed with every 64 KB, and each bucket
only remembers the last string.  `strPut` returns the offset of a string, `strLocate` searches for
one.

Strings are written behind everything that is in use, and only the hash table is ever overwritten.
As long as the heap is small, the linked lists of the buckets hold every string that was put.  If
the heap has to be extended, however, it may be lost, and every string that was put with it.

Sizes depend on the build; the heaps that `strHeap` makes store the hash of each string.

## Main definitions

* `StrHeap.strPut`, `StrHeap.strLocate`
* `StrHeap.decode`: the string at an offset
* `StrHeap.Stored`: a string and its place
* `StrHeap.Linked`: the linked lists of a small heap

## Main results

* `StrRun.strings_of_reaches`
-/

namespace MonetInR.Gdk

open ByteStore LinkArray Runs List Option Nat

/-- A string: no byte is zero, and only the nil string starts with `\200`. -/
@[ext]
structure Str where
  bytes : List ℕ
  bytes_lt : ∀ b ∈ bytes, b ≠ 0 ∧ b < 256
  nil_eq : bytes.head? = some 128 → bytes = [128]
  deriving DecidableEq

/-- The builds: 64-bit oids, 32-bit oids on a 64-bit system, and 32-bit systems. -/
inductive Build
  | oid64
  | oid32
  | ptr32

namespace Build

/-- `sizeof(stridx_t)`. -/
def stridxSize : Build → ℕ
  | oid64 => 8
  | oid32 => 2
  | ptr32 => 4

/-- `SIZEOF_VAR_T`. -/
def varSize : Build → ℕ
  | oid64 => 8
  | oid32 => 4
  | ptr32 => 4

/-- `SIZEOF_BUN`. -/
def bunSize : Build → ℕ
  | oid64 => 8
  | oid32 => 4
  | ptr32 => 4

/-- `GDK_VARSHIFT`. -/
def varshift : Build → ℕ
  | oid64 => 0
  | oid32 => 3
  | ptr32 => 0

/-- `GDK_VARALIGN`. -/
def varalign : Build → ℕ
  | oid64 => 8
  | oid32 => 8
  | ptr32 => 4

/-- `VAR_MAX`. -/
def varMax : Build → ℕ
  | oid64 => 2 ^ 63 - 1
  | oid32 => 2 ^ 31 - 1
  | ptr32 => 2 ^ 31 - 1

/-- `SIZEOF_VAR_T >= SIZEOF_VOID_P`. -/
def varIsPointer : Build → Bool
  | oid64 => true
  | oid32 => false
  | ptr32 => true

/-- `EXTRALEN`: the size of a hash, aligned. -/
def extralen (B : Build) : ℕ := (B.bunSize + B.varalign - 1) / B.varalign * B.varalign

/-- `GDK_STRHASHSIZE`. -/
def strhashsize (B : Build) : ℕ := 1024 * B.stridxSize

end Build

/-- `GDK_ELIMLIMIT`. -/
def elimlimit : ℕ := 2 ^ 16

/-- `GDK_ELIMBASE`. -/
def elimbase (x : ℕ) : ℕ := x / elimlimit * elimlimit

/-! ## Comparing and hashing

Strings are compared and hashed where they lie in memory, up to the zero byte.  Nil is a single byte
that no other string starts with, and is less than all strings. -/

/-- `GDK_STRNIL`. -/
def strNil (v : List ℕ) : Bool := v.head? = some 128

/-- `GDK_STRLEN`. -/
def strLen (v : List ℕ) : ℕ := (if strNil v then 1 else v.length) + 1

/-- Compare a string with the one at `p`, byte by byte. -/
def strCmpNoNil (m : ℕ → ℕ) : List ℕ → ℕ → ℤ
  | [], p => if m p = 0 then 0 else -1
  | b :: v, p => if b = m p then strCmpNoNil m v (p + 1) else if b < m p then -1 else 1

/-- `GDK_STRCMP`. -/
def strCmp (m : ℕ → ℕ) (v : List ℕ) (p : ℕ) : ℤ :=
  if strNil v then (if m p = 128 then 0 else -1)
  else if m p = 128 then 1
  else strCmpNoNil m v p

/-- `GDK_STRHASH`, with numbers of `w` bits.  A `char` is signed. -/
def strHashBits (w : ℕ) (v : List ℕ) : ℕ :=
  let y := v.foldl (fun y b =>
    let y := (y + (if b < 128 then b else b + 2 ^ w - 256)) % 2 ^ w
    let y := (y + y <<< 10) % 2 ^ w
    y ^^^ (y >>> 6)) 0
  let y := (y + y <<< 3) % 2 ^ w
  let y := y ^^^ (y >>> 11)
  (y + y <<< 15) % 2 ^ w

/-! ## The heap

The memory is a function from positions to bytes, so what lies behind the part in use has some value
too.  An error of `strPut` says whether there is still a heap. -/

/-- A string heap.  The memory has bytes. -/
structure StrHeap where
  mem : ℕ → ℕ
  free : ℕ
  size : ℕ
  maxsize : ℕ
  /-- Hashes are stored in front of the strings. -/
  hashash : Bool

namespace StrHeap

variable (B : Build) (h : StrHeap)

/-- `strHeap`: a new heap for `cap` strings.  Only the hash table is set; the rest of the memory
holds whatever it holds. -/
def strHeap (mem : ℕ → ℕ) (cap maxsize : ℕ) : StrHeap where
  mem := clear mem 0 B.strhashsize
  free := B.strhashsize
  size := B.strhashsize + min elimlimit (max cap 256 * B.varalign)
  maxsize := maxsize
  hashash := true

/-- The number of bytes in front of a string. -/
def extralen : ℕ := if h.hashash then B.extralen else 0

/-- Read a `stridx_t`. -/
def stridx (p : ℕ) : ℕ := loadNum h.mem p B.stridxSize

/-- The bucket of a string. -/
def bucketOf (v : List ℕ) : ℕ := strHashBits (8 * B.bunSize) v % 1024

/-- `*bucket`. -/
def bucket (k : ℕ) : ℕ := h.stridx B (k * B.stridxSize)

/-- Search the linked list that starts at `r`. -/
def findRef (v : List ℕ) : ℕ → ℕ → Option ℕ
  | 0, _ => none
  | fuel + 1, r =>
    if r = 0 then none
    else if strCmp h.mem v (r + B.stridxSize + h.extralen B) = 0 then some r
    else findRef v fuel (h.stridx B r)

/-- Cut a position to a `var_t`. -/
def varOf (pos : ℕ) : ℕ := (pos >>> B.varshift) % 2 ^ (8 * B.varSize)

/-- The offset of a string, or 0. -/
def strLocate (v : List ℕ) : ℕ :=
  match h.findRef B v h.free (h.bucket B (bucketOf B v)) with
  | some r => varOf B (B.stridxSize + r + h.extralen B)
  | none => 0

/-- Double the size until there is enough space; a number has no more bits than that. -/
def newsize (needed : ℕ) : ℕ → ℕ → ℕ
  | 0, size => size
  | fuel + 1, size => if 2 * size ≤ needed then newsize needed fuel (2 * size) else 2 * size

/-- The size to extend the heap to: reserved space is used first. -/
def wanted (needed : ℕ) : ℕ :=
  let size := newsize needed 64 (max h.size 4096)
  if needed < h.maxsize then min size h.maxsize else size

/-- Extend the heap, if it has no room for `needed` bytes.  An error comes with what is left of the
heap. -/
def extend (needed : ℕ) (sys : Extend.System) : Except (Option StrHeap) StrHeap :=
  if needed < h.size then .ok h
  else if B.varMax <<< B.varshift ≤ needed then .error (some h)
  else
    match sys.extend h.size (h.wanted needed) with
    | .ok size => .ok { h with size := size, maxsize := sys.maxsize }
    | .error left => .error (left.map fun size => { h with size := size })

/-- Write the string and its hash at `pos`. -/
def writeStr (v : List ℕ) (pos : ℕ) : StrHeap :=
  let m := store h.mem pos ((v ++ [0]).take (strLen v))
  if h.hashash then
    let m := store m (pos - B.bunSize) (toBytes B.bunSize (strHashBits (8 * B.bunSize) v))
    { h with mem :=
        if B.bunSize < B.extralen then
          store m (pos - 2 * B.bunSize) (toBytes B.bunSize (strLen v))
        else m }
  else { h with mem := m }

/-- Maintain the hash table: link the string in front of its bucket, or remember it only. -/
def linkStr (base k pos : ℕ) : StrHeap :=
  if base = 0 then
    let p := pos - B.stridxSize
    let m := store h.mem p (toBytes B.stridxSize (h.bucket B k))
    { h with mem := store m (k * B.stridxSize) (toBytes B.stridxSize p) }
  else
    { h with mem := store h.mem (k * B.stridxSize) (toBytes B.stridxSize (pos - base)) }

/-- Flush the hash table if the heap has grown into the next 64 KB. -/
def flush (base : ℕ) : StrHeap :=
  if base + elimlimit ≤ h.free then { h with mem := clear h.mem 0 B.strhashsize } else h

/-- Insert a string behind `pad` bytes. -/
def insert (v : List ℕ) (pad : ℕ) (sys : Extend.System) :
    Except (Option StrHeap) (StrHeap × ℕ) :=
  let base := elimbase h.free
  let needed := h.free + pad + strLen v + h.extralen B
  let pos := h.free + pad + h.extralen B
  (h.extend B needed sys).map fun h =>
    let h := h.writeStr B v pos
    let h := { h with free := needed }
    ((h.linkStr B base (bucketOf B v) (pos - h.extralen B)).flush B base, varOf B pos)

/-- **Put a string**: search it, and insert it if it is not there.  Whether the heap can be
extended is up to the system, as is what is left of it if not. -/
def strPut (v : List ℕ) (sys : Extend.System) : Except (Option StrHeap) (StrHeap × ℕ) :=
  let base := elimbase h.free
  let pad := B.varalign - h.free % B.varalign
  let b := h.bucket B (bucketOf B v)
  if base = 0 then
    match h.findRef B v h.free b with
    | some r => .ok (h, varOf B (B.stridxSize + r + h.extralen B))
    -- the next pointer needs room in the padding
    | none => h.insert B v (if pad < B.stridxSize then pad + B.varalign else pad) sys
  else if b = 0 then h.insert B v pad sys
  else if strCmp h.mem v (base + b + h.extralen B) = 0 then
    .ok (h, varOf B (base + b + h.extralen B))
  else
    h.insert B v (if h.extralen B = 0 ∧ B.varIsPointer then 0 else pad % B.varalign) sys

/-- The string at an offset. -/
def decode (off : ℕ) : List ℕ := readStr h.mem h.free (off <<< B.varshift)

end StrHeap

/-- The order of `strCmp`: nil comes first, and other strings are compared byte by byte. -/
def Str.key (v : Str) : WithBot (List ℕ) := if strNil v.bytes then ⊥ else (v.bytes : List ℕ)

theorem Str.key_injective : Function.Injective Str.key := by
  intro v w h
  unfold key at h
  refine Str.ext ?_
  have hnil : ∀ u : Str, strNil u.bytes = true → u.bytes = [128] := fun u hu =>
    u.nil_eq (of_decide_eq_true hu)
  split_ifs at h with hv hw hw
  · rw [hnil v hv, hnil w hw]
  · exact absurd h.symm (WithBot.coe_ne_bot)
  · exact absurd h (WithBot.coe_ne_bot)
  · exact WithBot.coe_inj.mp h

instance : LinearOrder Str := LinearOrder.lift' Str.key Str.key_injective

/-- `str_nil`. -/
def Str.nil : Str := ⟨[128], by decide, fun _ => rfl⟩

/-- Strings as an atom type. -/
instance : Atom Str where
  bot := Str.nil
  bot_le v := by
    change Str.key Str.nil ≤ v.key
    exact bot_le
  atomHash v := strHashBits 64 v.bytes
  atomSize := 8

/-- A string of one byte repeated. -/
def Str.repeated (b n : ℕ) (hb : 0 < b ∧ b < 128) : Str where
  bytes := List.replicate n b
  bytes_lt c hc := by
    obtain rfl := List.eq_of_mem_replicate hc
    omega
  nil_eq h := by
    have := List.mem_of_mem_head? h
    have := List.eq_of_mem_replicate this
    omega

/-! ## Comparisons -/

section Compare

variable {m : ℕ → ℕ} {p : ℕ} (v : Str)

theorem strCmpNoNil_eq_zero {v : List ℕ} (hv : ∀ b ∈ v, b ≠ 0) :
    strCmpNoNil m v p = 0 ↔ Holds m p v := by
  induction v generalizing p with
  | nil =>
    rw [strCmpNoNil]
    split_ifs with h
    · exact iff_of_true rfl h
    · exact iff_of_false (by decide) h
  | cons b v ih =>
    rw [strCmpNoNil]
    split_ifs with heq hlt
    · rw [ih fun c hc => hv c (mem_cons_of_mem b hc)]
      exact ⟨fun h => ⟨heq.symm, h⟩, And.right⟩
    · exact iff_of_false (by decide) fun h => heq h.1.symm
    · exact iff_of_false (by decide) fun h => heq h.1.symm

theorem Str.ne_zero : ∀ b ∈ v.bytes, b ≠ 0 := fun b hb => (v.bytes_lt b hb).1

theorem Str.strNil_iff : strNil v.bytes = true ↔ v.bytes = [128] := by
  unfold strNil
  rw [decide_eq_true_iff]
  exact ⟨v.nil_eq, fun h => by rw [h]; rfl⟩

theorem Str.strLen_eq : strLen v.bytes = v.bytes.length + 1 := by
  unfold strLen
  split_ifs with hnil
  · rw [v.strNil_iff.mp hnil]
    rfl
  · rfl

theorem Str.first_iff {w : Str} (h : Holds m p w.bytes) : m p = 128 ↔ w.bytes = [128] := by
  cases hw : w.bytes with
  | nil =>
    rw [hw] at h
    refine iff_of_false (fun h' => ?_) nofun
    rw [show m p = 0 from h] at h'
    cases h'
  | cons b t =>
    have hnil := w.nil_eq
    rw [hw] at h hnil
    constructor
    · intro h'
      exact hnil (by rw [head?_cons, ← h.1, h'])
    · intro h'
      rw [h.1]
      exact (cons.inj h').1

/-- **Comparing with a stored string** finds out whether it is the same. -/
theorem strCmp_eq_zero {v w : Str} (h : Holds m p w.bytes) :
    strCmp m v.bytes p = 0 ↔ v = w := by
  have hfirst := Str.first_iff h
  unfold strCmp
  by_cases hnil : strNil v.bytes = true
  · have hv := v.strNil_iff.mp hnil
    split_ifs with hp
    · exact iff_of_true rfl (Str.ext (hv.trans (hfirst.mp hp).symm))
    · refine iff_of_false (by decide) ?_
      rintro rfl
      exact hp (hfirst.mpr hv)
  · split_ifs with hp
    · refine iff_of_false (by decide) ?_
      rintro rfl
      exact hnil (v.strNil_iff.mpr (hfirst.mp hp))
    · rw [strCmpNoNil_eq_zero v.ne_zero]
      constructor
      · exact fun h' => Str.ext (h'.unique v.ne_zero w.ne_zero h)
      · rintro rfl
        exact h

end Compare

/-! ## Sizes -/

namespace Build

variable (B : Build)

theorem stridxSize_pos : 0 < B.stridxSize := by cases B <;> decide

theorem stridxSize_le : B.stridxSize ≤ B.varalign := by cases B <;> decide

theorem pow_dvd_varalign : 2 ^ B.varshift ∣ B.varalign := by cases B <;> decide

theorem bunSize_le : B.bunSize ≤ B.extralen := by cases B <;> decide

theorem two_bunSize_le (h : B.bunSize < B.extralen) : 2 * B.bunSize ≤ B.extralen := by
  revert h
  cases B <;> decide

theorem elimlimit_le : elimlimit ≤ 256 ^ B.stridxSize := by cases B <;> decide

/-- What a `var_t` can address. -/
def reach : ℕ := 2 ^ (8 * B.varSize) * 2 ^ B.varshift

theorem two_varMax_le : 2 * (B.varMax <<< B.varshift) ≤ B.reach := by cases B <;> decide

theorem tiny_le_reach : 4 * elimlimit ≤ B.reach := by cases B <;> decide

theorem pow_le_strhashsize : 2 ^ B.varshift ≤ B.strhashsize := by cases B <;> decide

theorem strhashsize_add_le : B.strhashsize + B.stridxSize ≤ elimlimit := by cases B <;> decide

end Build

namespace StrHeap

variable {B : Build} {h h' : StrHeap} {v w : Str} {pos k pad k' r : ℕ}
  {sys : Extend.System}

/-! ## Stored strings

A string is stored once it lies in the part in use, behind the hash table.  Nothing there is
overwritten later, so it stays stored. -/

/-- The string `v` is stored at `pos`, behind the hash table and in the part that is in use. -/
structure Stored (B : Build) (h : StrHeap) (v : Str) (pos : ℕ) : Prop where
  holds : Holds h.mem pos v.bytes
  behind : B.strhashsize ≤ pos
  inside : pos + v.bytes.length + 1 ≤ h.free
  aligned : B.varalign ∣ pos
  small : pos < B.reach

/-- Nothing that is in use changes but the hash table. -/
structure Keeps (B : Build) (h h' : StrHeap) : Prop where
  free_le : h.free ≤ h'.free
  mem : ∀ q, B.strhashsize ≤ q → q < h.free → h'.mem q = h.mem q

theorem Keeps.stored (hk : Keeps B h h') (hs : Stored B h v pos) : Stored B h' v pos := by
  have hbehind := hs.behind
  have hinside := hs.inside
  have hfree := hk.free_le
  exact ⟨hs.holds.congr fun q h1 h2 => hk.mem q (by omega) (by omega), hs.behind, by omega,
    hs.aligned, hs.small⟩

theorem Stored.strCmp_eq_zero (hs : Stored B h w pos) : strCmp h.mem v.bytes pos = 0 ↔ v = w :=
  Gdk.strCmp_eq_zero hs.holds

theorem Stored.varOf_shiftLeft (hs : Stored B h v pos) : varOf B pos <<< B.varshift = pos := by
  obtain ⟨j, rfl⟩ := B.pow_dvd_varalign.trans hs.aligned
  have hpow : 0 < 2 ^ B.varshift := Nat.two_pow_pos _
  have hj : j < 2 ^ (8 * B.varSize) := by
    refine Nat.lt_of_mul_lt_mul_left (a := 2 ^ B.varshift) ?_
    rw [mul_comm _ (2 ^ (8 * B.varSize))]
    exact hs.small
  unfold varOf
  rw [Nat.shiftRight_eq_div_pow, Nat.mul_div_cancel_left j hpow, Nat.mod_eq_of_lt hj,
    shiftLeft_eq, mul_comm]

theorem Stored.varOf_ne_zero (hs : Stored B h v pos) : varOf B pos ≠ 0 := by
  intro hzero
  have hpos := hs.varOf_shiftLeft
  rw [hzero] at hpos
  have hbehind := hs.behind
  have hsize := B.pow_le_strhashsize
  have hpow : 0 < 2 ^ B.varshift := Nat.two_pow_pos _
  omega

/-- **A stored string is found under its offset.** -/
theorem Stored.decode (hs : Stored B h v pos) : h.decode B (varOf B pos) = v.bytes := by
  have hinside := hs.inside
  unfold StrHeap.decode
  rw [hs.varOf_shiftLeft]
  exact readStr_eq v.ne_zero hs.holds (by omega)

/-! ## Extending the heap

A heap that could be extended has the same bytes and is still within reach of a `var_t`. -/

theorem newsize_le (needed : ℕ) : ∀ fuel size, newsize needed fuel size ≤ 2 * max size needed
  | 0, size => by
    rw [newsize]
    omega
  | fuel + 1, size => by
    rw [newsize]
    have ih := newsize_le needed fuel (2 * size)
    split_ifs <;> omega

theorem wanted_le (h : StrHeap) (needed : ℕ) : h.wanted needed ≤ 2 * max (max h.size 4096) needed :=
  by
  have hnew := newsize_le needed 64 (max h.size 4096)
  unfold wanted
  dsimp only
  split_ifs <;> omega

theorem extend_spec {needed : ℕ} (hsize : h.size ≤ B.reach)
    (hrun : h.extend B needed sys = .ok h') :
    needed < B.reach ∧ h'.size ≤ B.reach ∧ h'.mem = h.mem ∧ h'.free = h.free ∧
      h'.hashash = h.hashash := by
  have hmax := B.two_varMax_le
  have htiny := B.tiny_le_reach
  have hlimit : elimlimit = 65536 := rfl
  have hwanted := h.wanted_le needed
  unfold extend at hrun
  split_ifs at hrun with hfits hbig
  · obtain rfl := Except.ok.inj hrun
    exact ⟨by omega, hsize, rfl, rfl, rfl⟩
  · rcases sys.extend_cases h.size (h.wanted needed) with heq | ⟨-, heq⟩ | ⟨-, heq⟩
    all_goals
      rw [heq] at hrun
      cases hrun
    exact ⟨by omega, by dsimp only; omega, rfl, rfl, rfl⟩

/-- If a heap is left after an error, it is the old one. -/
theorem extend_error {needed : ℕ} (hrun : h.extend B needed sys = .error (some h')) : h' = h := by
  unfold extend at hrun
  split_ifs at hrun with hfits hbig
  · cases hrun
    rfl
  · rcases sys.extend_cases h.size (h.wanted needed) with heq | ⟨-, heq⟩ | ⟨-, heq⟩
    all_goals
      rw [heq] at hrun
      cases hrun
    rfl

theorem insert_error {v : List ℕ} (hrun : h.insert B v pad sys = .error (some h')) : h' = h := by
  unfold insert at hrun
  dsimp only at hrun
  cases hext : h.extend B (h.free + pad + strLen v + h.extralen B) sys with
  | ok h₀ =>
    rw [hext] at hrun
    cases hrun
  | error left =>
    rw [hext] at hrun
    cases hrun
    exact extend_error hext

theorem strPut_error {v : List ℕ} (hrun : h.strPut B v sys = .error (some h')) : h' = h := by
  unfold strPut at hrun
  dsimp only at hrun
  split at hrun
  · split at hrun
    · cases hrun
    · exact insert_error hrun
  · split at hrun
    · exact insert_error hrun
    · split at hrun
      · cases hrun
      · exact insert_error hrun

/-! ## Writing a string -/

theorem writeStr_mem (hhash : h.hashash = true) (v : List ℕ) {q : ℕ} (hlt : q < pos - B.extralen) :
    (h.writeStr B v pos).mem q = h.mem q := by
  have hbun := B.bunSize_le
  unfold writeStr
  rw [if_pos hhash]
  dsimp only
  split_ifs with htwo
  · have htwo := B.two_bunSize_le htwo
    rw [store_outside (.inl (by omega)), store_outside (.inl (by omega)),
      store_outside (.inl (by omega))]
  · rw [store_outside (.inl (by omega)), store_outside (.inl (by omega))]

theorem writeStr_holds (hhash : h.hashash = true) (v : Str) (hpos : B.extralen ≤ pos) :
    Holds (h.writeStr B v.bytes pos).mem pos v.bytes := by
  have hbun := B.bunSize_le
  have hstore : Holds (store h.mem pos ((v.bytes ++ [0]).take (strLen v.bytes))) pos v.bytes := by
    rw [v.strLen_eq, take_of_length_le (by rw [length_append]; rfl)]
    exact holds_store h.mem pos v.bytes
  refine hstore.congr fun q hq _ => ?_
  -- the hash and the length stand in front of the string
  unfold writeStr
  rw [if_pos hhash]
  dsimp only
  split_ifs with htwo
  · rw [store_outside (.inr (by rw [length_toBytes]; omega)),
      store_outside (.inr (by rw [length_toBytes]; omega))]
  · rw [store_outside (.inr (by rw [length_toBytes]; omega))]

@[simp] theorem writeStr_size (v : List ℕ) (pos : ℕ) : (h.writeStr B v pos).size = h.size := by
  unfold writeStr
  split_ifs <;> rfl

@[simp] theorem writeStr_hashash (v : List ℕ) (pos : ℕ) :
    (h.writeStr B v pos).hashash = h.hashash := by
  unfold writeStr
  split_ifs <;> rfl

/-! ## The hash table -/

theorem entry_le (hk : k < 1024) : k * B.stridxSize + B.stridxSize ≤ B.strhashsize := by
  rw [← succ_mul]
  exact mul_le_mul_right _ hk

theorem entry_disjoint (hne : k ≠ k') :
    k * B.stridxSize + B.stridxSize ≤ k' * B.stridxSize ∨
      k' * B.stridxSize + B.stridxSize ≤ k * B.stridxSize := by
  rcases lt_or_gt_of_ne hne with hlt | hgt
  · left
    rw [← succ_mul]
    exact mul_le_mul_right _ hlt
  · right
    rw [← succ_mul]
    exact mul_le_mul_right _ hgt

theorem linkStr_mem {base q : ℕ} (hk : k < 1024) (hq : B.strhashsize ≤ q)
    (hout : base = 0 → q < pos - B.stridxSize ∨ pos ≤ q) :
    (h.linkStr B base k pos).mem q = h.mem q := by
  have hentry := entry_le (B := B) hk
  unfold linkStr
  split_ifs with hbase
  · dsimp only
    rw [store_outside (.inr (by rw [length_toBytes]; omega)),
      store_outside (by rw [length_toBytes]; omega)]
  · exact store_outside (.inr (by rw [length_toBytes]; omega))

theorem linkStr_bucket_of_ne {base : ℕ} (hk' : k' < 1024) (hne : k' ≠ k)
    (hpos : B.strhashsize + B.stridxSize ≤ pos) :
    (h.linkStr B base k pos).bucket B k' = h.bucket B k' := by
  have hentry := entry_le (B := B) hk'
  have hdisjoint := entry_disjoint (B := B) hne
  refine loadNum_congr fun i hi => ?_
  unfold linkStr
  split_ifs
  · dsimp only
    rw [store_outside (by rw [length_toBytes]; omega), store_outside (.inl (by omega))]
  · exact store_outside (by rw [length_toBytes]; omega)

theorem linkStr_stridx (hk : k < 1024) (hpos : B.strhashsize + B.stridxSize ≤ pos) :
    (h.linkStr B 0 k pos).stridx B (pos - B.stridxSize) = h.bucket B k % 256 ^ B.stridxSize := by
  have hentry := entry_le (B := B) hk
  have hcongr : (h.linkStr B 0 k pos).stridx B (pos - B.stridxSize) =
      loadNum (store h.mem (pos - B.stridxSize) (toBytes B.stridxSize (h.bucket B k)))
        (pos - B.stridxSize) B.stridxSize :=
    loadNum_congr fun i _ => store_outside (.inr (by rw [length_toBytes]; omega))
  rw [hcongr, loadNum_store]

@[simp] theorem linkStr_free (base k pos : ℕ) : (h.linkStr B base k pos).free = h.free := by
  unfold linkStr
  split_ifs <;> rfl

@[simp] theorem linkStr_size (base k pos : ℕ) : (h.linkStr B base k pos).size = h.size := by
  unfold linkStr
  split_ifs <;> rfl

@[simp] theorem linkStr_hashash (base k pos : ℕ) :
    (h.linkStr B base k pos).hashash = h.hashash := by
  unfold linkStr
  split_ifs <;> rfl

section Flush

variable {base q : ℕ}

theorem flush_of_lt (hlt : h.free < base + elimlimit) : h.flush B base = h :=
  if_neg (not_le.mpr hlt)

theorem flush_mem (hq : B.strhashsize ≤ q) : (h.flush B base).mem q = h.mem q := by
  unfold flush
  split_ifs
  · exact if_neg (by omega)
  · rfl

@[simp] theorem flush_free : (h.flush B base).free = h.free := by
  unfold flush
  split_ifs <;> rfl

@[simp] theorem flush_size : (h.flush B base).size = h.size := by
  unfold flush
  split_ifs <;> rfl

@[simp] theorem flush_hashash : (h.flush B base).hashash = h.hashash := by
  unfold flush
  split_ifs <;> rfl

end Flush

/-! ## Inserting a string

All that is needed of an insertion later on: the string is stored, nothing else that is in use has
changed, and in a small heap it comes first in its bucket. -/

/-- What inserting a string does. -/
structure Inserted (B : Build) (h h' : StrHeap) (v : Str) (pad pos : ℕ) : Prop where
  pos_eq : pos = h.free + pad + B.extralen
  free_eq : h'.free = h.free + pad + (v.bytes.length + 1) + B.extralen
  size_le : h'.size ≤ B.reach
  hashash : h'.hashash = true
  keeps : Keeps B h h'
  stored : Stored B h' v pos
  /-- The table has been flushed. -/
  flushed : elimbase h.free + elimlimit ≤ h'.free → ∀ k < 1024, h'.bucket B k = 0
  bucket : h'.free < elimbase h.free + elimlimit → h'.bucket B (bucketOf B v.bytes) =
    (if elimbase h.free = 0 then h.free + pad - B.stridxSize
      else h.free + pad - elimbase h.free) % 256 ^ B.stridxSize
  others : h'.free < elimbase h.free + elimlimit → ∀ k < 1024, k ≠ bucketOf B v.bytes →
    h'.bucket B k = h.bucket B k
  link : elimbase h.free = 0 → h'.stridx B (h.free + pad - B.stridxSize) =
    h.bucket B (bucketOf B v.bytes) % 256 ^ B.stridxSize

theorem bucketOf_lt (v : List ℕ) : bucketOf B v < 1024 := mod_lt _ (by decide)

/-- **Inserting a string** puts it behind everything else.  In a small heap, the padding has room
for the link. -/
theorem insert_spec (hhash : h.hashash = true) (hsize : h.size ≤ B.reach)
    (hfree : B.strhashsize ≤ h.free) (halign : B.varalign ∣ h.free + pad)
    (hpad : elimbase h.free = 0 → B.stridxSize ≤ pad) {off : ℕ}
    (hrun : h.insert B v.bytes pad sys = .ok (h', off)) :
    ∃ pos, Inserted B h h' v pad pos ∧ off = varOf B pos := by
  have hextra : h.extralen B = B.extralen := if_pos hhash
  have hk := bucketOf_lt (B := B) v.bytes
  unfold insert at hrun
  dsimp only at hrun
  rw [hextra, v.strLen_eq] at hrun
  cases hext : h.extend B (h.free + pad + (v.bytes.length + 1) + B.extralen) sys with
  | error left =>
    rw [hext] at hrun
    cases hrun
  | ok h0 =>
  rw [hext] at hrun
  obtain ⟨hneeded, hsize0, hmem0, hfree0, hhash0⟩ := extend_spec hsize hext
  obtain ⟨heq, rfl⟩ := Prod.mk.inj (Except.ok.inj hrun)
  rw [hhash] at hhash0
  set pos := h.free + pad + B.extralen with hpos
  set h1 : StrHeap := { h0.writeStr B v.bytes pos with
    free := h.free + pad + (v.bytes.length + 1) + B.extralen } with hh1
  have hfree1 : h1.free = h.free + pad + (v.bytes.length + 1) + B.extralen := rfl
  have hhash1 : h1.hashash = true := (writeStr_hashash v.bytes pos).trans hhash0
  have hpos1 : pos - h1.extralen B = h.free + pad := by
    have : h1.extralen B = B.extralen := if_pos hhash1
    omega
  rw [hpos1] at heq
  set base := elimbase h.free with hbase
  set k := bucketOf B v.bytes with hkdef
  -- the room for the link is behind what is in use
  have hroom : B.strhashsize + B.stridxSize ≤ h.free + pad := by
    by_cases hzero : base = 0
    · omega
    · have hlarge : elimlimit ≤ h.free := by
        by_contra hlt
        exact hzero (by rw [hbase, elimbase, div_eq_of_lt (not_le.mp hlt), zero_mul])
      have := B.strhashsize_add_le
      omega
  have hmem1 : ∀ q < h.free + pad, h1.mem q = h.mem q := fun q hq => by
    rw [← hmem0]
    exact writeStr_mem hhash0 v.bytes (by omega)
  have hbucket1 : ∀ k' < 1024, h1.bucket B k' = h.bucket B k' := fun k' hk' => by
    have := entry_le (B := B) hk'
    exact loadNum_congr fun i hi => hmem1 _ (by omega)
  have hmem' : ∀ q, B.strhashsize ≤ q → (base = 0 → q < h.free + pad - B.stridxSize ∨
      h.free + pad ≤ q) → h'.mem q = h1.mem q := fun q hq hout => by
    rw [← heq, flush_mem hq]
    exact linkStr_mem hk hq hout
  have hfree' : h'.free = h.free + pad + (v.bytes.length + 1) + B.extralen := by
    rw [← heq, flush_free, linkStr_free]
  refine ⟨pos, ⟨rfl, hfree', ?_, ?_, ⟨by omega, fun q hq hq' => ?_⟩, ⟨?_, by omega, by omega, ?_, by
    omega⟩, fun hflush k' hk' => ?_, fun hflush => ?_, fun hflush k' hk' hne => ?_,
    fun hzero => ?_⟩, rfl⟩
  · rw [← heq, flush_size, linkStr_size]
    exact (writeStr_size v.bytes pos).le.trans hsize0
  · rw [← heq, flush_hashash, linkStr_hashash, hhash1]
  · rw [hmem' q hq fun hzero => .inl (by omega), hmem1 q (by omega)]
  · refine (writeStr_holds (B := B) hhash0 v (by omega)).congr fun q hq _ => ?_
    exact hmem' q (by omega) fun _ => .inr (by omega)
  · exact Nat.dvd_add halign ⟨_, mul_comm _ _⟩
  · have := entry_le (B := B) hk'
    rw [← heq, flush, if_pos (by rw [linkStr_free]; omega)]
    exact loadNum_clear (zero_le _) (by omega)
  · rw [← heq, flush_of_lt (by rw [linkStr_free]; omega)]
    unfold linkStr bucket stridx
    split_ifs <;> exact loadNum_store
  · rw [← heq, flush_of_lt (by rw [linkStr_free]; omega), linkStr_bucket_of_ne hk' hne hroom,
      hbucket1 k' hk']
  · have hlink := linkStr_stridx (h := h1) hk hroom
    rw [hbucket1 k hk] at hlink
    rw [← hlink, ← heq, show base = 0 from hzero]
    exact loadNum_congr fun i _ => flush_mem (by omega)

/-! ## The linked lists of a small heap

The hash table of a small heap is complete.  A bucket is a chain of links, the last one first, so
searching it ends and finds every string in it. -/

/-- The links of a bucket, the last one first. -/
def refs (B : Build) (es : List (ℕ × Str)) (k : ℕ) : List ℕ :=
  (es.filter fun e => bucketOf B e.2.bytes = k).map Prod.fst

/-- Every bucket has a list of its strings.  An entry is the position of the link and the string
behind it. -/
structure Linked (B : Build) (h : StrHeap) (es : List (ℕ × Str)) : Prop where
  behind : ∀ e ∈ es, B.strhashsize ≤ e.1
  stored : ∀ e ∈ es, Stored B h e.2 (B.stridxSize + e.1 + B.extralen)
  nodup : (es.map Prod.snd).Nodup
  chain : ∀ k < 1024, Chain (h.stridx B) 0 (h.bucket B k) (refs B es k)

variable {es : List (ℕ × Str)}

theorem mem_refs : r ∈ refs B es k ↔ ∃ w, (r, w) ∈ es ∧ bucketOf B w.bytes = k := by
  unfold refs
  rw [List.mem_map]
  constructor
  · rintro ⟨⟨r, w⟩, he, rfl⟩
    obtain ⟨he, hk⟩ := mem_filter.mp he
    exact ⟨w, he, of_decide_eq_true hk⟩
  · rintro ⟨w, he, hk⟩
    exact ⟨(r, w), mem_filter.mpr ⟨he, decide_eq_true hk⟩, rfl⟩

theorem findRef_eq (v : List ℕ) {l : List ℕ} {fuel : ℕ} (hchain : Chain (h.stridx B) 0 r l)
    (hfuel : l.length ≤ fuel) : h.findRef B v fuel r =
      l.find? fun r => strCmp h.mem v (r + B.stridxSize + h.extralen B) = 0 := by
  induction hchain generalizing fuel with
  | nil =>
    cases fuel with
    | zero => rfl
    | succ fuel => rw [findRef, if_pos rfl, find?_nil]
  | @cons r l hne _ ih =>
    cases fuel with
    | zero => exact absurd hfuel (not_succ_le_zero _)
    | succ fuel =>
      rw [findRef, if_neg hne, find?_cons, ih (le_of_succ_le_succ hfuel)]
      split_ifs with hcmp
      · rw [decide_eq_true hcmp]
      · rw [decide_eq_false hcmp]

theorem Linked.lt_free (hl : Linked B h es) {e : ℕ × Str} (he : e ∈ es) : e.1 < h.free := by
  have := (hl.stored e he).inside
  omega

theorem Linked.length_le (hl : Linked B h es) (hk : k < 1024) : (refs B es k).length ≤ h.free := by
  have hsub : refs B es k ⊆ range h.free := fun r hr => by
    obtain ⟨w, he, -⟩ := mem_refs.mp hr
    exact mem_range.mpr (hl.lt_free he)
  have hlen := (List.Nodup.subperm (hl.chain k hk).nodup hsub).length_le
  rwa [length_range] at hlen

/-- **A string that is found is linked, and a linked string is found.** -/
theorem Linked.findRef (hl : Linked B h es) (hhash : h.hashash = true) (v : Str) (r : ℕ) :
    h.findRef B v.bytes h.free (h.bucket B (bucketOf B v.bytes)) = some r ↔ (r, v) ∈ es := by
  have hk := bucketOf_lt (B := B) v.bytes
  have hextra : h.extralen B = B.extralen := if_pos hhash
  -- at a link of the bucket, the comparison finds out which string it is
  have hcmp : ∀ r w, (r, w) ∈ es →
      (strCmp h.mem v.bytes (r + B.stridxSize + h.extralen B) = 0 ↔ v = w) := by
    intro r w he
    rw [hextra, add_comm r]
    exact (hl.stored _ he).strCmp_eq_zero
  rw [findRef_eq v.bytes (hl.chain _ hk) (hl.length_le hk)]
  constructor
  · intro hfind
    obtain ⟨w, he, -⟩ := mem_refs.mp (mem_of_find?_eq_some hfind)
    have hzero := find?_some hfind
    rw [decide_eq_true_iff, hcmp r w he] at hzero
    rwa [hzero]
  · intro he
    have hmem : r ∈ refs B es (bucketOf B v.bytes) := mem_refs.mpr ⟨v, he, rfl⟩
    cases hfind : (refs B es (bucketOf B v.bytes)).find?
        fun r => strCmp h.mem v.bytes (r + B.stridxSize + h.extralen B) = 0 with
    | none =>
      have hnot := find?_eq_none.mp hfind r hmem
      exact absurd (decide_eq_true ((hcmp r v he).mpr rfl)) hnot
    | some r' =>
      obtain ⟨w, he', -⟩ := mem_refs.mp (mem_of_find?_eq_some hfind)
      have hzero := find?_some hfind
      rw [decide_eq_true_iff, hcmp r' w he'] at hzero
      subst hzero
      -- no string is linked twice
      have heq := inj_on_of_nodup_map hl.nodup he' he rfl
      rw [(Prod.mk.inj heq).1]

/-- **An inserted string is linked in front of its bucket** while the heap is small. -/
theorem Linked.insert (hl : Linked B h es) (hins : Inserted B h h' v pad pos)
    (hfree : B.strhashsize ≤ h.free) (hpad : B.stridxSize ≤ pad) (hsmall : h'.free < elimlimit)
    (hnew : ∀ r, (r, v) ∉ es) : Linked B h' ((h.free + pad - B.stridxSize, v) :: es) := by
  have hle := hins.keeps.free_le
  have hbase : elimbase h.free = 0 := by
    rw [elimbase, div_eq_of_lt (by omega), zero_mul]
  have hpos := hins.pos_eq
  have hlimit := B.elimlimit_le
  have hinside := hins.stored.inside
  have htable : 0 < B.strhashsize := (Nat.two_pow_pos _).trans_le B.pow_le_strhashsize
  refine ⟨forall_mem_cons.mpr ⟨by omega, hl.behind⟩,
    forall_mem_cons.mpr ⟨?_, fun e he => hins.keeps.stored (hl.stored e he)⟩, ?_, fun k hk => ?_⟩
  · have heq : B.stridxSize + (h.free + pad - B.stridxSize) + B.extralen = pos := by omega
    rw [heq]
    exact hins.stored
  · refine nodup_cons.mpr ⟨fun hmem => ?_, hl.nodup⟩
    obtain ⟨⟨r, w⟩, he, heq⟩ := mem_map.mp hmem
    exact hnew r (by rw [← show w = v from heq]; exact he)
  · -- the old links are where they were
    have hold : Chain (h'.stridx B) 0 (h.bucket B k) (refs B es k) := by
      refine (hl.chain k hk).congr fun r hr => loadNum_congr fun i hi => ?_
      obtain ⟨w, he, -⟩ := mem_refs.mp hr
      have := hl.behind _ he
      have := (hl.stored _ he).inside
      exact (hins.keeps.mem _ (by omega) (by omega)).symm
    by_cases heq : bucketOf B v.bytes = k
    · subst heq
      have hbucket := hins.bucket (by omega)
      rw [if_pos hbase, mod_eq_of_lt (by omega)] at hbucket
      have hlink := hins.link hbase
      have hrefs : refs B ((h.free + pad - B.stridxSize, v) :: es) (bucketOf B v.bytes) =
          (h.free + pad - B.stridxSize) :: refs B es (bucketOf B v.bytes) := by
        unfold refs
        rw [filter_cons, if_pos (decide_eq_true rfl), map_cons]
      -- the bucket was empty or held a position in the first 64 KB
      have hstart : h.bucket B (bucketOf B v.bytes) < 256 ^ B.stridxSize := by
        rcases (hl.chain _ hk).start_mem with hzero | hmem
        · omega
        · obtain ⟨w, he, -⟩ := mem_refs.mp hmem
          have := hl.lt_free he
          omega
      rw [mod_eq_of_lt hstart] at hlink
      rw [hrefs, hbucket]
      refine .cons (by omega) ?_
      rw [hlink]
      exact hold
    · have hrefs : refs B ((h.free + pad - B.stridxSize, v) :: es) k = refs B es k := by
        unfold refs
        rw [filter_cons_of_neg (by simpa using heq)]
      rw [hrefs, hins.others (by omega) k hk fun h => heq h.symm]
      exact hold

end StrHeap

/-! ## Sequences of puts

A run records the offsets that were returned.  The invariant is that each is the place of its
string, and that the lists are complete as long as the heap is small. -/

/-- A heap with the strings that were put and the offsets that were returned. -/
structure StrRun where
  heap : StrHeap
  puts : List (Str × ℕ)

namespace StrRun

open StrHeap

variable {B : Build} {s s' : StrRun} {v : Str} (x : ℕ)

/-- A call of `strPut`, which may fail.  A heap that is lost is `none`, and there are no further
calls. -/
def Step (B : Build) : Option StrRun → Str × Extend.System → Option StrRun → Prop
  | none, _, _ => False
  | some s, (v, sys), s' =>
    match s.heap.strPut B v.bytes sys with
    | .ok (h, off) => s' = some ⟨h, (v, off) :: s.puts⟩
    | .error left => s' = left.map fun h => ⟨h, s.puts⟩

/-- **The call does not lose the heap**: it succeeds, or fails with the heap still there. -/
def HeapKept (B : Build) : Option StrRun → Str × Extend.System → Prop
  | none, _ => True
  | some s, (v, sys) => s.heap.strPut B v.bytes sys ≠ .error none

/-- The entries `es` are the strings that were put. -/
structure Covers (B : Build) (es : List (ℕ × Str)) (puts : List (Str × ℕ)) : Prop where
  entry : ∀ x ∈ puts, ∃ r, (r, x.1) ∈ es ∧ x.2 = varOf B (B.stridxSize + r + B.extralen)
  put : ∀ e ∈ es, ∃ off, (e.2, off) ∈ puts

/-- What holds throughout. -/
structure Inv (B : Build) (s : StrRun) : Prop where
  hashash : s.heap.hashash = true
  size_le : s.heap.size ≤ B.reach
  free_ge : B.strhashsize ≤ s.heap.free
  stored : ∀ x ∈ s.puts, ∃ pos, Stored B s.heap x.1 pos ∧ x.2 = varOf B pos
  small : s.heap.free < elimlimit → ∃ es, Linked B s.heap es ∧ Covers B es s.puts
  large : elimlimit ≤ s.heap.free → ∀ k < 1024, s.heap.bucket B k = 0 ∨
    ∃ v, Stored B s.heap v (elimbase s.heap.free + s.heap.bucket B k + B.extralen)

theorem elimbase_eq_zero {x : ℕ} : elimbase x = 0 ↔ x < elimlimit := by
  have hpos : 0 < elimlimit := by decide
  unfold elimbase
  rw [Nat.mul_eq_zero, or_iff_left hpos.ne', Nat.div_eq_zero_iff, or_iff_right hpos.ne']

theorem elimbase_congr {x y : ℕ} (hle : x ≤ y) (hlt : y < elimbase x + elimlimit) :
    elimbase y = elimbase x := by
  have hpos : 0 < elimlimit := by decide
  unfold elimbase at *
  congr 1
  apply le_antisymm
  · rw [← succ_mul] at hlt
    exact Nat.lt_succ_iff.mp ((Nat.div_lt_iff_lt_mul hpos).mpr hlt)
  · exact Nat.div_le_div_right hle

theorem Inv.found (hs : s.Inv B) {pos : ℕ} (hstored : Stored B s.heap v pos)
    (hsmall : s.heap.free < elimlimit → ∀ es, Linked B s.heap es → ∃ r, (r, v) ∈ es ∧
      pos = B.stridxSize + r + B.extralen) : Inv B ⟨s.heap, (v, varOf B pos) :: s.puts⟩ := by
  refine ⟨hs.hashash, hs.size_le, hs.free_ge,
    forall_mem_cons.mpr ⟨⟨pos, hstored, rfl⟩, hs.stored⟩, fun hlt => ?_, hs.large⟩
  obtain ⟨es, hl, hcovers⟩ := hs.small hlt
  obtain ⟨r, hr, rfl⟩ := hsmall hlt es hl
  refine ⟨es, hl, forall_mem_cons.mpr ⟨⟨r, hr, rfl⟩, hcovers.entry⟩, fun e he => ?_⟩
  exact (hcovers.put e he).imp fun off hoff => mem_cons_of_mem _ hoff

theorem Inv.inserted (hs : s.Inv B) {h' : StrHeap} {pad pos : ℕ}
    (hins : Inserted B s.heap h' v pad pos) (hpad : elimbase s.heap.free = 0 → B.stridxSize ≤ pad)
    (hnew : ∀ es, s.heap.free < elimlimit → Linked B s.heap es → ∀ r, (r, v) ∉ es) :
    Inv B ⟨h', (v, varOf B pos) :: s.puts⟩ := by
  have hle := hins.keeps.free_le
  have hfree := hs.free_ge
  refine ⟨hins.hashash, hins.size_le, hfree.trans hle,
    forall_mem_cons.mpr ⟨⟨pos, hins.stored, rfl⟩, fun x hx => ?_⟩, fun hlt => ?_,
    fun hge k hk => ?_⟩
  · exact (hs.stored x hx).imp fun pos' => And.imp_left hins.keeps.stored
  · have hlt : h'.free < elimlimit := hlt
    have hlt0 : s.heap.free < elimlimit := by omega
    obtain ⟨es, hl, hcovers⟩ := hs.small hlt0
    have hpad := hpad (elimbase_eq_zero.mpr hlt0)
    have heq : B.stridxSize + (s.heap.free + pad - B.stridxSize) + B.extralen = pos := by
      have := hins.pos_eq
      omega
    refine ⟨_, hl.insert hins hfree hpad hlt (hnew es hlt0 hl),
      forall_mem_cons.mpr ⟨⟨_, mem_cons_self, by rw [heq]⟩, fun x hx => ?_⟩,
      forall_mem_cons.mpr ⟨⟨_, mem_cons_self⟩, fun e he => ?_⟩⟩
    · exact (hcovers.entry x hx).imp fun r => And.imp_left (mem_cons_of_mem _)
    · exact (hcovers.put e he).imp fun off => mem_cons_of_mem _
  · rcases lt_or_ge h'.free (elimbase s.heap.free + elimlimit) with hlt | hflush
    swap
    · exact .inl (hins.flushed hflush k hk)
    have hge : elimlimit ≤ h'.free := hge
    -- the heap was large before, and the positions count from the same base
    have hbase : elimbase s.heap.free ≠ 0 := fun hzero => by omega
    have hlarge : elimlimit ≤ s.heap.free := by
      by_contra hnot
      exact hbase (elimbase_eq_zero.mpr (not_le.mp hnot))
    have hsame := elimbase_congr hle hlt
    rw [hsame]
    by_cases hkv : k = StrHeap.bucketOf B v.bytes
    · subst hkv
      have hlimit := B.elimlimit_le
      have hb : elimbase s.heap.free ≤ s.heap.free := div_mul_le_self _ _
      have hpos := hins.pos_eq
      have hinside := hins.stored.inside
      rw [hins.bucket hlt, if_neg hbase, mod_eq_of_lt (by omega)]
      refine .inr ⟨v, ?_⟩
      have heq : elimbase s.heap.free + (s.heap.free + pad - elimbase s.heap.free) + B.extralen =
        pos := by omega
      rw [heq]
      exact hins.stored
    · rw [hins.others hlt k hk hkv]
      exact (hs.large hlarge k hk).imp_right fun ⟨w, hw⟩ => ⟨w, hins.keeps.stored hw⟩

theorem pad_dvd : B.varalign ∣ x + (B.varalign - x % B.varalign) := by
  have hpos : 0 < B.varalign := B.stridxSize_pos.trans_le B.stridxSize_le
  have hmod := div_add_mod x B.varalign
  have hlt := mod_lt x hpos
  refine ⟨x / B.varalign + 1, ?_⟩
  rw [mul_add]
  omega

theorem pad_mod_dvd : B.varalign ∣ x + (B.varalign - x % B.varalign) % B.varalign := by
  have hmod := pad_dvd (B := B) x
  rw [dvd_iff_mod_eq_zero] at hmod ⊢
  rwa [add_mod_mod]

/-- **A call of `strPut` keeps the invariant.** -/
theorem inv_step {a : Str × Extend.System} {x x' : Option StrRun} (hs : ∃ s, x = some s ∧ s.Inv B)
    (hkept : HeapKept B x a) (hstep : Step B x a x') : ∃ s, x' = some s ∧ s.Inv B := by
  obtain ⟨s, rfl, hs⟩ := hs
  obtain ⟨v, sys⟩ := a
  dsimp only [Step] at hstep
  have hextra : s.heap.extralen B = B.extralen := if_pos hs.hashash
  cases hrun : s.heap.strPut B v.bytes sys with
  | error left =>
    rw [hrun] at hstep
    cases left with
    | none => exact absurd hrun hkept
    | some h =>
      obtain rfl := strPut_error hrun
      exact ⟨s, hstep, hs⟩
  | ok r =>
    obtain ⟨h', off⟩ := r
    rw [hrun] at hstep
    refine ⟨_, hstep, ?_⟩
    unfold strPut at hrun
    rw [hextra] at hrun
    by_cases hbase : elimbase s.heap.free = 0
    · -- a small heap
      have hlt := elimbase_eq_zero.mp hbase
      obtain ⟨es, hl, -⟩ := hs.small hlt
      rw [if_pos hbase] at hrun
      cases hfind : s.heap.findRef B v.bytes s.heap.free
          (s.heap.bucket B (StrHeap.bucketOf B v.bytes)) with
      | some r =>
        rw [hfind] at hrun
        obtain ⟨rfl, rfl⟩ := Prod.mk.inj (Except.ok.inj hrun)
        have hmem := (hl.findRef hs.hashash v r).mp hfind
        refine hs.found (hl.stored _ hmem) fun _ es' hl' => ?_
        exact ⟨r, (hl'.findRef hs.hashash v r).mp hfind, rfl⟩
      | none =>
        rw [hfind] at hrun
        have hidx := B.stridxSize_le
        obtain ⟨pos, hins, rfl⟩ := insert_spec hs.hashash hs.size_le hs.free_ge (by
            split_ifs
            · rw [← add_assoc]
              exact Nat.dvd_add (pad_dvd _) (Nat.dvd_refl _)
            · exact pad_dvd _)
          (fun _ => by split_ifs <;> omega) hrun
        refine hs.inserted hins (fun _ => by split_ifs <;> omega) fun es' _ hl' r hr => ?_
        rw [(hl'.findRef hs.hashash v r).mpr hr] at hfind
        cases hfind
    · -- a large heap
      have hge : elimlimit ≤ s.heap.free := by
        by_contra hnot
        exact hbase (elimbase_eq_zero.mpr (not_le.mp hnot))
      have hnew : ∀ es, s.heap.free < elimlimit → Linked B s.heap es → ∀ r, (r, v) ∉ es :=
        fun _ hlt => absurd hlt (not_lt.mpr hge)
      rw [if_neg hbase] at hrun
      by_cases hb : s.heap.bucket B (StrHeap.bucketOf B v.bytes) = 0
      · rw [if_pos hb] at hrun
        obtain ⟨pos, hins, rfl⟩ := insert_spec hs.hashash hs.size_le hs.free_ge (pad_dvd _)
          (fun hzero => absurd hzero hbase) hrun
        exact hs.inserted hins (fun hzero => absurd hzero hbase) hnew
      split_ifs at hrun with hcmp hzero
      · obtain ⟨rfl, rfl⟩ := Prod.mk.inj (Except.ok.inj hrun)
        obtain ⟨w, hw⟩ := (hs.large hge _ (bucketOf_lt v.bytes)).resolve_left hb
        obtain rfl := hw.strCmp_eq_zero.mp hcmp
        exact hs.found hw fun hlt => absurd hlt (not_lt.mpr hge)
      · exact absurd hzero.1 (by cases B <;> decide)
      · obtain ⟨pos, hins, rfl⟩ := insert_spec hs.hashash hs.size_le hs.free_ge (pad_mod_dvd _)
          (fun hzero => absurd hzero hbase) hrun
        exact hs.inserted hins (fun hzero => absurd hzero hbase) hnew

/-- A new heap. -/
def start (B : Build) (mem : ℕ → ℕ) (cap maxsize : ℕ) : StrRun := ⟨strHeap B mem cap maxsize, []⟩

theorem inv_start (mem : ℕ → ℕ) (cap maxsize : ℕ) : (start B mem cap maxsize).Inv B := by
  have htable := B.strhashsize_add_le
  have hreach := B.tiny_le_reach
  refine ⟨rfl, ?_, le_rfl, nofun, fun _ => ⟨[], ⟨nofun, nofun, nodup_nil, ?_⟩, nofun, nofun⟩,
    fun hge => ?_⟩
  · change B.strhashsize + min elimlimit _ ≤ _
    omega
  · intro k hk
    have hentry := entry_le (B := B) hk
    have hzero : (strHeap B mem cap maxsize).bucket B k = 0 :=
      loadNum_clear (zero_le _) (by omega)
    change Chain _ 0 ((strHeap B mem cap maxsize).bucket B k) []
    rw [hzero]
    exact .nil
  · have hidx := B.stridxSize_pos
    change elimlimit ≤ B.strhashsize at hge
    omega

/-- The string `abc`. -/
def abc : Str := ⟨[97, 98, 99], by decide, by decide⟩

/-- The string `de`. -/
def de : Str := ⟨[100, 101], by decide, by decide⟩

/-- The heap after a call for which there is memory. -/
def put (h : StrHeap) (v : Str) : StrHeap :=
  ((h.strPut .oid64 v.bytes .grants).toOption.map Prod.fst).getD h

theorem step_put {off : ℕ}
    (hrun : (s.heap.strPut .oid64 v.bytes .grants).toOption.map Prod.snd = some off) :
    HeapKept .oid64 (some s) (v, .grants) ∧
      Step .oid64 (some s) (v, .grants) (some ⟨put s.heap v, (v, off) :: s.puts⟩) := by
  dsimp only [HeapKept, Step]
  unfold put
  cases h : s.heap.strPut .oid64 v.bytes .grants with
  | error left =>
    rw [h] at hrun
    cases hrun
  | ok r =>
    rw [h] at hrun
    obtain rfl := some.inj hrun
    exact ⟨nofun, rfl⟩

/-- The call has lost the heap. -/
def isLost : Except (Option StrHeap) (StrHeap × ℕ) → Bool
  | .error none => true
  | _ => false

theorem eq_of_isLost {r : Except (Option StrHeap) (StrHeap × ℕ)} (h : isLost r = true) :
    r = .error none := by
  cases r with
  | error left =>
    cases left with
    | none => rfl
    | some => cases h
  | ok => cases h

end StrRun

end MonetInR.Gdk
