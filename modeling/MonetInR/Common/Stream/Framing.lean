import MonetInR.Lib.Marked
import Mathlib.Data.List.Induction
import Mathlib.Tactic.Linarith
import Mathlib.Tactic.FinCases

/-!
# Block streams

A block stream cuts what is written to it in blocks, and sends each block behind a short that holds
its size, with a low bit that says whether the block is the last one before a flush.  The side that
reads puts the blocks together again, and returns an empty read at each flush.

The calls of the side that writes make a sequence of bytes with a mark at each flush.  Whatever the
sizes of the reads are, and in whatever pieces the underlying stream delivers, the other side gets
this sequence back.

The element size is 1 throughout.  The counters `blks` and `bytes`, which nothing reads, are left
out.

## Main definitions

* `BlockWriter`, `bsWrite`, `bsFlush`: the side that writes
* `BlockReader`, `bsRead`, `bsReadNext`: the side that reads
* `Delivery`: the underlying stream
* `Frame`: a block, with its size as it is sent
* `Sent`, `Reads`: what the two sides have to do with a sequence of frames
* `answers`: what the calls of the side that reads are to return

## Main results

* `Sent.calls`: what has been sent
* `Reads.call`: one call returns the next part, or waits for more to be sent
* `block_stream_framing`: the two sides together
-/

namespace MonetInR.Stream

open Marked List Option Nat

/-- The size of the buffer. -/
def BLOCK : ℕ := 8 * 1024 - 2

/-- `mnstr_writeSht`, in little-endian byte order. -/
def writeSht (v : ℕ) : List UInt8 := [UInt8.ofNat (v % 256), UInt8.ofNat (v / 256)]

/-! ## Writing -/

/-- The side that writes: the filled part of the buffer (its length is `nr`), and what has been
written to the underlying stream. -/
structure BlockWriter where
  buf : List UInt8
  out : List UInt8

/-- `bs_create`. -/
def BlockWriter.create : BlockWriter := ⟨[], []⟩

/-- Write the buffer to the stream, with the flag `last`. -/
def BlockWriter.send (s : BlockWriter) (last : Bool) : BlockWriter :=
  ⟨[], s.out ++ writeSht ((s.buf.length <<< 1) ||| last.toNat) ++ s.buf⟩

/-- Fill the buffer, and send it when it is full, until all data is used.  There are at most `n`
rounds. -/
def bsWriteLoop : ℕ → BlockWriter → List UInt8 → BlockWriter
  | 0, s, _ => s
  | n + 1, s, data =>
    if 0 < data.length then
      let k := min data.length (BLOCK - s.buf.length)
      let s := { s with buf := s.buf ++ data.take k }
      bsWriteLoop n (if s.buf.length = BLOCK then s.send false else s) (data.drop k)
    else s

/-- `bs_write`. -/
def bsWrite (s : BlockWriter) (data : List UInt8) : BlockWriter := bsWriteLoop data.length s data

/-- `bs_flush`: an empty block is sent as well. -/
def bsFlush (s : BlockWriter) : BlockWriter := s.send true

/-- What the user of the stream does. -/
inductive WriteCall
  | write (data : List UInt8)
  | flush

def BlockWriter.call (s : BlockWriter) : WriteCall → BlockWriter
  | .write data => bsWrite s data
  | .flush => bsFlush s

/-! ## Reading -/

/-- The underlying stream delivers all bytes in order, but a read of `n` bytes may return fewer:
`chunk input n` of the bytes `input` that have not been delivered. -/
structure Delivery where
  chunk : List UInt8 → ℕ → ℕ
  pos : ∀ input n, input ≠ [] → 0 < n → 0 < chunk input n
  le : ∀ input n, chunk input n ≤ n
  le_length : ∀ input n, chunk input n ≤ input.length

/-- The side that reads. -/
structure BlockReader where
  /-- What the underlying stream has not yet delivered. -/
  input : List UInt8
  /-- The amount of data in the current block that has not been read. -/
  itotal : ℕ
  /-- The flush marker has to be returned. -/
  nr : Bool

/-- `mnstr_readSht`, or no result if there is no number that is not negative. -/
def readSht : List UInt8 → Option (ℕ × List UInt8)
  | a :: b :: input =>
    if a.toNat + 256 * b.toNat < 2 ^ 15 then some (a.toNat + 256 * b.toNat, input) else none
  | _ => none

/-- Read the size of the next block. -/
def BlockReader.nextBlock (s : BlockReader) : Option BlockReader :=
  (readSht s.input).map fun (blksize, input) => ⟨input, blksize >>> 1, blksize &&& 1 == 1⟩

/-- Read `n` bytes in as many pieces as they come in.  There are at most `f` of them. -/
def readChunks (d : Delivery) : ℕ → List UInt8 → ℕ → Option (List UInt8 × List UInt8)
  | _, input, 0 => some ([], input)
  | 0, _, _ + 1 => none
  | f + 1, input, n + 1 =>
    let m := d.chunk input (n + 1)
    if m = 0 then none
    else (readChunks d f (input.drop m) (n + 1 - m)).map fun (got, rest) =>
      (input.take m ++ got, rest)

/-- The loop of `bs_read`: read `todo` more bytes behind those that are already there, unless the
flush marker is reached.  There are at most `f` rounds.  Returns the bytes and how many are missing,
or nothing on an error. -/
def bsReadLoop (d : Delivery) : ℕ → BlockReader → ℕ → List UInt8 →
    Option (List UInt8 × ℕ × BlockReader)
  | _, s, 0, got => some (got, 0, s)
  | 0, _, _ + 1, _ => none
  | f + 1, s, todo + 1, got =>
    let n := min (todo + 1) s.itotal
    match readChunks d n s.input n with
    | none => none
    | some (bytes, input) =>
      if s.itotal - n = 0 then
        if s.nr then some (got ++ bytes, todo + 1 - n, ⟨input, s.itotal - n, s.nr⟩)
        else
          match (BlockReader.mk input (s.itotal - n) s.nr).nextBlock with
          | none => none
          | some s => bsReadLoop d f s (todo + 1 - n) (got ++ bytes)
      else bsReadLoop d f ⟨input, s.itotal - n, s.nr⟩ (todo + 1 - n) (got ++ bytes)

/-- `bs_read`. -/
def bsRead (d : Delivery) (s : BlockReader) (cnt : ℕ) : Option (List UInt8 × BlockReader) :=
  if s.itotal = 0 ∧ s.nr = true then some ([], { s with nr := false })
  else
    match if s.itotal = 0 then s.nextBlock else some s with
    | none => none
    | some s =>
      match bsReadLoop d (s.input.length + cnt + 1) s cnt [] with
      | none => none
      | some (got, todo, s) =>
        -- an empty block at a flush must be returned only once
        some (got, if 0 < todo ∧ got = [] then { s with nr := false } else s)

/-- `bs_read_next`: also say whether this was the last part of a message. -/
def bsReadNext (d : Delivery) (s : BlockReader) (nbytes : ℕ) :
    Option (List UInt8 × Bool × BlockReader) :=
  (bsRead d s nbytes).map fun (got, s) =>
    (got, s.itotal == 0, if s.itotal = 0 then { s with nr := false } else s)

/-- What the user of the stream does. -/
inductive ReadCall
  | read (cnt : ℕ)
  | next (nbytes : ℕ)

/-- What the user gets. -/
inductive ReadResult
  | read (got : List UInt8)
  | next (got : List UInt8) (last : Bool)
  deriving DecidableEq

def BlockReader.call (d : Delivery) (s : BlockReader) : ReadCall → Option (ReadResult × BlockReader)
  | .read cnt => (bsRead d s cnt).map fun (got, s) => (.read got, s)
  | .next nbytes => (bsReadNext d s nbytes).map fun (got, last, s) => (.next got last, s)

/-- The results of a sequence of calls, until one fails. -/
def BlockReader.calls (d : Delivery) (s : BlockReader) : List ReadCall → List ReadResult
  | [] => []
  | c :: cs =>
    match s.call d c with
    | none => []
    | some (r, s) => r :: calls d s cs

/-! ## Frames

Sizes are less than half of what a short holds, so that the low bit is free for the mark. -/

/-- A block. -/
structure Frame where
  data : List UInt8
  last : Bool

namespace Frame

/-- The bytes that are sent. -/
def encode (f : Frame) : List UInt8 := writeSht ((f.data.length <<< 1) ||| f.last.toNat) ++ f.data

/-- What the bytes stand for. -/
def events (f : Frame) : List (Option UInt8) := f.data.map some ++ if f.last then [none] else []

/-- Only the last block of a message may be empty, and none is larger than the buffer. -/
structure Valid (f : Frame) : Prop where
  le : f.data.length ≤ BLOCK
  ne_nil : f.last = false → f.data ≠ []

theorem shiftLeft_or_toNat (n : ℕ) (last : Bool) : (n <<< 1) ||| last.toNat = 2 * n + last.toNat :=
     by
  have hlt : last.toNat < 2 ^ 1 := Bool.toNat_lt last
  rw [shiftLeft_eq, mul_comm, ← two_pow_add_eq_or_of_lt hlt]

theorem readSht_writeSht {v : ℕ} (hv : v < 2 ^ 15) (rest : List UInt8) :
    readSht (writeSht v ++ rest) = some (v, rest) := by
  have hlow : (UInt8.ofNat (v % 256)).toNat = v % 256 := by
    rw [UInt8.toNat_ofNat']
    omega
  have hhigh : (UInt8.ofNat (v / 256)).toNat = v / 256 := by
    rw [UInt8.toNat_ofNat']
    omega
  have hsum : v % 256 + 256 * (v / 256) = v := mod_add_div v 256
  simp only [writeSht, cons_append, nil_append, readSht, hlow, hhigh, hsum, if_pos hv]

theorem nextBlock_encode {f : Frame} (hf : f.Valid) (rest : List UInt8) (itotal : ℕ) (nr : Bool) :
    (BlockReader.mk (f.encode ++ rest) itotal nr).nextBlock =
      some ⟨f.data ++ rest, f.data.length, f.last⟩ := by
  have hle := hf.le
  have hblock : BLOCK = 8190 := rfl
  have hbit : f.last.toNat ≤ 1 := Bool.toNat_le f.last
  rw [BlockReader.nextBlock, encode, append_assoc, shiftLeft_or_toNat,
    readSht_writeSht (by omega), map_some]
  dsimp only
  congr 2
  · omega
  · cases hlast : f.last
    · simp
    · simp [add_mod]

end Frame

/-! ## The side that writes

The invariant splits what has been written into the frames that were sent and what is in the buffer.
-/

/-- The part of `ev` that is not in the buffer has been sent in frames. -/
structure Sent (s : BlockWriter) (ev : List (Option UInt8)) (frames : List Frame) : Prop where
  out : s.out = frames.flatMap Frame.encode
  valid : ∀ f ∈ frames, f.Valid
  events : frames.flatMap Frame.events ++ s.buf.map some = ev
  room : s.buf.length < BLOCK

namespace Sent

variable {s : BlockWriter} {ev : List (Option UInt8)} {frames : List Frame}

theorem create : Sent .create [] [] := ⟨rfl, nofun, rfl, by decide⟩

theorem send {last : Bool} (hout : s.out = frames.flatMap Frame.encode)
    (hvalid : ∀ f ∈ frames, f.Valid) (hframe : Frame.Valid ⟨s.buf, last⟩) :
    Sent (s.send last) (frames.flatMap Frame.events ++ Frame.events ⟨s.buf, last⟩)
      (frames ++ [⟨s.buf, last⟩]) := by
  refine ⟨?_, ?_, ?_, (by decide : 0 < BLOCK)⟩
  · simp [BlockWriter.send, hout, Frame.encode]
  · intro f hf
    rcases mem_append.mp hf with hf | hf
    · exact hvalid f hf
    · rw [mem_singleton.mp hf]
      exact hframe
  · simp [BlockWriter.send]

theorem flush (h : Sent s ev frames) : ∃ frames', Sent (bsFlush s) (ev ++ [none]) frames' := by
  have hframe : Frame.Valid ⟨s.buf, true⟩ := ⟨h.room.le, nofun⟩
  have hsend := send h.out h.valid hframe
  rw [Frame.events, ← append_assoc, h.events] at hsend
  exact ⟨_, hsend⟩

theorem writeLoop (n : ℕ) (data : List UInt8) (hn : data.length ≤ n) (h : Sent s ev frames) :
    ∃ frames', Sent (bsWriteLoop n s data) (ev ++ data.map some) frames' := by
  induction n generalizing s ev frames data with
  | zero =>
    rw [length_eq_zero_iff.mp (by omega : data.length = 0), map_nil, append_nil]
    exact ⟨frames, h⟩
  | succ n ih =>
    rw [bsWriteLoop]
    by_cases hpos : 0 < data.length
    swap
    · rw [length_eq_zero_iff.mp (by omega : data.length = 0), map_nil, append_nil]
      exact ⟨frames, h⟩
    dsimp only
    have hroom := h.room
    set k := min data.length (BLOCK - s.buf.length) with hk
    have hsplit : ev ++ data.map some =
        ev ++ (data.take k).map some ++ (data.drop k).map some := by
      rw [append_assoc, ← map_append, take_append_drop]
    have hlen : (s.buf ++ data.take k).length = s.buf.length + k := by
      rw [length_append, length_take]
      omega
    have hdrop : (data.drop k).length ≤ n := by
      rw [length_drop]
      omega
    have hev : frames.flatMap Frame.events ++ (s.buf ++ data.take k).map some =
        ev ++ (data.take k).map some := by
      rw [map_append, ← append_assoc, h.events]
    rw [hsplit]
    -- either the buffer is full now, or all data is in it
    split_ifs with hfull
    · have hne : s.buf ++ data.take k ≠ [] := fun hnil => by
        rw [hnil] at hfull
        exact absurd hfull (by decide)
      have hframe : Frame.Valid ⟨s.buf ++ data.take k, false⟩ := ⟨hfull.le, fun _ => hne⟩
      have hsend := send (s := ⟨s.buf ++ data.take k, s.out⟩) h.out h.valid hframe
      rw [Frame.events, ← append_assoc, hev] at hsend
      exact ih _ hdrop (append_nil (ev ++ _) ▸ hsend)
    · have hlt : (s.buf ++ data.take k).length < BLOCK := by omega
      exact ih _ hdrop ⟨h.out, h.valid, hev, hlt⟩

end Sent

/-- What a call of the side that writes adds. -/
def WriteCall.events : WriteCall → List (Option UInt8)
  | .write data => data.map some
  | .flush => [none]

/-- **What has been sent** after any calls, apart from what is still in the buffer. -/
theorem Sent.calls (ops : List WriteCall) :
    ∃ frames, Sent (ops.foldl BlockWriter.call .create) (ops.flatMap WriteCall.events) frames := by
  induction ops using reverseRecOn with
  | nil => exact ⟨[], .create⟩
  | append_singleton ops op ih =>
    obtain ⟨frames, h⟩ := ih
    rw [foldl_append, flatMap_append, flatMap_singleton]
    cases op with
    | write data => exact h.writeLoop _ data le_rfl
    | flush => exact h.flush

/-! ## The side that reads

The invariant is the mirror image: what is still to be read is the rest of a block and further
frames.  A read stops at a mark, and the next one returns the mark. -/

/-- The underlying stream delivers what is asked for, if it is there. -/
theorem readChunks_eq (d : Delivery) (f n : ℕ) (input : List UInt8) (hf : n ≤ f)
    (hn : n ≤ input.length) : readChunks d f input n = some (input.take n, input.drop n) := by
  induction f generalizing n input with
  | zero =>
    obtain rfl : n = 0 := by omega
    rfl
  | succ f ih =>
    cases n with
    | zero => rfl
    | succ n =>
      have hne : input ≠ [] := fun hnil => by
        rw [hnil] at hn
        exact absurd hn (by simp)
      -- a delivery is never empty, so there are enough rounds
      have hpos := d.pos input (n + 1) hne (by omega)
      have hle := d.le input (n + 1)
      rw [readChunks, if_neg (by omega), ih _ _ (by omega) (by rw [length_drop]; omega), map_some]
      dsimp only
      congr 2
      · rw [← take_add]
        congr 1
        omega
      · rw [drop_drop]
        congr 1
        omega

/-- The side that reads has `sent` before it: the rest of a block, and further frames. -/
structure Reads (s : BlockReader) (sent : List (Option UInt8)) (data : List UInt8)
    (frames : List Frame) : Prop where
  input : s.input = data ++ frames.flatMap Frame.encode
  itotal : s.itotal = data.length
  valid : ∀ f ∈ frames, f.Valid
  sent : sent = data.map some ++ (if s.nr then [none] else []) ++ frames.flatMap Frame.events

/-- The same inside of a block, or at the mark behind it. -/
structure InBlock (s : BlockReader) (sent : List (Option UInt8)) (data : List UInt8)
    (frames : List Frame) : Prop extends Reads s sent data frames where
  mark : s.itotal = 0 → s.nr = true

/-- What is before the side that reads after a read, together with what will be sent. -/
def Leaves (s : BlockReader) (more ev : List (Option UInt8)) : Prop :=
  ∃ sent data frames, InBlock s sent data frames ∧ sent ++ more = ev

namespace Reads

variable {s : BlockReader} {sent rest : List (Option UInt8)} {data : List UInt8}
  {frames : List Frame} (d : Delivery) {cnt : ℕ} (more : List (Option UInt8))

theorem nextBlock (h : Reads s sent [] frames) (hnr : s.nr = false) :
    (s.nextBlock = none ∧ sent = []) ∨
      ∃ s' data' frames', s.nextBlock = some s' ∧ InBlock s' sent data' frames' ∧
        s'.input.length < s.input.length := by
  obtain ⟨hinput, hitotal, hvalid, hsent⟩ := h
  rw [hnr] at hsent
  obtain ⟨input, itotal, nr⟩ := s
  subst hinput
  cases frames with
  | nil => exact .inl ⟨rfl, hsent⟩
  | cons f frames =>
    have hf := hvalid f (mem_cons_self ..)
    have hnext := Frame.nextBlock_encode hf (frames.flatMap Frame.encode) itotal nr
    refine .inr ⟨_, f.data, frames, hnext, ⟨⟨rfl, rfl, ?_, ?_⟩, fun hzero => ?_⟩, ?_⟩
    · exact fun f hmem => hvalid f (mem_cons_of_mem _ hmem)
    · rw [hsent]
      rfl
    · by_contra hlast
      exact hf.ne_nil (Bool.eq_false_iff.mpr hlast) (length_eq_zero_iff.mp hzero)
    · simp only [flatMap_cons, Frame.encode, writeSht, length_append, length_cons]
      omega

theorem data_eq_nil (h : Reads s (none :: rest) data frames) : data = [] := by
  cases data with
  | nil => rfl
  | cons x data => exact absurd h.sent nofun

/-- The marker that has to be returned is the first mark. -/
theorem dropMark (h : Reads s (none :: rest) [] frames) (hnr : s.nr = true) :
    Reads { s with nr := false } rest [] frames := by
  obtain ⟨hinput, hitotal, hvalid, hsent⟩ := h
  rw [hnr] at hsent
  exact ⟨hinput, hitotal, hvalid, (cons.inj hsent).2⟩

/-- **The loop of a read** collects bytes up to the next mark.  It waits only if there is no
mark. -/
theorem readLoop (f todo : ℕ) (got : List UInt8) (h : InBlock s sent data frames)
    (hf : s.input.length + todo < f) :
    (bsReadLoop d f s todo got = none ∧ none ∉ sent) ∨
      ∃ s', bsReadLoop d f s todo got = some (got ++ (fill todo (sent ++ more)).1,
          todo - (fill todo (sent ++ more)).1.length, s') ∧
        Leaves s' more (fill todo (sent ++ more)).2 := by
  induction f generalizing s sent data frames todo got with
  | zero => omega
  | succ f ih =>
    cases todo with
    | zero =>
      rw [fill_zero, append_nil]
      exact .inr ⟨s, rfl, sent, data, frames, h, rfl⟩
    | succ todo =>
      obtain ⟨⟨hinput, hitotal, hvalid, hsent⟩, hnr⟩ := h
      have hchunks := readChunks_eq d (min (todo + 1) s.itotal) (min (todo + 1) s.itotal) s.input
        le_rfl (by rw [hinput, length_append]; omega)
      rw [bsReadLoop, hchunks]
      dsimp only
      have hfill := fill_map_append (todo + 1) data
        ((if s.nr then [none] else []) ++ (frames.flatMap Frame.events ++ more))
      rw [← append_assoc, ← append_assoc, ← hsent] at hfill
      by_cases hrest : s.itotal - min (todo + 1) s.itotal = 0
      · -- the block is read to its end
        have hmin : min (todo + 1) s.itotal = data.length := by omega
        have htake : data.take (todo + 1) = data := take_of_length_le (by omega)
        have hdrop : data.drop (todo + 1) = [] := drop_of_length_le (by omega)
        have hbytes : s.input.take data.length = data := by rw [hinput, take_left]
        have hleft : s.input.drop data.length = frames.flatMap Frame.encode := by
          rw [hinput, drop_left]
        have hend : s.itotal - data.length = 0 := by omega
        rw [htake, hdrop, map_nil, nil_append] at hfill
        rw [if_pos hrest, hmin, hbytes, hleft]
        cases hmark : s.nr with
        | true =>
          rw [hmark, if_pos rfl, singleton_append, fill_mark, append_nil] at hfill
          rw [hfill]
          exact .inr ⟨_, rfl, none :: frames.flatMap Frame.events, [], frames,
            ⟨⟨rfl, hend, hvalid, rfl⟩, fun _ => rfl⟩, rfl⟩
        | false =>
          rw [if_neg Bool.false_ne_true]
          rw [hmark, if_neg Bool.false_ne_true, nil_append] at hfill
          have hframes : Reads ⟨frames.flatMap Frame.encode, s.itotal - data.length, false⟩
              (frames.flatMap Frame.events) [] frames :=
            ⟨rfl, hend, hvalid, rfl⟩
          rcases hframes.nextBlock rfl with ⟨hnone, hnil⟩ | ⟨s', data', frames', hsome, hs', hlt⟩
          · refine .inl ⟨by rw [hnone], ?_⟩
            rw [hsent, hmark, hnil]
            simp
          rw [hsome]
          dsimp only
          have hlen : s.input.length = data.length + (frames.flatMap Frame.encode).length := by
            rw [hinput, length_append]
          rcases ih (todo + 1 - data.length) (got ++ data) hs' (by dsimp only at hlt; omega) with
            ⟨hnone, hnomark⟩ | ⟨s'', hsome', hs''⟩
          · refine .inl ⟨hnone, ?_⟩
            rw [hsent, hmark]
            simpa using hnomark
          · refine .inr ⟨s'', ?_, hfill ▸ hs''⟩
            rw [hsome', hfill, append_assoc, length_append, Nat.sub_sub]
      · -- there is more in the block than is asked for
        have hmin : min (todo + 1) s.itotal = todo + 1 := by omega
        have hzero : todo + 1 - data.length = 0 := by omega
        rw [hzero, fill_zero, append_nil] at hfill
        have hbytes : s.input.take (todo + 1) = data.take (todo + 1) := by
          rw [hinput, take_append_of_le_length (by omega)]
        have hleft : s.input.drop (todo + 1) =
            data.drop (todo + 1) ++ frames.flatMap Frame.encode := by
          rw [hinput, drop_append_of_le_length (by omega)]
        have hlen : (data.take (todo + 1)).length = todo + 1 := by
          rw [length_take]
          omega
        rw [if_neg hrest, hmin, hbytes, hleft, hfill, hlen, Nat.sub_self]
        refine .inr ⟨⟨data.drop (todo + 1) ++ frames.flatMap Frame.encode, s.itotal - (todo + 1),
          s.nr⟩, ?_, _, data.drop (todo + 1), frames, ⟨⟨rfl, ?_, hvalid, rfl⟩, ?_⟩, ?_⟩
        · cases f <;> rfl
        · rw [length_drop]
          dsimp only
          omega
        · dsimp only
          omega
        · rw [append_assoc, append_assoc]

/-- Without anything before it, there is no block and no marker. -/
theorem eq_nil (h : Reads s [] data frames) : data = [] ∧ s.nr = false := by
  have hsent := h.sent
  rw [append_assoc, nil_eq, append_eq_nil_iff, append_eq_nil_iff] at hsent
  refine ⟨map_eq_nil_iff.mp hsent.1, Bool.eq_false_iff.mpr fun hnr => ?_⟩
  rw [if_pos hnr] at hsent
  exact absurd hsent.2.1 nofun

theorem read_nil (h : Reads s [] data frames) (cnt : ℕ) : bsRead d s cnt = none := by
  obtain ⟨rfl, hnr⟩ := h.eq_nil
  have hzero : s.itotal = 0 := h.itotal
  rw [bsRead, if_neg (by simp [hnr]), if_pos hzero]
  rcases h.nextBlock hnr with ⟨hnone, -⟩ | ⟨s', data', frames', -, hs', -⟩
  · rw [hnone]
  · obtain ⟨rfl, hfalse⟩ := hs'.eq_nil
    rw [hs'.mark hs'.itotal] at hfalse
    exact absurd hfalse nofun

/-- The first step of a read: there is a block to read from, or a marker to return. -/
theorem block (h : Reads s sent data frames) (hne : sent ≠ [])
    (hpending : ¬ (s.itotal = 0 ∧ s.nr = true)) :
    ∃ s' data' frames', (if s.itotal = 0 then s.nextBlock else some s) = some s' ∧
      InBlock s' sent data' frames' := by
  by_cases hzero : s.itotal = 0
  · have hdata : data = [] := length_eq_zero_iff.mp (h.itotal ▸ hzero)
    subst hdata
    have hnr : s.nr = false := Bool.eq_false_iff.mpr fun hnr => hpending ⟨hzero, hnr⟩
    rw [if_pos hzero]
    rcases h.nextBlock hnr with ⟨-, hnil⟩ | ⟨s', data', frames', hsome, hs', -⟩
    · exact absurd hnil hne
    · exact ⟨s', data', frames', hsome, hs'⟩
  · exact ⟨s, data, frames, if_neg hzero, h, fun hz => absurd hz hzero⟩

theorem read_mark (h : Reads s (none :: rest) data frames) (hcnt : 0 < cnt) :
    ∃ s' frames', bsRead d s cnt = some ([], s') ∧ s'.itotal = 0 ∧ s'.nr = false ∧
      Reads s' rest [] frames' := by
  by_cases hpending : s.itotal = 0 ∧ s.nr = true
  · obtain rfl := h.data_eq_nil
    exact ⟨_, frames, if_pos hpending, hpending.1, rfl, h.dropMark hpending.2⟩
  obtain ⟨s', data', frames', hblock, hs'⟩ := h.block nofun hpending
  obtain ⟨-, hnomark⟩ | ⟨s'', hloop, sent'', data'', frames'', hs'', hsent''⟩ :=
    readLoop d [] _ cnt [] hs' (lt_succ_self _)
  · exact absurd (mem_cons_self ..) hnomark
  rw [append_nil, fill_mark] at hloop
  rw [append_nil, append_nil, fill_mark] at hsent''
  subst hsent''
  obtain rfl := hs''.data_eq_nil
  have hzero : s''.itotal = 0 := hs''.itotal
  refine ⟨{ s'' with nr := false }, frames'', ?_, hzero, rfl, hs''.dropMark (hs''.mark hzero)⟩
  rw [bsRead, if_neg hpending, hblock]
  dsimp only
  rw [hloop]
  dsimp only
  rw [if_pos ⟨by simpa using hcnt, rfl⟩]
  rfl

theorem read_values (h : Reads s sent data frames) (hne : sent ≠ [])
    (hmark : ∀ rest, sent ≠ none :: rest) (hcnt : 0 < cnt) :
    (bsRead d s cnt = none ∧ none ∉ sent) ∨
      ∃ s', bsRead d s cnt = some ((fill cnt (sent ++ more)).1, s') ∧
        Leaves s' more (fill cnt (sent ++ more)).2 := by
  -- no marker is due, since there is a byte first
  have hpending : ¬ (s.itotal = 0 ∧ s.nr = true) := by
    rintro ⟨hzero, hnr⟩
    have hsent := h.sent
    rw [length_eq_zero_iff.mp (h.itotal ▸ hzero : data.length = 0), hnr] at hsent
    exact hmark _ hsent
  have hgot : (fill cnt (sent ++ more)).1 ≠ [] := by
    refine fill_ne_nil hcnt (by simp [hne]) fun rest hrest => ?_
    cases sent with
    | nil => exact hne rfl
    | cons x sent => exact hmark sent (by rw [(cons.inj hrest).1])
  obtain ⟨s', data', frames', hblock, hs'⟩ := h.block hne hpending
  rw [bsRead, if_neg hpending, hblock]
  dsimp only
  obtain ⟨hnone, hnomark⟩ | ⟨s'', hloop, hs''⟩ := readLoop d more _ cnt [] hs' (lt_succ_self _)
  · exact .inl ⟨by rw [hnone], hnomark⟩
  · refine .inr ⟨s'', ?_, hs''⟩
    rw [hloop]
    dsimp only
    rw [nil_append, if_neg fun hc => hgot hc.2]

end Reads

/-! ## The two sides together

What the calls are to return is computed from the sequence of bytes and marks alone, without blocks.
-/

/-- What a call of the side that reads is to return when `ev` is before it. -/
def answer (ev : List (Option UInt8)) : ReadCall → ReadResult × List (Option UInt8)
  | .read cnt => (.read (Marked.read cnt ev).1, (Marked.read cnt ev).2)
  | .next nbytes => (.next (next nbytes ev).1 (next nbytes ev).2.1, (next nbytes ev).2.2)

/-- What the calls are to return, until nothing is left. -/
def answers : List ReadCall → List (Option UInt8) → List ReadResult
  | [], _ => []
  | c :: cs, ev => if ev = [] then [] else (answer ev c).1 :: answers cs (answer ev c).2

/-- The size that a call asks for. -/
def ReadCall.size : ReadCall → ℕ
  | .read cnt => cnt
  | .next nbytes => nbytes

/-- What a result says: an empty read stands for a flush, and so does `last`. -/
def ReadResult.events : ReadResult → List (Option UInt8)
  | .read got => taken got
  | .next got last => got.map some ++ if last then [none] else []

theorem answer_append {ev : List (Option UInt8)} (hne : ev ≠ []) {c : ReadCall} (hc : 0 < c.size) :
    (answer ev c).1.events ++ (answer ev c).2 = ev := by
  cases c with
  | read cnt => exact read_append hc hne
  | next nbytes => exact next_append nbytes ev

theorem BlockReader.call_none {d : Delivery} {s : BlockReader} {c : ReadCall}
    (h : bsRead d s c.size = none) : s.call d c = none := by
  cases c with
  | read cnt => rw [call, show bsRead d s cnt = _ from h, map_none]
  | next nbytes => rw [call, bsReadNext, show bsRead d s nbytes = _ from h, map_none, map_none]

section

variable (d : Delivery) {s : BlockReader} {sent : List (Option UInt8)} {data : List UInt8}
  {frames : List Frame} (h : Reads s sent data frames) (more : List (Option UInt8))

include d h more

/-- **One call** returns the next part.  It waits only if no flush has been sent. -/
theorem Reads.call {c : ReadCall} (hc : 0 < c.size) : (s.call d c = none ∧ none ∉ sent) ∨
      sent ≠ [] ∧ ∃ s' sent' data' frames', s.call d c = some ((answer (sent ++ more) c).1, s') ∧
        Reads s' sent' data' frames' ∧ sent' ++ more = (answer (sent ++ more) c).2 := by
  match sent with
  | [] => exact .inl ⟨BlockReader.call_none (h.read_nil d _), by simp⟩
  | none :: rest =>
    obtain ⟨s', frames', hread, hzero, hnr, hs'⟩ := h.read_mark d hc
    refine .inr ⟨by simp, s', rest, [], frames', ?_, hs', ?_⟩
    · cases c with
      | read cnt =>
        rw [BlockReader.call, show bsRead d s cnt = _ from hread]
        rfl
      | next nbytes =>
        rw [BlockReader.call, bsReadNext, show bsRead d s nbytes = _ from hread]
        obtain ⟨input, itotal, nr⟩ := s'
        obtain rfl : itotal = 0 := hzero
        obtain rfl : nr = false := hnr
        simp [answer, Marked.next]
    · cases c with
      | read cnt => rfl
      | next nbytes => simp [answer, Marked.next]
  | some x :: rest =>
    rcases h.read_values d more (by simp) (by simp) hc with
      ⟨hnone, hnomark⟩ | ⟨s', hread, sent', data', frames', hs', hmore⟩
    · exact .inl ⟨BlockReader.call_none hnone, hnomark⟩
    refine .inr ⟨by simp, ?_⟩
    cases c with
    | read cnt =>
      refine ⟨s', sent', data', frames', ?_, hs'.toReads, hmore⟩
      rw [BlockReader.call, show bsRead d s cnt = _ from hread]
      rfl
    | next nbytes =>
      change bsRead d s nbytes = some ((fill nbytes (some x :: rest ++ more)).1, s') at hread
      change sent' ++ more = (fill nbytes (some x :: rest ++ more)).2 at hmore
      rw [BlockReader.call, bsReadNext, hread, map_some, map_some]
      dsimp only
      -- the block is at its end exactly if the mark comes next
      by_cases hzero : s'.itotal = 0
      · obtain rfl := length_eq_zero_iff.mp (hs'.itotal ▸ hzero)
        have hsent' := hs'.sent
        rw [hs'.mark hzero] at hsent'
        subst hsent'
        have hnext := next_of_mark hmore.symm
        refine ⟨{ s' with nr := false }, _, [], frames', ?_, hs'.dropMark (hs'.mark hzero), ?_⟩
        · rw [answer, hnext, hzero]
          rfl
        · rw [answer, hnext]
          rfl
      · obtain ⟨y, data'', rfl⟩ := exists_cons_of_length_pos (hs'.itotal ▸ pos_of_ne_zero hzero)
        have hsent' := hs'.sent
        rw [map_cons, cons_append, cons_append] at hsent'
        rw [hsent', cons_append] at hmore
        have hnext := next_of_value hmore.symm
        refine ⟨s', _, _, frames', ?_, hs'.toReads, ?_⟩
        · rw [answer, hnext, if_neg hzero, beq_eq_false_iff_ne.mpr hzero]
        · rw [answer, hnext, hsent', cons_append]

/-- **A run of calls** returns what it is to return, as far as it does not wait, and it does not
wait before a flush that has been sent. -/
theorem Reads.calls (cs : List ReadCall) (hcs : ∀ c ∈ cs, 0 < c.size) :
    s.calls d cs <+: answers cs (sent ++ more) ∧
      ∃ rest, (s.calls d cs).flatMap ReadResult.events ++ (rest ++ more) = sent ++ more ∧
        ((s.calls d cs).length = cs.length ∨ none ∉ rest) := by
  induction cs generalizing s sent data frames with
  | nil => exact ⟨prefix_rfl, sent, rfl, .inl rfl⟩
  | cons c cs ih =>
    have hc := hcs c (mem_cons_self ..)
    rw [BlockReader.calls]
    rcases h.call d more hc with
      ⟨hnone, hnomark⟩ | ⟨hne, s', sent', data', frames', hsome, hs', hmore⟩
    · rw [hnone]
      exact ⟨List.nil_prefix, sent, rfl, .inr hnomark⟩
    have hev : sent ++ more ≠ [] := by simp [hne]
    obtain ⟨hfirst, rest, hrest, hdone⟩ := ih hs' fun c hmem => hcs c (mem_cons_of_mem _ hmem)
    rw [hsome]
    refine ⟨?_, rest, ?_, hdone.imp_left fun hlen => by rw [length_cons, hlen, length_cons]⟩
    · rw [answers, if_neg hev, ← hmore, prefix_cons_inj]
      exact hfirst
    · rw [flatMap_cons, append_assoc, hrest, hmore]
      exact answer_append hev hc

end

/-- **Framing.**  For every sequence of writes and flushes, every way in which the underlying stream
delivers, and every sequence of reads of positive size, the results are those of reads from the
sequence of written bytes with a mark at each flush.  In particular they are the first part of it,
with an empty read at each flush and nowhere else, and every call returns until everything that was
flushed has been read. -/
theorem block_stream_framing (d : Delivery) (ops : List WriteCall) (cs : List ReadCall)
    (hcs : ∀ c ∈ cs, 0 < c.size) :
    let results := (BlockReader.mk (ops.foldl BlockWriter.call .create).out 0 false).calls d cs
    results <+: answers cs (ops.flatMap WriteCall.events) ∧
      ∃ rest, results.flatMap ReadResult.events ++ rest = ops.flatMap WriteCall.events ∧
        (results.length = cs.length ∨ none ∉ rest) := by
  obtain ⟨frames, hsent⟩ := Sent.calls ops
  have hreads : Reads ⟨(ops.foldl BlockWriter.call .create).out, 0, false⟩
      (frames.flatMap Frame.events) [] frames := ⟨hsent.out, rfl, hsent.valid, rfl⟩
  obtain ⟨hfirst, rest, hrest, hdone⟩ :=
    hreads.calls d ((ops.foldl BlockWriter.call .create).buf.map some) cs hcs
  rw [hsent.events] at hfirst hrest
  refine ⟨hfirst, _, hrest, hdone.imp_right fun hnomark hmem => ?_⟩
  rcases mem_append.mp hmem with hmem | hmem
  · exact hnomark hmem
  · simp at hmem

/-- A stream that delivers all that is there. -/
def Delivery.whole : Delivery where
  chunk input n := min n input.length
  pos input n hne hn := by
    have := length_pos_iff.mpr hne
    omega
  le input n := by omega
  le_length input n := by omega

/-- Two messages, of three bytes and of none: each is read to its end, which an empty read shows. -/
theorem block_stream_framing_two :
    (BlockReader.mk ([WriteCall.write [1, 2], .write [3], .flush, .flush].foldl BlockWriter.call
      .create).out 0 false).calls .whole [.read 2, .read 2, .read 2, .next 2] =
        [.read [1, 2], .read [3], .read [], .next [] true] := by
  have hpos : ∀ c ∈ [ReadCall.read 2, .read 2, .read 2, .next 2], 0 < c.size := by
    intro c hc
    fin_cases hc <;> decide
  obtain ⟨hanswers, -⟩ :=
    block_stream_framing .whole [.write [1, 2], .write [3], .flush, .flush] _ hpos
  exact hanswers.eq_of_length (by decide)

end MonetInR.Stream
