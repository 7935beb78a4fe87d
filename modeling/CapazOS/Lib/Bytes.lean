import Mathlib.Data.List.TakeDrop
import Mathlib.Data.List.Flatten
import Mathlib.Tactic.Ring
import Mathlib.Tactic.Set

/-!
# Little-endian fields in byte strings

A field of a byte string is a `slice`: the `n` bytes from an offset on. A field reads back what was
written to it, a write leaves every field it does not touch alone, and a little-endian number
survives the trip through its bytes. The last part cuts a byte string into equal chunks
(`flatMap_chunks`).
-/

namespace CapazOS

open List

variable {n v off o m len : ℕ}

abbrev Bytes := List UInt8

variable {data out bs : Bytes}

/-! ### Little-endian numbers -/

def leValue : Bytes → ℕ
  | [] => 0
  | b :: bs => b.toNat + 256 * leValue bs

def leBytes : ℕ → ℕ → Bytes
  | 0, _ => []
  | n + 1, v => UInt8.ofNat v :: leBytes n (v / 256)

@[simp] theorem length_leBytes (n v : ℕ) : (leBytes n v).length = n := by
  induction n generalizing v with
  | zero => rfl
  | succ n ih => rw [leBytes, length_cons, ih]

theorem leValue_lt (bs : Bytes) : leValue bs < 256 ^ bs.length := by
  induction bs with
  | nil => exact Nat.one_pos
  | cons b bs ih =>
    have hb : b.toNat < 256 := b.toNat_lt
    rw [leValue, length_cons, Nat.pow_succ]
    omega

theorem leValue_leBytes (n v : ℕ) : leValue (leBytes n v) = v % 256 ^ n := by
  induction n generalizing v with
  | zero => rw [leBytes, leValue, Nat.pow_zero, Nat.mod_one]
  | succ n ih =>
    rw [leBytes, leValue, ih, Nat.pow_succ', Nat.mod_mul]
    rfl

theorem leValue_leBytes_of_lt (h : v < 256 ^ n) : leValue (leBytes n v) = v := by
  rw [leValue_leBytes, Nat.mod_eq_of_lt h]

/-! ### Fields -/

/-- The `n` bytes of `data` from offset `off` on; fewer at the end of the data. -/
def slice (data : Bytes) (off n : ℕ) : Bytes := (data.drop off).take n

theorem getElem?_slice (data : Bytes) (off n i : ℕ) :
    (slice data off n)[i]? = if i < n then data[off + i]? else none := by
  rw [slice, getElem?_take]
  split
  · rw [getElem?_drop]
  · rfl

theorem length_slice (h : off + n ≤ data.length) : (slice data off n).length = n := by
  rw [slice, length_take, length_drop]
  omega

theorem slice_zero_length (data : Bytes) : slice data 0 data.length = data := by
  rw [slice, drop_zero, take_length]

theorem getD_slice_zero (data : Bytes) {i : ℕ} (h : i < n) : (slice data 0 n).getD i 0 = data.getD i 0 := by
  rw [getD_eq_getElem?_getD, getD_eq_getElem?_getD, getElem?_slice, if_pos h, Nat.zero_add]

theorem slice_append {a b : Bytes} (h : off ≤ a.length) (n : ℕ) :
    slice (a ++ b) off n = slice a off n ++ slice b 0 (n - (a.length - off)) := by
  rw [slice, drop_append_of_le_length h, take_append, length_drop]
  rfl

theorem slice_drop (data : Bytes) (i off n : ℕ) : slice (data.drop i) off n = slice data (i + off) n := by
  rw [slice, slice, drop_drop]

theorem length_slice_eq (data : Bytes) (off n : ℕ) : (slice data off n).length = min n (data.length - off) := by
  rw [slice, length_take, length_drop]

theorem slice_take {data : Bytes} {m : ℕ} (h : off + n ≤ m) : slice (data.take m) off n = slice data off n := by
  rw [slice, slice, drop_take, take_take, Nat.min_eq_left (by omega)]

theorem slice_slice (h : o + m ≤ n) : slice (slice data off n) o m = slice data (off + o) m := by
  refine ext_getElem? fun i ↦ ?_
  rw [getElem?_slice, getElem?_slice, getElem?_slice]
  split
  · rw [if_pos (by omega), Nat.add_assoc]
  · rfl

def writeAt (out : Bytes) (off : ℕ) : Bytes → Bytes
  | [] => out
  | b :: bs => writeAt (out.set off b) (off + 1) bs

@[simp] theorem length_writeAt (out : Bytes) (off : ℕ) (bs : Bytes) : (writeAt out off bs).length = out.length := by
  induction bs generalizing out off with
  | nil => rfl
  | cons b bs ih => rw [writeAt, ih, length_set]

theorem getElem?_writeAt (out : Bytes) (off : ℕ) (bs : Bytes) (h : off + bs.length ≤ out.length)
    (i : ℕ) : (writeAt out off bs)[i]? = if off ≤ i ∧ i < off + bs.length then bs[i - off]? else out[i]? := by
  induction bs generalizing out off with
  | nil =>
    rw [length_nil, Nat.add_zero, if_neg (by omega)]
    rfl
  | cons b bs ih =>
    rw [length_cons] at h
    rw [writeAt, ih (out.set off b) (off + 1) (by rw [length_set]; omega), length_cons]
    rcases Nat.lt_trichotomy i off with hlt | rfl | hgt
    · rw [if_neg (by omega), if_neg (by omega), getElem?_set_ne (by omega)]
    · rw [if_neg (by omega), if_pos (by omega), getElem?_set_self (by omega), Nat.sub_self]
      rfl
    · obtain ⟨j, rfl⟩ := Nat.exists_eq_add_of_lt hgt
      rcases Nat.lt_or_ge j bs.length with hj | hj
      · rw [if_pos (by omega), if_pos (by omega), show off + j + 1 - (off + 1) = j by omega,
          show off + j + 1 - off = j + 1 by omega, getElem?_cons_succ]
      · rw [if_neg (by omega), if_neg (by omega), getElem?_set_ne (by omega)]

theorem slice_writeAt_self (h : off + bs.length ≤ out.length) : slice (writeAt out off bs) off bs.length = bs := by
  refine ext_getElem? fun i ↦ ?_
  rw [getElem?_slice]
  split
  · rw [getElem?_writeAt _ _ _ h, if_pos (by omega), Nat.add_sub_cancel_left]
  · rw [getElem?_eq_none (by omega)]

theorem slice_writeAt_disjoint (h : off + bs.length ≤ out.length) (hd : o + n ≤ off ∨ off + bs.length ≤ o) :
    slice (writeAt out off bs) o n = slice out o n := by
  refine ext_getElem? fun i ↦ ?_
  rw [getElem?_slice, getElem?_slice]
  split
  · rw [getElem?_writeAt _ _ _ h, if_neg (by omega)]
  · rfl

theorem slice_writeAt_inside (hn : o + n ≤ out.length) (hlo : o ≤ off) (hhi : off + bs.length ≤ o + n) :
    slice (writeAt out off bs) o n = writeAt (slice out o n) (off - o) bs := by
  have hlen := length_slice hn
  refine ext_getElem? fun i ↦ ?_
  rw [getElem?_slice, getElem?_writeAt _ _ _ (by omega), getElem?_writeAt _ _ _ (by omega), getElem?_slice]
  rcases Nat.lt_or_ge i n with hi | hi
  · rw [if_pos hi]
    rcases Decidable.em (off ≤ o + i ∧ o + i < off + bs.length) with hin | hout
    · rw [if_pos hin, if_pos (by omega), show o + i - off = i - (off - o) by omega]
    · rw [if_neg hout, if_neg (by omega), if_pos hi]
  · rw [if_neg (by omega), if_neg (by omega), if_neg (by omega)]

theorem writeAt_lift (hn : off + n ≤ out.length) (ho : o + bs.length ≤ n) :
    writeAt out (off + o) bs = writeAt out off (writeAt (slice out off n) o bs) := by
  have hlen := length_slice hn
  refine ext_getElem? fun i ↦ ?_
  rw [getElem?_writeAt _ _ _ (by omega), getElem?_writeAt _ _ _ (by rw [length_writeAt]; omega), length_writeAt, hlen]
  rcases Decidable.em (off ≤ i ∧ i < off + n) with hin | hout
  · obtain ⟨j, rfl⟩ := Nat.exists_eq_add_of_le hin.1
    rw [if_pos hin, Nat.add_sub_cancel_left, getElem?_writeAt _ _ _ (by omega), getElem?_slice,
      if_pos (by omega : j < n)]
    rcases Decidable.em (o ≤ j ∧ j < o + bs.length) with hj | hj
    · rw [if_pos (by omega), if_pos hj, show off + j - (off + o) = j - o by omega]
    · rw [if_neg (by omega), if_neg hj]
  · rw [if_neg hout, if_neg (by omega)]

theorem writeAt_slice (h : off + n ≤ out.length) : writeAt out off (slice out off n) = out := by
  have hlen := length_slice h
  refine ext_getElem? fun i ↦ ?_
  rw [getElem?_writeAt _ _ _ (by omega), hlen]
  split
  · rw [getElem?_slice, if_pos (by omega)]
    congr 1
    omega
  · rfl

/-! ### Number fields -/

/-- The little-endian number in the `n` bytes at `off`, zero when the data is too short. -/
def readLE (n : ℕ) (data : Bytes) (off : ℕ) : ℕ :=
  if data.length < off + n then 0 else leValue (slice data off n)

def writeLE (n v : ℕ) (out : Bytes) (off : ℕ) : Bytes := writeAt out off (leBytes n v)

@[simp] theorem length_writeLE (n v : ℕ) (out : Bytes) (off : ℕ) :
    (writeLE n v out off).length = out.length := length_writeAt _ _ _

theorem readLE_lt (n : ℕ) (data : Bytes) (off : ℕ) : readLE n data off < 256 ^ n := by
  unfold readLE
  split
  · exact Nat.pow_pos (by omega)
  · next h =>
    have hlt := leValue_lt (slice data off n)
    rwa [length_slice (by omega)] at hlt

theorem readLE_writeLE_self (h : off + n ≤ out.length) (hv : v < 256 ^ n) : readLE n (writeLE n v out off) off = v := by
  have hslice : slice (writeAt out off (leBytes n v)) off (leBytes n v).length = leBytes n v :=
    slice_writeAt_self (by rwa [length_leBytes])
  rw [length_leBytes] at hslice
  rw [readLE, length_writeLE, if_neg (by omega), writeLE, hslice, leValue_leBytes_of_lt hv]

theorem readLE_writeAt_disjoint (h : off + bs.length ≤ out.length) (hd : o + m ≤ off ∨ off + bs.length ≤ o) :
    readLE m (writeAt out off bs) o = readLE m out o := by
  rw [readLE, readLE, length_writeAt, slice_writeAt_disjoint h hd]

theorem readLE_writeLE_disjoint (h : off + n ≤ out.length) (hd : o + m ≤ off ∨ off + n ≤ o) :
    readLE m (writeLE n v out off) o = readLE m out o :=
  readLE_writeAt_disjoint (by rwa [length_leBytes]) (by rwa [length_leBytes])

theorem readLE_slice (hlen : off + len ≤ data.length) (h : o + n ≤ len) :
    readLE n (slice data off len) o = readLE n data (off + o) := by
  rw [readLE, readLE, length_slice hlen, if_neg (by omega), if_neg (by omega), slice_slice h]

/-! ### Chunks -/

/-- The concatenation of `n` chunks of length `len` at multiples of `len` is the first `n * len`
bytes. -/
theorem flatMap_chunks_take (data : Bytes) (n len : ℕ) :
    (range n).flatMap (fun i ↦ slice data (i * len) len) = data.take (n * len) := by
  induction n with
  | zero => simp
  | succ n ih =>
    rw [range_succ, flatMap_append, ih, flatMap_singleton, slice, Nat.succ_mul, take_add]

theorem flatMap_chunks (h : data.length = n * len) :
    (range n).flatMap (fun i ↦ slice data (i * len) len) = data := by
  rw [flatMap_chunks_take, ← h, take_length]

theorem length_flatMap_const {f : ℕ → Bytes} (hf : ∀ i, (f i).length = len) (n : ℕ) :
    ((range n).flatMap f).length = n * len := by
  induction n with
  | zero => simp
  | succ n ih =>
    rw [range_succ, flatMap_append, length_append, ih, flatMap_singleton, hf, Nat.succ_mul]

theorem slice_flatMap {f : ℕ → Bytes} (hf : ∀ i, (f i).length = len) {i : ℕ} (hi : i < n) :
    slice ((range n).flatMap f) (i * len) len = f i := by
  induction n with
  | zero => exact absurd hi (Nat.not_lt_zero i)
  | succ n ih =>
    have hlen := length_flatMap_const hf n
    rw [range_succ, flatMap_append, flatMap_singleton, slice]
    rcases Nat.lt_succ_iff_lt_or_eq.1 hi with hlt | rfl
    · have hle : (i + 1) * len ≤ n * len := Nat.mul_le_mul_right len hlt
      rw [Nat.succ_mul] at hle
      rw [drop_append_of_le_length (by omega), take_append_of_le_length (by rw [length_drop]; omega)]
      exact ih hlt
    · rw [← hlen, drop_left, ← hf i, take_length]

theorem flatMap_drop_const {f : ℕ → Bytes} {cs : List ℕ} (h : ∀ c ∈ cs, (f c).length = n) (k : ℕ) :
    (cs.drop k).flatMap f = (cs.flatMap f).drop (k * n) := by
  induction cs generalizing k with
  | nil => simp
  | cons c cs ih =>
    obtain ⟨hc, hcs⟩ := forall_mem_cons.1 h
    cases k with
    | zero => simp
    | succ k =>
      rw [drop_succ_cons, ih hcs, flatMap_cons, Nat.succ_mul, Nat.add_comm, ← hc, drop_length_add_append]

end CapazOS
