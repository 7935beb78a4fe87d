import CapazOS.Lib.Bytes
import Mathlib.Data.List.Basic
import Mathlib.Logic.Function.Basic

/-!
# Block devices and their histories

A disk is a function from LBAs to sectors of the device's size. A transfer of `BlockDevice` fails
when it reaches beyond the capacity or when too few bytes are supplied. The kernel also refuses one
that does not fit the task's I/O window (`taskAllowIo`), which depends on the clock; that is left
out, and what is proved of a call is proved of one whose transfers all fit. The device is run with
its **history**: `Dev` holds the disk and the disks it went through, one for each update; `Dev.unit`
declares a sequence of writes indivisible.
-/

namespace CapazOS

open List

variable {lba n ss : ℕ} {data : Bytes}

abbrev Sector (ss : ℕ) := {bs : Bytes // bs.length = ss}

/-- The contents of a disk with sectors of `ss` bytes. -/
abbrev Disk (ss : ℕ) := ℕ → Sector ss

/-- The `n` sectors of `d` from `lba` on, as one byte string. -/
def Disk.bytes {ss : ℕ} (d : Disk ss) (lba n : ℕ) : Bytes :=
  (range n).flatMap fun i ↦ (d (lba + i)).1

section

variable (d : Disk ss)

@[simp] theorem length_diskBytes (lba n : ℕ) : (d.bytes lba n).length = n * ss :=
  length_flatMap_const (fun i ↦ (d (lba + i)).2) n

theorem diskBytes_one (lba : ℕ) : d.bytes lba 1 = (d lba).1 := by simp [Disk.bytes]

theorem slice_diskBytes {i : ℕ} (hi : i < n) : slice (d.bytes lba n) (i * ss) ss = (d (lba + i)).1 :=
  slice_flatMap (fun i ↦ (d (lba + i)).2) hi

theorem diskBytes_succ (lba n : ℕ) : d.bytes lba (n + 1) = (d lba).1 ++ d.bytes (lba + 1) n := by
  rw [Disk.bytes, range_succ_eq_map, flatMap_cons, flatMap_map, Disk.bytes]
  refine congrArg₂ (· ++ ·) rfl (flatMap_congr fun i _ ↦ ?_)
  rw [Nat.add_assoc, Nat.add_comm 1 i]

theorem drop_diskBytes (lba n i : ℕ) : (d.bytes lba (i + n)).drop (i * ss) = d.bytes (lba + i) n := by
  induction i generalizing lba with
  | zero => simp
  | succ i ih =>
    have hlen := (d lba).2
    have hoff : (i + 1) * ss = (d lba).1.length + i * ss := by rw [hlen]; ring
    rw [show i + 1 + n = i + n + 1 by omega, diskBytes_succ, hoff, drop_length_add_append, ih,
      show lba + 1 + i = lba + (i + 1) by omega]

theorem diskBytes_zeros {d : Disk ss} (lba n : ℕ) (hn : 0 < n)
    (hzero : ∀ x, lba < x → x < lba + n → ∀ b ∈ (d x).1, b = 0) :
    ∃ tail : Bytes, d.bytes lba n = (d lba).1 ++ tail ∧ ∀ b ∈ tail, b = 0 := by
  obtain ⟨m, rfl⟩ := Nat.exists_eq_succ_of_ne_zero hn.ne'
  refine ⟨d.bytes (lba + 1) m, diskBytes_succ d lba m, fun b hb ↦ ?_⟩
  obtain ⟨i, hi, hb⟩ := mem_flatMap.1 hb
  have := mem_range.1 hi
  exact hzero _ (by omega) (by omega) b hb

theorem diskBytes_congr {d d' : Disk ss} (h : ∀ x, lba ≤ x → x < lba + n → d' x = d x) :
    d'.bytes lba n = d.bytes lba n := by
  simp only [Disk.bytes, flatMap_def]
  congr 1
  refine map_congr_left fun i hi ↦ ?_
  rw [h (lba + i) (Nat.le_add_right _ _) (by have := mem_range.1 hi; omega)]

theorem diskBytes_eq_of_chunks (hlen : data.length = n * ss)
    (h : ∀ i < n, (d (lba + i)).1 = slice data (i * ss) ss) : d.bytes lba n = data := by
  rw [← flatMap_chunks hlen]
  simp only [Disk.bytes, flatMap_def]
  congr 1
  exact map_congr_left fun i hi ↦ h i (mem_range.1 hi)

end

def Sector.ofBytes {ss : ℕ} (data : Bytes) (h : ss ≤ data.length) : Sector ss :=
  ⟨data.take ss, by rw [length_take]; omega⟩

theorem Sector.ofBytes_coe (s : Sector ss) (h : ss ≤ s.1.length) : Sector.ofBytes s.1 h = s := by
  obtain ⟨bs, hbs⟩ := s
  refine Subtype.ext ?_
  show bs.take ss = bs
  rw [← hbs, take_length]

/-! ### Histories -/

/-- A disk together with the disks before each of the updates made so far, newest first. -/
structure Dev (ss : ℕ) where
  disk : Disk ss
  past : List (Disk ss)

namespace Dev

def start (d : Disk ss) : Dev ss := ⟨d, []⟩

def put (dev : Dev ss) (d : Disk ss) : Dev ss := ⟨d, dev.disk :: dev.past⟩

/-- The disks a cut can leave behind: before, between and after the updates. -/
def states (dev : Dev ss) : List (Disk ss) := dev.disk :: dev.past

/-- The updates of `f`, made indivisible. -/
def unit (f : Dev ss → Bool × Dev ss) (dev : Dev ss) : Bool × Dev ss :=
  ((f (start dev.disk)).1, dev.put (f (start dev.disk)).2.disk)

end Dev

/-! ### Transfers -/

/-- `BlockDevice`: the sector size is the parameter of its type, and the capacity is a 64-bit
number. -/
structure BlockDevice (ss : ℕ) where
  capacitySectors : ℕ
  capacity_lt : capacitySectors < 2 ^ 64

variable {block : BlockDevice ss}

namespace BlockDevice

/-- `BlockDevice.read`, when the I/O window has room for it. -/
def read (block : BlockDevice ss) (d : Disk ss) (lba count : ℕ) : Option Bytes :=
  if count = 0 then some []
  else if block.capacitySectors < lba + count then none
  else some (d.bytes lba count)

/-- `BlockDevice.write` of one sector, the only count the file systems use, when the I/O window has
room. -/
def write (block : BlockDevice ss) (dev : Dev ss) (lba : ℕ) (data : Bytes) : Bool × Dev ss :=
  if block.capacitySectors < lba + 1 then (false, dev)
  else if h : ss ≤ data.length then
    (true, dev.put (Function.update dev.disk lba (Sector.ofBytes data h)))
  else (false, dev)

theorem read_eq {count : ℕ} (d : Disk ss) (h : lba + count ≤ block.capacitySectors) :
    block.read d lba count = some (d.bytes lba count) := by
  unfold read
  split
  · next hzero =>
    subst hzero
    rfl
  · rw [if_neg (by omega)]

theorem write_eq {dev : Dev ss} (hlba : lba < block.capacitySectors) (hdata : ss ≤ data.length) :
    block.write dev lba data = (true, dev.put (Function.update dev.disk lba (Sector.ofBytes data hdata))) := by
  rw [write, if_neg (by omega), dif_pos hdata]

theorem write_short {dev : Dev ss} (hlba : block.capacitySectors ≤ lba) : block.write dev lba data = (false, dev) := by
  rw [write, if_pos (by omega)]

end BlockDevice

end CapazOS
