import CapazOS.Fat.Detect
import CapazOS.Loader.Fat16

/-!
# The two searches for a GPT partition

`Core` reads the whole table of partitions as one byte string, the loader one sector at a time, into
a buffer of 512 bytes. An entry that runs over the end of its sector is whole for `Core`; the loader
would read its fields **outside the buffer**, which the model counts as a fault. The two select the
same partition exactly when no entry up to the selected one makes the loader do so
(`gpt_partitions_agree_iff`).
-/

namespace CapazOS

open List

/-! ### The search of the loader -/

/-- `guid_is_zero`, from the byte at `pos` on; `none` for a read outside the buffer. -/
def guidIsZero (sector : Bytes) : ℕ → ℕ → Option Bool
  | _, 0 => some true
  | pos, n + 1 =>
    match sector[pos]? with
    | none => none
    | some b => if b ≠ 0 then some false else guidIsZero sector (pos + 1) n

/-- The fields of the entry at `off`: none for an entry that is passed over, else its first sector
and whether its type is one of the two; the outer `none` is a read outside the buffer. -/
def gptEntry (sector : Bytes) (off : ℕ) : Option (Option (ℕ × Bool)) :=
  match guidIsZero sector off 16 with
  | none => none
  | some true => some none
  | some false =>
    if sector.length < off + 40 then none
    else
      let firstLba := readLE 8 sector (off + 32)
      if firstLba = 0 then some none
      else some (some (firstLba, slice sector off 16 = efiSystemGuid ∨ slice sector off 16 = msBasicDataGuid))

/-- The loop of `gpt_find_partition_lba` from entry `i` on, with `n` entries left. -/
def gptScan (read : BootRead) (entriesLba entrySize : ℕ) : ℕ → ℕ → ℕ → Bytes → ℕ → Option ℕ
  | 0, _, _, _, fallback => some fallback
  | n + 1, i, curLba, sector, fallback =>
    let entryLba := (entriesLba + i * entrySize / loaderSectorSize) % 2 ^ 64
    let entryOff := i * entrySize % loaderSectorSize
    match if entryLba ≠ curLba then read entryLba else some sector with
    | none => some 0
    | some sector =>
      match gptEntry sector entryOff with
      | none => none
      | some none => gptScan read entriesLba entrySize n (i + 1) entryLba sector fallback
      | some (some (firstLba, usable)) =>
        if usable then some firstLba
        else gptScan read entriesLba entrySize n (i + 1) entryLba sector (if fallback = 0 then firstLba else fallback)

/-- `gpt_find_partition_lba`; 0 stands for no partition, `none` for a read outside the buffer. -/
def gptFindPartitionLba (read : BootRead) : Option ℕ :=
  match read 1 with
  | none => some 0
  | some sector =>
    if slice sector 0 8 ≠ gptSignature then some 0
    else
      let entriesLba := readLE 8 sector 72
      let numEntries := readLE 4 sector 80
      let entrySize := readLE 4 sector 84
      if entriesLba = 0 ∨ numEntries = 0 ∨ entrySize < 128 ∨ loaderSectorSize < entrySize then some 0
      else gptScan read entriesLba entrySize numEntries 0 (2 ^ 64 - 1) sector 0

/-! ### The table -/

structure GptTable where
  entriesLba : ℕ
  numEntries : ℕ
  entrySize : ℕ
  sectors : ℕ
  data : Bytes

def gptTable (d : Disk 512) : GptTable :=
  let entriesLba := readLE 8 (d 1).1 72
  let numEntries := readLE 4 (d 1).1 80
  let entrySize := readLE 4 (d 1).1 84
  let sectors := (numEntries * entrySize + 512 - 1) / 512
  { entriesLba, numEntries, entrySize, sectors, data := d.bytes entriesLba sectors }

namespace GptTable

variable (t : GptTable) (i : ℕ)

def guid : Bytes := slice t.data (i * t.entrySize) 16

def firstLba : ℕ := readLE 8 t.data (i * t.entrySize + 32)

/-- The entry names a partition that both searches accept. -/
def Usable : Prop := (t.guid i = efiSystemGuid ∨ t.guid i = msBasicDataGuid) ∧ t.firstLba i ≠ 0

/-- The loader reads no field of the entry outside its buffer: the fields lie in one sector, or the
type does and is zero. -/
def InBuffer : Prop :=
  i * t.entrySize % 512 + 40 ≤ 512 ∨ i * t.entrySize % 512 + 16 ≤ 512 ∧ t.guid i = replicate 16 0

end GptTable

variable {block : BlockDevice 512} {d : Disk 512} {read : BootRead} {lba : ℕ}

/-! ### One entry -/

theorem guidIsZero_of_le {sector : Bytes} {pos n : ℕ} (h : pos + n ≤ sector.length) :
    guidIsZero sector pos n = some (decide (slice sector pos n = replicate n 0)) := by
  induction n generalizing pos with
  | zero => simp [guidIsZero, slice]
  | succ n ih =>
    have hlt : pos < sector.length := by omega
    rw [guidIsZero, getElem?_eq_getElem hlt]
    have hslice : slice sector pos (n + 1) = sector[pos] :: slice sector (pos + 1) n := by
      rw [slice, drop_eq_getElem_cons hlt, take_succ_cons, slice]
    by_cases hb : sector[pos] = 0
    · simp [hb, hslice, @ih (pos + 1) (by omega), replicate_succ]
    · simp [hb, hslice, replicate_succ]

theorem guidIsZero_ne_of_lt {sector : Bytes} {pos n : ℕ} (hpos : pos ≤ sector.length) (h : sector.length < pos + n) :
    guidIsZero sector pos n ≠ some true := by
  induction n generalizing pos with
  | zero => omega
  | succ n ih =>
    rw [guidIsZero]
    rcases hpos.lt_or_eq with hlt | rfl
    · rw [getElem?_eq_getElem hlt]
      simp only
      split
      · nofun
      · exact ih hlt (by omega)
    · rw [getElem?_eq_none le_rfl]
      nofun

section

variable {sector : Bytes} {off : ℕ}

theorem gptEntry_of_zero (h : off + 16 ≤ sector.length) (hzero : slice sector off 16 = replicate 16 0) :
    gptEntry sector off = some none := by
  rw [gptEntry, guidIsZero_of_le h, decide_eq_true hzero]

theorem gptEntry_outside (hoff : off ≤ sector.length) (h : sector.length < off + 40)
    (hzero : off + 16 ≤ sector.length → slice sector off 16 ≠ replicate 16 0) : gptEntry sector off = none := by
  have hguid : guidIsZero sector off 16 ≠ some true := by
    rcases Nat.lt_or_ge sector.length (off + 16) with hlt | hge
    · exact guidIsZero_ne_of_lt hoff hlt
    · rw [guidIsZero_of_le hge, decide_eq_false (hzero hge)]
      nofun
  rw [gptEntry]
  rcases hg : guidIsZero sector off 16 with - | - | -
  · rfl
  · exact if_pos h
  · exact absurd hg hguid

/-- An entry inside the buffer that is no usable partition is passed over; a usable one is
returned. -/
theorem gptEntry_inside (h : off + 40 ≤ sector.length) :
    ((slice sector off 16 = efiSystemGuid ∨ slice sector off 16 = msBasicDataGuid) ∧
        readLE 8 sector (off + 32) ≠ 0 → gptEntry sector off = some (some (readLE 8 sector (off + 32), true))) ∧
      (¬((slice sector off 16 = efiSystemGuid ∨ slice sector off 16 = msBasicDataGuid) ∧
        readLE 8 sector (off + 32) ≠ 0) →
        gptEntry sector off = some none ∨ ∃ first, gptEntry sector off = some (some (first, false))) := by
  rw [gptEntry, guidIsZero_of_le (by omega), if_neg (by omega)]
  by_cases hzero : slice sector off 16 = replicate 16 0
  · rw [hzero]
    exact ⟨fun huse ↦ absurd huse.1 (by decide), fun _ ↦ .inl (by simp)⟩
  · rw [decide_eq_false hzero]
    simp only
    split
    · next hfirst => exact ⟨fun huse ↦ absurd hfirst huse.2, fun _ ↦ .inl rfl⟩
    · next hfirst =>
      exact ⟨fun huse ↦ by rw [decide_eq_true huse.1], fun huse ↦ .inr ⟨_, by
        rw [decide_eq_false fun hguid ↦ huse ⟨hguid, hfirst⟩]⟩⟩

end

/-! ### Both searches -/

theorem gpt_of_core (h : fatFindPartitionLBAFromGPT block d = some (some lba)) :
    slice (d 1).1 0 8 = gptSignature ∧ (gptTable d).entriesLba ≠ 0 ∧ 128 ≤ (gptTable d).entrySize ∧
      (gptTable d).entriesLba + (gptTable d).sectors ≤ block.capacitySectors ∧ 1 < block.capacitySectors ∧
      ∃ k < (gptTable d).numEntries, (gptTable d).Usable k ∧ (gptTable d).firstLba k = lba ∧
        ∀ j < k, ¬(gptTable d).Usable j := by
  rw [fatFindPartitionLBAFromGPT, BlockDevice.read, if_neg one_ne_zero] at h
  split_ifs at h with hcap
  · cases h
  rw [diskBytes_one] at h
  simp only at h
  split_ifs at h with hlen hsig hfields hsectors hbig <;> try cases h
  rw [BlockDevice.read, if_neg hsectors] at h
  split_ifs at h with htable
  · cases h
  have hfound : ((range (min (gptTable d).numEntries
      ((gptTable d).data.length / (gptTable d).entrySize))).findSome? fun i ↦
      if (gptTable d).guid i = efiSystemGuid ∨ (gptTable d).guid i = msBasicDataGuid then
        if (gptTable d).firstLba i ≠ 0 then some ((gptTable d).firstLba i) else none
      else none) = some lba := Option.some.inj h
  have hall : (gptTable d).numEntries ≤ (gptTable d).data.length / (gptTable d).entrySize := by
    refine (Nat.le_div_iff_mul_le (show 0 < readLE 4 (d 1).1 84 by omega)).2 ?_
    rw [show (gptTable d).data.length = (gptTable d).sectors * 512 from length_diskBytes ..]
    show readLE 4 (d 1).1 80 * readLE 4 (d 1).1 84 ≤ (readLE 4 (d 1).1 80 * readLE 4 (d 1).1 84 + 512 - 1) / 512 * 512
    omega
  rw [Nat.min_eq_left hall] at hfound
  obtain ⟨k, hlt, hk, hbefore⟩ := findSome?_range_eq_some.1 hfound
  refine ⟨not_not.1 hsig, fun hzero ↦ hfields (.inl hzero), ?_, Nat.le_of_not_lt htable, by omega, k, hlt, ?_⟩
  · show 128 ≤ readLE 4 (d 1).1 84
    omega
  split_ifs at hk with hguid hne
  refine ⟨⟨hguid, hne⟩, Option.some.inj hk, fun j hj huse ↦ ?_⟩
  have hnone := hbefore j hj
  rw [if_pos huse.1, if_pos huse.2] at hnone
  cases hnone

section

variable {i k : ℕ} {t : GptTable} (ht : t = gptTable d)
include ht

theorem entry_sector_lt (hi : i < t.numEntries) (hsize : 0 < t.entrySize) : i * t.entrySize / 512 < t.sectors := by
  have hsectors : t.sectors = (t.numEntries * t.entrySize + 512 - 1) / 512 := ht ▸ rfl
  have hle := Nat.mul_le_mul_right t.entrySize (Nat.succ_le_of_lt hi)
  rw [Nat.succ_mul] at hle
  omega

theorem slice_sector (hi : i < t.numEntries) (hsize : 0 < t.entrySize) :
    (d (t.entriesLba + i * t.entrySize / 512)).1 = slice t.data (i * t.entrySize / 512 * 512) 512 := by
  subst ht
  exact (slice_diskBytes d (entry_sector_lt rfl hi hsize)).symm

/-- **The loop of the loader**, from an entry up to the first usable one on. -/
theorem gptScan_iff (hreads : ∀ x < block.capacitySectors, read x = some (d x).1)
    (hcap : t.entriesLba + t.sectors ≤ block.capacitySectors)
    (hsize : 0 < t.entrySize) (hk : k < t.numEntries) (huse : t.Usable k)
    (hfirst : ∀ j < k, ¬t.Usable j) {n cur fallback : ℕ} {sector : Bytes}
    (hcur : cur = 2 ^ 64 - 1 ∨ cur < block.capacitySectors ∧ sector = (d cur).1)
    (hn : i + n = t.numEntries) (hi : i ≤ k) :
    gptScan read t.entriesLba t.entrySize n i cur sector fallback =
        some (t.firstLba k) ↔ ∀ m, i ≤ m → m ≤ k → t.InBuffer m := by
  induction n generalizing i cur sector fallback with
  | zero => omega
  | succ n ih =>
    have hlt := entry_sector_lt ht (Nat.lt_of_le_of_lt hi hk) hsize
    have hlba : t.entriesLba + i * t.entrySize / 512 < block.capacitySectors := by omega
    have hbound := hlba.trans block.capacity_lt
    have hsector : (if t.entriesLba + i * t.entrySize / 512 ≠ cur then
        read (t.entriesLba + i * t.entrySize / 512) else some sector) =
        some (d (t.entriesLba + i * t.entrySize / 512)).1 := by
      split
      · exact hreads _ hlba
      · next heq =>
        have heq := not_not.1 heq
        obtain ⟨-, hsector⟩ := hcur.resolve_left (by have := block.capacity_lt; omega)
        rw [hsector, heq]
    rw [gptScan, show loaderSectorSize = 512 from rfl, Nat.mod_eq_of_lt hbound, hsector]
    simp only
    generalize hs : (d (t.entriesLba + i * t.entrySize / 512)).1 = entry
    have hlen : entry.length = 512 := hs ▸ (d _).2
    have hpart := hs.symm.trans (slice_sector ht (Nat.lt_of_le_of_lt hi hk) hsize)
    have hdm : i * t.entrySize / 512 * 512 + i * t.entrySize % 512 = i * t.entrySize := Nat.div_add_mod' _ _
    have hguid : i * t.entrySize % 512 + 16 ≤ 512 → slice entry (i * t.entrySize % 512) 16 = t.guid i := fun hle ↦ by
      rw [hpart, slice_slice hle, hdm, GptTable.guid]
    -- the loop goes on with the next entry
    have hnext : ∀ fallback, i < k → t.InBuffer i → (gptScan read t.entriesLba t.entrySize n (i + 1)
          (t.entriesLba + i * t.entrySize / 512) entry fallback =
            some (t.firstLba k) ↔ ∀ m, i ≤ m → m ≤ k → t.InBuffer m) := by
      intro fallback hik hin
      rw [ih (.inr ⟨hlba, hs.symm⟩) (by omega) hik]
      refine ⟨fun hall m hm hmk ↦ ?_, fun hall m hm ↦ hall m (by omega)⟩
      rcases hm.lt_or_eq with hlt | rfl
      · exact hall m hlt hmk
      · exact hin
    by_cases hin : t.InBuffer i
    · rcases Nat.lt_or_ge 512 (i * t.entrySize % 512 + 40) with hgt | hle
      · -- the type is zero, so that the entry is not the selected one
        obtain ⟨hle, hzero⟩ := hin.resolve_left (by omega)
        have hik : i < k := by
          refine hi.lt_of_ne ?_
          rintro rfl
          exact absurd (hzero ▸ huse.1) (by decide)
        rw [gptEntry_of_zero (by omega) ((hguid hle).trans hzero)]
        exact hnext fallback hik hin
      · have hfield : readLE 8 entry (i * t.entrySize % 512 + 32) = t.firstLba i := by
          have hdata : t.data.length = t.sectors * 512 := ht ▸ length_diskBytes ..
          rw [hpart, readLE_slice (by omega) (by omega), ← Nat.add_assoc, hdm, GptTable.firstLba]
        obtain ⟨hyes, hno⟩ := gptEntry_inside (show i * t.entrySize % 512 + 40 ≤ entry.length by omega)
        rw [hguid (by omega), hfield] at hyes hno
        rcases hi.lt_or_eq with hik | rfl
        · rcases hno (hfirst i hik) with hpass | ⟨first, hpass⟩ <;> rw [hpass]
          · exact hnext fallback hik hin
          · exact hnext _ hik hin
        · rw [hyes huse]
          exact iff_of_true rfl fun m hm hmk ↦ (le_antisymm hm hmk) ▸ hin
    · have hout : gptEntry entry (i * t.entrySize % 512) = none := by
        refine gptEntry_outside ?_ ?_ fun hle heq ↦ hin (.inr ⟨by omega, ?_⟩)
        · have := Nat.mod_lt (i * t.entrySize) (show 0 < 512 by decide)
          omega
        · have := mt .inl hin
          omega
        · rw [← hguid (by omega), heq]
      rw [hout]
      exact iff_of_false nofun fun hall ↦ hin (hall i le_rfl hi)

end

/-- **When the two searches agree**: exactly when no entry up to the one that `Core` selects makes
the loader read outside its buffer. -/
theorem gpt_partitions_agree_iff (hreads : ∀ x < block.capacitySectors, read x = some (d x).1)
    (hsize : (gptTable d).entrySize ≤ loaderSectorSize)
    (hcore : fatFindPartitionLBAFromGPT block d = some (some lba)) :
    gptFindPartitionLba read = some lba ↔
      ∀ i < (gptTable d).numEntries, (∀ j < i, ¬(gptTable d).Usable j) → (gptTable d).InBuffer i := by
  obtain ⟨hsig, hlba, hmin, hcap, hone, k, hk, huse, rfl, hfirst⟩ := gpt_of_core hcore
  have hfind : gptFindPartitionLba read = gptScan read (gptTable d).entriesLba (gptTable d).entrySize
      (gptTable d).numEntries 0 (2 ^ 64 - 1) (d 1).1 0 := by
    rw [gptFindPartitionLba, hreads 1 hone]
    simp only
    rw [if_neg (not_not.2 hsig), if_neg]
    · rfl
    · rintro (hzero | hzero | hsmall | hlarge)
      · exact hlba hzero
      · exact absurd hk (by rw [show (gptTable d).numEntries = 0 from hzero]; exact Nat.not_lt_zero k)
      · exact absurd hmin (Nat.not_le.2 hsmall)
      · exact absurd hsize (Nat.not_le.2 hlarge)
  rw [hfind, gptScan_iff rfl hreads hcap (by omega) hk huse hfirst (.inl rfl) (Nat.zero_add _) (Nat.zero_le k)]
  constructor
  · intro hall i _ hbefore
    exact hall i (Nat.zero_le i) (Nat.le_of_not_lt fun hlt ↦ hbefore k hlt huse)
  · intro hall m _ hm
    exact hall m (hm.trans_lt hk) fun j hj ↦ hfirst j (hj.trans_le hm)

/-! ### Two disks -/

def gptSector (data : Bytes) : Sector 512 :=
  Sector.ofBytes (data ++ replicate 512 0) (by rw [length_append, length_replicate]; exact Nat.le_add_left ..)

/-- Three entries of 240 bytes from sector 2 on; an EFI system partition at sector 34 is entered
`pad` bytes after the start of the table. -/
def gptDisk (pad : ℕ) : Disk 512 := fun x ↦
  let table : Bytes := replicate pad 0 ++ efiSystemGuid ++ replicate 16 0 ++ [34]
  if x = 1 then gptSector (gptSignature ++ replicate 64 0 ++ [2, 0, 0, 0, 0, 0, 0, 0, 3, 0, 0, 0, 240])
  else if x = 2 then gptSector table
  else if x = 3 then gptSector (table.drop 512)
  else gptSector []

def gptBlock : BlockDevice 512 := ⟨64, by decide⟩

theorem gpt_partitions_agree_first : fatFindPartitionLBAFromGPT gptBlock (gptDisk 0) = some (some 34) ∧
      (gptFindPartitionLba (fun x ↦ some (gptDisk 0 x).1) = some 34 ↔
        ∀ i < (gptTable (gptDisk 0)).numEntries, (∀ j < i, ¬(gptTable (gptDisk 0)).Usable j) →
          (gptTable (gptDisk 0)).InBuffer i) :=
  have hcore : fatFindPartitionLBAFromGPT gptBlock (gptDisk 0) = some (some 34) := by decide +kernel
  ⟨hcore, gpt_partitions_agree_iff (fun _ _ ↦ rfl) (by decide +kernel) hcore⟩

/-- The first sector of the third entry is read outside the buffer. -/
theorem gpt_partition_straddles : (gptTable (gptDisk 480)).entrySize = 240 ∧
      fatFindPartitionLBAFromGPT gptBlock (gptDisk 480) = some (some 34) ∧
      gptFindPartitionLba (fun x ↦ some (gptDisk 480 x).1) = none := by
  decide +kernel

end CapazOS
