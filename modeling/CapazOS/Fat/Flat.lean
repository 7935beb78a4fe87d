import CapazOS.Fat.Find16

/-!
# Flat volumes

A volume whose root directory shows regular files only has one directory, so that its
well-formedness is a condition on the files (`Flat.wellFormed`). `disk16 fat dir` is the small FAT16
volume with one sector of table, one sector of root directory, and zeros elsewhere.
-/

namespace CapazOS

open List

variable {vol : Volume} {v : View} {bs : List (Option ℕ)}

/-- A volume with regular files in its root directory and nothing else. -/
structure Flat (vol : Volume) (v : View) (bs : List (Option ℕ)) : Prop where
  root : IsDir vol v (rootDir vol) bs
  files : ∀ {loc : SlotLoc} {e : FatDirEntry}, (loc, e) ∈ dirRecords vol.fatType v bs → e.isDir = false

namespace Flat

theorem reach (h : Flat vol v bs) {dir : Option ℕ} {bs' : List (Option ℕ)}
    (hr : Reach vol v dir bs') : dir = rootDir vol ∧ bs' = bs := by
  induction hr with
  | root hdir => exact ⟨rfl, hdir.unique h.root⟩
  | sub _ hmem hisDir _ _ _ ih =>
    obtain ⟨-, rfl⟩ := ih
    rw [h.files hmem] at hisDir
    cases hisDir

theorem live (h : Flat vol v bs) {loc : SlotLoc} {e : FatDirEntry} (hlive : Live vol v loc e) :
    (loc, e) ∈ dirRecords vol.fatType v bs := by
  obtain ⟨dir, bs', hr, hmem, -⟩ := hlive
  obtain ⟨-, rfl⟩ := h.reach hr
  exact hmem

/-- **A flat volume with one file at most** is well formed when the file is in order. -/
theorem wellFormed (h : Flat vol v bs) {files : List (SlotLoc × FatDirEntry)}
    (hrecords : dirRecords vol.fatType v bs = files) (hone : files.length ≤ 1)
    (hchain : ∀ x ∈ files, ∃ cs, EntryChain vol v x.2 cs ∧ Covers vol x.2 cs ∧
      ∀ c ∈ cs, some c ∉ bs) : WellFormed vol v := by
  have heq : ∀ x ∈ files, ∀ y ∈ files, x = y := by
    rcases files with - | ⟨x, - | ⟨y, rest⟩⟩
    · intro x hx
      cases hx
    · intro a ha b hb
      rw [mem_singleton.1 ha, mem_singleton.1 hb]
    · simp at hone
  have hmem : ∀ {loc e}, Live vol v loc e → (loc, e) ∈ files := fun hl ↦ hrecords ▸ h.live hl
  refine ⟨⟨⟨⟨bs, h.root⟩, fun hlive ↦ ?_⟩, ?_, ?_⟩, ?_⟩
  · obtain ⟨cs, hcs, hcov, -⟩ := hchain _ (hmem hlive)
    exact ⟨cs, hcs, hcov⟩
  · intro loc loc' e e' cs cs' hlive hlive' hne
    exact absurd (Prod.mk.inj (heq _ (hmem hlive) _ (hmem hlive'))).1 hne
  · intro c cs₀ hroot hcs₀ loc e cs hlive hcs c' hc₀ hc
    obtain ⟨cs', hcs', -, hout⟩ := hchain _ (hmem hlive)
    obtain rfl := hcs.unique hcs'
    have hdir := h.root
    rw [hroot] at hdir
    obtain rfl := hdir.unique (.chain hcs₀)
    exact hout c' hc (mem_map_of_mem hc₀)
  · intro dir bs' hr
    obtain ⟨-, rfl⟩ := h.reach hr
    rw [hrecords]
    rcases files with - | ⟨x, - | ⟨y, rest⟩⟩
    · exact nodup_nil
    · exact nodup_singleton _
    · simp at hone

end Flat

/-! ### Slots and entries in the first sector -/

theorem slotsOf_append {a b : Bytes} (h : 32 ∣ a.length) : slotsOf (a ++ b) = slotsOf a ++ slotsOf b := by
  obtain ⟨n, hn⟩ := h
  have hlen : (a ++ b).length / 32 = n + b.length / 32 := by rw [length_append, hn, Nat.mul_add_div (by omega)]
  rw [slotsOf, hlen, range_add, map_append, slotsOf, slotsOf, hn, Nat.mul_div_cancel_left _ (by omega), map_map]
  refine congrArg₂ (· ++ ·) (map_congr_left fun i hi ↦ ?_) (map_congr_left fun i _ ↦ ?_)
  · have := mem_range.1 hi
    rw [slice, slice, drop_append_of_le_length (by omega), take_append_of_le_length]
    rw [length_drop]
    omega
  · have hoff : (n + i) * 32 = a.length + i * 32 := by rw [hn]; ring
    show slice (a ++ b) ((n + i) * 32) 32 = slice b (i * 32) 32
    rw [slice, slice, hoff, drop_length_add_append]

theorem slotKind_of_zeros {data : Bytes} (h : ∀ b ∈ data, b = 0) {s : Bytes} (hs : s ∈ slotsOf data) :
    slotKind s = .endMark := by
  obtain ⟨i, -, rfl⟩ := mem_map.1 hs
  have hfirst : (slice data (i * 32) 32).getD 0 0 = 0 := by
    rw [getD_eq_getElem?_getD]
    rcases hget : (slice data (i * 32) 32)[0]? with - | b
    · rfl
    · exact h b (mem_of_mem_drop (mem_of_mem_take (mem_of_getElem? hget)))
  rw [slotKind, hfirst]
  rfl

theorem scanSlots_append_ends {slots ends : List Bytes} (h : ∀ s ∈ ends, slotKind s = .endMark)
    (i : ℕ) (lfn : List (List ℕ)) :
    (scanSlots (slots ++ ends) i lfn).1 = (scanSlots slots i lfn).1 := by
  induction slots generalizing i lfn with
  | nil =>
    rcases ends with - | ⟨s, rest⟩
    · rfl
    · rw [nil_append, scanSlots_endMark (h s mem_cons_self)]
      rfl
  | cons slot rest ih =>
    rcases eq_or_ne (slotKind slot) .endMark with hend | hend
    · rw [cons_append, scanSlots_endMark hend, scanSlots_endMark hend]
    · rw [cons_append, scanSlots_cons hend, scanSlots_cons hend, ih]

theorem readLE_append {n off : ℕ} {a : Bytes} (b : Bytes) (h : off + n ≤ a.length) :
    readLE n (a ++ b) off = readLE n a off := by
  have hslice : slice (a ++ b) off n = slice a off n := by
    rw [slice, slice, drop_append_of_le_length (by omega), take_append_of_le_length]
    rw [length_drop]
    omega
  rw [readLE, readLE, if_neg (by rw [length_append]; omega), if_neg (by omega), hslice]

theorem fatNextCluster_append {ty : FatType} {a : Bytes} (b : Bytes) {c : ℕ}
    (h : (c + 1) * fatEntryBytes ty ≤ a.length) :
    fatNextCluster ty (a ++ b) c = fatNextCluster ty a c := by
  cases ty
  · have hc : (c + 1) * 2 ≤ a.length := h
    rw [fatNextCluster_fat16, fatNextCluster_fat16, if_neg (by rw [length_append]; omega),
      if_neg (by omega), readLE_append b (by omega)]
  · have hc : (c + 1) * 4 ≤ a.length := h
    rw [fatNextCluster_fat32, fatNextCluster_fat32, if_neg (by rw [length_append]; omega),
      if_neg (by omega), readLE_append b (by omega)]

/-! ### Small FAT16 disks -/

def pathA : NormalizedPath := { flat := [0x41], segments := [[0x41]], isRoot := false }

/-- The small FAT16 volume with a sector of table, in both copies, and a sector of root
directory. -/
def disk16 (fat dir : Sector 512) : Disk 512 := fun lba ↦
  if lba = 0 then boot16
  else if lba = 16 ∨ lba = 36 then fat
  else if lba = 56 then dir
  else filled 0

section

variable (fat dir : Sector 512)

theorem disk16_of_ne {lba : ℕ} (h₀ : lba ≠ 0) (h₁ : lba ≠ 16) (h₂ : lba ≠ 36) (h₃ : lba ≠ 56) :
    disk16 fat dir lba = filled 0 := by
  rw [disk16, if_neg h₀, if_neg (by tauto), if_neg h₃]

theorem vol16_sound : SoundVolume block16 vol16 :=
  ⟨vol16_mountable, by decide, by decide, by decide, by decide⟩

theorem disk16_anchored : Anchored block16 vol16 (disk16 fat dir) :=
  anchored_of_boot (by decide) (by rw [Volume.Owned, Volume.OnLog]; decide) parse_boot16

theorem disk16_idle : Idle vol16 (disk16 fat dir) := by
  intro _
  exact not_prepared_zero 512

theorem disk16_mount : mount .fat16 block16 (Dev.start (disk16 fat dir)) =
    some (some vol16, Dev.start (disk16 fat dir)) := by
  have hty : vol16.fatType = .fat16 := rfl
  rw [← hty]
  exact mount_eq vol16_mountable (disk16_anchored fat dir) (disk16_idle fat dir)

theorem disk16_link {c : ℕ} (hc : c < 256) : (view vol16 (disk16 fat dir)).link c = fatNextCluster .fat16 fat.1 c := by
  obtain ⟨tail, heq, -⟩ := diskBytes_zeros (d := disk16 fat dir) 16 20 (by decide) fun x hlo hhi b hb ↦ by
      rw [disk16_of_ne fat dir (by omega) (by omega) (by omega) (by omega)] at hb
      exact eq_of_mem_replicate hb
  show fatNextCluster .fat16 ((disk16 fat dir).bytes 16 20) c = _
  rw [heq]
  refine fatNextCluster_append tail ?_
  show (c + 1) * 2 ≤ fat.1.length
  omega

theorem disk16_slots : ∃ ends : List Bytes, (∀ s ∈ ends, slotKind s = .endMark) ∧
    (view vol16 (disk16 fat dir)).slots none = slotsOf dir.1 ++ ends := by
  obtain ⟨tail, heq, hzero⟩ := diskBytes_zeros (d := disk16 fat dir) 56 32 (by decide) fun x hlo hhi b hb ↦ by
      rw [disk16_of_ne fat dir (by omega) (by omega) (by omega) (by omega)] at hb
      exact eq_of_mem_replicate hb
  refine ⟨slotsOf tail, fun s hs ↦ slotKind_of_zeros hzero hs, ?_⟩
  show slotsOf ((disk16 fat dir).bytes 56 32) = _
  rw [heq]
  exact slotsOf_append (by show 32 ∣ dir.1.length; rw [dir.2]; decide)

theorem disk16_records : dirRecords .fat16 (view vol16 (disk16 fat dir)) [none] =
    (fatScanDirEntriesEx dir.1).1.map fun r ↦ (⟨none, r.1⟩, r.2) := by
  obtain ⟨ends, hends, heq⟩ := disk16_slots fat dir
  have hscan : (fatScanDirEntriesEx ((view vol16 (disk16 fat dir)).block none)).1 = (fatScanDirEntriesEx dir.1).1 := by
    show (scanSlots ((view vol16 (disk16 fat dir)).slots none) 0 []).1 = _
    rw [heq]
    exact scanSlots_append_ends hends 0 []
  rw [dirRecords, dirRecords, ite_self, append_nil, blockRecords, hscan]

end

end CapazOS
