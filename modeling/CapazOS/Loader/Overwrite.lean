import CapazOS.Loader.Elf

/-!
# What a kernel file can make the loader overwrite

`load_kernel_elf` stores to the addresses of the program headers, and `loader_main` compares the
range of the image with `__boot_stack_top` **after everything has been stored.**
`load_kernel_elf_above_iff` says for every file which of its numbers keep the stores of the run
above a limit. A request whose 32-bit end wraps is copied up to the end of the cluster chain, so
that the results are about the bytes of the **whole chain** of a file.
-/

namespace CapazOS

open List

variable (raw : Bytes) (top : ℕ)

/-! ### Stores above a limit -/

/-- Every byte that is stored has an address from `top` on; addresses are 64-bit numbers. -/
def StoresAbove (stores : List (ℕ × Bytes)) : Prop :=
  ∀ w ∈ stores, ∀ j < w.2.length, top ≤ (w.1 + j) % 2 ^ 64

instance (stores : List (ℕ × Bytes)) : Decidable (StoresAbove top stores) :=
  inferInstanceAs (Decidable (∀ w ∈ stores, ∀ j < w.2.length, _))

/-- The `n` bytes from `a` on lie above `top` and do not wrap around. -/
def RangeAbove (top a n : ℕ) : Prop := n = 0 ∨ top = 0 ∨ top ≤ a ∧ a + n ≤ 2 ^ 64

instance (top a n : ℕ) : Decidable (RangeAbove top a n) := inferInstanceAs (Decidable (_ ∨ _))

theorem rangeAbove_iff {top a : ℕ} (ha : a < 2 ^ 64) (n : ℕ) :
    (∀ j < n, top ≤ (a + j) % 2 ^ 64) ↔ RangeAbove top a n := by
  constructor
  · intro h
    by_contra hnot
    simp only [RangeAbove, not_or, not_and_or] at hnot
    obtain ⟨hn, htop, hlow | hwrap⟩ := hnot
    · have hfirst := h 0 (by omega)
      rw [Nat.add_zero, Nat.mod_eq_of_lt ha] at hfirst
      exact hlow hfirst
    · -- a range that wraps covers the address 0
      have hzero := h (2 ^ 64 - a) (by omega)
      omega
  · rintro (rfl | rfl | ⟨hle, hend⟩) j hj
    · omega
    · exact Nat.zero_le _
    · rw [Nat.mod_eq_of_lt (by omega)]
      omega

theorem storesAbove_cons {top : ℕ} {w : ℕ × Bytes} {stores : List (ℕ × Bytes)} (hw : w.1 < 2 ^ 64) :
    StoresAbove top (w :: stores) ↔ RangeAbove top w.1 w.2.length ∧ StoresAbove top stores := by
  rw [StoresAbove, forall_mem_cons, rangeAbove_iff hw]
  rfl

theorem storesAbove_nil : StoresAbove top [] := fun _ hw ↦ nomatch hw

theorem ElfPhdr.dest_lt (bases : ElfBases) {ph : ElfPhdr} (h : ph.paddr < 2 ^ 64) : ph.dest bases < 2 ^ 64 := by
  rw [ElfPhdr.dest]
  split
  · exact h
  · exact Nat.mod_lt _ (by decide)

theorem elfPhdr_paddr_lt (buf : Bytes) : (elfPhdr buf).paddr < 2 ^ 64 := readLE_lt 8 buf 24

theorem storesAbove_zero_append (ph : ElfPhdr) (dest : ℕ) (stores : List (ℕ × Bytes)) :
    StoresAbove top (elfZero ph dest ++ stores) ↔
      RangeAbove top ((dest + ph.filesz) % 2 ^ 64) (ph.memsz - ph.filesz) ∧ StoresAbove top stores := by
  rw [elfZero]
  split
  · rw [singleton_append, storesAbove_cons (Nat.mod_lt _ (by decide)), length_replicate]
  · next hle => simp [RangeAbove, Nat.sub_eq_zero_of_le (Nat.not_lt.1 hle)]

/-! ### The numbers of a file -/

/-- The checks of `fat16_read_file_at` on a request. -/
def RequestPasses (size offset len : ℕ) : Prop := offset ≤ size ∧ (offset + len) % 2 ^ 32 ≤ size

instance (size offset len : ℕ) : Decidable (RequestPasses size offset len) :=
  inferInstanceAs (Decidable (_ ∧ _))

namespace ElfPhdr

/-- The copy of a segment goes through, on a file of `size` bytes in a chain of `room` bytes. -/
def Copies (size room dest : ℕ) (ph : ElfPhdr) : Prop :=
  ph.filesz = 0 ∨ dest ≠ 0 ∧ (ph.filesz % 2 ^ 32 = 0 ∨
    RequestPasses size (ph.offset % 2 ^ 32) (ph.filesz % 2 ^ 32) ∧ ph.offset % 2 ^ 32 + ph.filesz % 2 ^ 32 ≤ room)

instance (size room dest : ℕ) (ph : ElfPhdr) : Decidable (ph.Copies size room dest) :=
  inferInstanceAs (Decidable (_ ∨ _))

/-- How many bytes the copy of a segment stores, whether it goes through or not. -/
def copied (size room dest : ℕ) (ph : ElfPhdr) : ℕ :=
  if ph.filesz ≠ 0 ∧ dest ≠ 0 ∧ RequestPasses size (ph.offset % 2 ^ 32) (ph.filesz % 2 ^ 32) then
    min (ph.filesz % 2 ^ 32) (room - ph.offset % 2 ^ 32)
  else 0

end ElfPhdr

/-- The segments lie above `top`, up to the first one whose copy fails: the bytes that are copied,
and the zeros behind the size in the file. -/
def SegmentsAbove (top size room : ℕ) (bases : ElfBases) : List ElfPhdr → Prop
  | [] => True
  | ph :: segs =>
    RangeAbove top (ph.dest bases) (ph.copied size room (ph.dest bases)) ∧ (ph.Copies size room (ph.dest bases) →
        RangeAbove top ((ph.dest bases + ph.filesz) % 2 ^ 64) (ph.memsz - ph.filesz) ∧
          SegmentsAbove top size room bases segs)

instance SegmentsAbove.decidable (top size room : ℕ) (bases : ElfBases) :
    (segs : List ElfPhdr) → Decidable (SegmentsAbove top size room bases segs)
  | [] => isTrue trivial
  | _ :: segs =>
    have := SegmentsAbove.decidable top size room bases segs
    inferInstanceAs (Decidable (_ ∧ (_ → _ ∧ _)))

/-- Program header `i` of the file, at its offset cut to 32 bits. -/
def chainPhdr (i : ℕ) : ElfPhdr := elfPhdr (slice raw ((elfEhdr raw).phdrOffset i % 2 ^ 32) 56)

def PhdrReadable (size i : ℕ) : Prop :=
  RequestPasses size ((elfEhdr raw).phdrOffset i % 2 ^ 32) 56 ∧
    (elfEhdr raw).phdrOffset i % 2 ^ 32 + 56 ≤ raw.length

instance (size i : ℕ) : Decidable (PhdrReadable raw size i) := inferInstanceAs (Decidable (_ ∧ _))

def chainSegments (is : List ℕ) : List ElfPhdr := (is.map (chainPhdr raw)).filter ElfPhdr.loaded

def chainBases : ElfBases :=
  (chainSegments raw (range (elfEhdr raw).phnum)).foldl ElfBases.add .initial

/-- The loader gets to the second pass: the header is accepted, all program headers can be read, and
there is a segment with a virtual address below `UINT64_MAX`. -/
def ReachesLoad (size : ℕ) : Prop :=
  64 ≤ size ∧ (elfEhdr raw).accepted = true ∧
    (∀ i ∈ range (elfEhdr raw).phnum, PhdrReadable raw size i) ∧
    (chainBases raw).vaddr ≠ 2 ^ 64 - 1

instance (size : ℕ) : Decidable (ReachesLoad raw size) := inferInstanceAs (Decidable (_ ∧ _))

/-- **The file keeps above `top`.** -/
def FileAbove (raw : Bytes) (size : ℕ) : Prop :=
  ReachesLoad raw size → SegmentsAbove top size raw.length (chainBases raw).final
    (chainSegments raw (range (elfEhdr raw).phnum))

instance (raw : Bytes) (size : ℕ) : Decidable (FileAbove top raw size) :=
  inferInstanceAs (Decidable (_ → _))

/-! ### Files and their chains -/

/-- A file that the loader can read, with the bytes of its whole chain. -/
structure ChainedFile (block : BlockDevice 512) (d : Disk 512) (vol : Volume) (read : BootRead)
    (lv : LoaderVolume) (file : LoaderDirent) (raw : Bytes) : Prop
    extends LoaderReads block d vol read lv where
  chain : ∃ cs, (file.firstCluster < 2 ∧ cs = [] ∨ ChainFrom vol (view vol d) file.firstCluster cs) ∧
    file.size ≤ cs.length * clusterSize vol ∧ raw = cs.flatMap (view vol d).cluster

namespace ChainedFile

variable {block : BlockDevice 512} {d : Disk 512} {vol : Volume} {read : BootRead}
  {lv : LoaderVolume} {file : LoaderDirent} {raw : Bytes} {cache : FatCache}

section

variable (h : ChainedFile block d vol read lv file raw)
include h

theorem length_chain {cs : List ℕ}
    (hcs : file.firstCluster < 2 ∧ cs = [] ∨ ChainFrom vol (view vol d) file.firstCluster cs)
    (hraw : raw = cs.flatMap (view vol d).cluster) : raw.length = cs.length * clusterSize vol := by
  rw [hraw, length_flatMap_chain h.sound.mountable hcs]

theorem size_le : file.size ≤ raw.length := by
  obtain ⟨cs, hcs, hcov, hraw⟩ := h.chain
  rwa [h.length_chain hcs hraw]

theorem read_eq (hcache : cache.Coherent block d) (offset len : ℕ) {dst : ℕ} (hdst : dst ≠ 0) :
    ∃ cache', fat16ReadFileAt read lv file offset len dst cache =
        ⟨decide (len = 0 ∨ RequestPasses file.size offset len ∧ offset + len ≤ raw.length),
          if RequestPasses file.size offset len then slice raw offset len else [], cache'⟩ ∧
      cache'.Coherent block d := by
  rcases eq_or_ne len 0 with rfl | hlen
  · refine ⟨cache, ?_, hcache⟩
    rw [fat16ReadFileAt, if_neg hdst, if_pos rfl, slice, take_zero, ite_self]
    rfl
  by_cases hpass : RequestPasses file.size offset len
  · obtain ⟨cs, hcs, hcov, hraw⟩ := h.chain
    obtain ⟨cache', hread, hcache'⟩ := h.readChecked hcs hcov hdst hlen hpass.1 hpass.2 hcache
    refine ⟨cache', ?_, hcache'⟩
    rw [hread, if_pos hpass, h.length_chain hcs hraw, hraw]
    simp [hlen, hpass]
  · refine ⟨cache, ?_, hcache⟩
    rw [fat16ReadFileAt, if_neg hdst, if_neg hlen, if_neg hpass, decide_eq_false (by simp [hlen, hpass])]
    by_cases hoff : file.size < offset
    · rw [if_pos hoff]
    · rw [if_neg hoff, if_pos (Nat.not_le.1 fun hend ↦ hpass ⟨Nat.not_lt.1 hoff, hend⟩)]

theorem copy_eq (hcache : cache.Coherent block d) (ph : ElfPhdr) (dest : ℕ) :
    ((elfCopy read lv file ph dest cache).ok = true ↔ ph.Copies file.size raw.length dest) ∧
      (elfCopy read lv file ph dest cache).data.length = ph.copied file.size raw.length dest ∧
      (elfCopy read lv file ph dest cache).cache.Coherent block d := by
  unfold elfCopy ElfPhdr.Copies ElfPhdr.copied
  rcases Nat.eq_zero_or_pos ph.filesz with hzero | hpos
  · rw [if_neg (by omega)]
    simp [hzero, hcache]
  rw [if_pos hpos]
  rcases eq_or_ne dest 0 with rfl | hdest
  · rw [fat16ReadFileAt, if_pos rfl]
    simp [hpos.ne', hcache]
  obtain ⟨cache', hread, hcache'⟩ := h.read_eq hcache (ph.offset % 2 ^ 32) (ph.filesz % 2 ^ 32) hdest
  rw [hread]
  refine ⟨?_, ?_, hcache'⟩
  · simp [hpos.ne', hdest]
  · simp only [hpos.ne', hdest, ne_eq, not_false_eq_true, true_and]
    split
    · rw [length_slice_eq]
    · rfl

theorem readPhdr_eq (hcache : cache.Coherent block d) (i : ℕ) :
    ∃ cache', elfReadPhdr read lv file (elfEhdr raw) i cache =
        (if PhdrReadable raw file.size i then some (chainPhdr raw i, cache') else none) ∧
      cache'.Coherent block d := by
  obtain ⟨cache', hread, hcache'⟩ := h.read_eq hcache ((elfEhdr raw).phdrOffset i % 2 ^ 32) 56
    (show stackBuffer ≠ 0 by decide)
  refine ⟨cache', ?_, hcache'⟩
  rw [elfReadPhdr, hread]
  by_cases hpass : PhdrReadable raw file.size i
  · rw [if_pos hpass]
    simp only [hpass.1, hpass.2, true_and, or_true, decide_true, if_true]
    rfl
  · rw [if_neg hpass]
    refine if_neg fun hok ↦ hpass ?_
    exact (decide_eq_true_eq.mp hok).resolve_left (by decide)

end

/-! ### The two passes -/

theorem chainSegments_cons (raw : Bytes) (i : ℕ) (is : List ℕ) : chainSegments raw (i :: is) =
    if (chainPhdr raw i).loaded then chainPhdr raw i :: chainSegments raw is
    else chainSegments raw is := by
  rw [chainSegments, map_cons, filter_cons]
  rfl

theorem basesLoop_eq (h : ChainedFile block d vol read lv file raw) (hcache : cache.Coherent block d)
    (is : List ℕ) (bases : ElfBases) :
    ∃ cache', elfBasesLoop read lv file (elfEhdr raw) is bases cache = (if ∀ i ∈ is, PhdrReadable raw file.size i then
          some ((chainSegments raw is).foldl ElfBases.add bases, cache') else none) ∧
      cache'.Coherent block d := by
  induction is generalizing bases cache with
  | nil => exact ⟨cache, by rw [if_pos (by simp)]; rfl, hcache⟩
  | cons i is ih =>
    obtain ⟨cache₁, hread, hcache₁⟩ := h.readPhdr_eq hcache i
    obtain ⟨cache', hrest, hcache'⟩ :=
      ih hcache₁ (if (chainPhdr raw i).loaded then bases.add (chainPhdr raw i) else bases)
    refine ⟨cache', ?_, hcache'⟩
    rw [elfBasesLoop, hread, chainSegments_cons]
    by_cases hi : PhdrReadable raw file.size i
    · rw [if_pos hi]
      simp only [hrest, forall_mem_cons, hi, true_and]
      cases (chainPhdr raw i).loaded <;> rfl
    · rw [if_neg hi, if_neg fun hall ↦ hi (hall i mem_cons_self)]

/-- **The second pass** stores above `top` exactly when the segments lie there. -/
theorem loadLoop_above_iff (h : ChainedFile block d vol read lv file raw)
    (hcache : cache.Coherent block d) (top : ℕ) {is : List ℕ}
    (his : ∀ i ∈ is, PhdrReadable raw file.size i) (bases : ElfBases) (hull : ElfHull) :
    StoresAbove top (elfLoadLoop read lv file (elfEhdr raw) bases is hull cache).stores ↔
      SegmentsAbove top file.size raw.length bases (chainSegments raw is) := by
  induction is generalizing hull cache with
  | nil => exact ⟨fun _ ↦ trivial, fun _ ↦ storesAbove_nil top⟩
  | cons i is ih =>
    obtain ⟨hi, his⟩ := forall_mem_cons.1 his
    obtain ⟨cache₁, hread, hcache₁⟩ := h.readPhdr_eq hcache i
    have hlt : (chainPhdr raw i).dest bases < 2 ^ 64 := ElfPhdr.dest_lt bases (elfPhdr_paddr_lt _)
    rw [elfLoadLoop, hread, if_pos hi, chainSegments_cons]
    generalize chainPhdr raw i = ph at hlt ⊢
    rcases hloaded : ph.loaded with - | -
    · simp only [hloaded, Bool.not_false, if_true, Bool.false_eq_true, if_false]
      exact ih hcache₁ his hull
    simp only [hloaded, Bool.not_true, Bool.false_eq_true, if_false, if_true]
    obtain ⟨hok, hlen, hcache₂⟩ := h.copy_eq hcache₁ ph (ph.dest bases)
    rcases hcopy : (elfCopy read lv file ph (ph.dest bases) cache₁).ok with - | -
    · have hnot : ¬ph.Copies file.size raw.length (ph.dest bases) := by
        rw [← hok, hcopy]
        exact Bool.false_ne_true
      simp only [Bool.not_false, if_true]
      rw [storesAbove_cons hlt, hlen, SegmentsAbove, and_iff_left (storesAbove_nil top),
        and_iff_left fun hcopies ↦ absurd hcopies hnot]
    · simp only [Bool.not_true, Bool.false_eq_true, if_false]
      rw [cons_append, storesAbove_cons hlt, hlen, storesAbove_zero_append,
        ih hcache₂ his, SegmentsAbove, forall_prop_of_true (hok.1 hcopy)]

end ChainedFile

section

variable {block : BlockDevice 512} {d : Disk 512} {vol : Volume} {read : BootRead}
  {lv : LoaderVolume} {file : LoaderDirent} {raw : Bytes} {cache : FatCache}

/-- **What a kernel file makes the loader overwrite**: every byte stored has an address from `top`
on exactly when the numbers of the file say so. -/
theorem load_kernel_elf_above_iff (h : ChainedFile block d vol read lv file raw)
    (hcache : cache.Coherent block d) (top : ℕ) :
    StoresAbove top (loadKernelElf read lv file cache).stores ↔ FileAbove top raw file.size := by
  obtain ⟨cache₁, hread, hcache₁⟩ := h.read_eq hcache 0 64 (show stackBuffer ≠ 0 by decide)
  have hpass : RequestPasses file.size 0 64 ↔ 64 ≤ file.size := by
    rw [RequestPasses]
    omega
  have hsize := h.size_le
  unfold loadKernelElf
  rw [hread, FileAbove, ReachesLoad]
  by_cases hhdr : 64 ≤ file.size
  swap
  · simp [hpass, hhdr, storesAbove_nil]
  rw [if_pos (hpass.2 hhdr)]
  simp only [hpass.2 hhdr, show 0 + 64 ≤ raw.length by omega, and_self, or_true, decide_true,
    Bool.not_true, Bool.false_eq_true, if_false, elfEhdr_slice (hhdr.trans hsize), hhdr, true_and]
  rcases hacc : (elfEhdr raw).accepted with - | -
  · simp [storesAbove_nil]
  simp only [Bool.not_true, Bool.false_eq_true, if_false, true_and]
  obtain ⟨cache₂, hbases, hcache₂⟩ := h.basesLoop_eq hcache₁ (range (elfEhdr raw).phnum) .initial
  rw [hbases]
  by_cases hall : ∀ i ∈ range (elfEhdr raw).phnum, PhdrReadable raw file.size i
  swap
  · rw [if_neg hall]
    exact ⟨fun _ hreach ↦ absurd hreach.1 hall, fun _ ↦ storesAbove_nil top⟩
  rw [if_pos hall]
  simp only
  rw [show (chainSegments raw (range (elfEhdr raw).phnum)).foldl ElfBases.add .initial = chainBases raw from rfl]
  by_cases hbase : (chainBases raw).vaddr = 2 ^ 64 - 1
  · rw [if_pos hbase]
    exact ⟨fun _ hreach ↦ absurd hbase hreach.2, fun _ ↦ storesAbove_nil top⟩
  rw [if_neg hbase, forall_prop_of_true ⟨hall, hbase⟩,
    ← h.loadLoop_above_iff hcache₂ top hall (chainBases raw).final .initial]
  -- the three ways to return keep the stores of the second pass
  split_ifs <;> rfl

end

/-! ### Images with a low address -/

theorem elfDisk_chained (image : Bytes) (h : image.length ≤ 512) :
    ChainedFile block16 (elfDisk image h) vol16 (elfRead image h) loader16 (elfFile image) (padZeros 512 image) := by
  obtain ⟨hchain, hsize⟩ := elfDisk_chain image h
  exact ⟨elfDisk_reads image h, [2], .inr hchain, hsize, by rw [flatMap_singleton, elfDisk_cluster]⟩

/-- The image with two bytes in a segment of three, to be loaded at `paddr`. -/
def elfImageAt (paddr : ℕ) : Bytes :=
  (elfImage 2 3).take 88 ++ leBytes 8 paddr ++ (elfImage 2 3).drop 96

theorem elfImageAt_le (paddr : ℕ) : (elfImageAt paddr).length ≤ 512 := by
  simp [elfImageAt, elfImage]

theorem load_kernel_elf_above_small :
    FileAbove 0x40200000 (padZeros 512 (elfImageAt 0x40280000)) (elfFile (elfImageAt 0x40280000)).size ∧
      StoresAbove 0x40200000 (loadKernelElf (elfRead _ (elfImageAt_le 0x40280000)) loader16
        (elfFile (elfImageAt 0x40280000)) FatCache.initial).stores := by
  have hiff := load_kernel_elf_above_iff (elfDisk_chained _ (elfImageAt_le 0x40280000))
    (FatCache.initial_coherent _ _) 0x40200000
  rw [hiff, and_self]
  decide +kernel

/-- An image at `0x40080000` is stored there, below the end of the loader. -/
theorem load_kernel_elf_overwrites : ReadableFile block16 (elfDisk _ (elfImageAt_le 0x40080000)) vol16
      (elfRead _ (elfImageAt_le 0x40080000)) loader16 (elfFile (elfImageAt 0x40080000))
      (elfImageAt 0x40080000) ∧
    ¬StoresAbove 0x40200000 (loadKernelElf (elfRead _ (elfImageAt_le 0x40080000)) loader16
      (elfFile (elfImageAt 0x40080000)) FatCache.initial).stores ∧
    (loadKernelElf (elfRead _ (elfImageAt_le 0x40080000)) loader16
      (elfFile (elfImageAt 0x40080000)) FatCache.initial).image = some ⟨0x40080000, 3, 0, 0x40280000⟩ := by
  refine ⟨elfDisk_readable _ _, ?_, ?_⟩
  · decide +kernel
  · decide +kernel

end CapazOS
