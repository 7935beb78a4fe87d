import CapazOS.Loader.Agreement
import CapazOS.Lib.Memory
import Mathlib.Order.Bounds.Basic

/-!
# Loading the kernel image

The model of `load_kernel_elf` of `Kern/Loader/loader.c`. The file is read through offsets and
lengths of 32 bits, and **the copy length is not compared with the size of the segment in memory**.
The effect of a run is the list of its stores outside the loader's own variables. For an image whose
numbers are in range (`ElfInRange`) a successful run is faithful (`load_kernel_elf_faithful`).
-/

namespace CapazOS

open List ByteMem Function

/-! ### Headers -/

/-- The fields of `Elf64_Ehdr` that are looked at. -/
structure ElfEhdr where
  ident : Bytes
  machine : ℕ
  entry : ℕ
  phoff : ℕ
  phentsize : ℕ
  phnum : ℕ

def elfEhdr (buf : Bytes) : ElfEhdr where
  ident := slice buf 0 16
  machine := readLE 2 buf 18
  entry := readLE 8 buf 24
  phoff := readLE 8 buf 32
  phentsize := readLE 2 buf 54
  phnum := readLE 2 buf 56

/-- The checks of the header: ELF, 64 bits, little-endian, AArch64, and program headers of at least
their size. -/
def ElfEhdr.accepted (ehdr : ElfEhdr) : Bool :=
  ehdr.ident.getD 0 0 = 0x7F && ehdr.ident.getD 1 0 = 0x45 && ehdr.ident.getD 2 0 = 0x4C &&
    ehdr.ident.getD 3 0 = 0x46 && ehdr.ident.getD 4 0 = 2 && ehdr.ident.getD 5 0 = 1 &&
    ehdr.machine = 0xB7 && 56 ≤ ehdr.phentsize && ehdr.phnum ≠ 0

/-- The fields of `Elf64_Phdr` that are looked at. -/
structure ElfPhdr where
  type : ℕ
  offset : ℕ
  vaddr : ℕ
  paddr : ℕ
  filesz : ℕ
  memsz : ℕ
  deriving DecidableEq

def elfPhdr (buf : Bytes) : ElfPhdr where
  type := readLE 4 buf 0
  offset := readLE 8 buf 8
  vaddr := readLE 8 buf 16
  paddr := readLE 8 buf 24
  filesz := readLE 8 buf 32
  memsz := readLE 8 buf 40

/-- The headers both passes do not skip: `PT_LOAD` with a size in memory. -/
def ElfPhdr.loaded (ph : ElfPhdr) : Bool := ph.type = 1 && ph.memsz ≠ 0

/-- The 64-bit offset of program header `i`. -/
def ElfEhdr.phdrOffset (ehdr : ElfEhdr) (i : ℕ) : ℕ := (ehdr.phoff + i * ehdr.phentsize) % 2 ^ 64

/-! ### The first pass -/

/-- `base_vaddr` and `base_paddr`. -/
structure ElfBases where
  vaddr : ℕ
  paddr : ℕ

def ElfBases.initial : ElfBases := ⟨2 ^ 64 - 1, 2 ^ 64 - 1⟩

def ElfBases.add (bases : ElfBases) (ph : ElfPhdr) : ElfBases where
  vaddr := if ph.vaddr < bases.vaddr then ph.vaddr else bases.vaddr
  paddr := if ph.paddr ≠ 0 ∧ ph.paddr < bases.paddr then ph.paddr else bases.paddr

def loaderKernelPhysBase : ℕ := 0x40280000

/-- The bases after the first pass: without a physical address, the default one. -/
def ElfBases.final (bases : ElfBases) : ElfBases :=
  { bases with paddr := if bases.paddr = 2 ^ 64 - 1 then loaderKernelPhysBase else bases.paddr }

def ElfPhdr.dest (bases : ElfBases) (ph : ElfPhdr) : ℕ :=
  if ph.paddr ≠ 0 then ph.paddr
  else (bases.paddr + (2 ^ 64 + ph.vaddr - bases.vaddr) % 2 ^ 64) % 2 ^ 64

section

variable (read : BootRead) (vol : LoaderVolume) (file : LoaderDirent)

def stackBuffer : ℕ := 1

/-- The program header number `i`; its offset is cut to 32 bits. -/
def elfReadPhdr (ehdr : ElfEhdr) (i : ℕ) (cache : FatCache) : Option (ElfPhdr × FatCache) :=
  let out := fat16ReadFileAt read vol file (ehdr.phdrOffset i % 2 ^ 32) 56 stackBuffer cache
  if out.ok then some (elfPhdr out.data, out.cache) else none

def elfBasesLoop (ehdr : ElfEhdr) : List ℕ → ElfBases → FatCache → Option (ElfBases × FatCache)
  | [], bases, cache => some (bases, cache)
  | i :: is, bases, cache =>
    match elfReadPhdr read vol file ehdr i cache with
    | none => none
    | some (ph, cache) => elfBasesLoop ehdr is (if ph.loaded then bases.add ph else bases) cache

/-! ### The second pass -/

/-- The span of the segments loaded so far. -/
structure ElfHull where
  /-- `min_paddr`: the lowest destination. -/
  lo : ℕ
  /-- `max_paddr`: the highest end of a segment. -/
  hi : ℕ

def ElfHull.initial : ElfHull := ⟨2 ^ 64 - 1, 0⟩

/-- The hull after a segment; its end is a 64-bit sum. -/
def ElfHull.add (hull : ElfHull) (dest memsz : ℕ) : ElfHull where
  lo := if dest < hull.lo then dest else hull.lo
  hi := if hull.hi < (dest + memsz) % 2 ^ 64 then (dest + memsz) % 2 ^ 64 else hull.hi

/-- What the second pass does: whether it went through, its stores, and the hull. -/
structure ElfLoad where
  ok : Bool
  stores : List (ℕ × Bytes)
  hull : ElfHull

/-- The copy of a segment: offset and length are cut to 32 bits. -/
def elfCopy (ph : ElfPhdr) (dest : ℕ) (cache : FatCache) : ReadOutcome :=
  if 0 < ph.filesz then
    fat16ReadFileAt read vol file (ph.offset % 2 ^ 32) (ph.filesz % 2 ^ 32) dest cache
  else ⟨true, [], cache⟩

def elfZero (ph : ElfPhdr) (dest : ℕ) : List (ℕ × Bytes) :=
  if ph.filesz < ph.memsz then
    [((dest + ph.filesz) % 2 ^ 64, replicate (ph.memsz - ph.filesz) 0)]
  else []

def elfLoadLoop (ehdr : ElfEhdr) (bases : ElfBases) : List ℕ → ElfHull → FatCache → ElfLoad
  | [], hull, _ => ⟨true, [], hull⟩
  | i :: is, hull, cache =>
    match elfReadPhdr read vol file ehdr i cache with
    | none => ⟨false, [], hull⟩
    | some (ph, cache) =>
      if !ph.loaded then elfLoadLoop ehdr bases is hull cache
      else
        let dest := ph.dest bases
        let copy := elfCopy read vol file ph dest cache
        if !copy.ok then ⟨false, [(dest, copy.data)], hull⟩
        else
          let rest := elfLoadLoop ehdr bases is (hull.add dest ph.memsz) copy.cache
          { rest with stores := (dest, copy.data) :: elfZero ph dest ++ rest.stores }

/-- What a successful run reports: `kernel_phys_base`, `kernel_size`, `kernel_entry_offset` and the
entry point. -/
structure KernelImage where
  physBase : ℕ
  size : ℕ
  entryOffset : ℕ
  entry : ℕ
  deriving DecidableEq

/-- The stores of a run, and the image when it returns true. -/
structure ElfOutcome where
  stores : List (ℕ × Bytes)
  image : Option KernelImage

def loadKernelElf (cache : FatCache) : ElfOutcome :=
  let out := fat16ReadFileAt read vol file 0 64 stackBuffer cache
  if !out.ok then ⟨[], none⟩
  else
    let ehdr := elfEhdr out.data
    if !ehdr.accepted then ⟨[], none⟩
    else
      match elfBasesLoop read vol file ehdr (range ehdr.phnum) .initial out.cache with
      | none => ⟨[], none⟩
      | some (bases, cache) =>
        if bases.vaddr = 2 ^ 64 - 1 then ⟨[], none⟩
        else
          let load := elfLoadLoop read vol file ehdr bases.final (range ehdr.phnum) .initial cache
          if !load.ok then ⟨load.stores, none⟩
          else if load.hull.lo = 2 ^ 64 - 1 ∨ load.hull.hi ≤ load.hull.lo then ⟨load.stores, none⟩
          else
            ⟨load.stores, some
              { physBase := load.hull.lo
                size := load.hull.hi - load.hull.lo
                entryOffset := if bases.vaddr ≤ ehdr.entry then ehdr.entry - bases.vaddr else 0
                entry := ehdr.entry }⟩

end

/-! ### What an image asks for -/

/-- The segments of an image, in the order of their headers. -/
def elfSegments (bytes : Bytes) : List ElfPhdr :=
  ((range (elfEhdr bytes).phnum).map fun i ↦
    elfPhdr (slice bytes ((elfEhdr bytes).phdrOffset i) 56)).filter ElfPhdr.loaded

def elfBases (bytes : Bytes) : ElfBases := ((elfSegments bytes).foldl ElfBases.add .initial).final

def elfDest (bytes : Bytes) (ph : ElfPhdr) : ℕ := ph.dest (elfBases bytes)

/-- The numbers of an image are in range: its headers and the file bytes of its segments lie below
`2 ^ 32`, a segment is not larger in the file than in memory, and it ends below `2 ^ 64`. -/
structure ElfInRange (bytes : Bytes) : Prop where
  headers : ∀ i < (elfEhdr bytes).phnum, (elfEhdr bytes).phdrOffset i + 56 < 2 ^ 32
  copies : ∀ ph ∈ elfSegments bytes, ph.filesz ≤ ph.memsz ∧ (0 < ph.filesz → ph.offset + ph.filesz < 2 ^ 32)
  dests : ∀ ph ∈ elfSegments bytes, elfDest bytes ph + ph.memsz < 2 ^ 64

/-- No two segments overlap in memory. -/
def ElfSeparate (bytes : Bytes) : Prop :=
  (elfSegments bytes).Pairwise fun ph ph' ↦
    elfDest bytes ph + ph.memsz ≤ elfDest bytes ph' ∨ elfDest bytes ph' + ph'.memsz ≤ elfDest bytes ph

/-- **A faithful load**: segments that do not overlap hold their file bytes and zeros behind them,
all stores go to segments, and the reported range is the hull of the segments. -/
structure ElfFaithful (bytes : Bytes) (stores : List (ℕ × Bytes)) (image : KernelImage) : Prop where
  contents : ElfSeparate bytes → ∀ (m : Mem), ∀ ph ∈ elfSegments bytes,
    (∀ j < ph.filesz, bytes[ph.offset + j]? = some (writeAll m stores (elfDest bytes ph + j))) ∧
      ∀ j, ph.filesz ≤ j → j < ph.memsz → writeAll m stores (elfDest bytes ph + j) = 0
  frame : ∀ w ∈ stores, ∀ x ∈ Finset.Ico w.1 (w.1 + w.2.length), ∃ ph ∈ elfSegments bytes,
    x ∈ Finset.Ico (elfDest bytes ph) (elfDest bytes ph + ph.memsz)
  base : IsLeast {a | ∃ ph ∈ elfSegments bytes, a = elfDest bytes ph} image.physBase
  top : IsGreatest {a | ∃ ph ∈ elfSegments bytes, a = elfDest bytes ph + ph.memsz} (image.physBase + image.size)

/-! ### Readable files -/

/-- A file that the loader can read, with its bytes. -/
structure ReadableFile (block : BlockDevice 512) (d : Disk 512) (vol : Volume) (read : BootRead)
    (lv : LoaderVolume) (file : LoaderDirent) (bytes : Bytes) : Prop
    extends LoaderReads block d vol read lv where
  size_lt : file.size < 2 ^ 32
  chain : ∃ cs, (file.firstCluster < 2 ∧ cs = [] ∨ ChainFrom vol (view vol d) file.firstCluster cs) ∧
    file.size ≤ cs.length * clusterSize vol ∧ bytes = CapazOS.contents (view vol d) cs file.size

section

variable {block : BlockDevice 512} {d : Disk 512} {vol : Volume} {read : BootRead}
  {lv : LoaderVolume} {file : LoaderDirent} {bytes : Bytes} {cache : FatCache}

def elfSegmentsAt (bytes : Bytes) (is : List ℕ) : List ElfPhdr :=
  (is.map fun i ↦ elfPhdr (slice bytes ((elfEhdr bytes).phdrOffset i) 56)).filter ElfPhdr.loaded

theorem elfSegmentsAt_cons (bytes : Bytes) (i : ℕ) (is : List ℕ) : elfSegmentsAt bytes (i :: is) =
      let ph := elfPhdr (slice bytes ((elfEhdr bytes).phdrOffset i) 56)
      if ph.loaded then ph :: elfSegmentsAt bytes is else elfSegmentsAt bytes is := by
  rw [elfSegmentsAt, map_cons, filter_cons]
  rfl

/-- The stores of a segment: its file bytes, and zeros behind them. -/
def elfStores (bytes : Bytes) (dest : ℕ) (ph : ElfPhdr) : List (ℕ × Bytes) :=
  (dest, slice bytes ph.offset ph.filesz) :: elfZero ph dest

section

variable (h : ReadableFile block d vol read lv file bytes)
include h

theorem ReadableFile.length : bytes.length = file.size := by
  obtain ⟨cs, hcs, hcov, rfl⟩ := h.chain
  rw [CapazOS.contents, length_take, length_flatMap_chain h.sound.mountable hcs]
  omega

/-- **A read that returns true** stayed in the file and delivered its bytes, when the end of the
request is a 32-bit number. -/
theorem ReadableFile.read_ok (hcache : cache.Coherent block d) {offset len dst : ℕ} (hlt : offset + len < 2 ^ 32)
    (hok : (fat16ReadFileAt read lv file offset len dst cache).ok = true) :
    (len ≠ 0 → offset + len ≤ bytes.length) ∧
      (fat16ReadFileAt read lv file offset len dst cache).data = slice bytes offset len ∧
      (fat16ReadFileAt read lv file offset len dst cache).cache.Coherent block d := by
  have hdst : dst ≠ 0 := by
    rintro rfl
    cases hok
  rcases eq_or_ne len 0 with rfl | hlen
  · rw [fat16ReadFileAt, if_neg hdst, if_pos rfl]
    exact ⟨fun hne ↦ absurd rfl hne, by rw [slice, take_zero], hcache⟩
  have hle : offset + len ≤ file.size := by
    by_contra hgt
    rw [fat16ReadFileAt, if_neg hdst, if_neg hlen, Nat.mod_eq_of_lt hlt] at hok
    split at hok
    · cases hok
    · rw [if_pos (by omega)] at hok
      cases hok
  obtain ⟨cs, hcs, hcov, hbytes⟩ := h.chain
  obtain ⟨cache', hread, hcache'⟩ := h.readFileAt hcs hcov h.size_lt hdst hle hcache
  rw [hread, hbytes]
  refine ⟨fun _ ↦ ?_, rfl, hcache'⟩
  rw [← hbytes, h.length]
  exact hle

theorem ReadableFile.readPhdr (hcache : cache.Coherent block d) {i : ℕ} (hlt : (elfEhdr bytes).phdrOffset i + 56 < 2 ^ 32)
    {ph : ElfPhdr} {cache' : FatCache}
    (hread : elfReadPhdr read lv file (elfEhdr bytes) i cache = some (ph, cache')) :
    ph = elfPhdr (slice bytes ((elfEhdr bytes).phdrOffset i) 56) ∧ cache'.Coherent block d := by
  rw [elfReadPhdr, Nat.mod_eq_of_lt (by omega)] at hread
  split at hread
  · next hok =>
    obtain ⟨-, hdata, hcoh⟩ := h.read_ok hcache hlt hok
    obtain ⟨rfl, rfl⟩ := Prod.mk.inj (Option.some.inj hread)
    exact ⟨by rw [hdata], hcoh⟩
  · cases hread

theorem ReadableFile.basesLoop {is : List ℕ}
    (his : ∀ i ∈ is, (elfEhdr bytes).phdrOffset i + 56 < 2 ^ 32) {bases bases' : ElfBases}
    (hcache : cache.Coherent block d) {cache' : FatCache}
    (hloop : elfBasesLoop read lv file (elfEhdr bytes) is bases cache = some (bases', cache')) :
    bases' = (elfSegmentsAt bytes is).foldl ElfBases.add bases ∧ cache'.Coherent block d := by
  induction is generalizing bases cache with
  | nil =>
    obtain ⟨rfl, rfl⟩ := Prod.mk.inj (Option.some.inj hloop)
    exact ⟨rfl, hcache⟩
  | cons i is ih =>
    obtain ⟨hi, his⟩ := forall_mem_cons.1 his
    rw [elfBasesLoop] at hloop
    split at hloop
    · cases hloop
    next ph cache₁ hread =>
    obtain ⟨rfl, hcache₁⟩ := h.readPhdr hcache hi hread
    obtain ⟨heq, hcache'⟩ := ih his hcache₁ hloop
    refine ⟨?_, hcache'⟩
    rw [heq, elfSegmentsAt_cons]
    simp only
    split <;> rfl

theorem ReadableFile.copy_ok (hcache : cache.Coherent block d) {ph : ElfPhdr} {dest : ℕ}
    (hlt : 0 < ph.filesz → ph.offset + ph.filesz < 2 ^ 32)
    (hok : (elfCopy read lv file ph dest cache).ok = true) :
    (0 < ph.filesz → ph.offset + ph.filesz ≤ bytes.length) ∧
      (elfCopy read lv file ph dest cache).data = slice bytes ph.offset ph.filesz ∧
      (elfCopy read lv file ph dest cache).cache.Coherent block d := by
  unfold elfCopy at hok ⊢
  rcases Nat.eq_zero_or_pos ph.filesz with hzero | hpos
  · rw [if_neg (by omega)] at hok ⊢
    exact ⟨fun hpos ↦ absurd hpos (by omega), by rw [hzero, slice, take_zero], hcache⟩
  · have hsum := hlt hpos
    rw [if_pos hpos, Nat.mod_eq_of_lt (by omega), Nat.mod_eq_of_lt (by omega)] at hok ⊢
    obtain ⟨hle, hdata, hcoh⟩ := h.read_ok hcache hsum hok
    exact ⟨fun _ ↦ hle (by omega), hdata, hcoh⟩

theorem ReadableFile.loadLoop {is : List ℕ}
    (his : ∀ i ∈ is, (elfEhdr bytes).phdrOffset i + 56 < 2 ^ 32) {bases : ElfBases}
    (hcopies : ∀ ph ∈ elfSegmentsAt bytes is, 0 < ph.filesz → ph.offset + ph.filesz < 2 ^ 32)
    {hull : ElfHull} (hcache : cache.Coherent block d)
    (hok : (elfLoadLoop read lv file (elfEhdr bytes) bases is hull cache).ok = true) :
    (∀ ph ∈ elfSegmentsAt bytes is, 0 < ph.filesz → ph.offset + ph.filesz ≤ bytes.length) ∧
      (elfLoadLoop read lv file (elfEhdr bytes) bases is hull cache).stores =
        (elfSegmentsAt bytes is).flatMap (fun ph ↦ elfStores bytes (ph.dest bases) ph) ∧
      (elfLoadLoop read lv file (elfEhdr bytes) bases is hull cache).hull =
        (elfSegmentsAt bytes is).foldl (fun hull ph ↦ hull.add (ph.dest bases) ph.memsz) hull := by
  induction is generalizing hull cache with
  | nil => exact ⟨(fun _ hph ↦ nomatch hph), rfl, rfl⟩
  | cons i is ih =>
    obtain ⟨hi, his⟩ := forall_mem_cons.1 his
    rw [elfSegmentsAt_cons] at hcopies ⊢
    rw [elfLoadLoop] at hok ⊢
    rcases hread : elfReadPhdr read lv file (elfEhdr bytes) i cache with - | ⟨ph, cache₁⟩
    · rw [hread] at hok
      cases hok
    obtain ⟨rfl, hcache₁⟩ := h.readPhdr hcache hi hread
    simp only [hread] at hok ⊢
    generalize elfPhdr (slice bytes ((elfEhdr bytes).phdrOffset i) 56) = ph at hok hcopies ⊢
    rcases hloaded : ph.loaded with - | -
    · simp only [hloaded, Bool.not_false, if_true, Bool.false_eq_true, if_false] at hok hcopies ⊢
      exact ih his hcopies hcache₁ hok
    · simp only [hloaded, Bool.not_true, Bool.false_eq_true, if_false, if_true] at hok hcopies ⊢
      obtain ⟨hph, hrest⟩ := forall_mem_cons.1 hcopies
      rcases hcopy : (elfCopy read lv file ph (ph.dest bases) cache₁).ok with - | -
      · rw [hcopy] at hok
        cases hok
      obtain ⟨hle, hdata, hcache₂⟩ := h.copy_ok hcache₁ hph hcopy
      simp only [hcopy, Bool.not_true, Bool.false_eq_true, if_false] at hok ⊢
      obtain ⟨hle', hstores, hhull⟩ := ih his hrest hcache₂ hok
      refine ⟨forall_mem_cons.2 ⟨hle, hle'⟩, ?_, hhull⟩
      rw [hstores, hdata, flatMap_cons, elfStores]

end

end

/-! ### Segments in memory -/

section

variable {bytes : Bytes} {dest : ElfPhdr → ℕ} {segs : List ElfPhdr}

theorem elfStores_window {ph : ElfPhdr} {a : ℕ} (hle : ph.filesz ≤ ph.memsz)
    (hend : a + ph.memsz < 2 ^ 64) {w : ℕ × Bytes} (hw : w ∈ elfStores bytes a ph) :
    Finset.Ico w.1 (w.1 + w.2.length) ⊆ Finset.Ico a (a + ph.memsz) := by
  rcases mem_cons.1 hw with rfl | hw
  · have hlen := length_slice_eq bytes ph.offset ph.filesz
    refine Finset.Ico_subset_Ico le_rfl ?_
    show a + (slice bytes ph.offset ph.filesz).length ≤ _
    omega
  · rw [elfZero] at hw
    split at hw
    · rw [mem_singleton.1 hw, Nat.mod_eq_of_lt (by omega), length_replicate]
      exact Finset.Ico_subset_Ico (by omega) (by omega)
    · cases hw

theorem notMem_elfStores (hle : ∀ ph ∈ segs, ph.filesz ≤ ph.memsz)
    (hend : ∀ ph ∈ segs, dest ph + ph.memsz < 2 ^ 64) {x : ℕ}
    (hx : ∀ ph ∈ segs, x ∉ Finset.Ico (dest ph) (dest ph + ph.memsz)) :
    ∀ w ∈ segs.flatMap fun ph ↦ elfStores bytes (dest ph) ph, x ∉ Finset.Ico w.1 (w.1 + w.2.length) := by
  intro w hw hmem
  obtain ⟨ph, hph, hw⟩ := mem_flatMap.1 hw
  exact hx ph hph (elfStores_window (hle ph hph) (hend ph hph) hw hmem)

theorem writeAll_elfStores (m : Mem) {ph : ElfPhdr} {a : ℕ} (hle : ph.filesz ≤ ph.memsz)
    (hend : a + ph.memsz < 2 ^ 64) (hfile : 0 < ph.filesz → ph.offset + ph.filesz ≤ bytes.length) :
    (∀ j < ph.filesz, bytes[ph.offset + j]? = some (writeAll m (elfStores bytes a ph) (a + j))) ∧
      ∀ j, ph.filesz ≤ j → j < ph.memsz → writeAll m (elfStores bytes a ph) (a + j) = 0 := by
  constructor
  · intro j hj
    have hlen : (slice bytes ph.offset ph.filesz).length = ph.filesz := length_slice (hfile (by omega))
    have hzero : ∀ w ∈ elfZero ph a, a + j ∉ Finset.Ico w.1 (w.1 + w.2.length) := by
      intro w hw hmem
      rw [elfZero] at hw
      split at hw
      · rw [mem_singleton.1 hw, Nat.mod_eq_of_lt (by omega), Finset.mem_Ico] at hmem
        omega
      · cases hw
    rw [elfStores, writeAll_cons, writeAll_of_notMem hzero, write_apply_of_lt _ _ (by rwa [hlen]),
      getD_eq_getElem?_getD, getElem?_slice, if_pos hj,
      getElem?_eq_getElem (by have := hfile (by omega); omega), Option.getD_some]
  · intro j hge hlt
    rw [elfStores, writeAll_cons, elfZero, if_pos (by omega), writeAll_cons, writeAll_nil,
      Nat.mod_eq_of_lt (by omega), show a + j = a + ph.filesz + (j - ph.filesz) by omega,
      write_apply_of_lt _ _ (by rw [length_replicate]; omega), getD_eq_getElem?_getD,
      getElem?_replicate, if_pos (by omega), Option.getD_some]

/-- **Separate segments hold their bytes** after the stores of all of them. -/
theorem writeAll_segments (m : Mem) (hsep : segs.Pairwise fun ph ph' ↦
      dest ph + ph.memsz ≤ dest ph' ∨ dest ph' + ph'.memsz ≤ dest ph)
    (hle : ∀ ph ∈ segs, ph.filesz ≤ ph.memsz) (hend : ∀ ph ∈ segs, dest ph + ph.memsz < 2 ^ 64)
    (hfile : ∀ ph ∈ segs, 0 < ph.filesz → ph.offset + ph.filesz ≤ bytes.length) :
    ∀ ph ∈ segs, (∀ j < ph.filesz, bytes[ph.offset + j]? =
        some (writeAll m (segs.flatMap fun ph ↦ elfStores bytes (dest ph) ph) (dest ph + j))) ∧
      ∀ j, ph.filesz ≤ j → j < ph.memsz →
        writeAll m (segs.flatMap fun ph ↦ elfStores bytes (dest ph) ph) (dest ph + j) = 0 := by
  intro ph hph
  obtain ⟨pre, post, rfl⟩ := append_of_mem hph
  -- the segments behind `ph` do not touch its window
  have hpost : ∀ m' : Mem, ∀ j < ph.memsz,
      writeAll m' (post.flatMap fun ph ↦ elfStores bytes (dest ph) ph) (dest ph + j) = m' (dest ph + j) := by
    intro m' j hj
    refine writeAll_of_notMem (notMem_elfStores (fun x hx ↦ hle x (by simp [hx]))
      (fun x hx ↦ hend x (by simp [hx])) fun x hx hmem ↦ ?_)
    have hdisj := (pairwise_cons.1 (pairwise_append.1 hsep).2.1).1 x hx
    rw [Finset.mem_Ico] at hmem
    omega
  obtain ⟨hcopy, hzero⟩ := writeAll_elfStores
    (writeAll m (pre.flatMap fun ph ↦ elfStores bytes (dest ph) ph)) (hle ph hph) (hend ph hph)
    (hfile ph hph)
  have hphle := hle ph hph
  rw [flatMap_append, flatMap_cons, writeAll_append, writeAll_append]
  exact ⟨fun j hj ↦ by rw [hpost _ j (by omega)]; exact hcopy j hj,
    fun j hge hlt ↦ by rw [hpost _ j hlt]; exact hzero j hge hlt⟩

theorem foldl_hull (hend : ∀ ph ∈ segs, dest ph + ph.memsz < 2 ^ 64) (hull : ElfHull) :
    let hull' := segs.foldl (fun hull ph ↦ hull.add (dest ph) ph.memsz) hull
    (hull'.lo ≤ hull.lo ∧ ∀ ph ∈ segs, hull'.lo ≤ dest ph) ∧ (hull'.lo = hull.lo ∨ ∃ ph ∈ segs, hull'.lo = dest ph) ∧
      (hull.hi ≤ hull'.hi ∧ ∀ ph ∈ segs, dest ph + ph.memsz ≤ hull'.hi) ∧
      (hull'.hi = hull.hi ∨ ∃ ph ∈ segs, hull'.hi = dest ph + ph.memsz) := by
  induction segs generalizing hull with
  | nil => simp
  | cons ph segs ih =>
    obtain ⟨hph, hsegs⟩ := forall_mem_cons.1 hend
    obtain ⟨⟨hlo, hlos⟩, hlo', ⟨hhi, hhis⟩, hhi'⟩ := ih hsegs (hull.add (dest ph) ph.memsz)
    have hadd : (hull.add (dest ph) ph.memsz).lo = min (dest ph) hull.lo ∧
        (hull.add (dest ph) ph.memsz).hi = max hull.hi (dest ph + ph.memsz) := by
      simp only [ElfHull.add, Nat.mod_eq_of_lt hph]
      split_ifs <;> omega
    rw [hadd.1] at hlo hlo'
    rw [hadd.2] at hhi hhi'
    refine ⟨⟨hlo.trans (Nat.min_le_right _ _), forall_mem_cons.2 ⟨hlo.trans (Nat.min_le_left _ _), hlos⟩⟩, ?_,
      ⟨(Nat.le_max_left _ _).trans hhi, forall_mem_cons.2 ⟨(Nat.le_max_right _ _).trans hhi, hhis⟩⟩, ?_⟩
    · rcases hlo' with heq | ⟨x, hx, heq⟩
      · rcases Nat.le_total (dest ph) hull.lo with hmin | hmin
        · exact .inr ⟨ph, mem_cons_self, heq.trans (Nat.min_eq_left hmin)⟩
        · exact .inl (heq.trans (Nat.min_eq_right hmin))
      · exact .inr ⟨x, mem_cons_of_mem _ hx, heq⟩
    · rcases hhi' with heq | ⟨x, hx, heq⟩
      · rcases Nat.le_total hull.hi (dest ph + ph.memsz) with hmax | hmax
        · exact .inr ⟨ph, mem_cons_self, heq.trans (Nat.max_eq_right hmax)⟩
        · exact .inl (heq.trans (Nat.max_eq_left hmax))
      · exact .inr ⟨x, mem_cons_of_mem _ hx, heq⟩

end

/-! ### Faithful loads -/

section

variable {block : BlockDevice 512} {d : Disk 512} {vol : Volume} {read : BootRead}
  {lv : LoaderVolume} {file : LoaderDirent} {bytes : Bytes} {cache : FatCache}

theorem elfEhdr_slice (h : 64 ≤ bytes.length) : elfEhdr (slice bytes 0 64) = elfEhdr bytes := by
  have hfield : ∀ {n off : ℕ}, off + n ≤ 64 → readLE n (slice bytes 0 64) off = readLE n bytes off := by
    intro n off hle
    rw [readLE_slice (by omega) hle, Nat.zero_add]
  have hident : slice (slice bytes 0 64) 0 16 = slice bytes 0 16 := slice_slice (by omega)
  rw [elfEhdr, elfEhdr, hident, hfield (by omega), hfield (by omega), hfield (by omega),
    hfield (by omega), hfield (by omega)]

theorem ReadableFile.loadKernelElf_cases (h : ReadableFile block d vol read lv file bytes)
    (hcache : cache.Coherent block d) (hrange : ElfInRange bytes) {image : KernelImage}
    (himage : (loadKernelElf read lv file cache).image = some image) :
    (∀ ph ∈ elfSegments bytes, 0 < ph.filesz → ph.offset + ph.filesz ≤ bytes.length) ∧
      (loadKernelElf read lv file cache).stores =
        (elfSegments bytes).flatMap (fun ph ↦ elfStores bytes (elfDest bytes ph) ph) ∧
      ∃ hull : ElfHull, hull = (elfSegments bytes).foldl (fun hull ph ↦ hull.add (elfDest bytes ph) ph.memsz) .initial ∧
        hull.lo ≠ 2 ^ 64 - 1 ∧ hull.lo < hull.hi ∧ image.physBase = hull.lo ∧
        image.size = hull.hi - hull.lo := by
  unfold loadKernelElf at himage ⊢
  rcases hok : (fat16ReadFileAt read lv file 0 64 stackBuffer cache).ok with - | -
  · simp only [hok, Bool.not_false, if_true] at himage
    cases himage
  obtain ⟨hle, hdata, hcache₁⟩ := h.read_ok hcache (by omega) hok
  simp only [hok, Bool.not_true, Bool.false_eq_true, if_false, hdata, elfEhdr_slice (hle (by omega))] at himage ⊢
  split at himage
  · cases himage
  next hacc =>
  rw [if_neg hacc]
  split at himage
  · cases himage
  next bases cache₂ hbases =>
  have hheaders : ∀ i ∈ range (elfEhdr bytes).phnum, (elfEhdr bytes).phdrOffset i + 56 < 2 ^ 32 := fun i hi ↦
    hrange.headers i (mem_range.1 hi)
  obtain ⟨rfl, hcache₂⟩ := h.basesLoop hheaders hcache₁ hbases
  split at himage
  · cases himage
  next hvaddr =>
  rw [if_neg hvaddr]
  generalize hload : elfLoadLoop read lv file (elfEhdr bytes) _ _ ElfHull.initial cache₂ = load at himage ⊢
  split at himage
  · cases himage
  next hloadOk =>
  rw [if_neg hloadOk]
  split at himage
  · cases himage
  next hhull =>
  rw [if_neg hhull]
  obtain rfl := Option.some.inj himage
  obtain ⟨hfile, hstores, hhull'⟩ := h.loadLoop hheaders
    (fun ph hph ↦ (hrange.copies ph hph).2) hcache₂ (by rw [hload]; simpa using hloadOk)
  rw [hload] at hstores hhull'
  simp only [not_or, Nat.not_le] at hhull
  exact ⟨hfile, hstores, load.hull, hhull', hhull.1, hhull.2, rfl, rfl⟩

/-- **An image whose numbers are in range is loaded faithfully.** -/
theorem load_kernel_elf_faithful (h : ReadableFile block d vol read lv file bytes)
    (hcache : cache.Coherent block d) (hrange : ElfInRange bytes) {image : KernelImage}
    (himage : (loadKernelElf read lv file cache).image = some image) :
    ElfFaithful bytes (loadKernelElf read lv file cache).stores image := by
  obtain ⟨hfile, hstores, hull, hhull, hlo, hlt, hbase, hsize⟩ := h.loadKernelElf_cases hcache hrange himage
  have hle : ∀ ph ∈ elfSegments bytes, ph.filesz ≤ ph.memsz := fun ph hph ↦ (hrange.copies ph hph).1
  obtain ⟨⟨-, hlos⟩, hlo', ⟨-, hhis⟩, hhi'⟩ := foldl_hull hrange.dests .initial
  rw [← hhull] at hlos hlo' hhis hhi'
  rw [hstores]
  refine ⟨fun hsep m ↦ writeAll_segments m hsep hle hrange.dests hfile, ?_, ?_, ?_⟩
  · intro w hw x hx
    obtain ⟨ph, hph, hw⟩ := mem_flatMap.1 hw
    exact ⟨ph, hph, elfStores_window (hle ph hph) (hrange.dests ph hph) hw hx⟩
  · rw [hbase]
    refine ⟨hlo'.resolve_left hlo, ?_⟩
    rintro _ ⟨ph, hph, rfl⟩
    exact hlos ph hph
  · rw [hbase, hsize, Nat.add_sub_cancel' hlt.le]
    refine ⟨hhi'.resolve_left ?_, ?_⟩
    · show hull.hi ≠ 0
      omega
    · rintro _ ⟨ph, hph, rfl⟩
      exact hhis ph hph

end

/-! ### An image on the small volume -/

/-- The small volume with `image` in the cluster of its file. -/
def elfDisk (image : Bytes) (h : image.length ≤ 512) : Disk 512 :=
  update signed16 88 ⟨padZeros 512 image, length_padZeros h⟩

def elfRead (image : Bytes) (h : image.length ≤ 512) : BootRead := fun lba ↦
  if lba < block16.capacitySectors then some (elfDisk image h lba).1 else none

def elfFile (image : Bytes) : LoaderDirent := ⟨padSpaces 11 [0x41], 0x20, 2, image.length⟩

section

variable (image : Bytes) (h : image.length ≤ 512)

theorem elfDisk_of_ne {lba : ℕ} (hne : lba ≠ 88) : elfDisk image h lba = signed16 lba :=
  update_of_ne hne ..

theorem elfDisk_reads : LoaderReads block16 (elfDisk image h) vol16 (elfRead image h) loader16 where
  sound := vol16_sound
  fat16 := rfl
  reads := fun lba hlba ↦ if_pos hlba
  boot := by exact parse_signedBoot
  parsed := by
    have hboot : elfRead image h vol16.baseLBA = some signedBoot.1 := by
      rw [elfRead, if_pos (by decide), elfDisk_of_ne image h (by decide)]
      exact congrArg some (congrArg Subtype.val (update_self ..))
    have hparse : fat16Parse (fun _ ↦ some signedBoot.1) vol16.baseLBA = some loader16 := by decide +kernel
    rw [← hparse, fat16Parse, fat16Parse, hboot]
  low := by decide

theorem elfDisk_link : (view vol16 (elfDisk image h)).link 2 = 0xFFFF := by
  have htable : table vol16 (elfDisk image h) = table vol16 holed16 := by
    refine diskBytes_congr fun x hlo hhi ↦ ?_
    have hstart : vol16.fatStartLBA = 16 := rfl
    have hsectors : vol16.sectorsPerFAT = 20 := rfl
    rw [elfDisk_of_ne image h (by omega), signed16_of_ne (by omega)]
  rw [view_link, htable, ← view_link, holed16_link]

theorem elfDisk_cluster : (view vol16 (elfDisk image h)).cluster 2 = padZeros 512 image := by
  show (elfDisk image h).bytes 88 1 = _
  rw [diskBytes_one, elfDisk, update_self]

theorem elfDisk_chain : ChainFrom vol16 (view vol16 (elfDisk image h)) 2 [2] ∧
    (elfFile image).size ≤ [2].length * clusterSize vol16 := by
  refine ⟨⟨⟨.last ?_, by decide⟩, by decide⟩, ?_⟩
  · show linkNext .fat16 (view vol16 (elfDisk image h)).link 2 = none
    rw [linkNext, elfDisk_link]
    decide
  · show image.length ≤ 1 * 512
    omega

theorem elfDisk_readable : ReadableFile block16 (elfDisk image h) vol16 (elfRead image h) loader16
    (elfFile image) image := by
  obtain ⟨hchain, hsize⟩ := elfDisk_chain image h
  refine ⟨elfDisk_reads image h, lt_of_le_of_lt h (by decide), [2], .inr hchain, hsize, ?_⟩
  show image = ([2].flatMap (view vol16 (elfDisk image h)).cluster).take image.length
  rw [flatMap_singleton, elfDisk_cluster, padZeros, take_left]

end

/-- An image with one segment: two bytes at offset 120, to be loaded at `0x40280000`. -/
def elfImage (filesz memsz : ℕ) : Bytes :=
  [0x7F, 0x45, 0x4C, 0x46, 2, 1] ++ replicate 10 0 ++ leBytes 2 2 ++ leBytes 2 0xB7 ++
    leBytes 4 1 ++ leBytes 8 0x40280000 ++ leBytes 8 64 ++ replicate 12 0 ++ leBytes 2 64 ++
    leBytes 2 56 ++ leBytes 2 1 ++ replicate 6 0 ++
    (leBytes 4 1 ++ leBytes 4 5 ++ leBytes 8 120 ++ leBytes 8 0x40280000 ++ leBytes 8 0x40280000 ++
      leBytes 8 filesz ++ leBytes 8 memsz ++ leBytes 8 4096) ++ [1, 2]

theorem elfImage_le (filesz memsz : ℕ) : (elfImage filesz memsz).length ≤ 512 := by simp [elfImage]

theorem load_kernel_elf_faithful_small : ∃ image : KernelImage,
    (loadKernelElf (elfRead (elfImage 2 3) (elfImage_le 2 3)) loader16 (elfFile (elfImage 2 3))
      FatCache.initial).image = some image ∧
    ElfFaithful (elfImage 2 3) (loadKernelElf (elfRead (elfImage 2 3) (elfImage_le 2 3)) loader16
      (elfFile (elfImage 2 3)) FatCache.initial).stores image := by
  have himage : (loadKernelElf (elfRead (elfImage 2 3) (elfImage_le 2 3)) loader16
      (elfFile (elfImage 2 3)) FatCache.initial).image = some ⟨0x40280000, 3, 0, 0x40280000⟩ := by
    decide +kernel
  exact ⟨_, himage, load_kernel_elf_faithful (elfDisk_readable _ (elfImage_le 2 3))
    (FatCache.initial_coherent _ _) ⟨by decide +kernel, by decide +kernel, by decide +kernel⟩ himage⟩

/-- Two bytes in a segment of one: the second is stored behind the segment. -/
theorem load_kernel_elf_overruns : ReadableFile block16 (elfDisk (elfImage 2 1) (elfImage_le 2 1)) vol16
      (elfRead (elfImage 2 1) (elfImage_le 2 1)) loader16 (elfFile (elfImage 2 1)) (elfImage 2 1) ∧
    ∃ image : KernelImage, (loadKernelElf (elfRead (elfImage 2 1) (elfImage_le 2 1)) loader16 (elfFile (elfImage 2 1))
        FatCache.initial).image = some image ∧
      ElfSeparate (elfImage 2 1) ∧
      ¬ElfFaithful (elfImage 2 1) (loadKernelElf (elfRead (elfImage 2 1) (elfImage_le 2 1)) loader16
        (elfFile (elfImage 2 1)) FatCache.initial).stores image := by
  have himage : (loadKernelElf (elfRead (elfImage 2 1) (elfImage_le 2 1)) loader16
      (elfFile (elfImage 2 1)) FatCache.initial).image = some ⟨0x40280000, 1, 0, 0x40280000⟩ := by
    decide +kernel
  have hstores : (loadKernelElf (elfRead (elfImage 2 1) (elfImage_le 2 1)) loader16
      (elfFile (elfImage 2 1)) FatCache.initial).stores = [(0x40280000, [1, 2])] := by
    decide +kernel
  have hsegs : elfSegments (elfImage 2 1) = [⟨1, 120, 0x40280000, 0x40280000, 2, 1⟩] := by decide +kernel
  refine ⟨elfDisk_readable _ _, _, himage, ?_, fun hfaithful ↦ ?_⟩
  · rw [ElfSeparate, hsegs]
    exact pairwise_singleton _ _
  · obtain ⟨ph, hph, hmem⟩ := hfaithful.frame (0x40280000, [1, 2]) (by rw [hstores]; simp) 0x40280001 (by decide)
    rw [hsegs] at hph
    obtain rfl := mem_singleton.1 hph
    rw [elfDest, ElfPhdr.dest, if_pos (by decide)] at hmem
    exact absurd hmem (by decide)

end CapazOS
