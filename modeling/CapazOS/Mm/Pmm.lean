import CapazOS.Mm.Bitmap

/-!
# The bitmap physical memory manager

The model of `Kern/Kernel/mm/pmm.c`. A `uint64_t` is a natural number, with `u64` at the additions
that can wrap. What `pmm_init` asks of its surroundings — usable ranges, memory ranges and size of
the device tree, the end of the kernel, the previous content of the metadata region — arrives as
arguments. `g_pmm` is the value `pmm_init` leaves. The printing of `pmm_dump_summary` is left out.
-/

namespace CapazOS

/-! ### Pages and 64-bit addresses -/

def pageSize : ℕ := 0x1000

def u64 (x : ℕ) : ℕ := x % 2 ^ 64

/-- `x & ~(PAGE_SIZE - 1)`. -/
def alignDown4k (x : ℕ) : ℕ := x - x % pageSize

/-- `(x + (PAGE_SIZE - 1)) & ~(PAGE_SIZE - 1)`, where the sum may wrap. -/
def alignUp4k (x : ℕ) : ℕ := alignDown4k (u64 (x + (pageSize - 1)))

theorem u64_lt (x : ℕ) : u64 x < 2 ^ 64 := Nat.mod_lt _ (by norm_num)

theorem alignDown4k_mod (x : ℕ) : alignDown4k x % pageSize = 0 := by
  simp only [alignDown4k, pageSize]
  omega

theorem alignUp4k_mod (x : ℕ) : alignUp4k x % pageSize = 0 := alignDown4k_mod _

theorem alignDown4k_le (x : ℕ) : alignDown4k x ≤ x := Nat.sub_le _ _

theorem alignUp4k_lt (x : ℕ) : alignUp4k x < 2 ^ 64 := lt_of_le_of_lt (alignDown4k_le _) (u64_lt _)

/-! ### The board and the boot hand-off -/

/-- The board constants the allocator uses: `CAPAZ_RAM_BASE`, `CAPAZ_RAM_DIRECTMAP_SIZE` and
`CAPAZ_HH_BASE`. -/
structure Board where
  ramBase : ℕ
  ramDirectmapSize : ℕ
  hhBase : ℕ
  deriving DecidableEq

namespace Board

def virt : Board := { ramBase := 0x40000000, ramDirectmapSize := 0x40000000, hhBase := 0xFFFF800000000000 }

def rpi3 : Board := { ramBase := 0, ramDirectmapSize := 0x40000000, hhBase := 0xFFFF800000000000 }

def hhRamBase (bd : Board) : ℕ := u64 (bd.hhBase + bd.ramBase)

def hhVirtToPhys (bd : Board) (va : ℕ) : ℕ :=
  if bd.hhRamBase ≤ va then u64 (va - bd.hhRamBase + bd.ramBase) else va

/-- `phys_to_hh_virt`; the subtraction may wrap. -/
def physToHhVirt (bd : Board) (pa : ℕ) : ℕ := u64 (bd.hhRamBase + (pa + 2 ^ 64 - bd.ramBase))

/-- `CAPAZ_RAM_BASE + CAPAZ_RAM_DIRECTMAP_SIZE`, the end of the direct-map window. -/
def windowEnd (bd : Board) : ℕ := u64 (bd.ramBase + bd.ramDirectmapSize)

end Board

structure DtbRange where
  base : ℕ
  size : ℕ
  deriving DecidableEq

def DtbRange.stop (r : DtbRange) : ℕ := u64 (r.base + r.size)

/-- The fields of `boot_info_t` that the allocator reads. -/
structure BootInfo where
  kernelPhysBase : ℕ
  dtbPtr : ℕ
  dtbSize : ℕ
  deriving DecidableEq

/-! ### State -/

/-- `pmm_state_t`; the bitmap pointer is the bitmap itself. -/
structure PmmState where
  basePa : ℕ
  limitPa : ℕ
  totalPages : ℕ
  freePages : ℕ
  bitmap : Bitmap
  bitmapBytes : ℕ
  nextHint : ℕ
  metaBasePa : ℕ
  metaPages : ℕ

/-- The file-level counters of `pmm.c`. -/
structure PmmCounters where
  allocCalls : ℕ
  freeCalls : ℕ
  allocPagesCalls : ℕ
  allocContigCalls : ℕ
  peakUsedPages : ℕ
  lowFreePages : ℕ
  deriving DecidableEq

def PmmCounters.initial : PmmCounters :=
  { allocCalls := 0, freeCalls := 0, allocPagesCalls := 0, allocContigCalls := 0,
    peakUsedPages := 0, lowFreePages := 2 ^ 64 - 1 }

/-- The allocator after `pmm_init`: what `g_pmm` points to, and the counters. -/
structure Pmm where
  st : PmmState
  ctr : PmmCounters

def pmmUpdatePressure (st : PmmState) (ctr : PmmCounters) : PmmCounters :=
  let used := st.totalPages - st.freePages
  { ctr with
    peakUsedPages := if ctr.peakUsedPages < used then used else ctr.peakUsedPages
    lowFreePages := if st.freePages < ctr.lowFreePages then st.freePages else ctr.lowFreePages }

/-! ### Marking ranges -/

/-- One iteration of the loop of `bitmap_mark_range_free`. -/
def PmmState.markFree (st : PmmState) (i : ℕ) : PmmState :=
  if bitTest st.bitmap i then
    { st with bitmap := bitClear st.bitmap i, freePages := st.freePages + 1 }
  else st

/-- One iteration of the loop of `bitmap_mark_range_reserved`; the counter is not taken below
zero. -/
def PmmState.markReserved (st : PmmState) (i : ℕ) : PmmState :=
  if bitTest st.bitmap i then st
  else { st with bitmap := bitSet st.bitmap i, freePages := st.freePages - 1 }

/-- The page indices `[first, last)` of `[s, e)` clamped to the managed window; both marking loops
compute them this way once `s` and `e` are rounded. -/
def PmmState.clampIndices (st : PmmState) (s e : ℕ) : List ℕ :=
  if e ≤ s then []
  else
    let s := max s st.basePa
    let e := min e st.limitPa
    if e ≤ s then []
    else
      let first := (s - st.basePa) / pageSize
      let last := (e - st.basePa) / pageSize
      List.range' first (last - first)

/-- `bitmap_mark_range_free`: the range is rounded inwards. -/
def bitmapMarkRangeFree (st : PmmState) (startPa endPa : ℕ) : PmmState :=
  (st.clampIndices (alignUp4k startPa) (alignDown4k endPa)).foldl PmmState.markFree st

/-- `bitmap_mark_range_reserved`: the range is rounded outwards. -/
def bitmapMarkRangeReserved (st : PmmState) (startPa endPa : ℕ) : PmmState :=
  (st.clampIndices (alignDown4k startPa) (alignUp4k endPa)).foldl PmmState.markReserved st

/-- `bitmap_mark_all_reserved`: a `memset` of the bitmap's bytes. -/
def bitmapMarkAllReserved (st : PmmState) : PmmState := { st with
    bitmap := fun i ↦ if i < st.bitmapBytes then 0xFF#8 else st.bitmap i
    freePages := 0 }

/-! ### `pmm_init` -/

/-- What `pmm_init` reads besides `boot_info`: the answer of `platform_get_usable_ranges`, that of
`dtb_get_memory_ranges`, `dtb_get_totalsize`, the address of `__kernel_runtime_end`, and the bytes
already in the metadata region. -/
structure PmmInitEnv where
  board : Board
  bootInfo : BootInfo
  usable : Option (List DtbRange)
  memory : Option (List DtbRange)
  dtbTotalsize : ℕ
  runtimeEnd : ℕ
  metaBytes : Bitmap

/-- The scan for the managed window, `(base_pa, limit_pa)`: ranges that are empty after rounding
are skipped, and a `base_pa` of zero counts as unset. -/
def pmmWindow (usable : List DtbRange) : ℕ × ℕ :=
  usable.foldl (fun w r ↦
    let start := alignUp4k r.base
    let stop := alignDown4k r.stop
    if stop ≤ start then w
    else
      (if w.1 = 0 ∨ start < w.1 then start else w.1, if w.2 < stop then stop else w.2)) (0, 0)

/-- The lowest start of a device-tree memory range inside the direct-map window, or the window's
start when there is none. -/
def lowestRamBase (bd : Board) (memory : Option (List DtbRange)) : ℕ :=
  let lowest := (memory.getD []).foldl (fun low r ↦
    if r.stop ≤ bd.ramBase then low
    else
      let start := max r.base bd.ramBase
      if bd.windowEnd ≤ start then low
      else
        let stop := alignDown4k (min r.stop bd.windowEnd)
        let start := alignUp4k start
        if stop ≤ start then low else min low start) bd.windowEnd
  if lowest = bd.windowEnd then bd.ramBase else lowest

def pmmMetadataPages : ℕ := 16

/-- `sizeof(pmm_state_t)`, nine 64-bit fields. -/
def pmmStateBytes : ℕ := 72

/-- The size `pmm_init` reserves for the device-tree blob: the tree's own total size, bounded by
what the loader reported. -/
def dtbReservedSize (env : PmmInitEnv) : ℕ :=
  let sz := if env.dtbTotalsize = 0 then env.bootInfo.dtbSize else env.dtbTotalsize
  if env.bootInfo.dtbSize ≠ 0 ∧ env.bootInfo.dtbSize < sz then env.bootInfo.dtbSize else sz

/-- The reservation of the device-tree blob, skipped without a blob or a size. -/
def pmmReserveDtb (env : PmmInitEnv) (st : PmmState) : PmmState :=
  if env.bootInfo.dtbPtr = 0 ∨ dtbReservedSize env = 0 then st
  else
    let dtbPhys := env.board.hhVirtToPhys env.bootInfo.dtbPtr
    bitmapMarkRangeReserved st (alignDown4k dtbPhys) (alignUp4k (u64 (dtbPhys + dtbReservedSize env)))

/-- The four defensive reservations at the end of `pmm_init`: the boot region, the kernel's runtime
footprint, the device-tree blob and the metadata pages. -/
def pmmReserveImplicit (env : PmmInitEnv) (runtimeEndPa metaBasePa metaEndPa : ℕ) (st : PmmState) : PmmState :=
  let kernelBase := env.bootInfo.kernelPhysBase
  let st := bitmapMarkRangeReserved st (lowestRamBase env.board env.memory) kernelBase
  let st := bitmapMarkRangeReserved st kernelBase (alignUp4k runtimeEndPa)
  let st := pmmReserveDtb env st
  bitmapMarkRangeReserved st metaBasePa metaEndPa

/-- The state record that `pmm_init` places in the metadata region, before any bit is marked. -/
def pmmRawState (env : PmmInitEnv) (basePa limitPa metaBasePa : ℕ) : PmmState :=
  let totalPages := (limitPa - basePa) / pageSize
  { basePa, limitPa, totalPages, freePages := 0, bitmap := env.metaBytes,
    bitmapBytes := (totalPages + 7) / 8, nextHint := 0, metaBasePa,
    metaPages := pmmMetadataPages }

/-- `pmm_init`. The result is `none` where the source panics: no usable range, an empty window
before or after clamping, metadata outside the mapped window, a bitmap that does not fit. -/
def pmmInit (env : PmmInitEnv) (ctr : PmmCounters) : Option Pmm :=
  match env.usable with
  | none => none
  | some usable =>
    let w := pmmWindow usable
    if usable = [] ∨ w.1 = 0 ∨ w.2 ≤ w.1 then none
    else
      let winStart := env.board.ramBase
      let winEnd := env.board.windowEnd
      let basePa := alignUp4k (max w.1 winStart)
      let limitPa := alignDown4k (min w.2 winEnd)
      if limitPa ≤ basePa then none
      else
        let runtimeEndPa := env.board.hhVirtToPhys env.runtimeEnd
        let metaBasePa := alignUp4k runtimeEndPa
        let metaBytes := pmmMetadataPages * pageSize
        let metaEndPa := u64 (metaBasePa + metaBytes)
        if metaBasePa < winStart ∨ winEnd < metaEndPa then none
        else
          let st := pmmRawState env basePa limitPa metaBasePa
          let bitmapOff := (pmmStateBytes + 7) / 8 * 8
          if metaBytes < bitmapOff + st.bitmapBytes then none
          else
            let st := bitmapMarkAllReserved st
            let st := usable.foldl (fun st r ↦ bitmapMarkRangeFree st r.base r.stop) st
            let st := pmmReserveImplicit env runtimeEndPa metaBasePa metaEndPa st
            some { st, ctr := pmmUpdatePressure st ctr }

/-! ### Allocation and release -/

/-- One pass of the search: the first `i` from `i0` on with `i + count ≤ i1` whose `count` bits
are clear. -/
def pmmScanPass (bm : Bitmap) (count i0 i1 : ℕ) : Option ℕ :=
  if i1 < count then none
  else (List.range' i0 (i1 + 1 - count - i0)).find? (runClear bm count)

/-- The two passes: from the hint to the end, then from the start up to the hint. -/
def pmmFindRun (st : PmmState) (count : ℕ) : Option ℕ :=
  let n := st.totalPages
  let start := if n ≤ st.nextHint then 0 else st.nextHint
  (pmmScanPass st.bitmap count start n).or (pmmScanPass st.bitmap count 0 start)

def PmmState.commitRun (st : PmmState) (count i : ℕ) : PmmState := { st with
    bitmap := setRun st.bitmap i count
    freePages := st.freePages - count
    nextHint := i + count }

/-- The call counters at the head of `pmm_alloc_pages`. -/
def PmmCounters.countAllocPages (ctr : PmmCounters) (count : ℕ) : PmmCounters := { ctr with
    allocPagesCalls := u64 (ctr.allocPagesCalls + 1)
    allocContigCalls := if 1 < count then u64 (ctr.allocContigCalls + 1)
      else ctr.allocContigCalls }

/-- `pmm_alloc_pages`: the physical address of the first page, or `none` for `false`. -/
def pmmAllocPages (g : Pmm) (count : ℕ) : Option ℕ × Pmm :=
  let ctr := g.ctr.countAllocPages count
  if count = 0 then (none, { g with ctr })
  else if g.st.freePages < count then (none, { g with ctr })
  else if g.st.totalPages < count then (none, { g with ctr })
  else
    match pmmFindRun g.st count with
    | none => (none, { g with ctr })
    | some i =>
      let st := g.st.commitRun count i
      (some (st.basePa + i * pageSize), { st, ctr := pmmUpdatePressure st ctr })

/-- The release of page index `idx`: the hint is pulled back to it. -/
def PmmState.releasePage (st : PmmState) (idx : ℕ) : PmmState := { st with
    bitmap := bitClear st.bitmap idx
    freePages := st.freePages + 1
    nextHint := if idx < st.nextHint then idx else st.nextHint }

/-- `pmm_free_page`. Addresses outside the window, unaligned, or of metadata pages are ignored, and
so is a page whose bit is already clear. -/
def pmmFreePage (g : Pmm) (pa : ℕ) : Pmm :=
  let ctr := { g.ctr with freeCalls := u64 (g.ctr.freeCalls + 1) }
  let g := { g with ctr }
  if pa < g.st.basePa ∨ g.st.limitPa ≤ pa then g
  else if pa % pageSize ≠ 0 then g
  else
    let idx := (pa - g.st.basePa) / pageSize
    if g.st.totalPages ≤ idx then g
    else if g.st.metaBasePa ≤ pa ∧ pa < u64 (g.st.metaBasePa + g.st.metaPages * pageSize) then g
    else if bitTest g.st.bitmap idx then
      let st := g.st.releasePage idx
      { st, ctr := pmmUpdatePressure st ctr }
    else g

end CapazOS
