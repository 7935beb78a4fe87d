import CapazOS.Mm.Pmm
import CapazOS.Lib.Memory

/-!
# The kernel heap

The model of `Kern/Kernel/kheap.c`. Small requests are served from eight buckets of fixed-size
blocks cut out of single pages, threaded through the blocks themselves; larger requests get whole
pages. **What a pointer points to is written only at the start of its page.** Memory is a byte at
every virtual address, and a pointer is its address, with zero for `NULL`. Sums of addresses do not
wrap on a board whose direct map ends at least one page below `2 ^ 64` (`Board.Placed`).
Thread-context assertions and debug printing are left out.
-/

namespace CapazOS

open ByteMem

variable (bd : Board)

/-! ### The direct map -/

namespace Board

/-- **What the heap needs of a board**: the direct map starts on a page boundary other than zero and
ends at least one page below the end of the address space. -/
structure Placed : Prop where
  hh_mod : bd.hhBase % pageSize = 0
  hh_pos : 0 < bd.hhBase
  fits : bd.hhBase + bd.ramBase + bd.ramDirectmapSize + pageSize ≤ 2 ^ 64

theorem placed_virt : virt.Placed := ⟨rfl, by decide, by decide⟩

theorem placed_rpi3 : rpi3.Placed := ⟨rfl, by decide, by decide⟩

end Board

def PmmCounters.countAlloc (ctr : PmmCounters) : PmmCounters := { ctr with allocCalls := u64 (ctr.allocCalls + 1) }

def pmmAllocPageVa (g : Pmm) : ℕ × Pmm :=
  match pmmAllocPages { g with ctr := g.ctr.countAlloc } 1 with
  | (none, g) => (0, g)
  | (some pa, g) => (bd.physToHhVirt pa, g)

/-! ### State -/

def numBuckets : ℕ := 8

def bucketSizes : List ℕ := [16, 32, 64, 128, 256, 512, 1024, 2048]

def bucketSize (b : ℕ) : ℕ := bucketSizes.getD b 0

def slabMagic : ℕ := 0x534C4142

def bigMagic : ℕ := 0x42494721

/-- `sizeof(slab_page_hdr_t)` and `sizeof(big_alloc_hdr_t)`. -/
def heapHdrBytes : ℕ := 8

def kheapPoisonByte : UInt8 := 0xA5

/-- The counters of `kheap.c`. -/
structure KheapCounters where
  curBytes : ℕ
  peakBytes : ℕ
  smallAllocs : ℕ → ℕ
  smallFrees : ℕ → ℕ
  bigAllocCalls : ℕ
  bigFreeCalls : ℕ
  failCalls : ℕ
  kmallocCalls : ℕ
  kfreeCalls : ℕ
  bucketRefills : ℕ → ℕ

def countUp (n : ℕ) : ℕ := u64 (n + 1)

def countUpAt (f : ℕ → ℕ) (b : ℕ) : ℕ → ℕ := Function.update f b (countUp (f b))

def KheapCounters.initial : KheapCounters :=
  { curBytes := 0, peakBytes := 0, smallAllocs := fun _ ↦ 0, smallFrees := fun _ ↦ 0,
    bigAllocCalls := 0, bigFreeCalls := 0, failCalls := 0, kmallocCalls := 0, kfreeCalls := 0,
    bucketRefills := fun _ ↦ 0 }

namespace KheapCounters

def countRefill (c : KheapCounters) (b : ℕ) : KheapCounters := { c with bucketRefills := countUpAt c.bucketRefills b }

def countFail (c : KheapCounters) : KheapCounters := { c with failCalls := countUp c.failCalls }

def countKmalloc (c : KheapCounters) : KheapCounters := { c with kmallocCalls := countUp c.kmallocCalls }

def countKfree (c : KheapCounters) : KheapCounters := { c with kfreeCalls := countUp c.kfreeCalls }

def countSmallAlloc (c : KheapCounters) (b : ℕ) : KheapCounters := { c with smallAllocs := countUpAt c.smallAllocs b }

def countSmallFree (c : KheapCounters) (b : ℕ) : KheapCounters := { c with smallFrees := countUpAt c.smallFrees b }

def countBigAlloc (c : KheapCounters) : KheapCounters := { c with bigAllocCalls := countUp c.bigAllocCalls }

def countBigFree (c : KheapCounters) : KheapCounters := { c with bigFreeCalls := countUp c.bigFreeCalls }

def accountAlloc (c : KheapCounters) (bytes : ℕ) : KheapCounters :=
  let cur := u64 (c.curBytes + bytes)
  { c with curBytes := cur, peakBytes := if c.peakBytes < cur then cur else c.peakBytes }

def accountFree (c : KheapCounters) (bytes : ℕ) : KheapCounters :=
  { c with curBytes := if bytes ≤ c.curBytes then c.curBytes - bytes else 0 }

end KheapCounters

/-- The heap: the page allocator under it, the heads of the free lists, memory, and the counters. -/
structure Kheap where
  pmm : Pmm
  freelist : ℕ → ℕ
  mem : Mem
  ctr : KheapCounters

/-- `kheap_init`, over whatever memory holds. -/
def kheapInit (g : Pmm) (mem : Mem) (ctr : KheapCounters) : Kheap := { pmm := g, freelist := fun _ ↦ 0, mem, ctr }

namespace Kheap

def setPmm (h : Kheap) (g : Pmm) : Kheap := { h with pmm := g }

def setMem (h : Kheap) (m : Mem) : Kheap := { h with mem := m }

def setCtr (h : Kheap) (c : KheapCounters) : Kheap := { h with ctr := c }

/-- `n->next = g_freelist[b]; g_freelist[b] = n`. -/
def pushFree (h : Kheap) (b p : ℕ) : Kheap :=
  { h with mem := store h.mem p 8 (h.freelist b), freelist := Function.update h.freelist b p }

/-- `g_freelist[b] = n->next`, for the head `n` of the list. -/
def popFree (h : Kheap) (b : ℕ) : Kheap :=
  { h with freelist := Function.update h.freelist b (load h.mem (h.freelist b) 8) }

end Kheap

/-! ### Requests and headers -/

/-- `bucket_for_size`, with `none` for `-1`. -/
def bucketForSize (size : ℕ) : Option ℕ := bucketSizes.findIdx? fun bs ↦ decide (size ≤ bs)

/-- The number of pages of a large request: rounded up with its header, and cut to 32 bits. -/
def bigPages (size : ℕ) : ℕ := alignUp4k (u64 (size + heapHdrBytes)) / pageSize % 2 ^ 32

/-- How an allocation is laid out: as a block of a bucket, or as a number of pages. -/
inductive HeapKind where
  | small (bucket blockSize : ℕ)
  | big (pages : ℕ)
  deriving DecidableEq

/-- The layout `kmalloc` gives to a request. -/
def heapKind (size : ℕ) : HeapKind :=
  match bucketForSize size with
  | some b => .small b (bucketSize b)
  | none => .big (bigPages size)

def writeSlabHdr (m : Mem) (base b : ℕ) : Mem :=
  store (store (store m base 4 slabMagic) (base + 4) 2 b) (base + 6) 2 (bucketSize b)

def writeBigHdr (m : Mem) (base pages : ℕ) : Mem :=
  store (store m base 4 bigMagic) (base + 4) 4 pages

/-- What `kfree` reads at the start of a page; with `none` it ignores the pointer. -/
def readHdr (m : Mem) (page : ℕ) : Option HeapKind :=
  let magic := load m page 4
  if magic = slabMagic then
    let b := load m (page + 4) 2
    if numBuckets ≤ b then none else some (.small b (load m (page + 6) 2))
  else if magic = bigMagic then
    let pages := load m (page + 4) 4
    if pages = 0 then none else some (.big pages)
  else none

/-! ### Allocation -/

/-- The addresses at which the loop of `refill_bucket` puts a block: from the first multiple of the
block size behind the header, as long as a block fits into the page. -/
def slabBlocks (base bs : ℕ) : List ℕ :=
  let start := base + heapHdrBytes + (bs - 1) - (base + heapHdrBytes + (bs - 1)) % bs
  let stop := base + pageSize
  List.range' start ((stop - start) / bs) bs

def refillBucket (h : Kheap) (b : ℕ) : Kheap :=
  let h := h.setCtr (h.ctr.countRefill b)
  let (base, g) := pmmAllocPageVa bd h.pmm
  let h := h.setPmm g
  if base = 0 then h
  else
    (slabBlocks base (bucketSize b)).foldl (fun h p ↦ h.pushFree b p) (h.setMem (writeSlabHdr h.mem base b))

/-- `kheap_alloc_pages`; the physical address goes unused. -/
def kheapAllocPages (h : Kheap) (pages : ℕ) : ℕ × Kheap :=
  if pages = 0 then (0, h)
  else
    match pmmAllocPages h.pmm pages with
    | (none, g) => (0, (h.setPmm g).setCtr h.ctr.countFail)
    | (some pa, g) => (bd.physToHhVirt pa, h.setPmm g)

/-- The bucket path of `kmalloc`. -/
def kmallocSmall (h : Kheap) (b : ℕ) : ℕ × Kheap :=
  let h := if h.freelist b = 0 then refillBucket bd h b else h
  let n := h.freelist b
  if n = 0 then (0, h)
  else
    (n, (h.popFree b).setCtr ((h.ctr.countSmallAlloc b).accountAlloc (bucketSize b)))

/-- The page path of `kmalloc`. -/
def kmallocBig (h : Kheap) (size : ℕ) : ℕ × Kheap :=
  let pages := bigPages size
  let (base, h) := kheapAllocPages bd h pages
  if base = 0 then (0, h)
  else
    (base + heapHdrBytes, (h.setMem (writeBigHdr h.mem base pages)).setCtr
      (h.ctr.countBigAlloc.accountAlloc (pages * pageSize)))

def kmalloc (h : Kheap) (size : ℕ) : ℕ × Kheap :=
  let h := h.setCtr h.ctr.countKmalloc
  if size = 0 then (0, h)
  else
    match bucketForSize size with
    | some b => kmallocSmall bd h b
    | none => kmallocBig bd h size

/-! ### Release -/

def kheapFreePages (h : Kheap) (va pages : ℕ) : Kheap :=
  if va = 0 ∨ pages = 0 then h
  else
    let pa0 := alignDown4k (bd.hhVirtToPhys va)
    h.setPmm ((List.range pages).foldl (fun g i ↦ pmmFreePage g (pa0 + i * pageSize)) h.pmm)

/-- The slab path of `kfree`: the block is poisoned and put in front of its bucket's list. The block
size that is accounted for is read from the header again. -/
def kfreeSmall (h : Kheap) (page ptr b blockSize : ℕ) : Kheap :=
  let h := (h.setMem (fill h.mem ptr blockSize kheapPoisonByte)).pushFree b ptr
  h.setCtr ((h.ctr.countSmallFree b).accountFree (load h.mem (page + 6) 2))

/-- The page path of `kfree`: the pages are poisoned and returned. -/
def kfreeBig (h : Kheap) (page pages : ℕ) : Kheap :=
  let h := h.setMem (fill h.mem page (pages * pageSize) kheapPoisonByte)
  kheapFreePages bd (h.setCtr (h.ctr.countBigFree.accountFree (pages * pageSize))) page pages

def kfree (h : Kheap) (ptr : ℕ) : Kheap :=
  let h := h.setCtr h.ctr.countKfree
  if ptr = 0 then h
  else
    let page := alignDown4k ptr
    match readHdr h.mem page with
    | none => h
    | some (.small b blockSize) => kfreeSmall h page ptr b blockSize
    | some (.big pages) => kfreeBig bd h page pages

end CapazOS
