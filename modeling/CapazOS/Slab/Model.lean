import CapazOS.Kheap.Model

/-!
# Slab caches

The model of `Kern/Kernel/alloc/slab_cache.c`. **Everything is kept in the pages themselves**: a
page starts with a header of 24 bytes, and a free object holds the link to the next one in its first
word. Memory and pointers are as in `Kheap/Model.lean`; `none` stands for a panic and for a walk
along the pages that never ends. The name of a cache and the thread-context assertions are left out.
-/

namespace CapazOS

open ByteMem

/-! ### The cache -/

structure SlabCache where
  objSize : ℕ
  objAlign : ℕ
  pages : ℕ
  allocCalls : ℕ
  freeCalls : ℕ
  inuseObjects : ℕ
  peakInuseObjects : ℕ
  slabPagesAllocated : ℕ
  allocFailures : ℕ

def slabHdrBytes : ℕ := 24

def slabPoisonByte : UInt8 := 0xA5

/-- `align_up`: `(v + (a - 1)) & ~(a - 1)`. -/
def slabAlignUp (v a : ℕ) : ℕ := if a = 0 then v else u64 (v + (a - 1)) &&& (2 ^ 64 - 1 - (a - 1))

def slabCacheInit (objSize align : ℕ) : Option SlabCache :=
  if objSize = 0 then none
  else
    let wantAlign := max (align % 2 ^ 32) 8
    if wantAlign &&& (wantAlign - 1) ≠ 0 then none
    else
      let sz := slabAlignUp (objSize % 2 ^ 32) wantAlign % 2 ^ 32
      let sz := if sz < 8 then 8 else sz
      let first := slabAlignUp slabHdrBytes wantAlign
      if pageSize < u64 (first + sz) then none
      else
        some { objSize := sz, objAlign := wantAlign, pages := 0, allocCalls := 0, freeCalls := 0,
               inuseObjects := 0, peakInuseObjects := 0, slabPagesAllocated := 0, allocFailures := 0 }

namespace SlabCache

def countAlloc (c : SlabCache) : SlabCache := { c with allocCalls := countUp c.allocCalls }

def countFree (c : SlabCache) : SlabCache := { c with freeCalls := countUp c.freeCalls }

def countFailure (c : SlabCache) : SlabCache := { c with allocFailures := countUp c.allocFailures }

def countUse (c : SlabCache) : SlabCache :=
  let inuse := countUp c.inuseObjects
  { c with
    inuseObjects := inuse
    peakInuseObjects := if c.peakInuseObjects < inuse then inuse else c.peakInuseObjects }

def addPage (c : SlabCache) (sp : ℕ) : SlabCache :=
  { c with slabPagesAllocated := countUp c.slabPagesAllocated, pages := sp }

end SlabCache

/-- A cache, the page allocator under it, and memory. -/
structure Slab where
  pmm : Pmm
  mem : Mem
  cache : SlabCache

namespace Slab

def setPmm (s : Slab) (g : Pmm) : Slab := { s with pmm := g }

def setMem (s : Slab) (m : Mem) : Slab := { s with mem := m }

def setCache (s : Slab) (c : SlabCache) : Slab := { s with cache := c }

end Slab

/-! ### Pages -/

def slabFreelist (m : Mem) (sp : ℕ) : ℕ := load m (sp + 8) 8

def slabObjCount (m : Mem) (sp : ℕ) : ℕ := load m (sp + 16) 2

def slabInuse (m : Mem) (sp : ℕ) : ℕ := load m (sp + 18) 2

/-- The addresses at which the loop of `slab_page_build_freelist` puts an object: from the first
aligned address behind the header, as long as an object fits into the page. -/
def slabObjects (sp objSize objAlign : ℕ) : List ℕ :=
  let cursor := slabAlignUp (sp + slabHdrBytes) objAlign
  let stop := sp + pageSize
  List.range' cursor ((stop - cursor) / objSize) objSize

def slabPageBuildFreelist (m : Mem) (sp objSize objAlign : ℕ) : Option Mem :=
  let objs := slabObjects sp objSize objAlign
  let (m, head) := thread m 0 objs
  let count := objs.length % 2 ^ 16
  let m := store (store (store m (sp + 8) 8 head) (sp + 16) 2 count) (sp + 18) 2 0
  if count = 0 then none else some m

/-- The empty header that `slab_page_alloc` starts with. -/
def clearSlabHdr (m : Mem) (sp : ℕ) : Mem :=
  store (store (store (store m sp 8 0) (sp + 8) 8 0) (sp + 16) 2 0) (sp + 18) 2 0

/-- `slab_page_alloc`; the page is 0 when there is none. -/
def slabPageAlloc (bd : Board) (s : Slab) : Option (ℕ × Slab) :=
  match pmmAllocPages s.pmm 1 with
  | (none, g) => some (0, s.setPmm g)
  | (some pa, g) =>
    let sp := bd.physToHhVirt pa
    (slabPageBuildFreelist (clearSlabHdr s.mem sp) sp s.cache.objSize s.cache.objAlign).map
      fun m ↦ (sp, (s.setPmm g).setMem m)

/-! ### Objects -/

/-- More steps than there are addresses: a longer walk meets a page twice and never ends. -/
@[irreducible] def walkSteps : ℕ := 2 ^ 64

/-- The first object of the page's free list is taken off it. -/
def slabTake (s : Slab) (sp : ℕ) : ℕ × Slab :=
  let obj := slabFreelist s.mem sp
  let m := store s.mem (sp + 8) 8 (load s.mem obj 8)
  let m := store m (sp + 18) 2 ((slabInuse m sp + 1) % 2 ^ 16)
  (obj, (s.setMem m).setCache s.cache.countUse)

/-- `slab_alloc`; the pointer is 0 when there is no memory. -/
def slabAlloc (bd : Board) (s : Slab) : Option (ℕ × Slab) :=
  let s := s.setCache s.cache.countAlloc
  match findNode s.mem (fun sp ↦ slabFreelist s.mem sp ≠ 0) walkSteps s.cache.pages with
  | none => none
  | some (some sp) => some (slabTake s sp)
  | some none =>
    match slabPageAlloc bd s with
    | none => none
    | some (sp, s) =>
      if sp = 0 then some (0, s.setCache s.cache.countFailure)
      else
        let s := (s.setMem (store s.mem sp 8 s.cache.pages)).setCache (s.cache.addPage sp)
        some (slabTake s sp)

def slabFree (s : Slab) (p : ℕ) : Option Slab :=
  if p = 0 then some s
  else
    let s := s.setCache s.cache.countFree
    let sp := alignDown4k p
    match findNode s.mem (fun it ↦ it = sp) walkSteps s.cache.pages with
    | none => none
    | some none => none
    | some (some _) =>
      if slabInuse s.mem sp = 0 then none
      else
        let m := fill s.mem p s.cache.objSize slabPoisonByte
        let m := store m p 8 (slabFreelist m sp)
        let m := store m (sp + 8) 8 p
        let m := store m (sp + 18) 2 (slabInuse m sp - 1)
        if s.cache.inuseObjects = 0 then none
        else
          some ((s.setMem m).setCache { s.cache with inuseObjects := s.cache.inuseObjects - 1 })

end CapazOS
