import CapazOS.Kheap.Invariant
import CapazOS.Lib.Interleave

/-!
# The allocators, access by access

The allocators as programs of memory accesses: every read and every write of a shared variable, of a
bitmap byte, of a header field or of a list link is one access, in the order of the source; `x++` is
a read and a write, `memset` writes byte by byte. Reads of constants and of `g_pmm` are not
accesses. **Run without interruption, each program computes the function** that models it
(`run_pmmAllocPagesProg`, `run_kmallocProg`, …).
-/

namespace CapazOS

open List ByteMem Interleave Function

variable {b : ℕ} {h : Kheap}

/-- Code that accesses the allocators' state. -/
abbrev Acc (α : Type) := Prog Kheap α

def sub64 (a b : ℕ) : ℕ := if b ≤ a then a - b else a + 2 ^ 64 - b

theorem sub64_of_le {a : ℕ} (h : b ≤ a) : sub64 a b = a - b := if_pos h

/-! ### A setter for each variable that an access writes -/

namespace PmmState

def setByte (st : PmmState) (i : ℕ) (v : BitVec 8) : PmmState := { st with bitmap := update st.bitmap i v }

/-- The bitmap after some of its bytes were written. -/
def setBits (st : PmmState) (bm : Bitmap) : PmmState := { st with bitmap := bm }

def setFree (st : PmmState) (n : ℕ) : PmmState := { st with freePages := n }

def setHint (st : PmmState) (n : ℕ) : PmmState := { st with nextHint := n }

section

variable (st : PmmState) (bm : Bitmap) (n : ℕ)

@[simp] theorem setBits_freePages : (st.setBits bm).freePages = st.freePages := rfl

@[simp] theorem setBits_totalPages : (st.setBits bm).totalPages = st.totalPages := rfl

@[simp] theorem setBits_nextHint : (st.setBits bm).nextHint = st.nextHint := rfl

@[simp] theorem setFree_nextHint : (st.setFree n).nextHint = st.nextHint := rfl

end

end PmmState

namespace PmmCounters

def setAlloc (c : PmmCounters) (n : ℕ) : PmmCounters := { c with allocCalls := n }

def setFree (c : PmmCounters) (n : ℕ) : PmmCounters := { c with freeCalls := n }

def setAllocPages (c : PmmCounters) (n : ℕ) : PmmCounters := { c with allocPagesCalls := n }

def setAllocContig (c : PmmCounters) (n : ℕ) : PmmCounters := { c with allocContigCalls := n }

def setPeakUsed (c : PmmCounters) (n : ℕ) : PmmCounters := { c with peakUsedPages := n }

def setLowFree (c : PmmCounters) (n : ℕ) : PmmCounters := { c with lowFreePages := n }

end PmmCounters

namespace KheapCounters

def setCur (c : KheapCounters) (n : ℕ) : KheapCounters := { c with curBytes := n }

def setPeak (c : KheapCounters) (n : ℕ) : KheapCounters := { c with peakBytes := n }

def setSmallAllocs (b : ℕ) (c : KheapCounters) (n : ℕ) : KheapCounters :=
  { c with smallAllocs := update c.smallAllocs b n }

def setSmallFrees (b : ℕ) (c : KheapCounters) (n : ℕ) : KheapCounters :=
  { c with smallFrees := update c.smallFrees b n }

def setBigAlloc (c : KheapCounters) (n : ℕ) : KheapCounters := { c with bigAllocCalls := n }

def setBigFree (c : KheapCounters) (n : ℕ) : KheapCounters := { c with bigFreeCalls := n }

def setFail (c : KheapCounters) (n : ℕ) : KheapCounters := { c with failCalls := n }

def setKmalloc (c : KheapCounters) (n : ℕ) : KheapCounters := { c with kmallocCalls := n }

def setKfree (c : KheapCounters) (n : ℕ) : KheapCounters := { c with kfreeCalls := n }

def setRefills (b : ℕ) (c : KheapCounters) (n : ℕ) : KheapCounters :=
  { c with bucketRefills := update c.bucketRefills b n }

end KheapCounters

namespace Kheap

def setSt (h : Kheap) (st : PmmState) : Kheap := h.setPmm ⟨st, h.pmm.ctr⟩

def setPmmCtr (h : Kheap) (c : PmmCounters) : Kheap := h.setPmm ⟨h.pmm.st, c⟩

def setHead (h : Kheap) (b p : ℕ) : Kheap := { h with freelist := update h.freelist b p }

section

variable (h : Kheap) (st : PmmState) (pc : PmmCounters)

@[simp] theorem setCtr_ctr (c : KheapCounters) : (h.setCtr c).ctr = c := (rfl)

@[simp] theorem setCtr_pmm (c : KheapCounters) : (h.setCtr c).pmm = h.pmm := (rfl)

@[simp] theorem setSt_pmm : (h.setSt st).pmm = ⟨st, h.pmm.ctr⟩ := (rfl)

@[simp] theorem setPmmCtr_pmm : (h.setPmmCtr pc).pmm = ⟨h.pmm.st, pc⟩ := (rfl)

@[simp] theorem setPmmCtr_setPmm (g : Pmm) : (h.setPmmCtr pc).setPmm g = h.setPmm g := rfl

@[simp] theorem setSt_setPmm (g : Pmm) : (h.setSt st).setPmm g = h.setPmm g := rfl

@[simp] theorem setSt_setSt (st' : PmmState) : (h.setSt st).setSt st' = h.setSt st' := rfl

end

end Kheap

def bumpPmm (get : PmmCounters → ℕ) (set : PmmCounters → ℕ → PmmCounters) : Acc Unit := do
  let n ← Prog.read fun h ↦ get h.pmm.ctr
  Prog.write fun h ↦ h.setPmmCtr (set h.pmm.ctr (u64 (n + 1)))

def bumpHeap (get : KheapCounters → ℕ) (set : KheapCounters → ℕ → KheapCounters) : Acc Unit := do
  let n ← Prog.read fun h ↦ get h.ctr
  Prog.write fun h ↦ h.setCtr (set h.ctr (u64 (n + 1)))

def storeWord (a n v : ℕ) : Acc Unit := Prog.write fun h ↦ h.setMem (store h.mem a n v)

def memset (a : ℕ) (v : UInt8) (n : ℕ) : Acc Unit :=
  Prog.forEach (fun i ↦ Prog.write fun h ↦ h.setMem (update h.mem (a + i) v)) (range n)

/-! ### `pmm.c` -/

def bitTestProg (idx : ℕ) : Acc Bool := do
  let v ← Prog.read fun h ↦ h.pmm.st.bitmap (idx >>> 3)
  pure (((v >>> (idx &&& 7)) &&& 1#8) != 0#8)

def bitSetProg (idx : ℕ) : Acc Unit := do
  let v ← Prog.read fun h ↦ h.pmm.st.bitmap (idx >>> 3)
  Prog.write fun h ↦ h.setSt (h.pmm.st.setByte (idx >>> 3) (v ||| (1#8 <<< (idx &&& 7))))

def bitClearProg (idx : ℕ) : Acc Unit := do
  let v ← Prog.read fun h ↦ h.pmm.st.bitmap (idx >>> 3)
  Prog.write fun h ↦ h.setSt (h.pmm.st.setByte (idx >>> 3) (v &&& ~~~(1#8 <<< (idx &&& 7))))

def pmmUpdatePressureProg : Acc Unit := do
  let total ← Prog.read fun h ↦ h.pmm.st.totalPages
  let free ← Prog.read fun h ↦ h.pmm.st.freePages
  let used := sub64 total free
  let peak ← Prog.read fun h ↦ h.pmm.ctr.peakUsedPages
  Prog.when (peak < used) (Prog.write fun h ↦ h.setPmmCtr (h.pmm.ctr.setPeakUsed used))
  let free ← Prog.read fun h ↦ h.pmm.st.freePages
  let low ← Prog.read fun h ↦ h.pmm.ctr.lowFreePages
  Prog.when (free < low) do
    let free ← Prog.read fun h ↦ h.pmm.st.freePages
    Prog.write fun h ↦ h.setPmmCtr (h.pmm.ctr.setLowFree free)

def pmmScanPassProg (count i0 i1 : ℕ) : Acc (Option ℕ) :=
  if i1 < count then pure none
  else Prog.findFirst (fun i ↦ Prog.allOf (fun j ↦ do return !(← bitTestProg (i + j))) (range count))
    (range' i0 (i1 + 1 - count - i0))

def pmmCommitProg (count i : ℕ) : Acc ℕ := do
  Prog.forEach (fun j ↦ bitSetProg (i + j)) (range count)
  let free ← Prog.read fun h ↦ h.pmm.st.freePages
  Prog.write fun h ↦ h.setSt (h.pmm.st.setFree (sub64 free count))
  pmmUpdatePressureProg
  Prog.write fun h ↦ h.setSt (h.pmm.st.setHint (i + count))
  let base ← Prog.read fun h ↦ h.pmm.st.basePa
  pure (base + i * pageSize)

def pmmSearchProg (count n hint : ℕ) : Acc (Option ℕ) := do
  let start := if n ≤ hint then 0 else hint
  let first ← pmmScanPassProg count start n
  let found ← if first.isSome then pure first else pmmScanPassProg count 0 start
  match found with
  | none => pure none
  | some i => some <$> pmmCommitProg count i

def pmmAllocPagesProg (count : ℕ) : Acc (Option ℕ) := do
  bumpPmm PmmCounters.allocPagesCalls PmmCounters.setAllocPages
  Prog.when (1 < count) (bumpPmm PmmCounters.allocContigCalls PmmCounters.setAllocContig)
  if count = 0 then pure none
  else do
    let free ← Prog.read fun h ↦ h.pmm.st.freePages
    if free < count then pure none
    else do
      let n ← Prog.read fun h ↦ h.pmm.st.totalPages
      if n < count then pure none
      else do
        let hint ← Prog.read fun h ↦ h.pmm.st.nextHint
        pmmSearchProg count n hint

def pmmAllocPageVaProg (bd : Board) : Acc ℕ := do
  bumpPmm PmmCounters.allocCalls PmmCounters.setAlloc
  let r ← pmmAllocPagesProg 1
  pure (r.elim 0 bd.physToHhVirt)

def pmmReleaseProg (idx : ℕ) : Acc Unit := do
  bitClearProg idx
  let free ← Prog.read fun h ↦ h.pmm.st.freePages
  Prog.write fun h ↦ h.setSt (h.pmm.st.setFree (u64 (free + 1)))
  pmmUpdatePressureProg
  let hint ← Prog.read fun h ↦ h.pmm.st.nextHint
  Prog.when (idx < hint) (Prog.write fun h ↦ h.setSt (h.pmm.st.setHint idx))

/-- Whether `pmm_free_page` takes a page for metadata. -/
def pmmInMetaProg (pa : ℕ) : Acc Bool := do
  let metaBase ← Prog.read fun h ↦ h.pmm.st.metaBasePa
  if metaBase ≤ pa then do
    let metaBase ← Prog.read fun h ↦ h.pmm.st.metaBasePa
    let metaPages ← Prog.read fun h ↦ h.pmm.st.metaPages
    pure (decide (pa < u64 (metaBase + metaPages * pageSize)))
  else pure false

def pmmFreePageProg (pa : ℕ) : Acc Unit := do
  bumpPmm PmmCounters.freeCalls PmmCounters.setFree
  let base ← Prog.read fun h ↦ h.pmm.st.basePa
  if pa < base then pure ()
  else do
    let limit ← Prog.read fun h ↦ h.pmm.st.limitPa
    if limit ≤ pa then pure ()
    else if pa % pageSize ≠ 0 then pure ()
    else do
      let base ← Prog.read fun h ↦ h.pmm.st.basePa
      let idx := sub64 pa base / pageSize
      let total ← Prog.read fun h ↦ h.pmm.st.totalPages
      if total ≤ idx then pure ()
      else do
        let inMeta ← pmmInMetaProg pa
        if inMeta then pure ()
        else do
          let set ← bitTestProg idx
          if set then pmmReleaseProg idx else pure ()

/-! ### `kheap.c` -/

def kheapAccountAllocProg (bytes : ℕ) : Acc Unit := do
  let cur ← Prog.read fun h ↦ h.ctr.curBytes
  Prog.write fun h ↦ h.setCtr (h.ctr.setCur (u64 (cur + bytes)))
  let cur ← Prog.read fun h ↦ h.ctr.curBytes
  let peak ← Prog.read fun h ↦ h.ctr.peakBytes
  Prog.when (peak < cur) do
    let cur ← Prog.read fun h ↦ h.ctr.curBytes
    Prog.write fun h ↦ h.setCtr (h.ctr.setPeak cur)

def kheapAccountFreeProg (bytes : ℕ) : Acc Unit := do
  let cur ← Prog.read fun h ↦ h.ctr.curBytes
  if bytes ≤ cur then do
    let cur ← Prog.read fun h ↦ h.ctr.curBytes
    Prog.write fun h ↦ h.setCtr (h.ctr.setCur (sub64 cur bytes))
  else Prog.write fun h ↦ h.setCtr (h.ctr.setCur 0)

def pushFreeProg (b p : ℕ) : Acc Unit := do
  let head ← Prog.read fun h ↦ h.freelist b
  storeWord p 8 head
  Prog.write fun h ↦ h.setHead b p

def refillBucketProg (bd : Board) (b : ℕ) : Acc Unit := do
  bumpHeap (fun c ↦ c.bucketRefills b) (KheapCounters.setRefills b)
  let base ← pmmAllocPageVaProg bd
  if base = 0 then pure ()
  else do
    storeWord base 4 slabMagic
    storeWord (base + 4) 2 b
    storeWord (base + 6) 2 (bucketSize b)
    let bs ← Prog.read fun h ↦ load h.mem (base + 6) 2
    Prog.forEach (pushFreeProg b) (slabBlocks base bs)

def kheapAllocPagesProg (bd : Board) (pages : ℕ) : Acc ℕ :=
  if pages = 0 then pure 0
  else do
    let r ← pmmAllocPagesProg pages
    Prog.when (r = none) (bumpHeap KheapCounters.failCalls KheapCounters.setFail)
    pure (r.elim 0 bd.physToHhVirt)

def kmallocSmallProg (bd : Board) (b : ℕ) : Acc ℕ := do
  let head ← Prog.read fun h ↦ h.freelist b
  Prog.when (head = 0) (refillBucketProg bd b)
  let n ← Prog.read fun h ↦ h.freelist b
  if n = 0 then pure 0
  else do
    let next ← Prog.read fun h ↦ load h.mem n 8
    Prog.write fun h ↦ h.setHead b next
    bumpHeap (fun c ↦ c.smallAllocs b) (KheapCounters.setSmallAllocs b)
    kheapAccountAllocProg (bucketSize b)
    pure n

def kmallocBigProg (bd : Board) (size : ℕ) : Acc ℕ := do
  let pages := bigPages size
  let base ← kheapAllocPagesProg bd pages
  if base = 0 then pure 0
  else do
    storeWord base 4 bigMagic
    storeWord (base + 4) 4 pages
    bumpHeap KheapCounters.bigAllocCalls KheapCounters.setBigAlloc
    kheapAccountAllocProg (pages * pageSize)
    pure (base + heapHdrBytes)

def kmallocProg (bd : Board) (size : ℕ) : Acc ℕ := do
  bumpHeap KheapCounters.kmallocCalls KheapCounters.setKmalloc
  if size = 0 then pure 0
  else
    match bucketForSize size with
    | some b => kmallocSmallProg bd b
    | none => kmallocBigProg bd size

def kheapFreePagesProg (bd : Board) (va pages : ℕ) : Acc Unit :=
  if va = 0 ∨ pages = 0 then pure ()
  else
    let pa0 := alignDown4k (bd.hhVirtToPhys va)
    Prog.forEach (fun i ↦ pmmFreePageProg (pa0 + i * pageSize)) (range pages)

def kfreeSmallProg (page ptr b : ℕ) : Acc Unit := do
  let blockSize ← Prog.read fun h ↦ load h.mem (page + 6) 2
  memset ptr kheapPoisonByte blockSize
  pushFreeProg b ptr
  bumpHeap (fun c ↦ c.smallFrees b) (KheapCounters.setSmallFrees b)
  let blockSize ← Prog.read fun h ↦ load h.mem (page + 6) 2
  kheapAccountFreeProg blockSize

def kfreeBigProg (bd : Board) (page pages : ℕ) : Acc Unit := do
  memset page kheapPoisonByte (pages * pageSize)
  bumpHeap KheapCounters.bigFreeCalls KheapCounters.setBigFree
  kheapAccountFreeProg (pages * pageSize)
  kheapFreePagesProg bd page pages

def kfreeProg (bd : Board) (ptr : ℕ) : Acc Unit := do
  bumpHeap KheapCounters.kfreeCalls KheapCounters.setKfree
  if ptr = 0 then pure ()
  else do
    let page := alignDown4k ptr
    let magic ← Prog.read fun h ↦ load h.mem page 4
    if magic = slabMagic then do
      let b ← Prog.read fun h ↦ load h.mem (page + 4) 2
      if numBuckets ≤ b then pure () else kfreeSmallProg page ptr b
    else if magic = bigMagic then do
      let pages ← Prog.read fun h ↦ load h.mem (page + 4) 4
      if pages = 0 then pure () else kfreeBigProg bd page pages
    else pure ()

/-! ### Runs without interruption -/

theorem run_bumpPmm (get : PmmCounters → ℕ) (set : PmmCounters → ℕ → PmmCounters) (h : Kheap) :
    (bumpPmm get set).run h = ((), h.setPmmCtr (set h.pmm.ctr (u64 (get h.pmm.ctr + 1)))) := rfl

theorem run_bumpHeap (get : KheapCounters → ℕ) (set : KheapCounters → ℕ → KheapCounters) (h : Kheap) :
    (bumpHeap get set).run h = ((), h.setCtr (set h.ctr (u64 (get h.ctr + 1)))) := rfl

theorem run_storeWord (a n v : ℕ) (h : Kheap) : (storeWord a n v).run h = ((), h.setMem (store h.mem a n v)) := rfl

theorem run_bitTestProg (idx : ℕ) (h : Kheap) : (bitTestProg idx).run h = (bitTest h.pmm.st.bitmap idx, h) := rfl

theorem run_pmmUpdatePressureProg (hle : h.pmm.st.freePages ≤ h.pmm.st.totalPages) :
    pmmUpdatePressureProg.run h = ((), h.setPmmCtr (pmmUpdatePressure h.pmm.st h.pmm.ctr)) := by
  simp only [pmmUpdatePressureProg, Prog.run_bind, Prog.run_read, Prog.run_when, Prog.run_write,
    decide_eq_true_eq, sub64_of_le hle, pmmUpdatePressure]
  by_cases hpeak : h.pmm.ctr.peakUsedPages < h.pmm.st.totalPages - h.pmm.st.freePages
  · simp only [if_pos hpeak, Kheap.setPmmCtr_pmm, PmmCounters.setPeakUsed]
    split <;> rfl
  · simp only [if_neg hpeak]
    split <;> rfl

theorem run_pmmScanPassProg (count i0 i1 : ℕ) (h : Kheap) :
    (pmmScanPassProg count i0 i1).run h = (pmmScanPass h.pmm.st.bitmap count i0 i1, h) := by
  unfold pmmScanPassProg pmmScanPass
  split
  · rfl
  · exact Prog.run_findFirst (q := runClear h.pmm.st.bitmap count)
      (fun i ↦ Prog.run_allOf (fun j ↦ rfl) (range count)) _

theorem foldl_bitSetProg (h : Kheap) (i count : ℕ) :
    (range count).foldl (fun h j ↦ ((bitSetProg (i + j)).run h).2) h =
      h.setSt (h.pmm.st.setBits (setRun h.pmm.st.bitmap i count)) := by
  induction count with
  | zero => rfl
  | succ count ih =>
    rw [range_succ, foldl_append, ih]
    rfl

theorem run_pmmCommitProg {count : ℕ} (hcount : count ≤ h.pmm.st.freePages)
    (hle : h.pmm.st.freePages ≤ h.pmm.st.totalPages) (i : ℕ) :
    (pmmCommitProg count i).run h = (h.pmm.st.basePa + i * pageSize,
      h.setPmm ⟨h.pmm.st.commitRun count i, pmmUpdatePressure (h.pmm.st.commitRun count i) h.pmm.ctr⟩) := by
  have hpressure := run_pmmUpdatePressureProg (h := h.setSt
    ((h.pmm.st.setBits (setRun h.pmm.st.bitmap i count)).setFree (h.pmm.st.freePages - count)))
    (le_trans (Nat.sub_le _ count) hle)
  simp only [pmmCommitProg, Prog.run_bind, Prog.run_forEach, foldl_bitSetProg, Prog.run_read,
    Prog.run_write, Prog.run_pure, Kheap.setSt_pmm, PmmState.setBits_freePages, sub64_of_le hcount,
    Kheap.setSt_setSt, hpressure]
  rfl

theorem run_pmmSearchProg {count : ℕ} (hcount : count ≤ h.pmm.st.freePages)
    (hle : h.pmm.st.freePages ≤ h.pmm.st.totalPages) :
    (pmmSearchProg count h.pmm.st.totalPages h.pmm.st.nextHint).run h = match pmmFindRun h.pmm.st count with
      | none => (none, h)
      | some i => (some (h.pmm.st.basePa + i * pageSize), h.setPmm
          ⟨h.pmm.st.commitRun count i, pmmUpdatePressure (h.pmm.st.commitRun count i) h.pmm.ctr⟩) := by
  have hcommit : ∀ i, (some <$> pmmCommitProg count i).run h = _ := fun i ↦
    (Prog.run_map some _ h).trans (by rw [run_pmmCommitProg hcount hle])
  simp only [pmmSearchProg, Prog.run_bind, run_pmmScanPassProg, Prog.run_ite, pmmFindRun]
  generalize (if h.pmm.st.totalPages ≤ h.pmm.st.nextHint then 0 else h.pmm.st.nextHint) = start
  rcases pmmScanPass h.pmm.st.bitmap count start h.pmm.st.totalPages with - | i
  · simp only [Option.isSome_none, Bool.false_eq_true, if_false, Option.none_or]
    rcases pmmScanPass h.pmm.st.bitmap count 0 start with - | i
    · rfl
    · exact hcommit i
  · exact hcommit i

theorem run_pmmAllocPagesProg (hle : h.pmm.st.freePages ≤ h.pmm.st.totalPages) (count : ℕ) :
    (pmmAllocPagesProg count).run h = ((pmmAllocPages h.pmm count).1, h.setPmm (pmmAllocPages h.pmm count).2) := by
  have hctr : ((do
      bumpPmm PmmCounters.allocPagesCalls PmmCounters.setAllocPages
      Prog.when (1 < count) (bumpPmm PmmCounters.allocContigCalls PmmCounters.setAllocContig) :
        Acc Unit).run h).2 = h.setPmmCtr (h.pmm.ctr.countAllocPages count) := by
    simp only [Prog.run_bind, Prog.run_when, run_bumpPmm, decide_eq_true_eq, PmmCounters.countAllocPages]
    split <;> rfl
  simp only [Prog.run_bind] at hctr
  simp only [pmmAllocPagesProg, Prog.run_bind, hctr, Prog.run_ite, Prog.run_read, Prog.run_pure,
    Kheap.setPmmCtr_pmm, pmmAllocPages]
  split_ifs with hzero hfree htotal
  · rfl
  · rfl
  · rfl
  · have hsearch := run_pmmSearchProg (h := h.setPmmCtr (h.pmm.ctr.countAllocPages count)) (Nat.le_of_not_lt hfree) hle
    simp only [Kheap.setPmmCtr_pmm] at hsearch
    rw [hsearch]
    rcases pmmFindRun h.pmm.st count with - | i <;> rfl

theorem run_pmmAllocPageVaProg (hle : h.pmm.st.freePages ≤ h.pmm.st.totalPages) (bd : Board) :
    (pmmAllocPageVaProg bd).run h = ((pmmAllocPageVa bd h.pmm).1, h.setPmm (pmmAllocPageVa bd h.pmm).2) := by
  have hbump : (bumpPmm PmmCounters.allocCalls PmmCounters.setAlloc).run h =
      ((), h.setPmmCtr h.pmm.ctr.countAlloc) := run_bumpPmm ..
  have hrun := run_pmmAllocPagesProg (h := h.setPmmCtr h.pmm.ctr.countAlloc) hle 1
  rw [Kheap.setPmmCtr_pmm] at hrun
  simp only [pmmAllocPageVaProg, Prog.run_bind, hbump, hrun, Prog.run_pure, pmmAllocPageVa, Kheap.setPmmCtr_setPmm]
  rcases pmmAllocPages ⟨h.pmm.st, h.pmm.ctr.countAlloc⟩ 1 with ⟨_ | pa, g⟩
  · rw [Option.elim_none]
  · rw [Option.elim_some]

theorem freePages_lt {st : PmmState} (hcount : st.Counted) {i : ℕ} (hi : i < st.totalPages)
    (hset : bitTest st.bitmap i = true) : st.freePages < st.totalPages := by
  have hclear := clearCount_bitClear hi hset
  have hle : clearCount (bitClear st.bitmap i) st.totalPages ≤ st.totalPages :=
    (Finset.card_filter_le _ _).trans_eq (Finset.card_range _)
  rw [show st.freePages = _ from hcount]
  omega

theorem run_bitClearProg (idx : ℕ) (h : Kheap) : (bitClearProg idx).run h =
    ((), h.setSt (h.pmm.st.setBits (bitClear h.pmm.st.bitmap idx))) := rfl

theorem run_pmmReleaseProg {idx : ℕ} (hlt : h.pmm.st.freePages < h.pmm.st.totalPages)
    (htotal : h.pmm.st.totalPages < 2 ^ 64) :
    (pmmReleaseProg idx).run h = ((), h.setPmm ⟨h.pmm.st.releasePage idx,
      pmmUpdatePressure (h.pmm.st.releasePage idx) h.pmm.ctr⟩) := by
  have hfree : u64 (h.pmm.st.freePages + 1) = h.pmm.st.freePages + 1 := Nat.mod_eq_of_lt (by omega)
  have hpressure := run_pmmUpdatePressureProg (h := h.setSt
    ((h.pmm.st.setBits (bitClear h.pmm.st.bitmap idx)).setFree (h.pmm.st.freePages + 1))) hlt
  simp only [pmmReleaseProg, Prog.run_bind, run_bitClearProg, Prog.run_read, Prog.run_write, Prog.run_when,
    decide_eq_true_eq, Kheap.setSt_pmm, PmmState.setBits_freePages, hfree, Kheap.setSt_setSt, hpressure,
    Kheap.setPmmCtr_pmm, PmmState.setFree_nextHint, PmmState.setBits_nextHint, PmmState.releasePage]
  split <;> rfl

theorem run_pmmInMetaProg (pa : ℕ) (h : Kheap) : (pmmInMetaProg pa).run h =
    (decide (h.pmm.st.metaBasePa ≤ pa ∧ pa < u64 (h.pmm.st.metaBasePa + h.pmm.st.metaPages * pageSize)), h) := by
  simp only [pmmInMetaProg, Prog.run_bind, Prog.run_read, Prog.run_ite, Prog.run_pure]
  split
  · next hle => simp [hle]
  · next hle => simp [hle]

theorem run_pmmFreePageProg (hr : h.pmm.st.Ready) (pa : ℕ) :
    (pmmFreePageProg pa).run h = ((), h.setPmm (pmmFreePage h.pmm pa)) := by
  have hbump : (bumpPmm PmmCounters.freeCalls PmmCounters.setFree).run h = ((), h.setPmmCtr
      { h.pmm.ctr with freeCalls := u64 (h.pmm.ctr.freeCalls + 1) }) := run_bumpPmm ..
  have htotal : h.pmm.st.totalPages < 2 ^ 64 := by
    have := hr.limit_lt
    rw [hr.whole.total_eq]
    exact lt_of_le_of_lt (le_trans (Nat.div_le_self _ _) (Nat.sub_le _ _)) this
  simp only [pmmFreePageProg, Prog.run_bind, hbump, Prog.run_read, Prog.run_ite, Prog.run_pure,
    Kheap.setPmmCtr_pmm, run_pmmInMetaProg, run_bitTestProg, pmmFreePage, decide_eq_true_eq]
  by_cases hlo : pa < h.pmm.st.basePa
  · rw [if_pos hlo, if_pos (.inl hlo)]
    rfl
  rw [if_neg hlo, sub64_of_le (Nat.le_of_not_lt hlo)]
  by_cases hhi : h.pmm.st.limitPa ≤ pa
  · rw [if_pos hhi, if_pos (.inr hhi)]
    rfl
  rw [if_neg hhi, if_neg (not_or.2 ⟨hlo, hhi⟩)]
  split
  · rfl
  split
  · rfl
  next hidx =>
  by_cases hmeta : h.pmm.st.metaBasePa ≤ pa ∧ pa < u64 (h.pmm.st.metaBasePa + h.pmm.st.metaPages * pageSize)
  · rw [if_pos hmeta, if_pos hmeta]
    rfl
  rw [if_neg hmeta, if_neg hmeta]
  rcases hset : bitTest h.pmm.st.bitmap ((pa - h.pmm.st.basePa) / pageSize) with - | -
  · rfl
  · exact run_pmmReleaseProg (h := h.setPmmCtr _) (freePages_lt hr.counted (Nat.lt_of_not_le hidx) hset) htotal

theorem ready_pmmFreePage {g : Pmm} (hr : g.st.Ready) (pa : ℕ) : (pmmFreePage g pa).st.Ready := by
  simp only [pmmFreePage]
  split_ifs with hwin hmod hidx hmeta hset
  · exact hr
  · exact hr
  · exact hr
  · exact hr
  · have hbase : g.st.basePa + (pa - g.st.basePa) / pageSize * pageSize = pa := by
      have := hr.whole.base_mod
      simp only [pageSize] at *
      omega
    exact PmmSys.ready_releasePage hr (Nat.lt_of_not_le hidx) hset (by rwa [hbase])
  · exact hr

/-! #### The heap -/

theorem run_memset (a : ℕ) (v : UInt8) (n : ℕ) (h : Kheap) :
    (memset a v n).run h = ((), h.setMem (fill h.mem a n v)) := by
  rw [memset, Prog.run_forEach]
  refine Prod.ext rfl ?_
  induction n with
  | zero => exact congrArg h.setMem (fill_zero h.mem a v).symm
  | succ n ih =>
    rw [range_succ, foldl_append, fill_succ]
    exact congrArg (fun h' : Kheap ↦ h'.setMem (update h'.mem (a + n) v)) ih

theorem run_pushFreeProg (b p : ℕ) (h : Kheap) : (pushFreeProg b p).run h = ((), h.pushFree b p) :=
  rfl

theorem run_kheapAccountAllocProg (bytes : ℕ) (h : Kheap) :
    (kheapAccountAllocProg bytes).run h = ((), h.setCtr (h.ctr.accountAlloc bytes)) := by
  simp only [kheapAccountAllocProg, Prog.run_bind, Prog.run_read, Prog.run_write, Prog.run_when,
    decide_eq_true_eq, Kheap.setCtr_ctr, KheapCounters.accountAlloc, KheapCounters.setCur]
  split <;> rfl

theorem run_kheapAccountFreeProg (bytes : ℕ) (h : Kheap) :
    (kheapAccountFreeProg bytes).run h = ((), h.setCtr (h.ctr.accountFree bytes)) := by
  simp only [kheapAccountFreeProg, Prog.run_bind, Prog.run_read, Prog.run_write, Prog.run_ite,
    KheapCounters.accountFree]
  split
  · next hle => rw [sub64_of_le hle]; rfl
  · rfl

section

variable (hle : h.pmm.st.freePages ≤ h.pmm.st.totalPages) (bd : Board)
include hle bd

theorem run_refillBucketProg (hb : b < numBuckets) : (refillBucketProg bd b).run h = ((), refillBucket bd h b) := by
  have hbump : (bumpHeap (fun c ↦ c.bucketRefills b) (KheapCounters.setRefills b)).run h =
      ((), h.setCtr (h.ctr.countRefill b)) := run_bumpHeap ..
  have hpage := run_pmmAllocPageVaProg (h := h.setCtr (h.ctr.countRefill b)) hle bd
  simp only [refillBucketProg, Prog.run_bind, hbump, hpage, Prog.run_ite, Prog.run_pure, run_storeWord,
    Prog.run_read, Prog.run_forEach, run_pushFreeProg, refillBucket]
  rw [Kheap.setCtr_pmm]
  rcases pmmAllocPageVa bd h.pmm with ⟨base, g⟩
  split
  · rfl
  · rw [show load (Kheap.mem _) (base + 6) 2 = bucketSize b from load_writeSlabHdr_size h.mem base hb]
    rfl

theorem run_kheapAllocPagesProg (pages : ℕ) : (kheapAllocPagesProg bd pages).run h = kheapAllocPages bd h pages := by
  simp only [kheapAllocPagesProg, Prog.run_ite, Prog.run_pure, Prog.run_bind, run_pmmAllocPagesProg hle,
    Prog.run_when, decide_eq_true_eq, run_bumpHeap, kheapAllocPages]
  rcases pmmAllocPages h.pmm pages with ⟨_ | pa, g⟩
  · rw [Option.elim_none, if_pos rfl]
    rfl
  · rw [Option.elim_some, if_neg (Option.some_ne_none pa)]

theorem run_kmallocSmallProg (hb : b < numBuckets) : (kmallocSmallProg bd b).run h = kmallocSmall bd h b := by
  simp only [kmallocSmallProg, Prog.run_bind, Prog.run_read, Prog.run_when, decide_eq_true_eq,
    run_refillBucketProg hle bd hb, Prog.run_ite, Prog.run_pure, Prog.run_write, run_bumpHeap,
    run_kheapAccountAllocProg, kmallocSmall]
  generalize (if h.freelist b = 0 then refillBucket bd h b else h) = h₁
  split <;> rfl

theorem run_kmallocBigProg (size : ℕ) : (kmallocBigProg bd size).run h = kmallocBig bd h size := by
  simp only [kmallocBigProg, Prog.run_bind, run_kheapAllocPagesProg hle, Prog.run_ite, Prog.run_pure,
    run_storeWord, run_bumpHeap, run_kheapAccountAllocProg, kmallocBig]
  rcases kheapAllocPages bd h (bigPages size) with ⟨base, h₁⟩
  split <;> rfl

theorem run_kmallocProg (size : ℕ) : (kmallocProg bd size).run h = kmalloc bd h size := by
  have hbump : (bumpHeap KheapCounters.kmallocCalls KheapCounters.setKmalloc).run h =
      ((), h.setCtr h.ctr.countKmalloc) := run_bumpHeap ..
  simp only [kmallocProg, Prog.run_bind, hbump, Prog.run_ite, Prog.run_pure, kmalloc]
  split
  · rfl
  · rcases hb : bucketForSize size with - | b
    · exact run_kmallocBigProg (h := h.setCtr h.ctr.countKmalloc) hle bd size
    · have hkind : (HeapBlock.mk 0 size).kind = .small b (bucketSize b) := by simp only [HeapBlock.kind, heapKind, hb]
      exact run_kmallocSmallProg (h := h.setCtr h.ctr.countKmalloc) hle bd (HeapBlock.kind_small hkind).1

end

theorem run_kheapFreePagesProg (hr : h.pmm.st.Ready) (bd : Board) (va pages : ℕ) :
    (kheapFreePagesProg bd va pages).run h = ((), kheapFreePages bd h va pages) := by
  unfold kheapFreePagesProg kheapFreePages
  split
  · rfl
  · rw [Prog.run_forEach]
    dsimp only
    generalize range pages = l
    -- the pages are released one by one, and the allocator is ready before each of them
    induction l generalizing h with
    | nil => rfl
    | cons i l ih =>
      rw [foldl_cons, foldl_cons, run_pmmFreePageProg hr]
      exact ih (ready_pmmFreePage hr _)

theorem run_kfreeSmallProg (page ptr b : ℕ) (h : Kheap) : (kfreeSmallProg page ptr b).run h =
    ((), kfreeSmall h page ptr b (load h.mem (page + 6) 2)) := by
  simp only [kfreeSmallProg, Prog.run_bind, Prog.run_read, run_memset, run_pushFreeProg, run_bumpHeap,
    run_kheapAccountFreeProg, kfreeSmall]
  rfl

theorem run_kfreeBigProg (hr : h.pmm.st.Ready) (bd : Board) (page pages : ℕ) :
    (kfreeBigProg bd page pages).run h = ((), kfreeBig bd h page pages) := by
  simp only [kfreeBigProg, Prog.run_bind, run_memset, run_bumpHeap, run_kheapAccountFreeProg]
  rw [run_kheapFreePagesProg]
  · rfl
  · exact hr

theorem run_kfreeProg (hr : h.pmm.st.Ready) (bd : Board) (ptr : ℕ) :
    (kfreeProg bd ptr).run h = ((), kfree bd h ptr) := by
  have hbump : (bumpHeap KheapCounters.kfreeCalls KheapCounters.setKfree).run h =
      ((), h.setCtr h.ctr.countKfree) := run_bumpHeap ..
  simp only [kfreeProg, Prog.run_bind, hbump, Prog.run_ite, Prog.run_pure, Prog.run_read,
    run_kfreeSmallProg, kfree, readHdr]
  by_cases hptr : ptr = 0
  · rw [if_pos hptr, if_pos hptr]
  rw [if_neg hptr, if_neg hptr]
  split
  · split <;> rfl
  · split
    · split
      · rfl
      · exact run_kfreeBigProg (h := h.setCtr h.ctr.countKfree) hr bd _ _
    · rfl

end CapazOS
