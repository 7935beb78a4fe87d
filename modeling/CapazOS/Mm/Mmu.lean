import CapazOS.Mm.Pmm
import CapazOS.Lib.Translation

/-!
# The kernel page tables

The model of `Kern/Kernel/mm/mmu.c`: `mmu_init` up to the point where the tables are installed, and
`mmu_lookup_desc`. A table is named by its address; the addresses come from the linker and are part
of the layout. Running out of a pool makes the source spin forever; here the result is `none`. The
bump allocator of `page_alloc_init`, which nothing uses, the switch of the stack and the system
registers are left out.
-/

namespace CapazOS

open Translation

/-! ### Constants -/

def ramBlockSize : ℕ := 2 * 1024 * 1024

def maxL2Tables : ℕ := 128

def maxL3Tables : ℕ := 64

def alignDown2m (x : ℕ) : ℕ := x - x % ramBlockSize

/-- `align_up_2m`; the sum may wrap. -/
def alignUp2m (x : ℕ) : ℕ := alignDown2m (u64 (x + (ramBlockSize - 1)))

/-- `DESC_TABLE`, `DESC_BLOCK` and `DESC_PAGE`. -/
def descTable : ℕ := 0x3

def descBlock : ℕ := 0x1

def descPage : ℕ := 0x3

/-- `ATTRINDX_NORMAL` and `ATTRINDX_DEVICE`. -/
def attrindxNormal : ℕ := 0 <<< 2

def attrindxDevice : ℕ := 1 <<< 2

/-- `SH_INNER`, `SH_NON` and `AF`. -/
def shInner : ℕ := 3 <<< 8

def shNon : ℕ := 0 <<< 8

def accessFlag : ℕ := 1 <<< 10

/-- `(1ULL << 53) | (1ULL << 54)`. -/
def xnBits : ℕ := (1 <<< 53) ||| (1 <<< 54)

def not64 (x : ℕ) : ℕ := 2 ^ 64 - 1 - x

/-! ### The kernel image -/

/-- The boundaries of a section. -/
structure KernelSection where
  start : ℕ
  stop : ℕ
  deriving DecidableEq

/-- What the linker provides: the sections, the image, the vector table and the static tables. -/
structure KernelLayout where
  text : KernelSection
  rodata : KernelSection
  coreText : KernelSection
  coreRodata : KernelSection
  data : KernelSection
  coreData : KernelSection
  bss : KernelSection
  coreBss : KernelSection
  imageStart : ℕ
  runtimeEnd : ℕ
  kernelVectors : ℕ
  l0Table : ℕ
  l1Table : ℕ
  l2Tables : ℕ
  l3Pool : ℕ
  deriving DecidableEq

variable (bd : Board) (L : KernelLayout)

namespace KernelLayout

def l2 (k : ℕ) : ℕ := L.l2Tables + k * pageSize

def l3 (k : ℕ) : ℕ := L.l3Pool + k * pageSize

end KernelLayout

/-- `pa >= start && pa < end`, for the physical addresses of a section. -/
def KernelSection.Holds (s : KernelSection) (pa : ℕ) : Prop :=
  bd.hhVirtToPhys s.start ≤ pa ∧ pa < bd.hhVirtToPhys s.stop

instance (s : KernelSection) (pa : ℕ) : Decidable (s.Holds bd pa) :=
  inferInstanceAs (Decidable (_ ∧ _))

def vecPaStart : ℕ := alignDown4k (bd.hhVirtToPhys L.kernelVectors)

def overlapsKernel (pa : ℕ) : Bool :=
  !(decide (pa + ramBlockSize ≤ bd.hhVirtToPhys L.imageStart) || decide (bd.hhVirtToPhys L.runtimeEnd ≤ pa))

/-! ### Descriptors -/

def devDesc : ℕ := 0 ||| attrindxDevice ||| shNon ||| accessFlag ||| xnBits ||| descBlock

/-- A 2 MiB block: normal memory, read-write, not executable. -/
def blockDesc (pa : ℕ) : ℕ :=
  pa ||| attrindxNormal ||| shInner ||| accessFlag ||| (0 <<< 6) ||| xnBits ||| descBlock

def clearXn (desc : ℕ) : ℕ := desc &&& not64 xnBits

def setRo (desc : ℕ) : ℕ := (desc &&& not64 (3 <<< 6)) ||| (2 <<< 6)

/-- A page of a block that overlaps the kernel. The branches for `.data`, `.bss` and what lies
outside every section keep the defaults. -/
def pageDesc (pa4 : ℕ) : ℕ :=
  let desc := pa4 ||| attrindxNormal ||| shInner ||| accessFlag ||| (0 <<< 6) ||| xnBits
  let desc := if pa4 = vecPaStart bd L then setRo (clearXn desc)
    else if L.text.Holds bd pa4 then setRo (clearXn desc)
    else if L.rodata.Holds bd pa4 then setRo desc
    else if L.coreText.Holds bd pa4 then setRo (clearXn desc)
    else if L.coreRodata.Holds bd pa4 then setRo desc
    else if L.data.Holds bd pa4 then desc
    else if L.coreData.Holds bd pa4 then desc
    else if L.bss.Holds bd pa4 then desc
    else if L.coreBss.Holds bd pa4 then desc
    else desc
  desc ||| descPage

/-! ### Building the tables -/

/-- The static tables and their bookkeeping; `l2ForL1` holds pointers, zero for none. -/
structure MmuTables where
  tbl : ℕ → ℕ → ℕ
  l2Used : ℕ
  l2ForL1 : ℕ → ℕ
  l3Used : ℕ

namespace MmuTables

def setEntry (m : MmuTables) (t i v : ℕ) : MmuTables :=
  { m with tbl := Function.update m.tbl t (Function.update (m.tbl t) i v) }

def fillTable (m : MmuTables) (t : ℕ) (f : ℕ → ℕ) : MmuTables :=
  (List.range 512).foldl (fun m i ↦ m.setEntry t i (f i)) m

def allocL3 (m : MmuTables) : Option (ℕ × MmuTables) :=
  if maxL3Tables ≤ m.l3Used then none
  else
    let t := L.l3 m.l3Used
    some (t, { m with l3Used := m.l3Used + 1 }.fillTable t fun _ ↦ 0)

def allocL2 (m : MmuTables) : Option (ℕ × MmuTables) :=
  if maxL2Tables ≤ m.l2Used then none
  else
    let t := L.l2 m.l2Used
    some (t, { m with l2Used := m.l2Used + 1 }.fillTable t fun _ ↦ 0)

def getL2ForL1 (m : MmuTables) (l1Index : ℕ) : Option (ℕ × MmuTables) :=
  let t := m.l2ForL1 l1Index
  if t = 0 then do
    let (t, m) ← m.allocL2 L
    let m := { m with l2ForL1 := Function.update m.l2ForL1 l1Index t }
    some (t, m.setEntry L.l1Table l1Index (bd.hhVirtToPhys t ||| descTable))
  else some (t, m)

/-- The body of the loop over the blocks of a range. -/
def mapBlock (m : MmuTables) (pa : ℕ) : Option MmuTables :=
  let l1Index := pa >>> 30
  if l1Index = 0 ∨ 512 ≤ l1Index then some m
  else do
    let (l2, m) ← m.getL2ForL1 bd L l1Index
    let l2Index := (pa &&& (2 ^ 30 - 1)) / ramBlockSize
    if overlapsKernel bd L pa then
      let (l3, m) ← m.allocL3 L
      let m := m.fillTable l3 fun p ↦ pageDesc bd L (pa + p * 0x1000)
      some (m.setEntry l2 l2Index (bd.hhVirtToPhys l3 ||| descTable))
    else some (m.setEntry l2 l2Index (blockDesc pa))

/-- The blocks of a range, from its rounded start up to its rounded end. -/
def rangeBlocks (r : DtbRange) : List ℕ :=
  if r.stop ≤ bd.ramBase then []
  else
    let start := if r.base < bd.ramBase then bd.ramBase else r.base
    let pa := alignDown2m start
    let paEnd := alignUp2m r.stop
    (List.range ((paEnd - pa) / ramBlockSize)).map fun k ↦ pa + k * ramBlockSize

def mapRange (m : MmuTables) (r : DtbRange) : Option MmuTables :=
  (rangeBlocks bd r).foldlM (mapBlock bd L) m

/-- The tables before any memory is mapped: the device block, and no RAM. -/
def start : MmuTables :=
  let m : MmuTables := { tbl := fun _ _ ↦ 0, l2Used := 0, l2ForL1 := fun _ ↦ 0, l3Used := 0 }
  let m := m.setEntry L.l0Table 256 (bd.hhVirtToPhys L.l1Table ||| descTable)
  m.setEntry L.l1Table 0 devDesc

end MmuTables

/-- The ranges that are mapped: those of the device tree, or the direct-map window when it has
none. -/
def mmuRanges (ranges : Option (List DtbRange)) : List DtbRange :=
  match ranges with
  | none => [⟨bd.ramBase, bd.ramDirectmapSize⟩]
  | some [] => [⟨bd.ramBase, bd.ramDirectmapSize⟩]
  | some (r :: rs) => r :: rs

/-- `mmu_init`, with the answer of `dtb_get_memory_ranges`. -/
def mmuInit (ranges : Option (List DtbRange)) : Option MmuTables :=
  (mmuRanges bd ranges).foldlM (MmuTables.mapRange bd L) (MmuTables.start bd L)

def mmuLookupDesc (m : MmuTables) (va : ℕ) : ℕ :=
  let d0 := m.tbl L.l0Table ((va >>> 39) &&& 0x1FF)
  if d0 = 0 then 0
  else if descType d0 ≠ descTable then d0
  else
    let d1 := m.tbl (bd.physToHhVirt (descAddr d0)) ((va >>> 30) &&& 0x1FF)
    if d1 = 0 then 0
    else if descType d1 = descBlock then d1
    else if descType d1 ≠ descTable then 0
    else
      let d2 := m.tbl (bd.physToHhVirt (descAddr d1)) ((va >>> 21) &&& 0x1FF)
      if d2 = 0 then 0
      else if descType d2 = descBlock then d2
      else if descType d2 ≠ descTable then 0
      else m.tbl (bd.physToHhVirt (descAddr d2)) ((va >>> 12) &&& 0x1FF)

end CapazOS
