import CapazOS.Mm.Pmm
import CapazOS.Lib.Bytes

/-!
# The device-tree parser

The model of `dtb_init` of `Kern/Kernel/platform/dtb.c` and of the three collectors it runs. **A run
stops at the first fault**: a read outside the blob, an index outside the node stack, a name offset
outside the strings block, a depth that leaves the range of an `int`, or a loop that never ends. The
source checks none of these. A pointer is an offset into the blob. The two walks over the structure
block are one loop (`collectLoop`) with the places where they differ as parameters (`Collector`).
-/

namespace CapazOS

/-! ### Big-endian numbers -/

/-- The number that bytes encode, most significant byte first. -/
def beValue (bs : Bytes) : ℕ := leValue bs.reverse

def beBytes (n v : ℕ) : Bytes := (leBytes n v).reverse

def readBE (n : ℕ) (data : Bytes) (off : ℕ) : ℕ := beValue (slice data off n)

/-! ### Reads of the blob -/

inductive DtbFault where
  /-- A read outside the blob. -/
  | outOfBounds
  /-- An index outside the node stack. -/
  | stackIndex
  /-- A property name outside the strings block. -/
  | nameOffset
  /-- The depth leaves the range of an `int`. -/
  | depthRange
  /-- A loop that does not end. -/
  | noReturn
  deriving DecidableEq

abbrev DtbM := Except DtbFault

/-- A blob in memory: its bytes, and the address of the first one. -/
structure FdtBlob where
  bytes : Bytes
  addr : ℕ

namespace FdtBlob

variable (b : FdtBlob)

def byte (p : ℕ) : DtbM UInt8 :=
  match b.bytes[p]? with
  | some x => .ok x
  | none => .error .outOfBounds

def be32 (p : ℕ) : DtbM ℕ :=
  if p + 4 ≤ b.bytes.length then .ok (readBE 4 b.bytes p) else .error .outOfBounds

def be64 (p : ℕ) : DtbM ℕ := do
  let hi ← b.be32 p
  let lo ← b.be32 (p + 4)
  return hi * 2 ^ 32 + lo

/-- `align4`, of the address. -/
def align4 (p : ℕ) : ℕ := (b.addr + p + 3) / 4 * 4 - b.addr

def nodeName (p : ℕ) : DtbM Bytes :=
  match (b.bytes.drop p).findIdx? (· = 0) with
  | some n => .ok (slice b.bytes p n)
  | none => .error .outOfBounds

end FdtBlob

/-! ### Tokens -/

/-- A token of the structure block with what stands behind it; `stop` is `FDT_END` or an unknown
one. -/
inductive FdtToken where
  | beginNode (name : Bytes)
  | endNode
  | nop
  | prop (len nameoff data : ℕ)
  | stop

def fdtToken (b : FdtBlob) (p : ℕ) : DtbM (FdtToken × ℕ) := do
  let token ← b.be32 p
  let p := p + 4
  if token = 0x9 then return (.stop, p)
  else if token = 0x1 then
    let name ← b.nodeName p
    return (.beginNode name, b.align4 (p + (name.length + 1)))
  else if token = 0x2 then return (.endNode, p)
  else if token = 0x4 then return (.nop, p)
  else if token = 0x3 then
    let len ← b.be32 p
    let nameoff ← b.be32 (p + 4)
    let data := p + 8
    return (.prop len nameoff data, b.align4 (data + len))
  else return (.stop, p)

/-! ### Ranges -/

def appendRange (max : ℕ) (out : List DtbRange) (r : DtbRange) : List DtbRange :=
  if r.size = 0 then out else if max ≤ out.length then out else out ++ [r]

def readCells (b : FdtBlob) : ℕ → ℕ → ℕ → DtbM ℕ
  | 0, _, acc => .ok acc
  | cells + 1, p, acc => do
    let x ← b.be32 p
    readCells b cells (p + 4) (u64 (acc * 2 ^ 32) + x)

/-- The offset in a property is a 32-bit number: a loop of more rounds has been at one twice. -/
@[irreducible] def regSteps : ℕ := 2 ^ 32

def parseRegLoop (b : FdtBlob) (data len addrCells sizeCells max : ℕ) : ℕ → ℕ → List DtbRange → DtbM (List DtbRange)
  | 0, _, _ => .error .noReturn
  | steps + 1, off, out => do
    let tupleBytes := 4 * (addrCells + sizeCells)
    if (off + tupleBytes) % 2 ^ 32 ≤ len then
      let addr ← readCells b addrCells (data + off) 0
      let size ← readCells b sizeCells (data + off + 4 * addrCells) 0
      parseRegLoop b data len addrCells sizeCells max steps ((off + tupleBytes) % 2 ^ 32)
        (appendRange max out ⟨addr, size⟩)
    else return out

def parseRegAll (b : FdtBlob) (data len addrCells sizeCells max : ℕ) (out : List DtbRange) :
    DtbM (List DtbRange) :=
  if len = 0 then .ok out
  else if addrCells = 0 ∨ sizeCells = 0 then .ok out
  else if 2 < addrCells ∨ 2 < sizeCells then .ok out
  else parseRegLoop b data len addrCells sizeCells max regSteps 0 out

/-! ### The walk over the structure block -/

/-- The fields of `node_ctx_t` that the collectors use. -/
structure NodeCtx where
  addrCells : ℕ
  sizeCells : ℕ
  parentAddrCells : ℕ
  parentSizeCells : ℕ
  isMemory : Bool
  deriving DecidableEq

/-- The local variables of a collector. The stack holds the entries up to `depth`, the last one in
front. -/
structure WalkState where
  depth : ℤ
  stack : List NodeCtx
  inReserved : Bool
  reservedDepth : ℤ
  deriving DecidableEq

def WalkState.initial : WalkState := ⟨-1, [], false, -1⟩

/-- Where the two collectors differ: when a node is opened and closed, and whether the `reg`
property of a node is wanted. -/
structure Collector where
  max : ℕ
  opens : Bytes → WalkState → WalkState
  closes : WalkState → WalkState
  wants : NodeCtx → WalkState → Bool

namespace WalkState

/-- A node that has been opened: it inherits the cell counts of its parent, 2 and 2 at the root. -/
def opened (c : Collector) (name : Bytes) (s : WalkState) : WalkState :=
  let addr := (s.stack.head?.map NodeCtx.addrCells).getD 2
  let size := (s.stack.head?.map NodeCtx.sizeCells).getD 2
  c.opens name { s with depth := s.depth + 1, stack := ⟨addr, size, addr, size, false⟩ :: s.stack }

def closed (c : Collector) (s : WalkState) : WalkState :=
  let s := c.closes s
  { s with depth := s.depth - 1, stack := s.stack.tail }

end WalkState

def maxDepth : ℤ := 64

/-- `FDT_BEGIN_NODE`; `none` when the collector gives up because the tree is too deep. -/
def openNode (c : Collector) (name : Bytes) (s : WalkState) : DtbM (Option WalkState) :=
  if maxDepth ≤ s.depth + 1 then .ok none
  else if s.depth + 1 < 0 then .error .stackIndex
  else .ok (some (s.opened c name))

def closeNode (c : Collector) (s : WalkState) : DtbM WalkState :=
  if s.depth ≤ -2 ^ 31 then .error .depthRange else .ok (s.closed c)

inductive PropKind where
  | addressCells
  | sizeCells
  | reg
  | other
  deriving DecidableEq

/-- **Property names are told apart by their first bytes**: `#a`, `#s` and `reg`. -/
def propKind (b : FdtBlob) (name : ℕ) : DtbM PropKind := do
  let c ← b.byte name
  if c = 0x23 then
    let c ← b.byte (name + 1)
    if c = 0x61 then return .addressCells
    else if c = 0x73 then return .sizeCells
    else return .other
  else if c = 0x72 then
    let c ← b.byte (name + 1)
    if c = 0x65 then
      let c ← b.byte (name + 2)
      if c = 0x67 then return .reg else return .other
    else return .other
  else return .other

/-- The header fields that the collectors use. -/
structure FdtBlocks where
  rsvmap : ℕ
  struct : ℕ
  strings : ℕ
  stringsSize : ℕ

/-- `FDT_PROP`, with the array of ranges. -/
def property (b : FdtBlob) (blocks : FdtBlocks) (c : Collector) (len nameoff data : ℕ)
    (s : WalkState) (out : List DtbRange) : DtbM (WalkState × List DtbRange) :=
  if s.depth < 0 then .ok (s, out)
  else if blocks.stringsSize ≤ nameoff then .error .nameOffset
  else do
    let kind ← propKind b (blocks.strings + nameoff)
    match s.stack with
    | [] => return (s, out)
    | ctx :: rest =>
      match kind with
      | .addressCells =>
        if 4 ≤ len then
          let cells ← b.be32 data
          return ({ s with stack := { ctx with addrCells := cells } :: rest }, out)
        else return (s, out)
      | .sizeCells =>
        if 4 ≤ len then
          let cells ← b.be32 data
          return ({ s with stack := { ctx with sizeCells := cells } :: rest }, out)
        else return (s, out)
      | .reg =>
        if c.wants ctx s then
          let out ← parseRegAll b data len ctx.parentAddrCells ctx.parentSizeCells c.max out
          return (s, out)
        else return (s, out)
      | .other => return (s, out)

/-- The loop of `collect_memory_ranges` and `collect_reserved_memory_ranges`. Every round reads four
bytes further on, so that the first argument may be anything above the length of the blob. -/
def collectLoop (b : FdtBlob) (blocks : FdtBlocks) (c : Collector) :
    ℕ → ℕ → WalkState → List DtbRange → DtbM (List DtbRange)
  | 0, _, _, _ => .error .noReturn
  | steps + 1, p, s, out => do
    let (token, p) ← fdtToken b p
    match token with
    | .stop => return out
    | .nop => collectLoop b blocks c steps p s out
    | .beginNode name =>
      match ← openNode c name s with
      | none => return out
      | some s => collectLoop b blocks c steps p s out
    | .endNode =>
      let s ← closeNode c s
      collectLoop b blocks c steps p s out
    | .prop len nameoff data =>
      let (s, out) ← property b blocks c len nameoff data s out
      collectLoop b blocks c steps p s out

def ascii (text : String) : Bytes := text.toList.map fun ch ↦ UInt8.ofNat ch.toNat

def isMemoryName (name : Bytes) : Bool := name = ascii "memory" || ascii "memory@" <+: name

def memoryCollector : Collector where
  max := 16
  opens name s :=
    match s.stack with
    | [] => s
    | ctx :: rest => { s with stack := { ctx with isMemory := isMemoryName name } :: rest }
  closes s := s
  wants ctx _ := ctx.isMemory

def reservedCollector : Collector where
  max := 64
  opens name s := if !s.inReserved ∧ name = ascii "reserved-memory" then
      { s with inReserved := true, reservedDepth := s.depth }
    else s
  closes s := if s.inReserved ∧ s.depth = s.reservedDepth then
      { s with inReserved := false, reservedDepth := -1 }
    else s
  wants _ s := s.inReserved && 0 ≤ s.reservedDepth && s.reservedDepth < s.depth

/-- A collector over the whole structure block, appending to `out`. -/
def collectStruct (b : FdtBlob) (blocks : FdtBlocks) (c : Collector) (out : List DtbRange) :
    DtbM (List DtbRange) := collectLoop b blocks c (b.bytes.length + 1) blocks.struct .initial out

/-- `collect_memreserve_ranges`, with the number of rounds that are left. -/
def collectMemreserve (b : FdtBlob) : ℕ → ℕ → List DtbRange → DtbM (List DtbRange)
  | 0, _, out => .ok out
  | rounds + 1, p, out => do
    let addr ← b.be64 p
    let size ← b.be64 (p + 8)
    if addr = 0 ∧ size = 0 then return out
    else collectMemreserve b rounds (p + 16) (appendRange reservedCollector.max out ⟨addr, size⟩)

def maxMemreserve : ℕ := 128

/-! ### `dtb_init` -/

/-- What a parsed tree leaves: `g_fdt_totalsize`, `g_mem_ranges` and `g_rsv_ranges`. -/
structure DtbState where
  totalsize : ℕ
  memory : List DtbRange
  reserved : List DtbRange
  deriving DecidableEq

def ensureParsed (b : FdtBlob) (totalsize : ℕ) (blocks : FdtBlocks) : DtbM DtbState := do
  let reserved ← collectMemreserve b maxMemreserve blocks.rsvmap []
  let reserved ← collectStruct b blocks reservedCollector reserved
  let memory ← collectStruct b blocks memoryCollector []
  return { totalsize, memory, reserved }

/-- The checks of `dtb_init`, whose sums are 32-bit numbers; `none` where it returns false. -/
def fdtHeader (b : FdtBlob) (fdtSize : ℕ) : DtbM (Option (ℕ × FdtBlocks)) := do
  let magic ← b.be32 0
  if magic ≠ 0xD00DFEED then return none
  else
    let totalsize ← b.be32 4
    if totalsize = 0 then return none
    else if fdtSize ≠ 0 ∧ fdtSize % 2 ^ 32 < totalsize then return none
    else
      let offStruct ← b.be32 8
      let offStrings ← b.be32 12
      let offRsvmap ← b.be32 16
      let sizeStruct ← b.be32 36
      let sizeStrings ← b.be32 32
      if totalsize ≤ offStruct ∨ totalsize ≤ offStrings ∨ totalsize ≤ offRsvmap then return none
      else if sizeStruct = 0 ∨ sizeStrings = 0 then return none
      else if totalsize < (offStruct + sizeStruct) % 2 ^ 32 then return none
      else if totalsize < (offStrings + sizeStrings) % 2 ^ 32 then return none
      else return some (totalsize, ⟨offRsvmap, offStruct, offStrings, sizeStrings⟩)

/-- `dtb_init`; `none` where it returns false. -/
def dtbInit (b : FdtBlob) (fdtSize : ℕ) : DtbM (Option DtbState) := do
  match ← fdtHeader b fdtSize with
  | none => return none
  | some (totalsize, blocks) =>
    let st ← ensureParsed b totalsize blocks
    return some st

/-- The globals of the parser before `dtb_init`, and after it has returned false. -/
def DtbState.empty : DtbState := ⟨0, [], []⟩

/-- `dtb_get_memory_ranges`, with an array of `cap` entries. -/
def dtbGetMemoryRanges (st : DtbState) (cap : ℕ) : Bool × List DtbRange :=
  (st.memory ≠ [], st.memory.take cap)

/-- `dtb_get_reserved_ranges`, with an array of `cap` entries. -/
def dtbGetReservedRanges (st : DtbState) (cap : ℕ) : Bool × List DtbRange :=
  (true, st.reserved.take cap)

end CapazOS
