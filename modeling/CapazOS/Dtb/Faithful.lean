import CapazOS.Dtb.Tree

/-!
# What `dtb_init` finds in an encoded tree

The walk over the items of a tree, with its stack of nodes, computes the recursion on the tree
(`Tracks.node`), up to the first node that is too deep. `FdtBlob.Encodes.dtbInit` is the result for
every encoded tree: **the tuples of the properties whose names start with the letters looked at**,
without those of size zero, as many as the arrays hold. `dtb_faithful_iff` compares that with what
the tree declares.
-/

namespace CapazOS

open List

variable {b : FdtBlob} {reservations : List DtbRange} {M : Type} {want : M → Bytes → Bool}
  {enter : M → Bytes → M} {root : FdtNode} {L : FdtLayout}

/-! ### Walks and trees -/

namespace WalkState

/-- The cell counts that a node opened now inherits. -/
def cells (s : WalkState) : ℕ × ℕ :=
  ((s.stack.head?.map NodeCtx.addrCells).getD 2, (s.stack.head?.map NodeCtx.sizeCells).getD 2)

def setCells (s : WalkState) (cells : ℕ × ℕ) : WalkState :=
  { s with stack := s.stack.modifyHead fun ctx ↦ { ctx with addrCells := cells.1, sizeCells := cells.2 } }

theorem cells_setCells {s : WalkState} (h : s.stack ≠ []) (cells : ℕ × ℕ) : (s.setCells cells).cells = cells := by
  rw [CapazOS.WalkState.cells, setCells]
  cases hstack : s.stack with
  | nil => exact absurd hstack h
  | cons ctx rest => rfl

end WalkState

/-- **What a collector keeps beside the stack.** `R m s` says that the state `s` stands for what the
nodes around it are, as `m`. -/
structure Tracks {M : Type} (c : Collector) (want : M → Bytes → Bool) (enter : M → Bytes → M)
    (R : M → WalkState → Prop) : Prop where
  opened {m s} (h : R m s) (name : Bytes) : ∃ isMemory, (s.opened c name).depth = s.depth + 1 ∧
    (s.opened c name).stack = ⟨s.cells.1, s.cells.2, s.cells.1, s.cells.2, isMemory⟩ :: s.stack ∧
    ∀ cells : ℕ × ℕ, c.wants ⟨cells.1, cells.2, s.cells.1, s.cells.2, isMemory⟩
      ((s.opened c name).setCells cells) = want m name
  enters {m s} (h : R m s) (name : Bytes) (cells : ℕ × ℕ) : R (enter m name) ((s.opened c name).setCells cells)
  closed {m s} (h : R m s) (name : Bytes) (cells : ℕ × ℕ) : ((s.opened c name).setCells cells).closed c = s

theorem tracks_memory : Tracks memoryCollector (fun (_ : Unit) name ↦ isMemoryName name) (fun m _ ↦ m)
    fun _ _ ↦ True where
  opened _ name := ⟨isMemoryName name, rfl, rfl, fun _ ↦ rfl⟩
  enters _ _ _ := trivial
  closed {_ s} _ name cells := by simp [WalkState.closed, WalkState.setCells, WalkState.opened, memoryCollector]

/-- The state of the collector of reserved memory: whether it is below `/reserved-memory`. -/
def ReservedState (inside : Bool) (s : WalkState) : Prop :=
  s.inReserved = inside ∧ if inside then 0 ≤ s.reservedDepth ∧ s.reservedDepth ≤ s.depth
    else s.reservedDepth = -1 ∧ -1 ≤ s.depth

theorem opened_reserved (s : WalkState) (name : Bytes) : s.opened reservedCollector name =
      { depth := s.depth + 1
        stack := ⟨s.cells.1, s.cells.2, s.cells.1, s.cells.2, false⟩ :: s.stack
        inReserved := s.inReserved || name = ascii "reserved-memory"
        reservedDepth := if !s.inReserved ∧ name = ascii "reserved-memory" then s.depth + 1 else s.reservedDepth } := by
  rw [WalkState.opened, WalkState.cells]
  simp only [reservedCollector]
  split_ifs with h
  · simp [h.2]
  · by_cases hname : name = ascii "reserved-memory"
    · simp_all
    · simp [hname]

theorem tracks_reserved : Tracks reservedCollector (fun inside _ ↦ inside)
    (fun inside name ↦ inside || name = ascii "reserved-memory") ReservedState where
  opened {m s} h name := by
    refine ⟨false, by rw [opened_reserved], by rw [opened_reserved], fun cells ↦ ?_⟩
    obtain ⟨hin, hdepth⟩ := h
    rw [opened_reserved]
    simp only [WalkState.setCells, reservedCollector, hin]
    cases m with
    | true =>
      simp only [if_true] at hdepth
      simp
      omega
    | false =>
      -- the depth of `/reserved-memory` itself is not below it
      by_cases hname : name = ascii "reserved-memory" <;> simp [hname]
  enters {m s} h name cells := by
    obtain ⟨hin, hdepth⟩ := h
    rw [opened_reserved]
    refine ⟨by simp only [WalkState.setCells, hin], ?_⟩
    simp only [WalkState.setCells, hin]
    cases m with
    | true =>
      simp only [if_true] at hdepth
      simp
      omega
    | false =>
      simp only [Bool.false_eq_true, if_false] at hdepth
      by_cases hname : name = ascii "reserved-memory" <;> simp [hname] <;> omega
  closed {m s} h name cells := by
    obtain ⟨hin, hdepth⟩ := h
    rw [opened_reserved]
    obtain ⟨depth, stack, inReserved, reservedDepth⟩ := s
    obtain rfl : inReserved = m := hin
    cases inReserved with
    | true =>
      simp only [if_true] at hdepth
      have hne : depth + 1 ≠ reservedDepth := by omega
      simp [WalkState.closed, WalkState.setCells, reservedCollector, hne]
    | false =>
      simp only [Bool.false_eq_true, if_false] at hdepth
      by_cases hname : name = ascii "reserved-memory" <;>
        simp [WalkState.closed, WalkState.setCells, reservedCollector, hname, hdepth.1]

section Tree

variable {c : Collector} {R : M → WalkState → Prop} {m : M} {s : WalkState}

section

variable (ht : Tracks c want enter R) (h : R m s) (hdepth : -1 ≤ s.depth) (name : Bytes) (cells : ℕ × ℕ)
include ht h hdepth name cells

theorem Tracks.prop (p : FdtProp) : ItemsRun c [.prop p] ((s.opened c name).setCells cells)
      ((s.opened c name).setCells (cellsAfter looseKind cells p))
      (if want m name then regOf looseKind s.cells p else []) := by
  obtain ⟨isMemory, hopen, hstack, hwants⟩ := ht.opened h name
  have hfits : (FdtItem.prop p).Fits ((s.opened c name).setCells cells) := by
    show 0 ≤ (s.opened c name).depth
    omega
  have hrun := ItemsRun.singleton (c := c) hfits
  have hstack' : ((s.opened c name).setCells cells).stack =
      ⟨cells.1, cells.2, s.cells.1, s.cells.2, isMemory⟩ :: s.stack := by
    rw [WalkState.setCells, hstack]
    rfl
  have hnext : (FdtItem.prop p).next c ((s.opened c name).setCells cells) =
      (s.opened c name).setCells (cellsAfter looseKind cells p) := by
    rw [FdtItem.next, WalkState.afterProp, hstack', cellsAfter]
    cases looseKind p.name <;> simp only <;> split_ifs <;> simp [WalkState.setCells, hstack]
  have hranges : (FdtItem.prop p).ranges c ((s.opened c name).setCells cells) =
      if want m name then regOf looseKind s.cells p else [] := by
    rw [FdtItem.ranges, propRanges, hstack', regOf]
    simp only [hwants]
    by_cases hreg : looseKind p.name = .reg <;> by_cases hw : want m name = true <;> simp [hreg, hw]
  rwa [hnext, hranges] at hrun

theorem Tracks.props (props : List FdtProp) : ItemsRun c (props.map .prop) ((s.opened c name).setCells cells)
      ((s.opened c name).setCells (nodeCells looseKind cells props))
      (if want m name then props.flatMap (regOf looseKind s.cells) else []) := by
  induction props generalizing cells with
  | nil =>
    rw [flatMap_nil, ite_self]
    exact .nil
  | cons p props ih =>
    have hrun := (ht.prop h hdepth name cells p).append (ih (cellsAfter looseKind cells p))
    by_cases hw : want m name = true
    · simp only [hw, if_true] at hrun ⊢
      exact hrun
    · simp only [hw] at hrun ⊢
      exact hrun

end

/-- A walk over the items of some trees: it comes back to where it was, or gives up. -/
def Walks (c : Collector) (items : List FdtItem) (s : WalkState) (r : List DtbRange × Bool) : Prop :=
  if r.2 then ItemsRun c items s s r.1 else ItemsStop c items s r.1

mutual

/-- **The walk over a tree** comes back to where it was, with the tuples of the tree, or gives up at
the first node that is too deep. -/
theorem Tracks.node (ht : Tracks c want enter R) {m : M} {s : WalkState} (h : R m s)
    (hlo : -1 ≤ s.depth) : ∀ (levels : ℕ) (n : FdtNode), s.depth + 1 + levels = maxDepth →
      Walks c n.items s (shallowTuples looseKind want enter m s.cells levels n)
  | 0, .node name props children, hlevels => by
    rw [shallowTuples]
    exact ⟨[], name, _, s, rfl, .nil, by omega⟩
  | levels + 1, .node name props children, hlevels => by
    obtain ⟨isMemory, hopen, hstack, -⟩ := ht.opened h name
    let t := (s.opened c name).setCells (nodeCells looseKind s.cells props)
    have hdepth : t.depth = s.depth + 1 := hopen
    have hcells : t.cells = nodeCells looseKind s.cells props :=
      WalkState.cells_setCells (by rw [hstack]; exact cons_ne_nil _ _) _
    have hbegin : ItemsRun c [.beginNode name] s ((s.opened c name).setCells s.cells) [] := by
      have hsame : (s.opened c name).setCells s.cells = s.opened c name := by
        simp only [WalkState.setCells, hstack, modifyHead_cons]
        rw [← hstack]
      rw [hsame]
      exact .singleton (show 0 ≤ s.depth + 1 ∧ s.depth + 1 < maxDepth from ⟨by omega, by omega⟩)
    have hend : ItemsRun c [.endNode] t s [] := by
      have hrun := @ItemsRun.singleton c t .endNode (show 0 ≤ t.depth by omega)
      rwa [show FdtItem.next c t .endNode = s from ht.closed h name _] at hrun
    have hprops := ht.props h hlo name s.cells props
    have hchildren : Walks c (FdtNode.itemsAll children) t (shallowTuplesAll looseKind want enter
        (enter m name) t.cells levels children) :=
      Tracks.nodes ht (ht.enters h name _) (show -1 ≤ t.depth by omega) levels children
        (show t.depth + 1 + levels = maxDepth by omega)
    rw [shallowTuples, ← hcells]
    generalize shallowTuplesAll looseKind want enter (enter m name) t.cells levels children = r at hchildren ⊢
    rcases r with ⟨l, - | -⟩
    · have hstop : ItemsStop c (FdtNode.itemsAll children) t l := hchildren
      exact (hbegin.append hprops).stop (hstop.append_right [.endNode])
    · have hrun : ItemsRun c (FdtNode.itemsAll children) t t l := hchildren
      have hall := hbegin.append (hprops.append (hrun.append hend))
      rwa [append_nil] at hall

theorem Tracks.nodes (ht : Tracks c want enter R) {m : M} {s : WalkState} (h : R m s)
    (hlo : -1 ≤ s.depth) : ∀ (levels : ℕ) (ns : List FdtNode), s.depth + 1 + levels = maxDepth →
      Walks c (FdtNode.itemsAll ns) s (shallowTuplesAll looseKind want enter m s.cells levels ns)
  | _, [], _ => by
    rw [shallowTuplesAll]
    exact ItemsRun.nil
  | levels, n :: ns, hlevels => by
    have hfirst := Tracks.node ht h hlo levels n hlevels
    have hrest := Tracks.nodes ht h hlo levels ns hlevels
    rw [shallowTuplesAll, FdtNode.itemsAll]
    generalize shallowTuples looseKind want enter m s.cells levels n = r at hfirst ⊢
    generalize shallowTuplesAll looseKind want enter m s.cells levels ns = r' at hrest ⊢
    rcases r with ⟨l, - | -⟩
    · have hstop : ItemsStop c n.items s l := hfirst
      exact hstop.append_right _
    · have hrun : ItemsRun c n.items s s l := hfirst
      rcases r' with ⟨l', - | -⟩
      · exact hrun.stop (show ItemsStop c (FdtNode.itemsAll ns) s l' from hrest)
      · exact hrun.append (show ItemsRun c (FdtNode.itemsAll ns) s s l' from hrest)

end

end Tree

/-! ### Arrays of ranges -/

/-- **Ranges appended one by one**: those of nonzero size, as many as fit. -/
theorem foldl_appendRange {max : ℕ} (l : List DtbRange) {out : List DtbRange} (h : out.length ≤ max) :
    l.foldl (appendRange max) out = (out ++ nonemptyRanges l).take max := by
  induction l generalizing out with
  | nil =>
    rw [nonemptyRanges, filter_nil, append_nil, take_of_length_le h]
    rfl
  | cons r l ih =>
    rw [foldl_cons, appendRange, nonemptyRanges]
    by_cases hzero : r.size = 0
    · rw [if_pos hzero, ih h, filter_cons_of_neg (by simpa using hzero)]
      rfl
    rw [if_neg hzero, filter_cons_of_pos (by simpa using hzero)]
    by_cases hfull : max ≤ out.length
    · -- a full array stays as it is
      rw [if_pos hfull, ih h, take_append_of_le_length hfull, take_append_of_le_length hfull]
    · rw [if_neg hfull, ih (by rw [length_append, length_singleton]; omega), append_assoc]
      rfl

theorem nonemptyRanges_append (l l' : List DtbRange) :
    nonemptyRanges (l ++ l') = nonemptyRanges l ++ nonemptyRanges l' := filter_append l l'

/-! ### Encoded trees -/

theorem collectMemreserve_entries {rest : Bytes} {p : ℕ}
    (hentries : ∀ r ∈ reservations, r.base < 2 ^ 64 ∧ r.size < 2 ^ 64 ∧ ¬(r.base = 0 ∧ r.size = 0))
    (hat : b.bytes.drop p = reservations.flatMap rsvEntry ++ (rsvEntry ⟨0, 0⟩ ++ rest)) (rounds : ℕ)
    (out : List DtbRange) : collectMemreserve b rounds p out =
      .ok ((reservations.take rounds).foldl (appendRange reservedCollector.max) out) := by
  -- an entry is read as it stands
  have hentry : ∀ {r : DtbRange} {p : ℕ} {rest : Bytes}, r.base < 2 ^ 64 → r.size < 2 ^ 64 →
      b.bytes.drop p = rsvEntry r ++ rest → b.be64 p = .ok r.base ∧ b.be64 (p + 8) = .ok r.size := by
    intro r p rest hbase hsize hat
    rw [rsvEntry, append_assoc] at hat
    have hat' := drop_add_of_drop hat
    rw [length_beBytes] at hat'
    exact ⟨FdtBlob.be64_of_drop hbase hat, FdtBlob.be64_of_drop hsize hat'⟩
  induction rounds generalizing reservations p out with
  | zero => rfl
  | succ rounds ih =>
    cases reservations with
    | nil =>
      obtain ⟨hbase, hsize⟩ := hentry (r := ⟨0, 0⟩) (by decide) (by decide) hat
      rw [collectMemreserve, hbase, DtbM.ok_bind, hsize, DtbM.ok_bind, if_pos ⟨rfl, rfl⟩]
      rfl
    | cons r reservations =>
      rw [forall_mem_cons] at hentries
      obtain ⟨⟨hbase64, hsize64, hzero⟩, hentries⟩ := hentries
      rw [flatMap_cons, append_assoc] at hat
      obtain ⟨hbase, hsize⟩ := hentry hbase64 hsize64 hat
      have hnext := drop_add_of_drop hat
      rw [rsvEntry, length_append, length_beBytes, length_beBytes] at hnext
      rw [collectMemreserve, hbase, DtbM.ok_bind, hsize, DtbM.ok_bind, if_neg hzero,
        ih hentries hnext, take_succ_cons, foldl_cons]

/-- `dtb_init` rejects the header: the size it is given is too small, or the strings block is
empty. -/
def FdtLayout.Rejected (L : FdtLayout) (fdtSize : ℕ) : Prop :=
  (fdtSize ≠ 0 ∧ fdtSize % 2 ^ 32 < L.totalsize) ∨ L.sizeStrings = 0

instance (L : FdtLayout) (fdtSize : ℕ) : Decidable (L.Rejected fdtSize) :=
  inferInstanceAs (Decidable (_ ∨ _))

namespace FdtBlob.Encodes

variable (h : b.Encodes L reservations root)

include h

/-- **A collector over an encoded tree** finds the tuples of the tree in front of the first node
that is too deep. -/
theorem collectStruct {c : Collector} {R : M → WalkState → Prop} (ht : Tracks c want enter R) {m : M}
    (hinit : R m .initial) (out : List DtbRange) : CapazOS.collectStruct b L.blocks c out =
      .ok ((shallowTuples looseKind want enter m (2, 2) 64 root).1.foldl (appendRange c.max) out) := by
  obtain ⟨items, bs, hitems, henc, hslice⟩ := h.struct
  have hwalk := ht.node hinit le_rfl 64 root rfl
  rw [← hitems, Walks, show WalkState.initial.cells = (2, 2) from rfl] at hwalk
  obtain ⟨rest, hat⟩ : ∃ rest, b.bytes.drop L.offStruct = bs ++ (beBytes 4 9 ++ rest) :=
    ⟨(b.bytes.drop L.offStruct).drop L.sizeStruct, by rw [← append_assoc, ← hslice, slice, take_append_drop]⟩
  have hlen := congrArg List.length hslice
  have hle := h.totalsize_le
  have hlt := h.totalsize_lt
  have hstruct := h.struct_le
  rw [length_slice (by omega), length_append, length_beBytes] at hlen
  have hcount := henc.length_le
  rw [CapazOS.collectStruct, show L.blocks.struct = L.offStruct from rfl]
  split_ifs at hwalk
  · -- behind the root comes the end of the block
    obtain ⟨steps, hsteps⟩ : ∃ steps, b.bytes.length + 1 = items.length + (steps + 1) :=
      ⟨b.bytes.length - items.length, by omega⟩
    have hloop := @collectLoop_items _ c b L.blocks _ _ bs L.offStruct (steps + 1) items _ henc hat
      h.aligned h.struct_ge (by omega) hwalk.of_filter out
    rw [hsteps, hloop, collectLoop_succ, fdtToken_empty (by decide) (drop_add_of_drop hat) (by decide)]
    rfl
  · exact @collectLoop_stop _ c b L.blocks _ bs L.offStruct _ items _ henc hat h.aligned h.struct_ge
      (by omega) hwalk.of_filter (by omega) out

theorem fdtHeader (fdtSize : ℕ) : CapazOS.fdtHeader b fdtSize =
    .ok (if L.Rejected fdtSize then none else some (L.totalsize, L.blocks)) := by
  obtain ⟨items, bs, -, -, hslice⟩ := h.struct
  have hle := h.totalsize_le
  have hge := h.struct_ge
  have hstruct := h.struct_le
  have hstrings := h.strings_le
  have hrsvmap := h.rsvmap_lt
  have hlen := congrArg List.length hslice
  rw [length_slice (by omega), length_append, length_beBytes] at hlen
  have hword : ∀ p, p + 4 ≤ 40 → b.be32 p = .ok (readBE 4 b.bytes p) := fun p hp ↦ FdtBlob.be32_eq_ok.2 ⟨by omega, rfl⟩
  obtain ⟨hmagic, htotal, hoffStruct, hoffStrings, hoffRsvmap, hsizeStrings, hsizeStruct⟩ := h.header
  rw [CapazOS.fdtHeader, hword 0 (by omega), hword 4 (by omega), hword 8 (by omega),
    hword 12 (by omega), hword 16 (by omega), hword 36 (by omega), hword 32 (by omega), hmagic, htotal,
    hoffStruct, hoffStrings, hoffRsvmap, hsizeStrings, hsizeStruct]
  simp only [DtbM.ok_bind]
  rw [if_neg (by decide), if_neg (by omega)]
  by_cases hsize : fdtSize ≠ 0 ∧ fdtSize % 2 ^ 32 < L.totalsize
  · rw [if_pos hsize, if_pos (show L.Rejected fdtSize from .inl hsize)]
    rfl
  rw [if_neg hsize]
  by_cases hempty : L.sizeStrings = 0
  · rw [if_pos (show L.Rejected fdtSize from .inr hempty)]
    split_ifs <;> first | rfl | omega
  · rw [if_neg (show ¬L.Rejected fdtSize from not_or.2 ⟨hsize, hempty⟩), if_neg (by omega),
      if_neg (by omega), if_neg (by omega), if_neg (by omega)]
    rfl

/-- **What `dtb_init` leaves** for an encoded tree. -/
theorem dtbInit (fdtSize : ℕ) : CapazOS.dtbInit b fdtSize = .ok (if L.Rejected fdtSize then none else some
      { totalsize := L.totalsize
        memory := (nonemptyRanges (memoryFound looseKind root)).take 16
        reserved := (nonemptyRanges (reservations.take maxMemreserve ++ reservedFound looseKind root)).take 64 }) := by
  rw [CapazOS.dtbInit, h.fdtHeader, DtbM.ok_bind]
  by_cases hrejected : L.Rejected fdtSize
  · rw [if_pos hrejected, if_pos hrejected]
    rfl
  rw [if_neg hrejected, if_neg hrejected]
  obtain ⟨rest, hat⟩ := h.rsvmap
  rw [append_assoc] at hat
  have hmap := collectMemreserve_entries h.entries hat.symm maxMemreserve []
  have hreserved := h.collectStruct tracks_reserved (show ReservedState false .initial from
    ⟨rfl, rfl, le_rfl⟩)
  have hmemory := h.collectStruct tracks_memory (m := ()) trivial []
  simp only [ensureParsed]
  rw [show L.blocks.rsvmap = L.offRsvmap from rfl, hmap, DtbM.ok_bind, hreserved, DtbM.ok_bind, hmemory,
    ← foldl_append, foldl_appendRange _ (Nat.zero_le _), foldl_appendRange _ (Nat.zero_le _)]
  rfl

end FdtBlob.Encodes

/-! ### Faithful discovery -/

section Names

variable {kind kind' : Bytes → PropKind}

mutual

theorem treeTuples_congr (m : M) (cells : ℕ × ℕ) : ∀ n : FdtNode,
    (∀ p, .prop p ∈ n.items → kind p.name = kind' p.name) →
      treeTuples kind want enter m cells n = treeTuples kind' want enter m cells n
  | .node name props children, h => by
    have hprops : ∀ p ∈ props, kind p.name = kind' p.name := fun p hp ↦ h p (by
      rw [FdtNode.items]
      exact mem_cons_of_mem _ (mem_append_left _ (mem_map_of_mem hp)))
    have hcells : ∀ {props : List FdtProp} {cells : ℕ × ℕ}, (∀ p ∈ props, kind p.name = kind' p.name) →
        nodeCells kind cells props = nodeCells kind' cells props := fun hprops ↦
      foldl_ext _ _ _ fun cells p hp ↦ by rw [cellsAfter, cellsAfter, hprops p hp]
    have hreg : props.flatMap (regOf kind cells) = props.flatMap (regOf kind' cells) :=
      flatMap_congr fun p hp ↦ by rw [regOf, regOf, hprops p hp]
    rw [treeTuples, treeTuples, hcells hprops, hreg, treeTuplesAll_congr (enter m name) _ children fun p hp ↦ h p (by
        rw [FdtNode.items]
        exact mem_cons_of_mem _ (mem_append_right _ (mem_append_left _ hp)))]

theorem treeTuplesAll_congr (m : M) (cells : ℕ × ℕ) : ∀ ns : List FdtNode,
    (∀ p, .prop p ∈ FdtNode.itemsAll ns → kind p.name = kind' p.name) →
      treeTuplesAll kind want enter m cells ns = treeTuplesAll kind' want enter m cells ns
  | [], _ => rfl
  | n :: ns, h => by
    rw [FdtNode.itemsAll] at h
    rw [treeTuplesAll, treeTuplesAll, treeTuples_congr m cells n fun p hp ↦ h p (mem_append_left _ hp),
      treeTuplesAll_congr m cells ns fun p hp ↦ h p (mem_append_right _ hp)]

end

mutual

theorem treeTuples_other (m : M) (cells : ℕ × ℕ) : ∀ n : FdtNode, treeTuples (fun _ ↦ .other) want enter m cells n = []
  | .node name props children => by
    have hreg : props.flatMap (regOf (fun _ ↦ .other) cells) = [] :=
      flatMap_eq_nil_iff.2 fun p _ ↦ by rw [regOf, if_neg (by decide)]
    rw [treeTuples, hreg, ite_self, treeTuplesAll_other, append_nil]

theorem treeTuplesAll_other (m : M) (cells : ℕ × ℕ) : ∀ ns : List FdtNode,
    treeTuplesAll (fun _ ↦ .other) want enter m cells ns = []
  | [] => rfl
  | n :: ns => by rw [treeTuplesAll, treeTuples_other, treeTuplesAll_other, append_nil]

end

end Names

theorem tuples_congr {kind kind' : Bytes → PropKind} (h : ∀ p, .prop p ∈ root.items → kind p.name = kind' p.name) :
    memoryTuples kind root = memoryTuples kind' root ∧ reservedTuples kind root = reservedTuples kind' root :=
  ⟨treeTuples_congr _ _ root h, treeTuples_congr _ _ root h⟩

def declaredMemory (root : FdtNode) : List DtbRange := nonemptyRanges (memoryTuples strictKind root)

/-- The reserved ranges that a tree and a reservation map declare. -/
def declaredReserved (reservations : List DtbRange) (root : FdtNode) : List DtbRange :=
  reservations ++ reservedTuples strictKind root

/-- **The first letters of names suffice.** The properties whose names start like `#address-cells`,
`#size-cells` and `reg` declare the same tuples as those with just these names; no reservation is of
size zero; and the strings block is not empty, unless there is nothing to find. -/
structure FirstLettersSuffice (L : FdtLayout) (reservations : List DtbRange) (root : FdtNode) : Prop where
  strings : L.sizeStrings = 0 → reservations = []
  entries : ∀ r ∈ reservations, r.size ≠ 0
  memory : (nonemptyRanges (memoryTuples looseKind root)).take 16 = declaredMemory root
  reserved : (nonemptyRanges (reservedTuples looseKind root)).take (64 - reservations.length) =
    reservedTuples strictKind root

theorem nonemptyRanges_eq_self {l : List DtbRange} (h : ∀ r ∈ l, r.size ≠ 0) : nonemptyRanges l = l :=
  filter_eq_self.2 fun r hr ↦ decide_eq_true (h r hr)

theorem take_reserved_iff {loose strict : List DtbRange} (h : reservations.length ≤ 64) :
    (nonemptyRanges (reservations ++ loose)).take 64 = reservations ++ strict ↔ (∀ r ∈ reservations, r.size ≠ 0) ∧
        (nonemptyRanges loose).take (64 - reservations.length) = strict := by
  have htake : (∀ r ∈ reservations, r.size ≠ 0) → (nonemptyRanges (reservations ++ loose)).take 64 =
      reservations ++ (nonemptyRanges loose).take (64 - reservations.length) := fun hne ↦ by
    rw [nonemptyRanges_append, nonemptyRanges_eq_self hne, take_append, take_of_length_le h]
  constructor
  · intro heq
    have hne : ∀ r ∈ reservations, r.size ≠ 0 := fun r hr ↦ by
      have hmem : r ∈ (nonemptyRanges (reservations ++ loose)).take 64 := heq ▸ mem_append_left _ hr
      exact of_decide_eq_true (mem_filter.1 (mem_of_mem_take hmem)).2
    rw [htake hne] at heq
    exact ⟨hne, append_cancel_left heq⟩
  · rintro ⟨hne, rfl⟩
    exact htake hne

theorem FdtBlob.Encodes.not_mem_prop (h : b.Encodes L reservations root) (hempty : L.sizeStrings = 0)
    (p : FdtProp) : .prop p ∉ root.items := by
  obtain ⟨items, bs, hitems, henc, -⟩ := h.struct
  have hnone : slice b.bytes L.offStrings L.sizeStrings = [] := by rw [hempty, slice, take_zero]
  rw [hnone] at henc
  rw [← hitems]
  intro hmem
  replace hmem := (mem_filter.1 hmem).1
  clear hitems
  induction henc with
  | nil => cases hmem
  | cons hitem _ ih =>
    rcases mem_cons.1 hmem with rfl | hmem
    · cases hitem with
      | prop hname =>
        have hlen := hname.2.length_le
        simp at hlen
    · exact ih hmem

theorem FirstLettersSuffice.of_names (hstrings : L.sizeStrings ≠ 0)
    (hnames : ∀ p, .prop p ∈ root.items → looseKind p.name = strictKind p.name)
    (hne : ∀ r ∈ declaredReserved reservations root, r.size ≠ 0) (hmem : (declaredMemory root).length ≤ 16)
    (hrsv : (declaredReserved reservations root).length ≤ 64) : FirstLettersSuffice L reservations root where
  strings hempty := absurd hempty hstrings
  entries r hr := hne r (mem_append_left _ hr)
  memory := by
    rw [(tuples_congr hnames).1]
    exact take_of_length_le hmem
  reserved := by
    rw [declaredReserved, length_append] at hrsv
    rw [(tuples_congr hnames).2, nonemptyRanges_eq_self fun r hr ↦ hne r (mem_append_right _ hr)]
    exact take_of_length_le (by omega)

/-- **When the ranges of the parser are those of the tree.** -/
theorem dtb_faithful_iff {b : FdtBlob} {L : FdtLayout} {reservations : List DtbRange} {root : FdtNode}
    (h : b.Encodes L reservations root) (hlevels : root.levels ≤ 64) {fdtSize : ℕ}
    (hsize : fdtSize = 0 ∨ L.totalsize ≤ fdtSize % 2 ^ 32)
    (hrsv : (declaredReserved reservations root).length ≤ 64) {memCap rsvCap : ℕ} (hmemCap : 16 ≤ memCap)
    (hrsvCap : 64 ≤ rsvCap) :
    (∃ st, dtbInit b fdtSize = .ok st ∧ (dtbGetMemoryRanges (st.getD .empty) memCap).2 = declaredMemory root ∧
      (dtbGetReservedRanges (st.getD .empty) rsvCap).2 = declaredReserved reservations root) ↔
      FirstLettersSuffice L reservations root := by
  have hlen : reservations.length ≤ 64 := by
    rw [declaredReserved, length_append] at hrsv
    omega
  obtain ⟨hmemory, hfound⟩ := found_eq hlevels looseKind
  have hrejected : L.Rejected fdtSize ↔ L.sizeStrings = 0 := or_iff_right (by omega)
  rw [h.dtbInit, hmemory, hfound]
  simp only [hrejected]
  by_cases hempty : L.sizeStrings = 0
  · -- the header is rejected, and there is no property in the tree
    have hnil : ∀ (kind : Bytes → PropKind), memoryTuples kind root = [] ∧ reservedTuples kind root = [] :=
      fun kind ↦ by
        obtain ⟨hmemory, hreserved⟩ := @tuples_congr root kind (fun _ ↦ .other) fun p hp ↦
          absurd hp (h.not_mem_prop hempty p)
        exact ⟨hmemory.trans (treeTuples_other _ _ _), hreserved.trans (treeTuples_other _ _ _)⟩
    rw [if_pos hempty, declaredMemory, declaredReserved, (hnil _).1, (hnil _).2, append_nil]
    constructor
    · rintro ⟨st, hst, -, hreserved⟩
      obtain rfl : none = st := Except.ok.inj hst
      obtain rfl : [] = reservations := take_nil.symm.trans hreserved
      exact ⟨fun _ ↦ rfl, fun _ hr ↦ (nomatch hr), by rw [declaredMemory, (hnil _).1, (hnil _).1]; rfl,
        by rw [(hnil _).2, (hnil _).2]; rfl⟩
    · intro hsuff
      exact ⟨none, rfl, take_nil, take_nil.trans (hsuff.strings hempty).symm⟩
  · rw [if_neg hempty, take_of_length_le (hlen.trans (by decide))]
    have hreserved := @take_reserved_iff reservations (reservedTuples looseKind root)
      (reservedTuples strictKind root) hlen
    constructor
    · rintro ⟨st, hst, hmem, hres⟩
      obtain rfl := Except.ok.inj hst
      rw [Option.getD_some, dtbGetMemoryRanges, take_take, Nat.min_eq_right hmemCap] at hmem
      rw [Option.getD_some, dtbGetReservedRanges, take_take, Nat.min_eq_right hrsvCap] at hres
      obtain ⟨hentries, hres⟩ := hreserved.1 hres
      exact ⟨fun hzero ↦ absurd hzero hempty, hentries, hmem, hres⟩
    · intro hsuff
      refine ⟨_, rfl, ?_, ?_⟩
      · rw [Option.getD_some, dtbGetMemoryRanges, take_take, Nat.min_eq_right hmemCap]
        exact hsuff.memory
      · rw [Option.getD_some, dtbGetReservedRanges, take_take, Nat.min_eq_right hrsvCap]
        exact hreserved.2 ⟨hsuff.entries, hsuff.reserved⟩

/-- A tree whose memory node has one property, of sixteen bytes, called `name`. -/
def memoryTree (name : Bytes) : FdtNode :=
  .node [] [] [.node (ascii "memory") [⟨name, beBytes 8 0x40000000 ++ beBytes 8 0x8000000⟩] []]

def memoryLayout (name : Bytes) : FdtLayout where
  totalsize := 117 + name.length
  offStruct := 56
  offStrings := 116
  offRsvmap := 40
  sizeStruct := 60
  sizeStrings := name.length + 1

theorem memoryBlob_encodes {name : Bytes} (h : name = ascii "reg" ∨ name = ascii "regs") :
    (memoryBlob name).Encodes (memoryLayout name) [] (memoryTree name) := by
  have hname : 0 ∉ name := by rcases h with rfl | rfl <;> decide
  constructor
  case struct =>
    refine ⟨(memoryTree name).items, _, by rfl, .cons (.beginNode (by decide)) (.cons (.beginNode (by decide))
      (.cons (@FdtItem.Encodes.prop _ _ 0 ⟨hname, ?_⟩ (by decide) (by simp [length_beBytes]))
        (.cons .endNode (.cons .endNode .nil)))), ?_⟩
    · rcases h with rfl | rfl <;> decide +kernel
    · rcases h with rfl | rfl <;> decide +kernel
  all_goals rcases h with rfl | rfl <;> decide +kernel

theorem dtb_faithful_reg : ∃ st, dtbInit (memoryBlob (ascii "reg")) 120 = .ok st ∧
    (dtbGetMemoryRanges (st.getD .empty) 16).2 = declaredMemory (memoryTree (ascii "reg")) ∧
    (dtbGetReservedRanges (st.getD .empty) 64).2 = declaredReserved [] (memoryTree (ascii "reg")) := by
  refine (dtb_faithful_iff (memoryBlob_encodes (.inl rfl)) (by decide +kernel) (.inr (by decide))
    (by decide +kernel) le_rfl le_rfl).2 (.of_names (by decide) ?_ ?_ ?_ ?_)
  · intro p hp
    simp only [memoryTree, FdtNode.items, FdtNode.itemsAll, map_cons, map_nil, cons_append,
      nil_append, mem_cons, FdtItem.prop.injEq, reduceCtorEq, not_mem_nil, or_false,
      false_or] at hp
    subst hp
    decide +kernel
  all_goals decide +kernel

/-- **A property called `regs` is taken for `reg`.** -/
theorem dtb_unfaithful_regs :
    (memoryBlob (ascii "regs")).Encodes (memoryLayout (ascii "regs")) [] (memoryTree (ascii "regs")) ∧
    (memoryTree (ascii "regs")).levels ≤ 64 ∧ (declaredMemory (memoryTree (ascii "regs"))).length ≤ 16 ∧
    (declaredReserved [] (memoryTree (ascii "regs"))).length ≤ 64 ∧
    ¬∃ st, dtbInit (memoryBlob (ascii "regs")) 121 = .ok st ∧
      (dtbGetMemoryRanges (st.getD .empty) 16).2 = declaredMemory (memoryTree (ascii "regs")) ∧
      (dtbGetReservedRanges (st.getD .empty) 64).2 = declaredReserved [] (memoryTree (ascii "regs")) := by
  refine ⟨memoryBlob_encodes (.inr rfl), by decide +kernel, by decide +kernel, by decide +kernel, ?_⟩
  have hinit : dtbInit (memoryBlob (ascii "regs")) 121 =
      .ok (some ⟨121, [⟨0x40000000, 0x8000000⟩], []⟩) := by decide +kernel
  rintro ⟨st, hst, hmemory, -⟩
  rw [hinit] at hst
  obtain rfl := Except.ok.inj hst
  exact absurd hmemory (by decide +kernel)

end CapazOS
