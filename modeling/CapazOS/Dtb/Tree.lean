import CapazOS.Dtb.Bounds

/-!
# Device trees and their encoding

Device trees, the tuples they declare (`treeTuples`, by recursion on the tree, for any way to
recognise properties by their names), and the flattened encoding that `dtb_init` reads
(`FdtBlob.Encodes`): tokens on four bytes, names that end with a zero byte, padding, and `FDT_NOP`
between tokens. `FdtBlob.Encodes.loop` runs a collector through the bytes of some items.
-/

namespace CapazOS

open List

variable {data a rest name strings : Bytes} {c : Collector} (kind : Bytes → PropKind)

/-! ### Trees -/

structure FdtProp where
  name : Bytes
  data : Bytes
  deriving DecidableEq

/-- A node with its properties and its children. -/
inductive FdtNode where
  | node (name : Bytes) (props : List FdtProp) (children : List FdtNode)

namespace FdtNode

mutual

def levels : FdtNode → ℕ
  | .node _ _ children => levelsAll children + 1

def levelsAll : List FdtNode → ℕ
  | [] => 0
  | n :: ns => max n.levels (levelsAll ns)

end

end FdtNode

def strictKind (name : Bytes) : PropKind :=
  if name = ascii "#address-cells" then .addressCells
  else if name = ascii "#size-cells" then .sizeCells
  else if name = ascii "reg" then .reg
  else .other

/-- Properties are told apart by the first bytes of their names. -/
def looseKind (name : Bytes) : PropKind :=
  if ascii "#a" <+: name then .addressCells
  else if ascii "#s" <+: name then .sizeCells
  else if ascii "reg" <+: name then .reg
  else .other

def cellsAfter (cells : ℕ × ℕ) (p : FdtProp) : ℕ × ℕ :=
  match kind p.name with
  | .addressCells => if 4 ≤ p.data.length then (readBE 4 p.data 0, cells.2) else cells
  | .sizeCells => if 4 ≤ p.data.length then (cells.1, readBE 4 p.data 0) else cells
  | _ => cells

/-- The cell counts that a node hands down: those it sets, and else those it has inherited. -/
def nodeCells (cells : ℕ × ℕ) (props : List FdtProp) : ℕ × ℕ :=
  props.foldl (cellsAfter kind) cells

def regOf (cells : ℕ × ℕ) (p : FdtProp) : List DtbRange :=
  if kind p.name = .reg then regTuples p.data cells.1 cells.2 else []

section Tuples

variable {M : Type} (want : M → Bytes → Bool) (enter : M → Bytes → M)

mutual

/-- **The tuples that a tree declares**, in document order: the `reg` tuples of the nodes that are
wanted, decoded with the cell counts of their parents. What is wanted depends on the name of the
node and on the nodes above it. -/
def treeTuples (m : M) (cells : ℕ × ℕ) : FdtNode → List DtbRange
  | .node name props children =>
    (if want m name then props.flatMap (regOf kind cells) else []) ++
      treeTuplesAll (enter m name) (nodeCells kind cells props) children

def treeTuplesAll (m : M) (cells : ℕ × ℕ) : List FdtNode → List DtbRange
  | [] => []
  | n :: ns => treeTuples m cells n ++ treeTuplesAll m cells ns

end

mutual

/-- **The tuples in front of the first node that is too deep**, with `levels` levels left, and
whether there is no such node. -/
def shallowTuples (m : M) (cells : ℕ × ℕ) : ℕ → FdtNode → List DtbRange × Bool
  | 0, .node _ _ _ => ([], false)
  | levels + 1, .node name props children =>
    let below := shallowTuplesAll (enter m name) (nodeCells kind cells props) levels children
    ((if want m name then props.flatMap (regOf kind cells) else []) ++ below.1, below.2)

def shallowTuplesAll (m : M) (cells : ℕ × ℕ) : ℕ → List FdtNode → List DtbRange × Bool
  | _, [] => ([], true)
  | levels, n :: ns =>
    let first := shallowTuples m cells levels n
    let rest := shallowTuplesAll m cells levels ns
    if first.2 then (first.1 ++ rest.1, rest.2) else first

end

variable {kind want enter}

mutual

theorem shallowTuples_eq {m : M} {cells : ℕ × ℕ} : ∀ {levels : ℕ} {n : FdtNode}, n.levels ≤ levels →
    shallowTuples kind want enter m cells levels n = (treeTuples kind want enter m cells n, true)
  | 0, .node _ _ _, h => by
    rw [FdtNode.levels] at h
    omega
  | levels + 1, .node name props children, h => by
    rw [FdtNode.levels] at h
    rw [shallowTuples, treeTuples, shallowTuplesAll_eq (Nat.le_of_succ_le_succ h)]

theorem shallowTuplesAll_eq {m : M} {cells : ℕ × ℕ} : ∀ {levels : ℕ} {ns : List FdtNode},
    FdtNode.levelsAll ns ≤ levels → shallowTuplesAll kind want enter m cells levels ns =
        (treeTuplesAll kind want enter m cells ns, true)
  | _, [], _ => by rw [shallowTuplesAll, treeTuplesAll]
  | _, _ :: _, h => by
    rw [FdtNode.levelsAll] at h
    rw [shallowTuplesAll, treeTuplesAll, shallowTuples_eq ((le_max_left _ _).trans h),
      shallowTuplesAll_eq ((le_max_right _ _).trans h), if_pos rfl]

end

end Tuples

/-- The tuples of the nodes called `memory` or `memory@...`. -/
def memoryTuples (root : FdtNode) : List DtbRange :=
  treeTuples kind (fun (_ : Unit) name ↦ isMemoryName name) (fun m _ ↦ m) () (2, 2) root

/-- The tuples of the nodes below one called `reserved-memory`. -/
def reservedTuples (root : FdtNode) : List DtbRange :=
  treeTuples kind (fun inside _ ↦ inside) (fun inside name ↦ inside || name = ascii "reserved-memory") false (2, 2) root

def memoryFound (root : FdtNode) : List DtbRange :=
  (shallowTuples kind (fun (_ : Unit) name ↦ isMemoryName name) (fun m _ ↦ m) () (2, 2) 64 root).1

def reservedFound (root : FdtNode) : List DtbRange :=
  (shallowTuples kind (fun inside _ ↦ inside)
    (fun inside name ↦ inside || name = ascii "reserved-memory") false (2, 2) 64 root).1

theorem found_eq {root : FdtNode} (h : root.levels ≤ 64) (kind : Bytes → PropKind) :
    memoryFound kind root = memoryTuples kind root ∧ reservedFound kind root = reservedTuples kind root := by
  rw [memoryFound, memoryTuples, reservedFound, reservedTuples, shallowTuples_eq h, shallowTuples_eq h]
  exact ⟨rfl, rfl⟩

def nonemptyRanges (l : List DtbRange) : List DtbRange := l.filter fun r ↦ r.size ≠ 0

/-! ### Items -/

/-- A token with its contents. -/
inductive FdtItem where
  | beginNode (name : Bytes)
  | endNode
  | prop (p : FdtProp)
  | nop

variable {items' : List FdtItem}

/-- `FDT_NOP` is not part of the tree. -/
def FdtItem.matters : FdtItem → Bool
  | .nop => false
  | _ => true

namespace FdtNode

mutual

/-- The items of a tree: the name, the properties, the children, and the end. -/
def items : FdtNode → List FdtItem
  | .node name props children =>
    .beginNode name :: (props.map .prop ++ (itemsAll children ++ [.endNode]))

def itemsAll : List FdtNode → List FdtItem
  | [] => []
  | n :: ns => n.items ++ itemsAll ns

end

end FdtNode

/-! ### The encoding -/

def pad4 (bs : Bytes) : Bytes := bs ++ replicate ((4 - bs.length % 4) % 4) 0

/-- The name stands at `off` of the strings block. -/
def NameAt (strings : Bytes) (off : ℕ) (name : Bytes) : Prop :=
  0 ∉ name ∧ name ++ [0] <+: strings.drop off

inductive FdtItem.Encodes (strings : Bytes) : FdtItem → Bytes → Prop
  | beginNode {name : Bytes} (hname : 0 ∉ name) : Encodes strings (.beginNode name) (beBytes 4 1 ++ pad4 (name ++ [0]))
  | endNode : Encodes strings .endNode (beBytes 4 2)
  | prop {p : FdtProp} {nameoff : ℕ} (hname : NameAt strings nameoff p.name)
      (hoff : nameoff < 2 ^ 32) (hlen : p.data.length < 2 ^ 32) :
      Encodes strings (.prop p) (beBytes 4 3 ++ (beBytes 4 p.data.length ++ (beBytes 4 nameoff ++ pad4 p.data)))
  | nop : Encodes strings .nop (beBytes 4 4)

inductive EncodesItems (strings : Bytes) : List FdtItem → Bytes → Prop
  | nil : EncodesItems strings [] []
  | cons {item : FdtItem} {items : List FdtItem} {bs rest : Bytes} (hitem : item.Encodes strings bs)
      (hrest : EncodesItems strings items rest) : EncodesItems strings (item :: items) (bs ++ rest)

def rsvEntry (r : DtbRange) : Bytes := beBytes 8 r.base ++ beBytes 8 r.size

/-- The numbers of the header. -/
structure FdtLayout where
  totalsize : ℕ
  offStruct : ℕ
  offStrings : ℕ
  offRsvmap : ℕ
  sizeStruct : ℕ
  sizeStrings : ℕ

def FdtLayout.blocks (L : FdtLayout) : FdtBlocks :=
  ⟨L.offRsvmap, L.offStruct, L.offStrings, L.sizeStrings⟩

/-- **A blob that encodes a tree** and a reservation map, in the standard way. -/
structure FdtBlob.Encodes (b : FdtBlob) (L : FdtLayout) (reservations : List DtbRange) (root : FdtNode) : Prop where
  totalsize_le : L.totalsize ≤ b.bytes.length
  totalsize_lt : L.totalsize < 2 ^ 32
  header : readBE 4 b.bytes 0 = 0xD00DFEED ∧ readBE 4 b.bytes 4 = L.totalsize ∧
    readBE 4 b.bytes 8 = L.offStruct ∧ readBE 4 b.bytes 12 = L.offStrings ∧
    readBE 4 b.bytes 16 = L.offRsvmap ∧ readBE 4 b.bytes 32 = L.sizeStrings ∧
    readBE 4 b.bytes 36 = L.sizeStruct
  struct_ge : 40 ≤ L.offStruct
  struct_le : L.offStruct + L.sizeStruct ≤ L.totalsize
  strings_le : L.offStrings + L.sizeStrings ≤ L.totalsize
  rsvmap_lt : L.offRsvmap < L.totalsize
  aligned : (b.addr + L.offStruct) % 4 = 0
  entries : ∀ r ∈ reservations, r.base < 2 ^ 64 ∧ r.size < 2 ^ 64 ∧ ¬(r.base = 0 ∧ r.size = 0)
  rsvmap : reservations.flatMap rsvEntry ++ rsvEntry ⟨0, 0⟩ <+: b.bytes.drop L.offRsvmap
  struct : ∃ items bs, items.filter FdtItem.matters = root.items ∧
    EncodesItems (slice b.bytes L.offStrings L.sizeStrings) items bs ∧
    slice b.bytes L.offStruct L.sizeStruct = bs ++ beBytes 4 9

/-! ### Reads of encodings -/

theorem length_beBytes (n v : ℕ) : (beBytes n v).length = n := by
  rw [beBytes, length_reverse, length_leBytes]

theorem beValue_beBytes {n v : ℕ} (h : v < 256 ^ n) : beValue (beBytes n v) = v := by
  rw [beValue, beBytes, reverse_reverse, leValue_leBytes_of_lt h]

theorem length_pad4 (bs : Bytes) : (pad4 bs).length = (bs.length + 3) / 4 * 4 := by
  rw [pad4, length_append, length_replicate]
  omega

theorem drop_add_of_drop {p : ℕ} (h : data.drop p = a ++ rest) : data.drop (p + a.length) = rest := by
  rw [← drop_drop, h, drop_left]

theorem add_le_of_drop {p : ℕ} (ha : a ≠ []) (h : data.drop p = a ++ rest) : p + a.length ≤ data.length := by
  have hpos := length_pos_iff.2 ha
  have hlen := congrArg List.length h
  rw [length_drop, length_append] at hlen
  omega

theorem slice_of_drop {p : ℕ} (h : data.drop p = a ++ rest) : slice data p a.length = a := by
  rw [slice, h, take_left]

theorem readBE_of_drop {n v p : ℕ} (hv : v < 256 ^ n) (h : data.drop p = beBytes n v ++ rest) :
    readBE n data p = v := by
  have hslice := slice_of_drop h
  rw [length_beBytes] at hslice
  rw [readBE, hslice, beValue_beBytes hv]

namespace FdtBlob

variable {b : FdtBlob} {p : ℕ}

theorem be32_of_drop {v : ℕ} (hv : v < 2 ^ 32) (h : b.bytes.drop p = beBytes 4 v ++ rest) : b.be32 p = .ok v := by
  have hne : beBytes 4 v ≠ [] := ne_nil_of_length_pos (by rw [length_beBytes]; decide)
  have hlen := add_le_of_drop hne h
  exact be32_eq_ok.2 ⟨hlen, (readBE_of_drop hv h).symm⟩

theorem be64_of_drop {v : ℕ} (hv : v < 2 ^ 64) (h : b.bytes.drop p = beBytes 8 v ++ rest) : b.be64 p = .ok v := by
  have hne : beBytes 8 v ≠ [] := ne_nil_of_length_pos (by rw [length_beBytes]; decide)
  have hlen := add_le_of_drop hne h
  exact be64_eq_ok.2 ⟨hlen, (readBE_of_drop hv h).symm⟩

theorem byte_of_drop {x : UInt8} (h : b.bytes.drop p = x :: rest) : b.byte p = .ok x ∧ b.bytes.drop (p + 1) = rest := by
  have hget : b.bytes[p]? = some x := by rw [← Nat.add_zero p, ← getElem?_drop, h, getElem?_cons_zero]
  exact ⟨by rw [byte, hget], @drop_add_of_drop b.bytes [x] rest p h⟩

theorem findIdx?_zero (hname : 0 ∉ name) :
    (name ++ 0 :: rest).findIdx? (fun x ↦ decide (x = 0)) = some name.length := by
  induction name with
  | nil => rfl
  | cons x name ih =>
    rw [mem_cons, not_or] at hname
    have hx : decide (x = 0) = false := decide_eq_false (Ne.symm hname.1)
    rw [cons_append, findIdx?_cons, hx, ih hname.2]
    rfl

theorem nodeName_of_drop (hname : 0 ∉ name) (h : b.bytes.drop p = name ++ 0 :: rest) : b.nodeName p = .ok name := by
  rw [nodeName, h, findIdx?_zero hname]
  simp only [slice_of_drop h]

theorem align4_pad {bs : Bytes} (hp : (b.addr + p) % 4 = 0) : b.align4 (p + bs.length) = p + (pad4 bs).length := by
  rw [align4, length_pad4]
  omega

/-- **The parser recognises a name by its first bytes.** -/
theorem propKind_of_drop (h : b.bytes.drop p = name ++ 0 :: rest) : propKind b p = .ok (looseKind name) := by
  have ha : ascii "#a" = [0x23, 0x61] := rfl
  have hs : ascii "#s" = [0x23, 0x73] := rfl
  have hreg : ascii "reg" = [0x72, 0x65, 0x67] := rfl
  rw [propKind, looseKind, ha, hs, hreg]
  -- the bytes of the name are read one by one, up to the zero byte behind it
  rcases name with - | ⟨x, name⟩
  · rw [(byte_of_drop h).1]
    rfl
  obtain ⟨hbyte, hx⟩ := byte_of_drop h
  rw [hbyte, DtbM.ok_bind]
  simp only [cons_prefix_cons, @eq_comm _ _ x]
  rcases name with - | ⟨y, name⟩
  · rw [(byte_of_drop hx).1]
    simp only [DtbM.ok_bind, prefix_nil, reduceCtorEq, and_false, if_false]
    split_ifs <;> first | rfl | simp_all
  obtain ⟨hbyte, hy⟩ := byte_of_drop hx
  rw [hbyte]
  simp only [DtbM.ok_bind, cons_prefix_cons, nil_prefix, and_true, @eq_comm _ _ y]
  rcases name with - | ⟨z, name⟩
  · rw [Nat.add_assoc] at hy
    rw [(byte_of_drop hy).1]
    split_ifs <;> first | rfl | simp_all
  · rw [Nat.add_assoc] at hy
    rw [(byte_of_drop hy).1]
    simp only [DtbM.ok_bind, cons_prefix_cons, nil_prefix, and_true, @eq_comm _ _ z]
    split_ifs <;> first | rfl | simp_all

end FdtBlob

/-! ### Runs over items -/

namespace FdtItem

def next (c : Collector) (s : WalkState) : FdtItem → WalkState
  | .beginNode name => s.opened c name
  | .endNode => s.closed c
  | .prop p => s.afterProp (looseKind p.name) p.data
  | .nop => s

def ranges (c : Collector) (s : WalkState) : FdtItem → List DtbRange
  | .prop p => propRanges c (looseKind p.name) p.data s
  | _ => []

/-- The walk can take the item: a node that is not too deep, or a property in a node. -/
def Fits (s : WalkState) : FdtItem → Prop
  | .beginNode _ => 0 ≤ s.depth + 1 ∧ s.depth + 1 < maxDepth
  | .endNode => 0 ≤ s.depth
  | .prop _ => 0 ≤ s.depth
  | .nop => True

end FdtItem

/-- **A walk over items** from one state to another, with the tuples that it adds. -/
inductive ItemsRun (c : Collector) : List FdtItem → WalkState → WalkState → List DtbRange → Prop
  | nil {s} : ItemsRun c [] s s []
  | cons {item items s s' l} (hfits : item.Fits s) (hrest : ItemsRun c items (item.next c s) s' l) :
      ItemsRun c (item :: items) s s' (item.ranges c s ++ l)

namespace ItemsRun

variable {s s' s'' : WalkState} {items : List FdtItem} {l l' : List DtbRange}

theorem append (h : ItemsRun c items s s' l) (h' : ItemsRun c items' s' s'' l') :
    ItemsRun c (items ++ items') s s'' (l ++ l') := by
  induction h with
  | nil => exact h'
  | cons hfits _ ih =>
    rw [append_assoc]
    exact .cons hfits (ih h')

theorem singleton {item : FdtItem} (hfits : item.Fits s) : ItemsRun c [item] s (item.next c s) (item.ranges c s) := by
  have h := ItemsRun.cons (c := c) hfits .nil
  rwa [append_nil] at h

theorem of_filter (h : ItemsRun c (items.filter FdtItem.matters) s s' l) : ItemsRun c items s s' l := by
  induction items generalizing s l with
  | nil => exact h
  | cons item items ih =>
    by_cases hitem : item.matters = true
    · rw [filter_cons_of_pos hitem] at h
      cases h with
      | cons hfits hrest => exact .cons hfits (ih hrest)
    · rw [filter_cons_of_neg hitem] at h
      obtain rfl : item = .nop := by
        cases item with
        | nop => rfl
        | _ => exact absurd rfl hitem
      exact .cons trivial (ih h)

end ItemsRun

/-- **A walk that gives up** at a node that is too deep, with the tuples added before. -/
def ItemsStop (c : Collector) (items : List FdtItem) (s : WalkState) (l : List DtbRange) : Prop :=
  ∃ before name after s', items = before ++ .beginNode name :: after ∧ ItemsRun c before s s' l ∧
    maxDepth ≤ s'.depth + 1

theorem ItemsRun.stop {s s' : WalkState} {items : List FdtItem} {l l' : List DtbRange}
    (h : ItemsRun c items s s' l) (h' : ItemsStop c items' s' l') :
    ItemsStop c (items ++ items') s (l ++ l') := by
  obtain ⟨before, name, after, s'', rfl, hrun, hdeep⟩ := h'
  exact ⟨items ++ before, name, after, s'', by rw [append_assoc], h.append hrun, hdeep⟩

namespace ItemsStop

variable {s : WalkState} {items : List FdtItem} {l : List DtbRange}

theorem append_right (h : ItemsStop c items s l) (items' : List FdtItem) : ItemsStop c (items ++ items') s l := by
  obtain ⟨before, name, after, s'', rfl, hrun, hdeep⟩ := h
  exact ⟨before, name, after ++ items', s'', by rw [append_assoc]; rfl, hrun, hdeep⟩

theorem of_filter (h : ItemsStop c (items.filter FdtItem.matters) s l) : ItemsStop c items s l := by
  obtain ⟨before, name, after, s'', hsplit, hrun, hdeep⟩ := h
  obtain ⟨items₁, items₂, rfl, rfl, hafter⟩ := filter_eq_append_iff.1 hsplit
  obtain ⟨nops, items₃, rfl, hnops, -, -⟩ := filter_eq_cons_iff.1 hafter
  have hpass : (nops.filter FdtItem.matters) = [] := filter_eq_nil_iff.2 hnops
  have hrun' : ItemsRun c ((items₁ ++ nops).filter FdtItem.matters) s s'' l := by rwa [filter_append, hpass, append_nil]
  exact ⟨items₁ ++ nops, name, items₃, s'', by rw [append_assoc], hrun'.of_filter, hdeep⟩

end ItemsStop

section

variable {b : FdtBlob} {blocks : FdtBlocks} {s s' : WalkState} {bs : Bytes} {p steps : ℕ}

theorem drop_of_nameAt {off : ℕ} (h : NameAt (slice b.bytes blocks.strings blocks.stringsSize) off name) :
    off < blocks.stringsSize ∧ ∃ rest, b.bytes.drop (blocks.strings + off) = name ++ 0 :: rest := by
  obtain ⟨-, t, ht⟩ := h
  constructor
  · have hlen := congrArg List.length ht
    rw [slice, length_append, length_append, length_singleton, length_drop, length_take] at hlen
    omega
  · rw [slice, drop_take, drop_drop] at ht
    refine ⟨t ++ (b.bytes.drop (blocks.strings + off)).drop (blocks.stringsSize - off), ?_⟩
    calc b.bytes.drop (blocks.strings + off)
        = name ++ [0] ++ t ++ (b.bytes.drop (blocks.strings + off)).drop (blocks.stringsSize - off) := by
          rw [ht, take_append_drop]
      _ = _ := by simp

theorem regReturns_of_lt {len : ℕ} (h : len + 16 < 2 ^ 32) (addrCells sizeCells : ℕ) :
    RegReturns len addrCells sizeCells := by
  by_cases hcells : addrCells = 0 ∨ sizeCells = 0 ∨ 2 < addrCells ∨ 2 < sizeCells
  · simp only [RegReturns]
    tauto
  · have hsum : addrCells + sizeCells = 2 ∨ addrCells + sizeCells = 3 ∨ addrCells + sizeCells = 4 := by omega
    refine .inr (.inr (.inr (.inr ?_)))
    have hwraps : regWraps (4 * 2) = 2 ^ 32 - 8 ∧ regWraps (4 * 3) = 2 ^ 32 - 4 ∧
        regWraps (4 * 4) = 2 ^ 32 - 16 := by decide
    rcases hsum with hsum | hsum | hsum <;> rw [hsum] <;> omega

theorem fdtToken_beginNode (hname : 0 ∉ name)
    (hat : b.bytes.drop p = beBytes 4 1 ++ pad4 (name ++ [0]) ++ rest) (haligned : (b.addr + p) % 4 = 0) :
    fdtToken b p = .ok (.beginNode name, p + 4 + (pad4 (name ++ [0])).length) := by
  rw [append_assoc] at hat
  have hbehind := drop_add_of_drop hat
  rw [length_beBytes, pad4, append_assoc, append_assoc, singleton_append] at hbehind
  have hend := @FdtBlob.align4_pad b (p + 4) (name ++ [0]) (by omega)
  rw [length_append, length_singleton] at hend
  rw [fdtToken, FdtBlob.be32_of_drop (by decide) hat, DtbM.ok_bind, if_neg (by decide),
    if_pos rfl, FdtBlob.nodeName_of_drop hname hbehind, DtbM.ok_bind, hend]
  rfl

theorem fdtToken_prop {len nameoff : ℕ} (hlen : data.length = len) (hlt : len < 2 ^ 32) (hoff : nameoff < 2 ^ 32)
    (hat : b.bytes.drop p = beBytes 4 3 ++ (beBytes 4 len ++ (beBytes 4 nameoff ++ pad4 data)) ++ rest)
    (haligned : (b.addr + p) % 4 = 0) :
    fdtToken b p = .ok (.prop len nameoff (p + 12), p + 12 + (pad4 data).length) ∧
      slice b.bytes (p + 12) len = data := by
  rw [append_assoc] at hat
  have hat' := drop_add_of_drop hat
  rw [length_beBytes, append_assoc] at hat'
  have hat'' := drop_add_of_drop hat'
  rw [length_beBytes, append_assoc] at hat''
  have hdata := drop_add_of_drop hat''
  rw [length_beBytes, pad4, append_assoc] at hdata
  have hend := @FdtBlob.align4_pad b (p + 12) data (by omega)
  rw [hlen] at hend
  constructor
  · rw [fdtToken, FdtBlob.be32_of_drop (by decide) hat, DtbM.ok_bind, if_neg (by decide),
      if_neg (by decide), if_neg (by decide), if_neg (by decide), if_pos rfl,
      FdtBlob.be32_of_drop hlt hat', DtbM.ok_bind, FdtBlob.be32_of_drop hoff hat'', DtbM.ok_bind]
    simp only [Nat.add_assoc, Nat.reduceAdd] at hend ⊢
    rw [hend]
    rfl
  · have hslice := slice_of_drop hdata
    rwa [hlen] at hslice

theorem fdtToken_empty {token : ℕ} (htoken : token < 2 ^ 32)
    (hat : b.bytes.drop p = beBytes 4 token ++ rest) (hne : token ≠ 1 ∧ token ≠ 3) :
    fdtToken b p = .ok (if token = 2 then .endNode else if token = 4 then .nop else .stop, p + 4) := by
  rw [fdtToken, FdtBlob.be32_of_drop htoken hat, DtbM.ok_bind]
  split_ifs <;> first | rfl | omega

/-- **One round** of the walk, over the bytes of an item. -/
theorem collectLoop_item {item : FdtItem} (hitem : item.Encodes (slice b.bytes blocks.strings blocks.stringsSize) bs)
    (hat : b.bytes.drop p = bs ++ rest) (haligned : (b.addr + p) % 4 = 0) (hlo : 40 ≤ p)
    (hhi : p + bs.length ≤ 2 ^ 32) (hfits : item.Fits s) (out : List DtbRange) :
    collectLoop b blocks c (steps + 1) p s out = collectLoop b blocks c steps (p + bs.length) (item.next c s)
        ((item.ranges c s).foldl (appendRange c.max) out) := by
  rw [collectLoop_succ]
  cases hitem with
  | @beginNode name hname =>
    rw [fdtToken_beginNode hname hat haligned, DtbM.ok_bind, length_append, length_beBytes, ← Nat.add_assoc]
    simp only [walkToken, openNode, if_neg (not_le_of_gt hfits.2), if_neg (not_lt_of_ge hfits.1),
      DtbM.ok_bind, Option.elim_some]
    rfl
  | endNode =>
    rw [fdtToken_empty (by decide) hat (by decide), DtbM.ok_bind, length_beBytes]
    have hdepth : ¬s.depth ≤ -2 ^ 31 := by
      have hpos : 0 ≤ s.depth := hfits
      omega
    simp only [if_true, walkToken, closeNode, if_neg hdepth, DtbM.ok_bind]
    rfl
  | @prop pr nameoff hname hoff hlen =>
    obtain ⟨htoken, hslice⟩ := fdtToken_prop rfl hlen hoff hat haligned
    obtain ⟨hlt, rest', hdrop⟩ := drop_of_nameAt hname
    have hbs : (beBytes 4 3 ++ (beBytes 4 pr.data.length ++ (beBytes 4 nameoff ++ pad4 pr.data))).length =
        12 + (pad4 pr.data).length := by
      simp only [length_append, length_beBytes]
      omega
    have hend := add_le_of_drop (ne_nil_of_length_pos (by omega)) hat
    rw [hbs, length_pad4] at hend
    rw [hbs, length_pad4] at hhi
    have hret : PropReturns c (looseKind pr.name) pr.data.length s := fun ctx _ _ _ ↦ regReturns_of_lt (by omega) _ _
    rw [htoken, DtbM.ok_bind, hbs, ← Nat.add_assoc]
    simp only [walkToken]
    rw [property_eq hfits hlt (FdtBlob.propKind_of_drop hdrop) (by omega) hret, DtbM.ok_bind, hslice]
    rfl
  | nop =>
    rw [fdtToken_empty (by decide) hat (by decide), DtbM.ok_bind, length_beBytes]
    rfl

theorem FdtItem.Encodes.length {item : FdtItem} (h : item.Encodes strings bs) : bs.length % 4 = 0 ∧ 4 ≤ bs.length := by
  cases h <;> simp only [length_append, length_beBytes, length_pad4] <;> first | decide | omega

theorem EncodesItems.length_le {items : List FdtItem} (h : EncodesItems strings items bs) :
    items.length ≤ bs.length := by
  induction h with
  | nil => exact le_rfl
  | cons hitem _ ih =>
    have hlen := hitem.length.2
    rw [length_cons, length_append]
    omega

theorem EncodesItems.length_mod {items : List FdtItem} (h : EncodesItems strings items bs) : bs.length % 4 = 0 := by
  induction h with
  | nil => rfl
  | cons hitem _ ih =>
    have hlen := hitem.length.1
    rw [length_append]
    omega

/-- **The walk over the bytes of some items** is the walk over the items. -/
theorem collectLoop_items {items : List FdtItem} {l : List DtbRange}
    (hitems : EncodesItems (slice b.bytes blocks.strings blocks.stringsSize) items bs)
    (hat : b.bytes.drop p = bs ++ rest) (haligned : (b.addr + p) % 4 = 0) (hlo : 40 ≤ p)
    (hhi : p + bs.length ≤ 2 ^ 32) (hrun : ItemsRun c items s s' l) (out : List DtbRange) :
    collectLoop b blocks c (items.length + steps) p s out =
      collectLoop b blocks c steps (p + bs.length) s' (l.foldl (appendRange c.max) out) := by
  induction hitems generalizing p s l out with
  | nil =>
    cases hrun
    rw [length_nil, length_nil, Nat.zero_add]
    rfl
  | @cons item items bs bs' hitem _ ih =>
    cases hrun with
    | @cons _ _ _ _ l hfits hrest =>
      rw [append_assoc] at hat
      rw [length_append] at hhi
      have hlen := hitem.length
      rw [length_cons, Nat.add_right_comm, collectLoop_item hitem hat haligned hlo (by omega) hfits,
        ih (drop_add_of_drop hat) (by omega) (by omega) (by omega) hrest, length_append,
        foldl_append, Nat.add_assoc p]

theorem EncodesItems.append_inv {items : List FdtItem} (h : EncodesItems strings (items ++ items') bs) :
    ∃ bs₁ bs₂, bs = bs₁ ++ bs₂ ∧ EncodesItems strings items bs₁ ∧ EncodesItems strings items' bs₂ := by
  induction items generalizing bs with
  | nil => exact ⟨[], bs, rfl, .nil, h⟩
  | cons item items ih =>
    cases h with
    | cons hitem hrest =>
      obtain ⟨bs₁, bs₂, rfl, h₁, h₂⟩ := ih hrest
      exact ⟨_ ++ bs₁, bs₂, (append_assoc ..).symm, .cons hitem h₁, h₂⟩

theorem collectLoop_stop {items : List FdtItem} {l : List DtbRange}
    (hitems : EncodesItems (slice b.bytes blocks.strings blocks.stringsSize) items bs)
    (hat : b.bytes.drop p = bs ++ rest) (haligned : (b.addr + p) % 4 = 0) (hlo : 40 ≤ p)
    (hhi : p + bs.length ≤ 2 ^ 32) (hstop : ItemsStop c items s l) (hsteps : items.length ≤ steps)
    (out : List DtbRange) :
    collectLoop b blocks c steps p s out = .ok (l.foldl (appendRange c.max) out) := by
  obtain ⟨before, name, after, s', rfl, hrun, hdeep⟩ := hstop
  obtain ⟨bs₁, bs₂, rfl, hbefore, hafter⟩ := hitems.append_inv
  rw [length_append, length_cons] at hsteps
  obtain ⟨steps, rfl⟩ : ∃ k, steps = before.length + (k + 1) := ⟨steps - before.length - 1, by omega⟩
  rw [append_assoc] at hat
  rw [length_append] at hhi
  rw [collectLoop_items hbefore hat haligned hlo (by omega) hrun, collectLoop_succ]
  have hat' := drop_add_of_drop hat
  have hmod := hbefore.length_mod
  cases hafter with
  | cons hitem _ =>
    cases hitem with
    | beginNode hname =>
      rw [append_assoc] at hat'
      rw [fdtToken_beginNode hname hat' (by omega), DtbM.ok_bind]
      simp [walkToken, openNode, if_pos hdeep, DtbM.ok_bind]

end

end CapazOS
