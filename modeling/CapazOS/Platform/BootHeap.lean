import CapazOS.Platform.Boot
import CapazOS.Kheap.Invariant
import CapazOS.Mm.MmuTables

/-!
# The heap after a boot

Tree, page tables, usable ranges, page allocator and heap together: **no live heap block shares a
page with reserved memory**, the kernel or anything else that the boot has put into memory, and
**heap memory is mapped**, writable and not executable, by the tables that `mmu_init` builds from
the same tree.
-/

namespace CapazOS

open Translation

variable {x : BootSetup} {L : FdtLayout} {reservations : List DtbRange} {root : FdtNode} {s : KheapSys} {K : KernelLayout}

/-- The kernel was booted with an encoded tree, and calls of the heap and the page allocator and
stores of their callers have led to the state `s`. -/
structure BootedHeap (x : BootSetup) (L : FdtLayout) (reservations : List DtbRange) (root : FdtNode) (s : KheapSys) :
    Prop where
  encodes : x.blob.Encodes L reservations root
  board : x.board = .virt ∨ x.board = .rpi3
  bootInfo : x.bootInfo.kernelPhysBase ≤ 2 ^ 64 - pageSize ∧ x.bootInfo.dtbPtr < 2 ^ 64
  runtimeEnd : x.runtimeEnd < 2 ^ 64
  run : ∃ ctr g₀ mem, x.boot ctr = .ok (some g₀) ∧
    Relation.ReflTransGen (KheapSys.Step x.board) (KheapSys.start g₀ mem) s

/-- **The pages of the heap** are pages of RAM, as the boot found it, that no kept reservation and
nothing that the boot has put into memory touches. -/
theorem BootedHeap.page (h : BootedHeap x L reservations root s) : ∀ c ∈ s.live, ∀ a ∈ c.extent,
    ∃ p, alignDown4k a = x.board.physToHhVirt p ∧ p % pageSize = 0 ∧
      (x.usableEnv (BootSetup.found L reservations root)).HeldPage p ∧
      ¬(x.usableEnv (BootSetup.found L reservations root)).KeptPage p ∧ ∀ w ∈ x.occupied L, ¬TouchesPage p w.1 w.2 := by
  obtain ⟨hencodes, hbd, ⟨hk, hdtb⟩, hend, ctr, g₀, mem, hboot, hrun⟩ := h
  obtain ⟨hptr, st, hst, hinit⟩ := BootSetup.boot_some hboot
  obtain ⟨rfl, hsize⟩ := hencodes.dtbInit_some hst
  have hplaced := BootSetup.placed hencodes hbd ⟨hk.trans_lt (by decide), hdtb⟩ hend
  have hboard : x.board.Placed := by
    rcases hbd with hbd | hbd
    · exact hbd ▸ Board.placed_virt
    · exact hbd ▸ Board.placed_rpi3
  have E : HeapEnv x.board g₀ := pmmInit_heapEnv hinit hboard
  intro c hc a ha
  obtain ⟨i, hi, hpage, hclear, -⟩ := ((KheapSys.refined_of_run E hrun).sound E).inside c hc a ha
  have hret : PmmSys.Returns g₀ (g₀.st.basePa + i * pageSize) := (PmmSys.returns_iff E.ready).2 ⟨i, hi, rfl, hclear⟩
  obtain ⟨hp, hheld, hkept, hfree⟩ := (BootSetup.returns_iff_of_le hplaced hk hinit _).1 hret
  rw [← @BootSetup.occupied_eq x L reservations root hptr hsize hplaced.totalsize.1.ne'] at hfree
  exact ⟨_, hpage, hp, hheld, hkept, hfree⟩

/-! ### Reserved memory -/

/-- **Heap blocks avoid reserved memory**: after a boot on which no reservation is lost, the page of
each byte of a live block is a page of RAM, as the boot found it, that neither a reserved range of
the tree nor anything that the boot has put into memory touches. -/
theorem heap_avoids_reserved (h : BootedHeap x L reservations root s) (hcov : x.Covered L reservations root) :
    ∀ c ∈ s.live, ∀ a ∈ c.extent, ∃ p, alignDown4k a = x.board.physToHhVirt p ∧ p % pageSize = 0 ∧
      (x.usableEnv (BootSetup.found L reservations root)).HeldPage p ∧
      (∀ r ∈ declaredReserved reservations root, ¬TouchesPage p r.base (r.base + r.size)) ∧
      ∀ w ∈ x.occupied L, ¬TouchesPage p w.1 w.2 := by
  intro c hc a ha
  obtain ⟨p, hpage, hp, hheld, hkept, hfree⟩ := h.page c hc a ha
  refine ⟨p, hpage, hp, hheld, fun r hr htouch ↦ ?_, hfree⟩
  rcases hcov.2 p hp hheld ⟨r, hr, htouch⟩ with hkept' | ⟨w, hw, ht⟩
  · exact hkept hkept'
  · exact hfree w hw ht

/-- The heap blocks after a boot and a call of `kmalloc`. -/
def bootKmalloc (x : BootSetup) (size : ℕ) : DtbM (Option (List ℕ)) := do
  return (← x.boot .initial).map fun g ↦ ((KheapSys.start g fun _ ↦ 0).step x.board (.kmalloc size)).live.map HeapBlock.ptr

theorem exists_bootedHeap : ∃ s, BootedHeap (bootSetup 0) (bootLayout 0) (bootReservations 0) bootTree s ∧
    s.live.map HeapBlock.ptr = [0xFFFF800040013008] := by
  have hlive : bootKmalloc (bootSetup 0) 5000 = .ok (some [0xFFFF800040013008]) := by decide +kernel
  obtain ⟨g, hboot, hmap⟩ := DtbM.bind_ok.1 hlive
  obtain ⟨g₀, rfl, hlive⟩ := Option.map_eq_some_iff.1 (Except.ok.inj hmap)
  refine ⟨_, ⟨bootSetup_encodes (.inl rfl), .inl rfl, by decide, by decide, _, g₀, fun _ ↦ 0, hboot, ?_⟩, hlive⟩
  exact .single ⟨.kmalloc 5000, show 5000 ≤ 2 ^ 32 by decide, rfl⟩

theorem heap_avoids_reserved_big : ∃ s, BootedHeap (bootSetup 0) (bootLayout 0) (bootReservations 0) bootTree s ∧
    s.live.map HeapBlock.ptr = [0xFFFF800040013008] ∧
    ∀ c ∈ s.live, ∀ a ∈ c.extent, ∃ p, alignDown4k a = (bootSetup 0).board.physToHhVirt p ∧ p % pageSize = 0 ∧
      ((bootSetup 0).usableEnv (BootSetup.found (bootLayout 0) (bootReservations 0) bootTree)).HeldPage p ∧
      (∀ r ∈ declaredReserved (bootReservations 0) bootTree, ¬TouchesPage p r.base (r.base + r.size)) ∧
      ∀ w ∈ (bootSetup 0).occupied (bootLayout 0), ¬TouchesPage p w.1 w.2 := by
  obtain ⟨s, h, hlive⟩ := exists_bootedHeap
  exact ⟨s, h, hlive, heap_avoids_reserved h (.of_found (by decide) (by decide +kernel))⟩

/-! ### The page tables -/

/-- The vector page and the read-only sections lie in the image of the kernel. -/
def KernelLayout.InImage (K : KernelLayout) (x : BootSetup) : Prop :=
  ∀ pa, pa = vecPaStart .virt K ∨
    K.text.Holds .virt pa ∨ K.rodata.Holds .virt pa ∨ K.coreText.Holds .virt pa ∨ K.coreRodata.Holds .virt pa →
      x.bootInfo.kernelPhysBase ≤ pa ∧ pa < Board.virt.hhVirtToPhys x.runtimeEnd

/-- The tables translate `va` to itself less the base of the upper half, writable and not
executable. -/
def MmuTables.MapsData (m : MmuTables) (K : KernelLayout) (va : ℕ) : Prop :=
  ∃ leaf, walk (physEntry m) (Board.virt.hhVirtToPhys K.l0Table) va = some leaf ∧
    Board.virt.hhBase + leaf.output va = va ∧ Writable leaf.desc ∧ ¬Executable leaf.desc

variable {m : MmuTables}

theorem pageDesc_of_outside (hK : K.InImage x) {p : ℕ}
    (hout : ¬(x.bootInfo.kernelPhysBase ≤ p ∧ p < Board.virt.hhVirtToPhys x.runtimeEnd)) :
    pageDesc .virt K p = p ||| 0x60000000000703 := by
  have hno := mt (hK p) hout
  simp only [not_or] at hno
  obtain ⟨hvec, htext, hrodata, hcoreText, hcoreRodata⟩ := hno
  simp only [pageDesc, if_neg hvec, if_neg htext, if_neg hrodata, if_neg hcoreText, if_neg hcoreRodata, ite_self,
    Nat.or_assoc]
  rfl

/-- **A page of a mapped range** that lies outside the image is mapped as data. -/
theorem MapsBlocks.mapsData {rs : List DtbRange} (h : MapsBlocks K m (mappedBlocks rs))
    (hplaced : K.TablesPlaced .virt) (hK : K.InImage x) {r : DtbRange} (hr : r ∈ rs) (hround : r.Rounds) {a p : ℕ}
    (hin : r.base ≤ p ∧ p < r.base + r.size) (hp : p % pageSize = 0 ∧ 2 ^ 30 ≤ p ∧ p < 2 ^ 39)
    (hout : ¬(x.bootInfo.kernelPhysBase ≤ p ∧ p < Board.virt.hhVirtToPhys x.runtimeEnd))
    (ha : alignDown4k a = Board.virt.hhBase + p) : m.MapsData K a := by
  rw [show Board.virt.hhBase = 0xFFFF800000000000 from rfl, alignDown4k, pageSize] at ha
  rw [pageSize] at hp
  have h256 : a / 2 ^ 39 % 512 = 256 := by omega
  have hoff : a % 2 ^ 39 < 2 ^ 39 := Nat.mod_lt _ (by norm_num)
  have hpage : a % 2 ^ 39 / pageSize * pageSize = p := by
    rw [pageSize]
    omega
  have hblock : a % 2 ^ 39 / ramBlockSize ∈ mappedBlocks rs := by
    refine ⟨?_, ?_, r, hr, hround, ?_, ?_⟩
    all_goals
      rw [ramBlockSize]
      omega
  have hleaf : ∃ leaf, directMap K (mappedBlocks rs) a = some leaf ∧ Writable leaf.desc ∧ ¬Executable leaf.desc := by
    rw [directMap, if_pos h256, leafAt, if_neg (by omega), if_pos hblock]
    split
    · refine ⟨_, rfl, ?_⟩
      obtain ⟨hw, hx, -⟩ := fields_or (hpage ▸ pageAddr_of_off hoff) 0x60000000000703
      rw [hpage, pageDesc_of_outside hK hout, hw, hx]
      decide
    · refine ⟨_, rfl, ?_⟩
      obtain ⟨hw, hx, -⟩ := fields_or (pageAddr_of_block hoff) 0x60000000000701
      rw [blockDesc_eq, hw, hx]
      decide
  obtain ⟨leaf, hleaf, hwx⟩ := hleaf
  exact ⟨leaf, (h.walk_eq hplaced a).trans hleaf, (directMap_sound (by omega) hleaf).upper (by omega), hwx⟩

/-- `mmu_init` maps the ranges from which `platform_get_usable_ranges` starts. -/
theorem BootSetup.mmuRanges_eq (bd : Board) {st : DtbState} {r : DtbRange} (hr : r ∈ (x.usableEnv st).memory) :
    mmuRanges bd (x.pmmEnv st).memory = (x.usableEnv st).memory := by
  have hne : st.memory ≠ [] := List.ne_nil_of_mem (List.mem_of_mem_take hr)
  have hsome : (x.pmmEnv st).memory = some (x.usableEnv st).memory := if_pos (decide_eq_true hne)
  obtain ⟨r', rs, hcons⟩ := List.exists_cons_of_ne_nil (List.ne_nil_of_mem hr)
  rw [hsome, hcons, mmuRanges]

/-- **Heap memory is mapped.** After a boot on the `virt` board, with a tree of which no memory
range reaches into the last 2 MiB of the address space, the tables that `mmu_init` builds from the
tree translate each byte of a live heap block to its physical address, and make it writable and not
executable. -/
theorem heap_memory_mapped (h : BootedHeap x L reservations root s) (hbd : x.board = .virt)
    (hround : ∀ r ∈ (BootSetup.found L reservations root).memory, r.Rounds) (hplaced : K.TablesPlaced .virt)
    (hK : K.InImage x) (hmmu : mmuInit .virt K (x.pmmEnv (BootSetup.found L reservations root)).memory = some m) :
    ∀ c ∈ s.live, ∀ a ∈ c.extent, m.MapsData K a := by
  intro c hc a ha
  obtain ⟨p, hpage, hp, ⟨⟨hlo, hhi⟩, r, hr, hheld⟩, -, hfree⟩ := h.page c hc a ha
  have hfits : ∀ r ∈ (x.usableEnv (BootSetup.found L reservations root)).memory, r.Rounds := fun r hr ↦
    hround r (List.mem_of_mem_take hr)
  simp only [DtbRange.Rounds, ramBlockSize] at hfits
  have hrs := BootSetup.mmuRanges_eq .virt hr
  have hmaps := maps_mmuInit hplaced _ (fun r' hr' ↦ (hfits r' (hrs ▸ hr')).trans_lt (by decide)) hmmu
  have hin := (held_iff ((hfits r hr).trans (by decide)) hp).1 hheld
  rw [hrs] at hmaps
  rw [show (x.usableEnv _).board = .virt from hbd] at hlo hhi
  have hhi' : p < 2 ^ 31 := hhi
  refine hmaps.mapsData hplaced hK hr (hround r (List.mem_of_mem_take hr)) ⟨hin.1, ?_⟩ ⟨hp, hlo, by omega⟩ ?_ ?_
  · rw [pageSize] at hin
    omega
  · intro himage
    refine hfree (x.bootInfo.kernelPhysBase, x.board.hhVirtToPhys x.runtimeEnd) (by simp [BootSetup.occupied]) ?_
    rw [hbd, TouchesPage, pageSize]
    omega
  · rw [hpage, hbd, Board.physToHhVirt, u64, show Board.virt.hhRamBase = 0xFFFF800040000000 from rfl,
      show Board.virt.ramBase = 0x40000000 from rfl, show Board.virt.hhBase = 0xFFFF800000000000 from rfl]
    omega

/-- The kernel of `bootSetup`, with its tables where those of `virtLayout` are. -/
def bootKernel : KernelLayout :=
  { virtLayout with
    text := ⟨0xFFFF800040000000, 0xFFFF800040001000⟩
    rodata := ⟨0xFFFF800040001000, 0xFFFF800040002000⟩
    coreText := ⟨0xFFFF800040002000, 0xFFFF800040002000⟩
    coreRodata := ⟨0xFFFF800040002000, 0xFFFF800040002000⟩
    imageStart := 0xFFFF800040000000
    runtimeEnd := 0xFFFF800040002000
    kernelVectors := 0xFFFF800040000800 }

theorem bootKernel_inImage : bootKernel.InImage (bootSetup 0) := by
  rintro pa (rfl | h | h | h | h)
  · decide
  · exact ⟨h.1, h.2.trans (by decide)⟩
  · exact ⟨le_trans (by decide) h.1, h.2⟩
  · exact absurd (h.1.trans_lt h.2) (by decide)
  · exact absurd (h.1.trans_lt h.2) (by decide)

theorem heap_memory_mapped_big : ∃ s m, BootedHeap (bootSetup 0) (bootLayout 0) (bootReservations 0) bootTree s ∧
    s.live.map HeapBlock.ptr = [0xFFFF800040013008] ∧
    ∀ c ∈ s.live, ∀ a ∈ c.extent, MmuTables.MapsData m bootKernel a := by
  obtain ⟨s, h, hlive⟩ := exists_bootedHeap
  have hsome : (mmuInit .virt bootKernel ((bootSetup 0).pmmEnv
      (BootSetup.found (bootLayout 0) (bootReservations 0) bootTree)).memory).isSome = true := by decide +kernel
  obtain ⟨m, hmmu⟩ := Option.isSome_iff_exists.1 hsome
  have hplaced : bootKernel.TablesPlaced .virt := ⟨virtLayout_placed.1, virtLayout_placed.2, virtLayout_placed.3⟩
  have hround : ∀ r ∈ (BootSetup.found (bootLayout 0) (bootReservations 0) bootTree).memory,
      r.base + r.size ≤ 2 ^ 64 - ramBlockSize := by decide +kernel
  exact ⟨s, m, h, hlive, heap_memory_mapped h rfl hround hplaced bootKernel_inImage hmmu⟩

end CapazOS
