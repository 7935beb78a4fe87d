import CapazOS.Dtb.Faithful
import CapazOS.Mm.PmmFree
import CapazOS.Platform.Usable

/-!
# Reserved memory from the device tree to the allocator

`dtb_init` finds the memory and reserved ranges of the tree, `platform_get_usable_ranges` subtracts
the one from the other, and `pmm_init` frees what is left. **A page is returned by some allocation
if and only if it is a page of RAM, as the code found it, that no reservation the code kept and no
implicit reservation touches** (`BootSetup.returns_iff`).
-/

namespace CapazOS

open List Intervals

variable {usable : List DtbRange} {ctr : PmmCounters} {st : DtbState} {g₀ : Pmm}

/-- What the kernel is started with: the board, the bytes at `dtb_ptr`, the boot record, the address
of `__kernel_runtime_end` and the old contents of the metadata pages. -/
structure BootSetup where
  board : Board
  bytes : Bytes
  bootInfo : BootInfo
  runtimeEnd : ℕ
  metaBytes : Bitmap

namespace BootSetup

variable (x : BootSetup)

def blob : FdtBlob := ⟨x.bytes, x.bootInfo.dtbPtr⟩

def usableEnv (st : DtbState) : UsableEnv where
  board := x.board
  memory := (dtbGetMemoryRanges st 64).2
  reserved := (dtbGetReservedRanges st 64).2
  dtbTotalsize := st.totalsize
  runtimeEnd := x.runtimeEnd

def pmmEnv (st : DtbState) : PmmInitEnv where
  board := x.board
  bootInfo := x.bootInfo
  usable := platformGetUsableRanges (x.usableEnv st) (some x.bootInfo) 64
  memory := if (dtbGetMemoryRanges st 64).1 then some (dtbGetMemoryRanges st 64).2 else none
  dtbTotalsize := st.totalsize
  runtimeEnd := x.runtimeEnd
  metaBytes := x.metaBytes

/-- **The boot up to `pmm_init`**; `none` where a step fails. -/
def boot (ctr : PmmCounters) : DtbM (Option Pmm) := do
  if x.bootInfo.dtbPtr = 0 then return none
  else
    match ← dtbInit x.blob x.bootInfo.dtbSize with
    | none => return none
    | some st => return pmmInit (x.pmmEnv st) ctr

def found (L : FdtLayout) (reservations : List DtbRange) (root : FdtNode) : DtbState where
  totalsize := L.totalsize
  memory := (nonemptyRanges (memoryFound looseKind root)).take 16
  reserved := (nonemptyRanges (reservations.take maxMemreserve ++ reservedFound looseKind root)).take 64

/-- **The memory that must not be handed out**, besides the reserved ranges of the tree: the boot
region below the kernel, the kernel's image, the metadata pages and the device-tree blob. -/
def occupied (L : FdtLayout) : List (ℕ × ℕ) :=
  let runtimeEndPa := x.board.hhVirtToPhys x.runtimeEnd
  let dtbPhys := x.board.hhVirtToPhys x.bootInfo.dtbPtr
  [(0, x.bootInfo.kernelPhysBase), (x.bootInfo.kernelPhysBase, runtimeEndPa),
    (alignUp4k runtimeEndPa, alignUp4k runtimeEndPa + pmmMetadataPages * pageSize),
    (dtbPhys, dtbPhys + L.totalsize)]

/-- **No page is lost.** The address of the kernel can be rounded up to a page, and every page of
RAM that a declared reservation touches is touched by one that the parser keeps, or is occupied
anyway. -/
def Covered (L : FdtLayout) (reservations : List DtbRange) (root : FdtNode) : Prop :=
  x.bootInfo.kernelPhysBase ≤ 2 ^ 64 - pageSize ∧
    ∀ p, p % pageSize = 0 → (x.usableEnv (found L reservations root)).HeldPage p →
      (∃ r ∈ declaredReserved reservations root, TouchesPage p r.base (r.base + r.size)) →
      (x.usableEnv (found L reservations root)).KeptPage p ∨ ∃ w ∈ x.occupied L, TouchesPage p w.1 w.2

end BootSetup

/-! ### The window of the allocator -/

theorem pmmWindow_concat (usable : List DtbRange) {r : DtbRange} (h : alignUp4k r.base < alignDown4k r.stop) :
    pmmWindow (usable ++ [r]) =
      (if (pmmWindow usable).1 = 0 ∨ alignUp4k r.base < (pmmWindow usable).1 then alignUp4k r.base
        else (pmmWindow usable).1, max (pmmWindow usable).2 (alignDown4k r.stop)) := by
  rw [pmmWindow, foldl_append, foldl_cons, foldl_nil, ← pmmWindow]
  simp only [if_neg (Nat.not_le.2 h)]
  congr 1
  split_ifs <;> omega

/-- The window holds the usable ranges, if none of them starts at zero, and it starts with one of
them. -/
theorem pmmWindow_spec (h : ∀ r ∈ usable, alignUp4k r.base < alignDown4k r.stop) :
    (∀ r ∈ usable, alignDown4k r.stop ≤ (pmmWindow usable).2) ∧ ((∀ r ∈ usable, alignUp4k r.base ≠ 0) → ∀ r ∈ usable,
        (pmmWindow usable).1 ≠ 0 ∧ (pmmWindow usable).1 ≤ alignUp4k r.base) ∧
      ((pmmWindow usable).1 ≠ 0 → ∃ r ∈ usable, (pmmWindow usable).1 = alignUp4k r.base) := by
  induction usable using List.reverseRecOn with
  | nil => exact ⟨(nofun), (nofun), (fun hne ↦ absurd rfl hne)⟩
  | append_singleton usable r ih =>
    simp only [forall_mem_append, forall_mem_singleton] at h
    obtain ⟨hstop, hbase, hstart⟩ := ih h.1
    rw [pmmWindow_concat usable h.2]
    simp only [forall_mem_append, forall_mem_singleton]
    refine ⟨⟨fun r' hr' ↦ (hstop r' hr').trans (le_max_left _ _), le_max_right _ _⟩, ?_, ?_⟩
    · rintro ⟨hne, hne'⟩
      refine ⟨fun r' hr' ↦ ?_, ?_⟩
      · obtain ⟨hpos, hle⟩ := hbase hne r' hr'
        split_ifs <;> omega
      · split_ifs <;> omega
    · intro hne
      split_ifs at hne ⊢ with hlow
      · exact ⟨r, mem_append_right _ (mem_singleton_self r), rfl⟩
      · obtain ⟨r', hr', heq⟩ := hstart hne
        exact ⟨r', mem_append_left _ hr', heq⟩

theorem pmmWindow_ne_zero {env : PmmInitEnv} (husable : env.usable = some usable) {g : Pmm}
    (h : pmmInit env ctr = some g) : (pmmWindow usable).1 ≠ 0 := by
  intro hzero
  rw [pmmInit, husable] at h
  simp only [hzero, true_or, or_true, if_true] at h
  cases h

section

variable {bd : Board}

section

variable (hbd : bd = .virt ∨ bd = .rpi3) (hin : InWindow bd usable)
include hbd hin

theorem rounding_eq {r : DtbRange} (hr : r ∈ usable) : alignUp4k r.base = r.span.1 ∧ alignDown4k r.stop = r.span.2 := by
  obtain ⟨⟨hlo, hlo'⟩, hhi, -⟩ := hin r hr
  have hfit := hin.fit hbd r hr
  obtain ⟨-, -, -, hwin⟩ := Board.window hbd
  rw [DtbRange.stop_eq hfit, alignDown4k_of_mod hhi]
  exact ⟨alignUp4k_of_mod (lt_of_le_of_lt hlo' (by omega)) hlo, rfl⟩

theorem rounding_lt (hsep : Separated (usable.map DtbRange.span)) :
    ∀ r ∈ usable, alignUp4k r.base < alignDown4k r.stop := by
  intro r hr
  rw [(rounding_eq hbd hin hr).1, (rounding_eq hbd hin hr).2]
  exact hsep.nonempty r.span (mem_map_of_mem hr)

/-- **The pages of the window that are freed** are those of the usable ranges. -/
theorem freed_iff (p : ℕ) : (∃ r ∈ usable, alignUp4k r.base ≤ p ∧ p < alignDown4k r.stop) ↔
      Intervals.Covers (usable.map DtbRange.span) p := by
  constructor
  · rintro ⟨r, hr, hlo, hhi⟩
    obtain ⟨hbase, hstop⟩ := rounding_eq hbd hin hr
    exact ⟨r.span, mem_map_of_mem hr, hbase ▸ hlo, hstop ▸ hhi⟩
  · rintro ⟨w, hw, hlo, hhi⟩
    obtain ⟨r, hr, rfl⟩ := mem_map.1 hw
    obtain ⟨hbase, hstop⟩ := rounding_eq hbd hin hr
    exact ⟨r, hr, hbase.symm ▸ hlo, hstop.symm ▸ hhi⟩

end

end

theorem PmmState.WholePages.exists_index {st : PmmState} (h : st.WholePages) {p : ℕ}
    (hp : p % pageSize = 0) (hge : st.basePa ≤ p) (hlt : p < st.limitPa) :
    ∃ i < st.totalPages, p = st.basePa + i * pageSize := by
  have hmodBase := h.base_mod
  have hmodLimit := h.limit_mod
  refine ⟨(p - st.basePa) / pageSize, ?_, ?_⟩
  · rw [h.total_eq]
    simp only [pageSize] at *
    omega
  · simp only [pageSize] at *
    omega

/-! ### From the tree to the allocator -/

theorem FdtBlob.Encodes.dtbInit_some {b : FdtBlob} {L : FdtLayout} {reservations : List DtbRange}
    {root : FdtNode} (h : b.Encodes L reservations root) {fdtSize : ℕ}
    (hinit : CapazOS.dtbInit b fdtSize = .ok (some st)) :
    st = BootSetup.found L reservations root ∧ (fdtSize = 0 ∨ L.totalsize ≤ fdtSize) := by
  rw [h.dtbInit] at hinit
  split_ifs at hinit with hrejected
  · exact absurd hinit (by simp)
  · refine ⟨(Option.some.inj (Except.ok.inj hinit)).symm, ?_⟩
    rw [FdtLayout.Rejected] at hrejected
    omega

namespace BootSetup

variable {x : BootSetup} {L : FdtLayout} {reservations : List DtbRange} {root : FdtNode}

theorem placed (h : x.blob.Encodes L reservations root) (hbd : x.board = .virt ∨ x.board = .rpi3)
    (hbi : x.bootInfo.kernelPhysBase < 2 ^ 64 ∧ x.bootInfo.dtbPtr < 2 ^ 64)
    (hend : x.runtimeEnd < 2 ^ 64) :
    (x.usableEnv (found L reservations root)).Placed (some x.bootInfo) where
  board := hbd
  reserved_le := by
    show (((nonemptyRanges _).take 64).take 64).length ≤ 64
    rw [length_take]
    exact Nat.min_le_left _ _
  totalsize := by
    have hge := h.struct_ge
    have hle := h.struct_le
    exact ⟨show 0 < L.totalsize by omega, h.totalsize_lt⟩
  runtimeEnd_lt := hend
  boot := by
    intro bi hmem
    obtain rfl := Option.some.inj hmem
    exact hbi

/-- **The reservations of `pmm_init` add nothing**: a page that the platform layer leaves is in none
of them. -/
theorem not_marked (h : (x.usableEnv st).Placed (some x.bootInfo)) {p : ℕ} (hp : p % pageSize = 0)
    (hkernel : ¬(x.usableEnv st).KernelPage x.bootInfo p)
    (hblobs : ∀ w ∈ (x.usableEnv st).blobs x.bootInfo, ¬TouchesPage p w.1 w.2) :
    ∀ w ∈ pmmMarks (x.pmmEnv st) (x.usableEnv st).runtimeEndPa (alignUp4k (x.usableEnv st).runtimeEndPa)
      (u64 (alignUp4k (x.usableEnv st).runtimeEndPa + pmmMetadataPages * pageSize)),
      ¬(alignDown4k w.1 ≤ p ∧ p < alignUp4k w.2) := by
  have hend := UsableEnv.runtimeEndPa_lt h
  have hmeta := UsableEnv.metadata_stop h
  obtain ⟨hpos, hsize⟩ := UsableEnv.dtbBlobSize_pos h x.bootInfo
  have hphys := Board.hhVirtToPhys_lt h.board (h.boot _ rfl).2
  have htwice : ∀ a, alignUp4k (alignUp4k a) = alignUp4k a := fun a ↦
    alignUp4k_of_mod (alignUp4k_lt a) (alignUp4k_mod a)
  rw [UsableEnv.blobs, forall_mem_cons] at hblobs
  rw [pmmMarks, forall_mem_cons, forall_mem_cons, forall_mem_append, forall_mem_singleton]
  refine ⟨fun hin ↦ hkernel (.inl ?_), fun hin ↦ hkernel (.inr ?_), ?_, fun hin ↦ hblobs.1 ?_⟩
  · -- the boot region, unless the address of the kernel cannot be rounded up
    rcases Nat.lt_or_ge (2 ^ 64 - pageSize) x.bootInfo.kernelPhysBase with hwrap | hfits
    · exact absurd (alignUp4k_wraps hwrap (h.boot _ rfl).1 ▸ hin.2) (Nat.not_lt_zero p)
    · exact ⟨hfits, (page_lt_alignUp4k hp hfits).1 hin.2⟩
  · obtain ⟨hlo, hhi⟩ := hin
    rw [htwice, page_lt_alignUp4k hp (by rw [pageSize]; omega)] at hhi
    exact ⟨(alignDown4k_le_page hp).1 hlo, hhi⟩
  · intro w hw hin
    split_ifs at hw with hnone
    · cases hw
    obtain rfl := mem_singleton.1 hw
    rw [not_or] at hnone
    have hblob := hblobs.2
    rw [if_neg (show ¬x.bootInfo.dtbPtr = 0 from hnone.1)] at hblob
    have hsum : u64 (x.board.hhVirtToPhys x.bootInfo.dtbPtr +
        dtbBlobSize (x.usableEnv st).dtbTotalsize x.bootInfo.dtbSize) =
        x.board.hhVirtToPhys x.bootInfo.dtbPtr + dtbBlobSize (x.usableEnv st).dtbTotalsize x.bootInfo.dtbSize := by
      have hlt : x.board.hhVirtToPhys x.bootInfo.dtbPtr < 2 ^ 64 - 2 ^ 46 := hphys
      exact Nat.mod_eq_of_lt (by omega)
    refine hblob _ (mem_singleton_self _) ⟨Nat.lt_add_of_pos_right hpos, ?_, ?_⟩
    · exact (alignDown4k_le_page hp).1 ((alignDown4k_of_mod (alignDown4k_mod _)).symm.le.trans hin.1)
    · have hhi := hin.2
      rw [htwice, show dtbReservedSize (x.pmmEnv st) =
        dtbBlobSize (x.usableEnv st).dtbTotalsize x.bootInfo.dtbSize from rfl] at hhi
      exact (page_lt_alignUp4k hp (by rw [pageSize]; omega)).1 (hsum ▸ hhi)
  · obtain ⟨hlo, hhi⟩ := hin
    have hmod := alignUp4k_mod (x.usableEnv st).runtimeEndPa
    have hlt := hmeta ▸ u64_lt (alignUp4k (x.usableEnv st).runtimeEndPa + pmmMetadataPages * pageSize)
    rw [hmeta, alignUp4k_of_mod hlt (by simp only [pmmMetadataPages, pageSize] at *; omega)] at hhi
    exact ⟨Nat.lt_add_of_pos_right (by decide), (alignDown4k_le_page hp).1 hlo, hhi⟩

/-- **The pages that are ever returned** are those of the usable ranges, from the start of the
window on. -/
theorem returns_iff (h : (x.usableEnv st).Placed (some x.bootInfo))
    (husable : platformGetUsableRanges (x.usableEnv st) (some x.bootInfo) 64 = some usable)
    (hinit : pmmInit (x.pmmEnv st) ctr = some g₀) (p : ℕ) :
    PmmSys.Returns g₀ p ↔ p % pageSize = 0 ∧ (pmmWindow usable).1 ≤ p ∧
      Intervals.Covers (usable.map DtbRange.span) p := by
  obtain ⟨hin, hsep, hpages⟩ := covers_usable h husable
  obtain ⟨hready, usable', husable', hbase, hlimit⟩ := pmmInit_spec hinit
  obtain rfl : usable = usable' := Option.some.inj (husable.symm.trans husable')
  have hfree := fun i hi ↦ @pmmInit_free (x.pmmEnv st) ctr g₀ usable husable hinit i hi
  obtain ⟨-, hwinMod, -, hwin⟩ := Board.window h.board
  -- the start of the window is on a page
  have hmax : max (pmmWindow usable).1 x.board.ramBase ≤ 2 ^ 64 - pageSize := by
    obtain ⟨hmod, hlt⟩ := pmmWindow_fst usable
    have hram : x.board.ramBase ≤ 2 ^ 31 := (Board.window h.board).2.2.1.trans hwin
    simp only [pageSize] at hmod ⊢
    omega
  rw [PmmSys.returns_iff hready]
  constructor
  · rintro ⟨i, hi, rfl, hclear⟩
    obtain ⟨hmod, hge, -⟩ := PmmSys.page_in_window hready.whole hi
    have hcov := (freed_iff h.board hin _).1 ((hfree i hi).1 hclear).1
    have hle : max (pmmWindow usable).1 x.board.ramBase ≤ g₀.st.basePa + i * pageSize :=
      (alignUp4k_le_page hmod hmax).1 (hbase ▸ hge)
    exact ⟨hmod, (le_max_left _ _).trans hle, hcov⟩
  · rintro ⟨hp, hle, hcov⟩
    obtain ⟨hheld, -, hrest⟩ := (hpages p hp).1 hcov
    obtain ⟨hkernel, hblobs⟩ := hrest x.bootInfo rfl
    obtain ⟨r, hr, hlo, hhi⟩ := (freed_iff h.board hin p).2 hcov
    have hstop := (pmmWindow_spec (rounding_lt h.board hin hsep)).1 r hr
    have hge : g₀.st.basePa ≤ p := by
      rw [hbase]
      exact (alignUp4k_le_page hp hmax).2 (max_le hle hheld.1.1)
    have hlt : p < g₀.st.limitPa := by
      rw [hlimit, page_lt_alignDown4k hp]
      have hmod := alignDown4k_mod r.stop
      have hend : p < x.board.windowEnd := hheld.1.2
      have hwinMod' : x.board.windowEnd % pageSize = 0 := hwinMod
      refine le_min ?_ ?_
      · simp only [pageSize] at *
        omega
      · show p + pageSize ≤ x.board.windowEnd
        simp only [pageSize] at *
        omega
    obtain ⟨i, hi, rfl⟩ := hready.whole.exists_index hp hge hlt
    exact ⟨i, hi, rfl, (hfree i hi).2 ⟨(freed_iff h.board hin _).2 hcov, not_marked h hp hkernel hblobs⟩⟩

theorem zero_not_left (hk : x.bootInfo.kernelPhysBase ≤ 2 ^ 64 - pageSize)
    (hkernel : ¬(x.usableEnv st).KernelPage x.bootInfo 0)
    (hblobs : ∀ w ∈ (x.usableEnv st).blobs x.bootInfo, ¬TouchesPage 0 w.1 w.2) : False := by
  rw [UsableEnv.blobs, forall_mem_cons] at hblobs
  have hbase : x.bootInfo.kernelPhysBase = 0 := by
    by_contra hne
    exact hkernel (.inl ⟨hk, Nat.pos_of_ne_zero hne⟩)
  have hend : (x.usableEnv st).runtimeEndPa = 0 := by
    by_contra hne
    exact hkernel (.inr ⟨by rw [hbase]; decide, Nat.pos_of_ne_zero hne⟩)
  refine hblobs.1 ?_
  rw [hend]
  decide

/-- **The pages that are ever returned**, where the address of the kernel can be rounded up. -/
theorem returns_iff_of_le (h : (x.usableEnv st).Placed (some x.bootInfo))
    (hk : x.bootInfo.kernelPhysBase ≤ 2 ^ 64 - pageSize) (hinit : pmmInit (x.pmmEnv st) ctr = some g₀) (p : ℕ) :
    PmmSys.Returns g₀ p ↔ p % pageSize = 0 ∧ (x.usableEnv st).HeldPage p ∧ ¬(x.usableEnv st).KeptPage p ∧
      ∀ w ∈ (x.usableEnv st).implicitReservations x.bootInfo, ¬TouchesPage p w.1 w.2 := by
  obtain ⟨-, usable, husable, -⟩ := pmmInit_spec hinit
  obtain ⟨hin, hsep, hpages⟩ := covers_usable h husable
  have hleft : ∀ p, p % pageSize = 0 → (Intervals.Covers (usable.map DtbRange.span) p ↔
      (x.usableEnv st).HeldPage p ∧ ¬(x.usableEnv st).KeptPage p ∧
        ∀ w ∈ (x.usableEnv st).implicitReservations x.bootInfo, ¬TouchesPage p w.1 w.2) := by
    intro p hp
    rw [hpages p hp, not_touches_implicit, ← kernelPage_iff hk]
    exact and_congr_right fun _ ↦ and_congr_right fun _ ↦ ⟨fun hrest ↦ hrest _ rfl, fun hrest bi hbi ↦
      Option.some.inj hbi ▸ hrest⟩
  rw [returns_iff h husable hinit]
  refine and_congr_right fun hp ↦ ?_
  rw [← hleft p hp]
  refine and_iff_right_of_imp fun hcov ↦ ?_
  -- no usable range starts at zero, so the window starts with the first of them
  obtain ⟨r, hr, hlo, -⟩ := (freed_iff h.board hin p).2 hcov
  have hnonempty := rounding_lt h.board hin hsep
  have hpos : ∀ r ∈ usable, alignUp4k r.base ≠ 0 := by
    intro r hr hzero
    have hcov₀ := (freed_iff h.board hin 0).1 ⟨r, hr, hzero.le, hzero ▸ hnonempty r hr⟩
    obtain ⟨-, -, hrest⟩ := (hpages 0 (Nat.zero_mod _)).1 hcov₀
    exact zero_not_left hk (hrest _ rfl).1 (hrest _ rfl).2
  exact (((pmmWindow_spec hnonempty).2.1 hpos r hr).2).trans hlo

/-- **Where it cannot be rounded up, RAM below the kernel is returned.** -/
theorem exists_returns_of_wraps (h : (x.usableEnv st).Placed (some x.bootInfo))
    (hk : 2 ^ 64 - pageSize < x.bootInfo.kernelPhysBase) (hinit : pmmInit (x.pmmEnv st) ctr = some g₀) :
    ∃ p, PmmSys.Returns g₀ p ∧ TouchesPage p 0 x.bootInfo.kernelPhysBase := by
  obtain ⟨-, usable, husable, -⟩ := pmmInit_spec hinit
  obtain ⟨hin, hsep, hpages⟩ := covers_usable h husable
  have hnonempty := rounding_lt h.board hin hsep
  obtain ⟨r, hr, hstart⟩ := (pmmWindow_spec hnonempty).2.2 (pmmWindow_ne_zero husable hinit)
  have hmod := alignUp4k_mod r.base
  have hcov := (freed_iff h.board hin _).1 ⟨r, hr, le_rfl, hnonempty r hr⟩
  have hheld := ((hpages _ hmod).1 hcov).1
  exact ⟨_, (returns_iff h husable hinit _).2 ⟨hmod, hstart.le, hcov⟩, (kernelPage_of_wraps h hk hheld.1.2).2⟩

theorem boot_some (hboot : x.boot ctr = .ok (some g₀)) :
    x.bootInfo.dtbPtr ≠ 0 ∧ ∃ st, dtbInit x.blob x.bootInfo.dtbSize = .ok (some st) ∧
      pmmInit (x.pmmEnv st) ctr = some g₀ := by
  rw [boot] at hboot
  split_ifs at hboot with hptr
  · exact absurd (Except.ok.inj hboot) (by simp)
  refine ⟨hptr, ?_⟩
  obtain ⟨st, hst, hrest⟩ := DtbM.bind_ok.1 hboot
  rcases st with - | st
  · exact absurd (Except.ok.inj hrest) (by simp)
  · exact ⟨st, hst, Except.ok.inj hrest⟩

theorem occupied_eq (hptr : x.bootInfo.dtbPtr ≠ 0)
    (hsize : x.bootInfo.dtbSize = 0 ∨ L.totalsize ≤ x.bootInfo.dtbSize) (hpos : L.totalsize ≠ 0) :
    x.occupied L = (x.usableEnv (found L reservations root)).implicitReservations x.bootInfo := by
  have hblob : dtbBlobSize L.totalsize x.bootInfo.dtbSize = L.totalsize := by
    rw [dtbBlobSize, if_neg hpos]
    exact if_neg (by omega)
  rw [occupied, UsableEnv.implicitReservations, UsableEnv.blobs, if_neg hptr]
  simp only [usableEnv, found, hblob]
  rfl

theorem Covered.of_found (hk : x.bootInfo.kernelPhysBase ≤ 2 ^ 64 - pageSize)
    (hfound : ∀ r ∈ declaredReserved reservations root, r.base + r.size ≤ 2 ^ 64 - pageSize ∧
      r ∈ (found L reservations root).reserved) : x.Covered L reservations root := by
  refine ⟨hk, fun p hp _ ⟨r, hr, htouch⟩ ↦ .inl ?_⟩
  obtain ⟨hfits, hmem⟩ := hfound r hr
  refine ⟨r, ?_, (kept_iff hfits hp).2 htouch⟩
  show r ∈ ((found L reservations root).reserved).take 64
  rwa [take_of_length_le]
  exact length_take_le _ _

end BootSetup

/-- **Reserved memory is never handed out if and only if no page is lost**: of a boot that succeeds,
the allocations of every later run avoid the reserved ranges of the tree, the boot region, the
kernel, the metadata pages and the blob exactly for the trees and addresses of
`BootSetup.Covered`. -/
theorem reserved_never_returned_iff {x : BootSetup} {L : FdtLayout} {reservations : List DtbRange}
    {root : FdtNode} (h : x.blob.Encodes L reservations root) (hbd : x.board = .virt ∨ x.board = .rpi3)
    (hbi : x.bootInfo.kernelPhysBase < 2 ^ 64 ∧ x.bootInfo.dtbPtr < 2 ^ 64)
    (hend : x.runtimeEnd < 2 ^ 64) {ctr : PmmCounters} {g₀ : Pmm} (hboot : x.boot ctr = .ok (some g₀)) :
    (∀ p, PmmSys.Returns g₀ p → (∀ r ∈ declaredReserved reservations root, ¬TouchesPage p r.base (r.base + r.size)) ∧
        ∀ w ∈ x.occupied L, ¬TouchesPage p w.1 w.2) ↔ x.Covered L reservations root := by
  obtain ⟨hptr, st, hst, hinit⟩ := BootSetup.boot_some hboot
  obtain ⟨rfl, hsize⟩ := h.dtbInit_some hst
  have hplaced := BootSetup.placed h hbd hbi hend
  have hoccupied := @BootSetup.occupied_eq x L reservations root hptr hsize hplaced.totalsize.1.ne'
  rcases Nat.lt_or_ge (2 ^ 64 - pageSize) x.bootInfo.kernelPhysBase with hwrap | hk
  · obtain ⟨p, hret, htouch⟩ := BootSetup.exists_returns_of_wraps hplaced hwrap hinit
    refine iff_of_false (fun hsafe ↦ ?_) (fun hcov ↦ absurd hcov.1 (Nat.not_le.2 hwrap))
    exact (hsafe p hret).2 (0, x.bootInfo.kernelPhysBase) mem_cons_self htouch
  · have hreturns := BootSetup.returns_iff_of_le hplaced hk hinit
    rw [← hoccupied] at hreturns
    constructor
    · intro hsafe
      refine ⟨hk, fun p hp hheld ⟨r, hr, htouch⟩ ↦ ?_⟩
      by_contra hlost
      obtain ⟨hkept, hfree⟩ := not_or.1 hlost
      have hret := (hreturns p).2 ⟨hp, hheld, hkept, fun w hw ht ↦ hfree ⟨w, hw, ht⟩⟩
      exact (hsafe p hret).1 r hr htouch
    · intro hcov p hret
      obtain ⟨hp, hheld, hkept, hfree⟩ := (hreturns p).1 hret
      refine ⟨fun r hr htouch ↦ ?_, hfree⟩
      rcases hcov.2 p hp hheld ⟨r, hr, htouch⟩ with hkept' | ⟨w, hw, ht⟩
      · exact hkept hkept'
      · exact hfree w hw ht

/-! ### A small board -/

def bootTree : FdtNode :=
  .node [] [] [.node (ascii "memory") [⟨ascii "reg", beBytes 8 0x40000000 ++ beBytes 8 0x60000⟩] []]

/-- `n` reservations outside RAM and one of a page of RAM. -/
def bootReservations (n : ℕ) : List DtbRange :=
  (range n).map (fun i ↦ ⟨i * 0x1000, 0x1000⟩) ++ [⟨0x40012000, 0x1000⟩]

def bootLayout (n : ℕ) : FdtLayout where
  totalsize := 136 + 16 * n
  offStruct := 72 + 16 * n
  offStrings := 132 + 16 * n
  offRsvmap := 40
  sizeStruct := 60
  sizeStrings := 4

/-- A kernel of two pages at the start of RAM, with its metadata behind it; page `0x40012000` is the
first that is not occupied. -/
def bootSetup (n : ℕ) : BootSetup where
  board := .virt
  bytes := [0xD00DFEED, 136 + 16 * n, 72 + 16 * n, 132 + 16 * n, 40, 17, 16, 0, 4, 60].flatMap (beBytes 4) ++
    ((bootReservations n ++ [(⟨0, 0⟩ : DtbRange)]).flatMap rsvEntry ++
      ([1, 0, 1, 0x6D656D6F, 0x72790000, 3, 16, 0, 0, 0x40000000, 0, 0x60000, 2, 2, 9].flatMap (beBytes 4) ++
        (ascii "reg" ++ [0])))
  bootInfo := ⟨0x40000000, 0xFFFF800040050000, 0⟩
  runtimeEnd := 0xFFFF800040002000
  metaBytes := fun _ ↦ 0

theorem bootSetup_encodes {n : ℕ} (h : n = 0 ∨ n = 64) :
    (bootSetup n).blob.Encodes (bootLayout n) (bootReservations n) bootTree := by
  constructor
  case struct =>
    refine ⟨bootTree.items, _, by rfl, .cons (.beginNode (by decide)) (.cons (.beginNode (by decide))
      (.cons (@FdtItem.Encodes.prop _ _ 0 ⟨by decide, ?_⟩ (by decide) (by simp [length_beBytes]))
        (.cons .endNode (.cons .endNode .nil)))), ?_⟩
    · rcases h with rfl | rfl <;> decide +kernel
    · rcases h with rfl | rfl <;> decide +kernel
  all_goals rcases h with rfl | rfl <;> decide +kernel

def firstPage (x : BootSetup) : DtbM (Option (Option ℕ)) := do
  return (← x.boot .initial).map fun g ↦ (pmmAllocPages g 1).1

theorem exists_boot {x : BootSetup} {pa : ℕ} (h : firstPage x = .ok (some (some pa))) :
    ∃ g₀, x.boot .initial = .ok (some g₀) ∧ PmmSys.Returns g₀ pa := by
  obtain ⟨g, hboot, hfirst⟩ := DtbM.bind_ok.1 h
  obtain ⟨g₀, rfl, halloc⟩ := Option.map_eq_some_iff.1 (Except.ok.inj hfirst)
  refine ⟨g₀, hboot, _, .refl, 1, pa, by decide, halloc, ?_⟩
  exact Finset.mem_singleton_self _

theorem reserved_never_returned_one : ∃ g₀, (bootSetup 0).boot .initial = .ok (some g₀) ∧
    PmmSys.Returns g₀ 0x40013000 ∧ ∀ p, PmmSys.Returns g₀ p →
      (∀ r ∈ declaredReserved (bootReservations 0) bootTree, ¬TouchesPage p r.base (r.base + r.size)) ∧
        ∀ w ∈ (bootSetup 0).occupied (bootLayout 0), ¬TouchesPage p w.1 w.2 := by
  obtain ⟨g₀, hboot, hreturns⟩ := exists_boot
    (show firstPage (bootSetup 0) = .ok (some (some 0x40013000)) by decide +kernel)
  refine ⟨g₀, hboot, hreturns, (reserved_never_returned_iff (bootSetup_encodes (.inl rfl)) (.inl rfl)
    (by decide) (by decide) hboot).2 (.of_found (by decide) ?_)⟩
  decide +kernel

/-- **The 65th reservation is dropped**, and its page is the first that is handed out. -/
theorem reserved_returned_sixtyFive : (bootSetup 64).blob.Encodes (bootLayout 64) (bootReservations 64) bootTree ∧
      (∀ r ∈ declaredReserved (bootReservations 64) bootTree, r.base + r.size < 2 ^ 64 - pageSize) ∧
      ∃ g₀, (bootSetup 64).boot .initial = .ok (some g₀) ∧ PmmSys.Returns g₀ 0x40012000 ∧
        ∃ r ∈ declaredReserved (bootReservations 64) bootTree, TouchesPage 0x40012000 r.base (r.base + r.size) := by
  obtain ⟨g₀, hboot, hreturns⟩ := exists_boot
    (show firstPage (bootSetup 64) = .ok (some (some 0x40012000)) by decide +kernel)
  refine ⟨bootSetup_encodes (.inr rfl), by decide +kernel, g₀, hboot, hreturns, ?_⟩
  decide +kernel

end CapazOS
