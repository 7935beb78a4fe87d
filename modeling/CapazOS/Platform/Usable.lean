import CapazOS.Platform.Ranges

/-!
# Which pages are usable

A page is usable (`UsablePage`) when it lies in the direct-map window and wholly inside a memory
range, and is touched by no reserved range and no implicit reservation. `covers_usable` gives the
pages of the result, with the boot region **as the code rounds it**; the result is exact if and only
if the boot region is kept (`platform_usable_exact_iff`).
-/

namespace CapazOS

open List Intervals

variable {bd : Board} {env : UsableEnv} {bootInfo : Option BootInfo} {β : Type*} {f : β → Option DtbRange}
  {l : List β} {p : ℕ} {bi : BootInfo}

/-! ### Rounding -/

section

variable {x : ℕ}

theorem alignDown4k_le_page (hp : p % pageSize = 0) : alignDown4k x ≤ p ↔ x < p + pageSize := by
  simp only [alignDown4k, pageSize] at *
  omega

theorem page_lt_alignDown4k (hp : p % pageSize = 0) : p < alignDown4k x ↔ p + pageSize ≤ x := by
  simp only [alignDown4k, pageSize] at *
  omega

theorem alignUp4k_eq (hx : x ≤ 2 ^ 64 - pageSize) : alignUp4k x = alignDown4k (x + (pageSize - 1)) := by
  rw [alignUp4k, u64, Nat.mod_eq_of_lt]
  simp only [pageSize] at *
  omega

theorem alignUp4k_le_page (hp : p % pageSize = 0) (hx : x ≤ 2 ^ 64 - pageSize) : alignUp4k x ≤ p ↔ x ≤ p := by
  rw [alignUp4k_eq hx, alignDown4k_le_page hp]
  simp only [pageSize]
  omega

theorem page_lt_alignUp4k (hp : p % pageSize = 0) (hx : x ≤ 2 ^ 64 - pageSize) : p < alignUp4k x ↔ p < x := by
  rw [← Nat.not_le, alignUp4k_le_page hp hx, Nat.not_le]

theorem alignUp4k_wraps (hx : 2 ^ 64 - pageSize < x) (hlt : x < 2 ^ 64) : alignUp4k x = 0 := by
  simp only [alignUp4k, alignDown4k, u64, pageSize] at *
  omega

end

/-- The direct-map window of both boards ends on pages far below the end of the address space, and
physical addresses stay below it as well. -/
theorem Board.window (h : bd = .virt ∨ bd = .rpi3) :
    bd.ramBase % pageSize = 0 ∧ bd.windowEnd % pageSize = 0 ∧ bd.ramBase ≤ bd.windowEnd ∧ bd.windowEnd ≤ 2 ^ 31 := by
  rcases h with rfl | rfl <;> decide

theorem Board.hhVirtToPhys_lt (h : bd = .virt ∨ bd = .rpi3) {va : ℕ} (hva : va < 2 ^ 64) :
    bd.hhVirtToPhys va < 2 ^ 64 - 2 ^ 46 := by
  have hbase : bd.ramBase ≤ 2 ^ 30 ∧ 2 ^ 64 - 2 ^ 47 ≤ bd.hhRamBase ∧ bd.hhRamBase ≤ 2 ^ 64 - 2 ^ 46 := by
    rcases h with rfl | rfl <;> decide
  rw [Board.hhVirtToPhys]
  split
  · exact lt_of_le_of_lt (Nat.mod_le _ _) (by omega)
  · omega

/-! ### What the ranges should be -/

def TouchesPage (p lo hi : ℕ) : Prop := lo < hi ∧ lo < p + pageSize ∧ p < hi

instance (p lo hi : ℕ) : Decidable (TouchesPage p lo hi) := inferInstanceAs (Decidable (_ ∧ _))

def UsableEnv.blobs (env : UsableEnv) (bi : BootInfo) : List (ℕ × ℕ) :=
  let metaBase := alignUp4k env.runtimeEndPa
  (metaBase, metaBase + pmmMetadataPages * pageSize) :: if bi.dtbPtr = 0 then []
    else
      let dtbPhys := env.board.hhVirtToPhys bi.dtbPtr
      [(dtbPhys, dtbPhys + dtbBlobSize env.dtbTotalsize bi.dtbSize)]

/-- **The implicit reservations**: the boot region below the kernel, the kernel's footprint, the
metadata pages and the device-tree blob. -/
def UsableEnv.implicitReservations (env : UsableEnv) (bi : BootInfo) : List (ℕ × ℕ) :=
  (0, bi.kernelPhysBase) :: (bi.kernelPhysBase, env.runtimeEndPa) :: env.blobs bi

/-- The surroundings, whatever the ranges of the device tree are. -/
structure UsableEnv.Placed (env : UsableEnv) (bootInfo : Option BootInfo) : Prop where
  board : env.board = .virt ∨ env.board = .rpi3
  reserved_le : env.reserved.length ≤ 64
  totalsize : 0 < env.dtbTotalsize ∧ env.dtbTotalsize < 2 ^ 32
  runtimeEnd_lt : env.runtimeEnd < 2 ^ 64
  boot : ∀ bi ∈ bootInfo, bi.kernelPhysBase < 2 ^ 64 ∧ bi.dtbPtr < 2 ^ 64

/-- The surroundings are those of a parsed device tree, of which no range ends near the end of the
address space. -/
structure UsableEnv.Valid (env : UsableEnv) (bootInfo : Option BootInfo) : Prop extends env.Placed bootInfo where
  memory_fits : ∀ r ∈ env.memory, r.base + r.size ≤ 2 ^ 64 - pageSize
  reserved_fits : ∀ r ∈ env.reserved, r.base + r.size ≤ 2 ^ 64 - pageSize

/-! ### Pages as the code rounds them

Ranges that end near the end of the address space are rounded across it. What the code does is
stated for all ranges; for those of `UsableEnv.Valid` it is what the ranges say. -/

/-- The page lies in the direct-map window and in a memory range, rounded inwards. -/
def UsableEnv.HeldPage (env : UsableEnv) (p : ℕ) : Prop :=
  (env.board.ramBase ≤ p ∧ p < env.board.windowEnd) ∧
    ∃ m ∈ env.memory, alignUp4k m.base ≤ p ∧ p < alignDown4k m.stop

/-- The page lies in a reserved range, rounded outwards. -/
def UsableEnv.KeptPage (env : UsableEnv) (p : ℕ) : Prop :=
  ∃ r ∈ env.reserved, r.size ≠ 0 ∧ alignDown4k r.base ≤ p ∧ p < alignUp4k r.stop

section

variable {r : DtbRange}

/-- **Rounding inwards** keeps the pages wholly inside a range. -/
theorem held_iff (hr : r.base + r.size ≤ 2 ^ 64 - pageSize) (hp : p % pageSize = 0) :
    (alignUp4k r.base ≤ p ∧ p < alignDown4k r.stop) ↔ r.base ≤ p ∧ p + pageSize ≤ r.base + r.size := by
  have hbase : r.base ≤ 2 ^ 64 - pageSize := (Nat.le_add_right _ _).trans hr
  have hstop : r.stop = r.base + r.size := Nat.mod_eq_of_lt (lt_of_le_of_lt hr (by decide))
  rw [alignUp4k_le_page hp hbase, page_lt_alignDown4k hp, hstop]

/-- **Rounding outwards** reserves the pages a range touches. -/
theorem kept_iff (hr : r.base + r.size ≤ 2 ^ 64 - pageSize) (hp : p % pageSize = 0) :
    (r.size ≠ 0 ∧ alignDown4k r.base ≤ p ∧ p < alignUp4k r.stop) ↔ TouchesPage p r.base (r.base + r.size) := by
  have hstop : r.stop = r.base + r.size := Nat.mod_eq_of_lt (lt_of_le_of_lt hr (by decide))
  rw [hstop, alignDown4k_le_page hp, page_lt_alignUp4k hp hr, TouchesPage,
    Nat.lt_add_right_iff_pos, Nat.pos_iff_ne_zero]

end

/-! ### Ranges in the window -/

def WindowEnd (bd : Board) (x : ℕ) : Prop := x % pageSize = 0 ∧ x ≤ bd.windowEnd

def InWindow (bd : Board) (l : List DtbRange) : Prop :=
  ∀ r ∈ l, WindowEnd bd r.span.1 ∧ WindowEnd bd r.span.2

theorem InWindow.fit (hbd : bd = .virt ∨ bd = .rpi3) {l : List DtbRange} (h : InWindow bd l) : SpansFit l := by
  intro r hr
  have hle := (h r hr).2.2
  obtain ⟨-, -, -, hwin⟩ := Board.window hbd
  omega

theorem covers_filterMap {x : ℕ} : Intervals.Covers ((l.filterMap f).map DtbRange.span) x ↔
      ∃ r ∈ l, Intervals.Covers ((f r).toList.map DtbRange.span) x := by
  induction l with
  | nil => simp
  | cons r l ih =>
    rw [filterMap_cons, exists_mem_cons_iff, ← ih]
    rcases f r with - | r'
    · simp
    · simp

section

variable {start stop : ℕ}

theorem covers_windowRange (bd : Board) (start stop x : ℕ) :
    Intervals.Covers ((windowRange bd start stop).toList.map DtbRange.span) x ↔
      (bd.ramBase ≤ x ∧ x < bd.windowEnd) ∧ start ≤ x ∧ x < stop := by
  rw [windowRange]
  split_ifs with hlo hhi hempty <;> simp only [Option.toList_none, Option.toList_some, map_nil, map_cons, covers_nil,
      covers_cons, or_false, DtbRange.span, false_iff] <;>
    omega

theorem windowRange_inWindow (hbd : bd = .virt ∨ bd = .rpi3) (hstart : start % pageSize = 0)
    (hstop : stop % pageSize = 0) : InWindow bd (windowRange bd start stop).toList := by
  obtain ⟨hram, hwin, -, -⟩ := Board.window hbd
  have hlo : (if start < bd.ramBase then bd.ramBase else start) % pageSize = 0 := by
    split_ifs
    · exact hram
    · exact hstart
  have hhi : WindowEnd bd (if bd.windowEnd < stop then bd.windowEnd else stop) := by
    split_ifs with hlt
    · exact ⟨hwin, le_rfl⟩
    · exact ⟨hstop, Nat.not_lt.1 hlt⟩
  intro r hr
  rw [Option.mem_toList, windowRange] at hr
  generalize (if start < bd.ramBase then bd.ramBase else start) = lo at hlo hr
  generalize (if bd.windowEnd < stop then bd.windowEnd else stop) = hi at hhi hr
  split_ifs at hr with hempty
  obtain rfl := Option.some.inj hr
  have hle : lo ≤ hi := (Nat.not_le.1 hempty).le
  rw [DtbRange.span, Nat.add_sub_cancel' hle]
  exact ⟨⟨hlo, hle.trans hhi.2⟩, hhi⟩

theorem covers_wholePages (bd : Board) (l : List DtbRange) (p : ℕ) :
    Intervals.Covers ((wholePages bd l).map DtbRange.span) p ↔
      (bd.ramBase ≤ p ∧ p < bd.windowEnd) ∧ ∃ r ∈ l, alignUp4k r.base ≤ p ∧ p < alignDown4k r.stop := by
  rw [wholePages, covers_filterMap]
  simp only [covers_windowRange]
  constructor
  · rintro ⟨r, hr, hwin, hin⟩
    exact ⟨hwin, r, hr, hin⟩
  · rintro ⟨hwin, r, hr, hin⟩
    exact ⟨r, hr, hwin, hin⟩

theorem covers_pages {l : List DtbRange} (hl : ∀ r ∈ l, r.span.2 % pageSize = 0) (hp : p % pageSize = 0) :
    Intervals.Covers (l.map DtbRange.span) p ↔ ∃ r ∈ l, r.base ≤ p ∧ p + pageSize ≤ r.base + r.size := by
  have hend : ∀ r ∈ l, (p < r.base + r.size ↔ p + pageSize ≤ r.base + r.size) := by
    intro r hr
    have hmod := hl r hr
    simp only [DtbRange.span, pageSize] at *
    omega
  constructor
  · rintro ⟨w, hw, hlo, hhi⟩
    obtain ⟨r, hr, rfl⟩ := mem_map.1 hw
    exact ⟨r, hr, hlo, (hend r hr).1 hhi⟩
  · rintro ⟨r, hr, hlo, hhi⟩
    exact ⟨r.span, mem_map_of_mem hr, hlo, (hend r hr).2 hhi⟩

theorem inWindow_filterMap (h : ∀ r ∈ l, InWindow bd (f r).toList) : InWindow bd (l.filterMap f) := by
  intro r hr
  obtain ⟨r', hr', hf⟩ := mem_filterMap.1 hr
  exact h r' hr' r (Option.mem_toList.2 hf)

theorem inWindow_ite {c : Prop} [Decidable c] {a b : Option DtbRange} (ha : InWindow bd a.toList)
    (hb : InWindow bd b.toList) : InWindow bd (if c then a else b).toList := by
  split_ifs
  · exact ha
  · exact hb

theorem wholePages_inWindow (hbd : bd = .virt ∨ bd = .rpi3) (l : List DtbRange) : InWindow bd (wholePages bd l) :=
  inWindow_filterMap fun _ _ ↦ windowRange_inWindow hbd (alignUp4k_mod _) (alignDown4k_mod _)

theorem covers_touchedPages (r : DtbRange) (hwin : bd.ramBase ≤ p ∧ p < bd.windowEnd) :
    Intervals.Covers ((touchedPages bd r).toList.map DtbRange.span) p ↔
      r.size ≠ 0 ∧ alignDown4k r.base ≤ p ∧ p < alignUp4k r.stop := by
  rw [touchedPages]
  split_ifs with hzero
  · simp [hzero]
  · rw [covers_windowRange, and_iff_right hwin]
    exact (and_iff_right hzero).symm

theorem touchedPages_inWindow (hbd : bd = .virt ∨ bd = .rpi3) (r : DtbRange) :
    InWindow bd (touchedPages bd r).toList := by
  rw [touchedPages]
  split_ifs
  · exact fun _ hr ↦ nomatch hr
  · exact windowRange_inWindow hbd (alignDown4k_mod _) (alignUp4k_mod _)

end

/-! ### The reserved list -/

theorem pushReserved_eq {rsv : List DtbRange} (h : rsv.length < maxReserved) (r : Option DtbRange) :
    pushReserved rsv r = rsv ++ r.toList := by
  cases r with
  | none => rw [pushReserved, Option.toList_none, append_nil]
  | some r => rw [pushReserved, if_pos h, Option.toList_some]

theorem foldl_pushReserved {rsv : List DtbRange} (h : rsv.length + l.length ≤ maxReserved) :
    l.foldl (fun rsv r ↦ pushReserved rsv (f r)) rsv = rsv ++ l.filterMap f := by
  induction l generalizing rsv with
  | nil => rw [foldl_nil, filterMap_nil, append_nil]
  | cons r l ih =>
    rw [length_cons] at h
    rw [foldl_cons, pushReserved_eq (by omega)]
    have hlen : (rsv ++ (f r).toList).length ≤ rsv.length + 1 := by
      rw [length_append]
      exact Nat.add_le_add_left (by cases f r <;> simp) _
    rw [ih (by omega), filterMap_cons, append_assoc]
    cases f r <;> rfl

namespace UsableEnv

/-- The four implicit ranges as the code computes them. -/
def implicitRanges (env : UsableEnv) (memMin : ℕ) (bi : BootInfo) : List (Option DtbRange) :=
  [if memMin ≠ 2 ^ 64 - 1 ∧ memMin < bi.kernelPhysBase then
      windowRange env.board (alignDown4k memMin) (alignUp4k bi.kernelPhysBase)
    else none,
    windowRange env.board (alignDown4k bi.kernelPhysBase) (alignUp4k env.runtimeEndPa),
    metadataRange env.board env.runtimeEndPa,
    if bi.dtbPtr = 0 then none
    else
      windowRange env.board (alignDown4k (env.board.hhVirtToPhys bi.dtbPtr))
        (alignUp4k (u64 (env.board.hhVirtToPhys bi.dtbPtr + dtbBlobSize env.dtbTotalsize bi.dtbSize)))]

theorem reserveImplicit_eq (env : UsableEnv) (memMin : ℕ) (bi : BootInfo) (rsv : List DtbRange) :
    env.reserveImplicit memMin bi rsv =
      (env.implicitRanges memMin bi).foldl (fun rsv r ↦ pushReserved rsv (id r)) rsv := by
  have hnone : ∀ rsv, pushReserved rsv none = rsv := fun _ ↦ rfl
  simp only [reserveImplicit, implicitRanges, foldl_cons, foldl_nil, id]
  split_ifs <;> simp only [hnone]

theorem allReserved_eq (h : env.reserved.length ≤ 64) (memMin : ℕ) :
    env.allReserved memMin bootInfo = env.reserved.filterMap (touchedPages env.board) ++
      bootInfo.elim [] fun bi ↦ (env.implicitRanges memMin bi).filterMap id := by
  have hlen := length_filterMap_le (touchedPages env.board) env.reserved
  have hreserved : env.reserved.foldl (fun rsv r ↦ pushReserved rsv (touchedPages env.board r)) [] =
      env.reserved.filterMap (touchedPages env.board) := foldl_pushReserved (by rw [length_nil, maxReserved]; omega)
  unfold allReserved
  rw [hreserved]
  cases bootInfo with
  | none => rw [Option.elim_none, append_nil]
  | some bi =>
    simp only [Option.elim_some]
    rw [reserveImplicit_eq, foldl_pushReserved]
    show _ + 4 ≤ maxReserved
    rw [maxReserved]
    omega

/-! ### Pages of the two lists -/

section

variable (h : env.Placed bootInfo)
include h

theorem runtimeEndPa_lt : env.runtimeEndPa < 2 ^ 64 - 2 ^ 46 :=
  Board.hhVirtToPhys_lt h.board h.runtimeEnd_lt

theorem dtbBlobSize_pos (bi : BootInfo) : 0 < dtbBlobSize env.dtbTotalsize bi.dtbSize ∧
      dtbBlobSize env.dtbTotalsize bi.dtbSize < 2 ^ 32 := by
  obtain ⟨hpos, hlt⟩ := h.totalsize
  simp only [dtbBlobSize, if_neg hpos.ne']
  split_ifs <;> omega

theorem metadata_stop : u64 (alignUp4k env.runtimeEndPa + pmmMetadataPages * pageSize) =
      alignUp4k env.runtimeEndPa + pmmMetadataPages * pageSize := by
  have hlt := runtimeEndPa_lt h
  have hup : alignUp4k env.runtimeEndPa ≤ env.runtimeEndPa + (pageSize - 1) := by
    rw [alignUp4k_eq (by rw [pageSize]; omega)]
    exact alignDown4k_le _
  rw [u64, Nat.mod_eq_of_lt]
  simp only [pageSize, pmmMetadataPages] at *
  omega

theorem metadataRange_eq : metadataRange env.board env.runtimeEndPa =
      if alignUp4k env.runtimeEndPa < env.board.windowEnd then
        some ⟨alignUp4k env.runtimeEndPa,
          min env.board.windowEnd (alignUp4k env.runtimeEndPa + pmmMetadataPages * pageSize) -
            alignUp4k env.runtimeEndPa⟩
      else none := by
  rw [metadataRange, metadata_stop h]
  generalize alignUp4k env.runtimeEndPa = lo
  have hmin : ∀ hi : ℕ, (if env.board.windowEnd < hi then env.board.windowEnd else hi) =
      min env.board.windowEnd hi := by
    intro hi
    split_ifs <;> omega
  rw [hmin]
  by_cases hlt : lo < env.board.windowEnd
  · have hpos : lo < min env.board.windowEnd (lo + pmmMetadataPages * pageSize) :=
      lt_min hlt (Nat.lt_add_of_pos_right (by decide))
    rw [if_pos hlt, if_pos hlt, if_pos hpos]
  · rw [if_neg hlt, if_neg hlt]

theorem covers_metadataRange (hwin : p < env.board.windowEnd) (hp : p % pageSize = 0) :
    Intervals.Covers ((metadataRange env.board env.runtimeEndPa).toList.map DtbRange.span) p ↔
      TouchesPage p (alignUp4k env.runtimeEndPa) (alignUp4k env.runtimeEndPa + pmmMetadataPages * pageSize) := by
  have hmod := alignUp4k_mod env.runtimeEndPa
  rw [metadataRange_eq h, TouchesPage]
  simp only [pmmMetadataPages, pageSize] at *
  split_ifs
  · simp only [Option.toList_some, map_cons, map_nil, covers_cons, covers_nil, or_false, DtbRange.span]
    omega
  · simp only [Option.toList_none, map_nil, covers_nil, false_iff]
    omega

theorem metadataRange_inWindow : InWindow env.board (metadataRange env.board env.runtimeEndPa).toList := by
  obtain ⟨-, hend, -, -⟩ := Board.window h.board
  have hmod := alignUp4k_mod env.runtimeEndPa
  intro r hr
  rw [Option.mem_toList, metadataRange_eq h] at hr
  split_ifs at hr with hlt
  obtain rfl := Option.some.inj hr
  simp only [pmmMetadataPages, pageSize, WindowEnd, DtbRange.span] at *
  omega

theorem covers_mergedMemory (p : ℕ) : Intervals.Covers (env.mergedMemory.map DtbRange.span) p ↔ env.HeldPage p := by
  have hfit := (wholePages_inWindow h.board env.memory).fit h.board
  rw [mergedMemory, covers_normalize hfit, covers_wholePages]
  rfl

theorem mergedMemory_inWindow : InWindow env.board env.mergedMemory :=
  normalize_forall ((wholePages_inWindow h.board env.memory).fit h.board) (wholePages_inWindow h.board env.memory)

theorem memMinBase_le (hram : env.HeldPage p) : env.memMinBase ≤ p := by
  have hfit := (wholePages_inWindow h.board env.memory).fit h.board
  have hsorted : LowSorted (env.mergedMemory.map DtbRange.span) := (separated_normalize hfit).lowSorted
  obtain ⟨w, hw, hle, -⟩ := (covers_mergedMemory h p).2 hram
  rw [memMinBase]
  cases hmem : env.mergedMemory with
  | nil =>
    rw [hmem] at hw
    cases hw
  | cons m mem =>
    rw [hmem] at hw hsorted
    rcases mem_cons.1 hw with rfl | hw
    · exact hle
    · exact ((pairwise_cons.1 hsorted).1 w hw).trans hle

theorem memMinBase_lt : env.memMinBase ≠ 2 ^ 64 - 1 := by
  obtain ⟨-, -, hle, hwin⟩ := Board.window h.board
  rw [memMinBase]
  cases hmem : env.mergedMemory with
  | nil =>
    show env.board.ramBase ≠ _
    omega
  | cons m mem =>
    have hm := (mergedMemory_inWindow h m (by rw [hmem]; exact mem_cons_self)).1.2
    show m.base ≠ _
    rw [DtbRange.span_fst] at hm
    omega

end

/-- **The boot region and the kernel's footprint** as the code rounds them: without the first when
the address of the kernel cannot be rounded up. -/
def KernelPage (env : UsableEnv) (bi : BootInfo) (p : ℕ) : Prop :=
  (bi.kernelPhysBase ≤ 2 ^ 64 - pageSize ∧ p < bi.kernelPhysBase) ∨
    (bi.kernelPhysBase < p + pageSize ∧ p < env.runtimeEndPa)

section

variable (h : env.Placed bootInfo)
include h

theorem covers_boot (hbi : bi ∈ bootInfo) (hp : p % pageSize = 0) (hram : env.HeldPage p) :
    Intervals.Covers ((if env.memMinBase ≠ 2 ^ 64 - 1 ∧ env.memMinBase < bi.kernelPhysBase then
        windowRange env.board (alignDown4k env.memMinBase) (alignUp4k bi.kernelPhysBase)
      else none).toList.map DtbRange.span) p ↔
      bi.kernelPhysBase ≤ 2 ^ 64 - pageSize ∧ p < bi.kernelPhysBase := by
  have hle := memMinBase_le h hram
  have hlow : alignDown4k env.memMinBase ≤ p := (alignDown4k_le _).trans hle
  have hlt := (h.boot bi hbi).1
  rcases Nat.lt_or_ge (2 ^ 64 - pageSize) bi.kernelPhysBase with hwrap | hfits
  · rw [alignUp4k_wraps hwrap hlt]
    refine ⟨fun hcov ↦ ?_, fun hin ↦ absurd hin.1 (Nat.not_le.2 hwrap)⟩
    split_ifs at hcov
    · exact absurd ((covers_windowRange ..).1 hcov).2.2 (Nat.not_lt_zero p)
    · exact absurd hcov (covers_nil p)
  · simp only [hfits, true_and]
    split_ifs with hboot
    · rw [covers_windowRange, page_lt_alignUp4k hp hfits]
      exact ⟨fun hcov ↦ hcov.2.2, fun hin ↦ ⟨hram.1, hlow, hin⟩⟩
    · refine ⟨fun hcov ↦ absurd hcov (covers_nil p), fun hin ↦ absurd ⟨?_, ?_⟩ hboot⟩
      · exact memMinBase_lt h
      · exact hle.trans_lt hin

theorem covers_kernel (bi : BootInfo) (hp : p % pageSize = 0) (hram : env.HeldPage p) :
    Intervals.Covers ((windowRange env.board (alignDown4k bi.kernelPhysBase)
        (alignUp4k env.runtimeEndPa)).toList.map DtbRange.span) p ↔
      bi.kernelPhysBase < p + pageSize ∧ p < env.runtimeEndPa := by
  have hend := runtimeEndPa_lt h
  rw [covers_windowRange, alignDown4k_le_page hp, page_lt_alignUp4k hp (by rw [pageSize]; omega)]
  exact and_iff_right hram.1

theorem covers_dtb (hbi : bi ∈ bootInfo) (hp : p % pageSize = 0) (hram : env.HeldPage p) :
    Intervals.Covers ((windowRange env.board (alignDown4k (env.board.hhVirtToPhys bi.dtbPtr))
        (alignUp4k (u64 (env.board.hhVirtToPhys bi.dtbPtr +
          dtbBlobSize env.dtbTotalsize bi.dtbSize)))).toList.map DtbRange.span) p ↔
      TouchesPage p (env.board.hhVirtToPhys bi.dtbPtr)
        (env.board.hhVirtToPhys bi.dtbPtr + dtbBlobSize env.dtbTotalsize bi.dtbSize) := by
  have hphys := Board.hhVirtToPhys_lt h.board (h.boot bi hbi).2
  obtain ⟨hpos, hlt⟩ := dtbBlobSize_pos h bi
  rw [u64, Nat.mod_eq_of_lt (by omega), covers_windowRange, alignDown4k_le_page hp,
    page_lt_alignUp4k hp (by rw [pageSize]; omega), TouchesPage, and_iff_right hram.1,
    and_iff_right (Nat.lt_add_of_pos_right hpos)]

theorem allReserved_inWindow (memMin : ℕ) : InWindow env.board (env.allReserved memMin bootInfo) := by
  rw [allReserved_eq h.reserved_le]
  intro r hr
  rcases mem_append.1 hr with hr | hr
  · exact inWindow_filterMap (fun r _ ↦ touchedPages_inWindow h.board r) r hr
  cases bootInfo with
  | none => cases hr
  | some bi =>
    refine inWindow_filterMap (fun o ho ↦ ?_) r hr
    have hnone : InWindow env.board (none : Option DtbRange).toList := fun _ hr ↦ nomatch hr
    simp only [implicitRanges, mem_cons, not_mem_nil, or_false] at ho
    have hrange : ∀ lo hi, InWindow env.board
        (windowRange env.board (alignDown4k lo) (alignUp4k hi)).toList := fun lo hi ↦
      windowRange_inWindow h.board (alignDown4k_mod lo) (alignUp4k_mod hi)
    rw [id]
    rcases ho with ho | ho | ho | ho
    · rw [ho]
      exact inWindow_ite (hrange _ _) hnone
    · rw [ho]
      exact hrange _ _
    · rw [ho]
      exact metadataRange_inWindow h
    · rw [ho]
      exact inWindow_ite hnone (hrange _ _)

theorem covers_implicitRanges (hbi : bi ∈ bootInfo) (hp : p % pageSize = 0) (hram : env.HeldPage p) :
    Intervals.Covers (((env.implicitRanges env.memMinBase bi).filterMap id).map DtbRange.span) p ↔
      env.KernelPage bi p ∨ ∃ w ∈ env.blobs bi, TouchesPage p w.1 w.2 := by
  rw [covers_filterMap, implicitRanges, blobs]
  simp only [exists_mem_cons_iff, not_mem_nil, false_and, exists_false, or_false, id]
  rw [covers_boot h hbi hp hram, covers_kernel h bi hp hram, covers_metadataRange h hram.1.2 hp, ← or_assoc]
  refine or_congr Iff.rfl (or_congr Iff.rfl ?_)
  split_ifs
  · simp
  · rw [covers_dtb h hbi hp hram]
    simp

theorem covers_mergedReserved (hp : p % pageSize = 0) (hram : env.HeldPage p) :
    Intervals.Covers ((env.mergedReserved bootInfo).map DtbRange.span) p ↔ env.KeptPage p ∨
      ∃ bi ∈ bootInfo, env.KernelPage bi p ∨ ∃ w ∈ env.blobs bi, TouchesPage p w.1 w.2 := by
  have hfit := (allReserved_inWindow h env.memMinBase).fit h.board
  rw [mergedReserved, covers_normalize hfit, allReserved_eq h.reserved_le, map_append, covers_append, covers_filterMap]
  refine or_congr ?_ ?_
  · exact exists_congr fun r ↦ and_congr_right fun _ ↦ covers_touchedPages r hram.1
  · cases bootInfo with
    | none => simp
    | some bi =>
      rw [Option.elim_some, covers_implicitRanges h rfl hp hram]
      exact ⟨fun hin ↦ ⟨bi, rfl, hin⟩, fun ⟨_, hbi, hin⟩ ↦ Option.some.inj hbi ▸ hin⟩

theorem mergedReserved_inWindow : InWindow env.board (env.mergedReserved bootInfo) :=
  normalize_forall ((allReserved_inWindow h _).fit h.board) (allReserved_inWindow h _)

end

end UsableEnv

/-! ### The result -/

section

variable {cap : ℕ} {out : List DtbRange}

theorem subtracted_pages (h : env.Placed bootInfo) {left : List DtbRange}
    (hleft : subtractReserved cap env.mergedMemory (env.mergedReserved bootInfo) = some left) :
    InWindow env.board left ∧ ∀ p, p % pageSize = 0 →
      (Intervals.Covers (left.map DtbRange.span) p ↔ env.HeldPage p ∧ ¬env.KeptPage p ∧
        ∀ bi ∈ bootInfo, ¬env.KernelPage bi p ∧ ∀ w ∈ env.blobs bi, ¬TouchesPage p w.1 w.2) := by
  have hmem := UsableEnv.mergedMemory_inWindow h
  have hrsv := UsableEnv.mergedReserved_inWindow h
  have hspans := subtractReserved_spans (hmem.fit h.board) (hrsv.fit h.board) hleft
  constructor
  · intro r hr
    have hmap : r.span ∈ left.map DtbRange.span := mem_map_of_mem hr
    rw [hspans] at hmap
    refine (subtract_forall (fun m hm ↦ ?_) (fun w hw ↦ ?_) _ hmap).1
    · obtain ⟨m', hm', rfl⟩ := mem_map.1 hm
      exact hmem m' hm'
    · obtain ⟨r', hr', rfl⟩ := mem_map.1 hw
      exact hrsv r' hr'
  · intro p hp
    have hsortedMem : LowSorted (env.mergedMemory.map DtbRange.span) :=
      (separated_normalize ((wholePages_inWindow h.board _).fit h.board)).lowSorted
    have hsortedRsv : LowSorted ((env.mergedReserved bootInfo).map DtbRange.span) :=
      (separated_normalize ((UsableEnv.allReserved_inWindow h _).fit h.board)).lowSorted
    rw [hspans, covers_subtract hsortedMem hsortedRsv, UsableEnv.covers_mergedMemory h p]
    refine and_congr_right fun hram ↦ ?_
    rw [UsableEnv.covers_mergedReserved h hp hram, not_or]
    simp only [not_exists, not_and, not_or]

/-- **The ranges of the result**: whole pages of the window in separated ranges, and which pages
these are. -/
theorem covers_usable (h : env.Placed bootInfo) (hout : platformGetUsableRanges env bootInfo cap = some out) :
    InWindow env.board out ∧ Separated (out.map DtbRange.span) ∧ ∀ p, p % pageSize = 0 →
      (Intervals.Covers (out.map DtbRange.span) p ↔ env.HeldPage p ∧ ¬env.KeptPage p ∧
        ∀ bi ∈ bootInfo, ¬env.KernelPage bi p ∧ ∀ w ∈ env.blobs bi, ¬TouchesPage p w.1 w.2) := by
  rw [platformGetUsableRanges] at hout
  split_ifs at hout
  obtain ⟨left, hleft, rfl⟩ := Option.map_eq_some_iff.1 hout
  obtain ⟨hin, hpages⟩ := subtracted_pages h hleft
  have hwhole := wholePages_inWindow h.board left
  refine ⟨normalize_forall (hwhole.fit h.board) hwhole, separated_normalize (hwhole.fit h.board), ?_⟩
  intro p hp
  obtain ⟨-, -, -, hwin⟩ := Board.window h.board
  have hfits : ∀ r ∈ left, r.base + r.size ≤ 2 ^ 64 - pageSize := by
    intro r hr
    have hle := (hin r hr).2.2
    simp only [DtbRange.span, pageSize] at *
    omega
  rw [covers_normalize (hwhole.fit h.board), covers_wholePages, ← hpages p hp,
    covers_pages (fun r hr ↦ (hin r hr).2.1) hp, exists_congr fun r ↦ and_congr_right fun hr ↦ held_iff (hfits r hr) hp]
  refine and_iff_right_of_imp fun hin' ↦ ?_
  exact ((hpages p hp).1 ((covers_pages (fun r hr ↦ (hin r hr).2.1) hp).2 hin')).1.1

theorem kernelPage_iff (hk : bi.kernelPhysBase ≤ 2 ^ 64 - pageSize) (p : ℕ) :
    env.KernelPage bi p ↔ TouchesPage p 0 bi.kernelPhysBase ∨
      TouchesPage p bi.kernelPhysBase env.runtimeEndPa := by
  simp only [UsableEnv.KernelPage, TouchesPage, pageSize] at *
  omega

theorem kernelPage_of_wraps (h : env.Placed bootInfo) (hk : 2 ^ 64 - pageSize < bi.kernelPhysBase)
    (hlt : p < env.board.windowEnd) : ¬env.KernelPage bi p ∧ TouchesPage p 0 bi.kernelPhysBase := by
  obtain ⟨-, -, -, hwin⟩ := Board.window h.board
  simp only [UsableEnv.KernelPage, TouchesPage, pageSize] at *
  omega

theorem not_touches_implicit : (∀ w ∈ env.implicitReservations bi, ¬TouchesPage p w.1 w.2) ↔
      ¬(TouchesPage p 0 bi.kernelPhysBase ∨ TouchesPage p bi.kernelPhysBase env.runtimeEndPa) ∧
        ∀ w ∈ env.blobs bi, ¬TouchesPage p w.1 w.2 := by
  rw [UsableEnv.implicitReservations, forall_mem_cons, forall_mem_cons, ← and_assoc, not_or]

end

/-! ### A small board -/

/-- A device tree with one memory range and one reserved range. -/
def usableEnv : UsableEnv where
  board := .virt
  memory := [⟨0x40000000, 0x10000000⟩]
  reserved := [⟨0x48000800, 0x100⟩]
  dtbTotalsize := 0x1000
  runtimeEnd := 0xFFFF800040300000

end CapazOS
