import CapazOS.Kheap.Invariant
import CapazOS.Mm.PmmSearch

/-!
# Requests of any size

`kmalloc` cuts the number of pages of a large request to 32 bits. A request of up to `2 ^ 44` bytes
with its header gets what it needs or nothing; **beyond that every block that is handed out is too
small** (`kmalloc_room_iff`).
-/

namespace CapazOS

open List hiding Disjoint
open ByteMem Function

variable {bd : Board} {h : Kheap} {size : ℕ}

/-! ### What the heap serves -/

def PmmState.Serves (st : PmmState) (count : ℕ) : Prop :=
  0 < count ∧ ∃ i, st.FreeRunAt count i ∧ ¬st.Straddles count i

/-- There is a block for a request: a free one of its bucket, a page to cut, or pages. -/
def Kheap.Serves (h : Kheap) (size : ℕ) : Prop :=
  size ≠ 0 ∧ (bucketForSize size).elim (h.pmm.st.Serves (bigPages size)) fun b ↦ h.freelist b ≠ 0 ∨ h.pmm.st.Serves 1

theorem HeapEnv.alloc {g : Pmm} (E : HeapEnv bd g) {n : ℕ} (hn : 0 < n) :
    (∃ g', pmmAllocPages g n = (none, g') ∧ ¬g.st.Serves n) ∨
      ∃ pa g', pmmAllocPages g n = (some pa, g') ∧ g.st.Serves n ∧
        bd.physToHhVirt pa = bd.hhBase + pa ∧ pa % pageSize = 0 ∧
        pa + pageSize ≤ bd.ramBase + bd.ramDirectmapSize := by
  have hserves : g.st.Serves n ↔ (pmmAllocPages g n).1.isSome := by
    rw [PmmState.Serves, isSome_pmmAllocPages E.ready.counted hn, and_iff_right hn]
  rcases (PmmSys.inv_init E.ready).alloc n with ⟨g', hres, -⟩ | ⟨pa, g', hres, hg, hpa, -⟩
  · exact .inl ⟨g', hres, by rw [hserves, hres]; exact Bool.false_ne_true⟩
  · have hmem : pa ∈ pageSpan pa n := (mem_pageSpan_iff hpa).2 ⟨hpa, le_rfl, by simp only [pageSize]; omega⟩
    obtain ⟨hlo, hhi⟩ := E.page_bounds hg (Finset.mem_union_right _ hmem)
    exact .inr ⟨pa, g', hres, by rw [hserves, hres]; rfl, E.physToHhVirt_eq hlo hhi, hpa, hhi.trans E.hi⟩

theorem kmalloc_big (E : HeapEnv bd h.pmm) (hpos : 0 < size) (hb : bucketForSize size = none) :
    (kmalloc bd h size).1 = 0 ∧ ¬h.Serves size ∨
      (h.Serves size ∧ 0 < bigPages size) ∧ ∃ pa, (kmalloc bd h size).1 = bd.hhBase + pa + heapHdrBytes ∧
        pa % pageSize = 0 ∧ pa + pageSize ≤ bd.ramBase + bd.ramDirectmapSize := by
  have hserves : h.Serves size ↔ h.pmm.st.Serves (bigPages size) := by
    rw [Kheap.Serves, hb]
    exact and_iff_right hpos.ne'
  rw [hserves]
  simp only [kmalloc, if_neg hpos.ne', hb, kmallocBig, kheapAllocPages]
  rcases Nat.eq_zero_or_pos (bigPages size) with hzero | hpages
  · simp only [hzero, if_true]
    exact .inl ⟨trivial, fun hs ↦ absurd hs.1 (lt_irrefl 0)⟩
  · simp only [if_neg hpages.ne', Kheap.setCtr]
    rcases E.alloc hpages with ⟨g', hres, hno⟩ | ⟨pa, g', hres, hyes, hva, hpa, hle⟩
    · simp only [hres, if_true]
      exact .inl ⟨trivial, hno⟩
    · have hne : bd.hhBase + pa ≠ 0 := by
        have := E.placed.hh_pos
        omega
      simp only [hres, hva, if_neg hne]
      exact .inr ⟨⟨hyes, hpages⟩, pa, rfl, hpa, hle⟩

theorem freelist_foldl_pushFree (ps : List ℕ) (h : Kheap) (b : ℕ) :
    (ps.foldl (fun h p ↦ h.pushFree b p) h).freelist b = ps.getLast?.getD (h.freelist b) := by
  induction ps using List.reverseRecOn with
  | nil => rfl
  | append_singleton ps p _ =>
    rw [foldl_append, getLast?_concat, Option.getD_some]
    exact update_self ..

theorem slabBlocks_ne_nil {b base : ℕ} (hb : b < numBuckets) (hbase : base % pageSize = 0) :
    slabBlocks base (bucketSize b) ≠ [] := by
  simp only [slabBlocks, ne_eq, range'_eq_nil_iff, heapHdrBytes, pageSize] at *
  rcases bucketSize_cases hb with h | h | h | h | h | h | h | h <;> rw [h] <;> omega

def Board.InWindow (bd : Board) (a : ℕ) : Prop :=
  bd.hhBase ≤ a ∧ a < bd.hhBase + bd.ramBase + bd.ramDirectmapSize

theorem kmalloc_small (E : HeapEnv bd h.pmm) {b : ℕ} (hb : bucketForSize size = some b) (hpos : 0 < size) :
    (kmalloc bd h size).1 = 0 ∧ ¬h.Serves size ∨ h.Serves size ∧ (kmalloc bd h size).1 ≠ 0 ∧
      ((kmalloc bd h size).1 = h.freelist b ∨ bd.InWindow (kmalloc bd h size).1) := by
  have hserves : h.Serves size ↔ h.freelist b ≠ 0 ∨ h.pmm.st.Serves 1 := by
    rw [Kheap.Serves, hb]
    exact and_iff_right hpos.ne'
  have hlt : b < numBuckets := (findIdx?_eq_some_iff_getElem.1 hb).1
  rw [hserves]
  simp only [kmalloc, if_neg hpos.ne', hb, kmallocSmall, Kheap.setCtr]
  by_cases hfree : h.freelist b = 0
  · simp only [hfree, if_true, refillBucket, pmmAllocPageVa, Kheap.setCtr]
    have E' : HeapEnv bd { h.pmm with ctr := h.pmm.ctr.countAlloc } := ⟨E.placed, E.ready, E.lo, E.hi⟩
    rcases E'.alloc one_pos with ⟨g', hres, hno⟩ | ⟨pa, g', hres, hyes, hva, hpa, hle⟩
    · simp only [hres, if_true, Kheap.setPmm, hfree]
      exact .inl ⟨trivial, fun hs ↦ hs.elim (absurd rfl) hno⟩
    · have hne : bd.hhBase + pa ≠ 0 := by
        have := E.placed.hh_pos
        omega
      have hbase : (bd.hhBase + pa) % pageSize = 0 := by
        have := E.placed.hh_mod
        simp only [pageSize] at *
        omega
      obtain ⟨p, hp⟩ := Option.ne_none_iff_exists'.1 (mt getLast?_eq_none_iff.1 (slabBlocks_ne_nil hlt hbase))
      have hmem := Finset.mem_Ico.1 ((slabBlocks_spec hlt hbase).2 p (mem_of_getLast? hp)).2
      have hin : p ≠ 0 ∧ bd.InWindow p := ⟨by omega, by omega, by omega⟩
      simp only [hres, hva, if_neg hne, freelist_foldl_pushFree, hp, Option.getD_some, if_neg hin.1]
      exact .inr ⟨.inr hyes, hin.1, .inr hin.2⟩
  · simp only [hfree, if_false]
    exact .inr ⟨.inl hfree, hfree, .inl trivial⟩

/-! ### Room -/

/-- **The pages of a large request**: enough, as long as their number is not cut, and else short of
at least `2 ^ 44` bytes. -/
theorem bigPages_room (hsize : size < 2 ^ 64) : bigPages size < 2 ^ 32 ∧
      (size + heapHdrBytes ≤ 2 ^ 44 → 0 < bigPages size → size + heapHdrBytes ≤ bigPages size * pageSize) ∧
      (2 ^ 44 < size + heapHdrBytes → bigPages size * pageSize + 2 ^ 44 ≤ size + heapHdrBytes + pageSize) := by
  simp only [bigPages, alignUp4k, alignDown4k, u64, heapHdrBytes, pageSize]
  omega

/-- **What `kmalloc` hands out**: nothing, or a block with room for the request as long as the
number of pages is not cut, and else without. -/
theorem kmalloc_cases (E : HeapEnv bd h.pmm) (hsize : size < 2 ^ 64) : (kmalloc bd h size).1 = 0 ∧ ¬h.Serves size ∨
      h.Serves size ∧ ∃ p room, (kmalloc bd h size).1 = p ∧ p ≠ 0 ∧
        ((∃ b, p = h.freelist b) ∨ bd.InWindow p) ∧ (HeapBlock.mk p size).start ≤ p ∧
        (HeapBlock.mk p size).start + (HeapBlock.mk p size).charge = p + room ∧ room ≤ 2 ^ 44 ∧
        (size + heapHdrBytes ≤ 2 ^ 44 → size ≤ room) ∧
        (2 ^ 44 < size + heapHdrBytes → room + 2 ^ 44 ≤ size + pageSize) := by
  rcases Nat.eq_zero_or_pos size with rfl | hpos
  · exact .inl ⟨rfl, fun hs ↦ hs.1 rfl⟩
  rcases hb : bucketForSize size with - | b
  · obtain ⟨hlt, hroom, hshort⟩ := bigPages_room hsize
    rcases kmalloc_big E hpos hb with hnone | ⟨⟨hyes, hpages⟩, pa, hp, hpa, hle⟩
    · exact .inl hnone
    · have hkind : ∀ p, (HeapBlock.mk p size).kind = .big (bigPages size) := fun p ↦ by
        simp only [HeapBlock.kind, heapKind, hb]
      have hmod := E.placed.hh_mod
      refine .inr ⟨hyes, _, bigPages size * pageSize - heapHdrBytes, hp, ?_⟩
      simp only [HeapBlock.start, HeapBlock.charge, hkind, Board.InWindow, alignDown4k, heapHdrBytes, pageSize] at *
      refine ⟨by omega, .inr ⟨by omega, by omega⟩, by omega, by omega, by omega, by omega, by omega⟩
  · have hkind : ∀ p, (HeapBlock.mk p size).kind = .small b (bucketSize b) := fun p ↦ by
      simp only [HeapBlock.kind, heapKind, hb]
    obtain ⟨hlt, -, hle⟩ := HeapBlock.kind_small (hkind 0)
    rcases kmalloc_small E hb hpos with hnone | ⟨hyes, hne, hp⟩
    · exact .inl hnone
    · have hbs : bucketSize b ≤ 2048 := by rcases bucketSize_cases hlt with h | h | h | h | h | h | h | h <;> omega
      refine .inr ⟨hyes, _, bucketSize b, rfl, hne, hp.imp_left fun heq ↦ ⟨b, heq⟩, ?_⟩
      simp only [HeapBlock.start, HeapBlock.charge, hkind, heapHdrBytes] at *
      exact ⟨le_rfl, trivial, by omega, fun _ ↦ hle, fun hbig ↦ by omega⟩

/-- **A block of `kmalloc` has room for the request iff the number of pages is not cut**, or there
is no block: for requests of any size, in every state of the heap. -/
theorem kmalloc_room_iff {bd : Board} {h : Kheap} (E : HeapEnv bd h.pmm) {size : ℕ} (hsize : size < 2 ^ 64) :
    (∀ p, (kmalloc bd h size).1 = p → p ≠ 0 → Finset.Ico p (p + size) ⊆ (HeapBlock.mk p size).footprint) ↔
      size + heapHdrBytes ≤ 2 ^ 44 ∨ ¬h.Serves size := by
  rcases kmalloc_cases E hsize with ⟨hnull, hno⟩ | ⟨hyes, p, room, hp, hne, -, hstart, hend, -, hroom, hshort⟩
  · exact iff_of_true (fun p heq hne ↦ absurd (heq.symm.trans hnull) hne) (.inr hno)
  constructor
  · intro hall
    have hsub := hall p hp hne
    rw [HeapBlock.footprint, hend, Finset.Ico_subset_Ico_iff (Nat.lt_add_of_pos_right
      (Nat.pos_of_ne_zero hyes.1))] at hsub
    simp only [pageSize] at *
    omega
  · rintro (hle | hno) q heq -
    · obtain rfl := hp.symm.trans heq
      rw [HeapBlock.footprint, hend]
      exact Finset.Ico_subset_Ico hstart (Nat.add_le_add_left (hroom hle) p)
    · exact absurd hyes hno

theorem virtEnv_kmalloc_cut : ((pmmInit virtEnv .initial).map fun g ↦
    (kmalloc .virt (kheapInit g (fun _ ↦ 0) .initial) (2 ^ 44)).1) = some 0xFFFF800040012008 := by
  decide +kernel

theorem kmalloc_room_virtEnv : ∃ g₀, pmmInit virtEnv .initial = some g₀ ∧
    ∀ p, (kmalloc .virt (kheapInit g₀ (fun _ ↦ 0) .initial) 5000).1 = p → p ≠ 0 →
      Finset.Ico p (p + 5000) ⊆ (HeapBlock.mk p 5000).footprint := by
  obtain ⟨g₀, hinit, -⟩ := Option.map_eq_some_iff.1 virtEnv_kmalloc_cut
  exact ⟨g₀, hinit, (kmalloc_room_iff (h := kheapInit g₀ (fun _ ↦ 0) .initial)
    (pmmInit_heapEnv hinit Board.placed_virt) (by decide)).2 (.inl (by decide))⟩

/-- **A request for `2 ^ 44` bytes is served with one page.** -/
theorem kmalloc_too_small : ∃ g₀ p, pmmInit virtEnv .initial = some g₀ ∧
    (kmalloc .virt (kheapInit g₀ (fun _ ↦ 0) .initial) (2 ^ 44)).1 = p ∧ p ≠ 0 ∧
    (HeapBlock.mk p (2 ^ 44)).charge = pageSize ∧
    ¬Finset.Ico p (p + 2 ^ 44) ⊆ (HeapBlock.mk p (2 ^ 44)).footprint := by
  obtain ⟨g₀, hinit, hp⟩ := Option.map_eq_some_iff.1 virtEnv_kmalloc_cut
  refine ⟨g₀, _, hinit, hp, by decide, by decide, fun hsub ↦ ?_⟩
  rw [HeapBlock.footprint, Finset.Ico_subset_Ico_iff (by decide)] at hsub
  exact absurd hsub.2 (by decide)

end CapazOS
