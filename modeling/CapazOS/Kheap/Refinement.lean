import CapazOS.Kheap.Shape

/-!
# The kernel heap refines its shape

`HeapRep` says that the heap in memory is an abstract heap: the page allocator's owned pages are the
pages of the shape, every header says what its page is, and the free lists are threaded through
memory in the shape's order. Each function of `kheap.c` is then a move of the shape.

The heap relies on the bytes of its headers and of its free blocks and on no others
(`HeapShape.Private`), so that **whatever the callers write into their own memory leaves the
representation alone** (`HeapRep.setMem`).
-/

namespace CapazOS

open List hiding Disjoint
open ByteMem Function

variable {g₀ g : Pmm} {O : Finset ℕ} {m : Mem} {a b n base hh pa bs size p : ℕ} {σ : HeapShape}
  {l₁ l₂ : List HeapBlock} {c : HeapBlock} {h' : Kheap}

/-! ### Pages from the page allocator -/

namespace PmmSys

theorem Inv.setCtr (h : Inv g₀ ⟨g, O⟩) (c : PmmCounters) : Inv g₀ ⟨{ g with ctr := c }, O⟩ :=
  ⟨h.ready, h.base_eq, h.total_eq, h.meta_eq, h.clear_iff, h.owned_page⟩

theorem Inv.alloc (h : Inv g₀ ⟨g, O⟩) (n : ℕ) : (∃ g', pmmAllocPages g n = (none, g') ∧ Inv g₀ ⟨g', O⟩) ∨
      ∃ pa g', pmmAllocPages g n = (some pa, g') ∧ Inv g₀ ⟨g', O ∪ pageSpan pa n⟩ ∧
        pa % pageSize = 0 ∧ ∀ p ∈ pageSpan pa n, p ∉ O := by
  have hinv := inv_alloc h n
  rcases hres : pmmAllocPages g n with ⟨_ | pa, g'⟩
  · simp only [step, hres] at hinv
    exact .inl ⟨g', rfl, hinv⟩
  · simp only [step, hres] at hinv
    obtain ⟨-, i, rfl, hle, -, hfresh⟩ := alloc_fresh h (show (pmmAllocPages g n).1 = some pa by rw [hres])
    refine .inr ⟨_, g', rfl, hinv, ?_, fun p hp ↦ ?_⟩
    · have hbase := h.ready.whole.base_mod
      simp only [pageSize] at hbase ⊢
      omega
    · obtain ⟨k, hk, rfl⟩ := exists_index_of_mem_pageSpan hp
      have hout := (hfresh k hk).2.2
      rwa [Nat.add_assoc, ← Nat.add_mul] at hout

theorem Inv.free_list (hr₀ : g₀.st.Ready) (h : Inv g₀ ⟨g, O⟩) {l : List ℕ} (hnodup : l.Nodup)
    (hl : ∀ pa ∈ l, pa ∈ O) : Inv g₀ ⟨l.foldl pmmFreePage g, O \ l.toFinset⟩ := by
  induction l generalizing g O with
  | nil => simpa using h
  | cons pa l ih =>
    obtain ⟨hpa, hnodup⟩ := nodup_cons.1 hnodup
    have hstep : Inv g₀ ⟨pmmFreePage g pa, O.erase pa⟩ := inv_free hr₀ h (hl pa mem_cons_self)
    have hrest := ih hstep hnodup fun p hp ↦ Finset.mem_erase.2 ⟨fun heq ↦ hpa (heq ▸ hp), hl p (mem_cons_of_mem pa hp)⟩
    have hset : O.erase pa \ l.toFinset = O \ (pa :: l).toFinset := by
      ext p
      simp only [Finset.mem_sdiff, Finset.mem_erase, mem_toFinset, mem_cons]
      tauto
    rwa [hset] at hrest

end PmmSys

/-! ### Headers -/

theorem readHdr_congr {m' : Mem} {page : ℕ} (h : ∀ x ∈ Finset.Ico page (page + heapHdrBytes), m' x = m x) :
    readHdr m' page = readHdr m page := by
  have hsub : ∀ o n, o + n ≤ heapHdrBytes → load m' (page + o) n = load m (page + o) n :=
    fun o n hle ↦ load_congr fun x hx ↦ h x (by simp only [Finset.mem_Ico] at hx ⊢; omega)
  have h4 := hsub 0 4 (by decide)
  rw [Nat.add_zero] at h4
  simp only [readHdr, h4, hsub 4 2 (by decide), hsub 6 2 (by decide), hsub 4 4 (by decide)]

theorem disjoint_windows {m : ℕ} (h : a + m ≤ b ∨ b + n ≤ a) :
    Disjoint (Finset.Ico a (a + m)) (Finset.Ico b (b + n)) := by
  refine Finset.disjoint_left.2 fun x hx hx' ↦ ?_
  simp only [Finset.mem_Ico] at hx hx'
  omega

theorem load_writeSlabHdr_size (m : Mem) (base : ℕ) (hb : b < numBuckets) :
    load (writeSlabHdr m base b) (base + 6) 2 = bucketSize b := by
  have hsize : bucketSize b < 256 ^ 2 := by rcases bucketSize_cases hb with h | h | h | h | h | h | h | h <;> omega
  rw [writeSlabHdr, load_store_self _ _ hsize]

theorem readHdr_writeSlabHdr (m : Mem) (base : ℕ) (hb : b < numBuckets) :
    readHdr (writeSlabHdr m base b) base = some (.small b (bucketSize b)) := by
  have hb' : b < 256 ^ 2 := lt_trans hb (by decide)
  have hmagic : load (writeSlabHdr m base b) base 4 = slabMagic := by
    rw [writeSlabHdr, load_store_of_disjoint (disjoint_windows (by omega)),
      load_store_of_disjoint (disjoint_windows (by omega)), load_store_self _ _ (by decide)]
  have hbucket : load (writeSlabHdr m base b) (base + 4) 2 = b := by
    rw [writeSlabHdr, load_store_of_disjoint (disjoint_windows (by omega)), load_store_self _ _ hb']
  simp [readHdr, hmagic, hbucket, load_writeSlabHdr_size m base hb, if_neg (Nat.not_le.2 hb)]

theorem readHdr_writeBigHdr (m : Mem) (base : ℕ) (hn : 0 < n) (hn' : n < 2 ^ 32) :
    readHdr (writeBigHdr m base n) base = some (.big n) := by
  have hmagic : load (writeBigHdr m base n) base 4 = bigMagic := by
    rw [writeBigHdr, load_store_of_disjoint (disjoint_windows (by omega)), load_store_self _ _ (by decide)]
  have hpages : load (writeBigHdr m base n) (base + 4) 4 = n := by
    rw [writeBigHdr, load_store_self _ _ (lt_of_lt_of_eq hn' (by norm_num))]
  have hne : bigMagic ≠ slabMagic := by decide
  simp [readHdr, hmagic, hpages, if_neg hne, if_neg (Nat.ne_of_gt hn)]

theorem readHdr_small {page blockSize : ℕ} (h : readHdr m page = some (.small b blockSize)) :
    load m (page + 4) 2 = b ∧ load m (page + 6) 2 = blockSize := by
  simp only [readHdr] at h
  split_ifs at h
  · exact HeapKind.small.inj (Option.some.inj h)
  · cases h

theorem writeSlabHdr_of_notMem {x : ℕ} (hx : x ∉ Finset.Ico base (base + heapHdrBytes)) :
    writeSlabHdr m base b x = m x := by
  simp only [Finset.mem_Ico, heapHdrBytes] at hx
  rw [writeSlabHdr, store_of_notMem, store_of_notMem, store_of_notMem] <;>
    · simp only [Finset.mem_Ico]
      omega

theorem writeBigHdr_of_notMem {x : ℕ} (hx : x ∉ Finset.Ico base (base + heapHdrBytes)) :
    writeBigHdr m base n x = m x := by
  simp only [Finset.mem_Ico, heapHdrBytes] at hx
  rw [writeBigHdr, store_of_notMem, store_of_notMem] <;>
    · simp only [Finset.mem_Ico]
      omega

/-! ### The representation -/

namespace HeapShape

def owned (hh : ℕ) (σ : HeapShape) : Finset ℕ :=
  σ.held ∪ (σ.slabs ∪ σ.live.toFinset.biUnion (HeapBlock.pages hh))

theorem mem_owned : pa ∈ σ.owned hh ↔ σ.Owns hh pa := by simp [owned, Owns]

/-- The bytes the heap relies on: the headers and the free blocks. -/
def Private (hh : ℕ) (σ : HeapShape) (a : ℕ) : Prop :=
  (∃ pa ∈ σ.slabs, a ∈ Finset.Ico (hh + pa) (hh + pa + heapHdrBytes)) ∨ (∃ c ∈ σ.live, (∃ n, c.kind = .big n) ∧
      a ∈ Finset.Ico (alignDown4k c.ptr) (alignDown4k c.ptr + heapHdrBytes)) ∨
    ∃ b < numBuckets, ∃ p ∈ σ.free b, a ∈ slotRange b p

section

variable (w : σ.WF hh)
include w

theorem WF.mem_footprint_of_hdr (hc : c ∈ σ.live) (hk : c.kind = .big n)
    (ha : a ∈ Finset.Ico (alignDown4k c.ptr) (alignDown4k c.ptr + heapHdrBytes)) : a ∈ c.footprint := by
  have hroom := w.room c hc
  have hptr := (w.big_ptr c hc n hk).2
  rw [HeapBlock.footprint_big hk]
  simp only [HeapBlock.start, HeapBlock.charge, hk] at hroom
  simp only [Finset.mem_Ico] at ha ⊢
  omega

theorem WF.pageOf_of_hdr (hpa : pa ∈ σ.slabs) (ha : a ∈ Finset.Ico (hh + pa) (hh + pa + heapHdrBytes)) :
    pageOf hh a = pa := pageOf_eq w.hh_mod (w.page_mod pa (.inr (.inl hpa)))
    (Finset.Ico_subset_Ico_right (Nat.add_le_add_left (by decide) _) ha)

theorem Private.page (ha : σ.Private hh a) : pageOf hh a ∈ σ.slabs ∨ ∃ c ∈ σ.live, pageOf hh a ∈ c.pages hh := by
  rcases ha with ⟨pa, hpa, ha⟩ | ⟨c, hc, ⟨n, hk⟩, ha⟩ | ⟨b, hb, p, hp, ha⟩
  · exact .inl (w.pageOf_of_hdr hpa ha ▸ hpa)
  · exact (w.page_of_mem hc (w.mem_footprint_of_hdr hc hk ha)).2.imp id fun h ↦ ⟨c, hc, h⟩
  · have hslot := w.free_slot b hb p hp
    exact .inl ((hslot.of_mem hb ha).2.1 ▸ hslot.mem)

theorem Private.owns (ha : σ.Private hh a) : σ.Owns hh (pageOf hh a) := .inr (Private.page w ha)

theorem Private.notMem_held (ha : σ.Private hh a) : pageOf hh a ∉ σ.held := fun hheld ↦ by
  rcases Private.page w ha with h | ⟨c, hc, h⟩
  · exact Finset.disjoint_left.1 w.held_slabs hheld h
  · exact Finset.disjoint_left.1 (w.big_held c hc) h hheld

theorem Private.notMem_footprint (hlive : σ.live = l₁ ++ c :: l₂) (ha : (σ.setLive (l₁ ++ l₂)).Private hh a) :
    a ∉ c.footprint := by
  obtain ⟨hc, hsub, haway⟩ := w.around hlive
  intro hin
  rcases ha with ⟨pa, hpa, ha⟩ | ⟨d, hd, ⟨n, hk⟩, ha⟩ | ⟨b, hb, p, hp, ha⟩
  · rcases hk : c.kind with ⟨b, bs⟩ | n
    · -- a block of a slab starts behind the header
      rw [HeapBlock.footprint_small hk] at hin
      have hslot := w.small_slot c hc b bs hk
      obtain ⟨hle, -, hoff⟩ := hslot.of_mem (HeapBlock.kind_small hk).1 hin
      have hpage := w.pageOf_of_hdr hpa ha
      simp only [pageOf, heapHdrBytes, Finset.mem_Ico] at hpage ha
      omega
    · exact Finset.disjoint_left.1 (w.big_slabs c hc) (w.big_page hc hk hin).2 (w.pageOf_of_hdr hpa ha ▸ hpa)
  · exact Finset.disjoint_left.1 (haway d hd) hin ((w.sublist hsub).mem_footprint_of_hdr hd hk ha)
  · exact Finset.disjoint_left.1 (w.free_live b hb p hp c hc) ha hin

/-- **The callers' bytes are not the heap's.** -/
theorem Private.notMem_extent (ha : σ.Private hh a) (hc : c ∈ σ.live) : a ∉ c.extent := by
  obtain ⟨l₁, l₂, hlive⟩ := append_of_mem hc
  intro hin
  have hout : ¬(σ.setLive (l₁ ++ l₂)).Private hh a := fun h ↦ Private.notMem_footprint w hlive h (c.extent_subset hin)
  rcases ha with h | ⟨d, hd, ⟨n, hk⟩, ha⟩ | h
  · exact hout (.inl h)
  · by_cases hd' : d ∈ l₁ ++ l₂
    · exact hout (.inr (.inl ⟨d, hd', ⟨n, hk⟩, ha⟩))
    · -- the header of the allocation itself
      rw [hlive, mem_append, mem_cons] at hd
      rw [mem_append] at hd'
      obtain rfl : d = c := by tauto
      have hptr := (w.big_ptr d hc n hk).2
      simp only [HeapBlock.extent, Finset.mem_Ico] at hin ha
      omega
  · exact hout (.inr (.inr h))

end

end HeapShape

/-- Headers and free lists in memory are those of the shape. -/
structure HeapInMemory (hh : ℕ) (h : Kheap) (σ : HeapShape) : Prop where
  slab_hdr : ∀ pa ∈ σ.slabs, readHdr h.mem (hh + pa) = some (.small (σ.bucket pa) (bucketSize (σ.bucket pa)))
  big_hdr : ∀ c ∈ σ.live, ∀ n, c.kind = .big n → readHdr h.mem (alignDown4k c.ptr) = some (.big n)
  lists : ∀ b < numBuckets, Threaded h.mem (h.freelist b) (σ.free b)

/-- **The heap in memory is the abstract one.** -/
structure HeapRep (bd : Board) (g₀ : Pmm) (h : Kheap) (σ : HeapShape) : Prop extends HeapInMemory bd.hhBase h σ where
  wf : σ.WF bd.hhBase
  pmm : PmmSys.Inv g₀ ⟨h.pmm, σ.owned bd.hhBase⟩
  charged : h.ctr.curBytes = (σ.live.map HeapBlock.charge).sum

/-- What `pmm_init` leaves on a board: the managed window lies inside the direct map. -/
structure HeapEnv (bd : Board) (g₀ : Pmm) : Prop where
  placed : bd.Placed
  ready : g₀.st.Ready
  lo : bd.ramBase ≤ g₀.st.basePa
  hi : g₀.st.limitPa ≤ bd.ramBase + bd.ramDirectmapSize

section

variable {bd : Board} {h : Kheap}

theorem eight_le_bucketSize (hb : b < numBuckets) : 8 ≤ bucketSize b := by
  rcases bucketSize_cases hb with h | h | h | h | h | h | h | h <;> omega

theorem HeapInMemory.setMem (r : HeapInMemory hh h σ) (hm : ∀ a, σ.Private hh a → m a = h.mem a) :
    HeapInMemory hh (h.setMem m) σ where
  slab_hdr := fun pa hpa ↦ (readHdr_congr fun x hx ↦ hm x (.inl ⟨pa, hpa, hx⟩)).trans (r.slab_hdr pa hpa)
  big_hdr := fun c hc n hk ↦
    (readHdr_congr fun x hx ↦ hm x (.inr (.inl ⟨c, hc, ⟨n, hk⟩, hx⟩))).trans (r.big_hdr c hc n hk)
  lists := fun b hb ↦ (r.lists b hb).congr fun p hp x hx ↦ hm x <| .inr <| .inr
    ⟨b, hb, p, hp, Finset.Ico_subset_Ico_right (Nat.add_le_add_left (eight_le_bucketSize hb) p) hx⟩

theorem HeapInMemory.sublist (r : HeapInMemory hh h σ) {live : List HeapBlock} (hsub : live.Sublist σ.live) :
    HeapInMemory hh h (σ.setLive live) := ⟨r.slab_hdr, fun c hc ↦ r.big_hdr c (hsub.subset hc), r.lists⟩

section

variable (r : HeapRep bd g₀ h σ)
include r

theorem HeapRep.setMem (hm : ∀ a, σ.Private bd.hhBase a → m a = h.mem a) : HeapRep bd g₀ (h.setMem m) σ :=
  ⟨r.toHeapInMemory.setMem hm, r.wf, r.pmm, r.charged⟩

theorem HeapRep.setCtr {c : KheapCounters} (hc : c.curBytes = h.ctr.curBytes) : HeapRep bd g₀ (h.setCtr c) σ :=
  ⟨⟨r.slab_hdr, r.big_hdr, r.lists⟩, r.wf, r.pmm, hc.trans r.charged⟩

theorem HeapRep.setPmm (hg : PmmSys.Inv g₀ ⟨g, σ.owned bd.hhBase⟩) : HeapRep bd g₀ (h.setPmm g) σ :=
  ⟨⟨r.slab_hdr, r.big_hdr, r.lists⟩, r.wf, hg, r.charged⟩

theorem HeapRep.setHeld {held : Finset ℕ} (hheld : ∀ pa ∈ held, pa ∈ σ.held ∨ pa % pageSize = 0 ∧ ¬σ.Owns bd.hhBase pa)
    (hg : PmmSys.Inv g₀ ⟨g, (σ.setHeld held).owned bd.hhBase⟩) :
    HeapRep bd g₀ (h.setPmm g) (σ.setHeld held) := ⟨⟨r.slab_hdr, r.big_hdr, r.lists⟩, r.wf.setHeld hheld, hg, r.charged⟩

theorem HeapRep.page_marked (hpa : pa ∈ σ.slabs ∨ ∃ c ∈ σ.live, pa ∈ c.pages bd.hhBase) :
    ∃ i < g₀.st.totalPages, pa = g₀.st.basePa + i * pageSize ∧ bitTest g₀.st.bitmap i = false ∧
      bitTest h.pmm.st.bitmap i = true ∧ pa ∉ σ.held := by
  have hown : pa ∈ σ.owned bd.hhBase := HeapShape.mem_owned.2 (.inr hpa)
  obtain ⟨i, hi, rfl, hclear₀⟩ := r.pmm.owned_page pa hown
  refine ⟨i, r.pmm.total_eq ▸ hi, by rw [← r.pmm.base_eq], hclear₀, ?_, fun hheld ↦ ?_⟩
  · by_contra hclear
    exact ((r.pmm.clear_iff i hi).1 (Bool.eq_false_iff.2 hclear)).2 hown
  · rcases hpa with hpa | ⟨c, hc, hpa⟩
    · exact Finset.disjoint_left.1 r.wf.held_slabs hheld hpa
    · exact Finset.disjoint_left.1 (r.wf.big_held c hc) hpa hheld

theorem HeapRep.page_of_marked {i : ℕ} (hi : i < g₀.st.totalPages) (hclear₀ : bitTest g₀.st.bitmap i = false)
    (hset : bitTest h.pmm.st.bitmap i = true) (hheld : g₀.st.basePa + i * pageSize ∉ σ.held) :
    g₀.st.basePa + i * pageSize ∈ σ.slabs ∨ ∃ c ∈ σ.live, g₀.st.basePa + i * pageSize ∈ c.pages bd.hhBase := by
  by_contra hout
  have hnot : g₀.st.basePa + i * pageSize ∉ σ.owned bd.hhBase := fun hown ↦ (HeapShape.mem_owned.1 hown).elim hheld hout
  have hclear := (r.pmm.clear_iff i (r.pmm.total_eq.symm ▸ hi)).2
    ⟨hclear₀, by rw [show h.pmm.st.basePa = _ from r.pmm.base_eq]; exact hnot⟩
  rw [show bitTest h.pmm.st.bitmap i = false from hclear] at hset
  cases hset

end

namespace HeapEnv

variable (E : HeapEnv bd g₀)

include E

theorem page_bounds (hinv : PmmSys.Inv g₀ ⟨g, O⟩) (hpa : pa ∈ O) :
    g₀.st.basePa ≤ pa ∧ pa + pageSize ≤ g₀.st.limitPa := by
  obtain ⟨i, hi, rfl, -⟩ := hinv.owned_page pa hpa
  have hi' : i < g₀.st.totalPages := hinv.total_eq ▸ hi
  rw [show g.st.basePa = g₀.st.basePa from hinv.base_eq]
  exact (PmmSys.page_in_window E.ready.whole hi').2

theorem physToHhVirt_eq (hlo : g₀.st.basePa ≤ pa) (hhi : pa + pageSize ≤ g₀.st.limitPa) :
    bd.physToHhVirt pa = bd.hhBase + pa := by
  have := E.placed.fits
  have := E.hi
  simp only [Board.physToHhVirt, Board.hhRamBase, u64, pageSize] at *
  omega

theorem hhVirtToPhys_eq (hlo : g₀.st.basePa ≤ pa) (hhi : pa + pageSize ≤ g₀.st.limitPa) :
    bd.hhVirtToPhys (bd.hhBase + pa) = pa := by
  have hfits := E.placed.fits
  have hram := E.lo
  have hend := E.hi
  simp only [pageSize] at hhi hfits
  have hbase : bd.hhRamBase = bd.hhBase + bd.ramBase := Nat.mod_eq_of_lt (by omega)
  rw [Board.hhVirtToPhys, hbase, if_pos (by omega), u64, Nat.mod_eq_of_lt (by omega)]
  omega

theorem lt_of_page (hhi : pa + pageSize ≤ g₀.st.limitPa)
    (ha : a ∈ Finset.Ico (bd.hhBase + pa) (bd.hhBase + pa + pageSize)) : a < 2 ^ 64 ∧ a ≠ 0 := by
  have := E.placed.fits
  have := E.placed.hh_pos
  have := E.hi
  simp only [Finset.mem_Ico, pageSize] at *
  omega

theorem sum_charge_lt (w : σ.WF bd.hhBase) (hinv : PmmSys.Inv g₀ ⟨g, σ.owned bd.hhBase⟩) :
    (σ.live.map HeapBlock.charge).sum < 2 ^ 64 := by
  have hle := sum_charge_le w.disjoint
    (S := Finset.Ico (bd.hhBase + g₀.st.basePa) (bd.hhBase + g₀.st.limitPa)) fun c hc a ha ↦ by
      obtain ⟨hlo, hhi⟩ := E.page_bounds hinv (HeapShape.mem_owned.2 (w.owns_of_mem hc ha))
      have hpage := mem_Ico_of_pageOf (w.page_of_mem hc ha).1 rfl
      simp only [Finset.mem_Ico] at hpage ⊢
      omega
  have := E.placed.fits
  have := E.hi
  rw [Nat.card_Ico] at hle
  simp only [pageSize] at *
  omega

theorem head_lt (r : HeapRep bd g₀ h σ) {b : ℕ} (hb : b < numBuckets) : h.freelist b < 2 ^ 64 := by
  have hlist := r.lists b hb
  rcases hfree : σ.free b with - | ⟨p, l⟩
  · rw [hfree] at hlist
    rw [show h.freelist b = 0 from hlist]
    decide
  · rw [hfree] at hlist
    rw [hlist.1]
    have hp : p ∈ σ.free b := hfree ▸ mem_cons_self
    have hslot := r.wf.free_slot b hb p hp
    obtain ⟨-, hhi⟩ := E.page_bounds r.pmm (HeapShape.mem_owned.2 (.inr (.inl hslot.mem)))
    exact (E.lt_of_page hhi (mem_Ico_of_pageOf hslot.hh_le rfl)).1

end HeapEnv

/-! ### `refill_bucket` -/

theorem slabBlocks_spec (hb : b < numBuckets) (hbase : base % pageSize = 0) :
    (slabBlocks base (bucketSize b)).Nodup ∧ ∀ p ∈ slabBlocks base (bucketSize b),
      IsSlot b p ∧ p ∈ Finset.Ico base (base + pageSize) := by
  have hpos : 0 < bucketSize b := lt_of_lt_of_le (by decide) (eight_le_bucketSize hb)
  refine ⟨nodup_range' (bucketSize b) hpos, fun p hp ↦ ?_⟩
  simp only [slabBlocks, mem_range'] at hp
  obtain ⟨i, hi, rfl⟩ := hp
  constructor
  · constructor <;> simp only [heapHdrBytes, pageSize] at * <;>
      rcases bucketSize_cases hb with h | h | h | h | h | h | h | h <;> rw [h] at hi ⊢ <;> omega
  · simp only [heapHdrBytes, pageSize, Finset.mem_Ico] at *
    rcases bucketSize_cases hb with h | h | h | h | h | h | h | h <;> rw [h] at hi ⊢ <;> omega

/-- The loop of `refill_bucket`: the blocks are pushed one by one, each only writes its own link. -/
theorem foldl_pushFree {h : Kheap} {ps l : List ℕ} (hlist : Threaded h.mem (h.freelist b) l)
    (hhead : h.freelist b < 2 ^ 64) (hps : ∀ p ∈ ps, p < 2 ^ 64 ∧ p ≠ 0)
    (hdisj : ps.Pairwise fun p q ↦ Disjoint (slotRange b p) (slotRange b q))
    (hl : ∀ p ∈ ps, ∀ q ∈ l, Disjoint (slotRange b q) (slotRange b p)) (hb : b < numBuckets) :
    ∃ h' : Kheap, ps.foldl (fun h p ↦ h.pushFree b p) h = h' ∧ Threaded h'.mem (h'.freelist b) (ps.reverse ++ l) ∧
      (∀ b' ≠ b, h'.freelist b' = h.freelist b') ∧
      (∀ x, (∀ p ∈ ps, x ∉ slotRange b p) → h'.mem x = h.mem x) ∧ h'.pmm = h.pmm ∧ h'.ctr = h.ctr := by
  have hword : ∀ p, Finset.Ico p (p + 8) ⊆ slotRange b p := fun p ↦
    Finset.Ico_subset_Ico_right (Nat.add_le_add_left (eight_le_bucketSize hb) p)
  induction ps generalizing h l with
  | nil => exact ⟨h, rfl, hlist, fun _ _ ↦ rfl, fun _ _ ↦ rfl, rfl, rfl⟩
  | cons p ps ih =>
    obtain ⟨hp, hdisj⟩ := pairwise_cons.1 hdisj
    have hself : (h.pushFree b p).freelist b = p := update_self ..
    have hpush : Threaded (h.pushFree b p).mem ((h.pushFree b p).freelist b) (p :: l) := by
      rw [hself]
      exact hlist.push (hps p mem_cons_self).2 hhead fun q hq ↦ (hl p mem_cons_self q hq).mono (hword q) (hword p)
    obtain ⟨h', heq, hlist', hother, hmem, hpmm, hctr⟩ := ih hpush (by rw [hself]; exact (hps p mem_cons_self).1)
      (fun q hq ↦ hps q (mem_cons_of_mem p hq)) hdisj fun q hq ↦ forall_mem_cons.2
        ⟨hp q hq, hl q (mem_cons_of_mem p hq)⟩
    refine ⟨h', heq, by simpa using hlist', fun b' hne ↦ ?_, fun x hx ↦ ?_, hpmm, hctr⟩
    · rw [hother b' hne]
      exact update_of_ne hne ..
    · rw [hmem x fun q hq ↦ hx q (mem_cons_of_mem p hq)]
      exact store_of_notMem fun hin ↦ hx p mem_cons_self (hword p hin)

theorem HeapShape.owned_addSlab (hh : ℕ) (σ : HeapShape) (pa b : ℕ) (ps : List ℕ) :
    (σ.addSlab pa b ps).owned hh = σ.owned hh ∪ pageSpan pa 1 := by
  ext p
  rw [Finset.mem_union, HeapShape.mem_owned, HeapShape.mem_owned, HeapShape.owns_addSlab, or_comm]
  simp [pageSpan]

section

variable (r : HeapRep bd g₀ h σ) (E : HeapEnv bd g₀)
include r E

theorem HeapRep.carve (hb : b < numBuckets) (hpa : pa % pageSize = 0) (hfresh : ¬σ.Owns bd.hhBase pa)
    (hg : PmmSys.Inv g₀ ⟨g, σ.owned bd.hhBase ∪ pageSpan pa 1⟩) :
    HeapRep bd g₀ ((slabBlocks (bd.hhBase + pa) (bucketSize b)).foldl (fun h p ↦ h.pushFree b p)
        ((h.setPmm g).setMem (writeSlabHdr h.mem (bd.hhBase + pa) b)))
      (σ.addSlab pa b (slabBlocks (bd.hhBase + pa) (bucketSize b)).reverse) := by
  set ps := slabBlocks (bd.hhBase + pa) (bucketSize b) with hps
  have hbase : (bd.hhBase + pa) % pageSize = 0 := by
    have := E.placed.hh_mod
    simp only [pageSize] at *
    omega
  obtain ⟨hnodup, hslot⟩ := slabBlocks_spec hb hbase
  have hbounds := E.page_bounds hg (show pa ∈ _ from
    Finset.mem_union_right _ ((mem_pageSpan_iff hpa).2 ⟨hpa, le_rfl, by simp [pageSize]⟩))
  have hmod := E.placed.hh_mod
  -- the bytes written lie in the fresh page, where the heap relied on nothing
  have haway : ∀ a, σ.Private bd.hhBase a →
      a ∉ Finset.Ico (bd.hhBase + pa) (bd.hhBase + pa + pageSize) := fun a ha hin ↦
    hfresh (pageOf_eq hmod hpa hin ▸ HeapShape.Private.owns r.wf ha)
  have hblock : ∀ p ∈ ps, ∀ a ∈ slotRange b p, bd.hhBase + pa + 16 ≤ a ∧
      a ∈ Finset.Ico (bd.hhBase + pa) (bd.hhBase + pa + pageSize) := fun p hp a ha ↦ by
    obtain ⟨hs, hin⟩ := hslot p hp
    obtain ⟨heq, hle⟩ := hs.range_in_page hb ha
    simp only [Finset.mem_Ico, alignDown4k, pageSize] at *
    omega
  have hmem₁ : ∀ a, σ.Private bd.hhBase a → writeSlabHdr h.mem (bd.hhBase + pa) b a = h.mem a :=
    fun a ha ↦ writeSlabHdr_of_notMem fun hin ↦
      haway a ha (Finset.Ico_subset_Ico_right (Nat.add_le_add_left (by decide) _) hin)
  have r₁ := r.setMem hmem₁
  obtain ⟨h', heq, hlist, hother, hmem, hpmm, hctr⟩ := @foldl_pushFree b
    ((h.setPmm g).setMem (writeSlabHdr h.mem (bd.hhBase + pa) b)) ps _ (r₁.lists b hb)
    (E.head_lt r₁ hb) (fun p hp ↦ E.lt_of_page hbounds.2 (hslot p hp).2)
    (hnodup.imp_of_mem fun hp hq hne ↦ (hslot _ hp).1.disjoint hb (hslot _ hq).1 hne)
    (fun p hp q hq ↦ Finset.disjoint_left.2 fun a ha ha' ↦
      haway a (.inr (.inr ⟨b, hb, q, hq, ha⟩)) (hblock p hp a ha').2) hb
  rw [heq]
  have hmem₂ : ∀ a, σ.Private bd.hhBase a → h'.mem a = h.mem a := fun a ha ↦
    (hmem a fun p hp hin ↦ haway a ha (hblock p hp a hin).2).trans (hmem₁ a ha)
  have r₂ := r.setMem hmem₂
  refine ⟨⟨?_, r₂.big_hdr, ?_⟩, ?_, ?_, ?_⟩
  · intro p hp
    rcases eq_or_ne p pa with rfl | hne
    · rw [show (σ.addSlab p b ps.reverse).bucket p = b from update_self ..,
        ← readHdr_writeSlabHdr h.mem (bd.hhBase + p) hb]
      refine readHdr_congr fun x hx ↦ hmem x fun q hq hin ↦ ?_
      have := (hblock q hq x hin).1
      simp only [Finset.mem_Ico, heapHdrBytes] at hx
      omega
    · rw [show (σ.addSlab pa b ps.reverse).bucket p = _ from update_of_ne hne ..]
      exact r₂.slab_hdr p (Finset.mem_of_mem_insert_of_ne hp hne)
  · intro b' hb'
    rcases eq_or_ne b' b with rfl | hne
    · rw [show (σ.addSlab pa b' ps.reverse).free b' = _ from update_self ..]
      exact hlist
    · rw [show (σ.addSlab pa b ps.reverse).free b' = _ from update_of_ne hne .., hother b' hne]
      exact r₂.lists b' hb'
  · exact r.wf.addSlab hb hpa hfresh (nodup_reverse.2 hnodup) fun p hp ↦ hslot p (mem_reverse.1 hp)
  · rw [HeapShape.owned_addSlab, hpmm]
    exact hg
  · rw [hctr]
    exact r.charged

/-- **A refill** changes neither the live allocations nor other callers' pages. -/
theorem HeapRep.refillBucket (hb : b < numBuckets) :
    ∃ σ', HeapRep bd g₀ (refillBucket bd h b) σ' ∧ σ'.live = σ.live ∧ σ'.held = σ.held := by
  have r' := r.setCtr (c := h.ctr.countRefill b) rfl
  have hinv := r.pmm.setCtr h.pmm.ctr.countAlloc
  unfold CapazOS.refillBucket pmmAllocPageVa
  rcases hinv.alloc 1 with ⟨g, hres, hg⟩ | ⟨pa, g, hres, hg, hpa, hfresh⟩
  · simp only [Kheap.setCtr, hres, if_true]
    exact ⟨σ, r'.setPmm hg, rfl, rfl⟩
  · have hmem : pa ∈ pageSpan pa 1 := (mem_pageSpan_iff hpa).2 ⟨hpa, le_rfl, by simp [pageSize]⟩
    obtain ⟨hlo, hhi⟩ := E.page_bounds hg (Finset.mem_union_right _ hmem)
    have hva := E.physToHhVirt_eq hlo hhi
    have hne : bd.hhBase + pa ≠ 0 := by
      have := E.placed.hh_pos
      omega
    simp only [Kheap.setCtr, hres, hva, if_neg hne]
    exact ⟨_, r'.carve E hb hpa (fun h ↦ hfresh pa hmem (HeapShape.mem_owned.2 h)) hg, rfl, rfl⟩

/-! ### `kmalloc` -/

theorem HeapRep.take (hk : c.kind = .small b bs) (hptr : c.ptr = h.freelist b) (hne : h.freelist b ≠ 0)
    (ctr : KheapCounters) (hctr : ctr.curBytes = u64 (h.ctr.curBytes + bucketSize b)) :
    ∃ l, HeapRep bd g₀ ((h.popFree b).setCtr ctr) (σ.take b l c) := by
  obtain ⟨hb, -, -⟩ := HeapBlock.kind_small hk
  have hlist := r.lists b hb
  rcases hfree : σ.free b with - | ⟨p, l⟩
  · rw [hfree] at hlist
    exact absurd hlist hne
  rw [hfree] at hlist
  obtain ⟨hhead, -, hrest⟩ := hlist
  have hw : (σ.take b l c).WF bd.hhBase := r.wf.take hk (by rw [hfree, hptr, hhead])
  have howned : (σ.take b l c).owned bd.hhBase = σ.owned bd.hhBase := by
    ext pa
    rw [HeapShape.mem_owned, HeapShape.mem_owned]
    exact HeapShape.owns_cons.trans (by simp [HeapBlock.pages_small hk])
  have hinv : PmmSys.Inv g₀ ⟨h.pmm, (σ.take b l c).owned bd.hhBase⟩ := howned ▸ r.pmm
  refine ⟨l, ⟨r.slab_hdr, ?_, ?_⟩, hw, hinv, ?_⟩
  · exact forall_mem_cons.2 ⟨fun n hn ↦ (nomatch hk.symm.trans hn), r.big_hdr⟩
  · intro b' hb'
    rcases eq_or_ne b' b with rfl | hbb
    · rw [show (σ.take b' l c).free b' = l from update_self ..,
        show ((h.popFree b').setCtr ctr).freelist b' = _ from update_self .., hhead]
      exact hrest
    · rw [show (σ.take b l c).free b' = _ from update_of_ne hbb ..,
        show ((h.popFree b).setCtr ctr).freelist b' = _ from update_of_ne hbb ..]
      exact r.lists b' hb'
  · have hsum : ((σ.take b l c).live.map HeapBlock.charge).sum = bucketSize b + (σ.live.map HeapBlock.charge).sum := by
      have hcharge : c.charge = bucketSize b := by simp only [HeapBlock.charge, hk, (HeapBlock.kind_small hk).2.1]
      rw [show (σ.take b l c).live = c :: σ.live from rfl, map_cons, sum_cons, hcharge]
    have hlt := E.sum_charge_lt hw hinv
    show ctr.curBytes = _
    rw [hctr, r.charged, u64, Nat.mod_eq_of_lt (by omega), hsum, Nat.add_comm]

theorem HeapRep.kmallocSmall (hk : heapKind size = .small b bs) (hres : kmallocSmall bd h b = (p, h')) :
    ∃ σ', HeapRep bd g₀ h' σ' ∧ σ'.held = σ.held ∧ σ'.live = if p = 0 then σ.live else ⟨p, size⟩ :: σ.live := by
  have hkind : ∀ ptr, (HeapBlock.mk ptr size).kind = .small b bs := fun _ ↦ hk
  obtain ⟨hb, -, -⟩ := HeapBlock.kind_small (hkind 0)
  obtain ⟨σ₁, r₁, hlive, hheld⟩ : ∃ σ₁, HeapRep bd g₀
      (if h.freelist b = 0 then CapazOS.refillBucket bd h b else h) σ₁ ∧ σ₁.live = σ.live ∧
      σ₁.held = σ.held := by
    split
    · exact r.refillBucket E hb
    · exact ⟨σ, r, rfl, rfl⟩
  unfold CapazOS.kmallocSmall at hres
  generalize (if h.freelist b = 0 then CapazOS.refillBucket bd h b else h) = h₁ at hres r₁
  simp only at hres
  split_ifs at hres with hzero
  · obtain ⟨rfl, rfl⟩ := Prod.mk.inj hres
    exact ⟨σ₁, r₁, hheld, by rw [if_pos rfl, hlive]⟩
  · obtain ⟨rfl, rfl⟩ := Prod.mk.inj hres
    obtain ⟨l, r₂⟩ := r₁.take E (hkind (h₁.freelist b)) rfl hzero
      ((h₁.ctr.countSmallAlloc b).accountAlloc (bucketSize b)) rfl
    exact ⟨_, r₂, hheld, by rw [if_neg hzero, ← hlive]; rfl⟩

end

theorem bigPages_spec (hsize : size ≤ 2 ^ 32) :
    0 < bigPages size ∧ bigPages size < 2 ^ 32 ∧ heapHdrBytes + size ≤ bigPages size * pageSize := by
  simp only [bigPages, alignUp4k, alignDown4k, u64, heapHdrBytes, pageSize]
  omega

theorem HeapShape.owned_cons_big (hpages : c.pages hh = pageSpan pa n) :
    (σ.setLive (c :: σ.live)).owned hh = σ.owned hh ∪ pageSpan pa n := by
  ext p
  rw [Finset.mem_union, HeapShape.mem_owned, HeapShape.mem_owned, HeapShape.owns_cons, hpages, or_comm]

section

variable (r : HeapRep bd g₀ h σ) (E : HeapEnv bd g₀)
include r E

theorem HeapRep.kmallocBig (hsize : size ≤ 2 ^ 32) (hk : heapKind size = .big (bigPages size))
    (hres : kmallocBig bd h size = (p, h')) :
    ∃ σ', HeapRep bd g₀ h' σ' ∧ σ'.held = σ.held ∧ σ'.live = if p = 0 then σ.live else ⟨p, size⟩ :: σ.live := by
  obtain ⟨hpos, hlt, hroom⟩ := bigPages_spec hsize
  unfold CapazOS.kmallocBig kheapAllocPages at hres
  generalize hn : bigPages size = n at *
  simp only [if_neg (Nat.ne_of_gt hpos)] at hres
  rcases r.pmm.alloc n with ⟨g, halloc, hg⟩ | ⟨pa, g, halloc, hg, hpa, hfresh⟩
  · simp only [halloc, if_true] at hres
    obtain ⟨rfl, rfl⟩ := Prod.mk.inj hres
    exact ⟨σ, (r.setPmm hg).setCtr rfl, rfl, (if_pos rfl).symm⟩
  have hmem : pa ∈ pageSpan pa n := (mem_pageSpan_iff hpa).2 ⟨hpa, le_rfl, by simp only [pageSize]; omega⟩
  obtain ⟨hlo, hhi⟩ := E.page_bounds hg (Finset.mem_union_right _ hmem)
  have hhpos := E.placed.hh_pos
  have hne : bd.hhBase + pa ≠ 0 := by omega
  simp only [halloc, E.physToHhVirt_eq hlo hhi, if_neg hne] at hres
  obtain ⟨rfl, rfl⟩ := Prod.mk.inj hres
  set c : HeapBlock := ⟨bd.hhBase + pa + heapHdrBytes, size⟩ with hc
  have hck : c.kind = .big n := hk
  have hw := r.wf.addBig hck hpa rfl (fun q hq ↦ fun hown ↦ hfresh q hq (HeapShape.mem_owned.2 hown)) hroom
  have hdown : alignDown4k c.ptr = bd.hhBase + pa := by
    have := E.placed.hh_mod
    simp only [hc, alignDown4k, heapHdrBytes, pageSize] at *
    omega
  have hpages : c.pages bd.hhBase = pageSpan pa n := by
    rw [HeapBlock.pages_big hck, pageOf, hdown, Nat.add_sub_cancel_left]
  have hinv : PmmSys.Inv g₀ ⟨g, (σ.setLive (c :: σ.live)).owned bd.hhBase⟩ := by
    rw [HeapShape.owned_cons_big hpages]
    exact hg
  -- the header is written into a page that was nobody's
  have r₁ := r.setMem (m := writeBigHdr h.mem (bd.hhBase + pa) n) fun a ha ↦
    writeBigHdr_of_notMem fun hin ↦ by
      have hin' : a ∈ Finset.Ico (bd.hhBase + pa) (bd.hhBase + pa + pageSize) :=
        Finset.Ico_subset_Ico_right (Nat.add_le_add_left (by decide) _) hin
      have hown := HeapShape.Private.owns r.wf ha
      rw [pageOf_eq E.placed.hh_mod hpa hin'] at hown
      exact hfresh pa hmem (HeapShape.mem_owned.2 hown)
  refine ⟨σ.setLive (c :: σ.live), ⟨⟨r₁.slab_hdr, ?_, r₁.lists⟩, hw, hinv, ?_⟩, rfl, ?_⟩
  · refine forall_mem_cons.2 ⟨fun m hm ↦ ?_, r₁.big_hdr⟩
    obtain rfl := HeapKind.big.inj (hck.symm.trans hm)
    rw [hdown]
    exact readHdr_writeBigHdr h.mem _ hpos hlt
  · have hsum : ((σ.setLive (c :: σ.live)).live.map HeapBlock.charge).sum =
        n * pageSize + (σ.live.map HeapBlock.charge).sum := by
      have hcharge : c.charge = n * pageSize := by simp only [HeapBlock.charge, hck]
      rw [show (σ.setLive (c :: σ.live)).live = c :: σ.live from rfl, map_cons, sum_cons, hcharge]
    have hbound := E.sum_charge_lt hw hinv
    show u64 (h.ctr.curBytes + n * pageSize) = _
    rw [r.charged, u64, Nat.mod_eq_of_lt (by omega), hsum, Nat.add_comm]
  · rw [if_neg (by simp only [heapHdrBytes]; omega)]
    rfl

/-- **`kmalloc`** adds the allocation to the live ones, or fails and adds none. -/
theorem HeapRep.kmalloc (hsize : size ≤ 2 ^ 32) (hres : kmalloc bd h size = (p, h')) :
    ∃ σ', HeapRep bd g₀ h' σ' ∧ σ'.held = σ.held ∧ σ'.live = if p = 0 then σ.live else ⟨p, size⟩ :: σ.live := by
  have r₁ := r.setCtr (c := h.ctr.countKmalloc) rfl
  unfold CapazOS.kmalloc at hres
  simp only at hres
  split_ifs at hres
  · obtain ⟨rfl, rfl⟩ := Prod.mk.inj hres
    exact ⟨σ, r₁, rfl, (if_pos rfl).symm⟩
  · split at hres
    · next b hb => exact r₁.kmallocSmall E (show heapKind size = .small b (bucketSize b) by
        simp only [heapKind, hb]) hres
    · next hb => exact r₁.kmallocBig E hsize (by simp only [heapKind, hb]) hres

/-! ### `kfree` -/

/-- **The header at the start of its page says what a live allocation is.** -/
theorem HeapRep.readHdr_live (hc : c ∈ σ.live) : c.ptr ≠ 0 ∧ readHdr h.mem (alignDown4k c.ptr) = some c.kind := by
  have hhpos := E.placed.hh_pos
  have hle := alignDown4k_le c.ptr
  rcases hk : c.kind with ⟨b, bs⟩ | n
  · obtain ⟨-, rfl, -⟩ := HeapBlock.kind_small hk
    have hslot := r.wf.small_slot c hc b _ hk
    have hhh := hslot.hh_le
    have hstart : alignDown4k c.ptr = bd.hhBase + pageOf bd.hhBase c.ptr := by rw [pageOf]; omega
    have hhdr := r.slab_hdr _ hslot.mem
    rw [hslot.bucket, ← hstart] at hhdr
    exact ⟨by omega, hhdr⟩
  · have hhh := (r.wf.big_ptr c hc n hk).1
    exact ⟨by omega, r.big_hdr c hc n hk⟩

end

theorem HeapShape.owned_dropBig (w : σ.WF hh) (hlive : σ.live = l₁ ++ c :: l₂) :
    (σ.setLive (l₁ ++ l₂)).owned hh = σ.owned hh \ c.pages hh := by
  obtain ⟨hc, hsub, haway⟩ := w.around hlive
  ext p
  rw [Finset.mem_sdiff, HeapShape.mem_owned, HeapShape.mem_owned]
  constructor
  · rintro (hp | hp | ⟨d, hd, hp⟩)
    · exact ⟨.inl hp, fun hpc ↦ Finset.disjoint_left.1 (w.big_held c hc) hpc hp⟩
    · exact ⟨.inr (.inl hp), fun hpc ↦ Finset.disjoint_left.1 (w.big_slabs c hc) hpc hp⟩
    · exact ⟨.inr (.inr ⟨d, hsub.subset hd, hp⟩), fun hpc ↦ Finset.disjoint_left.1 (haway d hd)
        (w.mem_footprint_of_page hc hpc) (w.mem_footprint_of_page (hsub.subset hd) hp)⟩
  · rintro ⟨hp | hp | ⟨d, hd, hp⟩, hpc⟩
    · exact .inl hp
    · exact .inr (.inl hp)
    · refine .inr (.inr ⟨d, ?_, hp⟩)
      rw [hlive, mem_append, mem_cons] at hd
      rcases hd with hd | rfl | hd
      · exact mem_append_left l₂ hd
      · exact absurd hp hpc
      · exact mem_append_right l₁ hd

theorem HeapRep.accountFree (r : HeapRep bd g₀ h σ) (hlive : σ.live = l₁ ++ c :: l₂) (ctr : KheapCounters)
    (hcur : ctr.curBytes = h.ctr.curBytes) :
    (ctr.accountFree c.charge).curBytes = ((l₁ ++ l₂).map HeapBlock.charge).sum := by
  have hsum : h.ctr.curBytes = c.charge + ((l₁ ++ l₂).map HeapBlock.charge).sum := by
    rw [r.charged, hlive]
    simp only [map_append, map_cons, sum_append, sum_cons]
    omega
  show (if c.charge ≤ ctr.curBytes then ctr.curBytes - c.charge else 0) = _
  rw [hcur, hsum, if_pos (Nat.le_add_right _ _), Nat.add_sub_cancel_left]

section

variable (r : HeapRep bd g₀ h σ) (E : HeapEnv bd g₀) (hlive : σ.live = l₁ ++ c :: l₂)
include r E hlive

theorem HeapRep.kfreeSmall (hk : c.kind = .small b bs) :
    HeapRep bd g₀ (kfreeSmall h (alignDown4k c.ptr) c.ptr b bs) (σ.giveBack b c.ptr (l₁ ++ l₂)) := by
  obtain ⟨hb, rfl, -⟩ := HeapBlock.kind_small hk
  obtain ⟨hc, hsub, -⟩ := r.wf.around hlive
  have hslot := r.wf.small_slot c hc b _ hk
  have howned : (σ.setLive (l₁ ++ l₂)).owned bd.hhBase = σ.owned bd.hhBase := by
    ext pa
    simp [HeapShape.mem_owned, HeapShape.Owns, HeapShape.setLive, hlive, mem_append, or_and_right, exists_or,
      HeapBlock.pages_small hk, Finset.notMem_empty]
  set m₁ := fill h.mem c.ptr (bucketSize b) kheapPoisonByte with hm₁
  set m₂ := store m₁ c.ptr 8 (h.freelist b) with hm₂
  have hword : Finset.Ico c.ptr (c.ptr + 8) ⊆ slotRange b c.ptr :=
    Finset.Ico_subset_Ico_right (Nat.add_le_add_left (eight_le_bucketSize hb) _)
  have hpoison : ∀ a, a ∉ slotRange b c.ptr → m₁ a = h.mem a := fun a ha ↦ fill_of_notMem ha
  have hlink : ∀ a, a ∉ slotRange b c.ptr → m₂ a = h.mem a := fun a ha ↦
    (store_of_notMem fun hin ↦ ha (hword hin)).trans (hpoison a ha)
  have haway : ∀ a, (σ.setLive (l₁ ++ l₂)).Private bd.hhBase a → a ∉ slotRange b c.ptr := fun a ha ↦
    HeapBlock.footprint_small hk ▸ HeapShape.Private.notMem_footprint r.wf hlive ha
  have r₁ := (r.toHeapInMemory.sublist hsub).setMem fun a ha ↦ hpoison a (haway a ha)
  have r₂ := (r.toHeapInMemory.sublist hsub).setMem fun a ha ↦ hlink a (haway a ha)
  obtain ⟨-, hhi⟩ := E.page_bounds r.pmm (HeapShape.mem_owned.2 (.inr (.inl hslot.mem)))
  have hne := (E.lt_of_page hhi (mem_Ico_of_pageOf hslot.hh_le rfl)).2
  have hstart : alignDown4k c.ptr = bd.hhBase + pageOf bd.hhBase c.ptr := by
    have := hslot.hh_le
    rw [pageOf]
    omega
  refine ⟨⟨r₂.slab_hdr, r₂.big_hdr, fun b' hb' ↦ ?_⟩, r.wf.giveBack hlive hk, ?_, ?_⟩
  · rcases eq_or_ne b' b with rfl | hbb
    · rw [show (σ.giveBack b' c.ptr (l₁ ++ l₂)).free b' = _ from update_self ..,
        show (CapazOS.kfreeSmall h (alignDown4k c.ptr) c.ptr b' (bucketSize b')).freelist b' = c.ptr from
          update_self ..]
      refine (r₁.lists b' hb').push hne (E.head_lt r hb') fun q hq ↦ ?_
      have hdisj := r.wf.free_live b' hb' q hq c hc
      rw [HeapBlock.footprint_small hk] at hdisj
      exact hdisj.mono (Finset.Ico_subset_Ico_right (Nat.add_le_add_left (eight_le_bucketSize hb') q)) hword
    · rw [show (σ.giveBack b c.ptr (l₁ ++ l₂)).free b' = _ from update_of_ne hbb ..,
        show (CapazOS.kfreeSmall h (alignDown4k c.ptr) c.ptr b (bucketSize b)).freelist b' = _ from
          update_of_ne hbb ..]
      exact r₂.lists b' hb'
  · show PmmSys.Inv g₀ ⟨h.pmm, (σ.setLive (l₁ ++ l₂)).owned bd.hhBase⟩
    rw [howned]
    exact r.pmm
  · -- the block size is read back from the header, which is still there
    have hblock : load m₂ (alignDown4k c.ptr + 6) 2 = c.charge := by
      have hhdr := r₂.slab_hdr _ hslot.mem
      rw [show (σ.setLive (l₁ ++ l₂)).bucket _ = b from hslot.bucket, ← hstart] at hhdr
      simp only [HeapBlock.charge, hk]
      exact (readHdr_small hhdr).2
    show (KheapCounters.accountFree _ (load m₂ (alignDown4k c.ptr + 6) 2)).curBytes = _
    rw [hblock]
    exact r.accountFree hlive _ rfl

theorem HeapRep.kfreeBig (hk : c.kind = .big n) :
    HeapRep bd g₀ (kfreeBig bd h (alignDown4k c.ptr) n) (σ.setLive (l₁ ++ l₂)) := by
  obtain ⟨hc, hsub, -⟩ := r.wf.around hlive
  obtain ⟨hpos, hmod, hstart⟩ := r.wf.big_start hc hk
  generalize hpa : pageOf bd.hhBase c.ptr = pa at *
  have hpages : c.pages bd.hhBase = pageSpan pa n := hpa ▸ HeapBlock.pages_big hk
  have hmem : pa ∈ pageSpan pa n := (mem_pageSpan_iff hmod).2 ⟨hmod, le_rfl, by simp only [pageSize]; omega⟩
  have howns : ∀ p ∈ pageSpan pa n, p ∈ σ.owned bd.hhBase := fun p hp ↦
    HeapShape.mem_owned.2 (.inr (.inr ⟨c, hc, hpages ▸ hp⟩))
  obtain ⟨hlo, hhi⟩ := E.page_bounds r.pmm (howns pa hmem)
  have hhpos := E.placed.hh_pos
  have hmap : ((range n).map fun i ↦ pa + i * pageSize).toFinset = pageSpan pa n := by
    ext p
    simp [pageSpan]
  have hinj : ((range n).map fun i ↦ pa + i * pageSize).Nodup := nodup_range.map fun i j hij ↦ PmmSys.page_inj hij
  have hfree := r.pmm.free_list E.ready hinj fun p hp ↦ howns p (hmap ▸ mem_toFinset.2 hp)
  rw [hmap, foldl_map, ← hpages, ← HeapShape.owned_dropBig r.wf hlive] at hfree
  have r₁ := (r.toHeapInMemory.sublist hsub).setMem
    (m := fill h.mem (alignDown4k c.ptr) (n * pageSize) kheapPoisonByte) fun a ha ↦
      fill_of_notMem (HeapBlock.footprint_big hk ▸ HeapShape.Private.notMem_footprint r.wf hlive ha)
  have hctr := r.accountFree hlive h.ctr.countBigFree rfl
  rw [show c.charge = n * pageSize by simp only [HeapBlock.charge, hk]] at hctr
  have hpa0 : alignDown4k (bd.hhVirtToPhys (alignDown4k c.ptr)) = pa := by
    rw [hstart, E.hhVirtToPhys_eq hlo hhi, alignDown4k_of_mod hmod]
  unfold CapazOS.kfreeBig kheapFreePages
  rw [if_neg (by omega), hpa0]
  exact ⟨⟨r₁.slab_hdr, r₁.big_hdr, r₁.lists⟩, r.wf.sublist hsub, hfree, hctr⟩

/-- **`kfree`** of a live pointer takes the allocation off the live ones. -/
theorem HeapRep.kfree : ∃ σ', HeapRep bd g₀ (kfree bd h c.ptr) σ' ∧ σ'.held = σ.held ∧ σ'.live = l₁ ++ l₂ := by
  have r₁ := r.setCtr (c := h.ctr.countKfree) rfl
  obtain ⟨hne, hhdr⟩ := r₁.readHdr_live E (hlive ▸ mem_append_right l₁ mem_cons_self)
  unfold CapazOS.kfree
  simp only [if_neg hne, hhdr]
  rcases hk : c.kind with ⟨b, bs⟩ | n
  · exact ⟨_, r₁.kfreeSmall E hlive hk, rfl, rfl⟩
  · exact ⟨_, r₁.kfreeBig E hlive hk, rfl, rfl⟩

end

end

end CapazOS
