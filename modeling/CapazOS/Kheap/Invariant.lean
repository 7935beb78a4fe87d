import CapazOS.Kheap.Refinement

/-!
# The kernel heap over whole runs

The heap among its callers: `kmalloc` and `kfree` of live pointers, other callers of the page
allocator, and everybody's stores into their own memory. **In every state such a run reaches** the
live blocks are disjoint and inside the heap's pages, the free lists are what they should be, the
header of a live block's page says how it was allocated, and the byte counter is right
(`kheap_invariant`).
-/

namespace CapazOS

open ByteMem

variable (bd : Board)

/-! ### The heap and its callers -/

/-- The heap, the live allocations, and the pages other callers of the page allocator hold. -/
structure KheapSys where
  h : Kheap
  live : List HeapBlock
  held : Finset ℕ

inductive KheapOp where
  | kmalloc (size : ℕ)
  | kfree (ptr : ℕ)
  | allocPages (count : ℕ)
  | freePage (pa : ℕ)
  | store (a : ℕ) (v : UInt8)

namespace KheapSys

/-- One call: an allocation that succeeds is recorded, and a release removes the record. -/
def step (s : KheapSys) : KheapOp → KheapSys
  | .kmalloc size =>
    let (p, h) := CapazOS.kmalloc bd s.h size
    { s with h, live := if p = 0 then s.live else ⟨p, size⟩ :: s.live }
  | .kfree ptr =>
    { s with
      h := CapazOS.kfree bd s.h ptr
      live := s.live.eraseP fun c ↦ decide (c.ptr = ptr) }
  | .allocPages count =>
    match pmmAllocPages s.h.pmm count with
    | (none, g) => { s with h := s.h.setPmm g }
    | (some pa, g) => { s with h := s.h.setPmm g, held := s.held ∪ pageSpan pa count }
  | .freePage pa => { s with h := s.h.setPmm (pmmFreePage s.h.pmm pa), held := s.held.erase pa }
  | .store a v => { s with h := s.h.setMem (Function.update s.h.mem a v) }

theorem step_kmalloc {bd : Board} {s : KheapSys} {size p : ℕ} {h : Kheap}
    (hres : CapazOS.kmalloc bd s.h size = (p, h)) : s.step bd (.kmalloc size) =
      ⟨h, if p = 0 then s.live else ⟨p, size⟩ :: s.live, s.held⟩ := by
  simp only [step, hres]

theorem step_allocPages_none {bd : Board} {s : KheapSys} {count : ℕ} {g : Pmm}
    (hres : pmmAllocPages s.h.pmm count = (none, g)) :
    s.step bd (.allocPages count) = ⟨s.h.setPmm g, s.live, s.held⟩ := by
  simp only [step, hres]

theorem step_allocPages_some {bd : Board} {s : KheapSys} {count pa : ℕ} {g : Pmm}
    (hres : pmmAllocPages s.h.pmm count = (some pa, g)) :
    s.step bd (.allocPages count) = ⟨s.h.setPmm g, s.live, s.held ∪ pageSpan pa count⟩ := by
  simp only [step, hres]

/-- What callers do: requests of at most `2 ^ 32` bytes, releases of what is theirs, and stores into
live blocks and pages of their own. -/
def Allowed (s : KheapSys) : KheapOp → Prop
  | .kmalloc size => size ≤ 2 ^ 32
  | .kfree ptr => ∃ c ∈ s.live, c.ptr = ptr
  | .allocPages count => count < 2 ^ 32
  | .freePage pa => pa ∈ s.held
  | .store a _ => (∃ c ∈ s.live, a ∈ c.extent) ∨ ∃ pa ∈ s.held,
      a ∈ Finset.Ico (bd.physToHhVirt pa) (bd.physToHhVirt pa + pageSize)

def Step (s s' : KheapSys) : Prop := ∃ op, s.Allowed bd op ∧ s' = s.step bd op

/-- The heap after `pmm_init` and `kheap_init`, over whatever memory holds. -/
def start (g : Pmm) (mem : Mem) : KheapSys := { h := kheapInit g mem KheapCounters.initial, live := [], held := ∅ }

/-! ### The property -/

/-- The page at virtual address `page` belongs to the heap: it was free after `pmm_init`, it is
marked now, and no other caller holds it. -/
def HeapPage (g₀ : Pmm) (s : KheapSys) (page : ℕ) : Prop :=
  ∃ i < g₀.st.totalPages, page = bd.physToHhVirt (g₀.st.basePa + i * pageSize) ∧
    bitTest g₀.st.bitmap i = false ∧ bitTest s.h.pmm.st.bitmap i = true ∧
    g₀.st.basePa + i * pageSize ∉ s.held

/-- A page of the heap that starts with a header: any, except those behind the first page of a
multi-page allocation. -/
def HdrPage (g₀ : Pmm) (s : KheapSys) (page : ℕ) : Prop :=
  s.HeapPage bd g₀ page ∧ ∀ c ∈ s.live, ∀ n, c.kind = .big n →
    ¬(alignDown4k c.ptr < page ∧ page < alignDown4k c.ptr + n * pageSize)

structure Sound (g₀ : Pmm) (s : KheapSys) : Prop where
  disjoint : s.live.Pairwise fun c d ↦ Disjoint c.extent d.extent
  room : ∀ c ∈ s.live, Finset.Ico c.ptr (c.ptr + c.size) ⊆ c.extent
  inside : ∀ c ∈ s.live, ∀ a ∈ c.extent, s.HeapPage bd g₀ (alignDown4k a)
  off_headers : ∀ c ∈ s.live, ∀ page, s.HdrPage bd g₀ page → Disjoint c.extent (Finset.Ico page (page + heapHdrBytes))
  free_lists : ∀ b < numBuckets, ∃ l, Threaded s.h.mem (s.h.freelist b) l ∧ l.Nodup ∧
    ∀ p ∈ l, ∀ c ∈ s.live, Disjoint (Finset.Ico p (p + bucketSize b)) c.extent
  recovers : ∀ c ∈ s.live, readHdr s.h.mem (alignDown4k c.ptr) = some (heapKind c.size)
  accounted : s.h.ctr.curBytes = (s.live.map HeapBlock.charge).sum

/-! ### Runs -/

/-- The heap is some abstract heap with the recorded allocations and pages. -/
def Refined (g₀ : Pmm) (s : KheapSys) : Prop :=
  ∃ σ, HeapRep bd g₀ s.h σ ∧ σ.held = s.held ∧ σ.live = s.live

section

variable {bd : Board} {g₀ : Pmm} {s : KheapSys}

theorem refined_start (E : HeapEnv bd g₀) (mem : Mem) : Refined bd g₀ (start g₀ mem) := by
  refine ⟨⟨∅, fun _ ↦ 0, fun _ ↦ [], [], ∅⟩, ⟨⟨?_, ?_, ?_⟩, ?_, ?_, rfl⟩, rfl, rfl⟩
  · exact fun _ h ↦ nomatch h
  · exact fun _ h ↦ nomatch h
  · exact fun _ _ ↦ rfl
  · constructor <;> simp [E.placed.hh_mod, HeapShape.Owns]
  · exact PmmSys.inv_init E.ready

/-- **One step** of the callers is a move of the abstract heap. -/
theorem Refined.step (hs : Refined bd g₀ s) (E : HeapEnv bd g₀) {op : KheapOp}
    (hop : s.Allowed bd op) : Refined bd g₀ (s.step bd op) := by
  obtain ⟨σ, r, hheld, hlive⟩ := hs
  cases op with
  | kmalloc size =>
    obtain ⟨σ', r', hheld', hlive'⟩ := r.kmalloc E hop rfl
    exact ⟨σ', r', hheld'.trans hheld, by rw [hlive', hlive]; rfl⟩
  | kfree ptr =>
    obtain ⟨c, l₁, l₂, -, hptr, hsplit, herase⟩ := List.exists_of_eraseP
      (p := fun c : HeapBlock ↦ decide (c.ptr = ptr)) hop.choose_spec.1
      (decide_eq_true hop.choose_spec.2)
    obtain rfl := of_decide_eq_true hptr
    obtain ⟨σ', r', hheld', hlive'⟩ := r.kfree E (hlive.trans hsplit)
    exact ⟨σ', r', hheld'.trans hheld, hlive'.trans herase.symm⟩
  | allocPages count =>
    rcases r.pmm.alloc count with ⟨g, hres, hg⟩ | ⟨pa, g, hres, hg, hpa, hfresh⟩
    · rw [step_allocPages_none hres]
      exact ⟨σ, r.setPmm hg, hheld, hlive⟩
    · rw [step_allocPages_some hres]
      have howned : (σ.setHeld (s.held ∪ pageSpan pa count)).owned bd.hhBase =
          σ.owned bd.hhBase ∪ pageSpan pa count := by
        ext p
        simp only [HeapShape.mem_owned, HeapShape.Owns, HeapShape.setHeld, Finset.mem_union, hheld]
        exact or_right_comm
      refine ⟨_, r.setHeld (fun p hp ↦ ?_) (howned ▸ hg), rfl, hlive⟩
      rcases Finset.mem_union.1 hp with hp | hp
      · exact .inl (hheld ▸ hp)
      · exact .inr ⟨((mem_pageSpan_iff hpa).1 hp).1, fun hown ↦ hfresh p hp (HeapShape.mem_owned.2 hown)⟩
  | freePage pa =>
    have hpa : pa ∈ σ.held := hheld ▸ hop
    have howned : (σ.setHeld (s.held.erase pa)).owned bd.hhBase = (σ.owned bd.hhBase).erase pa := by
      have hslabs := Finset.disjoint_left.1 r.wf.held_slabs hpa
      have hbig : ∀ c ∈ σ.live, pa ∉ c.pages bd.hhBase := fun c hc h ↦ Finset.disjoint_left.1 (r.wf.big_held c hc) h hpa
      ext p
      rw [Finset.mem_erase, HeapShape.mem_owned, HeapShape.mem_owned]
      simp only [HeapShape.Owns, HeapShape.setHeld, Finset.mem_erase, hheld]
      constructor
      · rintro (⟨hne, hp⟩ | hp | ⟨c, hc, hp⟩)
        · exact ⟨hne, .inl hp⟩
        · exact ⟨fun heq ↦ hslabs (heq ▸ hp), .inr (.inl hp)⟩
        · exact ⟨fun heq ↦ hbig c hc (heq ▸ hp), .inr (.inr ⟨c, hc, hp⟩)⟩
      · rintro ⟨hne, hp | hp⟩
        exacts [.inl ⟨hne, hp⟩, .inr hp]
    have hg : PmmSys.Inv g₀ ⟨pmmFreePage s.h.pmm pa, (σ.owned bd.hhBase).erase pa⟩ :=
      PmmSys.inv_free E.ready r.pmm (HeapShape.mem_owned.2 (.inl hpa))
    exact ⟨_, r.setHeld (fun p hp ↦ .inl (hheld ▸ Finset.mem_of_mem_erase hp)) (howned ▸ hg), rfl, hlive⟩
  | store a v =>
    refine ⟨σ, r.setMem fun x hx ↦ Function.update_of_ne ?_ .., hheld, hlive⟩
    rintro rfl
    rcases hop with ⟨c, hc, hin⟩ | ⟨pa, hpa, hin⟩
    · exact HeapShape.Private.notMem_extent r.wf hx (hlive ▸ hc) hin
    · rw [← hheld] at hpa
      have hown : σ.Owns bd.hhBase pa := .inl hpa
      obtain ⟨hlo, hhi⟩ := E.page_bounds r.pmm (HeapShape.mem_owned.2 hown)
      rw [E.physToHhVirt_eq hlo hhi] at hin
      refine HeapShape.Private.notMem_held r.wf hx ?_
      rwa [pageOf_eq r.wf.hh_mod (r.wf.page_mod pa hown) hin]

theorem refined_of_run (E : HeapEnv bd g₀) {mem : Mem}
    (hrun : Relation.ReflTransGen (Step bd) (start g₀ mem) s) : Refined bd g₀ s := by
  induction hrun with
  | refl => exact refined_start E mem
  | tail _ hstep ih =>
    obtain ⟨op, hop, rfl⟩ := hstep
    exact ih.step E hop

theorem heapPage_of_mem {σ : HeapShape} (E : HeapEnv bd g₀) (r : HeapRep bd g₀ s.h σ) (hheld : σ.held = s.held) {pa : ℕ}
    (hpa : pa ∈ σ.slabs ∨ ∃ c ∈ σ.live, pa ∈ c.pages bd.hhBase) :
    s.HeapPage bd g₀ (bd.hhBase + pa) := by
  obtain ⟨hlo, hhi⟩ := E.page_bounds r.pmm (HeapShape.mem_owned.2 (.inr hpa))
  obtain ⟨i, hi, rfl, hclear₀, hset, hnot⟩ := r.page_marked hpa
  exact ⟨i, hi, (E.physToHhVirt_eq hlo hhi).symm, hclear₀, hset, hheld ▸ hnot⟩

theorem private_of_hdrPage {σ : HeapShape} (E : HeapEnv bd g₀) (r : HeapRep bd g₀ s.h σ)
    (hheld : σ.held = s.held) (hlive : σ.live = s.live) {page : ℕ} (hpage : s.HdrPage bd g₀ page)
    {a : ℕ} (ha : a ∈ Finset.Ico page (page + heapHdrBytes)) : σ.Private bd.hhBase a := by
  obtain ⟨⟨i, hi, rfl, hclear₀, hset, hnot⟩, hinner⟩ := hpage
  obtain ⟨hmod, hlo, hhi⟩ := PmmSys.page_in_window E.ready.whole hi
  rw [E.physToHhVirt_eq hlo hhi] at ha hinner
  rcases r.page_of_marked hi hclear₀ hset (hheld ▸ hnot) with hpa | ⟨c, hc, hpa⟩
  · exact .inl ⟨_, hpa, ha⟩
  · rcases hk : c.kind with ⟨b, bs⟩ | n
    · rw [HeapBlock.pages_small hk] at hpa
      cases hpa
    · -- of the pages of an allocation only the first one is left
      obtain ⟨-, hpmod, hstart⟩ := r.wf.big_start hc hk
      rw [HeapBlock.pages_big hk, mem_pageSpan_iff hpmod] at hpa
      have hin := hinner c (hlive ▸ hc) n hk
      have heq : alignDown4k c.ptr = bd.hhBase + (g₀.st.basePa + i * pageSize) := by omega
      exact .inr (.inl ⟨c, hc, ⟨n, hk⟩, heq ▸ ha⟩)

theorem Refined.sound (hs : Refined bd g₀ s) (E : HeapEnv bd g₀) : s.Sound bd g₀ := by
  obtain ⟨σ, r, hheld, hlive⟩ := hs
  refine ⟨?_, ?_, ?_, ?_, ?_, ?_, hlive ▸ r.charged⟩
  · rw [← hlive]
    exact r.wf.disjoint.imp fun h ↦ h.mono (HeapBlock.extent_subset _) (HeapBlock.extent_subset _)
  · intro c hc
    exact Finset.Ico_subset_Ico_right (r.wf.room c (hlive ▸ hc))
  · intro c hc a ha
    rw [← hlive] at hc
    obtain ⟨hle, hpage⟩ := r.wf.page_of_mem hc (c.extent_subset ha)
    have hdown : alignDown4k a = bd.hhBase + pageOf bd.hhBase a := by rw [pageOf]; omega
    rw [hdown]
    exact heapPage_of_mem E r hheld (hpage.imp id fun h ↦ ⟨c, hc, h⟩)
  · intro c hc page hpage
    refine Finset.disjoint_left.2 fun a ha hhdr ↦ ?_
    exact HeapShape.Private.notMem_extent r.wf (private_of_hdrPage E r hheld hlive hpage hhdr) (hlive ▸ hc) ha
  · intro b hb
    refine ⟨σ.free b, r.lists b hb, r.wf.free_nodup b hb, fun p hp c hc ↦ ?_⟩
    exact (r.wf.free_live b hb p hp c (hlive ▸ hc)).mono_right c.extent_subset
  · exact fun c hc ↦ (r.readHdr_live E (hlive ▸ hc)).2

end

end KheapSys

theorem pmmInit_heapEnv {env : PmmInitEnv} {ctr : PmmCounters} {g : Pmm}
    (h : pmmInit env ctr = some g) (hb : env.board.Placed) : HeapEnv env.board g := by
  obtain ⟨hready, usable, -, hbase, hlimit⟩ := pmmInit_spec h
  have hfits := hb.fits
  refine ⟨hb, hready, ?_, ?_⟩
  · obtain ⟨hmod, hlt⟩ := pmmWindow_fst usable
    rw [hbase]
    refine le_trans (le_max_right (pmmWindow usable).1 _) (le_alignUp4k ?_)
    simp only [pageSize] at *
    omega
  · rw [hlimit]
    refine le_trans (alignDown4k_le _) (le_trans (min_le_right _ _) ?_)
    exact Nat.mod_le _ _

/-- **The kernel heap is sound in every reachable state**: after any sequence of `kmalloc` of at
most `2 ^ 32` bytes, `kfree` of live pointers, page allocations and releases of other callers, and
stores into the callers' own memory. -/
theorem kheap_invariant {env : PmmInitEnv} {ctr : PmmCounters} {g₀ : Pmm}
    (hinit : pmmInit env ctr = some g₀) (hboard : env.board.Placed) {mem : Mem} {s : KheapSys}
    (hrun : Relation.ReflTransGen (KheapSys.Step env.board) (KheapSys.start g₀ mem) s) :
    s.Sound env.board g₀ :=
  (KheapSys.refined_of_run (pmmInit_heapEnv hinit hboard) hrun).sound (pmmInit_heapEnv hinit hboard)

theorem virtEnv_kmalloc : ((pmmInit virtEnv .initial).map fun g ↦
    ((((KheapSys.start g fun _ ↦ 0).step Board.virt (.kmalloc 24)).step Board.virt
      (.kmalloc 5000)).live.map HeapBlock.ptr)) =
    some [0xFFFF800040013008, 0xFFFF800040012FE0] := by
  decide +kernel

theorem kheap_invariant_virtEnv : ∃ g₀ s, pmmInit virtEnv .initial = some g₀ ∧
    Relation.ReflTransGen (KheapSys.Step Board.virt) (KheapSys.start g₀ fun _ ↦ 0) s ∧
    s.live.map HeapBlock.ptr = [0xFFFF800040013008, 0xFFFF800040012FE0] ∧
    s.Sound Board.virt g₀ := by
  obtain ⟨g₀, hinit, hlive⟩ := Option.map_eq_some_iff.1 virtEnv_kmalloc
  have hrun : Relation.ReflTransGen (KheapSys.Step virtEnv.board) (KheapSys.start g₀ fun _ ↦ 0)
      (((KheapSys.start g₀ fun _ ↦ 0).step Board.virt (.kmalloc 24)).step Board.virt (.kmalloc 5000)) :=
    (Relation.ReflTransGen.single ⟨.kmalloc 24, show 24 ≤ 2 ^ 32 by decide, rfl⟩).tail
      ⟨.kmalloc 5000, show 5000 ≤ 2 ^ 32 by decide, rfl⟩
  exact ⟨g₀, _, hinit, hrun, hlive, kheap_invariant hinit Board.placed_virt hrun⟩

end CapazOS
