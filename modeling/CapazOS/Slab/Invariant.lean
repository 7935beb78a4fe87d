import CapazOS.Slab.Shape
import CapazOS.Kheap.Invariant

/-!
# A slab cache over whole runs

A cache among its callers, with other callers of the page allocator and everybody's stores into
their own memory. `SlabRep` says that the cache in memory is an abstract one (`SlabShape`); each
function of `slab_cache.c` is a move of the shape. `slab_cache_invariant` collects what follows for
**every state a run reaches**.
-/

namespace CapazOS

open List hiding Disjoint
open ByteMem Function

/-! ### The representation -/

/-- The list of pages, the pages and the counter in memory are those of the shape. -/
structure SlabInMemory (m : Mem) (c : SlabCache) (σ : SlabShape) : Prop where
  list : Threaded m c.pages σ.pages
  pages : ∀ sp ∈ σ.pages, SlabPageAt m c.objSize c.objAlign sp (σ.free sp) (σ.liveOn sp).length
  total : c.inuseObjects = σ.live.length

/-- **The cache in memory is the abstract one.** -/
structure SlabRep (bd : Board) (g₀ : Pmm) (s : Slab) (σ : SlabShape) : Prop extends SlabInMemory s.mem s.cache σ where
  wf : σ.WF bd.hhBase s.cache.objSize s.cache.objAlign
  pmm : PmmSys.Inv g₀ ⟨s.pmm, σ.owned bd.hhBase⟩

/-- The bytes a cache relies on: its headers, and the links in its free objects. -/
def SlabShape.Private (σ : SlabShape) (a : ℕ) : Prop :=
  ∃ sp ∈ σ.pages, a ∈ Finset.Ico sp (sp + slabHdrBytes) ∨
    ∃ p ∈ σ.free sp, a ∈ Finset.Ico p (p + 8)

section

variable {bd : Board} {g₀ : Pmm} {s : Slab} {σ : SlabShape} {m : Mem} {c : SlabCache} {hh sz al sp p : ℕ}

theorem SlabInMemory.setMem (r : SlabInMemory s.mem c σ) (hm : ∀ a, σ.Private a → m a = s.mem a) :
    SlabInMemory m c σ where
  list := r.list.congr fun sp hsp x hx ↦ hm x ⟨sp, hsp, .inl
    (Finset.Ico_subset_Ico_right (Nat.add_le_add_left (by decide) sp) hx)⟩
  pages := fun sp hsp ↦ (r.pages sp hsp).congr
    (fun x hx ↦ hm x ⟨sp, hsp, .inl (Finset.Ico_subset_Ico_left (Nat.le_add_right sp 8) hx)⟩)
    fun p hp x hx ↦ hm x ⟨sp, hsp, .inr ⟨p, hp, hx⟩⟩
  total := r.total

theorem SlabShape.Private.page (w : σ.WF hh sz al) {a : ℕ} (ha : σ.Private a) : alignDown4k a ∈ σ.pages := by
  obtain ⟨sp, hsp, ha⟩ := ha
  have hmod := (w.page_at sp hsp).2.1
  have hin : a ∈ Finset.Ico sp (sp + pageSize) := by
    rcases ha with ha | ⟨p, hp, ha⟩
    · exact Finset.Ico_subset_Ico_right (Nat.add_le_add_left (by decide) sp) ha
    · obtain ⟨hlo, hhi, -⟩ := w.bounds hsp (w.object_of_free hsp hp)
      have height := w.geometry.eight_le
      simp only [Finset.mem_Ico] at ha ⊢
      omega
  have hdown : alignDown4k a = sp := by
    simp only [Finset.mem_Ico, alignDown4k, pageSize] at *
    omega
  exact hdown ▸ hsp

/-- **The callers' bytes are not the cache's.** -/
theorem SlabShape.Private.notMem_live (w : σ.WF hh sz al) {a : ℕ} (ha : σ.Private a)
    (hp : p ∈ σ.live) : a ∉ Finset.Ico p (p + sz) := by
  intro hin
  have hpage := w.live_page p hp
  have hobj := w.object_of_live hp
  obtain ⟨hlo, hhi, -⟩ := w.bounds hpage hobj
  obtain ⟨sp, hsp, ha | ⟨q, hq, ha⟩⟩ := ha
  · have hmod := (w.page_at sp hsp).2.1
    have hmod' := (w.page_at _ hpage).2.1
    simp only [Finset.mem_Ico, slabHdrBytes, pageSize] at *
    omega
  · have hqobj := w.object_of_free hsp hq
    have hqpage := w.page_of_object hsp hqobj
    have hne : p ≠ q := fun heq ↦ w.free_live sp hsp q hq (heq ▸ hp)
    have happart := w.apart hobj hpage (hqpage.symm ▸ hqobj) (hqpage.symm ▸ hsp) hne
    have height := w.geometry.eight_le
    simp only [Finset.mem_Ico] at hin ha
    omega

theorem SlabInMemory.others (r : SlabInMemory s.mem c σ) (w : σ.WF hh c.objSize c.objAlign) (hsp : sp % pageSize = 0)
    (hm : ∀ x ∉ Finset.Ico (sp + 8) (sp + pageSize), m x = s.mem x) :
    Threaded m c.pages σ.pages ∧ ∀ sp' ∈ σ.pages, sp' ≠ sp →
      SlabPageAt m c.objSize c.objAlign sp' (σ.free sp') (σ.liveOn sp').length := by
  refine ⟨r.list.congr fun sp' hsp' x hx ↦ hm x ?_, fun sp' hsp' hne ↦
    (r.pages sp' hsp').congr (fun x hx ↦ hm x ?_) fun p hp x hx ↦ hm x ?_⟩
  · have hmod := (w.page_at sp' hsp').2.1
    simp only [Finset.mem_Ico, pageSize] at *
    omega
  · have hmod := (w.page_at sp' hsp').2.1
    simp only [Finset.mem_Ico, slabHdrBytes, pageSize] at *
    omega
  · have hmod := (w.page_at sp' hsp').2.1
    obtain ⟨hlo, hhi, -⟩ := w.bounds hsp' (w.object_of_free hsp' hp)
    simp only [Finset.mem_Ico, slabHdrBytes, pageSize] at *
    omega

/-! ### The functions -/

section

variable (r : SlabRep bd g₀ s σ)
include r

theorem SlabRep.setCache (hpages : c.pages = s.cache.pages) (hsize : c.objSize = s.cache.objSize)
    (halign : c.objAlign = s.cache.objAlign) (htotal : c.inuseObjects = s.cache.inuseObjects) :
    SlabRep bd g₀ (s.setCache c) σ := by
  refine ⟨⟨?_, ?_, htotal.trans r.total⟩, ?_, r.pmm⟩
  · exact (show (s.setCache c).cache.pages = s.cache.pages from hpages) ▸ r.list
  · intro sp hsp
    show SlabPageAt s.mem c.objSize c.objAlign _ _ _
    rw [hsize, halign]
    exact r.pages sp hsp
  · show σ.WF bd.hhBase c.objSize c.objAlign
    rw [hsize, halign]
    exact r.wf

theorem SlabRep.setHeld {g : Pmm} {held : Finset ℕ} (hheld : ∀ sp ∈ σ.pages, sp - bd.hhBase ∉ held)
    (hg : PmmSys.Inv g₀ ⟨g, (σ.setHeld held).owned bd.hhBase⟩) :
    SlabRep bd g₀ (s.setPmm g) (σ.setHeld held) := ⟨⟨r.list, r.pages, r.total⟩, r.wf.setHeld hheld, hg⟩

theorem SlabRep.slabTake (hsp : sp ∈ σ.pages) {rest : List ℕ} (hfree : σ.free sp = p :: rest) :
    (slabTake s sp).1 = p ∧ SlabRep bd g₀ (slabTake s sp).2 (σ.take sp p rest) := by
  have hp : p ∈ slabObjects sp s.cache.objSize s.cache.objAlign := r.wf.object_of_free hsp (hfree ▸ mem_cons_self)
  have hpage : alignDown4k p = sp := r.wf.page_of_object hsp hp
  have hat := r.pages sp hsp
  rw [hfree] at hat
  have hcount := r.wf.free_add_inuse hsp
  have hlt := (r.wf.geometry.objects_length (r.wf.page_at sp hsp).2.1 (r.wf.page_at sp hsp).2.2).2
  have hn : (σ.liveOn sp).length + 1 < 2 ^ 16 := by
    rw [hfree, length_cons] at hcount
    omega
  obtain ⟨hhead, hat', hframe⟩ := slabTake_page hat hn (fun q hq ↦
    (r.wf.bounds hsp (r.wf.object_of_free hsp (hfree ▸ mem_cons_of_mem p hq))).1) rfl
  have hw := r.wf.take hsp hfree
  obtain ⟨hlist, hothers⟩ := r.toSlabInMemory.others r.wf (r.wf.page_at sp hsp).2.1 fun x hx ↦
    hframe x fun hin ↦ hx (Finset.Ico_subset_Ico_right (Nat.add_le_add_left (by decide) sp) hin)
  refine ⟨hhead, ⟨⟨?_, fun sp' hsp' ↦ ?_, ?_⟩, hw, r.pmm⟩⟩
  · exact hlist
  · rcases eq_or_ne sp' sp with rfl | hne
    · rw [SlabShape.take_free_self, SlabShape.liveOn_take, if_pos hpage]
      exact hat'
    · rw [SlabShape.take_free_of_ne σ hne, SlabShape.liveOn_take, if_neg (hpage ▸ hne.symm)]
      exact hothers sp' hsp' hne
  · show u64 (s.cache.inuseObjects + 1) = _
    rw [r.total, u64, Nat.mod_eq_of_lt (show σ.live.length + 1 < 2 ^ 64 from hw.live_length_lt)]
    rfl

theorem SlabRep.exists_slabTake (hsp : sp ∈ σ.pages) (hne : σ.free sp ≠ []) :
    ∃ p rest, CapazOS.slabTake s sp = (p, (CapazOS.slabTake s sp).2) ∧ p ≠ 0 ∧
      SlabRep bd g₀ (CapazOS.slabTake s sp).2 (σ.take sp p rest) := by
  obtain ⟨p, rest, hfree⟩ := exists_cons_of_ne_nil hne
  obtain ⟨hp, hrep⟩ := r.slabTake hsp hfree
  have hlist := (r.pages sp hsp).freelist
  rw [hfree] at hlist
  exact ⟨p, rest, Prod.ext hp rfl, hlist.2.1, hrep⟩

theorem SlabRep.addPage {g : Pmm} (hsp : bd.hhBase ≤ sp ∧ sp % pageSize = 0 ∧ sp + pageSize ≤ 2 ^ 64)
    (hpos : sp ≠ 0) (hnew : sp ∉ σ.pages) (hheld : sp - bd.hhBase ∉ σ.held)
    (hat : SlabPageAt m s.cache.objSize s.cache.objAlign sp (slabObjects sp s.cache.objSize s.cache.objAlign).reverse 0)
    (hframe : ∀ x ∉ Finset.Ico sp (sp + pageSize), m x = s.mem x)
    (hg : PmmSys.Inv g₀ ⟨g, (σ.addPage s.cache.objSize s.cache.objAlign sp).owned bd.hhBase⟩) :
    SlabRep bd g₀ ⟨g, store m sp 8 s.cache.pages, s.cache.addPage sp⟩
      (σ.addPage s.cache.objSize s.cache.objAlign sp) := by
  have hw := r.wf.addPage hsp hnew hheld
  have hlink : ∀ x ∉ Finset.Ico sp (sp + 8), store m sp 8 s.cache.pages x = m x := fun x hx ↦ store_of_notMem hx
  have hout : ∀ x ∉ Finset.Ico sp (sp + pageSize), store m sp 8 s.cache.pages x = s.mem x :=
    fun x hx ↦ (hlink x fun hin ↦
      hx (Finset.Ico_subset_Ico_right (Nat.add_le_add_left (by decide) sp) hin)).trans (hframe x hx)
  -- the pages that were there are not touched
  have r₁ := r.toSlabInMemory.setMem (m := store m sp 8 s.cache.pages) fun a ha ↦ hout a fun hin ↦ by
    have hpage := SlabShape.Private.page r.wf ha
    have hdown : alignDown4k a = sp := by
      have := hsp.2.1
      simp only [Finset.mem_Ico, alignDown4k, pageSize] at *
      omega
    exact hnew (hdown ▸ hpage)
  have hlist : s.cache.pages < 2 ^ 64 := by
    have hlist := r.list
    rcases hpages : σ.pages with - | ⟨q, l⟩
    · rw [hpages] at hlist
      rw [show s.cache.pages = 0 from hlist]
      decide
    · rw [hpages] at hlist
      have := (r.wf.page_at q (hpages ▸ mem_cons_self)).2.2
      rw [hlist.1]
      simp only [pageSize] at this
      omega
  refine ⟨⟨?_, forall_mem_cons.2 ⟨?_, fun sp' hsp' ↦ ?_⟩, r.total⟩, hw, hg⟩
  · refine ⟨rfl, hpos, ?_⟩
    rw [load_store_self _ _ (lt_of_lt_of_eq hlist (by norm_num))]
    exact r₁.list
  · have hfree : (σ.addPage s.cache.objSize s.cache.objAlign sp).free sp =
        (slabObjects sp s.cache.objSize s.cache.objAlign).reverse := update_self ..
    have hlive : (σ.addPage s.cache.objSize s.cache.objAlign sp).liveOn sp = [] := filter_eq_nil_iff.2 fun p hp ↦ by
        simp only [decide_eq_true_eq]
        exact fun heq ↦ hnew (heq ▸ r.wf.live_page p hp)
    rw [hfree, hlive]
    refine hat.congr (fun x hx ↦ hlink x ?_) fun p hp x hx ↦ hlink x ?_
    · simp only [Finset.mem_Ico] at hx ⊢
      omega
    · have := (r.wf.geometry.object_bounds hsp.2.1 hsp.2.2 (mem_reverse.1 hp)).1
      simp only [Finset.mem_Ico, slabHdrBytes] at *
      omega
  · have hfree : (σ.addPage s.cache.objSize s.cache.objAlign sp).free sp' = σ.free sp' :=
      update_of_ne (ne_of_mem_of_not_mem hsp' hnew) ..
    rw [hfree]
    exact r₁.pages sp' hsp'

/-- `slab_page_alloc` and the lines after it: there is no page, or one is added with its objects. -/
theorem SlabRep.slabPageAlloc (E : HeapEnv bd g₀) :
    (∃ g, slabPageAlloc bd s = some (0, s.setPmm g) ∧ SlabRep bd g₀ (s.setPmm g) σ) ∨
      ∃ sp g m, slabPageAlloc bd s = some (sp, ⟨g, m, s.cache⟩) ∧ sp ≠ 0 ∧
        SlabRep bd g₀ ⟨g, store m sp 8 s.cache.pages, s.cache.addPage sp⟩
          (σ.addPage s.cache.objSize s.cache.objAlign sp) := by
  unfold CapazOS.slabPageAlloc
  rcases r.pmm.alloc 1 with ⟨g, halloc, hg⟩ | ⟨pa, g, halloc, hg, hpa, hfresh⟩
  · simp only [halloc]
    exact .inl ⟨g, rfl, ⟨⟨r.list, r.pages, r.total⟩, r.wf, hg⟩⟩
  · have hmem : pa ∈ pageSpan pa 1 := (mem_pageSpan_iff hpa).2 ⟨hpa, le_rfl, by simp only [pageSize]; omega⟩
    have hspan : pageSpan pa 1 = {pa} := by simp [pageSpan]
    obtain ⟨hlo, hhi⟩ := E.page_bounds hg (Finset.mem_union_right _ hmem)
    have hpos := E.placed.hh_pos
    have hsp : bd.hhBase ≤ bd.hhBase + pa ∧ (bd.hhBase + pa) % pageSize = 0 ∧ bd.hhBase + pa + pageSize ≤ 2 ^ 64 := by
      have := E.placed.fits
      have := E.hi
      have := E.placed.hh_mod
      simp only [pageSize] at *
      omega
    have hnot : pa ∉ σ.owned bd.hhBase := hfresh pa hmem
    simp only [SlabShape.owned, Finset.mem_union, mem_toFinset, mem_map, not_or, not_exists, not_and] at hnot
    have hnew : bd.hhBase + pa ∉ σ.pages := fun hin ↦ hnot.2 _ hin (Nat.add_sub_cancel_left ..)
    obtain ⟨m, hbuild, hat, hframe⟩ := slabPageBuildFreelist_spec r.wf.geometry hsp.2.1 hsp.2.2 s.mem
    simp only [halloc, E.physToHhVirt_eq hlo hhi, hbuild, Option.map_some]
    refine .inr ⟨bd.hhBase + pa, g, m, rfl, by omega, r.addPage hsp (by omega) hnew ?_ hat hframe ?_⟩
    · rw [Nat.add_sub_cancel_left]
      exact hnot.1
    · have howned : (σ.addPage s.cache.objSize s.cache.objAlign (bd.hhBase + pa)).owned bd.hhBase =
          σ.owned bd.hhBase ∪ pageSpan pa 1 := by
        simp only [SlabShape.owned, SlabShape.addPage, map_cons, Nat.add_sub_cancel_left, toFinset_cons, hspan]
        ext x
        simp only [Finset.mem_union, Finset.mem_insert, Finset.mem_singleton]
        tauto
      rw [howned]
      exact hg

/-- **`slab_alloc`** returns an object that becomes live, or fails and leaves the objects alone. -/
theorem SlabRep.slabAlloc (E : HeapEnv bd g₀) :
    ∃ p s' σ', slabAlloc bd s = some (p, s') ∧ SlabRep bd g₀ s' σ' ∧ σ'.held = σ.held ∧
      σ'.live = (if p = 0 then σ.live else p :: σ.live) ∧ s'.cache.objSize = s.cache.objSize ∧
      s'.cache.objAlign = s.cache.objAlign := by
  have r₁ := r.setCache (c := s.cache.countAlloc) rfl rfl rfl rfl
  unfold CapazOS.slabAlloc
  simp only [findNode_eq r₁.list r₁.wf.pages_length_lt]
  rcases hfind : σ.pages.find? (fun sp ↦ slabFreelist (s.setCache s.cache.countAlloc).mem sp ≠ 0)
    with - | sp
  · simp only
    rcases r₁.slabPageAlloc E with ⟨g, hpage, r₂⟩ | ⟨sp, g, m, hpage, hne, r₂⟩
    · simp only [hpage, if_true]
      exact ⟨0, _, σ, rfl, r₂.setCache rfl rfl rfl rfl, rfl, rfl, rfl, rfl⟩
    · simp only [hpage, if_neg hne]
      have hobj := (r₁.wf.geometry.objects_length (r₂.wf.page_at sp mem_cons_self).2.1
        (r₂.wf.page_at sp mem_cons_self).2.2).1
      obtain ⟨p, rest, hres, hp, r₃⟩ := r₂.exists_slabTake mem_cons_self (by
        rw [show (σ.addPage _ _ sp).free sp = _ from update_self ..]
        exact fun hnil ↦ absurd (reverse_eq_nil_iff.1 hnil) (ne_nil_of_length_pos hobj))
      exact ⟨p, _, _, congrArg some hres, r₃, rfl, (if_neg hp).symm, rfl, rfl⟩
  · simp only
    have hsp := mem_of_find?_eq_some hfind
    have hhead := find?_some hfind
    simp only [ne_eq, decide_eq_true_eq] at hhead
    obtain ⟨p, rest, hres, hp, r₃⟩ := r₁.exists_slabTake hsp fun hnil ↦
      hhead (((r₁.pages sp hsp).freelist.eq_nil_iff).2 hnil)
    exact ⟨p, _, _, congrArg some hres, r₃, rfl, (if_neg hp).symm, rfl, rfl⟩

/-- **`slab_free`** of a live object meets no panic, and the object is free again. -/
theorem SlabRep.slabFree (hp : p ∈ σ.live) : ∃ s', slabFree s p = some s' ∧ SlabRep bd g₀ s' (σ.give p) ∧
      s'.cache.objSize = s.cache.objSize ∧ s'.cache.objAlign = s.cache.objAlign := by
  have r₁ := r.setCache (c := s.cache.countFree) rfl rfl rfl rfl
  have hsp := r.wf.live_page p hp
  have hobj := r.wf.object_of_live hp
  obtain ⟨hlo, hhi, -⟩ := r.wf.bounds hsp hobj
  have hpage := r.wf.page_at _ hsp
  have height := r.wf.geometry.eight_le
  have hne : p ≠ 0 := by
    simp only [slabHdrBytes] at hlo
    omega
  generalize hdown : alignDown4k p = sp at *
  -- the page counts the object, so it has one in use
  have hlive := SlabShape.length_liveOn_give hp sp
  rw [if_pos hdown] at hlive
  have hat := r.pages sp hsp
  rw [← hlive] at hat
  have hcount := r.wf.free_add_inuse hsp
  have hlt := (r.wf.geometry.objects_length hpage.2.1 hpage.2.2).2
  have hfree : ∀ q ∈ σ.free sp, sp + slabHdrBytes ≤ q ∧ (p + s.cache.objSize ≤ q ∨ q + 8 ≤ p) := fun q hq ↦ by
    have hqobj := r.wf.object_of_free hsp hq
    have hneq : p ≠ q := fun heq ↦ r.wf.free_live sp hsp q hq (heq ▸ hp)
    have happart := r.wf.geometry.objects_apart hpage.2.1 hpage.2.2 hobj hqobj hneq
    exact ⟨(r.wf.bounds hsp hqobj).1, by omega⟩
  have hhead : slabFreelist s.mem sp < 2 ^ 64 := by
    have := load_lt s.mem (sp + 8) 8
    rw [slabFreelist]
    omega
  obtain ⟨hat', hframe⟩ := slabGive_page hat (by omega) height hlo (by
    simp only [pageSize] at *; omega) hhead hfree rfl rfl rfl rfl
  have hw := r.wf.give hp
  obtain ⟨hlist, hothers⟩ := r.toSlabInMemory.others r.wf hpage.2.1 fun x hx ↦
    hframe x (fun hin ↦ hx (Finset.Ico_subset_Ico_right (Nat.add_le_add_left (by decide) sp) hin))
      fun hin ↦ hx (by simp only [Finset.mem_Ico, slabHdrBytes] at *; omega)
  have hfound : ∃ it, σ.pages.find? (fun it ↦ decide (it = sp)) = some it :=
    Option.isSome_iff_exists.1 (find?_isSome.2 ⟨sp, hsp, decide_eq_true rfl⟩)
  obtain ⟨it, hit⟩ := hfound
  have hinuse : ¬slabInuse (s.setCache s.cache.countFree).mem sp = 0 := by
    rw [show slabInuse (s.setCache s.cache.countFree).mem sp = _ from hat.inuse]
    exact Nat.succ_ne_zero _
  have htotal : σ.live.length = ((σ.give p).live).length + 1 := (length_erase_add_one hp).symm
  have hsome : ¬(s.setCache s.cache.countFree).cache.inuseObjects = 0 := by
    rw [r₁.total, htotal]
    exact Nat.succ_ne_zero _
  unfold CapazOS.slabFree
  simp only [if_neg hne, hdown, findNode_eq r₁.list r₁.wf.pages_length_lt, hit, if_neg hinuse, if_neg hsome]
  refine ⟨_, rfl, ⟨⟨hlist, fun sp' hsp' ↦ ?_, ?_⟩, hw, r.pmm⟩, rfl, rfl⟩
  · have hgive : (σ.give p).free = update σ.free sp (p :: σ.free sp) := by rw [← hdown]; rfl
    rw [hgive]
    rcases eq_or_ne sp' sp with rfl | hother
    · rw [update_self]
      exact hat'
    · have hsame := SlabShape.length_liveOn_give hp sp'
      rw [if_neg (hdown ▸ hother.symm), Nat.add_zero] at hsame
      rw [update_of_ne hother, hsame]
      exact hothers sp' hsp' hother
  · show s.cache.inuseObjects - 1 = _
    rw [r.total, htotal, Nat.add_sub_cancel]

end

end

/-! ### A cache and its callers -/

/-- The cache, the size its callers asked for, the live objects, and the pages of other callers of
the page allocator. -/
structure SlabSys where
  s : Slab
  size : ℕ
  live : List ℕ
  held : Finset ℕ

inductive SlabOp where
  | alloc
  | free (p : ℕ)
  | allocPages (count : ℕ)
  | freePage (pa : ℕ)
  | store (a : ℕ) (v : UInt8)

namespace SlabSys

/-- One call: an object that is returned is recorded, and a release removes the record. `none` is a
panic. -/
def step (bd : Board) (t : SlabSys) : SlabOp → Option SlabSys
  | .alloc => (slabAlloc bd t.s).map fun (p, s) ↦ { t with s, live := if p = 0 then t.live else p :: t.live }
  | .free p => (slabFree t.s p).map fun s ↦ { t with s, live := t.live.erase p }
  | .allocPages count =>
    match pmmAllocPages t.s.pmm count with
    | (none, g) => some { t with s := t.s.setPmm g }
    | (some pa, g) => some { t with s := t.s.setPmm g, held := t.held ∪ pageSpan pa count }
  | .freePage pa =>
    some { t with s := t.s.setPmm (pmmFreePage t.s.pmm pa), held := t.held.erase pa }
  | .store a v => some { t with s := t.s.setMem (update t.s.mem a v) }

/-- What callers do: releases of what is theirs, and stores into live objects and pages of their
own. -/
def Allowed (bd : Board) (t : SlabSys) : SlabOp → Prop
  | .alloc => True
  | .free p => p ∈ t.live
  | .allocPages count => count < 2 ^ 32
  | .freePage pa => pa ∈ t.held
  | .store a _ => (∃ p ∈ t.live, a ∈ Finset.Ico p (p + t.size)) ∨ ∃ pa ∈ t.held,
      a ∈ Finset.Ico (bd.physToHhVirt pa) (bd.physToHhVirt pa + pageSize)

def Step (bd : Board) (t t' : SlabSys) : Prop := ∃ op, t.Allowed bd op ∧ t.step bd op = some t'

/-- A new cache for objects of a size, over whatever memory holds. -/
def start (g : Pmm) (mem : Mem) (size : ℕ) (cache : SlabCache) : SlabSys :=
  { s := ⟨g, mem, cache⟩, size, live := [], held := ∅ }

/-- **A sound cache** for objects of the given alignment. -/
structure Sound (bd : Board) (align : ℕ) (t : SlabSys) : Prop where
  aligned : ∀ p ∈ t.live, align ∣ p
  inside : ∀ p ∈ t.live, alignDown4k p + slabHdrBytes ≤ p ∧ p + t.size ≤ alignDown4k p + pageSize
  disjoint : t.live.Pairwise fun p q ↦ Disjoint (Finset.Ico p (p + t.size)) (Finset.Ico q (q + t.size))
  counts : ∃ pages, Threaded t.s.mem t.s.cache.pages pages ∧ pages.Nodup ∧ (∀ p ∈ t.live, alignDown4k p ∈ pages) ∧
    (∀ sp ∈ pages, ∃ free, Threaded t.s.mem (slabFreelist t.s.mem sp) free ∧ free.Nodup ∧
      slabInuse t.s.mem sp + free.length = slabObjCount t.s.mem sp) ∧
    (pages.map (slabInuse t.s.mem)).sum = t.s.cache.inuseObjects
  no_panic : ∀ op, t.Allowed bd op → t.step bd op ≠ none

/-! ### Runs -/

/-- The cache is some abstract cache with the recorded objects and pages. -/
structure Refined (bd : Board) (g₀ : Pmm) (size align : ℕ) (t : SlabSys) : Prop where
  rep : ∃ σ, SlabRep bd g₀ t.s σ ∧ σ.held = t.held ∧ σ.live = t.live
  size_eq : t.size = size
  size_le : size ≤ t.s.cache.objSize
  align_dvd : align ∣ t.s.cache.objAlign

section

variable {bd : Board} {g₀ : Pmm} {size align : ℕ} {t : SlabSys}

/-- **One step** of the callers is a move of the abstract cache, and never a panic. -/
theorem Refined.step (ht : Refined bd g₀ size align t) (E : HeapEnv bd g₀) {op : SlabOp}
    (hop : t.Allowed bd op) : ∃ t', t.step bd op = some t' ∧ Refined bd g₀ size align t' := by
  obtain ⟨⟨σ, r, hheld, hlive⟩, hsize, hle, hdvd⟩ := ht
  cases op with
  | alloc =>
    obtain ⟨p, s', σ', hres, r', hheld', hlive', hs, ha⟩ := r.slabAlloc E
    refine ⟨⟨s', t.size, if p = 0 then t.live else p :: t.live, t.held⟩, by
      simp only [SlabSys.step, hres, Option.map_some], ⟨σ', r', hheld'.trans hheld, ?_⟩, hsize,
      hs ▸ hle, ha ▸ hdvd⟩
    rw [hlive', hlive]
  | free p =>
    obtain ⟨s', hres, r', hs, ha⟩ := r.slabFree (show p ∈ σ.live from hlive.symm ▸ hop)
    refine ⟨⟨s', t.size, t.live.erase p, t.held⟩, by simp [SlabSys.step, hres],
      ⟨σ.give p, r', hheld, ?_⟩, hsize, hs ▸ hle, ha ▸ hdvd⟩
    rw [← hlive]
    rfl
  | allocPages count =>
    rcases r.pmm.alloc count with ⟨g, hres, hg⟩ | ⟨pa, g, hres, hg, hpa, hfresh⟩
    · exact ⟨⟨t.s.setPmm g, t.size, t.live, t.held⟩, by simp only [SlabSys.step, hres],
        ⟨σ, ⟨⟨r.list, r.pages, r.total⟩, r.wf, hg⟩, hheld, hlive⟩, hsize, hle, hdvd⟩
    · have hnot : ∀ sp ∈ σ.pages, sp - bd.hhBase ∉ t.held ∪ pageSpan pa count := fun sp hsp ↦ by
        rw [Finset.mem_union, not_or, ← hheld]
        exact ⟨r.wf.page_held sp hsp, fun hin ↦ hfresh _ hin
          (Finset.mem_union_right _ (mem_toFinset.2 (mem_map_of_mem hsp)))⟩
      have howned : (σ.setHeld (t.held ∪ pageSpan pa count)).owned bd.hhBase =
          σ.owned bd.hhBase ∪ pageSpan pa count := by
        simp only [SlabShape.owned, SlabShape.setHeld, hheld, Finset.union_assoc]
        rw [Finset.union_comm (pageSpan pa count)]
      exact ⟨⟨t.s.setPmm g, t.size, t.live, t.held ∪ pageSpan pa count⟩,
        by simp only [SlabSys.step, hres], ⟨_, r.setHeld hnot (howned ▸ hg), rfl, hlive⟩, hsize, hle,
        hdvd⟩
  | freePage pa =>
    have hpa : pa ∈ σ.held := hheld.symm ▸ hop
    have hnot : ∀ sp ∈ σ.pages, sp - bd.hhBase ∉ t.held.erase pa := fun sp hsp hin ↦
      r.wf.page_held sp hsp (hheld ▸ Finset.mem_of_mem_erase hin)
    have howned : (σ.setHeld (t.held.erase pa)).owned bd.hhBase = (σ.owned bd.hhBase).erase pa := by
      ext x
      simp only [SlabShape.owned, SlabShape.setHeld, Finset.mem_union, Finset.mem_erase, hheld, mem_toFinset, mem_map]
      constructor
      · rintro (⟨hne, hx⟩ | ⟨sp, hsp, rfl⟩)
        · exact ⟨hne, .inl hx⟩
        · exact ⟨fun heq ↦ r.wf.page_held sp hsp (heq ▸ hpa), .inr ⟨sp, hsp, rfl⟩⟩
      · rintro ⟨hne, hx | hx⟩
        exacts [.inl ⟨hne, hx⟩, .inr hx]
    have hg : PmmSys.Inv g₀ ⟨pmmFreePage t.s.pmm pa, (σ.owned bd.hhBase).erase pa⟩ :=
      PmmSys.inv_free E.ready r.pmm (Finset.mem_union_left _ hpa)
    exact ⟨⟨t.s.setPmm (pmmFreePage t.s.pmm pa), t.size, t.live, t.held.erase pa⟩, rfl,
      ⟨_, r.setHeld hnot (howned ▸ hg), rfl, hlive⟩, hsize, hle, hdvd⟩
  | store a v =>
    refine ⟨_, rfl, ⟨σ, ⟨r.toSlabInMemory.setMem fun x hx ↦ update_of_ne ?_ .., r.wf, r.pmm⟩,
      hheld, hlive⟩, hsize, hle, hdvd⟩
    rintro rfl
    rcases hop with ⟨p, hp, hin⟩ | ⟨pa, hpa, hin⟩
    · refine SlabShape.Private.notMem_live r.wf hx (hlive ▸ hp) ?_
      exact Finset.Ico_subset_Ico_right (Nat.add_le_add_left (hsize ▸ hle) p) hin
    · rw [← hheld] at hpa
      have hown : pa ∈ σ.owned bd.hhBase := Finset.mem_union_left _ hpa
      obtain ⟨hlo, hhi⟩ := E.page_bounds r.pmm hown
      rw [E.physToHhVirt_eq hlo hhi] at hin
      obtain ⟨i, -, hi, -⟩ := r.pmm.owned_page pa hown
      have hmod : (bd.hhBase + pa) % pageSize = 0 := by
        have := E.placed.hh_mod
        have := r.pmm.ready.whole.base_mod
        simp only [pageSize] at *
        omega
      have hdown : alignDown4k x = bd.hhBase + pa := by
        simp only [Finset.mem_Ico, alignDown4k, pageSize] at *
        omega
      have hpage := r.wf.page_held _ (SlabShape.Private.page r.wf hx)
      rw [hdown, Nat.add_sub_cancel_left] at hpage
      exact hpage hpa

theorem refined_of_run (E : HeapEnv bd g₀) {mem : Mem} {cache : SlabCache}
    (hgeo : SlabGeometry cache.objSize cache.objAlign) (hle : size ≤ cache.objSize)
    (hdvd : align ∣ cache.objAlign) (hpages : cache.pages = 0) (hinuse : cache.inuseObjects = 0)
    (hrun : Relation.ReflTransGen (Step bd) (start g₀ mem size cache) t) :
    Refined bd g₀ size align t := by
  induction hrun with
  | refl =>
    refine ⟨⟨⟨[], fun _ ↦ [], [], ∅⟩, ⟨⟨hpages, (fun _ h ↦ nomatch h), hinuse⟩, ?_, ?_⟩, rfl, rfl⟩, rfl, hle, hdvd⟩
    · constructor <;> first | exact hgeo | simp
    · exact PmmSys.inv_init E.ready
  | tail _ hstep ih =>
    obtain ⟨op, hop, hres⟩ := hstep
    obtain ⟨t', hres', ht'⟩ := ih.step E hop
    rw [hres] at hres'
    exact Option.some.inj hres' ▸ ht'

theorem Refined.sound (ht : Refined bd g₀ size align t) (E : HeapEnv bd g₀) : t.Sound bd align := by
  have hstep := fun (op : SlabOp) (hop : t.Allowed bd op) ↦ ht.step E hop
  obtain ⟨⟨σ, r, hheld, hlive⟩, hsize, hle, hdvd⟩ := ht
  have hbounds : ∀ p ∈ t.live, alignDown4k p + slabHdrBytes ≤ p ∧
      p + t.s.cache.objSize ≤ alignDown4k p + pageSize ∧ t.s.cache.objAlign ∣ p := fun p hp ↦
    r.wf.bounds (r.wf.live_page p (hlive ▸ hp)) (r.wf.object_of_live (hlive ▸ hp))
  refine ⟨fun p hp ↦ hdvd.trans (hbounds p hp).2.2, fun p hp ↦ ⟨(hbounds p hp).1, ?_⟩, ?_, ?_, ?_⟩
  · have := (hbounds p hp).2.1
    omega
  · rw [← hlive]
    refine r.wf.live_nodup.pairwise_of_forall_ne fun p hp q hq hne ↦ ?_
    have happart := r.wf.apart (r.wf.object_of_live hp) (r.wf.live_page p hp) (r.wf.object_of_live hq)
      (r.wf.live_page q hq) hne
    exact disjoint_windows (by omega)
  · refine ⟨σ.pages, r.list, r.wf.pages_nodup, fun p hp ↦ r.wf.live_page p (hlive ▸ hp),
      fun sp hsp ↦ ⟨σ.free sp, (r.pages sp hsp).freelist, r.wf.free_nodup sp hsp, ?_⟩, ?_⟩
    · rw [(r.pages sp hsp).inuse, (r.pages sp hsp).objCount]
      exact r.wf.free_add_inuse hsp
    · rw [r.total, ← r.wf.sum_inuse]
      exact congrArg List.sum (map_congr_left fun sp hsp ↦ (r.pages sp hsp).inuse)
  · intro op hop hnone
    obtain ⟨t', hsome, -⟩ := hstep op hop
    rw [hnone] at hsome
    cases hsome

end

end SlabSys

/-- **A slab cache is sound in every reachable state**, for every size up to a page and every power
of two as an alignment that `slab_cache_init` accepts: after any sequence of allocations, releases
of live objects, page allocations and releases of other callers, and stores into the callers' own
memory. Objects are aligned, lie behind the header of their page and do not overlap; the counters of
the pages and of the cache agree with the free lists; and no further call panics. -/
theorem slab_cache_invariant {env : PmmInitEnv} {ctr : PmmCounters} {g₀ : Pmm}
    (hinit : pmmInit env ctr = some g₀) (hboard : env.board.Placed) {size align : ℕ}
    (hsize : 1 ≤ size ∧ size ≤ 4096) (halign : (∃ k, align = 2 ^ k) ∧ align < 2 ^ 32)
    {cache : SlabCache} (hcache : slabCacheInit size align = some cache) {mem : Mem} {t : SlabSys}
    (hrun : Relation.ReflTransGen (SlabSys.Step env.board) (SlabSys.start g₀ mem size cache) t) :
    t.size = size ∧ t.Sound env.board align := by
  obtain ⟨hgeo, hle, hdvd, hpages, hinuse⟩ := slabCacheInit_geometry hsize.2 halign.1 halign.2 hcache
  have E := pmmInit_heapEnv hinit hboard
  have ht := SlabSys.refined_of_run E hgeo hle hdvd hpages hinuse hrun
  exact ⟨ht.size_eq, ht.sound E⟩

/-- The objects after booting `virtEnv` and taking two from a cache of objects of 1000 bytes,
aligned to
64. -/
theorem virtEnv_slabAlloc : ((pmmInit virtEnv .initial).bind fun g ↦ (slabCacheInit 1000 64).bind
    fun c ↦ ((SlabSys.start g (fun _ ↦ 0) 1000 c).step Board.virt .alloc).bind fun t ↦
      (t.step Board.virt .alloc).map SlabSys.live) = some [0xFFFF800040012440, 0xFFFF800040012840] := by
  decide +kernel

theorem slab_cache_invariant_virtEnv : ∃ g₀ cache t, pmmInit virtEnv .initial = some g₀ ∧
    slabCacheInit 1000 64 = some cache ∧
    Relation.ReflTransGen (SlabSys.Step Board.virt) (SlabSys.start g₀ (fun _ ↦ 0) 1000 cache) t ∧
    t.live = [0xFFFF800040012440, 0xFFFF800040012840] ∧ t.size = 1000 ∧ t.Sound Board.virt 64 := by
  obtain ⟨g₀, hinit, hrest⟩ := Option.bind_eq_some_iff.1 virtEnv_slabAlloc
  obtain ⟨cache, hcache, hrest⟩ := Option.bind_eq_some_iff.1 hrest
  obtain ⟨t₁, hfirst, hrest⟩ := Option.bind_eq_some_iff.1 hrest
  obtain ⟨t, hsecond, hlive⟩ := Option.map_eq_some_iff.1 hrest
  have hrun : Relation.ReflTransGen (SlabSys.Step virtEnv.board) (SlabSys.start g₀ (fun _ ↦ 0) 1000 cache) t :=
    (Relation.ReflTransGen.single ⟨.alloc, trivial, hfirst⟩).tail ⟨.alloc, trivial, hsecond⟩
  have hsound := slab_cache_invariant hinit Board.placed_virt (show 1 ≤ 1000 ∧ 1000 ≤ 4096 by decide)
    (show (∃ k, 64 = 2 ^ k) ∧ 64 < 2 ^ 32 from ⟨⟨6, rfl⟩, by decide⟩) hcache hrun
  exact ⟨g₀, cache, t, hinit, hcache, hrun, hlive, hsound⟩

end CapazOS
