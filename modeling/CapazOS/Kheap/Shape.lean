import CapazOS.Kheap.Model
import CapazOS.Mm.PmmOwnership

/-!
# The shape of the kernel heap

The abstract heap: which pages are slabs and of which bucket, which blocks are free, which
allocations are live, and which pages other callers hold. Memory does not appear. `WF` says that no
two of these overlap, and each thing the allocator does is a move between the parts. Pages are named
by physical address, everything else by virtual address.
-/

namespace CapazOS

open List hiding Disjoint
open Function

variable {pa n p hh a b : ℕ} {ps : List ℕ}

/-! ### Pages and addresses -/

def pageOf (hh a : ℕ) : ℕ := alignDown4k a - hh

theorem mem_pageSpan_iff (hpa : pa % pageSize = 0) :
    p ∈ pageSpan pa n ↔ p % pageSize = 0 ∧ pa ≤ p ∧ p < pa + n * pageSize := by
  simp only [pageSpan, Finset.mem_image, Finset.mem_range, pageSize] at hpa ⊢
  constructor
  · rintro ⟨k, hk, rfl⟩
    omega
  · rintro ⟨hmod, hle, hlt⟩
    exact ⟨(p - pa) / 4096, by omega, by omega⟩

theorem pageOf_mem_pageSpan (hhh : hh % pageSize = 0) (hpa : pa % pageSize = 0)
    (ha : a ∈ Finset.Ico (hh + pa) (hh + pa + n * pageSize)) : pageOf hh a ∈ pageSpan pa n := by
  rw [mem_pageSpan_iff hpa]
  simp only [Finset.mem_Ico, pageOf, alignDown4k, pageSize] at *
  omega

theorem mem_Ico_of_pageOf (hle : hh ≤ alignDown4k a) (h : pageOf hh a = pa) :
    a ∈ Finset.Ico (hh + pa) (hh + pa + pageSize) := by
  simp only [Finset.mem_Ico, pageOf, alignDown4k, pageSize] at *
  omega

theorem pageOf_eq (hhh : hh % pageSize = 0) (hpa : pa % pageSize = 0)
    (ha : a ∈ Finset.Ico (hh + pa) (hh + pa + pageSize)) : pageOf hh a = pa := by
  simp only [Finset.mem_Ico, pageOf, alignDown4k, pageSize] at *
  omega

/-! ### Buckets -/

/-- A block of bucket `b` may start at `p`: at a multiple of the block size that is not the first of
its page. -/
structure IsSlot (b p : ℕ) : Prop where
  mod : p % bucketSize b = 0
  le : bucketSize b ≤ p % pageSize

def slotRange (b p : ℕ) : Finset ℕ := Finset.Ico p (p + bucketSize b)

theorem bucketSize_cases (hb : b < numBuckets) : bucketSize b = 16 ∨ bucketSize b = 32 ∨
    bucketSize b = 64 ∨ bucketSize b = 128 ∨ bucketSize b = 256 ∨ bucketSize b = 512 ∨
    bucketSize b = 1024 ∨ bucketSize b = 2048 := by
  revert b
  decide

theorem IsSlot.range_in_page (hb : b < numBuckets) (h : IsSlot b p) (ha : a ∈ slotRange b p) :
    alignDown4k a = alignDown4k p ∧ alignDown4k p + 16 ≤ a := by
  obtain ⟨hmod, hle⟩ := h
  simp only [slotRange, Finset.mem_Ico] at ha
  simp only [alignDown4k, pageSize] at *
  rcases bucketSize_cases hb with h | h | h | h | h | h | h | h <;> rw [h] at hmod hle ha <;> omega

theorem IsSlot.disjoint {q : ℕ} (hb : b < numBuckets) (hp : IsSlot b p) (hq : IsSlot b q) (hne : p ≠ q) :
    Disjoint (slotRange b p) (slotRange b q) := by
  refine Finset.disjoint_left.2 fun a hap haq ↦ ?_
  have hmodp := hp.mod
  have hmodq := hq.mod
  simp only [slotRange, Finset.mem_Ico] at hap haq
  rcases bucketSize_cases hb with h | h | h | h | h | h | h | h <;> rw [h] at hmodp hmodq hap haq <;> omega

theorem mem_slotRange_self (hb : b < numBuckets) : p ∈ slotRange b p := by
  rw [slotRange, Finset.mem_Ico]
  rcases bucketSize_cases hb with h | h | h | h | h | h | h | h <;> omega

/-! ### Live allocations -/

/-- A live allocation: the pointer that was returned and the size that was asked for. -/
structure HeapBlock where
  ptr : ℕ
  size : ℕ
  deriving DecidableEq

variable {c : HeapBlock}

namespace HeapBlock

def kind (c : HeapBlock) : HeapKind := heapKind c.size

/-- The bytes the allocation is accounted for with. -/
def charge (c : HeapBlock) : ℕ :=
  match c.kind with
  | .small _ blockSize => blockSize
  | .big pages => pages * pageSize

/-- Where the memory of the allocation starts: at the pointer, or at the header of its first
page. -/
def start (c : HeapBlock) : ℕ :=
  match c.kind with
  | .small _ _ => c.ptr
  | .big _ => alignDown4k c.ptr

/-- All the memory of the allocation. -/
def footprint (c : HeapBlock) : Finset ℕ := Finset.Ico c.start (c.start + c.charge)

/-- The memory behind the pointer, which is the caller's. -/
def extent (c : HeapBlock) : Finset ℕ := Finset.Ico c.ptr (c.start + c.charge)

def pages (hh : ℕ) (c : HeapBlock) : Finset ℕ :=
  match c.kind with
  | .small _ _ => ∅
  | .big pages => pageSpan (pageOf hh c.ptr) pages

theorem card_footprint (c : HeapBlock) : c.footprint.card = c.charge := by
  rw [footprint, Nat.card_Ico]
  omega

theorem start_le (c : HeapBlock) : c.start ≤ c.ptr := by
  unfold start
  split
  · exact le_rfl
  · exact alignDown4k_le _

theorem extent_subset (c : HeapBlock) : c.extent ⊆ c.footprint :=
  Finset.Ico_subset_Ico_left c.start_le

section

variable {blockSize : ℕ}

theorem kind_small (h : c.kind = .small b blockSize) :
    b < numBuckets ∧ blockSize = bucketSize b ∧ c.size ≤ bucketSize b := by
  simp only [kind, heapKind] at h
  split at h
  · next b' hb' =>
    obtain ⟨rfl, rfl⟩ := HeapKind.small.inj h
    obtain ⟨hlt, hle, -⟩ := findIdx?_eq_some_iff_getElem.1 hb'
    refine ⟨hlt, rfl, ?_⟩
    rw [bucketSize, getD_eq_getElem?_getD, getElem?_eq_getElem hlt, Option.getD_some]
    exact of_decide_eq_true hle
  · cases h

theorem footprint_small (h : c.kind = .small b blockSize) : c.footprint = slotRange b c.ptr := by
  simp only [footprint, start, charge, h, slotRange, (kind_small h).2.1]

theorem footprint_big (h : c.kind = .big n) :
    c.footprint = Finset.Ico (alignDown4k c.ptr) (alignDown4k c.ptr + n * pageSize) := by
  simp only [footprint, start, charge, h]

theorem pages_small (h : c.kind = .small b blockSize) : c.pages hh = ∅ := by simp only [pages, h]

theorem pages_big (h : c.kind = .big n) : c.pages hh = pageSpan (pageOf hh c.ptr) n := by
  simp only [pages, h]

end

end HeapBlock

theorem sum_charge_le {l : List HeapBlock} {S : Finset ℕ} (hl : l.Pairwise fun c d ↦ Disjoint c.footprint d.footprint)
    (hS : ∀ c ∈ l, c.footprint ⊆ S) : (l.map HeapBlock.charge).sum ≤ S.card := by
  induction l generalizing S with
  | nil => exact Nat.zero_le _
  | cons c l ih =>
    obtain ⟨hc, hl⟩ := pairwise_cons.1 hl
    have hsub : c.footprint ⊆ S := hS c mem_cons_self
    have hrest := ih hl (S := S \ c.footprint) fun d hd ↦
      Finset.subset_sdiff.2 ⟨hS d (mem_cons_of_mem c hd), (hc d hd).symm⟩
    have hcard := Finset.card_sdiff_add_card_eq_card hsub
    rw [c.card_footprint] at hcard
    rw [map_cons, sum_cons]
    omega

/-! ### Shapes -/

structure HeapShape where
  /-- The pages cut into blocks, and the bucket of each. -/
  slabs : Finset ℕ
  bucket : ℕ → ℕ
  /-- The free blocks of each bucket, in list order. -/
  free : ℕ → List ℕ
  live : List HeapBlock
  /-- The pages of other callers. -/
  held : Finset ℕ

namespace HeapShape

variable {σ : HeapShape}

/-- The page is accounted for. -/
def Owns (hh : ℕ) (σ : HeapShape) (pa : ℕ) : Prop :=
  pa ∈ σ.held ∨ pa ∈ σ.slabs ∨ ∃ c ∈ σ.live, pa ∈ c.pages hh

/-- A block of bucket `b` at `p` lies in a slab of that bucket. -/
structure Slot (hh : ℕ) (σ : HeapShape) (b p : ℕ) : Prop where
  isSlot : IsSlot b p
  hh_le : hh ≤ alignDown4k p
  mem : pageOf hh p ∈ σ.slabs
  bucket : σ.bucket (pageOf hh p) = b

structure WF (hh : ℕ) (σ : HeapShape) : Prop where
  hh_mod : hh % pageSize = 0
  page_mod : ∀ pa, σ.Owns hh pa → pa % pageSize = 0
  bucket_lt : ∀ pa ∈ σ.slabs, σ.bucket pa < numBuckets
  held_slabs : Disjoint σ.held σ.slabs
  big_held : ∀ c ∈ σ.live, Disjoint (c.pages hh) σ.held
  big_slabs : ∀ c ∈ σ.live, Disjoint (c.pages hh) σ.slabs
  free_slot : ∀ b < numBuckets, ∀ p ∈ σ.free b, σ.Slot hh b p
  free_nodup : ∀ b < numBuckets, (σ.free b).Nodup
  small_slot : ∀ c ∈ σ.live, ∀ b bs, c.kind = .small b bs → σ.Slot hh b c.ptr
  big_ptr : ∀ c ∈ σ.live, ∀ n, c.kind = .big n → hh ≤ alignDown4k c.ptr ∧ c.ptr = alignDown4k c.ptr + heapHdrBytes
  disjoint : σ.live.Pairwise fun c d ↦ Disjoint c.footprint d.footprint
  free_live : ∀ b < numBuckets, ∀ p ∈ σ.free b, ∀ c ∈ σ.live, Disjoint (slotRange b p) c.footprint
  room : ∀ c ∈ σ.live, c.ptr + c.size ≤ c.start + c.charge

theorem Slot.congr {σ' : HeapShape} (h : σ.Slot hh b p) (hslabs : σ'.slabs = σ.slabs)
    (hbucket : σ'.bucket = σ.bucket) : σ'.Slot hh b p := ⟨h.isSlot, h.hh_le, hslabs ▸ h.mem, hbucket ▸ h.bucket⟩

theorem Slot.of_mem (hb : b < numBuckets) (h : σ.Slot hh b p) (ha : a ∈ slotRange b p) :
    hh ≤ alignDown4k a ∧ pageOf hh a = pageOf hh p ∧ alignDown4k a + 16 ≤ a := by
  obtain ⟨heq, hle⟩ := h.isSlot.range_in_page hb ha
  exact ⟨heq ▸ h.hh_le, by rw [pageOf, pageOf, heq], heq ▸ hle⟩

theorem Slot.disjoint {b' q : ℕ} (hb : b < numBuckets) (hb' : b' < numBuckets) (hp : σ.Slot hh b p)
    (hq : σ.Slot hh b' q) (hne : p ≠ q) : Disjoint (slotRange b p) (slotRange b' q) := by
  rcases eq_or_ne b b' with rfl | hbb
  · exact hp.isSlot.disjoint hb hq.isSlot hne
  · refine Finset.disjoint_left.2 fun a hap haq ↦ hbb ?_
    rw [← hp.bucket, ← hq.bucket, ← (hp.of_mem hb hap).2.1, ← (hq.of_mem hb' haq).2.1]

section

variable (w : σ.WF hh) (hc : c ∈ σ.live)
include w hc

theorem WF.big_start (hk : c.kind = .big n) :
    0 < n ∧ pageOf hh c.ptr % pageSize = 0 ∧ alignDown4k c.ptr = hh + pageOf hh c.ptr := by
  obtain ⟨hle, hptr⟩ := w.big_ptr c hc n hk
  have hmod := w.hh_mod
  have hroom := w.room c hc
  simp only [HeapBlock.start, HeapBlock.charge, hk] at hroom
  refine ⟨Nat.pos_of_ne_zero ?_, ?_, ?_⟩
  · rintro rfl
    simp only [heapHdrBytes] at hptr
    omega
  · simp only [pageOf, alignDown4k, pageSize] at *
    omega
  · rw [pageOf]
    omega

theorem WF.big_page (hk : c.kind = .big n) (ha : a ∈ c.footprint) : hh ≤ alignDown4k a ∧ pageOf hh a ∈ c.pages hh := by
  obtain ⟨-, hpage, hstart⟩ := w.big_start hc hk
  have hmod := w.hh_mod
  rw [HeapBlock.footprint_big hk, hstart] at ha
  refine ⟨?_, ?_⟩
  · simp only [Finset.mem_Ico, alignDown4k, pageSize] at *
    omega
  · rw [HeapBlock.pages_big hk]
    exact pageOf_mem_pageSpan hmod hpage ha

theorem WF.mem_footprint_of_page (hp : p ∈ c.pages hh) : hh + p ∈ c.footprint := by
  rcases hk : c.kind with ⟨b, bs⟩ | n
  · rw [HeapBlock.pages_small hk] at hp
    cases hp
  · obtain ⟨-, hpage, hstart⟩ := w.big_start hc hk
    rw [HeapBlock.pages_big hk, mem_pageSpan_iff hpage] at hp
    rw [HeapBlock.footprint_big hk, hstart, Finset.mem_Ico]
    omega

theorem WF.ptr_mem_footprint : c.ptr ∈ c.footprint := by
  rcases hk : c.kind with ⟨b, bs⟩ | n
  · rw [HeapBlock.footprint_small hk]
    exact mem_slotRange_self (HeapBlock.kind_small hk).1
  · have hptr := (w.big_ptr c hc n hk).2
    have hpos := (w.big_start hc hk).1
    rw [HeapBlock.footprint_big hk, Finset.mem_Ico]
    simp only [heapHdrBytes, pageSize] at *
    omega

theorem WF.page_of_mem (ha : a ∈ c.footprint) :
    hh ≤ alignDown4k a ∧ (pageOf hh a ∈ σ.slabs ∨ pageOf hh a ∈ c.pages hh) := by
  rcases hk : c.kind with ⟨b, bs⟩ | n
  · have hslot := w.small_slot c hc b bs hk
    rw [HeapBlock.footprint_small hk] at ha
    obtain ⟨hle, heq, -⟩ := hslot.of_mem (HeapBlock.kind_small hk).1 ha
    exact ⟨hle, .inl (heq ▸ hslot.mem)⟩
  · exact (w.big_page hc hk ha).imp id .inr

theorem WF.owns_of_mem (ha : a ∈ c.footprint) : σ.Owns hh (pageOf hh a) :=
  (w.page_of_mem hc ha).2.elim (fun h ↦ .inr (.inl h)) fun h ↦ .inr (.inr ⟨c, hc, h⟩)

end

theorem WF.owns_of_mem_slot (w : σ.WF hh) (hb : b < numBuckets) (hp : p ∈ σ.free b) (ha : a ∈ slotRange b p) :
    σ.Owns hh (pageOf hh a) := by
  have hslot := w.free_slot b hb p hp
  exact .inr (.inl ((hslot.of_mem hb ha).2.1 ▸ hslot.mem))

/-! ### Moves -/

/-- A fresh page becomes a slab of bucket `b` with free blocks `ps`. -/
def addSlab (σ : HeapShape) (pa b : ℕ) (ps : List ℕ) : HeapShape := { σ with
    slabs := insert pa σ.slabs
    bucket := update σ.bucket pa b
    free := update σ.free b (ps ++ σ.free b) }

/-- A block of bucket `b` leaves the free list, of which `l` is the rest. -/
def take (σ : HeapShape) (b : ℕ) (l : List ℕ) (c : HeapBlock) : HeapShape :=
  { σ with free := update σ.free b l, live := c :: σ.live }

/-- A block goes back in front of the list of bucket `b`; `live` are the allocations that stay. -/
def giveBack (σ : HeapShape) (b p : ℕ) (live : List HeapBlock) : HeapShape :=
  { σ with free := update σ.free b (p :: σ.free b), live }

def setLive (σ : HeapShape) (live : List HeapBlock) : HeapShape := { σ with live }

def setHeld (σ : HeapShape) (held : Finset ℕ) : HeapShape := { σ with held }

theorem Slot.addSlab {b' : ℕ} (h : σ.Slot hh b p) (hpa : pa ∉ σ.slabs) : (σ.addSlab pa b' ps).Slot hh b p where
  isSlot := h.isSlot
  hh_le := h.hh_le
  mem := Finset.mem_insert_of_mem h.mem
  bucket := by
    have hne : pageOf hh p ≠ pa := fun heq ↦ hpa (heq ▸ h.mem)
    exact (update_of_ne hne b' σ.bucket).trans h.bucket

theorem owns_addSlab : (σ.addSlab pa b ps).Owns hh p ↔ p = pa ∨ σ.Owns hh p := by
  simp only [Owns, addSlab, Finset.mem_insert]
  tauto

theorem WF.addSlab (w : σ.WF hh) (hb : b < numBuckets) (hpa : pa % pageSize = 0) (hfresh : ¬σ.Owns hh pa)
    (hnodup : ps.Nodup) (hps : ∀ p ∈ ps, IsSlot b p ∧ p ∈ Finset.Ico (hh + pa) (hh + pa + pageSize)) :
    (σ.addSlab pa b ps).WF hh := by
  have hslabs : pa ∉ σ.slabs := fun h ↦ hfresh (.inr (.inl h))
  have hnew : ∀ p ∈ ps, (σ.addSlab pa b ps).Slot hh b p := fun p hp ↦ by
    obtain ⟨hslot, hmem⟩ := hps p hp
    have hpage : pageOf hh p = pa := pageOf_eq w.hh_mod hpa hmem
    refine ⟨hslot, ?_, hpage ▸ Finset.mem_insert_self _ _, ?_⟩
    · have := w.hh_mod
      simp only [Finset.mem_Ico, alignDown4k, pageSize] at *
      omega
    · rw [hpage]
      exact update_self ..
  -- what was there before lies in other pages
  have haway : ∀ p ∈ ps, ∀ a, σ.Owns hh (pageOf hh a) → a ∉ slotRange b p := fun p hp a hown ha ↦ by
    rw [((hnew p hp).of_mem hb ha).2.1, pageOf_eq w.hh_mod hpa (hps p hp).2] at hown
    exact hfresh hown
  have hmem : ∀ b' p, p ∈ (σ.addSlab pa b ps).free b' → b' = b ∧ p ∈ ps ∨ p ∈ σ.free b' := by
    intro b' p hp
    rcases eq_or_ne b' b with rfl | hne
    · rw [show (σ.addSlab pa b' ps).free b' = _ from update_self ..] at hp
      exact (mem_append.1 hp).imp (fun h ↦ ⟨rfl, h⟩) id
    · rw [show (σ.addSlab pa b ps).free b' = _ from update_of_ne hne ..] at hp
      exact .inr hp
  refine ⟨w.hh_mod, ?_, ?_, ?_, w.big_held, ?_, ?_, ?_, ?_, w.big_ptr, w.disjoint, ?_, w.room⟩
  · intro p hp
    rcases owns_addSlab.1 hp with rfl | hp
    exacts [hpa, w.page_mod p hp]
  · intro p hp
    rcases eq_or_ne p pa with rfl | hne
    · rw [show (σ.addSlab p b ps).bucket p = b from update_self ..]
      exact hb
    · rw [show (σ.addSlab pa b ps).bucket p = _ from update_of_ne hne ..]
      exact w.bucket_lt p (Finset.mem_of_mem_insert_of_ne hp hne)
  · exact Finset.disjoint_insert_right.2 ⟨fun h ↦ hfresh (.inl h), w.held_slabs⟩
  · exact fun c hc ↦ Finset.disjoint_insert_right.2 ⟨fun h ↦ hfresh (.inr (.inr ⟨c, hc, h⟩)), w.big_slabs c hc⟩
  · intro b' hb' p hp
    rcases hmem b' p hp with ⟨rfl, hin⟩ | hold
    exacts [hnew p hin, (w.free_slot b' hb' p hold).addSlab hslabs]
  · intro b' hb'
    rcases eq_or_ne b' b with rfl | hne
    · rw [show (σ.addSlab pa b' ps).free b' = _ from update_self ..]
      refine hnodup.append (w.free_nodup b' hb') fun p hp hp' ↦ ?_
      exact haway p hp p (w.owns_of_mem_slot hb' hp' (mem_slotRange_self hb')) (mem_slotRange_self hb')
    · rw [show (σ.addSlab pa b ps).free b' = _ from update_of_ne hne ..]
      exact w.free_nodup b' hb'
  · exact fun c hc b' bs hk ↦ (w.small_slot c hc b' bs hk).addSlab hslabs
  · intro b' hb' p hp c hc
    rcases hmem b' p hp with ⟨rfl, hin⟩ | hold
    · exact Finset.disjoint_left.2 fun a ha ha' ↦ haway p hin a (w.owns_of_mem hc ha') ha
    · exact w.free_live b' hb' p hold c hc

theorem owns_cons : (σ.setLive (c :: σ.live)).Owns hh p ↔ p ∈ c.pages hh ∨ σ.Owns hh p := by
  simp only [Owns, setLive, mem_cons, exists_eq_or_imp]
  tauto

theorem WF.take (w : σ.WF hh) {bs : ℕ} {l : List ℕ} (hk : c.kind = .small b bs)
    (hfree : σ.free b = c.ptr :: l) : (σ.take b l c).WF hh := by
  obtain ⟨hb, rfl, hsize⟩ := HeapBlock.kind_small hk
  have hptr : c.ptr ∈ σ.free b := hfree ▸ mem_cons_self
  have hmem : ∀ b' p, p ∈ (σ.take b l c).free b' → p ∈ σ.free b' := by
    intro b' p hp
    rcases eq_or_ne b' b with rfl | hne
    · rw [show (σ.take b' l c).free b' = l from update_self ..] at hp
      exact hfree ▸ mem_cons_of_mem _ hp
    · rwa [show (σ.take b l c).free b' = _ from update_of_ne hne ..] at hp
  have hnodup := w.free_nodup b hb
  rw [hfree, nodup_cons] at hnodup
  have hpages : c.pages hh = ∅ := HeapBlock.pages_small hk
  refine ⟨w.hh_mod, ?_, w.bucket_lt, w.held_slabs, ?_, ?_, ?_, ?_, ?_, ?_, ?_, ?_, ?_⟩
  · intro p hp
    rcases owns_cons.1 (show (σ.setLive (c :: σ.live)).Owns hh p from hp) with hp | hp
    · rw [hpages] at hp
      cases hp
    · exact w.page_mod p hp
  · exact forall_mem_cons.2 ⟨hpages ▸ Finset.disjoint_empty_left _, w.big_held⟩
  · exact forall_mem_cons.2 ⟨hpages ▸ Finset.disjoint_empty_left _, w.big_slabs⟩
  · exact fun b' hb' p hp ↦ (w.free_slot b' hb' p (hmem b' p hp)).congr rfl rfl
  · intro b' hb'
    rcases eq_or_ne b' b with rfl | hne
    · rw [show (σ.take b' l c).free b' = l from update_self ..]
      exact hnodup.2
    · rw [show (σ.take b l c).free b' = _ from update_of_ne hne ..]
      exact w.free_nodup b' hb'
  · refine forall_mem_cons.2 ⟨fun b' bs' hk' ↦ ?_, fun d hd b' bs' hk' ↦ ?_⟩
    · obtain ⟨rfl, -⟩ := HeapKind.small.inj (hk.symm.trans hk')
      exact (w.free_slot b hb c.ptr hptr).congr rfl rfl
    · exact (w.small_slot d hd b' bs' hk').congr rfl rfl
  · exact forall_mem_cons.2 ⟨fun n hn ↦ (nomatch hk.symm.trans hn), w.big_ptr⟩
  · refine pairwise_cons.2 ⟨fun d hd ↦ ?_, w.disjoint⟩
    rw [HeapBlock.footprint_small hk]
    exact w.free_live b hb c.ptr hptr d hd
  · intro b' hb' p hp
    refine forall_mem_cons.2 ⟨?_, w.free_live b' hb' p (hmem b' p hp)⟩
    rw [HeapBlock.footprint_small hk]
    refine Slot.disjoint hb' hb (w.free_slot b' hb' p (hmem b' p hp)) (w.free_slot b hb c.ptr hptr) ?_
    rintro rfl
    rcases eq_or_ne b' b with rfl | hne
    · rw [show (σ.take b' l c).free b' = l from update_self ..] at hp
      exact hnodup.1 hp
    · -- a block is on the list of its slab's bucket only
      exact hne ((w.free_slot b' hb' _ (hmem b' _ hp)).bucket.symm.trans (w.free_slot b hb _ hptr).bucket)
  · refine forall_mem_cons.2 ⟨?_, w.room⟩
    simp only [HeapBlock.start, HeapBlock.charge, hk]
    omega

theorem WF.sublist (w : σ.WF hh) {live : List HeapBlock} (hsub : live.Sublist σ.live) : (σ.setLive live).WF hh where
  hh_mod := w.hh_mod
  page_mod := fun pa hpa ↦ w.page_mod pa (hpa.imp id (Or.imp id fun ⟨c, hc, h⟩ ↦ ⟨c, hsub.subset hc, h⟩))
  bucket_lt := w.bucket_lt
  held_slabs := w.held_slabs
  big_held := fun c hc ↦ w.big_held c (hsub.subset hc)
  big_slabs := fun c hc ↦ w.big_slabs c (hsub.subset hc)
  free_slot := fun b hb p hp ↦ (w.free_slot b hb p hp).congr rfl rfl
  free_nodup := w.free_nodup
  small_slot := fun c hc b bs hk ↦ (w.small_slot c (hsub.subset hc) b bs hk).congr rfl rfl
  big_ptr := fun c hc ↦ w.big_ptr c (hsub.subset hc)
  disjoint := w.disjoint.sublist hsub
  free_live := fun b hb p hp c hc ↦ w.free_live b hb p hp c (hsub.subset hc)
  room := fun c hc ↦ w.room c (hsub.subset hc)

theorem WF.around (w : σ.WF hh) {l₁ l₂ : List HeapBlock} (hlive : σ.live = l₁ ++ c :: l₂) :
    c ∈ σ.live ∧ (l₁ ++ l₂).Sublist σ.live ∧ ∀ d ∈ l₁ ++ l₂, Disjoint c.footprint d.footprint := by
  have hdisj := w.disjoint
  rw [hlive] at hdisj ⊢
  have hperm : (l₁ ++ c :: l₂).Perm (c :: (l₁ ++ l₂)) := perm_middle
  have hcons := (hperm.pairwise_iff fun h ↦ h.symm).1 hdisj
  exact ⟨by simp, List.Sublist.append_left (sublist_cons_self c l₂) l₁, (pairwise_cons.1 hcons).1⟩

theorem WF.giveBack (w : σ.WF hh) {l₁ l₂ : List HeapBlock} {bs : ℕ} (hlive : σ.live = l₁ ++ c :: l₂)
    (hk : c.kind = .small b bs) : (σ.giveBack b c.ptr (l₁ ++ l₂)).WF hh := by
  obtain ⟨hb, -, -⟩ := HeapBlock.kind_small hk
  obtain ⟨hc, hsub, haway⟩ := w.around hlive
  have w' := w.sublist hsub
  have hnew : c.ptr ∉ σ.free b := fun hp ↦ by
    have hdisj := w.free_live b hb c.ptr hp c hc
    rw [HeapBlock.footprint_small hk] at hdisj
    exact Finset.disjoint_left.1 hdisj (mem_slotRange_self hb) (mem_slotRange_self hb)
  have hmem : ∀ b' p, p ∈ (σ.giveBack b c.ptr (l₁ ++ l₂)).free b' → b' = b ∧ p = c.ptr ∨ p ∈ σ.free b' := by
    intro b' p hp
    rcases eq_or_ne b' b with rfl | hne
    · rw [show (σ.giveBack b' c.ptr (l₁ ++ l₂)).free b' = _ from update_self ..] at hp
      exact (mem_cons.1 hp).imp (fun h ↦ ⟨rfl, h⟩) id
    · rw [show (σ.giveBack b c.ptr (l₁ ++ l₂)).free b' = _ from update_of_ne hne ..] at hp
      exact .inr hp
  refine ⟨w.hh_mod, w'.page_mod, w.bucket_lt, w.held_slabs, w'.big_held, w'.big_slabs, ?_, ?_, ?_,
    w'.big_ptr, w'.disjoint, ?_, w'.room⟩
  · intro b' hb' p hp
    rcases hmem b' p hp with ⟨rfl, rfl⟩ | hold
    · exact (w.small_slot c hc b' bs hk).congr rfl rfl
    · exact (w.free_slot b' hb' p hold).congr rfl rfl
  · intro b' hb'
    rcases eq_or_ne b' b with rfl | hne
    · rw [show (σ.giveBack b' c.ptr (l₁ ++ l₂)).free b' = _ from update_self ..]
      exact nodup_cons.2 ⟨hnew, w.free_nodup b' hb'⟩
    · rw [show (σ.giveBack b c.ptr (l₁ ++ l₂)).free b' = _ from update_of_ne hne ..]
      exact w.free_nodup b' hb'
  · exact fun d hd b' bs' hk' ↦ (w'.small_slot d hd b' bs' hk').congr rfl rfl
  · intro b' hb' p hp d hd
    rcases hmem b' p hp with ⟨rfl, rfl⟩ | hold
    · rw [← HeapBlock.footprint_small hk]
      exact haway d hd
    · exact w'.free_live b' hb' p hold d hd

theorem WF.addBig (w : σ.WF hh) (hk : c.kind = .big n) (hpa : pa % pageSize = 0)
    (hptr : c.ptr = hh + pa + heapHdrBytes) (hfresh : ∀ p ∈ pageSpan pa n, ¬σ.Owns hh p)
    (hroom : heapHdrBytes + c.size ≤ n * pageSize) : (σ.setLive (c :: σ.live)).WF hh := by
  have hhmod := w.hh_mod
  have hdown : alignDown4k c.ptr = hh + pa := by
    simp only [alignDown4k, heapHdrBytes, pageSize] at *
    omega
  have hpages : c.pages hh = pageSpan pa n := by rw [HeapBlock.pages_big hk, pageOf, hdown, Nat.add_sub_cancel_left]
  have hpage : ∀ a ∈ c.footprint, pageOf hh a ∈ pageSpan pa n := fun a ha ↦ by
    rw [HeapBlock.footprint_big hk, hdown] at ha
    exact pageOf_mem_pageSpan hhmod hpa ha
  refine ⟨hhmod, ?_, w.bucket_lt, w.held_slabs, ?_, ?_, ?_, w.free_nodup, ?_, ?_, ?_, ?_, ?_⟩
  · intro p hp
    rcases owns_cons.1 hp with hp | hp
    · rw [hpages] at hp
      exact ((mem_pageSpan_iff hpa).1 hp).1
    · exact w.page_mod p hp
  · refine forall_mem_cons.2 ⟨Finset.disjoint_left.2 fun p hp hheld ↦ ?_, w.big_held⟩
    exact hfresh p (hpages ▸ hp) (.inl hheld)
  · refine forall_mem_cons.2 ⟨Finset.disjoint_left.2 fun p hp hslab ↦ ?_, w.big_slabs⟩
    exact hfresh p (hpages ▸ hp) (.inr (.inl hslab))
  · exact fun b hb p hp ↦ (w.free_slot b hb p hp).congr rfl rfl
  · refine forall_mem_cons.2 ⟨fun b bs hk' ↦ (by cases hk.symm.trans hk'), fun d hd b bs hk' ↦ ?_⟩
    exact (w.small_slot d hd b bs hk').congr rfl rfl
  · refine forall_mem_cons.2 ⟨fun m hm ↦ ?_, w.big_ptr⟩
    rw [hdown]
    exact ⟨Nat.le_add_right hh pa, hptr⟩
  · refine pairwise_cons.2 ⟨fun d hd ↦ Finset.disjoint_left.2 fun a ha ha' ↦ ?_, w.disjoint⟩
    exact hfresh _ (hpage a ha) (w.owns_of_mem hd ha')
  · intro b hb p hp
    refine forall_mem_cons.2 ⟨Finset.disjoint_left.2 fun a ha ha' ↦ ?_, w.free_live b hb p hp⟩
    exact hfresh _ (hpage a ha') (w.owns_of_mem_slot hb hp ha)
  · refine forall_mem_cons.2 ⟨?_, w.room⟩
    simp only [HeapBlock.start, HeapBlock.charge, hk, hdown]
    omega

theorem WF.setHeld (w : σ.WF hh) {held : Finset ℕ}
    (hheld : ∀ pa ∈ held, pa ∈ σ.held ∨ pa % pageSize = 0 ∧ ¬σ.Owns hh pa) : (σ.setHeld held).WF hh := by
  have hfresh : ∀ pa ∈ held, pa ∉ σ.held → ¬σ.Owns hh pa := fun pa hpa hnot ↦ ((hheld pa hpa).resolve_left hnot).2
  have haway : ∀ s : Finset ℕ, Disjoint s σ.held → (∀ pa ∈ s, σ.Owns hh pa) → Disjoint s held :=
    fun s hs hown ↦ Finset.disjoint_left.2 fun pa hpa hpa' ↦
      hfresh pa hpa' (Finset.disjoint_left.1 hs hpa) (hown pa hpa)
  refine ⟨w.hh_mod, ?_, w.bucket_lt, ?_, ?_, w.big_slabs, ?_, w.free_nodup, ?_, w.big_ptr, w.disjoint,
    w.free_live, w.room⟩
  · rintro pa (hpa | hpa)
    · rcases hheld pa hpa with hpa | hpa
      exacts [w.page_mod pa (.inl hpa), hpa.1]
    · exact w.page_mod pa (.inr hpa)
  · exact (haway σ.slabs w.held_slabs.symm fun pa hpa ↦ .inr (.inl hpa)).symm
  · exact fun c hc ↦ haway _ (w.big_held c hc) fun pa hpa ↦ .inr (.inr ⟨c, hc, hpa⟩)
  · exact fun b hb p hp ↦ (w.free_slot b hb p hp).congr rfl rfl
  · exact fun c hc b bs hk ↦ (w.small_slot c hc b bs hk).congr rfl rfl

end HeapShape

end CapazOS
