import CapazOS.Slab.Pages
import Mathlib.Algebra.Order.BigOperators.Group.Finset

/-!
# The abstract slab cache

`SlabShape` is a cache without its memory: the pages, the free list of each, and the live objects.
**Every object of a page is either on the page's free list or live**, and never both
(`SlabShape.WF`). A cache takes an object off a free list, puts one back, or adds a page; each keeps
the shape well-formed.
-/

namespace CapazOS

open List ByteMem Function

/-! ### The abstract cache -/

/-- The pages of a cache in the order of its list, the free list of each, the live objects, and the
pages other callers hold. -/
structure SlabShape where
  pages : List ℕ
  free : ℕ → List ℕ
  live : List ℕ
  held : Finset ℕ

namespace SlabShape

variable (σ : SlabShape)

def liveOn (sp : ℕ) : List ℕ := σ.live.filter fun p ↦ alignDown4k p = sp

def owned (hh : ℕ) (σ : SlabShape) : Finset ℕ := σ.held ∪ (σ.pages.map fun sp ↦ sp - hh).toFinset

/-- **A well-formed cache**, over a direct map that starts at `hh`. -/
structure WF (hh sz al : ℕ) (σ : SlabShape) : Prop where
  geometry : SlabGeometry sz al
  pages_nodup : σ.pages.Nodup
  page_at : ∀ sp ∈ σ.pages, hh ≤ sp ∧ sp % pageSize = 0 ∧ sp + pageSize ≤ 2 ^ 64
  page_held : ∀ sp ∈ σ.pages, sp - hh ∉ σ.held
  free_nodup : ∀ sp ∈ σ.pages, (σ.free sp).Nodup
  live_nodup : σ.live.Nodup
  objects : ∀ sp ∈ σ.pages, ∀ p, p ∈ slabObjects sp sz al ↔ p ∈ σ.free sp ∨ p ∈ σ.liveOn sp
  free_live : ∀ sp ∈ σ.pages, ∀ p ∈ σ.free sp, p ∉ σ.live
  live_page : ∀ p ∈ σ.live, alignDown4k p ∈ σ.pages

def take (sp p : ℕ) (rest : List ℕ) : SlabShape :=
  { σ with free := update σ.free sp rest, live := p :: σ.live }

def give (p : ℕ) : SlabShape := { σ with
    free := update σ.free (alignDown4k p) (p :: σ.free (alignDown4k p))
    live := σ.live.erase p }

def addPage (sz al sp : ℕ) : SlabShape := { σ with
    pages := sp :: σ.pages
    free := update σ.free sp (slabObjects sp sz al).reverse }

def setHeld (held : Finset ℕ) : SlabShape := { σ with held }

theorem take_free_self (sp p : ℕ) (rest : List ℕ) : (σ.take sp p rest).free sp = rest :=
  update_self ..

theorem take_free_of_ne {sp sp' : ℕ} (h : sp' ≠ sp) (p : ℕ) (rest : List ℕ) :
    (σ.take sp p rest).free sp' = σ.free sp' := update_of_ne h ..

theorem mem_liveOn {σ : SlabShape} {sp p : ℕ} : p ∈ σ.liveOn sp ↔ p ∈ σ.live ∧ alignDown4k p = sp := by
  simp [liveOn]

theorem liveOn_take (sp p sp' : ℕ) (rest : List ℕ) : (σ.take sp p rest).liveOn sp' =
      if alignDown4k p = sp' then p :: σ.liveOn sp' else σ.liveOn sp' := by
  simp [liveOn, take, filter_cons]

theorem length_liveOn_give {σ : SlabShape} {p : ℕ} (hp : p ∈ σ.live) (sp : ℕ) :
    ((σ.give p).liveOn sp).length + (if alignDown4k p = sp then 1 else 0) = (σ.liveOn sp).length := by
  have hperm := (perm_cons_erase hp).filter fun q ↦ decide (alignDown4k q = sp)
  rw [liveOn, liveOn, hperm.length_eq, filter_cons]
  split_ifs with h₁ h₂ h₂
  · rw [length_cons]
    rfl
  · exact absurd (decide_eq_true h₁) h₂
  · exact absurd (of_decide_eq_true h₂) h₁
  · rfl

section

variable {hh sz al sp p q : ℕ} {σ : SlabShape} (w : σ.WF hh sz al)

include w

theorem WF.object_of_live (hp : p ∈ σ.live) : p ∈ slabObjects (alignDown4k p) sz al :=
  (w.objects _ (w.live_page p hp) p).2 (.inr (mem_liveOn.2 ⟨hp, rfl⟩))

theorem WF.object_of_free (hsp : sp ∈ σ.pages) (hp : p ∈ σ.free sp) : p ∈ slabObjects sp sz al :=
  (w.objects sp hsp p).2 (.inl hp)

theorem WF.bounds (hsp : sp ∈ σ.pages) (hp : p ∈ slabObjects sp sz al) :
    sp + slabHdrBytes ≤ p ∧ p + sz ≤ sp + pageSize ∧ al ∣ p :=
  w.geometry.object_bounds (w.page_at sp hsp).2.1 (w.page_at sp hsp).2.2 hp

theorem WF.page_of_object (hsp : sp ∈ σ.pages) (hp : p ∈ slabObjects sp sz al) : alignDown4k p = sp :=
  w.geometry.object_page (w.page_at sp hsp).2.1 (w.page_at sp hsp).2.2 hp

theorem WF.apart (hp : p ∈ slabObjects (alignDown4k p) sz al) (hpp : alignDown4k p ∈ σ.pages)
    (hq : q ∈ slabObjects (alignDown4k q) sz al) (hqp : alignDown4k q ∈ σ.pages) (hne : p ≠ q) :
    p + sz ≤ q ∨ q + sz ≤ p := by
  rcases eq_or_ne (alignDown4k p) (alignDown4k q) with heq | hpage
  · exact w.geometry.objects_apart (w.page_at _ hqp).2.1 (w.page_at _ hqp).2.2 (heq ▸ hp) hq hne
  · obtain ⟨hp₁, hp₂, -⟩ := w.bounds hpp hp
    obtain ⟨hq₁, hq₂, -⟩ := w.bounds hqp hq
    have := alignDown4k_mod p
    have := alignDown4k_mod q
    simp only [slabHdrBytes, pageSize] at *
    omega

theorem WF.free_add_inuse (hsp : sp ∈ σ.pages) :
    (σ.liveOn sp).length + (σ.free sp).length = (slabObjects sp sz al).length := by
  have height := w.geometry.eight_le
  have hnodup : (σ.free sp ++ σ.liveOn sp).Nodup := by
    refine nodup_append.2 ⟨w.free_nodup sp hsp, w.live_nodup.filter _, fun p hp q hq ↦ ?_⟩
    rintro rfl
    exact w.free_live sp hsp p hp (mem_liveOn.1 hq).1
  have hperm : (σ.free sp ++ σ.liveOn sp).Perm (slabObjects sp sz al) :=
    (perm_ext_iff_of_nodup hnodup (SlabGeometry.objects_nodup (by omega))).2 fun p ↦ by
      rw [mem_append]
      exact (w.objects sp hsp p).symm
  rw [← hperm.length_eq, length_append, Nat.add_comm]

theorem WF.sum_inuse : (σ.pages.map fun sp ↦ (σ.liveOn sp).length).sum = σ.live.length := by
  have hmaps : Set.MapsTo alignDown4k (σ.live.toFinset : Set ℕ) (σ.pages.toFinset : Set ℕ) := fun p hp ↦ by
      simp only [Finset.mem_coe, mem_toFinset] at hp ⊢
      exact w.live_page p hp
  have hcard := Finset.card_eq_sum_card_fiberwise hmaps
  rw [toFinset_card_of_nodup w.live_nodup] at hcard
  rw [hcard, ← sum_toFinset _ w.pages_nodup]
  refine Finset.sum_congr rfl fun sp _ ↦ ?_
  rw [liveOn, ← toFinset_card_of_nodup (w.live_nodup.filter _), toFinset_filter]
  simp

theorem WF.live_length_lt : σ.live.length < 2 ^ 64 := by
  have hsub : σ.live.toFinset ⊆ Finset.Ico 1 (2 ^ 64) := fun p hp ↦ by
    have hp := mem_toFinset.1 hp
    obtain ⟨hlo, hhi, -⟩ := w.bounds (w.live_page p hp) (w.object_of_live hp)
    have hpage := (w.page_at _ (w.live_page p hp)).2.2
    have height := w.geometry.eight_le
    simp only [Finset.mem_Ico, slabHdrBytes] at *
    omega
  have hle := Finset.card_le_card hsub
  rw [toFinset_card_of_nodup w.live_nodup, Nat.card_Ico] at hle
  omega

theorem WF.pages_length_lt : σ.pages.length < walkSteps := by
  have hsub : σ.pages.toFinset ⊆ Finset.range (2 ^ 64 - 1) := fun sp hsp ↦ by
    have := (w.page_at sp (mem_toFinset.1 hsp)).2.2
    simp only [Finset.mem_range, pageSize] at *
    omega
  have hle := Finset.card_le_card hsub
  rw [toFinset_card_of_nodup w.pages_nodup, Finset.card_range] at hle
  rw [walkSteps]
  omega

/-! ### The moves -/

theorem WF.take (hsp : sp ∈ σ.pages) {rest : List ℕ} (hfree : σ.free sp = p :: rest) :
    (σ.take sp p rest).WF hh sz al := by
  have hp : p ∈ σ.free sp := hfree ▸ mem_cons_self
  have hpage : alignDown4k p = sp := w.page_of_object hsp (w.object_of_free hsp hp)
  have hnot := w.free_live sp hsp p hp
  obtain ⟨hprest, hrest⟩ := nodup_cons.1 (hfree ▸ w.free_nodup sp hsp)
  refine ⟨w.geometry, w.pages_nodup, w.page_at, w.page_held, fun sp' hsp' ↦ ?_,
    nodup_cons.2 ⟨hnot, w.live_nodup⟩, fun sp' hsp' q ↦ ?_, fun sp' hsp' q hq ↦ ?_,
    forall_mem_cons.2 ⟨hpage.symm ▸ hsp, w.live_page⟩⟩
  · rcases eq_or_ne sp' sp with rfl | hne
    · rw [take_free_self]
      exact hrest
    · rw [take_free_of_ne σ hne]
      exact w.free_nodup sp' hsp'
  · rw [w.objects sp' hsp' q, mem_liveOn, mem_liveOn]
    rcases eq_or_ne sp' sp with rfl | hne
    · rw [take_free_self, hfree, show (σ.take sp' p rest).live = p :: σ.live from rfl, mem_cons, mem_cons]
      constructor
      · rintro ((rfl | hq) | ⟨hq, hpg⟩)
        exacts [.inr ⟨.inl rfl, hpage⟩, .inl hq, .inr ⟨.inr hq, hpg⟩]
      · rintro (hq | ⟨rfl | hq, hpg⟩)
        exacts [.inl (.inr hq), .inl (.inl rfl), .inr ⟨hq, hpg⟩]
    · rw [take_free_of_ne σ hne, show (σ.take sp p rest).live = p :: σ.live from rfl, mem_cons]
      refine or_congr_right (and_congr_left fun hpg ↦ ⟨.inr, fun hq ↦ hq.resolve_left ?_⟩)
      rintro rfl
      exact hne (hpg.symm.trans hpage)
  · rw [show (σ.take sp p rest).live = p :: σ.live from rfl, mem_cons, not_or]
    rcases eq_or_ne sp' sp with rfl | hne
    · rw [take_free_self] at hq
      refine ⟨fun heq ↦ hprest (heq ▸ hq), w.free_live sp' hsp' q ?_⟩
      rw [hfree]
      exact mem_cons_of_mem p hq
    · rw [take_free_of_ne σ hne] at hq
      refine ⟨?_, w.free_live sp' hsp' q hq⟩
      rintro rfl
      exact hne ((w.page_of_object hsp' (w.object_of_free hsp' hq)).symm.trans hpage)

theorem WF.give (hp : p ∈ σ.live) : (σ.give p).WF hh sz al := by
  have hpage := w.live_page p hp
  generalize hsp : alignDown4k p = sp at hpage
  have hmem : ∀ q, q ∈ σ.live.erase p ↔ q ≠ p ∧ q ∈ σ.live := fun q ↦ w.live_nodup.mem_erase_iff
  have hfree : (σ.give p).free = update σ.free sp (p :: σ.free sp) := by rw [← hsp]; rfl
  refine ⟨w.geometry, w.pages_nodup, w.page_at, w.page_held, fun sp' hsp' ↦ ?_,
    w.live_nodup.erase p, fun sp' hsp' q ↦ ?_, fun sp' hsp' q hq ↦ ?_,
    fun q hq ↦ w.live_page q ((hmem q).1 hq).2⟩
  · rw [hfree]
    rcases eq_or_ne sp' sp with rfl | hne
    · rw [update_self]
      exact nodup_cons.2 ⟨fun hin ↦ w.free_live sp' hsp' p hin hp, w.free_nodup sp' hsp'⟩
    · rw [update_of_ne hne]
      exact w.free_nodup sp' hsp'
  · rw [w.objects sp' hsp' q, mem_liveOn, mem_liveOn, hfree, show (σ.give p).live = σ.live.erase p from rfl, hmem]
    rcases eq_or_ne sp' sp with rfl | hne
    · rw [update_self, mem_cons]
      constructor
      · rintro (hq | ⟨hq, hpg⟩)
        · exact .inl (.inr hq)
        · rcases eq_or_ne q p with heq | hqp
          exacts [.inl (.inl heq), .inr ⟨⟨hqp, hq⟩, hpg⟩]
      · rintro ((rfl | hq) | ⟨⟨-, hq⟩, hpg⟩)
        exacts [.inr ⟨hp, hsp⟩, .inl hq, .inr ⟨hq, hpg⟩]
    · rw [update_of_ne hne]
      refine or_congr_right (and_congr_left fun hpg ↦ ⟨fun hq ↦ ⟨?_, hq⟩, And.right⟩)
      rintro rfl
      exact hne (hpg.symm.trans hsp)
  · rw [hfree] at hq
    rw [show (σ.give p).live = σ.live.erase p from rfl, hmem]
    rcases eq_or_ne sp' sp with rfl | hne
    · rw [update_self] at hq
      rcases mem_cons.1 hq with rfl | hq
      · exact fun h ↦ h.1 rfl
      · exact fun h ↦ w.free_live sp' hsp' q hq h.2
    · rw [update_of_ne hne] at hq
      exact fun h ↦ w.free_live sp' hsp' q hq h.2

theorem WF.addPage (hsp : hh ≤ sp ∧ sp % pageSize = 0 ∧ sp + pageSize ≤ 2 ^ 64)
    (hnew : sp ∉ σ.pages) (hheld : sp - hh ∉ σ.held) : (σ.addPage sz al sp).WF hh sz al := by
  have height := w.geometry.eight_le
  have hself : (σ.addPage sz al sp).free sp = (slabObjects sp sz al).reverse := update_self ..
  have hother : ∀ sp' ∈ σ.pages, (σ.addPage sz al sp).free sp' = σ.free sp' := fun sp' hsp' ↦
    update_of_ne (ne_of_mem_of_not_mem hsp' hnew) ..
  -- nothing is live on a page that is not the cache's
  have hdead : ∀ p ∈ σ.live, alignDown4k p ≠ sp := fun p hp heq ↦ hnew (heq ▸ w.live_page p hp)
  refine ⟨w.geometry, nodup_cons.2 ⟨hnew, w.pages_nodup⟩, forall_mem_cons.2 ⟨hsp, w.page_at⟩,
    forall_mem_cons.2 ⟨hheld, w.page_held⟩, forall_mem_cons.2 ⟨?_, fun sp' hsp' ↦ ?_⟩,
    w.live_nodup, forall_mem_cons.2 ⟨fun p ↦ ?_, fun sp' hsp' p ↦ ?_⟩,
    forall_mem_cons.2 ⟨fun p hp ↦ ?_, fun sp' hsp' p hp ↦ ?_⟩,
    fun p hp ↦ mem_cons_of_mem sp (w.live_page p hp)⟩
  · rw [hself]
    exact nodup_reverse.2 (SlabGeometry.objects_nodup (by omega))
  · rw [hother sp' hsp']
    exact w.free_nodup sp' hsp'
  · rw [hself, mem_reverse, mem_liveOn]
    exact ⟨.inl, fun h ↦ h.resolve_right fun hl ↦ hdead p hl.1 hl.2⟩
  · rw [hother sp' hsp']
    exact w.objects sp' hsp' p
  · rw [hself, mem_reverse] at hp
    exact fun hl ↦ hdead p hl (w.geometry.object_page hsp.2.1 hsp.2.2 hp)
  · rw [hother sp' hsp'] at hp
    exact w.free_live sp' hsp' p hp

theorem WF.setHeld {held : Finset ℕ} (hheld : ∀ sp ∈ σ.pages, sp - hh ∉ held) : (σ.setHeld held).WF hh sz al :=
  ⟨w.geometry, w.pages_nodup, w.page_at, hheld, w.free_nodup, w.live_nodup, w.objects, w.free_live, w.live_page⟩

end

end SlabShape

end CapazOS
