import CapazOS.Slab.Model
import CapazOS.Kheap.Refinement

/-!
# The pages of a slab cache

A page is cut into objects by rounding. `SlabGeometry` is what `slab_cache_init` guarantees of size
and alignment (`slabCacheInit_geometry`): the objects are aligned, lie behind the header and inside
the page, and do not overlap. `SlabPageAt` says what a page holds; setting it up, taking an object
and putting one back are statements about that page and a frame.
-/

namespace CapazOS

open ByteMem

/-! ### Rounding -/

theorem and_high_mask {x k : ℕ} (hx : x < 2 ^ 64) (hk : k ≤ 64) : x &&& (2 ^ 64 - 2 ^ k) = x / 2 ^ k * 2 ^ k := by
  have hsplit : 2 ^ 64 - 2 ^ k = (2 ^ (64 - k) - 1) <<< k := by
    rw [Nat.shiftLeft_eq, Nat.sub_mul, ← Nat.pow_add, Nat.sub_add_cancel hk, Nat.one_mul]
  refine Nat.eq_of_testBit_eq fun i ↦ ?_
  rw [Nat.testBit_and, hsplit, Nat.testBit_shiftLeft, Nat.testBit_two_pow_sub_one,
    ← Nat.shiftRight_eq_div_pow, ← Nat.shiftLeft_eq, Nat.testBit_shiftLeft, Nat.testBit_shiftRight]
  rcases Nat.lt_or_ge i k with hlt | hge
  · simp [Nat.not_le.2 hlt]
  · rcases Nat.lt_or_ge i 64 with hi | hi
    · simp [hge, show i - k < 64 - k by omega]
    · have hzero : x.testBit i = false :=
        Nat.testBit_lt_two_pow (lt_of_lt_of_le hx (Nat.pow_le_pow_right (by decide) hi))
      simp [hge, hzero]

theorem slabAlignUp_two_pow {v k : ℕ} (hk : k ≤ 63) (hv : v + 2 ^ k ≤ 2 ^ 64) :
    slabAlignUp v (2 ^ k) = (v + (2 ^ k - 1)) / 2 ^ k * 2 ^ k := by
  have hpos : 0 < 2 ^ k := Nat.two_pow_pos k
  have hmask : 2 ^ 64 - 1 - (2 ^ k - 1) = 2 ^ 64 - 2 ^ k := by omega
  rw [slabAlignUp, if_neg hpos.ne', hmask, u64, Nat.mod_eq_of_lt (by omega), and_high_mask (by omega) (by omega)]

theorem slabAlignUp_spec {v k : ℕ} (hv : v ≤ 4096) (hk : k ≤ 31) :
    v ≤ slabAlignUp v (2 ^ k) ∧ slabAlignUp v (2 ^ k) < v + 2 ^ k ∧ 2 ^ k ∣ slabAlignUp v (2 ^ k) := by
  have hle : 2 ^ k ≤ 2 ^ 31 := Nat.pow_le_pow_right (by decide) hk
  have hdiv := Nat.div_add_mod (v + (2 ^ k - 1)) (2 ^ k)
  rw [slabAlignUp_two_pow (by omega) (by omega), Nat.mul_comm (_ / _)]
  exact ⟨by omega, by omega, Nat.dvd_mul_right _ _⟩

/-! ### The geometry of a page -/

/-- **What `slab_cache_init` accepts**: sizes and alignments that cut a page into objects. -/
structure SlabGeometry (sz al : ℕ) : Prop where
  pow : ∃ k ≤ 11, al = 2 ^ k
  al_dvd : al ∣ sz
  eight_le : 8 ≤ sz
  fits : slabAlignUp slabHdrBytes al + sz ≤ pageSize

namespace SlabGeometry

variable {sz al sp p q : ℕ} (h : SlabGeometry sz al)

include h

theorem al_dvd_page : al ∣ pageSize := by
  obtain ⟨k, hk, rfl⟩ := h.pow
  exact Nat.pow_dvd_pow (n := 12) 2 (by omega)

theorem first_spec : slabHdrBytes ≤ slabAlignUp slabHdrBytes al ∧ al ∣ slabAlignUp slabHdrBytes al := by
  obtain ⟨k, hk, rfl⟩ := h.pow
  obtain ⟨hge, -, hdvd⟩ := slabAlignUp_spec (show slabHdrBytes ≤ 4096 by decide) (show k ≤ 31 by omega)
  exact ⟨hge, hdvd⟩

section

variable (hsp : sp % pageSize = 0) (hlt : sp + pageSize ≤ 2 ^ 64)
include hsp hlt

theorem alignUp_page : slabAlignUp (sp + slabHdrBytes) al = sp + slabAlignUp slabHdrBytes al := by
  obtain ⟨c, rfl⟩ := h.al_dvd_page.trans (Nat.dvd_of_mod_eq_zero hsp)
  obtain ⟨k, hk, rfl⟩ := h.pow
  have hpos : 0 < 2 ^ k := Nat.two_pow_pos k
  have hle : 2 ^ k ≤ 2 ^ 11 := Nat.pow_le_pow_right (by decide) hk
  rw [slabAlignUp_two_pow (by omega) (by simp only [slabHdrBytes, pageSize] at *; omega),
    slabAlignUp_two_pow (by omega) (by simp only [slabHdrBytes]; omega)]
  rw [show 2 ^ k * c + slabHdrBytes + (2 ^ k - 1) = slabHdrBytes + (2 ^ k - 1) + 2 ^ k * c by omega,
    Nat.add_mul_div_left _ _ hpos, Nat.add_mul, Nat.mul_comm c]
  omega

theorem mem_objects : p ∈ slabObjects sp sz al ↔ ∃ i, i < (pageSize - slabAlignUp slabHdrBytes al) / sz ∧
        p = sp + slabAlignUp slabHdrBytes al + sz * i := by
  rw [slabObjects, h.alignUp_page hsp hlt, Nat.add_sub_add_left, List.mem_range']

/-- **An object lies behind the header and inside the page, and is aligned.** -/
theorem object_bounds (hp : p ∈ slabObjects sp sz al) : sp + slabHdrBytes ≤ p ∧ p + sz ≤ sp + pageSize ∧ al ∣ p := by
  obtain ⟨i, hi, rfl⟩ := (h.mem_objects hsp hlt).1 hp
  obtain ⟨hhdr, hdvd⟩ := h.first_spec
  have hmul : sz * (i + 1) ≤ pageSize - slabAlignUp slabHdrBytes al :=
    (Nat.mul_le_mul_left sz hi).trans (Nat.mul_div_le _ _)
  have hfits := h.fits
  refine ⟨by omega, by rw [Nat.mul_succ] at hmul; omega, ?_⟩
  exact Nat.dvd_add (Nat.dvd_add (h.al_dvd_page.trans (Nat.dvd_of_mod_eq_zero hsp)) hdvd) (Dvd.dvd.mul_right h.al_dvd i)

theorem object_page (hp : p ∈ slabObjects sp sz al) : alignDown4k p = sp := by
  obtain ⟨hlo, hhi, -⟩ := h.object_bounds hsp hlt hp
  have height := h.eight_le
  simp only [alignDown4k, pageSize] at *
  omega

theorem objects_apart (hp : p ∈ slabObjects sp sz al) (hq : q ∈ slabObjects sp sz al) (hne : p ≠ q) :
    p + sz ≤ q ∨ q + sz ≤ p := by
  obtain ⟨i, -, rfl⟩ := (h.mem_objects hsp hlt).1 hp
  obtain ⟨j, -, rfl⟩ := (h.mem_objects hsp hlt).1 hq
  have hij : i ≠ j := fun heq ↦ hne (heq ▸ rfl)
  rcases Nat.lt_or_gt_of_ne hij with hlt | hlt
  · have := Nat.mul_le_mul_left sz (show i + 1 ≤ j from hlt)
    rw [Nat.mul_succ] at this
    omega
  · have := Nat.mul_le_mul_left sz (show j + 1 ≤ i from hlt)
    rw [Nat.mul_succ] at this
    omega

end

omit h in
theorem objects_nodup (hsz : 0 < sz) : (slabObjects sp sz al).Nodup := by
  exact @List.nodup_range' _ _ sz hsz

theorem objects_length (hsp : sp % pageSize = 0) (hlt : sp + pageSize ≤ 2 ^ 64) :
    0 < (slabObjects sp sz al).length ∧ (slabObjects sp sz al).length < 2 ^ 16 := by
  have height := h.eight_le
  have hfits := h.fits
  rw [slabObjects, h.alignUp_page hsp hlt, Nat.add_sub_add_left, List.length_range']
  constructor
  · exact Nat.div_pos (by omega) (by omega)
  · have := Nat.div_le_self (pageSize - slabAlignUp slabHdrBytes al) sz
    simp only [pageSize] at *
    omega

end SlabGeometry

/-- **Every accepted cache has a sound geometry**: objects are at least as large and at least as
aligned as they were asked to be. -/
theorem slabCacheInit_geometry {objSize align : ℕ} {c : SlabCache} (hsize : objSize ≤ 4096)
    (halign : ∃ k, align = 2 ^ k) (hlt : align < 2 ^ 32) (h : slabCacheInit objSize align = some c) :
    SlabGeometry c.objSize c.objAlign ∧ objSize ≤ c.objSize ∧ align ∣ c.objAlign ∧ c.pages = 0 ∧
      c.inuseObjects = 0 := by
  obtain ⟨k, rfl⟩ := halign
  have hk : k < 32 := (Nat.pow_lt_pow_iff_right (by decide)).1 hlt
  have hwant : max (2 ^ k % 2 ^ 32) 8 = 2 ^ max k 3 := by
    rw [Nat.mod_eq_of_lt hlt, show (8 : ℕ) = 2 ^ 3 from rfl]
    rcases le_total k 3 with hle | hle
    · rw [max_eq_right hle, max_eq_right (Nat.pow_le_pow_right (by decide) hle)]
    · rw [max_eq_left hle, max_eq_left (Nat.pow_le_pow_right (by decide) hle)]
  generalize hj : max k 3 = j at hwant
  have hj31 : j ≤ 31 := by omega
  have hj3 : 3 ≤ j := hj ▸ le_max_right k 3
  have hpow : 2 ^ j ≤ 2 ^ 31 := Nat.pow_le_pow_right (by decide) hj31
  have hpow8 : 2 ^ 3 ≤ 2 ^ j := Nat.pow_le_pow_right (by decide) hj3
  obtain ⟨hge, hup, hdvd⟩ := slabAlignUp_spec hsize hj31
  obtain ⟨hgeHdr, hupHdr, hdvdHdr⟩ := slabAlignUp_spec (show slabHdrBytes ≤ 4096 by decide) hj31
  simp only [slabCacheInit, hwant, Nat.mod_eq_of_lt (show objSize < 2 ^ 32 by omega),
    Nat.mod_eq_of_lt (show slabAlignUp objSize (2 ^ j) < 2 ^ 32 by omega)] at h
  split at h
  · cases h
  next hzero =>
  -- a multiple of the alignment is at least a word, and the alignment at most half a page
  have hsz : 2 ^ j ≤ slabAlignUp objSize (2 ^ j) := Nat.le_of_dvd (by omega) hdvd
  have hfirst : 2 ^ j ≤ slabAlignUp slabHdrBytes (2 ^ j) := Nat.le_of_dvd (lt_of_lt_of_le (by decide) hgeHdr) hdvdHdr
  have hword : slabHdrBytes = 24 := rfl
  rw [if_neg (show ¬slabAlignUp objSize (2 ^ j) < 8 by omega), u64, Nat.mod_eq_of_lt (by omega)] at h
  split_ifs at h with hpower hfit
  obtain rfl := Option.some.inj h
  have hfits : slabAlignUp slabHdrBytes (2 ^ j) + slabAlignUp objSize (2 ^ j) ≤ pageSize := Nat.not_lt.1 hfit
  have hj11 : j ≤ 11 := by
    have hhalf : 2 ^ j ≤ 2 ^ 11 := by
      simp only [pageSize] at hfits
      omega
    exact (Nat.pow_le_pow_iff_right (by decide)).1 hhalf
  refine ⟨⟨⟨j, hj11, rfl⟩, hdvd, le_trans (show 8 ≤ 2 ^ j from hpow8) hsz, hfits⟩, hge, ?_, rfl, rfl⟩
  exact Nat.pow_dvd_pow 2 (hj ▸ le_max_left k 3)

/-! ### What a page holds -/

/-- **A page of the cache**: its free list, the number of its objects, and the number in use. -/
structure SlabPageAt (m : Mem) (sz al sp : ℕ) (free : List ℕ) (inuse : ℕ) : Prop where
  freelist : Threaded m (slabFreelist m sp) free
  objCount : slabObjCount m sp = (slabObjects sp sz al).length
  inuse : slabInuse m sp = inuse

section

variable {m m' : Mem} {sz al sp p n : ℕ} {free : List ℕ}

theorem SlabPageAt.congr (h : SlabPageAt m sz al sp free n)
    (hhdr : ∀ x ∈ Finset.Ico (sp + 8) (sp + slabHdrBytes), m' x = m x)
    (hfree : ∀ p ∈ free, ∀ x ∈ Finset.Ico p (p + 8), m' x = m x) :
    SlabPageAt m' sz al sp free n := by
  have hload : ∀ o k, 8 ≤ o → o + k ≤ slabHdrBytes → load m' (sp + o) k = load m (sp + o) k :=
    fun o k hlo hhi ↦ load_congr fun x hx ↦ hhdr x (by simp only [Finset.mem_Ico] at hx ⊢; omega)
  refine ⟨?_, (hload 16 2 (by decide) (by decide)).trans h.objCount, (hload 18 2 (by decide) (by decide)).trans h.inuse⟩
  rw [slabFreelist, hload 8 8 le_rfl (by decide)]
  exact h.freelist.congr hfree

theorem slabTake_page (h : SlabPageAt m sz al sp (p :: free) n) (hn : n + 1 < 2 ^ 16)
    (hfree : ∀ q ∈ free, sp + slabHdrBytes ≤ q)
    (hm : m' = store (store m (sp + 8) 8 (load m (slabFreelist m sp) 8)) (sp + 18) 2
      ((slabInuse (store m (sp + 8) 8 (load m (slabFreelist m sp) 8)) sp + 1) % 2 ^ 16)) :
    slabFreelist m sp = p ∧ SlabPageAt m' sz al sp free (n + 1) ∧
      ∀ x ∉ Finset.Ico (sp + 8) (sp + slabHdrBytes), m' x = m x := by
  obtain ⟨hhead, hne, hrest⟩ := h.freelist
  rw [hhead] at hm
  have hkept : ∀ o k, 16 ≤ o → load (store m (sp + 8) 8 (load m p 8)) (sp + o) k = load m (sp + o) k :=
    fun o k ho ↦ load_store_of_disjoint (disjoint_windows (by omega))
  have hinuse : slabInuse (store m (sp + 8) 8 (load m p 8)) sp = n := (hkept 18 2 (by decide)).trans h.inuse
  rw [hinuse, Nat.mod_eq_of_lt hn] at hm
  have hframe : ∀ x ∉ Finset.Ico (sp + 8) (sp + slabHdrBytes), m' x = m x := fun x hx ↦ by
    rw [hm, store_of_notMem, store_of_notMem] <;>
    · simp only [Finset.mem_Ico, slabHdrBytes] at hx ⊢
      omega
  refine ⟨hhead, ⟨?_, ?_, ?_⟩, hframe⟩
  · have hlink : slabFreelist m' sp = load m p 8 := by
      rw [hm, slabFreelist, load_store_of_disjoint (disjoint_windows (by omega)), load_store_self _ _ (load_lt m p 8)]
    rw [hlink]
    refine hrest.congr fun q hq x hx ↦ hframe x ?_
    have := hfree q hq
    simp only [Finset.mem_Ico, slabHdrBytes] at *
    omega
  · rw [hm, slabObjCount, load_store_of_disjoint (disjoint_windows (by omega)), hkept 16 2 le_rfl]
    exact h.objCount
  · rw [hm, slabInuse, load_store_self _ _ (lt_of_lt_of_eq hn (by norm_num))]

theorem slabGive_page (h : SlabPageAt m sz al sp free (n + 1)) (hn : n < 2 ^ 16) (hsz : 8 ≤ sz)
    (hp : sp + slabHdrBytes ≤ p) (hlt : p < 2 ^ 64) (hhead : slabFreelist m sp < 2 ^ 64)
    (hfree : ∀ q ∈ free, sp + slabHdrBytes ≤ q ∧ (p + sz ≤ q ∨ q + 8 ≤ p)) {m₁ m₂ m₃ : Mem}
    (hm₁ : m₁ = fill m p sz slabPoisonByte) (hm₂ : m₂ = store m₁ p 8 (slabFreelist m₁ sp))
    (hm₃ : m₃ = store m₂ (sp + 8) 8 p) (hm' : m' = store m₃ (sp + 18) 2 (slabInuse m₃ sp - 1)) :
    SlabPageAt m' sz al sp (p :: free) n ∧
      ∀ x ∉ Finset.Ico (sp + 8) (sp + slabHdrBytes), x ∉ Finset.Ico p (p + sz) → m' x = m x := by
  -- the first two writes go to the object, the other two to the header
  have hobj : ∀ x ∉ Finset.Ico p (p + sz), m₂ x = m x := fun x hx ↦ by
    rw [hm₂, store_of_notMem, hm₁, fill_of_notMem hx]
    simp only [Finset.mem_Ico] at hx ⊢
    omega
  have hobj₁ : ∀ x ∉ Finset.Ico p (p + sz), m₁ x = m x := fun x hx ↦ by rw [hm₁, fill_of_notMem hx]
  have hhdr : ∀ x ∉ Finset.Ico (sp + 8) (sp + slabHdrBytes), m' x = m₂ x := fun x hx ↦ by
    rw [hm', store_of_notMem, hm₃, store_of_notMem] <;>
    · simp only [Finset.mem_Ico, slabHdrBytes] at hx ⊢
      omega
  have hframe : ∀ x ∉ Finset.Ico (sp + 8) (sp + slabHdrBytes), x ∉ Finset.Ico p (p + sz) →
      m' x = m x := fun x hx hx' ↦ (hhdr x hx).trans (hobj x hx')
  have hload : ∀ o k, o + k ≤ slabHdrBytes → load m₂ (sp + o) k = load m (sp + o) k :=
    fun o k ho ↦ load_congr fun x hx ↦ hobj x (by simp only [Finset.mem_Ico] at hx ⊢; omega)
  have hlist : slabFreelist m₁ sp = slabFreelist m sp :=
    load_congr fun x hx ↦ hobj₁ x (by simp only [Finset.mem_Ico, slabHdrBytes] at hx hp ⊢; omega)
  have hinuse : slabInuse m₃ sp = n + 1 := by
    rw [hm₃, slabInuse, load_store_of_disjoint (disjoint_windows (by omega)), hload 18 2 (by decide)]
    exact h.inuse
  rw [hinuse, Nat.add_sub_cancel] at hm'
  refine ⟨⟨?_, ?_, ?_⟩, hframe⟩
  · have hnew : slabFreelist m' sp = p := by
      rw [hm', slabFreelist, load_store_of_disjoint (disjoint_windows (by omega)), hm₃,
        load_store_self _ _ (lt_of_lt_of_eq hlt (by norm_num))]
    rw [hnew]
    have hpush : Threaded m₂ p (p :: free) := by
      rw [hm₂, hlist]
      refine (h.freelist.congr fun q hq x hx ↦ hobj₁ x ?_).push (by
        simp only [slabHdrBytes] at hp; omega) hhead fun q hq ↦ ?_
      · have := (hfree q hq).2
        simp only [Finset.mem_Ico] at hx ⊢
        omega
      · have := (hfree q hq).2
        exact disjoint_windows (by omega)
    refine hpush.congr fun q hq x hx ↦ hhdr x ?_
    have hq' : sp + slabHdrBytes ≤ q := by
      rcases List.mem_cons.1 hq with rfl | hq
      · exact hp
      · exact (hfree q hq).1
    simp only [Finset.mem_Ico] at hx ⊢
    omega
  · rw [hm', slabObjCount, load_store_of_disjoint (disjoint_windows (by omega)), hm₃,
      load_store_of_disjoint (disjoint_windows (by omega)), hload 16 2 (by decide)]
    exact h.objCount
  · rw [hm', slabInuse, load_store_self _ _ (lt_of_lt_of_eq hn (by norm_num))]

/-- **A new page** is set up with all its objects on the list, and only the page is written. -/
theorem slabPageBuildFreelist_spec (g : SlabGeometry sz al) (hsp : sp % pageSize = 0)
    (hlt : sp + pageSize ≤ 2 ^ 64) (m : Mem) :
    ∃ m', slabPageBuildFreelist (clearSlabHdr m sp) sp sz al = some m' ∧
      SlabPageAt m' sz al sp (slabObjects sp sz al).reverse 0 ∧
      ∀ x ∉ Finset.Ico sp (sp + pageSize), m' x = m x := by
  obtain ⟨hpos, hcount⟩ := g.objects_length hsp hlt
  have hbounds : ∀ p ∈ slabObjects sp sz al, sp + slabHdrBytes ≤ p ∧ p + sz ≤ sp + pageSize :=
    fun p hp ↦ ⟨(g.object_bounds hsp hlt hp).1, (g.object_bounds hsp hlt hp).2.1⟩
  have height := g.eight_le
  have happart : (slabObjects sp sz al).Pairwise fun p q ↦ Disjoint (Finset.Ico p (p + 8)) (Finset.Ico q (q + 8)) := by
    refine (SlabGeometry.objects_nodup (by omega)).pairwise_of_forall_ne fun p hp q hq hne ↦ ?_
    have := g.objects_apart hsp hlt hp hq hne
    exact disjoint_windows (by omega)
  have hnull : Threaded (clearSlabHdr m sp) 0 [] := rfl
  obtain ⟨hlist, hhead, hframe⟩ := thread_spec hnull (by decide) (fun p hp ↦ by
    have := hbounds p hp
    simp only [slabHdrBytes, pageSize] at this hlt
    omega) happart fun _ _ _ hq ↦ nomatch hq
  rw [List.append_nil] at hlist
  generalize hthread : thread (clearSlabHdr m sp) 0 (slabObjects sp sz al) = r at *
  generalize hm' : store (store (store r.1 (sp + 8) 8 r.2) (sp + 16) 2 (slabObjects sp sz al).length) (sp + 18) 2 0 = m'
  have hhdr : ∀ x ∉ Finset.Ico (sp + 8) (sp + slabHdrBytes), m' x = r.1 x := fun x hx ↦ by
    rw [← hm', store_of_notMem, store_of_notMem, store_of_notMem] <;>
    · simp only [Finset.mem_Ico, slabHdrBytes] at hx ⊢
      omega
  refine ⟨m', ?_, ⟨?_, ?_, ?_⟩, fun x hx ↦ ?_⟩
  · simp only [slabPageBuildFreelist, hthread, Nat.mod_eq_of_lt hcount, if_neg hpos.ne', hm']
  · have hfirst : slabFreelist m' sp = r.2 := by
      rw [← hm', slabFreelist, load_store_of_disjoint (disjoint_windows (by omega)),
        load_store_of_disjoint (disjoint_windows (by omega)),
        load_store_self _ _ (lt_of_lt_of_eq hhead (by norm_num))]
    rw [hfirst]
    refine hlist.congr fun p hp x hx ↦ hhdr x ?_
    have := (hbounds p (List.mem_reverse.1 hp)).1
    simp only [Finset.mem_Ico] at hx ⊢
    omega
  · rw [← hm', slabObjCount, load_store_of_disjoint (disjoint_windows (by omega)),
      load_store_self _ _ (lt_of_lt_of_eq hcount (by norm_num))]
  · rw [← hm', slabInuse, load_store_self _ _ (by decide)]
  · have hclear : clearSlabHdr m sp x = m x := by
      unfold clearSlabHdr
      rw [store_of_notMem, store_of_notMem, store_of_notMem, store_of_notMem] <;>
      · simp only [Finset.mem_Ico, pageSize] at hx ⊢
        omega
    rw [hhdr x (by simp only [Finset.mem_Ico, slabHdrBytes, pageSize] at hx ⊢; omega), hframe x fun p hp ↦ ?_, hclear]
    have := hbounds p hp
    simp only [Finset.mem_Ico, slabHdrBytes, pageSize] at *
    omega

end

end CapazOS
