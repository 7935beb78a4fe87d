import CapazOS.Mm.Mmu

/-!
# What the kernel page tables map

The tables that `mmu_init` builds on the `virt` board refine the **direct map**: the function that
sends an address to the leaf of its block or page, given the set of mapped blocks
(`MapsBlocks.walk_eq`). Each block adds itself to the set, whatever the order of the ranges. The
ranges are covered **unless a range ends in the last 2 MiB of the address space**, where rounding
its end up wraps to zero (`mmu_direct_map_iff`, `mmu_range_unmapped`).
-/

namespace CapazOS

open List Translation Function

variable {t pa off va : ℕ} {r : DtbRange} {L : KernelLayout} {S : Set ℕ} {m : MmuTables}

/-! ### Where the tables lie -/

namespace KernelLayout

def tables (L : KernelLayout) : List ℕ :=
  L.l0Table :: L.l1Table :: ((range maxL2Tables).map L.l2 ++ (range maxL3Tables).map L.l3)

/-- **What the linker guarantees of the static tables**: they are pages of the upper half, and no
two of them are the same. -/
structure TablesPlaced (bd : Board) (L : KernelLayout) : Prop where
  aligned : ∀ t ∈ L.tables, t % pageSize = 0
  upper : ∀ t ∈ L.tables, bd.hhRamBase ≤ t ∧ t < 2 ^ 64
  nodup : L.tables.Nodup

section

variable {k k' : ℕ}

theorem l0_mem : L.l0Table ∈ L.tables := mem_cons_self

theorem l1_mem : L.l1Table ∈ L.tables := mem_cons_of_mem _ mem_cons_self

theorem l2_mem (hk : k < maxL2Tables) : L.l2 k ∈ L.tables := mem_cons_of_mem _ (mem_cons_of_mem _
    (mem_append_left _ (mem_map_of_mem (mem_range.2 hk))))

theorem l3_mem (hk : k < maxL3Tables) : L.l3 k ∈ L.tables := mem_cons_of_mem _ (mem_cons_of_mem _
    (mem_append_right _ (mem_map_of_mem (mem_range.2 hk))))

theorem l2_inj (h : L.l2 k = L.l2 k') : k = k' := by
  simp only [l2, pageSize] at h
  omega

theorem l3_inj (h : L.l3 k = L.l3 k') : k = k' := by
  simp only [l3, pageSize] at h
  omega

namespace TablesPlaced

variable {bd : Board} (hL : L.TablesPlaced bd)
include hL

theorem l1_ne_l0 : L.l1Table ≠ L.l0Table := fun h ↦ (nodup_cons.1 hL.nodup).1 (h ▸ mem_cons_self)

theorem l2_ne_l0 (hk : k < maxL2Tables) : L.l2 k ≠ L.l0Table := fun h ↦
  (nodup_cons.1 hL.nodup).1 (h ▸ mem_cons_of_mem _ (mem_append_left _ (mem_map_of_mem (mem_range.2 hk))))

theorem l3_ne_l0 (hk : k < maxL3Tables) : L.l3 k ≠ L.l0Table := fun h ↦
  (nodup_cons.1 hL.nodup).1 (h ▸ mem_cons_of_mem _ (mem_append_right _ (mem_map_of_mem (mem_range.2 hk))))

theorem l2_ne_l1 (hk : k < maxL2Tables) : L.l2 k ≠ L.l1Table := fun h ↦
  (nodup_cons.1 (nodup_cons.1 hL.nodup).2).1 (h ▸ mem_append_left _ (mem_map_of_mem (mem_range.2 hk)))

theorem l3_ne_l1 (hk : k < maxL3Tables) : L.l3 k ≠ L.l1Table := fun h ↦
  (nodup_cons.1 (nodup_cons.1 hL.nodup).2).1 (h ▸ mem_append_right _ (mem_map_of_mem (mem_range.2 hk)))

theorem l3_ne_l2 (hk : k < maxL2Tables) (hk' : k' < maxL3Tables) : L.l3 k' ≠ L.l2 k := fun h ↦
  disjoint_of_nodup_append (nodup_cons.1 (nodup_cons.1 hL.nodup).2).2
    (h ▸ mem_map_of_mem (mem_range.2 hk)) (mem_map_of_mem (mem_range.2 hk'))

end TablesPlaced

end

end KernelLayout

/-- On the `virt` board a page of the upper half has a page address, and the direct map leads
back. -/
theorem virtToPhys_table (hmod : t % pageSize = 0) (hlo : Board.virt.hhRamBase ≤ t) (hhi : t < 2 ^ 64) :
    PageAddr (Board.virt.hhVirtToPhys t) ∧ Board.virt.physToHhVirt (Board.virt.hhVirtToPhys t) = t := by
  have hbase : Board.virt.hhRamBase = 0xFFFF800040000000 := by decide
  rw [hbase] at hlo
  simp only [pageSize] at hmod
  have hpa : Board.virt.hhVirtToPhys t = t - 0xFFFF800000000000 := by
    rw [Board.hhVirtToPhys, hbase, if_pos hlo, u64, show Board.virt.ramBase = 0x40000000 from rfl,
      Nat.mod_eq_of_lt (by omega)]
    omega
  rw [hpa]
  constructor
  · obtain ⟨q, hq⟩ : ∃ q, t - 0xFFFF800000000000 = q * 2 ^ 12 := ⟨(t - 0xFFFF800000000000) / 2 ^ 12, by omega⟩
    rw [hq]
    exact pageAddr_of_lt (by omega)
  · rw [Board.physToHhVirt, hbase, u64, show Board.virt.ramBase = 0x40000000 from rfl]
    omega

/-! ### Writing entries -/

namespace MmuTables

section

variable (m : MmuTables) (t i v : ℕ) (f : ℕ → ℕ)

@[simp] theorem setEntry_l2ForL1 : (m.setEntry t i v).l2ForL1 = m.l2ForL1 := rfl

@[simp] theorem setEntry_tbl_self : (m.setEntry t i v).tbl t i = v := by simp [setEntry]

theorem setEntry_tbl_self_of_ne {j : ℕ} (h : j ≠ i) : (m.setEntry t i v).tbl t j = m.tbl t j := by
  simp [setEntry, h]

theorem setEntry_tbl_of_ne {t' : ℕ} (h : t' ≠ t) : (m.setEntry t i v).tbl t' = m.tbl t' := by
  simp [setEntry, h]

theorem foldl_setEntry (l : List ℕ) : l.foldl (fun m i ↦ m.setEntry t i (f i)) m =
    { m with tbl := update m.tbl t fun i ↦ if i ∈ l then f i else m.tbl t i } := by
  induction l generalizing m with
  | nil => simp
  | cons i l ih =>
    rw [foldl_cons, ih]
    simp only [setEntry, update_self, update_idem, mem_cons]
    congr 2
    funext j
    by_cases hj : j ∈ l
    · rw [if_pos hj, if_pos (.inr hj)]
    · by_cases hji : j = i
      · rw [if_neg hj, if_pos (.inl hji), hji, update_self]
      · rw [if_neg hj, if_neg (not_or.2 ⟨hji, hj⟩), update_of_ne hji]

theorem fillTable_eq : m.fillTable t f =
    { m with tbl := update m.tbl t fun i ↦ if i < 512 then f i else m.tbl t i } := by
  rw [fillTable, foldl_setEntry]
  simp

theorem fillTable_tbl_self {i : ℕ} (hi : i < 512) : (m.fillTable t f).tbl t i = f i := by
  simp [fillTable_eq, hi]

end

end MmuTables

/-! ### The tables of a set of blocks -/

/-- `L2` entry `e` of block number `b`, when the blocks of `S` are mapped: a table of pages where
the block overlaps the kernel, else a block; nothing for other blocks. -/
structure L2Entry (L : KernelLayout) (m : MmuTables) (S : Set ℕ) (b e : ℕ) : Prop where
  block : b ∈ S → overlapsKernel .virt L (b * ramBlockSize) = false → e = blockDesc (b * ramBlockSize)
  pages : b ∈ S → overlapsKernel .virt L (b * ramBlockSize) = true → ∃ k < m.l3Used,
    e = Board.virt.hhVirtToPhys (L.l3 k) ||| descTable ∧
      ∀ p < 512, m.tbl (L.l3 k) p = pageDesc .virt L (b * ramBlockSize + p * 0x1000)
  unmapped : b ∉ S → e = 0

/-- **The tables map the blocks of `S`.** Block `512 * i + j` is entry `j` of the table for `L1`
index `i`. -/
structure MapsBlocks (L : KernelLayout) (m : MmuTables) (S : Set ℕ) : Prop where
  l2Used_le : m.l2Used ≤ maxL2Tables
  l3Used_le : m.l3Used ≤ maxL3Tables
  l0 : ∀ i, m.tbl L.l0Table i = if i = 256 then Board.virt.hhVirtToPhys L.l1Table ||| descTable else 0
  device : m.tbl L.l1Table 0 = devDesc
  absent : ∀ i, 0 < i → i < 512 → m.l2ForL1 i = 0 → m.tbl L.l1Table i = 0 ∧ ∀ j < 512, 512 * i + j ∉ S
  owned : ∀ i, m.l2ForL1 i ≠ 0 → ∃ k < m.l2Used, m.l2ForL1 i = L.l2 k
  inj : ∀ i i', m.l2ForL1 i ≠ 0 → m.l2ForL1 i = m.l2ForL1 i' → i = i'
  l1 : ∀ i, 0 < i → i < 512 → m.l2ForL1 i ≠ 0 → m.tbl L.l1Table i = Board.virt.hhVirtToPhys (m.l2ForL1 i) ||| descTable
  l2 : ∀ i, 0 < i → i < 512 → m.l2ForL1 i ≠ 0 → ∀ j < 512, L2Entry L m S (512 * i + j) (m.tbl (m.l2ForL1 i) j)

section

variable {m' : MmuTables} {b e i j : ℕ}

theorem L2Entry.mono (h : L2Entry L m S b e) (hused : m.l3Used ≤ m'.l3Used)
    (htbl : ∀ k < m.l3Used, m'.tbl (L.l3 k) = m.tbl (L.l3 k)) : L2Entry L m' S b e := by
  refine ⟨h.block, fun hb hover ↦ ?_, h.unmapped⟩
  obtain ⟨k, hk, he, hp⟩ := h.pages hb hover
  exact ⟨k, hk.trans_le hused, he, fun p hp' ↦ by rw [htbl k hk, hp p hp']⟩

theorem L2Entry.congr {T : Set ℕ} (h : L2Entry L m S b e) (hT : b ∈ T ↔ b ∈ S) : L2Entry L m T b e :=
  ⟨fun hb ↦ h.block (hT.1 hb), fun hb ↦ h.pages (hT.1 hb), fun hb ↦ h.unmapped fun hb' ↦ hb (hT.2 hb')⟩

theorem maps_start (hL : L.TablesPlaced .virt) : MapsBlocks L (MmuTables.start .virt L) ∅ := by
  refine ⟨Nat.zero_le _, Nat.zero_le _, fun i ↦ ?_, ?_, fun i hi _ _ ↦ ⟨?_, fun _ _ ↦ Set.notMem_empty _⟩,
    fun i h ↦ absurd rfl h, fun i _ h ↦ absurd rfl h, fun i _ _ h ↦ absurd rfl h,
    fun i _ _ h ↦ absurd rfl h⟩
  · rw [MmuTables.start, MmuTables.setEntry_tbl_of_ne _ _ _ _ hL.l1_ne_l0.symm]
    split
    · next hi => rw [hi, MmuTables.setEntry_tbl_self]
    · next hi => rw [MmuTables.setEntry_tbl_self_of_ne _ _ _ _ hi]
  · rw [MmuTables.start, MmuTables.setEntry_tbl_self]
  · rw [MmuTables.start, MmuTables.setEntry_tbl_self_of_ne _ _ _ _ hi.ne',
      MmuTables.setEntry_tbl_of_ne _ _ _ _ hL.l1_ne_l0]

theorem MapsBlocks.of_l3 (h : MapsBlocks L m S) (hl2 : m'.l2Used = m.l2Used) (hfor : m'.l2ForL1 = m.l2ForL1)
    (hused : m.l3Used ≤ m'.l3Used) (hle : m'.l3Used ≤ maxL3Tables)
    (htbl : ∀ t, (∀ k, m.l3Used ≤ k → k < m'.l3Used → t ≠ L.l3 k) → m'.tbl t = m.tbl t)
    (hL : L.TablesPlaced .virt) : MapsBlocks L m' S := by
  have h0 : m'.tbl L.l0Table = m.tbl L.l0Table := htbl _ fun k _ hk ↦ (hL.l3_ne_l0 (hk.trans_le hle)).symm
  have h1 : m'.tbl L.l1Table = m.tbl L.l1Table := htbl _ fun k _ hk ↦ (hL.l3_ne_l1 (hk.trans_le hle)).symm
  have h2 : ∀ i, m.l2ForL1 i ≠ 0 → m'.tbl (m.l2ForL1 i) = m.tbl (m.l2ForL1 i) := by
    intro i hi
    obtain ⟨k', hk', heq⟩ := h.owned i hi
    exact htbl _ fun k _ hk ↦ heq ▸ (hL.l3_ne_l2 (hk'.trans_le h.l2Used_le) (hk.trans_le hle)).symm
  have h3 : ∀ k < m.l3Used, m'.tbl (L.l3 k) = m.tbl (L.l3 k) := fun k hk ↦
    htbl _ fun k' hk' _ heq ↦ absurd (KernelLayout.l3_inj heq) (hk.trans_le hk').ne
  refine ⟨hl2 ▸ h.l2Used_le, hle, h0 ▸ h.l0, h1 ▸ h.device, ?_, ?_, ?_, ?_, ?_⟩
  · rw [hfor, h1]
    exact h.absent
  · rw [hfor, hl2]
    exact h.owned
  · rw [hfor]
    exact h.inj
  · rw [hfor, h1]
    exact h.l1
  · rw [hfor]
    intro i hi hi' hne j hj
    rw [h2 i hne]
    exact (h.l2 i hi hi' hne j hj).mono hused h3

theorem MapsBlocks.setEntry (h : MapsBlocks L m S) (hL : L.TablesPlaced .virt) (hi : 0 < i) (hi' : i < 512)
    (hj : j < 512) (hne : m.l2ForL1 i ≠ 0)
    (he : L2Entry L m (insert (512 * i + j) S) (512 * i + j) e) :
    MapsBlocks L (m.setEntry (m.l2ForL1 i) j e) (insert (512 * i + j) S) := by
  obtain ⟨k, hk, heq⟩ := h.owned i hne
  have hk' := hk.trans_le h.l2Used_le
  have h0 : (m.setEntry (m.l2ForL1 i) j e).tbl L.l0Table = m.tbl L.l0Table :=
    m.setEntry_tbl_of_ne _ _ _ (heq ▸ (hL.l2_ne_l0 hk').symm)
  have h1 : (m.setEntry (m.l2ForL1 i) j e).tbl L.l1Table = m.tbl L.l1Table :=
    m.setEntry_tbl_of_ne _ _ _ (heq ▸ (hL.l2_ne_l1 hk').symm)
  have h3 : ∀ k < m.l3Used, (m.setEntry (m.l2ForL1 i) j e).tbl (L.l3 k) = m.tbl (L.l3 k) := fun k hk ↦
    m.setEntry_tbl_of_ne _ _ _ (heq ▸ hL.l3_ne_l2 hk' (hk.trans_le h.l3Used_le))
  -- other blocks keep their membership, and so their entries
  have hother : ∀ i₂ j₂, j₂ < 512 → (i₂ ≠ i ∨ j₂ ≠ j) →
      (512 * i₂ + j₂ ∈ insert (512 * i + j) S ↔ 512 * i₂ + j₂ ∈ S) := by
    intro i₂ j₂ hj₂ hor
    refine Set.mem_insert_iff.trans (or_iff_right fun heq ↦ ?_)
    omega
  refine ⟨h.l2Used_le, h.l3Used_le, h0 ▸ h.l0, h1 ▸ h.device, ?_, h.owned, h.inj, h1 ▸ h.l1, ?_⟩
  · intro i₂ hi₂ hi₂' hnull
    rw [h1]
    refine ⟨(h.absent i₂ hi₂ hi₂' hnull).1, fun j₂ hj₂ ↦ ?_⟩
    rw [hother i₂ j₂ hj₂ (.inl fun heq ↦ hne (heq ▸ hnull))]
    exact (h.absent i₂ hi₂ hi₂' hnull).2 j₂ hj₂
  · intro i₂ hi₂ hi₂' hne₂ j₂ hj₂
    have hold := h.l2 i₂ hi₂ hi₂' hne₂ j₂ hj₂
    by_cases hii : i₂ = i
    · subst hii
      by_cases hjj : j₂ = j
      · subst hjj
        rw [m.setEntry_l2ForL1, m.setEntry_tbl_self]
        exact he.mono le_rfl h3
      · rw [m.setEntry_l2ForL1, m.setEntry_tbl_self_of_ne _ _ _ hjj]
        exact (hold.congr (hother i₂ j₂ hj₂ (.inr hjj))).mono le_rfl h3
    · rw [m.setEntry_l2ForL1, m.setEntry_tbl_of_ne _ _ _ fun heq ↦ hii (h.inj i₂ i hne₂ heq)]
      exact (hold.congr (hother i₂ j₂ hj₂ (.inl hii))).mono le_rfl h3

/-- The table that `get_l2_for_l1` makes: zeroed, entered into `L1` and recorded. -/
structure AddsL2 (L : KernelLayout) (m m' : MmuTables) (i : ℕ) : Prop where
  room : m.l2Used < maxL2Tables
  l2Used : m'.l2Used = m.l2Used + 1
  l3Used : m'.l3Used = m.l3Used
  l2ForL1 : m'.l2ForL1 = update m.l2ForL1 i (L.l2 m.l2Used)
  zero : ∀ j < 512, m'.tbl (L.l2 m.l2Used) j = 0
  l1 : m'.tbl L.l1Table = update (m.tbl L.l1Table) i (Board.virt.hhVirtToPhys (L.l2 m.l2Used) ||| descTable)
  rest : ∀ t, t ≠ L.l2 m.l2Used → t ≠ L.l1Table → m'.tbl t = m.tbl t

theorem getL2ForL1_cases (hL : L.TablesPlaced .virt) (hres : m.getL2ForL1 .virt L i = some (t, m')) :
    (t ≠ 0 ∧ m.l2ForL1 i = t ∧ m' = m) ∨ (m.l2ForL1 i = 0 ∧ t = L.l2 m.l2Used ∧ AddsL2 L m m' i) := by
  rw [MmuTables.getL2ForL1] at hres
  split at hres
  · next hnull =>
    obtain ⟨⟨t₁, m₁⟩, halloc, hres⟩ := Option.bind_eq_some_iff.1 hres
    obtain ⟨rfl, rfl⟩ := Prod.mk.inj (Option.some.inj hres)
    rw [MmuTables.allocL2] at halloc
    split at halloc
    · cases halloc
    · next hroom =>
      have hroom := not_le.1 hroom
      simp only [MmuTables.fillTable_eq] at halloc
      obtain ⟨rfl, rfl⟩ := Prod.mk.inj (Option.some.inj halloc)
      have hne := hL.l2_ne_l1 hroom
      refine .inr ⟨hnull, rfl, hroom, rfl, rfl, rfl, fun j hj ↦ ?_, ?_, fun t ht ht' ↦ ?_⟩
      · rw [MmuTables.setEntry_tbl_of_ne _ _ _ _ hne]
        simp [hj]
      · simp [MmuTables.setEntry, hne.symm]
      · rw [MmuTables.setEntry_tbl_of_ne _ _ _ _ ht']
        exact update_of_ne ht ..
  · next hnull =>
    obtain ⟨rfl, rfl⟩ := Prod.mk.inj (Option.some.inj hres)
    exact .inl ⟨hnull, rfl, rfl⟩

section

variable (h : MapsBlocks L m S) (hL : L.TablesPlaced .virt)
include h hL

theorem MapsBlocks.addL2 (hi : 0 < i) (hi' : i < 512) (hnull : m.l2ForL1 i = 0) (ha : AddsL2 L m m' i) :
    MapsBlocks L m' S := by
  have h0 : m'.tbl L.l0Table = m.tbl L.l0Table := ha.rest _ (hL.l2_ne_l0 ha.room).symm hL.l1_ne_l0.symm
  have h3 : ∀ k < m.l3Used, m'.tbl (L.l3 k) = m.tbl (L.l3 k) := fun k hk ↦
    ha.rest _ (hL.l3_ne_l2 ha.room (hk.trans_le h.l3Used_le)) (hL.l3_ne_l1 (hk.trans_le h.l3Used_le))
  have hself : m'.l2ForL1 i = L.l2 m.l2Used := by rw [ha.l2ForL1, update_self]
  have hother : ∀ i₂, i₂ ≠ i → m'.l2ForL1 i₂ = m.l2ForL1 i₂ := fun i₂ hne ↦ by
    rw [ha.l2ForL1, update_of_ne hne]
  -- tables in use are not the new one
  have hold : ∀ i₂, m.l2ForL1 i₂ ≠ 0 → m.l2ForL1 i₂ ≠ L.l2 m.l2Used := by
    intro i₂ hne heq
    obtain ⟨k, hk, hk'⟩ := h.owned i₂ hne
    exact absurd (KernelLayout.l2_inj (hk'.symm.trans heq)) hk.ne
  refine ⟨?_, ha.l3Used ▸ h.l3Used_le, h0 ▸ h.l0, ?_, ?_, ?_, ?_, ?_, ?_⟩
  · rw [ha.l2Used]
    exact ha.room
  · rw [ha.l1, update_of_ne hi.ne, h.device]
  · intro i₂ hi₂ hi₂' hnull₂
    have hne : i₂ ≠ i := by
      rintro rfl
      rw [hself] at hnull₂
      have := (hL.upper _ (KernelLayout.l2_mem ha.room)).1
      rw [hnull₂] at this
      exact absurd this (by decide)
    rw [ha.l1, update_of_ne hne]
    exact h.absent i₂ hi₂ hi₂' (hother i₂ hne ▸ hnull₂)
  · intro i₂ hne₂
    rw [ha.l2Used]
    by_cases hii : i₂ = i
    · exact ⟨m.l2Used, Nat.lt_succ_self _, hii ▸ hself⟩
    · rw [hother i₂ hii] at hne₂ ⊢
      obtain ⟨k, hk, heq⟩ := h.owned i₂ hne₂
      exact ⟨k, hk.trans (Nat.lt_succ_self _), heq⟩
  · intro i₁ i₂ hne heq
    by_cases h₁ : i₁ = i <;> by_cases h₂ : i₂ = i
    · rw [h₁, h₂]
    · rw [h₁, hself, hother i₂ h₂] at heq
      rw [h₁, hself, heq] at hne
      exact absurd heq.symm (hold i₂ hne)
    · rw [h₂, hself, hother i₁ h₁] at heq
      rw [hother i₁ h₁] at hne
      exact absurd heq (hold i₁ hne)
    · rw [hother i₁ h₁] at hne heq
      rw [hother i₂ h₂] at heq
      exact h.inj i₁ i₂ hne heq
  · intro i₂ hi₂ hi₂' hne₂
    rw [ha.l1]
    by_cases hii : i₂ = i
    · rw [hii, update_self, hself]
    · rw [update_of_ne hii, hother i₂ hii]
      exact h.l1 i₂ hi₂ hi₂' (hother i₂ hii ▸ hne₂)
  · intro i₂ hi₂ hi₂' hne₂ j hj
    by_cases hii : i₂ = i
    · rw [hii, hself, ha.zero j hj]
      have hout := (h.absent i hi hi' hnull).2 j hj
      exact ⟨fun hb ↦ absurd hb hout, fun hb ↦ absurd hb hout, fun _ ↦ rfl⟩
    · rw [hother i₂ hii] at hne₂ ⊢
      obtain ⟨k, hk, heq⟩ := h.owned i₂ hne₂
      rw [ha.rest _ (hold i₂ hne₂) (heq ▸ hL.l2_ne_l1 (hk.trans_le h.l2Used_le))]
      exact (h.l2 i₂ hi₂ hi₂' hne₂ j hj).mono ha.l3Used.ge h3

/-- **`get_l2_for_l1`** finds or makes the table, and nothing else changes. -/
theorem MapsBlocks.getL2ForL1 (hi : 0 < i) (hi' : i < 512) (hres : m.getL2ForL1 .virt L i = some (t, m')) :
    MapsBlocks L m' S ∧ m'.l2ForL1 i = t ∧ t ≠ 0 := by
  rcases getL2ForL1_cases hL hres with ⟨ht, hfor, rfl⟩ | ⟨hnull, rfl, ha⟩
  · exact ⟨h, hfor, ht⟩
  · refine ⟨h.addL2 hL hi hi' hnull ha, by rw [ha.l2ForL1, update_self], fun hzero ↦ ?_⟩
    have hupper := (hL.upper _ (KernelLayout.l2_mem ha.room)).1
    rw [hzero] at hupper
    exact absurd hupper (by decide)

theorem MapsBlocks.allocL3 (hres : m.allocL3 L = some (t, m')) (f : ℕ → ℕ) :
    MapsBlocks L (m'.fillTable t f) S ∧ (m'.fillTable t f).l2ForL1 = m.l2ForL1 ∧
      ∃ k < (m'.fillTable t f).l3Used, t = L.l3 k := by
  rw [MmuTables.allocL3] at hres
  split at hres
  · cases hres
  · next hroom =>
    obtain ⟨rfl, rfl⟩ := Prod.mk.inj (Option.some.inj hres)
    rw [MmuTables.fillTable_eq, MmuTables.fillTable_eq]
    refine ⟨h.of_l3 rfl rfl (Nat.le_succ _) (not_le.1 hroom) (fun t ht ↦ ?_) hL, rfl, m.l3Used, Nat.lt_succ_self _, rfl⟩
    have hne := ht _ le_rfl (Nat.lt_succ_self _)
    exact (update_of_ne hne ..).trans (update_of_ne hne ..)

/-- **One block**: it is mapped from now on, if it lies where RAM is mapped. -/
theorem MapsBlocks.mapBlock (hres : m.mapBlock .virt L (b * ramBlockSize) = some m') :
    MapsBlocks L m' {c | c ∈ S ∨ c = b ∧ 512 ≤ b ∧ b < 512 * 512} := by
  have hl1 : (b * ramBlockSize) >>> 30 = b / 512 := by
    rw [Nat.shiftRight_eq_div_pow, ramBlockSize]
    omega
  have hl2 : (b * ramBlockSize &&& (2 ^ 30 - 1)) / ramBlockSize = b % 512 := by
    rw [Nat.and_two_pow_sub_one_eq_mod, ramBlockSize]
    omega
  rw [MmuTables.mapBlock] at hres
  simp only [hl1, hl2] at hres
  split at hres
  · next hout =>
    obtain rfl := Option.some.inj hres
    have hS : {c | c ∈ S ∨ c = b ∧ 512 ≤ b ∧ b < 512 * 512} = S := by
      ext c
      refine or_iff_left fun hc ↦ ?_
      omega
    rwa [hS]
  · next hin =>
    obtain ⟨⟨t, m₁⟩, hget, hres⟩ := Option.bind_eq_some_iff.1 hres
    have hi : 0 < b / 512 := by omega
    have hi' : b / 512 < 512 := by omega
    obtain ⟨h₁, hfor, ht⟩ := h.getL2ForL1 hL hi hi' hget
    have hb : 512 * (b / 512) + b % 512 = b := Nat.div_add_mod b 512
    have hS : {c | c ∈ S ∨ c = b ∧ 512 ≤ b ∧ b < 512 * 512} = insert (512 * (b / 512) + b % 512) S := by
      ext c
      rw [hb, Set.mem_insert_iff, Set.mem_ofPred_eq]
      constructor
      · exact fun hc ↦ hc.elim .inr fun hc ↦ .inl hc.1
      · exact fun hc ↦ hc.elim (fun hc ↦ .inr ⟨hc, by omega, by omega⟩) .inl
    rw [hS]
    have hmem : b ∈ insert b S := Set.mem_insert _ _
    dsimp only at hres
    split at hres
    · next hover =>
      obtain ⟨⟨t₃, m₂⟩, halloc, hres⟩ := Option.bind_eq_some_iff.1 hres
      obtain rfl := Option.some.inj hres
      obtain ⟨h₂, hfor₂, k, hk, rfl⟩ := h₁.allocL3 hL halloc fun p ↦ pageDesc .virt L (b * ramBlockSize + p * 0x1000)
      rw [← hfor, ← congrFun hfor₂]
      refine h₂.setEntry hL hi hi' (Nat.mod_lt b (by norm_num)) (by rwa [hfor₂, hfor]) ?_
      rw [hb]
      refine ⟨fun _ hno ↦ absurd hover (by rw [hno]; exact Bool.false_ne_true), fun _ _ ↦ ?_, fun hno ↦ absurd hmem hno⟩
      exact ⟨k, hk, rfl, fun p hp ↦ MmuTables.fillTable_tbl_self _ _ _ hp⟩
    · next hover =>
      obtain rfl := Option.some.inj hres
      rw [← hfor]
      refine h₁.setEntry hL hi hi' (Nat.mod_lt b (by norm_num)) (hfor ▸ ht) ?_
      rw [hb]
      exact ⟨fun _ _ ↦ rfl, fun _ hyes ↦ absurd hyes hover, fun hno ↦ absurd hmem hno⟩

theorem MapsBlocks.mapBlocks {l : List ℕ}
    (hres : (l.map (· * ramBlockSize)).foldlM (MmuTables.mapBlock .virt L) m = some m') :
    MapsBlocks L m' {c | c ∈ S ∨ c ∈ l ∧ 512 ≤ c ∧ c < 512 * 512} := by
  induction l generalizing m S with
  | nil =>
    obtain rfl := Option.some.inj hres
    simpa using h
  | cons b l ih =>
    rw [map_cons, foldlM_cons] at hres
    obtain ⟨m₁, hb, hres⟩ := Option.bind_eq_some_iff.1 hres
    have h' := ih (h.mapBlock hL hb) hres
    have hS : {c | c ∈ S ∨ c ∈ b :: l ∧ 512 ≤ c ∧ c < 512 * 512} =
        {c | c ∈ {c | c ∈ S ∨ c = b ∧ 512 ≤ b ∧ b < 512 * 512} ∨ c ∈ l ∧ 512 ≤ c ∧ c < 512 * 512} := by
      ext c
      simp only [mem_cons, Set.mem_ofPred_eq, or_assoc, or_and_right]
      refine or_congr_right (or_congr_left ?_)
      exact and_congr_right fun hcb ↦ by rw [hcb]
    rwa [hS]

end

end

/-! ### The blocks of the ranges -/

/-- Block `b` has a byte of the range, or starts where an empty range lies. -/
def DtbRange.Touches (r : DtbRange) (b : ℕ) : Prop :=
  r.base / ramBlockSize ≤ b ∧ b * ramBlockSize < r.base + r.size

def DtbRange.Rounds (r : DtbRange) : Prop := r.base + r.size ≤ 2 ^ 64 - ramBlockSize

instance (r : DtbRange) (b : ℕ) : Decidable (r.Touches b) := inferInstanceAs (Decidable (_ ∧ _))

instance (r : DtbRange) : Decidable r.Rounds := inferInstanceAs (Decidable (_ ≤ _))

theorem DtbRange.Rounds.alignUp2m_eq (h : r.Rounds) : alignUp2m (r.base + r.size) =
    (r.base + r.size + (ramBlockSize - 1)) / ramBlockSize * ramBlockSize := by
  simp only [alignUp2m, alignDown2m, u64, DtbRange.Rounds, ramBlockSize] at *
  omega

theorem DtbRange.alignUp2m_eq_zero (hr : r.base + r.size < 2 ^ 64) (h : ¬r.Rounds) :
    alignUp2m (r.base + r.size) = 0 := by
  simp only [alignUp2m, alignDown2m, u64, DtbRange.Rounds, ramBlockSize] at *
  omega

/-- **The loop visits the blocks that the range touches**, provided its end can be rounded. -/
theorem rangeBlocks_spec (hr : r.base + r.size < 2 ^ 64) :
    ∃ l : List ℕ, MmuTables.rangeBlocks .virt r = l.map (· * ramBlockSize) ∧
      ∀ b, 512 ≤ b → (b ∈ l ↔ r.Rounds ∧ r.Touches b) := by
  have hstop : r.stop = r.base + r.size := Nat.mod_eq_of_lt hr
  rw [MmuTables.rangeBlocks, hstop, show Board.virt.ramBase = 0x40000000 from rfl]
  by_cases hlow : r.base + r.size ≤ 0x40000000
  · rw [if_pos hlow]
    refine ⟨[], rfl, fun b hb ↦ ⟨fun h ↦ absurd h not_mem_nil, fun h ↦ ?_⟩⟩
    have := h.2.2
    simp only [ramBlockSize] at this
    omega
  · rw [if_neg hlow]
    generalize hstart : (if r.base < 0x40000000 then 0x40000000 else r.base) = start
    have hdown : alignDown2m start = start / ramBlockSize * ramBlockSize := by
      simp only [alignDown2m, ramBlockSize]
      omega
    refine ⟨(range ((alignUp2m (r.base + r.size) - alignDown2m start) / ramBlockSize)).map
      (start / ramBlockSize + ·), ?_, fun b hb ↦ ?_⟩
    · rw [map_map]
      refine map_congr_left fun k _ ↦ ?_
      rw [hdown, comp_apply, Nat.add_mul]
    · rw [hdown]
      simp only [mem_map, mem_range, DtbRange.Touches]
      by_cases hround : r.Rounds
      · rw [hround.alignUp2m_eq]
        simp only [hround, true_and, ramBlockSize] at *
        constructor
        · rintro ⟨k, hk, rfl⟩
          split at hstart <;> omega
        · intro ⟨hlo, hhi⟩
          refine ⟨b - start / (2 * 1024 * 1024), ?_, ?_⟩ <;> split at hstart <;> omega
      · rw [DtbRange.alignUp2m_eq_zero hr hround]
        simp only [hround, false_and, iff_false, Nat.zero_sub, Nat.zero_div]
        rintro ⟨k, hk, -⟩
        exact absurd hk (Nat.not_lt_zero _)

section

variable {m' : MmuTables}

def mappedBlocks (rs : List DtbRange) : Set ℕ :=
  {c | 512 ≤ c ∧ c < 512 * 512 ∧ ∃ r ∈ rs, r.Rounds ∧ r.Touches c}

theorem MapsBlocks.mapRanges (h : MapsBlocks L m S) (hL : L.TablesPlaced .virt) {rs : List DtbRange}
    (hrs : ∀ r ∈ rs, r.base + r.size < 2 ^ 64)
    (hres : rs.foldlM (MmuTables.mapRange .virt L) m = some m') : MapsBlocks L m' (S ∪ mappedBlocks rs) := by
  induction rs generalizing m S with
  | nil =>
    obtain rfl := Option.some.inj hres
    have hS : S ∪ mappedBlocks [] = S := by simp [mappedBlocks]
    rwa [hS]
  | cons r rs ih =>
    obtain ⟨m₁, hr, hres⟩ := Option.bind_eq_some_iff.1 hres
    obtain ⟨l, hl, hmem⟩ := rangeBlocks_spec (hrs r mem_cons_self)
    rw [MmuTables.mapRange, hl] at hr
    have h' := ih (h.mapBlocks hL hr) (fun r' hr' ↦ hrs r' (mem_cons_of_mem r hr')) hres
    have hS : S ∪ mappedBlocks (r :: rs) = {c | c ∈ S ∨ c ∈ l ∧ 512 ≤ c ∧ c < 512 * 512} ∪ mappedBlocks rs := by
      ext c
      simp only [mappedBlocks, Set.mem_union, Set.mem_ofPred_eq, exists_mem_cons_iff, or_assoc]
      refine or_congr_right ⟨fun ⟨hlo, hhi, h⟩ ↦ ?_, fun h ↦ ?_⟩
      · exact h.imp (fun h ↦ ⟨(hmem c hlo).2 h, hlo, hhi⟩) fun h ↦ ⟨hlo, hhi, h⟩
      · rcases h with ⟨h, hlo, hhi⟩ | ⟨hlo, hhi, h⟩
        exacts [⟨hlo, hhi, .inl ((hmem c hlo).1 h)⟩, ⟨hlo, hhi, .inr h⟩]
    rwa [hS]

theorem maps_mmuInit (hL : L.TablesPlaced .virt) (ranges : Option (List DtbRange))
    (hrs : ∀ r ∈ mmuRanges .virt ranges, r.base + r.size < 2 ^ 64)
    (hres : mmuInit .virt L ranges = some m) : MapsBlocks L m (mappedBlocks (mmuRanges .virt ranges)) := by
  have h := (maps_start hL).mapRanges hL hrs hres
  rwa [Set.empty_union] at h

end

/-! ### The direct map -/

open Classical in
/-- **The direct map** of the blocks of `S`, on the offset of an address from the base of the upper
half: the first GiB is the device block, and a mapped block is one leaf or 512. -/
noncomputable def leafAt (L : KernelLayout) (S : Set ℕ) (off : ℕ) : Option Leaf :=
  if off < 2 ^ 30 then some ⟨devDesc, 2 ^ 30⟩
  else if off / ramBlockSize ∈ S then
    if overlapsKernel .virt L (off / ramBlockSize * ramBlockSize) then
      some ⟨pageDesc .virt L (off / pageSize * pageSize), 2 ^ 12⟩
    else some ⟨blockDesc (off / ramBlockSize * ramBlockSize), 2 ^ 21⟩
  else none

/-- The 512 GiB of the upper half's first `L0` entry hold the direct map; there is nothing else. -/
noncomputable def directMap (L : KernelLayout) (S : Set ℕ) (va : ℕ) : Option Leaf :=
  if va / 2 ^ 39 % 512 = 256 then leafAt L S (va % 2 ^ 39) else none

/-- The entries as the hardware reads them, by the physical address of the table. -/
def physEntry (m : MmuTables) (table i : ℕ) : ℕ := m.tbl (Board.virt.physToHhVirt table) i

/-! ### Descriptor fields -/

theorem blockDesc_eq (pa : ℕ) : blockDesc pa = pa ||| 0x60000000000701 := by
  simp only [blockDesc, Nat.or_assoc]
  rfl

/-- **The flags of a page**: read-write and not executable, read-only and not executable, or
read-only and executable, the last for the vector page and the pages of code only. -/
theorem pageDesc_cases (hpa : PageAddr pa) (L : KernelLayout) :
    pageDesc .virt L pa = pa ||| 0x60000000000703 ∨ pageDesc .virt L pa = pa ||| 0x60000000000783 ∨
      pageDesc .virt L pa = pa ||| 0x783 ∧
        (pa = vecPaStart .virt L ∨ L.text.Holds .virt pa ∨ L.coreText.Holds .virt pa) := by
  have hrw : pa ||| attrindxNormal ||| shInner ||| accessFlag ||| (0 <<< 6) ||| xnBits = pa ||| 0x60000000000700 := by
    simp only [Nat.or_assoc]
    rfl
  have hro : setRo (pa ||| 0x60000000000700) = pa ||| 0x60000000000780 := by
    rw [setRo, hpa.or_and rfl, Nat.or_assoc]
    rfl
  have hrx : setRo (clearXn (pa ||| 0x60000000000700)) = pa ||| 0x780 := by
    rw [setRo, clearXn, hpa.or_and rfl, hpa.or_and rfl, Nat.or_assoc]
    rfl
  have hpage : ∀ c, pa ||| c ||| descPage = pa ||| (c ||| descPage) := fun c ↦ Nat.or_assoc pa c _
  simp only [pageDesc, hrw, hro, hrx]
  split_ifs <;> simp_all [descPage]

theorem pageAddr_of_off (hoff : off < 2 ^ 39) : PageAddr (off / pageSize * pageSize) :=
  pageAddr_of_lt (k := off / pageSize) (by simp only [pageSize]; omega)

theorem pageAddr_of_block (hoff : off < 2 ^ 39) : PageAddr (off / ramBlockSize * ramBlockSize) := by
  rw [show off / ramBlockSize * ramBlockSize = off / ramBlockSize * 512 * 2 ^ 12 by simp only [ramBlockSize]; omega]
  exact pageAddr_of_lt (by simp only [ramBlockSize]; omega)

theorem descType_blockDesc (hpa : PageAddr pa) : descType (blockDesc pa) = 1 := by
  rw [blockDesc_eq, hpa.descType_or]
  rfl

theorem descType_pageDesc (hpa : PageAddr pa) (L : KernelLayout) : descType (pageDesc .virt L pa) = 3 := by
  rcases pageDesc_cases hpa L with h | h | ⟨h, -⟩ <;> rw [h, hpa.descType_or] <;> rfl

/-! ### The tables refine the direct map -/

theorem KernelLayout.TablesPlaced.follow (hL : L.TablesPlaced .virt) (ht : t ∈ L.tables) :
    descType (Board.virt.hhVirtToPhys t ||| descTable) = 3 ∧
      Board.virt.physToHhVirt (descAddr (Board.virt.hhVirtToPhys t ||| descTable)) = t := by
  obtain ⟨hpa, hback⟩ := virtToPhys_table (hL.aligned t ht) (hL.upper t ht).1 (hL.upper t ht).2
  exact ⟨descType_table hpa, by rw [descTable, descAddr_table hpa, hback]⟩

/-- **How a walk through the tables goes**, for an offset `off` into the direct map. -/
inductive Walked (L : KernelLayout) (m : MmuTables) (off : ℕ) : Option Leaf → Prop
  | device (h0 : off < 2 ^ 30) (h1 : m.tbl L.l1Table (off / 2 ^ 30) = devDesc) : Walked L m off (some ⟨devDesc, 2 ^ 30⟩)
  | noTable (h0 : 2 ^ 30 ≤ off) (h1 : m.tbl L.l1Table (off / 2 ^ 30) = 0) : Walked L m off none
  | noBlock (t : ℕ) (h0 : 2 ^ 30 ≤ off) (ht : t ∈ L.tables)
      (h1 : m.tbl L.l1Table (off / 2 ^ 30) = Board.virt.hhVirtToPhys t ||| descTable)
      (h2 : m.tbl t (off / 2 ^ 21 % 512) = 0) : Walked L m off none
  | block (t : ℕ) (h0 : 2 ^ 30 ≤ off) (ht : t ∈ L.tables)
      (h1 : m.tbl L.l1Table (off / 2 ^ 30) = Board.virt.hhVirtToPhys t ||| descTable)
      (h2 : m.tbl t (off / 2 ^ 21 % 512) = blockDesc (off / ramBlockSize * ramBlockSize)) :
      Walked L m off (some ⟨blockDesc (off / ramBlockSize * ramBlockSize), 2 ^ 21⟩)
  | page (t t' : ℕ) (h0 : 2 ^ 30 ≤ off) (ht : t ∈ L.tables) (ht' : t' ∈ L.tables)
      (h1 : m.tbl L.l1Table (off / 2 ^ 30) = Board.virt.hhVirtToPhys t ||| descTable)
      (h2 : m.tbl t (off / 2 ^ 21 % 512) = Board.virt.hhVirtToPhys t' ||| descTable)
      (h3 : m.tbl t' (off / 2 ^ 12 % 512) = pageDesc .virt L (off / pageSize * pageSize)) :
      Walked L m off (some ⟨pageDesc .virt L (off / pageSize * pageSize), 2 ^ 12⟩)

theorem MapsBlocks.walked (h : MapsBlocks L m S) (hoff : off < 2 ^ 39) : Walked L m off (leafAt L S off) := by
  rw [leafAt]
  by_cases hdev : off < 2 ^ 30
  · rw [if_pos hdev]
    refine .device hdev ?_
    rw [Nat.div_eq_of_lt hdev, h.device]
  · rw [if_neg hdev]
    have h0 : 2 ^ 30 ≤ off := not_lt.1 hdev
    have hi : 0 < off / 2 ^ 30 := Nat.div_pos h0 (by norm_num)
    have hi' : off / 2 ^ 30 < 512 := by omega
    have hj : off / 2 ^ 21 % 512 < 512 := Nat.mod_lt _ (by norm_num)
    have hb : 512 * (off / 2 ^ 30) + off / 2 ^ 21 % 512 = off / ramBlockSize := by
      simp only [ramBlockSize]
      omega
    by_cases hnull : m.l2ForL1 (off / 2 ^ 30) = 0
    · obtain ⟨hzero, hout⟩ := h.absent _ hi hi' hnull
      rw [if_neg (hb ▸ hout _ hj)]
      exact .noTable h0 hzero
    · obtain ⟨k, hk, hfor⟩ := h.owned _ hnull
      have ht : m.l2ForL1 (off / 2 ^ 30) ∈ L.tables := hfor ▸ KernelLayout.l2_mem (hk.trans_le h.l2Used_le)
      have hl1 := h.l1 _ hi hi' hnull
      have hentry := h.l2 _ hi hi' hnull _ hj
      rw [hb] at hentry
      split
      · next hmem =>
        split
        · next hover =>
          obtain ⟨k', hk', he, hp⟩ := hentry.pages hmem hover
          refine .page _ _ h0 ht (KernelLayout.l3_mem (hk'.trans_le h.l3Used_le)) hl1 he ?_
          rw [hp _ (Nat.mod_lt _ (by norm_num))]
          refine congrArg (pageDesc .virt L) ?_
          simp only [ramBlockSize, pageSize]
          omega
        · next hover => exact .block _ h0 ht hl1 (hentry.block hmem (Bool.eq_false_of_not_eq_true hover))
      · next hmem => exact .noBlock _ h0 ht hl1 (hentry.unmapped hmem)

theorem tableIndex_off (va : ℕ) : tableIndex 3 va = va / 2 ^ 39 % 512 ∧
    tableIndex 2 va = va % 2 ^ 39 / 2 ^ 30 ∧ tableIndex 1 va = va % 2 ^ 39 / 2 ^ 21 % 512 ∧
      tableIndex 0 va = va % 2 ^ 39 / 2 ^ 12 % 512 := by
  refine ⟨rfl, ?_, ?_, ?_⟩ <;> simp only [tableIndex] <;> norm_num <;> omega

/-- **The hardware walk computes the direct map.** -/
theorem MapsBlocks.walk_eq (h : MapsBlocks L m S) (hL : L.TablesPlaced .virt) (va : ℕ) :
    walk (physEntry m) (Board.virt.hhVirtToPhys L.l0Table) va = directMap L S va := by
  obtain ⟨hi0, hi1, hi2, hi3⟩ := tableIndex_off va
  have hoff : va % 2 ^ 39 < 2 ^ 39 := Nat.mod_lt _ (by norm_num)
  have hroot : physEntry m (Board.virt.hhVirtToPhys L.l0Table) = m.tbl L.l0Table := by
    have hmem := KernelLayout.l0_mem (L := L)
    unfold physEntry
    rw [(virtToPhys_table (hL.aligned _ hmem) (hL.upper _ hmem).1 (hL.upper _ hmem).2).2]
  have hfollow : ∀ t ∈ L.tables, physEntry m (descAddr (Board.virt.hhVirtToPhys t ||| descTable)) =
      m.tbl t := fun t ht ↦ by
    unfold physEntry
    rw [(hL.follow ht).2]
  rw [walk, directMap]
  simp only [hroot, hi0, hi1, hi2, hi3, h.l0]
  by_cases h256 : va / 2 ^ 39 % 512 = 256
  · have hl1 := KernelLayout.l1_mem (L := L)
    simp only [h256, if_true, (hL.follow hl1).1, ne_eq, not_true_eq_false, if_false, hfollow _ hl1]
    have hw := h.walked hoff
    generalize va % 2 ^ 39 = off at hw hoff ⊢
    generalize leafAt L S off = leaf at hw ⊢
    cases hw with
    | device h0 h1 => simp only [h1, if_pos (show descType devDesc = 1 from rfl)]
    | noTable h0 h1 => simp only [h1]; rfl
    | noBlock t h0 ht h1 h2 =>
      simp only [h1, (hL.follow ht).1, hfollow t ht, h2]
      rfl
    | block t h0 ht h1 h2 =>
      simp only [h1, (hL.follow ht).1, hfollow t ht, h2, descType_blockDesc (pageAddr_of_block hoff)]
      rfl
    | page t t' h0 ht ht' h1 h2 h3 =>
      simp only [h1, (hL.follow ht).1, hfollow t ht, h2, (hL.follow ht').1, hfollow t' ht', h3,
        descType_pageDesc (pageAddr_of_off hoff)]
      rfl
  · simp only [if_neg h256]
    rfl

theorem index_eq (va k : ℕ) : (va >>> (12 + 9 * k)) &&& 0x1FF = tableIndex k va := by
  rw [Nat.shiftRight_eq_div_pow, tableIndex]
  exact Nat.and_two_pow_sub_one_eq_mod _ 9

theorem ne_zero_of_descType {d n : ℕ} (h : descType d = n) (hn : n ≠ 0) : d ≠ 0 := by
  rintro rfl
  exact hn h.symm

/-- **`mmu_lookup_desc` returns the descriptor of the leaf**, and zero without one. -/
theorem MapsBlocks.lookup_eq (h : MapsBlocks L m S) (hL : L.TablesPlaced .virt) (va : ℕ) :
    mmuLookupDesc .virt L m va = (directMap L S va).elim 0 Leaf.desc := by
  obtain ⟨hi0, hi1, hi2, hi3⟩ := tableIndex_off va
  have hoff : va % 2 ^ 39 < 2 ^ 39 := Nat.mod_lt _ (by norm_num)
  have hne : ∀ t ∈ L.tables, Board.virt.hhVirtToPhys t ||| descTable ≠ 0 := fun t ht ↦
    ne_zero_of_descType (hL.follow ht).1 three_ne_zero
  rw [mmuLookupDesc, directMap]
  simp only [index_eq va 3, index_eq va 2, index_eq va 1, index_eq va 0, hi0, hi1, hi2, hi3, h.l0]
  by_cases h256 : va / 2 ^ 39 % 512 = 256
  · have hl1 := KernelLayout.l1_mem (L := L)
    simp only [h256, if_true, if_neg (hne _ hl1), (hL.follow hl1).1, (hL.follow hl1).2]
    have hw := h.walked hoff
    generalize va % 2 ^ 39 = off at hw hoff ⊢
    generalize leafAt L S off = leaf at hw ⊢
    cases hw with
    | device h0 h1 =>
      simp only [h1]
      rfl
    | noTable h0 h1 =>
      simp only [h1]
      rfl
    | noBlock t h0 ht h1 h2 =>
      simp only [h1, if_neg (hne t ht), (hL.follow ht).1, (hL.follow ht).2, h2]
      rfl
    | block t h0 ht h1 h2 =>
      have htype := descType_blockDesc (pageAddr_of_block hoff)
      -- with the descriptor in place the kernel would compute with it
      have hlevel : ¬3 ≠ descTable ∧ ¬3 = descBlock ∧ 1 = descBlock := by decide
      simp only [h1, if_neg (hne t ht), (hL.follow ht).1, (hL.follow ht).2, h2, htype,
        if_neg (ne_zero_of_descType htype one_ne_zero)]
      rw [if_neg hlevel.1, if_neg hlevel.2.1, if_neg hlevel.1, if_pos hlevel.2.2, Option.elim_some]
    | page t t' h0 ht ht' h1 h2 h3 =>
      simp only [h1, if_neg (hne t ht), (hL.follow ht).1, (hL.follow ht).2, h2, if_neg (hne t' ht'),
        (hL.follow ht').1, (hL.follow ht').2, h3]
      rfl
  · simp only [if_neg h256]
    rfl

/-! ### W^X and translation -/

/-- **A sound leaf for `va`.** It translates the address to itself less the base of the upper half;
the walk looks at the low 48 bits only, so that for other addresses than those of the upper half
this is meant modulo `2 ^ 48`. -/
structure LeafSound (L : KernelLayout) (va : ℕ) (leaf : Leaf) : Prop where
  translates : leaf.output va = u64 (va + 2 ^ 64 - Board.virt.hhBase) % 2 ^ 48
  upper : 2 ^ 64 - 2 ^ 48 ≤ va → Board.virt.hhBase + leaf.output va = va
  wx : ¬(Writable leaf.desc ∧ Executable leaf.desc)
  code : Executable leaf.desc → ∃ page, page = alignDown4k (leaf.output va) ∧
    (page = vecPaStart .virt L ∨ L.text.Holds .virt page ∨ L.coreText.Holds .virt page)
  device : attrIndx leaf.desc = 1 → ¬Executable leaf.desc

theorem leafSound_of_output {leaf : Leaf} (hva : va < 2 ^ 64) (h256 : va / 2 ^ 39 % 512 = 256)
    (hout : leaf.output va = va % 2 ^ 39) (hwx : ¬(Writable leaf.desc ∧ Executable leaf.desc))
    (hcode : Executable leaf.desc → ∃ page, page = va % 2 ^ 39 / pageSize * pageSize ∧
      (page = vecPaStart .virt L ∨ L.text.Holds .virt page ∨ L.coreText.Holds .virt page))
    (hdev : attrIndx leaf.desc = 1 → ¬Executable leaf.desc) : LeafSound L va leaf := by
  refine ⟨?_, fun hup ↦ ?_, hwx, fun hexec ↦ ?_, hdev⟩
  · rw [hout, u64, show Board.virt.hhBase = 0xFFFF800000000000 from rfl]
    omega
  · rw [hout, show Board.virt.hhBase = 0xFFFF800000000000 from rfl]
    omega
  · obtain ⟨page, rfl, hpage⟩ := hcode hexec
    refine ⟨_, ?_, hpage⟩
    rw [hout, alignDown4k, pageSize]
    omega

theorem fields_or (hpa : PageAddr pa) (c : ℕ) : (Writable (pa ||| c) ↔ Writable c) ∧
    (Executable (pa ||| c) ↔ Executable c) ∧ attrIndx (pa ||| c) = attrIndx c := by
  refine ⟨?_, ?_, hpa.attrIndx_or⟩
  · rw [Writable, Writable, hpa.testBit rfl]
  · rw [Executable, Executable, hpa.testBit rfl, hpa.testBit rfl]

theorem directMap_sound (hva : va < 2 ^ 64) {leaf : Leaf} (h : directMap L S va = some leaf) :
    LeafSound L va leaf := by
  rw [directMap] at h
  split at h
  · next h256 =>
    have hoff : va % 2 ^ 39 < 2 ^ 39 := Nat.mod_lt _ (by norm_num)
    rw [leafAt] at h
    split at h
    · next hdev =>
      obtain rfl := Option.some.inj h
      have hxn : ¬Executable devDesc := by decide
      refine leafSound_of_output hva h256 ?_ (fun h ↦ hxn h.2) (fun h ↦ absurd h hxn) fun _ ↦ hxn
      rw [Leaf.output_mk, show descAddr devDesc = 0 from rfl]
      omega
    · split at h
      · split at h
        · obtain rfl := Option.some.inj h
          have hpa := pageAddr_of_off hoff
          have hout : ∀ c, c &&& addrMask = 0 →
              (⟨va % 2 ^ 39 / pageSize * pageSize ||| c, 2 ^ 12⟩ : Leaf).output va = va % 2 ^ 39 := by
            intro c hc
            rw [Leaf.output_mk, hpa.descAddr_or hc, pageSize]
            omega
          rcases pageDesc_cases hpa L with hd | hd | ⟨hd, hcode⟩ <;> rw [hd]
          · obtain ⟨-, hx, -⟩ := fields_or hpa 0x60000000000703
            have hxn := mt hx.1 (by decide)
            exact leafSound_of_output hva h256 (hout _ rfl) (fun h ↦ hxn h.2) (fun h ↦ absurd h hxn) fun _ ↦ hxn
          · obtain ⟨-, hx, -⟩ := fields_or hpa 0x60000000000783
            have hxn := mt hx.1 (by decide)
            exact leafSound_of_output hva h256 (hout _ rfl) (fun h ↦ hxn h.2) (fun h ↦ absurd h hxn) fun _ ↦ hxn
          · obtain ⟨hw, -, hattr⟩ := fields_or hpa 0x783
            have hro := mt hw.1 (by decide)
            refine leafSound_of_output hva h256 (hout _ rfl) (fun h ↦ hro h.1) (fun _ ↦ ⟨_, rfl, hcode⟩) fun hdev ↦ ?_
            rw [hattr] at hdev
            cases hdev
        · obtain rfl := Option.some.inj h
          have hpa := pageAddr_of_block hoff
          rw [blockDesc_eq]
          obtain ⟨-, hx, -⟩ := fields_or hpa 0x60000000000701
          have hxn := mt hx.1 (by decide)
          refine leafSound_of_output hva h256 ?_ (fun h ↦ hxn h.2) (fun h ↦ absurd h hxn) fun _ ↦ hxn
          rw [Leaf.output_mk, hpa.descAddr_or rfl, ramBlockSize]
          omega
      · cases h
  · cases h

/-! ### The whole map -/

/-- **Every leaf that `mmu_lookup_desc` finds is sound.** -/
def MmuSound (L : KernelLayout) (m : MmuTables) : Prop :=
  ∀ va < 2 ^ 64, mmuLookupDesc .virt L m va ≠ 0 → ∃ leaf,
    walk (physEntry m) (Board.virt.hhVirtToPhys L.l0Table) va = some leaf ∧
      leaf.desc = mmuLookupDesc .virt L m va ∧ LeafSound L va leaf

/-- **Every page of the ranges between 1 GiB and 512 GiB is mapped**: the pages are those of the
bytes `pa` of a range, and `va` is any address in such a page of the upper half. -/
def MmuCovers (L : KernelLayout) (m : MmuTables) (ranges : List DtbRange) : Prop :=
  ∀ r ∈ ranges, ∀ pa, r.base ≤ pa → pa < r.base + r.size → 2 ^ 30 ≤ pa → pa < 2 ^ 39 →
    ∀ va, va / pageSize = (Board.virt.hhBase + pa) / pageSize → mmuLookupDesc .virt L m va ≠ 0

/-- **The condition**: where the end of a range cannot be rounded up, the blocks of the range
between 1 GiB and 512 GiB are touched by ranges whose end can. -/
def RangesRound (ranges : List DtbRange) : Prop :=
  ∀ r ∈ ranges, ¬r.Rounds → ∀ pa, r.base ≤ pa → pa < r.base + r.size → 2 ^ 30 ≤ pa → pa < 2 ^ 39 →
    ∃ r' ∈ ranges, r'.Rounds ∧ r'.Touches (pa / ramBlockSize)

theorem MapsBlocks.sound (h : MapsBlocks L m S) (hL : L.TablesPlaced .virt) : MmuSound L m := by
  intro va hva hne
  rw [h.lookup_eq hL] at hne ⊢
  rcases hleaf : directMap L S va with _ | leaf
  · rw [hleaf] at hne
    exact absurd rfl hne
  · exact ⟨leaf, (h.walk_eq hL va).trans hleaf, rfl, directMap_sound hva hleaf⟩

theorem MapsBlocks.lookup_ne_zero_iff (h : MapsBlocks L m S) (hL : L.TablesPlaced .virt) (hlo : 2 ^ 30 ≤ pa)
    (hhi : pa < 2 ^ 39) (hva : va / pageSize = (Board.virt.hhBase + pa) / pageSize) :
    mmuLookupDesc .virt L m va ≠ 0 ↔ pa / ramBlockSize ∈ S := by
  rw [show Board.virt.hhBase = 0xFFFF800000000000 from rfl, pageSize] at hva
  have h256 : va / 2 ^ 39 % 512 = 256 := by omega
  have hblock : va % 2 ^ 39 / ramBlockSize = pa / ramBlockSize := by
    rw [ramBlockSize]
    omega
  have hoff : va % 2 ^ 39 < 2 ^ 39 := Nat.mod_lt _ (by norm_num)
  rw [h.lookup_eq hL, directMap, if_pos h256, leafAt, if_neg (by omega), hblock]
  split
  · next hmem =>
    refine iff_of_true ?_ hmem
    split
    · rw [Option.elim_some]
      exact ne_zero_of_descType (descType_pageDesc (pageAddr_of_off hoff) L) three_ne_zero
    · rw [Option.elim_some]
      exact ne_zero_of_descType (descType_blockDesc (hblock ▸ pageAddr_of_block hoff)) one_ne_zero
  · next hmem => exact iff_of_false (fun hne ↦ hne rfl) hmem

theorem MapsBlocks.covers_iff {ranges : List DtbRange} (h : MapsBlocks L m (mappedBlocks ranges))
    (hL : L.TablesPlaced .virt) : MmuCovers L m ranges ↔ RangesRound ranges := by
  constructor
  · intro hcov r hr _ pa hlo hhi hlo' hhi'
    have hmem := (h.lookup_ne_zero_iff hL hlo' hhi' rfl).1 (hcov r hr pa hlo hhi hlo' hhi' _ rfl)
    exact hmem.2.2
  · intro hround r hr pa hlo hhi hlo' hhi' va hva
    refine (h.lookup_ne_zero_iff hL hlo' hhi' hva).2 ⟨?_, ?_, ?_⟩
    · rw [ramBlockSize]
      omega
    · rw [ramBlockSize]
      omega
    · by_cases hr' : r.Rounds
      · refine ⟨r, hr, hr', Nat.div_le_div_right hlo, ?_⟩
        exact (Nat.div_mul_le_self pa ramBlockSize).trans_lt hhi
      · exact hround r hr hr' pa hlo hhi hlo' hhi'

/-- **The kernel page tables are a W^X direct map of the ranges, exactly when the condition holds.**
What `mmu_init` builds on the `virt` board translates every mapped address to itself less the base
of the upper half and never makes it both writable and executable, whatever the ranges and the
layout; and it maps every page of the ranges if and only if no range is lost by the rounding of its
end. -/
theorem mmu_direct_map_iff {L : KernelLayout} (hL : L.TablesPlaced .virt)
    {ranges : Option (List DtbRange)} (hranges : ∀ r ∈ ranges.getD [], r.base + r.size < 2 ^ 64)
    {m : MmuTables} (hinit : mmuInit .virt L ranges = some m) :
    (MmuSound L m ∧ MmuCovers L m (ranges.getD [])) ↔ RangesRound (ranges.getD []) := by
  have hfallback : ∀ r ∈ mmuRanges .virt none, r.base + r.size < 2 ^ 64 := by decide
  rcases ranges with _ | _ | ⟨r, rs⟩
  · have h := maps_mmuInit hL none hfallback hinit
    exact iff_of_true ⟨h.sound hL, fun r hr ↦ absurd hr not_mem_nil⟩ fun r hr ↦ absurd hr not_mem_nil
  · have h := maps_mmuInit hL (some []) hfallback hinit
    exact iff_of_true ⟨h.sound hL, fun r hr ↦ absurd hr not_mem_nil⟩ fun r hr ↦ absurd hr not_mem_nil
  · have h := maps_mmuInit hL (some (r :: rs)) hranges hinit
    exact (and_iff_right (h.sound hL)).trans (h.covers_iff hL)

/-- A kernel at `0x40280000`, with its tables at the start of `.bss`. -/
def virtLayout : KernelLayout where
  text := ⟨0xFFFF800040281000, 0xFFFF80004029F8C4⟩
  rodata := ⟨0xFFFF8000402A0000, 0xFFFF8000402AF010⟩
  coreText := ⟨0xFFFF8000402B0000, 0xFFFF8000402B7A40⟩
  coreRodata := ⟨0xFFFF8000402B8000, 0xFFFF8000402B9100⟩
  data := ⟨0xFFFF8000402BA000, 0xFFFF8000402BB400⟩
  coreData := ⟨0xFFFF8000402BC000, 0xFFFF8000402BC800⟩
  bss := ⟨0xFFFF8000402BD000, 0xFFFF800040390000⟩
  coreBss := ⟨0xFFFF800040390000, 0xFFFF800040390700⟩
  imageStart := 0xFFFF800040280000
  runtimeEnd := 0xFFFF800040391000
  kernelVectors := 0xFFFF800040282800
  l0Table := 0xFFFF8000402BD000
  l1Table := 0xFFFF8000402BE000
  l2Tables := 0xFFFF8000402BF000
  l3Pool := 0xFFFF80004033F000

theorem virtLayout_placed : virtLayout.TablesPlaced .virt :=
  ⟨by decide +kernel, by decide +kernel, by decide +kernel⟩

theorem mmu_direct_map_virtLayout : ∃ m, mmuInit .virt virtLayout (some [⟨0x40000000, 0x400000⟩]) = some m ∧
    MmuSound virtLayout m ∧ MmuCovers virtLayout m [⟨0x40000000, 0x400000⟩] := by
  have hsome : (mmuInit .virt virtLayout (some [⟨0x40000000, 0x400000⟩])).isSome = true := by decide +kernel
  obtain ⟨m, hinit⟩ := Option.isSome_iff_exists.1 hsome
  refine ⟨m, hinit, (mmu_direct_map_iff virtLayout_placed (by decide) hinit).2 fun r hr hround ↦ ?_⟩
  obtain rfl := mem_singleton.1 hr
  exact absurd (by decide) hround

/-- **A range that ends in the last 2 MiB is not mapped at all.** -/
theorem mmu_range_unmapped : ∃ m, mmuInit .virt virtLayout (some [⟨0x7FC0000000, 2 ^ 64 - 1 - 0x7FC0000000⟩]) = some m ∧
    mmuLookupDesc .virt virtLayout m (Board.virt.hhBase + 0x7FC0000000) = 0 ∧
    ¬MmuCovers virtLayout m [⟨0x7FC0000000, 2 ^ 64 - 1 - 0x7FC0000000⟩] := by
  have hnone : ((mmuInit .virt virtLayout (some [⟨0x7FC0000000, 2 ^ 64 - 1 - 0x7FC0000000⟩])).map fun m ↦
      mmuLookupDesc .virt virtLayout m (Board.virt.hhBase + 0x7FC0000000)) = some 0 := by
    decide +kernel
  obtain ⟨m, hinit, hzero⟩ := Option.map_eq_some_iff.1 hnone
  exact ⟨m, hinit, hzero, fun hcov ↦ hcov _ mem_cons_self 0x7FC0000000 le_rfl (by decide) (by decide)
    (by decide) _ rfl hzero⟩

end CapazOS
