import CapazOS.Fat.Geometry
import CapazOS.Lib.Linked

/-!
# The allocation table

Entry `c` of the table is the successor of cluster `c`, a 16-bit number on FAT16 and the low 28 bits
of a 32-bit number on FAT32. Assigning an entry updates the successor function at one point
(`fatNextCluster_set`), the walker returns a terminated path (`fatClusterChain_eq`), and nothing
else for the tables of `fatClusterChain_genuine_iff`; the search returns the first free clusters
(`fatFindFreeClusters_eq`).

The product of a cluster number and the entry size is not bounded here; it fits 32 bits below
cluster `2 ^ 30`.
-/

namespace CapazOS

open List Function

variable {fat : Bytes} {c v maxCluster start : ℕ} {ty : FatType} {cs : List ℕ}

/-! ### The source functions -/

def fatEocThreshold : FatType → ℕ
  | .fat32 => 0x0FFFFFF8
  | .fat16 => 0xFFF8

def fatBadCluster : FatType → ℕ
  | .fat32 => 0x0FFFFFF7
  | .fat16 => 0xFFF7

/-- `fatNextCluster`: entries beyond the table read as end of chain. -/
def fatNextCluster (ty : FatType) (fat : Bytes) (cluster : ℕ) : ℕ :=
  match ty with
  | .fat32 =>
    let off := cluster * 4
    if fat.length ≤ off + 3 then 0x0FFFFFFF else readLE 4 fat off % 2 ^ 28
  | .fat16 =>
    let off := cluster * 2
    if fat.length ≤ off + 1 then 0xFFFF else readLE 2 fat off

/-- The loop of `fatClusterChain`; the first argument is what is left of its guard. -/
def fatChainLoop (ty : FatType) (fat : Bytes) (maxCluster : ℕ) : ℕ → ℕ → Option (List ℕ)
  | 0, _ => some []
  | left + 1, cluster =>
    if 2 ≤ cluster ∧ cluster ≤ maxCluster then
      let next := fatNextCluster ty fat cluster
      if next = fatBadCluster ty then none
      else if fatEocThreshold ty ≤ next then some [cluster]
      else if next < 2 then none
      else (fatChainLoop ty fat maxCluster left next).map (cluster :: ·)
    else some []

/-- The guard of every chain walk, `0x100000` clusters. -/
def chainGuard : ℕ := 0x100000

def fatClusterChain (ty : FatType) (fat : Bytes) (start maxCluster : ℕ) : Option (List ℕ) :=
  if start < 2 ∨ maxCluster < 2 then none
  else fatChainLoop ty fat maxCluster chainGuard start

def fat16SetCluster (fat : Bytes) (cluster value : ℕ) : Bytes :=
  let off := cluster * 2
  if fat.length ≤ off + 1 then fat else writeLE 2 value fat off

/-- `fat32SetCluster`: the four reserved bits of the entry are kept. -/
def fat32SetCluster (fat : Bytes) (cluster value : ℕ) : Bytes :=
  let off := cluster * 4
  if fat.length ≤ off + 3 then fat
  else
    let old := readLE 4 fat off
    let merged := old / 2 ^ 28 * 2 ^ 28 + value % 2 ^ 28
    writeLE 4 merged fat off

def fatSetCluster : FatType → Bytes → ℕ → ℕ → Bytes
  | .fat16 => fat16SetCluster
  | .fat32 => fat32SetCluster

/-- `fat16MaxCluster` and `fat32MaxCluster`: the largest cluster number, 0 without a cluster. (With
`2 ^ 32 - 1` clusters the source traps on the sum.) -/
def fatMaxCluster (vol : Volume) : ℕ :=
  let clusters := (vol.totalSectors - (vol.dataStartLBA - vol.baseLBA)) / vol.sectorsPerCluster
  if clusters = 0 then 0 else clusters + 1

/-- `fat16FindFreeClusters` and `fat32FindFreeClusters`: the first `count` clusters whose entry is
zero, or `none` when there are fewer. -/
def fatFindFreeClusters (ty : FatType) (vol : Volume) (fat : Bytes) (count : ℕ) : Option (List ℕ) :=
  if count = 0 then some []
  else
    let maxCluster := fatMaxCluster vol
    if maxCluster < 2 then none
    else
      let free := ((range' 2 (maxCluster - 1)).filter fun c ↦ fatNextCluster ty fat c = 0).take count
      if free.length < count then none else some free

/-- `readFat16FAT` and `readFat32FAT`: the sectors of the first copy. The buffer the source keeps
between calls is overwritten sector by sector before it is returned. -/
def readFAT {ss : ℕ} (block : BlockDevice ss) (vol : Volume) (d : Disk ss) : Option Bytes :=
  if vol.sectorsPerFAT = 0 then none
  else if block.capacitySectors < vol.fatStartLBA + vol.sectorsPerFAT then none
  else if ss ≠ vol.bytesPerSector then none
  else some (d.bytes vol.fatStartLBA vol.sectorsPerFAT)

/-! ### Entries -/

def fatEntryBytes : FatType → ℕ
  | .fat16 => 2
  | .fat32 => 4

def fatEntryLimit : FatType → ℕ
  | .fat16 => 2 ^ 16
  | .fat32 => 2 ^ 28

@[simp] theorem length_fatSetCluster (ty : FatType) (fat : Bytes) (c v : ℕ) :
    (fatSetCluster ty fat c v).length = fat.length := by
  cases ty
  · simp only [fatSetCluster, fat16SetCluster]
    split <;> simp
  · simp only [fatSetCluster, fat32SetCluster]
    split <;> simp

theorem fatNextCluster_fat16 (fat : Bytes) (c : ℕ) : fatNextCluster .fat16 fat c =
    if fat.length ≤ c * 2 + 1 then 0xFFFF else readLE 2 fat (c * 2) := rfl

theorem fatNextCluster_fat32 (fat : Bytes) (c : ℕ) : fatNextCluster .fat32 fat c =
    if fat.length ≤ c * 4 + 3 then 0x0FFFFFFF else readLE 4 fat (c * 4) % 2 ^ 28 := rfl

theorem fat16SetCluster_eq (hc : (c + 1) * 2 ≤ fat.length) :
    fatSetCluster .fat16 fat c v = writeLE 2 v fat (c * 2) := by
  exact if_neg (by omega)

theorem fat32SetCluster_eq (hc : (c + 1) * 4 ≤ fat.length) : fatSetCluster .fat32 fat c v =
      writeLE 4 (readLE 4 fat (c * 4) / 2 ^ 28 * 2 ^ 28 + v % 2 ^ 28) fat (c * 4) := by
  exact if_neg (by omega)

/-- **Assigning an entry** that the table holds updates the successor function at that entry. -/
theorem fatNextCluster_set (hc : (c + 1) * fatEntryBytes ty ≤ fat.length) (hv : v < fatEntryLimit ty) :
    fatNextCluster ty (fatSetCluster ty fat c v) = update (fatNextCluster ty fat) c v := by
  funext x
  cases ty with
  | fat16 =>
    replace hc : (c + 1) * 2 ≤ fat.length := hc
    rw [fat16SetCluster_eq hc, fatNextCluster_fat16, length_writeLE]
    rcases eq_or_ne x c with rfl | hne
    · rw [if_neg (by omega), readLE_writeLE_self (by omega) hv, update_self]
    · rw [update_of_ne hne, fatNextCluster_fat16, readLE_writeLE_disjoint (by omega) (by omega)]
  | fat32 =>
    replace hc : (c + 1) * 4 ≤ fat.length := hc
    replace hv : v < 2 ^ 28 := hv
    have hold : readLE 4 fat (c * 4) < 256 ^ 4 := readLE_lt 4 fat (c * 4)
    rw [fat32SetCluster_eq hc, fatNextCluster_fat32, length_writeLE]
    rcases eq_or_ne x c with rfl | hne
    · rw [if_neg (by omega), readLE_writeLE_self (by omega) (by omega), update_self]
      omega
    · rw [update_of_ne hne, fatNextCluster_fat32, readLE_writeLE_disjoint (by omega) (by omega)]

/-! ### Chains -/

def linkNext (ty : FatType) (link : ℕ → ℕ) (c : ℕ) : Option ℕ :=
  if fatEocThreshold ty ≤ link c then none else some (link c)

/-- A terminated chain of clusters in `[2, maxCluster]`. -/
structure ClusterChain (ty : FatType) (maxCluster : ℕ) (link : ℕ → ℕ) (start : ℕ) (cs : List ℕ) : Prop where
  linked : Linked (linkNext ty link) start cs
  range : ∀ c ∈ cs, 2 ≤ c ∧ c ≤ maxCluster

namespace ClusterChain

variable {link link' : ℕ → ℕ}

theorem start_range (h : ClusterChain ty maxCluster link start cs) :
    2 ≤ start ∧ start ≤ maxCluster := h.range start h.linked.head_mem

theorem unique {cs' : List ℕ} (h : ClusterChain ty maxCluster link start cs)
    (h' : ClusterChain ty maxCluster link start cs') : cs = cs' := h.linked.unique h'.linked

theorem congr (h : ClusterChain ty maxCluster link start cs) (hagree : ∀ c ∈ cs, link' c = link c) :
    ClusterChain ty maxCluster link' start cs where
  linked := h.linked.congr fun c hc ↦ by rw [linkNext, linkNext, hagree c hc]
  range := h.range

theorem link_ne_zero (h : ClusterChain ty maxCluster link start cs) (hc : c ∈ cs) : link c ≠ 0 := by
  intro hzero
  have hnext : linkNext ty link c = some 0 := by rw [linkNext, hzero, if_neg (by cases ty <;> decide)]
  have := (h.range 0 (h.linked.next_mem hc hnext)).1
  omega

end ClusterChain

theorem fatChainLoop_eq (hmax : maxCluster < fatBadCluster ty)
    (hlink : Linked (linkNext ty (fatNextCluster ty fat)) start cs)
    (hrange : ∀ c ∈ cs, 2 ≤ c ∧ c ≤ maxCluster) {left : ℕ} (hleft : cs.length ≤ left) :
    fatChainLoop ty fat maxCluster left start = some cs := by
  have hbad : fatBadCluster ty < fatEocThreshold ty := by cases ty <;> decide
  induction hlink generalizing left with
  | @last a hstop =>
    obtain ⟨left, rfl⟩ : ∃ n, left = n + 1 := ⟨left - 1, by simp at hleft; omega⟩
    have heoc : fatEocThreshold ty ≤ fatNextCluster ty fat a := by
      by_contra hlt
      rw [linkNext, if_neg hlt] at hstop
      cases hstop
    rw [fatChainLoop, if_pos (hrange a mem_cons_self)]
    rw [if_neg (by omega), if_pos heoc]
  | @cons a b l hnext htail ih =>
    obtain ⟨left, rfl⟩ : ∃ n, left = n + 1 := ⟨left - 1, by simp at hleft; omega⟩
    obtain ⟨hlt, heq⟩ : ¬fatEocThreshold ty ≤ b ∧ fatNextCluster ty fat a = b := by
      rw [linkNext] at hnext
      split at hnext
      · cases hnext
      · next hlt =>
        obtain rfl := Option.some.inj hnext
        exact ⟨hlt, rfl⟩
    have hb := hrange b (mem_cons_of_mem _ htail.head_mem)
    rw [fatChainLoop, if_pos (hrange a mem_cons_self)]
    rw [heq, if_neg (by omega), if_neg hlt, if_neg (by omega),
      ih (fun c hc ↦ hrange c (mem_cons_of_mem _ hc)) (by simpa using hleft)]
    rfl

theorem fatClusterChain_eq (hmax : maxCluster < fatBadCluster ty)
    (h : ClusterChain ty maxCluster (fatNextCluster ty fat) start cs) (hlen : cs.length ≤ chainGuard) :
    fatClusterChain ty fat start maxCluster = some cs := by
  have hstart := h.start_range
  rw [fatClusterChain, if_neg (by omega)]
  exact fatChainLoop_eq hmax h.linked h.range hlen

theorem fatClusterChain_range (h : fatClusterChain ty fat start maxCluster = some cs) :
    ∀ c ∈ cs, 2 ≤ c ∧ c ≤ maxCluster := by
  have hloop : ∀ {left start cs}, fatChainLoop ty fat maxCluster left start = some cs →
      ∀ c ∈ cs, 2 ≤ c ∧ c ≤ maxCluster := by
    intro left
    induction left with
    | zero =>
      intro start cs heq c hc
      rw [← Option.some.inj heq] at hc
      cases hc
    | succ left ih =>
      intro start cs heq c hc
      rw [fatChainLoop] at heq
      split at heq
      · next hrange =>
        simp only at heq
        split at heq
        · cases heq
        · split at heq
          · rw [← Option.some.inj heq] at hc
            rwa [mem_singleton.1 hc]
          · split at heq
            · cases heq
            · obtain ⟨rest, hrest, rfl⟩ := Option.map_eq_some_iff.1 heq
              rcases mem_cons.1 hc with rfl | hc
              · exact hrange
              · exact ih hrest c hc
      · rw [← Option.some.inj heq] at hc
        cases hc
  unfold fatClusterChain at h
  split at h
  · cases h
  · exact hloop h

/-! ### Which lists the walker returns -/

/-- `fatClusterChain` with its arithmetic checked: the 32-bit product of a cluster number and the
entry size traps when it does not fit. Of the clusters of a walk only the first can be that large,
since an entry holds 28 bits. -/
def fatClusterChainChecked (ty : FatType) (fat : Bytes) (start maxCluster : ℕ) : Checked (Option (List ℕ)) :=
  if 2 ≤ start ∧ start ≤ maxCluster ∧ 2 ^ 32 ≤ start * fatEntryBytes ty then none
  else some (fatClusterChain ty fat start maxCluster)

/-- **A genuine chain**: clusters of the volume with an entry in the table, each entry the next
cluster and none of them the bad-cluster mark, the last one an end mark. Such a list has no
duplicates (`Linked.nodup`). -/
structure GenuineChain (ty : FatType) (fat : Bytes) (maxCluster start : ℕ) (cs : List ℕ) : Prop
    extends ClusterChain ty maxCluster (fatNextCluster ty fat) start cs where
  table : ∀ c ∈ cs, (c + 1) * fatEntryBytes ty ≤ fat.length
  bad : ∀ c ∈ cs, fatNextCluster ty fat c ≠ fatBadCluster ty

/-- The walk from `start` is **decided** within `left` clusters: clusters of the volume with an
entry in the table lead to an entry that is an end mark, the bad-cluster mark, free or reserved. -/
def WalkDecided (ty : FatType) (fat : Bytes) (maxCluster left start : ℕ) : Prop :=
  ∃ n < left, (∀ i ≤ n, (2 ≤ (fatNextCluster ty fat)^[i] start ∧ (fatNextCluster ty fat)^[i] start ≤ maxCluster) ∧
      ((fatNextCluster ty fat)^[i] start + 1) * fatEntryBytes ty ≤ fat.length) ∧
    ((fatNextCluster ty fat)^[n + 1] start = fatBadCluster ty ∨
      fatEocThreshold ty ≤ (fatNextCluster ty fat)^[n + 1] start ∨
      (fatNextCluster ty fat)^[n + 1] start < 2)

section

variable {left : ℕ}

theorem walkDecided_succ : WalkDecided ty fat maxCluster (left + 1) start ↔
    ((2 ≤ start ∧ start ≤ maxCluster) ∧ (start + 1) * fatEntryBytes ty ≤ fat.length) ∧
      (fatNextCluster ty fat start = fatBadCluster ty ∨
        fatEocThreshold ty ≤ fatNextCluster ty fat start ∨ fatNextCluster ty fat start < 2 ∨
        WalkDecided ty fat maxCluster left (fatNextCluster ty fat start)) := by
  constructor
  · rintro ⟨n, hn, hpath, hend⟩
    refine ⟨hpath 0 (Nat.zero_le _), ?_⟩
    cases n with
    | zero => exact hend.imp_right fun h ↦ h.imp_right .inl
    | succ n =>
      exact .inr (.inr (.inr ⟨n, by omega, fun i hi ↦ hpath (i + 1) (by omega), hend⟩))
  · rintro ⟨hstart, hbad | heoc | hfree | ⟨n, hn, hpath, hend⟩⟩
    · exact ⟨0, by omega, fun i hi ↦ by rwa [Nat.le_zero.1 hi], .inl hbad⟩
    · exact ⟨0, by omega, fun i hi ↦ by rwa [Nat.le_zero.1 hi], .inr (.inl heoc)⟩
    · exact ⟨0, by omega, fun i hi ↦ by rwa [Nat.le_zero.1 hi], .inr (.inr hfree)⟩
    · refine ⟨n + 1, by omega, fun i hi ↦ ?_, hend⟩
      cases i with
      | zero => exact hstart
      | succ i => exact hpath i (by omega)

theorem genuineChain_cons : GenuineChain ty fat maxCluster start (start :: cs) ↔
    ((2 ≤ start ∧ start ≤ maxCluster) ∧ (start + 1) * fatEntryBytes ty ≤ fat.length ∧
      fatNextCluster ty fat start ≠ fatBadCluster ty) ∧
    (fatEocThreshold ty ≤ fatNextCluster ty fat start ∧ cs = [] ∨ fatNextCluster ty fat start < fatEocThreshold ty ∧
        GenuineChain ty fat maxCluster (fatNextCluster ty fat start) cs) := by
  constructor
  · rintro ⟨⟨hlinked, hrange⟩, htable, hbad⟩
    rw [forall_mem_cons] at hrange htable hbad
    refine ⟨⟨hrange.1, htable.1, hbad.1⟩, ?_⟩
    cases hlinked with
    | last hstop => exact .inl ⟨by by_contra h; simp [linkNext, h] at hstop, rfl⟩
    | cons hnext htail =>
      by_cases h : fatEocThreshold ty ≤ fatNextCluster ty fat start
      · simp [linkNext, h] at hnext
      · obtain rfl : fatNextCluster ty fat start = _ := by simpa [linkNext, h] using hnext
        exact .inr ⟨Nat.lt_of_not_le h, ⟨htail, hrange.2⟩, htable.2, hbad.2⟩
  · rintro ⟨⟨hrange, htable, hbad⟩, ⟨heoc, rfl⟩ | ⟨hlt, htail⟩⟩
    · exact ⟨⟨.last (by simp [linkNext, heoc]), by simpa using hrange⟩, by simpa using htable, by simpa using hbad⟩
    · exact ⟨⟨.cons (by simp [linkNext, hlt.not_ge]) htail.linked, forall_mem_cons.2 ⟨hrange, htail.range⟩⟩,
        forall_mem_cons.2 ⟨htable, htail.table⟩, forall_mem_cons.2 ⟨hbad, htail.bad⟩⟩

theorem fatChainLoop_of_decided (h : WalkDecided ty fat maxCluster left start)
    (hloop : fatChainLoop ty fat maxCluster left start = some cs) :
    GenuineChain ty fat maxCluster start cs := by
  induction left generalizing start cs with
  | zero => exact absurd h fun ⟨n, hn, _⟩ ↦ Nat.not_lt_zero n hn
  | succ left ih =>
    obtain ⟨⟨hrange, htable⟩, hnext⟩ := walkDecided_succ.1 h
    rw [fatChainLoop, if_pos hrange] at hloop
    simp only at hloop
    split_ifs at hloop with hbad heoc hfree
    · obtain rfl := Option.some.inj hloop
      exact genuineChain_cons.2 ⟨⟨hrange, htable, hbad⟩, .inl ⟨heoc, rfl⟩⟩
    · obtain ⟨rest, hrest, rfl⟩ := Option.map_eq_some_iff.1 hloop
      have hwalk := ((hnext.resolve_left hbad).resolve_left heoc).resolve_left hfree
      exact genuineChain_cons.2 ⟨⟨hrange, htable, hbad⟩, .inr ⟨Nat.lt_of_not_le heoc, ih hwalk hrest⟩⟩

/-- A walk that is not decided returns a list that is no chain: it was cut by the guard, by a link
out of the volume or by the end of the table. -/
theorem fatChainLoop_of_not_decided (h : ¬WalkDecided ty fat maxCluster left start) :
    ∃ cs, fatChainLoop ty fat maxCluster left start = some cs ∧ ¬GenuineChain ty fat maxCluster start cs := by
  have hnil : ¬GenuineChain ty fat maxCluster start [] := fun hc ↦ hc.linked.ne_nil rfl
  induction left generalizing start with
  | zero => exact ⟨[], rfl, hnil⟩
  | succ left ih =>
    rw [walkDecided_succ] at h
    rw [fatChainLoop]
    by_cases hrange : 2 ≤ start ∧ start ≤ maxCluster
    · rw [if_pos hrange]
      by_cases htable : (start + 1) * fatEntryBytes ty ≤ fat.length
      · obtain ⟨hbad, heoc, hfree, hwalk⟩ : _ ∧ _ ∧ _ ∧ _ := by
          simpa only [hrange, htable, and_self, true_and, not_or] using h
        obtain ⟨cs, hloop, hcs⟩ := ih hwalk fun hc ↦ hc.linked.ne_nil rfl
        refine ⟨start :: cs, by simp [hbad, heoc, hfree, hloop], fun hc ↦ hcs ?_⟩
        exact ((genuineChain_cons.1 hc).2.resolve_left fun he ↦ heoc he.1).2
      · -- an entry beyond the table reads as an end mark
        have hmark : fatNextCluster ty fat start = fatEntryLimit ty - 1 := by
          cases ty <;> simp only [fatEntryBytes] at htable
          · rw [fatNextCluster_fat16, if_pos (by omega)]
            rfl
          · rw [fatNextCluster_fat32, if_pos (by omega)]
            rfl
        refine ⟨[start], ?_, fun hc ↦ htable (genuineChain_cons.1 hc).1.2.1⟩
        rw [hmark]
        cases ty <;> simp [fatBadCluster, fatEocThreshold, fatEntryLimit]
    · exact ⟨[], if_neg hrange, hnil⟩

end

/-- **Which walks are answered right.** A call of `fatClusterChain` returns, it returns a nonempty
list only if that list is a genuine chain, and `nil` whenever there is no genuine chain, **if and
only if** it is refused outright or its walk is decided within the guard, from a start whose entry
has a 32-bit offset. Otherwise a chain that leaves the volume, a cycle, or a chain of more than
`0x100000` clusters is returned as far as it was walked. -/
theorem fatClusterChain_genuine_iff (ty : FatType) (fat : Bytes) (start maxCluster : ℕ) :
    (∃ res, fatClusterChainChecked ty fat start maxCluster = some res ∧
      (∀ cs, res = some cs → cs ≠ [] → cs.Nodup ∧ GenuineChain ty fat maxCluster start cs) ∧
      ((¬∃ cs, GenuineChain ty fat maxCluster start cs) → res = none)) ↔
    start < 2 ∨ maxCluster < 2 ∨ (start * fatEntryBytes ty < 2 ^ 32 ∧
      WalkDecided ty fat maxCluster chainGuard start) := by
  have hguard : chainGuard = 0xFFFFF + 1 := rfl
  by_cases hrefused : start < 2 ∨ maxCluster < 2
  · refine iff_of_true ⟨none, ?_, nofun, fun _ ↦ rfl⟩ (hrefused.imp_right .inl)
    rw [fatClusterChainChecked, if_neg (by omega), fatClusterChain, if_pos hrefused]
  rw [← or_assoc, or_iff_right hrefused]
  have hres : fatClusterChain ty fat start maxCluster =
    fatChainLoop ty fat maxCluster chainGuard start := if_neg hrefused
  constructor
  · rintro ⟨res, hcall, hsome, hnone⟩
    rw [fatClusterChainChecked] at hcall
    split_ifs at hcall with htrap
    obtain rfl := hres.symm.trans (Option.some.inj hcall)
    by_contra hcond
    have hnot : ¬WalkDecided ty fat maxCluster chainGuard start := by
      intro hwalk
      have hstart := (walkDecided_succ.1 (hguard ▸ hwalk)).1.1
      exact hcond ⟨by omega, hwalk⟩
    obtain ⟨cs, hloop, hcs⟩ := fatChainLoop_of_not_decided hnot
    rcases eq_or_ne cs [] with rfl | hne
    · -- an empty list: the start itself is out of range, so there is no chain
      have hempty : ¬∃ cs, GenuineChain ty fat maxCluster start cs := by
        rintro ⟨cs', hc⟩
        rw [hguard, fatChainLoop, if_pos hc.toClusterChain.start_range] at hloop
        simp only at hloop
        split_ifs at hloop
        · simp at hloop
        · simp [Option.map_eq_some_iff] at hloop
      exact absurd (hloop.symm.trans (hnone hempty)) (Option.some_ne_none _)
    · exact hcs (hsome cs hloop hne).2
  · rintro ⟨hfit, hwalk⟩
    refine ⟨_, by rw [fatClusterChainChecked, if_neg (by omega), hres], fun cs hloop _ ↦ ?_, fun hno ↦ ?_⟩
    · have hc := fatChainLoop_of_decided hwalk hloop
      exact ⟨hc.linked.nodup, hc⟩
    · cases hloop : fatChainLoop ty fat maxCluster chainGuard start with
      | none => rfl
      | some cs => exact absurd ⟨cs, fatChainLoop_of_decided hwalk hloop⟩ hno

/-- A link out of the volume ends the walk like an end mark. -/
theorem fatClusterChain_leaves_volume : fatClusterChainChecked .fat16 [0, 0, 0, 0, 16, 0] 2 5 = some (some [2]) ∧
      ¬GenuineChain .fat16 [0, 0, 0, 0, 16, 0] 5 2 [2] := by
  refine ⟨by decide +kernel, fun hc ↦ ?_⟩
  have hcons := (genuineChain_cons.1 hc).2
  have hlink : fatNextCluster .fat16 [0, 0, 0, 0, 16, 0] 2 = 16 := by decide
  rw [hlink] at hcons
  rcases hcons with ⟨heoc, -⟩ | ⟨-, htail⟩
  · exact absurd heoc (by decide)
  · exact htail.linked.ne_nil rfl

/-! ### Free clusters -/

def freeClusters (vol : Volume) (link : ℕ → ℕ) : List ℕ :=
  (range' 2 (fatMaxCluster vol - 1)).filter fun c ↦ link c = 0

theorem mem_freeClusters {vol : Volume} {link : ℕ → ℕ} :
    c ∈ freeClusters vol link ↔ (2 ≤ c ∧ c ≤ fatMaxCluster vol) ∧ link c = 0 := by
  rw [freeClusters, mem_filter, mem_range'_1, decide_eq_true_eq]
  omega

theorem nodup_freeClusters (vol : Volume) (link : ℕ → ℕ) : (freeClusters vol link).Nodup :=
  List.Nodup.filter _ nodup_range'

/-- **The search for free clusters** takes the first ones, and fails only when there are too few. -/
theorem fatFindFreeClusters_eq (ty : FatType) (vol : Volume) (fat : Bytes) (count : ℕ) :
    fatFindFreeClusters ty vol fat count = if (freeClusters vol (fatNextCluster ty fat)).length < count then none
      else some ((freeClusters vol (fatNextCluster ty fat)).take count) := by
  unfold fatFindFreeClusters
  split
  · next hzero =>
    subst hzero
    rfl
  · next hpos =>
    simp only
    split
    · next hsmall =>
      have hempty : freeClusters vol (fatNextCluster ty fat) = [] := by
        rw [freeClusters, show fatMaxCluster vol - 1 = 0 by omega]
        rfl
      rw [hempty, if_pos (by rw [length_nil]; omega)]
    · show (if (List.take count (freeClusters vol (fatNextCluster ty fat))).length < count then none
          else some (List.take count (freeClusters vol (fatNextCluster ty fat)))) = _
      rw [length_take]
      split_ifs <;> first | rfl | omega

end CapazOS
