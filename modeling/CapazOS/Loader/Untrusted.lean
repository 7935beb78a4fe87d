import CapazOS.Loader.Lookup
import Mathlib.Data.Finset.Card

/-!
# The loader on any disk

What the loader does on a disk whose contents nobody vouches for. As long as no read fails its cache
of the table is exact (`FatCache.Exact`), and a chain is an iterate of one function, `tableNext`. A
lookup returns exactly when it need not search a directory whose chain goes in a circle
(`find_path_returns_iff`). A failed read leaves the cache with the number of one sector and the
bytes of another (`next_cluster_transparent_iff`).
-/

namespace CapazOS

open List

variable {read : BootRead} {vol : LoaderVolume} {part c : ℕ} {cache : FatCache}

/-! ### The table on the disk -/

/-- The entry of a cluster, and an end mark where it cannot be read. -/
def tableNext (read : BootRead) (vol : LoaderVolume) (c : ℕ) : ℕ :=
  match read (vol.fatStartLba + c * 2 / loaderSectorSize) with
  | none => 0xFFFF
  | some sector => readLE 2 sector (c * 2 % loaderSectorSize)

theorem tableNext_lt (read : BootRead) (vol : LoaderVolume) (c : ℕ) : tableNext read vol c < 2 ^ 16 := by
  rw [tableNext]
  split
  · decide
  · exact readLE_lt 2 _ _

/-- The cache is empty, or it holds a sector of the disk. -/
def FatCache.Exact (read : BootRead) (cache : FatCache) : Prop :=
  cache.lba = 2 ^ 64 - 1 ∨ read cache.lba = some cache.sector

theorem fat16Parse_geometry (h : fat16Parse read part = some vol) :
    vol.bytesPerSector = loaderSectorSize ∧ 0 < vol.sectorsPerCluster ∧ vol.fatStartLba < 2 ^ 32 := by
  rcases hread : read part with - | sector
  · simp [fat16Parse, hread] at h
  · obtain ⟨hspc, -, -, -, hbps, -, -, hfat, -⟩ := fat16Parse_cases hread h
    exact ⟨hbps, Nat.pos_of_ne_zero hspc, hfat ▸ Nat.mod_lt _ (by decide)⟩

theorem nextCluster_exact (hvol : vol.fatStartLba < 2 ^ 32) (hc : c < 2 ^ 16) (hcache : cache.Exact read) :
    ∃ cache', fat16NextCluster read vol c cache = (tableNext read vol c, cache') ∧ cache'.Exact read := by
  rw [fat16NextCluster]
  by_cases heq : vol.fatStartLba + c * 2 / loaderSectorSize = cache.lba
  · have hlba : vol.fatStartLba + c * 2 / loaderSectorSize < 2 ^ 64 - 1 := by
      rw [loaderSectorSize]
      omega
    have hread := hcache.resolve_left (by omega)
    exact ⟨cache, by rw [if_neg (not_not.2 heq), tableNext, heq, hread], hcache⟩
  · rw [if_pos heq, tableNext]
    rcases hread : read (vol.fatStartLba + c * 2 / loaderSectorSize) with - | sector
    · exact ⟨cache, rfl, hcache⟩
    · exact ⟨⟨_, sector⟩, rfl, .inr hread⟩

/-- The loader takes the number for that of a data cluster. -/
def IsData (c : ℕ) : Prop := ¬(c < 2 ∨ fat16IsEoc c = true)

instance (c : ℕ) : Decidable (IsData c) := inferInstanceAs (Decidable (¬_))

theorem isData_iff : IsData c ↔ 2 ≤ c ∧ !fat16IsEoc c := by
  rw [IsData, not_or, Nat.not_lt, Bool.not_eq_true, Bool.not_eq_true']

/-! ### Finding a path -/

/-- How the search in a directory ends at the cluster `n` links behind its first one. -/
def scanAt (read : BootRead) (vol : LoaderVolume) (target : Bytes) (c n : ℕ) : ScanOutcome :=
  if IsData ((tableNext read vol)^[n] c) then scanSectors read target
    ((range vol.sectorsPerCluster).map fun s ↦ fat16ClusterToLba vol ((tableNext read vol)^[n] c) + s)
  else .stop

/-- **A search without end**: the links lead from one cluster to the next, and none of them has the
name or the end of the directory. -/
def Endless (read : BootRead) (vol : LoaderVolume) (target : Bytes) (c : ℕ) : Prop :=
  ∀ n, scanAt read vol target c n = .next

def FindsIn (read : BootRead) (vol : LoaderVolume) (dir : ℕ) (target : Bytes) (e : LoaderDirent) : Prop :=
  if dir = 0 then fat16FindInRoot read vol target = some e
  else ∃ n, (∀ i < n, scanAt read vol target dir i = .next) ∧ scanAt read vol target dir n = .found e

/-- **No component of a path needs a search without end.** -/
def SearchesEnd (read : BootRead) (vol : LoaderVolume) : ℕ → List Bytes → Prop
  | _, [] => True
  | dir, component :: rest => ∀ target, componentName component = some target →
    (dir ≠ 0 → ¬Endless read vol target dir) ∧
    ∀ e, FindsIn read vol dir target e → rest ≠ [] → e.isDir = true → SearchesEnd read vol e.firstCluster rest

theorem forall_iterate_of_lt {f : ℕ → ℕ} {P : ℕ → Prop} {bound : ℕ} (hbound : ∀ c, P c → c < bound)
    (h : ∀ n < bound + 1, P (f^[n] c)) (n : ℕ) : P (f^[n] c) := by
  obtain ⟨i, hi, j, hj, hne, heq⟩ := Finset.exists_ne_map_eq_of_card_lt_of_maps_to
    (s := Finset.range (bound + 1)) (t := Finset.range bound) (by simp)
    (f := fun n ↦ f^[n] c) fun n hn ↦ by simpa using hbound _ (h n (by simpa using hn))
  wlog hlt : i < j generalizing i j
  · exact this j hj i hi hne.symm heq.symm (by omega)
  rw [Finset.mem_range] at hi hj
  induction n using Nat.strong_induction_on with
  | _ n ih =>
    rcases Nat.lt_or_ge n j with hn | hn
    · exact h n (by omega)
    · have hback : f^[n] c = f^[n - j + i] c := by
        rw [Function.iterate_add_apply]
        rw [heq, ← Function.iterate_add_apply, Nat.sub_add_cancel hn]
      rw [hback]
      exact ih _ (by omega)

theorem firstCluster_lt_of_scan {target : Bytes} {e : LoaderDirent} {lbas : List ℕ}
    (h : scanSectors read target lbas = .found e) : e.firstCluster < 2 ^ 16 := by
  have hslots : ∀ {slots}, scanForName target slots = .found e → e.firstCluster < 2 ^ 16 := by
    intro slots hfound
    induction slots with
    | nil => cases hfound
    | cons slot rest ih =>
      simp only [scanForName] at hfound
      split_ifs at hfound
      · exact ih hfound
      · exact ih hfound
      · exact ih hfound
      · obtain rfl := ScanOutcome.found.inj hfound
        exact readLE_lt 2 _ _
      · exact ih hfound
  induction lbas with
  | nil => cases h
  | cons lba rest ih =>
    unfold scanSectors at h
    split at h
    · cases h
    · split at h
      · exact ih h
      · exact hslots h

section

variable (hvol : vol.fatStartLba < 2 ^ 32)
include hvol

/-- **What a walk does**: it ends at the first cluster that it does not pass over, if it gets that
far. -/
theorem dirWalk_cases (target : Bytes) (steps : ℕ) (hc : c < 2 ^ 16) (hcache : cache.Exact read) :
    (∀ n < steps, scanAt read vol target c n = .next) ∧ fat16DirWalk read vol target steps c cache = none ∨
      ∃ n cache', (∀ i < n, scanAt read vol target c i = .next) ∧ scanAt read vol target c n ≠ .next ∧
        cache'.Exact read ∧
        fat16DirWalk read vol target steps c cache = some ((scanAt read vol target c n).dirent?, cache') := by
  induction steps generalizing c cache with
  | zero => exact .inl ⟨by simp, rfl⟩
  | succ steps ih =>
    obtain ⟨cache₁, hnext, hcache₁⟩ := nextCluster_exact hvol hc hcache
    have hzero : scanAt read vol target c 0 = if IsData c then scanSectors read target
        ((range vol.sectorsPerCluster).map fun s ↦ fat16ClusterToLba vol c + s) else .stop := rfl
    rw [fat16DirWalk, hnext]
    by_cases hdata : IsData c
    · rw [if_pos hdata] at hzero
      rw [if_pos (isData_iff.1 hdata)]
      simp only [← hzero]
      cases hscan : scanAt read vol target c 0
      case next =>
        have hcons : ∀ {m}, (∀ i < m, scanAt read vol target (tableNext read vol c) i = .next) →
            ∀ i < m + 1, scanAt read vol target c i = .next := by
          intro m hall i hi
          cases i with
          | zero => exact hscan
          | succ i => exact hall i (Nat.lt_of_succ_lt_succ hi)
        obtain ⟨hall, hnone⟩ | ⟨n, cache', hall, hend, hcache', hsome⟩ := ih (tableNext_lt read vol c) hcache₁
        · exact .inl ⟨hcons hall, hnone⟩
        · exact .inr ⟨n + 1, cache', hcons hall, hend, hcache', hsome⟩
      all_goals exact .inr ⟨0, cache, by simp, by simp [hscan], hcache, by rw [hscan]; rfl⟩
    · rw [if_neg hdata] at hzero
      rw [if_neg (mt isData_iff.2 hdata)]
      exact .inr ⟨0, cache, by simp, by simp [hzero], hcache, by rw [hzero]; rfl⟩

/-- **What the lookup of a component does.** As many steps as there are cluster numbers are
enough. -/
theorem findInDir_cases (target : Bytes) (hc : c < 2 ^ 16) (hcache : cache.Exact read) :
    c ≠ 0 ∧ Endless read vol target c ∧ fat16FindInDir read vol c target cache = none ∨
      ∃ found cache', (c ≠ 0 → ¬Endless read vol target c) ∧ cache'.Exact read ∧
        (∀ e, FindsIn read vol c target e ↔ found = some e) ∧ (∀ e, found = some e → e.firstCluster < 2 ^ 16) ∧
        fat16FindInDir read vol c target cache = some (found, cache') := by
  unfold fat16FindInDir FindsIn
  split_ifs with hzero
  · refine .inr ⟨_, cache, fun hne ↦ absurd hzero hne, hcache, fun e ↦ Iff.rfl, fun e hfound ↦ ?_, rfl⟩
    simp only [fat16FindInRoot] at hfound
    split at hfound
    · next hscan =>
      obtain rfl := Option.some.inj hfound
      exact firstCluster_lt_of_scan hscan
    · cases hfound
  obtain ⟨hall, hnone⟩ | ⟨n, cache', hall, hend, hcache', hsome⟩ := dirWalk_cases hvol target dirSteps hc hcache
  · refine .inl ⟨hzero, fun n ↦ ?_, hnone⟩
    refine forall_iterate_of_lt (P := fun c ↦ scanAt read vol target c 0 = .next) (fun c hpass ↦ (?_ : c < 0xFFF8))
      (fun n hn ↦ hall n (hn.trans_le (by unfold dirSteps; decide))) n
    by_contra hge
    rw [scanAt, if_neg fun hdata ↦ hdata (.inr (decide_eq_true (Nat.le_of_not_lt hge)))] at hpass
    cases hpass
  · have hfound : ∀ e, (scanAt read vol target c n).dirent? = some e → scanAt read vol target c n = .found e := by
      intro e hsome
      cases hscan : scanAt read vol target c n <;> rw [hscan] at hsome
      · exact congrArg _ (Option.some.inj hsome)
      all_goals cases hsome
    refine .inr ⟨_, cache', fun _ hendless ↦ hend (hendless n), hcache', fun e ↦
      ⟨?_, fun hsome ↦ ⟨n, hall, hfound e hsome⟩⟩, fun e hsome ↦ ?_, hsome⟩
    · rintro ⟨m, hall', hfound'⟩
      obtain rfl : n = m := by
        rcases Nat.lt_trichotomy n m with hlt | heq | hlt
        · exact absurd (hall' n hlt) hend
        · exact heq
        · cases (hall m hlt).symm.trans hfound'
      rw [hfound']
      rfl
    · have hscan := hfound e hsome
      rw [scanAt] at hscan
      split at hscan
      · exact firstCluster_lt_of_scan hscan
      · cases hscan

theorem findComponents_returns (hc : c < 2 ^ 16) (hcache : cache.Exact read) (components : List Bytes) :
    (fat16FindComponents read vol c components cache).isSome ↔ SearchesEnd read vol c components := by
  induction components generalizing c cache with
  | nil => simp [fat16FindComponents, SearchesEnd]
  | cons component rest ih =>
    rw [fat16FindComponents, SearchesEnd]
    rcases hname : componentName component with - | target
    · simp
    simp only [Option.some.injEq, forall_eq']
    obtain ⟨hzero, hendless, hnone⟩ | ⟨found, cache', hends, hcache', hfinds, hlt, hsome⟩ :=
      findInDir_cases hvol target hc hcache
    · simp [hnone, hzero, hendless]
    · rw [hsome, and_iff_right hends]
      simp only [hfinds]
      rcases found with - | e
      · simp
      simp only [Option.some.injEq, forall_eq']
      by_cases hrest : rest = []
      · simp [hrest]
      by_cases hdir : e.isDir = true
      · rw [if_neg hrest, if_neg (by simp [hdir]), ih (hlt e rfl) hcache']
        simp [hrest, hdir]
      · simp [hrest, hdir]

end

/-- **Which lookups return**: those that need no search without end. -/
theorem find_path_returns_iff (hparse : fat16Parse read part = some vol) (hcache : cache.Exact read) (path : Bytes) :
    (fat16FindPath read vol path cache).isSome ↔ SearchesEnd read vol 0 (pathComponents path) :=
  findComponents_returns (fat16Parse_geometry hparse).2.2 (by decide) hcache (pathComponents path)

/-- A sector of deleted slots; as a part of the table it links each cluster to 0xE5E5. -/
def deletedSector : Bytes := replicate loaderSectorSize 0xE5

/-- A FAT16 volume whose chains all go in a circle, with a given root directory. -/
def circleDisk (root : Bytes) (lba : ℕ) : Option Bytes :=
  if lba = 0 then
    some (replicate 11 0 ++ [0, 2, 1, 1, 0, 1, 16, 0, 100, 0, 0, 1, 0] ++ replicate 486 0 ++ [0x55, 0xAA])
  else if lba = 2 then some root
  else some deletedSector

def circleVolume : LoaderVolume where
  partLba := 0
  bytesPerSector := 512
  sectorsPerCluster := 1
  reservedSectors := 1
  numFats := 1
  rootEntryCount := 16
  sectorsPerFat := 1
  totalSectors := 100
  fatStartLba := 1
  rootDirLba := 2
  rootDirSectors := 1
  dataStartLba := 3

theorem fat16Parse_circleDisk (root : Bytes) : fat16Parse (circleDisk root) 0 = some circleVolume := by
  rw [fat16Parse, circleDisk, if_pos rfl]
  decide +kernel

/-- A root with a directory `D` at cluster 0xE5E5. -/
def circleRoot : Bytes := 0x44 :: replicate 10 0x20 ++ [0x10] ++ replicate 500 0xE5

/-- A volume with a directory `D` at cluster 2, which is empty. -/
def emptyDirDisk (lba : ℕ) : Option Bytes :=
  if lba = 3 then some (replicate loaderSectorSize 0)
  else circleDisk (0x44 :: replicate 10 0x20 ++ 0x10 :: replicate 14 0 ++ 2 :: replicate 485 0) lba

theorem find_path_returns_d : fat16Parse emptyDirDisk 0 = some circleVolume ∧
    SearchesEnd emptyDirDisk circleVolume 0 (pathComponents [0x2F, 0x44, 0x2F, 0x58]) := by
  have hparse : fat16Parse emptyDirDisk 0 = some circleVolume := by decide +kernel
  have hreturns : (fat16FindPath emptyDirDisk circleVolume [0x2F, 0x44, 0x2F, 0x58] .initial).isSome := by decide +kernel
  exact ⟨hparse, (find_path_returns_iff hparse (.inl rfl) _).1 hreturns⟩

theorem find_path_circles : fat16Parse (circleDisk circleRoot) 0 = some circleVolume ∧
    (∀ lba, (circleDisk circleRoot lba).isSome) ∧
      Endless (circleDisk circleRoot) circleVolume (0x58 :: replicate 10 0x20) 0xE5E5 ∧
      (fat16FindPath (circleDisk circleRoot) circleVolume [0x2F, 0x44, 0x2F, 0x58] FatCache.initial).isSome = false := by
  have hpath : pathComponents [0x2F, 0x44, 0x2F, 0x58] = [[0x44], [0x58]] := by decide
  have hroot : FindsIn (circleDisk circleRoot) circleVolume 0 (0x44 :: replicate 10 0x20)
      ⟨0x44 :: replicate 10 0x20, 0x10, 0xE5E5, 0xE5E5E5E5⟩ := by
    rw [FindsIn, if_pos rfl]
    decide +kernel
  have hendless : Endless (circleDisk circleRoot) circleVolume (0x58 :: replicate 10 0x20) 0xE5E5 := fun n ↦ by
    have hlbas : ((range circleVolume.sectorsPerCluster).map fun s ↦
        fat16ClusterToLba circleVolume 0xE5E5 + s) = [58854] := by decide
    have hread : circleDisk circleRoot 58854 = some deletedSector := by decide +kernel
    have hslots : slotsOf deletedSector = replicate 16 (replicate 32 0xE5) := by decide +kernel
    rw [scanAt, Function.iterate_fixed (by decide +kernel), if_pos (by decide), hlbas, scanSectors, hread]
    simp only [hslots, replicate_succ, replicate_zero]
    rfl
  refine ⟨fat16Parse_circleDisk _, fun lba ↦ by unfold circleDisk; split_ifs <;> rfl, hendless, ?_⟩
  rw [fat16FindPath, hpath, ← Bool.not_eq_true, findComponents_returns (by decide) (by decide) (.inl rfl)]
  intro hends
  obtain ⟨-, hrest⟩ := hends (0x44 :: replicate 10 0x20) (by decide)
  exact (hrest _ hroot (by decide) (by decide) (0x58 :: replicate 10 0x20) (by decide)).1 (by decide) hendless

/-! ### The cache when reads fail -/

section

variable {disk : ℕ → Bytes}

def LoaderVolume.fatLba (vol : LoaderVolume) (cluster : ℕ) : ℕ :=
  vol.fatStartLba + cluster * 2 / loaderSectorSize

/-- `fat16_next_cluster`, with what a read leaves in the buffer: the sector, or any bytes when it
fails. The buffer is that of the cache. -/
def fat16NextClusterRead (vol : LoaderVolume) (cluster : ℕ) (answer : Except Bytes Bytes) (cache : FatCache) :
    ℕ × FatCache :=
  if vol.fatLba cluster ≠ cache.lba then
    match answer with
    | .error left => (0xFFFF, ⟨cache.lba, left⟩)
    | .ok sector => (readLE 2 sector (cluster * 2 % loaderSectorSize), ⟨vol.fatLba cluster, sector⟩)
  else (readLE 2 cache.sector (cluster * 2 % loaderSectorSize), cache)

theorem fat16NextCluster_eq (read : BootRead) (vol : LoaderVolume) (c : ℕ) (cache : FatCache) :
    fat16NextCluster read vol c cache = fat16NextClusterRead vol c
      (match read (vol.fatLba c) with | none => .error cache.sector | some sector => .ok sector) cache := by
  rw [fat16NextCluster, fat16NextClusterRead.eq_def, LoaderVolume.fatLba]
  by_cases hmiss : vol.fatStartLba + c * 2 / loaderSectorSize ≠ cache.lba
  · rw [if_pos hmiss, if_pos hmiss]
    cases read (vol.fatStartLba + c * 2 / loaderSectorSize) <;> rfl
  · rw [if_neg hmiss, if_neg hmiss]

/-- A call, and what the read leaves in the buffer if it is one that fails. -/
structure FatCall where
  cluster : ℕ
  fails : Option Bytes

/-- The answer of the disk to the read of a call. -/
def FatCall.answer (call : FatCall) (vol : LoaderVolume) (disk : ℕ → Bytes) : Except Bytes Bytes :=
  match call.fails with
  | none => .ok (disk (vol.fatLba call.cluster))
  | some left => .error left

def storedEntry (vol : LoaderVolume) (disk : ℕ → Bytes) (cluster : ℕ) : ℕ :=
  readLE 2 (disk (vol.fatLba cluster)) (cluster * 2 % loaderSectorSize)

/-- **The cache is transparent** along a list of calls: each returns the stored entry, or 0xFFFF
when it had to read and the read failed. -/
def Transparent (vol : LoaderVolume) (disk : ℕ → Bytes) : List FatCall → FatCache → Prop
  | [], _ => True
  | call :: calls, cache =>
    (fat16NextClusterRead vol call.cluster (call.answer vol disk) cache).1 =
        (if vol.fatLba call.cluster ≠ cache.lba ∧ call.fails.isSome then 0xFFFF
        else storedEntry vol disk call.cluster) ∧
      Transparent vol disk calls (fat16NextClusterRead vol call.cluster (call.answer vol disk) cache).2

/-- **No entry is taken from the bytes of a failed read**, after a history in which `last` was the
last sector to be read, with the bytes that a failed read of another sector has left since: when
that sector is asked for again, those bytes happen to hold the entry. -/
def Unspoiled (vol : LoaderVolume) (disk : ℕ → Bytes) : Option (ℕ × Option Bytes) → List FatCall → Prop
  | _, [] => True
  | last, call :: calls =>
    (∀ left, last = some (vol.fatLba call.cluster, some left) →
        readLE 2 left (call.cluster * 2 % loaderSectorSize) = storedEntry vol disk call.cluster) ∧
      Unspoiled vol disk (if last.map Prod.fst = some (vol.fatLba call.cluster) then last
        else match call.fails with
          | none => some (vol.fatLba call.cluster, none)
          | some left => last.map fun l ↦ (l.1, some left)) calls

def FatCache.After (disk : ℕ → Bytes) (cache : FatCache) : Option (ℕ × Option Bytes) → Prop
  | none => cache.lba = 2 ^ 64 - 1
  | some (lba, left) => cache.lba = lba ∧ cache.sector = left.getD (disk lba)

theorem transparent_iff (hvol : vol.fatStartLba < 2 ^ 32) {calls : List FatCall} {last : Option (ℕ × Option Bytes)}
    (hcalls : ∀ call ∈ calls, call.cluster < 2 ^ 16) (hcache : cache.After disk last) :
    Transparent vol disk calls cache ↔ Unspoiled vol disk last calls := by
  induction calls generalizing cache last with
  | nil => exact Iff.rfl
  | cons call calls ih =>
    obtain ⟨hcall, hcalls⟩ := forall_mem_cons.1 hcalls
    have hlba : vol.fatLba call.cluster < 2 ^ 64 - 1 := by
      rw [LoaderVolume.fatLba, loaderSectorSize]
      omega
    rw [Transparent, Unspoiled, fat16NextClusterRead.eq_def]
    by_cases hhit : last.map Prod.fst = some (vol.fatLba call.cluster)
    · -- the buffer answers
      obtain ⟨⟨lba, left⟩, rfl, rfl : lba = _⟩ := Option.map_eq_some_iff.1 hhit
      obtain ⟨htag, hsector⟩ := hcache
      rw [if_pos hhit, if_neg (not_not.2 htag.symm), if_neg fun hread ↦ hread.1 htag.symm, hsector]
      refine and_congr ?_ (ih hcalls ⟨htag, hsector⟩)
      cases left <;> simp [storedEntry]
    · -- the call reads
      have hmiss : vol.fatLba call.cluster ≠ cache.lba := by
        rcases last with - | ⟨lba, left⟩
        · exact (hcache ▸ hlba).ne
        · exact fun heq ↦ hhit (congrArg some (hcache.1.symm.trans heq.symm))
      have hold : ∀ left, last ≠ some (vol.fatLba call.cluster, some left) := fun left hlast ↦ hhit (by rw [hlast]; rfl)
      rw [if_neg hhit, if_pos hmiss, FatCall.answer]
      rcases call.fails with - | left
      · have hafter : (⟨vol.fatLba call.cluster, disk (vol.fatLba call.cluster)⟩ : FatCache).After disk
            (some (vol.fatLba call.cluster, none)) := ⟨rfl, rfl⟩
        simp [storedEntry, hold, ih hcalls hafter]
      · have hafter : (⟨cache.lba, left⟩ : FatCache).After disk (last.map fun l ↦ (l.1, some left)) := by
          rcases last with - | ⟨lba, old⟩
          · exact hcache
          · exact ⟨hcache.1, rfl⟩
        simp [hmiss, hold, ih hcalls hafter]

/-- **When the cache is transparent**: exactly when no entry is taken from the bytes of a failed
read. -/
theorem next_cluster_transparent_iff (hvol : vol.fatStartLba < 2 ^ 32) (disk : ℕ → Bytes) {calls : List FatCall}
    (hcalls : ∀ call ∈ calls, call.cluster < 2 ^ 16) :
    Transparent vol disk calls FatCache.initial ↔ Unspoiled vol disk none calls := transparent_iff hvol hcalls rfl

/-- A read of another sector fails and leaves zeros, but both sectors are read again before they are
used. -/
theorem next_cluster_transparent_one :
    Transparent circleVolume (fun _ ↦ deletedSector)
      [⟨2, none⟩, ⟨256, some (replicate 512 0)⟩, ⟨256, none⟩, ⟨2, none⟩] FatCache.initial := by
  have hcalls : ∀ call ∈ [⟨2, none⟩, ⟨256, some (replicate 512 0)⟩, ⟨256, none⟩, (⟨2, none⟩ : FatCall)],
      call.cluster < 2 ^ 16 := by decide
  -- no sector is asked for while the buffer holds the bytes of a failed read
  have hother : ∀ {a b : ℕ} {l l' : Option Bytes}, a ≠ b → some (a, l) ≠ some (b, l') :=
    fun hne h ↦ hne (Prod.mk.inj (Option.some.inj h)).1
  refine (next_cluster_transparent_iff (by decide) _ hcalls).2 ⟨nofun, fun left h ↦ ?_, fun left h ↦ ?_,
    fun left h ↦ ?_, trivial⟩
  · exact absurd h (hother (by decide : 1 ≠ 2))
  · exact absurd h (hother (by decide : 1 ≠ 2))
  · exact absurd h (hother (by decide : 2 ≠ 1))

/-- A failed read leaves zeros, and the entry of cluster 2 then comes from them. -/
theorem next_cluster_spoiled :
    ¬Transparent circleVolume (fun _ ↦ deletedSector) [⟨2, none⟩, ⟨256, some (replicate 512 0)⟩, ⟨2, none⟩]
      FatCache.initial := by
  rintro ⟨-, -, hentry, -⟩
  revert hentry
  decide +kernel

end

end CapazOS
