import CapazOS.Fat.Lookup32
import CapazOS.Fat.Delete16

/-!
# Reading from a damaged table

What the two read functions do when the chain gives out before the size of the entry is reached, for
**any** disk. `chainRun` is the chain as the table has it. A read that returns is complete exactly
when the table leads through enough clusters (`read_complete_iff`); otherwise the functions return
**what there was**.
-/

namespace CapazOS

open List

variable {ss n c size : ℕ} {ty : FatType} {cs : List ℕ} {out fat : Bytes} {entry : FatDirEntry}
  {vol : Volume} {block : BlockDevice ss} {d : Disk ss}

/-! ### The chain in the table -/

/-- The chain from cluster `c` on, as the table has it, at most `n` clusters long. It ends before a
cluster that is not one of the volume's and after one whose entry is a bad or an end mark. -/
def chainRun (ty : FatType) (vol : Volume) (fat : Bytes) : ℕ → ℕ → List ℕ
  | 0, _ => []
  | n + 1, c =>
    if 2 ≤ c ∧ c ≤ fatMaxCluster vol then
      c :: if fatNextCluster ty fat c = fatBadCluster ty ∨ fatEocThreshold ty ≤ fatNextCluster ty fat c then []
        else chainRun ty vol fat n (fatNextCluster ty fat c)
    else []

def neededClusters (vol : Volume) (size : ℕ) : ℕ := (size + clusterSize vol - 1) / clusterSize vol

theorem chainRun_of_range (hc : 2 ≤ c ∧ c ≤ fatMaxCluster vol) :
    chainRun ty vol fat (n + 1) c = c :: if fatNextCluster ty fat c = fatBadCluster ty ∨
      fatEocThreshold ty ≤ fatNextCluster ty fat c then []
    else chainRun ty vol fat n (fatNextCluster ty fat c) := by
  rw [chainRun, if_pos hc]

theorem chainRun_of_not_range (hc : ¬(2 ≤ c ∧ c ≤ fatMaxCluster vol)) : chainRun ty vol fat n c = [] := by
  cases n with
  | zero => rfl
  | succ n => rw [chainRun, if_neg hc]

theorem length_chainRun_le (n c : ℕ) : (chainRun ty vol fat n c).length ≤ n := by
  induction n generalizing c with
  | zero => exact Nat.le_refl 0
  | succ n ih =>
    by_cases hc : 2 ≤ c ∧ c ≤ fatMaxCluster vol
    · rw [chainRun_of_range hc, length_cons]
      split
      · exact Nat.succ_le_succ (Nat.zero_le n)
      · exact Nat.succ_le_succ (ih _)
    · rw [chainRun_of_not_range hc]
      exact Nat.zero_le _

theorem two_le_of_mem_chainRun {x : ℕ} (hx : x ∈ chainRun ty vol fat n c) : 2 ≤ x := by
  induction n generalizing c with
  | zero => cases hx
  | succ n ih =>
    by_cases hc : 2 ≤ c ∧ c ≤ fatMaxCluster vol
    · rw [chainRun_of_range hc] at hx
      rcases mem_cons.1 hx with rfl | hx
      · exact hc.1
      · split at hx
        · cases hx
        · exact ih hx
    · rw [chainRun_of_not_range hc] at hx
      cases hx

theorem take_chainRun (m n c : ℕ) : (chainRun ty vol fat n c).take m = chainRun ty vol fat (min m n) c := by
  induction n generalizing m c with
  | zero => rw [Nat.min_zero, chainRun, take_nil]
  | succ n ih =>
    cases m with
    | zero => rw [Nat.zero_min, chainRun, take_zero]
    | succ m =>
      rw [Nat.succ_min_succ]
      by_cases hc : 2 ≤ c ∧ c ≤ fatMaxCluster vol
      · rw [chainRun_of_range hc, chainRun_of_range hc, take_succ_cons]
        split
        · rw [take_nil]
        · rw [ih]
      · rw [chainRun_of_not_range hc, chainRun_of_not_range hc, take_nil]

theorem neededClusters_zero (vol : Volume) : neededClusters vol 0 = 0 := by
  rw [neededClusters, Nat.zero_add]
  rcases Nat.eq_zero_or_pos (clusterSize vol) with hzero | hpos
  · rw [hzero, Nat.zero_sub, Nat.zero_div]
  · exact Nat.div_eq_of_lt (by omega)

theorem neededClusters_pos (hcs : 0 < clusterSize vol) (hsize : 0 < size) :
    neededClusters vol size = neededClusters vol (size - clusterSize vol) + 1 := by
  unfold neededClusters
  rcases Nat.le_total size (clusterSize vol) with hle | hge
  · rw [Nat.sub_eq_zero_of_le hle, Nat.zero_add, Nat.div_eq_of_lt (Nat.sub_lt hcs one_pos),
      show size + clusterSize vol - 1 = size - 1 + clusterSize vol by omega,
      Nat.add_div_right _ hcs, Nat.div_eq_of_lt (by omega)]
  · rw [show size + clusterSize vol - 1 = size - clusterSize vol + clusterSize vol - 1 + clusterSize vol by omega,
      Nat.add_div_right _ hcs]

theorem neededClusters_le_iff (hcs : 0 < clusterSize vol) :
    neededClusters vol size ≤ n ↔ size ≤ n * clusterSize vol := by
  rw [neededClusters, Nat.div_le_iff_le_mul_add_pred hcs, Nat.mul_comm]
  omega

/-! ### The walks of the source -/

theorem fatChainLoop_run {left : ℕ} (h : fatChainLoop ty fat (fatMaxCluster vol) left c = some cs) :
    cs = chainRun ty vol fat left c := by
  induction left generalizing c cs with
  | zero => exact (Option.some.inj h).symm
  | succ left ih =>
    rw [fatChainLoop] at h
    split at h
    · next hc =>
      rw [chainRun_of_range hc]
      simp only at h
      split at h
      · cases h
      next hbad =>
      split at h
      · next heoc =>
        rw [if_pos (.inr heoc)]
        exact (Option.some.inj h).symm
      next heoc =>
      split at h
      · cases h
      obtain ⟨rest, hrest, rfl⟩ := Option.map_eq_some_iff.1 h
      rw [if_neg (by tauto), ih hrest]
    · next hc =>
      rw [chainRun_of_not_range hc]
      exact (Option.some.inj h).symm

theorem fat16ReadLoop_contents (hm : Mountable .fat16 block vol) (hcs : ∀ c ∈ cs, 2 ≤ c) {remaining : ℕ}
    (h : fat16ReadLoop block vol d cs remaining = some out) : out = contents (view vol d) cs remaining := by
  induction cs generalizing remaining out with
  | nil =>
    obtain rfl := Option.some.inj h
    rw [contents, flatMap_nil, take_nil]
  | cons c cs ih =>
    obtain ⟨hc, hrest⟩ := forall_mem_cons.1 hcs
    rw [fat16ReadLoop] at h
    split at h
    · next hzero =>
      obtain rfl := Option.some.inj h
      rw [contents, hzero, take_zero]
    split at h
    · cases h
    next data hread =>
    have hdata : data = (view vol d).cluster c := by
      rw [view_cluster vol d hc]
      unfold readFat16Cluster BlockDevice.read at hread
      have hspc := hm.bounds.2.1
      rw [if_neg (by omega), if_neg (by omega)] at hread
      split at hread
      · cases hread
      · exact (Option.some.inj hread).symm
    have hlen := length_view_cluster hm d hc
    have hpos := hm.clusterSize_pos
    subst hdata
    rw [if_neg (by intro hnil; rw [hnil] at hlen; simp at hlen; omega)] at h
    obtain ⟨rest, hloop, rfl⟩ := Option.map_eq_some_iff.1 h
    have hsub : remaining - min remaining ((view vol d).cluster c).length =
        remaining - ((view vol d).cluster c).length := by omega
    rw [ih hrest hloop, hsub, contents, contents, flatMap_cons, take_append, ← take_eq_take_min]

theorem fat32ReadLoop_run (hm : Mountable .fat32 block vol) {left remaining : ℕ}
    (h : fat32ReadLoop block vol d fat left c remaining = some out) :
    out = (chainRun .fat32 vol fat (min left (neededClusters vol remaining)) c).flatMap (view vol d).cluster := by
  induction left generalizing c remaining out with
  | zero =>
    exact (Option.some.inj h).symm
  | succ left ih =>
    rw [fat32ReadLoop] at h
    split at h
    · next hstop =>
      obtain rfl := Option.some.inj h
      rcases hstop with hlow | rfl
      · rw [chainRun_of_not_range (by omega), flatMap_nil]
      · rw [neededClusters_zero, Nat.min_zero, chainRun, flatMap_nil]
    next hgo =>
    split at h
    · cases h
    next data hread =>
    obtain ⟨hc, hdata⟩ : (2 ≤ c ∧ c ≤ fatMaxCluster vol) ∧ data = (view vol d).cluster c := by
      have hspc := hm.bounds.2.1
      unfold readCluster BlockDevice.read at hread
      split at hread
      · cases hread
      next hrange =>
      rw [view_cluster vol d (by omega)]
      split at hread
      · cases hread
      rw [if_neg (by omega)] at hread
      exact ⟨by omega, (Option.some.inj hread).symm⟩
    subst hdata
    rw [neededClusters_pos hm.clusterSize_pos (by omega), Nat.succ_min_succ, chainRun_of_range hc, flatMap_cons]
    have hstops : fat32Stops (fatNextCluster .fat32 fat c) = true ↔ fatNextCluster .fat32 fat c = fatBadCluster .fat32 ∨
          fatEocThreshold .fat32 ≤ fatNextCluster .fat32 fat c := by
      rw [fat32Stops, decide_eq_true_eq, or_comm]
      rfl
    simp only at h
    split at h
    · next hstop =>
      rw [if_pos (hstops.1 hstop), flatMap_nil, append_nil]
      exact (Option.some.inj h).symm
    · next hstop =>
      obtain ⟨rest, hloop, rfl⟩ := Option.map_eq_some_iff.1 h
      rw [if_neg (fun hor ↦ hstop (hstops.2 hor)), ih hloop]

/-! ### Complete reads -/

/-- **A complete read**: as many bytes as the entry says, and they are those of the chain. -/
def CompleteRead (ty : FatType) (vol : Volume) (d : Disk ss) (fat : Bytes) (entry : FatDirEntry)
    (out : Bytes) : Prop :=
  out.length = entry.fileSize ∧ out = contents (view vol d)
      (chainRun ty vol fat (neededClusters vol entry.fileSize) entry.firstCluster) entry.fileSize

/-- The table leads through as many clusters of the volume as the size of the entry takes, and these
are not more than the guard of the walks. -/
def ChainCovers (ty : FatType) (vol : Volume) (fat : Bytes) (entry : FatDirEntry) : Prop :=
  neededClusters vol entry.fileSize ≤ chainGuard ∧
    (chainRun ty vol fat (neededClusters vol entry.fileSize) entry.firstCluster).length =
      neededClusters vol entry.fileSize

instance (ty : FatType) (vol : Volume) (fat : Bytes) (entry : FatDirEntry) :
    Decidable (ChainCovers ty vol fat entry) := inferInstanceAs (Decidable (_ ∧ _))

theorem contents_take (hm : Mountable ty block vol) (hcs : ∀ c ∈ cs, 2 ≤ c) (hn : size ≤ n * clusterSize vol) :
    contents (view vol d) (cs.take n) size = contents (view vol d) cs size := by
  conv_rhs => rw [← take_append_drop n cs]
  rw [contents, contents, flatMap_append, take_append]
  rcases Nat.le_total cs.length n with hle | hge
  · rw [drop_of_length_le hle, flatMap_nil, take_nil, append_nil]
  · rw [length_flatMap_cluster hm d fun c hc ↦ hcs c (mem_of_mem_take hc),
      length_take_of_le hge, Nat.sub_eq_zero_of_le hn, take_zero, append_nil]

/-- A read that copied the chain up to the guard of the walks is complete exactly when the chain
covers the file. -/
theorem complete_iff_covers (hm : Mountable ty block vol)
    (h : out = contents (view vol d) (chainRun ty vol fat chainGuard entry.firstCluster) entry.fileSize) :
    CompleteRead ty vol d fat entry out ↔ ChainCovers ty vol fat entry := by
  have hcs := hm.clusterSize_pos
  set n := neededClusters vol entry.fileSize with hn
  have hmem : ∀ {k : ℕ}, ∀ c ∈ chainRun ty vol fat k entry.firstCluster, 2 ≤ c := fun c hc ↦ two_le_of_mem_chainRun hc
  have hshort : out = contents (view vol d)
      (chainRun ty vol fat (min n chainGuard) entry.firstCluster) entry.fileSize := by
    rw [h, ← take_chainRun, contents_take hm hmem ((neededClusters_le_iff hcs).1 (Nat.le_refl n))]
  have hlen := congrArg List.length hshort
  rw [contents, length_take, length_flatMap_cluster hm d hmem] at hlen
  have hle : (chainRun ty vol fat (min n chainGuard) entry.firstCluster).length ≤
    min n chainGuard := length_chainRun_le _ _
  constructor
  · rintro ⟨hfull, -⟩
    have hroom : entry.fileSize ≤
        (chainRun ty vol fat (min n chainGuard) entry.firstCluster).length * clusterSize vol := by
      omega
    have hneed := (neededClusters_le_iff hcs).2 hroom
    have hguard : min n chainGuard = n := by omega
    rw [hguard] at hneed hle
    exact ⟨by omega, Nat.le_antisymm hle hneed⟩
  · rintro ⟨hguard, hcount⟩
    rw [Nat.min_eq_left hguard] at hshort hlen
    rw [hcount, Nat.min_eq_left ((neededClusters_le_iff hcs).1 (Nat.le_refl n))] at hlen
    exact ⟨hlen, hshort⟩

/-! ### The read functions -/

def fatReadFile (ty : FatType) (block : BlockDevice ss) (env : CapEnv) (task : TaskContext)
    (path : NormalizedPath) (dev : Dev ss) : Checked (Option Bytes × Dev ss) :=
  match ty with
  | .fat16 => fat16ReadFile block path dev
  | .fat32 => (fat32ReadFileData block env task path dev).map fun r ↦ (r.1.toOption, r.2)

/-- The entry a path leads to, by the lookup of the format. -/
def fatResolve (ty : FatType) (block : BlockDevice ss) (vol : Volume) (d : Disk ss) (fat : Bytes)
    (path : NormalizedPath) : Option FatDirEntry :=
  match ty with
  | .fat16 => resolveFat16PathEntry block vol d fat path
  | .fat32 => (resolvePathEntryLocation block vol d fat path).map Prod.fst

theorem fat16ReadEntry_contents (hm : Mountable .fat16 block vol)
    (h : fat16ReadEntry block vol d fat entry = some out) :
    out = contents (view vol d) (chainRun .fat16 vol fat chainGuard entry.firstCluster)
      entry.fileSize := by
  unfold fat16ReadEntry at h
  split at h
  · cases h
  split at h
  · cases h
  split at h
  · next hzero =>
    obtain rfl := Option.some.inj h
    rw [contents, hzero, take_zero]
  obtain ⟨chain, hchain, hloop⟩ := Option.bind_eq_some_iff.1 h
  unfold fatClusterChain at hchain
  split at hchain
  · cases hchain
  obtain rfl := fatChainLoop_run hchain
  exact fat16ReadLoop_contents hm (fun c hc ↦ two_le_of_mem_chainRun hc) hloop

theorem fat32ReadEntry_contents (hm : Mountable .fat32 block vol) (h : fat32ReadEntry block vol d fat entry = .ok out) :
    out = contents (view vol d) (chainRun .fat32 vol fat chainGuard entry.firstCluster)
      entry.fileSize := by
  unfold fat32ReadEntry at h
  split at h
  · cases h
  split at h
  · next hzero =>
    cases h
    rw [contents, hzero, take_zero]
  split at h
  · cases h
  split at h
  · cases h
  next output hloop =>
  cases h
  rw [fat32ReadLoop_run hm hloop, Nat.min_comm, ← take_chainRun]
  exact contents_take hm (fun c hc ↦ two_le_of_mem_chainRun hc)
    ((neededClusters_le_iff hm.clusterSize_pos).1 (Nat.le_refl _))

/-- **Complete reads, exactly.** On any disk, when a read returns bytes they are as many as the
resolved entry says, and those of its chain, **if and only if** the table leads through enough
clusters of the volume for that size, within the guard of `0x100000`. -/
theorem read_complete_iff {ty : FatType} {block : BlockDevice ss} {env : CapEnv} {task : TaskContext}
    {path : NormalizedPath} {dev dev' : Dev ss} {out : Bytes}
    (hread : fatReadFile ty block env task path dev = some (some out, dev')) :
    ∃ vol fat entry, mount ty block dev = some (some vol, dev') ∧ readFAT block vol dev'.disk = some fat ∧
      fatResolve ty block vol dev'.disk fat path = some entry ∧
      (CompleteRead ty vol dev'.disk fat entry out ↔ ChainCovers ty vol fat entry) := by
  cases ty with
  | fat16 =>
    obtain ⟨⟨vol?, dev₁⟩, hmount, heq⟩ := Option.map_eq_some_iff.1 hread
    simp only at heq
    split at heq
    · cases heq
    next vol =>
    split at heq
    · cases heq
    next fat hfat =>
    split at heq
    · cases heq
    next entry hentry =>
    obtain ⟨hout, rfl⟩ := Prod.mk.inj heq
    obtain ⟨hnone, -⟩ | ⟨vol', hvol, hm, -, -⟩ := mount_cases hmount
    · cases hnone
    obtain rfl := Option.some.inj hvol
    exact ⟨vol, fat, entry, hmount, hfat, hentry, complete_iff_covers hm (fat16ReadEntry_contents hm hout)⟩
  | fat32 =>
    obtain ⟨⟨result, dev₂⟩, hrun, hpair⟩ := Option.map_eq_some_iff.1 hread
    obtain ⟨hresult, rfl⟩ := Prod.mk.inj hpair
    unfold fat32ReadFileData at hrun
    split at hrun
    · cases Option.some.inj hrun
      cases hresult
    obtain ⟨⟨vol?, dev₁⟩, hmount, heq⟩ := Option.map_eq_some_iff.1 hrun
    simp only at heq
    split at heq
    · cases heq
      cases hresult
    next vol =>
    split at heq
    · cases heq
      cases hresult
    next fat hfat =>
    split at heq
    · cases heq
      cases hresult
    next entry loc hentry =>
    obtain ⟨hout, rfl⟩ := Prod.mk.inj heq
    obtain ⟨hnone, -⟩ | ⟨vol', hvol, hm, -, -⟩ := mount_cases hmount
    · cases hnone
    obtain rfl := Option.some.inj hvol
    have hok : fat32ReadEntry block vol dev₁.disk fat entry = .ok out := by
      rw [hout]
      cases result with
      | error _ => cases hresult
      | ok bytes => rw [Option.some.inj hresult]
    refine ⟨vol, fat, entry, hmount, hfat, ?_, complete_iff_covers hm (fat32ReadEntry_contents hm hok)⟩
    rw [fatResolve, hentry]
    rfl

/-! ### A whole file and a cut one -/

def dirOfSize (size : ℕ) : Sector 512 := ⟨padZeros 512 (0x41 :: replicate 10 0x20 ++ 0x20 :: replicate 14 0 ++
    ([2, 0] ++ leBytes 4 size)), length_padZeros (by simp)⟩

def entryOfSize (size : ℕ) : FatDirEntry := { name := [0x41], attr := 0x20, firstCluster := 2, fileSize := size }

theorem read_complete_whole : ∃ dev', fatReadFile .fat16 block16 ⟨[], fun _ ↦ none⟩ ⟨[], []⟩ pathA
        (Dev.start (disk16 table2 (dirOfSize 512))) = some (some (replicate 512 0), dev') ∧
      ∃ fat, CompleteRead .fat16 vol16 dev'.disk fat (entryOfSize 512) (replicate 512 0) := by
  have hfst : (fat16ReadFile block16 pathA (Dev.start (disk16 table2 (dirOfSize 512)))).map Prod.fst =
      some (some (replicate 512 0)) := by
    decide +kernel
  obtain ⟨⟨out, dev'⟩, hrun, rfl⟩ := Option.map_eq_some_iff.1 hfst
  have hread : fatReadFile .fat16 block16 ⟨[], fun _ ↦ none⟩ ⟨[], []⟩ pathA
      (Dev.start (disk16 table2 (dirOfSize 512))) = some (some (replicate 512 0), dev') := hrun
  refine ⟨dev', hread, ?_⟩
  obtain ⟨vol, fat, entry, hmount, hfat, hentry, hiff⟩ := read_complete_iff hread
  obtain ⟨rfl, rfl⟩ : vol = vol16 ∧ dev' = Dev.start (disk16 table2 (dirOfSize 512)) := by
    rw [disk16_mount] at hmount
    simpa [eq_comm] using hmount
  have hresolve : (readFAT block16 vol16 (Dev.start (disk16 table2 (dirOfSize 512))).disk).bind
      (fun fat ↦ (fatResolve .fat16 block16 vol16 (Dev.start (disk16 table2 (dirOfSize 512))).disk fat
        pathA).map fun entry ↦ (entry, decide (ChainCovers .fat16 vol16 fat entry))) =
      some (entryOfSize 512, true) := by
    decide +kernel
  rw [hfat, Option.bind_some, hentry] at hresolve
  obtain ⟨rfl, hcovers⟩ := Prod.mk.inj (Option.some.inj hresolve)
  exact ⟨fat, hiff.2 (of_decide_eq_true hcovers)⟩

/-- **A short chain is read without a failure**: 512 bytes of 1024. -/
theorem read_truncated : ∃ dev' fat, fat16ReadFile block16 pathA (Dev.start (disk16 table2 (dirOfSize 1024))) =
        some (some (replicate 512 0), dev') ∧
      mount .fat16 block16 (Dev.start (disk16 table2 (dirOfSize 1024))) = some (some vol16, dev') ∧
      readFAT block16 vol16 dev'.disk = some fat ∧
      resolveFat16PathEntry block16 vol16 dev'.disk fat pathA = some (entryOfSize 1024) ∧
      ¬CompleteRead .fat16 vol16 dev'.disk fat (entryOfSize 1024) (replicate 512 0) := by
  have hfst : (fat16ReadFile block16 pathA (Dev.start (disk16 table2 (dirOfSize 1024)))).map Prod.fst =
      some (some (replicate 512 0)) := by
    decide +kernel
  obtain ⟨⟨out, dev'⟩, hrun, rfl⟩ := Option.map_eq_some_iff.1 hfst
  obtain rfl : dev' = Dev.start (disk16 table2 (dirOfSize 1024)) := by
    obtain ⟨⟨vol?, dev₁⟩, hmount, heq⟩ := Option.map_eq_some_iff.1 hrun
    rw [disk16_mount] at hmount
    obtain ⟨rfl, rfl⟩ := Prod.mk.inj (Option.some.inj hmount)
    simp only at heq
    split at heq
    · cases heq
    split at heq
    · cases heq
    exact (Prod.mk.inj heq).2.symm
  have hresolve : (readFAT block16 vol16 (disk16 table2 (dirOfSize 1024))).bind (fun fat ↦
      resolveFat16PathEntry block16 vol16 (disk16 table2 (dirOfSize 1024)) fat pathA) = some (entryOfSize 1024) := by
    decide +kernel
  obtain ⟨fat, hfat, hentry⟩ := Option.bind_eq_some_iff.1 hresolve
  refine ⟨_, fat, hrun, disk16_mount _ _, hfat, hentry, fun hcomplete ↦ ?_⟩
  exact absurd hcomplete.1 (by decide +kernel)

end CapazOS
