import CapazOS.Fat.Directory

/-!
# The loader's FAT16 reader

The model of the FAT16 half of `Kern/Loader/loader.c`. It reads sector by sector, compares the
eleven bytes of a short name, and follows the table through **a cache of one sector that lives as
long as the loader** (`FatCache`). A read of the device gives the bytes of a sector, `none` for a
failure; a failed read is taken to leave the buffer alone. `none` stands for a walk that never
returns, and a C string is the list of its bytes without the terminator.
-/

namespace CapazOS

/-- What `boot_block_read` delivers for a sector. -/
abbrev BootRead := ℕ → Option Bytes

def loaderSectorSize : ℕ := 512

/-! ### The volume -/

structure LoaderVolume where
  partLba : ℕ
  bytesPerSector : ℕ
  sectorsPerCluster : ℕ
  reservedSectors : ℕ
  numFats : ℕ
  rootEntryCount : ℕ
  sectorsPerFat : ℕ
  totalSectors : ℕ
  fatStartLba : ℕ
  rootDirLba : ℕ
  rootDirSectors : ℕ
  dataStartLba : ℕ
  deriving DecidableEq

/-- `fat16_parse`; the sums of sector numbers are cut to 32 bits. -/
def fat16Parse (read : BootRead) (partLba : ℕ) : Option LoaderVolume :=
  match read partLba with
  | none => none
  | some sector =>
    if sector.getD 510 0 ≠ 0x55 ∨ sector.getD 511 0 ≠ 0xAA then none
    else
      let bytesPerSector := readLE 2 sector 11
      let sectorsPerCluster := (sector.getD 13 0).toNat
      let reserved := readLE 2 sector 14
      let numFats := (sector.getD 16 0).toNat
      let rootEntries := readLE 2 sector 17
      let total16 := readLE 2 sector 19
      let spf16 := readLE 2 sector 22
      let total32 := readLE 4 sector 32
      if bytesPerSector ≠ loaderSectorSize then none
      else if sectorsPerCluster = 0 ∨ reserved = 0 ∨ numFats = 0 ∨ spf16 = 0 then none
      else if rootEntries = 0 then none
      else
        let total := if total16 ≠ 0 then total16 else total32
        if total = 0 then none
        else
          let rootDirSectors := (rootEntries * 32 + (bytesPerSector - 1)) / bytesPerSector
          let fatStartLba := (partLba + reserved) % 2 ^ 32
          let rootDirLba := (fatStartLba + numFats * spf16) % 2 ^ 32
          let dataStartLba := (rootDirLba + rootDirSectors) % 2 ^ 32
          some { partLba, bytesPerSector, sectorsPerCluster, reservedSectors := reserved, numFats,
                 rootEntryCount := rootEntries, sectorsPerFat := spf16, totalSectors := total,
                 fatStartLba, rootDirLba, rootDirSectors, dataStartLba }

def fat16ClusterToLba (vol : LoaderVolume) (cluster : ℕ) : ℕ :=
  vol.dataStartLba + (cluster - 2) * vol.sectorsPerCluster

/-! ### The table -/

/-- `cached_lba` and `cached_sector` of `fat16_next_cluster`. -/
structure FatCache where
  lba : ℕ
  sector : Bytes

def FatCache.initial : FatCache := ⟨2 ^ 64 - 1, List.replicate loaderSectorSize 0⟩

variable (read : BootRead) (vol : LoaderVolume)

def fat16NextCluster (cluster : ℕ) (cache : FatCache) : ℕ × FatCache :=
  let fatOffset := cluster * 2
  let fatLba := vol.fatStartLba + fatOffset / loaderSectorSize
  let fatOff := fatOffset % loaderSectorSize
  if fatLba ≠ cache.lba then
    match read fatLba with
    | none => (0xFFFF, cache)
    | some sector => (readLE 2 sector fatOff, ⟨fatLba, sector⟩)
  else (readLE 2 cache.sector fatOff, cache)

def fat16IsEoc (cluster : ℕ) : Bool := 0xFFF8 ≤ cluster

/-! ### Directories -/

structure LoaderDirent where
  name : Bytes
  attr : UInt8
  firstCluster : ℕ
  size : ℕ
  deriving DecidableEq

def LoaderDirent.isDir (e : LoaderDirent) : Bool := e.attr &&& 0x10 ≠ 0

/-- `make_short_name`: up to eight bytes before the dot and three behind it, padded with spaces. -/
def makeShortName (name : Bytes) : Option Bytes :=
  if name = [] then none
  else
    let base := name.takeWhile (· ≠ 0x2E)
    let ext := (name.dropWhile (· ≠ 0x2E)).drop 1
    if 0x2E ∈ ext then none
    else if base.length = 0 ∨ 8 < base.length ∨ 3 < ext.length then none
    else some (padSpaces 8 (base.map toUpperASCII) ++ padSpaces 3 (ext.map toUpperASCII))

/-- How the scan of a part of a directory ends: with the entry, at an end marker or a failed read,
or without either. -/
inductive ScanOutcome where
  | found (e : LoaderDirent)
  | stop
  | next

/-- The loop of `fat16_find_in_root` and `fat16_find_in_dir` over the slots of a sector. -/
def scanForName (target : Bytes) : List Bytes → ScanOutcome
  | [] => .next
  | slot :: rest =>
    let first := slot.getD 0 0
    let attr := slot.getD 11 0
    if first = 0x00 then .stop
    else if first = 0xE5 then scanForName target rest
    else if attr = 0x0F then scanForName target rest
    else if attr &&& 0x08 ≠ 0 then scanForName target rest
    else if slice slot 0 11 = target then
      .found { name := slice slot 0 11, attr, firstCluster := readLE 2 slot 26, size := readLE 4 slot 28 }
    else scanForName target rest

/-- The loop of the two functions over sectors. -/
def scanSectors (read : BootRead) (target : Bytes) : List ℕ → ScanOutcome
  | [] => .next
  | lba :: rest =>
    match read lba with
    | none => .stop
    | some sector =>
      match scanForName target (slotsOf sector) with
      | .next => scanSectors read target rest
      | outcome => outcome

def fat16FindInRoot (target : Bytes) : Option LoaderDirent :=
  let lbas := (List.range vol.rootDirSectors).map fun s ↦ (vol.rootDirLba + s) % 2 ^ 32
  match scanSectors read target lbas with
  | .found e => some e
  | _ => none

/-- The loop of `fat16_find_in_dir` over the clusters of a directory. -/
def fat16DirWalk (read : BootRead) (vol : LoaderVolume) (target : Bytes) :
    ℕ → ℕ → FatCache → Option (Option LoaderDirent × FatCache)
  | 0, _, _ => none
  | steps + 1, cluster, cache =>
    if 2 ≤ cluster ∧ !fat16IsEoc cluster then
      let lba := fat16ClusterToLba vol cluster
      match scanSectors read target ((List.range vol.sectorsPerCluster).map fun s ↦ lba + s) with
      | .found e => some (some e, cache)
      | .stop => some (none, cache)
      | .next =>
        let (cluster, cache) := fat16NextCluster read vol cluster cache
        fat16DirWalk read vol target steps cluster cache
    else some (none, cache)

/-- As many steps as there are cluster numbers: a longer walk meets one twice and never ends. -/
@[irreducible] def dirSteps : ℕ := 2 ^ 16

/-- `fat16_find_in_dir`; the directory 0 is the root. -/
def fat16FindInDir (dirCluster : ℕ) (target : Bytes)
    (cache : FatCache) : Option (Option LoaderDirent × FatCache) :=
  if dirCluster = 0 then some (fat16FindInRoot read vol target, cache)
  else fat16DirWalk read vol target dirSteps dirCluster cache

/-! ### Paths -/

/-- The components of a path; slashes may be repeated, and stand at both ends. -/
def pathComponents (path : Bytes) : List Bytes := (path.splitOn 0x2F).filter (· ≠ [])

/-- What the loader looks for under a component: it must fit the buffer of the name. -/
def componentName (component : Bytes) : Option Bytes :=
  if 15 < component.length then none else makeShortName component

/-- The loop of `fat16_find_path` over the components. -/
def fat16FindComponents (read : BootRead) (vol : LoaderVolume) :
    ℕ → List Bytes → FatCache → Option (Option LoaderDirent × FatCache)
  | _, [], cache => some (none, cache)
  | dirCluster, component :: rest, cache =>
    match componentName component with
    | none => some (none, cache)
    | some shortname =>
      match fat16FindInDir read vol dirCluster shortname cache with
      | none => none
      | some (none, cache) => some (none, cache)
      | some (some entry, cache) =>
        if rest = [] then some (some entry, cache)
        else if !entry.isDir then some (none, cache)
        else fat16FindComponents read vol entry.firstCluster rest cache

def fat16FindPath (path : Bytes) (cache : FatCache) :
    Option (Option LoaderDirent × FatCache) := fat16FindComponents read vol 0 (pathComponents path) cache

/-! ### Files -/

/-- What `fat16_read_file_at` returns, the bytes it has stored from `dst` on, and the cache. -/
structure ReadOutcome where
  ok : Bool
  data : Bytes
  cache : FatCache

/-- The loop that skips clusters; `none` when the chain ends before. -/
def fat16Skip (read : BootRead) (vol : LoaderVolume) : ℕ → ℕ → FatCache → Option ℕ × FatCache
  | 0, cluster, cache => (some cluster, cache)
  | n + 1, cluster, cache =>
    let (cluster, cache) := fat16NextCluster read vol cluster cache
    if cluster < 2 ∨ fat16IsEoc cluster then (none, cache) else fat16Skip read vol n cluster cache

/-- The copy loop over the sectors of a cluster, from `sectorOff` of the first one on: whether the
reads worked, and the bytes. -/
def copySectors (read : BootRead) : List ℕ → ℕ → ℕ → Bool × Bytes
  | [], _, _ => (true, [])
  | lba :: rest, sectorOff, remaining =>
    if remaining = 0 then (true, [])
    else
      match read lba with
      | none => (false, [])
      | some sector =>
        let copy := min (loaderSectorSize - sectorOff) remaining
        let (ok, out) := copySectors read rest 0 (remaining - copy)
        (ok, slice sector sectorOff copy ++ out)

/-- The copy loop over clusters. Each round copies at least a byte, so that the first argument may
be anything above the number of bytes. -/
def fat16CopyLoop (read : BootRead) (vol : LoaderVolume) : ℕ → ℕ → ℕ → ℕ → FatCache → ReadOutcome
  | 0, _, _, _, cache => ⟨false, [], cache⟩
  | rounds + 1, cluster, offInCluster, remaining, cache =>
    if remaining = 0 then ⟨true, [], cache⟩
    else if cluster < 2 ∨ fat16IsEoc cluster then ⟨false, [], cache⟩
    else
      let lba := fat16ClusterToLba vol cluster
      let sectorIdx := offInCluster / vol.bytesPerSector
      let sectorOff := offInCluster % vol.bytesPerSector
      let lbas := (List.range' sectorIdx (vol.sectorsPerCluster - sectorIdx)).map fun s ↦ lba + s
      let (ok, out) := copySectors read lbas sectorOff remaining
      if !ok then ⟨false, out, cache⟩
      else if remaining ≤ out.length then ⟨true, out, cache⟩
      else
        let (cluster, cache) := fat16NextCluster read vol cluster cache
        let rest := fat16CopyLoop read vol rounds cluster 0 (remaining - out.length) cache
        { rest with data := out ++ rest.data }

/-- `fat16_read_file_at`; offsets and lengths are 32-bit numbers, and so is their sum. -/
def fat16ReadFileAt (file : LoaderDirent) (offset len dst : ℕ) (cache : FatCache) : ReadOutcome :=
  if dst = 0 then ⟨false, [], cache⟩
  else if len = 0 then ⟨true, [], cache⟩
  else if file.size < offset then ⟨false, [], cache⟩
  else if file.size < (offset + len) % 2 ^ 32 then ⟨false, [], cache⟩
  else
    let clusterSize := vol.bytesPerSector * vol.sectorsPerCluster
    match fat16Skip read vol (offset / clusterSize) file.firstCluster cache with
    | (none, cache) => ⟨false, [], cache⟩
    | (some cluster, cache) =>
      fat16CopyLoop read vol (len + 1) cluster (offset % clusterSize) len cache

end CapazOS
