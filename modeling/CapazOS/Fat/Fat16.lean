import CapazOS.Fat.Table
import CapazOS.Fat.Directory

/-!
# The FAT16 file operations

The model of `Core/Fat16.swift`: looking up, reading, writing and deleting a file, on a device with
a history. The location `fat16FindEntryOrFreeLocation` returns is that of the first free slot it
passed, **also when it returns an entry**; `fat16WriteFile` and `fat16DeleteFile` use it as if it
were the entry's. A result of `none` is a runtime trap: a path without segments that is not the
root, and a size that does not fit 32 bits.
-/

namespace CapazOS

variable {ss : ℕ} (block : BlockDevice ss) (vol : Volume)

/-! ### Sectors and slots on the disk -/

def clusterLBA (vol : Volume) (cluster : ℕ) : ℕ :=
  vol.dataStartLBA + (cluster - 2) * vol.sectorsPerCluster

def clusterSize (vol : Volume) : ℕ := vol.bytesPerSector * vol.sectorsPerCluster

def slotLBA (vol : Volume) (loc : SlotLoc) : ℕ :=
  let sectorIndex := loc.slot * 32 / vol.bytesPerSector
  match loc.cluster with
  | some cluster => clusterLBA vol cluster + sectorIndex
  | none => vol.rootDirStartLBA + sectorIndex

def slotOffset (vol : Volume) (loc : SlotLoc) : ℕ := loc.slot * 32 % vol.bytesPerSector

/-- A sequence of sector updates that stops at the first failure. -/
def putAll (put : ℕ → Bytes → Dev ss → Bool × Dev ss) : List (ℕ × Bytes) → Dev ss → Bool × Dev ss
  | [], dev => (true, dev)
  | (lba, data) :: rest, dev =>
    let (ok, dev) := put lba data dev
    if ok then putAll put rest dev else (false, dev)

/-- The sectors `fat16WriteFatTables` and `writeFatTables` write: each copy of the table, sector by
sector. -/
def fatTableSectors (vol : Volume) (fat : Bytes) : List (ℕ × Bytes) :=
  (List.range vol.numFATs).flatMap fun k ↦
    (List.range vol.sectorsPerFAT).map fun s ↦
      (vol.fatStartLBA + k * vol.sectorsPerFAT + s, slice fat (s * vol.bytesPerSector) vol.bytesPerSector)

/-- A sector update of a FAT16 operation, logged in safe mode. -/
def fat16Put (safe simulateCrash : Bool) (lba : ℕ) (data : Bytes) (dev : Dev ss) : Bool × Dev ss :=
  if safe then dev.unit (walWriteSector16 block vol simulateCrash lba data)
  else block.write dev lba data

def fat16WriteFatTables (fat : Bytes) (safe simulateCrash : Bool) (dev : Dev ss) : Bool × Dev ss :=
  let fatBytes := vol.sectorsPerFAT * vol.bytesPerSector
  if fatBytes = 0 ∨ fat.length < fatBytes then (false, dev)
  else putAll (fat16Put block vol safe simulateCrash) (fatTableSectors vol fat) dev

/-- The read-modify-write of `fat16WriteDirEntry` and `fat16MarkDirEntryDeleted`: `bytes` replace
the bytes at the start of the slot. -/
def fat16WriteSlot (loc : SlotLoc) (bytes : Bytes)
    (safe simulateCrash : Bool) (dev : Dev ss) : Bool × Dev ss :=
  let lba := slotLBA vol loc
  match block.read dev.disk lba 1 with
  | none => (false, dev)
  | some sector =>
    if sector.length < vol.bytesPerSector then (false, dev)
    else fat16Put block vol safe simulateCrash lba (writeAt sector (slotOffset vol loc) bytes) dev

def fat16WriteDirEntry (loc : SlotLoc) (entryBytes : Bytes)
    (safe simulateCrash : Bool) (dev : Dev ss) : Bool × Dev ss :=
  fat16WriteSlot block vol loc entryBytes safe simulateCrash dev

def fat16MarkDirEntryDeleted (loc : SlotLoc) (safe : Bool)
    (dev : Dev ss) : Bool × Dev ss := fat16WriteSlot block vol loc [0xE5] safe false dev

/-! ### Lookup for reading -/

section

variable (d : Disk ss) (fat : Bytes)

def readFat16Cluster (cluster : ℕ) : Option Bytes :=
  if cluster < 2 then none else block.read d (clusterLBA vol cluster) vol.sectorsPerCluster

def readFat16RootDirEntries : Option (List FatDirEntry) :=
  if vol.rootDirSectors = 0 then some []
  else
    (block.read d vol.rootDirStartLBA vol.rootDirSectors).map fun data ↦ (fatScanDirEntriesEx data).1.map Prod.snd

/-- The loop of `readFat16DirEntriesCluster`: it ends with the block that holds an end marker. -/
def fat16DirLoop : List ℕ → Option (List FatDirEntry)
  | [] => some []
  | cluster :: rest =>
    match readFat16Cluster block vol d cluster with
    | none => none
    | some data =>
      let (records, endReached) := fatScanDirEntriesEx data
      if endReached then some (records.map Prod.snd)
      else (fat16DirLoop rest).map fun entries ↦ records.map Prod.snd ++ entries

def readFat16DirEntriesCluster (startCluster : ℕ) : Option (List FatDirEntry) :=
  (fatClusterChain .fat16 fat startCluster (fatMaxCluster vol)).bind fun chain ↦ fat16DirLoop block vol d chain

/-- `findFat16EntryInDir`; the directory `none` is the root. -/
def findFat16EntryInDir (dirCluster : Option ℕ) (name : Bytes) : Option FatDirEntry :=
  let entries := match dirCluster with
    | some cluster => readFat16DirEntriesCluster block vol d fat cluster
    | none => readFat16RootDirEntries block vol d
  entries.bind fun list ↦ list.find? fun e ↦ e.name = name

/-- One step of a path: the directory named `name` in a directory. -/
def fat16Descend (dirCluster : Option ℕ) (name : Bytes) : Option (Option ℕ) :=
  match findFat16EntryInDir block vol d fat dirCluster name with
  | none => none
  | some entry => if !entry.isDir ∨ entry.firstCluster < 2 then none else some entry.firstCluster

/-- The directory reached by a list of segments: the loop that resolves the parent in
`fat16WriteFile` and `fat16DeleteFile`. -/
def fat16ResolveDir : Option ℕ → List Bytes → Option (Option ℕ)
  | dir, [] => some dir
  | dir, name :: rest =>
    match fat16Descend block vol d fat dir name with
    | none => none
    | some dir => fat16ResolveDir dir rest

def fat16ResolveLoop : Option ℕ → List Bytes → Option FatDirEntry
  | _, [] => none
  | dir, [name] => findFat16EntryInDir block vol d fat dir name
  | dir, name :: rest =>
    match fat16Descend block vol d fat dir name with
    | none => none
    | some dir => fat16ResolveLoop dir rest

def resolveFat16PathEntry (path : NormalizedPath) : Option FatDirEntry :=
  if path.isRoot ∨ path.segments = [] then none
  else fat16ResolveLoop block vol d fat none path.segments

def fat16ReadLoop : List ℕ → ℕ → Option Bytes
  | [], _ => some []
  | cluster :: rest, remaining =>
    if remaining = 0 then some []
    else
      match readFat16Cluster block vol d cluster with
      | none => none
      | some data =>
        if data = [] then some []
        else
          let take := min remaining data.length
          (fat16ReadLoop rest (remaining - take)).map fun out ↦ data.take take ++ out

/-- `fat16ReadFile` once the path is resolved. -/
def fat16ReadEntry (entry : FatDirEntry) : Option Bytes :=
  if entry.isDir then none
  else if entry.firstCluster < 2 ∧ 0 < entry.fileSize then none
  else if entry.fileSize = 0 then fat16ReadLoop block vol d [] entry.fileSize
  else
    (fatClusterChain .fat16 fat entry.firstCluster (fatMaxCluster vol)).bind fun chain ↦
      fat16ReadLoop block vol d chain entry.fileSize

end

def fat16ReadFile (block : BlockDevice ss) (path : NormalizedPath) (dev : Dev ss) :
    Checked (Option Bytes × Dev ss) :=
  (mount .fat16 block dev).map fun (vol?, dev) ↦
    match vol? with
    | none => (none, dev)
    | some vol =>
      match readFAT block vol dev.disk with
      | none => (none, dev)
      | some fat =>
        match resolveFat16PathEntry block vol dev.disk fat path with
        | none => (none, dev)
        | some entry => (fat16ReadEntry block vol dev.disk fat entry, dev)

/-! ### Lookup for writing -/

section

variable (d : Disk ss)

/-- The loop of `fat16FindEntryOrFreeLocation` over the clusters of a directory. -/
def fat16FindLoop (short : Option Bytes) (name : Bytes) : List ℕ → Option SlotLoc → Option FatDirEntry × Option SlotLoc
  | [], freeLoc => (none, freeLoc)
  | cluster :: rest, freeLoc =>
    match readFat16Cluster block vol d cluster with
    | none => (none, none)
    | some data =>
      match findSlots short name (some cluster) (slotsOf data) 0 freeLoc with
      | (some entry, _, freeLoc) => (some entry, freeLoc)
      | (none, endReached, freeLoc) =>
        if endReached then (none, freeLoc) else fat16FindLoop short name rest freeLoc

def fat16FindEntryOrFreeLocation (fat : Bytes) (dirCluster : Option ℕ) (name : Bytes) :
    Option FatDirEntry × Option SlotLoc :=
  let short := fatEncodeShortName name
  match dirCluster with
  | none =>
    match block.read d vol.rootDirStartLBA vol.rootDirSectors with
    | none => (none, none)
    | some data =>
      let (entry, _, freeLoc) := findSlots short name none (slotsOf data) 0 none
      (entry, freeLoc)
  | some cluster =>
    match fatClusterChain .fat16 fat cluster (fatMaxCluster vol) with
    | none => (none, none)
    | some chain => fat16FindLoop block vol d short name chain none

end

/-! ### Writing -/

/-- The marker the source writes at the end of a chain. -/
def fatEocMark : FatType → ℕ
  | .fat16 => 0xFFFF
  | .fat32 => 0x0FFFFFFF

/-- Threading new clusters: each points to the next, the last is the end of the chain. -/
def linkClusters (ty : FatType) : Bytes → List ℕ → Bytes
  | fat, [] => fat
  | fat, [c] => fatSetCluster ty fat c (fatEocMark ty)
  | fat, c :: next :: rest => linkClusters ty (fatSetCluster ty fat c next) (next :: rest)

/-- Growing a chain: the new clusters are hung onto its last cluster, if it has one. -/
def growTable (ty : FatType) (fat : Bytes) (chain extra : List ℕ) : Bytes :=
  linkClusters ty (match chain.getLast?, extra.head? with
    | some last, some first => fatSetCluster ty fat last first
    | _, _ => fat) extra

def releaseClusters (ty : FatType) (fat : Bytes) (cs : List ℕ) : Bytes :=
  cs.foldl (fun fat c ↦ fatSetCluster ty fat c 0) fat

def requiredClusters (vol : Volume) (data : Bytes) : ℕ :=
  (data.length + clusterSize vol - 1) / clusterSize vol

def clustersFor (vol : Volume) (data : Bytes) : ℕ :=
  if data = [] then 0 else requiredClusters vol data

/-- The reshaping of the chain in `fat16WriteFile`: the new chain and table, `none` when there are
too few free clusters. -/
def fat16Reshape (vol : Volume) (fat : Bytes) (chain : List ℕ) (required : ℕ) : Option (List ℕ × Bytes) :=
  if chain.length < required then
    match fatFindFreeClusters .fat16 vol fat (required - chain.length) with
    | none => none
    | some extra => some (chain ++ extra, growTable .fat16 fat chain extra)
  else if required < chain.length then
    let fat := releaseClusters .fat16 fat (chain.drop required)
    let fat := match (chain.take required).getLast? with
      | some last => fat16SetCluster fat last 0xFFFF
      | none => fat
    some (chain.take required, fat)
  else some (chain, fat)

def padZeros (n : ℕ) (bytes : Bytes) : Bytes := bytes ++ List.replicate (n - bytes.length) 0

/-- The inner data loop of `fat16WriteFile`: `n` sectors from `lba` on, with what is left of the
data; the sectors after the data are filled with zeros. -/
def fat16WriteSectors (block : BlockDevice ss) (vol : Volume) : ℕ → ℕ → Bytes → Dev ss → Bool × Bytes × Dev ss
  | 0, _, rest, dev => (true, rest, dev)
  | n + 1, lba, rest, dev =>
    let sectorData := padZeros vol.bytesPerSector (rest.take vol.bytesPerSector)
    let (ok, dev) := block.write dev lba sectorData
    let rest := rest.drop vol.bytesPerSector
    if ok then fat16WriteSectors block vol n (lba + 1) rest dev else (false, rest, dev)

def fat16WriteClusters (block : BlockDevice ss) (vol : Volume) : List ℕ → Bytes → Dev ss → Bool × Dev ss
  | [], _, dev => (true, dev)
  | cluster :: chain, rest, dev =>
    if rest = [] then (true, dev)
    else
      let (ok, rest, dev) := fat16WriteSectors block vol vol.sectorsPerCluster (clusterLBA vol cluster) rest dev
      if ok then fat16WriteClusters block vol chain rest dev else (false, dev)

def fat16EntryBytes (short : Bytes) (attr : UInt8) (firstCluster fileSize : ℕ) : Bytes :=
  let entryBytes := writeAt (List.replicate 32 0) 0 short
  let entryBytes := entryBytes.set 11 attr
  let entryBytes := writeLE 2 (firstCluster / 2 ^ 16 % 2 ^ 16) entryBytes 20
  let entryBytes := writeLE 2 (firstCluster % 2 ^ 16) entryBytes 26
  writeLE 4 fileSize entryBytes 28

/-- `fat16WriteFile` once the entry and the location are known: the chain is reshaped in memory, the
data is written, then the table, then the entry. -/
def fat16WriteAt (fat : Bytes) (cur : FatDirEntry)
    (loc : SlotLoc) (data : Bytes) (safe simulateCrash : Bool) (dev : Dev ss) :
    Checked (Bool × Dev ss) :=
  if clusterSize vol = 0 then some (false, dev)
  else
    let required := clustersFor vol data
    let chain := if 2 ≤ cur.firstCluster then
        (fatClusterChain .fat16 fat cur.firstCluster (fatMaxCluster vol)).getD []
      else []
    match fat16Reshape vol fat chain required with
    | none => some (false, dev)
    | some (chain, fat) =>
      let (ok, dev) := fat16WriteClusters block vol chain data dev
      if !ok then some (false, dev)
      else if 2 ^ 32 ≤ data.length then none
      else
        let firstCluster := chain.head?.getD 0
        match fatEncodeShortName cur.name with
        | none => some (false, dev)
        | some short =>
          let entryBytes := fat16EntryBytes short cur.attr firstCluster data.length
          let (ok, dev) := fat16WriteFatTables block vol fat safe false dev
          if !ok then some (false, dev)
          else
            let (ok, dev) := fat16WriteDirEntry block vol loc entryBytes safe simulateCrash dev
            if !ok then some (false, dev) else some (!simulateCrash, dev)

def fat16WriteFile (block : BlockDevice ss) (path : NormalizedPath) (data : Bytes)
    (safe simulateCrash : Bool) (dev : Dev ss) : Checked (Bool × Dev ss) :=
  if path.isRoot then some (false, dev)
  else
    (mount .fat16 block dev).bind fun (vol?, dev) ↦
      match vol? with
      | none => some (false, dev)
      | some vol =>
        match readFAT block vol dev.disk with
        | none => some (false, dev)
        | some fat =>
          match fat16ResolveDir block vol dev.disk fat none path.segments.dropLast with
          | none => some (false, dev)
          | some parentCluster =>
            match path.segments.getLast? with
            | none => none
            | some name =>
              let (existing, freeLoc) := fat16FindEntryOrFreeLocation block vol dev.disk fat parentCluster name
              match freeLoc with
              | none => some (false, dev)
              | some loc =>
                let cur := existing.getD { name, attr := 0x20, firstCluster := 0, fileSize := 0 }
                if cur.isDir then some (false, dev)
                else fat16WriteAt block vol fat cur loc data safe simulateCrash dev

/-! ### Deleting -/

/-- `fat16DeleteFile` once the entry and the location are known. -/
def fat16DeleteAt (fat : Bytes) (entry : FatDirEntry)
    (loc : SlotLoc) (safe : Bool) (dev : Dev ss) : Bool × Dev ss :=
  if entry.isDir then (false, dev)
  else
    let chain := if 2 ≤ entry.firstCluster then
        fatClusterChain .fat16 fat entry.firstCluster (fatMaxCluster vol)
      else none
    let (ok, dev) := match chain with
      | some chain => fat16WriteFatTables block vol (releaseClusters .fat16 fat chain) safe false dev
      | none => (true, dev)
    if ok then fat16MarkDirEntryDeleted block vol loc safe dev else (false, dev)

def fat16DeleteFile (block : BlockDevice ss) (path : NormalizedPath) (safe : Bool) (dev : Dev ss) :
    Checked (Bool × Dev ss) :=
  if path.isRoot then some (false, dev)
  else
    (mount .fat16 block dev).bind fun (vol?, dev) ↦
      match vol? with
      | none => some (false, dev)
      | some vol =>
        match readFAT block vol dev.disk with
        | none => some (false, dev)
        | some fat =>
          match fat16ResolveDir block vol dev.disk fat none path.segments.dropLast with
          | none => some (false, dev)
          | some parentCluster =>
            match path.segments.getLast? with
            | none => none
            | some name =>
              match fat16FindEntryOrFreeLocation block vol dev.disk fat parentCluster name with
              | (some entry, some loc) => some (fat16DeleteAt block vol fat entry loc safe dev)
              | _ => some (false, dev)

end CapazOS
