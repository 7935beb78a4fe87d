import CapazOS.Fat.Fat16

/-!
# The FAT32 file operations

The model of `Core/Fat32.swift`: capabilities and contracts, looking up, reading, writing and
deleting a file. `fat32WriteFileData` only sets the size for empty data, keeps the chain for shorter
data, and hangs free clusters onto the chain for longer data. Whether its updates are logged is
decided by the policy of the task's contract. Results carry the message that the source prints on
failure; `none` is a runtime trap.
-/

namespace CapazOS

variable {ss : ℕ} (block : BlockDevice ss) (vol : Volume)

/-! ### Capabilities and contracts -/

structure FileCapEntry where
  id : UInt32
  rights : UInt32
  path : Bytes

/-- What the system knows about capabilities and contracts: `gFileCaps`, and the rights and the
policy of each contract handle. -/
structure CapEnv where
  fileCaps : List FileCapEntry
  contract : UInt64 → Option (UInt32 × UInt32)

structure TaskContext where
  capIds : List UInt32
  contractIds : List UInt64

def capRFileRead : UInt32 := (1 : UInt32) <<< 26
def capRFileWriteSafe : UInt32 := (1 : UInt32) <<< 28
def capRFileWriteFast : UInt32 := (1 : UInt32) <<< 29
def fat32ContractRRead : UInt32 := (1 : UInt32) <<< 0
def fat32ContractRWrite : UInt32 := (1 : UInt32) <<< 2
def fat32PolicySafe : UInt32 := 1
def fat32PolicyFast : UInt32 := 2
def fat32PolicyBackground : UInt32 := 3

def lookupFileCap (env : CapEnv) (id : UInt32) : Option FileCapEntry :=
  env.fileCaps.find? fun entry ↦ entry.id = id

namespace TaskContext

variable (task : TaskContext) (env : CapEnv)

def hasRights (path : Bytes) (rights : UInt32) : Bool :=
  task.capIds.any fun id ↦
    match lookupFileCap env id with
    | some entry => entry.path = path ∧ entry.rights &&& rights = rights
    | none => false

/-- `TaskContext.contractPolicy`: the policy of the first contract with the given rights. -/
def contractPolicy (rights : UInt32) : Option UInt32 :=
  task.contractIds.findSome? fun id ↦
    match env.contract id with
    | some (r, policy) => if r &&& rights = rights then some policy else none
    | none => none

def hasContract (rights : UInt32) : Bool := (task.contractPolicy env rights).isSome

def canReadFile (path : Bytes) : Bool := task.hasRights env path capRFileRead

def canWriteFileSafe (path : Bytes) : Bool :=
  task.hasRights env path capRFileWriteSafe

def canWriteFileFast (path : Bytes) : Bool :=
  task.hasRights env path capRFileWriteFast

end TaskContext

/-! ### Results -/

/-- Why an operation on a file failed; each error is printed as a line of its own. -/
inductive FsError where
  /-- `[fs] denied` -/
  | denied
  /-- `[fs] not a FAT32 volume` -/
  | notFat32
  /-- `[fs] failed to read FAT` -/
  | readFat
  /-- `[fs] file not found` -/
  | notFound
  /-- `[fs] not a file` -/
  | notFile
  /-- `[fs] invalid file cluster` -/
  | fileCluster
  /-- `[fs] failed to read file data` -/
  | readData
  /-- `[fs] invalid cluster size` -/
  | clusterSize
  /-- `[fs] failed to update dir entry` -/
  | updateEntry
  /-- `[fs] no free clusters` -/
  | noFreeClusters
  /-- `[fs] failed to write FAT` -/
  | writeFat
  /-- `[fs] no cluster chain` -/
  | noChain
  /-- `[fs] failed to write file data` -/
  | writeData
  deriving DecidableEq

/-! ### Sectors and clusters -/

/-- A sector update of a FAT32 operation, logged in safe mode. -/
def fat32Put (safe : Bool) (lba : ℕ) (data : Bytes) (dev : Dev ss) : Bool × Dev ss :=
  if safe then dev.unit (walWriteSector32 block vol lba data) else block.write dev lba data

def fat32ClusterChain (vol : Volume) (fat : Bytes) (start : ℕ) : List ℕ :=
  (fatClusterChain .fat32 fat start (fatMaxCluster vol)).getD []

def writeFatTables (fat : Bytes) (safe : Bool) (dev : Dev ss) : Bool × Dev ss :=
  let fatBytes := vol.sectorsPerFAT * vol.bytesPerSector
  if fatBytes = 0 ∨ fat.length < fatBytes then (false, dev)
  else putAll (fat32Put block vol safe) (fatTableSectors vol fat) dev

/-- `readCluster`; its loop over the sectors of the cluster is one read here. -/
def readCluster (d : Disk ss) (cluster : ℕ) : Option Bytes :=
  if cluster < 2 ∨ fatMaxCluster vol < cluster then none
  else if block.capacitySectors < clusterLBA vol cluster + vol.sectorsPerCluster then none
  else block.read d (clusterLBA vol cluster) vol.sectorsPerCluster

def clusterSectors (vol : Volume) (cluster : ℕ) (data : Bytes) : List (ℕ × Bytes) :=
  (List.range vol.sectorsPerCluster).map fun s ↦
    (clusterLBA vol cluster + s, slice data (s * vol.bytesPerSector) vol.bytesPerSector)

def writeCluster (cluster : ℕ) (data : Bytes) (safe : Bool) (dev : Dev ss) : Bool × Dev ss :=
  if cluster < 2 ∨ fatMaxCluster vol < cluster then (false, dev)
  else if block.capacitySectors < clusterLBA vol cluster + vol.sectorsPerCluster then (false, dev)
  else if data.length < vol.bytesPerSector * vol.sectorsPerCluster then (false, dev)
  else putAll (fat32Put block vol safe) (clusterSectors vol cluster data) dev

/-! ### Looking up a path -/

section

variable (d : Disk ss) (fat : Bytes)

/-- Whether the loops over a directory or a file end after a cluster with this successor. -/
def fat32Stops (next : ℕ) : Bool := 0x0FFFFFF8 ≤ next ∨ next = 0x0FFFFFF7

/-- The loop of `findEntryLocationInDir`; the first argument is what is left of its guard. -/
def findEntryLocationLoop (name : Bytes) : ℕ → ℕ → Option (FatDirEntry × SlotLoc)
  | 0, _ => none
  | left + 1, cluster =>
    if cluster < 2 then none
    else
      match readCluster block vol d cluster with
      | none => none
      | some data =>
        if data.length < clusterSize vol then none
        else
          match (fatScanDirEntriesEx data).1.find? fun rec ↦ rec.2.name = name with
          | some rec => some (rec.2, ⟨some cluster, rec.1⟩)
          | none =>
            let next := fatNextCluster .fat32 fat cluster
            if fat32Stops next then none else findEntryLocationLoop name left next

def findEntryLocationInDir (dirCluster : ℕ) (name : Bytes) : Option (FatDirEntry × SlotLoc) :=
  findEntryLocationLoop block vol d fat name chainGuard dirCluster

def readDirEntriesLoop : ℕ → ℕ → Option (List FatDirEntry)
  | 0, _ => some []
  | left + 1, cluster =>
    if cluster < 2 then some []
    else
      match readCluster block vol d cluster with
      | none => none
      | some data =>
        let entries := (fatScanDirEntriesEx data).1.map Prod.snd
        let next := fatNextCluster .fat32 fat cluster
        if fat32Stops next then some entries
        else (readDirEntriesLoop left next).map fun rest ↦ entries ++ rest

def readDirEntries (startCluster : ℕ) : Option (List FatDirEntry) :=
  readDirEntriesLoop block vol d fat chainGuard startCluster

def findEntryInDir (dirCluster : ℕ) (name : Bytes) : Option FatDirEntry :=
  (readDirEntries block vol d fat dirCluster).bind fun entries ↦ entries.find? fun e ↦ e.name = name

def resolvePathLoop : ℕ → List Bytes → Option (FatDirEntry × SlotLoc)
  | _, [] => none
  | dirCluster, [name] => findEntryLocationInDir block vol d fat dirCluster name
  | dirCluster, name :: rest =>
    match findEntryInDir block vol d fat dirCluster name with
    | none => none
    | some entry =>
      if !entry.isDir ∨ entry.firstCluster < 2 then none
      else resolvePathLoop entry.firstCluster rest

def resolvePathEntryLocation (path : NormalizedPath) : Option (FatDirEntry × SlotLoc) :=
  if path.isRoot ∨ path.segments = [] then none
  else resolvePathLoop block vol d fat vol.rootCluster path.segments

def fat32ReadLoop : ℕ → ℕ → ℕ → Option Bytes
  | 0, _, _ => some []
  | left + 1, cluster, remaining =>
    if cluster < 2 ∨ remaining = 0 then some []
    else
      match readCluster block vol d cluster with
      | none => none
      | some data =>
        let next := fatNextCluster .fat32 fat cluster
        if fat32Stops next then some data
        else (fat32ReadLoop left next (remaining - clusterSize vol)).map fun out ↦ data ++ out

/-- `fat32ReadFileData` once the path is resolved. -/
def fat32ReadEntry (entry : FatDirEntry) : Except FsError Bytes :=
  if entry.isDir then .error .notFile
  else if entry.fileSize = 0 then .ok []
  else if entry.firstCluster < 2 then .error .fileCluster
  else
    match fat32ReadLoop block vol d fat chainGuard entry.firstCluster entry.fileSize with
    | none => .error .readData
    | some output => .ok (output.take entry.fileSize)

end

/-! ### Reading -/

def fat32ReadFileData (block : BlockDevice ss) (env : CapEnv) (task : TaskContext)
    (path : NormalizedPath) (dev : Dev ss) : Checked (Except FsError Bytes × Dev ss) :=
  if !task.canReadFile env path.flat || !task.hasContract env fat32ContractRRead then
    some (.error .denied, dev)
  else
    (mount .fat32 block dev).map fun (vol?, dev) ↦
      match vol? with
      | none => (.error .notFat32, dev)
      | some vol =>
        match readFAT block vol dev.disk with
        | none => (.error .readFat, dev)
        | some fat =>
          match resolvePathEntryLocation block vol dev.disk fat path with
          | none => (.error .notFound, dev)
          | some (entry, _) => (fat32ReadEntry block vol dev.disk fat entry, dev)

/-! ### Writing -/

/-- The read-modify-write of `updateDirEntryOnDisk` and `markDirEntryDeleted`: `f` changes the
sector at the offset of the slot, of which `need` bytes must lie in the cluster. -/
def fat32WriteSlot (loc : SlotLoc) (need : ℕ)
    (f : Bytes → ℕ → Bytes) (safe : Bool) (dev : Dev ss) : Bool × Dev ss :=
  if clusterSize vol < loc.slot * 32 + need then (false, dev)
  else
    let lba := slotLBA vol loc
    match block.read dev.disk lba 1 with
    | none => (false, dev)
    | some sector =>
      if sector.length < vol.bytesPerSector then (false, dev)
      else fat32Put block vol safe lba (f sector (slotOffset vol loc)) dev

/-- `updateDirEntryOnDisk`: the two halves of the first cluster, and the size. -/
def updateDirEntryOnDisk (loc : SlotLoc)
    (newFirstCluster newSize : ℕ) (safe : Bool) (dev : Dev ss) : Bool × Dev ss :=
  fat32WriteSlot block vol loc 32 (fun sector off ↦
    writeLE 4 newSize (writeLE 2 (newFirstCluster % 2 ^ 16)
      (writeLE 2 (newFirstCluster / 2 ^ 16 % 2 ^ 16) sector (off + 20)) (off + 26)) (off + 28))
    safe dev

def markDirEntryDeleted (loc : SlotLoc) (safe : Bool) (dev : Dev ss) : Bool × Dev ss :=
  fat32WriteSlot block vol loc 1 (fun sector off ↦ writeAt sector off [0xE5]) safe dev

/-- The bytes of a cluster before the data is copied into it: its contents for a cluster that the
file had, zeros for a new one. -/
def fat32ClusterBase (d : Disk ss) (old : Bool) (cluster : ℕ) : Option Bytes :=
  if old then
    (readCluster block vol d cluster).bind fun existing ↦
      if existing.length < clusterSize vol then none else some existing
  else some (List.replicate (clusterSize vol) 0)

/-- The data loop of `fat32WriteFileData`, from cluster number `i` of the chain on. -/
def fat32WriteClusters (block : BlockDevice ss) (vol : Volume) (safe : Bool) (oldCount : ℕ) :
    List ℕ → ℕ → Bytes → Dev ss → Except FsError Unit × Dev ss
  | [], _, _, dev => (.ok (), dev)
  | cluster :: rest, i, data, dev =>
    if chainGuard ≤ i then (.ok (), dev)
    else
      match fat32ClusterBase block vol dev.disk (i < oldCount) cluster with
      | none => (.error .readData, dev)
      | some clusterData =>
        let writeCount := min data.length (clusterSize vol)
        let clusterData := data.take writeCount ++ clusterData.drop writeCount
        let (ok, dev) := writeCluster block vol cluster clusterData safe dev
        if !ok then (.error .writeData, dev)
        else if data.drop writeCount = [] then (.ok (), dev)
        else fat32WriteClusters block vol safe oldCount rest (i + 1) (data.drop writeCount) dev

/-- The growth step of `fat32WriteFileData`: the chain, and the device with the tables and the entry
written. -/
def fat32Extend (fat : Bytes) (loc : SlotLoc)
    (chain : List ℕ) (required targetSize : ℕ) (safe : Bool) (dev : Dev ss) :
    Checked (Except FsError (List ℕ) × Dev ss) :=
  match fatFindFreeClusters .fat32 vol fat (required - chain.length) with
  | none => some (.error .noFreeClusters, dev)
  | some newClusters =>
    let fatCopy := growTable .fat32 fat chain newClusters
    let chain := chain ++ newClusters
    let (ok, dev) := writeFatTables block vol fatCopy safe dev
    if !ok then some (.error .writeFat, dev)
    else
      match chain.head? with
      | none => some (.ok chain, dev)
      | some first =>
        if 2 ^ 32 ≤ targetSize then none
        else
          let (ok, dev) := updateDirEntryOnDisk block vol loc first targetSize safe dev
          if !ok then some (.error .updateEntry, dev) else some (.ok chain, dev)

/-- `fat32WriteFileData` from the chain on: the data, and the entry. -/
def fat32Store (loc : SlotLoc) (chain : List ℕ)
    (oldCount required : ℕ) (data : Bytes) (safe : Bool) (dev : Dev ss) :
    Checked (Except FsError Unit × Dev ss) :=
  match chain.head? with
  | none => some (.error .noChain, dev)
  | some first =>
    match fat32WriteClusters block vol safe oldCount (chain.take required) 0 data dev with
    | (.error err, dev) => some (.error err, dev)
    | (.ok (), dev) =>
      if 2 ^ 32 ≤ data.length then none
      else
        let (ok, dev) := updateDirEntryOnDisk block vol loc first data.length safe dev
        if !ok then some (.error .updateEntry, dev) else some (.ok (), dev)

/-- `fat32WriteFileData` once the entry and its location are known. -/
def fat32WriteAt (fat : Bytes) (entry : FatDirEntry)
    (loc : SlotLoc) (data : Bytes) (safe : Bool) (dev : Dev ss) :
    Checked (Except FsError Unit × Dev ss) :=
  if entry.isDir then some (.error .notFile, dev)
  else if clusterSize vol = 0 then some (.error .clusterSize, dev)
  else if data = [] then
    let (ok, dev) := updateDirEntryOnDisk block vol loc entry.firstCluster 0 safe dev
    if !ok then some (.error .updateEntry, dev) else some (.ok (), dev)
  else
    let required := requiredClusters vol data
    let chain := if 2 ≤ entry.firstCluster then fat32ClusterChain vol fat entry.firstCluster else []
    if chain.length < required then
      (fat32Extend block vol fat loc chain required data.length safe dev).bind fun (chain?, dev) ↦
        match chain? with
        | .error err => some (.error err, dev)
        | .ok chain' => fat32Store block vol loc chain' chain.length required data safe dev
    else fat32Store block vol loc chain chain.length required data safe dev

def fat32WriteFileData (block : BlockDevice ss) (env : CapEnv) (task : TaskContext)
    (path : NormalizedPath) (data : Bytes) (dev : Dev ss) :
    Checked (Except FsError Unit × Dev ss) :=
  match task.contractPolicy env fat32ContractRWrite with
  | none => some (.error .denied, dev)
  | some policy =>
    if policy = fat32PolicyBackground then some (.error .denied, dev)
    else
      let needSafe : Bool := policy = fat32PolicySafe
      let allow := if needSafe then task.canWriteFileSafe env path.flat else task.canWriteFileFast env path.flat
      if !allow then some (.error .denied, dev)
      else
        (mount .fat32 block dev).bind fun (vol?, dev) ↦
          match vol? with
          | none => some (.error .notFat32, dev)
          | some vol =>
            match readFAT block vol dev.disk with
            | none => some (.error .readFat, dev)
            | some fat =>
              match resolvePathEntryLocation block vol dev.disk fat path with
              | none => some (.error .notFound, dev)
              | some (entry, loc) => fat32WriteAt block vol fat entry loc data needSafe dev

/-! ### Deleting -/

/-- `fat32DeleteFile` once the entry and its location are known. -/
def fat32DeleteAt (fat : Bytes) (entry : FatDirEntry)
    (loc : SlotLoc) (safe : Bool) (dev : Dev ss) : Bool × Dev ss :=
  if entry.isDir then (false, dev)
  else
    let (ok, dev) := if 2 ≤ entry.firstCluster then
        writeFatTables block vol (releaseClusters .fat32 fat (fat32ClusterChain vol fat entry.firstCluster)) safe dev
      else (true, dev)
    if ok then markDirEntryDeleted block vol loc safe dev else (false, dev)

def fat32DeleteFile (block : BlockDevice ss) (path : NormalizedPath) (safe : Bool) (dev : Dev ss) :
    Checked (Bool × Dev ss) :=
  if path.isRoot then some (false, dev)
  else
    (mount .fat32 block dev).map fun (vol?, dev) ↦
      match vol? with
      | none => (false, dev)
      | some vol =>
        match readFAT block vol dev.disk with
        | none => (false, dev)
        | some fat =>
          match resolvePathEntryLocation block vol dev.disk fat path with
          | none => (false, dev)
          | some (entry, loc) => fat32DeleteAt block vol fat entry loc safe dev

end CapazOS
