import CapazOS.Fat.Detect
import CapazOS.Fat.Store32

/-!
# A session of file calls

`fsRead` and `fsWrite` of `Core/FatFS.swift` first issue a file capability and open a contract on a
FAT32 disk, in two tables of 64 entries, `gFileCaps` and `g_contracts`. **Nothing ever takes an
entry out of either table.** A call answers as in a fresh session exactly while both tables have
room (`fs_history_iff`), provided that none of its transfers is refused by the task's I/O window, in
which the calls before count as well. `smoke_test_iff` is about the two smoke tests: the one for
FAT32 opens no contract.
-/

namespace CapazOS

open List

variable {ss : ℕ} (block : BlockDevice ss)

/-! ### The two tables -/

/-- `gFileCaps`, `gNextFileCapId` and `g_contracts`; an entry of the last is `none` when it is not
in use, else its rights and its policy. -/
structure FsSession where
  fileCaps : List FileCapEntry
  nextFileCapId : UInt32
  contracts : List (Option (UInt32 × UInt32))

variable {s t : FsSession}

def FsSession.fresh : FsSession := ⟨[], 1, replicate 64 none⟩

/-- `issueFileCap`; 0 when the table is full. -/
def issueFileCap (s : FsSession) (path : Bytes) (rights : UInt32) : UInt32 × FsSession :=
  if 64 ≤ s.fileCaps.length then (0, s)
  else
    (s.nextFileCapId, ⟨s.fileCaps ++ [⟨s.nextFileCapId, rights, path⟩], s.nextFileCapId + 1, s.contracts⟩)

/-- `cka_contract_open`: the first entry that is not in use, `none` when there is none. -/
def ckaContractOpen (s : FsSession) (rights policy : UInt32) : Option UInt64 × FsSession :=
  match s.contracts.findIdx? Option.isNone with
  | some i =>
    (some (UInt64.ofNat (i + 1)), ⟨s.fileCaps, s.nextFileCapId, s.contracts.set i (some (rights, policy))⟩)
  | none => (none, s)

/-- `issueFat32Contract`; 0 when the table is full. -/
def issueFat32Contract (s : FsSession) (rights policy : UInt32) : UInt64 × FsSession :=
  let (handle?, s) := ckaContractOpen s rights policy
  (handle?.getD 0, s)

def ckaContractGet (s : FsSession) (handle : UInt64) : Option (UInt32 × UInt32) :=
  if handle = 0 then none else s.contracts[(handle - 1).toNat]?.join

/-- What the file system sees of the tables. -/
def FsSession.env (s : FsSession) : CapEnv := ⟨s.fileCaps, ckaContractGet s⟩

/-! ### The calls -/

/-- The start of `fsRead` and `fsWrite` on a FAT32 disk: a task with a file capability and, when one
could be opened, a contract; `none` when no capability could be issued. -/
def openTask (s : FsSession) (path : Bytes) (rights contractRights policy : UInt32) :
    Option TaskContext × FsSession := let (cap, s) := issueFileCap s path rights
  if cap = 0 then (none, s)
  else
    let (contract, s) := issueFat32Contract s contractRights policy
    (some ⟨[cap], if contract ≠ 0 then [contract] else []⟩, s)

inductive FsCall where
  | read (path : NormalizedPath)
  | write (path : NormalizedPath) (data : Bytes) (safe : Bool)

inductive FsAnswer where
  | data (bytes? : Option Bytes)
  | done (ok : Bool)

def fsRead (path : NormalizedPath) (s : FsSession) (dev : Dev ss) :
    Checked (FsAnswer × FsSession × Dev ss) :=
  (fsDetectKind block dev.disk).bind fun kind? ↦
    match kind? with
    | none => some (.data none, s, dev)
    | some .fat32 =>
      let (task?, s) := openTask s path.flat capRFileRead fat32ContractRRead fat32PolicyFast
      match task? with
      | none => some (.data none, s, dev)
      | some task =>
        (fat32ReadFileData block s.env task path dev).map fun r ↦ (.data r.1.toOption, s, r.2)
    | some .fat16 => (fat16ReadFile block path dev).map fun r ↦ (.data r.1, s, r.2)

def fsWrite (path : NormalizedPath) (data : Bytes) (safe : Bool)
    (s : FsSession) (dev : Dev ss) : Checked (FsAnswer × FsSession × Dev ss) :=
  (fsDetectKind block dev.disk).bind fun kind? ↦
    match kind? with
    | none => some (.done false, s, dev)
    | some .fat32 =>
      let (task?, s) := openTask s path.flat (if safe then capRFileWriteSafe else capRFileWriteFast)
        fat32ContractRWrite (if safe then fat32PolicySafe else fat32PolicyFast)
      match task? with
      | none => some (.done false, s, dev)
      | some task =>
        (fat32WriteFileData block s.env task path data dev).map fun r ↦ (.done r.1.toOption.isSome, s, r.2)
    | some .fat16 => (fat16WriteFile block path data safe false dev).map fun r ↦ (.done r.1, s, r.2)

def fsCall : FsCall → FsSession → Dev ss → Checked (FsAnswer × FsSession × Dev ss)
  | .read path => fsRead block path
  | .write path data safe => fsWrite block path data safe

/-- The answer of a call and the disk it leaves: everything but the tables. -/
def fsAnswer (call : FsCall) (s : FsSession) (dev : Dev ss) :
    Checked (FsAnswer × Dev ss) := (fsCall block call s dev).map fun r ↦ (r.1, r.2.2)

/-! ### Sessions -/

/-- The sessions that calls, on any disks, and other users of the two tables lead to. -/
inductive SessionRun : FsSession → Prop where
  | fresh : SessionRun .fresh
  | call {s s' : FsSession} {ss : ℕ} {block : BlockDevice ss} {call : FsCall} {dev dev' : Dev ss}
      {answer : FsAnswer} : SessionRun s → fsCall block call s dev = some (answer, s', dev') →
      SessionRun s'
  | issue {s : FsSession} (path : Bytes) (rights : UInt32) : SessionRun s → SessionRun (issueFileCap s path rights).2
  | open {s : FsSession} (rights policy : UInt32) : SessionRun s → SessionRun (issueFat32Contract s rights policy).2

/-- Capabilities are numbered in the order of their issue, from 1 on. -/
structure FsSession.Inv (s : FsSession) : Prop where
  next : s.nextFileCapId.toNat = s.fileCaps.length + 1
  ids : ∀ e ∈ s.fileCaps, e.id.toNat ≤ s.fileCaps.length
  caps_le : s.fileCaps.length ≤ 64
  contracts_length : s.contracts.length = 64

def FsSession.freeContracts (s : FsSession) : ℕ := s.contracts.countP Option.isNone

def FsSession.HasRoom (s : FsSession) : Prop := s.fileCaps.length < 64 ∧ 0 < s.freeContracts

theorem FsSession.fresh_inv : FsSession.fresh.Inv := ⟨rfl, (fun _ h ↦ nomatch h), by decide, rfl⟩

theorem issueFileCap_full (h : 64 ≤ s.fileCaps.length) (path : Bytes) (rights : UInt32) :
    issueFileCap s path rights = (0, s) := if_pos h

theorem issueFileCap_room (h : s.fileCaps.length < 64) (path : Bytes) (rights : UInt32) :
    issueFileCap s path rights = (s.nextFileCapId,
      ⟨s.fileCaps ++ [⟨s.nextFileCapId, rights, path⟩], s.nextFileCapId + 1, s.contracts⟩) := if_neg (Nat.not_le.2 h)

theorem FsSession.Inv.issueFileCap (hs : s.Inv) (path : Bytes) (rights : UInt32) :
    (CapazOS.issueFileCap s path rights).2.Inv := by
  rcases Nat.lt_or_ge s.fileCaps.length 64 with hroom | hfull
  · rw [issueFileCap_room hroom]
    have hnext := hs.next
    refine ⟨?_, fun e he ↦ ?_, ?_, hs.contracts_length⟩
    · rw [length_append, length_singleton, UInt32.toNat_add, hnext,
        show UInt32.toNat 1 = 1 from rfl, Nat.mod_eq_of_lt (by omega)]
    · rw [length_append, length_singleton]
      rcases mem_append.1 he with he | he
      · exact (hs.ids e he).trans (Nat.le_succ _)
      · rw [mem_singleton.1 he]
        exact hnext.le
    · rw [length_append, length_singleton]
      omega
  · rw [issueFileCap_full hfull]
    exact hs

theorem ckaContractOpen_cases (hs : s.Inv) (rights policy : UInt32) :
    (s.freeContracts = 0 ∧ issueFat32Contract s rights policy = (0, s)) ∨
      ∃ i < 64, s.contracts[i]? = some none ∧ issueFat32Contract s rights policy = (UInt64.ofNat (i + 1),
          ⟨s.fileCaps, s.nextFileCapId, s.contracts.set i (some (rights, policy))⟩) := by
  rcases hfind : s.contracts.findIdx? Option.isNone with - | i
  · refine .inl ⟨?_, by simp [issueFat32Contract, ckaContractOpen, hfind]⟩
    rw [FsSession.freeContracts, countP_eq_zero]
    intro entry hentry
    rw [findIdx?_eq_none_iff.1 hfind entry hentry]
    exact Bool.false_ne_true
  · obtain ⟨hlt, hnone, -⟩ := findIdx?_eq_some_iff_getElem.1 hfind
    refine .inr ⟨i, by rw [← hs.contracts_length]; exact hlt, ?_, ?_⟩
    · rw [getElem?_eq_getElem hlt, Option.isNone_iff_eq_none.1 hnone]
    · simp [issueFat32Contract, ckaContractOpen, hfind]

theorem FsSession.Inv.issueFat32Contract (hs : s.Inv) (rights policy : UInt32) :
    (CapazOS.issueFat32Contract s rights policy).2.Inv := by
  rcases ckaContractOpen_cases hs rights policy with ⟨-, heq⟩ | ⟨i, -, -, heq⟩
  · rw [heq]
    exact hs
  · rw [heq]
    exact ⟨hs.next, hs.ids, hs.caps_le, by rw [length_set]; exact hs.contracts_length⟩

theorem countP_set_free {l : List (Option (UInt32 × UInt32))} {i : ℕ} (h : l[i]? = some none) (x : UInt32 × UInt32) :
    (l.set i (some x)).countP Option.isNone + 1 = l.countP Option.isNone := by
  induction l generalizing i with
  | nil => cases h
  | cons a l ih =>
    cases i with
    | zero =>
      obtain rfl := Option.some.inj h
      simp
    | succ i =>
      rw [set_cons_succ, countP_cons, countP_cons, ← ih h]
      omega

/-! ### Tasks -/

/-- The task holds the file right and the contract it was opened for. -/
def Granted (s : FsSession) (task : TaskContext) (path : Bytes) (rights contractRights policy : UInt32) : Prop :=
  task.hasRights s.env path rights = true ∧ task.contractPolicy s.env contractRights = some policy

section

variable (path : Bytes) (rights contractRights policy : UInt32)

theorem FsSession.Inv.openTask (hs : s.Inv) : (CapazOS.openTask s path rights contractRights policy).2.Inv := by
  unfold CapazOS.openTask
  simp only
  split
  · exact hs.issueFileCap path rights
  · exact (hs.issueFileCap path rights).issueFat32Contract contractRights policy

theorem lookupFileCap_issued (hs : s.Inv) (contract : UInt64 → Option (UInt32 × UInt32)) :
    lookupFileCap ⟨s.fileCaps ++ [⟨s.nextFileCapId, rights, path⟩], contract⟩ s.nextFileCapId =
      some ⟨s.nextFileCapId, rights, path⟩ := by
  have hold : s.fileCaps.find? (fun e ↦ decide (e.id = s.nextFileCapId)) = none := by
    refine find?_eq_none.2 fun e he ↦ ?_
    have hle := hs.ids e he
    have hnext := hs.next
    simp only [decide_eq_true_eq]
    intro heq
    rw [heq] at hle
    omega
  rw [lookupFileCap, find?_append, hold, Option.none_or]
  simp

theorem nextFileCapId_ne_zero (hs : s.Inv) : s.nextFileCapId ≠ 0 := by
  intro hzero
  have := hs.next
  rw [hzero] at this
  exact absurd this (by simp)

theorem ckaContractGet_opened {i : ℕ} (hi : i < 64) (hs : s.Inv) : UInt64.ofNat (i + 1) ≠ 0 ∧
      ckaContractGet ⟨s.fileCaps, s.nextFileCapId, s.contracts.set i (some (contractRights, policy))⟩
        (UInt64.ofNat (i + 1)) = some (contractRights, policy) := by
  have htoNat : (UInt64.ofNat (i + 1)).toNat = i + 1 := by exact Nat.mod_eq_of_lt (by omega)
  have hne : UInt64.ofNat (i + 1) ≠ 0 := by
    intro hzero
    rw [hzero] at htoNat
    exact absurd htoNat (by simp)
  have hidx : (UInt64.ofNat (i + 1) - 1).toNat = i := by
    have hle : (1 : UInt64) ≤ UInt64.ofNat (i + 1) := by
      rw [UInt64.le_iff_toNat_le, htoNat]
      exact Nat.le_add_left 1 i
    rw [UInt64.toNat_sub_of_le _ _ hle, htoNat]
    rfl
  refine ⟨hne, ?_⟩
  rw [ckaContractGet, if_neg hne, hidx, getElem?_set_self (by rw [hs.contracts_length]; exact hi)]
  rfl

/-- **With room in both tables** a task is opened with what it asks for, and each table has one
entry less. -/
theorem openTask_room (hs : s.Inv) (hroom : s.HasRoom) :
    ∃ task s', openTask s path rights contractRights policy = (some task, s') ∧
      Granted s' task path rights contractRights policy ∧
      s'.fileCaps.length = s.fileCaps.length + 1 ∧ s'.freeContracts + 1 = s.freeContracts := by
  obtain ⟨hcaps, hfree⟩ := hroom
  have hs₁ := hs.issueFileCap path rights
  rw [issueFileCap_room hcaps] at hs₁
  rcases ckaContractOpen_cases hs₁ contractRights policy with ⟨hnone, -⟩ | ⟨i, hi, hget, hopen⟩
  · exact absurd hnone (Nat.pos_iff_ne_zero.1 hfree)
  obtain ⟨hhandle, hlookup⟩ := ckaContractGet_opened contractRights policy hi hs₁
  refine ⟨⟨[s.nextFileCapId], [UInt64.ofNat (i + 1)]⟩,
    ⟨s.fileCaps ++ [⟨s.nextFileCapId, rights, path⟩], s.nextFileCapId + 1,
      s.contracts.set i (some (contractRights, policy))⟩, ?_, ⟨?_, ?_⟩, ?_, countP_set_free hget _⟩
  · unfold openTask
    simp only [issueFileCap_room hcaps, if_neg (nextFileCapId_ne_zero hs), hopen, if_pos hhandle]
  · simp only [TaskContext.hasRights, any_cons, any_nil, Bool.or_false, FsSession.env,
      lookupFileCap_issued path rights hs]
    simp
  · simp only [TaskContext.contractPolicy, findSome?_cons, FsSession.env, hlookup]
    simp
  · rw [length_append, length_singleton]

/-- **Without room** there is no task, or one without a contract. -/
theorem openTask_full (hs : s.Inv) (hfull : ¬s.HasRoom) : (openTask s path rights contractRights policy).1 = none ∨
      ∃ cap, (openTask s path rights contractRights policy).1 = some ⟨[cap], []⟩ := by
  rcases Nat.lt_or_ge s.fileCaps.length 64 with hcaps | hcaps
  · have hs₁ := hs.issueFileCap path rights
    rw [issueFileCap_room hcaps] at hs₁
    rcases ckaContractOpen_cases hs₁ contractRights policy with ⟨-, hopen⟩ | ⟨i, -, hget, -⟩
    · refine .inr ⟨s.nextFileCapId, ?_⟩
      unfold openTask
      simp [issueFileCap_room hcaps, if_neg (nextFileCapId_ne_zero hs), hopen]
    · exact absurd ⟨hcaps, countP_pos_iff.2 ⟨none, mem_of_getElem? hget, rfl⟩⟩ hfull
  · refine .inl ?_
    unfold openTask
    simp [issueFileCap_full hcaps]

theorem issueFat32Contract_fileCaps (s : FsSession) :
    (issueFat32Contract s contractRights policy).2.fileCaps = s.fileCaps := by
  unfold issueFat32Contract ckaContractOpen
  cases s.contracts.findIdx? Option.isNone <;> rfl

theorem openTask_fileCaps (hs : s.Inv) (hcaps : s.fileCaps.length < 64) :
    (openTask s path rights contractRights policy).2.fileCaps = s.fileCaps ++ [⟨s.nextFileCapId, rights, path⟩] := by
  simp only [openTask, issueFileCap_room hcaps, if_neg (nextFileCapId_ne_zero hs)]
  exact issueFat32Contract_fileCaps contractRights policy _

theorem openTask_eq_self_iff (hs : s.Inv) :
    (openTask s path rights contractRights policy).2 = s ↔ 64 ≤ s.fileCaps.length := by
  constructor
  · intro heq
    by_contra hcaps
    have hlength := congrArg (fun t ↦ t.fileCaps.length) heq
    simp only [openTask_fileCaps path rights contractRights policy hs (Nat.not_le.1 hcaps),
      length_append, length_singleton] at hlength
    omega
  · intro hcaps
    simp [openTask, issueFileCap_full hcaps]

end

/-! ### What a call does with the tables -/

section

variable {s' : FsSession} {block : BlockDevice ss} {call : FsCall} {dev dev' : Dev ss} {answer : FsAnswer}

/-- What a call asks for on a FAT32 disk: a path, the right to it, and a contract. -/
def FsCall.demand : FsCall → Bytes × UInt32 × UInt32 × UInt32
  | .read path => (path.flat, capRFileRead, fat32ContractRRead, fat32PolicyFast)
  | .write path _ safe => (path.flat, if safe then capRFileWriteSafe else capRFileWriteFast,
      fat32ContractRWrite, if safe then fat32PolicySafe else fat32PolicyFast)

def FsCall.open (call : FsCall) (s : FsSession) : Option TaskContext × FsSession :=
  openTask s call.demand.1 call.demand.2.1 call.demand.2.2.1 call.demand.2.2.2

/-- **A call changes the tables** only on a FAT32 disk, where it opens its task. -/
theorem fsCall_tables (h : fsCall block call s dev = some (answer, s', dev')) :
    (fsDetectKind block dev.disk ≠ some (some .fat32) ∧ s' = s) ∨
      fsDetectKind block dev.disk = some (some .fat32) ∧ s' = (call.open s).2 := by
  -- the two calls differ in what they ask for and in what they then do on the disk
  cases call <;>
  · obtain ⟨kind?, hkind, h⟩ := Option.bind_eq_some_iff.1 h
    rw [hkind]
    rcases kind? with - | - | -
    · cases h
      exact .inl ⟨(fun h ↦ nomatch h), rfl⟩
    · obtain ⟨r, -, heq⟩ := Option.map_eq_some_iff.1 h
      cases heq
      exact .inl ⟨(fun h ↦ nomatch h), rfl⟩
    · refine .inr ⟨rfl, ?_⟩
      simp only [FsCall.open, FsCall.demand] at h ⊢
      split at h
      · cases h
        rfl
      · obtain ⟨r, -, heq⟩ := Option.map_eq_some_iff.1 h
        cases heq
        rfl

theorem fat32ReadFileData_granted {task task' : TaskContext} {path : NormalizedPath} {policy : UInt32}
    (h : Granted s task path.flat capRFileRead fat32ContractRRead policy)
    (h' : Granted t task' path.flat capRFileRead fat32ContractRRead policy) (dev : Dev ss) :
    fat32ReadFileData block s.env task path dev = fat32ReadFileData block t.env task' path dev := by
  simp only [fat32ReadFileData, TaskContext.canReadFile, TaskContext.hasContract, h.1, h.2, h'.1, h'.2]

theorem fat32WriteFileData_granted {task task' : TaskContext} {path : NormalizedPath} {safe : Bool}
    (h : Granted s task path.flat (if safe then capRFileWriteSafe else capRFileWriteFast) fat32ContractRWrite
      (if safe then fat32PolicySafe else fat32PolicyFast))
    (h' : Granted t task' path.flat (if safe then capRFileWriteSafe else capRFileWriteFast) fat32ContractRWrite
      (if safe then fat32PolicySafe else fat32PolicyFast))
    (data : Bytes) (dev : Dev ss) :
    fat32WriteFileData block s.env task path data dev = fat32WriteFileData block t.env task' path data dev := by
  have hne : ¬fat32PolicyFast = fat32PolicySafe := by decide
  cases safe with
  | false =>
    simp only [Granted, Bool.false_eq_true, if_false] at h h'
    simp [fat32WriteFileData, h.2, h'.2, hne, decide_false, TaskContext.canWriteFileFast, h.1, h'.1]
  | true =>
    simp only [Granted, if_true] at h h'
    simp [fat32WriteFileData, h.2, h'.2, decide_true, TaskContext.canWriteFileSafe, h.1, h'.1]

theorem fsAnswer_room (hs : s.Inv) (hsroom : s.HasRoom) (ht : t.Inv) (htroom : t.HasRoom)
    (block : BlockDevice ss) (call : FsCall) (dev : Dev ss) :
    fsAnswer block call s dev = fsAnswer block call t dev := by
  cases call with
  | read path =>
    simp only [fsAnswer, fsCall, fsRead]
    rcases fsDetectKind block dev.disk with - | - | - | -
    · rfl
    · rfl
    · simp only [Option.bind_some, Option.map_map]
      rfl
    · obtain ⟨task, s', hopen, hgrant, -⟩ := openTask_room path.flat capRFileRead
        fat32ContractRRead fat32PolicyFast hs hsroom
      obtain ⟨task', t', hopen', hgrant', -⟩ := openTask_room path.flat capRFileRead
        fat32ContractRRead fat32PolicyFast ht htroom
      simp only [Option.bind_some, hopen, hopen', Option.map_map, fat32ReadFileData_granted hgrant hgrant']
      rfl
  | write path data safe =>
    simp only [fsAnswer, fsCall, fsWrite]
    rcases fsDetectKind block dev.disk with - | - | - | -
    · rfl
    · rfl
    · simp only [Option.bind_some, Option.map_map]
      rfl
    · obtain ⟨task, s', hopen, hgrant, -⟩ := openTask_room path.flat
        (if safe then capRFileWriteSafe else capRFileWriteFast) fat32ContractRWrite
        (if safe then fat32PolicySafe else fat32PolicyFast) hs hsroom
      obtain ⟨task', t', hopen', hgrant', -⟩ := openTask_room path.flat
        (if safe then capRFileWriteSafe else capRFileWriteFast) fat32ContractRWrite
        (if safe then fat32PolicySafe else fat32PolicyFast) ht htroom
      simp only [Option.bind_some, hopen, hopen', Option.map_map, fat32WriteFileData_granted hgrant hgrant']
      rfl

theorem fsAnswer_read_full (hs : s.Inv) (hfull : ¬s.HasRoom)
    (hkind : fsDetectKind block dev.disk = some (some .fat32)) (path : NormalizedPath) :
    fsAnswer block (.read path) s dev = some (.data none, dev) := by
  simp only [fsAnswer, fsCall, fsRead, hkind, Option.bind_some]
  rcases openTask_full path.flat capRFileRead fat32ContractRRead fat32PolicyFast hs hfull with
    hnone | ⟨cap, hsome⟩
  · simp [hnone]
  · have hdenied : ∀ env, fat32ReadFileData block env ⟨[cap], []⟩ path dev = some (.error .denied, dev) := by
      intro env
      rw [fat32ReadFileData, if_pos]
      rw [Bool.or_eq_true]
      exact .inr rfl
    simp only [hsome, hdenied, Option.map_some]
    rfl

end

theorem SessionRun.inv (h : SessionRun s) : s.Inv := by
  induction h with
  | fresh => exact FsSession.fresh_inv
  | call _ hcall ih =>
    rcases fsCall_tables hcall with ⟨-, rfl⟩ | ⟨-, rfl⟩
    · exact ih
    · exact ih.openTask _ _ _ _
  | issue path rights _ ih => exact ih.issueFileCap path rights
  | «open» rights policy _ ih => exact ih.issueFat32Contract rights policy

/-! ### History -/

theorem FsSession.fresh_hasRoom : FsSession.fresh.HasRoom := ⟨by decide, by decide⟩

def fsRepeat (block : BlockDevice ss) (call : FsCall) : ℕ → FsSession → Dev ss → Checked (FsSession × Dev ss)
  | 0, s, dev => some (s, dev)
  | n + 1, s, dev => (fsCall block call s dev).bind fun r ↦ fsRepeat block call n r.2.1 r.2.2

theorem small32_kind : fsDetectKind block32 (Dev.start small32).disk = some (some .fat32) := by
  decide +kernel

theorem small32_fileAt : FileAt vol32 (view vol32 small32) pathA.segments (contents (view vol32 small32) [3] 1) := by
  have hfinds : Finds vol32 (view vol32 small32) (some 2) [0x41] ⟨some 2, 0⟩ fileA32 := by
    refine ⟨[some 2], small32_flat.root, ?_⟩
    show lookupName (dirRecords .fat32 (view vol32 small32) [some 2]) [0x41] = _
    rw [small32_records]
    decide +kernel
  exact ⟨_, fileA32, [3], resolves_singleton.2 hfinds, rfl, .inr (small32_chain (.inr rfl)), rfl⟩

theorem small32_read (env : CapEnv) (task : TaskContext) :
    ∃ r, fat32ReadFileData block32 env task pathA (Dev.start small32) = some (r, Dev.start small32) ∧
      (MayRead env task pathA → r = .ok (contents (view vol32 small32) [3] 1)) := by
  obtain ⟨r, hread, hiff⟩ := fat32ReadFileData_eq vol32_sound rfl
    (show Consistent vol32 (view vol32 (Dev.start small32).disk) from
      small32_healthy.tree.toConsistent) (small32_healthy.mount_eq rfl rfl)
    (cleanPath_of_normalizePath (show normalizePath [0x2F, 0x41] = some pathA by decide)) env task
  exact ⟨r, hread, fun hmay ↦ (hiff _).2 ⟨hmay, small32_fileAt⟩⟩

theorem fsAnswer_small32 (hs : s.Inv) (hroom : s.HasRoom) : fsAnswer block32 (.read pathA) s (Dev.start small32) =
      some (.data (some (contents (view vol32 small32) [3] 1)), Dev.start small32) := by
  obtain ⟨task, s', hopen, hgrant, -⟩ := openTask_room pathA.flat capRFileRead
    fat32ContractRRead fat32PolicyFast hs hroom
  obtain ⟨r, hread, hok⟩ := small32_read s'.env task
  have hr := hok ⟨hgrant.1, by rw [TaskContext.hasContract, hgrant.2]; rfl⟩
  simp only [fsAnswer, fsCall, fsRead, small32_kind, Option.bind_some, hopen, hread, hr, Option.map_some]
  rfl

theorem fsCall_small32 (s : FsSession) : ∃ answer, fsCall block32 (.read pathA) s (Dev.start small32) =
      some (answer, ((FsCall.read pathA).open s).2, Dev.start small32) := by
  simp only [fsCall, fsRead, small32_kind, Option.bind_some, FsCall.open, FsCall.demand]
  rcases openTask s pathA.flat capRFileRead fat32ContractRRead fat32PolicyFast with ⟨- | task, s'⟩
  · exact ⟨_, rfl⟩
  · obtain ⟨r, hread, -⟩ := small32_read s'.env task
    exact ⟨.data r.toOption, by simp [hread]⟩

theorem fsRepeat_small32 (n : ℕ) (hs : s.Inv) (hn : s.fileCaps.length + n ≤ 64) :
    ∃ s', fsRepeat block32 (.read pathA) n s (Dev.start small32) = some (s', Dev.start small32) ∧
      s'.Inv ∧ s'.fileCaps.length = s.fileCaps.length + n := by
  induction n generalizing s with
  | zero => exact ⟨s, rfl, hs, rfl⟩
  | succ n ih =>
    obtain ⟨answer, hcall⟩ := fsCall_small32 s
    have hlength : ((FsCall.read pathA).open s).2.fileCaps.length = s.fileCaps.length + 1 := by
      rw [FsCall.open, openTask_fileCaps _ _ _ _ hs (by omega), length_append]
      rfl
    obtain ⟨s', hrepeat, hs', hcaps⟩ := ih (show ((FsCall.read pathA).open s).2.Inv from hs.openTask _ _ _ _) (by omega)
    exact ⟨s', by rw [fsRepeat, hcall]; exact hrepeat, hs', by omega⟩

/-- **When history does not matter.** In a session that is reached, every call on every disk answers
as it would in a fresh session exactly when both tables have room, if the I/O window refuses none
of its transfers (it is no part of `BlockDevice`). A call on a FAT32 disk that
returns leaves the tables as they were exactly when no capability was left to take; with room, it
takes one capability and one contract, for good. -/
theorem fs_history_iff {s : FsSession} (hrun : SessionRun s) :
    ((∀ (ss : ℕ) (block : BlockDevice ss) (call : FsCall) (dev : Dev ss),
        fsAnswer block call s dev = fsAnswer block call .fresh dev) ↔ s.HasRoom) ∧
    ∀ (ss : ℕ) (block : BlockDevice ss) (call : FsCall) (dev dev' : Dev ss) (answer : FsAnswer)
      (s' : FsSession), fsDetectKind block dev.disk = some (some .fat32) →
      fsCall block call s dev = some (answer, s', dev') →
      (s' = s ↔ 64 ≤ s.fileCaps.length) ∧ (s.HasRoom → s'.fileCaps.length = s.fileCaps.length + 1 ∧
          s'.freeContracts + 1 = s.freeContracts) := by
  have hs := hrun.inv
  refine ⟨⟨fun hsame ↦ ?_, fun hroom ss block call dev ↦ ?_⟩, ?_⟩
  · by_contra hfull
    have hnone := fsAnswer_read_full hs hfull small32_kind pathA
    rw [hsame, fsAnswer_small32 FsSession.fresh_inv FsSession.fresh_hasRoom] at hnone
    cases hnone
  · exact fsAnswer_room hs hroom FsSession.fresh_inv FsSession.fresh_hasRoom block call dev
  · intro ss block call dev dev' answer s' hkind hcall
    rcases fsCall_tables hcall with ⟨hnot, -⟩ | ⟨-, rfl⟩
    · exact absurd hkind hnot
    · refine ⟨openTask_eq_self_iff _ _ _ _ hs, fun hroom ↦ ?_⟩
      obtain ⟨task, s', hopen, -, hcaps, hfree⟩ := openTask_room call.demand.1 call.demand.2.1
        call.demand.2.2.1 call.demand.2.2.2 hs hroom
      rw [FsCall.open, hopen]
      exact ⟨hcaps, hfree⟩

theorem fs_history_one_read : ∃ s, SessionRun s ∧ s.fileCaps.length = 1 ∧
      ∀ (ss : ℕ) (block : BlockDevice ss) (call : FsCall) (dev : Dev ss),
        fsAnswer block call s dev = fsAnswer block call .fresh dev := by
  obtain ⟨answer, hcall⟩ := fsCall_small32 .fresh
  refine ⟨_, .call .fresh hcall, by decide, (fs_history_iff (.call .fresh hcall)).1.2 ?_⟩
  exact ⟨by decide, by decide⟩

/-- **The 65th read fails**, on the same disk as the first. -/
theorem fs_history_matters : ∃ s bytes, fsRepeat block32 (.read pathA) 64 .fresh (Dev.start small32) =
        some (s, Dev.start small32) ∧
      fsAnswer block32 (.read pathA) .fresh (Dev.start small32) = some (.data (some bytes), Dev.start small32) ∧
      fsAnswer block32 (.read pathA) s (Dev.start small32) = some (.data none, Dev.start small32) := by
  obtain ⟨s, hrepeat, hs, hcaps⟩ := fsRepeat_small32 64 FsSession.fresh_inv (by decide)
  have hfull : ¬s.HasRoom := fun hroom ↦ absurd hroom.1 (by rw [hcaps]; decide)
  exact ⟨s, _, hrepeat, fsAnswer_small32 FsSession.fresh_inv FsSession.fresh_hasRoom,
    fsAnswer_read_full hs hfull small32_kind pathA⟩

/-! ### Smoke tests -/

def fatChecksum32 (data : Bytes) : UInt32 :=
  data.foldl (fun sum b ↦ (sum <<< 5) - sum + b.toUInt32) 0

/-- The comparisons at the end of both smoke tests; a length that has no 32-bit number traps. -/
def smokeCompare (data : Bytes) (expectedSize expectedChecksum : UInt32) : Checked Bool :=
  if 2 ^ 32 ≤ data.length then none
  else if UInt32.ofNat data.length ≠ expectedSize then some false
  else some (fatChecksum32 data = expectedChecksum)

def fat16SmokeTest (path : NormalizedPath)
    (expectedSize expectedChecksum : UInt32) (dev : Dev ss) : Checked (Bool × Dev ss) :=
  (fat16ReadFile block path dev).bind fun (data?, dev) ↦
    match data? with
    | none => some (false, dev)
    | some data => (smokeCompare data expectedSize expectedChecksum).map fun ok ↦ (ok, dev)

/-- `fat32SmokeTest`: a task with a file capability, and no contract. -/
def fat32SmokeTest (path : NormalizedPath)
    (expectedSize expectedChecksum : UInt32) (s : FsSession) (dev : Dev ss) :
    Checked (Bool × FsSession × Dev ss) := let (cap, s) := issueFileCap s path.flat capRFileRead
  if cap = 0 then some (false, s, dev)
  else
    (fat32ReadFileData block s.env ⟨[cap], []⟩ path dev).bind fun (data?, dev) ↦
      match data? with
      | .error _ => some (false, s, dev)
      | .ok data => (smokeCompare data expectedSize expectedChecksum).map fun ok ↦ (ok, s, dev)

def smokeTest (ty : FatType) (block : BlockDevice ss) (path : NormalizedPath)
    (expectedSize expectedChecksum : UInt32) (s : FsSession) (dev : Dev ss) :
    Checked (Bool × FsSession × Dev ss) :=
  match ty with
  | .fat16 => (fat16SmokeTest block path expectedSize expectedChecksum dev).map fun (ok, dev) ↦ (ok, s, dev)
  | .fat32 => fat32SmokeTest block path expectedSize expectedChecksum s dev

/-- The path leads to a file of the expected length and checksum. -/
def Intact (vol : Volume) (v : View) (path : NormalizedPath) (expectedSize expectedChecksum : UInt32) : Prop :=
  ∃ bytes, FileAt vol v path.segments bytes ∧ bytes.length = expectedSize.toNat ∧ fatChecksum32 bytes = expectedChecksum

section

variable {block : BlockDevice ss} {vol : Volume} {v : View} {dev dev₁ : Dev ss} {path : NormalizedPath}
  {raw bytes : Bytes} {size sum : UInt32}

theorem FileAt.length_lt (hw : Chained vol v) {segs : List Bytes} (hsegs : ∀ s ∈ segs, PlainName s)
    (h : FileAt vol v segs bytes) : bytes.length < 2 ^ 32 := by
  obtain ⟨loc, e, cs, hres, -, -, rfl⟩ := h
  obtain ⟨dir, bs, -, hmem, -⟩ := hres.live hw hsegs
  obtain ⟨-, -, -, -, -, hrec⟩ := mem_dirRecords.1 hmem
  obtain ⟨slot, -, hslot⟩ := Option.bind_eq_some_iff.1 hrec
  rw [slotRecord, kind_of_slotRecord hslot] at hslot
  obtain ⟨name, -, rfl⟩ := Option.map_eq_some_iff.1 hslot
  exact (length_take_le _ _).trans_lt (readLE_lt 4 slot 28)

theorem smokeCompare_eq (h : bytes.length < 2 ^ 32) : smokeCompare bytes size sum =
    some (decide (bytes.length = size.toNat ∧ fatChecksum32 bytes = sum)) := by
  have hsize : UInt32.ofNat bytes.length = size ↔ bytes.length = size.toNat := by
    rw [← UInt32.toNat_inj, UInt32.toNat_ofNat_of_lt' h]
  rw [smokeCompare, if_neg (Nat.not_le.2 h)]
  by_cases heq : bytes.length = size.toNat
  · rw [if_neg (not_not.2 (hsize.2 heq))]
    simp [heq]
  · rw [if_pos (mt hsize.1 heq)]
    simp [heq]

theorem fat16SmokeTest_eq (hs : SoundVolume block vol) (hty : vol.fatType = .fat16)
    (hmount : mount .fat16 block dev = some (some vol, dev₁)) (hw : Chained vol (view vol dev₁.disk))
    (hpath : normalizePath raw = some path) : ∃ ok, fat16SmokeTest block path size sum dev = some (ok, dev₁) ∧
      (ok = true ↔ Intact vol (view vol dev₁.disk) path size sum) := by
  have hfile : ∀ bytes, fat16ReadFile block path dev = some (some bytes, dev₁) ↔
      FileAt vol (view vol dev₁.disk) path.segments bytes := by
    intro bytes
    rcases normalizePath_cases hpath with ⟨hroot, hnil⟩ | ⟨hroot, hne, hnormal⟩
    · -- the root is no file
      rw [fat16ReadFile_eq hs hmount, resolveFat16PathEntry, if_pos (.inl hroot), hnil]
      refine iff_of_false (fun h ↦ by cases h) ?_
      rintro ⟨-, -, -, ⟨init, name, -, heq, -⟩, -⟩
      simp at heq
    · exact fat16ReadFile_iff hs hty hw hmount ⟨hroot, hne, hnormal⟩
  obtain ⟨data?, hread⟩ : ∃ data?, fat16ReadFile block path dev = some (data?, dev₁) :=
    ⟨_, fat16ReadFile_eq hs hmount path⟩
  rw [fat16SmokeTest, hread, Option.bind_some]
  simp only [hread, Option.some.injEq, Prod.mk.injEq, and_true] at hfile
  rcases data? with - | bytes
  · refine ⟨false, rfl, iff_of_false Bool.false_ne_true ?_⟩
    rintro ⟨bytes, hbytes, -⟩
    cases (hfile bytes).2 hbytes
  · have hbytes := (hfile bytes).1 rfl
    have hplain := (cleanPath_of_normalizePath hpath).plain
    refine ⟨decide (bytes.length = size.toNat ∧ fatChecksum32 bytes = sum), ?_, decide_eq_true_iff.trans ?_⟩
    · simp [smokeCompare_eq (hbytes.length_lt hw hplain)]
    · refine ⟨fun h ↦ ⟨bytes, hbytes, h⟩, ?_⟩
      rintro ⟨bytes', hbytes', h⟩
      exact hbytes.unique hbytes' ▸ h

/-- **The FAT32 test never reads**: its task has no contract. -/
theorem fat32SmokeTest_eq (path : NormalizedPath) (size sum : UInt32) (s : FsSession) (dev : Dev ss) :
    fat32SmokeTest block path size sum s dev = some (false, (issueFileCap s path.flat capRFileRead).2, dev) := by
  unfold fat32SmokeTest
  rcases issueFileCap s path.flat capRFileRead with ⟨cap, s'⟩
  simp only
  split
  · rfl
  · have hdenied : fat32ReadFileData block s'.env ⟨[cap], []⟩ path dev = some (.error .denied, dev) := by
      rw [fat32ReadFileData, if_pos]
      rw [Bool.or_eq_true]
      exact .inr rfl
    rw [hdenied, Option.bind_some]

end

/-- **Which smoke tests decide.** On a mounted volume in which every live entry has its chain, the
test returns, with whether the path leads to a file of the expected length and checksum, **if and
only if** the format is FAT16 or there is no such file: the FAT32 test always fails, whatever room
the tables have. -/
theorem smoke_test_iff {block : BlockDevice ss} {vol : Volume} {dev dev₁ : Dev ss} {path : NormalizedPath}
    {raw : Bytes} {ty : FatType} (hs : SoundVolume block vol) (hty : vol.fatType = ty)
    (hmount : mount ty block dev = some (some vol, dev₁)) (hw : Chained vol (view vol dev₁.disk))
    (hpath : normalizePath raw = some path) (size sum : UInt32) (s : FsSession) :
    (∃ ok s' dev', smokeTest ty block path size sum s dev = some (ok, s', dev') ∧
        (ok = true ↔ Intact vol (view vol dev₁.disk) path size sum)) ↔
      ty = .fat16 ∨ ¬Intact vol (view vol dev₁.disk) path size sum := by
  cases ty with
  | fat16 =>
    obtain ⟨ok, htest, hok⟩ := fat16SmokeTest_eq hs hty hmount hw hpath
    exact iff_of_true ⟨ok, s, dev₁, by rw [smokeTest, htest, Option.map_some], hok⟩ (.inl rfl)
  | fat32 =>
    simp only [smokeTest, fat32SmokeTest_eq, reduceCtorEq, false_or]
    constructor
    · rintro ⟨ok, s', dev', heq, hok⟩
      cases heq
      exact fun h ↦ Bool.false_ne_true (hok.2 h)
    · exact fun h ↦ ⟨false, _, dev, rfl, iff_of_false Bool.false_ne_true h⟩

theorem smoke_test_small32 :
    (∃ ok s' dev', smokeTest .fat32 block32 pathA 2 0 .fresh (Dev.start small32) = some (ok, s', dev') ∧
        (ok = true ↔ Intact vol32 (view vol32 (Dev.start small32).disk) pathA 2 0)) ↔
      FatType.fat32 = .fat16 ∨ ¬Intact vol32 (view vol32 (Dev.start small32).disk) pathA 2 0 := by
  have hpath : normalizePath [0x2F, 0x41] = some pathA := by decide
  have hmount : mount .fat32 block32 (Dev.start small32) = some (some vol32, Dev.start small32) :=
    small32_healthy.mount_eq rfl rfl
  have hw : Chained vol32 (view vol32 (Dev.start small32).disk) := small32_healthy.tree.toChained
  exact smoke_test_iff vol32_sound rfl hmount hw hpath 2 0 .fresh

/-- `A` holds one zero byte, as expected, and the test fails in a fresh session. -/
theorem smoke_test_denied : fat32SmokeTest block32 pathA 1 0 .fresh (Dev.start small32) =
        some (false, (issueFileCap .fresh pathA.flat capRFileRead).2, Dev.start small32) ∧
      Intact vol32 (view vol32 small32) pathA 1 0 := by
  have hbytes : contents (view vol32 small32) [3] 1 = [0] := by
    have hcluster : (view vol32 small32).cluster 3 = (small32 1073).1 := diskBytes_one small32 1073
    rw [contents, flatMap_singleton, hcluster]
    decide +kernel
  exact ⟨fat32SmokeTest_eq pathA 1 0 .fresh _, [0], hbytes ▸ small32_fileAt, by decide, by decide⟩

end CapazOS
