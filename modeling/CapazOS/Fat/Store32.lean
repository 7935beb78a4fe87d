import CapazOS.Fat.Files32
import CapazOS.Fat.Flat

/-!
# The FAT32 file system refines a map from paths to bytes

The abstract component is a map from paths to byte strings (`FileStore`). `Healthy` is the invariant
of the concrete one: a volume in good order with an idle log and equal copies of the table. Each
call fails and leaves the disk as it is, or is an `Edit` that does to the files on the disk what it
does to the map (`Call.simulates`); by induction this holds for whole runs (`fat32_refines_store`).
-/

namespace CapazOS

open List Function

variable {segs : List Bytes}

variable {ss : ℕ} {block : BlockDevice ss} {vol : Volume}
variable {dev : Dev ss} {d : Disk ss}

/-! ### The abstract store -/

/-- A map from paths, as lists of segments, to the bytes of files. -/
abbrev FileStore := List Bytes → Option Bytes

variable {σ : FileStore}

inductive Call where
  | read (env : CapEnv) (task : TaskContext) (path : NormalizedPath)
  | write (env : CapEnv) (task : TaskContext) (path : NormalizedPath) (data : Bytes)
  | delete (path : NormalizedPath) (safe : Bool)

inductive Reply where
  | bytes (data : Bytes)
  | done
  | failed

def Call.path : Call → NormalizedPath
  | .read _ _ path => path
  | .write _ _ path _ => path
  | .delete path _ => path

def Call.data : Call → Bytes
  | .write _ _ _ data => data
  | _ => []

/-- Paths come from `normalizePath`, and data is at most as long as the guard of the loops
allows. -/
def Call.Valid (vol : Volume) (c : Call) : Prop :=
  (∃ raw, normalizePath raw = some c.path) ∧ requiredClusters vol c.data ≤ chainGuard

def FileStore.after (σ : FileStore) : Call × Reply → FileStore
  | (.write _ _ path data, .done) => update σ path.segments (some data)
  | (.delete path _, .done) => update σ path.segments none
  | _ => σ

def FileStore.afterAll (σ : FileStore) (history : List (Call × Reply)) : FileStore :=
  history.foldl FileStore.after σ

/-- The replies the map gives: a read returns the value of its path, provided that the task may read
it; a write or a deletion succeeds on existing files only. -/
def Call.Answered (σ : FileStore) : Call × Reply → Prop
  | (.read env task path, reply) =>
    ∀ bytes, reply = .bytes bytes ↔ MayRead env task path ∧ σ path.segments = some bytes
  | (.write _ _ path _, reply) => reply = .done → σ path.segments ≠ none
  | (.delete path _, reply) => reply = .done → σ path.segments ≠ none

/-- Every reply of a history is the map's at its time. -/
def FileStore.Answers : FileStore → List (Call × Reply) → Prop
  | _, [] => True
  | σ, step :: rest => Call.Answered σ step ∧ FileStore.Answers (σ.after step) rest

/-! ### The concrete store -/

def Call.perform (block : BlockDevice ss) : Call → Dev ss → Checked (Reply × Dev ss)
  | .read env task path, dev =>
    (fat32ReadFileData block env task path dev).map fun (r, dev) ↦
      match r with
      | .ok data => (.bytes data, dev)
      | .error _ => (.failed, dev)
  | .write env task path data, dev =>
    (fat32WriteFileData block env task path data dev).map fun (r, dev) ↦
      match r with
      | .ok () => (.done, dev)
      | .error _ => (.failed, dev)
  | .delete path safe, dev =>
    (fat32DeleteFile block path safe dev).map fun (ok, dev) ↦ (if ok then .done else .failed, dev)

/-- A sequence of calls; `none` if one of them traps. -/
def runCalls (block : BlockDevice ss) : List Call → Dev ss → Checked (List Reply × Dev ss)
  | [], dev => some ([], dev)
  | c :: calls, dev =>
    (c.perform block dev).bind fun (reply, dev) ↦
      (runCalls block calls dev).map fun (replies, dev) ↦ (reply :: replies, dev)

open Classical in
/-- The files of a volume, as a map. -/
noncomputable def filesOf (vol : Volume) (v : View) : FileStore := fun segs ↦
  if h : ∃ bytes, FileAt vol v segs bytes then some h.choose else none

theorem filesOf_eq_some {v : View} {bytes : Bytes} : filesOf vol v segs = some bytes ↔ FileAt vol v segs bytes := by
  unfold filesOf
  split
  · next h =>
    rw [Option.some.injEq]
    exact ⟨fun heq ↦ heq ▸ h.choose_spec, fun hfile ↦ h.choose_spec.unique hfile⟩
  · next h => exact iff_of_false (fun heq ↦ nomatch heq) fun hfile ↦ h ⟨bytes, hfile⟩

theorem filesOf_eq_none {v : View} : filesOf vol v segs = none ↔ ∀ bytes, ¬FileAt vol v segs bytes := by
  rw [Option.eq_none_iff_forall_ne_some]
  exact forall_congr' fun bytes ↦ not_congr filesOf_eq_some

structure Healthy (block : BlockDevice ss) (vol : Volume) (d : Disk ss) : Prop extends GoodDisk block vol d where
  idle : Idle vol d
  mirrored : Mirrored vol d

theorem Healthy.mount_eq (h : Healthy block vol d) (hty : vol.fatType = .fat32) (hd : dev.disk = d) :
    mount .fat32 block dev = some (some vol, dev) := by
  subst hd
  rw [← hty]
  exact CapazOS.mount_eq h.sound.mountable h.anchored h.idle

/-- `σ` is the map of the files on `d`, as far as paths go. -/
def Maps (vol : Volume) (σ : FileStore) (d : Disk ss) : Prop :=
  ∀ segs : List Bytes, (∀ s ∈ segs, PlainName s) → σ segs = filesOf vol (view vol d) segs

/-- Every path that resolves on `d'` resolves on `d`. -/
def NoNewPaths (vol : Volume) (d d' : Disk ss) : Prop :=
  ∀ segs : List Bytes, (∀ s ∈ segs, PlainName s) →
    (∃ loc e, Resolves vol (view vol d') (rootDir vol) segs loc e) →
      ∃ loc e, Resolves vol (view vol d) (rootDir vol) segs loc e

/-! ### Single calls -/

theorem Rewritten.store {dev' : Dev ss} {data : Bytes} (hh : Healthy block vol dev.disk)
    (h : Rewritten vol dev dev' segs data) :
    Healthy block vol dev'.disk ∧ filesOf vol (view vol dev.disk) segs ≠ none ∧
      Maps vol (update (filesOf vol (view vol dev.disk)) segs (some data)) dev'.disk ∧
      NoNewPaths vol dev.disk dev'.disk := by
  obtain ⟨loc, e, s₀, s, touched, cs, hedit, hname, hfits, hspare, hcontents⟩ := h.edit
  obtain ⟨us, hperf, hin⟩ := h.performed
  have hw' := hedit.wellFormed hname hfits hspare
  have hself := hedit.fileAt_self hname hw' hfits
  rw [hcontents] at hself
  refine ⟨⟨⟨hh.sound, (hperf.mount_eq hh.sound.mountable hin hh.anchored hh.idle).1, hw'⟩,
    hperf.idle hh.idle, h.mirrored hh.mirrored⟩, ?_, fun q hq ↦ ?_, fun q hq hres ↦ ?_⟩
  · obtain ⟨cs', hcs', -⟩ := hh.tree.chain hedit.live
    have hfile : FileAt vol (view vol dev.disk) segs _ := ⟨loc, e, cs', hedit.resolves, hedit.file, hcs', rfl⟩
    rw [filesOf_eq_some.2 hfile]
    exact Option.some_ne_none _
  · rcases eq_or_ne q segs with rfl | hne
    · rw [update_self, filesOf_eq_some.2 hself]
    · rw [update_of_ne hne]
      refine Option.ext fun bytes ↦ ?_
      rw [filesOf_eq_some, filesOf_eq_some, hedit.fileAt_other hname hw' hq hne]
  · obtain ⟨l, x, hres⟩ := hres
    exact hedit.resolves_of_edited hname hw' hq hres

theorem Removed.store {dev' : Dev ss} (hh : Healthy block vol dev.disk) (h : Removed vol dev dev' segs) :
    Healthy block vol dev'.disk ∧ filesOf vol (view vol dev.disk) segs ≠ none ∧
      Maps vol (update (filesOf vol (view vol dev.disk)) segs none) dev'.disk ∧
      NoNewPaths vol dev.disk dev'.disk ∧
      ¬∃ loc e, Resolves vol (view vol dev'.disk) (rootDir vol) segs loc e := by
  obtain ⟨loc, e, s₀, s, touched, hedit, hkind⟩ := h.edit
  obtain ⟨us, hperf, hin⟩ := h.performed
  have hw' := hedit.wellFormed_deleted hkind
  have hgone : ¬∃ l x, Resolves vol (view vol dev'.disk) (rootDir vol) segs l x := fun ⟨_, _, hres⟩ ↦
    hedit.gone hkind hres
  refine ⟨⟨⟨hh.sound, (hperf.mount_eq hh.sound.mountable hin hh.anchored hh.idle).1, hw'⟩,
    hperf.idle hh.idle, h.mirrored hh.mirrored⟩, ?_, fun q hq ↦ ?_, fun q hq hres ↦ ?_, hgone⟩
  · obtain ⟨cs', hcs', -⟩ := hh.tree.chain hedit.live
    have hfile : FileAt vol (view vol dev.disk) segs _ := ⟨loc, e, cs', hedit.resolves, hedit.file, hcs', rfl⟩
    rw [filesOf_eq_some.2 hfile]
    exact Option.some_ne_none _
  · rcases eq_or_ne q segs with rfl | hne
    · rw [update_self, eq_comm, filesOf_eq_none]
      rintro bytes ⟨l, x, -, hres, -⟩
      exact hgone ⟨l, x, hres⟩
    · rw [update_of_ne hne]
      refine Option.ext fun bytes ↦ ?_
      rw [filesOf_eq_some, filesOf_eq_some, hedit.fileAt_other_deleted hkind hq hne]
  · obtain ⟨l, x, hres⟩ := hres
    exact ⟨l, x, hedit.resolves_of_deleted hkind hq hres⟩

theorem Healthy.located (hh : Healthy block vol d) {path : NormalizedPath} (hpath : CleanPath path)
    {loc : SlotLoc} {e : FatDirEntry}
    (hres : Resolves vol (view vol d) (rootDir vol) path.segments loc e) (hfile : e.isDir = false) :
    ∃ s₀ chain, Located vol (view vol d) path.segments loc e s₀ chain := by
  have hlive := hres.live hh.tree.toChained hpath.plain
  obtain ⟨chain, hchain, -⟩ := hh.tree.chain hlive
  obtain ⟨dir, bs, -, hmem, -⟩ := hlive
  obtain ⟨-, -, -, -, -, hrec⟩ := mem_dirRecords.1 hmem
  obtain ⟨s₀, hs₀, -⟩ := Option.bind_eq_some_iff.1 hrec
  exact ⟨s₀, chain, hh.tree, hpath.plain, hres, hfile, hs₀, hchain⟩

theorem puts_or_no_log (hs : SoundVolume block vol) (hty : vol.fatType = .fat32) (safe : Bool) :
    Puts block vol (fat32Put block vol safe) ∨ safe = true ∧ vol.walStartLBA = 0 := by
  have hm := hs.mountable
  rw [hty] at hm
  rcases eq_or_ne vol.walStartLBA 0 with hzero | hlog
  · cases safe with
    | false => exact .inl (puts_fat32Put hm fun hsafe ↦ nomatch hsafe)
    | true => exact .inr ⟨rfl, hzero⟩
  · exact .inl (puts_fat32Put hm fun _ ↦ hlog)

/-- The mode in which the task may write the path: safe or fast, `none` if it may not. -/
def writeMode (env : CapEnv) (task : TaskContext) (path : NormalizedPath) : Option Bool :=
  match task.contractPolicy env fat32ContractRWrite with
  | none => none
  | some policy =>
    if policy = fat32PolicyBackground then none
    else if policy = fat32PolicySafe then
      if task.canWriteFileSafe env path.flat then some true else none
    else if task.canWriteFileFast env path.flat then some false else none

/-- `fat32WriteFileData` of a task that may write in a mode. -/
def fat32WriteAs (block : BlockDevice ss) (path : NormalizedPath) (data : Bytes) (safe : Bool) (dev : Dev ss) :
    Checked (Except FsError Unit × Dev ss) :=
  (mount .fat32 block dev).bind fun (vol?, dev) ↦
    match vol? with
    | none => some (.error .notFat32, dev)
    | some vol =>
      match readFAT block vol dev.disk with
      | none => some (.error .readFat, dev)
      | some fat =>
        match resolvePathEntryLocation block vol dev.disk fat path with
        | none => some (.error .notFound, dev)
        | some (entry, loc) => fat32WriteAt block vol fat entry loc data safe dev

theorem fat32WriteFileData_mode (block : BlockDevice ss) (env : CapEnv) (task : TaskContext)
    (path : NormalizedPath) (data : Bytes) (dev : Dev ss) :
    fat32WriteFileData block env task path data dev = match writeMode env task path with
      | none => some (.error .denied, dev)
      | some safe => fat32WriteAs block path data safe dev := by
  unfold fat32WriteFileData writeMode
  rcases task.contractPolicy env fat32ContractRWrite with - | policy
  · rfl
  · rcases Decidable.em (policy = fat32PolicyBackground) with hback | hback
    · simp only [if_pos hback]
    · simp only [if_neg hback]
      rcases Decidable.em (policy = fat32PolicySafe) with hsafe | hsafe
      · simp only [hsafe, decide_true, if_true]
        cases task.canWriteFileSafe env path.flat <;> rfl
      · simp only [hsafe, decide_false, if_false, Bool.false_eq_true]
        cases task.canWriteFileFast env path.flat <;> rfl

theorem fat32WriteFileData_eq (hs : SoundVolume block vol)
    (hmount : mount .fat32 block dev = some (some vol, dev)) (env : CapEnv) (task : TaskContext)
    (path : NormalizedPath) (data : Bytes) :
    fat32WriteFileData block env task path data dev = match writeMode env task path with
      | none => some (.error .denied, dev)
      | some safe =>
        match resolvePathEntryLocation block vol dev.disk (table vol dev.disk) path with
        | none => some (.error .notFound, dev)
        | some (entry, loc) => fat32WriteAt block vol (table vol dev.disk) entry loc data safe dev := by
  rw [fat32WriteFileData_mode]
  rcases writeMode env task path with - | safe
  · rfl
  · simp [fat32WriteAs, hmount, readFAT_eq hs]

/-- **What a write does**: it fails and leaves the disk as it is, or rewrites the file. It traps at
most for data whose size does not fit 32 bits. -/
theorem fat32WriteFileData_cases (hty : vol.fatType = .fat32) (hh : Healthy block vol dev.disk)
    {path : NormalizedPath} (hpath : CleanPath path) {data : Bytes}
    (hguard : requiredClusters vol data ≤ chainGuard) (env : CapEnv) (task : TaskContext) :
    (fat32WriteFileData block env task path data dev = none ∧ 2 ^ 32 ≤ data.length) ∨
      (∃ err dev', fat32WriteFileData block env task path data dev = some (.error err, dev') ∧ dev'.disk = dev.disk) ∨
      ∃ dev', fat32WriteFileData block env task path data dev = some (.ok (), dev') ∧
        Rewritten vol dev dev' path.segments data := by
  have hs := hh.sound
  rw [fat32WriteFileData_eq hs (hh.mount_eq hty rfl)]
  rcases writeMode env task path with - | safe
  · exact .inr (.inl ⟨_, dev, rfl, rfl⟩)
  rcases hfind : resolvePathEntryLocation block vol dev.disk (table vol dev.disk) path with
    - | ⟨e, loc⟩
  · exact .inr (.inl ⟨_, dev, rfl, rfl⟩)
  have hres := (resolvePathEntryLocation_iff hs hty hh.tree.toConsistent hpath).1 hfind
  simp only
  rcases hdir : e.isDir with - | -
  · obtain ⟨s₀, chain, hloc⟩ := hh.located hpath hres hdir
    rcases puts_or_no_log hs hty safe with hput | ⟨rfl, hlog⟩
    · rcases Nat.lt_or_ge data.length (2 ^ 32) with hsize | hbig
      · rcases fat32WriteAt_cases hs hty hput hloc hsize hguard with hfull | hok
        · exact .inr (.inl ⟨_, dev, hfull, rfl⟩)
        · exact .inr (.inr hok)
      · rcases fat32WriteAt_big hs hty hput hloc hbig hguard with htrap | hfull
        · exact .inl ⟨htrap, hbig⟩
        · exact .inr (.inl ⟨_, dev, hfull, rfl⟩)
    · exact .inr (.inl (fat32WriteAt_no_log hlog hs _ e loc data dev))
  · refine .inr (.inl ⟨.notFile, dev, ?_, rfl⟩)
    rw [fat32WriteAt, if_pos hdir]

/-- **What a deletion does**: it fails and leaves the disk as it is, or removes the file. -/
theorem fat32DeleteFile_cases (hty : vol.fatType = .fat32) (hh : Healthy block vol dev.disk)
    {path : NormalizedPath} (hpath : CleanPath path) (safe : Bool) :
    (∃ dev', fat32DeleteFile block path safe dev = some (false, dev') ∧ dev'.disk = dev.disk) ∨
      ∃ dev', fat32DeleteFile block path safe dev = some (true, dev') ∧ Removed vol dev dev' path.segments := by
  have hs := hh.sound
  unfold fat32DeleteFile
  split
  · exact .inl ⟨dev, rfl, rfl⟩
  · rw [hh.mount_eq hty rfl, Option.map_some]
    simp only [readFAT_eq hs]
    rcases hfind : resolvePathEntryLocation block vol dev.disk (table vol dev.disk) path with
      - | ⟨e, loc⟩
    · exact .inl ⟨dev, rfl, rfl⟩
    · have hres := (resolvePathEntryLocation_iff hs hty hh.tree.toConsistent hpath).1 hfind
      rcases hdir : e.isDir with - | -
      · obtain ⟨s₀, chain, hloc⟩ := hh.located hpath hres hdir
        rcases puts_or_no_log hs hty safe with hput | ⟨rfl, hlog⟩
        · obtain ⟨dev', hdelete, hremoved⟩ := fat32DeleteAt_performed hs hty hput hloc
          exact .inr ⟨dev', congrArg some hdelete, hremoved⟩
        · obtain ⟨dev', hfail, hdisk⟩ := fat32DeleteAt_no_log hlog hs (table vol dev.disk) e loc dev
          exact .inl ⟨dev', congrArg some hfail, hdisk⟩
      · refine .inl ⟨dev, ?_, rfl⟩
        simp only [fat32DeleteAt, if_pos hdir]

/-- What one call keeps and does: the volume stays healthy, the files change as the map does, the
reply is the map's, and no path comes to resolve. -/
structure Simulated (block : BlockDevice ss) (vol : Volume) (d d' : Disk ss) (step : Call × Reply) : Prop where
  healthy : Healthy block vol d'
  maps : Maps vol ((filesOf vol (view vol d)).after step) d'
  answered : Call.Answered (filesOf vol (view vol d)) step
  noNew : NoNewPaths vol d d'
  gone : ∀ path safe, step = (.delete path safe, .done) →
    ¬∃ loc e, Resolves vol (view vol d') (rootDir vol) path.segments loc e

theorem Healthy.simulated_failed {d' : Disk ss} (hh : Healthy block vol d) (hd : d' = d) (c : Call)
    (hread : ∀ env task path, c = .read env task path → ∀ bytes,
      ¬(MayRead env task path ∧ FileAt vol (view vol d) path.segments bytes)) :
    Simulated block vol d d' (c, .failed) := by
  subst hd
  have hafter : (filesOf vol (view vol d')).after (c, .failed) = filesOf vol (view vol d') := by cases c <;> rfl
  refine ⟨hh, fun segs _ ↦ by rw [hafter], ?_, fun _ _ hres ↦ hres, fun path safe heq ↦ ?_⟩
  · cases c with
    | read env task path =>
      intro bytes
      rw [filesOf_eq_some]
      exact iff_of_false (fun heq ↦ nomatch heq) (hread env task path rfl bytes)
    | write env task path data => exact fun heq ↦ nomatch heq
    | delete path safe => exact fun heq ↦ nomatch heq
  · cases heq

/-- **One call simulates the map.** -/
theorem Call.simulates (hty : vol.fatType = .fat32) (hh : Healthy block vol dev.disk) {c : Call} (hc : c.Valid vol) :
    (c.perform block dev = none ∧ 2 ^ 32 ≤ c.data.length) ∨ ∃ reply dev', c.perform block dev = some (reply, dev') ∧
        Simulated block vol dev.disk dev'.disk (c, reply) := by
  obtain ⟨⟨raw, hraw⟩, hguard⟩ := hc
  cases c with
  | read env task path =>
    have hpath : CleanPath path := cleanPath_of_normalizePath hraw
    obtain ⟨r, hread, hiff⟩ := fat32ReadFileData_eq hh.sound hty hh.tree.toConsistent
      (hh.mount_eq hty rfl) hpath env task
    simp only [Call.perform, hread, Option.map_some]
    rcases r with err | data
    · refine .inr ⟨.failed, dev, rfl, ?_⟩
      refine hh.simulated_failed rfl _ ?_
      rintro env' task' path' heq bytes hmay
      cases heq
      exact nomatch (hiff bytes).2 hmay
    · refine .inr ⟨.bytes data, dev, rfl, ?_⟩
      refine ⟨hh, fun segs _ ↦ rfl, fun bytes ↦ ?_, fun _ _ hres ↦ hres, fun _ _ heq ↦ nomatch heq⟩
      rw [filesOf_eq_some]
      refine Iff.trans ?_ (hiff bytes)
      rw [Reply.bytes.injEq, Except.ok.injEq]
  | write env task path data =>
    have hpath : CleanPath path := cleanPath_of_normalizePath hraw
    replace hguard : requiredClusters vol data ≤ chainGuard := hguard
    rcases fat32WriteFileData_cases hty hh hpath hguard env task with
      ⟨htrap, hbig⟩ | ⟨err, dev', hfail, hdisk⟩ | ⟨dev', hok, hrewritten⟩
    · exact .inl ⟨by simp [Call.perform, htrap], hbig⟩
    · refine .inr ⟨.failed, dev', by simp [Call.perform, hfail], ?_⟩
      exact hh.simulated_failed hdisk _ fun _ _ _ heq ↦ nomatch heq
    · refine .inr ⟨.done, dev', by simp [Call.perform, hok], ?_⟩
      obtain ⟨hh', hold, hmaps, hnoNew⟩ := hrewritten.store hh
      exact ⟨hh', hmaps, fun _ ↦ hold, hnoNew, fun _ _ heq ↦ nomatch heq⟩
  | delete path safe =>
    have hpath : CleanPath path := cleanPath_of_normalizePath hraw
    rcases fat32DeleteFile_cases hty hh hpath safe with ⟨dev', hfail, hdisk⟩ | ⟨dev', hok, hremoved⟩
    · refine .inr ⟨.failed, dev', by simp only [Call.perform, hfail, Option.map_some]; rfl, ?_⟩
      exact hh.simulated_failed hdisk _ fun _ _ _ heq ↦ nomatch heq
    · refine .inr ⟨.done, dev', by simp only [Call.perform, hok, Option.map_some]; rfl, ?_⟩
      obtain ⟨hh', hold, hmaps, hnoNew, hgone⟩ := hremoved.store hh
      refine ⟨hh', hmaps, fun _ ↦ hold, hnoNew, ?_⟩
      rintro path' safe' heq
      cases heq
      exact hgone

/-! ### Runs -/

theorem Maps.after {d' : Disk ss} {step : Call × Reply} (h : Maps vol σ d)
    (hstep : Maps vol ((filesOf vol (view vol d)).after step) d') : Maps vol (σ.after step) d' := by
  intro segs hsegs
  rw [← hstep segs hsegs]
  have hvalue := h segs hsegs
  rcases step with ⟨⟨env, task, path⟩ | ⟨env, task, path, data⟩ | ⟨path, safe⟩, - | - | -⟩ <;> first
    | exact hvalue
    | simp only [FileStore.after, update_apply, hvalue]

theorem Answered.of_maps {step : Call × Reply} (h : Maps vol σ d) (hpath : CleanPath step.1.path)
    (hstep : Call.Answered (filesOf vol (view vol d)) step) : Call.Answered σ step := by
  have hvalue := h step.1.path.segments hpath.plain
  rcases step with ⟨⟨env, task, path⟩ | ⟨env, task, path, data⟩ | ⟨path, safe⟩, reply⟩ <;>
  · simp only [Call.Answered, Call.path] at hvalue hstep ⊢
    rw [hvalue]
    exact hstep

structure RunSimulated (block : BlockDevice ss) (vol : Volume) (σ : FileStore) (d' : Disk ss)
    (history : List (Call × Reply)) : Prop where
  healthy : Healthy block vol d'
  maps : Maps vol (σ.afterAll history) d'
  answers : σ.Answers history
  gone : ∀ path safe, (Call.delete path safe, Reply.done) ∈ history →
    ¬∃ loc e, Resolves vol (view vol d') (rootDir vol) path.segments loc e

/-- **Runs simulate the map**: the induction over the calls. -/
theorem runCalls_simulates (hty : vol.fatType = .fat32) {calls : List Call}
    (hcalls : ∀ c ∈ calls, c.Valid vol) (hh : Healthy block vol dev.disk) (hσ : Maps vol σ dev.disk) :
    (∀ replies dev', runCalls block calls dev = some (replies, dev') →
      RunSimulated block vol σ dev'.disk (calls.zip replies) ∧ NoNewPaths vol dev.disk dev'.disk) ∧
    ((∀ c ∈ calls, c.data.length < 2 ^ 32) → ∃ replies dev', runCalls block calls dev = some (replies, dev')) := by
  induction calls generalizing dev σ with
  | nil =>
    refine ⟨?_, fun _ ↦ ⟨[], dev, rfl⟩⟩
    intro replies dev' heq
    obtain ⟨rfl, rfl⟩ := Prod.mk.inj (Option.some.inj heq)
    exact ⟨⟨hh, hσ, trivial, fun _ _ hmem ↦ nomatch hmem⟩, fun _ _ hres ↦ hres⟩
  | cons c calls ih =>
    obtain ⟨hc, hrest⟩ := forall_mem_cons.1 hcalls
    have hpath : CleanPath c.path := hc.1.elim fun _ hraw ↦ cleanPath_of_normalizePath hraw
    rw [runCalls]
    rcases Call.simulates hty hh hc with ⟨htrap, hbig⟩ | ⟨reply, dev₁, hperform, hsim⟩
    · rw [htrap]
      refine ⟨fun replies dev' heq ↦ (nomatch heq), fun hsizes ↦ ?_⟩
      exact absurd (hsizes c mem_cons_self) (Nat.not_lt.2 hbig)
    · have hmaps₁ : Maps vol (σ.after (c, reply)) dev₁.disk := hσ.after hsim.maps
      obtain ⟨hrun, htotal⟩ := ih hrest hsim.healthy hmaps₁
      rw [hperform, Option.bind_some]
      refine ⟨?_, fun hsizes ↦ ?_⟩
      · intro replies dev' heq
        obtain ⟨⟨replies', dev₂⟩, hcont, heq⟩ := Option.map_eq_some_iff.1 heq
        obtain ⟨rfl, rfl⟩ := Prod.mk.inj heq
        obtain ⟨hsim', hnoNew⟩ := hrun replies' dev₂ hcont
        refine ⟨⟨hsim'.healthy, hsim'.maps, ⟨Answered.of_maps hσ hpath hsim.answered, hsim'.answers⟩,
          fun path safe hmem ↦ ?_⟩, fun segs hsegs hres ↦ hsim.noNew segs hsegs (hnoNew segs hsegs hres)⟩
        rcases mem_cons.1 hmem with hhead | htail
        · -- a path that is gone stays gone
          obtain ⟨rfl, rfl⟩ := Prod.mk.inj hhead
          exact fun hres ↦ hsim.gone path safe rfl (hnoNew path.segments hpath.plain hres)
        · exact hsim'.gone path safe htail
      · obtain ⟨replies, dev', hcont⟩ := htotal fun x hx ↦ hsizes x (mem_cons_of_mem _ hx)
        exact ⟨reply :: replies, dev', by simp [hcont]⟩

/-- **The FAT32 file system refines a map from paths to byte strings.** Start from a healthy FAT32
volume and perform any sequence of reads, writes and deletions. If no call traps — and none does
unless it writes 4 GiB or more —, the volume is healthy again: chains are disjoint and all copies of
the table equal. The files are those of the map after the same history, every reply was the map's at
its time, and a deleted path no longer resolves. -/
theorem fat32_refines_store (hty : vol.fatType = .fat32) {dev : Dev ss}
    (hh : Healthy block vol dev.disk) {calls : List Call} (hcalls : ∀ c ∈ calls, c.Valid vol) :
    (∀ replies dev', runCalls block calls dev = some (replies, dev') → Healthy block vol dev'.disk ∧
      (∀ raw path, normalizePath raw = some path → filesOf vol (view vol dev'.disk) path.segments =
        (filesOf vol (view vol dev.disk)).afterAll (calls.zip replies) path.segments) ∧
      (filesOf vol (view vol dev.disk)).Answers (calls.zip replies) ∧
      ∀ path safe, (Call.delete path safe, Reply.done) ∈ calls.zip replies →
        resolvePathEntryLocation block vol dev'.disk (table vol dev'.disk) path = none) ∧
    ((∀ c ∈ calls, c.data.length < 2 ^ 32) → ∃ replies dev', runCalls block calls dev = some (replies, dev')) := by
  obtain ⟨hrun, htotal⟩ := runCalls_simulates hty hcalls hh fun segs _ ↦ rfl
  refine ⟨fun replies dev' heq ↦ ?_, htotal⟩
  obtain ⟨hsim, -⟩ := hrun replies dev' heq
  refine ⟨hsim.healthy, fun raw path hraw ↦ ?_, hsim.answers, fun path safe hmem ↦ ?_⟩
  · exact (hsim.maps path.segments (cleanPath_of_normalizePath hraw).plain).symm
  · obtain ⟨raw, hraw⟩ := (hcalls _ (of_mem_zip hmem).1).1
    rcases hfind : resolvePathEntryLocation block vol dev'.disk (table vol dev'.disk) path with
      - | ⟨e, loc⟩
    · rfl
    · have hres := (resolvePathEntryLocation_iff hsim.healthy.sound hty
        hsim.healthy.tree.toConsistent (cleanPath_of_normalizePath hraw)).1 hfind
      exact absurd ⟨loc, e, hres⟩ (hsim.gone path safe hmem)

/-! ### A small volume -/

/-- The boot sector of a FAT32 volume of 66672 sectors, with one sector per cluster. -/
def boot32 : Sector 512 := ⟨writeLE 4 2 (writeLE 4 520 (writeLE 4 66672 (writeAt (writeLE 2 32 (writeAt
    (writeLE 2 512 (replicate 512 0) 11) 13 [1]) 14) 16 [2]) 32) 36) 44, by
    simp only [length_writeLE, length_writeAt, length_replicate]⟩

def bpb32 : FatBPB where
  fatType := .fat32
  bytesPerSector := 512
  sectorsPerCluster := 1
  reservedSectors := 32
  numFATs := 2
  rootEntryCount := 0
  totalSectors := 66672
  sectorsPerFAT := 520
  rootCluster := 2
  baseLBA := 0
  fatStartLBA := 32
  dataStartLBA := 1072
  rootDirStartLBA := 1072
  rootDirSectors := 0

theorem parse_boot32 : parseBootSector .fat32 boot32.1 0 = some (some bpb32) := by decide +kernel

def block32 : BlockDevice 512 := ⟨66672, by decide⟩

/-- The FAT32 volume, with its log in sectors 30 and 31. -/
def vol32 : Volume := configureWalRegion bpb32

theorem vol32_sound : SoundVolume block32 vol32 :=
  ⟨⟨⟨boot32, bpb32, parse_boot32, rfl⟩, by decide⟩, by decide, by decide, by decide, by decide⟩

/-- The FAT32 volume with a sector of table, in both copies, and a sector of root directory in
cluster 2. -/
def disk32 (fat dir : Sector 512) : Disk 512 := fun lba ↦
  if lba = 0 then boot32
  else if lba = 32 ∨ lba = 552 then fat
  else if lba = 1072 then dir
  else filled 0

section

variable (fat dir : Sector 512)

theorem disk32_of_ne {lba : ℕ} (h₀ : lba ≠ 0) (h₁ : lba ≠ 32) (h₂ : lba ≠ 552) (h₃ : lba ≠ 1072) :
    disk32 fat dir lba = filled 0 := by
  rw [disk32, if_neg h₀, if_neg (by tauto), if_neg h₃]

theorem disk32_anchored : Anchored block32 vol32 (disk32 fat dir) :=
  anchored_of_boot (by decide) (by rw [Volume.Owned, Volume.OnLog]; decide) parse_boot32

theorem disk32_idle : Idle vol32 (disk32 fat dir) := by
  intro _
  exact not_prepared_zero 512

theorem disk32_mirrored : Mirrored vol32 (disk32 fat dir) := by
  intro k hk
  have hcopies : k = 0 ∨ k = 1 := by
    have : k < 2 := hk
    omega
  rcases hcopies with rfl | rfl
  · rfl
  · refine diskBytes_eq_of_chunks _ (length_table ..) fun i hi ↦ ?_
    have hlt : i < 520 := hi
    rw [table, slice_diskBytes _ hi]
    show (disk32 fat dir (32 + 1 * 520 + i)).1 = (disk32 fat dir (32 + i)).1
    rcases Nat.eq_zero_or_pos i with rfl | hpos
    · rfl
    · rw [disk32_of_ne fat dir (by omega) (by omega) (by omega) (by omega),
        disk32_of_ne fat dir (by omega) (by omega) (by omega) (by omega)]

theorem disk32_link {c : ℕ} (hc : c < 128) : (view vol32 (disk32 fat dir)).link c = fatNextCluster .fat32 fat.1 c := by
  obtain ⟨tail, heq, -⟩ := diskBytes_zeros (d := disk32 fat dir) 32 520 (by decide) fun x hlo hhi b hb ↦ by
      rw [disk32_of_ne fat dir (by omega) (by omega) (by omega) (by omega)] at hb
      exact eq_of_mem_replicate hb
  have hty : vol32.fatType = .fat32 := rfl
  have hstart : vol32.fatStartLBA = 32 := rfl
  have hsectors : vol32.sectorsPerFAT = 520 := rfl
  rw [view_link, hty, table, hstart, hsectors, heq]
  refine fatNextCluster_append tail ?_
  show (c + 1) * 4 ≤ fat.1.length
  omega

theorem disk32_records : dirRecords .fat32 (view vol32 (disk32 fat dir)) [some 2] =
    (fatScanDirEntriesEx dir.1).1.map fun r ↦ (⟨some 2, r.1⟩, r.2) := by
  have hblock : (view vol32 (disk32 fat dir)).block (some 2) = dir.1 := by
    show (disk32 fat dir).bytes 1072 1 = dir.1
    rw [diskBytes_one]
    rfl
  rw [dirRecords_cons32, dirRecords, append_nil, blockRecords, hblock]

end

def table32 : Sector 512 :=  ⟨padZeros 512 [0xF8, 0xFF, 0xFF, 0x0F, 0xFF, 0xFF, 0xFF, 0x0F, 0xFF, 0xFF, 0xFF, 0x0F,
    0xFF, 0xFF, 0xFF, 0x0F], length_padZeros (by decide)⟩

/-- A root directory with a file `A` of one byte in cluster 3. -/
def dir32 : Sector 512 :=  ⟨padZeros 512 (0x41 :: replicate 10 0x20 ++ 0x20 :: replicate 14 0 ++
    [3, 0, 1, 0, 0, 0]), length_padZeros (by decide)⟩

def small32 : Disk 512 := disk32 table32 dir32

def fileA32 : FatDirEntry := { name := [0x41], attr := 0x20, firstCluster := 3, fileSize := 1 }

theorem small32_records : dirRecords .fat32 (view vol32 small32) [some 2] = [(⟨some 2, 0⟩, fileA32)] := by
  decide +kernel

theorem small32_chain {c : ℕ} (hc : c = 2 ∨ c = 3) : ChainFrom vol32 (view vol32 small32) c [c] := by
  have hlink : (view vol32 small32).link c = 0x0FFFFFFF := by
    rw [small32, disk32_link _ _ (by omega)]
    rcases hc with rfl | rfl <;> decide +kernel
  refine ⟨⟨.last ?_, fun x hx ↦ ?_⟩, by rw [length_singleton]; decide⟩
  · rw [linkNext, hlink]
    rfl
  · obtain rfl := mem_singleton.1 hx
    have hmax : fatMaxCluster vol32 = 65601 := by decide
    omega

theorem small32_flat : Flat vol32 (view vol32 small32) [some 2] := ⟨.chain (small32_chain (.inl rfl)), fun hmem ↦ by
    have hty : vol32.fatType = .fat32 := rfl
    rw [hty, small32_records] at hmem
    rw [(Prod.mk.inj (mem_singleton.1 hmem)).2]
    decide⟩

theorem small32_healthy : Healthy block32 vol32 small32 := by
  refine ⟨⟨vol32_sound, disk32_anchored _ _, small32_flat.wellFormed small32_records
    (Nat.le_refl 1) fun x hx ↦ ?_⟩, disk32_idle _ _, disk32_mirrored _ _⟩
  obtain rfl := mem_singleton.1 hx
  refine ⟨[3], .inr (small32_chain (.inr rfl)), fun _ ↦ ?_, by decide⟩
  decide

/-- The rights to read `/A` and to write it in safe mode, by one capability and one contract. -/
def envA : CapEnv where
  fileCaps := [⟨1, capRFileRead ||| capRFileWriteSafe, [0x41]⟩]
  contract := fun _ ↦ some (fat32ContractRRead ||| fat32ContractRWrite, fat32PolicySafe)

def taskA : TaskContext := ⟨[1], [1]⟩

theorem fat32_refines_store_small : Healthy block32 vol32 (Dev.start small32).disk ∧
    ∃ replies dev', runCalls block32 [.write envA taskA pathA [1], .read envA taskA pathA, .delete pathA true]
        (Dev.start small32) = some (replies, dev') ∧
      Healthy block32 vol32 dev'.disk := by
  have hpath : ∃ raw, normalizePath raw = some pathA := ⟨[0x2F, 0x41], by decide⟩
  obtain ⟨hrun, htotal⟩ := fat32_refines_store rfl
    (show Healthy block32 vol32 (Dev.start small32).disk from small32_healthy)
    (show ∀ c ∈ [.write envA taskA pathA [1], .read envA taskA pathA, .delete pathA true], Call.Valid vol32 c by
      simp only [forall_mem_cons]
      exact ⟨⟨hpath, by decide⟩, ⟨hpath, by decide⟩, ⟨hpath, by decide⟩, fun _ h ↦ nomatch h⟩)
  obtain ⟨replies, dev', heq⟩ := htotal (by
    simp only [forall_mem_cons]
    exact ⟨by decide, by decide, by decide, fun _ h ↦ nomatch h⟩)
  exact ⟨small32_healthy, replies, dev', heq, (hrun replies dev' heq).1⟩

end CapazOS
