import CapazOS.Fat.Layout

/-!
# FAT16 lookups

The functions of `Core/Fat16.swift` that look up paths and read files, on a well-formed volume: they
compute the relations of the view. Reading a path returns bytes exactly when the path leads to a
file that holds them (`fat16ReadFile_iff`).
-/

namespace CapazOS

open List

variable {path : NormalizedPath} {cs : List ℕ} {dir : Option ℕ} {bs : List (Option ℕ)} {e : FatDirEntry} {vol : Volume}

variable {ss : ℕ}
variable {dev dev₁ : Dev ss} {block : BlockDevice ss}

/-- The segments of a path that `normalizePath` can return for something other than the root. -/
structure NormalPath (path : NormalizedPath) : Prop where
  isRoot : path.isRoot = false
  segments_ne : path.segments ≠ []
  normal : ∀ seg ∈ path.segments, ∃ base ext, NormalName seg base ext

theorem NormalPath.plain (h : NormalPath path) : ∀ seg ∈ path.segments, PlainName seg := by
  intro seg hseg
  obtain ⟨base, ext, hname⟩ := h.normal seg hseg
  exact hname.not_dots

theorem NormalPath.plain_init (h : NormalPath path) {init : List Bytes} {name : Bytes}
    (hsegs : path.segments = init ++ [name]) : ∀ seg ∈ init, PlainName seg :=
  fun seg hseg ↦ h.plain seg (hsegs ▸ mem_append_left _ hseg)

section

variable {ty : FatType} {d : Disk ss}

theorem Mountable.read_block (h : Mountable ty block vol) {b : Option ℕ} (hb : ValidBlock vol b) :
    block.read d (blockLBA vol b) (blockSectors vol b) = some ((view vol d).block b) := by
  have hle := (h.block_le hb).2
  have hcap := h.bounds.2.2.2.1
  rw [BlockDevice.read_eq d (by omega), view_block d hb]

theorem readFAT_eq (h : SoundVolume block vol) : readFAT block vol d = some (table vol d) := by
  obtain ⟨hss, -, hspf, hcap, -, hdata⟩ := h.mountable.bounds
  obtain ⟨-, hroot, -⟩ := h.mountable.areas
  have hle := h.table_le
  rw [readFAT, if_neg (by omega), if_neg (by omega), if_neg (by omega)]
  rfl

theorem ChainFrom.walk (h : SoundVolume block vol) {start : ℕ} (hc : ChainFrom vol (view vol d) start cs) :
    fatClusterChain vol.fatType (table vol d) start (fatMaxCluster vol) = some cs :=
  fatClusterChain_eq h.max_lt hc.1 hc.2

theorem readFat16Cluster_eq (h : Mountable ty block vol) {c : ℕ} (hc : 2 ≤ c ∧ c ≤ fatMaxCluster vol) :
    readFat16Cluster block vol d c = some ((view vol d).cluster c) := by
  rw [readFat16Cluster, if_neg (by omega)]
  exact h.read_block (b := some c) fun x hx ↦ Option.some.inj hx ▸ hc

theorem map_snd_blockRecords (v : View) (b : Option ℕ) :
    (blockRecords v b).map Prod.snd = (fatScanDirEntriesEx (v.block b)).1.map Prod.snd := by
  rw [blockRecords, map_map]
  rfl

theorem fat16DirLoop_eq (h : Mountable ty block vol) (hcs : ∀ c ∈ cs, 2 ≤ c ∧ c ≤ fatMaxCluster vol) :
    fat16DirLoop block vol d cs = some ((dirRecords .fat16 (view vol d) (cs.map some)).map Prod.snd) := by
  induction cs with
  | nil => rfl
  | cons c cs ih =>
    rw [fat16DirLoop, readFat16Cluster_eq h (hcs c mem_cons_self),
      ih fun x hx ↦ hcs x (mem_cons_of_mem _ hx), map_cons, dirRecords, map_append,
      map_snd_blockRecords]
    have hends : blockEnds (view vol d) (some c) = (fatScanDirEntriesEx ((view vol d).cluster c)).2 := rfl
    simp only [true_and, hends]
    rcases (fatScanDirEntriesEx ((view vol d).cluster c)).2 with - | -
    · rfl
    · simp only [if_true, map_nil, append_nil]
      rfl

section

variable (h : SoundVolume block vol) (hty : vol.fatType = .fat16) (hdir : IsDir vol (view vol d) dir bs)
include h hty hdir

theorem findFat16EntryInDir_eq (name : Bytes) : findFat16EntryInDir block vol d (table vol d) dir name =
      (lookupName (dirRecords vol.fatType (view vol d) bs) name).map Prod.snd := by
  have hfind : ∀ records : List (SlotLoc × FatDirEntry),
      ((some (records.map Prod.snd)).bind fun list ↦ list.find? fun e ↦ e.name = name) =
        (lookupName records name).map Prod.snd := by
    intro records
    rw [Option.bind_some, lookupName, find?_map]
    rfl
  rw [hty, ← hfind]
  unfold findFat16EntryInDir
  cases hdir with
  | area =>
    have hrecords : (dirRecords .fat16 (view vol d) [none]).map Prod.snd =
        (fatScanDirEntriesEx (view vol d).root).1.map Prod.snd := by
      rw [dirRecords, dirRecords, ite_self, append_nil, map_snd_blockRecords]
      rfl
    rw [hrecords]
    simp only [readFat16RootDirEntries]
    split
    · next hzero =>
      have hempty : (view vol d).root = [] := by
        show d.bytes _ _ = []
        rw [hzero]
        rfl
      rw [hempty]
      rfl
    · have hread := h.mountable.read_block (d := d) (b := none) (fun _ hc ↦ by cases hc)
      simp only [blockLBA, blockSectors] at hread
      rw [hread]
      rfl
  | chain hc =>
    have hwalk := hc.walk h
    rw [hty] at hwalk
    simp only [readFat16DirEntriesCluster, hwalk]
    rw [Option.bind_some, fat16DirLoop_eq h.mountable hc.1.range]

theorem findFat16EntryInDir_iff {name : Bytes} : findFat16EntryInDir block vol d (table vol d) dir name = some e ↔
      ∃ loc, Finds vol (view vol d) dir name loc e := by
  simp only [findFat16EntryInDir_eq h hty hdir, hdir.finds_iff]
  simp

theorem fat16Descend_iff {dir' : Option ℕ} {name : Bytes} :
    fat16Descend block vol d (table vol d) dir name = some dir' ↔ DirStep vol (view vol d) dir name dir' := by
  have hfind : ∀ e, findFat16EntryInDir block vol d (table vol d) dir name = some e ↔
      ∃ loc, Finds vol (view vol d) dir name loc e := fun e ↦ findFat16EntryInDir_iff h hty hdir
  unfold fat16Descend
  constructor
  · intro heq
    split at heq
    · cases heq
    · next e he =>
      obtain ⟨loc, hf⟩ := (hfind e).1 he
      split at heq
      · cases heq
      · next hok =>
        simp only [not_or, Bool.not_eq_true', Bool.not_eq_false, Nat.not_lt] at hok
        exact ⟨loc, e, hf, hok.1, hok.2, (Option.some.inj heq).symm⟩
  · rintro ⟨loc, e, hf, hisDir, hge, rfl⟩
    rw [(hfind e).2 ⟨loc, hf⟩]
    simp only [hisDir, Bool.not_true, Bool.false_eq_true, false_or, if_neg (Nat.not_lt.2 hge)]

end

section

variable (h : SoundVolume block vol) (hty : vol.fatType = .fat16) (hw : Chained vol (view vol d))
include h hty hw

theorem fat16ResolveDir_iff {dir' : Option ℕ} (hr : Reach vol (view vol d) dir bs) {segs : List Bytes}
    (hsegs : ∀ s ∈ segs, PlainName s) :
    fat16ResolveDir block vol d (table vol d) dir segs = some dir' ↔ ResolvesDir vol (view vol d) dir segs dir' := by
  induction segs generalizing dir bs with
  | nil =>
    constructor
    · intro heq
      obtain rfl := Option.some.inj heq
      exact .nil
    · intro hres
      cases hres
      rfl
  | cons name segs ih =>
    have hdescend : ∀ d₁, fat16Descend block vol d (table vol d) dir name = some d₁ ↔
        DirStep vol (view vol d) dir name d₁ := fun d₁ ↦ fat16Descend_iff h hty hr.isDir
    have hnext : ∀ {d₁}, DirStep vol (view vol d) dir name d₁ → ∃ bs₁, Reach vol (view vol d) d₁ bs₁ := fun hstep ↦
      ResolvesDir.reach hw (.cons hstep .nil) (by simpa using hsegs name mem_cons_self) hr
    have hrest : ∀ s ∈ segs, PlainName s := fun s hs ↦ hsegs s (mem_cons_of_mem _ hs)
    rw [fat16ResolveDir]
    constructor
    · intro heq
      split at heq
      · cases heq
      · next d₁ hd₁ =>
        have hstep := (hdescend d₁).1 hd₁
        obtain ⟨bs₁, hr₁⟩ := hnext hstep
        exact .cons hstep ((ih hr₁ hrest).1 heq)
    · intro hres
      cases hres with
      | @cons _ d₁ _ _ _ hstep htail =>
        obtain ⟨bs₁, hr₁⟩ := hnext hstep
        rw [(hdescend d₁).2 hstep]
        exact (ih hr₁ hrest).2 htail

theorem fat16ResolveDir_root {init : List Bytes} (hinit : ∀ s ∈ init, PlainName s) (dir : Option ℕ) :
    (fat16ResolveDir block vol d (table vol d) none init = some dir ↔
      ResolvesDir vol (view vol d) (rootDir vol) init dir) ∧
    (ResolvesDir vol (view vol d) (rootDir vol) init dir → ∃ bs, Reach vol (view vol d) dir bs) := by
  obtain ⟨bs₀, hr₀⟩ := hw.reach_root
  have hroot : rootDir vol = none := by rw [rootDir, hty]
  rw [hroot] at hr₀ ⊢
  exact ⟨fat16ResolveDir_iff h hty hw hr₀ hinit, fun hdir ↦ hdir.reach hw hinit hr₀⟩

end

theorem fat16ResolveLoop_eq (dir : Option ℕ) (init : List Bytes) (name : Bytes) (fat : Bytes) :
    fat16ResolveLoop block vol d fat dir (init ++ [name]) = (fat16ResolveDir block vol d fat dir init).bind fun dir' ↦
        findFat16EntryInDir block vol d fat dir' name := by
  induction init generalizing dir with
  | nil => rfl
  | cons seg init ih =>
    rw [cons_append, fat16ResolveDir, fat16ResolveLoop]
    · rcases fat16Descend block vol d fat dir seg with - | dir'
      · rfl
      · exact ih dir'
    · simp

/-- The directories of a view, and the same blocks with the same bytes in another one. -/
def SameDirs (vol : Volume) (v v' : View) : Prop :=
  ∀ {dir : Option ℕ} {bs : List (Option ℕ)}, Reach vol v dir bs →
    IsDir vol v' dir bs ∧ ∀ b ∈ bs, v'.block b = v.block b

section

variable (h : SoundVolume block vol)
include h

theorem findFat16EntryInDir_congr (hty : vol.fatType = .fat16) {d' : Disk ss}
    (hsame : SameDirs vol (view vol d) (view vol d')) (hr : Reach vol (view vol d) dir bs) (name : Bytes) :
    findFat16EntryInDir block vol d' (table vol d') dir name =
      findFat16EntryInDir block vol d (table vol d) dir name := by
  obtain ⟨hdir, hblock⟩ := hsame hr
  rw [findFat16EntryInDir_eq h hty hdir, findFat16EntryInDir_eq h hty hr.isDir,
    dirRecords_congr fun b hb ↦ congrArg slotsOf (hblock b hb)]

/-- **Resolving a path reads directories only**, consistent files or not. -/
theorem resolveFat16PathEntry_congr (hty : vol.fatType = .fat16) (hw : Consistent vol (view vol d))
    {d' : Disk ss} (hsame : SameDirs vol (view vol d) (view vol d')) (hpath : NormalPath path) :
    resolveFat16PathEntry block vol d' (table vol d') path = resolveFat16PathEntry block vol d (table vol d) path := by
  have hdescend : ∀ {dir bs}, Reach vol (view vol d) dir bs → ∀ name,
      fat16Descend block vol d' (table vol d') dir name = fat16Descend block vol d (table vol d) dir name := by
    intro dir bs hr name
    rw [fat16Descend, fat16Descend, findFat16EntryInDir_congr h hty hsame hr]
  have hdirs : ∀ {segs : List Bytes} {dir bs}, (∀ s ∈ segs, PlainName s) →
      Reach vol (view vol d) dir bs → fat16ResolveDir block vol d' (table vol d') dir segs =
        fat16ResolveDir block vol d (table vol d) dir segs := by
    intro segs
    induction segs with
    | nil => intro dir bs _ _; rfl
    | cons name segs ih =>
      intro dir bs hsegs hr
      obtain ⟨hname, hrest⟩ := forall_mem_cons.1 hsegs
      rw [fat16ResolveDir, fat16ResolveDir, hdescend hr]
      rcases hd₁ : fat16Descend block vol d (table vol d) dir name with - | d₁
      · rfl
      · have hstep := (fat16Descend_iff h hty hr.isDir).1 hd₁
        obtain ⟨bs₁, hr₁⟩ := ResolvesDir.reach hw.toChained (.cons hstep .nil) (by simpa using hname) hr
        exact ih hrest hr₁
  obtain ⟨init, name, hsegs⟩ : ∃ init name, path.segments = init ++ [name] :=
    ⟨_, _, (dropLast_append_getLast hpath.segments_ne).symm⟩
  have hinit := hpath.plain_init hsegs
  obtain ⟨bs₀, hr₀⟩ := hw.reach_root
  rw [rootDir, hty] at hr₀
  simp only [resolveFat16PathEntry, hsegs, fat16ResolveLoop_eq, hdirs hinit hr₀]
  rcases hdir : fat16ResolveDir block vol d (table vol d) none init with - | dir
  · rfl
  · have hroot := fat16ResolveDir_root h hty hw.toChained hinit dir
    obtain ⟨bs, hr⟩ := hroot.2 (hroot.1.1 hdir)
    simp [findFat16EntryInDir_congr h hty hsame hr]

theorem resolveFat16PathEntry_iff (hty : vol.fatType = .fat16) (hw : Chained vol (view vol d))
    (hpath : NormalPath path) :
    resolveFat16PathEntry block vol d (table vol d) path = some e ↔
      ∃ loc, Resolves vol (view vol d) (rootDir vol) path.segments loc e := by
  obtain ⟨init, name, hsegs⟩ : ∃ init name, path.segments = init ++ [name] :=
    ⟨_, _, (dropLast_append_getLast hpath.segments_ne).symm⟩
  have hparent := fat16ResolveDir_root h hty hw (hpath.plain_init hsegs)
  have hnot : ¬(path.isRoot = true ∨ path.segments = []) := by
    rw [hpath.isRoot]
    simpa using hpath.segments_ne
  rw [resolveFat16PathEntry, if_neg hnot, hsegs, fat16ResolveLoop_eq, Option.bind_eq_some_iff]
  constructor
  · rintro ⟨dir, hdir, hfind⟩
    have hdir := (hparent dir).1.1 hdir
    obtain ⟨bs, hr⟩ := (hparent dir).2 hdir
    obtain ⟨loc, hf⟩ := (findFat16EntryInDir_iff h hty hr.isDir).1 hfind
    exact ⟨loc, init, name, dir, rfl, hdir, hf⟩
  · rintro ⟨loc, init', name', dir, heq, hdir, hf⟩
    obtain ⟨rfl, hname⟩ := append_inj' heq rfl
    obtain rfl := singleton_inj.1 hname
    obtain ⟨bs, hr⟩ := (hparent dir).2 hdir
    exact ⟨dir, (hparent dir).1.2 hdir, (findFat16EntryInDir_iff h hty hr.isDir).2 ⟨loc, hf⟩⟩

/-! ### Contents -/

theorem fat16ReadLoop_eq (hcs : ∀ c ∈ cs, 2 ≤ c ∧ c ≤ fatMaxCluster vol) (remaining : ℕ) :
    fat16ReadLoop block vol d cs remaining = some (contents (view vol d) cs remaining) := by
  induction cs generalizing remaining with
  | nil => simp [fat16ReadLoop, contents]
  | cons c cs ih =>
    obtain ⟨hc, hrest⟩ := forall_mem_cons.1 hcs
    rw [fat16ReadLoop, readFat16Cluster_eq h.mountable hc]
    rcases Nat.eq_zero_or_pos remaining with rfl | hpos
    · simp [contents]
    · have hlen := length_view_cluster h.mountable d hc.1
      have hsize := h.mountable.clusterSize_pos
      have hne : (view vol d).cluster c ≠ [] := by
        intro hnil
        rw [hnil, length_nil] at hlen
        omega
      rw [if_neg (by omega)]
      have hsub : remaining - min remaining ((view vol d).cluster c).length =
          remaining - ((view vol d).cluster c).length := by omega
      simp only [if_neg hne, ih hrest, Option.map_some, contents, flatMap_cons]
      rw [take_append, hsub, ← take_eq_take_min]

theorem fat16ReadEntry_eq (hty : vol.fatType = .fat16) (hfile : e.isDir = false)
    (hcs : EntryChain vol (view vol d) e cs) (hcov : Covers vol e cs) :
    fat16ReadEntry block vol d (table vol d) e = some (contents (view vol d) cs e.fileSize) := by
  have hsize := hcov hfile
  unfold fat16ReadEntry
  rw [if_neg (by rw [hfile]; exact Bool.false_ne_true)]
  rcases hcs with ⟨hlt, rfl⟩ | hc
  · have hzero : e.fileSize = 0 := by simpa using hsize
    rw [if_neg (by omega), if_pos hzero]
    exact fat16ReadLoop_eq h (by simp) e.fileSize
  · have hwalk := hc.walk h
    rw [hty] at hwalk
    have hge := hc.1.start_range
    rw [if_neg (by omega)]
    split
    · next hzero =>
      rw [hzero]
      simp [fat16ReadLoop, contents]
    · rw [hwalk, Option.bind_some, fat16ReadLoop_eq h hc.1.range]

end

theorem fat16ReadEntry_isDir (hdir : e.isDir = true) (fat : Bytes) : fat16ReadEntry block vol d fat e = none := by
  rw [fat16ReadEntry, if_pos hdir]

theorem fat16ReadFile_eq (h : SoundVolume block vol) (hmount : mount .fat16 block dev = some (some vol, dev₁))
    (path : NormalizedPath) : fat16ReadFile block path dev = some
      ((resolveFat16PathEntry block vol dev₁.disk (table vol dev₁.disk) path).bind
        (fat16ReadEntry block vol dev₁.disk (table vol dev₁.disk)), dev₁) := by
  unfold fat16ReadFile
  rw [hmount, Option.map_some]
  simp only [readFAT_eq h]
  rcases resolveFat16PathEntry block vol dev₁.disk (table vol dev₁.disk) path with - | e <;> rfl

/-- **Reading a path** returns bytes exactly when the path leads to a file that holds them. -/
theorem fat16ReadFile_iff (h : SoundVolume block vol) (hty : vol.fatType = .fat16)
    (hw : Chained vol (view vol dev₁.disk)) (hmount : mount .fat16 block dev = some (some vol, dev₁))
    (hpath : NormalPath path) {bytes : Bytes} :
    fat16ReadFile block path dev = some (some bytes, dev₁) ↔ FileAt vol (view vol dev₁.disk) path.segments bytes := by
  have hres := fun e ↦ resolveFat16PathEntry_iff h hty hw hpath (e := e)
  rw [fat16ReadFile_eq h hmount]
  simp only [Option.some.injEq, Prod.mk.injEq, and_true, Option.bind_eq_some_iff]
  constructor
  · rintro ⟨e, he, hbytes⟩
    obtain ⟨loc, hloc⟩ := (hres e).1 he
    obtain ⟨cs, hcs, hcov⟩ := hw.chain (hloc.live hw hpath.plain)
    rcases hdir : e.isDir with - | -
    · rw [fat16ReadEntry_eq h hty hdir hcs hcov] at hbytes
      exact ⟨loc, e, cs, hloc, hdir, hcs, (Option.some.inj hbytes).symm⟩
    · rw [fat16ReadEntry_isDir hdir] at hbytes
      cases hbytes
  · rintro ⟨loc, e, cs, hloc, hfile, hcs, rfl⟩
    obtain ⟨cs', hcs', hcov⟩ := hw.chain (hloc.live hw hpath.plain)
    obtain rfl := hcs.unique hcs'
    exact ⟨e, (hres e).2 ⟨loc, hloc⟩, fat16ReadEntry_eq h hty hfile hcs hcov⟩

end

/-! ### Mounting -/

theorem idle_of_replay16 (hm : Mountable .fat16 block vol) (h : walReplayIfNeeded16 block vol dev = some dev₁) :
    Idle vol dev₁.disk := by
  intro hwal
  obtain ⟨hsectors, hend, -, hcap⟩ := hm.wal hwal
  have hge := hm.ss_ge
  rw [show walReplayIfNeeded16 = walReplayIfNeeded .fat16 from rfl, walReplay_eq hm, replayTarget, if_neg hwal] at h
  rcases hpending : walPending .fat16 vol.bytesPerSector (dev.disk vol.walStartLBA).1 with - | target
  · rw [hpending] at h
    obtain rfl := Option.some.inj h
    rintro ⟨hmagic, hstate⟩
    rw [walPending, walPending16, (dev.disk vol.walStartLBA).2, if_neg (by omega),
      if_neg (not_not.2 hmagic), if_neg (not_not.2 hstate)] at hpending
    cases hpending
  · rw [hpending, Option.filter_some, if_pos (by simp), Option.elim_some, walReplayWrites] at h
    split at h
    · cases h
    · simp only [clear_eq hm, BlockDevice.write_sector (by omega : vol.walStartLBA < block.capacitySectors)] at h
      obtain rfl := Option.some.inj h
      simp only [Dev.put, Function.update_self]
      exact not_prepared_zero ss

theorem idle_of_mount16 (hm : Mountable .fat16 block vol) (h : mount .fat16 block dev = some (some vol, dev₁)) :
    Idle vol dev₁.disk := by
  obtain ⟨bpb?, -, h⟩ := Option.bind_eq_some_iff.1 h
  split at h
  · cases h
  · simp only at h
    split at h
    · cases h
    · obtain ⟨dev', hreplay, heq⟩ := Option.map_eq_some_iff.1 h
      obtain ⟨hvol, rfl⟩ := Prod.mk.inj heq
      obtain rfl := Option.some.inj hvol
      exact idle_of_replay16 hm hreplay

end CapazOS
