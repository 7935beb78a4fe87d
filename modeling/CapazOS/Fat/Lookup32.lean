import CapazOS.Fat.Fat32
import CapazOS.Fat.Lookup16

/-!
# FAT32 lookups

The functions of `Core/Fat32.swift` that look up paths and read files, on a consistent volume: they
compute the relations of the view. Unlike the FAT16 functions they follow the links of the table
themselves instead of listing the chain first, so each loop is related to the chain by an induction
along its links.
-/

namespace CapazOS

open List

variable {path : NormalizedPath} {c dir : ℕ} {link : ℕ → ℕ} {cs : List ℕ} {bs : List (Option ℕ)}
  {loc : SlotLoc} {e : FatDirEntry}

variable {ss : ℕ}

/-- What every path that `normalizePath` returns satisfies, the root included. -/
structure CleanPath (path : NormalizedPath) : Prop where
  isRoot_iff : path.isRoot = true ↔ path.segments = []
  plain : ∀ seg ∈ path.segments, PlainName seg

theorem cleanPath_of_normalizePath {raw : Bytes} (h : normalizePath raw = some path) : CleanPath path := by
  rcases normalizePath_cases h with ⟨hroot, hnil⟩ | ⟨hroot, hne, hnormal⟩
  · exact ⟨iff_of_true hroot hnil, fun seg hseg ↦ by
      rw [hnil] at hseg
      cases hseg⟩
  · have hpath : NormalPath path := ⟨hroot, hne, hnormal⟩
    exact ⟨iff_of_false (by rw [hroot]; exact Bool.false_ne_true) hne, hpath.plain⟩

section

variable {block : BlockDevice ss} {vol : Volume} {d : Disk ss}

theorem readCluster_eq {ty : FatType} (h : Mountable ty block vol) (hc : 2 ≤ c ∧ c ≤ fatMaxCluster vol) :
    readCluster block vol d c = some ((view vol d).cluster c) := by
  have hb : ValidBlock vol (some c) := fun x hx ↦ Option.some.inj hx ▸ hc
  have hle := (h.block_le hb).2
  have hcap := h.bounds.2.2.2.1
  simp only [blockLBA, blockSectors] at hle
  rw [readCluster, if_neg (by omega), if_neg (by omega)]
  exact h.read_block hb

/-! ### Following links -/

theorem fat32Stops_link {n : ℕ} (hnext : linkNext .fat32 link c = some n)
    (hbad : link c ≠ fatBadCluster .fat32) : link c = n ∧ fat32Stops (link c) = false := by
  unfold linkNext at hnext
  split at hnext
  · cases hnext
  · next hlt =>
    obtain rfl := Option.some.inj hnext
    exact ⟨rfl, decide_eq_false fun h ↦ h.elim hlt hbad⟩

theorem SoundVolume.link_ne_bad (h : SoundVolume block vol) (hty : vol.fatType = .fat32)
    (hlink : Linked (linkNext .fat32 link) c cs) (hrange : ∀ x ∈ cs, 2 ≤ x ∧ x ≤ fatMaxCluster vol) :
    ∀ x ∈ cs, link x ≠ fatBadCluster .fat32 := by
  intro x hx hbad
  have hmem := hlink.next_mem hx (y := fatBadCluster .fat32) (by rw [linkNext, hbad]; rfl)
  exact (hrange _ hmem).2.not_gt (h.clusters hty)

theorem fat32Stops_end (hnext : linkNext .fat32 link c = none) : fat32Stops (link c) = true := by
  unfold linkNext at hnext
  split at hnext
  · next hle => exact decide_eq_true (.inl hle)
  · cases hnext

theorem dirRecords_cons32 (v : View) (b : Option ℕ) (bs : List (Option ℕ)) :
    dirRecords .fat32 v (b :: bs) = blockRecords v b ++ dirRecords .fat32 v bs := by
  rw [dirRecords, if_neg (fun hand ↦ by cases hand.1)]

theorem lookupName_append (l l' : List (SlotLoc × FatDirEntry)) (name : Bytes) :
    lookupName (l ++ l') name = (lookupName l name).or (lookupName l' name) := find?_append

theorem lookupName_blockRecords (v : View) (c : ℕ) (name : Bytes) : lookupName (blockRecords v (some c)) name =
      ((fatScanDirEntriesEx (v.cluster c)).1.find? fun r ↦ r.2.name = name).map fun r ↦ (⟨some c, r.1⟩, r.2) := by
  rw [lookupName, blockRecords, find?_map]
  rfl

/-- The clusters that a walk over a directory reads, and whether it comes to its end: not if it
meets a cluster that is not one of the volume, or one without a 32-bit offset in the table. -/
def dirWalk (vol : Volume) (fat : Bytes) : ℕ → ℕ → List ℕ × Bool
  | 0, _ => ([], true)
  | left + 1, c =>
    if c < 2 then ([], true)
    else if fatMaxCluster vol < c then ([], false)
    else if 2 ^ 32 ≤ c * 4 then ([c], false)
    else if fat32Stops (fatNextCluster .fat32 fat c) then ([c], true)
    else
      let rest := dirWalk vol fat left (fatNextCluster .fat32 fat c)
      (c :: rest.1, rest.2)

theorem fatNextCluster_fat32_lt (fat : Bytes) (c : ℕ) : fatNextCluster .fat32 fat c < 2 ^ 28 := by
  rw [fatNextCluster_fat32]
  split
  · norm_num
  · exact Nat.mod_lt _ (by norm_num)

theorem dirWalk_chain (hty : vol.fatType = .fat32) (hlink : Linked (linkNext .fat32 (view vol d).link) c cs)
    (hrange : ∀ x ∈ cs, 2 ≤ x ∧ x ≤ fatMaxCluster vol)
    (hbad : ∀ x ∈ cs, (view vol d).link x ≠ fatBadCluster .fat32) (hfit : c * 4 < 2 ^ 32) (left : ℕ) :
    dirWalk vol (table vol d) left c = (cs.take left, true) := by
  have hnext := view_link_of_type hty d
  induction hlink generalizing left with
  | @last c hstop =>
    cases left with
    | zero => rfl
    | succ left =>
      have hc := hrange c mem_cons_self
      rw [dirWalk, if_neg (by omega), if_neg (by omega), if_neg (by omega), ← hnext, if_pos (fat32Stops_end hstop),
        take_succ_cons, take_nil]
  | @cons c n cs hstep htail ih =>
    cases left with
    | zero => rfl
    | succ left =>
      obtain ⟨hc, hrest⟩ := forall_mem_cons.1 hrange
      obtain ⟨hcbad, hbad⟩ := forall_mem_cons.1 hbad
      obtain ⟨heq, hgoes⟩ := fat32Stops_link hstep hcbad
      have hlt : n < 2 ^ 28 := by
        rw [← heq, hnext]
        exact fatNextCluster_fat32_lt _ _
      rw [dirWalk, if_neg (by omega), if_neg (by omega), if_neg (by omega), ← hnext, hgoes, heq,
        ih hrest hbad (by omega)]
      rfl

/-- **Comparing cluster by cluster** finds what the clusters before the end of the walk hold. -/
theorem findEntryLocationLoop_walk {left : ℕ} {fat : Bytes} (hm : Mountable .fat32 block vol)
    (hfit : c * 4 < 2 ^ 32) (name : Bytes) :
    findEntryLocationLoop block vol d fat name left c =
      (lookupName (dirRecords .fat32 (view vol d) ((dirWalk vol fat left c).1.map some)) name).map
        fun r ↦ (r.2, r.1) := by
  induction left generalizing c with
  | zero => rfl
  | succ left ih =>
    rw [findEntryLocationLoop]
    by_cases hlow : c < 2
    · simp only [dirWalk, if_pos hlow]
      rfl
    by_cases hmax : fatMaxCluster vol < c
    · simp only [dirWalk, if_neg hlow, if_pos hmax, readCluster, if_pos (.inr hmax : c < 2 ∨ _)]
      rfl
    · have hwalk : (dirWalk vol fat (left + 1) c).1 = c :: if fat32Stops (fatNextCluster .fat32 fat c) then []
          else (dirWalk vol fat left (fatNextCluster .fat32 fat c)).1 := by
        rw [dirWalk, if_neg hlow, if_neg hmax, if_neg (Nat.not_le.2 hfit)]
        split <;> rfl
      have hread := readCluster_eq hm (d := d) ⟨Nat.not_lt.1 hlow, Nat.not_lt.1 hmax⟩
      have hlen := length_view_cluster hm d (Nat.not_lt.1 hlow)
      rw [hwalk, map_cons, dirRecords_cons32, lookupName_append, lookupName_blockRecords]
      simp only [if_neg hlow, hread, hlen, lt_irrefl, if_false]
      split
      · next hfind =>
        rw [hfind]
        rfl
      · next hfind =>
        rw [hfind, ih (by have := fatNextCluster_fat32_lt fat c; omega), Option.map_none, Option.none_or]
        split <;> rfl

theorem dirRecords_singleton32 (v : View) (b : Option ℕ) : dirRecords .fat32 v [b] = blockRecords v b := by
  rw [dirRecords_cons32, dirRecords, append_nil]

/-- **Listing cluster by cluster** returns what the walk passes, if it comes to an end. -/
theorem readDirEntriesLoop_walk {left : ℕ} {fat : Bytes} (hm : Mountable .fat32 block vol)
    (hfit : c * 4 < 2 ^ 32) :
    readDirEntriesLoop block vol d fat left c = if (dirWalk vol fat left c).2 then
        some ((dirRecords .fat32 (view vol d) ((dirWalk vol fat left c).1.map some)).map Prod.snd)
      else none := by
  induction left generalizing c with
  | zero => rfl
  | succ left ih =>
    rw [readDirEntriesLoop, dirWalk]
    by_cases hlow : c < 2
    · simp only [if_pos hlow]
      rfl
    by_cases hmax : fatMaxCluster vol < c
    · simp only [if_neg hlow, if_pos hmax, readCluster, if_pos (.inr hmax : c < 2 ∨ _)]
      rfl
    · have hread := readCluster_eq hm (d := d) ⟨Nat.not_lt.1 hlow, Nat.not_lt.1 hmax⟩
      simp only [if_neg hlow, if_neg hmax, if_neg (Nat.not_le.2 hfit), hread]
      split
      · simp only [if_true, map_singleton, dirRecords_singleton32, map_snd_blockRecords]
        rfl
      · rw [ih (by have := fatNextCluster_fat32_lt fat c; omega)]
        split
        · simp only [Option.map_some, map_cons, dirRecords_cons32, map_append, map_snd_blockRecords]
          rfl
        · rfl

section

variable (h : SoundVolume block vol) (hty : vol.fatType = .fat32)
include h hty

theorem dirWalk_dir (hc : ChainFrom vol (view vol d) dir cs) : Mountable .fat32 block vol ∧ dir * 4 < 2 ^ 32 ∧
    dirWalk vol (table vol d) chainGuard dir = (cs, true) := by
  have hmax : fatMaxCluster vol < 268435447 := h.clusters hty
  have hstart := hc.1.start_range
  have hlinked := hc.1.linked
  rw [hty] at hlinked
  have hfit : dir * 4 < 2 ^ 32 := by omega
  refine ⟨hty ▸ h.mountable, hfit, ?_⟩
  rw [dirWalk_chain hty hlinked hc.1.range (h.link_ne_bad hty hlinked hc.1.range) hfit, take_of_length_le hc.2]

theorem findEntryLocationInDir_iff (hdir : IsDir vol (view vol d) (some dir) bs) {name : Bytes} :
    findEntryLocationInDir block vol d (table vol d) dir name = some (e, loc) ↔
      Finds vol (view vol d) (some dir) name loc e := by
  cases hdir with
  | @chain _ cs hc =>
    obtain ⟨hm, hfit, hwalk⟩ := dirWalk_dir h hty hc
    rw [findEntryLocationInDir, findEntryLocationLoop_walk hm hfit, hwalk, (IsDir.chain hc).finds_iff, hty]
    simp [and_comm]

theorem findEntryInDir_iff (hdir : IsDir vol (view vol d) (some dir) bs) {name : Bytes} :
    findEntryInDir block vol d (table vol d) dir name = some e ↔
      ∃ loc, Finds vol (view vol d) (some dir) name loc e := by
  cases hdir with
  | @chain _ cs hc =>
    obtain ⟨hm, hfit, hwalk⟩ := dirWalk_dir h hty hc
    have hfind : findEntryInDir block vol d (table vol d) dir name =
        (lookupName (dirRecords .fat32 (view vol d) (cs.map some)) name).map Prod.snd := by
      rw [findEntryInDir, readDirEntries, readDirEntriesLoop_walk hm hfit, hwalk, if_pos rfl, Option.bind_some,
        lookupName, find?_map]
      rfl
    simp only [hfind, (IsDir.chain hc).finds_iff, hty]
    simp

/-! ### Paths -/

theorem resolvePathLoop_iff (hw : Consistent vol (view vol d)) (hr : Reach vol (view vol d) (some dir) bs)
    {segs : List Bytes} (hsegs : ∀ s ∈ segs, PlainName s) :
    resolvePathLoop block vol d (table vol d) dir segs = some (e, loc) ↔
      Resolves vol (view vol d) (some dir) segs loc e := by
  induction segs generalizing dir bs with
  | nil =>
    refine iff_of_false (fun heq ↦ nomatch heq) ?_
    rintro ⟨init, name, -, heq, -⟩
    exact absurd heq.symm (append_ne_nil_of_right_ne_nil _ (cons_ne_nil _ _))
  | cons name segs ih =>
    obtain ⟨hname, hrest⟩ := forall_mem_cons.1 hsegs
    cases segs with
    | nil => exact (findEntryLocationInDir_iff h hty hr.isDir).trans resolves_singleton.symm
    | cons next rest =>
      have hfind : ∀ x, findEntryInDir block vol d (table vol d) dir name = some x ↔
          ∃ loc, Finds vol (view vol d) (some dir) name loc x := fun x ↦
        findEntryInDir_iff h hty hr.isDir
      have hsub : ∀ {x : FatDirEntry} {l : SlotLoc}, Finds vol (view vol d) (some dir) name l x →
          x.isDir = true → 2 ≤ x.firstCluster →
          ∃ bs', Reach vol (view vol d) (some x.firstCluster) bs' := fun hf hdir hge ↦
        ResolvesDir.reach hw.toChained (.cons ⟨_, _, hf, hdir, hge, rfl⟩ .nil) (by simpa using hname) hr
      rw [resolves_cons, resolvePathLoop]
      · constructor
        · intro heq
          split at heq
          · cases heq
          · next x hx =>
            obtain ⟨l, hf⟩ := (hfind x).1 hx
            split at heq
            · cases heq
            · next hok =>
              simp only [not_or, Bool.not_eq_true', Bool.not_eq_false, Nat.not_lt] at hok
              obtain ⟨bs', hr'⟩ := hsub hf hok.1 hok.2
              exact ⟨_, ⟨l, x, hf, hok.1, hok.2, rfl⟩, (ih hr' hrest).1 heq⟩
        · rintro ⟨dir', ⟨l, x, hf, hdir, hge, rfl⟩, hres⟩
          obtain ⟨bs', hr'⟩ := hsub hf hdir hge
          rw [(hfind x).2 ⟨l, hf⟩]
          simp only [hdir, Bool.not_true, Bool.false_eq_true, false_or, if_neg (Nat.not_lt.2 hge)]
          exact (ih hr' hrest).2 hres
      · exact cons_ne_nil _ _

theorem resolvePathEntryLocation_iff (hw : Consistent vol (view vol d)) (hpath : CleanPath path) :
    resolvePathEntryLocation block vol d (table vol d) path = some (e, loc) ↔
      Resolves vol (view vol d) (rootDir vol) path.segments loc e := by
  have hroot : rootDir vol = some vol.rootCluster := by rw [rootDir, hty]
  obtain ⟨bs₀, hr₀⟩ := hw.reach_root
  rw [hroot] at hr₀ ⊢
  rw [resolvePathEntryLocation]
  split
  · next hnone =>
    have hnil : path.segments = [] := hnone.elim hpath.isRoot_iff.1 id
    refine iff_of_false (fun heq ↦ by cases heq) ?_
    rintro ⟨init, name, -, heq, -⟩
    rw [hnil] at heq
    exact absurd heq.symm (append_ne_nil_of_right_ne_nil _ (cons_ne_nil _ _))
  · exact resolvePathLoop_iff h hty hw hr₀ hpath.plain

/-! ### Contents -/

/-- **The read loop** collects whole clusters until it has enough bytes. -/
theorem fat32ReadLoop_eq (hlink : Linked (linkNext .fat32 (view vol d).link) c cs)
    (hrange : ∀ x ∈ cs, 2 ≤ x ∧ x ≤ fatMaxCluster vol) {left : ℕ} (hleft : cs.length ≤ left) (remaining : ℕ) :
    ∃ out, fat32ReadLoop block vol d (table vol d) left c remaining = some out ∧
      out.take remaining = contents (view vol d) cs remaining := by
  have hnext : ∀ c, fatNextCluster .fat32 (table vol d) c = (view vol d).link c := by
    intro c
    rw [← hty]
    rfl
  induction hlink generalizing left remaining with
  | @last c hstop =>
    obtain ⟨left, rfl⟩ : ∃ n, left = n + 1 := ⟨left - 1, by simp at hleft; omega⟩
    have hc := hrange c mem_cons_self
    rw [fat32ReadLoop]
    split
    · next hzero =>
      obtain rfl : remaining = 0 := by omega
      exact ⟨[], rfl, rfl⟩
    · simp only [readCluster_eq h.mountable hc, hnext, fat32Stops_end hstop, if_true]
      refine ⟨_, rfl, ?_⟩
      rw [contents, flatMap_singleton]
  | @cons c n cs hstep htail ih =>
    obtain ⟨left, rfl⟩ : ∃ n, left = n + 1 := ⟨left - 1, by simp at hleft; omega⟩
    obtain ⟨hc, hrest⟩ := forall_mem_cons.1 hrange
    obtain ⟨heq, hgoes⟩ := fat32Stops_link hstep (h.link_ne_bad hty (.cons hstep htail) hrange c mem_cons_self)
    rw [fat32ReadLoop]
    split
    · next hzero =>
      obtain rfl : remaining = 0 := by omega
      exact ⟨[], rfl, rfl⟩
    · obtain ⟨out, hloop, htake⟩ := ih hrest (by simpa using hleft) (remaining - clusterSize vol)
      simp only [readCluster_eq h.mountable hc, hnext, hgoes, Bool.false_eq_true, if_false]
      rw [heq, hloop, Option.map_some]
      refine ⟨_, rfl, ?_⟩
      rw [contents, flatMap_cons, take_append, take_append, length_view_cluster h.mountable d hc.1, htake, contents]

theorem fat32ReadEntry_eq (hfile : e.isDir = false) (hcs : EntryChain vol (view vol d) e cs) (hcov : Covers vol e cs) :
    fat32ReadEntry block vol d (table vol d) e = .ok (contents (view vol d) cs e.fileSize) := by
  have hsize := hcov hfile
  rw [fat32ReadEntry, if_neg (by rw [hfile]; exact Bool.false_ne_true)]
  split
  · next hzero =>
    rw [hzero, contents, take_zero]
  · next hpos =>
    rcases hcs with ⟨-, rfl⟩ | hc
    · rw [length_nil, Nat.zero_mul] at hsize
      omega
    · have hlinked := hc.1.linked
      rw [hty] at hlinked
      obtain ⟨out, hloop, htake⟩ := fat32ReadLoop_eq h hty hlinked hc.1.range hc.2 e.fileSize
      have hge := hc.1.start_range.1
      rw [if_neg (by omega), hloop]
      exact congrArg Except.ok htake

end

def MayRead (env : CapEnv) (task : TaskContext) (path : NormalizedPath) : Prop :=
  task.canReadFile env path.flat = true ∧ task.hasContract env fat32ContractRRead = true

/-- **Reading a path** returns bytes exactly when the task may read it and it leads to a file that
holds them. -/
theorem fat32ReadFileData_eq (h : SoundVolume block vol) (hty : vol.fatType = .fat32) {dev : Dev ss}
    (hw : Consistent vol (view vol dev.disk)) (hmount : mount .fat32 block dev = some (some vol, dev))
    (hpath : CleanPath path) (env : CapEnv) (task : TaskContext) :
    ∃ r, fat32ReadFileData block env task path dev = some (r, dev) ∧ ∀ bytes, r = .ok bytes ↔
        MayRead env task path ∧ FileAt vol (view vol dev.disk) path.segments bytes := by
  unfold fat32ReadFileData
  split
  · next hdenied =>
    refine ⟨_, rfl, fun bytes ↦ iff_of_false (fun heq ↦ nomatch heq) ?_⟩
    rintro ⟨⟨hcan, hcontract⟩, -⟩
    rw [hcan, hcontract] at hdenied
    exact Bool.false_ne_true hdenied
  · next hallowed =>
    have hmay : MayRead env task path := by simpa [MayRead] using hallowed
    rw [hmount, Option.map_some]
    simp only [readFAT_eq h, hmay, true_and]
    have hres : ∀ e loc, resolvePathEntryLocation block vol dev.disk (table vol dev.disk) path =
        some (e, loc) ↔ Resolves vol (view vol dev.disk) (rootDir vol) path.segments loc e :=
      fun e loc ↦ resolvePathEntryLocation_iff h hty hw hpath
    rcases hfind : resolvePathEntryLocation block vol dev.disk (table vol dev.disk) path with
      - | ⟨e, loc⟩
    · refine ⟨_, rfl, fun bytes ↦ iff_of_false (fun heq ↦ nomatch heq) ?_⟩
      rintro ⟨loc, e, cs, hloc, -⟩
      rw [(hres e loc).2 hloc] at hfind
      cases hfind
    · have hloc := (hres e loc).1 hfind
      obtain ⟨cs, hcs, hcov⟩ := hw.chain (hloc.live hw.toChained hpath.plain)
      refine ⟨_, rfl, fun bytes ↦ ?_⟩
      rcases hdir : e.isDir with - | -
      · rw [fat32ReadEntry_eq h hty hdir hcs hcov, Except.ok.injEq]
        constructor
        · rintro rfl
          exact ⟨loc, e, cs, hloc, hdir, hcs, rfl⟩
        · intro hfile
          exact FileAt.unique ⟨loc, e, cs, hloc, hdir, hcs, rfl⟩ hfile
      · rw [fat32ReadEntry, if_pos hdir]
        refine iff_of_false (fun heq ↦ nomatch heq) ?_
        rintro ⟨loc', e', cs', hloc', hfile, -⟩
        obtain ⟨-, rfl⟩ := hloc.unique hloc'
        rw [hdir] at hfile
        cases hfile

end

end CapazOS
