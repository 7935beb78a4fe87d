import CapazOS.Loader.Fat16
import CapazOS.Fat.Flat

/-!
# What the loader reads from a sound volume

The loader's functions that follow chains and copy files, on a disk with a sound FAT16 volume whose
sectors can be read: they compute the successor function and the clusters of the view. Every lemma
takes a **coherent** cache and returns one. Reading a part of a file delivers that part of its
contents (`LoaderReads.readFileAt`).
-/

namespace CapazOS

open List

variable {off n c start len : ℕ} {cs : List ℕ} {cache : FatCache}

/-! ### The volume -/

/-- The fields of a boot sector that parses. -/
theorem fields_of_parse {ty : FatType} {data : Bytes} {baseLBA : ℕ} {bpb : FatBPB}
    (h : parseBootSector ty data baseLBA = some (some bpb)) :
    bpb.bytesPerSector = readLE 2 data 11 ∧ bpb.sectorsPerCluster = (data.getD 13 0).toNat ∧
      bpb.reservedSectors = readLE 2 data 14 ∧ bpb.numFATs = (data.getD 16 0).toNat ∧
      bpb.rootDirSectors = fatRootDirSectors (readLE 2 data 11) (readLE 2 data 17) ∧
      bpb.sectorsPerFAT = countField data 22 36 := by
  simp only [parseBootSector, Option.map_eq_some_iff] at h
  obtain ⟨bpb?, hparse, hfilter⟩ := h
  obtain ⟨rfl, -⟩ := Option.filter_eq_some_iff.1 hfilter
  unfold fatParseBPB at hparse
  split at hparse
  · cases Option.some.inj hparse
  simp only at hparse
  split at hparse
  · cases Option.some.inj hparse
  split at hparse
  · cases Option.some.inj hparse
  split at hparse
  · cases Option.some.inj hparse
  split at hparse
  · cases hparse
  obtain rfl := Option.some.inj (Option.some.inj hparse)
  exact ⟨rfl, rfl, rfl, rfl, rfl, rfl⟩

/-- **The loader on a volume of `Core`**: every sector of the device can be read, both parse the
parameter block at the same sector, and no sector number needs more than 32 bits. The loader accepts
sectors of 512 bytes only. -/
structure LoaderReads (block : BlockDevice 512) (d : Disk 512) (vol : Volume) (read : BootRead)
    (lv : LoaderVolume) : Prop where
  sound : SoundVolume block vol
  fat16 : vol.fatType = .fat16
  reads : ∀ lba < block.capacitySectors, read lba = some (d lba).1
  boot : parseBootSector .fat16 (d vol.baseLBA).1 vol.baseLBA = some (some vol.toFatBPB)
  parsed : fat16Parse read vol.baseLBA = some lv
  low : vol.baseLBA + vol.totalSectors ≤ 2 ^ 32

/-- What the loader's parser has checked. -/
theorem fat16Parse_cases {read : BootRead} {part : ℕ} {lv : LoaderVolume} {sector : Bytes}
    (hread : read part = some sector) (h : fat16Parse read part = some lv) :
    lv.sectorsPerCluster ≠ 0 ∧ readLE 2 sector 11 = 512 ∧ readLE 2 sector 17 ≠ 0 ∧ readLE 2 sector 22 ≠ 0 ∧
      lv.bytesPerSector = 512 ∧ lv.sectorsPerCluster = (sector.getD 13 0).toNat ∧
      lv.rootDirSectors = (readLE 2 sector 17 * 32 + 511) / 512 ∧
      lv.fatStartLba = (part + readLE 2 sector 14) % 2 ^ 32 ∧
      lv.rootDirLba = (lv.fatStartLba + (sector.getD 16 0).toNat * readLE 2 sector 22) % 2 ^ 32 ∧
      lv.dataStartLba = (lv.rootDirLba + lv.rootDirSectors) % 2 ^ 32 := by
  unfold fat16Parse at h
  rw [hread] at h
  simp only [loaderSectorSize] at h
  split at h
  · cases h
  split at h
  · cases h
  next hbps =>
  split at h
  · cases h
  next hzero =>
  split at h
  · cases h
  next hroot =>
  generalize (if readLE 2 sector 19 ≠ 0 then _ else _) = total at h
  split at h
  · cases h
  obtain rfl := Option.some.inj h
  have hbps : readLE 2 sector 11 = 512 := not_not.1 hbps
  simp only [not_or] at hzero
  exact ⟨hzero.1, hbps, hroot, hzero.2.2.2, hbps, rfl, by simp only [hbps], rfl, rfl, rfl⟩

def FatCache.Coherent (block : BlockDevice 512) (d : Disk 512) (cache : FatCache) : Prop :=
  cache.lba < block.capacitySectors → cache.sector = (d cache.lba).1

theorem FatCache.initial_coherent (block : BlockDevice 512) (d : Disk 512) :
    FatCache.initial.Coherent block d := by
  intro hlt
  have hcap := block.capacity_lt
  have hlba : FatCache.initial.lba = 2 ^ 64 - 1 := rfl
  omega

namespace LoaderReads

variable {block : BlockDevice 512} {d : Disk 512} {vol : Volume} {read : BootRead} {lv : LoaderVolume}

section

variable (h : LoaderReads block d vol read lv)
include h

/-- Loader and Core see one geometry. -/
theorem geometry : lv.bytesPerSector = 512 ∧ lv.sectorsPerCluster = vol.sectorsPerCluster ∧
      lv.fatStartLba = vol.fatStartLBA ∧ lv.rootDirLba = vol.rootDirStartLBA ∧
      lv.rootDirSectors = vol.rootDirSectors ∧ lv.dataStartLba = vol.dataStartLBA := by
  obtain ⟨-, -, -, hcap, -, hdata⟩ := h.sound.mountable.bounds
  obtain ⟨-, hroot, hbase⟩ := h.sound.mountable.areas
  have hp := (parsed_of_parse h.boot).2
  have hfat := hp.fatStart_eq
  have hstart := hp.rootDirStart_eq
  have hlt := hp.dataStart_lt
  obtain ⟨-, hspc, hres, hfats, hdirs, hspf⟩ := fields_of_parse h.boot
  obtain ⟨-, hss, hentries, hspf16, hbps, hlspc, hldirs, hlfat, hlroot, hldata⟩ :=
    fat16Parse_cases (h.reads vol.baseLBA (by omega)) h.parsed
  rw [countField, if_pos hspf16] at hspf
  have hdirs' : vol.rootDirSectors = (readLE 2 (d vol.baseLBA).1 17 * 32 + 511) / 512 := by
    rw [hdirs, hss, fatRootDirSectors, if_neg (by omega)]
    rfl
  have hfat' : lv.fatStartLba = vol.fatStartLBA := by rw [hlfat, ← hres, ← hfat, Nat.mod_eq_of_lt (by omega)]
  have hroot' : lv.rootDirLba = vol.rootDirStartLBA := by
    rw [hlroot, hfat', ← hfats, ← hspf, ← hstart, Nat.mod_eq_of_lt (by omega)]
  have hdirs'' : lv.rootDirSectors = vol.rootDirSectors := by rw [hldirs, hdirs']
  refine ⟨hbps, by rw [hlspc, hspc], hfat', hroot', hdirs'', ?_⟩
  rw [hldata, hroot', hdirs'', hroot, Nat.mod_eq_of_lt hlt]

/-! ### The table -/

/-- `fat16_next_cluster` returns the entry of the table. -/
theorem nextCluster (hc : c ≤ fatMaxCluster vol) (hcache : cache.Coherent block d) :
    ∃ cache', fat16NextCluster read lv c cache = ((view vol d).link c, cache') ∧ cache'.Coherent block d := by
  obtain ⟨-, -, hfat, -, -, -⟩ := h.geometry
  obtain ⟨-, -, -, hcap, -, hdata⟩ := h.sound.mountable.bounds
  obtain ⟨-, hroot, -⟩ := h.sound.mountable.areas
  have htable := h.sound.table_le
  have hentry := h.sound.entry_le hc
  rw [h.fat16] at hentry
  replace hentry : (c + 1) * 2 ≤ vol.sectorsPerFAT * 512 := hentry
  have hsector : c * 2 / 512 < vol.sectorsPerFAT := by omega
  have hlba : vol.fatStartLBA + c * 2 / 512 < block.capacitySectors := by omega
  have hlink : (view vol d).link c = readLE 2 (d (vol.fatStartLBA + c * 2 / 512)).1 (c * 2 % 512) := by
    have hlen := length_table vol d
    rw [view_link, h.fat16, fatNextCluster_fat16, if_neg (by omega), table, ← slice_diskBytes d hsector,
      readLE_slice (by rw [length_diskBytes]; omega) (by omega), Nat.mul_comm _ 512, Nat.div_add_mod]
  unfold fat16NextCluster
  simp only [loaderSectorSize, hfat]
  split
  · rw [h.reads _ hlba]
    exact ⟨⟨_, (d _).1⟩, by rw [hlink], fun _ ↦ rfl⟩
  · next heq =>
    have heq : vol.fatStartLBA + c * 2 / 512 = cache.lba := not_not.1 heq
    refine ⟨cache, ?_, hcache⟩
    rw [hlink, hcache (heq ▸ hlba), heq]

theorem not_eoc (hc : 2 ≤ c ∧ c ≤ fatMaxCluster vol) : ¬(c < 2 ∨ fat16IsEoc c = true) := by
  have hmax := h.sound.max_lt
  rw [h.fat16] at hmax
  replace hmax : fatMaxCluster vol < 0xFFF7 := hmax
  rw [fat16IsEoc, decide_eq_true_eq]
  omega

theorem clusterToLba (hc : 2 ≤ c ∧ c ≤ fatMaxCluster vol) : fat16ClusterToLba lv c = clusterLBA vol c ∧
      clusterLBA vol c + vol.sectorsPerCluster ≤ block.capacitySectors := by
  obtain ⟨-, hspc, -, -, -, hdata⟩ := h.geometry
  have hle := h.sound.mountable.cluster_le hc
  have hcap := h.sound.mountable.bounds.2.2.2.1
  exact ⟨by rw [fat16ClusterToLba, clusterLBA, hspc, hdata], by omega⟩

end

theorem link_of_linkNext {link : ℕ → ℕ} {a b : ℕ} (h : linkNext .fat16 link a = some b) : link a = b := by
  rw [linkNext] at h
  split at h
  · cases h
  · exact Option.some.inj h

theorem eoc_of_linkNext {link : ℕ → ℕ} {a : ℕ} (h : linkNext .fat16 link a = none) : fat16IsEoc (link a) = true := by
  rw [linkNext] at h
  split at h
  · next hle => exact decide_eq_true hle
  · cases h

section

variable (h : LoaderReads block d vol read lv)
include h

section

variable (hl : Linked (linkNext .fat16 (view vol d).link) start cs) (hrange : ∀ c ∈ cs, 2 ≤ c ∧ c ≤ fatMaxCluster vol)
include hl hrange

/-- Skipping `k` clusters ends at the `k`-th one of the chain, if it has one. -/
theorem skip (k : ℕ) (hcache : cache.Coherent block d) :
    ∃ cache', fat16Skip read lv k start cache = (cs[k]?, cache') ∧ cache'.Coherent block d := by
  induction hl generalizing k cache with
  | @last a hstop =>
    cases k with
    | zero => exact ⟨cache, rfl, hcache⟩
    | succ k =>
      obtain ⟨cache₁, hstep, hcache₁⟩ := h.nextCluster (hrange a mem_cons_self).2 hcache
      refine ⟨cache₁, ?_, hcache₁⟩
      rw [fat16Skip, hstep]
      simp only
      rw [if_pos (.inr (eoc_of_linkNext hstop))]
      rfl
  | @cons a b l hnext htail ih =>
    cases k with
    | zero => exact ⟨cache, rfl, hcache⟩
    | succ k =>
      obtain ⟨ha, hl⟩ := forall_mem_cons.1 hrange
      obtain ⟨cache₁, hstep, hcache₁⟩ := h.nextCluster ha.2 hcache
      obtain ⟨cache', hskip, hcache'⟩ := ih hl k hcache₁
      refine ⟨cache', ?_, hcache'⟩
      rw [link_of_linkNext hnext] at hstep
      rw [fat16Skip, hstep]
      simp only
      rw [if_neg (h.not_eoc (hl b htail.head_mem)), hskip, getElem?_cons_succ]

end

/-! ### Copying -/

theorem copySectors_eq {lba : ℕ} (hcap : lba + n ≤ block.capacitySectors) (hoff : off ≤ 512) (remaining : ℕ) :
    copySectors read ((range n).map fun s ↦ lba + s) off remaining =
      (true, slice (d.bytes lba n) off remaining) := by
  induction n generalizing lba off remaining with
  | zero => simp [copySectors, Disk.bytes, slice]
  | succ n ih =>
    have hlen := (d lba).2
    have hshift : ((range n).map Nat.succ).map (fun s ↦ lba + s) = (range n).map fun s ↦ lba + 1 + s := by
      rw [map_map]
      exact map_congr_left fun i _ ↦ by simp only [Function.comp_apply]; omega
    rw [range_succ_eq_map, map_cons, hshift, copySectors, Nat.add_zero]
    split
    · next hzero => rw [hzero, slice, take_zero]
    · rw [h.reads lba (by omega)]
      simp only [loaderSectorSize]
      rw [ih (by omega) (Nat.zero_le _), diskBytes_succ, slice_append (by omega), hlen]
      have hfirst : slice (d lba).1 off (min (512 - off) remaining) = slice (d lba).1 off remaining := by
        rw [slice, slice, take_eq_take_min (i := remaining), length_drop, hlen, Nat.min_comm]
      rw [hfirst, show remaining - min (512 - off) remaining = remaining - (512 - off) by omega]

/-- The copy of one cluster, from an offset on. -/
theorem copyCluster (hc : 2 ≤ c ∧ c ≤ fatMaxCluster vol) (hoff : off < clusterSize vol) (remaining : ℕ) :
    copySectors read ((range' (off / 512) (vol.sectorsPerCluster - off / 512)).map
        fun s ↦ clusterLBA vol c + s) (off % 512) remaining =
      (true, slice ((view vol d).cluster c) off remaining) := by
  obtain ⟨-, hcap⟩ := h.clusterToLba hc
  rw [h.sound.mountable.clusterSize_eq] at hoff
  have hle : off / 512 ≤ vol.sectorsPerCluster := by omega
  have hlist : (range' (off / 512) (vol.sectorsPerCluster - off / 512)).map
      (fun s ↦ clusterLBA vol c + s) = (range (vol.sectorsPerCluster - off / 512)).map
        fun s ↦ clusterLBA vol c + off / 512 + s := by
    rw [range'_eq_map_range, map_map]
    exact map_congr_left fun i _ ↦ by simp only [Function.comp_apply]; omega
  have hdrop := drop_diskBytes d (clusterLBA vol c) (vol.sectorsPerCluster - off / 512) (off / 512)
  rw [Nat.add_sub_cancel' hle] at hdrop
  rw [hlist, h.copySectors_eq (by omega) (by omega), ← hdrop, slice_drop, Nat.mul_comm,
    Nat.div_add_mod, view_cluster vol d hc.1]

theorem copyRound (rounds : ℕ) (cache : FatCache) (hc : 2 ≤ c ∧ c ≤ fatMaxCluster vol)
    (hoff : off < clusterSize vol) (hlen : len ≠ 0) :
    fat16CopyLoop read lv (rounds + 1) c off len cache =
      if off + len ≤ clusterSize vol then ⟨true, slice ((view vol d).cluster c) off len, cache⟩
      else
        let (next, cache) := fat16NextCluster read lv c cache
        let rest := fat16CopyLoop read lv rounds next 0 (len - (clusterSize vol - off)) cache
        { rest with data := slice ((view vol d).cluster c) off len ++ rest.data } := by
  obtain ⟨hbps, hspc, -, -, -, -⟩ := h.geometry
  have hsize := length_view_cluster h.sound.mountable d hc.1
  have hcopied := length_slice_eq ((view vol d).cluster c) off len
  rw [fat16CopyLoop, if_neg hlen, if_neg (h.not_eoc hc), (h.clusterToLba hc).1, hbps, hspc]
  simp only [h.copyCluster hc hoff len, Bool.not_true, Bool.false_eq_true, if_false]
  split_ifs
  · rfl
  · omega
  · omega
  · rw [show len - (slice ((view vol d).cluster c) off len).length = len - (clusterSize vol - off) by omega]

/-- **Copying along a chain**: what the chain holds of the request, and whether that was all of
it. -/
theorem copyLoop (hl : Linked (linkNext .fat16 (view vol d).link) start cs)
    (hrange : ∀ c ∈ cs, 2 ≤ c ∧ c ≤ fatMaxCluster vol) {rounds : ℕ} (hcache : cache.Coherent block d)
    (hoff : off < clusterSize vol) (hrounds : len < rounds) :
    ∃ cache', fat16CopyLoop read lv rounds start off len cache = ⟨decide (off + len ≤ cs.length * clusterSize vol),
          slice (cs.flatMap (view vol d).cluster) off len, cache'⟩ ∧
      cache'.Coherent block d := by
  have hdone : ∀ (rounds start off : ℕ) (cache : FatCache) (bytes : Bytes),
      fat16CopyLoop read lv (rounds + 1) start off 0 cache = ⟨true, slice bytes off 0, cache⟩ := by
    intro rounds start off cache bytes
    rw [fat16CopyLoop, if_pos rfl, slice, take_zero]
  induction hl generalizing rounds off len cache with
  | @last a hstop =>
    obtain ⟨rounds, rfl⟩ := Nat.exists_eq_succ_of_ne_zero (Nat.ne_zero_of_lt hrounds)
    have ha := hrange a mem_cons_self
    rw [length_singleton, Nat.one_mul, flatMap_singleton]
    rcases eq_or_ne len 0 with rfl | hlen
    · exact ⟨cache, by rw [hdone, decide_eq_true (by omega)], hcache⟩
    rw [h.copyRound rounds cache ha hoff hlen]
    split
    · next hfit => exact ⟨cache, by rw [decide_eq_true hfit], hcache⟩
    · next hfit =>
      -- behind the last cluster the loop meets the end mark
      obtain ⟨cache₁, hstep, hcache₁⟩ := h.nextCluster ha.2 hcache
      obtain ⟨rounds, rfl⟩ : ∃ n, rounds = n + 1 := ⟨rounds - 1, by omega⟩
      refine ⟨cache₁, ?_, hcache₁⟩
      rw [hstep, decide_eq_false hfit]
      simp only
      rw [fat16CopyLoop, if_neg (by omega), if_pos (.inr (eoc_of_linkNext hstop)), append_nil]
  | @cons a b l hnext htail ih =>
    obtain ⟨rounds, rfl⟩ := Nat.exists_eq_succ_of_ne_zero (Nat.ne_zero_of_lt hrounds)
    obtain ⟨ha, hlrange⟩ := forall_mem_cons.1 hrange
    have hsize := length_view_cluster h.sound.mountable d ha.1
    rw [length_cons, Nat.succ_mul]
    rcases eq_or_ne len 0 with rfl | hlen
    · exact ⟨cache, by rw [hdone, decide_eq_true (by omega)], hcache⟩
    rw [h.copyRound rounds cache ha hoff hlen, flatMap_cons, slice_append (by omega), hsize]
    split
    · refine ⟨cache, ?_, hcache⟩
      rw [show len - (clusterSize vol - off) = 0 by omega, decide_eq_true (by omega)]
      simp [slice]
    · obtain ⟨cache₁, hstep, hcache₁⟩ := h.nextCluster ha.2 hcache
      obtain ⟨cache', hrest, hcache'⟩ := ih hlrange hcache₁ (Nat.zero_lt_of_lt hoff)
        (show len - (clusterSize vol - off) < rounds by omega)
      refine ⟨cache', ?_, hcache'⟩
      rw [hstep, link_of_linkNext hnext]
      simp only [hrest]
      congr 2
      exact propext ⟨fun _ ↦ by omega, fun _ ↦ by omega⟩

/-- **A read that passes the checks**: the part of the chain that was asked for, and whether the
chain is that long. The end of the request has been compared as a 32-bit number only, so that it may
lie far behind the file. -/
theorem readChecked {file : LoaderDirent}
    (hcs : file.firstCluster < 2 ∧ cs = [] ∨ ChainFrom vol (view vol d) file.firstCluster cs)
    (hcov : file.size ≤ cs.length * clusterSize vol) {offset dst : ℕ} (hdst : dst ≠ 0) (hlen : len ≠ 0)
    (hoff : offset ≤ file.size) (hend : (offset + len) % 2 ^ 32 ≤ file.size) (hcache : cache.Coherent block d) :
    ∃ cache', fat16ReadFileAt read lv file offset len dst cache = ⟨decide (offset + len ≤ cs.length * clusterSize vol),
          slice (cs.flatMap (view vol d).cluster) offset len, cache'⟩ ∧
      cache'.Coherent block d := by
  obtain ⟨hbps, hspc, -, -, -, -⟩ := h.geometry
  have hpos := h.sound.mountable.clusterSize_pos
  have hcluster : lv.bytesPerSector * lv.sectorsPerCluster = clusterSize vol := by
    rw [hbps, hspc, h.sound.mountable.clusterSize_eq, Nat.mul_comm]
  rw [fat16ReadFileAt, if_neg hdst, if_neg hlen, if_neg (by omega), if_neg (by omega)]
  simp only [hcluster]
  rcases hcs with ⟨hfirst, rfl⟩ | hchain
  · simp only [length_nil, Nat.zero_mul] at hcov
    obtain rfl : offset = 0 := by omega
    refine ⟨cache, ?_, hcache⟩
    rw [Nat.zero_div, fat16Skip]
    simp only
    rw [fat16CopyLoop, if_neg hlen, if_pos (.inl hfirst), decide_eq_false (by simpa using hlen)]
    simp [slice]
  have hl := hchain.1.linked
  rw [h.fat16] at hl
  have hdm := Nat.div_add_mod offset (clusterSize vol)
  obtain ⟨cache₁, hskip, hcache₁⟩ := h.skip hl hchain.1.range (offset / clusterSize vol) hcache
  rw [hskip]
  rcases hk : cs[offset / clusterSize vol]? with - | c
  · -- the request starts at the very end of the chain
    have hlong : cs.length * clusterSize vol ≤ offset :=
      (Nat.mul_le_mul_right _ (getElem?_eq_none_iff.1 hk)).trans (Nat.div_mul_le_self offset _)
    refine ⟨cache₁, ?_, hcache₁⟩
    rw [decide_eq_false (by omega), slice, drop_eq_nil_of_le, take_nil]
    rw [length_flatMap_cluster h.sound.mountable d fun x hx ↦ (hchain.1.range x hx).1]
    exact hlong
  · obtain ⟨cache', hcopy, hcache'⟩ := h.copyLoop (hl.drop hk) (fun x hx ↦ hchain.1.range x (mem_of_mem_drop hx)) hcache₁
      (Nat.mod_lt offset hpos) (Nat.lt_succ_self len)
    refine ⟨cache', ?_, hcache'⟩
    have hflat : (cs.drop (offset / clusterSize vol)).flatMap (view vol d).cluster =
        (cs.flatMap (view vol d).cluster).drop (offset / clusterSize vol * clusterSize vol) := flatMap_drop_const
        (fun x hx ↦ length_view_cluster h.sound.mountable d (hchain.1.range x hx).1) _
    have hfit : offset % clusterSize vol + len ≤ (cs.drop (offset / clusterSize vol)).length * clusterSize vol ↔
        offset + len ≤ cs.length * clusterSize vol := by
      rw [length_drop, Nat.sub_mul, Nat.mul_comm (offset / _)]
      omega
    simp only
    rw [hcopy, hflat, slice_drop, Nat.mul_comm (offset / _), hdm, decide_eq_decide.2 hfit]

/-- A request inside the file returns its bytes. -/
theorem readFileAt {file : LoaderDirent}
    (hcs : file.firstCluster < 2 ∧ cs = [] ∨ ChainFrom vol (view vol d) file.firstCluster cs)
    (hcov : file.size ≤ cs.length * clusterSize vol) (hsize : file.size < 2 ^ 32) {offset dst : ℕ}
    (hdst : dst ≠ 0) (hle : offset + len ≤ file.size) (hcache : cache.Coherent block d) :
    ∃ cache', fat16ReadFileAt read lv file offset len dst cache =
        ⟨true, slice (contents (view vol d) cs file.size) offset len, cache'⟩ ∧
      cache'.Coherent block d := by
  rcases eq_or_ne len 0 with rfl | hlen
  · refine ⟨cache, ?_, hcache⟩
    rw [fat16ReadFileAt, if_neg hdst, if_pos rfl, slice, take_zero]
  have hoff : offset ≤ file.size := by omega
  have hend : (offset + len) % 2 ^ 32 ≤ file.size := by
    rw [Nat.mod_eq_of_lt (by omega)]
    exact hle
  obtain ⟨cache', hread, hcache'⟩ := h.readChecked hcs hcov hdst hlen hoff hend hcache
  refine ⟨cache', ?_, hcache'⟩
  rw [hread, decide_eq_true (by omega), contents, slice_take hle]

end

end LoaderReads

end CapazOS
