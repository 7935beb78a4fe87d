import CapazOS.Loader.Lookup
import CapazOS.Fat.Canonical

/-!
# The loader and Core on the same volume

On a well-formed FAT16 volume without long names the loader follows a path exactly as `Core` follows
its **visible** form (`SharedVolume.findPath`). A path such as `A .TXT` is not its own visible form:
the loader opens `A.TXT` under it, and `Core` finds nothing. `loader_agrees_iff` says that this is
the only way to disagree. Nothing is claimed about a volume with a prepared log record, which the
loader does not replay.
-/

namespace CapazOS

open List

variable {raw : Bytes} {segs : List Bytes} {path : NormalizedPath} {e : FatDirEntry} {vol : Volume}
  {dir : Option ℕ} {loc : SlotLoc} {bs : List (Option ℕ)}

/-- A C string ends at its first zero byte. -/
def cString (bytes : Bytes) : Bytes := bytes.takeWhile (· ≠ 0)

/-! ### The two encoders -/

/-- The loop of `make_short_name` that looks for the dot, from byte number `i` on; `none` at a
second dot. -/
def dotScan : Bytes → ℕ → Option ℕ → Option (Option ℕ)
  | [], _, dot => some dot
  | b :: rest, i, dot =>
    if b = 0x2E then if dot.isSome then none else dotScan rest (i + 1) (some i)
    else dotScan rest (i + 1) dot

/-- The loops that store bytes one by one: `n` bytes of `src` from `s` on go to `out` from `o`
on. -/
def storeBytes (src : Bytes) (s o : ℕ) : ℕ → Bytes → Bytes
  | 0, out => out
  | n + 1, out => (storeBytes src s o n out).set (o + n) (src.getD (s + n) 0)

/-- `make_short_name` on the memory from its argument on, with the lengths taken from the place of
the dot. -/
def makeShortNameAt (memory : Bytes) : Option Bytes :=
  let name := cString memory
  if name = [] then none
  else
    (dotScan name 0 none).bind fun dot ↦
      let baseLen := dot.getD name.length
      let extLen := dot.elim 0 fun dot ↦ (name.drop (dot + 1)).length
      if baseLen = 0 ∨ 8 < baseLen ∨ 3 < extLen then none
      else
        let upper := name.map toUpperASCII
        let out := storeBytes upper 0 0 baseLen (replicate 11 0x20)
        some (storeBytes upper (baseLen + 1) 8 extLen out)

/-- The loop of `fatEncodeShortName` over the bytes of a name. -/
def encodeLoop : Bytes → Bytes → Bytes → Bool → Option (Bytes × Bytes)
  | [], base, ext, _ => some (base, ext)
  | b :: rest, base, ext, seenDot =>
    if b = 0x2E then if seenDot then none else encodeLoop rest base ext true
    else if !seenDot then encodeLoop rest (base ++ [toUpperASCII b]) ext seenDot
    else encodeLoop rest base (ext ++ [toUpperASCII b]) seenDot

def fatEncodeShortNameLoop (name : Bytes) : Option Bytes :=
  if name = [] then none
  else
    (encodeLoop name [] [] false).bind fun (base, ext) ↦
      if base = [] ∨ 8 < base.length ∨ 3 < ext.length then none
      else
        let out := storeBytes base 0 0 base.length (replicate 11 0x20)
        some (storeBytes ext 0 8 ext.length out)

theorem dotScan_some (name : Bytes) (i d : ℕ) :
    dotScan name i (some d) = if 0x2E ∈ name then none else some (some d) := by
  induction name generalizing i with
  | nil => rfl
  | cons b name ih =>
    rw [dotScan]
    rcases eq_or_ne b 0x2E with rfl | hb
    · simp
    · simp [hb, hb.symm, ih]

theorem dotScan_none (name : Bytes) (i : ℕ) : dotScan name i none =
      if 0x2E ∈ (name.dropWhile (· ≠ 0x2E)).drop 1 then none
      else some (if 0x2E ∈ name then some (i + (name.takeWhile (· ≠ 0x2E)).length) else none) := by
  induction name generalizing i with
  | nil => rfl
  | cons b name ih =>
    rw [dotScan]
    rcases eq_or_ne b 0x2E with rfl | hb
    · simp [dotScan_some]
    · simp [hb, hb.symm, ih, Nat.add_assoc, Nat.add_comm 1]

theorem encodeLoop_true (name base ext : Bytes) : encodeLoop name base ext true =
      if 0x2E ∈ name then none else some (base, ext ++ name.map toUpperASCII) := by
  induction name generalizing ext with
  | nil => simp [encodeLoop]
  | cons b name ih =>
    rw [encodeLoop]
    rcases eq_or_ne b 0x2E with rfl | hb
    · simp
    · simp [hb, hb.symm, ih]

theorem encodeLoop_false (name base : Bytes) : encodeLoop name base [] false =
      if 0x2E ∈ (name.dropWhile (· ≠ 0x2E)).drop 1 then none
      else some (base ++ (name.takeWhile (· ≠ 0x2E)).map toUpperASCII,
        ((name.dropWhile (· ≠ 0x2E)).drop 1).map toUpperASCII) := by
  induction name generalizing base with
  | nil => simp [encodeLoop]
  | cons b name ih =>
    rw [encodeLoop]
    rcases eq_or_ne b 0x2E with rfl | hb
    · simp [encodeLoop_true]
    · simp [hb, ih]

theorem storeBytes_eq {src out : Bytes} {s o n : ℕ} (hs : (slice src s n).length = n) (ho : o + n ≤ out.length) :
    storeBytes src s o n out = out.take o ++ slice src s n ++ out.drop (o + n) := by
  induction n with
  | zero => simp [storeBytes, slice]
  | succ n ih =>
    rw [length_slice_eq] at hs
    have hlen : (out.take o ++ slice src s n).length = o + n := by
      rw [length_append, length_take, length_slice_eq]
      omega
    have hget : slice src s (n + 1) = slice src s n ++ [src.getD (s + n) 0] := by
      rw [slice, slice, take_add_one, getElem?_drop, getD_eq_getElem?_getD, getElem?_eq_getElem (by omega)]
      rfl
    rw [storeBytes, ih (by rw [length_slice_eq]; omega) (by omega), set_append_right _ _ hlen.le, hlen,
      Nat.sub_self, drop_eq_getElem_cons (by omega), set_cons_zero, hget]
    simp [Nat.add_assoc]

theorem storeBytes_padded {src src' base ext : Bytes} {s n k : ℕ} (hbase : slice src 0 n = base)
    (hext : slice src' s k = ext) (hn : base.length = n) (hk : ext.length = k) (hn' : n ≤ 8) (hk' : k ≤ 3) :
    storeBytes src' s 8 k (storeBytes src 0 0 n (replicate 11 0x20)) = padSpaces 8 base ++ padSpaces 3 ext := by
  rw [storeBytes_eq (s := 0) (by rw [hbase, hn]) (by simp; omega), hbase, take_zero, nil_append, Nat.zero_add,
    drop_replicate, storeBytes_eq (by rw [hext, hk]) (by simp; omega), hext, take_append, drop_append,
    take_of_length_le (by omega), drop_of_length_le (by omega), take_replicate, drop_replicate, nil_append,
    padSpaces, padSpaces, append_assoc, append_assoc, append_assoc, Nat.min_eq_left (by omega), hn, hk,
    show 11 - n - (8 + k - n) = 3 - k by omega]

theorem fatEncodeShortNameLoop_eq (name : Bytes) : fatEncodeShortNameLoop name = fatEncodeShortName name := by
  rw [fatEncodeShortNameLoop, fatEncodeShortName, encodeLoop_false, splitName]
  split
  · rfl
  · split
    · rfl
    · simp only [Option.bind_some, nil_append]
      split
      · rfl
      · rw [storeBytes_padded (by simp [slice]) (by simp [slice]) rfl rfl (by omega) (by omega)]

theorem makeShortNameAt_eq {name : Bytes} (hname : 0 ∉ name) (rest : Bytes) :
    makeShortNameAt (name ++ 0 :: rest) = makeShortName name := by
  have hstring : cString (name ++ 0 :: rest) = name := by
    have hall : ∀ b ∈ name, decide (b ≠ 0) = true := fun b hb ↦ decide_eq_true fun heq : b = 0 ↦ hname (heq ▸ hb)
    rw [cString, takeWhile_append_of_pos hall]
    simp
  simp only [makeShortNameAt, makeShortName, hstring, dotScan_none]
  set base := name.takeWhile (· ≠ 0x2E)
  set tail := name.dropWhile (· ≠ 0x2E)
  have hsplit : name = base ++ tail := takeWhile_append_dropWhile.symm
  have hbase : name.take base.length = base := by rw [hsplit, take_left]
  have hext : name.drop (base.length + 1) = tail.drop 1 := by rw [hsplit, drop_length_add_append]
  -- both lengths come from the place of the dot, or from the end of a name without one
  have hlens : ∀ dot, dot = (if 0x2E ∈ name then some (0 + base.length) else none) →
      dot.getD name.length = base.length ∧
        dot.elim 0 (fun dot ↦ (name.drop (dot + 1)).length) = (tail.drop 1).length := by
    rintro _ rfl
    split
    · rw [Nat.zero_add, ← hext]
      exact ⟨rfl, rfl⟩
    · next hno =>
      have hall : ∀ b ∈ name, decide (b ≠ 0x2E) = true := fun b hb ↦ decide_eq_true fun heq : b = 0x2E ↦ hno (heq ▸ hb)
      rw [show base = name from takeWhile_eq_self_iff.2 hall, show tail = [] from dropWhile_eq_nil_iff.2 hall]
      exact ⟨rfl, rfl⟩
  obtain ⟨hbaseLen, hextLen⟩ := hlens _ rfl
  split
  · rfl
  · split
    · rfl
    · simp only [Option.bind_some, hbaseLen, hextLen]
      split
      · rfl
      · rw [storeBytes_padded (by rw [slice, drop_zero, ← map_take, hbase])
          (by rw [slice, ← map_drop, hext, ← map_take, take_length]) (length_map _) (length_map _) (by omega)
          (by omega)]

/-- **The encoders of the loader and of Core agree**: on a byte string without a zero byte, which
stands in memory in front of its terminator, both accept the same names, with the same eleven
bytes. -/
theorem short_name_encoders_agree {name : Bytes} (hname : 0 ∉ name) (rest : Bytes) :
    makeShortNameAt (name ++ 0 :: rest) = fatEncodeShortNameLoop name := by
  rw [makeShortNameAt_eq hname, makeShortName_eq, fatEncodeShortNameLoop_eq]

theorem short_name_encoders_agree_a :
    makeShortNameAt [0x61, 0x2E, 0x74, 0] = fatEncodeShortNameLoop [0x61, 0x2E, 0x74] ∧
      fatEncodeShortNameLoop [0x61, 0x2E, 0x74] = some (padSpaces 8 [0x41] ++ padSpaces 3 [0x54]) := by
  have hname : (0 : UInt8) ∉ [0x61, 0x2E, 0x74] := by decide
  exact ⟨short_name_encoders_agree hname [], by decide +kernel⟩

/-! ### Normalized paths as C strings -/

/-- The names the loader looks for under a path. -/
def visiblePath (path : NormalizedPath) : Option (List Bytes) :=
  (pathComponents (cString path.flat)).mapM visible

theorem ShortName.visible {s base ext : Bytes} (h : ShortName s base ext) :
    visible (joinName base ext) = some (joinName base ext) := by
  have hlen : ¬15 < (joinName base ext).length := by
    have := h.base_le
    have := h.ext_le
    rw [joinName, length_append]
    split
    · simp only [length_nil]
      omega
    · rw [length_cons]
      omega
  rw [CapazOS.visible, componentName, if_neg hlen, makeShortName_eq, h.normalName.encode,
    Option.map_some, visibleName_padded h.base_le, trimEnd_eq_self h.no_space.1,
    trimEnd_eq_self h.no_space.2]

theorem ShortName.no_zero {s base ext : Bytes} (h : ShortName s base ext) : 0 ∉ joinName base ext := by
  have hall : ∀ b ∈ base ++ ext, b ≠ 0 := by
    rintro b hb rfl
    exact absurd (h.chars _ hb).1 (by decide)
  rw [joinName, mem_append, not_or]
  refine ⟨fun hmem ↦ hall _ (mem_append_left _ hmem) rfl, ?_⟩
  split
  · exact not_mem_nil
  · rw [mem_cons, not_or]
    exact ⟨by decide, fun hmem ↦ hall _ (mem_append_right _ hmem) rfl⟩

theorem visiblePath_of_short (h : normalizePath raw = some path) (hne : path.segments ≠ [])
    (hshort : ∀ seg ∈ path.segments, ∃ s base ext, ShortName s base ext ∧ seg = joinName base ext) :
    visiblePath path = some path.segments := by
  obtain rfl | ⟨-, -, hflat, -⟩ := normalizePath_pieces h
  · exact absurd rfl hne
  have hslash : ∀ seg ∈ path.segments, 0x2F ∉ seg := fun seg hseg hmem ↦ ((normalName_of_mem h hseg).2 _ hmem).1.1 rfl
  have hzero : ∀ b ∈ path.flat, (decide (b ≠ 0)) = true := by
    intro b hb
    rw [hflat] at hb
    refine decide_eq_true ?_
    rintro rfl
    rcases mem_intercalate hb with heq | ⟨seg, hseg, hmem⟩
    · exact absurd heq (by decide)
    · obtain ⟨s, base, ext, hs, rfl⟩ := hshort seg hseg
      exact hs.no_zero hmem
  have hfilter : path.segments.filter (· ≠ []) = path.segments := by
    refine filter_eq_self.2 fun seg hseg ↦ decide_eq_true ?_
    obtain ⟨s, base, ext, hs, rfl⟩ := hshort seg hseg
    exact hs.normalName.seg_ne_nil
  have hsplit : pathComponents (cString path.flat) = path.segments := by
    rw [cString, takeWhile_eq_self_iff.2 hzero, pathComponents, hflat, splitOn_intercalate _ hslash hne, hfilter]
  have hall : ∀ {segs : List Bytes}, (∀ seg ∈ segs, visible seg = some seg) → segs.mapM visible = some segs := by
    intro segs hsegs
    induction segs with
    | nil => rfl
    | cons seg segs ih =>
      obtain ⟨hseg, hrest⟩ := forall_mem_cons.1 hsegs
      rw [mapM_cons, hseg, ih hrest]
      rfl
  rw [visiblePath, hsplit]
  refine hall fun seg hseg ↦ ?_
  obtain ⟨s, base, ext, hs, rfl⟩ := hshort seg hseg
  exact hs.visible

/-! ### Following a path -/

/-- **A volume that both programs use**: `Core` mounts it and has no log record to replay, the
loader can read it, every chain ends and covers its entry, every directory has a chain, and there
are short names only. Chains may share clusters. -/
structure SharedVolume (block : BlockDevice 512) (d : Disk 512) (vol : Volume) (read : BootRead)
    (lv : LoaderVolume) : Prop extends LoaderReads block d vol read lv where
  mounted : mount .fat16 block (Dev.start d) = some (some vol, Dev.start d)
  chained : Chained vol (view vol d)
  slots : ∀ {dir : Option ℕ} {bs : List (Option ℕ)}, Reach vol (view vol d) dir bs →
    ∀ s ∈ scannedSlots (view vol d) bs, ShortSlot s
  dirs : ∀ {loc : SlotLoc} {e : FatDirEntry}, Live vol (view vol d) loc e → e.isDir = true → 2 ≤ e.firstCluster

/-- An entry of the loader and an entry of `Core` that describe the same file. -/
def SameEntry (f : LoaderDirent) (e : FatDirEntry) : Prop :=
  f.attr = e.attr ∧ f.firstCluster = e.firstCluster ∧ f.size = e.fileSize

theorem SameEntry.isDir {f : LoaderDirent} (h : SameEntry f e) : f.isDir = e.isDir := by
  rw [LoaderDirent.isDir, FatDirEntry.isDir, h.1]

/-- `f?` is what the visible names of the components lead to from a directory on. -/
structure LeadsTo (vol : Volume) (v : View) (dir : Option ℕ) (components : List Bytes)
    (f? : Option LoaderDirent) : Prop where
  sound : ∀ f, f? = some f → ∃ segs loc e, components.mapM visible = some segs ∧
    Resolves vol v dir segs loc e ∧ SameEntry f e
  complete : ∀ segs loc e, components.mapM visible = some segs → Resolves vol v dir segs loc e →
    ∃ f, f? = some f ∧ SameEntry f e

theorem mapM_visible_cons {component : Bytes} {rest : List Bytes} : (component :: rest).mapM visible = some segs ↔
      ∃ name names, visible component = some name ∧ rest.mapM visible = some names ∧ segs = name :: names := by
  rw [mapM_cons]
  constructor
  · intro h
    obtain ⟨name, hname, h⟩ := Option.bind_eq_some_iff.1 h
    obtain ⟨names, hnames, h⟩ := Option.bind_eq_some_iff.1 h
    exact ⟨name, names, hname, hnames, (Option.some.inj h).symm⟩
  · rintro ⟨name, names, hname, hnames, rfl⟩
    rw [hname, hnames]
    rfl

theorem leadsTo_none {v : View} {components : List Bytes}
    (h : ∀ segs loc e, components.mapM visible = some segs → ¬Resolves vol v dir segs loc e) :
    LeadsTo vol v dir components none :=
  ⟨(fun _ hf ↦ nomatch hf), fun segs loc e hsegs hres ↦ absurd hres (h segs loc e hsegs)⟩

section

variable {v : View} {component name : Bytes} {rest : List Bytes} (hvisible : visible component = some name)
include hvisible

/-- A path whose first component shows as `name` starts with an entry of that name. -/
theorem Resolves.of_component (hsegs : (component :: rest).mapM visible = some segs)
    (hres : Resolves vol v dir segs loc e) : ∃ names loc₁ e₁, rest.mapM visible = some names ∧
      Finds vol v dir name loc₁ e₁ ∧ (rest = [] ∧ e₁ = e ∨
        rest ≠ [] ∧ e₁.isDir = true ∧ Resolves vol v (some e₁.firstCluster) names loc e) := by
  obtain ⟨name', names, hname, hnames, rfl⟩ := mapM_visible_cons.1 hsegs
  obtain rfl := Option.some.inj (hname.symm.trans hvisible)
  rcases rest with - | ⟨next, rest⟩
  · obtain rfl : [] = names := Option.some.inj hnames
    exact ⟨[], loc, e, rfl, resolves_singleton.1 hres, .inl ⟨rfl, rfl⟩⟩
  · obtain ⟨_, _, -, -, rfl⟩ := mapM_visible_cons.1 hnames
    obtain ⟨dir', ⟨loc₁, e₁, hf, hdir, -, rfl⟩, hrest⟩ := resolves_cons.1 hres
    exact ⟨_, loc₁, e₁, hnames, hf, .inr ⟨cons_ne_nil _ _, hdir, hrest⟩⟩

theorem leadsTo_last (hf : Finds vol v dir name loc e) {f : LoaderDirent} (hsame : SameEntry f e) :
    LeadsTo vol v dir [component] (some f) := by
  refine ⟨fun f' hsome ↦ ?_, fun segs loc' e' hsegs hres ↦ ?_⟩
  · obtain rfl := Option.some.inj hsome
    exact ⟨[name], loc, e, mapM_visible_cons.2 ⟨_, [], hvisible, rfl, rfl⟩, resolves_singleton.2 hf, hsame⟩
  · obtain ⟨-, loc₁, e₁, -, hf₁, ⟨-, rfl⟩ | ⟨hrest, -⟩⟩ := hres.of_component hvisible hsegs
    · obtain ⟨-, rfl⟩ := hf.unique hf₁
      exact ⟨f, rfl, hsame⟩
    · exact absurd rfl hrest

theorem leadsTo_sub (hrest : rest ≠ []) (hf : Finds vol v dir name loc e) (hdir : e.isDir = true)
    (hge : 2 ≤ e.firstCluster) {f? : Option LoaderDirent} (h : LeadsTo vol v (some e.firstCluster) rest f?) :
    LeadsTo vol v dir (component :: rest) f? := by
  refine ⟨fun f hsome ↦ ?_, fun segs loc' e' hsegs hres ↦ ?_⟩
  · obtain ⟨names, loc', e', hnames, hres, hsame⟩ := h.sound f hsome
    refine ⟨name :: names, loc', e', mapM_visible_cons.2 ⟨_, names, hvisible, hnames, rfl⟩, ?_, hsame⟩
    obtain ⟨c, cs, rfl⟩ := exists_cons_of_ne_nil hrest
    obtain ⟨next, names', -, -, rfl⟩ := mapM_visible_cons.1 hnames
    exact resolves_cons.2 ⟨_, ⟨loc, e, hf, hdir, hge, rfl⟩, hres⟩
  · obtain ⟨names, loc₁, e₁, hnames, hf₁, ⟨hnil, -⟩ | ⟨-, -, hres'⟩⟩ := hres.of_component hvisible hsegs
    · exact absurd hnil hrest
    · obtain ⟨-, rfl⟩ := hf.unique hf₁
      exact h.complete names loc' e' hnames hres'

end

namespace SharedVolume

variable {block : BlockDevice 512} {d : Disk 512} {read : BootRead} {lv : LoaderVolume} {cache : FatCache}

section

variable (h : SharedVolume block d vol read lv)
include h

theorem findComponents (hr : Reach vol (view vol d) dir bs) (components : List Bytes)
    (hcache : cache.Coherent block d) :
    ∃ f? cache', fat16FindComponents read lv (dir.getD 0) components cache = some (f?, cache') ∧
      LeadsTo vol (view vol d) dir components f? := by
  induction components generalizing dir bs cache with
  | nil =>
    refine ⟨none, cache, rfl, leadsTo_none fun segs loc e hsegs hres ↦ ?_⟩
    obtain ⟨init, name, dir', rfl, -, -⟩ := hres
    simp [mapM_nil] at hsegs
  | cons component rest ih =>
    rw [fat16FindComponents]
    rcases hshort : componentName component with - | short
    · refine ⟨none, cache, rfl, leadsTo_none fun segs loc e hsegs _ ↦ ?_⟩
      obtain ⟨name, names, hname, -, -⟩ := mapM_visible_cons.1 hsegs
      rw [visible, hshort] at hname
      cases hname
    have hvisible : visible component = some (visibleName short) := by rw [visible, hshort, Option.map_some]
    obtain ⟨cache₁, hfind, hcache₁⟩ := h.findInDir short hr.isDir hcache
    rw [find_eq_lookupName (h.slots hr) hshort] at hfind
    have hfinds : ∀ {loc e}, Finds vol (view vol d) dir (visibleName short) loc e ↔
        lookupName (dirRecords .fat16 (view vol d) bs) (visibleName short) = some (loc, e) := by
      intro loc e
      rw [hr.isDir.finds_iff, h.fat16]
    simp only [hfind]
    rcases hlook : lookupName (dirRecords .fat16 (view vol d) bs) (visibleName short) with
      - | ⟨loc, e⟩
    · -- nothing has the name
      refine ⟨none, cache₁, rfl, leadsTo_none fun segs loc e hsegs hres ↦ ?_⟩
      obtain ⟨-, loc₁, e₁, -, hf, -⟩ := hres.of_component hvisible hsegs
      rw [hfinds, hlook] at hf
      cases hf
    have hf := hfinds.2 hlook
    simp only [Option.map_some]
    split
    · -- the last component
      next hrest =>
      subst hrest
      exact ⟨_, _, rfl, leadsTo_last hvisible hf ⟨rfl, rfl, rfl⟩⟩
    next hrest =>
    have hisDir : (loaderDirent short e).isDir = e.isDir := rfl
    rw [hisDir]
    rcases hdir : e.isDir with - | -
    · -- a file in the middle of the path
      refine ⟨none, cache₁, rfl, leadsTo_none fun segs loc' e' hsegs hres ↦ ?_⟩
      obtain ⟨-, loc₁, e₁, -, hf₁, ⟨hnil, -⟩ | ⟨-, hdir', -⟩⟩ := hres.of_component hvisible hsegs
      · exact hrest hnil
      · obtain ⟨-, rfl⟩ := hf.unique hf₁
        rw [hdir] at hdir'
        cases hdir'
    · -- a subdirectory
      obtain ⟨hmem, -, hdot, hlive⟩ := hf.live hr (plainName_visible hvisible)
      have hge := h.dirs hlive hdir
      obtain ⟨cs, -, his⟩ := h.chained.sub_isDir hlive hge
      obtain ⟨f?, cache', hrest', hleads⟩ := ih (.sub hr hmem hdir hdot hge his) hcache₁
      exact ⟨f?, cache', hrest', leadsTo_sub hvisible hrest hf hdir hge hleads⟩

/-- **Following a path**: the loader finds what the visible names lead to. -/
theorem findPath (path : NormalizedPath) (hcache : cache.Coherent block d) :
    ∃ f? cache', fat16FindPath read lv (cString path.flat) cache = some (f?, cache') ∧
      LeadsTo vol (view vol d) (rootDir vol) (pathComponents (cString path.flat)) f? := by
  obtain ⟨bs, hr⟩ := h.chained.reach_root
  have hroot : rootDir vol = none := by rw [rootDir, h.fat16]
  have hfind := h.findComponents hr (pathComponents (cString path.flat)) hcache
  rwa [hroot] at hfind ⊢

/-! ### Names Core finds -/

theorem short_of_finds (hr : Reach vol (view vol d) dir bs) {name : Bytes} (hplain : PlainName name)
    (hf : Finds vol (view vol d) dir name loc e) :
    ∃ s base ext, ShortName s base ext ∧ name = joinName base ext := by
  obtain ⟨hmem, rfl, -, -⟩ := hf.live hr hplain
  have hslots := h.slots hr
  have hrecord : e ∈ (dirRecords .fat16 (view vol d) bs).map Prod.snd := by
    rw [h.fat16] at hmem
    exact mem_map.2 ⟨_, hmem, rfl⟩
  rw [dirRecords_short fun s hs ↦ (hslots s hs).kind, mem_filterMap] at hrecord
  obtain ⟨s, hs, hrec⟩ := hrecord
  have hlive := kind_of_slotRecord hrec
  rw [slotRecord, hlive] at hrec
  obtain ⟨name, hname, rfl⟩ := Option.map_eq_some_iff.1 hrec
  rcases (hslots s hs).name hlive with ⟨base, ext, hshort⟩ | hdots
  · exact ⟨s, base, ext, hshort, Option.some.inj (hname.symm.trans hshort.decode)⟩
  · rcases hdots.decode with hd | hd
    · exact absurd (Option.some.inj (hname.symm.trans hd)) hplain.1
    · exact absurd (Option.some.inj (hname.symm.trans hd)) hplain.2

theorem short_of_resolvesDir {dir' : Option ℕ} (hres : ResolvesDir vol (view vol d) dir segs dir')
    (hr : Reach vol (view vol d) dir bs) (hplain : ∀ s ∈ segs, PlainName s) :
    ∀ seg ∈ segs, ∃ s base ext, ShortName s base ext ∧ seg = joinName base ext := by
  induction hres generalizing bs with
  | nil => exact fun _ hseg ↦ nomatch hseg
  | cons hstep htail ih =>
    obtain ⟨hname, hrest⟩ := forall_mem_cons.1 hplain
    obtain ⟨bs', hr'⟩ := ResolvesDir.reach h.chained (.cons hstep .nil) (by simpa using hname) hr
    obtain ⟨loc, e, hf, -, -, -⟩ := hstep
    exact forall_mem_cons.2 ⟨h.short_of_finds hr hname hf, ih hr' hrest⟩

/-- **A path that leads somewhere is its own visible form.** -/
theorem visiblePath_of_resolves (hpath : normalizePath raw = some path)
    (hres : Resolves vol (view vol d) (rootDir vol) path.segments loc e) :
    visiblePath path = some path.segments := by
  have hne : path.segments ≠ [] := by
    obtain ⟨init, name, -, heq, -, -⟩ := hres
    simp [heq]
  have hplain := (normalPath_of_resolves hpath hres).plain
  refine visiblePath_of_short hpath hne ?_
  obtain ⟨init, name, dir, heq, hdir, hf⟩ := hres
  rw [heq] at hplain ⊢
  obtain ⟨hinit, hname⟩ := forall_mem_append.1 hplain
  obtain ⟨bs, hr⟩ := h.chained.reach_root
  obtain ⟨bs', hr'⟩ := hdir.reach h.chained hinit hr
  exact forall_mem_append.2 ⟨h.short_of_resolvesDir hdir hr hinit,
    by simpa using h.short_of_finds hr' (by simpa using hname) hf⟩

end

end SharedVolume

/-! ### Agreement -/

def LoaderFinds (read : BootRead) (lv : LoaderVolume) (path : NormalizedPath) (cache : FatCache)
    (f : LoaderDirent) : Prop :=
  ∃ cache', fat16FindPath read lv (cString path.flat) cache = some (some f, cache') ∧ f.isDir = false

def CoreFinds (block : BlockDevice 512) (vol : Volume) (d : Disk 512) (path : NormalizedPath)
    (e : FatDirEntry) : Prop :=
  ((readFAT block vol d).bind fun fat ↦ resolveFat16PathEntry block vol d fat path) = some e ∧ e.isDir = false

/-- **The two programs agree on a path**: they find a regular file or not together, and the parts of
the file the loader reads are those of what `Core` reads. -/
structure Agree (block : BlockDevice 512) (d : Disk 512) (vol : Volume) (read : BootRead)
    (lv : LoaderVolume) (path : NormalizedPath) (cache : FatCache) : Prop where
  finds : (∃ f, LoaderFinds read lv path cache f) ↔ ∃ e, CoreFinds block vol d path e
  reads : ∀ f, LoaderFinds read lv path cache f →
    ∃ bytes, fat16ReadFile block path (Dev.start d) = some (some bytes, Dev.start d) ∧ bytes.length = f.size ∧
      ∀ offset len dst cache', dst ≠ 0 → offset + len ≤ f.size → cache'.Coherent block d →
        (fat16ReadFileAt read lv f offset len dst cache').ok = true ∧
        (fat16ReadFileAt read lv f offset len dst cache').data = slice bytes offset len

namespace SharedVolume

variable {block : BlockDevice 512} {d : Disk 512} {read : BootRead} {lv : LoaderVolume} {cache : FatCache}

section

variable (h : SharedVolume block d vol read lv)
include h

theorem loaderFinds_iff (path : NormalizedPath) (hcache : cache.Coherent block d) :
    (∃ f, LoaderFinds read lv path cache f) ↔ ∃ segs loc e, visiblePath path = some segs ∧
        Resolves vol (view vol d) (rootDir vol) segs loc e ∧ e.isDir = false := by
  obtain ⟨f?, cache', hfind, hleads⟩ := h.findPath path hcache
  constructor
  · rintro ⟨f, cache₁, hfound, hfile⟩
    obtain ⟨hf, -⟩ := Prod.mk.inj (Option.some.inj (hfind.symm.trans hfound))
    obtain ⟨segs, loc, e, hsegs, hres, hsame⟩ := hleads.sound f hf
    exact ⟨segs, loc, e, hsegs, hres, hsame.isDir ▸ hfile⟩
  · rintro ⟨segs, loc, e, hsegs, hres, hfile⟩
    obtain ⟨f, rfl, hsame⟩ := hleads.complete segs loc e hsegs hres
    exact ⟨f, cache', hfind, hsame.isDir.trans hfile⟩

theorem coreFinds_iff (hpath : normalizePath raw = some path) : (∃ e, CoreFinds block vol d path e) ↔
      ∃ loc e, Resolves vol (view vol d) (rootDir vol) path.segments loc e ∧ e.isDir = false := by
  have hread := readFAT_eq (d := d) h.sound
  constructor
  · rintro ⟨e, hfind, hfile⟩
    rw [hread, Option.bind_some] at hfind
    rcases normalizePath_cases hpath with ⟨hroot, -⟩ | ⟨hroot, hne, hnormal⟩
    · rw [resolveFat16PathEntry, if_pos (.inl hroot)] at hfind
      cases hfind
    · obtain ⟨loc, hres⟩ := (resolveFat16PathEntry_iff h.sound h.fat16 h.chained ⟨hroot, hne, hnormal⟩).1 hfind
      exact ⟨loc, e, hres, hfile⟩
  · rintro ⟨loc, e, hres, hfile⟩
    refine ⟨e, ?_, hfile⟩
    rw [hread, Option.bind_some]
    exact (resolveFat16PathEntry_iff h.sound h.fat16 h.chained (normalPath_of_resolves hpath hres)).2 ⟨loc, hres⟩

theorem agree_of_visible (hpath : normalizePath raw = some path)
    (hvisible : visiblePath path = some path.segments) (hcache : cache.Coherent block d) :
    Agree block d vol read lv path cache := by
  refine ⟨?_, fun f ⟨cache₂, hfound, hfile⟩ ↦ ?_⟩
  · rw [h.loaderFinds_iff path hcache, h.coreFinds_iff hpath]
    constructor
    · rintro ⟨segs, loc, e, hsegs, hres, hfile⟩
      obtain rfl := Option.some.inj (hvisible.symm.trans hsegs)
      exact ⟨loc, e, hres, hfile⟩
    · rintro ⟨loc, e, hres, hfile⟩
      exact ⟨path.segments, loc, e, hvisible, hres, hfile⟩
  obtain ⟨f?, cache₁, hfind, hleads⟩ := h.findPath path hcache
  obtain ⟨hsome, -⟩ := Prod.mk.inj (Option.some.inj (hfind.symm.trans hfound))
  obtain ⟨segs, loc, e, hsegs, hres, hsame⟩ := hleads.sound f hsome
  obtain rfl := Option.some.inj (hsegs.symm.trans hvisible)
  have hnormal := normalPath_of_resolves hpath hres
  have hlive := hres.live h.chained hnormal.plain
  obtain ⟨cs, hcs, hcov⟩ := h.chained.chain hlive
  have hfile' : e.isDir = false := hsame.isDir ▸ hfile
  have hsize := hcov hfile'
  obtain ⟨-, hcluster, hfsize⟩ := hsame
  have hlt : f.size < 2 ^ 32 := by
    obtain ⟨dir, bs, -, hmem, -⟩ := hlive
    obtain ⟨s, -, -, heq⟩ := dirSlot_of_record hmem
    rw [hfsize, heq]
    exact readLE_lt 4 s 28
  refine ⟨contents (view vol d) cs e.fileSize, (fat16ReadFile_iff h.sound h.fat16 h.chained h.mounted hnormal).2
      ⟨loc, e, cs, hres, hfile', hcs, rfl⟩, ?_, ?_⟩
  · rw [contents, length_take, length_flatMap_chain h.sound.mountable hcs, hfsize]
    omega
  · intro offset len dst cache' hdst hle hcoh
    rw [EntryChain, ← hcluster] at hcs
    obtain ⟨cache'', hread, -⟩ := h.readFileAt hcs (hfsize ▸ hsize) hlt hdst hle hcoh
    rw [hread, hfsize]
    exact ⟨rfl, rfl⟩

end

end SharedVolume

/-- **When the loader and Core agree on a path**: when the path is its own visible form, and when
its visible form leads to no regular file. -/
theorem loader_agrees_iff {block : BlockDevice 512} {d : Disk 512} {vol : Volume} {read : BootRead}
    {lv : LoaderVolume} (h : SharedVolume block d vol read lv) {raw : Bytes} {path : NormalizedPath}
    (hpath : normalizePath raw = some path) {cache : FatCache} (hcache : cache.Coherent block d) :
    Agree block d vol read lv path cache ↔ visiblePath path = some path.segments ∨
        ¬∃ segs loc e, visiblePath path = some segs ∧
          Resolves vol (view vol d) (rootDir vol) segs loc e ∧ e.isDir = false := by
  have hloader := h.loaderFinds_iff path hcache
  have hcore := h.coreFinds_iff hpath
  constructor
  · intro hagree
    refine or_iff_not_imp_right.2 fun hfound ↦ ?_
    obtain ⟨loc, e, hres, -⟩ := hcore.1 (hagree.finds.1 (hloader.2 (not_not.1 hfound)))
    exact h.visiblePath_of_resolves hpath hres
  · rintro (hvisible | hnone)
    · exact h.agree_of_visible hpath hvisible hcache
    · have hfinds : ¬∃ f, LoaderFinds read lv path cache f := fun hf ↦ hnone (hloader.1 hf)
      refine ⟨iff_of_false hfinds fun hf ↦ hnone ?_, fun f hf ↦ absurd ⟨f, hf⟩ hfinds⟩
      obtain ⟨loc, e, hres, hfile⟩ := hcore.1 hf
      exact ⟨path.segments, loc, e, h.visiblePath_of_resolves hpath hres, hres, hfile⟩

/-! ### A file under two names -/

/-- The boot sector of the small volume with the signature the loader asks for. -/
def signedBoot : Sector 512 := ⟨writeAt boot16.1 510 [0x55, 0xAA], by rw [length_writeAt, boot16.2]⟩

def signed16 : Disk 512 := Function.update holed16 0 signedBoot

def read16 : BootRead :=
  fun lba ↦ if lba < block16.capacitySectors then some (signed16 lba).1 else none

def loader16 : LoaderVolume where
  partLba := 0
  bytesPerSector := 512
  sectorsPerCluster := 1
  reservedSectors := 16
  numFats := 2
  rootEntryCount := 512
  sectorsPerFat := 20
  totalSectors := 5000
  fatStartLba := 16
  rootDirLba := 56
  rootDirSectors := 32
  dataStartLba := 88

theorem parse_signedBoot : parseBootSector .fat16 signedBoot.1 0 = some (some bpb16) := by
  decide +kernel

theorem signed16_of_ne {lba : ℕ} (h : lba ≠ 0) : signed16 lba = holed16 lba :=
  Function.update_of_ne h ..

theorem signed16_view : view vol16 signed16 = view vol16 holed16 := by
  refine view_congr vol16_sound fun lba hlba ↦ signed16_of_ne ?_
  have hstart : vol16.fatStartLBA = 16 := rfl
  omega

theorem signed16_mount : mount .fat16 block16 (Dev.start signed16) = some (some vol16, Dev.start signed16) := by
  have hty : vol16.fatType = .fat16 := rfl
  rw [← hty]
  refine mount_eq vol16_mountable (anchored_of_boot (by decide) (by rw [Volume.Owned, Volume.OnLog]; decide)
    parse_signedBoot) fun hwal ↦ ?_
  have hsector : signed16 vol16.walStartLBA = holed16 vol16.walStartLBA := signed16_of_ne (by decide)
  exact disk16_idle table2 holedDir hwal

theorem signed16_reads : LoaderReads block16 signed16 vol16 read16 loader16 where
  sound := vol16_sound
  fat16 := rfl
  reads := fun lba hlba ↦ if_pos hlba
  boot := parse_signedBoot
  parsed := by decide +kernel
  low := by decide

theorem holed16_shortSlots : ∀ s ∈ scannedSlots (view vol16 holed16) [none], ShortSlot s := by
  intro s hs
  have hend := mem_takeWhile_imp hs
  have hmem := IsPrefix.mem hs <| takeWhile_prefix _
  rw [flatMap_singleton] at hmem
  obtain ⟨j, hj⟩ := mem_iff_getElem?.1 hmem
  have hdir : (⟨none, j⟩, s) ∈ dirSlots (view vol16 holed16) [none] := mem_dirSlots.2 ⟨mem_singleton_self _, hj⟩
  obtain ⟨rest, hslots, hkinds⟩ := holed16_slots
  rw [hslots, mem_cons, mem_cons] at hdir
  rcases hdir with heq | heq | hrest
  · obtain ⟨-, rfl⟩ := Prod.mk.inj heq
    exact ⟨by decide, (fun hlive ↦ absurd hlive (by decide)), fun hlive ↦ absurd hlive (by decide)⟩
  · obtain ⟨-, rfl⟩ := Prod.mk.inj heq
    exact ⟨by decide, (fun _ ↦ .inl ⟨_, _, slotA_short⟩), fun _ ↦ by decide⟩
  · rw [hkinds _ hrest] at hend
    simp at hend

theorem signed16_shared : SharedVolume block16 signed16 vol16 read16 loader16 := by
  refine ⟨signed16_reads, signed16_mount, ?_, ?_, ?_⟩
  · rw [signed16_view]
    exact holed16_good.tree.toChained
  · rw [signed16_view]
    intro dir bs hr s hs
    obtain ⟨-, rfl⟩ := holed16_flat.reach hr
    exact holed16_shortSlots s hs
  · rw [signed16_view]
    intro loc e hlive hdir
    rw [holed16_flat.files (holed16_flat.live hlive)] at hdir
    cases hdir

theorem loader_agrees_A : Agree block16 signed16 vol16 read16 loader16 pathA FatCache.initial :=
  (loader_agrees_iff signed16_shared (by decide : normalizePath [0x2F, 0x41] = some pathA)
    (FatCache.initial_coherent _ _)).2 (.inl (by decide))

/-- The path `/A .`, which normalization turns into a name with a space at its end. -/
def pathSpace : NormalizedPath := { flat := [0x41, 0x20], segments := [[0x41, 0x20]], isRoot := false }

/-- Under `/A .` the loader finds the file `A`, and `Core` finds nothing. -/
theorem loader_disagrees_space : SharedVolume block16 signed16 vol16 read16 loader16 ∧
    normalizePath [0x2F, 0x41, 0x20, 0x2E] = some pathSpace ∧
    ¬Agree block16 signed16 vol16 read16 loader16 pathSpace FatCache.initial := by
  have hpath : normalizePath [0x2F, 0x41, 0x20, 0x2E] = some pathSpace := by decide
  refine ⟨signed16_shared, hpath, fun hagree ↦ ?_⟩
  have hloader : ∃ f, LoaderFinds read16 loader16 pathSpace FatCache.initial f := by
    refine (signed16_shared.loaderFinds_iff pathSpace (FatCache.initial_coherent _ _)).2
      ⟨[[0x41]], ⟨none, 1⟩, fileA, by decide, ?_, by decide⟩
    rw [signed16_view]
    exact holed16_resolves
  obtain ⟨loc, e, hres, -⟩ := (signed16_shared.coreFinds_iff hpath).1 (hagree.finds.1 hloader)
  exact absurd (signed16_shared.visiblePath_of_resolves hpath hres) (by decide)

end CapazOS
