import CapazOS.Loader.Reading
import CapazOS.Fat.ShortNames
import Mathlib.Data.List.Find
import Mathlib.Data.List.Perm.Subperm

/-!
# How the loader looks up a name

The loader turns a component of a path into the eleven bytes of a slot and compares these. It looks
for the **visible name** of the component: without the spaces at the end of its name and of its
extension. In a directory without long names it finds the record `Core` finds under the visible name
(`find_eq_lookupName`).
-/

namespace CapazOS

open List

variable {bs : List (Option ℕ)} {base ext component short s : Bytes}

/-! ### Directory slots -/

/-- The slots of a directory in front of its end marker. -/
def scannedSlots (v : View) (bs : List (Option ℕ)) : List Bytes :=
  (bs.flatMap v.slots).takeWhile fun s ↦ slotKind s ≠ .endMark

def loaderEntry (slot : Bytes) : LoaderDirent :=
  { name := slice slot 0 11, attr := slot.getD 11 0, firstCluster := readLE 2 slot 26, size := readLE 4 slot 28 }

def ScanOutcome.dirent? : ScanOutcome → Option LoaderDirent
  | .found e => some e
  | _ => none

theorem scanForName_cons (target slot : Bytes) (rest : List Bytes) : scanForName target (slot :: rest) =
      match slotKind slot with
      | .endMark => .stop
      | .live =>
        if slice slot 0 11 = target then .found (loaderEntry slot) else scanForName target rest
      | _ => scanForName target rest := by
  rw [scanForName, slotKind]
  split_ifs <;> simp_all [loaderEntry]

theorem scanForName_append (target : Bytes) (xs ys : List Bytes) : scanForName target (xs ++ ys) =
      match scanForName target xs with
      | .next => scanForName target ys
      | outcome => outcome := by
  induction xs with
  | nil => rfl
  | cons x xs ih =>
    rw [cons_append, scanForName_cons, scanForName_cons, ih]
    rcases slotKind x with - | - | - | - | - <;> try rfl
    split_ifs <;> rfl

/-- **A scan for a name** finds the first live slot with these eleven bytes. -/
theorem dirent?_scanForName (target : Bytes) (slots : List Bytes) : (scanForName target slots).dirent? =
      ((slots.takeWhile fun s ↦ slotKind s ≠ .endMark).find? fun s ↦
        slotKind s = .live ∧ slice s 0 11 = target).map loaderEntry := by
  induction slots with
  | nil => rfl
  | cons s slots ih =>
    rw [scanForName_cons]
    rcases hkind : slotKind s with - | - | - | - | -
    · simp [hkind, ScanOutcome.dirent?]
    · simpa [takeWhile_cons, hkind] using ih
    · simpa [takeWhile_cons, hkind] using ih
    · simpa [takeWhile_cons, hkind] using ih
    · rcases Decidable.em (slice s 0 11 = target) with hname | hname
      · simp [hkind, hname, ScanOutcome.dirent?]
      · simpa [takeWhile_cons, hkind, hname] using ih

namespace LoaderReads

variable {block : BlockDevice 512} {d : Disk 512} {vol : Volume} {read : BootRead} {lv : LoaderVolume}

section

variable (h : LoaderReads block d vol read lv)
include h

theorem scanSectors_eq (target : Bytes) {n lba : ℕ} (hcap : lba + n ≤ block.capacitySectors) :
    scanSectors read target ((range n).map fun s ↦ lba + s) = scanForName target (slotsOf (d.bytes lba n)) := by
  induction n generalizing lba with
  | zero => simp [scanSectors, scanForName, slotsOf, Disk.bytes]
  | succ n ih =>
    have hshift : ((range n).map Nat.succ).map (fun s ↦ lba + s) = (range n).map fun s ↦ lba + 1 + s := by
      rw [map_map]
      exact map_congr_left fun i _ ↦ by simp only [Function.comp_apply]; omega
    have hdvd : 32 ∣ (d lba).1.length := by rw [(d lba).2]; decide
    rewrite [range_succ_eq_map, map_cons, hshift, scanSectors, Nat.add_zero,
      h.reads lba (by omega), diskBytes_succ, slotsOf_append hdvd, scanForName_append, ih (by omega)]
    rfl

theorem dirWalk_succ (target : Bytes) (steps : ℕ) {c : ℕ} (hc : 2 ≤ c ∧ c ≤ fatMaxCluster vol) (cache : FatCache) :
    fat16DirWalk read lv target (steps + 1) c cache = match scanForName target ((view vol d).slots (some c)) with
      | .found e => some (some e, cache)
      | .stop => some (none, cache)
      | .next =>
        let (cluster, cache) := fat16NextCluster read lv c cache
        fat16DirWalk read lv target steps cluster cache := by
  obtain ⟨-, hspc, -, -, -, -⟩ := h.geometry
  obtain ⟨hlba, hcap⟩ := h.clusterToLba hc
  have heoc := h.not_eoc hc
  simp only [not_or, Nat.not_lt, Bool.not_eq_true] at heoc
  have hslots : (view vol d).slots (some c) = slotsOf (d.bytes (clusterLBA vol c) vol.sectorsPerCluster) := by
    exact congrArg slotsOf (view_cluster vol d hc.1)
  rw [fat16DirWalk, if_pos ⟨heoc.1, by rw [heoc.2]; rfl⟩, hlba, hspc, hslots]
  simp only
  rewrite [h.scanSectors_eq target hcap]
  rcases scanForName target _ with e | - | - <;> rfl

theorem dirWalk (target : Bytes) {start : ℕ} {cs : List ℕ} (hl : Linked (linkNext .fat16 (view vol d).link) start cs)
    (hrange : ∀ c ∈ cs, 2 ≤ c ∧ c ≤ fatMaxCluster vol) {steps : ℕ} (hsteps : cs.length < steps)
    {cache : FatCache} (hcache : cache.Coherent block d) :
    ∃ cache', fat16DirWalk read lv target steps start cache =
        some ((scanForName target (cs.flatMap fun c ↦ (view vol d).slots (some c))).dirent?, cache') ∧
      cache'.Coherent block d := by
  induction hl generalizing steps cache with
  | @last a hstop =>
    obtain ⟨steps, rfl⟩ : ∃ n, steps = n + 2 := ⟨steps - 2, by simp at hsteps; omega⟩
    have ha := hrange a mem_cons_self
    rw [h.dirWalk_succ target (steps + 1) ha, flatMap_singleton]
    rcases scanForName target ((view vol d).slots (some a)) with e | - | -
    · exact ⟨cache, rfl, hcache⟩
    · exact ⟨cache, rfl, hcache⟩
    · obtain ⟨cache₁, hstep, hcache₁⟩ := h.nextCluster ha.2 hcache
      refine ⟨cache₁, ?_, hcache₁⟩
      rw [hstep]
      simp only
      rw [fat16DirWalk, if_neg (by rw [eoc_of_linkNext hstop]; simp)]
      rfl
  | @cons a b l hnext htail ih =>
    obtain ⟨steps, rfl⟩ := Nat.exists_eq_succ_of_ne_zero (Nat.ne_zero_of_lt hsteps)
    obtain ⟨ha, hlrange⟩ := forall_mem_cons.1 hrange
    rw [h.dirWalk_succ target steps ha, flatMap_cons, scanForName_append]
    rcases scanForName target ((view vol d).slots (some a)) with e | - | -
    · exact ⟨cache, rfl, hcache⟩
    · exact ⟨cache, rfl, hcache⟩
    · obtain ⟨cache₁, hstep, hcache₁⟩ := h.nextCluster ha.2 hcache
      obtain ⟨cache', hwalk, hcache'⟩ := ih hlrange (Nat.lt_of_succ_lt_succ (by simpa using hsteps)) hcache₁
      refine ⟨cache', ?_, hcache'⟩
      rw [hstep, link_of_linkNext hnext]
      exact hwalk

theorem length_lt_dirSteps {start : ℕ} {cs : List ℕ} (hcs : ChainFrom vol (view vol d) start cs) :
    cs.length < dirSteps := by
  have hmax := h.sound.max_lt
  rw [h.fat16] at hmax
  replace hmax : fatMaxCluster vol < 0xFFF7 := hmax
  have hsub : cs ⊆ range' 2 (fatMaxCluster vol - 1) := fun c hc ↦ by
    have := hcs.1.range c hc
    rw [mem_range'_1]
    omega
  have hlen := (subperm_of_subset hcs.1.linked.nodup hsub).length_le
  rw [length_range'] at hlen
  rw [dirSteps]
  omega

/-- **Looking up eleven bytes in a directory**; the loader writes the root directory as 0. -/
theorem findInDir (target : Bytes) {dir : Option ℕ} (hdir : IsDir vol (view vol d) dir bs) {cache : FatCache}
    (hcache : cache.Coherent block d) :
    ∃ cache', fat16FindInDir read lv (dir.getD 0) target cache = some (((scannedSlots (view vol d) bs).find? fun s ↦
          slotKind s = .live ∧ slice s 0 11 = target).map loaderEntry, cache') ∧
      cache'.Coherent block d := by
  rw [scannedSlots, ← dirent?_scanForName]
  cases hdir with
  | area =>
    obtain ⟨-, -, -, hroot, hsectors, -⟩ := h.geometry
    obtain ⟨-, -, -, hcap, -, hdata⟩ := h.sound.mountable.bounds
    obtain ⟨-, harea, -⟩ := h.sound.mountable.areas
    have hlow := h.low
    have hlbas : (range lv.rootDirSectors).map (fun s ↦ (lv.rootDirLba + s) % 2 ^ 32) =
        (range vol.rootDirSectors).map fun s ↦ vol.rootDirStartLBA + s := by
      rw [hroot, hsectors]
      refine map_congr_left fun s hs ↦ Nat.mod_eq_of_lt ?_
      have := mem_range.1 hs
      omega
    refine ⟨cache, ?_, hcache⟩
    rw [fat16FindInDir, Option.getD_none, if_pos rfl, fat16FindInRoot, flatMap_singleton]
    rw [hlbas, h.scanSectors_eq target (by omega)]
    show some ((match scanForName target ((view vol d).slots none) with
      | .found e => some e
      | _ => none), cache) = _
    rcases scanForName target ((view vol d).slots none) with e | - | - <;> rfl
  | @chain c cs hcs =>
    have hl := hcs.1.linked
    rw [h.fat16] at hl
    have hge := hcs.1.start_range.1
    rw [fat16FindInDir, Option.getD_some, if_neg (by omega), flatMap_map]
    exact h.dirWalk target hl hcs.1.range (h.length_lt_dirSteps hcs) hcache

end

end LoaderReads

/-! ### Names -/

def trimEnd (bs : Bytes) : Bytes := bs.rdropWhile (· = 0x20)

/-- The name that eleven bytes of a slot stand for. -/
def visibleName (short : Bytes) : Bytes :=
  joinName (trimEnd (short.take 8)) (trimEnd (short.drop 8))

/-- The name the loader looks for under a component of a path. -/
def visible (component : Bytes) : Option Bytes := (componentName component).map visibleName

theorem trimEnd_padSpaces (n : ℕ) (bs : Bytes) : trimEnd (padSpaces n bs) = trimEnd bs := by
  unfold padSpaces trimEnd
  induction n - bs.length with
  | zero => rw [replicate_zero, append_nil]
  | succ k ih =>
    rw [replicate_succ', ← append_assoc, rdropWhile_concat_pos _ _ _ (by simp), ih]

theorem padSpaces_trimEnd {n : ℕ} {bs : Bytes} (h : bs.length ≤ n) : padSpaces n (trimEnd bs) = padSpaces n bs := by
  induction bs using List.reverseRecOn with
  | nil => rfl
  | append_singleton l x ih =>
    rw [length_append, length_singleton] at h
    rcases eq_or_ne x 0x20 with rfl | hx
    · rw [trimEnd, rdropWhile_concat_pos _ _ _ (by simp)]
      rw [trimEnd] at ih
      rw [ih (by omega), padSpaces, padSpaces, length_append, length_singleton,
        append_assoc, show n - l.length = n - (l.length + 1) + 1 by omega, replicate_succ]
      rfl
    · rw [trimEnd, rdropWhile_concat_neg _ _ _ (by simpa using hx)]

theorem trimEnd_eq_self {bs : Bytes} (h : ∀ b ∈ bs, b ≠ 0x20) : trimEnd bs = bs := by
  rw [trimEnd, rdropWhile_eq_self_iff]
  intro hne
  simpa using h _ (getLast_mem hne)

theorem mem_of_mem_trimEnd {bs : Bytes} {b : UInt8} (h : b ∈ trimEnd bs) : b ∈ bs :=
  IsPrefix.mem h <| rdropWhile_prefix _ _

theorem visibleName_padded (hbase : base.length ≤ 8) :
    visibleName (padSpaces 8 base ++ padSpaces 3 ext) = joinName (trimEnd base) (trimEnd ext) := by
  have hlen := length_padSpaces hbase
  rw [visibleName, take_left' hlen, drop_left' hlen, trimEnd_padSpaces, trimEnd_padSpaces]

theorem joinName_inj {base' ext' : Bytes} (hbase : 0x2E ∉ base) (hbase' : 0x2E ∉ base')
    (h : joinName base ext = joinName base' ext') : base = base' ∧ ext = ext' := by
  have htake : ∀ {b e : Bytes}, 0x2E ∉ b → (joinName b e).takeWhile (· ≠ 0x2E) = b := by
    intro b e hb
    have hall : ∀ x ∈ b, (decide (x ≠ 0x2E)) = true := fun x hx ↦ decide_eq_true fun heq ↦ hb (heq ▸ hx)
    rw [joinName, takeWhile_append_of_pos hall]
    split <;> simp
  obtain rfl : base = base' := by rw [← htake hbase (e := ext), h, htake hbase']
  refine ⟨rfl, ?_⟩
  have hrest := append_cancel_left h
  split_ifs at hrest with he he' he'
  · rw [he, he']
  · exact (List.cons.inj hrest).2

theorem makeShortName_eq (name : Bytes) : makeShortName name = fatEncodeShortName name := by
  unfold makeShortName fatEncodeShortName splitName
  simp only [length_eq_zero_iff]
  rcases Decidable.em (0x2E ∈ (name.dropWhile (· ≠ 0x2E)).drop 1) with hdot | hdot
  · simp only [if_pos hdot]
  · simp only [if_neg hdot, length_map, map_eq_nil_iff]

theorem componentName_cases (h : componentName component = some short) :
    ∃ base ext, short = padSpaces 8 base ++ padSpaces 3 ext ∧ base ≠ [] ∧ base.length ≤ 8 ∧
      ext.length ≤ 3 ∧ 0x2E ∉ base ∧ 0x2E ∉ ext := by
  unfold componentName at h
  split at h
  · cases h
  unfold makeShortName at h
  split at h
  · cases h
  simp only at h
  split at h
  · cases h
  next hdot =>
  split at h
  · cases h
  next hlen =>
  obtain rfl := Option.some.inj h
  have hdot' := dot_notMem_takeWhile component
  refine ⟨_, _, rfl, ?_, ?_, ?_, dot_notMem_map_upper hdot', dot_notMem_map_upper hdot⟩
  · intro hnil
    exact hlen (.inl (by rw [map_eq_nil_iff.1 hnil]; rfl))
  · rw [length_map]
    omega
  · rw [length_map]
    omega

theorem plainName_visible {name : Bytes} (h : visible component = some name) : PlainName name := by
  obtain ⟨short, hshort, rfl⟩ := Option.map_eq_some_iff.1 h
  obtain ⟨base, ext, rfl, -, hbase, -, hdot, hdot'⟩ := componentName_cases hshort
  rw [visibleName_padded hbase]
  have htrim : 0x2E ∉ trimEnd base := fun hmem ↦ hdot (mem_of_mem_trimEnd hmem)
  have htrim' : 0x2E ∉ trimEnd ext := fun hmem ↦ hdot' (mem_of_mem_trimEnd hmem)
  -- the two names have an empty base, and no dot in their extension
  have hjoin : ∀ e : Bytes, e ≠ [] → joinName (trimEnd base) (trimEnd ext) = 0x2E :: e → trimEnd ext = e := by
    intro e he heq
    exact (joinName_inj htrim (not_mem_nil) (heq.trans (by rw [joinName, if_neg he]; rfl))).2
  constructor
  · intro heq
    rcases hb : trimEnd base with - | ⟨b, bs⟩
    · rw [hb, joinName, nil_append] at heq
      split at heq
      · cases heq
      · next hne => exact hne (List.cons.inj heq).2
    · rw [hb, joinName, cons_append] at heq
      exact htrim (by rw [hb, (List.cons.inj heq).1]; exact mem_cons_self)
  · intro heq
    exact htrim' (by rw [hjoin [0x2E] (by simp) heq]; exact mem_cons_self)

def DotSlot (s : Bytes) : Prop :=
  slice s 0 11 = padSpaces 11 [0x2E] ∨ slice s 0 11 = padSpaces 11 [0x2E, 0x2E]

/-- A slot of a directory without long names: a valid upper-case short name or one of the two dot
entries, and a first cluster that fits its low word. -/
structure ShortSlot (s : Bytes) : Prop where
  kind : slotKind s ≠ .longName
  name : slotKind s = .live → (∃ base ext, ShortName s base ext) ∨ DotSlot s
  high : slotKind s = .live → readLE 2 s 20 = 0

theorem fatDecodeShortName_slice (s : Bytes) : fatDecodeShortName (slice s 0 11) = fatDecodeShortName s := by
  have hname : slice (slice s 0 11) 0 8 = slice s 0 8 := slice_slice (by omega)
  have hext : slice (slice s 0 11) 8 3 = slice s 8 3 := slice_slice (by omega)
  rw [fatDecodeShortName, fatDecodeShortName, hname, hext]

theorem DotSlot.decode (h : DotSlot s) :
    fatDecodeShortName s = some [0x2E] ∨ fatDecodeShortName s = some [0x2E, 0x2E] := by
  rw [← fatDecodeShortName_slice]
  rcases h with h | h
  · rw [h]
    exact .inl (by decide)
  · rw [h]
    exact .inr (by decide)

theorem ShortName.no_space (h : ShortName s base ext) : (∀ b ∈ base, b ≠ 0x20) ∧ ∀ b ∈ ext, b ≠ 0x20 := by
  have hall : ∀ b ∈ base ++ ext, b ≠ 0x20 := by
    rintro b hb rfl
    exact absurd (h.chars _ hb).1 (by decide)
  exact ⟨fun b hb ↦ hall b (mem_append_left _ hb), fun b hb ↦ hall b (mem_append_right _ hb)⟩

/-- **The two comparisons agree**: the bytes of a live slot are those of a component when its name
is the visible one. -/
theorem ShortSlot.name_iff (h : ShortSlot s) (hlive : slotKind s = .live)
    (hshort : componentName component = some short) :
    slice s 0 11 = short ↔ fatDecodeShortName s = some (visibleName short) := by
  have hplain := plainName_visible (Option.map_eq_some_iff.2 ⟨short, hshort, rfl⟩)
  obtain ⟨base, ext, rfl, hne, hbase, hext, hdot, -⟩ := componentName_cases hshort
  rcases h.name hlive with ⟨base', ext', hname⟩ | hdots
  · obtain ⟨hsp, hsp'⟩ := hname.no_space
    rw [hname.decode, Option.some.injEq, hname.bytes, visibleName_padded hbase]
    constructor
    · intro heq
      have hvis := congrArg visibleName heq
      rwa [visibleName_padded hname.base_le, visibleName_padded hbase, trimEnd_eq_self hsp,
        trimEnd_eq_self hsp'] at hvis
    · intro heq
      obtain ⟨rfl, rfl⟩ := joinName_inj hname.normalName.base_dot (fun hmem ↦ hdot (mem_of_mem_trimEnd hmem)) heq
      rw [padSpaces_trimEnd hbase, padSpaces_trimEnd hext]
  · -- a dot entry is found by neither
    have hhead : ∀ rest : Bytes, padSpaces 8 base ++ padSpaces 3 ext ≠ 0x2E :: rest := by
      intro rest heq
      obtain ⟨b, bs, rfl⟩ := exists_cons_of_ne_nil hne
      exact hdot (by rw [(List.cons.inj heq).1]; exact mem_cons_self)
    refine iff_of_false (fun heq ↦ ?_) fun heq ↦ ?_
    · rcases hdots with hd | hd
      · exact hhead _ (heq.symm.trans hd)
      · exact hhead _ (heq.symm.trans hd)
    · rcases hdots.decode with hd | hd
      · exact hplain.1 (Option.some.inj (heq.symm.trans hd))
      · exact hplain.2 (Option.some.inj (heq.symm.trans hd))

/-! ### Records -/

theorem scanSlots_short {slots : List Bytes} (i : ℕ)
    (h : ∀ s ∈ slots.takeWhile fun s ↦ slotKind s ≠ .endMark, slotKind s ≠ .longName) :
    (scanSlots slots i []).1.map Prod.snd =
      (slots.takeWhile fun s ↦ slotKind s ≠ .endMark).filterMap (slotRecord []) := by
  induction slots generalizing i with
  | nil => rfl
  | cons s slots ih =>
    rcases eq_or_ne (slotKind s) .endMark with hend | hend
    · rw [scanSlots_endMark hend, takeWhile_cons_of_neg (by simpa using hend)]
      rfl
    · rw [takeWhile_cons_of_pos (by simpa using hend)] at h ⊢
      obtain ⟨hs, hrest⟩ := forall_mem_cons.1 h
      rw [scanSlots_cons hend, Quiet.lfnAfter ⟨hend, hs⟩, map_append, ih _ hrest, filterMap_cons]
      rcases slotRecord [] s with - | e <;> rfl

theorem dirRecords_short {v : View} (h : ∀ s ∈ scannedSlots v bs, slotKind s ≠ .longName) :
    (dirRecords .fat16 v bs).map Prod.snd = (scannedSlots v bs).filterMap (slotRecord []) := by
  induction bs with
  | nil => rfl
  | cons b bs ih =>
    have hblock : (blockRecords v b).map Prod.snd = (scanSlots (v.slots b) 0 []).1.map Prod.snd :=
      map_snd_blockRecords v b
    rw [scannedSlots, flatMap_cons] at h ⊢
    rcases hend : blockEnds v b with - | -
    · have hno : ∀ s ∈ v.slots b, (decide (slotKind s ≠ .endMark)) = true := fun s hs ↦
        decide_eq_true (blockEnds_eq_false_iff.1 hend s hs)
      have hself : (v.slots b).takeWhile (fun s ↦ slotKind s ≠ .endMark) = v.slots b := takeWhile_eq_self_iff.2 hno
      rw [takeWhile_append_of_pos hno] at h ⊢
      obtain ⟨hb, hbs⟩ := forall_mem_append.1 h
      rw [dirRecords, hend, if_neg (by simp), map_append, hblock, scanSlots_short 0 (by rwa [hself]),
        hself, ih hbs, filterMap_append]
      rfl
    · obtain ⟨s, hs, hkind⟩ := blockEnds_iff.1 hend
      have hcut : (v.slots b ++ bs.flatMap v.slots).takeWhile (fun s ↦ slotKind s ≠ .endMark) =
          (v.slots b).takeWhile fun s ↦ slotKind s ≠ .endMark := by
        rw [takeWhile_append, if_neg]
        intro hlen
        have hself : (v.slots b).takeWhile (fun s ↦ slotKind s ≠ .endMark) <+: v.slots b := takeWhile_prefix _
        have := takeWhile_eq_self_iff.1 (hself.eq_of_length hlen) s hs
        simp [hkind] at this
      rw [hcut] at h ⊢
      rw [dirRecords, hend, if_pos (by simp), append_nil, hblock, scanSlots_short 0 h]

/-- What the loader keeps of an entry of `Core`. -/
def loaderDirent (short : Bytes) (e : FatDirEntry) : LoaderDirent :=
  ⟨short, e.attr, e.firstCluster, e.fileSize⟩

theorem find_eq_lookupName {v : View} (h : ∀ s ∈ scannedSlots v bs, ShortSlot s)
    (hshort : componentName component = some short) :
    ((scannedSlots v bs).find? fun s ↦ slotKind s = .live ∧ slice s 0 11 = short).map loaderEntry =
      (lookupName (dirRecords .fat16 v bs) (visibleName short)).map fun r ↦
        loaderDirent short r.2 := by
  have hrecord : ∀ s, slotKind s = .live →
      slotRecord [] s = (fatDecodeShortName s).map fun name ↦ slotEntry name s := by
    intro s hlive
    rw [slotRecord, hlive]
    rfl
  have hlookup : (lookupName (dirRecords .fat16 v bs) (visibleName short)).map Prod.snd =
      ((scannedSlots v bs).filterMap (slotRecord [])).find? fun e ↦ e.name = visibleName short := by
    rw [← dirRecords_short fun s hs ↦ (h s hs).kind, lookupName, find?_map]
    rfl
  have hpred : (scannedSlots v bs).find? (fun s ↦ slotKind s = .live ∧ slice s 0 11 = short) =
      (scannedSlots v bs).find? fun s ↦ (slotRecord [] s).any fun e ↦ e.name = visibleName short := by
    refine find?_congr fun s hs ↦ ?_
    rcases eq_or_ne (slotKind s) .live with hlive | hlive
    · rw [hrecord s hlive, Bool.eq_iff_iff, decide_eq_true_eq, Option.any_map, Option.any_eq_true]
      rw [(h s hs).name_iff hlive hshort]
      simp only [hlive, true_and, slotEntry]
      constructor
      · exact fun heq ↦ ⟨_, heq, decide_eq_true rfl⟩
      · rintro ⟨name, hname, heq⟩
        rw [hname, of_decide_eq_true heq]
    · have hnone : slotRecord [] s = none := by
        rcases hr : slotRecord [] s with - | e
        · rfl
        · exact absurd (kind_of_slotRecord hr) hlive
      rw [hnone]
      simp [hlive]
  rw [show (fun r : SlotLoc × FatDirEntry ↦ loaderDirent short r.2) = loaderDirent short ∘ Prod.snd
    from rfl, ← Option.map_map, hlookup, find?_filterMap, hpred]
  generalize hfind : (scannedSlots v bs).find? _ = found
  rcases found with - | s
  · rfl
  · have hmem := mem_of_find?_eq_some hfind
    rw [← hpred] at hfind
    have hsome := find?_some hfind
    obtain ⟨hlive, hname⟩ := of_decide_eq_true hsome
    rw [Option.bind_some, hrecord s hlive, ((h s hmem).name_iff hlive hshort).1 hname]
    simp [loaderEntry, loaderDirent, slotEntry, slotCluster, (h s hmem).high hlive, hname]

end CapazOS
