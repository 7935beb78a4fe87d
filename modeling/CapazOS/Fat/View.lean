import CapazOS.Fat.Fat16

/-!
# Volumes as directory trees

What a mounted volume means, independently of sectors: a successor function on clusters, the bytes
of each cluster, and the FAT16 root area (`View`). The directories are those reached from the root
(`Reach`), the entries their records other than `.` and `..` (`Live`). A volume is **well formed**
when every live entry has a terminated chain that covers its size, no two entries share a cluster,
the root directory shares none, and names are unique in each directory.
-/

namespace CapazOS

open List

variable {vol : Volume} {ty : FatType} {bs bs' : List (Option ℕ)} {dir dir' : Option ℕ} {e e' : FatDirEntry}
  {loc loc' : SlotLoc} {name : Bytes} {segs : List Bytes}

/-- What a mounted volume stores. -/
structure View where
  link : ℕ → ℕ
  cluster : ℕ → Bytes
  root : Bytes

variable {v : View}

/-- The bytes of a directory block: a cluster, or the FAT16 root area. -/
def View.block (v : View) : Option ℕ → Bytes
  | none => v.root
  | some c => v.cluster c

/-! ### Directories -/

/-- The records of one block, with their slots, and whether it holds an end marker. -/
def blockRecords (v : View) (b : Option ℕ) : List (SlotLoc × FatDirEntry) :=
  (fatScanDirEntriesEx (v.block b)).1.map fun r ↦ (⟨b, r.1⟩, r.2)

def blockEnds (v : View) (b : Option ℕ) : Bool := (fatScanDirEntriesEx (v.block b)).2

/-- The records of a directory. FAT16 stops at the first block with an end marker, FAT32 goes on. -/
def dirRecords (ty : FatType) (v : View) : List (Option ℕ) → List (SlotLoc × FatDirEntry)
  | [] => []
  | b :: bs =>
    blockRecords v b ++ if ty = .fat16 ∧ blockEnds v b then [] else dirRecords ty v bs

/-- The root directory: the root area on FAT16, a cluster on FAT32. -/
def rootDir (vol : Volume) : Option ℕ :=
  match vol.fatType with
  | .fat16 => none
  | .fat32 => some vol.rootCluster

/-- The chain of a cluster, short enough for the guards of the source. -/
def ChainFrom (vol : Volume) (v : View) (start : ℕ) (cs : List ℕ) : Prop :=
  ClusterChain vol.fatType (fatMaxCluster vol) v.link start cs ∧ cs.length ≤ chainGuard

/-- The blocks of a directory. -/
inductive IsDir (vol : Volume) (v : View) : Option ℕ → List (Option ℕ) → Prop
  | area : IsDir vol v none [none]
  | chain {c : ℕ} {cs : List ℕ} : ChainFrom vol v c cs → IsDir vol v (some c) (cs.map some)

/-- The entries `.` and `..` of a subdirectory. -/
def FatDirEntry.IsDot (e : FatDirEntry) : Prop :=
  e.isDir = true ∧ (e.name = [0x2E] ∨ e.name = [0x2E, 0x2E])

instance (e : FatDirEntry) : Decidable e.IsDot := inferInstanceAs (Decidable (_ ∧ _))

/-- The directories of the volume, with their blocks. -/
inductive Reach (vol : Volume) (v : View) : Option ℕ → List (Option ℕ) → Prop
  | root {bs : List (Option ℕ)} : IsDir vol v (rootDir vol) bs → Reach vol v (rootDir vol) bs
  | sub {dir : Option ℕ} {bs bs' : List (Option ℕ)} {loc : SlotLoc} {e : FatDirEntry} :
      Reach vol v dir bs → (loc, e) ∈ dirRecords vol.fatType v bs → e.isDir = true → ¬e.IsDot →
      2 ≤ e.firstCluster → IsDir vol v (some e.firstCluster) bs' →
      Reach vol v (some e.firstCluster) bs'

def Live (vol : Volume) (v : View) (loc : SlotLoc) (e : FatDirEntry) : Prop :=
  ∃ dir bs, Reach vol v dir bs ∧ (loc, e) ∈ dirRecords vol.fatType v bs ∧ ¬e.IsDot

def EntryChain (vol : Volume) (v : View) (e : FatDirEntry) (cs : List ℕ) : Prop :=
  e.firstCluster < 2 ∧ cs = [] ∨ ChainFrom vol v e.firstCluster cs

/-- The chain of a file covers its size. -/
def Covers (vol : Volume) (e : FatDirEntry) (cs : List ℕ) : Prop :=
  e.isDir = false → e.fileSize ≤ cs.length * clusterSize vol

/-- No two live entries share a cluster, and none shares one with the root directory. -/
structure ChainsDisjoint (vol : Volume) (v : View) : Prop where
  entries : ∀ {loc loc' : SlotLoc} {e e' : FatDirEntry} {cs cs' : List ℕ},
    Live vol v loc e → Live vol v loc' e' → loc ≠ loc' → EntryChain vol v e cs →
    EntryChain vol v e' cs' → cs.Disjoint cs'
  root : ∀ {c : ℕ} {cs₀ : List ℕ}, rootDir vol = some c → ChainFrom vol v c cs₀ →
    ∀ {loc : SlotLoc} {e : FatDirEntry} {cs : List ℕ}, Live vol v loc e → EntryChain vol v e cs →
    cs₀.Disjoint cs

/-- What looking up and reading need: every live entry has a terminated chain that covers its
size. -/
structure Chained (vol : Volume) (v : View) : Prop where
  root : ∃ bs, IsDir vol v (rootDir vol) bs
  chain : ∀ {loc : SlotLoc} {e : FatDirEntry}, Live vol v loc e → ∃ cs, EntryChain vol v e cs ∧ Covers vol e cs

/-- Every live entry has a terminated chain that covers its size, and chains are disjoint. -/
structure Consistent (vol : Volume) (v : View) : Prop extends Chained vol v where
  disjoint : ChainsDisjoint vol v

/-- A well-formed volume: consistent, with unique names in each directory. -/
structure WellFormed (vol : Volume) (v : View) : Prop extends Consistent vol v where
  names : ∀ {dir : Option ℕ} {bs : List (Option ℕ)}, Reach vol v dir bs →
    ((dirRecords vol.fatType v bs).map fun r ↦ r.2.name).Nodup

theorem dirRecords_congr {v' : View} (h : ∀ b ∈ bs, slotsOf (v'.block b) = slotsOf (v.block b)) :
    dirRecords ty v' bs = dirRecords ty v bs := by
  induction bs with
  | nil => rfl
  | cons b bs ih =>
    obtain ⟨hb, hrest⟩ := forall_mem_cons.1 h
    rw [dirRecords, dirRecords, ih hrest, blockRecords, blockRecords, blockEnds, blockEnds, fatScanDirEntriesEx,
      fatScanDirEntriesEx, hb]

theorem IsDir.unique (h : IsDir vol v dir bs) (h' : IsDir vol v dir bs') : bs = bs' := by
  cases h with
  | area =>
    cases h'
    rfl
  | chain hc =>
    cases h' with
    | chain hc' => rw [hc.1.unique hc'.1]

theorem Reach.isDir (h : Reach vol v dir bs) : IsDir vol v dir bs := by
  cases h with
  | root h => exact h
  | sub _ _ _ _ _ h => exact h

theorem EntryChain.unique {cs cs' : List ℕ} (h : EntryChain vol v e cs) (h' : EntryChain vol v e cs') : cs = cs' := by
  rcases h with ⟨hlt, rfl⟩ | hc
  · rcases h' with ⟨-, rfl⟩ | hc'
    · rfl
    · have := hc'.1.start_range
      omega
  · rcases h' with ⟨hlt, rfl⟩ | hc'
    · have := hc.1.start_range
      omega
    · exact hc.1.unique hc'.1

theorem EntryChain.of_two_le {cs : List ℕ} (h : EntryChain vol v e cs) (hge : 2 ≤ e.firstCluster) :
    ChainFrom vol v e.firstCluster cs := by
  rcases h with ⟨hlt, -⟩ | h
  · omega
  · exact h

/-! ### Records -/

theorem mem_blockRecords {b : Option ℕ} : (loc, e) ∈ blockRecords v b ↔
      loc.cluster = b ∧ (loc.slot, e) ∈ (fatScanDirEntriesEx (v.block b)).1 := by
  rw [blockRecords, mem_map]
  constructor
  · rintro ⟨⟨i, e'⟩, hmem, heq⟩
    obtain ⟨rfl, rfl⟩ := Prod.mk.inj heq
    exact ⟨rfl, hmem⟩
  · rintro ⟨rfl, hmem⟩
    exact ⟨_, hmem, rfl⟩

theorem mem_block_of_mem_dir (h : (loc, e) ∈ dirRecords ty v bs) :
    loc.cluster ∈ bs ∧ (loc, e) ∈ blockRecords v loc.cluster := by
  induction bs with
  | nil => cases h
  | cons b bs ih =>
    rw [dirRecords, mem_append] at h
    rcases h with h | h
    · obtain ⟨rfl, -⟩ := mem_blockRecords.1 h
      exact ⟨mem_cons_self, h⟩
    · split at h
      · cases h
      · obtain ⟨hmem, hblock⟩ := ih h
        exact ⟨mem_cons_of_mem _ hmem, hblock⟩

theorem dirRecords_unique (h : (loc, e) ∈ dirRecords ty v bs) (h' : (loc, e') ∈ dirRecords ty v bs') : e = e' :=
  scanSlots_unique (mem_blockRecords.1 (mem_block_of_mem_dir h).2).2 (mem_blockRecords.1 (mem_block_of_mem_dir h').2).2

theorem Live.unique (h : Live vol v loc e) (h' : Live vol v loc e') : e = e' := by
  obtain ⟨-, bs, -, hmem, -⟩ := h
  obtain ⟨-, bs', -, hmem', -⟩ := h'
  exact dirRecords_unique hmem hmem'

/-! ### Blocks belong to one directory -/

theorem Chained.sub_isDir (hw : Chained vol v) (h : Live vol v loc e) (hge : 2 ≤ e.firstCluster) :
    ∃ cs, ChainFrom vol v e.firstCluster cs ∧ IsDir vol v (some e.firstCluster) (cs.map some) := by
  obtain ⟨cs, hcs, -⟩ := hw.chain h
  exact ⟨cs, hcs.of_two_le hge, .chain (hcs.of_two_le hge)⟩

theorem Reach.owner (h : Reach vol v dir bs) :
    dir = rootDir vol ∨ ∃ loc e cs, Live vol v loc e ∧ e.isDir = true ∧ dir = some e.firstCluster ∧
      EntryChain vol v e cs ∧ bs = cs.map some := by
  cases h with
  | root _ => exact .inl rfl
  | @sub dir bs _ loc e hreach hmem hdir hdot hge his =>
    cases his with
    | chain hc => exact .inr ⟨loc, e, _, ⟨dir, bs, hreach, hmem, hdot⟩, hdir, rfl, .inr hc, rfl⟩

theorem Consistent.dir_unique (hw : Consistent vol v) (h : Reach vol v dir bs) (h' : Reach vol v dir' bs')
    {b : Option ℕ} (hb : b ∈ bs) (hb' : b ∈ bs') : dir = dir' := by
  -- a root block is not a block of a directory that a live entry owns
  have hroot : ∀ {dir dir' bs bs'}, Reach vol v dir bs → dir = rootDir vol → b ∈ bs →
      (∃ loc e cs, Live vol v loc e ∧ e.isDir = true ∧ dir' = some e.firstCluster ∧
        EntryChain vol v e cs ∧ bs' = cs.map some) → b ∈ bs' → False := by
    rintro dir dir' bs bs' hr rfl hb ⟨loc, e, cs, hlive, -, -, hcs, rfl⟩ hb'
    obtain ⟨c, hc, rfl⟩ := mem_map.1 hb'
    have his := hr.isDir
    generalize hd : rootDir vol = dir at his
    cases his with
    | area => simp at hb
    | chain hc₀ =>
      obtain ⟨c', hc', heq⟩ := mem_map.1 hb
      obtain rfl := Option.some.inj heq
      exact hw.disjoint.root hd hc₀ hlive hcs hc' hc
  rcases h.owner with hr | ho
  · rcases h'.owner with hr' | ho'
    · rw [hr, hr']
    · exact (hroot h hr hb ho' hb').elim
  · rcases h'.owner with hr' | ho'
    · exact (hroot h' hr' hb' ho hb).elim
    · obtain ⟨loc, e, cs, hlive, -, rfl, hcs, rfl⟩ := ho
      obtain ⟨loc', e', cs', hlive', -, rfl, hcs', rfl⟩ := ho'
      obtain ⟨c, hc, rfl⟩ := mem_map.1 hb
      obtain ⟨c', hc', heq⟩ := mem_map.1 hb'
      obtain rfl := Option.some.inj heq
      rcases eq_or_ne loc loc' with rfl | hne
      · rw [hlive.unique hlive']
      · exact (hw.disjoint.entries hlive hlive' hne hcs hcs' hc hc').elim

theorem IsDir.nodup (h : IsDir vol v dir bs) : bs.Nodup := by
  cases h with
  | area => exact nodup_singleton _
  | chain hc => exact hc.1.linked.nodup.map (Option.some_injective _)

theorem nodup_dirRecords (ty : FatType) (h : bs.Nodup) : (dirRecords ty v bs).Nodup := by
  induction bs with
  | nil => exact nodup_nil
  | cons b bs ih =>
    obtain ⟨hb, hbs⟩ := nodup_cons.1 h
    have hblock : (blockRecords v b).Nodup := by
      refine (nodup_scanSlots _ _ _).map fun r r' heq ↦ ?_
      obtain ⟨hloc, he⟩ := Prod.mk.inj heq
      exact Prod.ext (SlotLoc.mk.inj hloc).2 he
    rw [dirRecords]
    split
    · rwa [append_nil]
    · refine hblock.append (ih hbs) ?_
      rintro ⟨loc, e⟩ hmem hmem'
      exact hb ((mem_blockRecords.1 hmem).1 ▸ (mem_block_of_mem_dir hmem').1)

/-! ### Paths -/

def lookupName (records : List (SlotLoc × FatDirEntry)) (name : Bytes) : Option (SlotLoc × FatDirEntry) :=
  records.find? fun r ↦ r.2.name = name

theorem mem_of_lookupName {records : List (SlotLoc × FatDirEntry)} {r : SlotLoc × FatDirEntry}
    (h : lookupName records name = some r) : r ∈ records ∧ r.2.name = name :=
  ⟨mem_of_find?_eq_some h, by simpa using find?_some h⟩

theorem lookupName_of_mem {records : List (SlotLoc × FatDirEntry)}
    (hnodup : (records.map fun r ↦ r.2.name).Nodup) {r : SlotLoc × FatDirEntry} (h : r ∈ records) :
    lookupName records r.2.name = some r := by
  rcases hfind : lookupName records r.2.name with - | r'
  · have hnone := find?_eq_none.1 hfind r h
    simp at hnone
  · obtain ⟨hmem, hname⟩ := mem_of_lookupName hfind
    rw [inj_on_of_nodup_map hnodup hmem h hname]

section

variable (vol : Volume) (v : View)

/-- A record found under a name in a directory. -/
def Finds (dir : Option ℕ) (name : Bytes) (loc : SlotLoc) (e : FatDirEntry) : Prop :=
  ∃ bs, IsDir vol v dir bs ∧ lookupName (dirRecords vol.fatType v bs) name = some (loc, e)

def DirStep (dir : Option ℕ) (name : Bytes) (dir' : Option ℕ) : Prop :=
  ∃ loc e, Finds vol v dir name loc e ∧ e.isDir = true ∧ 2 ≤ e.firstCluster ∧ dir' = some e.firstCluster

/-- The directory a list of segments leads to. -/
inductive ResolvesDir : Option ℕ → List Bytes → Option ℕ → Prop
  | nil {dir : Option ℕ} : ResolvesDir dir [] dir
  | cons {dir dir' dir'' : Option ℕ} {name : Bytes} {rest : List Bytes} :
      DirStep vol v dir name dir' → ResolvesDir dir' rest dir'' → ResolvesDir dir (name :: rest) dir''

/-- The record a list of segments leads to. -/
def Resolves (dir : Option ℕ) (segs : List Bytes) (loc : SlotLoc) (e : FatDirEntry) : Prop :=
  ∃ init name dir', segs = init ++ [name] ∧ ResolvesDir vol v dir init dir' ∧ Finds vol v dir' name loc e

end

/-- A segment that names neither `.` nor `..`. -/
def PlainName (name : Bytes) : Prop := name ≠ [0x2E] ∧ name ≠ [0x2E, 0x2E]

theorem IsDir.finds_iff (h : IsDir vol v dir bs) {name : Bytes} {loc : SlotLoc} {e : FatDirEntry} :
    Finds vol v dir name loc e ↔ lookupName (dirRecords vol.fatType v bs) name = some (loc, e) :=
  ⟨fun ⟨_, h', hfind⟩ ↦ h'.unique h ▸ hfind, fun hfind ↦ ⟨bs, h, hfind⟩⟩

theorem Finds.unique (h : Finds vol v dir name loc e) (h' : Finds vol v dir name loc' e') : loc = loc' ∧ e = e' := by
  obtain ⟨bs, hbs, hfind⟩ := h
  obtain ⟨bs', hbs', hfind'⟩ := h'
  obtain rfl := hbs.unique hbs'
  exact Prod.mk.inj (Option.some.inj (hfind.symm.trans hfind'))

theorem ResolvesDir.unique {d₁ d₂ : Option ℕ} (h : ResolvesDir vol v dir segs d₁)
    (h' : ResolvesDir vol v dir segs d₂) : d₁ = d₂ := by
  induction h with
  | nil =>
    cases h'
    rfl
  | cons hstep _ ih =>
    cases h' with
    | cons hstep' htail' =>
      obtain ⟨loc, e, hf, -, -, rfl⟩ := hstep
      obtain ⟨loc', e', hf', -, -, rfl⟩ := hstep'
      obtain ⟨-, rfl⟩ := hf.unique hf'
      exact ih htail'

theorem Resolves.unique (h : Resolves vol v dir segs loc e) (h' : Resolves vol v dir segs loc' e') :
    loc = loc' ∧ e = e' := by
  obtain ⟨init, name, d₁, rfl, hdir, hf⟩ := h
  obtain ⟨init', name', d₂, heq, hdir', hf'⟩ := h'
  obtain ⟨rfl, hname⟩ := append_inj' heq rfl
  obtain rfl := singleton_inj.1 hname
  obtain rfl := hdir.unique hdir'
  exact hf.unique hf'

theorem resolvesDir_concat {d₂ : Option ℕ} {init : List Bytes} : ResolvesDir vol v dir (init ++ [name]) d₂ ↔
      ∃ d₁, ResolvesDir vol v dir init d₁ ∧ DirStep vol v d₁ name d₂ := by
  induction init generalizing dir with
  | nil =>
    constructor
    · intro h
      cases h with
      | cons hstep htail =>
        cases htail
        exact ⟨dir, .nil, hstep⟩
    · rintro ⟨d₁, hnil, hstep⟩
      cases hnil
      exact .cons hstep .nil
  | cons n init ih =>
    constructor
    · intro h
      cases h with
      | cons hstep htail =>
        obtain ⟨d₁, hinit, hlast⟩ := ih.1 htail
        exact ⟨d₁, .cons hstep hinit, hlast⟩
    · rintro ⟨d₁, hinit, hlast⟩
      cases hinit with
      | cons hstep htail => exact .cons hstep (ih.2 ⟨d₁, htail, hlast⟩)

theorem resolves_singleton : Resolves vol v dir [name] loc e ↔ Finds vol v dir name loc e := by
  constructor
  · rintro ⟨init, name', dir', heq, hdir, hf⟩
    obtain ⟨rfl, hname⟩ := append_inj' (show [] ++ [name] = init ++ [name'] from heq) rfl
    obtain rfl := singleton_inj.1 hname
    cases hdir
    exact hf
  · exact fun hf ↦ ⟨[], name, dir, rfl, .nil, hf⟩

theorem resolves_cons {next : Bytes} {rest : List Bytes} : Resolves vol v dir (name :: next :: rest) loc e ↔
      ∃ dir', DirStep vol v dir name dir' ∧ Resolves vol v dir' (next :: rest) loc e := by
  constructor
  · rintro ⟨init, last, dir₂, heq, hdir, hf⟩
    cases hdir with
    | nil => simp at heq
    | cons hstep htail =>
      obtain ⟨rfl, hrest⟩ := List.cons.inj heq
      exact ⟨_, hstep, _, last, dir₂, hrest, htail, hf⟩
  · rintro ⟨dir', hstep, init, last, dir₂, heq, hdir, hf⟩
    exact ⟨name :: init, last, dir₂, by rw [heq]; rfl, .cons hstep hdir, hf⟩

theorem Finds.live (hr : Reach vol v dir bs) (hname : PlainName name) (h : Finds vol v dir name loc e) :
    (loc, e) ∈ dirRecords vol.fatType v bs ∧ e.name = name ∧ ¬e.IsDot ∧ Live vol v loc e := by
  obtain ⟨bs', hbs', hfind⟩ := h
  obtain rfl := hr.isDir.unique hbs'
  obtain ⟨hmem, heq⟩ := mem_of_lookupName hfind
  have hdot : ¬e.IsDot := by
    rintro ⟨-, h | h⟩
    · exact hname.1 (heq ▸ h)
    · exact hname.2 (heq ▸ h)
  exact ⟨hmem, heq, hdot, dir, bs, hr, hmem, hdot⟩

theorem ResolvesDir.reach (hw : Chained vol v) (h : ResolvesDir vol v dir segs dir')
    (hsegs : ∀ s ∈ segs, PlainName s) (hr : Reach vol v dir bs) : ∃ bs', Reach vol v dir' bs' := by
  induction h generalizing bs with
  | nil => exact ⟨bs, hr⟩
  | cons hstep _ ih =>
    obtain ⟨loc, e, hf, hdir, hge, rfl⟩ := hstep
    obtain ⟨hmem, -, hdot, hlive⟩ := hf.live hr (hsegs _ mem_cons_self)
    obtain ⟨cs, -, his⟩ := hw.sub_isDir hlive hge
    exact ih (fun s hs ↦ hsegs s (mem_cons_of_mem _ hs)) (.sub hr hmem hdir hdot hge his)

theorem Chained.reach_root (hw : Chained vol v) : ∃ bs, Reach vol v (rootDir vol) bs := by
  obtain ⟨bs, hbs⟩ := hw.root
  exact ⟨bs, .root hbs⟩

theorem Resolves.live (hw : Chained vol v) (hsegs : ∀ s ∈ segs, PlainName s)
    (h : Resolves vol v (rootDir vol) segs loc e) : Live vol v loc e := by
  obtain ⟨init, name, dir', rfl, hdir, hf⟩ := h
  obtain ⟨bs₀, hr₀⟩ := hw.reach_root
  obtain ⟨bs, hr⟩ := hdir.reach hw (fun s hs ↦ hsegs s (mem_append_left _ hs)) hr₀
  exact (hf.live hr (hsegs name (by simp))).2.2.2

theorem Consistent.loc_eq (hw : Consistent vol v) (h : Live vol v loc e) (h' : Live vol v loc' e')
    (hge : 2 ≤ e.firstCluster) (heq : e.firstCluster = e'.firstCluster) : loc = loc' := by
  by_contra hne
  obtain ⟨cs, hcs, -⟩ := hw.chain h
  obtain ⟨cs', hcs', -⟩ := hw.chain h'
  have hmem := (hcs.of_two_le hge).1.linked.head_mem
  have hmem' := (hcs'.of_two_le (heq ▸ hge)).1.linked.head_mem
  exact hw.disjoint.entries h h' hne hcs hcs' hmem (heq ▸ hmem')

/-- Paths that lead to one record find it in one directory, under one name. -/
theorem Consistent.last_eq (hw : Consistent vol v) {p q : List Bytes} {n m : Bytes} {d₁ d₂ : Option ℕ}
    (hp : ∀ s ∈ p ++ [n], PlainName s) (hq : ∀ s ∈ q ++ [m], PlainName s)
    (h : ResolvesDir vol v (rootDir vol) p d₁) (h' : ResolvesDir vol v (rootDir vol) q d₂)
    (hf : Finds vol v d₁ n loc e) (hf' : Finds vol v d₂ m loc e') : d₁ = d₂ ∧ n = m := by
  obtain ⟨bs₀, hr₀⟩ := hw.reach_root
  obtain ⟨bs, hr⟩ := h.reach hw.toChained (forall_mem_append.1 hp).1 hr₀
  obtain ⟨bs', hr'⟩ := h'.reach hw.toChained (forall_mem_append.1 hq).1 hr₀
  obtain ⟨hmem, hname, -, hlive⟩ := hf.live hr (hp n (by simp))
  obtain ⟨hmem', hname', -, hlive'⟩ := hf'.live hr' (hq m (by simp))
  obtain rfl := hlive.unique hlive'
  have hdir := hw.dir_unique hr hr' (mem_block_of_mem_dir hmem).1 (mem_block_of_mem_dir hmem').1
  exact ⟨hdir, hname.symm.trans hname'⟩

theorem ResolvesDir.path_unique (hw : Consistent vol v) {p q : List Bytes} (hp : ∀ s ∈ p, PlainName s)
    (hq : ∀ s ∈ q, PlainName s) (h : ResolvesDir vol v (rootDir vol) p dir)
    (h' : ResolvesDir vol v (rootDir vol) q dir) : p = q := by
  -- no entry leads back to the root
  have hroot : ∀ {init : List Bytes} {name : Bytes}, (∀ s ∈ init ++ [name], PlainName s) →
      ¬ResolvesDir vol v (rootDir vol) (init ++ [name]) (rootDir vol) := by
    intro init name hplain hres
    obtain ⟨d₁, hinit, loc, e, hf, -, hge, heq⟩ := resolvesDir_concat.1 hres
    have hlive := Resolves.live hw.toChained hplain ⟨init, name, d₁, rfl, hinit, hf⟩
    obtain ⟨cs, hcs, -⟩ := hw.sub_isDir hlive hge
    have hmem := hcs.1.linked.head_mem
    exact hw.disjoint.root heq hcs hlive (.inr hcs) hmem hmem
  induction p using List.reverseRecOn generalizing q dir with
  | nil =>
    cases h
    rcases eq_nil_or_concat q with rfl | ⟨init, name, rfl⟩
    · rfl
    · rw [concat_eq_append] at hq h'
      exact absurd h' (hroot hq)
  | append_singleton p n ih =>
    rcases eq_nil_or_concat q with rfl | ⟨q, m, rfl⟩
    · cases h'
      exact absurd h (hroot hp)
    · rw [concat_eq_append] at hq h' ⊢
      obtain ⟨d₁, hinit, loc, e, hf, -, hge, rfl⟩ := resolvesDir_concat.1 h
      obtain ⟨d₂, hinit', loc', e', hf', -, hge', heq⟩ := resolvesDir_concat.1 h'
      have hlive := Resolves.live hw.toChained hp ⟨p, n, d₁, rfl, hinit, hf⟩
      have hlive' := Resolves.live hw.toChained hq ⟨q, m, d₂, rfl, hinit', hf'⟩
      obtain rfl := hw.loc_eq hlive hlive' hge (Option.some.inj heq)
      obtain ⟨rfl, rfl⟩ := hw.last_eq hp hq hinit hinit' hf hf'
      rw [ih (forall_mem_append.1 hp).1 (forall_mem_append.1 hq).1 hinit hinit']

theorem Resolves.path_unique (hw : Consistent vol v) {p q : List Bytes} (hp : ∀ s ∈ p, PlainName s)
    (hq : ∀ s ∈ q, PlainName s) (h : Resolves vol v (rootDir vol) p loc e)
    (h' : Resolves vol v (rootDir vol) q loc e') : p = q := by
  obtain ⟨init, n, d₁, rfl, hinit, hf⟩ := h
  obtain ⟨init', m, d₂, rfl, hinit', hf'⟩ := h'
  obtain ⟨rfl, rfl⟩ := hw.last_eq hp hq hinit hinit' hf hf'
  rw [hinit.path_unique hw (forall_mem_append.1 hp).1 (forall_mem_append.1 hq).1 hinit']

/-! ### Contents -/

/-- The first `size` bytes of a chain of clusters. -/
def contents (v : View) (cs : List ℕ) (size : ℕ) : Bytes := (cs.flatMap v.cluster).take size

/-- The path `segs` leads to a file, which holds `bytes`. -/
def FileAt (vol : Volume) (v : View) (segs : List Bytes) (bytes : Bytes) : Prop :=
  ∃ loc e cs, Resolves vol v (rootDir vol) segs loc e ∧ e.isDir = false ∧ EntryChain vol v e cs ∧
    bytes = contents v cs e.fileSize

theorem FileAt.unique {bs bs' : Bytes} (h : FileAt vol v segs bs) (h' : FileAt vol v segs bs') : bs = bs' := by
  obtain ⟨loc, e, cs, hres, -, hcs, rfl⟩ := h
  obtain ⟨loc', e', cs', hres', -, hcs', rfl⟩ := h'
  obtain ⟨-, rfl⟩ := hres.unique hres'
  rw [hcs.unique hcs']

end CapazOS
