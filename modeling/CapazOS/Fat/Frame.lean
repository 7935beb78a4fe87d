import CapazOS.Fat.View

/-!
# What stays when one slot changes

`ChangesOnly vol v v' loc₀` is the frame an operation on one slot leaves: the chains of directories
and all records but the one in slot `loc₀` are the same, and no directory is in that slot. The same
directories are reached, the other entries are found under the same paths, and the volume stays
consistent or well formed if the entry in the slot fits in.
-/

namespace CapazOS

open List

variable {dir : Option ℕ} {bs : List (Option ℕ)} {loc : SlotLoc} {e : FatDirEntry} {vol : Volume} {v : View}
  {name : Bytes}

/-- Two views of a volume that differ, as directory trees, in one slot at most. -/
structure ChangesOnly (vol : Volume) (v v' : View) (loc₀ : SlotLoc) : Prop where
  dirs : ∀ {dir : Option ℕ} {bs : List (Option ℕ)}, Reach vol v dir bs → IsDir vol v' dir bs
  mem_iff : ∀ {dir : Option ℕ} {bs : List (Option ℕ)}, Reach vol v dir bs →
    ∀ {loc : SlotLoc} {e : FatDirEntry}, loc ≠ loc₀ →
      ((loc, e) ∈ dirRecords vol.fatType v' bs ↔ (loc, e) ∈ dirRecords vol.fatType v bs)
  file : ∀ {dir : Option ℕ} {bs : List (Option ℕ)} {e : FatDirEntry}, Reach vol v dir bs →
    (loc₀, e) ∈ dirRecords vol.fatType v bs → e.isDir = false
  file' : ∀ {dir : Option ℕ} {bs : List (Option ℕ)} {e : FatDirEntry}, Reach vol v dir bs →
    (loc₀, e) ∈ dirRecords vol.fatType v' bs → e.isDir = false

namespace ChangesOnly

variable {v' : View} {loc₀ : SlotLoc}

section

variable (h : ChangesOnly vol v v' loc₀) (hw : Consistent vol v)
include h hw

theorem reach_iff : Reach vol v' dir bs ↔ Reach vol v dir bs := by
  constructor
  · intro hr
    induction hr with
    | root his =>
      obtain ⟨bs₀, hr₀⟩ := hw.reach_root
      obtain rfl := his.unique (h.dirs hr₀)
      exact hr₀
    | @sub dir bs bs' loc e _ hmem hdir hdot hge his ih =>
      have hne : loc ≠ loc₀ := by
        rintro rfl
        rw [h.file' ih hmem] at hdir
        cases hdir
      have hmem := (h.mem_iff ih hne).1 hmem
      obtain ⟨cs, -, his₀⟩ := hw.sub_isDir ⟨dir, bs, ih, hmem, hdot⟩ hge
      have hr := Reach.sub ih hmem hdir hdot hge his₀
      obtain rfl := his.unique (h.dirs hr)
      exact hr
  · intro hr
    induction hr with
    | root his => exact .root (h.dirs (.root his))
    | @sub dir bs bs' loc e hr hmem hdir hdot hge his ih =>
      have hne : loc ≠ loc₀ := by
        rintro rfl
        rw [h.file hr hmem] at hdir
        cases hdir
      exact .sub ih ((h.mem_iff hr hne).2 hmem) hdir hdot hge (h.dirs (.sub hr hmem hdir hdot hge his))

theorem live_iff (hne : loc ≠ loc₀) : Live vol v' loc e ↔ Live vol v loc e := by
  constructor
  · rintro ⟨dir, bs, hr, hmem, hdot⟩
    have hr := (h.reach_iff hw).1 hr
    exact ⟨dir, bs, hr, (h.mem_iff hr hne).1 hmem, hdot⟩
  · rintro ⟨dir, bs, hr, hmem, hdot⟩
    exact ⟨dir, bs, (h.reach_iff hw).2 hr, (h.mem_iff hr hne).2 hmem, hdot⟩

theorem root_chain {c : ℕ} {cs : List ℕ} (hc : rootDir vol = some c) (hcs : ChainFrom vol v' c cs) :
    ChainFrom vol v c cs := by
  obtain ⟨bs₀, hr₀⟩ := hw.reach_root
  have his := hr₀.isDir
  have his' := h.dirs hr₀
  rw [hc] at his his'
  cases his with
  | @chain _ cs₀ hcs₀ =>
    have heq := his'.unique (.chain hcs)
    rwa [map_injective_iff.2 (Option.some_injective ℕ) heq] at hcs₀

end

/-- What the entry in the changed slot must satisfy: a chain that covers its size and is disjoint
from every other. -/
structure FitsIn (vol : Volume) (v v' : View) (loc₀ : SlotLoc) (e : FatDirEntry) : Prop where
  chain : ∃ cs, EntryChain vol v' e cs ∧ Covers vol e cs ∧
    (∀ {loc : SlotLoc} {e' : FatDirEntry} {cs' : List ℕ}, Live vol v loc e' → loc ≠ loc₀ →
      EntryChain vol v e' cs' → cs.Disjoint cs') ∧
    ∀ {c : ℕ} {cs₀ : List ℕ}, rootDir vol = some c → ChainFrom vol v c cs₀ → cs₀.Disjoint cs

/-- **Consistency is kept** when the other chains are kept and the entry in the slot fits in. -/
theorem consistent (h : ChangesOnly vol v v' loc₀) (hw : Consistent vol v)
    (hchain : ∀ {loc : SlotLoc} {e : FatDirEntry} {cs : List ℕ}, Live vol v loc e → loc ≠ loc₀ →
      EntryChain vol v e cs → EntryChain vol v' e cs)
    (hslot : ∀ {e : FatDirEntry}, Live vol v' loc₀ e → FitsIn vol v v' loc₀ e) :
    Consistent vol v' := by
  -- the old chain of an entry in another slot, from its new one
  have hold : ∀ {loc : SlotLoc} {e : FatDirEntry} {cs : List ℕ}, Live vol v' loc e → loc ≠ loc₀ →
      EntryChain vol v' e cs → Live vol v loc e ∧ EntryChain vol v e cs := by
    intro loc e cs hlive hne hcs
    have hlive := (h.live_iff hw hne).1 hlive
    obtain ⟨cs₀, hcs₀, -⟩ := hw.chain hlive
    obtain rfl := hcs.unique (hchain hlive hne hcs₀)
    exact ⟨hlive, hcs₀⟩
  refine ⟨⟨?_, ?_⟩, ?_, ?_⟩
  · obtain ⟨bs₀, hr₀⟩ := hw.reach_root
    exact ⟨bs₀, h.dirs hr₀⟩
  · intro loc e hlive
    rcases eq_or_ne loc loc₀ with rfl | hne
    · obtain ⟨cs, hcs, hcov, -⟩ := (hslot hlive).chain
      exact ⟨cs, hcs, hcov⟩
    · have hlive := (h.live_iff hw hne).1 hlive
      obtain ⟨cs, hcs, hcov⟩ := hw.chain hlive
      exact ⟨cs, hchain hlive hne hcs, hcov⟩
  · intro loc loc' e e' cs cs' hlive hlive' hne hcs hcs'
    rcases eq_or_ne loc loc₀ with rfl | hloc
    · obtain ⟨cs₀, hcs₀, -, hdisj, -⟩ := (hslot hlive).chain
      obtain rfl := hcs.unique hcs₀
      obtain ⟨hl, hc⟩ := hold hlive' hne.symm hcs'
      exact hdisj hl hne.symm hc
    · obtain ⟨hl, hc⟩ := hold hlive hloc hcs
      rcases eq_or_ne loc' loc₀ with rfl | hloc'
      · obtain ⟨cs₀, hcs₀, -, hdisj, -⟩ := (hslot hlive').chain
        obtain rfl := hcs'.unique hcs₀
        exact disjoint_symm (hdisj hl hloc hc)
      · obtain ⟨hl', hc'⟩ := hold hlive' hloc' hcs'
        exact hw.disjoint.entries hl hl' hne hc hc'
  · intro c cs₀ hc hcs₀ loc e cs hlive hcs
    have hcs₀ := h.root_chain hw hc hcs₀
    rcases eq_or_ne loc loc₀ with rfl | hloc
    · obtain ⟨cs₁, hcs₁, -, -, hdisj⟩ := (hslot hlive).chain
      obtain rfl := hcs.unique hcs₁
      exact hdisj hc hcs₀
    · obtain ⟨hl, hc'⟩ := hold hlive hloc hcs
      exact hw.disjoint.root hc hcs₀ hl hc'

/-- **Well-formedness is kept** when, besides, the entry in the slot has a name of its own. -/
theorem wellFormed (h : ChangesOnly vol v v' loc₀) (hw : WellFormed vol v)
    (hchain : ∀ {loc : SlotLoc} {e : FatDirEntry} {cs : List ℕ}, Live vol v loc e → loc ≠ loc₀ →
      EntryChain vol v e cs → EntryChain vol v' e cs)
    (hslot : ∀ {e : FatDirEntry}, Live vol v' loc₀ e → FitsIn vol v v' loc₀ e)
    (hname : ∀ {dir : Option ℕ} {bs : List (Option ℕ)} {e : FatDirEntry}, Reach vol v dir bs →
      (loc₀, e) ∈ dirRecords vol.fatType v' bs → ∀ {loc : SlotLoc} {e' : FatDirEntry},
      loc ≠ loc₀ → (loc, e') ∈ dirRecords vol.fatType v bs → e'.name ≠ e.name) :
    WellFormed vol v' where
  toConsistent := h.consistent hw.toConsistent hchain hslot
  names := by
    intro dir bs hr'
    have hr := (h.reach_iff hw.toConsistent).1 hr'
    refine List.Nodup.map_on ?_ (nodup_dirRecords _ hr'.isDir.nodup)
    rintro ⟨loc, e⟩ hmem ⟨loc', e'⟩ hmem' (heq : e.name = e'.name)
    rcases eq_or_ne loc loc₀ with hloc | hne <;> rcases eq_or_ne loc' loc₀ with hloc' | hne'
    · subst hloc hloc'
      rw [dirRecords_unique hmem hmem']
    · subst hloc
      exact absurd heq.symm (hname hr hmem hne' ((h.mem_iff hr hne').1 hmem'))
    · subst hloc'
      exact absurd heq (hname hr hmem' hne ((h.mem_iff hr hne).1 hmem))
    · exact inj_on_of_nodup_map (hw.names hr) ((h.mem_iff hr hne).1 hmem) ((h.mem_iff hr hne').1 hmem') heq

end ChangesOnly

/-! ### Paths -/

theorem WellFormed.finds_iff (hw : WellFormed vol v) (hr : Reach vol v dir bs) :
    Finds vol v dir name loc e ↔ (loc, e) ∈ dirRecords vol.fatType v bs ∧ e.name = name := by
  rw [hr.isDir.finds_iff]
  refine ⟨mem_of_lookupName, ?_⟩
  rintro ⟨hmem, rfl⟩
  exact lookupName_of_mem (hw.names hr) hmem

namespace ChangesOnly

variable {v' : View} {loc₀ : SlotLoc}

section

variable (h : ChangesOnly vol v v' loc₀) (hw : WellFormed vol v) (hw' : WellFormed vol v')
include h hw hw'

theorem finds_iff (hr : Reach vol v dir bs) (hne : loc ≠ loc₀) :
    Finds vol v' dir name loc e ↔ Finds vol v dir name loc e := by
  rw [hw.finds_iff hr, hw'.finds_iff ((h.reach_iff hw.toConsistent).2 hr), h.mem_iff hr hne]

theorem dirStep_iff {dir' : Option ℕ} (hr : Reach vol v dir bs) :
    DirStep vol v' dir name dir' ↔ DirStep vol v dir name dir' := by
  have hr' := (h.reach_iff hw.toConsistent).2 hr
  constructor
  · rintro ⟨loc, e, hf, hdir, hge, rfl⟩
    have hne : loc ≠ loc₀ := by
      rintro rfl
      rw [h.file' hr ((hw'.finds_iff hr').1 hf).1] at hdir
      cases hdir
    exact ⟨loc, e, (h.finds_iff hw hw' hr hne).1 hf, hdir, hge, rfl⟩
  · rintro ⟨loc, e, hf, hdir, hge, rfl⟩
    have hne : loc ≠ loc₀ := by
      rintro rfl
      rw [h.file hr ((hw.finds_iff hr).1 hf).1] at hdir
      cases hdir
    exact ⟨loc, e, (h.finds_iff hw hw' hr hne).2 hf, hdir, hge, rfl⟩

theorem resolvesDir_iff {dir' : Option ℕ} (hr : Reach vol v dir bs) {segs : List Bytes}
    (hsegs : ∀ s ∈ segs, PlainName s) :
    ResolvesDir vol v' dir segs dir' ↔ ResolvesDir vol v dir segs dir' := by
  induction segs generalizing dir bs with
  | nil =>
    constructor <;>
    · intro hres
      cases hres
      exact .nil
  | cons name segs ih =>
    have hstep : ∀ {d₁}, DirStep vol v dir name d₁ → ∃ bs₁, Reach vol v d₁ bs₁ := fun hs ↦
      ResolvesDir.reach hw.toChained (.cons hs .nil) (by simpa using hsegs name mem_cons_self) hr
    have hrest : ∀ s ∈ segs, PlainName s := fun s hs ↦ hsegs s (mem_cons_of_mem _ hs)
    constructor
    · intro hres
      cases hres with
      | cons hs htail =>
        have hs := (h.dirStep_iff hw hw' hr).1 hs
        obtain ⟨bs₁, hr₁⟩ := hstep hs
        exact .cons hs ((ih hr₁ hrest).1 htail)
    · intro hres
      cases hres with
      | cons hs htail =>
        obtain ⟨bs₁, hr₁⟩ := hstep hs
        exact .cons ((h.dirStep_iff hw hw' hr).2 hs) ((ih hr₁ hrest).2 htail)

theorem resolves_iff {segs : List Bytes} (hsegs : ∀ s ∈ segs, PlainName s) (hne : loc ≠ loc₀) :
    Resolves vol v' (rootDir vol) segs loc e ↔ Resolves vol v (rootDir vol) segs loc e := by
  obtain ⟨bs₀, hr₀⟩ := hw.reach_root
  constructor
  · rintro ⟨init, name, dir', rfl, hdir, hf⟩
    have hinit : ∀ s ∈ init, PlainName s := fun s hs ↦ hsegs s (mem_append_left _ hs)
    have hdir := (h.resolvesDir_iff hw hw' hr₀ hinit).1 hdir
    obtain ⟨bs, hr⟩ := hdir.reach hw.toChained hinit hr₀
    exact ⟨init, name, dir', rfl, hdir, (h.finds_iff hw hw' hr hne).1 hf⟩
  · rintro ⟨init, name, dir', rfl, hdir, hf⟩
    have hinit : ∀ s ∈ init, PlainName s := fun s hs ↦ hsegs s (mem_append_left _ hs)
    obtain ⟨bs, hr⟩ := hdir.reach hw.toChained hinit hr₀
    exact ⟨init, name, dir', rfl, (h.resolvesDir_iff hw hw' hr₀ hinit).2 hdir, (h.finds_iff hw hw' hr hne).2 hf⟩

end

end ChangesOnly

end CapazOS
