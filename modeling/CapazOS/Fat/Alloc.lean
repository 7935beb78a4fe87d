import CapazOS.Fat.Slots

/-!
# Allocating and freeing clusters

What threading and freeing clusters do to the successor function of a table. `linkClusters` threads
a list of clusters into a path and touches no other cluster (`threaded`); `releaseClusters` clears
the entries of a list. A chain is then built in one of two ways: from free clusters alone
(`chain_of_free`), or by hanging them onto the end of an existing chain (`chain_extend`).
-/

namespace CapazOS

open List Function

variable {fat : Bytes} {cs chain extra : List ℕ} {link : ℕ → ℕ} {c max : ℕ}

variable {ty : FatType}

/-! ### Threading -/

def threaded (ty : FatType) : (ℕ → ℕ) → List ℕ → ℕ → ℕ
  | link, [] => link
  | link, [c] => update link c (fatEocMark ty)
  | link, c :: next :: rest => threaded ty (update link c next) (next :: rest)

theorem fatEocMark_lt (ty : FatType) : fatEocMark ty < fatEntryLimit ty := by cases ty <;> decide

theorem fatEocThreshold_le_mark (ty : FatType) : fatEocThreshold ty ≤ fatEocMark ty := by
  cases ty <;> decide

theorem fatEocThreshold_lt (ty : FatType) : fatEocThreshold ty < fatEntryLimit ty := by
  cases ty <;> decide

@[simp] theorem length_linkClusters (ty : FatType) (fat : Bytes) (cs : List ℕ) :
    (linkClusters ty fat cs).length = fat.length := by
  induction cs generalizing fat with
  | nil => rfl
  | cons c cs ih =>
    cases cs with
    | nil => exact length_fatSetCluster ..
    | cons n rest => rw [linkClusters, ih, length_fatSetCluster]

/-- The clusters of a list have entries in a table of `len` bytes, and can be entries themselves. -/
def Entries (ty : FatType) (len : ℕ) (cs : List ℕ) : Prop :=
  ∀ c ∈ cs, (c + 1) * fatEntryBytes ty ≤ len ∧ c < fatEocThreshold ty

theorem fatNextCluster_linkClusters (h : Entries ty fat.length cs) :
    fatNextCluster ty (linkClusters ty fat cs) = threaded ty (fatNextCluster ty fat) cs := by
  have heoc := fatEocThreshold_lt ty
  induction cs generalizing fat with
  | nil => rfl
  | cons c cs ih =>
    obtain ⟨hc, hrest⟩ := forall_mem_cons.1 h
    cases cs with
    | nil => exact fatNextCluster_set hc.1 (fatEocMark_lt ty)
    | cons n rest =>
      have hn := (hrest n mem_cons_self).2
      have hlen := length_fatSetCluster ty fat c n
      rw [linkClusters, threaded, ih (by rw [hlen]; exact hrest), fatNextCluster_set hc.1 (by omega)]

theorem threaded_of_notMem (h : c ∉ cs) : threaded ty link cs c = link c := by
  induction cs generalizing link with
  | nil => rfl
  | cons x cs ih =>
    obtain ⟨hne, hrest⟩ := ne_and_not_mem_of_not_mem_cons h
    cases cs with
    | nil => exact update_of_ne hne ..
    | cons n rest => rw [threaded, ih hrest, update_of_ne hne]

theorem threaded_linked (hnodup : (c :: cs).Nodup) (hlt : ∀ x ∈ c :: cs, x < fatEocThreshold ty) :
    Linked (linkNext ty (threaded ty link (c :: cs))) c (c :: cs) := by
  induction cs generalizing link c with
  | nil =>
    refine .last ?_
    rw [linkNext, threaded, update_self, if_pos (fatEocThreshold_le_mark ty)]
  | cons n rest ih =>
    obtain ⟨hc, hrest⟩ := nodup_cons.1 hnodup
    refine .cons ?_ (ih hrest fun x hx ↦ hlt x (mem_cons_of_mem _ hx))
    rw [linkNext, threaded, threaded_of_notMem hc, update_self,
      if_neg (Nat.not_le.2 (hlt n (mem_cons_of_mem _ mem_cons_self)))]

/-! ### Growing a chain -/

theorem growTable_nil (ty : FatType) (fat : Bytes) (extra : List ℕ) :
    growTable ty fat [] extra = linkClusters ty fat extra := rfl

def grown (ty : FatType) (link : ℕ → ℕ) (chain extra : List ℕ) : ℕ → ℕ :=
  threaded ty (match chain.getLast?, extra.head? with
    | some last, some first => update link last first
    | _, _ => link) extra

@[simp] theorem length_growTable (ty : FatType) (fat : Bytes) (chain extra : List ℕ) :
    (growTable ty fat chain extra).length = fat.length := by
  rw [growTable, length_linkClusters]
  split
  · exact length_fatSetCluster ..
  · rfl

theorem fatNextCluster_growTable (hchain : Entries ty fat.length chain) (hextra : Entries ty fat.length extra) :
    fatNextCluster ty (growTable ty fat chain extra) = grown ty (fatNextCluster ty fat) chain extra := by
  have heoc := fatEocThreshold_lt ty
  rw [growTable, grown]
  rcases hlast : chain.getLast? with - | last
  · exact fatNextCluster_linkClusters hextra
  · rcases hfirst : extra.head? with - | first
    · exact fatNextCluster_linkClusters hextra
    · have hl := (hchain last (mem_of_getLast? hlast)).1
      have hf := (hextra first (mem_of_mem_head? hfirst)).2
      have hlen := length_fatSetCluster ty fat last first
      rw [fatNextCluster_linkClusters (by rw [hlen]; exact hextra), fatNextCluster_set hl (by omega)]

theorem grown_of_notMem (hchain : c ∉ chain) (hextra : c ∉ extra) : grown ty link chain extra c = link c := by
  rw [grown, threaded_of_notMem hextra]
  rcases hlast : chain.getLast? with - | last
  · rfl
  · rcases extra.head? with - | first
    · rfl
    · refine update_of_ne ?_ ..
      rintro rfl
      exact hchain (mem_of_getLast? hlast)

/-! ### Freeing -/

@[simp] theorem length_releaseClusters (ty : FatType) (fat : Bytes) (cs : List ℕ) :
    (releaseClusters ty fat cs).length = fat.length := by
  induction cs generalizing fat with
  | nil => rfl
  | cons c cs ih => exact (ih _).trans (length_fatSetCluster ..)

/-- The successor function with the entries of some clusters cleared. -/
def released (link : ℕ → ℕ) (cs : List ℕ) (c : ℕ) : ℕ := if c ∈ cs then 0 else link c

theorem released_of_notMem (h : c ∉ cs) : released link cs c = link c := if_neg h

theorem fatNextCluster_releaseClusters (h : ∀ c ∈ cs, (c + 1) * fatEntryBytes ty ≤ fat.length) :
    fatNextCluster ty (releaseClusters ty fat cs) = released (fatNextCluster ty fat) cs := by
  induction cs generalizing fat with
  | nil =>
    funext c
    exact (released_of_notMem not_mem_nil).symm
  | cons x cs ih =>
    obtain ⟨hx, hrest⟩ := forall_mem_cons.1 h
    have hset := fatNextCluster_set hx (by cases ty <;> decide : 0 < fatEntryLimit ty)
    have hlen := length_fatSetCluster ty fat x 0
    show fatNextCluster ty (releaseClusters ty (fatSetCluster ty fat x 0) cs) = _
    rw [ih (by rw [hlen]; exact hrest), hset]
    funext c
    simp only [released, mem_cons, update_apply]
    split_ifs <;> tauto

/-! ### Chains -/

/-- **A new chain** threaded through free clusters. -/
theorem chain_of_free (hmax : max < fatEocThreshold ty) (hnodup : (c :: cs).Nodup)
    (hrange : ∀ x ∈ c :: cs, 2 ≤ x ∧ x ≤ max) :
    ClusterChain ty max (threaded ty link (c :: cs)) c (c :: cs) where
  linked := threaded_linked hnodup fun x hx ↦ by
    have := hrange x hx
    omega
  range := hrange

/-- **A chain extended** by free clusters hung onto its last one. -/
theorem chain_extend {start last n : ℕ} (hmax : max < fatEocThreshold ty)
    (h : ClusterChain ty max link start cs) (hlast : cs.getLast? = some last) (hnodup : (n :: extra).Nodup)
    (hrange : ∀ x ∈ n :: extra, 2 ≤ x ∧ x ≤ max) (hdisj : cs.Disjoint (n :: extra)) :
    ClusterChain ty max (threaded ty (update link last n) (n :: extra)) start (cs ++ n :: extra) where
  linked := by
    have hgl : cs.getLast h.linked.ne_nil = last := by
      rw [getLast?_eq_some_getLast h.linked.ne_nil] at hlast
      exact Option.some.inj hlast
    have hold : ∀ x ∈ cs, threaded ty (update link last n) (n :: extra) x =
        update link last n x := fun x hx ↦ threaded_of_notMem fun hx' ↦ hdisj hx hx'
    refine h.linked.append ?_ (threaded_linked hnodup fun x hx ↦ ?_) fun x hx hne ↦ ?_
    · have hn := (hrange n mem_cons_self).2
      rw [hgl, linkNext, hold last (hgl ▸ getLast_mem h.linked.ne_nil), update_self, if_neg (by omega)]
    · have := (hrange x hx).2
      omega
    · rw [linkNext, linkNext, hold x hx, update_of_ne (fun heq ↦ hne (by rw [hgl, heq]))]
  range := by
    intro x hx
    rcases mem_append.1 hx with hx | hx
    · exact h.range x hx
    · exact hrange x hx

/-- **A chain grown** by free clusters, be it empty before or not. -/
theorem clusterChain_grown {start first : ℕ} (hmax : max < fatEocThreshold ty)
    (hchain : chain = [] ∨ ClusterChain ty max link start chain) (hextra : extra ≠ []) (hnodup : extra.Nodup)
    (hrange : ∀ c ∈ extra, 2 ≤ c ∧ c ≤ max) (hfree : ∀ c ∈ extra, link c = 0)
    (hfirst : (chain ++ extra).head? = some first) :
    ClusterChain ty max (grown ty link chain extra) first (chain ++ extra) := by
  obtain ⟨n, rest, rfl⟩ := exists_cons_of_ne_nil hextra
  rcases hchain with rfl | hchain
  · obtain rfl : n = first := Option.some.inj hfirst
    exact chain_of_free hmax hnodup hrange
  · have hlast := getLast?_eq_some_getLast hchain.linked.ne_nil
    have hdisj : chain.Disjoint (n :: rest) := fun c hc hc' ↦ hchain.link_ne_zero hc (hfree c hc')
    have hgrown := chain_extend hmax hchain hlast hnodup hrange hdisj
    rw [head?_append, hchain.linked.head?_eq, Option.some_or] at hfirst
    rw [grown, hlast]
    exact Option.some.inj hfirst ▸ hgrown

end CapazOS
