import Mathlib.Data.List.Nodup
import Mathlib.Logic.Function.Basic

/-!
# Rings of links

A queue kept as a circular singly linked list, held by a pointer to its **last** node. `IsRing next
tail l` says that the links and the pointer represent the list `l`; `insertTail` appends, `popHead`
takes the first element, and `remove`, which has to walk the ring to find the node in front, erases.
**No link outside the ring changes.**
-/

namespace LinkRing

open List Function

variable {fuel : ℕ}

variable {α : Type*}

/-- Where each node points to; `none` is the null pointer. -/
abbrev Links (α : Type*) := α → Option α

variable {next next' : Links α} {x y t a : α} {l₁ l₂ l : List α} {tail : Option α}

/-! ### Paths -/

/-- Following the links from `x` visits the nodes `l` and then reaches `y`. -/
def Path (next : Links α) : α → List α → α → Prop
  | x, [], y => next x = some y
  | x, z :: l, y => next x = some z ∧ Path next z l y

theorem path_append {z : α} : Path next x (l₁ ++ z :: l₂) y ↔ Path next x l₁ z ∧ Path next z l₂ y := by
  induction l₁ generalizing x with
  | nil => rfl
  | cons w l₁ ih => simp [Path, ih, and_assoc]

theorem Path.enter (h : Path next x l y) (ht : next' t = next x) (hl : ∀ z ∈ l, next' z = next z) :
    Path next' t l y := by
  induction l generalizing x t with
  | nil => exact ht.trans h
  | cons z l ih =>
    exact ⟨ht.trans h.1, ih h.2 (hl z mem_cons_self) fun w hw ↦ hl w (mem_cons_of_mem _ hw)⟩

theorem Path.congr (h : Path next x l y) (hx : next' x = next x) (hl : ∀ z ∈ l, next' z = next z) :
    Path next' x l y := h.enter hx hl

/-- **Skipping a node**: when the last node `p` before `t` is redirected past `t`, the path through
`t` becomes one path around it. -/
theorem Path.skip (h : Path next x l₁ t) (h₂ : Path next t l₂ y)
    (hp : next' ((x :: l₁).getLast (cons_ne_nil _ _)) = next t)
    (h₁' : ∀ z ∈ (x :: l₁).dropLast, next' z = next z) (h₂' : ∀ z ∈ l₂, next' z = next z) :
    Path next' x (l₁ ++ l₂) y := by
  induction l₁ generalizing x with
  | nil => exact h₂.enter hp h₂'
  | cons z l₁ ih =>
    refine ⟨(h₁' x (by simp)).trans h.1, ih h.2 ?_ fun w hw ↦ h₁' w ?_⟩
    · rwa [getLast_cons (cons_ne_nil z l₁)] at hp
    · rw [dropLast_cons_of_ne_nil (cons_ne_nil z l₁)]
      exact mem_cons_of_mem _ hw

/-! ### Rings -/

/-- The links and the pointer to the last node represent the list `l`. -/
def IsRing (next : Links α) : Option α → List α → Prop
  | none, l => l = []
  | some a, l => ∃ l₀, l = l₀ ++ [a] ∧ l.Nodup ∧ Path next a l₀ a

theorem IsRing.nodup (h : IsRing next tail l) : l.Nodup := by
  cases tail with
  | none => exact h ▸ nodup_nil
  | some a =>
    obtain ⟨l₀, -, hnodup, -⟩ := h
    exact hnodup

theorem Path.unique {l' : List α} (h : Path next x l y) (h' : Path next x l' y) (hl : y ∉ l) (hl' : y ∉ l') :
    l = l' := by
  induction l generalizing x l' with
  | nil =>
    cases l' with
    | nil => rfl
    | cons z l' =>
      have hyz : y = z := Option.some.inj (h.symm.trans h'.1)
      exact absurd (hyz ▸ mem_cons_self) hl'
  | cons z l ih =>
    cases l' with
    | nil =>
      have hyz : y = z := Option.some.inj (h'.symm.trans h.1)
      exact absurd (hyz ▸ mem_cons_self) hl
    | cons z' l' =>
      obtain rfl := Option.some.inj (h.1.symm.trans h'.1)
      rw [ih h.2 h'.2 (fun hy ↦ hl (mem_cons_of_mem _ hy)) fun hy ↦ hl' (mem_cons_of_mem _ hy)]

theorem IsRing.unique {l' : List α} (h : IsRing next tail l) (h' : IsRing next tail l') : l = l' := by
  cases tail with
  | none => exact h.trans h'.symm
  | some a =>
    obtain ⟨l₀, rfl, hnodup, hpath⟩ := h
    obtain ⟨l₀', rfl, hnodup', hpath'⟩ := h'
    have hlast : ∀ l : List α, (l ++ [a]).Nodup → a ∉ l := fun l hl hmem ↦
      (nodup_append.1 hl).2.2 a hmem a (mem_singleton_self a) rfl
    rw [hpath.unique hpath' (hlast l₀ hnodup) (hlast l₀' hnodup')]

theorem IsRing.tail_isNone (h : IsRing next tail l) : tail = none ↔ l = [] := by
  cases tail with
  | none => exact iff_of_true rfl h
  | some a =>
    obtain ⟨l₀, rfl, -⟩ := h
    exact iff_of_false nofun (by simp)

theorem IsRing.congr (h : IsRing next tail l) (hl : ∀ x ∈ l, next' x = next x) : IsRing next' tail l := by
  cases tail with
  | none => exact h
  | some a =>
    obtain ⟨l₀, rfl, hnodup, hpath⟩ := h
    exact ⟨l₀, rfl, hnodup, hpath.congr (hl a (by simp)) fun z hz ↦ hl z (mem_append_left _ hz)⟩

theorem Path.isSome (h : Path next x l y) : ∀ z ∈ x :: l, (next z).isSome := by
  induction l generalizing x with
  | nil =>
    intro z hz
    rw [mem_singleton.1 hz, show next x = some y from h]
    rfl
  | cons w l ih =>
    intro z hz
    rcases mem_cons.1 hz with rfl | hz
    · rw [h.1]
      rfl
    · exact ih h.2 z hz

theorem IsRing.isSome (h : IsRing next tail l) (hx : x ∈ l) : (next x).isSome := by
  cases tail with
  | none => rw [show l = [] from h] at hx; cases hx
  | some a =>
    obtain ⟨l₀, rfl, -, hpath⟩ := h
    refine hpath.isSome x ?_
    rcases mem_append.1 hx with hx | hx
    · exact mem_cons_of_mem _ hx
    · rw [mem_singleton.1 hx]
      exact mem_cons_self

theorem ne_getLast_of_mem_dropLast (hnodup : l.Nodup) (hne : l ≠ []) (hx : x ∈ l.dropLast) : x ≠ l.getLast hne := by
  rw [← dropLast_append_getLast hne] at hnodup
  exact (nodup_append.1 hnodup).2.2 x hx _ mem_cons_self

/-! ### The operations -/

variable [DecidableEq α]

def insertTail (next : Links α) (tail : Option α) (t : α) : Links α × Option α :=
  match tail with
  | none => (update next t (some t), some t)
  | some a => (update (update next t (next a)) a (some t), some t)

/-- Unlink the first node of the ring with last node `a`. The result is `none` when `a` has no
link. -/
def popHead (next : Links α) (a : α) : Option (α × Links α × Option α) :=
  match next a with
  | none => none
  | some h =>
    if h = a then some (h, update next h none, none)
    else some (h, update (update next a (next h)) h none, some a)

def unlink (next : Links α) (tail prev cur : α) : Links α × Option α :=
  if cur = prev then (update next cur none, none)
  else (update (update next prev (next cur)) cur none, if tail = cur then some prev else some tail)

/-- Walk from `prev` and its successor `cur` to `t` and unlink it, or stop behind the last node. The
result is `none` when the walk runs into a null link or takes more than `fuel` steps. -/
def removeFrom (next : Links α) (t tail : α) : ℕ → α → Option α → Option (Option (Links α × Option α))
  | 0, _, _ => none
  | _ + 1, _, none => none
  | fuel + 1, prev, some cur =>
    if cur = t then some (some (unlink next tail prev cur))
    else if cur = tail then some none
    else removeFrom next t tail fuel cur (next cur)

/-- Unlink `t` if it is in the ring with last node `a`. -/
def remove (next : Links α) (a t : α) (fuel : ℕ) : Option (Option (Links α × Option α)) :=
  removeFrom next t a fuel a (next a)

/-! ### Insertion -/

theorem insertTail_spec (h : IsRing next tail l) (ht : t ∉ l) :
    IsRing (insertTail next tail t).1 (insertTail next tail t).2 (l ++ [t]) ∧ ((insertTail next tail t).1 t).isSome ∧
      ∀ x, x ∉ l → x ≠ t → (insertTail next tail t).1 x = next x := by
  cases tail with
  | none =>
    obtain rfl : l = [] := h
    refine ⟨⟨[], rfl, by simp, update_self ..⟩, ?_, fun x _ hxt ↦ ?_⟩
    · simp [insertTail]
    · exact update_of_ne hxt ..
  | some a =>
    obtain ⟨l₀, rfl, hnodup, hpath⟩ := h
    have hta : t ≠ a := fun heq ↦ ht (by simp [heq])
    have hnext : (insertTail next (some a) t).1 t = next a := by simp [insertTail, update_of_ne hta]
    have hold : ∀ x, x ≠ a → x ≠ t → (insertTail next (some a) t).1 x = next x := fun x hxa hxt ↦ by
      simp only [insertTail, update_of_ne hxa, update_of_ne hxt]
    refine ⟨⟨l₀ ++ [a], rfl, ?_, ?_⟩, ?_, fun x hx hxt ↦ ?_⟩
    · exact nodup_append.2 ⟨hnodup, nodup_singleton t, by
        rintro x hx y hy rfl
        exact ht (mem_singleton.1 hy ▸ hx)⟩
    · refine path_append.2 ⟨hpath.enter hnext fun z hz ↦ hold z ?_ ?_, update_self ..⟩
      · rintro rfl
        exact (nodup_append.1 hnodup).2.2 z hz z (by simp) rfl
      · rintro rfl
        exact ht (mem_append_left _ hz)
    · rw [hnext]
      exact hpath.isSome a mem_cons_self
    · exact hold x (fun heq ↦ hx (by simp [heq])) hxt

/-! ### Taking the first node -/

theorem popHead_spec {h : α} (hring : IsRing next (some a) (h :: l)) :
    ∃ next' tail', popHead next a = some (h, next', tail') ∧ IsRing next' tail' l ∧
      next' h = none ∧ ∀ x, x ∉ h :: l → next' x = next x := by
  obtain ⟨l₀, heq, hnodup, hpath⟩ := hring
  cases l₀ with
  | nil =>
    obtain ⟨rfl, rfl⟩ : h = a ∧ l = [] := by simpa using heq
    have hnext : next h = some h := hpath
    refine ⟨update next h none, none, ?_, rfl, update_self .., fun x hx ↦ ?_⟩
    · simp [popHead, hnext]
    · exact update_of_ne (fun heq ↦ hx (by simp [heq])) ..
  | cons w l₁ =>
    obtain ⟨rfl, rfl⟩ : h = w ∧ l = l₁ ++ [a] := by simpa using heq
    obtain ⟨hnext, hpath⟩ := hpath
    have hha : h ≠ a := fun heq ↦ (nodup_cons.1 hnodup).1 (by simp [heq])
    have hold : ∀ x, x ≠ a → x ≠ h → update (update next a (next h)) h none x = next x := fun x hxa hxh ↦ by
      rw [update_of_ne hxh, update_of_ne hxa]
    refine ⟨update (update next a (next h)) h none, some a, ?_, ?_, update_self .., fun x hx ↦ ?_⟩
    · simp only [popHead, hnext, if_neg hha]
    · refine ⟨l₁, rfl, (nodup_cons.1 hnodup).2, hpath.enter ?_ fun z hz ↦ hold z ?_ ?_⟩
      · rw [update_of_ne hha.symm, update_self]
      · rintro rfl
        exact (nodup_append.1 (nodup_cons.1 hnodup).2).2.2 z hz z (by simp) rfl
      · rintro rfl
        exact (nodup_cons.1 hnodup).1 (mem_append_left _ hz)
    · exact hold x (fun heq ↦ hx (by simp [heq])) fun heq ↦ hx (by simp [heq])

/-! ### Removal -/

theorem removeFrom_of_path (ht : t ∉ l) (ha : a ∉ l) {prev : α} (hpath : Path next prev l x) (hx : x = t ∨ x = a)
    (hfuel : l.length < fuel) : removeFrom next t a fuel prev (next prev) =
      some (if x = t then some (unlink next a ((prev :: l).getLast (cons_ne_nil _ _)) t) else none) := by
  -- Induction on the nodes between `prev` and `x`.
  induction l generalizing prev fuel with
  | nil =>
    obtain ⟨fuel, rfl⟩ := Nat.exists_eq_succ_of_ne_zero (Nat.ne_of_gt hfuel)
    rw [show next prev = some x from hpath, removeFrom]
    split_ifs with hxt hxa
    · rw [hxt]
      rfl
    · rfl
    · exact absurd hx (not_or.2 ⟨hxt, hxa⟩)
  | cons z l ih =>
    obtain ⟨fuel, rfl⟩ := Nat.exists_eq_succ_of_ne_zero (Nat.ne_of_gt (Nat.zero_lt_of_lt hfuel))
    have hzt : z ≠ t := fun heq ↦ ht (by simp [heq])
    have hza : z ≠ a := fun heq ↦ ha (by simp [heq])
    rw [hpath.1, removeFrom, if_neg hzt, if_neg hza,
      ih (fun h ↦ ht (mem_cons_of_mem _ h)) (fun h ↦ ha (mem_cons_of_mem _ h)) hpath.2
        (Nat.lt_of_succ_lt_succ hfuel), getLast_cons (cons_ne_nil z l)]

theorem unlink_links (next : Links α) (a : α) {p : α} (htp : t ≠ p) :
    (unlink next a p t).1 p = next t ∧ (unlink next a p t).1 t = none ∧
      ∀ x, x ≠ p → x ≠ t → (unlink next a p t).1 x = next x := by
  simp only [unlink, if_neg htp]
  refine ⟨?_, update_self .., fun x hxp hxt ↦ ?_⟩
  · rw [update_of_ne htp.symm, update_self]
  · rw [update_of_ne hxt, update_of_ne hxp]

/-- **Unlinking erases** the node: here the last one. -/
theorem unlink_last (hring : IsRing next (some t) (l₁ ++ [t])) :
    IsRing (unlink next t ((t :: l₁).getLast (cons_ne_nil _ _)) t).1
        (unlink next t ((t :: l₁).getLast (cons_ne_nil _ _)) t).2 l₁ ∧
      (unlink next t ((t :: l₁).getLast (cons_ne_nil _ _)) t).1 t = none ∧
      ∀ x, x ∉ l₁ ++ [t] → (unlink next t ((t :: l₁).getLast (cons_ne_nil _ _)) t).1 x = next x := by
  obtain ⟨l₀, heq, hnodup, hpath⟩ := hring
  obtain rfl : l₁ = l₀ := append_cancel_right heq
  rcases eq_nil_or_concat' l₁ with rfl | ⟨l, p, rfl⟩
  · simp only [unlink, getLast_singleton, if_true]
    exact ⟨rfl, update_self .., fun x hx ↦ update_of_ne (fun heq ↦ hx (by simp [heq])) ..⟩
  · obtain ⟨hnodup₁, -, hapart⟩ := nodup_append.1 hnodup
    have hpt : t ≠ p := fun h ↦ hapart p (by simp) t (by simp) h.symm
    have hlast : (t :: (l ++ [p])).getLast (cons_ne_nil _ _) = p := by simp
    obtain ⟨hp, ht, hold⟩ := unlink_links next t hpt
    rw [hlast]
    refine ⟨?_, ht, fun x hx ↦ hold x ?_ ?_⟩
    · rw [show (unlink next t p t).2 = some p by simp [unlink, hpt]]
      refine ⟨l, rfl, hnodup₁, (path_append.1 hpath).1.enter hp fun z hz ↦ hold z ?_ ?_⟩
      · exact (nodup_append.1 hnodup₁).2.2 z hz p (by simp)
      · exact hapart z (mem_append_left _ hz) t (by simp)
    · rintro rfl
      exact hx (by simp)
    · rintro rfl
      exact hx (by simp)

/-- **Unlinking erases** the node: here one with others behind it. -/
theorem unlink_inner (hring : IsRing next (some a) (l₁ ++ t :: (l₂ ++ [a]))) :
    IsRing (unlink next a ((a :: l₁).getLast (cons_ne_nil _ _)) t).1
        (unlink next a ((a :: l₁).getLast (cons_ne_nil _ _)) t).2 (l₁ ++ (l₂ ++ [a])) ∧
      (unlink next a ((a :: l₁).getLast (cons_ne_nil _ _)) t).1 t = none ∧
      ∀ x, x ∉ l₁ ++ t :: (l₂ ++ [a]) → (unlink next a ((a :: l₁).getLast (cons_ne_nil _ _)) t).1 x = next x := by
  obtain ⟨l₀, heq, hnodup, hpath⟩ := hring
  have hsplit : (l₁ ++ t :: l₂) ++ [a] = l₀ ++ [a] := by simpa using heq
  obtain rfl := append_cancel_right hsplit
  obtain ⟨hpath₁, hpath₂⟩ := path_append.1 hpath
  obtain ⟨hnodup₁, hnodup₂, hapart⟩ := nodup_append.1 hnodup
  obtain ⟨ht₂, hnodup₂⟩ := nodup_cons.1 hnodup₂
  have hat : a ≠ t := fun h ↦ ht₂ (by simp [← h])
  have ha₁ : a ∉ l₁ := fun h ↦ hapart a h a (by simp) rfl
  -- The node in front of `t` is `a` or one of `l₁`.
  have hp := getLast_mem (cons_ne_nil a l₁)
  have hdrop : ∀ z ∈ (a :: l₁).dropLast, z ≠ (a :: l₁).getLast (cons_ne_nil _ _) :=
    fun z hz ↦ ne_getLast_of_mem_dropLast (nodup_cons.2 ⟨ha₁, hnodup₁⟩) _ hz
  generalize hpl : (a :: l₁).getLast (cons_ne_nil a l₁) = p at hp hdrop ⊢
  have hmem : ∀ z ∈ a :: l₁, z ≠ t ∧ z ∉ l₂ := by
    intro z hz
    rcases mem_cons.1 hz with rfl | hz
    · exact ⟨hat, fun h ↦ (nodup_append.1 hnodup₂).2.2 z h z (by simp) rfl⟩
    · exact ⟨fun h ↦ hapart z hz t (by simp) h, fun h ↦ hapart z hz z (by simp [h]) rfl⟩
  have hpt : t ≠ p := (hmem p hp).1.symm
  obtain ⟨hnp, hnt, hold⟩ := unlink_links next a hpt
  refine ⟨?_, hnt, fun x hx ↦ hold x ?_ ?_⟩
  · rw [show (unlink next a p t).2 = some a by simp [unlink, hpt, hat]]
    refine ⟨l₁ ++ l₂, by simp, ?_, hpath₁.skip hpath₂ (hpl ▸ hnp) (fun z hz ↦ hold z (hdrop z hz) ?_)
      fun z hz ↦ hold z ?_ ?_⟩
    · exact nodup_append.2 ⟨hnodup₁, hnodup₂, fun x hx y hy ↦ hapart x hx y (mem_cons_of_mem _ hy)⟩
    · exact (hmem z (dropLast_subset _ hz)).1
    · rintro rfl
      exact (hmem z hp).2 hz
    · rintro rfl
      exact ht₂ (mem_append_left _ hz)
  · rintro rfl
    rcases mem_cons.1 hp with rfl | hp
    · exact hx (by simp)
    · exact hx (mem_append_left _ hp)
  · rintro rfl
    exact hx (by simp)

theorem remove_spec (hring : IsRing next (some a) l) (ht : t ∈ l) (hfuel : l.length ≤ fuel) :
    ∃ next' tail', remove next a t fuel = some (some (next', tail')) ∧
      IsRing next' tail' (l.erase t) ∧ next' t = none ∧ ∀ x, x ∉ l → next' x = next x := by
  obtain ⟨l₁, l₂, rfl⟩ := append_of_mem ht
  have hnodup := hring.nodup
  have ht₁ : t ∉ l₁ := fun h ↦ (nodup_append.1 hnodup).2.2 t h t mem_cons_self rfl
  have herase : (l₁ ++ t :: l₂).erase t = l₁ ++ l₂ := by rw [erase_append_right _ ht₁, erase_cons_head]
  have hlen : l₁.length < fuel := by
    rw [length_append, length_cons] at hfuel
    omega
  rw [herase]
  rcases eq_nil_or_concat' l₂ with rfl | ⟨l₂, b, rfl⟩
  · obtain ⟨l₀, heq, -, hpath⟩ := id hring
    obtain ⟨rfl, hta⟩ := append_inj' heq rfl
    obtain rfl : t = a := by simpa using hta
    obtain ⟨h₁, h₂, h₃⟩ := unlink_last hring
    have hremove := removeFrom_of_path ht₁ ht₁ hpath (.inl rfl) hlen
    rw [if_pos rfl] at hremove
    exact ⟨_, _, hremove, by rwa [append_nil], h₂, h₃⟩
  · obtain ⟨l₀, heq, -, hpath⟩ := id hring
    have hsplit : (l₁ ++ t :: l₂) ++ [b] = l₀ ++ [a] := by simpa using heq
    obtain ⟨rfl, hba⟩ := append_inj' hsplit rfl
    obtain rfl : b = a := by simpa using hba
    have hb₁ : b ∉ l₁ := fun h ↦ (nodup_append.1 hnodup).2.2 b h b (by simp) rfl
    obtain ⟨h₁, h₂, h₃⟩ := unlink_inner hring
    have hremove := removeFrom_of_path ht₁ hb₁ (path_append.1 hpath).1 (.inl rfl) hlen
    rw [if_pos rfl] at hremove
    exact ⟨_, _, hremove, h₁, h₂, h₃⟩

theorem remove_of_not_mem (hring : IsRing next (some a) l) (ht : t ∉ l) (hfuel : l.length ≤ fuel) :
    remove next a t fuel = some none := by
  obtain ⟨l₀, rfl, hnodup, hpath⟩ := hring
  have ha : a ∉ l₀ := fun h ↦ (nodup_append.1 hnodup).2.2 a h a mem_cons_self rfl
  rw [length_append, length_singleton] at hfuel
  rw [remove, removeFrom_of_path (fun h ↦ ht (mem_append_left _ h)) ha hpath (.inr rfl) hfuel, if_neg]
  rintro rfl
  exact ht (by simp)

end LinkRing
