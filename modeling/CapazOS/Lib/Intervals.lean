import Mathlib.Order.MinMax
import Mathlib.Data.List.Basic
import Mathlib.Tactic.Common

/-!
# Lists of half-open intervals

Intervals `[lo, hi)` of a linear order, as pairs, and three passes over lists of them, each
described by the points its result **covers**: `sortBy` permutes its list; `merge` covers the points
of its list, and its result is **separated**; `subtract` covers the points of the first list outside
the second. Intervals may be empty, and they may overlap.
-/

namespace Intervals

open List

variable {α : Type*} [LinearOrder α]
variable {l out rs : List (α × α)} {P Q : α → Prop}

/-! ### Selection sort -/

section

variable {β : Type*} (key : β → α)

/-- Where the first least key of the list stands, if it is below that of `x`: a scan that keeps the
least element seen so far. -/
def minAt : β → List β → Option ℕ
  | _, [] => none
  | x, y :: ys =>
    if key y < key x then some (((minAt y ys).map (· + 1)).getD 0) else (minAt x ys).map (· + 1)

/-- Selection sort: the least element changes places with the first one. -/
def sortLoop : ℕ → List β → List β
  | 0, l => l
  | _ + 1, [] => []
  | n + 1, x :: xs =>
    match minAt key x xs with
    | none => x :: sortLoop n xs
    | some k => xs.getD k x :: sortLoop n (xs.set k x)

def sortBy (l : List β) : List β := sortLoop key l.length l

theorem minAt_spec (x : β) (xs : List β) : match minAt key x xs with
    | none => ∀ y ∈ xs, key x ≤ key y
    | some k => k < xs.length ∧ key (xs.getD k x) < key x ∧ ∀ y ∈ xs, key (xs.getD k x) ≤ key y := by
  induction xs generalizing x with
  | nil => exact fun _ hy ↦ nomatch hy
  | cons y ys ih =>
    rw [minAt]
    split_ifs with hlt
    · specialize ih y
      rcases hmin : minAt key y ys with - | k
      · rw [hmin] at ih
        exact ⟨Nat.succ_pos _, hlt, forall_mem_cons.2 ⟨le_rfl, ih⟩⟩
      · rw [hmin] at ih
        obtain ⟨hk, hbelow, hleast⟩ := ih
        have hget : (y :: ys).getD (k + 1) x = ys.getD k y := by
          rw [getD_cons_succ, getD_eq_getElem?_getD, getD_eq_getElem?_getD,
            getElem?_eq_getElem hk, Option.getD_some, Option.getD_some]
        refine ⟨Nat.succ_lt_succ hk, ?_, ?_⟩
        · show key ((y :: ys).getD (k + 1) x) < key x
          rw [hget]
          exact hbelow.trans hlt
        · show ∀ z ∈ y :: ys, key ((y :: ys).getD (k + 1) x) ≤ key z
          rw [hget]
          exact forall_mem_cons.2 ⟨hbelow.le, hleast⟩
    · specialize ih x
      have hle : key x ≤ key y := le_of_not_gt hlt
      rcases hmin : minAt key x ys with - | k
      · rw [hmin] at ih
        exact forall_mem_cons.2 ⟨hle, ih⟩
      · rw [hmin] at ih
        obtain ⟨hk, hbelow, hleast⟩ := ih
        refine ⟨Nat.succ_lt_succ hk, ?_, ?_⟩
        · exact hbelow
        · exact forall_mem_cons.2 ⟨hbelow.le.trans hle, hleast⟩

theorem getD_cons_set_perm (x : β) {xs : List β} {k : ℕ} (hk : k < xs.length) :
    (xs.getD k x :: xs.set k x).Perm (x :: xs) := by
  induction xs generalizing k with
  | nil => exact absurd hk (Nat.not_lt_zero k)
  | cons y ys ih =>
    cases k with
    | zero => exact List.Perm.swap x y ys
    | succ k =>
      have hrest := ih (Nat.lt_of_succ_lt_succ hk)
      exact (List.Perm.swap _ _ _).trans ((hrest.cons y).trans (List.Perm.swap _ _ _))

theorem sortLoop_perm {n : ℕ} {l : List β} : (sortLoop key n l).Perm l := by
  induction n generalizing l with
  | zero => exact .refl _
  | succ n ih =>
    cases l with
    | nil => exact .refl _
    | cons x xs =>
      have hspec := minAt_spec key x xs
      rw [sortLoop]
      rcases hmin : minAt key x xs with - | k
      · exact ih.cons x
      · rw [hmin] at hspec
        exact (ih.cons _).trans (getD_cons_set_perm x hspec.1)

theorem sortLoop_sorted {n : ℕ} {l : List β} (hn : l.length ≤ n) :
    (sortLoop key n l).Pairwise fun a b ↦ key a ≤ key b := by
  induction n generalizing l with
  | zero =>
    obtain rfl := length_eq_zero_iff.1 (Nat.le_zero.1 hn)
    exact .nil
  | succ n ih =>
    cases l with
    | nil => exact .nil
    | cons x xs =>
      have hlen : xs.length ≤ n := Nat.le_of_succ_le_succ hn
      have hspec := minAt_spec key x xs
      rw [sortLoop]
      rcases hmin : minAt key x xs with - | k
      · rw [hmin] at hspec
        exact pairwise_cons.2 ⟨fun y hy ↦ hspec y ((sortLoop_perm key).mem_iff.1 hy), ih hlen⟩
      · rw [hmin] at hspec
        obtain ⟨-, hbelow, hleast⟩ := hspec
        refine pairwise_cons.2 ⟨fun y hy ↦ ?_, ih (by rwa [length_set])⟩
        rcases mem_or_eq_of_mem_set ((sortLoop_perm key).mem_iff.1 hy) with hy | rfl
        · exact hleast y hy
        · exact hbelow.le

theorem sortBy_perm (l : List β) : (sortBy key l).Perm l := sortLoop_perm key

theorem sortBy_sorted (l : List β) : (sortBy key l).Pairwise fun a b ↦ key a ≤ key b :=
  sortLoop_sorted key le_rfl

end

/-! ### Covered points -/

def Covers (l : List (α × α)) (x : α) : Prop := ∃ r ∈ l, r.1 ≤ x ∧ x < r.2

@[simp] theorem covers_nil (x : α) : ¬Covers [] x := fun ⟨_, hr, _⟩ ↦ nomatch hr

@[simp] theorem covers_cons (r : α × α) (l : List (α × α)) (x : α) :
    Covers (r :: l) x ↔ (r.1 ≤ x ∧ x < r.2) ∨ Covers l x := exists_mem_cons_iff ..

@[simp] theorem covers_append (l l' : List (α × α)) (x : α) : Covers (l ++ l') x ↔ Covers l x ∨ Covers l' x := by
  induction l with
  | nil => simp
  | cons r l ih => rw [cons_append, covers_cons, covers_cons, ih, or_assoc]

theorem Covers.perm {l' : List (α × α)} (h : l.Perm l') (x : α) : Covers l x ↔ Covers l' x := by
  simp only [Covers, h.mem_iff]

def LowSorted (l : List (α × α)) : Prop := l.Pairwise fun a b ↦ a.1 ≤ b.1

theorem not_covers_of_lt {x : α} (h : ∀ r ∈ l, x < r.1) : ¬Covers l x :=
  fun ⟨r, hr, hle, _⟩ ↦ absurd hle (not_le_of_gt (h r hr))

/-! ### Merging -/

/-- **Separated** intervals: nonempty, in order, and with a gap before each. -/
structure Separated (l : List (α × α)) : Prop where
  gaps : l.Pairwise fun a b ↦ a.2 < b.1
  nonempty : ∀ r ∈ l, r.1 < r.2

theorem Separated.lowSorted (h : Separated l) : LowSorted l :=
  h.gaps.imp_of_mem fun ha _ hab ↦ ((h.nonempty _ ha).trans hab).le

def mergeStep : List (α × α) → α × α → List (α × α)
  | [], r => if r.1 < r.2 then [r] else []
  | p :: out, r =>
    if r.1 < r.2 then
      if r.1 ≤ p.2 then (p.1, max p.2 r.2) :: out else r :: p :: out
    else p :: out

def merge (l : List (α × α)) : List (α × α) := (l.foldl mergeStep []).reverse

/-- The intervals so far are separated, and the rest starts behind the start of the last one. -/
structure MergeInv (out rest : List (α × α)) : Prop where
  sep : Separated out.reverse
  next : ∀ p ∈ out.head?, ∀ r ∈ rest, p.1 ≤ r.1

theorem separated_reverse_cons {p : α × α} : Separated (p :: out).reverse ↔
      Separated out.reverse ∧ p.1 < p.2 ∧ ∀ q ∈ out, q.2 < p.1 := by
  simp only [reverse_cons]
  constructor
  · rintro ⟨hgaps, hne⟩
    rw [pairwise_append] at hgaps
    exact ⟨⟨hgaps.1, fun r hr ↦ hne r (mem_append_left _ hr)⟩, hne p (by simp),
      fun q hq ↦ hgaps.2.2 q (mem_reverse.2 hq) p (mem_singleton.2 rfl)⟩
  · rintro ⟨⟨hgaps, hne⟩, hp, hq⟩
    refine ⟨pairwise_append.2 ⟨hgaps, pairwise_singleton _ _, fun a ha b hb ↦ ?_⟩, fun r hr ↦ ?_⟩
    · obtain rfl := mem_singleton.1 hb
      exact hq a (mem_reverse.1 ha)
    · rcases mem_append.1 hr with hr | hr
      · exact hne r hr
      · obtain rfl := mem_singleton.1 hr
        exact hp

theorem mergeStep_spec {rest : List (α × α)} {r : α × α} (h : MergeInv out (r :: rest))
    (hrest : ∀ r' ∈ rest, r.1 ≤ r'.1) :
    MergeInv (mergeStep out r) rest ∧ ∀ x, Covers (mergeStep out r) x ↔ Covers out x ∨ (r.1 ≤ x ∧ x < r.2) := by
  obtain ⟨hsep, hnext⟩ := h
  have hold : ∀ p ∈ out.head?, ∀ r' ∈ rest, p.1 ≤ r'.1 := fun p hp r' hr' ↦ hnext p hp r' (mem_cons_of_mem _ hr')
  by_cases hne : r.1 < r.2
  swap
  · have hsame : mergeStep out r = out := by cases out <;> exact if_neg hne
    rw [hsame]
    refine ⟨⟨hsep, hold⟩, fun x ↦ ⟨.inl, ?_⟩⟩
    rintro (hx | ⟨hle, hlt⟩)
    · exact hx
    · exact absurd (hle.trans_lt hlt) hne
  cases out with
  | nil =>
    rw [mergeStep, if_pos hne]
    refine ⟨⟨separated_reverse_cons.2 ⟨hsep, hne, fun _ hq ↦ nomatch hq⟩, ?_⟩, fun x ↦ by simp⟩
    rintro p hp r' hr'
    obtain rfl := Option.some.inj hp
    exact hrest r' hr'
  | cons p out =>
    obtain ⟨hout, hp, hgap⟩ := separated_reverse_cons.1 hsep
    have hle : p.1 ≤ r.1 := hnext p rfl r mem_cons_self
    rw [mergeStep, if_pos hne]
    split_ifs with htouch
    · refine ⟨⟨separated_reverse_cons.2 ⟨hout, lt_max_of_lt_left hp, hgap⟩, ?_⟩, fun x ↦ ?_⟩
      · rintro q hq r' hr'
        obtain rfl := Option.some.inj hq
        exact hold p rfl r' hr'
      · simp only [covers_cons, lt_max_iff]
        constructor
        · rintro (⟨hlo, hhi | hhi⟩ | hx)
          · exact .inl (.inl ⟨hlo, hhi⟩)
          · rcases lt_or_ge x p.2 with hlt | hge
            · exact .inl (.inl ⟨hlo, hlt⟩)
            · exact .inr ⟨htouch.trans hge, hhi⟩
          · exact .inl (.inr hx)
        · rintro ((⟨hlo, hhi⟩ | hx) | ⟨hlo, hhi⟩)
          · exact .inl ⟨hlo, .inl hhi⟩
          · exact .inr hx
          · exact .inl ⟨hle.trans hlo, .inr hhi⟩
    · have hlt : p.2 < r.1 := lt_of_not_ge htouch
      refine ⟨⟨separated_reverse_cons.2 ⟨hsep, hne, ?_⟩, ?_⟩, fun x ↦ ?_⟩
      · exact forall_mem_cons.2 ⟨hlt, fun q hq ↦ (hgap q hq).trans (hp.trans hlt)⟩
      · rintro q hq r' hr'
        obtain rfl := Option.some.inj hq
        exact hrest r' hr'
      · rw [covers_cons, or_comm]

theorem foldl_mergeStep_spec {rest : List (α × α)} (hsorted : LowSorted rest) (h : MergeInv out rest) :
    Separated (rest.foldl mergeStep out).reverse ∧
      ∀ x, Covers (rest.foldl mergeStep out) x ↔ Covers out x ∨ Covers rest x := by
  induction rest generalizing out with
  | nil => exact ⟨h.sep, fun x ↦ by simp⟩
  | cons r rest ih =>
    obtain ⟨hr, hrest⟩ := pairwise_cons.1 hsorted
    obtain ⟨hinv, hcov⟩ := mergeStep_spec h hr
    obtain ⟨hsep, hcov'⟩ := ih hrest hinv
    refine ⟨hsep, fun x ↦ ?_⟩
    rw [foldl_cons, hcov', hcov, covers_cons, or_assoc]

theorem mergeInv_nil (rest : List (α × α)) : MergeInv [] rest :=
  ⟨⟨.nil, fun _ hr ↦ nomatch hr⟩, fun _ hp ↦ nomatch hp⟩

theorem separated_merge (h : LowSorted l) : Separated (merge l) :=
  (foldl_mergeStep_spec h (mergeInv_nil l)).1

theorem covers_merge (h : LowSorted l) (x : α) : Covers (merge l) x ↔ Covers l x := by
  rw [merge, Covers.perm (reverse_perm _), (foldl_mergeStep_spec h (mergeInv_nil l)).2]
  simp

/-- A property of the ends of intervals that the intervals of a list have, those of the merge
have. -/
theorem merge_forall (h : ∀ r ∈ l, P r.1 ∧ Q r.2) : ∀ r ∈ merge l, P r.1 ∧ Q r.2 := by
  have hfold : ∀ {out rest : List (α × α)}, (∀ r ∈ out, P r.1 ∧ Q r.2) →
      (∀ r ∈ rest, P r.1 ∧ Q r.2) → ∀ r ∈ rest.foldl mergeStep out, P r.1 ∧ Q r.2 := by
    intro out rest hout hrest
    induction rest generalizing out with
    | nil => exact hout
    | cons r rest ih =>
      obtain ⟨hr, hrest⟩ := forall_mem_cons.1 hrest
      refine ih ?_ hrest
      cases out with
      | nil =>
        rw [mergeStep]
        split_ifs
        · exact forall_mem_cons.2 ⟨hr, hout⟩
        · exact hout
      | cons p out =>
        obtain ⟨hp, hout'⟩ := forall_mem_cons.1 hout
        rw [mergeStep]
        split_ifs
        · exact forall_mem_cons.2 ⟨⟨hp.1, max_rec' Q hp.2 hr.2⟩, hout'⟩
        · exact forall_mem_cons.2 ⟨hr, hout⟩
        · exact hout
  intro r hr
  exact @hfold [] l (by simp) h r (mem_reverse.1 hr)

/-! ### Cutting -/

def piece (lo hi : α) : List (α × α) := if lo < hi then [(lo, hi)] else []

@[simp] theorem covers_piece (lo hi x : α) : Covers (piece lo hi) x ↔ lo ≤ x ∧ x < hi := by
  rw [piece]
  split_ifs with h
  · simp
  · simp only [covers_nil, false_iff]
    exact fun hx ↦ h (hx.1.trans_lt hx.2)

/-- The pieces of `[cur, hi)` outside the holes, which are looked at up to `hi`. -/
def cut (hi : α) : List (α × α) → α → List (α × α)
  | [], cur => piece cur hi
  | r :: rs, cur =>
    if r.1 < hi then
      piece cur r.1 ++ if hi ≤ max cur r.2 then [] else cut hi rs (max cur r.2)
    else piece cur hi

theorem covers_cut {hi cur : α} (hsorted : LowSorted rs) (hcur : cur < hi) (x : α) :
    Covers (cut hi rs cur) x ↔ (cur ≤ x ∧ x < hi) ∧ ¬Covers rs x := by
  induction rs generalizing cur with
  | nil => simp [cut]
  | cons r rs ih =>
    obtain ⟨hr, hrs⟩ := pairwise_cons.1 hsorted
    -- the holes behind `r` cover nothing below it
    have hbelow : x < r.1 → ¬Covers rs x := fun hx ↦ not_covers_of_lt fun r' hr' ↦ hx.trans_le (hr r' hr')
    rw [cut]
    split_ifs with hlow hdone
    · simp only [append_nil, covers_piece, covers_cons, not_or, not_and, not_lt]
      have hend : hi ≤ r.2 := (le_max_iff.1 hdone).resolve_left (not_le_of_gt hcur)
      constructor
      · rintro ⟨hlo, hlt⟩
        exact ⟨⟨hlo, hlt.trans hlow⟩, fun hle ↦ absurd hle (not_le_of_gt hlt), hbelow hlt⟩
      · rintro ⟨⟨hlo, hhi⟩, hnot, -⟩
        exact ⟨hlo, lt_of_not_ge fun hge ↦ absurd (hend.trans (hnot hge)) (not_le_of_gt hhi)⟩
    · rw [covers_append, covers_piece, ih hrs (lt_of_not_ge hdone), covers_cons, max_le_iff]
      constructor
      · rintro (⟨hlo, hlt⟩ | ⟨⟨⟨hlo, hend⟩, hhi⟩, hnot⟩)
        · exact ⟨⟨hlo, hlt.trans hlow⟩, not_or.2 ⟨fun hin ↦ absurd hin.1 (not_le_of_gt hlt), hbelow hlt⟩⟩
        · exact ⟨⟨hlo, hhi⟩, not_or.2 ⟨fun hin ↦ absurd hin.2 (not_lt_of_ge hend), hnot⟩⟩
      · rintro ⟨⟨hlo, hhi⟩, hnot⟩
        obtain ⟨hout, hnot⟩ := not_or.1 hnot
        rcases lt_or_ge x r.1 with hlt | hge
        · exact .inl ⟨hlo, hlt⟩
        · exact .inr ⟨⟨⟨hlo, le_of_not_gt fun hlt ↦ hout ⟨hge, hlt⟩⟩, hhi⟩, hnot⟩
    · have hge : hi ≤ r.1 := le_of_not_gt hlow
      rw [covers_piece]
      refine ⟨fun hx ↦ ⟨hx, ?_⟩, fun hx ↦ hx.1⟩
      exact not_covers_of_lt (forall_mem_cons.2 ⟨hx.2.trans_le hge, fun r' hr' ↦ hx.2.trans_le (hge.trans (hr r' hr'))⟩)

theorem cut_forall {hi cur : α} (hcur : P cur) (hhi : Q hi) (hrs : ∀ r ∈ rs, Q r.1 ∧ P r.2) :
    ∀ r ∈ cut hi rs cur, (P r.1 ∧ Q r.2) ∧ r.1 < r.2 := by
  have hpiece : ∀ {lo hi : α}, P lo → Q hi → ∀ r ∈ piece lo hi, (P r.1 ∧ Q r.2) ∧ r.1 < r.2 := by
    intro lo hi hlo hhi r hr
    rw [piece] at hr
    split_ifs at hr with hlt
    · obtain rfl := mem_singleton.1 hr
      exact ⟨⟨hlo, hhi⟩, hlt⟩
    · cases hr
  induction rs generalizing cur with
  | nil => exact hpiece hcur hhi
  | cons r rs ih =>
    obtain ⟨hr, hrs⟩ := forall_mem_cons.1 hrs
    rw [cut]
    split_ifs with hlow hdone
    · rw [append_nil]
      exact hpiece hcur hr.1
    · intro r' hr'
      rcases mem_append.1 hr' with hr' | hr'
      · exact hpiece hcur hr.1 r' hr'
      · exact ih (max_rec' P hcur hr.2) hrs r' hr'
    · exact hpiece hcur hhi

/-- Cutting holes out of intervals: the holes that end before an interval starts are passed for
good. -/
def subtract : List (α × α) → List (α × α) → List (α × α)
  | [], _ => []
  | m :: ms, rs =>
    if m.1 < m.2 then
      let rs := rs.dropWhile fun r ↦ r.2 ≤ m.1
      cut m.2 rs m.1 ++ subtract ms rs
    else subtract ms rs

theorem covers_dropWhile {lo x : α} (hx : lo ≤ x) :
    Covers (rs.dropWhile fun r ↦ decide (r.2 ≤ lo)) x ↔ Covers rs x := by
  induction rs with
  | nil => rfl
  | cons r rs ih =>
    rw [dropWhile_cons]
    split_ifs with hend
    · rw [ih, covers_cons, or_iff_right]
      exact fun hin ↦ absurd hin.2 (not_lt_of_ge ((of_decide_eq_true hend).trans hx))
    · rfl

theorem covers_subtract {ms : List (α × α)} (hms : LowSorted ms) (hrs : LowSorted rs) (x : α) :
    Covers (subtract ms rs) x ↔ Covers ms x ∧ ¬Covers rs x := by
  induction ms generalizing rs with
  | nil => simp [subtract]
  | cons m ms ih =>
    obtain ⟨hm, hms⟩ := pairwise_cons.1 hms
    rw [subtract]
    split_ifs with hne
    · have hdrop : LowSorted (rs.dropWhile fun r ↦ decide (r.2 ≤ m.1)) := hrs.sublist (dropWhile_sublist _)
      rw [covers_append, covers_cut hdrop hne, ih hms hdrop, covers_cons]
      constructor
      · rintro (⟨hin, hnot⟩ | ⟨⟨m', hm', hin⟩, hnot⟩)
        · exact ⟨.inl hin, fun hcov ↦ hnot ((covers_dropWhile hin.1).2 hcov)⟩
        · exact ⟨.inr ⟨m', hm', hin⟩, fun hcov ↦ hnot ((covers_dropWhile ((hm m' hm').trans hin.1)).2 hcov)⟩
      · rintro ⟨hin | ⟨m', hm', hin⟩, hnot⟩
        · exact .inl ⟨hin, fun hcov ↦ hnot ((covers_dropWhile hin.1).1 hcov)⟩
        · exact .inr ⟨⟨m', hm', hin⟩, fun hcov ↦ hnot ((covers_dropWhile ((hm m' hm').trans hin.1)).1 hcov)⟩
    · rw [ih hms hrs, covers_cons, or_iff_right]
      exact fun hin ↦ hne (hin.1.trans_lt hin.2)

theorem subtract_forall {ms : List (α × α)} (hms : ∀ m ∈ ms, P m.1 ∧ Q m.2) (hrs : ∀ r ∈ rs, Q r.1 ∧ P r.2) :
    ∀ r ∈ subtract ms rs, (P r.1 ∧ Q r.2) ∧ r.1 < r.2 := by
  induction ms generalizing rs with
  | nil => exact fun _ hr ↦ nomatch hr
  | cons m ms ih =>
    obtain ⟨hm, hms⟩ := forall_mem_cons.1 hms
    rw [subtract]
    split_ifs with hne
    · have hdrop : ∀ r ∈ rs.dropWhile fun r ↦ decide (r.2 ≤ m.1), Q r.1 ∧ P r.2 := fun r hr ↦
        hrs r ((dropWhile_sublist _).mem hr)
      intro r hr
      rcases mem_append.1 hr with hr | hr
      · exact cut_forall hm.1 hm.2 hdrop r hr
      · exact ih hms hdrop r hr
    · exact ih hms hrs

end Intervals
