import CapazOS.Lib.Bytes
import Mathlib.Data.List.Nodup
import Mathlib.Order.Interval.Finset.Nat

/-!
# Byte-addressed memory and lists threaded through it

A memory gives every address a byte. Words are little-endian windows of it: `load` reads one and
`store` writes one; `fill` is `memset`. A client needs two kinds of facts only: a window that was
written reads back, and **a write leaves every byte outside its window alone**
(`write_of_notMem`).

`Threaded` says that a pointer is the head of a list whose links are stored in the first word of the
nodes themselves, as an allocator threads its free blocks.
-/

namespace ByteMem

open List hiding Disjoint
open CapazOS

variable {a x n v head : ℕ} {l : List ℕ}

abbrev Mem := ℕ → UInt8

variable {m m' : Mem}

def window (m : Mem) (a n : ℕ) : Bytes := (range n).map fun i ↦ m (a + i)

def write (m : Mem) (a : ℕ) (bs : Bytes) : Mem :=
  fun x ↦ if a ≤ x ∧ x < a + bs.length then bs.getD (x - a) 0 else m x

def load (m : Mem) (a n : ℕ) : ℕ := leValue (window m a n)

def store (m : Mem) (a n v : ℕ) : Mem := write m a (leBytes n v)

def fill (m : Mem) (a n : ℕ) (b : UInt8) : Mem := write m a (replicate n b)

/-! ### Frames -/

theorem write_of_notMem {bs : Bytes} (h : x ∉ Finset.Ico a (a + bs.length)) : write m a bs x = m x := by
  rw [Finset.mem_Ico] at h
  exact if_neg h

theorem store_of_notMem (h : x ∉ Finset.Ico a (a + n)) : store m a n v x = m x :=
  write_of_notMem (by rwa [length_leBytes])

theorem fill_of_notMem {b : UInt8} (h : x ∉ Finset.Ico a (a + n)) : fill m a n b x = m x :=
  write_of_notMem (by rwa [length_replicate])

theorem fill_apply (m : Mem) (a n : ℕ) (b : UInt8) (x : ℕ) : fill m a n b x = if a ≤ x ∧ x < a + n then b else m x := by
  unfold fill write
  rw [length_replicate]
  refine if_ctx_congr Iff.rfl (fun hx ↦ ?_) fun _ ↦ rfl
  rw [getD_eq_getElem?_getD, getElem?_replicate, if_pos (by omega), Option.getD_some]

theorem fill_succ (m : Mem) (a n : ℕ) (b : UInt8) : fill m a (n + 1) b = Function.update (fill m a n b) (a + n) b := by
  funext x
  rcases eq_or_ne x (a + n) with rfl | hne
  · rw [Function.update_self, fill_apply, if_pos (by omega)]
  · rw [Function.update_of_ne hne, fill_apply, fill_apply]
    exact if_congr (by omega) rfl rfl

theorem fill_zero (m : Mem) (a : ℕ) (b : UInt8) : fill m a 0 b = m :=
  funext fun _ ↦ fill_of_notMem (by simp)

def writeAll (m : Mem) (ws : List (ℕ × Bytes)) : Mem := ws.foldl (fun m w ↦ write m w.1 w.2) m

@[simp] theorem writeAll_nil (m : Mem) : writeAll m [] = m := rfl

theorem writeAll_append (m : Mem) (ws ws' : List (ℕ × Bytes)) :
    writeAll m (ws ++ ws') = writeAll (writeAll m ws) ws' := foldl_append

theorem writeAll_cons (m : Mem) (w : ℕ × Bytes) (ws : List (ℕ × Bytes)) :
    writeAll m (w :: ws) = writeAll (write m w.1 w.2) ws := rfl

theorem writeAll_of_notMem {ws : List (ℕ × Bytes)} (h : ∀ w ∈ ws, x ∉ Finset.Ico w.1 (w.1 + w.2.length)) :
    writeAll m ws x = m x := by
  induction ws generalizing m with
  | nil => rfl
  | cons w ws ih =>
    obtain ⟨hw, hws⟩ := forall_mem_cons.1 h
    rw [writeAll_cons, ih hws, write_of_notMem hw]

theorem write_apply_of_lt (m : Mem) (a : ℕ) {bs : Bytes} {i : ℕ} (h : i < bs.length) :
    write m a bs (a + i) = bs.getD i 0 := by
  rw [write, if_pos (by omega), Nat.add_sub_cancel_left]

theorem window_congr (h : ∀ x ∈ Finset.Ico a (a + n), m' x = m x) : window m' a n = window m a n :=
  map_congr_left fun i hi ↦ h _ (Finset.mem_Ico.2 ⟨Nat.le_add_right a i, Nat.add_lt_add_left (mem_range.1 hi) a⟩)

theorem load_congr (h : ∀ x ∈ Finset.Ico a (a + n), m' x = m x) : load m' a n = load m a n :=
  congrArg leValue (window_congr h)

/-! ### Reading back -/

theorem window_write_self (m : Mem) (a : ℕ) (bs : Bytes) : window (write m a bs) a bs.length = bs := by
  refine ext_getElem (by simp [window]) fun i h₁ h₂ ↦ ?_
  simp [window, write, h₂]

theorem load_store_self (m : Mem) (a : ℕ) (h : v < 256 ^ n) : load (store m a n v) a n = v := by
  have hwin := window_write_self m a (leBytes n v)
  rw [length_leBytes] at hwin
  rw [load, store, hwin, leValue_leBytes_of_lt h]

theorem load_store_of_disjoint {o k : ℕ} (h : Disjoint (Finset.Ico o (o + k)) (Finset.Ico a (a + n))) :
    load (store m a n v) o k = load m o k := load_congr fun _ hx ↦ store_of_notMem (Finset.disjoint_left.1 h hx)

theorem load_lt (m : Mem) (a n : ℕ) : load m a n < 256 ^ n := by
  have h := leValue_lt (window m a n)
  rwa [window, length_map, length_range] at h

/-! ### Lists threaded through their nodes -/

/-- The list of nodes from `head` on, where a node's first word is the address of the next one and
zero ends the list. -/
def Threaded (m : Mem) : ℕ → List ℕ → Prop
  | head, [] => head = 0
  | head, p :: l => head = p ∧ p ≠ 0 ∧ Threaded m (load m p 8) l

theorem Threaded.congr (h : Threaded m head l) (hm : ∀ p ∈ l, ∀ x ∈ Finset.Ico p (p + 8), m' x = m x) :
    Threaded m' head l := by
  induction l generalizing head with
  | nil => exact h
  | cons p l ih =>
    obtain ⟨hp, hne, hl⟩ := h
    refine ⟨hp, hne, ?_⟩
    rw [load_congr (hm p mem_cons_self)]
    exact ih hl fun q hq ↦ hm q (mem_cons_of_mem p hq)

theorem Threaded.push {p : ℕ} (h : Threaded m head l) (hp : p ≠ 0) (hhead : head < 2 ^ 64)
    (hl : ∀ q ∈ l, Disjoint (Finset.Ico q (q + 8)) (Finset.Ico p (p + 8))) :
    Threaded (store m p 8 head) p (p :: l) := by
  refine ⟨rfl, hp, ?_⟩
  rw [load_store_self m p (lt_of_lt_of_eq hhead (by norm_num))]
  exact h.congr fun q hq x hx ↦ store_of_notMem (Finset.disjoint_left.1 (hl q hq) hx)

theorem Threaded.eq_nil_iff (h : Threaded m head l) : head = 0 ↔ l = [] := by
  cases l with
  | nil => exact iff_of_true h rfl
  | cons p l => exact iff_of_false (h.1 ▸ h.2.1) (cons_ne_nil p l)

/-- Push nodes in front of a list, one after the other; returns the new head too. -/
def thread (m : Mem) (head : ℕ) : List ℕ → Mem × ℕ
  | [] => (m, head)
  | p :: ps => thread (store m p 8 head) p ps

/-- **A list threaded node by node**: the last node pushed is the head, and only the links are
written. -/
theorem thread_spec {ps : List ℕ} (h : Threaded m head l) (hhead : head < 2 ^ 64) (hps : ∀ p ∈ ps, p < 2 ^ 64 ∧ p ≠ 0)
    (hdisj : ps.Pairwise fun p q ↦ Disjoint (Finset.Ico p (p + 8)) (Finset.Ico q (q + 8)))
    (hl : ∀ p ∈ ps, ∀ q ∈ l, Disjoint (Finset.Ico q (q + 8)) (Finset.Ico p (p + 8))) :
    Threaded (thread m head ps).1 (thread m head ps).2 (ps.reverse ++ l) ∧ (thread m head ps).2 < 2 ^ 64 ∧
      ∀ x, (∀ p ∈ ps, x ∉ Finset.Ico p (p + 8)) → (thread m head ps).1 x = m x := by
  induction ps generalizing m head l with
  | nil => exact ⟨h, hhead, fun _ _ ↦ rfl⟩
  | cons p ps ih =>
    obtain ⟨hp, hdisj⟩ := pairwise_cons.1 hdisj
    obtain ⟨hpl, hl⟩ := forall_mem_cons.1 hl
    obtain ⟨⟨hlt, hne⟩, hps⟩ := forall_mem_cons.1 hps
    have haway : ∀ q ∈ ps, ∀ r ∈ p :: l, Disjoint (Finset.Ico r (r + 8)) (Finset.Ico q (q + 8)) := fun q hq r hr ↦ by
      rcases mem_cons.1 hr with rfl | hr
      · exact hp q hq
      · exact hl q hq r hr
    obtain ⟨hlist, hhead', hframe⟩ := ih (h.push hne hhead hpl) hlt hps hdisj haway
    refine ⟨?_, hhead', fun x hx ↦ ?_⟩
    · rw [reverse_cons, append_assoc]
      exact hlist
    · obtain ⟨hxp, hx⟩ := forall_mem_cons.1 hx
      exact (hframe x hx).trans (store_of_notMem hxp)

/-- Walk the list from a node to the first one with a property, for a number of steps: `none` when
the steps do not suffice, `some none` at the end of the list. -/
def findNode (m : Mem) (found : ℕ → Bool) : ℕ → ℕ → Option (Option ℕ)
  | 0, _ => none
  | steps + 1, node =>
    if node = 0 then some none
    else if found node then some (some node)
    else findNode m found steps (load m node 8)

theorem findNode_eq {found : ℕ → Bool} {steps : ℕ} (h : Threaded m head l) (hsteps : l.length < steps) :
    findNode m found steps head = some (l.find? found) := by
  induction l generalizing head steps with
  | nil =>
    obtain ⟨k, rfl⟩ := Nat.exists_eq_succ_of_ne_zero (Nat.ne_of_gt hsteps)
    exact if_pos h
  | cons p l ih =>
    obtain ⟨k, rfl⟩ := Nat.exists_eq_succ_of_ne_zero (Nat.ne_of_gt (Nat.zero_lt_of_lt hsteps))
    obtain ⟨rfl, hne, hl⟩ := h
    rw [findNode, if_neg hne, find?_cons]
    rcases hfound : found head with - | -
    · exact (if_neg Bool.false_ne_true).trans (ih hl (Nat.lt_of_succ_lt_succ hsteps))
    · exact if_pos rfl

end ByteMem
