import Mathlib.Data.List.Nodup
import Mathlib.Logic.Function.Basic

/-!
# Queues of doubly linked nodes

A queue held by pointers to its first and its last node, each node pointing to the next and to the
previous one. `IsQueue` says that the pointers represent a list; `pushTail` appends to it and
`popHead` takes its first element off. As for the rings of `LinkRing`, **no node outside the queue
is touched**, so that any number of queues can live in the same links.
-/

namespace LinkQueue

open List Function

variable {α : Type*}

structure Nodes (α : Type*) where
  next : α → Option α
  prev : α → Option α

structure Ends (α : Type*) where
  head : Option α
  tail : Option α

variable {n n' : Nodes α} {l : List α} {e : Ends α} {m : α}

/-- The nodes of the list are linked in its order, and the first one points back to `p`. -/
def Linked (n : Nodes α) : Option α → List α → Prop
  | _, [] => True
  | p, x :: l => n.prev x = p ∧ n.next x = l.head? ∧ Linked n (some x) l

/-- **The pointers represent the list.** -/
structure IsQueue (n : Nodes α) (e : Ends α) (l : List α) : Prop where
  nodup : l.Nodup
  head : e.head = l.head?
  tail : e.tail = l.getLast?
  linked : Linked n none l

theorem isQueue_nil (n : Nodes α) : IsQueue n ⟨none, none⟩ [] := ⟨nodup_nil, rfl, rfl, trivial⟩

theorem Linked.congr {p : Option α} (h : Linked n p l)
    (hn : ∀ x ∈ l, n'.next x = n.next x ∧ n'.prev x = n.prev x) : Linked n' p l := by
  induction l generalizing p with
  | nil => trivial
  | cons x l ih =>
    obtain ⟨hprev, hnext, hl⟩ := h
    obtain ⟨hx, hx'⟩ := hn x mem_cons_self
    exact ⟨hx'.trans hprev, hx.trans hnext, ih hl fun y hy ↦ hn y (mem_cons_of_mem _ hy)⟩

theorem IsQueue.congr (h : IsQueue n e l) (hn : ∀ x ∈ l, n'.next x = n.next x ∧ n'.prev x = n.prev x) :
    IsQueue n' e l := ⟨h.nodup, h.head, h.tail, h.linked.congr hn⟩

variable [DecidableEq α]

/-! ### The operations -/

def pushTail (n : Nodes α) (e : Ends α) (m : α) : Nodes α × Ends α :=
  match e.tail with
  | none =>
    (⟨update n.next m none, update n.prev m none⟩, ⟨some m, some m⟩)
  | some t =>
    (⟨update (update n.next m none) t (some m), update n.prev m (some t)⟩, ⟨e.head, some m⟩)

def popHead (n : Nodes α) (e : Ends α) : Option (α × Nodes α × Ends α) :=
  match e.head with
  | none => none
  | some m =>
    match n.next m with
    | none =>
      some (m, ⟨update n.next m none, update n.prev m none⟩, ⟨none, none⟩)
    | some x =>
      some (m, ⟨update n.next m none, update (update n.prev x none) m none⟩, ⟨some x, e.tail⟩)

omit [DecidableEq α] in
theorem Linked.append {p : Option α} {t : α} (h : Linked n p (l ++ [t])) (hnodup : (l ++ [t]).Nodup)
    (hm : m ∉ l ++ [t]) (hnext : ∀ x ∈ l, n'.next x = n.next x) (hprev : ∀ x ∈ l ++ [t], n'.prev x = n.prev x)
    (ht : n'.next t = some m) (hm₁ : n'.next m = none) (hm₂ : n'.prev m = some t) :
    Linked n' p (l ++ [t] ++ [m]) := by
  induction l generalizing p with
  | nil => exact ⟨(hprev t (by simp)).trans h.1, ht, hm₂, hm₁, trivial⟩
  | cons x l ih =>
    obtain ⟨hx, hx', hl⟩ := h
    refine ⟨(hprev x (by simp)).trans hx, ?_, ih hl (nodup_cons.1 hnodup).2
      (fun hmem ↦ hm (mem_cons_of_mem _ hmem)) (fun y hy ↦ hnext y (mem_cons_of_mem _ hy))
      fun y hy ↦ hprev y (mem_cons_of_mem _ hy)⟩
    rw [hnext x mem_cons_self, hx']
    cases l <;> rfl

theorem pushTail_spec (h : IsQueue n e l) (hm : m ∉ l) : IsQueue (pushTail n e m).1 (pushTail n e m).2 (l ++ [m]) ∧
      ∀ x, x ∉ l → x ≠ m → (pushTail n e m).1.next x = n.next x ∧ (pushTail n e m).1.prev x = n.prev x := by
  have hnodup : (l ++ [m]).Nodup := by
    rw [nodup_append]
    refine ⟨h.nodup, nodup_singleton m, fun x hx y hy hxy ↦ hm ?_⟩
    rwa [← mem_singleton.1 hy, ← hxy]
  unfold pushTail
  rcases eq_nil_or_concat' l with rfl | ⟨l₀, t, rfl⟩
  · rw [h.tail]
    refine ⟨⟨hnodup, rfl, rfl, ?_⟩, fun x _ hx ↦ ?_⟩
    · exact ⟨update_self .., update_self .., trivial⟩
    · exact ⟨update_of_ne hx .., update_of_ne hx ..⟩
  · have htail : e.tail = some t := by rw [h.tail, getLast?_concat]
    have hmt : m ≠ t := fun heq ↦ hm (by simp [heq])
    have ht : t ∉ l₀ := fun hmem ↦ (nodup_append.1 h.nodup).2.2 t hmem t (mem_singleton_self t) rfl
    simp only [htail]
    refine ⟨⟨hnodup, ?_, ?_, ?_⟩, fun x hx hxm ↦ ?_⟩
    · rw [h.head]
      cases l₀ <;> rfl
    · rw [getLast?_concat]
    · refine h.linked.append h.nodup hm (fun x hx ↦ ?_) (fun x hx ↦ ?_) (update_self ..) ?_ (update_self ..)
      · have hxt : x ≠ t := fun heq ↦ ht (heq ▸ hx)
        have hxm : x ≠ m := fun heq ↦ hm (heq ▸ mem_append_left _ hx)
        exact (update_of_ne hxt ..).trans (update_of_ne hxm ..)
      · have hxm : x ≠ m := fun heq ↦ hm (heq ▸ hx)
        exact update_of_ne hxm ..
      · exact (update_of_ne hmt ..).trans (update_self ..)
    · have hxt : x ≠ t := fun heq ↦ hx (by simp [heq])
      exact ⟨(update_of_ne hxt ..).trans (update_of_ne hxm ..), update_of_ne hxm ..⟩

theorem popHead_nil (h : IsQueue n e []) : popHead n e = none := by
  rw [popHead, h.head]
  rfl

theorem popHead_cons {rest : List α} (h : IsQueue n e (m :: rest)) :
    ∃ n' e', popHead n e = some (m, n', e') ∧ IsQueue n' e' rest ∧
      ∀ x, x ∉ m :: rest → n'.next x = n.next x ∧ n'.prev x = n.prev x := by
  match rest, h with
  | [], h =>
    refine ⟨_, _, by rw [popHead, h.head]; simp only [head?_cons, h.linked.2.1, head?_nil]; rfl,
      isQueue_nil _, fun x hx ↦ ?_⟩
    have hxm : x ≠ m := fun heq ↦ hx (heq ▸ mem_cons_self)
    exact ⟨update_of_ne hxm .., update_of_ne hxm ..⟩
  | y :: rest, h =>
    obtain ⟨-, hnext, hy, hy', hrest⟩ := h.linked
    obtain ⟨hm, hnodup⟩ := nodup_cons.1 h.nodup
    have hy₀ : y ∉ rest := (nodup_cons.1 hnodup).1
    have hym : y ≠ m := fun heq ↦ hm (heq ▸ mem_cons_self)
    have hmem : ∀ x ∈ rest, x ≠ m := fun x hx heq ↦ hm (heq ▸ mem_cons_of_mem _ hx)
    refine ⟨_, _, by rw [popHead, h.head]; simp only [head?_cons, hnext]; rfl,
      ⟨hnodup, rfl, ?_, ?_, ?_, hrest.congr fun x hx ↦ ⟨?_, ?_⟩⟩, fun x hx ↦ ⟨?_, ?_⟩⟩
    · rw [h.tail, getLast?_cons_cons]
    · exact (update_of_ne hym ..).trans (update_self ..)
    · exact (update_of_ne hym ..).trans hy'
    · exact update_of_ne (hmem x hx) ..
    · have hxy : x ≠ y := fun heq ↦ hy₀ (heq ▸ hx)
      exact (update_of_ne (hmem x hx) ..).trans (update_of_ne hxy ..)
    · have hxm : x ≠ m := fun heq ↦ hx (heq ▸ mem_cons_self)
      exact update_of_ne hxm ..
    · have hxm : x ≠ m := fun heq ↦ hx (heq ▸ mem_cons_self)
      have hxy : x ≠ y := fun heq ↦ hx (heq ▸ mem_cons_of_mem _ mem_cons_self)
      exact (update_of_ne hxm ..).trans (update_of_ne hxy ..)

end LinkQueue
