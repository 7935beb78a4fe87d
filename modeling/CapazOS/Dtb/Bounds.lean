import CapazOS.Dtb.Model

/-!
# Which blobs are parsed within bounds

Nothing that the collectors read tells them where the blob ends. `dtb_bounded_iff` says exactly
which blobs they parse without a fault: the reservation map is followed up to its end mark or for
128 entries, **every token a walk reaches lies in the blob**, no node is opened after more have been
closed than opened, and every property has its name in the strings block and, as a wanted `reg`, a
length the 32-bit offset can pass.
-/

namespace CapazOS

open List

variable {p off len steps : ℕ} {b : FdtBlob} {out : List DtbRange} {blocks : FdtBlocks} {c : Collector}

theorem DtbM.bind_ok {α β : Type} {x : DtbM α} {f : α → DtbM β} {r : β} :
    (x >>= f) = .ok r ↔ ∃ a, x = .ok a ∧ f a = .ok r := by
  rcases x with e | a
  · exact ⟨(fun h ↦ nomatch h), fun ⟨_, h, _⟩ ↦ nomatch h⟩
  · exact ⟨fun h ↦ ⟨a, rfl, h⟩, fun ⟨_, ha, h⟩ ↦ Except.ok.inj ha ▸ h⟩

@[simp] theorem DtbM.ok_bind {α β : Type} (a : α) (f : α → DtbM β) : ((.ok a : DtbM α) >>= f) = f a := rfl

/-! ### Numbers -/

theorem leValue_append (a b : Bytes) : leValue (a ++ b) = leValue a + 256 ^ a.length * leValue b := by
  induction a with
  | nil => simp [leValue]
  | cons x a ih =>
    rw [cons_append, leValue, leValue, ih, length_cons, Nat.pow_succ]
    ring

theorem beValue_append (a b : Bytes) : beValue (a ++ b) = beValue a * 256 ^ b.length + beValue b := by
  rw [beValue, reverse_append, leValue_append, length_reverse, beValue, beValue]
  ring

theorem readBE_lt (n : ℕ) (data : Bytes) (off : ℕ) : readBE n data off < 256 ^ n := by
  have hlt := leValue_lt (slice data off n).reverse
  have hlen : (slice data off n).reverse.length ≤ n := by
    rw [length_reverse, slice, length_take]
    exact Nat.min_le_left _ _
  exact hlt.trans_le (Nat.pow_le_pow_right (by decide) hlen)

theorem readBE_eight {data : Bytes} (h : p + 8 ≤ data.length) :
    readBE 8 data p = readBE 4 data p * 2 ^ 32 + readBE 4 data (p + 4) := by
  have hsplit : slice data p 8 = slice data p 4 ++ slice data (p + 4) 4 := by
    rw [slice, slice, slice, ← drop_drop, ← take_add]
  rw [readBE, hsplit, beValue_append, length_slice (by omega)]
  rfl

theorem readBE_slice {n : ℕ} {data : Bytes} {o : ℕ} (h : o + n ≤ len) :
    readBE n (slice data off len) o = readBE n data (off + o) := by
  rw [readBE, slice_slice h, readBE]

namespace FdtBlob

variable {x : ℕ}

theorem be32_eq_ok : b.be32 p = .ok x ↔ p + 4 ≤ b.bytes.length ∧ x = readBE 4 b.bytes p := by
  rw [be32]
  split_ifs with h
  · exact ⟨fun hx ↦ ⟨h, (Except.ok.inj hx).symm⟩, fun hx ↦ by rw [hx.2]⟩
  · exact ⟨(fun hx ↦ nomatch hx), fun hx ↦ absurd hx.1 h⟩

theorem be64_eq_ok : b.be64 p = .ok x ↔ p + 8 ≤ b.bytes.length ∧ x = readBE 8 b.bytes p := by
  simp only [be64, DtbM.bind_ok, be32_eq_ok]
  constructor
  · rintro ⟨hi, ⟨-, rfl⟩, lo, ⟨hlen, rfl⟩, hx⟩
    exact ⟨hlen, by rw [readBE_eight hlen]; exact (Except.ok.inj hx).symm⟩
  · rintro ⟨hlen, rfl⟩
    exact ⟨_, ⟨by omega, rfl⟩, _, ⟨hlen, rfl⟩, by rw [readBE_eight hlen]; rfl⟩

theorem le_align4 (b : FdtBlob) (p : ℕ) : p ≤ b.align4 p := by
  rw [align4]
  omega

end FdtBlob

theorem readCells_eq {cells : ℕ} (hcells : cells ≤ 2) (h : p + 4 * cells ≤ b.bytes.length) :
    readCells b cells p 0 = .ok (readBE (4 * cells) b.bytes p) := by
  have hword : ∀ q, q + 4 ≤ b.bytes.length → b.be32 q = .ok (readBE 4 b.bytes q) := fun q hq ↦
    FdtBlob.be32_eq_ok.2 ⟨hq, rfl⟩
  have hzero : u64 (0 * 2 ^ 32) = 0 := by decide
  interval_cases cells
  · rfl
  · rw [readCells, hword p (by omega), DtbM.ok_bind, readCells, hzero, Nat.zero_add]
  · have hlt := readBE_lt 4 b.bytes p
    rw [readCells, hword p (by omega), DtbM.ok_bind, readCells, hword (p + 4) (by omega), DtbM.ok_bind,
      readCells, hzero, Nat.zero_add, u64, Nat.mod_eq_of_lt (by omega), ← readBE_eight (by omega)]

/-! ### Tuples -/

def tupleAt (data : Bytes) (addrCells sizeCells off : ℕ) : DtbRange :=
  ⟨readBE (4 * addrCells) data off, readBE (4 * sizeCells) data (off + 4 * addrCells)⟩

/-- The tuples of a `reg` property that are complete; there are none for other cell counts than one
and two. -/
def regTuples (data : Bytes) (addrCells sizeCells : ℕ) : List DtbRange :=
  if addrCells = 0 ∨ sizeCells = 0 ∨ 2 < addrCells ∨ 2 < sizeCells then []
  else
    let tupleBytes := 4 * (addrCells + sizeCells)
    (range (data.length / tupleBytes)).map fun k ↦ tupleAt data addrCells sizeCells (k * tupleBytes)

/-- The last offset of the tuple loop before it wraps. -/
def regWraps (tupleBytes : ℕ) : ℕ := (2 ^ 32 - 1) / tupleBytes * tupleBytes

/-- The tuple loop ends: its offset reaches the end of the property before it wraps. -/
def RegReturns (len addrCells sizeCells : ℕ) : Prop :=
  addrCells = 0 ∨ sizeCells = 0 ∨ 2 < addrCells ∨ 2 < sizeCells ∨ len < regWraps (4 * (addrCells + sizeCells))

instance (len addrCells sizeCells : ℕ) : Decidable (RegReturns len addrCells sizeCells) :=
  inferInstanceAs (Decidable (_ ∨ _))

section

variable {data addrCells sizeCells max : ℕ}

theorem parseRegLoop_step (ha : addrCells ≤ 2) (hz : sizeCells ≤ 2)
    (hle : (off + 4 * (addrCells + sizeCells)) % 2 ^ 32 ≤ len)
    (hread : data + off + 4 * (addrCells + sizeCells) ≤ b.bytes.length) (out : List DtbRange) :
    parseRegLoop b data len addrCells sizeCells max (steps + 1) off out =
      parseRegLoop b data len addrCells sizeCells max steps ((off + 4 * (addrCells + sizeCells)) % 2 ^ 32)
        (appendRange max out (tupleAt b.bytes addrCells sizeCells (data + off))) := by
  rw [parseRegLoop, if_pos hle, readCells_eq ha (by omega), DtbM.ok_bind, readCells_eq hz (by omega), DtbM.ok_bind]
  rfl

section

variable (ha : 0 < addrCells ∧ addrCells ≤ 2) (hz : 0 < sizeCells ∧ sizeCells ≤ 2)
include ha hz

theorem parseRegLoop_eq {t : ℕ} (ht : t = 4 * (addrCells + sizeCells)) (hdata : data + len ≤ b.bytes.length)
    (hlen : len < regWraps t) {k n : ℕ} (hk : k + n = len / t) (hsteps : n < steps) (out : List DtbRange) :
    parseRegLoop b data len addrCells sizeCells max steps (k * t) out = .ok (((range' k n).map fun k ↦
        tupleAt b.bytes addrCells sizeCells (data + k * t)).foldl (appendRange max) out) := by
  have hpos : 0 < t := by omega
  have hdiv := Nat.div_mul_le_self len t
  have hmax := Nat.div_mul_le_self (2 ^ 32 - 1) t
  rw [regWraps] at hlen
  induction n generalizing k steps out with
  | zero =>
    obtain ⟨steps, rfl⟩ : ∃ m, steps = m + 1 := ⟨steps - 1, by omega⟩
    obtain rfl : k = len / t := hk
    -- the last offset has not wrapped
    have hwrap : (len / t + 1) * t < 2 ^ 32 := by
      have hq : len / t < (2 ^ 32 - 1) / t := Nat.div_lt_of_lt_mul (by rwa [Nat.mul_comm])
      have hle := Nat.mul_le_mul_right t (show len / t + 1 ≤ _ from hq)
      omega
    have hend : ¬(len / t * t + 4 * (addrCells + sizeCells)) % 2 ^ 32 ≤ len := by
      rw [← ht, ← Nat.add_one_mul, Nat.mod_eq_of_lt hwrap, Nat.mul_comm]
      exact Nat.not_le.2 (Nat.lt_mul_div_succ len hpos)
    rw [parseRegLoop, if_neg hend]
    rfl
  | succ n ih =>
    obtain ⟨steps, rfl⟩ : ∃ m, steps = m + 1 := ⟨steps - 1, by omega⟩
    have hle : (k + 1) * t ≤ len := (Nat.mul_le_mul_right t (show k + 1 ≤ len / t by omega)).trans hdiv
    have hmod : (k * t + 4 * (addrCells + sizeCells)) % 2 ^ 32 = (k + 1) * t := by
      rw [← ht, ← Nat.add_one_mul, Nat.mod_eq_of_lt (by omega)]
    have hread : data + k * t + 4 * (addrCells + sizeCells) ≤ b.bytes.length := by
      rw [← ht, Nat.add_assoc, ← Nat.add_one_mul]
      omega
    rw [parseRegLoop_step ha.2 hz.2 (hmod.le.trans hle) hread, hmod, ih (by omega) (by omega),
      range'_succ, map_cons, foldl_cons]

/-- **A tuple loop that wraps never ends**: its offset never exceeds the length. -/
theorem parseRegLoop_ne_ok (hlen : regWraps (4 * (addrCells + sizeCells)) ≤ len)
    (hoff : off % Nat.gcd (4 * (addrCells + sizeCells)) (2 ^ 32) = 0) (hlt : off < 2 ^ 32)
    (out r : List DtbRange) : parseRegLoop b data len addrCells sizeCells max steps off out ≠ .ok r := by
  induction steps generalizing off out with
  | zero => exact fun h ↦ nomatch h
  | succ steps ih =>
    -- the offset stays a multiple of what the tuple size and 2 ^ 32 have in common
    have hnext : (off + 4 * (addrCells + sizeCells)) % 2 ^ 32 ≤ regWraps (4 * (addrCells + sizeCells)) ∧
        (off + 4 * (addrCells + sizeCells)) % 2 ^ 32 % Nat.gcd (4 * (addrCells + sizeCells)) (2 ^ 32) = 0 := by
      have hcells : addrCells + sizeCells = 2 ∨ addrCells + sizeCells = 3 ∨ addrCells + sizeCells = 4 := by omega
      rcases hcells with h | h | h <;> rw [h] at hoff ⊢ <;>
        simp only [regWraps, Nat.reduceMul, Nat.reducePow, Nat.reduceGcd, Nat.reduceSub, Nat.reduceDiv] at hoff ⊢ <;>
        omega
    intro h
    rw [parseRegLoop, if_pos (hnext.1.trans hlen), DtbM.bind_ok] at h
    obtain ⟨addr, -, h⟩ := h
    obtain ⟨size, -, h⟩ := DtbM.bind_ok.1 h
    exact ih hnext.2 (Nat.mod_lt _ (by decide)) _ h

end

theorem regTuples_eq (hdata : data + len ≤ b.bytes.length)
    (hcells : ¬(addrCells = 0 ∨ sizeCells = 0 ∨ 2 < addrCells ∨ 2 < sizeCells)) :
    regTuples (slice b.bytes data len) addrCells sizeCells =
      (range (len / (4 * (addrCells + sizeCells)))).map fun k ↦
        tupleAt b.bytes addrCells sizeCells (data + k * (4 * (addrCells + sizeCells))) := by
  rw [regTuples, if_neg hcells]
  simp only [length_slice hdata]
  refine map_congr_left fun k hk ↦ ?_
  have hle : k * (4 * (addrCells + sizeCells)) + 4 * (addrCells + sizeCells) ≤ len := by
    rw [← Nat.add_one_mul]
    exact (Nat.mul_le_mul_right _ (Nat.succ_le_of_lt (mem_range.1 hk))).trans (Nat.div_mul_le_self len _)
  rw [tupleAt, tupleAt, readBE_slice (by omega), readBE_slice (by omega), Nat.add_assoc]

theorem parseRegAll_eq (hdata : data + len ≤ b.bytes.length) (h : RegReturns len addrCells sizeCells)
    (out : List DtbRange) : parseRegAll b data len addrCells sizeCells max out =
      .ok ((regTuples (slice b.bytes data len) addrCells sizeCells).foldl (appendRange max) out) := by
  by_cases hcells : addrCells = 0 ∨ sizeCells = 0 ∨ 2 < addrCells ∨ 2 < sizeCells
  · rw [regTuples, if_pos hcells, parseRegAll]
    split_ifs <;> first | rfl | omega
  have hlen : len < regWraps (4 * (addrCells + sizeCells)) := by
    simp only [RegReturns] at h
    tauto
  rw [regTuples_eq hdata hcells, parseRegAll]
  by_cases hzero : len = 0
  · rw [if_pos hzero, hzero, Nat.zero_div]
    rfl
  rw [if_neg hzero, if_neg (by tauto), if_neg (by tauto)]
  have hloop := @parseRegLoop_eq len regSteps b data addrCells sizeCells max ⟨by omega, by omega⟩
    ⟨by omega, by omega⟩ _ rfl hdata hlen 0 _ (Nat.zero_add _) ?_ out
  · rw [Nat.zero_mul] at hloop
    rw [hloop, range_eq_range']
  · have hle := Nat.div_le_self len (4 * (addrCells + sizeCells))
    have hmax := Nat.div_mul_le_self (2 ^ 32 - 1) (4 * (addrCells + sizeCells))
    rw [regWraps] at hlen
    unfold regSteps
    omega

theorem regReturns_of_ok {r : List DtbRange} (h : parseRegAll b data len addrCells sizeCells max out = .ok r) :
    RegReturns len addrCells sizeCells := by
  by_contra hnot
  simp only [RegReturns, not_or, Nat.not_lt] at hnot
  obtain ⟨ha, hz, ha', hz', hlen⟩ := hnot
  have hpos : len ≠ 0 := by
    rintro rfl
    have hcells : addrCells + sizeCells = 2 ∨ addrCells + sizeCells = 3 ∨ addrCells + sizeCells = 4 := by omega
    rcases hcells with heq | heq | heq <;> rw [heq] at hlen <;> exact absurd hlen (by decide)
  rw [parseRegAll, if_neg hpos, if_neg (by omega), if_neg (by omega)] at h
  exact parseRegLoop_ne_ok ⟨by omega, ha'⟩ ⟨by omega, hz'⟩ hlen (Nat.zero_mod _) (by decide) out r h

end

/-! ### Properties -/

/-- What a property with contents `data` does to the walk: it may set a cell count. -/
def WalkState.afterProp (kind : PropKind) (data : Bytes) (s : WalkState) : WalkState :=
  match s.stack with
  | [] => s
  | ctx :: rest =>
    match kind with
    | .addressCells =>
      if 4 ≤ data.length then { s with stack := { ctx with addrCells := readBE 4 data 0 } :: rest }
      else s
    | .sizeCells =>
      if 4 ≤ data.length then { s with stack := { ctx with sizeCells := readBE 4 data 0 } :: rest }
      else s
    | _ => s

def propRanges (c : Collector) (kind : PropKind) (data : Bytes) (s : WalkState) : List DtbRange :=
  match s.stack with
  | [] => []
  | ctx :: _ =>
    if kind = .reg ∧ c.wants ctx s = true then
      regTuples data ctx.parentAddrCells ctx.parentSizeCells
    else []

/-- The tuple loop ends, if the property is a wanted `reg`. -/
def PropReturns (c : Collector) (kind : PropKind) (len : ℕ) (s : WalkState) : Prop :=
  ∀ ctx ∈ s.stack.head?, kind = .reg → c.wants ctx s = true → RegReturns len ctx.parentAddrCells ctx.parentSizeCells

section

variable {nameoff data : ℕ} {s : WalkState}

theorem property_eq (hdepth : 0 ≤ s.depth) (hname : nameoff < blocks.stringsSize) {kind : PropKind}
    (hkind : propKind b (blocks.strings + nameoff) = .ok kind) (hdata : data + len ≤ b.bytes.length)
    (hret : PropReturns c kind len s) :
    property b blocks c len nameoff data s out = .ok (s.afterProp kind (slice b.bytes data len),
        (propRanges c kind (slice b.bytes data len) s).foldl (appendRange c.max) out) := by
  have hlen := length_slice hdata
  have hcells : 4 ≤ len → b.be32 data = .ok (readBE 4 (slice b.bytes data len) 0) := fun hle ↦
    FdtBlob.be32_eq_ok.2 ⟨by omega, readBE_slice (by omega)⟩
  rw [property, if_neg (by omega), if_neg (by omega), hkind, DtbM.ok_bind, WalkState.afterProp, propRanges, hlen]
  cases hstack : s.stack with
  | nil => rfl
  | cons ctx rest =>
    cases kind with
    | addressCells =>
      simp only [reduceCtorEq, false_and, if_false, foldl_nil]
      split_ifs with hle
      · rw [hcells hle]
        rfl
      · rfl
    | sizeCells =>
      simp only [reduceCtorEq, false_and, if_false, foldl_nil]
      split_ifs with hle
      · rw [hcells hle]
        rfl
      · rfl
    | reg =>
      simp only [true_and]
      split_ifs with hwants
      · rw [parseRegAll_eq hdata (hret ctx (by rw [hstack]; rfl) rfl hwants)]
        rfl
      · rfl
    | other =>
      rfl

theorem property_ok {r : WalkState × List DtbRange}
    (h : property b blocks c len nameoff data s out = .ok r) (hdepth : ¬s.depth < 0) :
    nameoff < blocks.stringsSize ∧
      ∃ kind, propKind b (blocks.strings + nameoff) = .ok kind ∧ PropReturns c kind len s := by
  rw [property, if_neg hdepth] at h
  by_cases hname : blocks.stringsSize ≤ nameoff
  · rw [if_pos hname] at h
    cases h
  rw [if_neg hname] at h
  obtain ⟨kind, hkind, h⟩ := DtbM.bind_ok.1 h
  refine ⟨Nat.not_le.1 hname, kind, hkind, fun ctx hctx hreg hwants ↦ ?_⟩
  cases hstack : s.stack with
  | nil =>
    rw [hstack] at hctx
    cases hctx
  | cons ctx' rest =>
    rw [hstack] at hctx
    obtain rfl : ctx' = ctx := Option.some.inj hctx
    rw [hstack, hreg] at h
    simp only [hwants, if_true] at h
    obtain ⟨out', hparse, -⟩ := DtbM.bind_ok.1 h
    exact regReturns_of_ok hparse

theorem property_of_neg (hdepth : s.depth < 0) :
    property b blocks c len nameoff data s out = .ok (s, out) := if_pos hdepth

end

/-! ### Tokens -/

theorem fdtToken_ok {q : ℕ} {token : FdtToken} (h : fdtToken b p = .ok (token, q)) :
    p + 4 ≤ b.bytes.length ∧ p + 4 ≤ q ∧ ∀ len nameoff data, token = .prop len nameoff data → data + len ≤ q := by
  obtain ⟨word, hword, h⟩ := DtbM.bind_ok.1 h
  obtain ⟨hlen, -⟩ := FdtBlob.be32_eq_ok.1 hword
  refine ⟨hlen, ?_⟩
  split_ifs at h
  · obtain ⟨rfl, rfl⟩ := Prod.mk.inj (Except.ok.inj h)
    exact ⟨le_rfl, fun _ _ _ h ↦ nomatch h⟩
  · obtain ⟨name, -, h⟩ := DtbM.bind_ok.1 h
    obtain ⟨rfl, rfl⟩ := Prod.mk.inj (Except.ok.inj h)
    have hle := b.le_align4 (p + 4 + (name.length + 1))
    exact ⟨by omega, fun _ _ _ h ↦ nomatch h⟩
  · obtain ⟨rfl, rfl⟩ := Prod.mk.inj (Except.ok.inj h)
    exact ⟨le_rfl, fun _ _ _ h ↦ nomatch h⟩
  · obtain ⟨rfl, rfl⟩ := Prod.mk.inj (Except.ok.inj h)
    exact ⟨le_rfl, fun _ _ _ h ↦ nomatch h⟩
  · obtain ⟨len, -, h⟩ := DtbM.bind_ok.1 h
    obtain ⟨nameoff, -, h⟩ := DtbM.bind_ok.1 h
    obtain ⟨rfl, rfl⟩ := Prod.mk.inj (Except.ok.inj h)
    have hle := b.le_align4 (p + 4 + 8 + len)
    refine ⟨by omega, fun len' nameoff' data' heq ↦ ?_⟩
    obtain ⟨rfl, rfl, rfl⟩ := FdtToken.prop.inj heq
    exact hle
  · obtain ⟨rfl, rfl⟩ := Prod.mk.inj (Except.ok.inj h)
    exact ⟨le_rfl, fun _ _ _ h ↦ nomatch h⟩

/-! ### Walks -/

/-- **A walk from `p` is within bounds.** The token at `p` lies in the blob, and

* it ends the walk, by itself or because its node would be too deep; or
* a node is opened where one may be, or closed, or the token is empty; or
* a property stands outside all nodes, or its name stands in the strings block, with as many bytes of the
  blob behind it as are looked at, and its tuples can be passed;

and the walk from the next token is within bounds as well. -/
inductive WalkBounded (b : FdtBlob) (blocks : FdtBlocks) (c : Collector) : ℕ → WalkState → Prop
  | stop {p q s} (htoken : fdtToken b p = .ok (.stop, q)) : WalkBounded b blocks c p s
  | nop {p q s} (htoken : fdtToken b p = .ok (.nop, q)) (hrest : WalkBounded b blocks c q s) :
      WalkBounded b blocks c p s
  | tooDeep {p q s name} (htoken : fdtToken b p = .ok (.beginNode name, q))
      (hdepth : maxDepth ≤ s.depth + 1) : WalkBounded b blocks c p s
  | beginNode {p q s name} (htoken : fdtToken b p = .ok (.beginNode name, q))
      (hlo : 0 ≤ s.depth + 1) (hhi : s.depth + 1 < maxDepth)
      (hrest : WalkBounded b blocks c q (s.opened c name)) : WalkBounded b blocks c p s
  | endNode {p q s} (htoken : fdtToken b p = .ok (.endNode, q)) (hdepth : -2 ^ 31 < s.depth)
      (hrest : WalkBounded b blocks c q (s.closed c)) : WalkBounded b blocks c p s
  | propOutside {p q s len nameoff data} (htoken : fdtToken b p = .ok (.prop len nameoff data, q))
      (hdepth : s.depth < 0) (hrest : WalkBounded b blocks c q s) : WalkBounded b blocks c p s
  | prop {p q s len nameoff data kind} (htoken : fdtToken b p = .ok (.prop len nameoff data, q))
      (hdepth : 0 ≤ s.depth) (hname : nameoff < blocks.stringsSize)
      (hkind : propKind b (blocks.strings + nameoff) = .ok kind) (hret : PropReturns c kind len s)
      (hrest : WalkBounded b blocks c q (s.afterProp kind (slice b.bytes data len))) :
      WalkBounded b blocks c p s

section

variable {s : WalkState}

theorem WalkBounded.readable (h : WalkBounded b blocks c p s) : p + 4 ≤ b.bytes.length := by
  obtain ⟨token, q, htoken⟩ : ∃ token q, fdtToken b p = .ok (token, q) := by cases h <;> exact ⟨_, _, by assumption⟩
  exact (fdtToken_ok htoken).1

/-- What a round does with its token, and `loop` with the rest. -/
def walkToken (b : FdtBlob) (blocks : FdtBlocks) (c : Collector)
    (loop : WalkState → List DtbRange → DtbM (List DtbRange)) (s : WalkState) (out : List DtbRange) :
    FdtToken → DtbM (List DtbRange)
  | .stop => .ok out
  | .nop => loop s out
  | .beginNode name => openNode c name s >>= fun s' ↦ s'.elim (.ok out) fun s ↦ loop s out
  | .endNode => closeNode c s >>= fun s ↦ loop s out
  | .prop len nameoff data => property b blocks c len nameoff data s out >>= fun r ↦ loop r.1 r.2

theorem collectLoop_succ (steps p : ℕ) (s : WalkState) (out : List DtbRange) :
    collectLoop b blocks c (steps + 1) p s out =
      fdtToken b p >>= fun r ↦ walkToken b blocks c (collectLoop b blocks c steps r.2) s out r.1 := by
  refine congrArg _ (funext fun ⟨token, q⟩ ↦ ?_)
  cases token with
  | beginNode name =>
    simp only [walkToken]
    refine congrArg _ (funext fun s' ↦ ?_)
    cases s' <;> rfl
  | _ => rfl

theorem WalkBounded.returns (h : WalkBounded b blocks c p s) (hsteps : b.bytes.length < steps + p)
    (out : List DtbRange) : ∃ r, collectLoop b blocks c steps p s out = .ok r := by
  -- every token moves the walk on, so that there are steps left
  have hnext : ∀ {steps p q : ℕ} {s : WalkState} {token : FdtToken} (out : List DtbRange),
      fdtToken b p = .ok (token, q) → b.bytes.length < steps + p → ∃ m, b.bytes.length < m + q ∧
        collectLoop b blocks c steps p s out = walkToken b blocks c (collectLoop b blocks c m q) s out token := by
    intro steps p q s token out htoken hsteps
    obtain ⟨hlen, hq, -⟩ := fdtToken_ok htoken
    obtain ⟨m, rfl⟩ : ∃ m, steps = m + 1 := ⟨steps - 1, by omega⟩
    exact ⟨m, by omega, by rw [collectLoop_succ, htoken, DtbM.ok_bind]⟩
  induction h generalizing steps out with
  | stop htoken =>
    obtain ⟨m, -, heq⟩ := hnext out htoken hsteps
    exact ⟨out, heq⟩
  | nop htoken hrest ih =>
    obtain ⟨m, hm, heq⟩ := hnext out htoken hsteps
    rw [heq]
    exact ih hm out
  | tooDeep htoken hdepth =>
    obtain ⟨m, -, heq⟩ := hnext out htoken hsteps
    refine ⟨out, ?_⟩
    rw [heq]
    simp [walkToken, openNode, if_pos hdepth, DtbM.ok_bind]
  | beginNode htoken hlo hhi hrest ih =>
    obtain ⟨m, hm, heq⟩ := hnext out htoken hsteps
    rw [heq]
    simp only [walkToken, openNode, if_neg (not_le_of_gt hhi), if_neg (not_lt_of_ge hlo), DtbM.ok_bind,
      Option.elim_some]
    exact ih hm out
  | endNode htoken hdepth hrest ih =>
    obtain ⟨m, hm, heq⟩ := hnext out htoken hsteps
    rw [heq]
    simp only [walkToken, closeNode, if_neg (not_le_of_gt hdepth), DtbM.ok_bind]
    exact ih hm out
  | propOutside htoken hdepth hrest ih =>
    obtain ⟨m, hm, heq⟩ := hnext out htoken hsteps
    rw [heq]
    simp only [walkToken, property_of_neg hdepth, DtbM.ok_bind]
    exact ih hm out
  | @prop p q s len nameoff data kind htoken hdepth hname hkind hret hrest ih =>
    obtain ⟨m, hm, heq⟩ := hnext out htoken hsteps
    have hdata : data + len ≤ b.bytes.length := by
      have hread := hrest.readable
      have hle := (fdtToken_ok htoken).2.2 len nameoff data rfl
      omega
    rw [heq]
    simp only [walkToken, property_eq hdepth hname hkind hdata hret, DtbM.ok_bind]
    exact ih hm _

theorem walkBounded_of_ok {r : List DtbRange} (h : collectLoop b blocks c steps p s out = .ok r) :
    WalkBounded b blocks c p s := by
  induction steps generalizing p s out with
  | zero => cases h
  | succ steps ih =>
    obtain ⟨⟨token, q⟩, htoken, h⟩ := DtbM.bind_ok.1 h
    cases token with
    | stop => exact .stop htoken
    | nop => exact .nop htoken (ih h)
    | beginNode name =>
      obtain ⟨s', hopen, h⟩ := DtbM.bind_ok.1 h
      rw [openNode] at hopen
      split_ifs at hopen with hdeep hneg
      · exact .tooDeep htoken hdeep
      · obtain rfl := Except.ok.inj hopen
        exact .beginNode htoken (not_lt.1 hneg) (not_le.1 hdeep) (ih h)
    | endNode =>
      obtain ⟨s', hclose, h⟩ := DtbM.bind_ok.1 h
      rw [closeNode] at hclose
      split_ifs at hclose with hdepth
      obtain rfl := Except.ok.inj hclose
      exact .endNode htoken (not_le.1 hdepth) (ih h)
    | prop len nameoff data =>
      obtain ⟨r', hprop, h⟩ := DtbM.bind_ok.1 h
      by_cases hdepth : s.depth < 0
      · rw [property_of_neg hdepth] at hprop
        obtain rfl := Except.ok.inj hprop
        exact .propOutside htoken hdepth (ih h)
      · obtain ⟨hname, kind, hkind, hret⟩ := property_ok hprop hdepth
        -- the token behind the property is read, so that its contents lie in the blob
        have hread := (ih h).readable
        have hend := (fdtToken_ok htoken).2.2 _ _ _ rfl
        rw [property_eq (not_lt.1 hdepth) hname hkind (by omega) hret] at hprop
        obtain rfl := Except.ok.inj hprop
        exact .prop htoken (not_lt.1 hdepth) hname hkind hret (ih h)

end

/-! ### The reservation map -/

/-- **The reservation map at `p` is within bounds** for some rounds: its entries lie in the blob, up
to one of zeros. -/
def RsvmapBounded (b : FdtBlob) : ℕ → ℕ → Prop
  | 0, _ => True
  | rounds + 1, p => p + 16 ≤ b.bytes.length ∧
      ((readBE 8 b.bytes p = 0 ∧ readBE 8 b.bytes (p + 8) = 0) ∨ RsvmapBounded b rounds (p + 16))

theorem collectMemreserve_returns_iff {rounds : ℕ} (out : List DtbRange) :
    (∃ r, collectMemreserve b rounds p out = .ok r) ↔ RsvmapBounded b rounds p := by
  induction rounds generalizing p out with
  | zero => exact ⟨fun _ ↦ trivial, fun _ ↦ ⟨out, rfl⟩⟩
  | succ rounds ih =>
    constructor
    · rintro ⟨r, h⟩
      obtain ⟨addr, haddr, h⟩ := DtbM.bind_ok.1 h
      obtain ⟨size, hsize, h⟩ := DtbM.bind_ok.1 h
      obtain ⟨-, rfl⟩ := FdtBlob.be64_eq_ok.1 haddr
      obtain ⟨hlen, rfl⟩ := FdtBlob.be64_eq_ok.1 hsize
      refine ⟨by omega, ?_⟩
      by_cases hzero : readBE 8 b.bytes p = 0 ∧ readBE 8 b.bytes (p + 8) = 0
      · exact .inl hzero
      · rw [if_neg hzero] at h
        exact .inr ((ih _).1 ⟨r, h⟩)
    · rintro ⟨hlen, h⟩
      have haddr : b.be64 p = .ok (readBE 8 b.bytes p) := FdtBlob.be64_eq_ok.2 ⟨by omega, rfl⟩
      have hsize : b.be64 (p + 8) = .ok (readBE 8 b.bytes (p + 8)) := FdtBlob.be64_eq_ok.2 ⟨by omega, rfl⟩
      rw [collectMemreserve, haddr, DtbM.ok_bind, hsize, DtbM.ok_bind]
      by_cases hzero : readBE 8 b.bytes p = 0 ∧ readBE 8 b.bytes (p + 8) = 0
      · rw [if_pos hzero]
        exact ⟨out, rfl⟩
      · rw [if_neg hzero]
        exact (ih _).2 (h.resolve_left hzero)

/-! ### `dtb_init` -/

/-- **The blob is parsed within bounds**: its header is rejected, or the reservation map and both
walks over the structure block are within bounds. -/
def DtbBounded (b : FdtBlob) (fdtSize : ℕ) : Prop :=
  ∀ totalsize blocks, fdtHeader b fdtSize = .ok (some (totalsize, blocks)) →
    RsvmapBounded b maxMemreserve blocks.rsvmap ∧ WalkBounded b blocks reservedCollector blocks.struct .initial ∧
      WalkBounded b blocks memoryCollector blocks.struct .initial

theorem fdtHeader_returns (h : 40 ≤ b.bytes.length) (fdtSize : ℕ) : ∃ r, fdtHeader b fdtSize = .ok r := by
  have hword : ∀ p, p + 4 ≤ 40 → b.be32 p = .ok (readBE 4 b.bytes p) := fun p hp ↦
    FdtBlob.be32_eq_ok.2 ⟨hp.trans h, rfl⟩
  rw [fdtHeader, hword 0 (by omega), hword 4 (by omega), hword 8 (by omega), hword 12 (by omega),
    hword 16 (by omega), hword 36 (by omega), hword 32 (by omega)]
  simp only [DtbM.ok_bind]
  split_ifs <;> exact ⟨_, rfl⟩

theorem collectStruct_returns_iff (out : List DtbRange) : (∃ r, collectStruct b blocks c out = .ok r) ↔
      WalkBounded b blocks c blocks.struct .initial :=
  ⟨fun ⟨_, h⟩ ↦ walkBounded_of_ok h, fun h ↦ h.returns (by omega) out⟩

/-- **Which blobs `dtb_init` parses without a fault.** -/
theorem dtb_bounded_iff (b : FdtBlob) (h : 40 ≤ b.bytes.length) :
    (∃ r, dtbInit b b.bytes.length = .ok r) ↔ DtbBounded b b.bytes.length := by
  obtain ⟨header, hheader⟩ := fdtHeader_returns h b.bytes.length
  rw [dtbInit, hheader, DtbM.ok_bind, DtbBounded, hheader]
  cases header with
  | none => exact ⟨(fun _ _ _ heq ↦ nomatch heq), fun _ ↦ ⟨none, rfl⟩⟩
  | some header =>
    obtain ⟨totalsize, blocks⟩ := header
    constructor
    · rintro ⟨r, hr⟩ totalsize' blocks' heq
      obtain ⟨rfl, rfl⟩ := Prod.mk.inj (Option.some.inj (Except.ok.inj heq))
      obtain ⟨st, hparsed, -⟩ := DtbM.bind_ok.1 hr
      obtain ⟨rsv, hrsv, hparsed⟩ := DtbM.bind_ok.1 hparsed
      obtain ⟨rsv', hrsv', hparsed⟩ := DtbM.bind_ok.1 hparsed
      obtain ⟨mem, hmem, -⟩ := DtbM.bind_ok.1 hparsed
      exact ⟨(collectMemreserve_returns_iff []).1 ⟨_, hrsv⟩,
        (collectStruct_returns_iff rsv).1 ⟨_, hrsv'⟩, (collectStruct_returns_iff []).1 ⟨_, hmem⟩⟩
    · intro hall
      obtain ⟨hmap, hreserved, hmemory⟩ := hall totalsize blocks rfl
      obtain ⟨rsv, hrsv⟩ := (collectMemreserve_returns_iff []).2 hmap
      obtain ⟨rsv', hrsv'⟩ := (collectStruct_returns_iff rsv).2 hreserved
      obtain ⟨mem, hmem⟩ := (collectStruct_returns_iff []).2 hmemory
      refine ⟨some ⟨totalsize, mem, rsv'⟩, ?_⟩
      simp only [ensureParsed, hrsv, hrsv', hmem, DtbM.ok_bind]
      rfl

/-- A blob with a node `memory` that has one range of 128 MiB, in a property of the given name. -/
def memoryBlob (name : Bytes) : FdtBlob where
  bytes := [0xD00DFEED, 117 + name.length, 56, 116, 40, 17, 16, 0, name.length + 1, 60, 0, 0, 0, 0,
    1, 0, 1, 0x6D656D6F, 0x72790000, 3, 16, 0, 0, 0x40000000, 0, 0x8000000, 2, 2, 9].flatMap (beBytes 4) ++
    (name ++ [0])
  addr := 0x48000000

theorem dtb_bounded_end : 40 ≤ (memoryBlob (ascii "reg")).bytes.length ∧
    DtbBounded (memoryBlob (ascii "reg")) (memoryBlob (ascii "reg")).bytes.length := by
  have hlen : 40 ≤ (memoryBlob (ascii "reg")).bytes.length := by decide +kernel
  refine ⟨hlen, (dtb_bounded_iff _ hlen).1 ⟨some ⟨120, [⟨0x40000000, 0x8000000⟩], []⟩, ?_⟩⟩
  decide +kernel

/-- A blob of 64 bytes with an empty reservation map whose structure block, at its end, is one
token. -/
def tokenBlob (token : ℕ) : FdtBlob where
  bytes := [0xD00DFEED, 64, 60, 56, 40, 17, 16, 0, 4, 4, 0, 0, 0, 0, 0, token].flatMap (beBytes 4)
  addr := 0x48000000

/-- The blob whose only token is `FDT_NOP` is read on behind its end. -/
theorem dtb_reads_past_end : (tokenBlob 4).bytes.length = 64 ∧
    dtbInit (tokenBlob 4) (tokenBlob 4).bytes.length = .error .outOfBounds := by
  decide +kernel

end CapazOS
