import Mathlib.Data.Nat.Bitwise

/-!
# Arm address translation: descriptors and the table walk

Stage 1 translation of AArch64 with a 4 KiB granule and four levels. A table has 512 entries; an
entry is a 64-bit **descriptor** whose two low bits give its type. The walk ends at a block or a
page, or in a fault. `PageAddr` is the property of an address that makes or-ing flags to it safe.
-/

namespace Translation

/-! ### Descriptors -/

/-- The address field, bits 47 to 12. -/
def addrMask : ℕ := 0x0000FFFFFFFFF000

def descType (d : ℕ) : ℕ := d &&& 0x3

def descAddr (d : ℕ) : ℕ := d &&& addrMask

def attrIndx (d : ℕ) : ℕ := (d >>> 2) &&& 0x7

/-- Bit 7 set makes the memory read-only at every exception level. -/
def Writable (d : ℕ) : Prop := d.testBit 7 = false

/-- Some exception level may execute: `PXN` (bit 53) or `UXN` (bit 54) is clear. -/
def Executable (d : ℕ) : Prop := d.testBit 53 = false ∨ d.testBit 54 = false

instance : DecidablePred Writable := fun d ↦ inferInstanceAs (Decidable (d.testBit 7 = false))

instance : DecidablePred Executable :=
  fun d ↦ inferInstanceAs (Decidable (d.testBit 53 = false ∨ d.testBit 54 = false))

/-- The address of a page below `2 ^ 48`. -/
def PageAddr (pa : ℕ) : Prop := pa &&& addrMask = pa

theorem pageAddr_of_lt {k : ℕ} (hk : k < 2 ^ 36) : PageAddr (k * 2 ^ 12) := by
  rw [PageAddr, addrMask, ← Nat.shiftLeft_eq, show (0x0000FFFFFFFFF000 : ℕ) = (2 ^ 36 - 1) <<< 12 from rfl,
    ← Nat.shiftLeft_and_distrib, Nat.and_two_pow_sub_one_eq_mod, Nat.mod_eq_of_lt hk]

section

variable {pa c : ℕ}

section

variable (hpa : PageAddr pa)
include hpa

theorem PageAddr.and_eq_zero {m : ℕ} (hm : addrMask &&& m = 0) : pa &&& m = 0 := by
  rw [← hpa, Nat.and_assoc, hm, Nat.and_zero]

theorem PageAddr.or_and {m : ℕ} (hm : addrMask &&& m = addrMask) : (pa ||| c) &&& m = pa ||| (c &&& m) := by
  rw [Nat.and_or_distrib_right, ← hpa, Nat.and_assoc, hm]

theorem PageAddr.testBit {i : ℕ} (hi : addrMask.testBit i = false) : (pa ||| c).testBit i = c.testBit i := by
  rw [Nat.testBit_or, ← hpa, Nat.testBit_and, hi, Bool.and_false, Bool.false_or]

theorem PageAddr.descType_or : descType (pa ||| c) = descType c := by
  rw [descType, Nat.and_or_distrib_right, hpa.and_eq_zero rfl, Nat.zero_or, descType]

theorem PageAddr.descAddr_or (hc : c &&& addrMask = 0) : descAddr (pa ||| c) = pa := by
  rw [descAddr, Nat.and_or_distrib_right, hpa, hc, Nat.or_zero]

theorem PageAddr.field_or {i n : ℕ} (hm : addrMask &&& (n <<< i) = 0) : ((pa ||| c) >>> i) &&& n = (c >>> i) &&& n := by
  have hzero : (pa >>> i) &&& n = 0 := by
    have hshift := congrArg (· >>> i) (hpa.and_eq_zero hm)
    simpa only [Nat.shiftRight_and_distrib, Nat.shiftLeft_shiftRight, Nat.zero_shiftRight] using hshift
  rw [Nat.shiftRight_or_distrib, Nat.and_or_distrib_right, hzero, Nat.zero_or]

theorem PageAddr.attrIndx_or : attrIndx (pa ||| c) = attrIndx c := hpa.field_or rfl

end

end

/-! ### The walk -/

/-- Where a walk ended: the descriptor, and the size of the block or page it maps. -/
structure Leaf where
  desc : ℕ
  size : ℕ
  deriving DecidableEq

/-- The physical address to which the leaf translates `va`. -/
def Leaf.output (l : Leaf) (va : ℕ) : ℕ := descAddr l.desc / l.size * l.size + va % l.size

theorem Leaf.output_mk (d n va : ℕ) : (⟨d, n⟩ : Leaf).output va = descAddr d / n * n + va % n := rfl

/-- The index into the table of level `3 - n`: nine bits of the address above the page offset. -/
def tableIndex (n va : ℕ) : ℕ := va / 2 ^ (12 + 9 * n) % 512

/-- **The walk from the table at `root`**, where `rd table i` reads entry `i` of the table at a
physical address. Level 0 has no blocks, and at level 3 only type `3` is valid. -/
def walk (rd : ℕ → ℕ → ℕ) (root va : ℕ) : Option Leaf :=
  let d0 := rd root (tableIndex 3 va)
  if descType d0 ≠ 3 then none
  else
    let d1 := rd (descAddr d0) (tableIndex 2 va)
    if descType d1 = 1 then some ⟨d1, 2 ^ 30⟩
    else if descType d1 ≠ 3 then none
    else
      let d2 := rd (descAddr d1) (tableIndex 1 va)
      if descType d2 = 1 then some ⟨d2, 2 ^ 21⟩
      else if descType d2 ≠ 3 then none
      else
        let d3 := rd (descAddr d2) (tableIndex 0 va)
        if descType d3 ≠ 3 then none else some ⟨d3, 2 ^ 12⟩

theorem descAddr_table {pa : ℕ} (hpa : PageAddr pa) : descAddr (pa ||| 3) = pa :=
  hpa.descAddr_or rfl

theorem descType_table {pa : ℕ} (hpa : PageAddr pa) : descType (pa ||| 3) = 3 := hpa.descType_or

end Translation
