import Mathlib.Algebra.Group.Nat.Defs
import Mathlib.Tactic.Common

/-! Constants and address conversions of `defs.h` and `mm.c`. Addresses are 64-bit words. -/
namespace ZjuOs

abbrev PHY_START : Nat := 0x80000000
abbrev PHY_SIZE : Nat := 128 * 1024 * 1024
abbrev PGSIZE : Nat := 0x1000
abbrev VM_START : Nat := 0xffffffe000000000
abbrev PA2VA_OFFSET : Nat := 0xffffffdf80000000
abbrev USER_END : Nat := 0x4000000000

abbrev VM_ANON : Nat := 0x1
abbrev VM_READ : Nat := 0x2
abbrev VM_WRITE : Nat := 0x4
abbrev VM_EXEC : Nat := 0x8

abbrev NR_TASKS : Nat := 1 + 8

def VA2PA (x : Nat) : Nat := (x + (2 ^ 64 - PA2VA_OFFSET)) % 2 ^ 64

def PA2VA (x : Nat) : Nat := (x + PA2VA_OFFSET) % 2 ^ 64

def PFN2PHYS (x : Nat) : Nat := ((x <<< 12) % 2 ^ 64 + PHY_START) % 2 ^ 64

def PHYS2PFN (x : Nat) : Nat := ((x + (2 ^ 64 - PHY_START)) % 2 ^ 64) >>> 12

def PGROUNDUP (addr : Nat) : Nat := (addr + PGSIZE - 1) % 2 ^ 64 / PGSIZE * PGSIZE

def PGROUNDDOWN (addr : Nat) : Nat := addr / PGSIZE * PGSIZE

theorem VA2PA_PA2VA {x : Nat} (hx : x < 2 ^ 64) : VA2PA (PA2VA x) = x := by
  simp only [VA2PA, PA2VA, PA2VA_OFFSET]; omega

theorem PHYS2PFN_PFN2PHYS {p : Nat} (hp : p < 2 ^ 51) : PHYS2PFN (PFN2PHYS p) = p := by
  simp only [PHYS2PFN, PFN2PHYS, PHY_START, Nat.shiftLeft_eq, Nat.shiftRight_eq_div_pow]; omega

end ZjuOs
