import ZjuOs.Pages

/-! Page table entries as a frame number and ten flag bits. -/
namespace ZjuOs
open Memory

def pteFrame (pte : Nat) : Nat := pte / 1024

def pteFlags (pte : Nat) : Nat := pte % 1024

section Bits
variable {n q Q r R pte f fl j : Nat}

theorem and_split (hr : r < 2 ^ n) (hR : R < 2 ^ n) :
    (2 ^ n * q + r) &&& (2 ^ n * Q + R) = 2 ^ n * (q &&& Q) + (r &&& R) := by
  apply Nat.eq_of_testBit_eq
  intro i
  have hand : r &&& R < 2 ^ n := Nat.and_lt_two_pow _ hR
  rw [Nat.testBit_and, Nat.testBit_two_pow_mul_add _ hr, Nat.testBit_two_pow_mul_add _ hR,
    Nat.testBit_two_pow_mul_add _ hand]
  split
  · rw [Nat.testBit_and]
  · rw [Nat.testBit_and]

theorem or_split (hr : r < 2 ^ n) (hR : R < 2 ^ n) :
    (2 ^ n * q + r) ||| (2 ^ n * Q + R) = 2 ^ n * (q ||| Q) + (r ||| R) := by
  apply Nat.eq_of_testBit_eq
  intro i
  have hor : r ||| R < 2 ^ n := Nat.or_lt_two_pow hr hR
  rw [Nat.testBit_or, Nat.testBit_two_pow_mul_add _ hr, Nat.testBit_two_pow_mul_add _ hR,
    Nat.testBit_two_pow_mul_add _ hor]
  split
  · rw [Nat.testBit_or]
  · rw [Nat.testBit_or]

theorem pte_split (pte : Nat) : pte = 2 ^ 10 * pteFrame pte + pteFlags pte := by
  simp only [pteFrame, pteFlags]
  omega

theorem pteFlags_lt (pte : Nat) : pteFlags pte < 2 ^ 10 := Nat.mod_lt _ (by decide)

theorem pteFrame_mk (hfl : fl < 1024) : pteFrame (2 ^ 10 * f + fl) = f := by
  simp only [pteFrame]
  omega

theorem pteFlags_mk (hfl : fl < 1024) : pteFlags (2 ^ 10 * f + fl) = fl := by
  simp only [pteFlags]
  omega

theorem testBit_pteFlags (hj : j < 10) : pte.testBit j = (pteFlags pte).testBit j := by
  conv_lhs => rw [pte_split pte, Nat.testBit_two_pow_mul_add _ (pteFlags_lt pte), if_pos hj]

theorem and_one_eq (pte : Nat) : pte &&& 0x1 = pte % 2 := Nat.and_one_is_mod pte

theorem testBit_zero_iff : pte.testBit 0 = true ↔ pte % 2 = 1 := by
  rw [Nat.testBit_zero, decide_eq_true_eq]

/-- An entry without W. -/
def clearW (pte : Nat) : Nat := pte &&& 0xfffffffffffffffb

/-- An entry with W. -/
def setW (pte : Nat) : Nat := pte ||| 0x4

theorem clearW_eq (hlt : pte < 2 ^ 64) :
    clearW pte = 2 ^ 10 * pteFrame pte + (pteFlags pte &&& 0x3fb) := by
  have hmask : 0xfffffffffffffffb = 2 ^ 10 * (2 ^ 54 - 1) + 0x3fb := by decide
  have hframe : pteFrame pte < 2 ^ 54 := by simp only [pteFrame]; omega
  rw [clearW]
  conv_lhs => rw [pte_split pte, hmask]
  rw [and_split (pteFlags_lt pte) (by decide), Nat.and_two_pow_sub_one_eq_mod, Nat.mod_eq_of_lt hframe]

theorem setW_eq (pte : Nat) : setW pte = 2 ^ 10 * pteFrame pte + (pteFlags pte ||| 0x4) := by
  have hmask : (0x4 : Nat) = 2 ^ 10 * 0 + 0x4 := by decide
  rw [setW]
  conv_lhs => rw [pte_split pte, hmask]
  rw [or_split (pteFlags_lt pte) (by decide), Nat.or_zero]

theorem pteFrame_clearW (hlt : pte < 2 ^ 64) : pteFrame (clearW pte) = pteFrame pte := by
  rw [clearW_eq hlt]
  exact pteFrame_mk (Nat.lt_of_le_of_lt Nat.and_le_right (by decide))

theorem pteFlags_clearW (hlt : pte < 2 ^ 64) : pteFlags (clearW pte) = pteFlags pte &&& 0x3fb := by
  rw [clearW_eq hlt]
  exact pteFlags_mk (Nat.lt_of_le_of_lt Nat.and_le_right (by decide))

theorem pteFrame_setW (pte : Nat) : pteFrame (setW pte) = pteFrame pte := by
  rw [setW_eq]
  exact pteFrame_mk (Nat.or_lt_two_pow (n := 10) (pteFlags_lt pte) (by decide))

theorem pteFlags_setW (pte : Nat) : pteFlags (setW pte) = pteFlags pte ||| 0x4 := by
  rw [setW_eq]
  exact pteFlags_mk (Nat.or_lt_two_pow (n := 10) (pteFlags_lt pte) (by decide))

theorem and_1f_eq (pte : Nat) : pte &&& 0x1f = pteFlags pte &&& 0x1f := by
  have hmask : (0x1f : Nat) = 2 ^ 10 * 0 + 0x1f := by decide
  conv_lhs => rw [pte_split pte, hmask]
  rw [and_split (pteFlags_lt pte) (by decide), Nat.and_zero, Nat.mul_zero, Nat.zero_add]

theorem and_4_eq_zero_iff : pte &&& 0x4 = 0 ↔ pte.testBit PTE_W = false := by
  have h : pte &&& 2 ^ 2 = _ := Nat.and_two_pow pte 2
  rw [show (0x4 : Nat) = 2 ^ 2 by decide, h]
  cases pte.testBit 2 <;> simp

theorem mkPte_eq {pa o perm : Nat} (hf : f < 2 ^ 44) (ho : o < 4096) (hperm : perm < 1024)
    (hpa : pa = f * 4096 + o) : mkPte pa perm = 2 ^ 10 * f + perm := by
  subst hpa
  have hshift : (f * 4096 + o) >>> 12 = f := by
    rw [Nat.shiftRight_eq_div_pow]
    omega
  have hmask : f &&& 0xfffffffffff = f := by
    rw [show (0xfffffffffff : Nat) = 2 ^ 44 - 1 by decide, Nat.and_two_pow_sub_one_eq_mod,
      Nat.mod_eq_of_lt hf]
  rw [mkPte, hshift, hmask, ← Nat.shiftLeft_add_eq_or_of_lt (i := 10) hperm, Nat.shiftLeft_eq,
    Nat.mul_comm]

end Bits

section Tables
variable {img : Image} {pte f fl : Nat}

theorem pteTable_eq (hf : img.Ram (pteFrame pte)) : pteTable pte = framePtr (pteFrame pte) := by
  have hb := hf.bounds
  have hptr := PA2VA_frame hf (o := 0) (by omega)
  rw [Nat.add_zero, Nat.add_zero] at hptr
  have hshift : ((pte >>> 10) <<< 12) % 2 ^ 64 = pteFrame pte * 4096 := by
    simp only [pteFrame] at hb ⊢
    rw [Nat.shiftRight_eq_div_pow, Nat.shiftLeft_eq]
    omega
  rw [pteTable, hshift, hptr]

theorem ppn_eq (hf : img.Ram (pteFrame pte)) : ppn pte = pteFrame pte := by
  have hb := hf.bounds
  simp only [pteFrame] at hb
  rw [ppn, Nat.shiftRight_eq_div_pow, pteFrame]
  omega

theorem mkPte_framePtr {o perm : Nat} (hf : img.Ram f) (ho : o < 4096) (hperm : perm < 1024) :
    mkPte (VA2PA (framePtr f + o)) perm = 2 ^ 10 * f + perm := by
  have hb := hf.bounds
  exact mkPte_eq (by omega) ho hperm (VA2PA_framePtr hf ho)

end Tables

end ZjuOs
