import ZjuOs.Syscall

/-! Rules for the kernel's accesses to page frames of RAM, which it reaches through the direct map. -/
namespace ZjuOs
open Memory Exec

/-- `f` is the number of a page frame of RAM. -/
def Image.Ram (img : Image) (f : Nat) : Prop := 0x80000 ≤ f ∧ f < 0x80000 + 2 ^ img.order

/-- The kernel's pointer to frame `f`. -/
def framePtr (f : Nat) : Nat := f * PGSIZE + PA2VA_OFFSET

section Pointers
variable {img : Image} {f g o : Nat}

theorem Image.two_pow_order_le (img : Image) : 2 ^ img.order ≤ 2 ^ 20 :=
  Nat.pow_le_pow_right (by omega) img.order_le

theorem Image.Ram.bounds (hf : img.Ram f) : 0x80000 ≤ f ∧ f < 0x180000 := by
  have := img.two_pow_order_le
  exact ⟨hf.1, by have := hf.2; omega⟩

theorem framePtr_lt (hf : img.Ram f) (ho : o ≤ 4096) : framePtr f + o < 2 ^ 64 := by
  have := hf.bounds
  simp only [framePtr, PGSIZE, PA2VA_OFFSET]
  omega

theorem framePtr_ne_zero (f : Nat) : framePtr f ≠ 0 := by
  simp only [framePtr, PA2VA_OFFSET]
  omega

theorem framePtr_inj (h : framePtr f = framePtr g) : f = g := by
  simp only [framePtr, PGSIZE, PA2VA_OFFSET] at h
  omega

theorem VA2PA_framePtr (hf : img.Ram f) (ho : o < 4096) : VA2PA (framePtr f + o) = f * 4096 + o := by
  have := hf.bounds
  simp only [VA2PA, framePtr, PGSIZE, PA2VA_OFFSET]
  omega

theorem VA2PA_page (hf : img.Ram f) : VA2PA (framePtr f) = f * 4096 := by
  have h := VA2PA_framePtr hf (o := 0) (by omega)
  rwa [Nat.add_zero, Nat.add_zero] at h

/-- `satp` for the root table `f`. -/
theorem satpRoot_frame (hf : img.Ram f) :
    satpRoot ((VA2PA (framePtr f) >>> 12) ||| 0x8000000000000000) = f := by
  have hb := hf.bounds
  have hdiv : f * 4096 / 2 ^ 12 = f := by omega
  have hor : f ||| 0x8000000000000000 = 2 ^ 63 * 1 + f := by
    rw [Nat.two_pow_add_eq_or_of_lt (by omega), Nat.or_comm]
  rw [VA2PA_page hf, satpRoot, Nat.shiftRight_eq_div_pow, hdiv, hor]
  omega

theorem PA2VA_frame (hf : img.Ram f) (ho : o < 4096) : PA2VA (f * 4096 + o) = framePtr f + o := by
  have := hf.bounds
  simp only [PA2VA, framePtr, PGSIZE, PA2VA_OFFSET]
  omega

theorem inDirectMap_frame (hf : img.Ram f) (ho : o < 4096) : img.inDirectMap (framePtr f + o) = true := by
  obtain ⟨hlo, hhi⟩ := hf
  have hend : (f + 1) * 4096 ≤ (0x80000 + 2 ^ img.order) * 4096 := by omega
  refine decide_eq_true ?_
  simp only [Image.phySize, framePtr, PGSIZE, PA2VA_OFFSET, VM_START]
  omega

theorem PFN2PHYS_eq {p : Nat} (hp : p < 2 ^ 20) : PFN2PHYS p = (p + 0x80000) * 4096 := by
  simp only [PFN2PHYS, PHY_START, Nat.shiftLeft_eq]
  omega

theorem PHYS2PFN_frame (hf : img.Ram f) (ho : o < 4096) : PHYS2PFN (f * 4096 + o) = f - 0x80000 := by
  have := hf.bounds
  simp only [PHYS2PFN, PHY_START, Nat.shiftRight_eq_div_pow]
  omega

theorem VPN_lt (va j : Nat) : VPN va j < 512 := by
  have h : VPN va j ≤ 0x1ff := Nat.and_le_right
  omega

theorem VPN_eq (va j : Nat) : VPN va j = va / 2 ^ (12 + 9 * j) % 512 := by
  rw [VPN, Nat.shiftRight_eq_div_pow]
  exact Nat.and_two_pow_sub_one_eq_mod _ 9

end Pointers

section Rules
variable {img : Image} {s : KState} {f o : Nat} {E : Halt → KState → Prop}

theorem ends_kernelPa {Q : Nat → KState → Prop} {bit : Nat} (hf : img.Ram f) (ho : o < 4096) :
    Ends (kernelPa img bit (framePtr f + o)) s Q E ↔ Q (f * 4096 + o) s := by
  rw [kernelPa, if_pos (inDirectMap_frame hf ho), ends_pure, VA2PA_framePtr hf ho]

theorem ends_loadWord {Q : Nat → KState → Prop} (hf : img.Ram f) (ho : o + 8 ≤ 4096) :
    Ends (loadWord img (framePtr f + o)) s Q E ↔ Q (ld 8 s.mem (f * 4096 + o)) s := by
  rw [loadWord, ends_bind, ends_kernelPa hf (by omega)]
  simp only [ends_bind, ends_get, ends_pure]

theorem ends_storeWord {Q : Unit → KState → Prop} {v : Nat} (hf : img.Ram f) (ho : o + 8 ≤ 4096) :
    Ends (storeWord img (framePtr f + o) v) s Q E ↔
      Q () (s.withMem (sd 8 s.mem (f * 4096 + o) v)) := by
  rw [storeWord, ends_bind, ends_kernelPa hf (by omega), ends_modify]

theorem ends_storeByte {Q : Unit → KState → Prop} {c : UInt8} (hf : img.Ram f) (ho : o < 4096) :
    Ends (storeByte img (framePtr f + o) c) s Q E ↔
      Q () (s.withMem (Function.update s.mem (f * 4096 + o) c)) := by
  rw [storeByte, ends_bind, ends_kernelPa hf ho, ends_modify]

theorem ends_notNull {Q : Unit → KState → Prop} {p : Nat} :
    Ends (notNull p) s Q E ↔ if p = 0 then E .null s else Q () s := by
  unfold notNull
  split <;> simp

theorem ends_loadEntry {Q : Nat → KState → Prop} {i : Nat} (hf : img.Ram f) (hi : i < 512) :
    Ends (loadEntry img (framePtr f) i) s Q E ↔ Q (entry s.mem f i) s := by
  have hlt := framePtr_lt hf (o := 8 * i) (by omega)
  rw [loadEntry, ends_bind, ends_notNull, if_neg (framePtr_ne_zero f), Nat.mod_eq_of_lt hlt,
    ends_loadWord hf (by omega), entry]

/-- Word `i` of table `f` is stored. -/
def KState.edit (s : KState) (f i v : Nat) : KState :=
  (s.withMem (setEntry s.mem f i v)).log (.edit (f * 4096 + 8 * i) (setEntry s.mem f i v))

theorem ends_storeEntry {Q : Unit → KState → Prop} {i v : Nat} (hf : img.Ram f) (hi : i < 512) :
    Ends (storeEntry img (framePtr f) i v) s Q E ↔ Q () (s.edit f i v) := by
  have hlt := framePtr_lt hf (o := 8 * i) (by omega)
  rw [storeEntry, ends_bind, ends_notNull, if_neg (framePtr_ne_zero f), ends_bind, Nat.mod_eq_of_lt hlt,
    ends_kernelPa hf (by omega), ends_modify]
  rfl

/-- At null there is no table. -/
theorem ends_loadEntry_zero {Q : Nat → KState → Prop} {i : Nat} :
    Ends (loadEntry img 0 i) s Q E ↔ E .null s := by
  rw [loadEntry, ends_bind, ends_notNull, if_pos rfl]

theorem ends_storeEntry_zero {Q : Unit → KState → Prop} {i v : Nat} :
    Ends (storeEntry img 0 i v) s Q E ↔ E .null s := by
  rw [storeEntry, ends_bind, ends_notNull, if_pos rfl]

theorem ends_memset {Q : Unit → KState → Prop} {c : UInt8} {n : Nat} (hf : img.Ram f)
    (ho : o + n ≤ 4096) : Ends (memset img (framePtr f + o) c n) s Q E ↔
      Q () (s.withMem (fill s.mem (f * 4096 + o) n c)) := by
  induction n generalizing s o with
  | zero => simp only [memset, ends_pure, fill_zero, KState.withMem_self]
  | succ n ih =>
      have hlt := framePtr_lt hf (o := o + 1) (by omega)
      have hstep : fill (Function.update s.mem (f * 4096 + o) c) (f * 4096 + (o + 1)) n c =
          fill s.mem (f * 4096 + o) (n + 1) c := by
        funext x
        rcases Nat.lt_trichotomy x (f * 4096 + o) with h | h | h
        · rw [fill_outside (by omega), fill_outside (by omega), Function.update_of_ne (by omega)]
        · rw [fill_outside (by omega), fill_inside (by omega), h, Function.update_self]
        · by_cases hx : x < f * 4096 + o + (n + 1)
          · rw [fill_inside (by omega), fill_inside (by omega)]
          · rw [fill_outside (by omega), fill_outside (by omega), Function.update_of_ne (by omega)]
      rw [memset, ends_bind, ends_storeByte hf (by omega), Nat.add_assoc, Nat.mod_eq_of_lt hlt,
        ih (by omega), KState.withMem_mem, hstep, KState.withMem_withMem]

/-- Source byte `i` of a copy is read at `psrc + i`, whatever the copy has stored so far. -/
def ReadsAt (img : Image) (s : KState) (source psrc dst n : Nat) : Prop :=
  ∀ i, i < n → ∀ mem : Mem, (∀ x, x < dst ∨ dst + n ≤ x → mem x = s.mem x) →
    (kernelPa img PTE_R ((source + i) % 2 ^ 64)).run (s.withMem mem) = .ok (psrc + i) (s.withMem mem)

theorem ReadsAt.tail {source psrc dst dst' n : Nat} (c : UInt8)
    (h : ReadsAt img s source psrc dst (n + 1)) (hdst : dst' = dst + 1) :
    ReadsAt img (s.withMem (Function.update s.mem dst c)) ((source + 1) % 2 ^ 64) (psrc + 1) dst' n := by
  subst hdst
  intro i hi mem hmem
  have hmod : ((source + 1) % 2 ^ 64 + i) % 2 ^ 64 = (source + (i + 1)) % 2 ^ 64 := by omega
  rw [hmod, show psrc + 1 + i = psrc + (i + 1) by omega]
  refine h (i + 1) (by omega) mem fun x hx => ?_
  rw [hmem x (by omega)]
  exact Function.update_of_ne (by omega) _ _

theorem ends_memcpy {Q : Unit → KState → Prop} {source psrc n : Nat} (hf : img.Ram f)
    (ho : o + n ≤ 4096) (hs : source < 2 ^ 64) (hsrc : ReadsAt img s source psrc (f * 4096 + o) n)
    (hdisj : psrc + n ≤ f * 4096 + o ∨ f * 4096 + o + n ≤ psrc) :
    Ends (memcpy img (framePtr f + o) source n) s Q E ↔
      Q () (s.withMem (copy s.mem (f * 4096 + o) psrc n)) := by
  induction n generalizing s o source psrc with
  | zero => simp only [memcpy, ends_pure, copy_zero, KState.withMem_self]
  | succ n ih =>
      have hlt := framePtr_lt hf (o := o + 1) (by omega)
      have hread := hsrc 0 (by omega) s.mem fun _ _ => rfl
      rw [Nat.add_zero, Nat.mod_eq_of_lt hs, s.withMem_self, Nat.add_zero] at hread
      have hstep : copy (Function.update s.mem (f * 4096 + o) (s.mem psrc)) (f * 4096 + (o + 1)) (psrc + 1) n =
          copy s.mem (f * 4096 + o) psrc (n + 1) := by
        funext x
        rcases Nat.lt_trichotomy x (f * 4096 + o) with h | h | h
        · rw [copy_outside (by omega), copy_outside (by omega), Function.update_of_ne (by omega)]
        · rw [copy_outside (by omega), copy_inside (by omega), h, Function.update_self, Nat.sub_self,
            Nat.add_zero]
        · by_cases hx : x < f * 4096 + o + (n + 1)
          · rw [copy_inside (by omega), copy_inside (by omega), Function.update_of_ne (by omega)]
            congr 1
            omega
          · rw [copy_outside (by omega), copy_outside (by omega), Function.update_of_ne (by omega)]
      rw [memcpy, ends_bind, loadByte, ends_bind, ends_iff_of_ok hread]
      simp only [ends_bind, ends_get, ends_pure]
      have hdst : f * 4096 + (o + 1) = f * 4096 + o + 1 := by omega
      rw [ends_storeByte hf (by omega), Nat.add_assoc, Nat.mod_eq_of_lt hlt,
        ih (by omega) (Nat.mod_lt _ (Nat.two_pow_pos 64)) (hsrc.tail _ hdst) (by omega), KState.withMem_mem,
        hstep, KState.withMem_withMem]

end Rules

end ZjuOs
