import ZjuOs.Board

/-!
The bytes that `do_page_fault` copies from the ELF file into a new page: how `start_copy`, `offset` and the length
come out on the two sides of the test for the first file page, and when the copy stays in the page and in the file.
-/
namespace ZjuOs
open Memory Exec

/-- What `memcpy` is given for the new page: target, source and length. -/
def demandCopy (img : Image) (area : VmArea) (page va : Nat) : Option (Nat × Nat × Nat) :=
  if area.vm_flags &&& 0x1 ≠ 1 then
    let (start, offset) := copyStart img area va
    some ((page + offset) % 2 ^ 64, start, copyLength img area start offset)
  else none

/-- The file bytes of the area lie in the ramdisk, and the ramdisk in the kernel's data. -/
def Image.HoldsFile (img : Image) (area : VmArea) : Prop :=
  VM_START ≤ img.sramdisk ∧ img.sramdisk + area.vm_pgoff + area.vm_filesz ≤ img.eramdisk ∧ img.eramdisk ≤ img.ekernel

/-- The test for the first file page: the address of the file byte for `va` rounds up to where the file rounds up to. -/
def FirstFilePage (img : Image) (area : VmArea) (va : Nat) : Prop :=
  PGROUNDUP ((img.sramdisk + area.vm_pgoff) % 2 ^ 64) =
    PGROUNDUP ((va + (2 ^ 64 - area.vm_start) + (img.sramdisk + area.vm_pgoff) % 2 ^ 64) % 2 ^ 64)

instance (img : Image) (area : VmArea) (va : Nat) : Decidable (FirstFilePage img area va) :=
  inferInstanceAs (Decidable (_ = _))

/-- The bytes that `memcpy` writes lie in the page, and those that it reads in the file bytes of the area. -/
structure CopyInBounds (img : Image) (area : VmArea) (page : Nat) (c : Nat × Nat × Nat) : Prop where
  length : c.2.2 ≤ PGSIZE
  written : ∀ k, k < c.2.2 → page ≤ (c.1 + k) % 2 ^ 64 ∧ (c.1 + k) % 2 ^ 64 < page + PGSIZE
  read : ∀ k, k < c.2.2 → img.sramdisk + area.vm_pgoff ≤ (c.2.1 + k) % 2 ^ 64 ∧
    (c.2.1 + k) % 2 ^ 64 < img.sramdisk + area.vm_pgoff + area.vm_filesz

/-- In the first file page, the file has at least as many bytes as the area starts behind its page; elsewhere the page
does not begin before the area, and the file bytes for it have 64-bit addresses. -/
def CopyFits (img : Image) (area : VmArea) (va : Nat) : Prop :=
  area.vm_flags &&& 0x1 = 1 ∨
    if FirstFilePage img area va then area.vm_start % PGSIZE ≤ area.vm_filesz
    else area.vm_start ≤ PGROUNDDOWN va ∧
      img.sramdisk + area.vm_pgoff + (PGROUNDDOWN va - area.vm_start) + PGSIZE < 2 ^ 64

instance (img : Image) (area : VmArea) (va : Nat) : Decidable (CopyFits img area va) :=
  inferInstanceAs (Decidable (_ ∨ ite _ _ _))

theorem demandPage_eq (img : Image) (area : VmArea) (page va : Nat) :
    demandPage img area page va = (do
      let perm := 0x11 ||| (area.vm_flags &&& 0xe)
      let pgd ← loadWord img ((← get).current + TASK_PGD)
      createMapping img pgd va (VA2PA page) PGSIZE perm
      match demandCopy img area page va with
      | some (dest, source, n) => memcpy img dest source n
      | none => pure ()) := by
  rw [demandPage, demandCopy]
  by_cases h : area.vm_flags &&& 0x1 ≠ 1
  · rw [if_pos h]
    simp only [if_pos h]
  · rw [if_neg h]
    simp only [if_neg h]

section Bounds
variable {img : Image} {area : VmArea} {f va : Nat}

theorem Image.HoldsFile.bounds (h : img.HoldsFile area) : 2 ^ 64 - 2 ^ 37 ≤ img.sramdisk + area.vm_pgoff ∧
    img.sramdisk + area.vm_pgoff + area.vm_filesz ≤ 2 ^ 64 - 2 ^ 37 + 2 ^ 32 := by
  obtain ⟨hlo, hend, hle⟩ := h
  have hmax := img.ekernel_le
  have h20 := img.two_pow_order_le
  simp only [VM_START, PGSIZE] at *
  omega

theorem copyStart_first (h : img.HoldsFile area) (hfirst : FirstFilePage img area va) :
    copyStart img area va = (img.sramdisk + area.vm_pgoff, area.vm_start % PGSIZE) := by
  have hb := h.bounds
  have hand : area.vm_start &&& 0xFFF = area.vm_start % PGSIZE := Nat.and_two_pow_sub_one_eq_mod _ 12
  have hmod : (img.sramdisk + area.vm_pgoff) % 2 ^ 64 = img.sramdisk + area.vm_pgoff := Nat.mod_eq_of_lt (by omega)
  rw [copyStart, hand, hmod]
  rw [FirstFilePage, hmod] at hfirst
  exact if_pos hfirst

theorem copyStart_later (h : img.HoldsFile area) (hlater : ¬ FirstFilePage img area va) :
    copyStart img area va = ((img.sramdisk + area.vm_pgoff + PGROUNDDOWN va + (2 ^ 64 - area.vm_start)) % 2 ^ 64, 0) := by
  have hb := h.bounds
  have hmod : (img.sramdisk + area.vm_pgoff) % 2 ^ 64 = img.sramdisk + area.vm_pgoff := Nat.mod_eq_of_lt (by omega)
  rw [copyStart, hmod]
  rw [FirstFilePage, hmod] at hlater
  exact if_neg hlater

/-- The length of a copy whose source page does not reach the end of the address space. -/
theorem copyLength_eq (h : img.HoldsFile area) {start offset : Nat} (hstart : start + PGSIZE < 2 ^ 64) (hoff : offset < PGSIZE) :
    copyLength img area start offset =
      if img.sramdisk + area.vm_pgoff + area.vm_filesz < start then 0
      else if start + PGSIZE < img.sramdisk + area.vm_pgoff + area.vm_filesz then PGSIZE - offset
      else (img.sramdisk + area.vm_pgoff + area.vm_filesz - start + (2 ^ 64 - offset)) % 2 ^ 64 := by
  have hb := h.bounds
  rw [copyLength]
  generalize img.sramdisk + area.vm_pgoff = S at *
  rw [Nat.mod_eq_of_lt (a := S + area.vm_filesz) (by omega), Nat.mod_eq_of_lt hstart]
  simp only [PGSIZE] at *
  by_cases hlt : S + area.vm_filesz < start
  · rw [if_pos hlt, if_neg (by simp; omega), if_neg (by omega)]
  · rw [if_neg hlt]
    by_cases hlong : start + 0x1000 < S + area.vm_filesz
    · rw [if_neg (by simp; omega), if_pos hlong, if_pos hlong]
      omega
    · rw [if_pos (by simp; omega), if_neg hlong]
      omega

/-- A copy of at least one byte that is in bounds ends in the page and in the file. -/
theorem copyInBounds_iff (h : img.HoldsFile area) (hf : img.Ram f) {start offset n : Nat} (hstart : start < 2 ^ 64)
    (hoff : offset < PGSIZE) :
    CopyInBounds img area (framePtr f) ((framePtr f + offset) % 2 ^ 64, start, n) ↔
      n = 0 ∨ (offset + n ≤ PGSIZE ∧ img.sramdisk + area.vm_pgoff ≤ start ∧
        start + n ≤ img.sramdisk + area.vm_pgoff + area.vm_filesz) := by
  have hb := h.bounds
  have hfb := hf.bounds
  have hpage : framePtr f + 2 * PGSIZE < 2 ^ 64 := by
    simp only [framePtr, PGSIZE, PA2VA_OFFSET]
    omega
  generalize framePtr f = page at *
  constructor
  · rintro ⟨hlen, hw, hr⟩
    rcases Nat.eq_zero_or_pos n with hzero | hpos
    · exact .inl hzero
    · have hlast := hw (n - 1) (Nat.sub_lt hpos Nat.one_pos)
      have hfirst := hr 0 hpos
      have hend := hr (n - 1) (Nat.sub_lt hpos Nat.one_pos)
      simp only [PGSIZE] at *
      omega
  · rintro (rfl | ⟨hfit, hlo, hhi⟩)
    · exact ⟨Nat.zero_le _, fun k hk => absurd hk (Nat.not_lt_zero k), fun k hk => absurd hk (Nat.not_lt_zero k)⟩
    · simp only [PGSIZE] at *
      exact ⟨by dsimp only [PGSIZE]; omega, fun k hk => by dsimp only [PGSIZE] at *; omega, fun k hk => by dsimp only at *; omega⟩

/-- In the first file page, the copy is in bounds if the file reaches the offset of the area in its page. -/
theorem firstPage_inBounds (h : img.HoldsFile area) (hf : img.Ram f) (hfirst : FirstFilePage img area va)
    (hfile : area.vm_flags &&& 0x1 ≠ 1) :
    (∀ c, demandCopy img area (framePtr f) va = some c → CopyInBounds img area (framePtr f) c) ↔
      area.vm_start % PGSIZE ≤ area.vm_filesz := by
  have hb := h.bounds
  have hoff : area.vm_start % PGSIZE < PGSIZE := Nat.mod_lt _ (by decide)
  have hstart : img.sramdisk + area.vm_pgoff + PGSIZE < 2 ^ 64 := by
    simp only [PGSIZE]
    omega
  have hlen := copyLength_eq h hstart hoff
  have hcopy : demandCopy img area (framePtr f) va = some ((framePtr f + area.vm_start % PGSIZE) % 2 ^ 64,
      img.sramdisk + area.vm_pgoff, copyLength img area (img.sramdisk + area.vm_pgoff) (area.vm_start % PGSIZE)) := by
    rw [demandCopy, if_pos hfile, copyStart_first h hfirst]
  rw [hcopy]
  simp only [Option.some.injEq, forall_eq']
  rw [copyInBounds_iff h hf (by omega) hoff, hlen, if_neg (by omega)]
  generalize area.vm_start % PGSIZE = o at *
  simp only [PGSIZE] at *
  by_cases hlong : img.sramdisk + area.vm_pgoff + 0x1000 < img.sramdisk + area.vm_pgoff + area.vm_filesz
  · rw [if_pos hlong]
    omega
  · rw [if_neg hlong]
    omega

/-- Behind the first file page, the copy is in bounds if the page does not begin before the area. -/
theorem laterPage_inBounds (h : img.HoldsFile area) (hf : img.Ram f) (hlater : ¬ FirstFilePage img area va)
    (hfile : area.vm_flags &&& 0x1 ≠ 1) (hva : area.vm_start ≤ va) (hlt : va < 2 ^ 64) :
    (∀ c, demandCopy img area (framePtr f) va = some c → CopyInBounds img area (framePtr f) c) ↔
      area.vm_start ≤ PGROUNDDOWN va ∧ img.sramdisk + area.vm_pgoff + (PGROUNDDOWN va - area.vm_start) + PGSIZE < 2 ^ 64 := by
  have hb := h.bounds
  have hpage : PGROUNDDOWN va ≤ va ∧ va < PGROUNDDOWN va + PGSIZE := by
    simp only [PGROUNDDOWN, PGSIZE]
    omega
  obtain ⟨start, hstart⟩ : ∃ start, start = (img.sramdisk + area.vm_pgoff + PGROUNDDOWN va + (2 ^ 64 - area.vm_start)) % 2 ^ 64 :=
    ⟨_, rfl⟩
  have hcopy : demandCopy img area (framePtr f) va = some ((framePtr f + 0) % 2 ^ 64, start, copyLength img area start 0) := by
    rw [demandCopy, if_pos hfile, copyStart_later h hlater, hstart]
  rw [hcopy]
  simp only [Option.some.injEq, forall_eq']
  rw [copyInBounds_iff h hf (by omega) (by decide)]
  generalize PGROUNDDOWN va = base at *
  by_cases hnear : start + PGSIZE < 2 ^ 64
  · rw [copyLength_eq h hnear (by decide)]
    simp only [PGSIZE] at *
    split
    · omega
    · split
      · omega
      · omega
  · have hfar : copyLength img area start 0 = PGSIZE := by
      rw [copyLength, Nat.mod_eq_of_lt (a := img.sramdisk + area.vm_pgoff + area.vm_filesz) (by omega)]
      have hmod : (0x1000 + (2 ^ 64 - 0)) % 2 ^ 64 = 0x1000 := by decide
      simp only [PGSIZE] at *
      rw [if_neg (by simp; omega), if_pos (by omega), hmod]
    rw [hfar]
    simp only [PGSIZE] at *
    omega

end Bounds

/-- The copy of a demand fault is in bounds if and only if the condition on the area and the address holds. -/
theorem demandCopy_inBounds {img : Image} {area : VmArea} {f va : Nat} (h : img.HoldsFile area) (hf : img.Ram f)
    (hva : area.vm_start ≤ va) (hlt : va < 2 ^ 64) :
    (∀ c, demandCopy img area (framePtr f) va = some c → CopyInBounds img area (framePtr f) c) ↔ CopyFits img area va := by
  rw [CopyFits]
  by_cases hfile : area.vm_flags &&& 0x1 = 1
  · refine iff_of_true (fun c hc => ?_) (.inl hfile)
    rw [demandCopy, if_neg (not_not.mpr hfile)] at hc
    cases hc
  · by_cases hfirst : FirstFilePage img area va
    · rw [firstPage_inBounds h hf hfirst hfile, if_pos hfirst, or_iff_right hfile]
    · rw [laterPage_inBounds h hf hfirst hfile hva hlt, if_neg hfirst, or_iff_right hfile]

theorem demandCopy_inBounds_board : CopyInBounds board ⟨0, 0x1100, 0x1900, 0, 0, 6, 0x100, 0x800⟩ (framePtr 0x80300)
    (framePtr 0x80300 + 0x100, board.sramdisk + 0x100, 0x700) :=
  (demandCopy_inBounds ⟨by decide, by decide, by decide⟩ ⟨by decide, by decide⟩ (by decide) (by decide)).mpr (by decide) _
    (show demandCopy board _ _ 0x1200 = _ by decide)

/-- The segment of `shortElf`: it starts in the middle of a page and has few bytes in the file. -/
def shortSegment : Segment := ⟨0x1800, 0x800, 0x800, 0x100, 6⟩

def shortElf : List UInt8 := elfBytes 0x1800
  [{ p_type := PT_LOAD, p_flags := 6, p_offset := 0x800, p_vaddr := 0x1800, p_filesz := 0x100, p_memsz := 0x800 }]

theorem bootMem_short : BootMem (elfMem shortElf) [stackSegment, shortSegment] := by
  have hlen : shortElf.length = 120 := rfl
  exact .of_elf (by rw [hlen]; decide) (by decide) (by decide) rfl (by decide)

/-- A fault at the start of the segment copies from the file far beyond the new page, whatever page it is. -/
theorem demandCopy_escapes : ∃ s l p, Reachable board (fun _ _ => True) s ∧ s.Runs 1 ∧
    Chain (fun p => (s.vma p).vm_next) (s.mmap 1) l ∧ p ∈ l ∧
    ((s.vma p).vm_start ≤ 0x1800 ∧ 0x1800 < (s.vma p).vm_end ∧ (s.vma p).vm_filesz ≤ (s.vma p).vm_end - (s.vma p).vm_start) ∧
    board.HoldsFile (s.vma p) ∧
    ∀ f, board.Ram f → ∃ c, demandCopy board (s.vma p) (framePtr f) 0x1800 = some c ∧ ¬ CopyInBounds board (s.vma p) (framePtr f) c := by
  obtain ⟨lay, s, h, hi⟩ := bootMem_short.enter (n := 0) (Nat.zero_le _)
  obtain ⟨l, hl, hareas⟩ := h.areas
  obtain _ | ⟨_, _ | ⟨hat, _ | _⟩⟩ := hareas
  rename_i p₁ p₂
  obtain ⟨hstart, hend, hoff, hsz, hflags⟩ := hat
  have hhead := hl.chain
  rw [h.room.inv.paging.mmap_eq hi.1] at hhead
  have hholds : board.HoldsFile (s.vma p₂) := by
    rw [Image.HoldsFile, hoff, hsz]
    decide
  refine ⟨s, _, p₂, h.reach _ fun _ _ => trivial, hi, hhead, List.mem_cons_of_mem _ List.mem_cons_self, ?_, hholds, fun f hf => ?_⟩
  · rw [hstart, hend, hsz]
    decide
  · have hfirst : FirstFilePage board (s.vma p₂) 0x1800 := by
      rw [FirstFilePage, hoff, hstart]
      decide
    have hfile : (s.vma p₂).vm_flags &&& 0x1 ≠ 1 := by
      rw [hflags]
      decide
    by_contra hno
    have hfits := (firstPage_inBounds hholds hf hfirst hfile).mp fun c hc => by
      by_contra hbad
      exact hno ⟨c, hc, hbad⟩
    rw [hstart, hsz] at hfits
    exact absurd hfits (by decide)

end ZjuOs
