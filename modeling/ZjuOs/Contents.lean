import ZjuOs.FileCopies

/-!
What a new page holds when a demand fault has been resolved: the bytes of the file where the area has them, and
zero elsewhere, or not.
-/
namespace ZjuOs
open Memory Exec

/-- The copy from the file into the new page, whose first eight bytes have been cleared. -/
def fileCopy (img : Image) (area : VmArea) (page va : Nat) : K Unit :=
  match demandCopy img area page va with
  | some (dest, source, n) => memcpy img dest source n
  | none => return ()

/-- The byte of the segment at `a`: from the file, or zero. -/
def segmentByte (img : Image) (area : VmArea) (m : Mem) (a : Nat) : UInt8 :=
  if area.vm_flags &&& 0x1 ≠ 1 ∧ a - area.vm_start < area.vm_filesz then
    m (VA2PA (img.sramdisk + area.vm_pgoff + (a - area.vm_start)))
  else 0

/-- `a` is an address of the area in the page of `va`. -/
def InPage (area : VmArea) (va a : Nat) : Prop := a / PGSIZE = va / PGSIZE ∧ area.vm_start ≤ a ∧ a < area.vm_end

/-- Whatever the new frame `f` and the rest of the memory held, the copy leaves the bytes of the segment in the page. -/
def Delivers (img : Image) (area : VmArea) (f va : Nat) : Prop :=
  ∀ s t : KState, (∀ b, b < 8 → s.mem (f * 4096 + b) = 0) → (fileCopy img area (framePtr f) va).run s = .ok () t →
    ∀ a, InPage area va a → t.mem (f * 4096 + a % 4096) = segmentByte img area s.mem a

/-- Behind the file bytes of the area, its bytes in the page are among the first eight of the page. -/
def ZerosFirst (area : VmArea) (va : Nat) : Prop :=
  ∀ a, InPage area va a → area.vm_filesz ≤ a - area.vm_start → a % PGSIZE < 8

/-- The copy brings every file byte of the page to its place, and what it does not write has been cleared. -/
def FillsRight (img : Image) (area : VmArea) (va : Nat) : Prop :=
  if area.vm_flags &&& 0x1 = 1 then ∀ a, InPage area va a → a % PGSIZE < 8
  else if FirstFilePage img area va then
    area.vm_filesz < area.vm_start % PGSIZE ∨
      ∀ a, InPage area va a →
        if a - area.vm_start < area.vm_filesz then
          a / PGSIZE = area.vm_start / PGSIZE ∧ (a % PGSIZE < area.vm_filesz ∨ PGSIZE < area.vm_filesz)
        else a % PGSIZE < 8 ∧ (a % PGSIZE < area.vm_start % PGSIZE ∨ area.vm_filesz ≤ a % PGSIZE)
  else img.sramdisk + area.vm_pgoff + PGROUNDDOWN va + PGSIZE < 2 ^ 64 + area.vm_start ∧ ZerosFirst area va

section Copy
variable {img : Image} {s t : KState} {f o n source : Nat}

/-- The bytes of a copy that fits into the page: those that it reads from the direct map are the bytes there. -/
theorem ends_memcpy_bytes (hf : img.Ram f) (ho : o + n ≤ 4096) (hs : source < 2 ^ 64) : Ends (memcpy img (framePtr f + o) source n) s
    (fun _ t => (∀ x, x < f * 4096 + o ∨ f * 4096 + o + n ≤ x → t.mem x = s.mem x) ∧
      ∀ k y, k < n → y = (source + k) % 2 ^ 64 → img.inDirectMap y = true → (VA2PA y < f * 4096 ∨ f * 4096 + 4096 ≤ VA2PA y) →
        t.mem (f * 4096 + o + k) = s.mem (VA2PA y))
    fun e _ => e = .fault := by
  induction n generalizing s o source with
  | zero => exact ends_pure.mpr ⟨fun _ _ => rfl, fun k _ hk => absurd hk (Nat.not_lt_zero k)⟩
  | succ n ih =>
      have hlt := framePtr_lt hf (o := o + 1) (by omega)
      rw [memcpy, ends_bind]
      have hbyte : Ends (loadByte img source) s
          (fun c u => u = s ∧ (img.inDirectMap source = true → c = s.mem (VA2PA source))) fun e _ => e = .fault := by
        by_cases hd : img.inDirectMap source = true
        · rw [loadByte, ends_bind, kernelPa, if_pos hd, ends_pure, ends_bind, ends_get, ends_pure]
          exact ⟨rfl, fun _ => rfl⟩
        · exact ends_loadByte_any.mono (fun _ _ hu => ⟨hu, fun hd' => absurd hd' hd⟩) fun _ _ he => he.1
      refine hbyte.mono ?_ fun _ _ he => he
      rintro c _ ⟨rfl, hc⟩
      rw [ends_bind, ends_storeByte hf (by omega), Nat.add_assoc, Nat.mod_eq_of_lt hlt]
      refine (ih (by omega) (Nat.mod_lt _ (Nat.two_pow_pos 64))).mono ?_ fun _ _ he => he
      rintro _ u ⟨hout, hin⟩
      refine ⟨fun x hx => ?_, fun k y hk hy hd hy' => ?_⟩
      · rw [hout x (by omega)]
        exact Function.update_of_ne (by omega) _ _
      · cases k with
        | zero =>
            rw [Nat.add_zero, Nat.mod_eq_of_lt hs] at hy
            rw [hy] at hd ⊢
            rw [Nat.add_zero, hout _ (by omega)]
            exact (Function.update_self ..).trans (hc hd)
        | succ k =>
            have hnext : y = ((source + 1) % 2 ^ 64 + k) % 2 ^ 64 := by omega
            have hbyte := hin k y (by omega) hnext hd hy'
            rw [show f * 4096 + (o + 1) + k = f * 4096 + o + (k + 1) by omega] at hbyte
            have hne : VA2PA y ≠ f * 4096 + o := by omega
            rw [hbyte, KState.withMem_mem, Function.update_of_ne hne]

/-- Every byte that the copy reads is 1, whatever it has stored so far. -/
def ReadsOnes (img : Image) (s : KState) (f source n : Nat) : Prop :=
  ∀ k, k < n → ∀ mem : Mem, (∀ x, x < f * 4096 ∨ f * 4096 + 4096 ≤ x → mem x = s.mem x) →
    ∃ pa, (kernelPa img PTE_R ((source + k) % 2 ^ 64)).run (s.withMem mem) = .ok pa (s.withMem mem) ∧ mem pa = 1

theorem ReadsOnes.tail {a : Nat} {c : UInt8} (h : ReadsOnes img s f source (n + 1)) (ha : f * 4096 ≤ a ∧ a < f * 4096 + 4096) :
    ReadsOnes img (s.withMem (Function.update s.mem a c)) f ((source + 1) % 2 ^ 64) n := by
  intro k hk mem hmem
  have hmod : ((source + 1) % 2 ^ 64 + k) % 2 ^ 64 = (source + (k + 1)) % 2 ^ 64 := by omega
  rw [hmod]
  refine h (k + 1) (by omega) mem fun x hx => ?_
  rw [hmem x hx]
  exact Function.update_of_ne (by omega) _ _

/-- A copy of ones returns. -/
theorem ends_memcpy_ones (hf : img.Ram f) (ho : o + n ≤ 4096) (hs : source < 2 ^ 64) (h : ReadsOnes img s f source n) :
    Ends (memcpy img (framePtr f + o) source n) s
      (fun _ t => (∀ x, x < f * 4096 + o ∨ f * 4096 + o + n ≤ x → t.mem x = s.mem x) ∧
        ∀ k, k < n → t.mem (f * 4096 + o + k) = 1)
      fun _ _ => False := by
  induction n generalizing s o source with
  | zero => exact ends_pure.mpr ⟨fun _ _ => rfl, fun k hk => absurd hk (Nat.not_lt_zero k)⟩
  | succ n ih =>
      have hlt := framePtr_lt hf (o := o + 1) (by omega)
      obtain ⟨pa, hrun, hone⟩ := h 0 (Nat.succ_pos n) s.mem fun _ _ => rfl
      rw [Nat.add_zero, Nat.mod_eq_of_lt hs, s.withMem_self] at hrun
      rw [memcpy, ends_bind, loadByte, ends_bind, ends_iff_of_ok hrun]
      simp only [ends_bind, ends_get, ends_pure]
      rw [ends_storeByte hf (by omega), Nat.add_assoc, Nat.mod_eq_of_lt hlt]
      refine (ih (by omega) (Nat.mod_lt _ (Nat.two_pow_pos 64)) (h.tail (by omega))).mono ?_ fun _ _ he => he
      rintro _ u ⟨hout, hin⟩
      refine ⟨fun x hx => ?_, fun k hk => ?_⟩
      · rw [hout x (by omega)]
        exact Function.update_of_ne (by omega) _ _
      · cases k with
        | zero =>
            rw [Nat.add_zero, hout _ (by omega)]
            exact (Function.update_self ..).trans hone
        | succ k =>
            have hbyte := hin k (by omega)
            rwa [show f * 4096 + (o + 1) + k = f * 4096 + o + (k + 1) by omega] at hbyte

end Copy

section Image
variable {img : Image} {area : VmArea} {s t : KState} {f o n source va y : Nat}

/-- A byte of the kernel image is reached through the direct map, below the frames of the allocator. -/
theorem Image.Holds.byte (hh : img.Holds y 1) :
    img.inDirectMap y = true ∧ VA2PA y < img.firstFree * 4096 ∧ VA2PA y = y - PA2VA_OFFSET := by
  obtain ⟨-, hdir, -⟩ := hh.direct Nat.one_pos
  have hbelow := hh.below Nat.one_pos
  have hroom := img.room
  obtain ⟨hlo, hhi⟩ := hh
  rw [Nat.add_zero] at hdir hbelow
  refine ⟨hdir, hbelow, ?_⟩
  simp only [VA2PA, VM_START, PA2VA_OFFSET] at *
  omega

theorem readsAt_image {dst : Nat} (hlo : VM_START ≤ source) (hhi : source + n ≤ img.ekernel) :
    ReadsAt img s source (VA2PA source) dst n := by
  intro i hi mem _
  have hh : img.Holds source n := ⟨hlo, hhi⟩
  obtain ⟨hmod, hdir, hpa⟩ := hh.direct hi
  rw [hmod, kernelPa, if_pos hdir, hpa]
  rfl

theorem fileCopy_run (hf : img.Ram f) (ho : o ≤ 4096) (hcopy : demandCopy img area (framePtr f) va = some ((framePtr f + o) % 2 ^ 64, source, n)) :
    fileCopy img area (framePtr f) va = memcpy img (framePtr f + o) source n := by
  rw [fileCopy, hcopy, Nat.mod_eq_of_lt (framePtr_lt hf ho)]

/-- The page after a copy that fits into it. -/
theorem fileCopy_bytes (hf : img.Ram f) (hfree : img.firstFree ≤ f) (ho : o + n ≤ 4096) (hs : source < 2 ^ 64)
    (hcopy : demandCopy img area (framePtr f) va = some ((framePtr f + o) % 2 ^ 64, source, n))
    (hrun : (fileCopy img area (framePtr f) va).run s = .ok () t) {b : Nat} :
    (b < o ∨ o + n ≤ b → t.mem (f * 4096 + b) = s.mem (f * 4096 + b)) ∧
      (o ≤ b → b < o + n → VM_START ≤ source + (b - o) → source + (b - o) < img.ekernel →
        t.mem (f * 4096 + b) = s.mem (VA2PA (source + (b - o)))) := by
  rw [fileCopy_run hf (by omega) hcopy] at hrun
  obtain ⟨hout, hin⟩ := (ends_memcpy_bytes hf ho hs).of_ok hrun
  refine ⟨fun hb => hout _ (by omega), fun hlo hhi himg hend => ?_⟩
  obtain ⟨hdir, hbelow, -⟩ := Image.Holds.byte ⟨himg, hend⟩
  have hlt : img.ekernel < 2 ^ 64 := Nat.lt_of_le_of_lt (Nat.le_add_right _ _) img.room
  have hmod : (source + (b - o)) % 2 ^ 64 = source + (b - o) := Nat.mod_eq_of_lt (hend.trans hlt)
  have hbyte := hin (b - o) _ (by omega) hmod.symm hdir (.inl (hbelow.trans_le (Nat.mul_le_mul_right 4096 hfree)))
  rwa [show f * 4096 + o + (b - o) = f * 4096 + b by omega] at hbyte

theorem demandCopy_first (h : img.HoldsFile area) (hfile : area.vm_flags &&& 0x1 ≠ 1) (hfirst : FirstFilePage img area va) :
    demandCopy img area (framePtr f) va = some ((framePtr f + area.vm_start % PGSIZE) % 2 ^ 64, img.sramdisk + area.vm_pgoff,
      if PGSIZE < area.vm_filesz then PGSIZE - area.vm_start % PGSIZE
      else (area.vm_filesz + (2 ^ 64 - area.vm_start % PGSIZE)) % 2 ^ 64) := by
  have hb := h.bounds
  have hstart : img.sramdisk + area.vm_pgoff + PGSIZE < 2 ^ 64 := by
    simp only [PGSIZE]
    omega
  rw [demandCopy, if_pos hfile, copyStart_first h hfirst]
  dsimp only
  rw [copyLength_eq h hstart (Nat.mod_lt _ (by decide)), if_neg (by omega)]
  by_cases hlong : PGSIZE < area.vm_filesz
  · rw [if_pos (by omega), if_pos hlong]
  · rw [if_neg (by omega), if_neg hlong, Nat.add_sub_cancel_left]

theorem demandCopy_later (h : img.HoldsFile area) (hfile : area.vm_flags &&& 0x1 ≠ 1) (hlater : ¬ FirstFilePage img area va)
    (hva : area.vm_start ≤ va) (hlt : va < 2 ^ 64) (hnear : img.sramdisk + area.vm_pgoff + PGROUNDDOWN va + PGSIZE < 2 ^ 64 + area.vm_start) :
    demandCopy img area (framePtr f) va = some ((framePtr f + 0) % 2 ^ 64, img.sramdisk + area.vm_pgoff + PGROUNDDOWN va - area.vm_start,
      if area.vm_filesz + area.vm_start < PGROUNDDOWN va then 0
      else if PGROUNDDOWN va + PGSIZE < area.vm_filesz + area.vm_start then PGSIZE
      else area.vm_filesz + area.vm_start - PGROUNDDOWN va) := by
  have hb := h.bounds
  have hpage : va < PGROUNDDOWN va + PGSIZE := by
    simp only [PGROUNDDOWN, PGSIZE]
    omega
  have hmod : (img.sramdisk + area.vm_pgoff + PGROUNDDOWN va + (2 ^ 64 - area.vm_start)) % 2 ^ 64 =
      img.sramdisk + area.vm_pgoff + PGROUNDDOWN va - area.vm_start := by
    simp only [PGSIZE] at *
    omega
  have hstart : img.sramdisk + area.vm_pgoff + PGROUNDDOWN va - area.vm_start + PGSIZE < 2 ^ 64 := by
    simp only [PGSIZE] at *
    omega
  rw [demandCopy, if_pos hfile, copyStart_later h hlater, hmod]
  dsimp only
  rw [copyLength_eq h hstart (by decide)]
  generalize PGROUNDDOWN va = base at *
  by_cases hend : area.vm_filesz + area.vm_start < base
  · rw [if_pos (by omega), if_pos hend]
  · rw [if_neg (by omega), if_neg hend]
    by_cases hlong : base + PGSIZE < area.vm_filesz + area.vm_start
    · rw [if_pos (by omega), if_pos hlong, Nat.sub_zero]
    · have hlen : (img.sramdisk + area.vm_pgoff + area.vm_filesz - (img.sramdisk + area.vm_pgoff + base - area.vm_start) +
          (2 ^ 64 - 0)) % 2 ^ 64 = area.vm_filesz + area.vm_start - base := by omega
      rw [if_neg (by omega), if_neg hlong, hlen]

end Image

section Delivers
variable {img : Image} {area : VmArea} {f va : Nat}

theorem segmentByte_file {m : Mem} {a : Nat} (hfile : area.vm_flags &&& 0x1 ≠ 1) (ha : a - area.vm_start < area.vm_filesz) :
    segmentByte img area m a = m (VA2PA (img.sramdisk + area.vm_pgoff + (a - area.vm_start))) := if_pos ⟨hfile, ha⟩

theorem segmentByte_zero {m : Mem} {a : Nat} (ha : area.vm_filesz ≤ a - area.vm_start) : segmentByte img area m a = 0 :=
  if_neg fun hno => Nat.not_lt.mpr ha hno.2

/-- In the first file page. -/
theorem first_delivers (h : img.HoldsFile area) (hf : img.Ram f) (hfree : img.firstFree ≤ f) (hfile : area.vm_flags &&& 0x1 ≠ 1)
    (hfirst : FirstFilePage img area va)
    (hfill : area.vm_filesz < area.vm_start % PGSIZE ∨
      ∀ a, InPage area va a →
        if a - area.vm_start < area.vm_filesz then
          a / PGSIZE = area.vm_start / PGSIZE ∧ (a % PGSIZE < area.vm_filesz ∨ PGSIZE < area.vm_filesz)
        else a % PGSIZE < 8 ∧ (a % PGSIZE < area.vm_start % PGSIZE ∨ area.vm_filesz ≤ a % PGSIZE)) :
    Delivers img area f va := by
  intro s t hzero hrun a ha
  have hb := h.bounds
  have hcopy := demandCopy_first (f := f) h hfile hfirst
  have hoff : area.vm_start % PGSIZE < PGSIZE := Nat.mod_lt _ (by decide)
  by_cases hshort : area.vm_filesz < area.vm_start % PGSIZE
  · -- the length has wrapped, and the copy does not return
    rw [if_neg (by omega)] at hcopy
    rw [fileCopy_run hf hoff.le hcopy] at hrun
    refine ((ends_memcpy_wrapped hf hoff ?_).of_ok hrun).elim
    simp only [PGSIZE] at *
    omega
  · have hlen : (if PGSIZE < area.vm_filesz then PGSIZE - area.vm_start % PGSIZE
        else (area.vm_filesz + (2 ^ 64 - area.vm_start % PGSIZE)) % 2 ^ 64) = min PGSIZE area.vm_filesz - area.vm_start % PGSIZE := by
      simp only [PGSIZE] at *
      split <;> omega
    rw [hlen] at hcopy
    have hbytes := fileCopy_bytes (b := a % 4096) hf hfree (by simp only [PGSIZE] at *; omega) (by omega) hcopy hrun
    have hright := hfill.resolve_left hshort a ha
    obtain ⟨-, hlo, -⟩ := ha
    by_cases hin : a - area.vm_start < area.vm_filesz
    · rw [if_pos hin] at hright
      simp only [PGSIZE] at *
      rw [segmentByte_file hfile hin, hbytes.2 (by omega) (by omega) (by simp only [VM_START]; omega) (by have := h.2; omega)]
      congr 2
      omega
    · rw [if_neg hin] at hright
      simp only [PGSIZE] at *
      rw [segmentByte_zero (by omega), hbytes.1 (by omega)]
      exact hzero _ hright.1

/-- Behind the first file page. -/
theorem later_delivers (h : img.HoldsFile area) (hf : img.Ram f) (hfree : img.firstFree ≤ f) (hfile : area.vm_flags &&& 0x1 ≠ 1)
    (hlater : ¬ FirstFilePage img area va) (hva : area.vm_start ≤ va) (hlt : va < 2 ^ 64)
    (hnear : img.sramdisk + area.vm_pgoff + PGROUNDDOWN va + PGSIZE < 2 ^ 64 + area.vm_start) (hzeros : ZerosFirst area va) :
    Delivers img area f va := by
  intro s t hzero hrun a ha
  have hb := h.bounds
  have hcopy := demandCopy_later (f := f) h hfile hlater hva hlt hnear
  have hbase : a = PGROUNDDOWN va + a % 4096 := by
    have hpage := ha.1
    simp only [PGROUNDDOWN, PGSIZE] at *
    omega
  have hright := hzeros a ha
  obtain ⟨-, hlo, -⟩ := ha
  have hpage : va < PGROUNDDOWN va + 4096 := by
    simp only [PGROUNDDOWN, PGSIZE]
    omega
  obtain ⟨n, hn⟩ : ∃ n, n = if area.vm_filesz + area.vm_start < PGROUNDDOWN va then 0
      else if PGROUNDDOWN va + PGSIZE < area.vm_filesz + area.vm_start then PGSIZE
      else area.vm_filesz + area.vm_start - PGROUNDDOWN va := ⟨_, rfl⟩
  rw [← hn] at hcopy
  simp only [PGSIZE] at *
  have hfit : 0 + n ≤ 4096 := by
    rw [hn]
    split
    · omega
    · split <;> omega
  have hcopied : a % 4096 < n ↔ a - area.vm_start < area.vm_filesz := by
    rw [hn]
    split
    · omega
    · split <;> omega
  have hbytes := fileCopy_bytes (b := a % 4096) hf hfree hfit (by omega) hcopy hrun
  by_cases hin : a - area.vm_start < area.vm_filesz
  · have hsource : img.sramdisk + area.vm_pgoff + PGROUNDDOWN va - area.vm_start + (a % 4096 - 0) =
        img.sramdisk + area.vm_pgoff + (a - area.vm_start) := by omega
    rw [hsource] at hbytes
    rw [segmentByte_file hfile hin]
    refine hbytes.2 (Nat.zero_le _) (by have := hcopied.mpr hin; omega) (by simp only [VM_START]; omega) ?_
    have := h.2
    omega
  · rw [segmentByte_zero (by omega), hbytes.1 (by have := hcopied.not.mpr hin; omega)]
    exact hzero _ (hright (by omega))

theorem FillsRight.delivers (h : area.vm_flags &&& 0x1 ≠ 1 → img.HoldsFile area) (hf : img.Ram f) (hfree : img.firstFree ≤ f)
    (hva : area.vm_start ≤ va) (hlt : va < 2 ^ 64) (hfill : FillsRight img area va) : Delivers img area f va := by
  rw [FillsRight] at hfill
  by_cases hanon : area.vm_flags &&& 0x1 = 1
  · rw [if_pos hanon] at hfill
    intro s t hzero hrun a ha
    have hcopy : demandCopy img area (framePtr f) va = none := if_neg (not_not.mpr hanon)
    rw [fileCopy, hcopy] at hrun
    cases hrun
    rw [segmentByte, if_neg fun hno => hno.1 hanon]
    exact hzero _ (hfill a ha)
  · rw [if_neg hanon] at hfill
    by_cases hfirst : FirstFilePage img area va
    · rw [if_pos hfirst] at hfill
      exact first_delivers (h hanon) hf hfree hanon hfirst hfill
    · rw [if_neg hfirst] at hfill
      exact later_delivers (h hanon) hf hfree hanon hfirst hva hlt hfill.1 hfill.2

end Delivers

section Ones
variable {img : Image} {area : VmArea} {f o n source va : Nat}

/-- A state with the given memory, whose page table is the frame `2 ^ 30`. -/
def blankState (m : Mem) : KState where
  mem := m
  buddy := ⟨0, fun _ => 0, fun _ => 0⟩
  satp := 2 ^ 30
  idle := 0
  current := 0
  task := fun _ => 0
  tasksNumber := 0
  seed := 0
  vma := fun _ => ⟨0, 0, 0, 0, 0, 0, 0, 0⟩
  trace := []

/-- Ones everywhere, but for the cleared bytes of frame `f` and a root table that maps each gigabyte to the first one. -/
def onesMem (f : Nat) : Mem := fun x =>
  if x / 4096 = 2 ^ 30 then if x % 8 = 0 then 3 else 0
  else if f * 4096 ≤ x ∧ x < f * 4096 + 8 then 0 else 1

theorem onesMem_entry {m : Mem} {i : Nat} (hf : img.Ram f)
    (hm : ∀ x, x < f * 4096 ∨ f * 4096 + 4096 ≤ x → m x = onesMem f x) (hi : i < 512) : entry m (2 ^ 30) i = 3 := by
  have hb := hf.bounds
  have hword : ld 8 m (2 ^ 30 * 4096 + 8 * i) = ld 8 (fun o => if o = 0 then 3 else 0) 0 := ld_shift fun o ho => by
    rw [hm _ (by omega), onesMem, if_pos (by omega)]
    exact if_congr (by omega) rfl rfl
  rw [entry, hword]
  rfl

/-- Every address outside of frame `f` reads as a one, through the direct map or through the root table. -/
theorem ones_read {m : Mem} {y : Nat} (hf : img.Ram f) (hm : ∀ x, x < f * 4096 ∨ f * 4096 + 4096 ≤ x → m x = onesMem f x)
    (hy : y < 2 ^ 64) (hcan : Canonical y) (hout : y < framePtr f ∨ framePtr f + 4096 ≤ y) :
    ∃ pa, (kernelPa img PTE_R y).run (blankState m) = .ok pa (blankState m) ∧ m pa = 1 := by
  have hb := hf.bounds
  by_cases hd : img.inDirectMap y = true
  · refine ⟨VA2PA y, by rw [kernelPa, if_pos hd]; rfl, ?_⟩
    have hrange := of_decide_eq_true hd
    have h20 := img.two_pow_order_le
    simp only [VA2PA, Image.phySize, VM_START, PGSIZE, PA2VA_OFFSET, framePtr] at *
    rw [hm _ (by omega), onesMem, if_neg (by omega), if_neg (by omega)]
  · have htr : translate m (2 ^ 30) y = some (3, y % 2 ^ 30) := by
      rw [translate, if_pos hcan, sv39Walk, onesMem_entry hf hm (VPN_lt y 2)]
      dsimp only
      have hppn : ppn 3 = 0 := by decide
      rw [if_neg (by decide), if_pos (by decide), Option.bind_some, if_pos (by rw [hppn]; rfl), hppn, Nat.zero_mul, Nat.zero_add]
      rfl
    have hroot : satpRoot (blankState m).satp = 2 ^ 30 := show satpRoot (2 ^ 30) = 2 ^ 30 by decide
    have hmem : (blankState m).mem = m := rfl
    refine ⟨y % 2 ^ 30, ?_, ?_⟩
    · rw [kernelPa, if_neg hd, run_bind_of_ok (x := get) (a := blankState m) (t := blankState m) rfl, hroot, hmem, htr]
      rfl
    · rw [hm _ (by omega), onesMem, if_neg (by omega), if_neg (by omega)]

/-- If the copy may read nothing but ones, the bytes that have to be zero are cleared and not copied. -/
theorem Delivers.ones (hd : Delivers img area f va) (hf : img.Ram f) (ho : o + n ≤ 4096) (hs : source < 2 ^ 64)
    (hcopy : demandCopy img area (framePtr f) va = some ((framePtr f + o) % 2 ^ 64, source, n))
    (hread : ∀ k, k < n → Canonical ((source + k) % 2 ^ 64) ∧
      ((source + k) % 2 ^ 64 < framePtr f ∨ framePtr f + 4096 ≤ (source + k) % 2 ^ 64))
    {a : Nat} (ha : InPage area va a) (hend : area.vm_filesz ≤ a - area.vm_start) :
    a % 4096 < 8 ∧ (a % 4096 < o ∨ o + n ≤ a % 4096) := by
  have hb := hf.bounds
  have hones : ReadsOnes img (blankState (onesMem f)) f source n := fun k hk mem hmem => by
    obtain ⟨hcan, hout⟩ := hread k hk
    exact ones_read hf hmem (Nat.mod_lt _ (Nat.two_pow_pos 64)) hcan hout
  have hends := ends_memcpy_ones hf ho hs hones
  rw [← fileCopy_run hf (by omega) hcopy] at hends
  have hzero : ∀ b, b < 8 → (blankState (onesMem f)).mem (f * 4096 + b) = 0 := fun b hb8 => by
    change onesMem f (f * 4096 + b) = 0
    rw [onesMem, if_neg (by omega), if_pos (by omega)]
  cases hrun : (fileCopy img area (framePtr f) va).run (blankState (onesMem f)) with
  | error e t => exact (hends.of_error hrun).elim
  | ok u t =>
      obtain ⟨hout, hin⟩ := hends.of_ok hrun
      have hbyte := hd _ t hzero hrun a ha
      rw [segmentByte_zero hend] at hbyte
      by_cases hcopied : o ≤ a % 4096 ∧ a % 4096 < o + n
      · have hone := hin (a % 4096 - o) (by omega)
        rw [show f * 4096 + o + (a % 4096 - o) = f * 4096 + a % 4096 by omega, hbyte] at hone
        exact absurd hone (by decide)
      · refine ⟨?_, by omega⟩
        by_contra hno
        rw [hout _ (by omega)] at hbyte
        change onesMem f (f * 4096 + a % 4096) = 0 at hbyte
        rw [onesMem, if_neg (by omega), if_neg (by omega)] at hbyte
        exact absurd hbyte (by decide)

/-- A file byte of the page is copied, and from its place. -/
theorem Delivers.point (hd : Delivers img area f va) (h : img.HoldsFile area) (hf : img.Ram f) (hfree : img.firstFree ≤ f)
    (hfile : area.vm_flags &&& 0x1 ≠ 1) (ho : o + n ≤ 4096) (hlo : VM_START ≤ source) (hhi : source + n ≤ img.ekernel)
    (hcopy : demandCopy img area (framePtr f) va = some ((framePtr f + o) % 2 ^ 64, source, n))
    {a : Nat} (ha : InPage area va a) (hin : a - area.vm_start < area.vm_filesz) :
    o ≤ a % 4096 ∧ a % 4096 < o + n ∧ source + (a % 4096 - o) = img.sramdisk + area.vm_pgoff + (a - area.vm_start) := by
  have hb := hf.bounds
  obtain ⟨y, hy⟩ : ∃ y, y = img.sramdisk + area.vm_pgoff + (a - area.vm_start) := ⟨_, rfl⟩
  have himg : img.Holds y 1 := by
    have h1 := h.1
    have h2 := h.2
    constructor <;> omega
  obtain ⟨-, hbelow, hpa⟩ := himg.byte
  have hout := hbelow.trans_le (Nat.mul_le_mul_right 4096 hfree)
  obtain ⟨m, hm⟩ : ∃ m : Mem, m = fun x => if x = VA2PA y then 1 else 0 := ⟨_, rfl⟩
  have hother : ∀ x, x ≠ VA2PA y → m x = 0 := fun x hx => by
    rw [hm]
    exact if_neg hx
  have hlt : source < 2 ^ 64 := by
    have := img.room
    omega
  have hsource : 0 < n → VA2PA source = source - PA2VA_OFFSET ∧ VA2PA source + n ≤ f * 4096 := fun hpos => by
    have hhead : img.Holds source 1 := ⟨hlo, by omega⟩
    have htail : img.Holds (source + (n - 1)) 1 := ⟨by omega, by omega⟩
    obtain ⟨-, -, hfirst⟩ := hhead.byte
    obtain ⟨-, hlast, hend⟩ := htail.byte
    have hle := hlast.trans_le (Nat.mul_le_mul_right 4096 hfree)
    refine ⟨hfirst, ?_⟩
    simp only [VM_START, PA2VA_OFFSET] at *
    omega
  have hdisj : VA2PA source + n ≤ f * 4096 + o ∨ f * 4096 + o + n ≤ VA2PA source := by
    rcases Nat.eq_zero_or_pos n with hzero | hpos
    · omega
    · have := (hsource hpos).2
      omega
  have hends : Ends (fileCopy img area (framePtr f) va) (blankState m)
      (fun _ t => t = (blankState m).withMem (copy m (f * 4096 + o) (VA2PA source) n)) fun _ _ => False := by
    rw [fileCopy_run hf (by omega) hcopy, ends_memcpy hf ho hlt (readsAt_image hlo hhi) hdisj]
    rfl
  cases hrun : (fileCopy img area (framePtr f) va).run (blankState m) with
  | error e t => exact (hends.of_error hrun).elim
  | ok u t =>
      have ht := hends.of_ok hrun
      have hbyte := hd _ t (fun b hb8 => hother _ (by omega)) hrun a ha
      rw [segmentByte_file hfile hin, ← hy, ht, KState.withMem_mem] at hbyte
      have hone : (blankState m).mem (VA2PA y) = 1 := by
        change m (VA2PA y) = 1
        rw [hm]
        exact if_pos rfl
      rw [hone] at hbyte
      by_cases hcopied : o ≤ a % 4096 ∧ a % 4096 < o + n
      · have hsrc := (hsource (by omega)).1
        rw [copy_inside (by omega)] at hbyte
        have hplace : VA2PA source + (f * 4096 + a % 4096 - (f * 4096 + o)) = VA2PA y := by
          by_contra hne
          rw [hother _ hne] at hbyte
          exact absurd hbyte (by decide)
        refine ⟨hcopied.1, hcopied.2, ?_⟩
        simp only [VM_START, PA2VA_OFFSET] at *
        omega
      · rw [copy_outside (by omega), hother _ (by omega)] at hbyte
        exact absurd hbyte (by decide)

/-- Low addresses, those up to the end of the kernel image and those of the last page are canonical and outside of the
frames of the allocator. -/
theorem readable_outside {y : Nat} (hf : img.Ram f) (hfree : img.firstFree ≤ f)
    (hy : y < 2 ^ 38 ∨ (2 ^ 64 - 2 ^ 38 ≤ y ∧ y < img.ekernel) ∨ (2 ^ 64 - 4096 ≤ y ∧ y < 2 ^ 64)) :
    Canonical y ∧ (y < framePtr f ∨ framePtr f + 4096 ≤ y) := by
  have hb := hf.bounds
  have hlow : 2 ^ 38 ≤ framePtr f := by
    simp only [framePtr, PGSIZE, PA2VA_OFFSET]
    omega
  rcases hy with hy | ⟨hlo, hhi⟩ | ⟨hlo, hhi⟩
  · exact ⟨.inl (by omega), .inl (by omega)⟩
  · have hlt : y < 2 ^ 64 := by
      have := img.room
      omega
    refine ⟨.inr (by omega), .inl ?_⟩
    by_cases himg : VM_START ≤ y
    · have hh : img.Holds y 1 := ⟨himg, hhi⟩
      obtain ⟨-, hbelow, hpa⟩ := hh.byte
      have hle := hbelow.trans_le (Nat.mul_le_mul_right 4096 hfree)
      simp only [framePtr, PGSIZE, PA2VA_OFFSET, VM_START] at *
      omega
    · simp only [framePtr, PGSIZE, PA2VA_OFFSET, VM_START] at *
      omega
  · refine ⟨.inr (by omega), .inr ?_⟩
    simp only [framePtr, PGSIZE, PA2VA_OFFSET] at *
    omega

theorem Delivers.first (hd : Delivers img area f va) (h : img.HoldsFile area) (hf : img.Ram f) (hfree : img.firstFree ≤ f)
    (hfile : area.vm_flags &&& 0x1 ≠ 1) (hfirst : FirstFilePage img area va) (hlong : ¬ area.vm_filesz < area.vm_start % PGSIZE) :
    ∀ a, InPage area va a →
      if a - area.vm_start < area.vm_filesz then
        a / PGSIZE = area.vm_start / PGSIZE ∧ (a % PGSIZE < area.vm_filesz ∨ PGSIZE < area.vm_filesz)
      else a % PGSIZE < 8 ∧ (a % PGSIZE < area.vm_start % PGSIZE ∨ area.vm_filesz ≤ a % PGSIZE) := by
  intro a ha
  have hb := h.bounds
  have hend := h.2
  have hoff : area.vm_start % PGSIZE < PGSIZE := Nat.mod_lt _ (by decide)
  have hcopy := demandCopy_first (f := f) h hfile hfirst
  have hlen : (if PGSIZE < area.vm_filesz then PGSIZE - area.vm_start % PGSIZE
      else (area.vm_filesz + (2 ^ 64 - area.vm_start % PGSIZE)) % 2 ^ 64) = min PGSIZE area.vm_filesz - area.vm_start % PGSIZE := by
    simp only [PGSIZE] at *
    split <;> omega
  rw [hlen] at hcopy
  have hfit : area.vm_start % PGSIZE + (min PGSIZE area.vm_filesz - area.vm_start % PGSIZE) ≤ 4096 := by
    simp only [PGSIZE] at *
    omega
  have hlo := ha.2.1
  by_cases hin : a - area.vm_start < area.vm_filesz
  · obtain ⟨hge, hlt, hplace⟩ := hd.point h hf hfree hfile hfit (by simp only [VM_START]; omega) (by omega) hcopy ha hin
    rw [if_pos hin]
    simp only [PGSIZE] at *
    omega
  · obtain ⟨h8, hout⟩ := hd.ones hf hfit (by omega) hcopy (fun k hk => by
      rw [Nat.mod_eq_of_lt (by omega)]
      exact readable_outside hf hfree (.inr (.inl ⟨by omega, by omega⟩))) ha (by omega)
    rw [if_neg hin]
    simp only [PGSIZE] at *
    omega

theorem Delivers.later (hd : Delivers img area f va) (h : img.HoldsFile area) (hf : img.Ram f) (hfree : img.firstFree ≤ f)
    (hfile : area.vm_flags &&& 0x1 ≠ 1) (hlater : ¬ FirstFilePage img area va) (hva : area.vm_start ≤ va) (hlow : va < 2 ^ 38)
    (hend : va < area.vm_end) :
    img.sramdisk + area.vm_pgoff + PGROUNDDOWN va + PGSIZE < 2 ^ 64 + area.vm_start ∧ ZerosFirst area va := by
  have hb := h.bounds
  have himg := h.2
  have hb' := hf.bounds
  have hpage : PGROUNDDOWN va ≤ va ∧ va < PGROUNDDOWN va + 4096 := by
    simp only [PGROUNDDOWN, PGSIZE]
    omega
  have hnear : img.sramdisk + area.vm_pgoff + PGROUNDDOWN va + PGSIZE < 2 ^ 64 + area.vm_start := by
    by_contra hfar
    -- the source has wrapped, or wraps in the copy: a whole page from elsewhere
    obtain ⟨start, hstart⟩ : ∃ start, start = (img.sramdisk + area.vm_pgoff + PGROUNDDOWN va + (2 ^ 64 - area.vm_start)) % 2 ^ 64 :=
      ⟨_, rfl⟩
    have hplace : (2 ^ 64 - 4096 ≤ start ∧ start < 2 ^ 64) ∨ start < 2 ^ 38 - 4096 := by
      simp only [PGSIZE] at *
      omega
    have hlen : copyLength img area start 0 = PGSIZE := by
      have hmod : (0x1000 + (2 ^ 64 - 0)) % 2 ^ 64 = 0x1000 := by decide
      have himgmod : (img.sramdisk + area.vm_pgoff + area.vm_filesz) % 2 ^ 64 = img.sramdisk + area.vm_pgoff + area.vm_filesz :=
        Nat.mod_eq_of_lt (by omega)
      rw [copyLength, himgmod]
      simp only [PGSIZE] at *
      rw [if_neg (by simp; omega), if_pos (by omega), hmod]
    have hcopy : demandCopy img area (framePtr f) va = some ((framePtr f + 0) % 2 ^ 64, start, PGSIZE) := by
      rw [demandCopy, if_pos hfile, copyStart_later h hlater, ← hstart]
      dsimp only
      rw [hlen]
    obtain ⟨-, hout⟩ := hd.ones hf (by decide) (by omega) hcopy (fun k hk => readable_outside hf hfree (by
      simp only [PGSIZE] at hk
      omega)) ⟨rfl, hva, hend⟩ (by simp only [PGSIZE] at *; omega)
    simp only [PGSIZE] at *
    omega
  refine ⟨hnear, fun a ha hzero => ?_⟩
  have hcopy := demandCopy_later (f := f) h hfile hlater hva (by omega) hnear
  obtain ⟨n, hn⟩ : ∃ n, n = if area.vm_filesz + area.vm_start < PGROUNDDOWN va then 0
      else if PGROUNDDOWN va + PGSIZE < area.vm_filesz + area.vm_start then PGSIZE
      else area.vm_filesz + area.vm_start - PGROUNDDOWN va := ⟨_, rfl⟩
  rw [← hn] at hcopy
  simp only [PGSIZE] at *
  have hfit : 0 + n ≤ 4096 ∧ (0 < n → PGROUNDDOWN va + n ≤ area.vm_filesz + area.vm_start) := by
    rw [hn]
    split
    · omega
    · split <;> omega
  refine (hd.ones hf hfit.1 (by omega) hcopy (fun k hk => ?_) ha hzero).1
  rw [Nat.mod_eq_of_lt (by omega)]
  exact readable_outside hf hfree (.inr (.inl ⟨by omega, by omega⟩))

/-- The copy leaves the bytes of the segment, whatever was in memory, if and only if it fills the page right. -/
theorem delivers_iff (h : area.vm_flags &&& 0x1 ≠ 1 → img.HoldsFile area) (hf : img.Ram f) (hfree : img.firstFree ≤ f)
    (hva : area.vm_start ≤ va) (hend : va < area.vm_end) (hlow : va < 2 ^ 38) :
    Delivers img area f va ↔ FillsRight img area va := by
  refine ⟨fun hd => ?_, fun hfill => hfill.delivers h hf hfree hva (by omega)⟩
  rw [FillsRight]
  by_cases hanon : area.vm_flags &&& 0x1 = 1
  · rw [if_pos hanon]
    intro a ha
    have hb := hf.bounds
    have hcopy : demandCopy img area (framePtr f) va = none := if_neg (not_not.mpr hanon)
    have hrun : (fileCopy img area (framePtr f) va).run (blankState (onesMem f)) = .ok () (blankState (onesMem f)) := by
      rw [fileCopy, hcopy]
      rfl
    have hzero : ∀ b, b < 8 → (blankState (onesMem f)).mem (f * 4096 + b) = 0 := fun b hb8 => by
      change onesMem f (f * 4096 + b) = 0
      rw [onesMem, if_neg (by omega), if_pos (by omega)]
    have hbyte := hd _ _ hzero hrun a ha
    rw [segmentByte, if_neg fun hno => hno.1 hanon] at hbyte
    by_contra hno
    change onesMem f (f * 4096 + a % 4096) = 0 at hbyte
    simp only [PGSIZE] at hno
    rw [onesMem, if_neg (by omega), if_neg (by omega)] at hbyte
    exact absurd hbyte (by decide)
  · rw [if_neg hanon]
    by_cases hfirst : FirstFilePage img area va
    · rw [if_pos hfirst]
      by_cases hshort : area.vm_filesz < area.vm_start % PGSIZE
      · exact .inl hshort
      · exact .inr (hd.first (h hanon) hf hfree hanon hfirst hshort)
    · rw [if_neg hfirst]
      exact hd.later (h hanon) hf hfree hanon hfirst hva hlow hend

end Ones

section Fault
variable {img : Image} {lay lay₁ : Layout} {s t u : KState} {i g va : Nat} {area : VmArea} {fresh : Prop}

/-- A copy that returns has changed the new page only. -/
theorem fileCopy_changed (hf : img.Ram g) (hrun : (fileCopy img area (framePtr g) va).run s = .ok () t) :
    ∃ m, t = s.withMem m ∧ ∀ x, x < g * 4096 ∨ g * 4096 + 4096 ≤ x → m x = s.mem x := by
  rw [fileCopy, demandCopy] at hrun
  by_cases hfile : area.vm_flags &&& 0x1 ≠ 1
  · rw [if_pos hfile] at hrun
    obtain ⟨hstart, hoff⟩ := copyStart_bounds img area va
    have hlt := framePtr_lt hf (o := (copyStart img area va).2) (by omega)
    dsimp only at hrun
    rw [Nat.mod_eq_of_lt hlt] at hrun
    have hcases := copyLength_cases img area hstart hoff
    generalize copyLength img area (copyStart img area va).1 (copyStart img area va).2 = n at hrun hcases
    generalize (copyStart img area va).2 = o at hrun hcases hoff
    rcases hcases with hfit | hwrap
    · obtain ⟨m, hm, hout⟩ := (ends_memcpy_changedIn hf hfit).of_ok hrun
      refine ⟨m, hm, fun x hx => hout x ?_⟩
      generalize g * 4096 = b at hx ⊢
      omega
    · exact ((ends_memcpy_wrapped hf hoff hwrap).of_ok hrun).elim
  · rw [if_neg hfile] at hrun
    cases hrun
    exact ⟨s.mem, rfl, fun _ _ => rfl⟩

theorem ends_run {α : Type} {x : K α} : Ends x s (fun a t => x.run s = .ok a t) fun _ _ => True := by
  cases hx : x.run s with
  | ok a t => exact (ends_iff_of_ok hx).mpr rfl
  | error e t => exact (ends_iff_of_error hx).mpr trivial

theorem grows_fileCopy {page : Nat} : Grows 0 (fileCopy img area page va) := by
  rw [fileCopy]
  cases demandCopy img area page va with
  | none => exact grows_pure _
  | some c => exact grows_memcpy ..

/-- A page is mapped, and then the file is copied into it. -/
theorem demandPage_fills (hfresh : fresh → Fresh img s) (he : Entered img lay lay₁ s t i g) (hva : UserVa va) :
    Spec fresh (demandPage img area (framePtr g) va) t
      (fun _ u => ∃ w, (fileCopy img area (framePtr g) va).run w = .ok () u ∧ SameFrame w.mem t.mem g ∧
        (∀ f, f < img.firstFree → SameFrame w.mem t.mem f) ∧
        leafPte u.mem (lay.root i) va = some (2 ^ 10 * g + (0x11 ||| (area.vm_flags &&& 0xe))))
      fun _ _ => True := by
  have hram := (he.calm.paging.held g (by rw [he.data]; exact Role.noConfusion)).1
  have hroot := he.root_role
  have hmap := createMapping_spec he.calm.paging (fun hf => he.calm.sparing.fresh (hfresh hf)) hroot hva he.data (VA2PA_page hram)
    (@demandPerm_lt area.vm_flags) demandPerm_odd demandPerm_user
  rw [demandPage_eq]
  refine .currentPgd he.calm.paging he.running ?_
  refine Spec.bind (hmap.mono (fun _ _ hm => hm) fun _ _ _ => trivial) (fun _ => grows_fileCopy) ?_
  · rintro _ w ⟨lay', hm⟩
    change Spec fresh (fileCopy img area (framePtr g) va) w _ _
    refine .of_ends (ends_run.mono (fun _ u hrun => ⟨w, hrun, ?_, ?_, ?_⟩) fun _ _ _ => trivial)
    · exact hm.frame g fun r p hp => by
        rw [hm.role g (by rw [he.data]; exact Role.noConfusion), he.data] at hp
        cases hp
    · intro f hf
      refine hm.frame f fun r p hp => ?_
      have := (hm.paging.table_held hp).2.1
      omega
    · obtain ⟨m, rfl, hout⟩ := fileCopy_changed hram hrun
      have hdata : lay'.role g = .data := by rw [hm.role g (by rw [he.data]; exact Role.noConfusion), he.data]
      have hroot' : lay'.role (lay₁.root i) = .table (lay₁.root i) [] := by
        rw [hm.role _ (by rw [hroot]; exact Role.noConfusion), hroot]
      have hkeep := hm.paging.keepsTables_data hdata hout
      rw [← he.calm.root]
      exact (hm.paging.leafPte_congr hkeep hroot' hva).trans (hm.leaf va rfl)

/-- The page of a fault that was not mapped is cleared at its start, mapped, and filled from the file. -/
theorem doPageFault_fills {regs : PtRegs} {l : List Nat} {p : Nat} (h : Paging img lay s) (hfresh : fresh → Fresh img s)
    (hr : Running lay s i) (hl : AreaList img s (mmapOf lay s i) l) (hsel : selected s.vma l regs.stval = some p)
    (hnone : leafPte s.mem (lay.root i) regs.stval = none) :
    Spec fresh (doPageFault img regs) s
      (fun _ t => ∃ g w, img.Ram g ∧ img.firstFree ≤ g ∧
        s.ref g = 0 ∧ (fileCopy img (s.vma p) (framePtr g) regs.stval).run w = .ok () t ∧
        (∀ b, b < 4096 → w.mem (g * 4096 + b) = if b < 8 then 0 else s.mem (g * 4096 + b)) ∧
        (∀ f, f < img.firstFree → SameFrame w.mem s.mem f) ∧
        leafPte t.mem (lay.root i) regs.stval = some (2 ^ 10 * g + (0x11 ||| ((s.vma p).vm_flags &&& 0xe))))
      fun _ _ => True := by
  refine doPageFault_rule h hr hl (fun _ => trivial) (fun _ _ _ _ => trivial) fun q g u hq _ htaken he => ?_
  obtain rfl : p = q := Option.some.inj (hsel.symm.trans hq)
  rw [hnone, if_pos rfl]
  refine (demandPage_fills hfresh he (hl.userVa hsel)).mono ?_ fun _ _ _ => trivial
  rintro _ t ⟨w, hrun, hpage, himage, hleaf⟩
  refine ⟨g, w, htaken.ram, htaken.above, htaken.free, hrun, fun b hb => ?_, fun f hf => ?_, hleaf⟩
  · rw [hpage b hb, KState.withMem_mem, ← htaken.mem]
    split
    · exact fill_inside (by omega)
    · exact fill_outside (by omega)
  · have hfg : f ≠ g := by
      have := htaken.above
      omega
    refine (himage f hf).trans fun o ho => ?_
    rw [KState.withMem_mem, fill_outside (by omega), htaken.mem]

theorem segmentByte_congr {m m' : Mem} {a : Nat} (h : area.vm_flags &&& 0x1 ≠ 1 → img.HoldsFile area)
    (hm : ∀ f, f < img.firstFree → SameFrame m m' f) : segmentByte img area m a = segmentByte img area m' a := by
  rw [segmentByte, segmentByte]
  by_cases hfile : area.vm_flags &&& 0x1 ≠ 1 ∧ a - area.vm_start < area.vm_filesz
  · have hh : img.Holds (img.sramdisk + area.vm_pgoff + (a - area.vm_start)) 1 := by
      obtain ⟨h1, h2, h3⟩ := h hfile.1
      constructor <;> omega
    obtain ⟨-, hbelow, -⟩ := hh.byte
    generalize VA2PA (img.sramdisk + area.vm_pgoff + (a - area.vm_start)) = y at hbelow ⊢
    have hsame := hm (y / 4096) (by omega) (y % 4096) (by omega)
    rw [if_pos hfile, if_pos hfile]
    rwa [show y / 4096 * 4096 + y % 4096 = y by omega] at hsame
  · rw [if_neg hfile, if_neg hfile]

end Fault

section Runs
variable {img : Image} {ok : KState → Act → Prop} {s t : KState} {i p : Nat} {l : List Nat} {regs : PtRegs}

end Runs

section Dirty

/-- The memory of the board, with something left in every byte behind the kernel. -/
def dirtyMem : Mem := fun x => if 0x8020b000 ≤ x then 2 else elfMem boardElf x

theorem elfSegments_dirty : elfSegments board dirtyMem = boardSegments := rfl

theorem phnum_dirty : ld 2 dirtyMem (VA2PA board.sramdisk + 56) = 2 := by decide

theorem phoff_dirty : ld 8 dirtyMem (VA2PA board.sramdisk + 32) = 64 := by decide

theorem entry_dirty {f i : Nat} (hf : 0x8020a ≤ f) : entry dirtyMem f i % 2 = 0 := by
  have hbyte : (dirtyMem (f * 4096 + 8 * i)).toNat % 2 = 0 := by
    have hlen : boardElf.length = 176 := rfl
    rw [dirtyMem]
    split
    · rfl
    · rw [elfMem_zero (by rw [hlen]; decide) (by omega)]
      rfl
  rw [entry, ld]
  omega

theorem dirtyMem_large {x : Nat} (hx : 0x8020b000 ≤ x) : dirtyMem x = 2 := if_pos hx

attribute [irreducible] dirtyMem

theorem bootMem_dirty : BootMem dirtyMem boardSegments where
  inside := by
    rw [ElfInside, phnum_dirty, phoff_dirty]
    exact ⟨by constructor <;> decide, by constructor <;> decide⟩
  segments := elfSegments_dirty
  few := phnum_dirty.le
  below := by decide
  even := fun _ _ hf _ => entry_dirty hf

end Dirty

end ZjuOs
