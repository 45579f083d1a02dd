import ZjuOs.DirectMap
import ZjuOs.Entry
import ZjuOs.KernelHalf

/-!
The way into the virtual address space: `setup_vm` fills the early page table, `relocate` of `head.S` selects it, and
`setup_vm_final` takes over.
-/
namespace ZjuOs
open Memory Exec Rv64

/-- `setup_vm`. Addresses are physical, and `early_pgtbl` is the frame `early`. -/
def setupVm (early : Nat) (m : Mem) : Mem :=
  let PA := PHY_START
  let index := (PA >>> 30) &&& 0x1ff
  let PPN := (PA >>> 30) &&& 0x1ff
  let m := setEntry m early index (PPN <<< 28)
  let m := setEntry m early index (entry m early index ||| 0xf)
  let index := (VM_START >>> 30) &&& 0x1ff
  setEntry m early index ((PPN <<< 28) ||| 0xf)

/-- `relocate` up to `ret`. `la` finds `early_pgtbl` from the program counter, which is physical. -/
def relocateCode (early : Nat) : List Instr :=
  [.li t1 0xffffffdf80000000, .add ra ra t1, .add sp sp t1, .sfenceVma, .li t2 (BitVec.ofNat 64 (early * 4096)),
    .srli t2 t2 12, .li t3 0x8000000000000000, .or t2 t2 t3, .satp t2]

/-- The size of what an entry of the root maps. -/
def GIGAPAGE : Nat := 2 ^ 30

/-- The gigapage from `PHY_START` on is mapped at its own addresses and at those of the kernel, and nothing else is. -/
structure EarlyMapped (m : Mem) (root : Nat) : Prop where
  low : ∀ pa, PHY_START ≤ pa → pa < PHY_START + GIGAPAGE → translate m root pa = some (0x2000000f, pa)
  high : ∀ pa, PHY_START ≤ pa → pa < PHY_START + GIGAPAGE → translate m root (pa + PA2VA_OFFSET) = some (0x2000000f, pa)
  others : ∀ va, va < 2 ^ 64 → ¬ (PHY_START ≤ va ∧ va < PHY_START + GIGAPAGE) →
    ¬ (VM_START ≤ va ∧ va < VM_START + GIGAPAGE) → translate m root va = none

section Table
variable {m m' : Mem} {early f i va pa : Nat}

/-- The words of the early table. -/
structure EarlyTable (m : Mem) (early : Nat) : Prop where
  low : entry m early 2 = 0x2000000f
  high : entry m early 384 = 0x2000000f
  others : ∀ i, i < 512 → i ≠ 2 → i ≠ 384 → entry m early i = 0

theorem setupVm_eq : setupVm early m = setEntry (setEntry (setEntry m early 2 0x20000000) early 2
    (entry (setEntry m early 2 0x20000000) early 2 ||| 0xf)) early 384 0x2000000f := rfl

theorem setupVm_table (h : ∀ i, i < 512 → entry m early i = 0) : EarlyTable (setupVm early m) early := by
  have h2 : 2 < 512 := by decide
  have h384 : 384 < 512 := by decide
  rw [setupVm_eq, entry_setEntry_self]
  constructor
  case low =>
    rw [entry_setEntry_of_ne h384 h2 (.inr (by decide)), entry_setEntry_self]
    decide
  case high =>
    rw [entry_setEntry_self]
    decide
  case others =>
    intro i hi hlow hhigh
    rw [entry_setEntry_of_ne h384 hi (.inr hhigh.symm), entry_setEntry_of_ne h2 hi (.inr hlow.symm),
      entry_setEntry_of_ne h2 hi (.inr hlow.symm)]
    exact h i hi

/-- No other frame is touched. -/
theorem setupVm_sameFrame (h : f ≠ early) : SameFrame (setupVm early m) m f := by
  rw [setupVm_eq]
  exact ((sameFrame_setEntry (by decide) h.symm).trans (sameFrame_setEntry (by decide) h.symm)).trans
    (sameFrame_setEntry (by decide) h.symm)

theorem EarlyTable.congr (h : EarlyTable m early) (hs : SameFrame m m' early) : EarlyTable m' early where
  low := (hs.entry (by decide)).symm.trans h.low
  high := (hs.entry (by decide)).symm.trans h.high
  others := fun i hi hlow hhigh => (hs.entry hi).symm.trans (h.others i hi hlow hhigh)

/-- A gigapage. -/
theorem translate_giga (hcan : Canonical va) (h : entry m early (VPN va 2) = 0x2000000f) :
    translate m early va = some (0x2000000f, PHY_START + va % 2 ^ 30) := by
  have hfaults : pteFaults 0x2000000f = false := by decide
  have hleaf : pteLeaf 0x2000000f = true := by decide
  have hppn : ppn 0x2000000f = 2 ^ 19 := by decide
  have hwalk : sv39Walk m va 2 early = some (0x2000000f, 2) := by
    rw [sv39Walk, h, hfaults, hleaf]
    rfl
  rw [translate, if_pos hcan, hwalk, Option.bind_some]
  dsimp only
  rw [hppn]
  rfl

theorem translate_empty (h : entry m early (VPN va 2) = 0) : translate m early va = none := by
  have hfaults : pteFaults 0 = true := by decide
  have hwalk : sv39Walk m va 2 early = none := by
    rw [sv39Walk, h, hfaults]
    rfl
  rw [translate, hwalk, Option.bind_none, ite_self]

theorem EarlyTable.mapped (h : EarlyTable m early) : EarlyMapped m early := by
  constructor
  case low =>
    intro pa hlo hhi
    simp only [PHY_START, GIGAPAGE] at hlo hhi
    have hvpn : VPN pa 2 = 2 := by
      rw [VPN_eq]
      omega
    have hoffset : PHY_START + pa % 2 ^ 30 = pa := by
      rw [PHY_START]
      omega
    rw [translate_giga (.inl (by omega)) (by rw [hvpn, h.low]), hoffset]
  case high =>
    intro pa hlo hhi
    simp only [PHY_START, GIGAPAGE] at hlo hhi
    have hvpn : VPN (pa + PA2VA_OFFSET) 2 = 384 := by
      rw [VPN_eq, PA2VA_OFFSET]
      omega
    have hoffset : PHY_START + (pa + PA2VA_OFFSET) % 2 ^ 30 = pa := by
      rw [PHY_START, PA2VA_OFFSET]
      omega
    rw [translate_giga (.inr (by rw [PA2VA_OFFSET]; omega)) (by rw [hvpn, h.high]), hoffset]
  case others =>
    intro va hlt hlow hhigh
    by_cases hcan : Canonical va
    · refine translate_empty (h.others _ (Nat.lt_of_le_of_lt Nat.and_le_right (by decide)) ?_ ?_)
      · rw [VPN_eq]
        simp only [PHY_START, GIGAPAGE] at hlow
        rcases hcan with hc | hc
        · omega
        · omega
      · rw [VPN_eq]
        simp only [VM_START, GIGAPAGE] at hhigh
        rcases hcan with hc | hc
        · omega
        · omega
    · rw [translate, if_neg hcan]

end Table

section Relocate
variable {img : Image} {c : Hart} {early : Nat}

/-- Behind `relocate` `satp` selects the early table, and `ra` and `sp` have been moved. -/
structure Relocated (early : Nat) (c d : Hart) : Prop where
  root : satpRoot d.sys.satp = early
  mem : d.sys.mem = c.sys.mem
  link : d.reg ra = c.reg ra + 0xffffffdf80000000
  stack : d.reg sp = c.reg sp + 0xffffffdf80000000
  others : ∀ r, r ≠ ra → r ≠ sp → r ≠ t1 → r ≠ t2 → r ≠ t3 → d.reg r = c.reg r
  csr : d.csr = c.csr

theorem satpRoot_early (h : early < 2 ^ 44) :
    satpRoot (BitVec.ofNat 64 (early * 4096) >>> 12 ||| 0x8000000000000000 : Word).toNat = early := by
  have hor : early ||| 0x8000000000000000 = 2 ^ 63 * 1 + early := by
    rw [Nat.two_pow_add_eq_or_of_lt (by omega), Nat.or_comm]
  have hshift : early * 4096 % 2 ^ 64 / 2 ^ 12 = early := by omega
  have htop : (0x8000000000000000 : Word).toNat = 0x8000000000000000 := rfl
  rw [BitVec.toNat_or, BitVec.toNat_ushiftRight, BitVec.toNat_ofNat, Nat.shiftRight_eq_div_pow, hshift, htop, hor, satpRoot]
  omega

theorem ends_relocate (h : early < 2 ^ 44) :
    Ends (run (kernelSys img) 0 (relocateCode early)) c (fun _ d => Relocated early c d) fun _ _ => False := by
  have h1 : t1 ≠ 0 := by decide
  have h2 : t2 ≠ 0 := by decide
  have h3 : t3 ≠ 0 := by decide
  have h23 : t2 ≠ t3 := by decide
  rw [relocateCode, ends_li, ends_add, ends_add, ends_sfenceVma]
  refine ends_modify.mpr ?_
  rw [ends_li, ends_srli, ends_li, ends_or, ends_satp]
  refine ends_modify.mpr ?_
  rw [ends_run_nil, Core.reg_set_self h2, Core.reg_set_of_ne h23, Core.reg_set_self h2, Core.reg_set_self h3, Core.reg_set_self h2]
  constructor
  case root => exact satpRoot_early h
  case mem => rfl
  case link =>
    rw [Core.reg_withSys, Core.reg_set_of_ne (by decide), Core.reg_set_of_ne (by decide), Core.reg_set_of_ne (by decide),
      Core.reg_set_of_ne (by decide), Core.reg_withSys, Core.reg_set_of_ne (by decide), Core.reg_set_self (by decide),
      Core.reg_set_of_ne (by decide), Core.reg_set_self h1]
  case stack =>
    rw [Core.reg_withSys, Core.reg_set_of_ne (by decide), Core.reg_set_of_ne (by decide), Core.reg_set_of_ne (by decide),
      Core.reg_set_of_ne (by decide), Core.reg_withSys, Core.reg_set_self (by decide), Core.reg_set_of_ne (by decide),
      Core.reg_set_of_ne (by decide), Core.reg_set_of_ne (by decide), Core.reg_set_self h1]
  case others =>
    intro r hra hsp hr1 hr2 hr3
    rw [Core.reg_withSys, Core.reg_set_of_ne hr2, Core.reg_set_of_ne hr3, Core.reg_set_of_ne hr2, Core.reg_set_of_ne hr2,
      Core.reg_withSys, Core.reg_set_of_ne hsp, Core.reg_set_of_ne hra, Core.reg_set_of_ne hr1]
  case csr => rfl

/-- A physical address of the gigapage, moved. -/
theorem EarlyMapped.moved {m : Mem} {root : Nat} {v : Word} (h : EarlyMapped m root) (hlo : PHY_START ≤ v.toNat)
    (hhi : v.toNat < PHY_START + GIGAPAGE) :
    translate m root (v + 0xffffffdf80000000).toNat = some (0x2000000f, v.toNat) := by
  have hsum : (v + 0xffffffdf80000000).toNat = v.toNat + PA2VA_OFFSET := by
    have hoffset : (0xffffffdf80000000 : Word).toNat = PA2VA_OFFSET := rfl
    rw [BitVec.toNat_add, hoffset, PA2VA_OFFSET]
    simp only [PHY_START, GIGAPAGE] at hlo hhi
    omega
  rw [hsum]
  exact h.high _ hlo hhi

/-- `setup_vm` and `relocate`, called with `early_pgtbl` zero. Afterwards the early table maps the gigapage of RAM twice,
`relocate` goes on at the same instructions and returns to the one behind its call, on the same stack. -/
theorem relocate_returns (hzero : ∀ i, i < 512 → entry c.sys.mem early i = 0) (hearly : early < 2 ^ 44)
    (hra : PHY_START ≤ (c.reg ra).toNat ∧ (c.reg ra).toNat < PHY_START + GIGAPAGE)
    (hsp : PHY_START ≤ (c.reg sp).toNat ∧ (c.reg sp).toNat < PHY_START + GIGAPAGE) :
    ∃ d, (run (kernelSys img) 0 (relocateCode early)).run (c.withSys (c.sys.withMem (setupVm early c.sys.mem))) = .ok () d ∧
      EarlyMapped d.sys.mem (satpRoot d.sys.satp) ∧
      translate d.sys.mem (satpRoot d.sys.satp) (d.reg ra).toNat = some (0x2000000f, (c.reg ra).toNat) ∧
      translate d.sys.mem (satpRoot d.sys.satp) (d.reg sp).toNat = some (0x2000000f, (c.reg sp).toNat) ∧
      (∀ r, r ≠ ra → r ≠ sp → r ≠ t1 → r ≠ t2 → r ≠ t3 → d.reg r = c.reg r) ∧ d.csr = c.csr ∧
      ∀ f, f ≠ early → SameFrame d.sys.mem c.sys.mem f := by
  have hspec : Ends (run (kernelSys img) 0 (relocateCode early)) (c.withSys (c.sys.withMem (setupVm early c.sys.mem)))
      (fun _ d => Relocated early (c.withSys (c.sys.withMem (setupVm early c.sys.mem))) d) fun _ _ => False := ends_relocate hearly
  cases hrun : (run (kernelSys img) 0 (relocateCode early)).run (c.withSys (c.sys.withMem (setupVm early c.sys.mem))) with
  | error e d => exact (hspec.of_error hrun).elim
  | ok _ d =>
      have hd := hspec.of_ok hrun
      have hmem : d.sys.mem = setupVm early c.sys.mem := hd.mem
      have hmap : EarlyMapped d.sys.mem (satpRoot d.sys.satp) := by
        rw [hmem, hd.root]
        exact (setupVm_table hzero).mapped
      refine ⟨d, rfl, hmap, ?_, ?_, hd.others, hd.csr, fun f hf => ?_⟩
      · rw [hd.link]
        exact hmap.moved hra.1 hra.2
      · rw [hd.stack]
        exact hmap.moved hsp.1 hsp.2
      · rw [hmem]
        exact setupVm_sameFrame hf

/-- `_start` on the board, behind its call of `setup_vm`; the early table is in the data of the kernel. -/
def earlyHart (b : Buddy) : Hart :=
  ((⟨fun _ => 0, fun _ => 0, boardStart b⟩ : Hart).set ra 0x80200010).set sp 0x80209000

theorem entry_early {i : Nat} (hi : i < 512) : entry boardMem 0x80208 i = 0 := by
  rw [boardMem_eq]
  refine ld_eq_zero fun x _ hhi => if_neg ?_
  have hpa : VA2PA board.sramdisk = 0x80209000 := by decide
  omega

theorem relocate_returns_board : ∃ b d, (run (kernelSys board) 0 (relocateCode 0x80208)).run
      ((earlyHart b).withSys ((boardStart b).withMem (setupVm 0x80208 boardMem))) = .ok () d ∧
    translate d.sys.mem (satpRoot d.sys.satp) (d.reg ra).toNat = some (0x2000000f, 0x80200010) := by
  obtain ⟨b, -, -⟩ := buddyInit_spec board.fits
  have hra : (earlyHart b).reg ra = 0x80200010 := (Core.reg_set_of_ne (by decide)).trans (Core.reg_set_self (by decide))
  have hsp : (earlyHart b).reg sp = 0x80209000 := Core.reg_set_self (by decide)
  obtain ⟨d, hrun, -, hlink, -⟩ := @relocate_returns board (earlyHart b) 0x80208 (fun i hi => entry_early hi) (by decide)
    (by rw [hra]; decide) (by rw [hsp]; decide)
  rw [hra] at hlink
  exact ⟨b, d, hrun, hlink⟩

end Relocate

section Takeover
variable {img : Image} {s t : KState} {va pte pa : Nat}

/-- `setup_vm_final` selects `swapper_pg_dir`. -/
theorem setupVmFinal_satp (h : (setupVmFinal img).run s = .ok () t) : satpRoot t.satp = img.swapperFrame := by
  have hends : Ends (setupVmFinal img) s
      (fun _ t => t.satp = 0x8000000000000000 ||| (VA2PA img.swapperPgDir >>> 12)) fun _ _ => True := by
    rw [setupVmFinal]
    refine ends_then fun _ _ => ends_then fun _ _ => ends_then fun _ _ => ends_then fun _ _ => ends_then fun _ _ => ?_
    exact ends_bind.mpr (ends_modify.mpr (ends_modify.mpr rfl))
  rw [hends.of_ok h, swapperPgDir_eq, Nat.or_comm]
  exact satpRoot_frame (swapperFrame_ram img)

/-- From the early table to the final one: the addresses from `_stext` to the end of RAM stay where they were. The identity
mapping is gone, and so is the memory of the firmware below `_stext`. -/
structure TakenOver (img : Image) (s t : KState) : Prop where
  same : ∀ va pte pa, va < 2 ^ 64 → translate t.mem (satpRoot t.satp) va = some (pte, pa) →
    ∃ pte', translate s.mem (satpRoot s.satp) va = some (pte', pa)
  kept : ∀ va, img.stext ≤ va → va < img.phyEnd + PA2VA_OFFSET → ∃ pte pte' pa,
    translate s.mem (satpRoot s.satp) va = some (pte', pa) ∧ translate t.mem (satpRoot t.satp) va = some (pte, pa)
  gone : ∀ pa, PHY_START ≤ pa → pa < PHY_START + GIGAPAGE → (translate s.mem (satpRoot s.satp) pa).isSome ∧
    translate t.mem (satpRoot t.satp) pa = none
  firmware : ∀ va, VM_START ≤ va → va < img.stext → (translate s.mem (satpRoot s.satp) va).isSome ∧
    translate t.mem (satpRoot t.satp) va = none

theorem DirectMapped.takenOver (hmap : DirectMapped img t) (hranges : img.Ranges) (hgiga : img.phySize ≤ GIGAPAGE)
    (hearly : EarlyMapped s.mem (satpRoot s.satp)) (hroot : satpRoot t.satp = img.swapperFrame) : TakenOver img s t := by
  have hend : img.phyEnd = PHY_START + img.phySize := rfl
  have hstart := img.start.1
  have htext : img.stext ≤ img.phyEnd + PA2VA_OFFSET := (Nat.le_add_right ..).trans hranges.text.2
  have hbefore : ∀ va, VM_START ≤ va → va < img.phyEnd + PA2VA_OFFSET →
      translate s.mem (satpRoot s.satp) va = some (0x2000000f, va - PA2VA_OFFSET) := fun va hlo hhi => by
    have hpa := hearly.high (va - PA2VA_OFFSET)
    simp only [PHY_START, VM_START, PA2VA_OFFSET] at hpa hend hlo hhi ⊢
    have hback : va - 18446743934123114496 + 18446743934123114496 = va := by omega
    rw [hback] at hpa
    exact hpa (by omega) (by omega)
  constructor
  case same =>
    intro va pte pa hva htr
    rw [hroot] at htr
    by_cases hin : img.stext ≤ va ∧ va < img.phyEnd + PA2VA_OFFSET
    · obtain ⟨pte', htr', -⟩ := hmap.mapped va hin.1 hin.2
      rw [htr'] at htr
      cases htr
      exact ⟨_, hbefore va (hstart.trans hin.1) hin.2⟩
    · rw [hmap.others va (by omega) hva] at htr
      cases htr
  case kept =>
    intro va hlo hhi
    obtain ⟨pte, htr, -⟩ := hmap.mapped va hlo hhi
    rw [hroot]
    exact ⟨pte, _, _, hbefore va (hstart.trans hlo) hhi, htr⟩
  case gone =>
    intro pa hlo hhi
    rw [hearly.low pa hlo hhi, hroot]
    refine ⟨rfl, hmap.others pa (.inl ?_) ?_⟩
    · simp only [PHY_START, GIGAPAGE, VM_START] at hhi hstart
      omega
    · simp only [PHY_START, GIGAPAGE] at hhi
      omega
  case firmware =>
    intro va hlo hhi
    rw [hbefore va hlo (hhi.trans_le htext), hroot]
    have hlt : img.stext < 2 ^ 64 := by
      have := img.top_le
      simp only [VM_START] at this
      omega
    exact ⟨rfl, hmap.others va (.inl hhi) (hhi.trans hlt)⟩

/-- `setup_vm_final` on the early table returns and takes over, if the frames do not run out and the free ones are clean. -/
theorem setupVmFinal_takes_over (h : Booted img s) (hfresh : Fresh img s) (hp : img.Paged) (hgiga : img.phySize ≤ GIGAPAGE)
    (hearly : EarlyMapped s.mem (satpRoot s.satp)) (hroom : s.buddy.inUse + (kernelWays img).card ≤ 2 ^ img.order) :
    Ends (setupVmFinal img) s (fun _ t => TakenOver img s t) fun _ _ => False :=
  (setupVmFinal_directMapped h hfresh hp hroom).ran.mono
    (fun _ _ ht => ht.1.takenOver h.linked.ranges hgiga hearly (setupVmFinal_satp ht.2)) fun _ _ hno => hno

/-- The memory behind `setup_vm`. -/
theorem bootMem_early : BootMem (setupVm 0x80208 boardMem) boardSegments := by
  obtain ⟨hinside, hsegments, hnum⟩ := elf_board (setupVm_sameFrame (show 0x80209 ≠ 0x80208 by decide))
  refine ⟨hinside, hsegments, hnum.le, bootMem_board.below, fun f i hf hi => ?_⟩
  rw [(setupVm_sameFrame (by omega)).entry hi]
  exact bootMem_board.even f i hf hi

/-- The board behind `mm_init`. -/
def earlyStart (b : Buddy) : KState := { boardWith (setupVm 0x80208 boardMem) b with satp := 0x8000000000080208 }

theorem setupVmFinal_takes_over_board : ∃ s t, (setupVmFinal board).run s = .ok () t ∧ TakenOver board s t := by
  obtain ⟨b, -, hres⟩ := buddyInit_spec board.fits
  have hboot : Booted board (earlyStart b) := ⟨.init hres, linked_board, rfl, Nat.le_of_ble_eq_true rfl⟩
  have hfresh : Fresh board (earlyStart b) := bootMem_early.fresh hres
  have huse := hres.inUse_le
  rw [reservedPages_board] at huse
  have hways := kernelWays_board
  have hroom : (earlyStart b).buddy.inUse + (kernelWays board).card ≤ 2 ^ board.order := by
    have hbuddy : (earlyStart b).buddy.inUse = b.inUse := rfl
    rw [hbuddy, show board.order = 15 from rfl]
    omega
  have hroot : satpRoot (earlyStart b).satp = 0x80208 := show satpRoot 0x8000000000080208 = 0x80208 by decide
  have hmap : EarlyMapped (earlyStart b).mem (satpRoot (earlyStart b).satp) := by
    rw [hroot]
    exact (setupVm_table fun i hi => entry_early hi).mapped
  have hpaged : board.Paged := ⟨by decide, by decide, by decide, by decide⟩
  obtain ⟨_, t, hrun, htaken⟩ := (setupVmFinal_takes_over hboot hfresh hpaged (by decide) hmap hroom).returns
  exact ⟨_, t, hrun, htaken⟩

end Takeover

end ZjuOs
