import ZjuOs.KernelHalf

/-!
`create_mapping` by page numbers: what it maps and what it leaves. The four calls of `setup_vm_final` make the direct
map of the kernel.
-/
namespace ZjuOs
open Memory Exec Radix

section Overlay
variable {perm n va pa x : Nat} {leaf : Nat → Option Nat}

/-- Number of the page of an address among the pages of one root table. -/
abbrev pageNumber (va : Nat) : Nat := va / 4096 % 2 ^ 27

/-- Pages that do not wrap around get the entries of consecutive frames. -/
theorem overlay_eq (hspan : pageNumber va + n ≤ 2 ^ 27) (hpa : pa + n * PGSIZE < 2 ^ 64) :
    overlay perm n va pa leaf x = if pageNumber va ≤ pageNumber x ∧ pageNumber x < pageNumber va + n then
      some (mkPte (pa + (pageNumber x - pageNumber va) * PGSIZE) perm) else leaf x := by
  induction n generalizing va pa leaf with
  | zero => rw [overlay, if_neg (by omega)]
  | succ n ih =>
      rw [overlay]
      have hstep : (pa + PGSIZE) % 2 ^ 64 = pa + PGSIZE := Nat.mod_eq_of_lt (by simp only [PGSIZE] at *; omega)
      rcases Nat.eq_zero_or_pos n with rfl | hpos
      · rw [overlay]
        by_cases hx : pageNumber x = pageNumber va
        · rw [if_pos hx, if_pos (by omega), hx, Nat.sub_self, Nat.zero_mul, Nat.add_zero]
        · rw [if_neg hx, if_neg (by omega)]
      · have hnext : pageNumber ((va + PGSIZE) % 2 ^ 64) = pageNumber va + 1 := by
          simp only [pageNumber, PGSIZE] at *
          omega
        rw [ih (by rw [hnext]; omega) (by rw [hstep]; simp only [PGSIZE] at *; omega), hnext, hstep]
        by_cases hx : pageNumber x = pageNumber va
        · rw [if_neg (by omega), if_pos hx, if_pos (by omega), hx, Nat.sub_self, Nat.zero_mul, Nat.add_zero]
        · by_cases hin : pageNumber va + 1 ≤ pageNumber x ∧ pageNumber x < pageNumber va + 1 + n
          · rw [if_pos hin, if_pos (by omega)]
            have hsum : pa + PGSIZE + (pageNumber x - (pageNumber va + 1)) * PGSIZE =
                pa + (pageNumber x - pageNumber va) * PGSIZE := by
              simp only [PGSIZE]
              omega
            rw [hsum]
          · rw [if_neg hin, if_neg hx, if_neg (by omega)]

end Overlay

section Create
variable {img : Image} {own : Nat → Option (Nat × List (Fin 512))} {s t : KState} {r va pa sz perm : Nat}

theorem mkPte_page {k : Nat} (hperm : perm < 2 ^ 10) (hpa : pa + k * PGSIZE < 2 ^ 56) :
    mkPte (pa + k * PGSIZE) perm = 2 ^ 10 * (pa / 4096 + k) + perm := by
  simp only [PGSIZE] at *
  exact mkPte_eq (o := pa % 4096) (by omega) (Nat.mod_lt _ (by decide)) hperm (by omega)

/-- Number of pages that `create_mapping` maps. -/
def pageCount (sz : Nat) : Nat := (sz + PGSIZE - 1) / PGSIZE

theorem pageCount_eq (hsz : sz + PGSIZE ≤ 2 ^ 64) : (sz + PGSIZE - 1) % 2 ^ 64 / PGSIZE = pageCount sz := by
  rw [pageCount, Nat.mod_eq_of_lt (by simp only [PGSIZE] at *; omega)]

/-- The page tables after `create_mapping`, below the root `r`. -/
structure Created (img : Image) (own : Nat → Option (Nat × List (Fin 512))) (s t : KState) (r va pa sz perm : Nat) : Prop where
  mapped : ∀ k, k < pageCount sz → ∃ pte, leafPte t.mem r (va + k * PGSIZE) = some pte ∧ pteFrame pte = pa / 4096 + k ∧
    pteFlags pte = perm
  others : ∀ x, (∀ k, k < pageCount sz → pageNumber x ≠ pageNumber (va + k * PGSIZE)) → leafPte t.mem r x = leafPte s.mem r x
  walk : ∀ x, (checkValid img x (framePtr r)).run t = .ok (if (leafPte t.mem r x).isSome then 1 else 0) t
  tree : ∃ own', (∀ f x, own f = some x → own' f = some x) ∧ TableTree img AnySlot own' t

/-- `create_mapping` returns, maps the pages of `va` to the frames of `pa`, changes no other page, and keeps the tree, if the
frames do not run out and the free ones are clean. -/
theorem createMapping_correct (h : TableTree img AnySlot own s) (hfresh : Fresh img s) (hr : own r = some (r, []))
    (hodd : perm % 2 = 1) (hperm : perm < 2 ^ 10) (hspan : pageNumber va + pageCount sz ≤ 2 ^ 27) (hpa : pa + sz + PGSIZE < 2 ^ 56)
    (hroom : s.buddy.inUse + (absent s.mem r (waysTo (pagesOf va sz))).card ≤ 2 ^ img.order) :
    Ends (createMapping img (framePtr r) va pa sz perm) s (fun _ t => Created img own s t r va pa sz perm)
      fun _ _ => False := by
  have hcount : (sz + PGSIZE - 1) % 2 ^ 64 / PGSIZE = pageCount sz := pageCount_eq (by simp only [PGSIZE] at *; omega)
  have hsize : pageCount sz * PGSIZE ≤ sz + PGSIZE - 1 := Nat.div_mul_le_self ..
  have hspec : Spec True (mapPages img (framePtr r) perm (pageCount sz) va pa) s _ _ :=
    h.mapPages (fun _ => hfresh) hr (fun _ _ => allowed_any _ _) (by omega)
  have hrun : createMapping img (framePtr r) va pa sz perm = mapPages img (framePtr r) perm (pageCount sz) va pa := by
    rw [createMapping, hcount]
  rw [pagesOf, hcount] at hroom
  rw [hrun]
  refine Ends.mono hspec (fun _ t ht => ?_) fun e t he => ?_
  · obtain ⟨own', hext, hleaf⟩ := ht (.inl trivial)
    have hleaves : ∀ x, leafPte t.mem r x = if pageNumber va ≤ pageNumber x ∧ pageNumber x < pageNumber va + pageCount sz then
        some (mkPte (pa + (pageNumber x - pageNumber va) * PGSIZE) perm) else leafPte s.mem r x := fun x => by
      rw [hleaf hodd x (allowed_any _ _), overlay_eq hspan (by simp only [PGSIZE] at *; omega)]
    constructor
    case mapped =>
      intro k hk
      have hpage : pageNumber (va + k * PGSIZE) = pageNumber va + k := by
        simp only [pageNumber, PGSIZE] at *
        omega
      refine ⟨2 ^ 10 * (pa / 4096 + k) + perm, ?_, pteFrame_mk (by omega), pteFlags_mk (by omega)⟩
      rw [hleaves, hpage, if_pos (by omega), Nat.add_sub_cancel_left, mkPte_page hperm (by simp only [PGSIZE] at *; omega)]
    case others =>
      intro x hx
      rw [hleaves, if_neg]
      rintro ⟨hlo, hhi⟩
      refine hx (pageNumber x - pageNumber va) (by omega) ?_
      simp only [pageNumber, PGSIZE] at *
      omega
    case walk =>
      intro x
      have hcheck := hext.tree.checkValid (hext.keep r _ hr) (allowed_any [] (path x))
      exact Ends.run_eq (hcheck.mono (fun _ _ h => ⟨h.2, h.1⟩) fun _ _ h => h)
    case tree => exact ⟨own', hext.keep, hext.tree⟩
  · obtain ⟨-, hfull⟩ := he (.inl trivial)
    omega

/-- On the board, `setup_vm_final` begins with a root alone; one page is mapped. -/
theorem createMapping_board : ∃ s own t, TableTree board AnySlot own s ∧
    (createMapping board (framePtr board.swapperFrame) board.stext (VA2PA board.stext) PGSIZE 0xb).run s = .ok () t ∧
    Created board own s t board.swapperFrame board.stext (VA2PA board.stext) PGSIZE 0xb := by
  obtain ⟨b, -, hres⟩ := buddyInit_spec board.fits
  have huse := hres.inUse_le
  rw [reservedPages_board] at huse
  have hways : (waysTo (pagesOf board.stext PGSIZE)).card ≤ 513 := card_ways_le (k := vpn board.stext 2) fun q hq => by
    obtain ⟨va, hva, hway⟩ := ways_of_waysTo hq
    obtain ⟨hlo, hhi⟩ := mem_pagesOf hva (Nat.le_of_ble_eq_true rfl)
    have hroot : vpn va 2 = vpn board.stext 2 := by
      refine Fin.ext ?_
      have hstart : board.stext = 0xffffffe000200000 := rfl
      rw [hstart] at hlo hhi ⊢
      simp only [vpn, VPN_eq, PGSIZE] at hlo hhi ⊢
      omega
    rwa [hroot] at hway
  have hboot := booted_board hres
  have hroom : (emptyRoot board (boardStart b)).buddy.inUse + (absent (emptyRoot board (boardStart b)).mem board.swapperFrame
      (waysTo (pagesOf board.stext PGSIZE))).card ≤ 2 ^ board.order := by
    have hbuddy : (boardStart b).buddy.inUse = b.inUse := rfl
    have hcard := Finset.card_le_card (Finset.filter_subset (fun q => (descend pteFormat
      (tables (emptyRoot board (boardStart b)).mem) board.swapperFrame q).isNone) (waysTo (pagesOf board.stext PGSIZE)))
    rw [emptyRoot_buddy, hbuddy, absent, show board.order = 15 from rfl]
    omega
  have hfresh := hboot.sparing.fresh (boardStart_fresh hres)
  have hends : Ends (createMapping board (framePtr board.swapperFrame) board.stext (VA2PA board.stext) PGSIZE 0xb) _ _ _ :=
    createMapping_correct hboot.tree hfresh (if_pos rfl) (by decide) (by decide) (Nat.le_of_ble_eq_true rfl)
      (Nat.le_of_ble_eq_true rfl) hroom
  obtain ⟨_, t, hrun, hcreated⟩ := hends.returns
  exact ⟨_, _, t, hboot.tree, hrun, hcreated⟩

end Create

section DirectMap
variable {img : Image} {own : Nat → Option (Nat × List (Fin 512))} {s t : KState} {va sz perm x : Nat} {leaf : Nat → Option Nat}

/-- The linker script puts each section at the first page after the one before it, and the ramdisk at a page. -/
structure Image.Paged (img : Image) : Prop where
  text : img.stext % PGSIZE = 0
  rodata : img.srodata = PGROUNDUP img.etext
  data : img.sdata = PGROUNDUP img.erodata
  ramdisk : img.sramdisk % PGSIZE = 0

/-- The flags of a kernel address. -/
def sectionFlags (img : Image) (x : Nat) : Nat :=
  if img.sramdisk ≤ x ∧ x < PGROUNDUP img.eramdisk then 0xf
  else if img.sdata ≤ x then 0x7
  else if img.srodata ≤ x then 0x3
  else 0xb

/-- Exactly the addresses from `_stext` to the end of RAM are mapped, each to its place in RAM. -/
structure DirectMapped (img : Image) (t : KState) : Prop where
  mapped : ∀ x, img.stext ≤ x → x < img.phyEnd + PA2VA_OFFSET → ∃ pte,
    translate t.mem img.swapperFrame x = some (pte, x - PA2VA_OFFSET) ∧ pteFlags pte = sectionFlags img x
  others : ∀ x, x < img.stext ∨ img.phyEnd + PA2VA_OFFSET ≤ x → x < 2 ^ 64 → translate t.mem img.swapperFrame x = none

theorem Image.top_le (img : Image) : img.phyEnd + PA2VA_OFFSET ≤ VM_START + 2 ^ 32 := by
  have horder := Nat.pow_le_pow_right (show 0 < 2 by decide) img.order_le
  have hend : img.phyEnd = PHY_START + 2 ^ img.order * PGSIZE := rfl
  generalize 2 ^ img.order = k at *
  simp only [PGSIZE, PHY_START, PA2VA_OFFSET, VM_START] at *
  omega

theorem Image.top_aligned (img : Image) : PGROUNDUP (img.phyEnd + PA2VA_OFFSET) = img.phyEnd + PA2VA_OFFSET := by
  have htop := img.top_le
  have hend : img.phyEnd = PHY_START + 2 ^ img.order * PGSIZE := rfl
  generalize 2 ^ img.order = k at *
  simp only [PGROUNDUP, PGSIZE, PHY_START, PA2VA_OFFSET, VM_START] at *
  omega

/-- A mapping of kernel addresses, seen at an address of the upper half. -/
theorem mapping_upper (hva : va % PGSIZE = 0) (hlo : VM_START ≤ va) (hend : va + sz ≤ img.phyEnd + PA2VA_OFFSET)
    (hperm : perm < 2 ^ 10) (hx : 2 ^ 64 - 2 ^ 38 ≤ x) (hlt : x < 2 ^ 64) :
    mapping va (VA2PA va) sz perm leaf x =
      if va ≤ x ∧ x < PGROUNDUP (va + sz) then some (2 ^ 10 * (VA2PA x / 4096) + perm) else leaf x := by
  have htop := img.top_le
  have hcount : (sz + PGSIZE - 1) % 2 ^ 64 / PGSIZE = pageCount sz := pageCount_eq (by simp only [PGSIZE, VM_START] at *; omega)
  have hpa : VA2PA va = va - PA2VA_OFFSET := by
    simp only [VA2PA, PA2VA_OFFSET, VM_START] at *
    omega
  rw [mapping, hcount, overlay_eq]
  · have hiff : (pageNumber va ≤ pageNumber x ∧ pageNumber x < pageNumber va + pageCount sz) ↔
        va ≤ x ∧ x < PGROUNDUP (va + sz) := by
      simp only [pageNumber, pageCount, PGROUNDUP, PGSIZE, VM_START, PA2VA_OFFSET] at *
      omega
    by_cases hin : va ≤ x ∧ x < PGROUNDUP (va + sz)
    · have hle := hin.1
      have hxtop : x < VM_START + 2 ^ 32 + PGSIZE := by
        simp only [PGROUNDUP, PGSIZE, VM_START, PA2VA_OFFSET] at *
        omega
      have hsum : VA2PA va + (pageNumber x - pageNumber va) * PGSIZE = VA2PA x / 4096 * 4096 := by
        simp only [pageNumber, VA2PA, PGSIZE, VM_START, PA2VA_OFFSET] at *
        omega
      rw [if_pos (hiff.mpr hin), if_pos hin, hsum, mkPte_eq (f := VA2PA x / 4096) (o := 0) ?_ (by decide) hperm (Nat.add_zero _).symm]
      simp only [VA2PA, PGSIZE, VM_START, PA2VA_OFFSET] at *
      omega
    · rw [if_neg (hiff.not.mpr hin), if_neg hin]
  · simp only [pageNumber, pageCount, PGSIZE, VM_START] at *
    omega
  · simp only [pageCount, VA2PA, PGSIZE, VM_START, PA2VA_OFFSET] at *
    omega

/-- The lower half is not touched. -/
theorem mapping_lower (hlo : VM_START ≤ va) (hend : va + sz ≤ img.phyEnd + PA2VA_OFFSET) (hx : x < 2 ^ 38) :
    mapping va (VA2PA va) sz perm leaf x = leaf x := by
  have htop := img.top_le
  have hcount : (sz + PGSIZE - 1) % 2 ^ 64 / PGSIZE = pageCount sz := pageCount_eq (by simp only [PGSIZE, VM_START] at *; omega)
  rw [mapping, hcount, overlay_eq, if_neg]
  · simp only [pageNumber, VM_START] at *
    omega
  · simp only [pageNumber, pageCount, PGSIZE, VM_START] at *
    omega
  · simp only [pageCount, VA2PA, PGSIZE, VM_START, PA2VA_OFFSET] at *
    omega

/-- The four ranges lie between `VM_START` and the end of RAM. -/
structure Image.Ranges (img : Image) : Prop where
  text : VM_START ≤ img.stext ∧ img.stext + (img.etext - img.stext) ≤ img.phyEnd + PA2VA_OFFSET
  rodata : VM_START ≤ img.srodata ∧ img.srodata + (img.erodata - img.srodata) ≤ img.phyEnd + PA2VA_OFFSET
  data : VM_START ≤ img.sdata ∧
    img.sdata + (img.phyEnd + PA2VA_OFFSET + (2 ^ 64 - img.sdata)) % 2 ^ 64 ≤ img.phyEnd + PA2VA_OFFSET
  ramdisk : VM_START ≤ img.sramdisk ∧ img.sramdisk + (img.eramdisk - img.sramdisk) ≤ img.phyEnd + PA2VA_OFFSET

theorem Image.Linked.ranges (hl : img.Linked) : img.Ranges := by
  obtain ⟨h1, ⟨h2, h3⟩, ⟨h4, h5⟩, h6, h7⟩ := hl
  have hstart := img.start.1
  have hsize := img.ekernel_le
  have htop := img.top_le
  have hend : img.phyEnd = PHY_START + 2 ^ img.order * PGSIZE := rfl
  generalize 2 ^ img.order = k at *
  constructor <;> simp only [PGSIZE, PHY_START, PA2VA_OFFSET, VM_START] at * <;> omega

theorem kernelLeaves_lower (hr : img.Ranges) (hx : x < 2 ^ 38) : kernelLeaves img x = none := by
  rw [kernelLeaves, mapping_lower hr.ramdisk.1 hr.ramdisk.2 hx, mapping_lower hr.data.1 hr.data.2 hx,
    mapping_lower hr.rodata.1 hr.rodata.2 hx, mapping_lower hr.text.1 hr.text.2 hx]

theorem roundup_aligned (addr : Nat) : PGROUNDUP addr % PGSIZE = 0 := by
  rw [PGROUNDUP]
  exact Nat.mul_mod_left ..

theorem kernelLeaves_upper (hl : img.Linked) (hp : img.Paged) (hx : 2 ^ 64 - 2 ^ 38 ≤ x) (hlt : x < 2 ^ 64) :
    kernelLeaves img x = if img.stext ≤ x ∧ x < img.phyEnd + PA2VA_OFFSET then
      some (2 ^ 10 * (VA2PA x / 4096) + sectionFlags img x) else none := by
  have hr := hl.ranges
  have htop := img.top_le
  have hfull := img.top_aligned
  obtain ⟨h1, ⟨h2, h3⟩, ⟨h4, h5⟩, h6, h7⟩ := hl
  have hrodata := roundup_aligned img.etext
  have hdata := roundup_aligned img.erodata
  rw [← hp.rodata] at hrodata
  rw [← hp.data] at hdata
  have hstart := img.start.1
  have htext : img.stext + (img.etext - img.stext) = img.etext := by omega
  have hro : img.srodata + (img.erodata - img.srodata) = img.erodata := by omega
  have hdisk : img.sramdisk + (img.eramdisk - img.sramdisk) = img.eramdisk := by omega
  have hrest : img.sdata + (img.phyEnd + PA2VA_OFFSET + (2 ^ 64 - img.sdata)) % 2 ^ 64 = img.phyEnd + PA2VA_OFFSET := by
    have hbound := hr.data
    have hdiskEnd := hr.ramdisk.2
    simp only [VM_START] at htop hstart
    omega
  have hround : PGROUNDUP img.eramdisk ≤ img.phyEnd + PA2VA_OFFSET := by
    have hend := hr.ramdisk.2
    rw [hdisk] at hend
    simp only [PGROUNDUP, PGSIZE, VM_START] at *
    omega
  rw [kernelLeaves, mapping_upper hp.ramdisk hr.ramdisk.1 hr.ramdisk.2 (by decide) hx hlt,
    mapping_upper hdata hr.data.1 hr.data.2 (by decide) hx hlt,
    mapping_upper hrodata hr.rodata.1 hr.rodata.2 (by decide) hx hlt,
    mapping_upper hp.text hr.text.1 hr.text.2 (by decide) hx hlt, htext, hro, hdisk, hrest, hfull, ← hp.rodata, ← hp.data,
    sectionFlags]
  have hback : img.erodata ≤ img.sdata := h4
  by_cases c1 : img.sramdisk ≤ x ∧ x < PGROUNDUP img.eramdisk
  · rw [if_pos c1, if_pos c1, if_pos (by omega)]
  rw [if_neg c1, if_neg c1]
  by_cases c2 : img.sdata ≤ x
  · by_cases c3 : x < img.phyEnd + PA2VA_OFFSET
    · rw [if_pos ⟨c2, c3⟩, if_pos ⟨by omega, c3⟩, if_pos c2]
    · rw [if_neg (by omega), if_neg (by omega), if_neg (by omega), if_neg (by omega)]
  rw [if_neg (by omega), if_neg c2]
  by_cases c4 : img.srodata ≤ x
  · rw [if_pos (by omega), if_pos (by omega), if_pos c4]
  rw [if_neg (by omega), if_neg c4]
  by_cases c5 : img.stext ≤ x
  · rw [if_pos (by omega), if_pos (by omega)]
  · rw [if_neg (by omega), if_neg (by omega)]

theorem KernelMapped.pointers (h : KernelMapped img own s t) : Pointers AnySlot own t.mem := by
  obtain ⟨u, satp, hext, rfl⟩ := h.out
  refine hext.pointer fun f r p i hf _ _ hodd => ?_
  rw [rootOnly] at hf
  split at hf
  · next hswap =>
      rw [hswap, tables_emptyRoot] at hodd
      cases hodd
  · cases hf

theorem sectionFlags_cases (img : Image) (x : Nat) : sectionFlags img x < 2 ^ 10 ∧ (sectionFlags img x).testBit PTE_V = true ∧
    (sectionFlags img x).testBit PTE_R = true := by
  rw [sectionFlags]
  split
  · decide
  split
  · decide
  split
  · decide
  · decide

theorem KernelMapped.directMapped (h : KernelMapped img own s t) (hl : img.Linked) (hp : img.Paged) : DirectMapped img t := by
  have htop := img.top_le
  have hstart := img.start.1
  have htr : ∀ x, Canonical x → (∀ pte, kernelLeaves img x = some pte → ppn pte = pteFrame pte) →
      translate t.mem img.swapperFrame x = (kernelLeaves img x).bind (hwLeaf x) := fun x hcan hppn => by
    rw [← h.leaf x] at hppn ⊢
    exact h.tree.translate_eq h.pointers h.root hcan (allowed_any _ _) hppn
  constructor
  case mapped =>
    intro x hlo hhi
    have hx : 2 ^ 64 - 2 ^ 38 ≤ x := by
      simp only [VM_START] at hstart
      omega
    have hlt : x < 2 ^ 64 := by
      simp only [VM_START] at htop
      omega
    have hleaf := kernelLeaves_upper hl hp hx hlt
    rw [if_pos ⟨hlo, hhi⟩] at hleaf
    obtain ⟨hflags, hv, hr⟩ := sectionFlags_cases img x
    have hfl : pteFlags (2 ^ 10 * (VA2PA x / 4096) + sectionFlags img x) = sectionFlags img x := pteFlags_mk hflags
    have hpa : VA2PA x = x - PA2VA_OFFSET := by
      simp only [VA2PA, PA2VA_OFFSET, VM_START] at *
      omega
    have hframe : ppn (2 ^ 10 * (VA2PA x / 4096) + sectionFlags img x) =
        pteFrame (2 ^ 10 * (VA2PA x / 4096) + sectionFlags img x) := by
      simp only [ppn, pteFrame, Nat.shiftRight_eq_div_pow]
      simp only [PA2VA_OFFSET, VM_START] at *
      omega
    refine ⟨2 ^ 10 * (VA2PA x / 4096) + sectionFlags img x, ?_, hfl⟩
    rw [htr x (.inr (by omega)) (fun pte hpte => by rw [hleaf] at hpte; cases hpte; exact hframe), hleaf, Option.bind_some,
      hwLeaf_readable (by rw [testBit_pteFlags (by decide), hfl]; exact hv) (by rw [testBit_pteFlags (by decide), hfl]; exact hr),
      pteFrame_mk hflags]
    have hlow : VA2PA x / 4096 * 4096 + x % 4096 = x - PA2VA_OFFSET := by
      simp only [PA2VA_OFFSET, VM_START] at *
      omega
    rw [hlow]
  case others =>
    intro x hout hlt
    by_cases hcan : Canonical x
    · have hnone : kernelLeaves img x = none := by
        rcases hcan with hlow | hupper
        · exact kernelLeaves_lower hl.ranges (by omega)
        · rw [kernelLeaves_upper hl hp (by omega) hlt, if_neg (by omega)]
      have hempty : ∀ pte, kernelLeaves img x = some pte → ppn pte = pteFrame pte := fun pte hpte => by
        rw [hnone] at hpte
        cases hpte
      rw [htr x hcan hempty, hnone, Option.bind_none]
    · rw [translate, if_neg hcan]

/-- `setup_vm_final` returns, and the page table of the kernel is the direct map, if the frames do not run out and the free
ones are clean. -/
theorem setupVmFinal_directMapped (h : Booted img s) (hfresh : Fresh img s) (hp : img.Paged)
    (hroom : s.buddy.inUse + (kernelWays img).card ≤ 2 ^ img.order) :
    Ends (setupVmFinal img) s (fun _ t => DirectMapped img t) fun _ _ => False := by
  have hspec : Spec True (setupVmFinal img) s _ _ := setupVmFinal_spec h fun _ => hfresh
  refine Ends.mono hspec (fun _ t ht => ?_) fun e t he => ?_
  · obtain ⟨own, hk⟩ := ht (.inl trivial)
    exact hk.directMapped h.linked hp
  · have hfull := (he (.inl trivial)).2
    omega

/-- The sections of the board are laid out so. -/
theorem setupVmFinal_directMapped_board : ∃ s t, Booted board s ∧ (setupVmFinal board).run s = .ok () t ∧
    DirectMapped board t := by
  obtain ⟨b, -, hres⟩ := buddyInit_spec board.fits
  have huse := hres.inUse_le
  rw [reservedPages_board] at huse
  have hways := kernelWays_board
  have hpaged : board.Paged := ⟨by decide, by decide, by decide, by decide⟩
  have hroom : (boardStart b).buddy.inUse + (kernelWays board).card ≤ 2 ^ board.order := by
    have hbuddy : (boardStart b).buddy.inUse = b.inUse := rfl
    rw [hbuddy, show board.order = 15 from rfl]
    omega
  obtain ⟨_, t, hrun, hmapped⟩ :=
    (setupVmFinal_directMapped (booted_board hres) (boardStart_fresh hres) hpaged hroom).returns
  exact ⟨boardStart b, t, booted_board hres, hrun, hmapped⟩

end DirectMap

end ZjuOs
