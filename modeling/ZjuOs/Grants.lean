import ZjuOs.Contents
import ZjuOs.Shortage

/-!
Which faults `do_page_fault` grants: `find_vma` counts the end of an area to the area, so that a fault at the end of one
area may be answered with the permissions of that area.
-/
namespace ZjuOs
open Memory Exec

/-- The address is in the half-open range of the area. -/
def VmArea.has (area : VmArea) (va : Nat) : Bool := decide (area.vm_start ≤ va ∧ va < area.vm_end)

/-- The area ends at the address. -/
def VmArea.endsAt (area : VmArea) (va : Nat) : Bool := decide (area.vm_start ≤ va ∧ va = area.vm_end)

/-- The ranges of the areas are pairwise disjoint. -/
def RangesApart (vma : Nat → VmArea) (l : List Nat) : Prop :=
  l.Pairwise fun p q => ∀ va, ¬ ((vma p).has va = true ∧ (vma q).has va = true)

/-- The first area that ends at `va` and stands in the list before the one that has `va`. -/
def neighbour (vma : Nat → VmArea) (l : List Nat) (va : Nat) : Option Nat :=
  (l.takeWhile fun p => !(vma p).has va).find? fun p => (vma p).endsAt va

/-- Faults are granted inside the areas and with their permissions. -/
structure GrantsExactly (img : Image) (s : KState) (root : Nat) (l : List Nat) (regs : PtRegs) : Prop where
  refused : (∀ p ∈ l, (s.vma p).has regs.stval = true → refuses regs.scause (s.vma p).vm_flags = true) →
    ∃ t, (doPageFault img regs).run s = .error .untrapped t ∧ t.mem = s.mem ∧ t.buddy.refCnt = s.buddy.refCnt
  granted : ∀ p ∈ l, (s.vma p).has regs.stval = true → refuses regs.scause (s.vma p).vm_flags = false →
    leafPte s.mem root regs.stval = none → ∃ t pte, (doPageFault img regs).run s = .ok () t ∧
      leafPte t.mem root regs.stval = some pte ∧ pteFlags pte = 0x11 ||| ((s.vma p).vm_flags &&& 0xe)

/-- The area `q` answers the fault as the area that has the address does. -/
structure SameAnswer (s : KState) (root : Nat) (l : List Nat) (regs : PtRegs) (q : Nat) : Prop where
  refuses : (∀ p ∈ l, (s.vma p).has regs.stval = true → refuses regs.scause (s.vma p).vm_flags = true) →
    refuses regs.scause (s.vma q).vm_flags = true
  bits : ∀ p ∈ l, (s.vma p).has regs.stval = true → ZjuOs.refuses regs.scause (s.vma p).vm_flags = false →
    leafPte s.mem root regs.stval = none → (s.vma q).vm_flags &&& 0xe = (s.vma p).vm_flags &&& 0xe

/-- For a page of the area `p` that is not mapped, the frames are there and clean, and the bytes of the file are in the
image and fit. -/
structure Served (img : Image) (s : KState) (root : Nat) (regs : PtRegs) (p : Nat) : Prop where
  clean : Fresh img s ∨ RunsClean (doPageFault img regs) s
  room : leafPte s.mem root regs.stval = none →
    s.buddy.inUse + (1 + (absent s.mem root (ways regs.stval)).card) ≤ 2 ^ img.order
  file : leafPte s.mem root regs.stval = none → (s.vma p).vm_flags &&& 0x1 ≠ 1 →
    img.HoldsFile (s.vma p) ∧ CopyFits img (s.vma p) regs.stval

section Selection
variable {vma : Nat → VmArea} {l : List Nat} {p q va : Nat}

theorem touches_iff {area : VmArea} : area.touches va = true ↔ area.has va = true ∨ area.endsAt va = true := by
  simp only [VmArea.touches, VmArea.has, VmArea.endsAt, decide_eq_true_eq]
  omega

/-- `find_vma` selects the neighbour, if there is one, and else the area that has the address. -/
theorem selected_eq : selected vma l va = (neighbour vma l va).or (l.find? fun p => (vma p).has va) := by
  induction l with
  | nil => rfl
  | cons p l ih =>
      rw [selected, neighbour]
      cases hin : (vma p).has va with
      | true =>
          have htouch : (vma p).touches va = true := touches_iff.mpr (.inl hin)
          simp only [List.find?_cons, htouch, hin, List.takeWhile_cons, Bool.not_true, Bool.false_eq_true, if_false, List.find?_nil,
            Option.none_or]
      | false =>
          cases hend : (vma p).endsAt va with
          | true =>
              have htouch : (vma p).touches va = true := touches_iff.mpr (.inr hend)
              simp only [List.find?_cons, htouch, hin, hend, List.takeWhile_cons, Bool.not_false, if_true, Option.some_or]
          | false =>
              have htouch : (vma p).touches va = false := by
                rw [Bool.eq_false_iff, Ne, touches_iff, hin, hend]
                decide
              simp only [List.find?_cons, htouch, hin, hend, List.takeWhile_cons, Bool.not_false, if_true]
              exact ih

theorem selected_neighbour (h : neighbour vma l va = some q) : selected vma l va = some q := by
  rw [selected_eq, h, Option.some_or]

/-- At most one area has the address. -/
theorem RangesApart.find (h : RangesApart vma l) (hp : p ∈ l) (hin : (vma p).has va = true) :
    (l.find? fun p => (vma p).has va) = some p := by
  induction l with
  | nil => cases hp
  | cons q l ih =>
      obtain ⟨hq, hl⟩ := List.pairwise_cons.mp h
      rw [List.find?_cons]
      cases hhas : (vma q).has va with
      | true =>
          rcases List.mem_cons.mp hp with rfl | hp
          · rfl
          · exact absurd ⟨hhas, hin⟩ (hq p hp va)
      | false =>
          rcases List.mem_cons.mp hp with rfl | hp
          · rw [hhas] at hin
            cases hin
          · exact ih hl hp

/-- The answer depends on R, W and X only. -/
theorem refuses_congr {scause flags flags' : Nat} (h : flags &&& 0xe = flags' &&& 0xe) : refuses scause flags = refuses scause flags' := by
  have hbit : ∀ b, 0xe &&& b = b → flags &&& b = flags' &&& b := fun b hb => by
    rw [← hb, ← Nat.and_assoc, ← Nat.and_assoc, h]
  rw [refuses, refuses, hbit VM_EXEC rfl, hbit VM_READ rfl, hbit VM_WRITE rfl]

theorem demandPerm_bits (flags : Nat) : (0x11 ||| (flags &&& 0xe)) &&& 0xe = flags &&& 0xe := by
  rw [Nat.and_or_distrib_right, Nat.and_assoc]
  exact Nat.zero_or _

end Selection

section Copies
variable {img : Image} {s : KState} {source dst n : Nat}

/-- A copy inside the direct map returns. -/
theorem ends_memcpy_direct (hs : source < 2 ^ 64) (hd : dst < 2 ^ 64) (hread : ∀ k, k < n → img.inDirectMap ((source + k) % 2 ^ 64) = true)
    (hwrite : ∀ k, k < n → img.inDirectMap ((dst + k) % 2 ^ 64) = true) :
    Ends (memcpy img dst source n) s (fun _ _ => True) fun _ _ => False := by
  induction n generalizing s source dst with
  | zero => exact ends_pure.mpr trivial
  | succ n ih =>
      have hr := hread 0 (Nat.succ_pos n)
      have hw := hwrite 0 (Nat.succ_pos n)
      rw [Nat.add_zero, Nat.mod_eq_of_lt hs] at hr
      rw [Nat.add_zero, Nat.mod_eq_of_lt hd] at hw
      rw [memcpy]
      simp only [loadByte, storeByte, kernelPa, if_pos hr, if_pos hw, ends_bind, ends_pure, ends_get, ends_modify]
      refine ih (Nat.mod_lt _ (Nat.two_pow_pos 64)) (Nat.mod_lt _ (Nat.two_pow_pos 64)) (fun k hk => ?_) fun k hk => ?_
      · have hk' := hread (k + 1) (Nat.succ_lt_succ hk)
        rwa [Nat.mod_add_mod, Nat.add_assoc, Nat.add_comm 1 k]
      · have hk' := hwrite (k + 1) (Nat.succ_lt_succ hk)
        rwa [Nat.mod_add_mod, Nat.add_assoc, Nat.add_comm 1 k]

/-- The copy of a file page that fits returns. -/
theorem ends_fileCopy {area : VmArea} {f va : Nat} (hf : img.Ram f) (hva : area.vm_start ≤ va) (hlt : va < 2 ^ 64)
    (h : area.vm_flags &&& 0x1 ≠ 1 → img.HoldsFile area ∧ CopyFits img area va) :
    Ends (fileCopy img area (framePtr f) va) s (fun _ _ => True) fun _ _ => False := by
  rw [fileCopy]
  cases hcopy : demandCopy img area (framePtr f) va with
  | none => exact ends_pure.mpr trivial
  | some c =>
      obtain ⟨dst, source, n⟩ := c
      have hfile : area.vm_flags &&& 0x1 ≠ 1 := by
        intro hanon
        rw [demandCopy, if_neg (not_not.mpr hanon)] at hcopy
        cases hcopy
      obtain ⟨hholds, hfits⟩ := h hfile
      have hin := (demandCopy_inBounds hholds hf hva hlt).mpr hfits _ hcopy
      have hbounds : dst < 2 ^ 64 ∧ source < 2 ^ 64 := by
        have hstart := (copyStart_bounds img area va).1
        rw [demandCopy, if_pos hfile] at hcopy
        cases hcopy
        exact ⟨Nat.mod_lt _ (Nat.two_pow_pos 64), hstart⟩
      refine ends_memcpy_direct hbounds.2 hbounds.1 (fun k hk => ?_) fun k hk => ?_
      · obtain ⟨hlo, hhi⟩ : img.sramdisk + area.vm_pgoff ≤ (source + k) % 2 ^ 64 ∧
            (source + k) % 2 ^ 64 < img.sramdisk + area.vm_pgoff + area.vm_filesz := hin.read k hk
        obtain ⟨h1, h2, h3⟩ := hholds
        have hh : img.Holds ((source + k) % 2 ^ 64) 1 := by
          constructor <;> omega
        exact hh.byte.1
      · obtain ⟨hlo, hhi⟩ : framePtr f ≤ (dst + k) % 2 ^ 64 ∧ (dst + k) % 2 ^ 64 < framePtr f + PGSIZE := hin.written k hk
        obtain ⟨o, ho⟩ := Nat.exists_eq_add_of_le hlo
        rw [ho]
        exact inDirectMap_frame hf (by rw [ho, PGSIZE] at hhi; omega)

end Copies

section Fault
variable {img : Image} {lay lay₁ : Layout} {s t : KState} {i g p q va : Nat} {l : List Nat} {regs : PtRegs} {area : VmArea}
  {fresh : Prop}

/-- What the kernel does with an area that refuses the fault, or without one. -/
theorem doPageFault_refuses (h : Paging img lay s) (hr : Running lay s i) (hl : AreaList img s (mmapOf lay s i) l)
    (hno : ∀ p, selected s.vma l regs.stval = some p → refuses regs.scause (s.vma p).vm_flags = true) :
    Ends (doPageFault img regs) s (fun _ _ => False) fun e t => e = .untrapped ∧ t = s := by
  have hrule : Spec True (doPageFault img regs) s (fun _ _ => False) fun e t => e = .untrapped ∧ t = s := by
    refine doPageFault_rule h hr hl (fun _ => ⟨rfl, rfl⟩) (fun p hsel hgrant _ => ?_) fun p g t hsel hgrant _ _ => ?_
    · rw [hno p hsel] at hgrant
      cases hgrant
    · rw [hno p hsel] at hgrant
      cases hgrant
  exact Ends.mono hrule (fun _ _ hP => hP (.inl trivial)) fun _ _ hE => hE (.inl trivial)

/-- A page is mapped and filled without a fault of the kernel. -/
theorem demandPage_quiet (hfresh : fresh → Fresh img s) (he : Entered img lay lay₁ s t i g) (hva : UserVa va)
    (hcopy : ∀ u, Ends (fileCopy img area (framePtr g) va) u (fun _ _ => True) fun _ _ => False) :
    Spec fresh (demandPage img area (framePtr g) va) t (fun _ _ => True) fun e _ => e = .null := by
  have hram := (he.calm.paging.held g (by rw [he.data]; exact Role.noConfusion)).1
  have hmap := createMapping_spec he.calm.paging (fun hf => he.calm.sparing.fresh (hfresh hf)) he.root_role hva he.data
    (VA2PA_page hram) (@demandPerm_lt area.vm_flags) demandPerm_odd demandPerm_user
  rw [demandPage_eq]
  refine .currentPgd he.calm.paging he.running ?_
  refine Spec.bind (hmap.mono (fun _ _ _ => trivial) fun _ _ hnull => hnull.1) (fun _ => grows_fileCopy) fun _ u _ => ?_
  exact .of_ends ((hcopy u).mono (fun _ _ ht => ht) fun _ _ hno => hno.elim)

/-- A fault that is granted for a page that is not mapped leaves the page mapped with the bits of the selected area. -/
theorem doPageFault_maps (h : Paging img lay s) (hr : Running lay s i) (hl : AreaList img s (mmapOf lay s i) l)
    (hserved : Served img s (lay.root i) regs q) (hsel : selected s.vma l regs.stval = some q)
    (hgrant : refuses regs.scause (s.vma q).vm_flags = false) (hnone : leafPte s.mem (lay.root i) regs.stval = none) :
    ∃ t pte, (doPageFault img regs).run s = .ok () t ∧ leafPte t.mem (lay.root i) regs.stval = some pte ∧
      pteFlags pte = 0x11 ||| ((s.vma q).vm_flags &&& 0xe) := by
  obtain ⟨hmem, hstart, hend⟩ := selected_some hsel
  have hva := hl.userVa hsel
  have hlt : regs.stval < 2 ^ 64 := Nat.lt_of_le_of_lt (hend.trans (hl.below q hmem)) (by decide)
  have hquiet : Spec (Fresh img s) (doPageFault img regs) s (fun _ _ => True) fun e _ => e = .null := by
    refine doPageFault_rule h hr hl (fun hno => ?_) (fun _ _ _ _ => rfl) fun p g t hp _ htaken he => ?_
    · rw [hno q hsel] at hgrant
      cases hgrant
    · obtain rfl : q = p := Option.some.inj (hsel.symm.trans hp)
      rw [if_pos hnone]
      exact demandPage_quiet id he hva fun u => ends_fileCopy htaken.ram hstart hlt (hserved.file hnone)
  have hneeds : Needs img (Fresh img s) (doPageFault img regs) s _ := doPageFault_needs h id hr hl
  have hfills : Spec (Fresh img s) (doPageFault img regs) s _ _ := doPageFault_fills h id hr hl hsel hnone
  cases hrun : (doPageFault img regs).run s with
  | ok r t =>
      obtain ⟨g, w, -, -, -, -, -, -, hleaf⟩ := hfills.of_ok hrun (hserved.clean.imp_right fun hc => hc.of_ok hrun)
      exact ⟨t, _, rfl, hleaf, pteFlags_mk (demandPerm_lt.trans (by decide))⟩
  | error e t =>
      have hclean := hserved.clean.imp_right fun hc => hc.of_error hrun
      obtain rfl : e = .null := hquiet.of_error hrun hclean
      have hshort : 2 ^ img.order < s.buddy.inUse + faultNeeds s (lay.root i) (selected s.vma l regs.stval) regs :=
        hneeds.of_error hrun hclean
      have hroom := hserved.room hnone
      rw [hsel, faultNeeds_granted hgrant, hnone] at hshort
      exact absurd hshort (Nat.not_lt.mpr hroom)

/-- A fault that the selected area grants does not leave the counts as they were. -/
theorem doPageFault_counts (h : Paging img lay s) (hfresh : fresh → Fresh img s) (hr : Running lay s i)
    (hl : AreaList img s (mmapOf lay s i) l) (hclean : fresh ∨ RunsClean (doPageFault img regs) s) (hsel : selected s.vma l regs.stval = some q)
    (hgrant : refuses regs.scause (s.vma q).vm_flags = false) (hrun : (doPageFault img regs).run s = .error .untrapped t) :
    t.buddy.refCnt ≠ s.buddy.refCnt := by
  intro hsame
  have hneeds := (show Needs img fresh (doPageFault img regs) s _ from doPageFault_needs h hfresh hr hl).of_error hrun
    (hclean.imp_right fun hc => hc.of_error hrun)
  rw [Halted, if_neg (by decide), hsel, faultNeeds_granted hgrant] at hneeds
  have hsize := ((grows_doPageFault regs).run s).of_error hrun |>.size
  have huse : t.buddy.inUse = s.buddy.inUse := by rw [Buddy.inUse, Buddy.inUse, hsame, hsize]
  rw [huse] at hneeds
  refine absurd hneeds (Nat.ne_of_lt (Nat.lt_add_of_pos_right ?_))
  cases leafPte s.mem (lay.root i) regs.stval with
  | none => exact Nat.add_pos_left Nat.one_pos _
  | some old =>
      dsimp only
      split
      · decide
      · decide

/-- Faults are granted inside the areas and with their permissions if and only if the first area that ends at the
address, before the one that has it, gives the same answer. -/
theorem grantsExactly_iff (h : Paging img lay s) (hr : Running lay s i) (hl : AreaList img s (mmapOf lay s i) l)
    (hapart : RangesApart s.vma l) (hserved : ∀ p ∈ l, (s.vma p).touches regs.stval = true →
      refuses regs.scause (s.vma p).vm_flags = false → Served img s (lay.root i) regs p) :
    GrantsExactly img s (lay.root i) l regs ↔
      ∀ q, neighbour s.vma l regs.stval = some q → SameAnswer s (lay.root i) l regs q := by
  constructor
  · intro hexact q hq
    have hsel := selected_neighbour hq
    have hclean : refuses regs.scause (s.vma q).vm_flags = false → Fresh img s ∨ RunsClean (doPageFault img regs) s := fun hgrant =>
      (hserved q (selected_some hsel).1 (decide_eq_true (selected_some hsel).2) hgrant).clean
    constructor
    case refuses =>
      intro hno
      by_contra hgo
      have hgrant := Bool.not_eq_true _ ▸ hgo
      obtain ⟨t, hrun, -, hcounts⟩ := hexact.refused hno
      exact doPageFault_counts h id hr hl (hclean hgrant) hsel hgrant hrun hcounts
    case bits =>
      intro p hp hin hgrant hnone
      obtain ⟨t, pte, hrun, hleaf, hflags⟩ := hexact.granted p hp hin hgrant hnone
      have hgo : refuses regs.scause (s.vma q).vm_flags = false := by
        by_contra hno
        refine (doPageFault_refuses h hr hl fun p hp => ?_).of_ok hrun
        obtain rfl : q = p := Option.some.inj (hsel.symm.trans hp)
        exact Bool.not_eq_false _ ▸ hno
      have hfills : Spec (Fresh img s) (doPageFault img regs) s _ _ := doPageFault_fills h id hr hl hsel hnone
      obtain ⟨g, w, -, -, -, -, -, -, hleaf'⟩ := hfills.of_ok hrun ((hclean hgo).imp_right fun hc => hc.of_ok hrun)
      obtain rfl := Option.some.inj (hleaf.symm.trans hleaf')
      rw [pteFlags_mk (demandPerm_lt.trans (by decide))] at hflags
      rw [← demandPerm_bits, hflags, demandPerm_bits]
  · intro hsame
    constructor
    case refused =>
      intro hno
      have hends : Ends (doPageFault img regs) s _ _ := doPageFault_refuses h hr hl fun q hq => by
        rw [selected_eq] at hq
        cases hn : neighbour s.vma l regs.stval with
        | some q' =>
            rw [hn, Option.some_or] at hq
            obtain rfl := Option.some.inj hq
            exact (hsame q' hn).refuses hno
        | none =>
            rw [hn, Option.none_or] at hq
            exact hno q (List.mem_of_find?_eq_some hq) (List.find?_some (p := fun p => (s.vma p).has regs.stval) hq)
      cases hrun : (doPageFault img regs).run s with
      | ok r t => exact (hends.of_ok hrun).elim
      | error e t =>
          obtain ⟨rfl, rfl⟩ := hends.of_error hrun
          exact ⟨t, rfl, rfl, rfl⟩
    case granted =>
      intro p hp hin hgrant hnone
      obtain ⟨q, hsel, hbits⟩ : ∃ q, selected s.vma l regs.stval = some q ∧
          (s.vma q).vm_flags &&& 0xe = (s.vma p).vm_flags &&& 0xe := by
        rw [selected_eq]
        cases hn : neighbour s.vma l regs.stval with
        | some q => exact ⟨q, rfl, (hsame q hn).bits p hp hin hgrant hnone⟩
        | none => exact ⟨p, by rw [Option.none_or, hapart.find hp hin], rfl⟩
      have hgo : refuses regs.scause (s.vma q).vm_flags = false := by rw [refuses_congr hbits, hgrant]
      obtain ⟨hmem, htouch⟩ := selected_some hsel
      rw [← hbits]
      exact doPageFault_maps h hr hl (hserved q hmem (decide_eq_true htouch) hgo) hsel hgo hnone

/-- The areas of the program on the board. -/
theorem areas_board {vma : Nat → VmArea} (h : List.Forall₂ (fun g p => g.At (vma p)) boardSegments l) :
    ∃ p₁ p₂ p₃, l = [p₁, p₂, p₃] ∧ ((vma p₁).vm_start = 0x3ffffff000 ∧ (vma p₁).vm_end = 0x4000000000) ∧
      ((vma p₂).vm_start = 0x1800 ∧ (vma p₂).vm_end = 0x2000 ∧ (vma p₂).vm_flags = 6) ∧
      (vma p₃).vm_start = 0x1000 ∧ (vma p₃).vm_end = 0x1800 ∧ (vma p₃).vm_pgoff = 0 ∧ (vma p₃).vm_filesz = 0 ∧ (vma p₃).vm_flags = 6 := by
  rw [boardSegments] at h
  obtain _ | ⟨h₁, _ | ⟨h₂, _ | ⟨h₃, _ | _⟩⟩⟩ := h
  obtain ⟨hs₁, he₁, -⟩ := h₁
  obtain ⟨hs₂, he₂, -, -, hg₂⟩ := h₂
  exact ⟨_, _, _, rfl, ⟨hs₁, he₁⟩, ⟨hs₂, he₂, hg₂⟩, h₃⟩

theorem rangesApart_board {vma : Nat → VmArea} (h : List.Forall₂ (fun g p => g.At (vma p)) boardSegments l) : RangesApart vma l := by
  obtain ⟨p₁, p₂, p₃, rfl, ⟨hs₁, he₁⟩, ⟨hs₂, he₂, -⟩, hs₃, he₃, -⟩ := areas_board h
  simp only [RangesApart, List.pairwise_cons, List.mem_cons, List.not_mem_nil, or_false, forall_eq_or_imp, forall_eq, false_implies,
    implies_true, List.Pairwise.nil, and_true, VmArea.has, decide_eq_true_eq]
  refine ⟨⟨fun va => ?_, fun va => ?_⟩, fun va => ?_⟩
  · omega
  · omega
  · omega

theorem grantsExactly_board : ∃ (lay : Layout) (s : KState) (l : List Nat), AreaList board s (mmapOf lay s 1) l ∧
    GrantsExactly board s (lay.root 1) l ⟨LOAD_FAULT, 0x1000⟩ := by
  obtain ⟨lay, s, h, -, -⟩ := board_entered (n := 4) (by decide)
  obtain ⟨l, hl, hareas⟩ := h.areas
  have hinv := h.room.inv
  refine ⟨lay, s, l, hl, (grantsExactly_iff hinv.paging (hinv.running h.runs) hl (rangesApart_board hareas) ?_).mpr ?_⟩
  · intro q hq htouch _
    obtain ⟨p₁, p₂, p₃, rfl, ⟨hs₁, he₁⟩, ⟨hs₂, he₂, -⟩, hs₃, he₃, ho₃, hf₃, hg₃⟩ := areas_board hareas
    have hfile : (s.vma p₃).vm_flags &&& 0x1 ≠ 1 → board.HoldsFile (s.vma p₃) ∧ CopyFits board (s.vma p₃) 0x1000 := fun _ => by
      simp only [Image.HoldsFile, CopyFits, FirstFilePage, hs₃, ho₃, hf₃, hg₃]
      decide
    obtain rfl : q = p₃ := by
      have ht : (s.vma q).vm_start ≤ 0x1000 ∧ 0x1000 ≤ (s.vma q).vm_end := of_decide_eq_true htouch
      simp only [List.mem_cons, List.not_mem_nil, or_false] at hq
      rcases hq with rfl | rfl | rfl
      · omega
      · omega
      · rfl
    have hways : (absent s.mem (lay.root 1) (ways 0x1000)).card ≤ 2 := (Finset.card_filter_le _ _).trans (card_ways 0x1000)
    have hfree := h.room.room
    refine ⟨.inl h.room.fresh, fun _ => ?_, fun _ => hfile⟩
    dsimp only
    omega
  · intro q hq
    have hend := List.find?_some (p := fun p => (s.vma p).endsAt 0x1000) hq
    have hmem := (List.takeWhile_sublist _).mem (List.mem_of_find?_eq_some hq)
    obtain ⟨p₁, p₂, p₃, rfl, ⟨hs₁, he₁⟩, ⟨hs₂, he₂, -⟩, hs₃, he₃, -⟩ := areas_board hareas
    simp only [VmArea.endsAt, decide_eq_true_eq] at hend
    simp only [List.mem_cons, List.not_mem_nil, or_false] at hmem
    rcases hmem with rfl | rfl | rfl
    · omega
    · omega
    · omega

/-- On the board, a load at `0x2000` is granted by the area that ends there. -/
theorem grants_boundary : ∃ lay s l, Reachable board (fun _ _ => True) s ∧ Paging board lay s ∧ Running lay s 1 ∧
    AreaList board s (mmapOf lay s 1) l ∧ RangesApart s.vma l ∧ (∀ p ∈ l, (s.vma p).has 0x2000 = false) ∧
    ¬ GrantsExactly board s (lay.root 1) l ⟨LOAD_FAULT, 0x2000⟩ := by
  obtain ⟨lay, s, h, -, -⟩ := board_entered (n := 0) (Nat.zero_le _)
  obtain ⟨l, hl, hareas⟩ := h.areas
  have hinv := h.room.inv
  obtain ⟨hnone, q, hsel, hgrant⟩ : (∀ p ∈ l, (s.vma p).has 0x2000 = false) ∧
      ∃ q, selected s.vma l 0x2000 = some q ∧ refuses LOAD_FAULT (s.vma q).vm_flags = false := by
    obtain ⟨p₁, p₂, p₃, rfl, ⟨hs₁, he₁⟩, ⟨hs₂, he₂, hg₂⟩, hs₃, he₃, -⟩ := areas_board hareas
    refine ⟨?_, p₂, ?_, by rw [hg₂]; decide⟩
    · simp only [List.mem_cons, List.not_mem_nil, or_false, forall_eq_or_imp, forall_eq]
      rw [VmArea.has, VmArea.has, VmArea.has, hs₁, he₁, hs₂, he₂, hs₃, he₃]
      decide
    · rw [selected, List.find?_cons_of_neg, List.find?_cons_of_pos]
      · rw [VmArea.touches, hs₂, he₂]
        decide
      · rw [VmArea.touches, hs₁, he₁]
        decide
  refine ⟨lay, s, l, h.reach, hinv.paging, hinv.running h.runs, hl, rangesApart_board hareas, hnone, fun hexact => ?_⟩
  obtain ⟨t, hrun, -, hcounts⟩ := hexact.refused fun p hp hin => by
    rw [hnone p hp] at hin
    cases hin
  exact doPageFault_counts hinv.paging (fun _ : True => h.room.fresh) (hinv.running h.runs) hl (.inl trivial) hsel hgrant hrun hcounts

end Fault

end ZjuOs
