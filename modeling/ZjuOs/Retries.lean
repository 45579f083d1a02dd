import ZjuOs.Board

/-!
The access whose fault `do_page_fault` has resolved: the Sv39 walk allows it, unless the leaf entry is of the
reserved kind that is writable and not readable.
-/
namespace ZjuOs
open Memory Exec Radix

/-- The bit of a leaf entry that the access with this cause needs. -/
def neededBit (scause : Nat) : Nat :=
  if scause = FETCH_FAULT then PTE_X else if scause = LOAD_FAULT then PTE_R else PTE_W

/-- The access with this cause goes through at `va` in user mode. -/
def KState.Allows (s : KState) (va scause : Nat) : Prop :=
  ∃ pte pa, translate s.mem (satpRoot s.satp) va = some (pte, pa) ∧ pte.testBit PTE_U = true ∧
    pte.testBit (neededBit scause) = true

/-- The entry of a mapped page has R; for a page that is not mapped, the area that `find_vma` selects from the
list `l` is not writable without being readable. -/
def KState.ReadableWhereWritten (s : KState) (i : Nat) (l : List Nat) (va : Nat) : Prop :=
  match leafPte s.mem (s.root i) va with
  | none => ∀ p, selected s.vma l va = some p →
      (s.vma p).vm_flags &&& VM_READ ≠ 0 ∨ (s.vma p).vm_flags &&& VM_WRITE = 0
  | some old => old.testBit PTE_R = true

section Bits
variable {x k scause flags pte va : Nat}

theorem and_two_pow_eq_zero : x &&& 2 ^ k = 0 ↔ x.testBit k = false := by
  rw [Nat.and_two_pow]
  cases x.testBit k <;> simp

/-- What `do_page_fault` does not refuse is permitted by the area. -/
theorem refuses_needed (h : refuses scause flags = false)
    (hc : scause = FETCH_FAULT ∨ scause = LOAD_FAULT ∨ scause = STORE_FAULT) :
    flags.testBit (neededBit scause) = true := by
  rw [← Bool.not_eq_false, ← and_two_pow_eq_zero]
  rintro hzero
  rcases hc with rfl | rfl | rfl
  · have hx : flags &&& VM_EXEC = 0 := hzero
    rw [refuses, hx] at h
    exact absurd h (by simp)
  · have hx : flags &&& VM_READ = 0 := hzero
    rw [refuses, hx] at h
    exact absurd h (by simp)
  · have hx : flags &&& VM_WRITE = 0 := hzero
    rw [refuses, hx] at h
    exact absurd h (by simp)

theorem neededBit_cases (scause : Nat) :
    neededBit scause = PTE_X ∨ neededBit scause = PTE_R ∨ neededBit scause = PTE_W := by
  rw [neededBit]
  split
  · exact .inl rfl
  · split
    · exact .inr (.inl rfl)
    · exact .inr (.inr rfl)

/-- R, W and X of a new page are those of its area. -/
theorem testBit_demandPerm (hk : k = PTE_R ∨ k = PTE_W ∨ k = PTE_X) :
    (0x11 ||| (flags &&& 0xe)).testBit k = flags.testBit k := by
  rw [Nat.testBit_or, Nat.testBit_and]
  rcases hk with rfl | rfl | rfl
  · rw [show Nat.testBit 0x11 PTE_R = false from rfl, show Nat.testBit 0xe PTE_R = true from rfl, Bool.and_true, Bool.false_or]
  · rw [show Nat.testBit 0x11 PTE_W = false from rfl, show Nat.testBit 0xe PTE_W = true from rfl, Bool.and_true, Bool.false_or]
  · rw [show Nat.testBit 0x11 PTE_X = false from rfl, show Nat.testBit 0xe PTE_X = true from rfl, Bool.and_true, Bool.false_or]

theorem testBit_setW : (setW pte).testBit k = (pte.testBit k || Nat.testBit 0x4 k) := Nat.testBit_or ..

/-- The flags of a private copy are those of the shared entry, with W. -/
theorem testBit_copyPerm {g : Nat} (hk : k < 5) :
    (2 ^ 10 * g + ((pte &&& 0x1f) ||| 0x4)).testBit k = (pte.testBit k || Nat.testBit 0x4 k) := by
  have hmask : Nat.testBit 0x1f k = true := by
    rw [show (0x1f : Nat) = 2 ^ 5 - 1 from rfl, Nat.testBit_two_pow_sub_one, decide_eq_true hk]
  rw [testBit_pteFlags (by omega), pteFlags_mk (copyPerm_lt.trans (by decide)), Nat.testBit_or, Nat.testBit_and, hmask,
    Bool.and_true]

/-- A valid entry with the needed bit is a leaf unless it is of the reserved kind. -/
theorem hwLeaf_needed (hv : pte.testBit PTE_V = true) (hu : pte.testBit PTE_U = true)
    (hneed : pte.testBit (neededBit scause) = true) :
    (∃ e pa, hwLeaf va pte = some (e, pa) ∧ e.testBit PTE_U = true ∧ e.testBit (neededBit scause) = true) ↔
      (pte.testBit PTE_R = true ∨ pte.testBit PTE_W = false) := by
  constructor
  · rintro ⟨e, pa, hleaf, -⟩
    rw [← Bool.not_eq_false, ← Bool.not_eq_true (pte.testBit PTE_W), ← not_and_or]
    rintro ⟨hr, hw⟩
    rw [hwLeaf, pteFaults, hv, hr, hw] at hleaf
    exact absurd hleaf (by simp)
  · intro hlegal
    have hleaf : pteLeaf pte = true := by
      rw [pteLeaf, Bool.or_eq_true]
      rcases neededBit_cases scause with hx | hr | hw
      · exact .inr (hx ▸ hneed)
      · exact .inl (hr ▸ hneed)
      · refine .inl (hlegal.resolve_right fun hno => ?_)
        rw [hw, hno] at hneed
        cases hneed
    have hok : pteFaults pte = false := by
      rw [pteFaults, hv]
      rcases hlegal with hr | hw
      · rw [hr]
        rfl
      · rw [hw, Bool.and_false]
        rfl
    refine ⟨pte, pteFrame pte * 4096 + va % 4096, ?_, hu, hneed⟩
    rw [hwLeaf, hok, hleaf]
    rfl

end Bits

section Fault
variable {img : Image} {lay lay' : Layout} {s t : KState} {i va pte scause : Nat} {drop : Option Nat} {area : VmArea}

/-- The access goes through an entry that has been stored for it, unless the entry is of the reserved kind. -/
theorem Remapped.allows_iff (hinv : RunInv img lay s) (hi : s.Runs i)
    (hm : Remapped img lay lay' s t (lay.root i) va pte drop) (hva : va < 2 ^ 38) (hv : pte.testBit PTE_V = true)
    (hu : pte.testBit PTE_U = true) (hneed : pte.testBit (neededBit scause) = true) :
    t.Allows va scause ↔ (pte.testBit PTE_R = true ∨ pte.testBit PTE_W = false) := by
  have hroot := (hinv.paging.task_ok hi.1).root
  have hroot' : lay'.role (lay.root i) = .table (lay.root i) [] := by
    rw [hm.role _ (by rw [hroot]; exact Role.noConfusion), hroot]
  have htr : translate t.mem (satpRoot t.satp) va = hwLeaf va pte := by
    rw [hm.tasks.satp, hinv.satp i hi, hm.paging.translate_user hroot' hva, hm.leaf va rfl, Option.bind_some]
  rw [KState.Allows, htr]
  exact hwLeaf_needed hv hu hneed

/-- A store goes through the entry of a mapped page that has got W, if that entry has R. -/
theorem Remapped.allows_store (hinv : RunInv img lay s) (hi : s.Runs i)
    (hm : Remapped img lay lay' s t (lay.root i) va pte drop) (hva : va < 2 ^ 38) {old l : Nat}
    (hs : Slot lay s (lay.root i) va l old) (hbit : ∀ k, k < 5 → pte.testBit k = (old.testBit k || Nat.testBit 0x4 k)) :
    t.Allows va STORE_FAULT ↔ old.testBit PTE_R = true := by
  have hv : pte.testBit PTE_V = true := by
    rw [hbit _ (by decide), testBit_zero_iff.mpr hs.odd]
    rfl
  have hu : pte.testBit PTE_U = true := by
    rw [hbit _ (by decide), hs.user]
    rfl
  have hw : pte.testBit PTE_W = true := by
    rw [hbit _ (by decide)]
    exact Bool.or_true _
  have hr : pte.testBit PTE_R = old.testBit PTE_R := by
    rw [hbit _ (by decide)]
    exact Bool.or_false _
  have hneed : pte.testBit (neededBit STORE_FAULT) = true := hw
  rw [hm.allows_iff hinv hi hva hv hu hneed, hr, hw]
  simp

/-- What a resolved fault leaves allows the access, unless it is of the reserved kind. -/
theorem Resolved.allows_iff (hinv : RunInv img lay s) (hi : s.Runs i) (hva : va < 2 ^ 38)
    (hneed : area.vm_flags.testBit (neededBit scause) = true)
    (hres : Resolved img lay s (lay.root i) va area scause lay' t) :
    t.Allows va scause ↔ match leafPte s.mem (lay.root i) va with
      | none => area.vm_flags.testBit PTE_R = true ∨ area.vm_flags.testBit PTE_W = false
      | some old => old.testBit PTE_R = true := by
  have hroot := (hinv.paging.task_ok hi.1).root
  cases hres with
  | demand g hnone _ _ _ _ hm _ _ =>
      have hbit : ∀ {k}, k < 10 → (2 ^ 10 * g + (0x11 ||| (area.vm_flags &&& 0xe))).testBit k =
          (0x11 ||| (area.vm_flags &&& 0xe)).testBit k := fun hk => by
        rw [testBit_pteFlags hk, pteFlags_mk (demandPerm_lt.trans (by decide))]
      have hperm : ∀ {k}, k = PTE_R ∨ k = PTE_W ∨ k = PTE_X →
          (2 ^ 10 * g + (0x11 ||| (area.vm_flags &&& 0xe))).testBit k = area.vm_flags.testBit k := fun hk => by
        rw [hbit (by rcases hk with rfl | rfl | rfl <;> decide), testBit_demandPerm hk]
      have hv := (hbit (k := PTE_V) (by decide)).trans (testBit_zero_iff.mpr demandPerm_odd)
      have hu := (hbit (k := PTE_U) (by decide)).trans demandPerm_user
      have hbits : neededBit scause = PTE_R ∨ neededBit scause = PTE_W ∨ neededBit scause = PTE_X := by
        rcases neededBit_cases scause with h | h | h
        · exact .inr (.inr h)
        · exact .inl h
        · exact .inr (.inl h)
      rw [hm.allows_iff hinv hi hva hv hu ((hperm hbits).trans hneed), hperm (.inl rfl), hperm (.inr (.inl rfl)), hnone]
  | own old g hold hstore _ _ _ hm _ =>
      obtain ⟨l, hs⟩ := hinv.paging.slot hroot (.of_lt hva) hold
      rw [hstore, hm.allows_store hinv hi hva hs fun _ _ => testBit_setW, hold]
  | copy old g h hold hstore _ _ _ _ _ _ _ _ hm _ _ _ _ =>
      obtain ⟨l, hs⟩ := hinv.paging.slot hroot (.of_lt hva) hold
      rw [hstore, hm.allows_store hinv hi hva hs fun _ => testBit_copyPerm, hold]

end Fault

section Runs
variable {img : Image} {ok : KState → Act → Prop} {s t : KState} {i : Nat} {l : List Nat} {regs : PtRegs}

/-- After a fault inside an area that `do_page_fault` returns from, the access goes through if and only if no
writable entry without R was there or has been made. -/
theorem fault_retries (h : Reachable img ok s) (hclean : TablesClean s.trace) (hnew : Fresh img s ∨ TablesClean t.trace)
    (hi : s.Runs i) (hl : Chain (fun p => (s.vma p).vm_next) (s.mmap i) l)
    (hin : ∃ p ∈ l, (s.vma p).vm_start ≤ regs.stval ∧ regs.stval < (s.vma p).vm_end)
    (hc : regs.scause = FETCH_FAULT ∨ regs.scause = LOAD_FAULT ∨ regs.scause = STORE_FAULT)
    (hrun : (doPageFault img regs).run s = .ok () t) :
    t.Allows regs.stval regs.scause ↔ s.ReadableWhereWritten i l regs.stval := by
  obtain ⟨lay, hinv⟩ := h.inv hclean
  obtain ⟨lay', hstepped, -⟩ := hinv.fault hi hrun (hinv.fault_clean hi hclean hrun hnew)
  cases hstepped with
  | fault hr hlist hsel hgrant hres =>
      obtain rfl := hinv.paging.runs_unique hi ⟨hr.live, hr.current⟩
      have hhead := hlist.chain
      rw [hinv.paging.mmap_eq hi.1] at hhead
      obtain rfl := hl.unique hhead
      obtain ⟨q, hq, -, hend⟩ := hin
      have hva : regs.stval < 2 ^ 38 := hend.trans_le (hlist.below q hq)
      rw [hres.allows_iff hinv hi hva (refuses_needed hgrant hc), KState.ReadableWhereWritten, hinv.paging.root_eq hi.1]
      cases leafPte s.mem (lay.root i) regs.stval with
      | some old => rfl
      | none =>
          change _ ↔ ∀ p, selected s.vma l regs.stval = some p →
            (s.vma p).vm_flags &&& 2 ^ PTE_R ≠ 0 ∨ (s.vma p).vm_flags &&& 2 ^ PTE_W = 0
          simp only [hsel, Option.some.injEq, forall_eq', Ne, and_two_pow_eq_zero, Bool.not_eq_false]

theorem fault_retries_board : ∃ s t, Reachable board (fun _ _ => True) s ∧ s.Runs 1 ∧
    (doPageFault board ⟨LOAD_FAULT, 0x1000⟩).run s = .ok () t ∧ t.Allows 0x1000 LOAD_FAULT := by
  obtain ⟨lay, s, p, lay', t, h, -, -, hleaf, -, hrun, -, -, -⟩ := board_loaded (n := 0) (Nat.zero_le _)
  obtain ⟨l, q, hl, -, hsel, hat, -⟩ := h.area
  have hhead := hl.chain
  have hp := h.room.inv.paging
  rw [hp.mmap_eq h.runs.1] at hhead
  have hin : ∃ p ∈ l, (s.vma p).vm_start ≤ 0x1000 ∧ 0x1000 < (s.vma p).vm_end := by
    refine ⟨q, (selected_some hsel).1, ?_⟩
    rw [hat.1, hat.2.1]
    decide
  refine ⟨s, t, h.reach, h.runs, hrun, ?_⟩
  have hretry := fault_retries h.reach h.room.clean (.inl h.room.fresh) h.runs hhead hin (.inr (.inl rfl)) hrun
  refine hretry.mpr ?_
  rw [KState.ReadableWhereWritten, hp.root_eq h.runs.1, hleaf]
  rintro p' hp'
  obtain rfl : q = p' := Option.some.inj (hsel.symm.trans hp')
  rw [hat.2.2.2.2]
  exact .inl (by decide)

end Runs

section Writable

/-- A segment that may be written and neither read nor executed. -/
def writableElf : List UInt8 := elfBytes 0x1000
  [{ p_type := PT_LOAD, p_flags := 2, p_offset := 0, p_vaddr := 0x1000, p_filesz := 0, p_memsz := 0x1000 }]

theorem bootMem_writable : BootMem (elfMem writableElf) [stackSegment, ⟨0x1000, 0x1000, 0, 0, VM_WRITE⟩] := by
  have hlen : writableElf.length = 120 := rfl
  exact .of_elf (by rw [hlen]; decide) (by decide) (by decide) rfl (by decide)

/-- A store to the segment is resolved with a reserved entry, and faults again. -/
theorem store_never_retries : ∃ s t l, Reachable board (fun _ _ => True) s ∧ TablesClean t.trace ∧ s.Runs 1 ∧
    Chain (fun p => (s.vma p).vm_next) (s.mmap 1) l ∧
    (∃ p ∈ l, (s.vma p).vm_start ≤ 0x1000 ∧ 0x1000 < (s.vma p).vm_end) ∧
    (doPageFault board ⟨STORE_FAULT, 0x1000⟩).run s = .ok () t ∧ ¬ t.Allows 0x1000 STORE_FAULT := by
  obtain ⟨lay, s, h, hi⟩ := bootMem_writable.enter (n := 4) (by decide)
  obtain ⟨l, hl, hareas⟩ := h.areas
  have hlow : 0x1000 < 2 ^ 38 := Nat.le_of_ble_eq_true rfl
  obtain ⟨p, hmem, hat, hsel⟩ : ∃ p ∈ l, Segment.At ⟨0x1000, 0x1000, 0, 0, VM_WRITE⟩ (s.vma p) ∧ selected s.vma l 0x1000 = some p := by
    obtain _ | ⟨h₁, _ | ⟨h₂, _ | _⟩⟩ := hareas
    rename_i p₁ p₂
    refine ⟨p₂, List.mem_cons_of_mem _ List.mem_cons_self, h₂, ?_⟩
    rw [selected, List.find?_cons_of_neg, List.find?_cons_of_pos]
    · rw [VmArea.touches, h₂.1, h₂.2.1]
      decide
    · rw [VmArea.touches, h₁.1, h₁.2.1]
      decide
  have hp := h.room.inv.paging
  obtain ⟨hleaf, lay', t, hrun, hres, hroom⟩ := (h.fault hi hl hsel hat rfl : _ ∧ ∃ lay' t, (doPageFault board ⟨STORE_FAULT, 0x1000⟩).run s = .ok () t ∧ _)
  refine ⟨s, t, l, h.reach _ fun _ _ => trivial, hroom.clean, hi, ?_, ⟨p, hmem, ?_⟩, hrun, ?_⟩
  · rw [← hp.mmap_eq hi.1]
    exact hl.chain
  · rw [hat.1, hat.2.1]
    decide
  · rw [hres.allows_iff h.room.inv hi hlow (by rw [hat.2.2.2.2]; decide), hleaf, hat.2.2.2.2]
    decide

end Writable

end ZjuOs
