import ZjuOs.PagingSteps

/-! The copies of `memcpy` into a page: what they can change, and what they read from a user page. -/
namespace ZjuOs
open Memory Exec Radix

/-- Only the `n` bytes from `a` have changed. -/
def ChangedIn (s t : KState) (a n : Nat) : Prop :=
  ∃ m, t = s.withMem m ∧ ∀ x, x < a ∨ a + n ≤ x → m x = s.mem x

section Bounds
variable {img : Image} {s t : KState} {f o n source bit va : Nat}

theorem ChangedIn.refl (s : KState) (a n : Nat) : ChangedIn s s a n := ⟨s.mem, rfl, fun _ _ => rfl⟩

theorem ends_kernelPa_any : Ends (kernelPa img bit va) s (fun _ t => t = s) fun e t => e = .fault ∧ t = s := by
  rw [kernelPa]
  by_cases hd : img.inDirectMap va = true
  · rw [if_pos hd, ends_pure]
  · rw [if_neg hd, ends_bind, ends_get]
    cases translate s.mem (satpRoot s.satp) va with
    | none => exact ends_throw.mpr ⟨rfl, rfl⟩
    | some x =>
        by_cases hb : x.1.testBit bit = true
        · exact (congrArg (fun y => Ends y s _ _) (if_pos hb)).mpr (ends_pure.mpr rfl)
        · exact (congrArg (fun y => Ends y s _ _) (if_neg hb)).mpr (ends_throw.mpr ⟨rfl, rfl⟩)

theorem ends_loadByte_any : Ends (loadByte img va) s (fun _ t => t = s) fun e t => e = .fault ∧ t = s := by
  rw [loadByte, ends_bind]
  refine ends_kernelPa_any.mono (fun _ t ht => ?_) fun _ _ h => h
  simp only [ends_bind, ends_get, ends_pure]
  exact ht

/-- A copy takes no page; it halts only at an address that is not accessible. -/
theorem ends_memcpy_buddy {dest : Nat} : Ends (memcpy img dest source n) s (fun _ t => t.buddy = s.buddy)
    fun e t => e = .fault ∧ t.buddy = s.buddy := by
  induction n generalizing s dest source with
  | zero => exact ends_pure.mpr rfl
  | succ n ih =>
      rw [memcpy, ends_bind]
      refine ends_loadByte_any.mono ?_ fun _ _ he => ⟨he.1, by rw [he.2]⟩
      rintro c _ rfl
      rw [ends_bind, storeByte, ends_bind]
      refine ends_kernelPa_any.mono ?_ fun _ _ he => ⟨he.1, by rw [he.2]⟩
      rintro pa _ rfl
      rw [ends_modify]
      exact ih

/-- A copy that fits into the page changes nothing else, whether it ends or faults at its source. -/
theorem ends_memcpy_changedIn (hf : img.Ram f) (ho : o + n ≤ 4096) :
    Ends (memcpy img (framePtr f + o) source n) s (fun _ t => ChangedIn s t (f * 4096 + o) n)
      fun e t => e = .fault ∧ ChangedIn s t (f * 4096 + o) n := by
  induction n generalizing s o source with
  | zero => exact ends_pure.mpr (.refl s _ _)
  | succ n ih =>
      have hlt := framePtr_lt hf (o := o + 1) (by omega)
      rw [memcpy, ends_bind]
      refine ends_loadByte_any.mono ?_ ?_
      · rintro c t rfl
        rw [ends_bind, ends_storeByte hf (by omega), Nat.add_assoc, Nat.mod_eq_of_lt hlt]
        have hstep : ∀ u, ChangedIn (t.withMem (Function.update t.mem (f * 4096 + o) c)) u
            (f * 4096 + (o + 1)) n → ChangedIn t u (f * 4096 + o) (n + 1) := by
          rintro u ⟨m, rfl, hm⟩
          refine ⟨m, rfl, fun x hx => ?_⟩
          rw [hm x (by omega)]
          exact Function.update_of_ne (by omega) _ _
        exact (ih (by omega)).mono (fun _ u hu => hstep u hu) fun e u hu => ⟨hu.1, hstep u hu.2⟩
      · rintro e t ⟨rfl, rfl⟩
        exact ⟨rfl, .refl t _ _⟩

/-- A store at a non-canonical address faults. -/
theorem ends_storeByte_gap {c : UInt8} (hd : img.inDirectMap va = false) (hc : ¬ Canonical va) :
    Ends (storeByte img va c) s (fun _ _ => False) fun e _ => e = .fault := by
  have hnone : translate s.mem (satpRoot s.satp) va = none := if_neg hc
  rw [storeByte, ends_bind, kernelPa, if_neg (by rw [hd]; decide), ends_bind, ends_get, hnone]
  exact ends_throw.mpr rfl

/-- A copy whose target runs into the gap of the address space never returns. -/
theorem ends_memcpy_gap {dest k : Nat} (hk : k < n) (hd : img.inDirectMap ((dest + k) % 2 ^ 64) = false)
    (hc : ¬ Canonical ((dest + k) % 2 ^ 64)) (hdest : dest < 2 ^ 64) :
    Ends (memcpy img dest source n) s (fun _ _ => False) fun e _ => e = .fault := by
  induction k generalizing s dest source n with
  | zero =>
      obtain ⟨n, rfl⟩ := Nat.exists_eq_succ_of_ne_zero (Nat.ne_of_gt hk)
      rw [Nat.add_zero, Nat.mod_eq_of_lt hdest] at hd hc
      rw [Nat.succ_eq_add_one, memcpy, ends_bind]
      refine ends_loadByte_any.mono (fun c t _ => ?_) fun _ _ he => he.1
      rw [ends_bind]
      exact (ends_storeByte_gap hd hc).mono (fun _ _ h => h.elim) fun _ _ he => he
  | succ k ih =>
      obtain ⟨n, rfl⟩ := Nat.exists_eq_succ_of_ne_zero (Nat.ne_of_gt (Nat.lt_of_le_of_lt (Nat.zero_le _) hk))
      have hnext : ((dest + 1) % 2 ^ 64 + k) % 2 ^ 64 = (dest + (k + 1)) % 2 ^ 64 := by omega
      rw [Nat.succ_eq_add_one, memcpy, ends_bind]
      refine ends_loadByte_any.mono (fun c t _ => ?_) fun _ _ he => he.1
      rw [ends_bind, storeByte, ends_bind]
      refine ends_kernelPa_any.mono (fun pa u _ => ?_) fun _ _ he => he.1
      rw [ends_modify]
      exact ih (by omega) (by rw [hnext]; exact hd) (by rw [hnext]; exact hc) (Nat.mod_lt _ (Nat.two_pow_pos 64))

/-- The length of a copy that has wrapped below zero: the copy never returns. -/
theorem ends_memcpy_wrapped (hf : img.Ram f) (ho : o < 4096) (hn : 2 ^ 64 - 4096 < n) :
    Ends (memcpy img (framePtr f + o) source n) s (fun _ _ => False) fun e _ => e = .fault := by
  have hb := hf.bounds
  have hlt := framePtr_lt hf (o := o) (by omega)
  have hptr : framePtr f = f * 4096 + 0xffffffdf80000000 := rfl
  have hk : (framePtr f + o + (2 ^ 64 + 2 ^ 38 - (framePtr f + o))) % 2 ^ 64 = 2 ^ 38 := by omega
  refine ends_memcpy_gap (k := 2 ^ 64 + 2 ^ 38 - (framePtr f + o)) (by omega) ?_ ?_ hlt
  · rw [hk, Image.inDirectMap, VM_START]
    exact decide_eq_false (by omega)
  · rw [hk]
    decide

end Bounds

section UserPages
variable {img : Image} {lay : Layout} {s : KState} {r va pte g bit : Nat}

/-- A supervisor access to the user half goes by the leaf entry. -/
theorem Paging.kernelPa_run (h : Paging img lay s) (hroot : satpRoot s.satp = r)
    (hr : lay.role r = .table r []) (hlow : va < 2 ^ 38) (hpte : leafPte s.mem r va = some pte)
    (hread : pte.testBit PTE_R = true) (hbit : pte.testBit bit = true) :
    (kernelPa img bit va).run s = .ok (pteFrame pte * 4096 + va % 4096) s := by
  have hdirect : img.inDirectMap va = false := by
    rw [Image.inDirectMap, VM_START]
    exact decide_eq_false (by omega)
  obtain ⟨l, -, -, -, hodd, -, -, -⟩ := h.of_leafPte hr (.of_lt hlow) hpte
  have hhw : hwLeaf va pte = some (pte, pteFrame pte * 4096 + va % 4096) := by
    rw [hwLeaf, pteFaults, pteLeaf, hread, testBit_zero_iff.mpr hodd]
    rfl
  have htr : translate s.mem (satpRoot s.satp) va = some (pte, pteFrame pte * 4096 + va % 4096) := by
    rw [hroot, h.translate_user hr hlow, hpte, Option.bind_some, hhw]
  rw [kernelPa, if_neg (by rw [hdirect]; decide), run_bind_of_ok (x := get) (a := s) (t := s) rfl, htr]
  exact congrArg (fun x => EStateM.run x s) (if_pos hbit)

/-- A page that is not readable stops the copy at its first byte. -/
theorem Paging.ends_memcpy_unreadable (h : Paging img lay s) (hroot : satpRoot s.satp = r)
    (hr : lay.role r = .table r []) (hlow : va < 2 ^ 38) (hpte : leafPte s.mem r va = some pte)
    (hread : pte.testBit PTE_R = false) {dest n : Nat} (hn : 0 < n) :
    Ends (memcpy img dest va n) s (fun _ _ => False) fun e t => e = .fault ∧ t = s := by
  obtain ⟨n, rfl⟩ := Nat.exists_eq_succ_of_ne_zero (Nat.ne_of_gt hn)
  have hdirect : img.inDirectMap va = false := by
    rw [Image.inDirectMap, VM_START]
    exact decide_eq_false (by omega)
  have htr : translate s.mem (satpRoot s.satp) va = hwLeaf va pte := by
    rw [hroot, h.translate_user hr hlow, hpte, Option.bind_some]
  rw [Nat.succ_eq_add_one, memcpy, ends_bind, loadByte, ends_bind, kernelPa, if_neg (by rw [hdirect]; decide), ends_bind, ends_get,
    htr, hwLeaf]
  by_cases hno : (pteFaults pte || !pteLeaf pte) = true
  · rw [if_pos hno]
    exact ends_throw.mpr ⟨rfl, rfl⟩
  · rw [if_neg hno]
    exact (congrArg (fun y => Ends y s _ _) (if_neg (by rw [hread]; decide))).mpr (ends_throw.mpr ⟨rfl, rfl⟩)

/-- The copy of a whole user page into another frame. -/
theorem Paging.ends_memcpy_page (h : Paging img lay s) (hroot : satpRoot s.satp = r)
    (hr : lay.role r = .table r []) (hlow : va < 2 ^ 38) (hva : va % 4096 = 0)
    (hpte : leafPte s.mem r va = some pte) (hg : lay.role g = .data) (hne : g ≠ pteFrame pte) :
    Ends (memcpy img (framePtr g) va PGSIZE) s
      (fun _ t => pte.testBit PTE_R = true ∧
        t = s.withMem (copy s.mem (g * 4096) (pteFrame pte * 4096) 4096))
      fun e t => e = .fault ∧ t = s ∧ pte.testBit PTE_R = false := by
  by_cases hread : pte.testBit PTE_R = true
  · have hram := (h.held g (by rw [hg]; exact Role.noConfusion)).1
    have hsrc : ReadsAt img s va (pteFrame pte * 4096) (g * 4096 + 0) 4096 := by
      intro i hi mem hmem
      have hout : ∀ x, x < g * 4096 ∨ g * 4096 + 4096 ≤ x → mem x = s.mem x := by
        intro x hx
        refine hmem x ?_
        rwa [Nat.add_zero]
      have hkeep := h.keepsTables_data hg hout
      have hpage : (va + i) / 4096 % 2 ^ 27 = va / 4096 % 2 ^ 27 := by omega
      have hpte' : leafPte (s.withMem mem).mem r (va + i) = some pte := by
        rw [KState.withMem_mem, leafPte_page hpage, h.leafPte_congr hkeep hr (.of_lt hlow), hpte]
      have hlow' : va + i < 2 ^ 38 := by omega
      have hrun := (h.withMem hkeep).kernelPa_run hroot hr hlow' hpte' hread hread
      have hmod : (va + i) % 4096 = i := by omega
      rw [hmod] at hrun
      rw [Nat.mod_eq_of_lt (by omega)]
      exact hrun
    rw [← Nat.add_zero (framePtr g), ends_memcpy hram (by decide) (by omega) hsrc (by omega), Nat.add_zero]
    exact ⟨hread, rfl⟩
  · rw [Bool.not_eq_true] at hread
    exact (h.ends_memcpy_unreadable hroot hr hlow hpte hread (by decide)).mono (fun _ _ hno => hno.elim)
      fun _ _ he => ⟨he.1, he.2, hread⟩

/-- Above the user half of Sv39 there is nothing to copy. -/
theorem ends_memcpy_noncanonical {n dest : Nat} (hhigh : 2 ^ 38 ≤ va) (hlow : va < 2 ^ 39) (hn : 0 < n) :
    Ends (memcpy img dest va n) s (fun _ _ => False) fun e t => e = .fault ∧ t = s := by
  obtain ⟨n, rfl⟩ := Nat.exists_eq_succ_of_ne_zero (Nat.ne_of_gt hn)
  have hdirect : img.inDirectMap va = false := by
    rw [Image.inDirectMap, VM_START]
    exact decide_eq_false (by omega)
  have hcan : ¬ Canonical va := by
    rintro (h | h) <;> omega
  have hnone : translate s.mem (satpRoot s.satp) va = none := if_neg hcan
  rw [Nat.succ_eq_add_one, memcpy, ends_bind, loadByte, ends_bind, kernelPa, if_neg (by rw [hdirect]; decide), ends_bind, ends_get,
    hnone]
  exact ends_throw.mpr ⟨rfl, rfl⟩

end UserPages

end ZjuOs
