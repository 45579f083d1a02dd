import ZjuOs.Areas
import ZjuOs.Trees

/-! `do_page_fault`: the three ways in which it resolves a fault, and the ways in which it does not. -/
namespace ZjuOs
open Memory Exec Radix

/-- Pages have been taken, filled and released, and no mapping has changed; `drop` has lost one reference. -/
structure Calm (img : Image) (lay lay' : Layout) (s t : KState) (drop : Option Nat) : Prop where
  paging : Paging img lay' t
  role : ∀ f, lay.role f ≠ .other → lay'.role f = lay.role f
  added : ∀ f, lay.role f = .other → lay'.role f ≠ .other → s.ref f = 0
  fresh : ∀ f, lay.role f = .other → lay'.role f = .data → t.ref f = 1
  page : lay'.page = lay.page
  root : lay'.root = lay.root
  live : ∀ f, img.Ram f → s.ref f ≠ 0 → t.ref f ≠ 0
  ref : ∀ f, img.Ram f → s.ref f ≠ 0 → t.ref f + (if drop = some f then 1 else 0) = s.ref f
  free : ∀ f, img.Ram f → s.ref f = 0 → lay'.role f = .other → t.ref f = 0
  frame : ∀ f, (∀ r p, lay.role f ≠ .table r p) → s.ref f ≠ 0 → SameFrame t.mem s.mem f
  image : ∀ f, f < img.firstFree → SameFrame t.mem s.mem f
  inner : InnerKept lay s.mem t.mem
  leaves : ∀ r va, lay.role r = .table r [] → UserVa va → leafPte t.mem r va = leafPte s.mem r va
  tasks : SameTasks s t
  sparing : Sparing img s t

section Calm
variable {img : Image} {lay lay' : Layout} {s t u : KState} {drop : Option Nat} {g f : Nat}

theorem Calm.refl (h : Paging img lay s) : Calm img lay lay s s none where
  paging := h
  role := fun _ _ => rfl
  added := fun _ h0 h1 => absurd h0 h1
  fresh := fun f h0 h1 => by rw [h0] at h1; cases h1
  page := rfl
  root := rfl
  live := fun _ _ h => h
  ref := fun _ _ _ => rfl
  free := fun _ _ hz _ => hz
  frame := fun _ _ _ => .refl _ _
  image := fun _ _ => .refl _ _
  inner := .refl
  leaves := fun _ _ _ _ => rfl
  tasks := .refl s
  sparing := .refl s

theorem Calm.table (h : Calm img lay lay' s t drop) {r : Nat} {p : List (Fin 512)}
    (hf : lay.role f = .table r p) : lay'.role f = .table r p := by
  rw [h.role f (by rw [hf]; exact Role.noConfusion), hf]

theorem Calm.root_role (h : Calm img lay lay' s t drop) {i : Nat}
    (hr : lay.role (lay.root i) = .table (lay.root i) []) : lay'.role (lay'.root i) = .table (lay'.root i) [] := by
  rw [h.root]
  exact h.table hr

/-- A page is taken. -/
theorem Calm.take (h : Calm img lay lay' s t drop) (ht : Taken img t u g) :
    Calm img lay (lay'.withRole g .data) s u drop where
  paging := h.paging.take_data ht
  role := fun f hf => by
    have hold := h.role f hf
    rw [ht.role_of_ne h.paging (by rw [hold]; exact hf), hold]
  added := fun f h0 h1 => by
    by_cases hfg : f = g
    · by_contra hne
      refine h.live f ?_ hne ?_
      · rw [hfg]
        exact ht.ram
      · rw [hfg]
        exact ht.free
    · rw [role_withRole_of_ne hfg] at h1
      exact h.added f h0 h1
  fresh := fun f h0 h1 => by
    by_cases hfg : f = g
    · rw [hfg]
      exact ht.taken
    · rw [role_withRole_of_ne hfg] at h1
      have hold := h.fresh f h0 h1
      have hram := (h.paging.held f (by rw [h1]; exact Role.noConfusion)).1
      rw [ht.ref hram (by rw [hold]; exact Nat.one_ne_zero), hold]
  page := h.page
  root := h.root
  live := fun f hf hne => by
    have hlive := h.live f hf hne
    rw [ht.ref hf hlive]
    exact hlive
  ref := fun f hf hne => by
    rw [ht.ref hf (h.live f hf hne)]
    exact h.ref f hf hne
  free := fun f hf hz hother => by
    have hfg : f ≠ g := by
      rintro rfl
      rw [role_withRole] at hother
      cases hother
    rw [role_withRole_of_ne hfg] at hother
    exact (ht.others f hf hfg).trans (h.free f hf hz hother)
  frame := fun f hf hne => by
    rw [ht.mem]
    exact h.frame f hf hne
  image := fun f hf => by
    rw [ht.mem]
    exact h.image f hf
  inner := by
    rw [ht.mem]
    exact h.inner
  leaves := fun r va hr hva => by
    rw [ht.mem]
    exact h.leaves r va hr hva
  tasks := h.tasks.trans ht.tasks
  sparing := h.sparing.trans ht.sparing

/-- A page that was free at the start is filled. -/
theorem Calm.data (h : Calm img lay lay' s t drop) (hg : lay'.role g = .data) (hfree : lay.role g = .other)
    {m : Mem} (hm : ∀ x, x < g * 4096 ∨ g * 4096 + 4096 ≤ x → m x = t.mem x) :
    Calm img lay lay' s (t.withMem m) drop := by
  have hkeep := h.paging.keepsTables_data hg hm
  exact
    { h with
      paging := h.paging.withMem hkeep
      frame := fun f hf hne => by
        have hfg : f ≠ g := by
          rintro rfl
          exact hne (h.added f hfree (by rw [hg]; exact Role.noConfusion))
        refine SameFrame.trans (fun o ho => ?_) (h.frame f hf hne)
        exact hm _ (by omega)
      image := fun f hf => (hkeep.image f hf).trans (h.image f hf)
      inner := h.inner.trans (fun _ _ _ hp => h.table hp) hkeep.inner
      leaves := fun r va hr hva =>
        (h.paging.leafPte_congr hkeep (h.table hr) hva).trans (h.leaves r va hr hva)
      tasks := h.tasks.trans ⟨rfl, rfl, rfl, rfl, rfl, rfl⟩
      sparing := h.sparing.trans (h.paging.sparing_data hg hm) }

/-- A reference that is not the last one is dropped. -/
theorem Calm.release (h : Calm img lay lay' s t none) (ht : Recounted img t u f (t.ref f - 1))
    (hf : lay.role f ≠ .other) (hmore : 1 < t.ref f) : Calm img lay lay' s u (some f) := by
  have hne : t.ref f - 1 ≠ 0 := by omega
  have hmem := ht.mem
  exact
    { paging := h.paging.recount ht hne
      role := h.role
      added := h.added
      fresh := fun g h0 h1 => by
        have hgf : g ≠ f := fun he => hf (he ▸ h0)
        have hram := (h.paging.held g (by rw [h1]; exact Role.noConfusion)).1
        rw [ht.others g hram hgf]
        exact h.fresh g h0 h1
      page := h.page
      root := h.root
      live := fun g hg hg0 => by
        by_cases hgf : g = f
        · rw [hgf, ht.counted]
          exact hne
        · rw [ht.others g hg hgf]
          exact h.live g hg hg0
      ref := fun g hg hg0 => by
        have hsame := h.ref g hg hg0
        rw [if_neg (by simp), Nat.add_zero] at hsame
        by_cases hgf : g = f
        · rw [hgf] at hsame ⊢
          rw [ht.counted, if_pos rfl]
          omega
        · rw [ht.others g hg hgf, if_neg fun he => hgf (Option.some.inj he).symm]
          exact hsame
      free := fun g hg hz hother => by
        have hgf : g ≠ f := by
          rintro rfl
          rw [h.role g hf] at hother
          exact hf hother
        exact (ht.others g hg hgf).trans (h.free g hg hz hother)
      frame := fun g hg hg0 => by
        rw [hmem]
        exact h.frame g hg hg0
      image := fun g hg => by
        rw [hmem]
        exact h.image g hg
      inner := by
        rw [hmem]
        exact h.inner
      leaves := fun r va hr hva => by
        rw [hmem]
        exact h.leaves r va hr hva
      tasks := h.tasks.trans ht.tasks
      sparing := h.sparing.trans (ht.sparing hne) }

theorem Paging.log (h : Paging img lay t) (e : Event) : Paging img lay (t.log e) :=
  { h with task := fun i h1 hi hne => { h.task i h1 hi hne with } }

theorem Calm.fence (h : Calm img lay lay' s t drop) (m : Mem) : Calm img lay lay' s (t.log (.fence m)) drop :=
  { h with
    paging := h.paging.log _
    tasks := h.tasks.trans ⟨rfl, rfl, rfl, rfl, rfl, rfl⟩
    sparing := h.sparing.trans (.fence m) }

end Calm

/-- The page of `va` in the address space `r` is mapped by `pte`; no other mapping, no byte of a page in
use and no other count has changed. -/
structure Remapped (img : Image) (lay lay' : Layout) (s t : KState) (r va pte : Nat) (drop : Option Nat) :
    Prop where
  paging : Paging img lay' t
  role : ∀ f, lay.role f ≠ .other → lay'.role f = lay.role f
  added : ∀ f, lay.role f = .other → lay'.role f ≠ .other → s.ref f = 0
  fresh : ∀ f, lay.role f = .other → lay'.role f = .data → t.ref f = 1
  page : lay'.page = lay.page
  root : lay'.root = lay.root
  ref : ∀ f, img.Ram f → s.ref f ≠ 0 → t.ref f + (if drop = some f then 1 else 0) = s.ref f
  free : ∀ f, img.Ram f → s.ref f = 0 → lay'.role f = .other → t.ref f = 0
  frame : ∀ f, (∀ r p, lay.role f ≠ .table r p) → s.ref f ≠ 0 → SameFrame t.mem s.mem f
  image : ∀ f, f < img.firstFree → SameFrame t.mem s.mem f
  inner : InnerKept lay s.mem t.mem
  leaf : ∀ va', va' / 4096 % 2 ^ 27 = va / 4096 % 2 ^ 27 → leafPte t.mem r va' = some pte
  others : ∀ r' va', lay.role r' = .table r' [] → UserVa va' →
    (r' ≠ r ∨ va' / 4096 % 2 ^ 27 ≠ va / 4096 % 2 ^ 27) → leafPte t.mem r' va' = leafPte s.mem r' va'
  tasks : SameTasks s t
  sparing : Sparing img s t

section Remapped
variable {img : Image} {lay lay' lay'' : Layout} {s t u : KState} {drop : Option Nat} {g r va pte : Nat}

theorem Calm.remapped (h : Calm img lay lay' s t drop) (hm : Mapped img lay' lay'' t u r va pte) :
    Remapped img lay lay'' s u r va pte drop where
  paging := hm.paging
  role := fun f hf => by
    have hold := h.role f hf
    rw [hm.role f (by rw [hold]; exact hf), hold]
  added := fun f h0 h2 => by
    by_cases h1 : lay'.role f = .other
    · obtain ⟨hz, p, hp, -⟩ := hm.added f h1 h2
      by_contra hne
      exact h.live f (hm.paging.table_ram hp) hne hz
    · exact h.added f h0 h1
  fresh := fun f h0 h2 => by
    by_cases h1 : lay'.role f = .other
    · obtain ⟨-, p', hp, -⟩ := hm.added f h1 (by rw [h2]; exact Role.noConfusion)
      rw [h2] at hp
      cases hp
    · rw [hm.role f h1] at h2
      have hold := h.fresh f h0 h2
      have hram := (h.paging.held f h1).1
      rw [hm.ref f hram (by rw [hold]; exact Nat.one_ne_zero), hold]
  page := hm.page.trans h.page
  root := hm.root.trans h.root
  ref := fun f hf hne => by
    rw [hm.ref f hf (h.live f hf hne)]
    exact h.ref f hf hne
  free := fun f hf hz hother => by
    have h1 : lay'.role f = .other := by
      by_contra hne
      exact hne ((hm.role f hne).symm.trans hother)
    exact hm.free f hf (h.free f hf hz h1) hother
  frame := fun f hf hne => by
    refine (hm.frame f fun r p hp => ?_).trans (h.frame f hf hne)
    by_cases h0 : lay.role f = .other
    · by_cases h1 : lay'.role f = .other
      · obtain ⟨hz, -⟩ := hm.added f h1 (by rw [hp]; exact Role.noConfusion)
        exact h.live f (hm.paging.table_ram hp) hne hz
      · exact hne (h.added f h0 h1)
    · have hold := h.role f h0
      rw [hm.role f (by rw [hold]; exact h0), hold] at hp
      exact hf r p hp
  image := fun f hf => by
    refine (hm.frame f fun r p hp => ?_).trans (h.image f hf)
    have := (hm.paging.table_held hp).2.1
    omega
  inner := h.inner.trans (fun _ _ _ hp => h.table hp) hm.inner
  leaf := hm.leaf
  others := fun r' va' hr hva hne =>
    (hm.others r' va' (h.table hr) hva hne).trans (h.leaves r' va' hr hva)
  tasks := h.tasks.trans hm.tasks
  sparing := h.sparing.trans hm.sparing

/-- Frames in use stay in use. -/
theorem Remapped.live (h : Remapped img lay lay' s t r va pte drop) (hmany : ∀ f, drop = some f → s.ref f ≠ 1) {f : Nat}
    (hf : img.Ram f) (hne : s.ref f ≠ 0) : t.ref f ≠ 0 := by
  have hsame := h.ref f hf hne
  split at hsame
  · next hd =>
      have := hmany f hd
      omega
  · omega

/-- The new page is filled. -/
theorem Remapped.data (h : Remapped img lay lay' s t r va pte drop) (hr : lay.role r = .table r [])
    (hva : UserVa va) (hg : lay'.role g = .data) (hfree : lay.role g = .other)
    {m : Mem} (hm : ∀ x, x < g * 4096 ∨ g * 4096 + 4096 ≤ x → m x = t.mem x) :
    Remapped img lay lay' s (t.withMem m) r va pte drop := by
  have hkeep := h.paging.keepsTables_data hg hm
  have htab : ∀ f, lay.role f = .table f [] → lay'.role f = .table f [] := fun f hf => by
    rw [h.role f (by rw [hf]; exact Role.noConfusion), hf]
  exact
    { h with
      paging := h.paging.withMem hkeep
      frame := fun f hf hne => by
        have hfg : f ≠ g := by
          rintro rfl
          exact hne (h.added f hfree (by rw [hg]; exact Role.noConfusion))
        refine SameFrame.trans (fun o ho => ?_) (h.frame f hf hne)
        exact hm _ (by omega)
      image := fun f hf => (hkeep.image f hf).trans (h.image f hf)
      inner := h.inner.trans (fun f r p hp => by rw [h.role f (by rw [hp]; exact Role.noConfusion), hp]) hkeep.inner
      leaf := fun va' hpage => by
        have huser : UserVa va' := by
          rw [UserVa, VPN_eq] at hva ⊢
          omega
        exact (h.paging.leafPte_congr hkeep (htab r hr) huser).trans (h.leaf va' hpage)
      others := fun r' va' hr' hva' hne =>
        (h.paging.leafPte_congr hkeep (htab r' hr') hva').trans (h.others r' va' hr' hva' hne)
      tasks := h.tasks.trans ⟨rfl, rfl, rfl, rfl, rfl, rfl⟩
      sparing := h.sparing.trans (h.paging.sparing_data hg hm) }

end Remapped

section Copy

theorem copyStart_bounds (img : Image) (area : VmArea) (va : Nat) :
    (copyStart img area va).1 < 2 ^ 64 ∧ (copyStart img area va).2 < 4096 := by
  have hpos : 0 < 2 ^ 64 := Nat.two_pow_pos 64
  rw [copyStart]
  by_cases h : PGROUNDUP ((img.sramdisk + area.vm_pgoff) % 2 ^ 64) =
      PGROUNDUP ((va + (2 ^ 64 - area.vm_start) + (img.sramdisk + area.vm_pgoff) % 2 ^ 64) % 2 ^ 64)
  · rw [if_pos h]
    exact ⟨Nat.mod_lt _ hpos, Nat.lt_of_le_of_lt Nat.and_le_right (by decide)⟩
  · rw [if_neg h]
    exact ⟨Nat.mod_lt _ hpos, Nat.succ_pos 4095⟩

/-- The copy stays in the new page, or its length has wrapped below zero. -/
theorem copyLength_cases (img : Image) (area : VmArea) {start offset : Nat} (hstart : start < 2 ^ 64) (hoff : offset < 4096) :
    offset + copyLength img area start offset ≤ 4096 ∨ 2 ^ 64 - 4096 < copyLength img area start offset := by
  have hend : (img.sramdisk + area.vm_pgoff + area.vm_filesz) % 2 ^ 64 < 2 ^ 64 :=
    Nat.mod_lt _ (Nat.two_pow_pos 64)
  rw [copyLength]
  generalize (img.sramdisk + area.vm_pgoff + area.vm_filesz) % 2 ^ 64 = endElf at hend ⊢
  simp only [PGSIZE]
  split
  · next h =>
      simp only [ge_iff_le, Bool.and_eq_true, decide_eq_true_eq] at h
      omega
  · split
    · omega
    · omega

end Copy

section Perm
variable {flags : Nat}

theorem demandPerm_lt : 0x11 ||| (flags &&& 0xe) < 32 :=
  Nat.or_lt_two_pow (n := 5) (by decide) (Nat.lt_of_le_of_lt Nat.and_le_right (by decide))

theorem demandPerm_odd : (0x11 ||| (flags &&& 0xe)) % 2 = 1 := by
  rw [← testBit_zero_iff, Nat.testBit_or]
  rfl

theorem demandPerm_user : (0x11 ||| (flags &&& 0xe)).testBit PTE_U = true := by
  rw [Nat.testBit_or]
  rfl

variable {pte : Nat}

theorem copyPerm_lt : (pte &&& 0x1f) ||| 0x4 < 32 :=
  Nat.or_lt_two_pow (n := 5) (Nat.lt_of_le_of_lt Nat.and_le_right (by decide)) (by decide)

theorem copyPerm_odd (h : pte % 2 = 1) : ((pte &&& 0x1f) ||| 0x4) % 2 = 1 := by
  rw [← testBit_zero_iff, Nat.testBit_or, Nat.testBit_and, testBit_zero_iff.mpr h]
  rfl

theorem copyPerm_user (h : pte.testBit PTE_U = true) : ((pte &&& 0x1f) ||| 0x4).testBit PTE_U = true := by
  rw [Nat.testBit_or, Nat.testBit_and, h]
  rfl

end Perm

section Resolve
variable {img : Image} {lay lay₁ : Layout} {s t : KState} {i g va : Nat} {area : VmArea} {regs : PtRegs}

/-- Frame `g` was free; it has one reference and is holds no table. -/
structure Leaked (lay lay' : Layout) (s t : KState) (g : Nat) : Prop where
  free : lay.role g = .other
  unused : s.ref g = 0
  data : lay'.role g = .data
  one : t.ref g = 1

/-- `do_page_fault` has resolved the fault. -/
inductive Resolved (img : Image) (lay : Layout) (s : KState) (r va : Nat) (area : VmArea) (scause : Nat)
    (lay' : Layout) (t : KState) : Prop
  | demand (g : Nat) : leafPte s.mem r va = none → lay.role g = .other → s.ref g = 0 → lay'.role g = .data →
      t.ref g = 1 →
      Remapped img lay lay' s t r va (2 ^ 10 * g + (0x11 ||| (area.vm_flags &&& 0xe))) none →
      Logged s t (fun m => SameUser lay s m ∨ SameUser lay t m) →
      (∀ f, img.Ram f → s.ref f = 0 → t.ref f ≠ 0 → f = g ∨ Reached lay' t.mem r f) →
      Resolved img lay s r va area scause lay' t
  | own (old h : Nat) : leafPte s.mem r va = some old → scause = STORE_FAULT → old.testBit PTE_W = false →
      s.ref (pteFrame old) = 1 → Leaked lay lay' s t h → Remapped img lay lay' s t r va (setW old) none →
      (∃ pa, t.trace = .edit pa t.mem :: s.trace) → Resolved img lay s r va area scause lay' t
  | copy (old g h : Nat) : leafPte s.mem r va = some old → scause = STORE_FAULT → old.testBit PTE_W = false →
      s.ref (pteFrame old) ≠ 1 → lay.role g = .other → s.ref g = 0 → lay'.role g = .data → t.ref g = 1 →
      Leaked lay lay' s t h → h ≠ g →
      Remapped img lay lay' s t r va (2 ^ 10 * g + ((old &&& 0x1f) ||| 0x4)) (some (pteFrame old)) →
      old.testBit PTE_R = true → va < 2 ^ 38 →
      (∀ o, o < 4096 → t.mem (g * 4096 + o) = s.mem (pteFrame old * 4096 + o)) →
      (∃ u m, SameUser lay s m ∧ u.trace = .fence m :: s.trace ∧ Logged u t fun _ => True) →
      Resolved img lay s r va area scause lay' t

/-- `do_page_fault` does not return. -/
inductive Refused (img : Image) (lay : Layout) (s : KState) (r va : Nat) (sel : Option Nat) (scause : Nat)
    (e : Halt) (t : KState) : Prop
  | area : (∀ p, sel = some p → refuses scause (s.vma p).vm_flags = true) → e = .untrapped → t = s →
      Refused img lay s r va sel scause e t
  | full : e = .null → OutOfPages img t → Refused img lay s r va sel scause e t
  | settled (old : Nat) : leafPte s.mem r va = some old → ¬ (scause = STORE_FAULT ∧ old.testBit PTE_W = false) →
      e = .untrapped → Refused img lay s r va sel scause e t
  | unreadable (old : Nat) : leafPte s.mem r va = some old → scause = STORE_FAULT → s.ref (pteFrame old) ≠ 1 →
      (old.testBit PTE_R = false ∨ 2 ^ 38 ≤ va) → e = .fault → Refused img lay s r va sel scause e t
  | copy (p : Nat) : leafPte s.mem r va = none → sel = some p → (s.vma p).vm_flags &&& 0x1 ≠ 1 →
      copyLength img (s.vma p) (copyStart img (s.vma p) va).1 (copyStart img (s.vma p) va).2 ≠ 0 → e = .fault →
      Refused img lay s r va sel scause e t

/-- The page-table pointer of the running task is read. -/
theorem Spec.currentPgd {fresh : Prop} {α : Type} {f : Nat → K α} {P : α → KState → Prop} {E : Halt → KState → Prop}
    (h : Paging img lay s) (hr : Running lay s i) (hf : Spec fresh (f (framePtr (lay.root i))) s P E) :
    Spec fresh (get >>= fun a => loadWord img (a.current + TASK_PGD) >>= f) s P E := by
  have ok := h.task i hr.pos hr.lt hr.some
  have hram := (h.held _ (by rw [ok.page]; exact Role.noConfusion)).1
  refine ends_bind.mpr (ends_get.mpr (ends_bind.mpr ?_))
  rw [hr.current, ok.ptr, ends_loadWord hram (by decide), ok.pgd]
  exact hf

/-- What holds when the page `g` has been taken for a fault of the running task `i`. -/
structure Entered (img : Image) (lay lay₁ : Layout) (s t : KState) (i g : Nat) : Prop where
  calm : Calm img lay lay₁ s t none
  trace : t.trace = s.trace
  running : Running lay₁ t i
  free : lay.role g = .other
  data : lay₁.role g = .data
  unused : s.ref g = 0
  one : t.ref g = 1
  only : ∀ f, lay.role f = .other → lay₁.role f ≠ .other → f = g

/-- The page is the only frame that has come into use. -/
theorem Entered.inUse (h : Paging img lay s) (he : Entered img lay lay₁ s t i g) : t.buddy.inUse = s.buddy.inUse + 1 := by
  have hram := (he.calm.paging.held g (by rw [he.data]; exact Role.noConfusion)).1
  refine inUse_succ h.pages he.calm.paging.pages hram he.unused he.one fun f hf hne => ?_
  by_cases h0 : s.ref f = 0
  · rw [h0]
    refine he.calm.free f hf h0 ?_
    by_contra hrole
    refine hne (he.only f ?_ hrole)
    by_contra hno
    exact (h.held f hno).2.2 h0
  · have hsame := he.calm.ref f hf h0
    rwa [if_neg (by simp), Nat.add_zero] at hsame

theorem Entered.leaked (he : Entered img lay lay₁ s t i g) : Leaked lay lay₁ s t g :=
  ⟨he.free, he.unused, he.data, he.one⟩

theorem Entered.root_role (he : Entered img lay lay₁ s t i g) : lay₁.role (lay₁.root i) = .table (lay₁.root i) [] :=
  (he.calm.paging.task i he.running.pos he.running.lt he.running.some).root

theorem Entered.old_root_role (he : Entered img lay lay₁ s t i g) (h : Paging img lay s) :
    lay.role (lay.root i) = .table (lay.root i) [] := by
  refine (h.task i he.running.pos he.running.lt ?_).root
  rw [← he.calm.tasks.task]
  exact he.running.some

theorem demandPage_spec {fresh : Prop} (h : Paging img lay s) (hfresh : fresh → Fresh img s) (he : Entered img lay lay₁ s t i g) (hva : UserVa va)
    (hnone : leafPte s.mem (lay.root i) va = none) {scause p : Nat} {sel : Option Nat} (hsel : sel = some p)
    (harea : area = s.vma p) :
    Spec fresh (demandPage img area (framePtr g) va) t
      (fun _ u => ∃ lay', Resolved img lay s (lay.root i) va area scause lay' u)
      (Refused img lay s (lay.root i) va sel scause) := by
  have hroot := he.old_root_role h
  have hram := (he.calm.paging.held g (by rw [he.data]; exact Role.noConfusion)).1
  rw [demandPage]
  refine .currentPgd he.calm.paging he.running ?_
  refine Spec.bind (P := fun _ u => ∃ lay', Mapped img lay₁ lay' t u (lay₁.root i) va
    (2 ^ 10 * g + (0x11 ||| (area.vm_flags &&& 0xe)))) ?_ (fun _ => grows_ite (grows_memcpy ..) (grows_pure _)) ?_
  · exact (createMapping_spec he.calm.paging (fun hf => he.calm.sparing.fresh (hfresh hf)) he.root_role hva he.data (VA2PA_page hram) demandPerm_lt
      demandPerm_odd demandPerm_user).mono (fun _ _ hm => hm) fun _ _ hn => .full hn.1 hn.2
  · rintro _ u ⟨lay', hm⟩
    have hre := he.calm.remapped hm
    rw [he.calm.root] at hre hm
    have hdata : lay'.role g = .data := by rw [hm.role g (by rw [he.data]; exact Role.noConfusion), he.data]
    have hone : u.ref g = 1 := by rw [hm.ref g hram (by rw [he.one]; decide), he.one]
    have htab : ∀ f, lay.role f = .table f [] → lay₁.role f = .table f [] := fun f hf => he.calm.table hf
    have hlog : Logged s u fun m => SameUser lay s m ∨ SameUser lay u m := by
      refine (Logged.of_trace_eq he.trace).trans (hm.logged.mono ?_)
      rintro m (hs | rfl)
      · refine .inl fun r' va' hr' hlow => (hs r' va' (htab r' hr') hlow).trans ?_
        rw [he.calm.paging.translate_user (htab r' hr') hlow, h.translate_user hr' hlow,
          he.calm.leaves r' va' hr' (.of_lt hlow)]
      · exact .inr fun _ _ _ _ => rfl
    have hspent : ∀ f, img.Ram f → s.ref f = 0 → u.ref f ≠ 0 → f = g ∨ Reached lay' u.mem (lay.root i) f := by
      intro f hf hz hne
      have h0 : lay.role f = .other := by
        by_contra hno
        exact (h.held f hno).2.2 hz
      by_cases h1 : lay₁.role f = .other
      · right
        refine (hm.added f h1 fun h2 => hne ?_).2
        exact hm.free f hf (he.calm.free f hf hz h1) h2
      · exact .inl (he.only f h0 h1)
    by_cases hanon : area.vm_flags &&& 0x1 ≠ 1
    · rw [if_pos hanon]
      obtain ⟨hstart, hoff⟩ := copyStart_bounds img area va
      have hcases := copyLength_cases img area hstart hoff
      have hbad : ∀ e u', e = .fault →
          copyLength img area (copyStart img area va).1 (copyStart img area va).2 ≠ 0 →
          Refused img lay s (lay.root i) va sel scause e u' := fun e u' hf hne =>
        .copy p hnone hsel (by rw [← harea]; exact hanon) (by rw [← harea]; exact hne) hf
      change Spec fresh (memcpy img ((framePtr g + (copyStart img area va).2) % 2 ^ 64) (copyStart img area va).1
        (copyLength img area (copyStart img area va).1 (copyStart img area va).2)) u _ _
      generalize copyLength img area (copyStart img area va).1 (copyStart img area va).2 = n at hcases hbad ⊢
      generalize (copyStart img area va).1 = start at hstart ⊢
      generalize (copyStart img area va).2 = o at hoff hcases ⊢
      have hptr := framePtr_lt hram (o := o) (by omega)
      have hdone : ∀ u', ChangedIn u u' (g * 4096 + o) n → o + n ≤ 4096 →
          Resolved img lay s (lay.root i) va area scause lay' u' := by
        rintro u' ⟨m, rfl, hm'⟩ hfit
        have hout : ∀ x, x < g * 4096 ∨ g * 4096 + 4096 ≤ x → m x = u.mem x := by
          intro x hx
          refine hm' x ?_
          generalize g * 4096 = b at hx ⊢
          omega
        have hkeep := hm.paging.keepsTables_data hdata hout
        refine .demand g hnone he.free he.unused hdata hone (hre.data hroot hva hdata he.free hout) ?_ ?_
        rotate_left
        · intro f hf hz hne
          refine (hspent f hf hz hne).imp_right fun hreach => ?_
          obtain ⟨p', hp, hlen, hq, hd⟩ := hreach
          refine ⟨p', hp, hlen, hq, ?_⟩
          have hr' : lay'.role (lay.root i) = .table (lay.root i) [] := by
            rw [hm.role _ (by rw [htab _ hroot]; exact Role.noConfusion), htab _ hroot]
          rw [KState.withMem_mem, hm.paging.descend_congr hkeep hr' hq hlen]
          exact hd
        refine hlog.mono fun m' hm'' => hm''.imp_right fun hs r' va' hr' hlow => ?_
        have hr'' : lay'.role r' = .table r' [] := by
          rw [hm.role r' (by rw [htab r' hr']; exact Role.noConfusion), htab r' hr']
        rw [hs r' va' hr' hlow, (hm.paging.withMem hkeep).translate_user hr'' hlow,
          hm.paging.translate_user hr'' hlow, KState.withMem_mem, hm.paging.leafPte_congr hkeep hr'' (.of_lt hlow)]
      rw [Nat.mod_eq_of_lt hptr]
      rcases hcases with hfit | hwrap
      · by_cases hzero : n = 0
        · rw [hzero, memcpy]
          exact .pure ⟨lay', hdone u (.refl u _ _) hfit⟩
        · exact .of_ends <| (ends_memcpy_changedIn hram hfit).mono (fun _ u' hw => ⟨lay', hdone u' hw hfit⟩)
            fun e u' hw => hbad e u' hw.1 hzero
      · exact .of_ends <| (ends_memcpy_wrapped hram hoff hwrap).mono (fun _ _ hno => hno.elim)
          fun e u' hf => hbad e u' hf (by omega)
    · rw [if_neg hanon]
      exact .pure ⟨lay', .demand g hnone he.free he.unused hdata hone hre hlog hspent⟩

end Resolve

section Cow
variable {img : Image} {lay lay₁ lay₂ : Layout} {s t u : KState} {i g l va old scause : Nat} {area : VmArea}
  {sel : Option Nat} {fresh : Prop}

/-- The leaf slot of `va` in the running task's tables, and the entry in it. -/
structure Slot (lay : Layout) (t : KState) (r va l old : Nat) : Prop where
  descend : descend pteFormat (tables t.mem) r (path va) = some l
  role : lay.role l = .table r (path va)
  entry : tables t.mem l (vpn va 0) = old
  odd : old % 2 = 1
  data : lay.role (pteFrame old) = .data
  flags : pteFlags old < 32
  user : old.testBit PTE_U = true

theorem Paging.slot (h : Paging img lay t) {r : Nat} (hr : lay.role r = .table r []) (hva : UserVa va)
    (hpte : leafPte t.mem r va = some old) : ∃ l, Slot lay t r va l old := by
  obtain ⟨l, hd, hl, he, hodd, hdata, hflags, hu⟩ := h.of_leafPte hr hva hpte
  exact ⟨l, hd, hl, he, hodd, hdata, hflags, hu⟩

theorem Slot.lt (h : Slot lay t g va l old) : old < 2 ^ 64 := h.entry ▸ tables_lt _ _ _

theorem Slot.setW_ok (h : Slot lay t g va l old) : LeafOk lay (setW old) := by
  refine ⟨by rw [pteFrame_setW, h.data], ?_, ?_⟩
  · rw [pteFlags_setW]
    exact Nat.or_lt_two_pow (n := 5) h.flags (by decide)
  · rw [setW, Nat.testBit_or, h.user]
    rfl

theorem setW_odd (h : old % 2 = 1) : setW old % 2 = 1 := by
  rw [← testBit_zero_iff, setW, Nat.testBit_or, testBit_zero_iff.mpr h]
  rfl

theorem setW_lt (h : old < 2 ^ 64) : setW old < 2 ^ 64 := Nat.or_lt_two_pow h (by decide)

theorem UserVa.of_le_end (h : va ≤ USER_END) : UserVa va := by
  rw [USER_END] at h
  rw [UserVa, VPN_eq]
  omega

/-- The last owner of the frame: W is set in place. -/
theorem cow_own (he : Entered img lay lay₁ s t i g) (hva : UserVa va)
    (hpte : leafPte s.mem (lay.root i) va = some old) (hs : Slot lay₁ t (lay₁.root i) va l old)
    (hstore : scause = STORE_FAULT) (hw : old.testBit PTE_W = false) (hone : s.ref (pteFrame old) = 1) :
    Spec fresh (storeEntry img (framePtr l) (VPN va 0) (setW old)) t
      (fun _ u => ∃ lay', Resolved img lay s (lay.root i) va area scause lay' u)
      (Refused img lay s (lay.root i) va sel scause) := by
  have hlram := he.calm.paging.table_ram hs.role
  refine (ends_storeEntry hlram (VPN_lt va 0)).mpr fun _ => ⟨lay₁, ?_⟩
  have hm := Mapped.of_grown (.refl he.calm.paging) he.root_role hva hs.descend (setW_lt hs.lt)
    (setW_odd hs.odd) hs.setW_ok
  have hre := he.calm.remapped hm
  rw [he.calm.root] at hre
  refine .own old g hpte hstore hw hone { he.leaked with } hre ⟨l * 4096 + 8 * VPN va 0, ?_⟩
  rw [← he.trace]
  rfl

/-- The frame of `old` has been released, and `g` taken for the private copy; `h` is lost. -/
structure Drawn (img : Image) (lay lay₂ : Layout) (s u : KState) (i g h old : Nat) : Prop where
  calm : Calm img lay lay₂ s u (some (pteFrame old))
  trace : u.trace = s.trace
  running : Running lay₂ u i
  free : lay.role g = .other
  data : lay₂.role g = .data
  unused : s.ref g = 0
  one : u.ref g = 1
  leaked : Leaked lay lay₂ s u h
  ne : h ≠ g

/-- What holds when the private copy `g` of the frame of `old` has been filled. -/
structure Copied (img : Image) (lay lay₂ : Layout) (s u : KState) (i g h va old : Nat) : Prop
    extends Drawn img lay lay₂ s u i g h old where
  readable : old.testBit PTE_R = true
  low : va < 2 ^ 38
  bytes : ∀ o, o < 4096 → u.mem (g * 4096 + o) = s.mem (pteFrame old * 4096 + o)
  slot : ∃ l, Slot lay₂ u (lay₂.root i) va l old

/-- The page of the copy is written. -/
theorem Drawn.stored {b : Nat} {m : Mem} (hd : Drawn img lay lay₂ s u i g b old)
    (hm : ∀ x, x < g * 4096 ∨ g * 4096 + 4096 ≤ x → m x = u.mem x) : Drawn img lay lay₂ s (u.withMem m) i g b old :=
  { hd with
    calm := hd.calm.data hd.data hd.free hm
    running := { hd.running with }
    leaked := { hd.leaked with } }

/-- The shared frame has been released, and a page taken. -/
theorem Entered.drawn {v : KState} {g₂ : Nat} (h : Paging img lay s) (he : Entered img lay lay₁ s t i g)
    (hfref : s.ref (pteFrame old) ≠ 0) (hu : Recounted img t u (pteFrame old) (t.ref (pteFrame old) - 1))
    (hcalm : Calm img lay lay₁ s u (some (pteFrame old))) (htaken : Taken img u v g₂) :
    Drawn img lay (lay₁.withRole g₂ .data) s v i g₂ g old := by
  have hg₂ : s.ref g₂ = 0 := by
    by_contra hne
    exact hcalm.live g₂ htaken.ram hne htaken.free
  have hgram := (he.calm.paging.held g (by rw [he.data]; exact Role.noConfusion)).1
  have hgf : g ≠ pteFrame old := by
    rintro rfl
    exact hfref he.unused
  have hu₁ : u.ref g = 1 := (hu.others g hgram hgf).trans he.one
  have hne : g ≠ g₂ := by
    rintro rfl
    rw [htaken.free] at hu₁
    cases hu₁
  constructor
  case calm => exact hcalm.take htaken
  case trace => exact htaken.trace.trans (hu.trace.trans he.trace)
  case running =>
    exact
      { pos := he.running.pos
        lt := he.running.lt
        some := by
          rw [htaken.tasks.task, hu.tasks.task]
          exact he.running.some
        current := by
          rw [htaken.tasks.task, hu.tasks.task, htaken.tasks.current, hu.tasks.current]
          exact he.running.current
        satp := by
          rw [htaken.tasks.satp, hu.tasks.satp]
          exact he.running.satp }
  case free =>
    by_contra hno
    exact (h.held g₂ hno).2.2 hg₂
  case data => exact role_withRole
  case unused => exact hg₂
  case one => exact htaken.taken
  case leaked =>
    exact ⟨he.free, he.unused, by rw [role_withRole_of_ne hne, he.data],
      by rw [htaken.ref hgram (by rw [hu₁]; decide), hu₁]⟩
  case ne => exact hne

/-- The copy is filled: the old page cannot be read, or the rest of the handler goes on with the copy. -/
theorem Drawn.ends_copy {P : Unit → KState → Prop} {E : Halt → KState → Prop} {b : Nat} {k : K Unit} (h : Paging img lay s)
    (hd : Drawn img lay lay₂ s t i g b old) (hr : lay.role (lay.root i) = .table (lay.root i) []) (hle : va ≤ USER_END)
    (hpte : leafPte s.mem (lay.root i) va = some old)
    (hread : ∀ u, u.buddy = t.buddy → (old.testBit PTE_R = false ∨ 2 ^ 38 ≤ va) → E .fault u)
    (hgo : ∀ u, Copied img lay lay₂ s u i g b va old → u.buddy = t.buddy → (∀ f, f ≠ g → SameFrame u.mem t.mem f) →
      Spec fresh k u P E) :
    Spec fresh (memset img (framePtr g) 0 PGSIZE >>= fun _ => memcpy img (framePtr g) (PGROUNDDOWN va) PGSIZE >>= fun _ => k)
      t P E := by
  have hva : UserVa va := .of_le_end hle
  obtain ⟨l₀, hs₀⟩ := h.slot hr hva hpte
  obtain ⟨hfram, -, hfref⟩ := h.held _ (by rw [hs₀.data]; exact Role.noConfusion)
  have hgram := (hd.calm.paging.held g (by rw [hd.data]; exact Role.noConfusion)).1
  have hfne : g ≠ pteFrame old := by
    rintro rfl
    exact hfref hd.unused
  rw [← Nat.add_zero (framePtr g)]
  refine ends_bind.mpr ((ends_memset hgram (by decide)).mpr ?_)
  rw [Nat.add_zero, Nat.add_zero]
  have hfill : ∀ x, x < g * 4096 ∨ g * 4096 + 4096 ≤ x → fill t.mem (g * 4096) PGSIZE 0 x = t.mem x :=
    fun x hx => fill_outside hx
  have hd₁ := hd.stored hfill
  have hroot := hd₁.calm.root_role hr
  have hpage : PGROUNDDOWN va / 4096 % 2 ^ 27 = va / 4096 % 2 ^ 27 := by
    simp only [PGROUNDDOWN, PGSIZE]
    omega
  have hdown : PGROUNDDOWN va ≤ va ∧ va < PGROUNDDOWN va + 4096 ∧ PGROUNDDOWN va % 4096 = 0 := by
    simp only [PGROUNDDOWN, PGSIZE]
    omega
  have hlow : va < 2 ^ 38 ∨ va = 2 ^ 38 := by
    rw [USER_END] at hle
    omega
  rcases hlow with hlow | hhigh
  · have hpte₁ : leafPte (t.withMem (fill t.mem (g * 4096) PGSIZE 0)).mem (lay₂.root i) (PGROUNDDOWN va) = some old := by
      rw [leafPte_page hpage, hd₁.calm.root, hd₁.calm.leaves _ _ hr hva]
      exact hpte
    have hcopy := hd₁.calm.paging.ends_memcpy_page hd₁.running.satp hroot (by omega) hdown.2.2 hpte₁ hd.data hfne
    refine ends_bind.mpr (hcopy.mono ?_ ?_)
    · rintro _ w ⟨hreadable, rfl⟩
      have hout : ∀ x, x < g * 4096 ∨ g * 4096 + 4096 ≤ x →
          copy (fill t.mem (g * 4096) PGSIZE 0) (g * 4096) (pteFrame old * 4096) 4096 x = fill t.mem (g * 4096) PGSIZE 0 x :=
        fun x hx => copy_outside hx
      have hd₂ := hd₁.stored hout
      refine hgo _ ⟨hd₂, hreadable, hlow, fun o ho => ?_, ?_⟩ rfl fun f hf o ho => ?_
      · have hsrc := hd.calm.frame _ (fun r p hp => by rw [hs₀.data] at hp; cases hp) hfref o ho
        rw [KState.withMem_mem, copy_inside (by omega), Nat.add_sub_cancel_left]
        exact (hfill _ (by omega)).trans hsrc
      · refine hd₂.calm.paging.slot (hd₂.calm.root_role hr) hva ?_
        rw [hd₂.calm.root, hd₂.calm.leaves _ _ hr hva]
        exact hpte
      · exact (hout _ (by omega)).trans (hfill _ (by omega))
    · rintro e w ⟨rfl, rfl, hno⟩ _
      exact hread _ rfl (.inl hno)
  · have heq : PGROUNDDOWN va = 2 ^ 38 := by omega
    rw [heq]
    refine ends_bind.mpr ((ends_memcpy_noncanonical (Nat.le_refl _) (by decide) (by decide)).mono
      (fun _ _ hno => hno.elim) fun e w hf _ => ?_)
    rw [hf.1, hf.2]
    exact hread _ rfl (.inr (Nat.le_of_eq hhigh.symm))

/-- The private copy is entered. -/
theorem cow_map {g₁ : Nat} (h : Paging img lay s) (hfresh : fresh → Fresh img s) (hc : Copied img lay lay₂ s u i g g₁ va old) (hva : UserVa va)
    (hr : lay.role (lay.root i) = .table (lay.root i) [])
    (hpte : leafPte s.mem (lay.root i) va = some old) (hodd : old % 2 = 1) (hu : old.testBit PTE_U = true)
    (hstore : scause = STORE_FAULT) (hw : old.testBit PTE_W = false) (hmany : s.ref (pteFrame old) ≠ 1) :
    Spec fresh (sfenceVma >>= fun _ => get >>= fun a => loadWord img (a.current + TASK_PGD) >>= fun pgd =>
        createMapping img pgd va (VA2PA (framePtr g)) PGSIZE ((old &&& 0x1f) ||| 0x4)) u
      (fun _ w => ∃ lay', Resolved img lay s (lay.root i) va area scause lay' w)
      (Refused img lay s (lay.root i) va sel scause) := by
  have hram := (hc.calm.paging.held g (by rw [hc.data]; exact Role.noConfusion)).1
  have hcalm := hc.calm.fence u.mem
  have hrun : Running lay₂ (u.log (.fence u.mem)) i := { hc.running with }
  have hroot := hc.calm.root_role hr
  refine ends_bind.mpr (ends_modify.mpr ?_)
  refine Spec.currentPgd hcalm.paging hrun ?_
  refine (createMapping_spec hcalm.paging (fun hf => hcalm.sparing.fresh (hfresh hf)) hroot hva hc.data (VA2PA_page hram) copyPerm_lt (copyPerm_odd hodd)
    (copyPerm_user hu)).mono ?_ fun _ _ hn => .full hn.1 hn.2
  rintro _ w ⟨lay', hm⟩
  have hre := hcalm.remapped hm
  rw [hc.calm.root] at hre
  have hdata : lay'.role g = .data := by rw [hm.role g (by rw [hc.data]; exact Role.noConfusion), hc.data]
  have hone : w.ref g = 1 := by
    rw [hm.ref g hram (by rw [KState.ref_log, hc.one]; decide), KState.ref_log, hc.one]
  have hleak : Leaked lay lay' s w g₁ := by
    have hkept := hc.leaked.data
    have hram₁ := (hc.calm.paging.held g₁ (by rw [hkept]; exact Role.noConfusion)).1
    refine ⟨hc.leaked.free, hc.leaked.unused, by rw [hm.role g₁ (by rw [hkept]; exact Role.noConfusion), hkept], ?_⟩
    rw [hm.ref g₁ hram₁ (by rw [KState.ref_log, hc.leaked.one]; decide), KState.ref_log, hc.leaked.one]
  refine ⟨lay', .copy old g g₁ hpte hstore hw hmany hc.free hc.unused hdata hone hleak hc.ne hre hc.readable hc.low ?_ ?_⟩
  · intro o ho
    have hsame := hm.frame g (fun r p hp => by rw [hdata] at hp; cases hp) o ho
    exact hsame.trans (hc.bytes o ho)
  · refine ⟨u.log (.fence u.mem), u.mem, .of_leaves h hc.calm.paging hc.calm.role hc.calm.leaves, ?_,
      hm.logged.mono fun _ _ => trivial⟩
    rw [KState.log_trace, hc.trace]

/-- The shared frame is released, and a new page is filled from it: no page is free, the old page cannot be read, or the
private copy is to be entered. -/
theorem cowCopy_rule {P : Unit → KState → Prop} {E : Halt → KState → Prop} (h : Paging img lay s)
    (he : Entered img lay lay₁ s t i g) (hle : va ≤ USER_END) (hpte : leafPte s.mem (lay.root i) va = some old)
    (hs : Slot lay₁ t (lay₁.root i) va l old) (hmany : s.ref (pteFrame old) ≠ 1)
    (hfull : ∀ u, u.Pages img → OutOfPages img u → u.buddy.inUse = s.buddy.inUse + 1 → E .null u)
    (hread : ∀ u, u.buddy.inUse = s.buddy.inUse + 2 → (old.testBit PTE_R = false ∨ 2 ^ 38 ≤ va) → E .fault u)
    (hgo : ∀ lay₂ g₂ u, Copied img lay lay₂ s u i g₂ g va old → u.buddy.inUse = s.buddy.inUse + 2 →
      Spec fresh (sfenceVma >>= fun _ => get >>= fun a => loadWord img (a.current + TASK_PGD) >>= fun pgd =>
        createMapping img pgd va (VA2PA (framePtr g₂)) PGSIZE ((old &&& 0x1f) ||| 0x4)) u P E) :
    Spec fresh (cowCopy img (framePtr l) old va) t P E := by
  have hr := he.old_root_role h
  obtain ⟨l₀, hs₀⟩ := h.slot hr (.of_le_end hle) hpte
  obtain ⟨hfram, hfabove, hfref⟩ := h.held _ (by rw [hs₀.data]; exact Role.noConfusion)
  have href : t.ref (pteFrame old) = s.ref (pteFrame old) := by
    have := he.calm.ref _ hfram hfref
    rwa [if_neg (by simp), Nat.add_zero] at this
  rw [cowCopy, pteTable_eq hfram]
  refine Spec.bind (k := 3) (P := fun _ u => Recounted img t u (pteFrame old) (t.ref (pteFrame old) - 1))
    (.of_ends ((putPage_spec he.calm.paging.pages hfram hfabove (by rw [href]; exact hfref)).mono
      (fun _ _ hu => hu) fun _ _ hno => hno.elim)) (fun _ => ?_) ?_
  · exact grows_add (k := 2) grows_allocPage (fun _ => grows_bind (grows_notNull _) fun _ =>
      grows_bind (grows_memset ..) fun _ => grows_bind (grows_memcpy ..) fun _ =>
        grows_bind (grows_loadEntry ..) fun _ => grows_bind grows_sfenceVma fun _ =>
          grows_bind grows_get fun _ => grows_bind (grows_loadWord _) fun _ => grows_createMapping ..) le_rfl
  rintro _ u hu
  have hcalm := he.calm.release hu (by rw [hs₀.data]; exact Role.noConfusion) (by rw [href]; omega)
  have huse : u.buddy.inUse = s.buddy.inUse + 1 :=
    (hu.inUse he.calm.paging.pages (by rw [href]; exact hfref) (by rw [href]; omega)).trans (he.inUse h)
  refine ends_bind.mpr ((allocPage_spec hcalm.paging.pages).mono ?_ fun _ _ hno => hno.elim)
  rintro p v (⟨rfl, rfl, hout⟩ | ⟨g₂, rfl, htaken⟩)
  · refine ends_bind.mpr (ends_notNull.mpr ?_)
    rw [if_pos rfl]
    exact fun _ => hfull _ hcalm.paging.pages hout huse
  · have hd := he.drawn h hfref hu hcalm htaken
    have huse₂ : v.buddy.inUse = s.buddy.inUse + 2 := by rw [htaken.inUse hcalm.paging.pages, huse]
    have hlne : l ≠ g₂ := htaken.ne hcalm.paging (by rw [hs.role]; exact Role.noConfusion)
    refine ends_bind.mpr (ends_notNull.mpr ?_)
    rw [if_neg (framePtr_ne_zero g₂)]
    refine hd.ends_copy h hr hle hpte (fun w hw hno => hread w (by rw [hw, huse₂]) hno) fun w hc hw hsame => ?_
    have hframe : SameFrame w.mem t.mem l := by
      have hnow := hsame l hlne
      rwa [htaken.mem, hu.mem] at hnow
    have hold : entry w.mem l (VPN va 0) = old := by
      rw [← hs.entry, ← tables_congr hframe]
      rfl
    refine ends_bind.mpr ((ends_loadEntry (he.calm.paging.table_ram hs.role) (VPN_lt va 0)).mpr ?_)
    rw [hold]
    exact hgo _ g₂ w hc (by rw [hw, huse₂])

theorem cow_fill (h : Paging img lay s) (hfresh : fresh → Fresh img s) (he : Entered img lay lay₁ s t i g) (hle : va ≤ USER_END)
    (hpte : leafPte s.mem (lay.root i) va = some old) (hs : Slot lay₁ t (lay₁.root i) va l old)
    (hstore : scause = STORE_FAULT) (hw : old.testBit PTE_W = false) (hmany : s.ref (pteFrame old) ≠ 1) :
    Spec fresh (cowCopy img (framePtr l) old va) t
      (fun _ u => ∃ lay', Resolved img lay s (lay.root i) va area scause lay' u)
      (Refused img lay s (lay.root i) va sel scause) := by
  have hva : UserVa va := .of_le_end hle
  have hr := he.old_root_role h
  obtain ⟨l₀, hs₀⟩ := h.slot hr hva hpte
  exact cowCopy_rule h he hle hpte hs hmany (fun _ _ hout _ => .full rfl hout)
    (fun _ _ hno => .unreadable old hpte hstore hmany hno rfl)
    fun _ _ _ hc _ => cow_map h hfresh hc hva hr hpte hs₀.odd hs₀.user hstore hw hmany

theorem and_four_cases (x : Nat) : x &&& 4 = 0 ∨ x &&& 4 = 4 := by
  have h : x &&& 2 ^ 2 = _ := Nat.and_two_pow x 2
  rw [show (4 : Nat) = 2 ^ 2 by decide, h]
  cases x.testBit 2 <;> simp

/-- The page was mapped: nothing more is done, W is set, or a copy is made. -/
theorem cowPage_rule {P : Unit → KState → Prop} {E : Halt → KState → Prop} (h : Paging img lay s)
    (he : Entered img lay lay₁ s t i g) (hle : va ≤ USER_END) (hpte : leafPte s.mem (lay.root i) va = some old)
    (hflags : scause = STORE_FAULT → area.vm_flags &&& VM_WRITE = 4)
    (hsettled : ¬ (scause = STORE_FAULT ∧ old.testBit PTE_W = false) → E .untrapped t)
    (hown : ∀ l, Slot lay₁ t (lay₁.root i) va l old → scause = STORE_FAULT → old.testBit PTE_W = false →
      s.ref (pteFrame old) = 1 → Spec fresh (storeEntry img (framePtr l) (VPN va 0) (setW old)) t P E)
    (hcopy : ∀ l, Slot lay₁ t (lay₁.root i) va l old → scause = STORE_FAULT → old.testBit PTE_W = false →
      s.ref (pteFrame old) ≠ 1 → Spec fresh (cowCopy img (framePtr l) old va) t P E) :
    Spec fresh (cowPage img scause area.vm_flags va) t P E := by
  have hva : UserVa va := .of_le_end hle
  have hr := he.old_root_role h
  have hpte₁ : leafPte t.mem (lay₁.root i) va = some old := by
    rw [he.calm.root, he.calm.leaves _ _ hr hva]
    exact hpte
  obtain ⟨l, hs⟩ := he.calm.paging.slot he.root_role hva hpte₁
  have hlram := he.calm.paging.table_ram hs.role
  obtain ⟨l₀, hs₀⟩ := h.slot hr hva hpte
  obtain ⟨hfram, -, hfref⟩ := h.held _ (by rw [hs₀.data]; exact Role.noConfusion)
  have href : t.ref (pteFrame old) = s.ref (pteFrame old) := by
    have := he.calm.ref _ hfram hfref
    rwa [if_neg (by simp), Nat.add_zero] at this
  rw [cowPage]
  refine .currentPgd he.calm.paging he.running (ends_bind.mpr ?_)
  refine (leafTable_spec (j := 2) he.calm.paging he.root_role rfl hva.allowed hs.descend).mono ?_ fun _ _ hno => hno.elim
  rintro p u ⟨hu, rfl⟩
  rw [hu]
  have hentry : entry t.mem l (VPN va 0) = old := hs.entry
  refine ends_bind.mpr ((ends_loadEntry hlram (VPN_lt va 0)).mpr ?_)
  rw [hentry, pteTable_eq hfram]
  refine ends_bind.mpr ((ends_getPageRefcnt hfram).mpr ?_)
  by_cases hcow : scause = STORE_FAULT ∧ old.testBit PTE_W = false
  · have hcond : (scause == STORE_FAULT && area.vm_flags &&& VM_WRITE == 4 && old &&& 0x4 == 0) = true := by
      rw [hcow.1, hflags hcow.1, and_4_eq_zero_iff.mpr hcow.2]
      rfl
    rw [if_pos hcond, href]
    by_cases hone : s.ref (pteFrame old) = 1
    · rw [if_pos hone]
      exact hown l hs hcow.1 hcow.2 hone
    · rw [if_neg hone]
      exact hcopy l hs hcow.1 hcow.2 hone
  · have hcond : ¬ (scause == STORE_FAULT && area.vm_flags &&& VM_WRITE == 4 && old &&& 0x4 == 0) = true := by
      simp only [Bool.and_eq_true, beq_iff_eq]
      rintro ⟨⟨hstore, -⟩, hclear⟩
      exact hcow ⟨hstore, and_4_eq_zero_iff.mp hclear⟩
    rw [if_neg hcond]
    exact ends_throw.mpr fun _ => hsettled hcow

theorem cowPage_spec (h : Paging img lay s) (hfresh : fresh → Fresh img s) (he : Entered img lay lay₁ s t i g) (hle : va ≤ USER_END)
    (hpte : leafPte s.mem (lay.root i) va = some old)
    (hflags : scause = STORE_FAULT → area.vm_flags &&& VM_WRITE = 4) :
    Spec fresh (cowPage img scause area.vm_flags va) t
      (fun _ u => ∃ lay', Resolved img lay s (lay.root i) va area scause lay' u)
      (Refused img lay s (lay.root i) va sel scause) := by
  exact cowPage_rule h he hle hpte hflags (fun hno => .settled old hpte hno rfl)
    (fun _ hs hstore hw hone => cow_own he (.of_le_end hle) hpte hs hstore hw hone)
    fun _ hs hstore hw hmany => cow_fill h hfresh he hle hpte hs hstore hw hmany

end Cow

section PageFault
variable {img : Image} {lay : Layout} {s : KState} {i : Nat} {l : List Nat} {regs : PtRegs}

theorem refuses_store {scause flags : Nat} (h : refuses scause flags = false) (hs : scause = STORE_FAULT) :
    flags &&& VM_WRITE = 4 := by
  subst hs
  have hw : (flags &&& VM_WRITE == 0) = false := by
    simp only [refuses, Bool.or_eq_false_iff, Bool.and_eq_false_iff] at h
    exact h.2.resolve_left (by decide)
  rcases and_four_cases flags with h0 | h4
  · rw [beq_eq_false_iff_ne] at hw
    exact absurd h0 hw
  · exact h4

/-- What `do_page_fault` does before it maps a page: it refuses, finds no free page, or has taken the page `g`. -/
theorem doPageFault_rule {fresh : Prop} {P : Unit → KState → Prop} {E : Halt → KState → Prop} (h : Paging img lay s)
    (hr : Running lay s i) (hl : AreaList img s (mmapOf lay s i) l)
    (hrefuse : (∀ p, selected s.vma l regs.stval = some p → refuses regs.scause (s.vma p).vm_flags = true) → E .untrapped s)
    (hfull : ∀ p, selected s.vma l regs.stval = some p → refuses regs.scause (s.vma p).vm_flags = false → OutOfPages img s →
      E .null s)
    (hgo : ∀ p g t, selected s.vma l regs.stval = some p → refuses regs.scause (s.vma p).vm_flags = false → Taken img s t g →
      Entered img lay (lay.withRole g .data) s (t.withMem (fill t.mem (g * 4096) 8 0)) i g →
      Spec fresh (if leafPte s.mem (lay.root i) regs.stval = none then demandPage img (s.vma p) (framePtr g) regs.stval
        else cowPage img regs.scause (s.vma p).vm_flags regs.stval) (t.withMem (fill t.mem (g * 4096) 8 0)) P E) :
    Spec fresh (doPageFault img regs) s P E := by
  have hroot := (h.task i hr.pos hr.lt hr.some).root
  rw [doPageFault]
  refine ends_bind.mpr (ends_get.mpr (ends_bind.mpr ((ends_findVma h hr hl).mpr ?_)))
  cases hsel : selected s.vma l regs.stval with
  | none =>
      rw [Option.getD_none, if_pos rfl]
      exact ends_throw.mpr fun _ => hrefuse fun p hp => by rw [hsel] at hp; cases hp
  | some p =>
      obtain ⟨hmem, -, hend⟩ := selected_some hsel
      have hva := hl.userVa hsel
      rw [Option.getD_some, if_neg (hl.chain.ne_zero p hmem)]
      refine ends_bind.mpr (ends_get.mpr ?_)
      by_cases hno : refuses regs.scause (s.vma p).vm_flags = true
      · rw [if_pos hno]
        exact ends_throw.mpr fun _ => hrefuse fun q hq => by rw [hsel] at hq; cases hq; exact hno
      · rw [if_neg hno]
        have hgrant := Bool.not_eq_true _ |>.mp hno
        refine ends_bind.mpr ((allocPage_spec h.pages).mono ?_ fun _ _ hno => hno.elim)
        rintro q u (⟨rfl, rfl, hout⟩ | ⟨g, rfl, htaken⟩)
        · refine ends_bind.mpr (ends_notNull.mpr ?_)
          rw [if_pos rfl]
          exact fun _ => hfull p hsel hgrant hout
        · have hfree := htaken.other h
          have hdata : (lay.withRole g .data).role g = .data := role_withRole
          refine ends_bind.mpr (ends_notNull.mpr ?_)
          rw [if_neg (framePtr_ne_zero g), ← Nat.add_zero (framePtr g)]
          refine ends_bind.mpr ((ends_memset htaken.ram (by decide)).mpr ?_)
          rw [Nat.add_zero, Nat.add_zero]
          have hcalm := ((Calm.refl h).take htaken).data hdata hfree (m := fill u.mem (g * 4096) 8 0)
            fun x hx => fill_outside (by generalize g * 4096 = b at hx ⊢; omega)
          have hrun : Running (lay.withRole g .data) (u.withMem (fill u.mem (g * 4096) 8 0)) i :=
            { hcalm.tasks.running hr with }
          have he : Entered img lay (lay.withRole g .data) s (u.withMem (fill u.mem (g * 4096) 8 0)) i g :=
            ⟨hcalm, htaken.trace, hrun, hfree, hdata, htaken.free, htaken.taken, fun f h0 h1 => by
              by_contra hne
              rw [role_withRole_of_ne hne] at h1
              exact h1 h0⟩
          refine Spec.currentPgd hcalm.paging hrun ?_
          refine ends_bind.mpr ((checkValid_spec hcalm.paging he.root_role hva).mono ?_
            fun _ _ hno => hno.elim)
          rintro v w ⟨hw, hv⟩
          have hleaf : leafPte (u.withMem (fill u.mem (g * 4096) 8 0)).mem ((lay.withRole g .data).root i)
              regs.stval = leafPte s.mem (lay.root i) regs.stval := hcalm.leaves _ _ hroot hva
          have hrest := hgo p g u hsel hgrant htaken he
          rw [hw, hv, hleaf]
          cases hpte : leafPte s.mem (lay.root i) regs.stval with
          | none =>
              rw [hpte, if_pos rfl] at hrest
              rw [if_pos (by rfl)]
              exact hrest
          | some old =>
              rw [hpte, if_neg (Option.some_ne_none old)] at hrest
              rw [if_neg (by rw [Option.isSome_some, if_pos rfl]; decide)]
              exact hrest

/-- Every way in which `do_page_fault` can end for the running task. -/
theorem doPageFault_spec {fresh : Prop} (h : Paging img lay s) (hfresh : fresh → Fresh img s) (hr : Running lay s i)
    (hl : AreaList img s (mmapOf lay s i) l) :
    Spec fresh (doPageFault img regs) s
      (fun _ t => ∃ p lay', selected s.vma l regs.stval = some p ∧
        refuses regs.scause (s.vma p).vm_flags = false ∧
        Resolved img lay s (lay.root i) regs.stval (s.vma p) regs.scause lay' t)
      (Refused img lay s (lay.root i) regs.stval (selected s.vma l regs.stval) regs.scause) := by
  refine doPageFault_rule h hr hl (fun hno => .area hno rfl rfl) (fun _ _ _ hout => .full rfl hout) fun p g t hsel hgrant _ he => ?_
  obtain ⟨hmem, -, hend⟩ := selected_some hsel
  have hle : regs.stval ≤ USER_END := hend.trans (hl.below p hmem)
  cases hpte : leafPte s.mem (lay.root i) regs.stval with
  | none =>
      rw [if_pos rfl]
      exact (demandPage_spec h hfresh he (hl.userVa hsel) hpte hsel rfl).mono
        (fun _ _ ⟨lay', hres⟩ => ⟨p, lay', hsel, hgrant, hres⟩) fun _ _ hno => hno
  | some old =>
      rw [if_neg (Option.some_ne_none old)]
      exact (cowPage_spec h hfresh he hle hpte (refuses_store hgrant)).mono
        (fun _ _ ⟨lay', hres⟩ => ⟨p, lay', hsel, hgrant, hres⟩) fun _ _ hno => hno

end PageFault

end ZjuOs
