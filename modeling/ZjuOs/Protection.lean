import ZjuOs.DirectMap
import ZjuOs.Isolation

/-!
What a program can reach in user mode: its own pages, and no frame that the kernel uses for its image, for page tables,
for tasks or for anything else.
-/
namespace ZjuOs
open Memory Exec Radix Sharing

/-- Frame `f` holds a page of a user program. -/
structure UserFrame (img : Image) (s : KState) (f : Nat) : Prop where
  ram : img.Ram f
  above : img.firstFree ≤ f
  live : s.ref f ≠ 0
  task : ∀ k, k < NR_TASKS → s.task k ≠ framePtr f
  table : ∀ k, s.Live k → ∀ p, p.length ≤ 2 → descend pteFormat (tables s.mem) (s.root k) p ≠ some f

section Access
variable {img : Image} {lay : Layout} {own : Nat → Option (Nat × List (Fin 512))} {b s₀ s₁ s : KState} {i k va pte pa f : Nat}

/-- A kernel that has booted, with the page table of `setup_vm_final` in `s₀`. -/
structure BootRun (img : Image) (s₀ s : KState) (lay : Layout) (own : Nat → Option (Nat × List (Fin 512))) : Prop where
  inv : RunInv img lay s
  direct : DirectMapped img s₀
  inherited : Inherited img s₀ lay s
  kernel : ∀ p f, p.length ≤ 2 → descend pteFormat (tables s₀.mem) img.swapperFrame p = some f →
    img.Ram f ∧ s₀.ref f ≠ 0 ∧ SameFrame s.mem s₀.mem f
  sole : Exclusive pteView userSlots s.userPte s.ref

theorem Steps.reachable (h : Reachable img (fun _ _ => True) s₁) (hs : Steps img s₁ s) : Reachable img (fun _ _ => True) s := by
  induction hs with
  | refl => exact h
  | tail _ hstep ih =>
      obtain ⟨a, hstep⟩ := hstep
      exact ih.step trivial hstep

theorem Booted.bootRun (h : Booted img b) (hp : img.Paged) (hvm : (setupVmFinal img).run b = .ok () s₀)
    (hinit : (taskInit img).run s₀ = .ok () s₁) (hbelow : AreasBelow s₁) (hsteps : Steps img s₁ s) (hclean : TablesClean s.trace) :
    ∃ lay own, BootRun img s₀ s lay own := by
  have hclean₁ := hclean.suffix hsteps.trace_suffix
  have hclean₀ := hclean₁.suffix ((trails_taskInit.run s₀).of_ok hinit)
  obtain ⟨own, hk⟩ := (setupVmFinal_spec h False.elim).of_ok hvm (.inr hclean₀)
  obtain ⟨lay, hs, hin, -⟩ := (taskInit_spec (hk.ready h)).of_ok hinit
  obtain ⟨lay', hinv, hin'⟩ := hin.steps (hs.runInv hbelow) hsteps hclean
  obtain ⟨-, -, hsole⟩ := (hsteps.reachable (.start (hk.ready h) hinit hbelow)).exclusive hclean
  refine ⟨lay', own, hinv, hk.directMapped h.linked hp, hin', fun p f hlen hd => ?_, hsole⟩
  have hown := hk.tree.owned.descend hk.root (by simpa using hlen) (allowed_any _ _) hd
  obtain ⟨hram, href⟩ := hk.tree.held f _ hown
  exact ⟨hram, href, (hk.same hin' hlen hd).2⟩

/-- Kernel addresses are not for user mode. -/
theorem BootRun.kernel_va (h : BootRun img s₀ s lay own) (hi : s.Live i) (hlo : VM_START ≤ va) (hhi : va < 2 ^ 64)
    (htr : translate s.mem (lay.root i) va = some (pte, pa)) : pte.testBit PTE_U = false := by
  have hkernel : translate s.mem (lay.root i) va = translate s₀.mem img.swapperFrame va :=
    translate_kernel (fun p f _ hlen hd => by
      obtain ⟨hram, -, hsame⟩ := h.kernel p f hlen hd
      exact ⟨hram, hsame⟩) (h.inherited.root i hi) hlo hhi
  rw [hkernel] at htr
  by_cases hin : img.stext ≤ va ∧ va < img.phyEnd + PA2VA_OFFSET
  · obtain ⟨pte', hmap, hflags⟩ := h.direct.mapped va hin.1 hin.2
    rw [htr] at hmap
    cases hmap
    rw [testBit_pteFlags (by decide), hflags, sectionFlags]
    split
    · decide
    split
    · decide
    split
    · decide
    · decide
  · rw [h.direct.others va (by omega) hhi] at htr
    cases htr

/-- Below the root only the kernel's entries lead out of the tables of the task. -/
theorem allowed_user {k : Fin 512} (hk : k.val < 384) (q : List (Fin 512)) : Allowed UserSlot [] (k :: q) := by
  refine ⟨fun _ => hk, ?_⟩
  rw [List.nil_append]
  generalize hp : [k] = p
  have hne : p ≠ [] := by rw [← hp]; exact List.cons_ne_nil _ _
  clear hp hk
  induction q generalizing p with
  | nil => trivial
  | cons j q ih => exact ⟨fun h => absurd h hne, ih _ (by simp)⟩

/-- The kernel's entry `k` of a root leads where the one of `swapper_pg_dir` does. -/
theorem BootRun.descend_kernel (h : BootRun img s₀ s lay own) (hi : s.Live i) {k : Fin 512} (hk : 384 ≤ k.val)
    {q : List (Fin 512)} (hq : q.length ≤ 1) (hd : descend pteFormat (tables s.mem) (lay.root i) (k :: q) = some f) :
    descend pteFormat (tables s₀.mem) img.swapperFrame (k :: q) = some f := by
  rw [descend, h.inherited.root i hi k hk] at hd
  rw [descend]
  by_cases hv : pteFormat.valid (tables s₀.mem img.swapperFrame k) = true
  · have hfirst : descend pteFormat (tables s₀.mem) img.swapperFrame [k] =
        some (pteFormat.target (tables s₀.mem img.swapperFrame k)) := by
      rw [descend, if_pos hv, descend]
    rw [if_pos hv] at hd ⊢
    generalize pteFormat.target (tables s₀.mem img.swapperFrame k) = g at hd hfirst ⊢
    obtain ⟨-, -, hsame⟩ := h.kernel [k] g (Nat.le_succ 1) hfirst
    cases q with
    | nil =>
        rw [descend] at hd ⊢
        exact hd
    | cons j q =>
        obtain rfl : q = [] := List.eq_nil_of_length_eq_zero (Nat.le_zero.mp (Nat.le_of_succ_le_succ hq))
        rw [descend, tables_congr hsame, descend] at hd
        rw [descend, descend]
        exact hd
  · rw [if_neg hv] at hd
    cases hd

/-- A frame with user data is no table of any task. -/
theorem BootRun.not_table (h : BootRun img s₀ s lay own) (hf : lay.role f = .data) (hk : s.Live k) {p : List (Fin 512)}
    (hp : p.length ≤ 2) : descend pteFormat (tables s.mem) (s.root k) p ≠ some f := by
  intro hd
  have hpg := h.inv.paging
  have hroot := (hpg.task_ok hk).root
  rw [hpg.root_eq hk] at hd
  cases p with
  | nil =>
      rw [descend] at hd
      cases hd
      rw [hroot] at hf
      cases hf
  | cons j q =>
      rw [List.length_cons] at hp
      by_cases hslot : j.val < 384
      · have hl := hpg.owned.descend (own_eq_some.mpr hroot) (by simpa using hp) (allowed_user hslot q) hd
        rw [own_eq_some, hf] at hl
        cases hl
      · have hlen : q.length ≤ 1 := Nat.le_of_succ_le_succ hp
        obtain ⟨hram, href, -⟩ := h.kernel (j :: q) f hp (h.descend_kernel hk (Nat.le_of_not_lt hslot) hlen hd)
        rw [(h.inherited.other f hram href).1] at hf
        cases hf

/-- A frame with user data. -/
theorem BootRun.userFrame (h : BootRun img s₀ s lay own) (hf : lay.role f = .data) : UserFrame img s f := by
  obtain ⟨hram, habove, href⟩ := h.inv.paging.held f (by rw [hf]; exact Role.noConfusion)
  refine ⟨hram, habove, href, fun k hk he => ?_, fun k hk p hp => h.not_table hf hk hp⟩
  rcases Nat.eq_zero_or_pos k with rfl | hpos
  · obtain ⟨g, -, -, -, hother, hg⟩ := h.inv.idle
    rw [framePtr_inj (hg.symm.trans he), hf] at hother
    cases hother
  · have hne : s.task k ≠ 0 := by
      rw [he]
      exact framePtr_ne_zero f
    have hlive : s.Live k := ⟨hpos, hk, hne⟩
    have hpage := (h.inv.paging.task_ok hlive).page
    rw [h.inv.paging.page_eq hlive he, hf] at hpage
    cases hpage

/-- In every run a program in user mode reaches only frames that hold pages of user programs, and it can store only to a
frame that no other page of any task is mapped to. -/
theorem user_access_confined (h : Booted img b) (hp : img.Paged) (hvm : (setupVmFinal img).run b = .ok () s₀)
    (hinit : (taskInit img).run s₀ = .ok () s₁) (hbelow : AreasBelow s₁) (hsteps : Steps img s₁ s) (hclean : TablesClean s.trace)
    (hi : s.Runs i) (htr : translate s.mem (satpRoot s.satp) va = some (pte, pa)) (hu : pte.testBit PTE_U = true) :
    UserFrame img s (pa / PGSIZE) ∧ s.userPte (i, pageOf va) = some pte ∧
      (pte.testBit PTE_W = true → ∀ x e, s.userPte x = some e → pteFrame e = pa / PGSIZE → x = (i, pageOf va)) := by
  obtain ⟨lay, own, hrun⟩ := h.bootRun hp hvm hinit hbelow hsteps hclean
  have hpg := hrun.inv.paging
  have hroot := (hpg.task_ok hi.1).root
  rw [hrun.inv.satp i hi] at htr
  have hcan : Canonical va := by
    by_contra hno
    rw [translate, if_neg hno] at htr
    cases htr
  have hlow : va < VM_START := by
    by_contra hge
    have hlt : va < 2 ^ 64 := by
      rw [Canonical] at hcan
      omega
    rw [hrun.kernel_va hi.1 (Nat.le_of_not_lt hge) hlt htr] at hu
    cases hu
  have huser : UserVa va := by
    simp only [UserVa, VPN_eq, Canonical, VM_START] at *
    omega
  have hleaf := hpg.tree.translate_eq hpg.pointers (own_eq_some.mpr hroot) hcan huser.allowed fun pte hpte => by
    obtain ⟨l, -, -, -, -, hdata, -, -⟩ := hpg.of_leafPte hroot huser hpte
    exact ppn_eq (hpg.held _ (by rw [hdata]; exact Role.noConfusion)).1
  rw [hleaf] at htr
  obtain ⟨pte', hpte, hhw⟩ := Option.bind_eq_some_iff.mp htr
  obtain rfl : pte = pte' := hwLeaf_some hhw
  obtain ⟨l, -, -, -, -, hdata, -, -⟩ := hpg.of_leafPte hroot huser hpte
  have hslot : s.userPte (i, pageOf va) = some pte := (hpg.userPte_va hi.1 huser).trans hpte
  have hpa : pa / PGSIZE = pteFrame pte := by
    rw [hwLeaf] at hhw
    split at hhw
    · cases hhw
    · cases hhw
      simp only [PGSIZE]
      generalize pteFrame pte = g
      omega
  rw [hpa]
  have hmem : ∀ x e, s.userPte x = some e → x ∈ userSlots := fun x e hx => by
    obtain ⟨hlive, hn⟩ := userPte_some hx
    exact mem_userSlots.mpr ⟨hlive.2.1, hn⟩
  refine ⟨hrun.userFrame hdata, hslot, fun hw x e hx he => ?_⟩
  exact (hrun.sole.sole _ (hmem _ _ hslot) x (hmem x e hx) pte e hslot hx he.symm hw).symm

/-- The frame at `0x1000` on the board. -/
theorem user_access_confined_board : ∃ s pte pa, s.Runs 1 ∧ translate s.mem (satpRoot s.satp) 0x1000 = some (pte, pa) ∧
    UserFrame board s (pa / PGSIZE) := by
  obtain ⟨b, s₀, s₁, lay, s, g, hboot, hvm, hinit, hbelow, hsteps, h, -⟩ := board_touched (n := 0) (Nat.zero_le _)
  have hpaged : board.Paged := ⟨by decide, by decide, by decide, by decide⟩
  have hinv := h.room.inv
  have hflags : (0x17 : Nat) < 2 ^ 10 := by decide
  have hbit : ∀ j, j < 10 → (2 ^ 10 * g + 0x17).testBit j = Nat.testBit 0x17 j := fun j hj => by
    rw [testBit_pteFlags hj, pteFlags_mk hflags]
  have hleaf : leafPte s.mem (lay.root 1) 0x1000 = some (2 ^ 10 * g + 0x17) := by
    rw [h.leaf, Function.update_self]
  have htr : translate s.mem (satpRoot s.satp) 0x1000 = some (2 ^ 10 * g + 0x17, pteFrame (2 ^ 10 * g + 0x17) * 4096 + 0) := by
    rw [hinv.satp 1 h.runs, hinv.paging.translate_user (hinv.paging.task_ok h.runs.1).root (Nat.le_of_ble_eq_true rfl), hleaf,
      Option.bind_some, hwLeaf_readable]
    · rw [hbit _ (by decide)]
      decide
    · rw [hbit _ (by decide)]
      decide
  have hu : (2 ^ 10 * g + 0x17).testBit PTE_U = true := by
    rw [hbit _ (by decide)]
    decide
  exact ⟨s, _, _, h.runs, htr,
    (user_access_confined hboot hpaged hvm hinit hbelow hsteps h.room.clean h.runs htr hu).1⟩

end Access

end ZjuOs
