import Mathlib.Logic.Relation
import ZjuOs.SetupVm
import ZjuOs.Tlb

/-!
The kernel half of the address spaces: every task sees it as `setup_vm_final` has built it.
-/
namespace ZjuOs
open Memory Exec Radix

section Carried
variable {img : Image} {lay lay' : Layout} {s t : KState}

theorem Stepped.carried {a : Act} (h : RunInv img lay s) (hs : Stepped img lay s a lay' t) :
    Carried img lay lay' s t := by
  cases hs with
  | stay => exact .refl ..
  | switch _ _ _ hmem hbuddy htask _ _ =>
      have hsame : ∀ f, SameFrame t.mem s.mem f := fun f => by
        rw [hmem]
        exact .refl _ _
      exact .same (.of_same fun f _ _ _ _ => hsame f) htask (fun f _ => hsame f)
        (fun f _ hne => by rwa [KState.ref, hbuddy]) fun f _ _ => hsame f
  | fault _ _ _ _ hres => exact hres.carried
  | fork hr _ hf => exact hf.carried h.paging hr.live
  | @store i va pte c hr hva hpte _ hkeep =>
      refine .same hkeep.inner rfl hkeep.image (fun _ _ hne => hne) fun f hf _ o ho => ?_
      obtain ⟨-, -, -, -, -, hdata, -⟩ := h.paging.of_leafPte (h.paging.task_ok hr.live).root (.of_lt hva) hpte
      have hne : f ≠ pteFrame pte := by
        rintro rfl
        rw [hf] at hdata
        cases hdata
      have hout : ∀ g, f ≠ g → Function.update s.mem (g * 4096 + va % 4096) c (f * 4096 + o) = s.mem (f * 4096 + o) :=
        fun g hg => Function.update_of_ne (by omega) ..
      rw [KState.withMem_mem]
      exact hout _ hne
  | kernel hkeep _ hother => exact .same hkeep.inner rfl hkeep.image (fun _ _ hne => hne) hother

end Carried

section Walk
variable {img : Image} {m m' : Mem} {r va : Nat}

/-- The tables below the root `r` in `m'`, the root apart, have the same bytes in `m`. -/
def SameBelow (img : Image) (r : Nat) (m m' : Mem) : Prop :=
  ∀ p f, p ≠ [] → p.length ≤ 2 → descend pteFormat (tables m') r p = some f → img.Ram f ∧ SameFrame m m' f

theorem sv39Walk_step {j f f' : Nat} (he : entry m f (VPN va (j + 1)) = entry m' f' (VPN va (j + 1)))
    (hnext : pteFormat.valid (entry m' f' (VPN va (j + 1))) = true →
      sv39Walk m va j (ppn (entry m' f' (VPN va (j + 1)))) = sv39Walk m' va j (ppn (entry m' f' (VPN va (j + 1))))) :
    sv39Walk m va (j + 1) f = sv39Walk m' va (j + 1) f' := by
  rw [sv39Walk, sv39Walk, he]
  generalize entry m' f' (VPN va (j + 1)) = pte at hnext ⊢
  cases hv : pteFormat.valid pte with
  | true => rw [hnext hv]
  | false =>
      have hfault := pteFaults_of_even (pteFormat_invalid.mp hv)
      simp only [hfault, if_true]

/-- A valid entry of a table below the root leads to a table below the root. -/
theorem SameBelow.next (h : SameBelow img r m m') {f : Nat} {p : List (Fin 512)} {i : Nat} (hi : i < 512) (hlen : p.length < 2)
    (hd : descend pteFormat (tables m') r p = some f) (hv : pteFormat.valid (entry m' f i) = true) :
    descend pteFormat (tables m') r (p ++ [⟨i, hi⟩]) = some (ppn (entry m' f i)) := by
  have hnext : descend pteFormat (tables m') r (p ++ [⟨i, hi⟩]) = some (pteFrame (entry m' f i)) := by
    rw [descend_append, hd, Option.bind_some, descend]
    exact if_pos hv
  have hin := h _ _ (by simp) (by simp only [List.length_append, List.length_singleton]; omega) hnext
  rwa [ppn_eq hin.1]

theorem sv39Walk_congr (h : SameBelow img r m m') {j f : Nat} {p : List (Fin 512)} (hp : p ≠ []) (hlen : p.length + j ≤ 2)
    (hd : descend pteFormat (tables m') r p = some f) : sv39Walk m va j f = sv39Walk m' va j f := by
  have hsame : ∀ k, entry m f (VPN va k) = entry m' f (VPN va k) := fun k =>
    (h p f hp (by omega) hd).2.entry (VPN_lt va k)
  induction j generalizing f p with
  | zero => rw [sv39Walk, sv39Walk, hsame]
  | succ j ih =>
      refine sv39Walk_step (hsame _) fun hv => ?_
      have hnext := h.next (VPN_lt va (j + 1)) (by omega) hd hv
      have hlen' : (p ++ [vpn va (j + 1)]).length + j ≤ 2 := by
        simp only [List.length_append, List.length_singleton]
        omega
      have hne : p ++ [vpn va (j + 1)] ≠ [] := by simp
      exact ih hne hlen' hnext fun k => (h _ _ hne (by omega) hnext).2.entry (VPN_lt va k)

/-- Two roots with the same kernel half translate kernel addresses alike. -/
theorem translate_kernel {r' : Nat} (h : SameBelow img r' m m') (hroot : ∀ k : Fin 512, 384 ≤ k.val → tables m r k = tables m' r' k)
    (hlo : VM_START ≤ va) (hhi : va < 2 ^ 64) : translate m r va = translate m' r' va := by
  have hentry : entry m r (VPN va 2) = entry m' r' (VPN va 2) := hroot (vpn va 2) (vpn_kernel hlo hhi)
  have hwalk : sv39Walk m va 2 r = sv39Walk m' va 2 r' := sv39Walk_step hentry fun hv => by
    have hnext := h.next (p := []) (VPN_lt va 2) Nat.zero_lt_two rfl hv
    exact sv39Walk_congr h (by simp) le_rfl hnext
  rw [translate, translate, hwalk]

end Walk

section Runs
variable {img : Image} {lay : Layout} {own : Nat → Option (Nat × List (Fin 512))} {b s₀ s₁ s : KState} {i va : Nat}

/-- `s` is reached from `t` by steps of the tasks. -/
abbrev Steps (img : Image) : KState → KState → Prop := Relation.ReflTransGen fun t u => ∃ a, Step img t a u

theorem Steps.trace_suffix (h : Steps img s₁ s) : s₁.trace <:+ s.trace := by
  induction h with
  | refl => exact List.suffix_refl _
  | tail _ hstep ih =>
      obtain ⟨a, hstep⟩ := hstep
      exact ih.trans hstep.trace_suffix

/-- What `task_init` has inherited stays inherited. -/
theorem Inherited.steps (h : Inherited img s₀ lay s₁) (hinv : RunInv img lay s₁) (hs : Steps img s₁ s)
    (hclean : TablesClean s.trace) : ∃ lay', RunInv img lay' s ∧ Inherited img s₀ lay' s := by
  induction hs with
  | refl => exact ⟨lay, hinv, h⟩
  | tail _ hstep ih =>
      obtain ⟨a, hstep⟩ := hstep
      obtain ⟨lay', hinv', h'⟩ := ih (hclean.suffix hstep.trace_suffix)
      obtain ⟨lay'', hstepped, hinv''⟩ := hinv'.step hstep hclean
      exact ⟨lay'', hinv'', h'.carried hinv'.paging (hstepped.carried hinv')⟩

theorem KernelMapped.same (hk : KernelMapped img own b s₀) (h : Inherited img s₀ lay s) {p : List (Fin 512)} {f : Nat}
    (hp : p.length ≤ 2) (hd : descend pteFormat (tables s₀.mem) img.swapperFrame p = some f) :
    img.Ram f ∧ SameFrame s.mem s₀.mem f := by
  have hown := hk.tree.owned.descend hk.root (by simpa using hp) (allowed_any _ _) hd
  obtain ⟨hram, href⟩ := hk.tree.held f _ hown
  exact ⟨hram, (h.other f hram href).2.2.2⟩

/-- Every task translates the kernel's addresses as `swapper_pg_dir` did, and no table of the kernel changes. -/
theorem kernel_half_kept (h : Booted img b) (hvm : (setupVmFinal img).run b = .ok () s₀)
    (hinit : (taskInit img).run s₀ = .ok () s₁) (hbelow : AreasBelow s₁) (hsteps : Steps img s₁ s)
    (hclean : TablesClean s.trace) :
    (∀ i, s.Live i → ∀ va, VM_START ≤ va → va < 2 ^ 64 → translate s.mem (s.root i) va = translate s₀.mem img.swapperFrame va) ∧
      ∀ p f, p.length ≤ 2 → descend pteFormat (tables s₀.mem) img.swapperFrame p = some f → SameFrame s.mem s₀.mem f := by
  have hclean₁ := hclean.suffix hsteps.trace_suffix
  have hclean₀ := hclean₁.suffix ((trails_taskInit.run s₀).of_ok hinit)
  obtain ⟨own, hk⟩ := (setupVmFinal_spec h False.elim).of_ok hvm (.inr hclean₀)
  obtain ⟨lay, hs, hin, -⟩ := (taskInit_spec (hk.ready h)).of_ok hinit
  obtain ⟨lay', hinv, hin'⟩ := hin.steps (hs.runInv hbelow) hsteps hclean
  refine ⟨fun i hi va hlo hhi => ?_, fun p f hp hd => (hk.same hin' hp hd).2⟩
  rw [hinv.paging.root_eq hi]
  exact translate_kernel (fun p f _ hp hd => hk.same hin' hp hd) (hin'.root i hi) hlo hhi

theorem linked_board : board.Linked := by
  constructor
  · decide
  · exact ⟨by decide, by decide⟩
  · exact ⟨by decide, by decide⟩
  · exact ⟨by decide, by decide⟩

theorem booted_board {b : Buddy} (hres : Reserved board.order (reservedPages board.order board.ekernel) b) :
    Booted board (boardStart b) :=
  ⟨.init hres, linked_board, rfl, Nat.le_of_ble_eq_true rfl⟩

theorem kernelWays_board : (kernelWays board).card ≤ 513 := by
  have hend : board.phyEnd + PA2VA_OFFSET + PGSIZE = 0xffffffe008001000 := by decide
  have hall : ∀ q ∈ kernelWays board, q = [vpn VM_START 2] ∨ ∃ i, q = [vpn VM_START 2, i] := fun q hq => by
    obtain ⟨va, hlo, hhi, hway⟩ := linked_board.ways (q := q) hq
    have hroot : vpn va 2 = vpn VM_START 2 := by
      refine Fin.ext ?_
      rw [hend] at hhi
      simp only [vpn, VPN_eq, VM_START] at *
      omega
    rwa [hroot] at hway
  exact card_ways_le hall

/-- The ELF file of the board is read in the page of the ramdisk alone. -/
theorem elf_board {m : Mem} (h : SameFrame m boardMem 0x80209) :
    ElfInside board m ∧ elfSegments board m = boardSegments ∧ phnum board m = 2 := by
  have hpa : VA2PA board.sramdisk = 0x80209 * 4096 := by decide
  have hoff : ld 8 m (VA2PA board.sramdisk + 32) = ld 8 boardMem (VA2PA board.sramdisk + 32) := by
    rw [hpa]
    exact h.ld (by decide)
  have hnum : ld 2 m (VA2PA board.sramdisk + 56) = ld 2 boardMem (VA2PA board.sramdisk + 56) := by
    rw [hpa]
    exact h.ld (by decide)
  have hinside := elfInside_board
  have hcount := phnum_board
  rw [phnum] at hcount
  refine ⟨⟨hinside.1, ?_⟩, ?_, hnum.trans hcount⟩
  · rw [hoff, hnum]
    exact hinside.2
  · rw [← elfSegments_board, elfSegments, elfSegments, hoff, hnum, hcount, phoff_board, hpa]
    refine congrArg _ (segments_congr fun k hk => ?_)
    rw [Nat.add_assoc]
    exact h (64 + k) (by omega)

/-- The board boots, and task 1 has the areas of the ELF file. -/
theorem board_boots {n : Nat} (hn : n ≤ 30000) : ∃ b s₀ lay s₁, Booted board b ∧ (setupVmFinal board).run b = .ok () s₀ ∧
    (taskInit board).run s₀ = .ok () s₁ ∧ AreasBelow s₁ ∧ Loaded s₀.mem boardSegments lay s₁ n := by
  obtain ⟨b, -, hres⟩ := buddyInit_spec board.fits
  have hboot := booted_board hres
  have hfresh := boardStart_fresh hres
  have hspec : Spec True (setupVmFinal board) (boardStart b) _ _ := setupVmFinal_spec hboot fun _ => hfresh
  have huse := hres.inUse_le
  rw [reservedPages_board] at huse
  have hways := kernelWays_board
  have hbuddy : (boardStart b).buddy.inUse = b.inUse := rfl
  cases hrun : (setupVmFinal board).run (boardStart b) with
  | error e t =>
      have hfull := (hspec.of_error hrun (.inl trivial)).2
      rw [hbuddy, show board.order = 15 from rfl] at hfull
      omega
  | ok _ s₀ =>
      obtain ⟨own, hk⟩ := hspec.of_ok hrun (.inl trivial)
      have hready := hk.ready hboot
      obtain ⟨u, satp, hext, rfl⟩ := hk.out
      -- the ramdisk has not been touched
      have hrest : rootOnly board 0x80209 = none := if_neg (by decide)
      have hnone : own 0x80209 = none := by
        by_contra hne
        have habove := (hext.added _ hrest hne).2.1
        exact absurd habove (by decide)
      have hempty : SameFrame (emptyRoot board (boardStart b)).mem boardMem 0x80209 := fun o ho => by
        have hswap : board.swapperFrame = 0x8020a := by decide
        rw [emptyRoot_eq, KState.withMem_mem, boardStart_mem, hswap]
        exact fill_outside (.inl (by omega))
      obtain ⟨helf, hsegments, hnum⟩ := elf_board ((hext.frame _ hnone).trans hempty)
      have hspare := hboot.sparing.trans hext.sparing
      have hfenced : Sparing board (boardStart b) ({ u with satp }.log (.fence u.mem)) := ⟨hspare.unused, fun page m hm =>
        hspare.tables page m ((List.mem_cons.mp hm).resolve_left Event.noConfusion)⟩
      have hnumber : u.tasksNumber = 1 := by
        rw [hext.tasks.tasksNumber, emptyRoot_eq, KState.withMem_tasksNumber]
        rfl
      have hcount : u.buddy.inUse ≤ 715 + 513 := by
        rw [hext.inUse, emptyRoot_buddy, hbuddy]
        exact Nat.add_le_add huse ((Finset.card_le_card (Finset.filter_subset _ _)).trans hways)
      have hroom : u.buddy.inUse + (1 + u.tasksNumber * (phnum board u.mem + 4) + n) < 2 ^ 15 := by
        rw [hnum, hnumber]
        omega
      have hend : ∀ g ∈ elfSegments board u.mem, (g.start + g.len) % 2 ^ 64 ≤ USER_END := by
        rw [hsegments]
        decide
      obtain ⟨lay, s₁, hinit, hbelow, hs, hroomy, htask, hspared⟩ := hready.boot (n := n) (hfenced.fresh hfresh)
        (hfenced.clean hfresh fun page m hm => by cases hm) helf hend hroom
      have htasks : ∀ k, 1 ≤ k → (s₁.task k ≠ 0 ↔ k ≤ 1) := fun k hk => hnumber ▸ htask k hk
      have hlive : s₁.Live 1 := ⟨le_rfl, by decide, (htasks 1 le_rfl).mpr le_rfl⟩
      obtain ⟨l, hl, hareas⟩ := hs.lists 1 hlive
      refine ⟨boardStart b, _, lay, s₁, hboot, hrun, hinit, hbelow, ⟨fun ok _ => .start hready hinit hbelow, hroomy, hlive,
        htasks, funext fun x => ?_, ⟨l, ?_, ?_⟩, fun f hf h0 => (hspared.unused f hf h0).2⟩⟩
      · cases hx : s₁.userPte x with
        | none => rfl
        | some pte => exact absurd (hs.paging.userPte_role hx) (hs.unmapped _)
      · rw [hs.paging.mmap_eq hlive]
        exact ⟨hl, hbelow 1 hlive l hl.chain⟩
      · rw [← hsegments]
        exact hareas helf

/-- The board boots, and task 1 loads from `0x1000`. -/
theorem board_touched {n : Nat} (hn : n ≤ 29996) : ∃ b s₀ s₁ lay s g, Booted board b ∧ (setupVmFinal board).run b = .ok () s₀ ∧
    (taskInit board).run s₀ = .ok () s₁ ∧ AreasBelow s₁ ∧ Steps board s₁ s ∧
    OnBoard lay s n (Function.update (fun _ => none) (1, 1) (some (2 ^ 10 * g + 0x17))) ∧ s.ref g = 1 ∧ board.Ram g ∧
    s.task 2 = 0 := by
  obtain ⟨b, s₀, lay, s₁, hboot, hvm, hinit, hbelow, h⟩ := board_boots (n := n + 4) (by omega)
  obtain ⟨u, hswitch, hu, hruns, -⟩ := h.enter
  obtain ⟨hon, hempty⟩ := hu.onBoard hruns
  obtain ⟨p, lay', t, g, -, -, hfault, -, hone, hg, htask, hloaded⟩ := hon.loaded rfl
  have hsteps : Steps board s₁ t := (Relation.ReflTransGen.single ⟨_, hswitch⟩).tail ⟨_, hfault⟩
  exact ⟨b, s₀, s₁, lay', t, g, hboot, hvm, hinit, hbelow, hsteps, hloaded, hone, hg, by rw [htask, hempty]⟩

/-- Task 1 loads from `0x1000`, forks and stores there, which takes a private copy of the page. Behind that both see
the first page of the kernel's text as `swapper_pg_dir` has it. -/
theorem kernel_half_kept_board : ∃ s₀ s₁ s : KState, ∃ j pte pte' : Nat, j ≠ 1 ∧ Steps board s₁ s ∧
    s.userPte (1, 1) = some pte ∧ s.userPte (j, 1) = some pte' ∧ pteFrame pte ≠ pteFrame pte' ∧
    ∀ i, s.Live i →
      translate s.mem (s.root i) board.stext = translate s₀.mem board.swapperFrame board.stext := by
  obtain ⟨b, s₀, s₁, lay, s, g, hboot, hvm, hinit, hbelow, hsteps, h, hone, hg, hempty⟩ := board_touched (n := 12) (by decide)
  obtain ⟨lay', t, j, r, hj, hfork, hforked, hthree⟩ := h.loadedFork (n := 4) hone hg hempty
  have hne : ((1, 1) : Nat × Nat) ≠ (j, 1) := fun he => hj (Prod.mk.inj he).1.symm
  obtain ⟨p, lay'', u, g', -, hfault, -, hother, hcopied⟩ := OnBoard.storeFault (n := 0) (g := g) hforked
    (by rw [Function.update_of_ne hne, Function.update_self]) (by omega)
  have hrun : Steps board s₁ u := (hsteps.tail ⟨_, hfork⟩).tail ⟨_, hfault⟩
  have hkept := (kernel_half_kept hboot hvm hinit hbelow hrun hcopied.room.clean).1
  refine ⟨s₀, s₁, u, j, 2 ^ 10 * g' + 0x17, 2 ^ 10 * g + 0x13, hj, hrun, ?_, ?_, ?_, fun i hi =>
    hkept i hi board.stext board.start.1 (Nat.le_of_ble_eq_true rfl)⟩
  · rw [hcopied.mapped, Function.update_self]
  · rw [hcopied.mapped, Function.update_of_ne hne.symm, Function.update_self]
  · rw [pteFrame_mk (by decide), pteFrame_mk (by decide)]
    exact hother

end Runs

end ZjuOs
