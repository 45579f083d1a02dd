import ZjuOs.Switches

/-! `__dummy`: the tasks of `task_init` enter user mode at the entry point of the ELF file. -/
namespace ZjuOs
open Memory Exec Rv64

/-- Every task has the numbers and the context of a new task, with `sepc` at the entry point of the ELF file in `m`. -/
def Newborns (img : Image) (m : Mem) (s : KState) : Prop :=
  ∀ k, s.Live k → ∃ f, s.task k = framePtr f ∧ img.Ram f ∧ s.ref f ≠ 0 ∧ Newborn img s.mem f k ∧
    (ElfInside img m → ld 8 s.mem (f * 4096 + THREAD_SEPC) = elfEntry img m)

section Boot
variable {img : Image} {lay : Layout} {s t u : KState} {m m' : Mem} {c e f i k n v : Nat} {gs : List Segment} {l : List Nat}

theorem elfEntry_congr (h : ∀ f, f < img.firstFree → SameFrame m m' f) (he : ElfInside img m) :
    elfEntry img m = elfEntry img m' := he.1.ld_same (by omega) h

/-- `VMA_init` sets `sepc` and leaves the rest of the context. -/
theorem Newborn.entered (h : Newborn img s.mem c i) (hm : Mmaps img c s gs l u) :
    Newborn img (sd 8 u.mem (c * 4096 + THREAD_SEPC) v) c i := by
  refine h.congr fun k hk hsep => ?_
  rw [ld_sd_of_disjoint (by omega)]
  refine ld_congr fun x _ hx => hm.mem (.inl ?_)
  simp only [TASK_PGD, TASK_MM] at *
  omega

/-- A task in a frame that is not written. -/
theorem Newborn.same (h : Newborn img m f i) (hs : SameFrame m' m f) : Newborn img m' f i :=
  h.congr fun k hk _ => hs.ld (by simp only [TASK_PGD] at hk; omega)

theorem initTask_newborns (h : Started img m lay s) (hn : Newborns img m s) (h1 : 1 ≤ i) (hi : i < NR_TASKS)
    (hempty : s.task i = 0) : Ends (initTask img i) s (fun _ t => Newborns img m t) fun _ _ => True := by
  refine ends_initTask h.paging h1 hi hempty (fun _ _ _ => trivial) fun t c d hs _ _ hborn => ?_
  have himage := fun f hf => (h.rest_of_spawn hs f hf).symm
  refine (vmaInit_spec hs.pages hs.ramPage hs.abovePage).mono ?_ fun _ _ _ => trivial
  rintro _ _ ⟨gs, l, u, v, hm, rfl, hgs⟩
  have hlive : ∀ f, img.Ram f → t.ref f ≠ 0 → u.ref f ≠ 0 := fun f hf hne => by rwa [hm.live hf hne]
  intro k hk
  rw [KState.withMem_task, hm.task.1, hs.task]
  by_cases hki : k = i
  · rw [hki]
    refine ⟨c, Function.update_self .., hs.ramPage, hlive c hs.ramPage ?_, hborn.entered hm, fun he => ?_⟩
    · rw [hs.refPage]
      exact Nat.one_ne_zero
    · obtain ⟨-, -, rfl⟩ := hgs (elfSegments_congr himage he).1
      rw [KState.withMem_mem, ld_sd_self, ← elfEntry_congr himage he]
      exact Nat.mod_eq_of_lt (ld_lt 8 m _)
  · have hold : s.Live k := by
      refine ⟨hk.1, hk.2.1, ?_⟩
      have hne := hk.2.2
      rwa [KState.withMem_task, hm.task.1, hs.task, Function.update_of_ne hki] at hne
    obtain ⟨f, hf, hram, href, hold, hsepc⟩ := hn k hold
    have hfc : f ≠ c := by
      rintro rfl
      exact href hs.freePage
    have hfd : f ≠ d := by
      rintro rfl
      exact href hs.freeRoot
    have hsame : SameFrame (sd 8 u.mem (c * 4096 + THREAD_SEPC) v) s.mem f := fun o ho => by
      rw [sd_outside (by simp only [THREAD_SEPC]; omega), hm.mem (by simp only [TASK_MM]; omega)]
      exact hs.frame f hfc hfd o ho
    refine ⟨f, by rw [Function.update_of_ne hki, hf], hram, hlive f hram ?_, hold.same hsame, fun he => ?_⟩
    · rwa [hs.ref f hram href]
    · rw [KState.withMem_mem, hsame.ld (by decide), hsepc he]

theorem initTasks_newborns (h : Started img m lay s) (hn : Newborns img m s) (h1 : 1 ≤ i) (hi : i + n ≤ NR_TASKS)
    (htask : ∀ k, 1 ≤ k → (s.task k ≠ 0 ↔ k < i)) :
    Ends (initTasks img n i) s (fun _ t => Newborns img m t) fun _ _ => True := by
  induction n generalizing i lay s with
  | zero => exact ends_pure.mpr hn
  | succ n ih =>
      have hempty : s.task i = 0 := by
        by_contra hne
        exact Nat.lt_irrefl i ((htask i h1).mp hne)
      refine ends_bind.mpr (((initTask_spec h h1 (by omega) hempty).and
        (initTask_newborns h hn h1 (by omega) hempty)).mono ?_ fun _ _ _ => trivial)
      rintro _ t ⟨⟨lay', c, ht, -, -, -, hc, htask', -⟩, hnt⟩
      refine ih ht hnt (by omega) (by omega) fun k hk => ?_
      rw [htask']
      by_cases hki : k = i
      · rw [hki, Function.update_self]
        exact iff_of_true hc (Nat.lt_succ_self i)
      · rw [Function.update_of_ne hki, htask k hk]
        omega

theorem taskInit_newborns (h : Ready img s) : Ends (taskInit img) s (fun _ t => Newborns img s.mem t) fun _ _ => True := by
  refine ends_taskInit h (fun _ _ _ => trivial) fun t hstart _ _ _ hzero _ => ?_
  have hnumber := h.number
  refine initTasks_newborns hstart (fun k hk => absurd (hzero k hk.1) hk.2.2) (Nat.le_refl 1) (by omega) fun k hk => ?_
  exact iff_of_false (fun hne => hne (hzero k hk)) (by omega)

end Boot

/-- The task in frame `f` with the root table `r` enters user mode for the first time, at `e`. -/
structure Begun (f r e : Nat) (v : Hart) : Prop where
  sp : v.reg sp = BitVec.ofNat 64 USER_END
  saved : ∀ p ∈ threadRegs, p.1 ≠ ra → p.1 ≠ Rv64.sp → v.reg p.1 = 0
  sscratch : v.csr .sscratch = ptr f 4096
  sepc : v.csr .sepc = BitVec.ofNat 64 e
  sstatus : v.csr .sstatus = 0x40020
  current : v.sys.current = framePtr f
  satp : satpRoot v.sys.satp = r

section Entry
variable {img : Image} {s : KState} {c e u : Hart} {f i k : Nat}

theorem run_dummy :
    (run (kernelSys img) 0 dummyCode).run u = .ok () ((u.setCsr .sscratch (u.reg sp)).set sp (u.csr .sscratch)) := by
  apply Ends.run_eq
  rw [dummyCode, ends_csrrw, ends_run_nil]
  exact ⟨rfl, rfl⟩

theorem threadRegs_saved {p : Reg × Nat} (hp : p ∈ threadRegs) (hra : p.1 ≠ ra) (hsp : p.1 ≠ sp) :
    ∃ k, k < 12 ∧ p.2 = 16 + 8 * k := by
  have hall : ∀ p ∈ threadRegs, p.1 ≠ ra → p.1 ≠ sp → ∃ k, k < 12 ∧ p.2 = 16 + 8 * k := by decide
  exact hall p hp hra hsp

/-- A task of `task_init` that gets the processor for the first time, whatever ran before, enters user mode at the entry
point of the ELF file: with an empty stack below `USER_END`, its own kernel stack and root table, and no page mapped. -/
theorem first_entry (h : Ready img s) (he : ElfInside img s.mem) (hrun : (taskInit img).run s = .ok () c.sys)
    (hbelow : AreasBelow c.sys) (hi : c.sys.Live i) (hf : c.sys.task i = framePtr f) (haway : Away img f c e)
    (hback : Swaps img k f e u) (hclean : TablesClean u.sys.trace) :
    u.reg ra = BitVec.ofNat 64 img.dummy ∧ ∃ v, (run (kernelSys img) 0 dummyCode).run u = .ok () v ∧
      Begun f (c.sys.root i) (elfEntry img s.mem) v ∧ ∀ n, v.sys.pages (i, n) = none := by
  have hreach : Reachable img (fun _ _ => True) c.sys := .start h hrun hbelow
  obtain ⟨lay, hstart, -⟩ := (taskInit_spec h).of_ok hrun
  obtain ⟨f', hf', hram, -, hborn, hsepc⟩ := (taskInit_newborns h).of_ok hrun i hi
  obtain rfl : f' = f := framePtr_inj (hf'.symm.trans hf)
  have hwoken := haway.woken hreach hi hf hback hclean
  have ok := hstart.paging.task_ok hi
  have hpage : lay.page i = f' := hstart.paging.page_eq hi hf
  have hplace : ∀ n, f' * 4096 + THREAD_RA + n = f' * 4096 + (THREAD_RA + n) := fun n => Nat.add_assoc ..
  have hsp : u.reg sp = ptr f' 4096 := by
    rw [hwoken.reg (sp, 8) (by decide), hplace, show THREAD_RA + 8 = THREAD_SP from rfl, hborn.sp,
      Nat.mod_eq_of_lt (framePtr_lt hram le_rfl), ptr]
  have huser : u.csr .sscratch = BitVec.ofNat 64 USER_END := by
    rw [hwoken.csr (.sscratch, 128) (by decide), hplace, show THREAD_RA + 128 = THREAD_SSCRATCH from rfl, hborn.sscratch]
  refine ⟨?_, _, run_dummy, ?_, fun n => ?_⟩
  · rw [hwoken.reg (ra, 0) (by decide), hplace, Nat.add_zero, hborn.ra]
    exact BitVec.eq_of_toNat_eq (by rw [BitVec.toNat_ofNat, BitVec.toNat_ofNat, Nat.mod_mod])
  · constructor
    case sp => rw [Core.reg_set_self (by decide), huser]
    case saved =>
      intro p hp hpra hpsp
      obtain ⟨k, hk, hoff⟩ := threadRegs_saved hp hpra hpsp
      have hword : f' * 4096 + THREAD_RA + p.2 = f' * 4096 + THREAD_S + 8 * k := by
        simp only [THREAD_RA, THREAD_S]
        omega
      rw [Core.reg_set_of_ne hpsp, Core.reg_setCsr, hwoken.reg p hp, hword, hborn.s k hk]
      rfl
    case sscratch => rw [Core.set_csr, Core.csr_setCsr_self, hsp]
    case sepc =>
      rw [Core.set_csr, Core.csr_setCsr_of_ne (by decide), hwoken.csr (.sepc, 112) (by decide), hplace, ← hsepc he]
      rfl
    case sstatus =>
      rw [Core.set_csr, Core.csr_setCsr_of_ne (by decide), hwoken.csr (.sstatus, 120) (by decide), hplace,
        show THREAD_RA + 120 = THREAD_SSTATUS from rfl, hborn.sstatus]
      rfl
    case current => exact hwoken.current
    case satp =>
      change satpRoot u.sys.satp = _
      rw [hwoken.satp, taskSatp, ← hpage, ok.pgd, satpRoot_frame (hstart.paging.table_ram ok.root), hstart.paging.root_eq hi]
  · exact (hwoken.pages n).trans (KState.pages_none.mpr (hstart.unmapped_user (i, n)))

/-- The board when the idle task calls `switch_to` for the first time. -/
theorem board_idle {n : Nat} (hn : n ≤ 30000) : ∃ b lay s g, Ready board (boardWith boardMem b) ∧
    (taskInit board).run (boardWith boardMem b) = .ok () s ∧ AreasBelow s ∧ Loaded boardMem boardSegments lay s n ∧
    s.current = framePtr g ∧ s.task 0 = framePtr g ∧ g ≠ lay.page 1 := by
  obtain ⟨b, lay, s, hready, hrun, hs⟩ := bootMem_board.run hn
  obtain ⟨lay', hstart, -⟩ := (taskInit_spec hready).of_ok hrun
  have hbelow : AreasBelow s := by
    refine hstart.areasBelow bootMem_board.inside fun g hg => bootMem_board.below g ?_
    rwa [boardWith_mem, bootMem_board.segments] at hg
  obtain ⟨g, -, -, -, hother, htask, hg⟩ := hstart.idle
  refine ⟨b, lay, s, g, hready, hrun, hbelow, hs, hg, htask, ?_⟩
  rintro rfl
  rw [← hstart.paging.page_eq hs.live (hs.room.inv.paging.task_ok hs.live).ptr, (hstart.paging.task_ok hs.live).page] at hother
  cases hother

/-- The first switch to task 1 on the board. -/
theorem first_entry_board : ∃ g f c u v b, (taskInit board).run (boardWith boardMem b) = .ok () c.sys ∧
    Swaps board g f c u ∧ (run (kernelSys board) 0 dummyCode).run u = .ok () v ∧
    Begun f (c.sys.root 1) (elfEntry board boardMem) v := by
  obtain ⟨b, lay, s, g, hready, hrun, hbelow, hs, hg, -, hidle⟩ := board_idle (Nat.zero_le 30000)
  have hinv := hs.room.inv
  have hf := (hinv.paging.task_ok hs.live).ptr
  have hcur := (hs.reach (fun _ _ => True) fun _ _ => trivial).currentTask hs.room.clean
  obtain ⟨u, hback, hclean, -⟩ := hinv.swaps hcur hg hs.live hf hidle hs.room.clean
  obtain ⟨-, v, hret, hbegun, -⟩ := first_entry (c := switchHart g (lay.page 1) s) hready bootMem_board.inside hrun hbelow hs.live
    hf .refl hback hclean
  exact ⟨g, _, _, u, v, b, hrun, hback, hret, hbegun⟩

end Entry

end ZjuOs
