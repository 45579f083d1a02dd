import ZjuOs.FirstEntry

/-!
A fork returns twice: in the parent with the number of the child, and in the child with 0, behind the same `ecall` and
with the same registers.
-/
namespace ZjuOs
open Memory Exec Rv64

/-- A fork in the handler of a trap: the kernel comes from the call of `trap_handler` in `d` to the call of
`do_cow_fork`, with the trap frame at byte `o` of frame `f` as it was, and the fork returns `n` in `e`. -/
inductive ForkCall (img : Image) (i f o : Nat) (d e : Hart) (n : Int) : Prop
  | intro {d' : Hart} : Relation.ReflTransGen (Turn img) d d' → d'.sys.Runs i →
      (∀ j, j < 36 → frameWord d'.sys.mem (f * 4096 + o) j = frameWord d.sys.mem (f * 4096 + o) j) →
      (doCowFork img (framePtr f + o)).run d'.sys = .ok n e.sys → ForkCall img i f o d e n

/-- Task `j` has the memory of task `i`, as far as the areas of task `i` go. -/
def KState.Cloned (s : KState) (i j : Nat) : Prop :=
  ∃ l, Chain (fun p => (s.vma p).vm_next) (s.mmap i) l ∧
    ∀ n, s.pages (j, n) = if n ∈ areaPages s.vma l then s.pages (i, n) else none

/-- No other task has the page or the page table of task `j`. -/
def KState.Alone (s : KState) (j : Nat) : Prop :=
  (∀ k, k < NR_TASKS → k ≠ j → s.task k ≠ s.task j) ∧ ∀ k, s.Live k → k ≠ j → s.root k ≠ s.root j

/-- Task `i` in frame `f` has a child `j` in frame `g`. -/
structure Parted (img : Image) (s t : KState) (i j f g o : Nat) : Prop where
  live : t.Live j
  empty : s.task j = 0
  free : s.ref g = 0
  table : t.task = Function.update s.task j (framePtr g)
  number : t.tasksNumber = j
  idle : t.idle = s.idle
  ram : img.Ram g
  ne : f ≠ g
  forged : Forged img s.mem t.mem f g o j
  parent : SameFrame t.mem s.mem f
  pgd : ld 8 t.mem (g * 4096 + TASK_PGD) = framePtr (t.root j)
  root : img.Ram (t.root j)
  alone : t.Alone j
  pages : t.Cloned i j

theorem Parted.task {img : Image} {s t : KState} {i j f g o : Nat} (h : Parted img s t i j f g o) : t.task j = framePtr g := by
  rw [h.table, Function.update_self]

section Child
variable {img : Image} {lay : Layout} {s t : KState} {m m' m'' : Mem} {f g i j k o regs : Nat} {n : Int}

theorem framePtr_mod (ho : o < 4096) : (framePtr f + o) % 4096 = o := by
  simp only [framePtr, PGSIZE, PA2VA_OFFSET]
  omega

theorem inFrame_of (hlo : TASK_MM + 8 ≤ o) (hhi : o + REGS_SIZE ≤ PGSIZE) : InFrame (framePtr f + o) := by
  have hmod : (framePtr f + o) % PGSIZE = o := framePtr_mod (by simp only [REGS_SIZE, PGSIZE] at hhi; omega)
  exact ⟨hmod.symm ▸ hlo, hmod.symm ▸ hhi⟩

theorem RunInv.task_ref (h : RunInv img lay s) (hk : k < NR_TASKS) (hne : s.task k ≠ 0) :
    ∃ f, s.task k = framePtr f ∧ VA2PA (s.task k) = f * 4096 ∧ s.ref f ≠ 0 := by
  rcases Nat.eq_zero_or_pos k with rfl | hpos
  · obtain ⟨f, hram, -, href, -, hf⟩ := h.idle
    exact ⟨f, hf, by rw [hf, VA2PA_page hram], href⟩
  · have ok := h.paging.task_ok ⟨hpos, hk, hne⟩
    have hheld := h.paging.held _ (by rw [ok.page]; exact Role.noConfusion)
    exact ⟨_, ok.ptr, by rw [ok.ptr, VA2PA_page hheld.1], hheld.2.2⟩

/-- A fork that finds no empty slot leaves `task[]`. -/
theorem RunInv.fork_task (h : RunInv img lay s) (hi : s.Runs i) (hregs : regs < 2 ^ 64) (hframe : InFrame regs)
    (hrun : (doCowFork img regs).run s = .ok n t) (hclean : TablesClean t.trace) : t.task = s.task ∨ n ≠ -1 := by
  obtain ⟨l, hl⟩ := h.areas i hi.1
  rw [← h.paging.mmap_eq hi.1] at hl
  obtain ⟨⟨lay', hf⟩, -⟩ := (doCowFork_spec h.paging False.elim (h.running hi) h.idle_ne hl hregs hframe
    (h.count_lt hl)).of_ok hrun (.inr hclean)
  cases hf with
  | full _ _ _ hc => exact .inl hc.tasks.task
  | child j c d u v hn _ _ _ =>
      refine .inr ?_
      rw [hn]
      exact Int.noConfusion

/-- A fork that finds an empty slot. -/
theorem RunInv.parted (h : RunInv img lay s) (hi : s.Runs i) (hf : s.task i = framePtr f) (hregs : regs < 2 ^ 64)
    (hframe : InFrame regs) (hrun : (doCowFork img regs).run s = .ok n t) (hn : n ≠ -1) (hclean : TablesClean t.trace) :
    ∃ j, n = Int.ofNat j ∧ ∃ g, Parted img s t i j f g (regs % 4096) := by
  obtain rfl : lay.page i = f := h.paging.page_eq hi.1 hf
  obtain ⟨l, hl⟩ := h.areas i hi.1
  rw [← h.paging.mmap_eq hi.1] at hl
  have hspec : Spec False (doCowFork img regs) s _ fun _ _ => True :=
    doCowFork_forged h.paging False.elim (h.running hi) h.idle_ne hl hregs hframe (h.count_lt hl)
  rcases hspec.of_ok hrun (.inr hclean) with rfl | ⟨j, c, d, u, lay', v, rfl, hs, hforged, hnumber, hsh, rfl⟩
  · exact absurd rfl hn
  obtain ⟨lay₁, hstepped, hinv⟩ := h.step (.fork hi hregs hframe hrun) hclean
  have hparent := hstepped.task_frame h Act.noConfusion (h.paging.task_ok hi.1).page
  have hij : i ≠ j := by
    rintro rfl
    exact hi.1.2.2 hs.empty
  have hroot : (lay.spawn j c d).role (lay.root i) = .table (lay.root i) [] := by
    have hold := (h.paging.task_ok hi.1).root
    rw [(hs.role h.paging (by rw [hold]; exact Role.noConfusion)).2.2, hold]
  have hk := hsh.kept (hs.paging h.paging) hroot
  have htable : v.task = Function.update s.task j (framePtr c) := hk.tasks.task.trans hs.task
  have htask : v.task j = framePtr c := by rw [htable, Function.update_self]
  have hlive : (v.log (.fence v.mem)).Live j := ⟨hs.pos, hs.lt, by rw [KState.log_task, htask]; exact framePtr_ne_zero c⟩
  have hpage : SameFrame v.mem u.mem c := by
    refine hk.frame c fun r p hp => ?_
    have hc : (lay.spawn j c d).role c = .task := Layout.role_spawn_page hs.ne
    rw [hk.role c (by rw [hc]; exact Role.noConfusion), hc] at hp
    cases hp
  have ok := hinv.paging.task_ok hlive
  have hc : lay₁.page j = c := hinv.paging.page_eq hlive htask
  have hpages := hsh.forked h.paging hi hl hs
  refine ⟨j, rfl, c, hlive, hs.empty, hs.freePage, htable, hk.tasks.tasksNumber.trans hnumber, hk.tasks.idle.trans hs.idle,
    hs.ramPage, ?_, hforged.congr hpage hframe.2, hparent, ?_, ?_, ⟨fun k hk' hkj heq => ?_, fun k hk' hkj => ?_⟩, ?_⟩
  · exact (hs.role h.paging (by rw [(h.paging.task_ok hi.1).page]; exact Role.noConfusion)).1
  · rw [hinv.paging.root_eq hlive, ← ok.pgd, hc]
  · rw [hinv.paging.root_eq hlive]
    exact hinv.paging.table_ram ok.root
  · -- the page of the child was free
    have hold : s.task k = framePtr c := by
      rw [KState.log_task, htask, htable, Function.update_of_ne hkj] at heq
      exact heq
    obtain ⟨c', hc', -, href⟩ := h.task_ref hk' (by rw [hold]; exact framePtr_ne_zero c)
    obtain rfl : c' = c := framePtr_inj (hc'.symm.trans hold)
    exact href hs.freePage
  · rw [hinv.paging.root_eq hlive, hinv.paging.root_eq hk']
    exact (hinv.paging.apart k j hk'.1 hk'.2.1 hk'.2.2 hlive.1 hlive.2.1 hlive.2.2 hkj).2
  · have hchain := hl.chain
    have hvma : v.vma = s.vma := by rw [hk.tasks.vma, hs.vma]
    have hword : mmapOf lay s i = (v.log (.fence v.mem)).mmap i := by
      rw [KState.mmap, hstepped.task_kept h hi.1.2.2, h.paging.task_pa hi.1]
      exact (hparent.ld (by decide)).symm
    rw [hword, ← hvma] at hchain
    refine ⟨l, hchain, fun n => ?_⟩
    have hparentPages : v.pages (i, n) = s.pages (i, n) := by rw [hpages, if_neg fun hno => hij hno.1]
    change v.pages (j, n) = if n ∈ areaPages v.vma l then v.pages (i, n) else none
    rw [hpages, hparentPages, hvma]
    by_cases hn : n ∈ areaPages s.vma l
    · rw [if_pos hn, if_pos ⟨rfl, hn⟩]
    · rw [if_neg hn, if_neg fun hno => hn hno.2]
      exact pages_dead hs.empty _

/-- A task that is new is the child of a fork. -/
theorem RunInv.newTask {a : Act} (h : RunInv img lay s) (hs : Step img s a t) (hclean : TablesClean t.trace)
    (hk : s.task k = 0) (hg : t.task k = framePtr g) :
    ∃ i f o, s.Live i ∧ s.task i = framePtr f ∧ Parted img s t i k f g o := by
  have hsame : t.task ≠ s.task := fun heq => framePtr_ne_zero g (hg.symm.trans ((congrFun heq k).trans hk))
  cases hs with
  | switch hj hrun =>
      obtain ⟨hstepped, -⟩ := h.switch hj hrun
      cases hstepped with
      | stay => exact absurd rfl hsame
      | switch _ _ _ _ _ htask => exact absurd htask hsame
  | fault hi hrun =>
      obtain ⟨lay', hstepped, -⟩ := h.fault hi hrun hclean
      cases hstepped with
      | fault _ _ _ _ hres => exact absurd hres.tasks.task hsame
  | @fork i regs n _ hi hregs hframe hrun =>
      have hn := (h.fork_task hi hregs hframe hrun hclean).resolve_left hsame
      have hptr := (h.paging.task_ok hi.1).ptr
      obtain ⟨j, -, g', hp⟩ := h.parted hi hptr hregs hframe hrun hn hclean
      obtain rfl : k = j := by
        by_contra hkj
        rw [hp.table, Function.update_of_ne hkj] at hg
        exact absurd (hg.symm.trans hk) (framePtr_ne_zero g)
      obtain rfl : g' = g := framePtr_inj (hp.task.symm.trans hg)
      exact ⟨i, _, _, hi.1, hptr, hp⟩
  | store => exact absurd rfl hsame
  | kernel => exact absurd rfl hsame

end Child

/-- Every task goes on in user mode after its next switch. -/
def KState.UserTasks (s : KState) : Prop :=
  ∀ k f, s.Live k → s.task k = framePtr f → (BitVec.ofNat 64 (ld 8 s.mem (f * 4096 + THREAD_SSTATUS))).getLsbD 8 = false

/-- A run from `task_init` on in which a task that is switched away from is in a trap from user mode. -/
inductive UserRun (img : Image) : Hart → Prop
  | start {s : KState} {c : Hart} : Ready img s → (taskInit img).run s = .ok () c.sys → AreasBelow c.sys → UserRun img c
  | turn {c d : Hart} : UserRun img c → Turn img c d →
      (∀ i, c.sys.Runs i → d.sys.current ≠ c.sys.current → UserMode c) → UserRun img d

section Modes
variable {img : Image} {c d : Hart} {f i : Nat}

/-- The status of a task is as at its last switch. -/
theorem Turn.status (h : Reachable img (fun _ _ => True) c.sys) (ht : Turn img c d) (hclean : TablesClean d.sys.trace)
    (hi : c.sys.Live i) (hf : c.sys.task i = framePtr f) :
    ld 8 d.sys.mem (f * 4096 + THREAD_SSTATUS) = ld 8 c.sys.mem (f * 4096 + THREAD_SSTATUS) ∨
      c.sys.Runs i ∧ d.sys.current ≠ c.sys.current ∧ ld 8 d.sys.mem (f * 4096 + THREAD_SSTATUS) = (c.csr .sstatus).toNat := by
  have hclean' := hclean.suffix ht.trace_suffix
  obtain ⟨lay, hinv⟩ := h.inv hclean'
  have ok := hinv.paging.task_ok hi
  obtain rfl : lay.page i = f := hinv.paging.page_eq hi hf
  have hplace : lay.page i * 4096 + THREAD_RA + 120 = lay.page i * 4096 + THREAD_SSTATUS := Nat.add_assoc ..
  have hbytes : (∀ o, THREAD_RA ≤ o → o < TASK_PGD → d.sys.mem (lay.page i * 4096 + o) = c.sys.mem (lay.page i * 4096 + o)) →
      ld 8 d.sys.mem (lay.page i * 4096 + THREAD_SSTATUS) = ld 8 c.sys.mem (lay.page i * 4096 + THREAD_SSTATUS) := fun hm => by
    refine ld_congr fun x hlo hhi => ?_
    obtain ⟨o, rfl⟩ := Nat.exists_eq_add_of_le ((Nat.le_add_right _ _).trans hlo)
    simp only [THREAD_SSTATUS] at hlo hhi
    exact hm o (by simp only [THREAD_RA]; omega) (by simp only [TASK_PGD]; omega)
  cases ht with
  | work hstep hswitch hkernel =>
      obtain ⟨lay', hstepped, -⟩ := hinv.step hstep hclean
      exact .inl ((hstepped.task_frame hinv hkernel ok.page).ld (by decide))
  | write hm hd =>
      refine .inl (hbytes fun o hlo hhi => ?_)
      rw [hd, KState.withMem_mem]
      by_contra hchanged
      rcases (hinv.kernelByte (h.currentTask hclean') (hhi.trans (by decide)) (hm _ hchanged)).2 with hlow | ⟨hhigh, -⟩
      · exact absurd hlow (Nat.not_lt.mpr hlo)
      · exact absurd (hhigh.trans_lt hhi) (by decide)
  | @switch g k hs =>
      have hswitched := hs.switched hinv (h.currentTask hclean')
      obtain ⟨m, hsys, hout⟩ := hswitched.sys
      by_cases hgf : g = lay.page i
      · subst hgf
        refine .inr ⟨⟨hi, hs.current.trans hf.symm⟩, ?_, ?_⟩
        · rw [hsys, hs.current]
          exact fun heq => hs.ne (framePtr_inj heq).symm
        · rw [← hplace]
          exact hswitched.saved.csr (.sstatus, 120) (by decide)
      · refine .inl (hbytes fun o hlo hhi => ?_)
        rw [hsys, KState.log_mem]
        apply hout
        simp only [THREAD_RA, TASK_PGD] at *
        omega

theorem Turn.userTasks (h : Reachable img (fun _ _ => True) c.sys) (ht : Turn img c d) (hclean : TablesClean d.sys.trace)
    (hmode : ∀ i, c.sys.Runs i → d.sys.current ≠ c.sys.current → UserMode c) (hs : c.sys.UserTasks) : d.sys.UserTasks := by
  intro k f hk hf
  by_cases hold : c.sys.task k = 0
  · -- the child of a fork has the status of its parent
    have hsame : d.sys.task ≠ c.sys.task := fun heq => hk.2.2 ((congrFun heq k).trans hold)
    have hclean' := hclean.suffix ht.trace_suffix
    obtain ⟨lay, hinv⟩ := h.inv hclean'
    cases ht with
    | work hstep =>
        obtain ⟨i, g, o, hi, hg, hp⟩ := hinv.newTask hstep hclean hold hf
        rw [hp.forged.thread THREAD_SSTATUS rfl (by decide) (by decide)]
        exact hs i g hi hg
    | write _ hd => exact absurd (by rw [hd]; rfl) hsame
    | switch hw =>
        obtain ⟨m, hsys, -⟩ := (hw.switched hinv (h.currentTask hclean')).sys
        exact absurd (by rw [hsys]; rfl) hsame
  · have hf' : c.sys.task k = framePtr f := (ht.task_kept h hclean hold).symm.trans hf
    have hlive : c.sys.Live k := ⟨hk.1, hk.2.1, hold⟩
    rcases ht.status h hclean hlive hf' with heq | ⟨hruns, hcur, heq⟩
    · rw [heq]
      exact hs k f hlive hf'
    · rw [heq, BitVec.ofNat_toNat, BitVec.setWidth_eq]
      exact hmode k hruns hcur

/-- In such a run every task goes on in user mode. -/
theorem UserRun.userTasks (h : UserRun img c) (hclean : TablesClean c.sys.trace) :
    Reachable img (fun _ _ => True) c.sys ∧ c.sys.UserTasks := by
  induction h with
  | start hready hrun hbelow =>
      refine ⟨.start hready hrun hbelow, fun k f hk hf => ?_⟩
      obtain ⟨f', hf', -, -, hborn, -⟩ := (taskInit_newborns hready).of_ok hrun k hk
      obtain rfl : f' = f := framePtr_inj (hf'.symm.trans hf)
      rw [hborn.sstatus]
      decide
  | turn _ ht hmode ih =>
      obtain ⟨hreach, hs⟩ := ih (hclean.suffix ht.trace_suffix)
      exact ⟨ht.reachable hreach hclean, ht.userTasks hreach hclean hmode hs⟩

end Modes

/-- Child `j` in frame `g`, behind the fork in `d`, goes on in `v` behind the `ecall` of the trap that its parent took in
`c`. The status is the one of the last switch of the parent in frame `f`. -/
structure ChildReturned (f g o j : Nat) (w : Word) (c d v : Hart) : Prop where
  regs : Returned g o w c v
  result : v.reg a0 = 0
  sepc : v.csr .sepc = c.csr .sepc + 4
  sstatus : v.csr .sstatus = BitVec.ofNat 64 (ld 8 d.sys.mem (f * 4096 + THREAD_SSTATUS))
  current : v.sys.current = framePtr g
  satp : satpRoot v.sys.satp = d.sys.root j
  pages : ∀ n, v.sys.pages (j, n) = d.sys.pages (j, n)

section Returns
variable {img : Image} {c d d' e u : Hart} {s t : KState} {m : Mem} {f g i j k o : Nat} {n : Int} {w : Word}

theorem ChildReturned.userMode {c d v : Hart} (h : ChildReturned f g o j w c d v) {i : Nat} (hs : d.sys.UserTasks)
    (hi : d.sys.Live i) (hf : d.sys.task i = framePtr f) : UserMode v := by
  rw [UserMode, h.sstatus]
  exact hs i f hi hf

theorem frameWord_at : ld 8 m (f * 4096 + (o + 8 * k)) = frameWord m (f * 4096 + o) k := by
  rw [← Nat.add_assoc]
  rfl

/-- The words of the child's trap frame behind those that the parent's trap has saved. -/
theorem Parted.frame (hp : Parted img s t i j f g o) (hram : img.Ram f) (ho : o ≤ 4096) (hs : Saved f o w c d)
    (hsame : ∀ k, k < 36 → frameWord s.mem (f * 4096 + o) k = frameWord d.sys.mem (f * 4096 + o) k) :
    (∀ k, k < 36 → k ≠ 2 → k ≠ 10 → k ≠ 32 → frameReg t.mem (g * 4096 + o) k = frameReg d.sys.mem (f * 4096 + o) k) ∧
      frameReg t.mem (g * 4096 + o) 2 = ptr g o ∧ frameReg t.mem (g * 4096 + o) 10 = 0 ∧
      frameReg t.mem (g * 4096 + o) 32 = c.csr .sepc + 4 := by
  refine ⟨fun k hk h2 h10 h32 => ?_, ?_, ?_, ?_⟩
  · have hother := hp.forged.others k hk h2 h10 h32
    rw [frameWord_at, frameWord_at] at hother
    rw [frameReg, frameReg, ← hsame k hk, hother]
  · have hstack : frameWord t.mem (g * 4096 + o) 2 =
        (frameWord s.mem (f * 4096 + o) 2 + framePtr g + (2 ^ 64 - framePtr f)) % 2 ^ 64 := by
      rw [← frameWord_at, ← frameWord_at]
      exact hp.forged.stack
    have hword : frameWord d.sys.mem (f * 4096 + o) 2 = framePtr f + o := by
      rw [← frameReg_toNat, hs.stack, ptr_toNat hram ho]
    have hlt := framePtr_lt hram ho
    rw [hsame 2 (by decide), hword] at hstack
    rw [frameReg, hstack, ptr]
    apply BitVec.eq_of_toNat_eq
    rw [BitVec.toNat_ofNat, BitVec.toNat_ofNat]
    omega
  · have ha0 : frameWord t.mem (g * 4096 + o) 10 = 0 := by
      rw [← frameWord_at]
      exact hp.forged.a0
    rw [frameReg, ha0]
    rfl
  · have hsepc : frameWord t.mem (g * 4096 + o) 32 = (frameWord s.mem (f * 4096 + o) 32 + 4) % 2 ^ 64 := by
      rw [← frameWord_at, ← frameWord_at]
      exact hp.forged.sepc
    rw [← hs.wordSepc, frameReg, frameReg, hsepc, hsame 32 (by decide)]
    apply BitVec.eq_of_toNat_eq
    rw [BitVec.toNat_ofNat, BitVec.toNat_add, BitVec.toNat_ofNat, Nat.mod_mod, Nat.mod_add_mod]
    rfl

/-- The child is switched to. -/
theorem Parted.returns (hp : Parted img s d'.sys i j f g o) (hreach : Reachable img (fun _ _ => True) d'.sys)
    (hram : img.Ram f) (hlo : TASK_MM + 8 ≤ o) (hhi : o + 288 ≤ 4096) (hs : Saved f o w c d)
    (hsame : ∀ k, k < 36 → frameWord s.mem (f * 4096 + o) k = frameWord d.sys.mem (f * 4096 + o) k)
    (haway : Away img g d' e) (hback : Swaps img k g e u) (hclean : TablesClean u.sys.trace) :
    u.reg ra = BitVec.ofNat 64 img.retFromFork ∧ ∃ v, (run (kernelSys img) 0 retFromForkCode).run u = .ok () v ∧
      ChildReturned f g o j w c d' v := by
  have hwoken := haway.woken hreach hp.live hp.task hback hclean
  obtain ⟨hother, hstack, ha0, hsepc⟩ := hp.frame hram (by omega) hs hsame
  have hword : ∀ k, k < 36 → frameReg u.sys.mem (g * 4096 + o) k = frameReg d'.sys.mem (g * 4096 + o) k := fun k hk => by
    rw [frameReg, frameReg, frameWord_of_bytes (by simp only [TASK_MM, TASK_PGD] at *; omega) hhi hwoken.page hk]
  have hra : u.reg ra = BitVec.ofNat 64 img.retFromFork := by
    rw [hwoken.reg (ra, 0) (by decide), Nat.add_zero, hp.forged.ra]
    exact BitVec.eq_of_toNat_eq (by rw [BitVec.toNat_ofNat, BitVec.toNat_ofNat, Nat.mod_mod])
  have hsp : u.reg sp = ptr g o := by
    have hthread : g * 4096 + THREAD_RA + 8 = g * 4096 + THREAD_SP := Nat.add_assoc ..
    rw [hwoken.reg (sp, 8) (by decide), hthread, hp.forged.sp, ptr]
  refine ⟨hra, ?_⟩
  have hspec := ends_retFromFork hp.ram hsp hhi
  cases hrun : (run (kernelSys img) 0 retFromForkCode).run u with
  | error x v => exact (hspec.of_error hrun).elim
  | ok _ v =>
      have hv := hspec.of_ok hrun
      refine ⟨v, rfl, hv.returned (fun r h2 h10 => ?_) ?_ ?_ ?_ ?_, ?_, ?_, ?_, ?_, ?_, fun n => ?_⟩
      · have hne2 : r.val ≠ 2 := fun he => h2 (Fin.ext he)
        have hne10 : r.val ≠ 10 := fun he => h10 (Fin.ext he)
        rw [hword r (by omega), hother r (by omega) hne2 hne10 (by omega), hs.word r h2]
      · rw [hword 2 (by decide), hstack]
      · rw [hword 33 (by decide), hother 33 (by decide) (by decide) (by decide) (by decide), hs.wordStval]
      · rw [hword 34 (by decide), hother 34 (by decide) (by decide) (by decide) (by decide), hs.wordUser]
      · rw [hword 35 (by decide), hother 35 (by decide) (by decide) (by decide) (by decide), hs.wordScause]
      · rw [hv.reg a0 (by decide) (by decide)]
        exact (hword 10 (by decide)).trans ha0
      · rw [hv.sepc, hword 32 (by decide), hsepc]
      · have hthread : ∀ f, f * 4096 + THREAD_RA + 120 = f * 4096 + THREAD_SSTATUS := fun f => Nat.add_assoc ..
        rw [hv.sstatus, hwoken.csr (.sstatus, 120) (by decide), hthread,
          hp.forged.thread THREAD_SSTATUS rfl (by decide) (by decide), hp.parent.ld (by decide)]
      · rw [hv.sys, hwoken.current]
      · rw [hv.sys, hwoken.satp, taskSatp, hp.pgd, satpRoot_frame hp.root]
      · rw [hv.sys, hwoken.pages n]

/-- Task 1 of the board runs, and there have been stores to the pages of tasks only. -/
theorem Roomy.onBoard {lay : Layout} {b : Nat} (h : Roomy board lay s b) (hlive : s.Live 1)
    (hareas : ∃ l, AreaList board s (mmapOf lay s 1) l ∧ List.Forall₂ (fun g p => g.At (s.vma p)) boardSegments l)
    (hreach : Reachable board (fun _ _ => True) t) (hclean : TablesClean t.trace) (hcur : t.current = t.task 1)
    (hbuddy : t.buddy = s.buddy) (htask : t.task = s.task) (hvma : t.vma = s.vma)
    (hm : ∀ f o, o < 4096 → t.mem (f * 4096 + o) ≠ s.mem (f * 4096 + o) → s.ref f ≠ 0 ∧ (o < TASK_MM ∨ TASK_MM + 8 ≤ o)) :
    ∃ lay', OnBoard lay' t b t.userPte := by
  obtain ⟨lay', hinv⟩ := hreach.inv hclean
  have href : ∀ f, t.ref f = s.ref f := fun f => by rw [KState.ref, KState.ref, hbuddy]
  have hlive' : t.Live 1 := by
    rw [KState.Live, htask]
    exact hlive
  refine ⟨lay', hreach, ⟨hinv, fun f hf h0 i hi => ?_, hclean, by rw [hbuddy]; exact h.room⟩, ⟨hlive', hcur⟩, ?_, rfl⟩
  · rw [href] at h0
    have hframe : SameFrame t.mem s.mem f := fun o ho => by
      by_contra hne
      exact (hm f o ho hne).1 h0
    rw [hframe.entry hi]
    exact h.fresh f hf h0 i hi
  · obtain ⟨l, hl, hsegments⟩ := hareas
    have hword : t.mmap 1 = s.mmap 1 := by
      rw [KState.mmap, KState.mmap, htask, h.inv.paging.task_pa hlive]
      refine ld_congr fun x hlo hhi => ?_
      obtain ⟨o, rfl⟩ := Nat.exists_eq_add_of_le ((Nat.le_add_right _ _).trans hlo)
      rw [Nat.add_assoc] at hhi
      have hge : TASK_MM ≤ o := Nat.le_of_add_le_add_left hlo
      have hlt : o < TASK_MM + 8 := Nat.lt_of_add_lt_add_left hhi
      by_contra hne
      rcases (hm _ o (hlt.trans (by decide)) hne).2 with hlow | hhigh
      · exact absurd hlow (Nat.not_lt.mpr hge)
      · exact absurd hlt (Nat.not_lt.mpr hhigh)
    refine ⟨l, ?_, by rwa [hvma]⟩
    rw [hinv.paging.mmap_eq hlive', hword, ← h.inv.paging.mmap_eq hlive]
    exact hl.mono hvma fun f _ hne => by rwa [href]

/-- The kernel writes to its stack on the board. -/
theorem OnBoard.written {lay : Layout} {b : Nat} {map : Nat × Nat → Option Nat} {m : Mem} (h : OnBoard lay s b map)
    (hm : ∀ x, m x ≠ s.mem x → s.KernelByte x) : ∃ lay', OnBoard lay' (s.withMem m) b (s.withMem m).userPte := by
  have hturn : Turn board (switchHart 0 0 s) (switchHart 0 0 (s.withMem m)) := .write hm rfl
  have hcur := h.reach.currentTask h.room.clean
  refine h.room.onBoard h.runs.1 h.areas (hturn.reachable h.reach h.room.clean) h.room.clean h.runs.2 rfl rfl rfl
    fun f o ho hne => ?_
  obtain ⟨⟨k, o', hk, hk0, ho', -, hx⟩, hat⟩ := h.room.inv.kernelByte hcur ho (hm _ hne)
  obtain ⟨g, hg, hpa, href⟩ := h.room.inv.task_ref hk hk0
  rw [hpa] at hx
  obtain rfl : f = g := by omega
  exact ⟨href, hat.imp (fun hlow => hlow.trans (by decide)) And.left⟩

/-- The first switch of the board, from the idle task to task 1. -/
theorem board_switched : ∃ lay c, OnBoard lay c.sys 8 c.sys.userPte ∧ c.sys.task 2 = 0 ∧ UserRun board c := by
  obtain ⟨b, lay, s, g, hready, hrun, hbelow, hs, hg, htask, hidle⟩ := board_idle (n := 8) (by decide)
  have hinv := hs.room.inv
  have hreach := hs.reach (fun _ _ => True) fun _ _ => trivial
  have hf := (hinv.paging.task_ok hs.live).ptr
  have hcur := hreach.currentTask hs.room.clean
  obtain ⟨u, hswap, hclean, hnow, hcurrent⟩ := hinv.swaps hcur hg hs.live hf hidle hs.room.clean
  have hturn : Turn board (switchHart g (lay.page 1) s) u := .switch hswap
  obtain ⟨m, hsys, hout⟩ := (hswap.switched hinv hcur).sys
  obtain ⟨g', hg', -, href⟩ := hinv.task_ref (show 0 < NR_TASKS by decide) (by rw [htask]; exact framePtr_ne_zero g)
  obtain rfl : g' = g := framePtr_inj (hg'.symm.trans htask)
  obtain ⟨lay', hon⟩ := hs.room.onBoard hs.live hs.areas (hturn.reachable hreach hclean) hclean
    (by rw [hcurrent, hnow, hf]) (by rw [hsys]; rfl) hnow (by rw [hsys]; rfl) fun f o ho hne => by
      have hin : ¬ (f * 4096 + o < g' * 4096 + THREAD_RA ∨ g' * 4096 + TASK_PGD ≤ f * 4096 + o) := fun hno => hne (by
        rw [hsys]
        exact hout _ hno)
      simp only [THREAD_RA, TASK_PGD] at hin
      obtain rfl : f = g' := by omega
      exact ⟨href, .inl (by simp only [TASK_MM]; omega)⟩
  refine ⟨lay', u, hon, ?_, ?_⟩
  · rw [hnow]
    by_contra hne
    exact absurd ((hs.alone 2 (by decide)).mp hne) (by decide)
  · exact .turn (.start hready hrun hbelow) hturn fun _ _ _ => BitVec.getLsbD_zero

/-- A fork returns twice. The parent gets the number under which the child knows itself, and its trap frame is as it was.
The child has a page, a page table and a copy of the parent's memory of its own; whenever it gets the processor, it goes on
behind the `ecall` with 0 in `a0` and the other registers and the stack of its parent, and in user mode, if the tasks have
been switched away from in traps from user mode. -/
theorem fork_returns (h : Reachable img (fun _ _ => True) c.sys) (hi : c.sys.Runs i) (hf : c.sys.task i = framePtr f)
    (hstack : Stack f (o + 288) c w) (hlo : TASK_MM + 8 ≤ o) (hhi : o + 288 ≤ 4096)
    (htrap : (run (kernelSys img) 0 trapsCode).run c = .ok () d) (hfork : ForkCall img i f o d d' n) (hn : n ≠ -1)
    (hg : d'.sys.task n.toNat = framePtr g) (haway : Away img g d' e) (hback : Swaps img k g e u)
    (hclean : TablesClean u.sys.trace) :
    (ld 8 d'.sys.mem (g * 4096 + TASK_PID) = n ∧
      ∀ j, j < 36 → frameWord d'.sys.mem (f * 4096 + o) j = frameWord d.sys.mem (f * 4096 + o) j) ∧
    (d'.sys.Alone n.toNat ∧ d'.sys.Cloned i n.toNat) ∧
    u.reg ra = BitVec.ofNat 64 img.retFromFork ∧ ∃ v, (run (kernelSys img) 0 retFromForkCode).run u = .ok () v ∧
      ChildReturned f g o n.toNat w c d' v ∧ (UserRun img d' → UserMode v) := by
  obtain @⟨d₁, hwork, hruns, hsame, hrun⟩ := hfork
  have hclean' := (hclean.suffix hback.trace_suffix).suffix haway.trace_suffix
  have hlt : o < 4096 := by omega
  have hclean₁ := hclean'.suffix (((grows_doCowFork (framePtr f + o)).run d₁.sys).of_ok hrun).trace
  -- the handler reaches the fork
  obtain ⟨hram, hs, hreach, htask⟩ := hstack.calls h hi hf hlo hhi htrap hwork hclean₁
  have hregs := framePtr_lt hram hlt.le
  have hframe := inFrame_of (f := f) hlo hhi
  have hstep : Step img d₁.sys (.fork (framePtr f + o)) d'.sys := .fork hruns hregs hframe hrun
  obtain ⟨lay, hinv⟩ := hreach.inv hclean₁
  obtain ⟨j, rfl, g', hp⟩ := hinv.parted hruns (htask.trans hf) hregs hframe hrun hn hclean'
  rw [framePtr_mod hlt] at hp
  obtain rfl : g' = g := framePtr_inj (hp.task.symm.trans hg)
  -- the child is switched to
  obtain ⟨hra, v, hret, hchild⟩ := hp.returns (hreach.step trivial hstep) hram hlo hhi hs hsame haway hback hclean
  refine ⟨⟨congrArg Int.ofNat hp.forged.pid, fun k hk => ?_⟩, ⟨hp.alone, hp.pages⟩, hra, v, hret, hchild, fun hrun' => ?_⟩
  · rw [← hsame k hk]
    exact frameWord_of_bytes (by simp only [TASK_MM, TASK_PGD] at *; omega) hhi (fun x _ hx => hp.parent x hx) hk
  · have hne : i ≠ j := by
      rintro rfl
      exact hruns.1.2.2 hp.empty
    have hkept : d'.sys.task i = framePtr f := by
      rw [hp.table, Function.update_of_ne hne]
      exact htask.trans hf
    exact hchild.userMode (hrun'.userTasks hclean').2 ⟨hruns.1.1, hruns.1.2.1, by rw [hkept]; exact framePtr_ne_zero f⟩ hkept

/-- A fork of task 1 on the board, and the first return of its child. -/
theorem fork_returns_board : ∃ f g c d d' e u v n, (run (kernelSys board) 0 trapsCode).run c = .ok () d ∧
    ForkCall board 1 f 3808 d d' n ∧ d'.sys.Alone n.toNat ∧ Away board g d' e ∧ Swaps board f g e u ∧
    (run (kernelSys board) 0 retFromForkCode).run u = .ok () v ∧ ChildReturned f g 3808 n.toNat 1 c d' v ∧ UserMode v := by
  obtain ⟨lay, b, h, hempty, huser⟩ := board_switched
  have hram := h.room.inv.paging.page_ram h.runs.1
  have hf := (h.room.inv.paging.task_ok h.runs.1).ptr
  obtain ⟨f, hfeq⟩ : ∃ f, f = lay.page 1 := ⟨_, rfl⟩
  rw [← hfeq] at hram hf
  -- the trap
  obtain ⟨c, d, hc, -, -, hstack, htrap, hs⟩ := user_traps hram b.sys 0
  have hcurrent : c.sys.current = framePtr f := by
    rw [hc]
    exact h.runs.2.trans hf
  have huser : UserRun board c := huser.turn (.write (m := b.sys.mem) (fun _ hx => absurd rfl hx) hc) fun _ _ hne =>
    absurd (by rw [hc]) hne
  rw [← hc] at h hf hempty
  obtain ⟨m, hm, hd⟩ := hs.written hram hcurrent (by decide) (by decide)
  have huser : UserRun board d := huser.turn (.write hm hd) fun _ _ hne => absurd (by rw [hd]; rfl) hne
  obtain ⟨lay₁, hwritten⟩ := h.written hm
  rw [← hd] at hwritten
  have htask : d.sys.task 1 = framePtr f := by
    rw [hd]
    exact hf
  -- the fork
  obtain ⟨l, p, hl, -, -, -, hpages⟩ := hwritten.area
  have hlook : looked d.sys.vma l = 3 := by rw [looked, hpages]; rfl
  obtain ⟨hregs, hframe⟩ := topFrame hram
  obtain ⟨n, lay', t, hrun, hforked, hroom⟩ := hwritten.room.fork hwritten.runs hl hregs hframe (by rw [hlook])
  have hn : n ≠ -1 := by
    cases hforked with
    | full _ hall _ _ =>
        refine absurd ?_ (hall 2 (by decide))
        rw [hd]
        exact hempty
    | child j _ _ _ _ hj _ _ _ =>
        rw [hj]
        exact Int.noConfusion
  obtain ⟨j, rfl, g, hp⟩ := hwritten.room.inv.parted hwritten.runs htask hregs hframe hrun hn hroom.clean
  have hstep : Step board d.sys (.fork (framePtr f + 3808)) t := .fork hwritten.runs hregs hframe hrun
  have hcur : t.current = d.sys.current :=
    hforked.current hwritten.room.inv.paging (hwritten.room.inv.paging.task_ok hwritten.runs.1).root
  have huser : UserRun board (switchHart f g t) :=
    huser.turn (.work hstep (fun _ => Act.noConfusion) Act.noConfusion) fun _ _ hne => absurd hcur hne
  -- the switch
  have hreach : Reachable board (fun _ _ => True) t := .step hwritten.reach trivial hstep
  obtain ⟨u, hback, hclean, -⟩ := hroom.inv.swaps (hreach.currentTask hroom.clean) (hcur.trans (hwritten.runs.2.trans htask))
    hp.live hp.task hp.ne hroom.clean
  have hcall : ForkCall board 1 f 3808 d (switchHart f g t) (Int.ofNat j) := .intro .refl hwritten.runs (fun _ _ => rfl) hrun
  obtain ⟨-, ⟨halone, -⟩, -, v, hret, hchild, hmode⟩ := fork_returns h.reach h.runs hf hstack (by decide) (by decide) htrap hcall
    hn hp.task .refl hback hclean
  exact ⟨f, g, c, d, _, _, u, v, _, htrap, hcall, halone, .refl, hback, hret, hchild, hmode huser⟩

end Returns

end ZjuOs
