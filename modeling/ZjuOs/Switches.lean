import Mathlib.Logic.Relation
import ZjuOs.Isolation
import ZjuOs.KernelHalf
import ZjuOs.TrapFrames

/-!
`__switch_to`: a task that gives up the processor finds its registers again, whatever the other tasks do and in
whatever order they are switched.
-/
namespace ZjuOs
open Memory Exec Rv64

/-- The context of `c` lies in the task structure at the start of frame `f`. -/
structure SavedIn (m : Mem) (f : Nat) (c : Hart) : Prop where
  reg : ∀ p ∈ threadRegs, ld 8 m (f * 4096 + THREAD_RA + p.2) = (c.reg p.1).toNat
  csr : ∀ q ∈ threadCsrs, ld 8 m (f * 4096 + THREAD_RA + q.2) = (c.csr q.1).toNat

/-- `satp` for the task in frame `f`. -/
def taskSatp (m : Mem) (f : Nat) : Nat := (VA2PA (ld 8 m (f * 4096 + TASK_PGD)) >>> 12) ||| 0x8000000000000000

/-- `__switch_to` from the task in frame `f` to the one in frame `g`. -/
structure Switched (f g : Nat) (c d : Hart) : Prop where
  saved : SavedIn d.sys.mem f c
  reg : ∀ p ∈ threadRegs, d.reg p.1 = BitVec.ofNat 64 (ld 8 c.sys.mem (g * 4096 + THREAD_RA + p.2))
  csr : ∀ q ∈ threadCsrs, d.csr q.1 = BitVec.ofNat 64 (ld 8 c.sys.mem (g * 4096 + THREAD_RA + q.2))
  others : ∀ q, (∀ p ∈ threadCsrs, p.1 ≠ q) → d.csr q = c.csr q
  sys : ∃ m, d.sys = ({ c.sys with mem := m, satp := taskSatp c.sys.mem g } : KState).log (.fence m) ∧
    ∀ x, x < f * 4096 + THREAD_RA ∨ f * 4096 + TASK_PGD ≤ x → m x = c.sys.mem x

section Switch
variable {img : Image} {c d : Hart} {f g o : Nat} {is : List Instr} {Q : Unit → Hart → Prop} {E : Halt → Hart → Prop}

theorem disjoint_threadRegs : Disjoint8 threadRegs := by decide

theorem disjoint_threadCsrs : Disjoint8 threadCsrs := by decide

theorem threadRegs_spec {p : Reg × Nat} (hp : p ∈ threadRegs) : p.2 + 8 ≤ 112 ∧ p.1 ≠ 0 ∧ p.1 ≠ t0 ∧ p.1 ≠ t1 ∧ p.1 ≠ t2 ∧
    p.1 ≠ a1 := by
  have hall : ∀ p ∈ threadRegs, p.2 + 8 ≤ 112 ∧ p.1 ≠ 0 ∧ p.1 ≠ t0 ∧ p.1 ≠ t1 ∧ p.1 ≠ t2 ∧ p.1 ≠ a1 := by decide
  exact hall p hp

theorem threadCsrs_spec {q : Csr × Nat} (hq : q ∈ threadCsrs) : 112 ≤ q.2 ∧ q.2 + 8 ≤ 136 := by
  have hall : ∀ q ∈ threadCsrs, 112 ≤ q.2 ∧ q.2 + 8 ≤ 136 := by decide
  exact hall q hq

/-- The word of `satp` is computed as the kernel's model does. -/
theorem satp_word (w : Nat) (hw : w < 2 ^ 64) :
    ((((BitVec.ofNat 64 w - 0xffffffdf80000000) >>> 12) ||| 0x8000000000000000 : Word)).toNat =
      (VA2PA w >>> 12) ||| 0x8000000000000000 := by
  rw [BitVec.toNat_or, BitVec.toNat_ushiftRight, BitVec.toNat_sub, BitVec.toNat_ofNat, Nat.mod_eq_of_lt hw, VA2PA,
    Nat.add_comm w]
  rfl

theorem ends_satpFence {r : Reg} : Ends (run (kernelSys img) 0 [.satp r, .sfenceVma]) c Q E ↔
    Q () (c.withSys (({ c.sys with satp := (c.reg r).toNat } : KState).log (.fence c.sys.mem))) := by
  rw [ends_satp]
  refine ends_modify.trans ?_
  rw [ends_sfenceVma]
  refine ends_modify.trans ?_
  rw [ends_run_nil]
  rfl

/-- The code behind the loads selects the root table of the task in frame `g`. -/
theorem ends_selectRoot (hg : img.Ram g) (ha : c.reg a1 = ptr g 0)
    (hQ : ∀ d : Hart, (∀ r, r ≠ t0 → r ≠ t1 → r ≠ a1 → d.reg r = c.reg r) → d.csr = c.csr →
      d.sys = ({ c.sys with satp := taskSatp c.sys.mem g } : KState).log (.fence c.sys.mem) → Q () d) :
    Ends (run (kernelSys img) 0 selectRoot) c Q E := by
  have hptr : ptr g 0 + BitVec.ofInt 64 168 = ptr g TASK_PGD := ptr_addi
  obtain ⟨w, hw⟩ : ∃ w, w = ld 8 c.sys.mem (g * 4096 + TASK_PGD) := ⟨_, rfl⟩
  have hlt : w < 2 ^ 64 := by
    rw [hw]
    exact ld_lt 8 _ _
  have hword : ld 8 c.sys.mem (g * 4096 + (TASK_PGD + 0)) = w := by rw [hw, Nat.add_zero]
  have hsatp : taskSatp c.sys.mem g = (VA2PA w >>> 12) ||| 0x8000000000000000 := by rw [taskSatp, ← hw]
  have h0 : t0 ≠ 0 := by decide
  have h1 : t1 ≠ 0 := by decide
  have h01 : t0 ≠ t1 := by decide
  rw [selectRoot, ends_addi, ha, hptr, ends_ldFrame hg (Core.reg_set_self (by decide)) (by decide), Core.set_sys, hword,
    ends_li, ends_sub, Core.reg_set_of_ne h01, Core.reg_set_self h0, Core.reg_set_self h1, ends_srli, Core.reg_set_self h0,
    ends_li, ends_or, Core.reg_set_of_ne h01, Core.reg_set_self h0, Core.reg_set_self h1, ends_satpFence,
    Core.reg_set_self h0, satp_word w hlt, ← hsatp]
  apply hQ
  · intro r h0 h1 ha1
    rw [Core.reg_withSys, Core.reg_set_of_ne h0, Core.reg_set_of_ne h1, Core.reg_set_of_ne h0,
      Core.reg_set_of_ne h0, Core.reg_set_of_ne h1, Core.reg_set_of_ne h0, Core.reg_set_of_ne ha1]
  · rfl
  · rfl

theorem threadRegs_fit {p : Reg × Nat} (hp : p ∈ threadRegs) : THREAD_RA + p.2 + 8 ≤ 4096 := by
  have hle := (threadRegs_spec hp).1
  have hra : THREAD_RA = 32 := rfl
  omega

theorem threadCsrs_fit {q : Csr × Nat} (hq : q ∈ threadCsrs) : THREAD_RA + q.2 + 8 ≤ 4096 := by
  have hle := (threadCsrs_spec hq).2
  have hra : THREAD_RA = 32 := rfl
  omega

theorem outside_thread {a x k : Nat} (hx : x < a + THREAD_RA ∨ a + TASK_PGD ≤ x) (hk : k + 8 ≤ 136) :
    x < a + THREAD_RA + k ∨ a + THREAD_RA + k + 8 ≤ x := by
  simp only [THREAD_RA, TASK_PGD] at hx ⊢
  omega

theorem ptr_thread : ptr f 0 + BitVec.ofInt 64 32 = ptr f THREAD_RA := ptr_addi

/-- The first half of `__switch_to`. -/
theorem ends_saveThread (hf : img.Ram f) (ha : c.reg a0 = ptr f 0)
    (hQ : ∀ (d : Hart) (m : Mem), (∀ r, r ≠ t0 → r ≠ t1 → d.reg r = c.reg r) → d.csr = c.csr → d.sys = c.sys.withMem m →
      SavedIn m f c → (∀ x, x < f * 4096 + THREAD_RA ∨ f * 4096 + TASK_PGD ≤ x → m x = c.sys.mem x) →
      Ends (run (kernelSys img) 0 is) d Q E) :
    Ends (run (kernelSys img) 0 (.addi t0 a0 32 :: (stores t0 threadRegs ++ (csrStores t1 t0 threadCsrs ++ is)))) c Q E := by
  have hbase : (c.set t0 (ptr f THREAD_RA)).reg t0 = ptr f THREAD_RA := Core.reg_set_self (by decide)
  rw [ends_addi, ha, ptr_thread, ends_stores hf hbase fun p hp => threadRegs_fit hp, Core.set_sys]
  refine ends_csrStores hf hbase (by decide) (by decide) (fun q hq => threadCsrs_fit hq) fun d hreg hcsr hsys => ?_
  obtain ⟨m, hm⟩ : ∃ m, m = storeAll c.csr (f * 4096 + THREAD_RA)
    (storeAll (c.set t0 (ptr f THREAD_RA)).reg (f * 4096 + THREAD_RA) c.sys.mem threadRegs) threadCsrs := ⟨_, rfl⟩
  have hmem : d.sys = c.sys.withMem m := by
    rw [hsys, hm]
    rfl
  apply hQ d m _ hcsr hmem
  · constructor
    · intro p hp
      obtain ⟨hle, -, ht0, -⟩ := threadRegs_spec hp
      rw [hm, ld_storeAll_outside, ld_storeAll disjoint_threadRegs hp, Core.reg_set_of_ne ht0]
      intro q hq
      have := (threadCsrs_spec hq).1
      omega
    · intro q hq
      rw [hm, ld_storeAll disjoint_threadCsrs hq]
  · intro x hx
    rw [hm, storeAll_outside, storeAll_outside]
    · intro p hp
      exact outside_thread hx ((threadRegs_spec hp).1.trans (by decide))
    · intro q hq
      exact outside_thread hx (threadCsrs_spec hq).2
  · intro r h0 h1
    rw [hreg r h1, Core.reg_withSys, Core.reg_set_of_ne h0]

/-- The second half, before the address space is selected. -/
theorem ends_loadThread (hg : img.Ram g) (ha : c.reg a1 = ptr g 0)
    (hQ : ∀ d : Hart, d.reg a1 = c.reg a1 → d.sys = c.sys →
      (∀ p ∈ threadRegs, d.reg p.1 = BitVec.ofNat 64 (ld 8 c.sys.mem (g * 4096 + THREAD_RA + p.2))) →
      (∀ q ∈ threadCsrs, d.csr q.1 = BitVec.ofNat 64 (ld 8 c.sys.mem (g * 4096 + THREAD_RA + q.2))) →
      (∀ q, (∀ p ∈ threadCsrs, p.1 ≠ q) → d.csr q = c.csr q) → Ends (run (kernelSys img) 0 is) d Q E) :
    Ends (run (kernelSys img) 0 (.addi t1 a1 32 :: (loads t1 threadRegs ++ (csrLoads t2 t1 threadCsrs ++ is)))) c Q E := by
  have hbase : (c.set t1 (ptr g THREAD_RA)).reg t1 = ptr g THREAD_RA := Core.reg_set_self (by decide)
  rw [ends_addi, ha, ptr_thread, ends_loads hg hbase]
  · obtain ⟨c₁, hc₁⟩ : ∃ c₁, c₁ = Hart.loadAll (c.set t1 (ptr g THREAD_RA)) (c.set t1 (ptr g THREAD_RA)).sys.mem
      (g * 4096 + THREAD_RA) threadRegs := ⟨_, rfl⟩
    have hsys : c₁.sys = c.sys := by rw [hc₁, loadAll_sys, Core.set_sys]
    have hcsr : c₁.csr = c.csr := by rw [hc₁, loadAll_csr, Core.set_csr]
    have hkept : ∀ r, r ≠ t1 → (∀ p ∈ threadRegs, p.1 ≠ r) → c₁.reg r = c.reg r := by
      intro r hr hp
      rw [hc₁, loadAll_of_notMem hp, Core.reg_set_of_ne hr]
    have ht1 : c₁.reg t1 = ptr g THREAD_RA := by
      rw [hc₁, loadAll_of_notMem (by decide), hbase]
    rw [← hc₁, ends_csrLoads hg ht1 (by decide) (by decide) fun q hq => threadCsrs_fit hq, hsys]
    apply hQ
    · rw [loadCsrs_reg (by decide), hkept a1 (by decide) (by decide)]
    · rw [loadCsrs_sys, hsys]
    · intro p hp
      obtain ⟨-, h0, -, -, ht2, -⟩ := threadRegs_spec hp
      rw [loadCsrs_reg ht2, hc₁, loadAll_mem (by decide) hp h0, Core.set_sys]
    · intro q hq
      exact loadCsrs_mem (by decide) hq
    · intro q hq
      rw [loadCsrs_of_notMem hq, hcsr]
  · intro p hp
    exact ⟨threadRegs_fit hp, (threadRegs_spec hp).2.2.2.1⟩

theorem thread_apart {x k : Nat} (hne : f ≠ g) (hk : k + 8 ≤ 4096) (hlo : g * 4096 + k ≤ x) (hhi : x < g * 4096 + k + 8) :
    x < f * 4096 + THREAD_RA ∨ f * 4096 + TASK_PGD ≤ x := by
  have hra : THREAD_RA = 32 := rfl
  have hpgd : TASK_PGD = 168 := rfl
  omega

/-- `__switch_to` saves the context of the task in frame `f` and loads the one of the task in frame `g`. -/
theorem ends_switchTo (hf : img.Ram f) (hg : img.Ram g) (hne : f ≠ g) (ha0 : c.reg a0 = ptr f 0) (ha1 : c.reg a1 = ptr g 0) :
    Ends (run (kernelSys img) 0 switchToCode) c (fun _ d => Switched f g c d) fun _ _ => False := by
  rw [switchToCode]
  refine ends_saveThread hf ha0 fun c₁ m hreg₁ hcsr₁ hsys₁ hsaved hout => ?_
  refine ends_loadThread hg (by rw [hreg₁ a1 (by decide) (by decide), ha1]) fun c₂ ha2 hsys₂ hreg₂ hcsr₂ hother => ?_
  refine ends_selectRoot hg (by rw [ha2, hreg₁ a1 (by decide) (by decide), ha1]) fun d hreg hcsr hsys => ?_
  have hmem : c₁.sys.mem = m := by rw [hsys₁]; rfl
  have hword : ∀ k, k + 8 ≤ 4096 → ld 8 m (g * 4096 + k) = ld 8 c.sys.mem (g * 4096 + k) := fun k hk =>
    ld_congr fun x hlo hhi => hout x (thread_apart hne hk hlo hhi)
  constructor
  case saved =>
    rw [hsys, KState.log_mem, hsys₂]
    exact hmem.symm ▸ hsaved
  case reg =>
    intro p hp
    obtain ⟨hle, -, h0, h1, -, ha⟩ := threadRegs_spec hp
    rw [hreg p.1 h0 h1 ha, hreg₂ p hp, hmem, Nat.add_assoc, hword _ (threadRegs_fit hp)]
  case csr =>
    intro q hq
    rw [hcsr, hcsr₂ q hq, hmem, Nat.add_assoc, hword _ (threadCsrs_fit hq)]
  case others =>
    intro q hq
    rw [hcsr, hother q hq, hcsr₁]
  case sys =>
    refine ⟨m, ?_, hout⟩
    have hroot : taskSatp m g = taskSatp c.sys.mem g := by rw [taskSatp, taskSatp, hword TASK_PGD (by decide)]
    rw [hsys, hsys₂, hsys₁, ← hroot]
    rfl

end Switch

section Steps
variable {img : Image} {lay lay' : Layout} {s t : KState} {a : Act} {f k : Nat}

theorem Resolved.tasks {r va scause : Nat} {area : VmArea} (h : Resolved img lay s r va area scause lay' t) : SameTasks s t := by
  cases h with
  | demand _ _ _ _ _ _ hm _ _ => exact hm.tasks
  | own _ _ _ _ _ _ _ hm _ => exact hm.tasks
  | copy _ _ _ _ _ _ _ _ _ _ _ _ _ hm _ _ _ _ => exact hm.tasks

theorem CowForked.current {i : Nat} {l : List Nat} {n : Int} (h : Paging img lay s) (hr : lay.role (lay.root i) = .table (lay.root i) [])
    (hf : CowForked img lay s i l n lay' t) : t.current = s.current := by
  cases hf with
  | full _ _ _ hc => exact hc.tasks.current
  | child j c d u v _ hs hsh ht =>
      have hroot : (lay.spawn j c d).role (lay.root i) = .table (lay.root i) [] := by
        rw [(hs.role h (by rw [hr]; exact Role.noConfusion)).2.2, hr]
      rw [ht, KState.log_current, (hsh.kept (hs.paging h) hroot).tasks.current, hs.current]

/-- No step takes a task out of `task[]`. -/
theorem Stepped.task_kept (h : RunInv img lay s) (hs : Stepped img lay s a lay' t) (hk : s.task k ≠ 0) : t.task k = s.task k := by
  cases hs with
  | stay => rfl
  | switch _ _ _ _ _ htask => rw [htask]
  | fault _ _ _ _ hres => rw [hres.tasks.task]
  | fork hr _ hf =>
      cases hf with
      | full _ _ _ hc => rw [hc.tasks.task]
      | child j c d u v _ hs hsh ht =>
          have hroot := (h.paging.task_ok hr.live).root
          have hkept := hsh.kept (hs.paging h.paging) (by rw [(hs.role h.paging (by rw [hroot]; exact Role.noConfusion)).2.2, hroot])
          rw [ht, KState.log_task, hkept.tasks.task, hs.task, Function.update_of_ne]
          rintro rfl
          exact hk hs.empty
  | store => rfl
  | kernel => rfl

/-- Only a switch changes the current task. -/
theorem Stepped.current (h : RunInv img lay s) (hs : Stepped img lay s a lay' t) (hno : ∀ j, a ≠ .switch j) :
    t.current = s.current := by
  cases hs with
  | stay => exact absurd rfl (hno _)
  | switch => exact absurd rfl (hno _)
  | fault _ _ _ _ hres => exact hres.tasks.current
  | fork hr _ hf => exact hf.current h.paging (h.paging.task_ok hr.live).root
  | store => rfl
  | kernel => rfl

/-- A fault, a fork, a switch or a store of a user program writes to page tables and user pages only, as far as frames in use
go. -/
theorem Stepped.frame (h : RunInv img lay s) (hs : Stepped img lay s a lay' t) (hno : a ≠ .kernel) (hram : img.Ram f)
    (href : s.ref f ≠ 0) (htable : ∀ r p, lay.role f ≠ .table r p) (hdata : lay.role f ≠ .data) : SameFrame t.mem s.mem f := by
  cases hs with
  | stay => exact .refl _ _
  | switch _ _ _ hmem =>
      rw [hmem]
      exact .refl _ _
  | fault _ _ _ _ hres =>
      cases hres with
      | demand _ _ _ _ _ _ hm _ _ => exact hm.frame f htable href
      | own _ _ _ _ _ _ _ hm _ => exact hm.frame f htable href
      | copy _ _ _ _ _ _ _ _ _ _ _ _ _ hm _ _ _ _ => exact hm.frame f htable href
  | fork hr _ hfork =>
      cases hfork with
      | full _ _ _ hc => exact hc.frame f htable href
      | child j c d u v _ hs hsh ht =>
          have hroot := (h.paging.task_ok hr.live).root
          have hc : f ≠ c := by
            rintro rfl
            exact href hs.freePage
          have hd : f ≠ d := by
            rintro rfl
            exact href hs.freeRoot
          have hrole : (lay.spawn j c d).role f = lay.role f := Layout.role_spawn_of_ne hc hd
          have hk := hsh.kept (hs.paging h.paging) (by rw [(hs.role h.paging (by rw [hroot]; exact Role.noConfusion)).2.2, hroot])
          rw [ht, KState.log_mem]
          refine (hk.frame f fun r p hp => ?_).trans (hs.frame f hc hd)
          by_cases hother : lay.role f = .other
          · have hfree := (hk.added f (by rw [hrole, hother]) (by rw [hp]; exact Role.noConfusion)).1
            rw [hs.ref f hram href] at hfree
            exact href hfree
          · rw [hk.role f (by rw [hrole]; exact hother), hrole] at hp
            exact htable r p hp
  | @store i va pte c hr hva hpte _ _ =>
      obtain ⟨-, -, -, -, -, hrole, -⟩ := h.paging.of_leafPte (h.paging.task_ok hr.live).root (.of_lt hva) hpte
      have hfne : f ≠ pteFrame pte := by
        rintro rfl
        exact hdata hrole
      have hout : ∀ g o, f ≠ g → o < 4096 → Function.update s.mem (g * 4096 + va % 4096) c (f * 4096 + o) = s.mem (f * 4096 + o) :=
        fun g o hg ho => Function.update_of_ne (by omega) ..
      intro o ho
      rw [KState.withMem_mem]
      exact hout _ o hfne ho
  | kernel => exact absurd rfl hno

theorem Stepped.task_frame (h : RunInv img lay s) (hs : Stepped img lay s a lay' t) (hno : a ≠ .kernel)
    (hf : lay.role f = .task) : SameFrame t.mem s.mem f := by
  have hheld := h.paging.held f (by rw [hf]; exact Role.noConfusion)
  exact hs.frame h hno hheld.1 hheld.2.2 (fun r p => by rw [hf]; exact Role.noConfusion) (by rw [hf]; exact Role.noConfusion)

end Steps

/-- The current task is entered in `task[]`. -/
def KState.CurrentTask (s : KState) : Prop := ∃ k, k < NR_TASKS ∧ s.task k ≠ 0 ∧ s.current = s.task k

/-- A byte that the kernel writes while a task is current: its own page above the task structure, and the numbers at
the start of all task structures. -/
def KState.KernelByte (s : KState) (x : Nat) : Prop :=
  (∃ o, TASK_MM + 8 ≤ o ∧ o < 4096 ∧ x = VA2PA s.current + o) ∨
    ∃ k o, k < NR_TASKS ∧ s.task k ≠ 0 ∧ o < THREAD_RA ∧ x = VA2PA (s.task k) + o

/-- `switch_to` from the task in frame `f` to the one in frame `g`. -/
structure Swaps (img : Image) (f g : Nat) (c d : Hart) : Prop where
  current : c.sys.current = framePtr f
  next : ∃ j, c.sys.Live j ∧ c.sys.task j = framePtr g
  ne : f ≠ g
  prev : c.reg a0 = ptr f 0
  arg : c.reg a1 = ptr g 0
  run : (Rv64.run (kernelSys img) 0 switchToCode).run (c.withSys { c.sys with current := framePtr g }) = .ok () d

/-- What happens on the processor: the program of the current task and the kernel on its behalf, with any contents of
the registers, and the switches. -/
inductive Turn (img : Image) (c d : Hart) : Prop
  | work {a : Act} : Step img c.sys a d.sys → (∀ j, a ≠ .switch j) → a ≠ .kernel → Turn img c d
  | write {m : Mem} : (∀ x, m x ≠ c.sys.mem x → c.sys.KernelByte x) → d.sys = c.sys.withMem m → Turn img c d
  | switch {f g : Nat} : Swaps img f g c d → Turn img c d

theorem Grows.keeps {α : Type} {x : K α} {k : Nat} (h : Grows k x) {l : List Event} : Keeps (fun s => l <:+ s.trace) x :=
  ⟨fun s hs => (h.run s).mono (fun _ _ hw => hs.trans hw.trace) fun _ _ _ => trivial⟩

section Turns
variable {img : Image} {lay : Layout} {s : KState} {c d e u : Hart} {m : Mem} {f g i k o x : Nat}

theorem RunInv.frame_of (h : RunInv img lay s) (hk : k < NR_TASKS) (hne : s.task k ≠ 0) :
    ∃ f, img.Ram f ∧ s.task k = framePtr f := by
  rcases Nat.eq_zero_or_pos k with rfl | hpos
  · obtain ⟨f, hram, -, -, -, hf⟩ := h.idle
    exact ⟨f, hram, hf⟩
  · have hlive : s.Live k := ⟨hpos, hk, hne⟩
    exact ⟨_, h.paging.page_ram hlive, (h.paging.task_ok hlive).ptr⟩

theorem RunInv.ram_of (h : RunInv img lay s) (hk : k < NR_TASKS) (hf : s.task k = framePtr f) : img.Ram f := by
  obtain ⟨g, hram, hg⟩ := h.frame_of hk (by rw [hf]; exact framePtr_ne_zero f)
  obtain rfl : g = f := framePtr_inj (hg.symm.trans hf)
  exact hram

/-- The task structure of the current task is in use in every run. -/
theorem Reachable.currentTask {ok : KState → Act → Prop} (h : Reachable img ok s) (hclean : TablesClean s.trace) :
    s.CurrentTask := by
  obtain ⟨-, -, hcur⟩ := h.rule (P := fun _ s => s.CurrentTask) hclean
    (fun m lay t hs _ => by
      obtain ⟨f, -, -, -, -, htask, hcur⟩ := hs.idle
      refine ⟨0, by decide, ?_, hcur.trans htask.symm⟩
      rw [htask]
      exact framePtr_ne_zero f)
    fun lay t a lay' u hinv hp _ hs _ => by
      obtain ⟨k, hk, hne, hcur⟩ := hp
      have hkept : u.task k = t.task k := hs.task_kept hinv hne
      cases a with
      | switch j =>
          cases hs with
          | stay => exact ⟨k, hk, hne, hcur⟩
          | switch hj hnew _ _ _ htask _ _ => exact ⟨j, hj.2.1, by rw [htask]; exact hj.2.2, by rw [hnew, htask]⟩
      | fault regs => exact ⟨k, hk, by rwa [hkept], by rw [hkept, hs.current hinv fun _ => Act.noConfusion, hcur]⟩
      | fork regs => exact ⟨k, hk, by rwa [hkept], by rw [hkept, hs.current hinv fun _ => Act.noConfusion, hcur]⟩
      | store va c => exact ⟨k, hk, by rwa [hkept], by rw [hkept, hs.current hinv fun _ => Act.noConfusion, hcur]⟩
      | kernel => exact ⟨k, hk, by rwa [hkept], by rw [hkept, hs.current hinv fun _ => Act.noConfusion, hcur]⟩
  exact hcur

theorem RunInv.task_pa (h : RunInv img lay s) (hk : k < NR_TASKS) (hne : s.task k ≠ 0) :
    ∃ f, img.Ram f ∧ s.task k = framePtr f ∧ VA2PA (s.task k) = f * 4096 := by
  obtain ⟨f, hram, hf⟩ := h.frame_of hk hne
  exact ⟨f, hram, hf, by rw [hf, VA2PA_page hram]⟩

/-- What the kernel writes in the page of a task that waits. -/
theorem RunInv.kernelByte (h : RunInv img lay s) (hcur : s.CurrentTask) (ho : o < 4096) (hb : s.KernelByte (f * 4096 + o)) :
    s.TaskByte (f * 4096 + o) ∧ (o < THREAD_RA ∨ TASK_MM + 8 ≤ o ∧ s.current = framePtr f) := by
  have hra : THREAD_RA = 32 := rfl
  have hpgd : TASK_PGD = 168 := rfl
  have hmm : TASK_MM = 176 := rfl
  rcases hb with ⟨o', hlo, hhi, hx⟩ | ⟨k, o', hk, hne, hlt, hx⟩
  · obtain ⟨k, hk, hne, hkcur⟩ := hcur
    obtain ⟨g, hram, hg, hpa⟩ := h.task_pa hk hne
    rw [hkcur, hpa] at hx
    obtain ⟨rfl, rfl⟩ : f = g ∧ o = o' := by omega
    exact ⟨⟨k, o, hk, hne, ho, by omega, by rw [hpa]⟩, .inr ⟨hlo, hkcur.trans hg⟩⟩
  · obtain ⟨g, hram, hg, hpa⟩ := h.task_pa hk hne
    rw [hpa] at hx
    obtain ⟨rfl, rfl⟩ : f = g ∧ o = o' := by omega
    exact ⟨⟨k, o, hk, hne, ho, by omega, by rw [hpa]⟩, .inl hlt⟩

/-- The kernel writes to the pages of the tasks, but not to their page-table pointers and lists. -/
theorem RunInv.kernelStep (h : RunInv img lay s) (hm : ∀ x, m x ≠ s.mem x → s.TaskByte x)
    (hmm : ∀ f o, lay.role f = .task → TASK_MM ≤ o → o < TASK_MM + 8 → m (f * 4096 + o) = s.mem (f * 4096 + o)) :
    Step img s .kernel (s.withMem m) := by
  refine .kernel hm fun i hi => ?_
  have hlive : s.Live i := hi
  obtain ⟨l, hl⟩ := h.areas i hlive
  have hword : KState.mmap { s with mem := m } i = s.mmap i := by
    rw [KState.mmap, KState.mmap]
    dsimp only
    rw [h.paging.task_pa hlive]
    refine ld_congr fun x hlo hhi => ?_
    obtain ⟨o, rfl⟩ := Nat.exists_eq_add_of_le ((Nat.le_add_right _ _).trans hlo)
    rw [Nat.add_assoc] at hhi
    exact hmm _ o (h.paging.task_ok hlive).page (Nat.le_of_add_le_add_left hlo) (Nat.lt_of_add_lt_add_left hhi)
  refine ⟨l, ?_⟩
  rw [hword]
  exact hl.mono rfl fun _ _ hne => hne

/-- `__switch_to` in a run. -/
theorem Swaps.switched (h : RunInv img lay c.sys) (hcur : c.sys.CurrentTask) (hs : Swaps img f g c d) :
    Switched f g (c.withSys { c.sys with current := framePtr g }) d := by
  obtain ⟨k, hk, hne, hkcur⟩ := hcur
  obtain ⟨f', hram, hf'⟩ := h.frame_of hk hne
  obtain ⟨j, hj, hg⟩ := hs.next
  have hff : f' = f := framePtr_inj (hf'.symm.trans (hkcur.symm.trans hs.current))
  have hgg : lay.page j = g := h.paging.page_eq hj hg
  have hspec : Ends (Rv64.run (kernelSys img) 0 switchToCode) (c.withSys { c.sys with current := framePtr g })
      (fun _ d => Switched f g (c.withSys { c.sys with current := framePtr g }) d) fun _ _ => False :=
    ends_switchTo (hff ▸ hram) (hgg ▸ h.paging.page_ram hj) hs.ne hs.prev hs.arg
  exact hspec.of_ok hs.run

/-- The switch of the processor is the switch of the kernel, behind the stores of the context. -/
theorem Swaps.steps (h : RunInv img lay c.sys) (hcur : c.sys.CurrentTask) (hs : Swaps img f g c d) :
    ∃ m j, c.sys.Live j ∧ c.sys.task j = framePtr g ∧ Step img c.sys .kernel (c.sys.withMem m) ∧
      Step img (c.sys.withMem m) (.switch j) d.sys := by
  obtain ⟨m, hsys, hout⟩ := (hs.switched h hcur).sys
  obtain ⟨j, hj, hg⟩ := hs.next
  obtain ⟨k, hk, hne, hkcur⟩ := hcur
  obtain ⟨f', hram, hf', hpa⟩ := h.task_pa hk hne
  obtain rfl : f' = f := framePtr_inj (hf'.symm.trans (hkcur.symm.trans hs.current))
  have hgram : img.Ram g := by
    have hgg : lay.page j = g := h.paging.page_eq hj hg
    exact hgg ▸ h.paging.page_ram hj
  have hmem : ∀ x, x < f' * 4096 + THREAD_RA ∨ f' * 4096 + TASK_PGD ≤ x → m x = c.sys.mem x := hout
  have hkernel : Step img c.sys .kernel (c.sys.withMem m) := by
    refine h.kernelStep (fun x hx => ?_) fun g' o _ hlo hhi => hmem _ ?_
    · have hin : ¬ (x < f' * 4096 + THREAD_RA ∨ f' * 4096 + TASK_PGD ≤ x) := fun hno => hx (hmem x hno)
      obtain ⟨o, rfl⟩ := Nat.exists_eq_add_of_le (show f' * 4096 ≤ x by omega)
      simp only [THREAD_RA, TASK_PGD] at hin
      exact ⟨k, o, hk, hne, by omega, .inl (by simp only [TASK_PGD]; omega), by rw [hpa]⟩
    · simp only [THREAD_RA, TASK_PGD, TASK_MM] at *
      omega
  refine ⟨m, j, hj, hg, hkernel, .switch (t := d.sys) hj ?_⟩
  have hspec : Ends (switchTo img ((c.sys.withMem m).task j)) (c.sys.withMem m) (fun _ t => t = d.sys) fun _ _ => False := by
    have hcurrent : framePtr g ≠ framePtr f' := fun he => hs.ne (framePtr_inj he).symm
    have htask : (c.sys.withMem m).task j = framePtr g := hg
    rw [htask, switchTo]
    refine ends_bind.mpr (ends_get.mpr ?_)
    rw [if_neg (by rw [KState.withMem_current, hs.current]; exact hcurrent)]
    refine ends_bind.mpr (ends_modify.mpr (ends_bind.mpr ?_))
    refine (ends_loadWord hgram (by decide)).mpr ?_
    refine ends_bind.mpr (ends_modify.mpr (ends_modify.mpr ?_))
    have hroot : taskSatp c.sys.mem g = taskSatp m g := by
      rw [taskSatp, taskSatp]
      have hword : ld 8 m (g * 4096 + TASK_PGD) = ld 8 c.sys.mem (g * 4096 + TASK_PGD) :=
        ld_congr fun x hlo hhi => hmem x (thread_apart hs.ne (by decide) hlo hhi)
      rw [hword]
    have hvalue : (c.withSys { c.sys with current := framePtr g }).sys.mem = c.sys.mem := rfl
    rw [hsys, hvalue, hroot]
    rfl
  cases hrun : (switchTo img ((c.sys.withMem m).task j)).run (c.sys.withMem m) with
  | ok _ t => rw [hspec.of_ok hrun]
  | error x t => exact (hspec.of_error hrun).elim

/-- No event is lost in the code of `entry.S`. -/
theorem kernelSys_keeps (l : List Event) : (kernelSys img).Keeps fun s => l <:+ s.trace where
  load a := keeps_bind (grows_loadWord a.toNat).keeps fun _ => keeps_pure _
  store a v := (grows_storeWord a.toNat v.toNat).keeps
  setSatp _ := keeps_modify fun _ h => h
  fence := grows_sfenceVma.keeps

theorem Swaps.trace_suffix (hs : Swaps img f g c d) : c.sys.trace <:+ d.sys.trace :=
  ((keeps_run (kernelSys_keeps c.sys.trace) switchToCode 0).run
    (c.withSys { c.sys with current := framePtr g }) (List.suffix_refl _)).of_ok hs.run

theorem Turn.trace_suffix (ht : Turn img c d) : c.sys.trace <:+ d.sys.trace := by
  cases ht with
  | work hstep => exact hstep.trace_suffix
  | write _ hd => rw [hd]; exact List.suffix_refl _
  | switch hs => exact hs.trace_suffix

/-- The stores of the kernel for the current task are a step of a run. -/
theorem Reachable.kernelStep (h : Reachable img (fun _ _ => True) s) (hclean : TablesClean s.trace)
    (hm : ∀ x, m x ≠ s.mem x → s.KernelByte x) : Step img s .kernel (s.withMem m) := by
  have hcur := h.currentTask hclean
  obtain ⟨lay, hinv⟩ := h.inv hclean
  refine hinv.kernelStep (fun x hx => ?_) fun f o hf hlo hhi => ?_
  · have hsplit := Nat.div_add_mod' x 4096
    have hb := hm x hx
    rw [← hsplit] at hb ⊢
    exact (hinv.kernelByte hcur (Nat.mod_lt _ (by decide)) hb).1
  · by_contra hne
    have hlt : o < 4096 := hhi.trans (by decide)
    rcases (hinv.kernelByte hcur hlt (hm _ hne)).2 with hlow | ⟨hhigh, -⟩
    · exact absurd (hlo.trans_lt hlow) (by decide)
    · exact absurd hhi (Nat.not_lt.mpr hhigh)

/-- A run of the processor is a run of the kernel. -/
theorem Turn.reachable (h : Reachable img (fun _ _ => True) c.sys) (ht : Turn img c d) (hclean : TablesClean d.sys.trace) :
    Reachable img (fun _ _ => True) d.sys := by
  cases ht with
  | work hstep => exact h.step trivial hstep
  | write hm hd =>
      rw [hd] at hclean ⊢
      exact h.step trivial (h.kernelStep hclean hm)
  | switch hs =>
      have hclean' := hclean.suffix hs.trace_suffix
      obtain ⟨lay, hinv⟩ := h.inv hclean'
      obtain ⟨m, j, -, -, hkernel, hswitch⟩ := hs.steps hinv (h.currentTask hclean')
      exact (h.step trivial hkernel).step trivial hswitch

theorem Turn.task_kept (h : Reachable img (fun _ _ => True) c.sys) (ht : Turn img c d) (hclean : TablesClean d.sys.trace)
    (hi : c.sys.task i ≠ 0) : d.sys.task i = c.sys.task i := by
  have hclean' := hclean.suffix ht.trace_suffix
  obtain ⟨lay, hinv⟩ := h.inv hclean'
  cases ht with
  | work hstep =>
      obtain ⟨lay', hstepped, -⟩ := hinv.step hstep hclean
      exact hstepped.task_kept hinv hi
  | write _ hd => rw [hd]; rfl
  | switch hs =>
      obtain ⟨m, hsys, -⟩ := (hs.switched hinv (h.currentTask hclean')).sys
      rw [hsys]
      rfl

/-- A switch is not visible in the memories of the tasks. -/
theorem Swaps.pages (h : Reachable img (fun _ _ => True) c.sys) (hs : Swaps img f g c d) (hclean : TablesClean d.sys.trace) :
    d.sys.pages = c.sys.pages := by
  have hclean' := hclean.suffix hs.trace_suffix
  obtain ⟨lay, hinv⟩ := h.inv hclean'
  obtain ⟨m, j, -, -, hkernel, hswitch⟩ := hs.steps hinv (h.currentTask hclean')
  have hstored : (c.sys.withMem m).pages = c.sys.pages := by
    obtain ⟨e, he, hpages⟩ := h.seems hkernel hclean'
    cases he
    exact hpages
  obtain ⟨e, he, hpages⟩ := (h.step trivial hkernel).seems hswitch hclean
  cases he
  exact hpages.trans hstored

/-- The memory of a task that waits. -/
theorem Turn.pages_waits (h : Reachable img (fun _ _ => True) c.sys) (ht : Turn img c d) (hclean : TablesClean d.sys.trace)
    (hi : c.sys.Live i) (hf : c.sys.task i = framePtr f) (hne : c.sys.current ≠ framePtr f) (n : Nat) :
    d.sys.pages (i, n) = c.sys.pages (i, n) := by
  have hwait : ¬ c.sys.Runs i := fun hruns => hne (hruns.2.trans hf)
  cases ht with
  | work hstep =>
      obtain ⟨e, he, hpages⟩ := h.seems hstep hclean
      rw [hpages, he.waits hi.2.2 hwait]
  | write hm hd =>
      rw [hd] at hclean ⊢
      obtain ⟨e, he, hpages⟩ := h.seems (h.kernelStep hclean hm) hclean
      rw [hpages, he.waits hi.2.2 hwait]
  | switch hs => rw [hs.pages h hclean]

/-- The page of a task that waits, above the numbers at its start, keeps its bytes. -/
theorem Turn.waits (h : Reachable img (fun _ _ => True) c.sys) (ht : Turn img c d) (hclean : TablesClean d.sys.trace)
    (hi : c.sys.Live i) (hf : c.sys.task i = framePtr f) (hne : c.sys.current ≠ framePtr f) :
    (d.sys.Live i ∧ d.sys.task i = framePtr f) ∧
      ∀ o, THREAD_RA ≤ o → o < 4096 → d.sys.mem (f * 4096 + o) = c.sys.mem (f * 4096 + o) := by
  have hclean' := hclean.suffix ht.trace_suffix
  obtain ⟨lay, hinv⟩ := h.inv hclean'
  have ok := hinv.paging.task_ok hi
  obtain rfl : lay.page i = f := hinv.paging.page_eq hi hf
  have htask := ht.task_kept h hclean hi.2.2
  refine ⟨⟨⟨hi.1, hi.2.1, by rw [htask]; exact hi.2.2⟩, htask.trans hf⟩, fun o hlo ho => ?_⟩
  cases ht with
  | work hstep hswitch hkernel =>
      obtain ⟨lay', hstepped, -⟩ := hinv.step hstep hclean
      exact hstepped.task_frame hinv hkernel ok.page o ho
  | write hm hd =>
      rw [hd, KState.withMem_mem]
      by_contra hchanged
      rcases (hinv.kernelByte (h.currentTask hclean') ho (hm _ hchanged)).2 with hlow | ⟨-, hcur⟩
      · exact absurd hlow (Nat.not_lt.mpr hlo)
      · exact hne hcur
  | @switch g k hs =>
      obtain ⟨m, hsys, hout⟩ := (hs.switched hinv (h.currentTask hclean')).sys
      have hgf : g ≠ lay.page i := by
        rintro rfl
        exact hne hs.current
      rw [hsys, KState.log_mem]
      apply hout
      simp only [THREAD_RA, TASK_PGD]
      omega

/-- What the processor does from `c` on while the task in frame `f` is not current. -/
inductive Away (img : Image) (f : Nat) (c : Hart) : Hart → Prop
  | refl : Away img f c c
  | step {d e : Hart} : Away img f c d → d.sys.current ≠ framePtr f → Turn img d e → Away img f c e

theorem Away.trace_suffix (ha : Away img f c d) : c.sys.trace <:+ d.sys.trace := by
  induction ha with
  | refl => exact List.suffix_refl _
  | step _ _ ht ih => exact ih.trans ht.trace_suffix

theorem Away.waits (h : Reachable img (fun _ _ => True) c.sys) (ha : Away img f c d) (hclean : TablesClean d.sys.trace)
    (hi : c.sys.Live i) (hf : c.sys.task i = framePtr f) :
    Reachable img (fun _ _ => True) d.sys ∧ (d.sys.Live i ∧ d.sys.task i = framePtr f) ∧
      (∀ o, THREAD_RA ≤ o → o < 4096 → d.sys.mem (f * 4096 + o) = c.sys.mem (f * 4096 + o)) ∧
        ∀ n, d.sys.pages (i, n) = c.sys.pages (i, n) := by
  induction ha with
  | refl => exact ⟨h, ⟨hi, hf⟩, fun _ _ _ => rfl, fun _ => rfl⟩
  | @step d e hd hne ht ih =>
      have hsuffix : d.sys.trace <:+ e.sys.trace := ht.trace_suffix
      obtain ⟨hreach, ⟨hlive, htask⟩, hbytes, hpages⟩ := ih (hclean.suffix hsuffix)
      obtain ⟨hnow, hkept⟩ := ht.waits hreach hclean hlive htask hne
      exact ⟨ht.reachable hreach hclean, hnow, fun o hlo ho => (hkept o hlo ho).trans (hbytes o hlo ho),
        fun n => (ht.pages_waits hreach hclean hlive htask hne n).trans (hpages n)⟩

/-- Task `i` in frame `f` has given up the processor and got it back. -/
structure Resumed (i f : Nat) (c d : Hart) : Prop where
  reg : ∀ p ∈ threadRegs, d.reg p.1 = c.reg p.1
  csr : ∀ q ∈ threadCsrs, d.csr q.1 = c.csr q.1
  satp : satpRoot d.sys.satp = satpRoot c.sys.satp
  page : ∀ o, TASK_PGD ≤ o → o < 4096 → d.sys.mem (f * 4096 + o) = c.sys.mem (f * 4096 + o)
  pages : ∀ n, d.sys.pages (i, n) = c.sys.pages (i, n)

/-- A core with the arguments of `__switch_to`. -/
def switchHart (f g : Nat) (s : KState) : Hart where
  x := Function.update (fun r => if r = a0 then ptr f 0 else 1) a1 (ptr g 0)
  csr := fun _ => 0
  sys := s

theorem TablesClean.fence {l : List Event} (h : TablesClean l) : TablesClean (.fence m :: l) := by
  intro page m' hm
  rcases List.mem_cons.mp hm with he | he
  · cases he
  · exact h page m' he

/-- `switch_to` returns. -/
theorem RunInv.swaps {j : Nat} (h : RunInv img lay s) (hi : s.CurrentTask) (hcur : s.current = framePtr f) (hj : s.Live j)
    (hg : s.task j = framePtr g) (hne : f ≠ g) (hclean : TablesClean s.trace) :
    ∃ d, Swaps img f g (switchHart f g s) d ∧ TablesClean d.sys.trace ∧ d.sys.task = s.task ∧ d.sys.current = framePtr g := by
  obtain ⟨k, hk, hk0, hkcur⟩ := hi
  obtain ⟨f', hram, hf'⟩ := h.frame_of hk hk0
  obtain rfl : f' = f := framePtr_inj (hf'.symm.trans (hkcur.symm.trans hcur))
  have hgram : img.Ram g := by
    obtain rfl : lay.page j = g := h.paging.page_eq hj hg
    exact h.paging.page_ram hj
  have hprev : (switchHart f' g s).reg a0 = ptr f' 0 := rfl
  have harg : (switchHart f' g s).reg a1 = ptr g 0 := rfl
  have hspec : Ends (run (kernelSys img) 0 switchToCode) ((switchHart f' g s).withSys { s with current := framePtr g })
      (fun _ d => Switched f' g ((switchHart f' g s).withSys { s with current := framePtr g }) d) fun _ _ => False :=
    ends_switchTo hram hgram hne hprev harg
  cases hrun : (run (kernelSys img) 0 switchToCode).run ((switchHart f' g s).withSys { s with current := framePtr g }) with
  | ok _ d =>
      obtain ⟨m, hsys, -⟩ := (hspec.of_ok hrun).sys
      refine ⟨d, ⟨hcur, ⟨j, hj, hg⟩, hne, hprev, harg, hrun⟩, ?_, ?_, ?_⟩
      · rw [hsys, KState.log_trace]
        exact hclean.fence
      · rw [hsys]
        rfl
      · rw [hsys]
        rfl
  | error x d => exact (hspec.of_error hrun).elim

/-- A task that gets the processor finds what its page holds when it begins to wait. -/
structure Woken (i f : Nat) (d u : Hart) : Prop where
  reg : ∀ p ∈ threadRegs, u.reg p.1 = BitVec.ofNat 64 (ld 8 d.sys.mem (f * 4096 + THREAD_RA + p.2))
  csr : ∀ q ∈ threadCsrs, u.csr q.1 = BitVec.ofNat 64 (ld 8 d.sys.mem (f * 4096 + THREAD_RA + q.2))
  satp : u.sys.satp = taskSatp d.sys.mem f
  current : u.sys.current = framePtr f
  task : u.sys.task i = framePtr f
  page : ∀ o, TASK_PGD ≤ o → o < 4096 → u.sys.mem (f * 4096 + o) = d.sys.mem (f * 4096 + o)
  pages : ∀ n, u.sys.pages (i, n) = d.sys.pages (i, n)

theorem Away.woken (h : Reachable img (fun _ _ => True) d.sys) (hi : d.sys.Live i) (hf : d.sys.task i = framePtr f)
    (haway : Away img f d e) (hback : Swaps img k f e u) (hclean : TablesClean u.sys.trace) : Woken i f d u := by
  have hclean_e := hclean.suffix hback.trace_suffix
  -- the others run
  obtain ⟨hreach, ⟨hlive, htask⟩, hbytes, hpages⟩ := haway.waits h hclean_e hi hf
  -- the task is switched to
  obtain ⟨lay, hinv⟩ := hreach.inv hclean_e
  have hgot := hback.switched hinv (hreach.currentTask hclean_e)
  obtain ⟨m, hsys, hout⟩ := hgot.sys
  have hra : THREAD_RA = 32 := rfl
  have hword : ∀ n, THREAD_RA ≤ n → n + 8 ≤ 4096 → ld 8 e.sys.mem (f * 4096 + n) = ld 8 d.sys.mem (f * 4096 + n) := by
    intro n hlo hhi
    refine ld_congr fun x hx hx' => ?_
    obtain ⟨o, rfl⟩ := Nat.exists_eq_add_of_le ((Nat.le_add_right _ _).trans hx)
    exact hbytes o (by omega) (by omega)
  constructor
  case reg =>
    intro p hp
    refine (hgot.reg p hp).trans ?_
    rw [Core.withSys_sys, Nat.add_assoc, hword _ (Nat.le_add_right _ _) (threadRegs_fit hp)]
  case csr =>
    intro q hq
    refine (hgot.csr q hq).trans ?_
    rw [Core.withSys_sys, Nat.add_assoc, hword _ (Nat.le_add_right _ _) (threadCsrs_fit hq)]
  case satp =>
    rw [hsys]
    change taskSatp e.sys.mem f = _
    rw [taskSatp, taskSatp, hword _ (by decide) (by decide)]
  case current =>
    rw [hsys]
    rfl
  case task =>
    rw [hsys]
    exact htask
  case page =>
    intro o hlo ho
    rw [hsys, KState.log_mem, ← hbytes o ((by decide : THREAD_RA ≤ TASK_PGD).trans hlo) ho]
    apply hout
    have hne := hback.ne
    simp only [THREAD_RA, TASK_PGD] at *
    omega
  case pages =>
    intro n
    rw [hback.pages hreach hclean, hpages n]

theorem Swaps.resumed (hleave : Swaps img f g c d) (h : Reachable img (fun _ _ => True) c.sys) (hi : c.sys.Runs i)
    (haway : Away img f d e) (hback : Swaps img k f e u) (hclean : TablesClean u.sys.trace) : Resumed i f c u := by
  have hf : c.sys.task i = framePtr f := hi.2.symm.trans hleave.current
  -- the task leaves
  have hclean_d := (hclean.suffix hback.trace_suffix).suffix haway.trace_suffix
  have hclean_c := hclean_d.suffix hleave.trace_suffix
  obtain ⟨lay, hinv⟩ := h.inv hclean_c
  have hleft := hleave.switched hinv (h.currentTask hclean_c)
  obtain ⟨m, hsys, hout⟩ := hleft.sys
  have hlive : d.sys.Live i ∧ d.sys.task i = framePtr f := by
    rw [KState.Live, hsys]
    exact ⟨hi.1, hf⟩
  have hwoken := haway.woken ((Turn.switch hleave).reachable h hclean_d) hlive.1 hlive.2 hback hclean
  constructor
  case reg =>
    intro p hp
    have hsaved : ld 8 d.sys.mem (f * 4096 + THREAD_RA + p.2) = (c.reg p.1).toNat := hleft.saved.reg p hp
    rw [hwoken.reg p hp, hsaved, BitVec.ofNat_toNat, BitVec.setWidth_eq]
  case csr =>
    intro q hq
    have hsaved : ld 8 d.sys.mem (f * 4096 + THREAD_RA + q.2) = (c.csr q.1).toNat := hleft.saved.csr q hq
    rw [hwoken.csr q hq, hsaved, BitVec.ofNat_toNat, BitVec.setWidth_eq]
  case satp =>
    have ok := hinv.paging.task_ok hi.1
    obtain rfl : lay.page i = f := hinv.paging.page_eq hi.1 hf
    have hpgd : ld 8 d.sys.mem (lay.page i * 4096 + TASK_PGD) = framePtr (lay.root i) := by
      rw [← ok.pgd, hsys, KState.log_mem]
      exact ld_congr fun x hx _ => hout x (.inr hx)
    rw [hwoken.satp, taskSatp, hpgd, satpRoot_frame (hinv.paging.table_ram ok.root), hinv.satp i hi]
  case page =>
    intro o hlo ho
    rw [hwoken.page o hlo ho, hsys, KState.log_mem]
    exact hout _ (.inr (Nat.add_le_add_left hlo _))
  case pages =>
    intro n
    rw [hwoken.pages n, hleave.pages h hclean_d]

/-- A switch to another task and back. -/
theorem Reachable.switches {j : Nat} (h : Reachable img (fun _ _ => True) s) (hclean : TablesClean s.trace) (hi : s.Runs i)
    (hf : s.task i = framePtr f) (hj : s.Live j) (hij : i ≠ j) :
    ∃ g d e u, Swaps img f g (switchHart f g s) d ∧ Away img f d e ∧ Swaps img g f e u ∧ TablesClean u.sys.trace := by
  obtain ⟨lay, hinv⟩ := h.inv hclean
  have hg := (hinv.paging.task_ok hj).ptr
  have hne : f ≠ lay.page j := by
    obtain rfl : lay.page i = f := hinv.paging.page_eq hi.1 hf
    exact (hinv.paging.apart i j hi.1.1 hi.1.2.1 hi.1.2.2 hj.1 hj.2.1 hj.2.2 hij).1
  obtain ⟨d, hleave, hclean_d, htask, hcurrent⟩ := hinv.swaps (h.currentTask hclean) (hi.2.trans hf) hj hg hne hclean
  have hreach := (Turn.switch hleave).reachable h hclean_d
  obtain ⟨lay', hinv'⟩ := hreach.inv hclean_d
  -- the other task calls `switch_to` at once
  have haway : Away img f d (switchHart (lay.page j) f d.sys) := by
    refine .step .refl ?_ (.write (m := d.sys.mem) (fun x hx => absurd rfl hx) rfl)
    rw [hcurrent]
    exact fun he => hne (framePtr_inj he).symm
  have hlive : d.sys.Live i := ⟨hi.1.1, hi.1.2.1, by rw [htask]; exact hi.1.2.2⟩
  obtain ⟨u, hback, hclean_u, -⟩ :=
    hinv'.swaps (hreach.currentTask hclean_d) hcurrent hlive (by rw [htask, hf]) hne.symm hclean_d
  exact ⟨_, d, _, u, hleave, haway, hback, hclean_u⟩

/-- Whatever the other tasks do, a task finds its context, its kernel stack and its memory again when it is switched to. -/
theorem contexts_survive (h : Reachable img (fun _ _ => True) c.sys) (hi : c.sys.Runs i) (hleave : Swaps img f g c d)
    (haway : Away img f d e) (hback : Swaps img k f e u) (hclean : TablesClean u.sys.trace) : Resumed i f c u :=
  hleave.resumed h hi haway hback hclean

/-- Task 1 on the board, with its child. -/
theorem board_two : ∃ s f j, Reachable board (fun _ _ => True) s ∧ TablesClean s.trace ∧ s.Runs 1 ∧ board.Ram f ∧
    s.task 1 = framePtr f ∧ s.Live j ∧ 1 ≠ j := by
  obtain ⟨lay, s, p, j, hj, h, -⟩ := board_forked (n := 0) (by decide)
  have hlive : s.Live j := (userPte_some (x := (j, 1)) (by rw [h.mapped, Function.update_self])).1
  have hp := h.room.inv.paging
  exact ⟨s, _, j, h.reach, h.room.clean, h.runs, hp.page_ram h.runs.1, (hp.task_ok h.runs.1).ptr, hlive, hj.symm⟩

/-- Two switches on the board, from task 1 to its child and back. -/
theorem contexts_survive_board : ∃ f g c d e u, c.sys.Runs 1 ∧ Swaps board f g c d ∧ Away board f d e ∧ Swaps board g f e u ∧
    Resumed 1 f c u := by
  obtain ⟨s, f, j, h, hclean, hruns, -, hf, hj, hne⟩ := board_two
  obtain ⟨g, d, e, u, hleave, haway, hback, hclean_u⟩ := h.switches hclean hruns hf hj hne
  have hc : (switchHart f g s).sys.Runs 1 := hruns
  exact ⟨f, g, _, d, e, u, hc, hleave, haway, hback, contexts_survive h hruns hleave haway hback hclean_u⟩

end Turns

/-- Compiled code of the timer interrupt leaves the trap frame at byte `o` of frame `f` and `sstatus` as they were. -/
structure FrameKept (f o : Nat) (c d : Hart) : Prop where
  word : ∀ j, j < 36 → frameReg d.sys.mem (f * 4096 + o) j = frameReg c.sys.mem (f * 4096 + o) j
  sstatus : d.csr .sstatus = c.csr .sstatus

/-- `trap_handler` from its entry in `c` to its return in `d`, when a timer interrupt gives up the processor in between. -/
inductive Yields (img : Image) (f o : Nat) (c d : Hart) : Prop
  | intro {g k : Nat} {c' d₁ d₂ d' : Hart} : Relation.ReflTransGen (Turn img) c c' → FrameKept f o c c' →
      Swaps img f g c' d₁ → Away img f d₁ d₂ → Swaps img k f d₂ d' → TablesClean d'.sys.trace → FrameKept f o d' d →
      d.reg sp - d'.reg sp = c.reg sp - c'.reg sp → Yields img f o c d

/-- The program that was interrupted in `c` goes on in `e`: at the same instruction, in the same mode and with the same
registers. -/
structure GoesOn (f o : Nat) (u : Word) (c e : Hart) : Prop extends Returned f o u c e where
  answer : e.reg a0 = c.reg a0
  pc : e.csr .sepc = c.csr .sepc
  sstatus : e.csr .sstatus = c.csr .sstatus

/-- What came from user mode goes back to it, with its own stack pointer. -/
theorem GoesOn.userMode {f o : Nat} {u : Word} {c e : Hart} (h : GoesOn f o u c e) (hc : UserMode c) : UserMode e := by
  rw [UserMode, h.sstatus]
  exact hc

section Preemption
variable {img : Image} {c d e : Hart} {f i o : Nat} {w : Word}

theorem turns_trace_suffix (h : Relation.ReflTransGen (Turn img) c d) : c.sys.trace <:+ d.sys.trace := by
  induction h with
  | refl => exact List.suffix_refl _
  | tail _ ht ih => exact ih.trans ht.trace_suffix

theorem turns_reachable (h : Reachable img (fun _ _ => True) c.sys) (ht : Relation.ReflTransGen (Turn img) c d)
    (hclean : TablesClean d.sys.trace) (hi : c.sys.task i ≠ 0) :
    Reachable img (fun _ _ => True) d.sys ∧ d.sys.task i = c.sys.task i := by
  induction ht with
  | refl => exact ⟨h, rfl⟩
  | tail _ ht ih =>
      obtain ⟨hreach, htask⟩ := ih (hclean.suffix ht.trace_suffix)
      have hkept := ht.task_kept (i := i) hreach hclean (by rw [htask]; exact hi)
      exact ⟨ht.reachable hreach hclean, hkept.trans htask⟩

/-- The trap frame lies in the page of the current task. -/
theorem Saved.written (hs : Saved f o w c d) (hf : img.Ram f) (hcur : c.sys.current = framePtr f) (hlo : TASK_MM + 8 ≤ o)
    (hhi : o + 288 ≤ 4096) : ∃ m, (∀ x, m x ≠ c.sys.mem x → c.sys.KernelByte x) ∧ d.sys = c.sys.withMem m := by
  obtain ⟨m, hsys, hout⟩ := hs.sys
  refine ⟨m, fun x hx => .inl ?_, hsys⟩
  have hin : ¬ (x < f * 4096 + o ∨ f * 4096 + o + 288 ≤ x) := fun hno => hx (hout x hno)
  obtain ⟨y, rfl⟩ := Nat.exists_eq_add_of_le (show f * 4096 ≤ x by omega)
  refine ⟨y, by omega, by omega, ?_⟩
  rw [hcur, VA2PA_page hf]

theorem Saved.turn (hs : Saved f o w c d) (hf : img.Ram f) (hcur : c.sys.current = framePtr f) (hlo : TASK_MM + 8 ≤ o)
    (hhi : o + 288 ≤ 4096) : Turn img c d := by
  obtain ⟨m, hm, hd⟩ := hs.written hf hcur hlo hhi
  exact .write hm hd

theorem frameWord_of_bytes {m m' : Mem} {j : Nat} (hlo : TASK_PGD ≤ o) (hhi : o + 288 ≤ 4096)
    (h : ∀ x, TASK_PGD ≤ x → x < 4096 → m' (f * 4096 + x) = m (f * 4096 + x)) (hj : j < 36) :
    frameWord m' (f * 4096 + o) j = frameWord m (f * 4096 + o) j := by
  rw [frameWord, frameWord]
  refine ld_congr fun x hx hx' => ?_
  rw [Nat.add_assoc] at hx hx'
  obtain ⟨y, rfl⟩ := Nat.exists_eq_add_of_le ((Nat.le_add_right _ _).trans hx)
  have hy : o + 8 * j ≤ y := Nat.le_of_add_le_add_left hx
  rw [Nat.add_assoc] at hx'
  have hy' : y < o + 8 * j + 8 := Nat.lt_of_add_lt_add_left hx'
  exact h y (by omega) (by omega)

theorem Resumed.frameKept (h : Resumed i f c d) (hlo : TASK_PGD ≤ o) (hhi : o + 288 ≤ 4096) : FrameKept f o c d where
  word := fun j hj => by rw [frameReg, frameReg, frameWord_of_bytes hlo hhi h.page hj]
  sstatus := h.csr (.sstatus, 120) (by decide)

/-- A trap of the current task, and what its handler does until `d'`. -/
theorem Stack.calls {d' : Hart} (hstack : Stack f (o + 288) c w) (h : Reachable img (fun _ _ => True) c.sys) (hi : c.sys.Runs i)
    (hf : c.sys.task i = framePtr f) (hlo : TASK_MM + 8 ≤ o) (hhi : o + 288 ≤ 4096)
    (htrap : (run (kernelSys img) 0 trapsCode).run c = .ok () d) (hwork : Relation.ReflTransGen (Turn img) d d')
    (hclean : TablesClean d'.sys.trace) :
    img.Ram f ∧ Saved f o w c d ∧ Reachable img (fun _ _ => True) d'.sys ∧ d'.sys.task i = c.sys.task i := by
  obtain ⟨lay, hinv⟩ : ∃ lay, RunInv img lay c.sys := by
    have hsuffix : c.sys.trace <:+ d.sys.trace :=
      ((keeps_run (kernelSys_keeps c.sys.trace) trapsCode 0).run c (List.suffix_refl _)).of_ok htrap
    exact h.inv ((hclean.suffix (turns_trace_suffix hwork)).suffix hsuffix)
  have hram : img.Ram f := by
    obtain rfl : lay.page i = f := hinv.paging.page_eq hi.1 hf
    exact hinv.paging.page_ram hi.1
  have hs := hstack.saved hram hhi htrap
  exact ⟨hram, hs, turns_reachable h (.head (hs.turn hram (hi.2.trans hf) hlo hhi) hwork) hclean hi.1.2.2⟩

/-- A task that is preempted in a trap goes on where it was interrupted: the switches, and whatever the other tasks and the
kernel do in between, are not visible to it. -/
theorem preemption_returns (h : Reachable img (fun _ _ => True) c.sys) (hi : c.sys.Runs i) (hf : c.sys.task i = framePtr f)
    (hstack : Stack f (o + 288) c w) (hlo : TASK_MM + 8 ≤ o) (hhi : o + 288 ≤ 4096)
    (htrap : (run (kernelSys img) 0 trapsCode).run c = .ok () d) {d' : Hart} (hy : Yields img f o d d') :
    ∃ e, (run (kernelSys img) 0 retFromForkCode).run d' = .ok () e ∧ GoesOn f o w c e ∧ (UserMode c → UserMode e) := by
  obtain @⟨g, k, c', d₁, d₂, e', hwork, hkept, hleave, haway, hback, hclean, hkept', hsp⟩ := hy
  have hclean' := ((hclean.suffix hback.trace_suffix).suffix haway.trace_suffix).suffix hleave.trace_suffix
  -- the task is the same when it gives up the processor
  obtain ⟨hram, hs, hreach, htask⟩ := hstack.calls h hi hf hlo hhi htrap hwork hclean'
  have hruns : c'.sys.Runs i :=
    ⟨⟨hi.1.1, hi.1.2.1, by rw [htask]; exact hi.1.2.2⟩, by rw [htask, hf, hleave.current]⟩
  have hback' := hleave.resumed hreach hruns haway hback hclean
  have hframe : FrameKept f o c' e' := hback'.frameKept (by simp only [TASK_MM, TASK_PGD] at *; omega) hhi
  have hword : ∀ j, j < 36 → frameReg d'.sys.mem (f * 4096 + o) j = frameReg d.sys.mem (f * 4096 + o) j := fun j hj => by
    rw [hkept'.word j hj, hframe.word j hj, hkept.word j hj]
  have hh : Handled d d' := by
    constructor
    case sp =>
      have hsame : e'.reg sp = c'.reg sp := hback'.reg (sp, 8) (by decide)
      rw [hsame] at hsp
      exact sub_left_injective hsp
    case word =>
      rw [hs.sp, ptr_toNat hram (by omega), VA2PA_framePtr hram (by omega)]
      exact fun j hj _ _ => hword j hj
  obtain ⟨e, hrun, hr, hret⟩ := hs.restores hram hhi hh
  have hgo : GoesOn f o w c e := by
    refine ⟨hret, ?_, ?_, ?_⟩
    · rw [hr.reg a0 (by decide) (by decide), hword _ (by decide), hs.word a0 (by decide)]
    · rw [hr.sepc, hword 32 (by decide), hs.wordSepc]
    · rw [hr.sstatus, hkept'.sstatus, hframe.sstatus, hkept.sstatus, hs.csr _ (by decide)]
  exact ⟨e, hrun, hgo, hgo.userMode⟩

/-- A trap of task 1 on the board, with two switches in its handler. -/
theorem preemption_returns_board : ∃ f c d d' e, UserMode c ∧ (run (kernelSys board) 0 trapsCode).run c = .ok () d ∧
    Yields board f 3808 d d' ∧ (run (kernelSys board) 0 retFromForkCode).run d' = .ok () e ∧ GoesOn f 3808 1 c e ∧
    UserMode e := by
  obtain ⟨s, f, j, h, hclean, hruns, hram, hf, hj, hne⟩ := board_two
  obtain ⟨c, d, rfl, -, hcsr, hstack, htrap, hs⟩ := user_traps hram s 0
  have hstatus : c.csr .sstatus = 0 := hcsr _ (by decide)
  have huser : UserMode c := by
    rw [UserMode, hstatus]
    rfl
  have hstatus_d : d.csr .sstatus = 0 := (hs.csr _ (by decide)).trans hstatus
  obtain ⟨m, hd, -⟩ := hs.sys
  have hclean_d : TablesClean d.sys.trace := by
    rw [hd]
    exact hclean
  have hreach := (hs.turn hram (hruns.2.trans hf) (by decide) (by decide)).reachable h hclean_d
  have hruns_d : d.sys.Runs 1 := by
    rw [hd]
    exact hruns
  obtain ⟨g, d₁, d₂, d₃, hleave, haway, hback, hclean₃⟩ :=
    hreach.switches hclean_d hruns_d (by rw [hd]; exact hf) (by rw [hd]; exact hj) hne
  have hres := hleave.resumed (c := switchHart f g d.sys) hreach hruns_d haway hback hclean₃
  have hsp : d₃.reg sp = (switchHart f g d.sys).reg sp := hres.reg (sp, 8) (by decide)
  have hcall : Relation.ReflTransGen (Turn board) d (switchHart f g d.sys) :=
    .single (.write (m := d.sys.mem) (fun x hx => absurd rfl hx) rfl)
  have hy : Yields board f 3808 d (d₃.set sp (ptr f 3808)) := by
    refine .intro hcall ⟨fun _ _ => rfl, hstatus_d.symm⟩ hleave haway hback hclean₃ ⟨fun _ _ => rfl, rfl⟩ ?_
    rw [Core.reg_set_self (by decide), hs.sp, hsp]
  obtain ⟨e, hrest, hgo, hmode⟩ := preemption_returns h hruns hf hstack (by decide) (by decide) htrap hy
  exact ⟨f, c, d, _, e, huser, htrap, hy, hrest, hgo, hmode huser⟩

end Preemption

end ZjuOs
