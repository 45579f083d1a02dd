import ZjuOs.TaskInit

/-!
The runs of the tasks after `task_init`: page faults, forks, context switches, stores of user programs and
stores of the kernel to its task structures, in any order.
-/
namespace ZjuOs
open Memory Exec Radix

/-- Task `i` runs in user mode, or the kernel acts for it. -/
def KState.Runs (s : KState) (i : Nat) : Prop := s.Live i ∧ s.current = s.task i

/-- Every task has a list of areas below `USER_END`. -/
def AllAreas (img : Image) (s : KState) : Prop := ∀ i, s.Live i → ∃ l, AreaList img s (s.mmap i) l

/-- No area of a list reaches beyond `USER_END`. -/
def AreasBelow (s : KState) : Prop :=
  ∀ i, s.Live i → ∀ l, Chain (fun p => (s.vma p).vm_next) (s.mmap i) l → ∀ p ∈ l, (s.vma p).vm_end ≤ USER_END

/-- A byte of a task's page, outside its page-table pointer. -/
def KState.TaskByte (s : KState) (x : Nat) : Prop :=
  ∃ i o, i < NR_TASKS ∧ s.task i ≠ 0 ∧ o < 4096 ∧ (o < TASK_PGD ∨ TASK_PGD + 8 ≤ o) ∧ x = VA2PA (s.task i) + o

inductive Act
  | switch (j : Nat)
  | fault (regs : PtRegs)
  | fork (regs : Nat)
  | store (va : Nat) (c : UInt8)
  | kernel

/-- The trap frame of a fork lies in the page of its task, above what the fork changes in the copy. The
kernel also writes trap frames, registers and counters in the pages of the tasks, and may change the areas. -/
inductive Step (img : Image) (s : KState) : Act → KState → Prop
  | switch {j : Nat} {t : KState} : s.Live j → (switchTo img (s.task j)).run s = .ok () t → Step img s (.switch j) t
  | fault {i : Nat} {regs : PtRegs} {t : KState} : s.Runs i → (doPageFault img regs).run s = .ok () t →
      Step img s (.fault regs) t
  | fork {i regs : Nat} {n : Int} {t : KState} : s.Runs i → regs < 2 ^ 64 → InFrame regs →
      (doCowFork img regs).run s = .ok n t → Step img s (.fork regs) t
  | store {i va pte pa : Nat} {c : UInt8} : s.Runs i → va < 2 ^ 38 →
      translate s.mem (satpRoot s.satp) va = some (pte, pa) → pte.testBit PTE_U = true →
      pte.testBit PTE_W = true → Step img s (.store va c) (s.withMem (Function.update s.mem pa c))
  | kernel {m : Mem} {vma : Nat → VmArea} : (∀ x, m x ≠ s.mem x → s.TaskByte x) →
      AllAreas img { s with mem := m, vma } → Step img s .kernel { s with mem := m, vma }

/-- The states reached after `task_init` by steps that `ok` allows. -/
inductive Reachable (img : Image) (ok : KState → Act → Prop) : KState → Prop
  | start {s t : KState} : Ready img s → (taskInit img).run s = .ok () t → AreasBelow t → Reachable img ok t
  | step {s t : KState} {a : Act} : Reachable img ok s → ok s a → Step img s a t → Reachable img ok t

/-- Number of tasks, the idle one included. -/
def KState.used (s : KState) : Nat := ((Finset.range NR_TASKS).filter fun i => s.task i ≠ 0).card

/-- No fork looks at more pages. -/
abbrev MAX_LOOKED : Nat := 0x180000 * 2 ^ 26

/-- The invariant of the runs. -/
structure RunInv (img : Image) (lay : Layout) (s : KState) : Prop where
  paging : Paging img lay s
  areas : AllAreas img s
  idle : ∃ f, img.Ram f ∧ img.firstFree ≤ f ∧ s.ref f ≠ 0 ∧ lay.role f = .other ∧ s.task 0 = framePtr f
  satp : ∀ i, s.Runs i → satpRoot s.satp = lay.root i
  refs : ∀ f, lay.role f = .data → s.ref f ≤ 1 + s.used * MAX_LOOKED

section RunInv
variable {img : Image} {lay lay' : Layout} {s t : KState} {i j : Nat} {l : List Nat} {m : Mem}

theorem RunInv.running (h : RunInv img lay s) (hi : s.Runs i) : Running lay s i :=
  ⟨hi.1.1, hi.1.2.1, hi.1.2.2, hi.2, h.satp i hi⟩

/-- Only one task has the page that is current. -/
theorem Paging.runs_unique (h : Paging img lay s) (hi : s.Runs i) (hj : s.Runs j) : i = j :=
  h.task_inj hi.1 hj.1 (hi.2.symm.trans hj.2)

theorem RunInv.idle_ne (h : RunInv img lay s) : s.task 0 ≠ 0 := by
  obtain ⟨f, -, -, -, -, hf⟩ := h.idle
  rw [hf]
  exact framePtr_ne_zero f

theorem used_le (s : KState) : s.used ≤ NR_TASKS :=
  (Finset.card_le_card (Finset.filter_subset _ _)).trans (Finset.card_range NR_TASKS).le

theorem used_pos (h : s.task 0 ≠ 0) : 1 ≤ s.used :=
  Finset.card_pos.mpr ⟨0, Finset.mem_filter.mpr ⟨Finset.mem_range.mpr (by decide), h⟩⟩

theorem used_update (hj : j < NR_TASKS) (hempty : s.task j = 0) {p : Nat} (hp : p ≠ 0)
    (ht : t.task = Function.update s.task j p) : t.used = s.used + 1 := by
  have hset : (Finset.range NR_TASKS).filter (fun i => t.task i ≠ 0) =
      insert j ((Finset.range NR_TASKS).filter fun i => s.task i ≠ 0) := by
    ext k
    rw [Finset.mem_insert, Finset.mem_filter, Finset.mem_filter, ht]
    by_cases hk : k = j
    · rw [hk, Function.update_self]
      exact iff_of_true ⟨Finset.mem_range.mpr hj, hp⟩ (.inl rfl)
    · rw [Function.update_of_ne hk]
      exact ⟨.inr, fun h => h.resolve_left hk⟩
  have hnot : j ∉ (Finset.range NR_TASKS).filter fun i => s.task i ≠ 0 := fun h =>
    (Finset.mem_filter.mp h).2 hempty
  rw [KState.used, hset, Finset.card_insert_of_notMem hnot, KState.used]

theorem SameTasks.used (h : SameTasks s t) : t.used = s.used := by rw [KState.used, KState.used, h.task]

theorem SameTasks.runs (h : SameTasks s t) : t.Runs i ↔ s.Runs i := by
  rw [KState.Runs, KState.Runs, h.live, h.current, h.task]

theorem AreaList.looked_le {head : Nat} (hl : AreaList img s head l) : looked s.vma l ≤ MAX_LOOKED := by
  have hlen := hl.toNodeList.length_le
  have hsum : ∀ l' : List Nat, (∀ p ∈ l', p ∈ l) → looked s.vma l' ≤ l'.length * 2 ^ 26 := by
    intro l' hsub
    induction l' with
    | nil => exact Nat.zero_le _
    | cons p l' ih =>
        have hp := (s.vma p).length_pages (hl.below p (hsub p List.mem_cons_self))
        have hrest := ih fun q hq => hsub q (List.mem_cons_of_mem _ hq)
        simp only [looked, List.flatMap_cons, List.length_append, List.length_cons] at *
        omega
  exact (hsum l fun _ hp => hp).trans (Nat.mul_le_mul_right _ hlen)

/-- A list stays when the areas, the word that points to the list and the pages of its nodes do. -/
theorem AreaList.carry (hl : AreaList img s (mmapOf lay s i) l) (hrole : lay.role (lay.page i) = .task)
    (hvma : t.vma = s.vma) (hpage : lay'.page = lay.page) (hframe : ∀ f, lay.role f = .task → SameFrame t.mem s.mem f)
    (hlive : ∀ f, img.Ram f → s.ref f ≠ 0 → t.ref f ≠ 0) : AreaList img t (mmapOf lay' t i) l := by
  have hword : mmapOf lay' t i = mmapOf lay s i := by
    rw [mmapOf, mmapOf, hpage]
    exact (hframe _ hrole).ld (by decide)
  rw [hword]
  exact hl.mono hvma hlive

theorem AllAreas.mono (h : AllAreas img s) (hp : Paging img lay s) (hp' : Paging img lay' t)
    (ht : SameTasks s t) (hpage : lay'.page = lay.page)
    (hframe : ∀ f, lay.role f = .task → SameFrame t.mem s.mem f)
    (hlive : ∀ f, img.Ram f → s.ref f ≠ 0 → t.ref f ≠ 0) : AllAreas img t := by
  intro i hi
  have hi' := ht.live.mp hi
  obtain ⟨l, hl⟩ := h i hi'
  rw [← hp.mmap_eq hi'] at hl
  refine ⟨l, ?_⟩
  rw [← hp'.mmap_eq hi]
  exact hl.carry (hp.task_ok hi').page ht.vma hpage hframe hlive

/-- The idle task stays. -/
theorem RunInv.idle_mono (h : RunInv img lay s) (htask : t.task 0 = s.task 0)
    (hlive : ∀ f, img.Ram f → s.ref f ≠ 0 → t.ref f ≠ 0)
    (hother : ∀ f, lay.role f = .other → s.ref f ≠ 0 → lay'.role f = .other) :
    ∃ f, img.Ram f ∧ img.firstFree ≤ f ∧ t.ref f ≠ 0 ∧ lay'.role f = .other ∧ t.task 0 = framePtr f := by
  obtain ⟨f, hram, habove, href, hf, ht⟩ := h.idle
  exact ⟨f, hram, habove, hlive f hram href, hother f hf href, htask.trans ht⟩

/-- The idle task is current, and its page is no task's page. -/
theorem Started.idle_current (h : Started img m lay s) : ¬ s.Runs i := by
  intro hi
  obtain ⟨f, -, -, -, hother, -, hcur⟩ := h.idle
  have ok := h.paging.task_ok hi.1
  have hsame := hcur.symm.trans (hi.2.trans ok.ptr)
  rw [framePtr_inj hsame, ok.page] at hother
  cases hother

theorem Started.runInv (h : Started img m lay s) (hbelow : AreasBelow s) : RunInv img lay s where
  paging := h.paging
  areas := fun i hi => by
    obtain ⟨l, hl, -⟩ := h.lists i hi
    exact ⟨l, hl, hbelow i hi l hl.chain⟩
  idle := by
    obtain ⟨f, hram, habove, href, hother, htask, -⟩ := h.idle
    exact ⟨f, hram, habove, href, hother, htask⟩
  satp := fun i hi => absurd hi h.idle_current
  refs := fun f hf => absurd hf (h.unmapped f)

end RunInv

/-- What a step has done, in the terms of the invariant. -/
inductive Stepped (img : Image) (lay : Layout) (s : KState) : Act → Layout → KState → Prop
  | stay {j : Nat} : s.Runs j → Stepped img lay s (.switch j) lay s
  | switch {j : Nat} {t : KState} : s.Live j → t.current = s.task j → satpRoot t.satp = lay.root j →
      t.mem = s.mem → t.buddy = s.buddy → t.task = s.task → t.vma = s.vma →
      t.trace = .fence s.mem :: s.trace → Stepped img lay s (.switch j) lay t
  | fault {i p : Nat} {regs : PtRegs} {l : List Nat} {lay' : Layout} {t : KState} : Running lay s i →
      AreaList img s (mmapOf lay s i) l → selected s.vma l regs.stval = some p →
      refuses regs.scause (s.vma p).vm_flags = false →
      Resolved img lay s (lay.root i) regs.stval (s.vma p) regs.scause lay' t →
      Stepped img lay s (.fault regs) lay' t
  | fork {i regs : Nat} {n : Int} {l : List Nat} {lay' : Layout} {t : KState} : Running lay s i →
      AreaList img s (mmapOf lay s i) l → CowForked img lay s i l n lay' t → Stepped img lay s (.fork regs) lay' t
  | store {i va pte : Nat} {c : UInt8} : Running lay s i → va < 2 ^ 38 →
      leafPte s.mem (lay.root i) va = some pte → pte.testBit PTE_W = true →
      KeepsTables img lay s (Function.update s.mem (pteFrame pte * 4096 + va % 4096) c) →
      Stepped img lay s (.store va c) lay (s.withMem (Function.update s.mem (pteFrame pte * 4096 + va % 4096) c))
  | kernel {m : Mem} {vma : Nat → VmArea} : KeepsTables img lay s m → (∀ f, lay.role f = .data → SameFrame m s.mem f) →
      (∀ f, lay.role f = .other → s.task 0 ≠ framePtr f → SameFrame m s.mem f) →
      Stepped img lay s .kernel lay { s with mem := m, vma }

section Steps
variable {img : Image} {lay lay' : Layout} {s t : KState} {i j : Nat} {m : Mem} {a : Act}

/-- Memory has changed outside the tables; the tasks are the same. -/
theorem RunInv.withMem (h : RunInv img lay s) (hm : KeepsTables img lay s m) {vma : Nat → VmArea}
    (hareas : AllAreas img { s with mem := m, vma }) : RunInv img lay { s with mem := m, vma } where
  paging := (h.paging.withMem hm).of_eq h.paging.pages (fun _ _ hne => hne) rfl rfl
  areas := hareas
  idle := h.idle
  satp := h.satp
  refs := h.refs

/-- Only the registers that select a task have changed. -/
theorem RunInv.of_same (h : RunInv img lay s) (hmem : t.mem = s.mem) (hbuddy : t.buddy = s.buddy)
    (htask : t.task = s.task) (hvma : t.vma = s.vma) (hsatp : ∀ i, t.Runs i → satpRoot t.satp = lay.root i) :
    RunInv img lay t := by
  have href : ∀ f, t.ref f = s.ref f := fun f => by rw [KState.ref, KState.ref, hbuddy]
  exact
    { paging := h.paging.of_eq (by rw [KState.Pages, hbuddy]; exact h.paging.pages)
        (fun f _ hne => by rw [href]; exact hne) hmem htask
      areas := fun i hi => by
        have hi' : s.Live i := by rwa [KState.Live, ← htask]
        obtain ⟨l, hl⟩ := h.areas i hi'
        have hword : t.mmap i = s.mmap i := by rw [KState.mmap, KState.mmap, hmem, htask]
        exact ⟨l, hword ▸ hl.mono hvma fun f _ hne => by rw [href]; exact hne⟩
      idle := h.idle_mono (by rw [htask]) (fun f _ hne => by rw [href]; exact hne) fun _ hf _ => hf
      satp := hsatp
      refs := fun f hf => by
        rw [href, KState.used, htask]
        exact h.refs f hf }

theorem switchTo_spec (h : Paging img lay s) (hj : s.Live j) :
    Ends (switchTo img (s.task j)) s
      (fun _ t => (s.task j = s.current ∧ t = s) ∨ (t.current = s.task j ∧ satpRoot t.satp = lay.root j ∧
        t.mem = s.mem ∧ t.buddy = s.buddy ∧ t.task = s.task ∧ t.vma = s.vma ∧ t.trace = .fence s.mem :: s.trace))
      fun _ _ => False := by
  have ok := h.task_ok hj
  have hroot := satpRoot_frame (h.table_ram ok.root)
  rw [switchTo]
  refine ends_bind.mpr (ends_get.mpr ?_)
  by_cases hcur : s.task j = s.current
  · rw [if_pos hcur, ends_pure]
    exact .inl ⟨hcur, rfl⟩
  · rw [if_neg hcur, ok.ptr]
    refine ends_bind.mpr (ends_modify.mpr (ends_bind.mpr ?_))
    refine (ends_loadWord (h.page_ram hj) (by decide)).mpr ?_
    dsimp only
    rw [ok.pgd]
    generalize (VA2PA (framePtr (lay.root j)) >>> 12) ||| 0x8000000000000000 = v at hroot ⊢
    refine ends_bind.mpr (ends_modify.mpr (ends_modify.mpr (.inr ⟨KState.log_current .., ?_, KState.log_mem ..,
      KState.log_buddy .., KState.log_task .., KState.log_vma .., KState.log_trace ..⟩)))
    rw [KState.log_satp]
    exact hroot

theorem RunInv.switch (h : RunInv img lay s) (hj : s.Live j) (hrun : (switchTo img (s.task j)).run s = .ok () t) :
    Stepped img lay s (.switch j) lay t ∧ RunInv img lay t := by
  rcases (switchTo_spec h.paging hj).of_ok hrun with ⟨hcur, rfl⟩ | ⟨hcur, hroot, hmem, hbuddy, htask, hvma, htrace⟩
  · exact ⟨.stay ⟨hj, hcur.symm⟩, h⟩
  · refine ⟨.switch hj hcur hroot hmem hbuddy htask hvma htrace, h.of_same hmem hbuddy htask hvma fun i hi => ?_⟩
    have hj' : t.Runs j := ⟨by rwa [KState.Live, htask], by rw [hcur, htask]⟩
    have hp : Paging img lay t := h.paging.of_eq (by rw [KState.Pages, hbuddy]; exact h.paging.pages)
      (fun f _ hne => by rwa [KState.ref, hbuddy]) hmem htask
    have hij : i = j := hp.runs_unique hi hj'
    rw [hij]
    exact hroot

/-- No reference that a task needs is lost, and the tasks keep their pages. -/
theorem RunInv.carry (h : RunInv img lay s) (hp : Paging img lay' t) (hpage : lay'.page = lay.page)
    (hroot : lay'.root = lay.root) (htasks : SameTasks s t)
    (hlive : ∀ f, img.Ram f → s.ref f ≠ 0 → t.ref f ≠ 0)
    (hadded : ∀ f, lay.role f = .other → lay'.role f ≠ .other → s.ref f = 0)
    (hframe : ∀ f, lay.role f = .task → SameFrame t.mem s.mem f)
    (hrefs : ∀ f, lay'.role f = .data → t.ref f ≤ 1 + s.used * MAX_LOOKED) : RunInv img lay' t where
  paging := hp
  areas := h.areas.mono h.paging hp htasks hpage hframe hlive
  idle := h.idle_mono (by rw [htasks.task]) hlive fun f hf href => by
    by_contra hne
    exact href (hadded f hf hne)
  satp := fun i hi => by
    rw [htasks.satp, hroot]
    exact h.satp i (htasks.runs.mp hi)
  refs := fun f hf => by
    rw [htasks.used]
    exact hrefs f hf

theorem RunInv.remapped (h : RunInv img lay s) {r va pte : Nat} {drop : Option Nat}
    (hm : Remapped img lay lay' s t r va pte drop) (hmany : ∀ f, drop = some f → s.ref f ≠ 1) :
    RunInv img lay' t := by
  refine h.carry hm.paging hm.page hm.root hm.tasks (fun _ => hm.live hmany) hm.added (fun f hf => ?_) fun f hf => ?_
  · exact hm.frame f (fun r p hp => by rw [hf] at hp; cases hp) (h.paging.held f (by rw [hf]; exact Role.noConfusion)).2.2
  · by_cases hold : lay.role f = .other
    · rw [hm.fresh f hold hf]
      omega
    · rw [hm.role f hold] at hf
      obtain ⟨hram, -, hne⟩ := h.paging.held f hold
      have hbound := h.refs f hf
      have hsame := hm.ref f hram hne
      omega

theorem RunInv.resolved (h : RunInv img lay s) {r va scause : Nat} {area : VmArea}
    (hres : Resolved img lay s r va area scause lay' t) : RunInv img lay' t := by
  cases hres with
  | demand g _ _ _ _ _ hm _ _ => exact h.remapped hm fun _ hd => by cases hd
  | own old g _ _ _ _ _ hm _ => exact h.remapped hm fun _ hd => by cases hd
  | copy old g g₁ _ _ _ hmany _ _ _ _ _ _ hm _ _ _ _ =>
      refine h.remapped hm fun f hd => ?_
      cases hd
      exact hmany

theorem RunInv.fault (h : RunInv img lay s) {regs : PtRegs} (hi : s.Runs i)
    (hrun : (doPageFault img regs).run s = .ok () t) (hclean : TablesClean t.trace) :
    ∃ lay', Stepped img lay s (.fault regs) lay' t ∧ RunInv img lay' t := by
  obtain ⟨l, hl⟩ := h.areas i hi.1
  rw [← h.paging.mmap_eq hi.1] at hl
  obtain ⟨p, lay', hsel, hgrant, hres⟩ := (doPageFault_spec h.paging False.elim (h.running hi) hl).of_ok hrun (.inr hclean)
  exact ⟨lay', .fault (h.running hi) hl hsel hgrant hres, h.resolved hres⟩

/-- No slot was free: the page of the child is lost. -/
theorem RunInv.calm (h : RunInv img lay s) (hc : Calm img lay lay' s t none) : RunInv img lay' t := by
  refine h.carry hc.paging hc.page hc.root hc.tasks hc.live hc.added (fun f hf => ?_) fun f hf => ?_
  · exact hc.frame f (fun r p hp => by rw [hf] at hp; cases hp) (h.paging.held f (by rw [hf]; exact Role.noConfusion)).2.2
  · by_cases hold : lay.role f = .other
    · rw [hc.fresh f hold hf]
      omega
    · rw [hc.role f hold] at hf
      obtain ⟨hram, -, hne⟩ := h.paging.held f hold
      have hbound := h.refs f hf
      have hsame := hc.ref f hram hne
      omega

theorem RunInv.spawned (h : RunInv img lay s) {c d : Nat} (hr : s.Runs i)
    (hs : Spawned img s t j c d (mmapOf lay s i)) : RunInv img (lay.spawn j c d) t := by
  have hp := hs.paging h.paging
  have hlive : ∀ f, img.Ram f → s.ref f ≠ 0 → t.ref f ≠ 0 := fun f hf hne => by
    rw [hs.ref f hf hne]
    exact hne
  constructor
  case paging => exact hp
  case areas =>
    intro k hk
    by_cases hkj : k = j
    · obtain ⟨l, hl⟩ := h.areas i hr.1
      have hword : t.mmap k = s.mmap i := by
        rw [← hp.mmap_eq hk, ← h.paging.mmap_eq hr.1, hkj, mmapOf]
        have hpage : (lay.spawn j c d).page j = c := Function.update_self ..
        rw [hpage, hs.mm]
      exact ⟨l, hword ▸ hl.mono hs.vma hlive⟩
    · have hk' := (hs.live.mp hk).resolve_right hkj
      obtain ⟨l, hl⟩ := h.areas k hk'
      have ok := h.paging.task_ok hk'
      have hrole := hs.role h.paging (f := lay.page k) (by rw [ok.page]; exact Role.noConfusion)
      have hword : t.mmap k = s.mmap k := by
        rw [← hp.mmap_eq hk, ← h.paging.mmap_eq hk', mmapOf, mmapOf]
        have hpage : (lay.spawn j c d).page k = lay.page k := Function.update_of_ne hkj ..
        rw [hpage]
        exact (hs.frame _ hrole.1 hrole.2.1).ld (by decide)
      exact ⟨l, hword ▸ hl.mono hs.vma hlive⟩
  case idle =>
    have hzero : t.task 0 = s.task 0 := by
      rw [hs.task]
      exact Function.update_of_ne (Nat.ne_of_lt hs.pos) ..
    refine h.idle_mono hzero hlive fun f hf href => ?_
    have hfc : f ≠ c := by
      rintro rfl
      exact href hs.freePage
    have hfd : f ≠ d := by
      rintro rfl
      exact href hs.freeRoot
    rw [Layout.role_spawn_of_ne hfc hfd]
    exact hf
  case satp =>
    intro k hk
    have hkj : k ≠ j := by
      rintro rfl
      have hsame := hk.2
      rw [hs.current, hr.2, hs.task, Function.update_self, (h.paging.task_ok hr.1).ptr] at hsame
      have hrole := hs.role h.paging (f := lay.page i) (by rw [(h.paging.task_ok hr.1).page]; exact Role.noConfusion)
      exact hrole.1 (framePtr_inj hsame)
    have hk' : s.Runs k := by
      refine ⟨(hs.live.mp hk.1).resolve_right hkj, ?_⟩
      have hsame := hk.2
      rwa [hs.current, hs.task, Function.update_of_ne hkj] at hsame
    have hroot : (lay.spawn j c d).root k = lay.root k := Function.update_of_ne hkj ..
    rw [hs.satp, hroot]
    exact h.satp k hk'
  case refs =>
    intro f hf
    have hused : t.used = s.used + 1 := used_update hs.lt hs.empty (framePtr_ne_zero c) hs.task
    have hfd : f ≠ d := by
      rintro rfl
      rw [Layout.role_spawn_root] at hf
      cases hf
    have hfc : f ≠ c := by
      rintro rfl
      rw [Layout.role_spawn_page hs.ne] at hf
      cases hf
    rw [Layout.role_spawn_of_ne hfc hfd] at hf
    obtain ⟨hram, -, hne⟩ := h.paging.held f (by rw [hf]; exact Role.noConfusion)
    have hbound := h.refs f hf
    rw [hs.ref f hram hne, hused]
    exact hbound.trans (Nat.add_le_add_left (Nat.mul_le_mul_right _ (Nat.le_succ _)) 1)

/-- After sharing at most `MAX_LOOKED` pages with a new task. -/
theorem RunInv.shared (h : RunInv img lay s) {r n : Nat} (hk : Kept img lay lay' s t r n)
    (hbound : ∀ f, lay.role f = .data → s.ref f + n ≤ 1 + s.used * MAX_LOOKED) : RunInv img lay' t := by
  refine h.carry hk.paging hk.page hk.root hk.tasks (fun f hf hne => ?_) (fun f h0 h1 => (hk.added f h0 h1).1)
    (fun f hf => hk.frame f fun r p hp => ?_) fun f hf => ?_
  · have := hk.ref f hf hne
    omega
  · rw [hk.role f (by rw [hf]; exact Role.noConfusion), hf] at hp
    cases hp
  · by_cases hold : lay.role f = .other
    · obtain ⟨-, r', p, hp⟩ := hk.added f hold (by rw [hf]; exact Role.noConfusion)
      rw [hf] at hp
      cases hp
    · rw [hk.role f hold] at hf
      obtain ⟨hram, -, hne⟩ := h.paging.held f hold
      have hle := (hk.ref f hram hne).2
      have hmax := hbound f hf
      omega

theorem RunInv.cowForked (h : RunInv img lay s) {l : List Nat} {n : Int} (hi : s.Runs i)
    (hl : AreaList img s (mmapOf lay s i) l) (hf : CowForked img lay s i l n lay' t) : RunInv img lay' t := by
  cases hf with
  | full _ _ _ hc => exact h.calm hc
  | child j c d u v _ hs hsh ht =>
      have hij : i ≠ j := by
        rintro rfl
        exact hi.1.2.2 hs.empty
      have hu := h.spawned hi hs
      have hroot : (lay.spawn j c d).role (lay.root i) = .table (lay.root i) [] := by
        have hrole := hs.role h.paging (f := lay.root i)
          (by rw [(h.paging.task_ok hi.1).root]; exact Role.noConfusion)
        rw [hrole.2.2, (h.paging.task_ok hi.1).root]
      have hused : u.used = s.used + 1 := used_update hs.lt hs.empty (framePtr_ne_zero c) hs.task
      have hlen : (visits s.vma s.mem (lay.root i) l).length ≤ MAX_LOOKED :=
        (List.length_filter_le _ _).trans hl.looked_le
      have hv : RunInv img lay' v := hu.shared (hsh.kept hu.paging hroot) fun f hf => by
        have hfd : f ≠ d := by
          rintro rfl
          rw [Layout.role_spawn_root] at hf
          cases hf
        have hfc : f ≠ c := by
          rintro rfl
          rw [Layout.role_spawn_page hs.ne] at hf
          cases hf
        rw [Layout.role_spawn_of_ne hfc hfd] at hf
        obtain ⟨hram, -, hne⟩ := h.paging.held f (by rw [hf]; exact Role.noConfusion)
        have hbound := h.refs f hf
        rw [hs.ref f hram hne, hused, Nat.succ_mul]
        omega
      rw [ht]
      exact hv.of_same (KState.log_mem ..) (KState.log_buddy ..) (KState.log_task ..) (KState.log_vma ..)
        fun k hk => hv.satp k hk

/-- No count can overflow in a fork. -/
theorem RunInv.count_lt (h : RunInv img lay s) (hl : AreaList img s (mmapOf lay s i) l) :
    ∀ f, lay.role f = .data → s.ref f + looked s.vma l < 2 ^ 64 := fun f hf => by
  have hused := used_le s
  have hlen : looked s.vma l ≤ MAX_LOOKED := hl.looked_le
  have hbound := h.refs f hf
  have hmax : s.used * MAX_LOOKED ≤ NR_TASKS * MAX_LOOKED := Nat.mul_le_mul_right _ hused
  have hfit : 1 + NR_TASKS * MAX_LOOKED + MAX_LOOKED < 2 ^ 64 := Nat.le_of_ble_eq_true rfl
  omega

theorem RunInv.fork (h : RunInv img lay s) {regs : Nat} {n : Int} (hi : s.Runs i) (hregs : regs < 2 ^ 64)
    (hframe : InFrame regs) (hrun : (doCowFork img regs).run s = .ok n t) (hclean : TablesClean t.trace) :
    ∃ lay', Stepped img lay s (.fork regs) lay' t ∧ RunInv img lay' t := by
  obtain ⟨l, hl⟩ := h.areas i hi.1
  rw [← h.paging.mmap_eq hi.1] at hl
  obtain ⟨⟨lay', hf⟩, -⟩ := (doCowFork_spec h.paging False.elim (h.running hi) h.idle_ne hl hregs hframe
    (h.count_lt hl)).of_ok hrun (.inr hclean)
  exact ⟨lay', .fork (h.running hi) hl hf, h.cowForked hi hl hf⟩

theorem RunInv.store (h : RunInv img lay s) {va pte pa : Nat} {c : UInt8} (hi : s.Runs i) (hva : va < 2 ^ 38)
    (htr : translate s.mem (satpRoot s.satp) va = some (pte, pa)) (hw : pte.testBit PTE_W = true) :
    Stepped img lay s (.store va c) lay (s.withMem (Function.update s.mem pa c)) ∧
      RunInv img lay (s.withMem (Function.update s.mem pa c)) := by
  have hroot := (h.paging.task_ok hi.1).root
  rw [h.satp i hi, h.paging.translate_user hroot hva] at htr
  obtain ⟨pte', hpte, hleaf⟩ := Option.bind_eq_some_iff.mp htr
  rw [hwLeaf] at hleaf
  split at hleaf
  · cases hleaf
  · cases hleaf
    obtain ⟨-, -, -, -, -, hdata, -⟩ := h.paging.of_leafPte hroot (.of_lt hva) hpte
    have hout : ∀ g x, x < g * 4096 ∨ g * 4096 + 4096 ≤ x →
        Function.update s.mem (g * 4096 + va % 4096) c x = s.mem x := fun g x hx =>
      Function.update_of_ne (by omega) ..
    have hkeep := h.paging.keepsTables_data hdata (hout _)
    refine ⟨.store (h.running hi) hva hpte hw hkeep, h.withMem hkeep fun k hk => ?_⟩
    have hframe : ∀ f, lay.role f = .task →
        SameFrame (Function.update s.mem (pteFrame pte * 4096 + va % 4096) c) s.mem f := fun f hf o ho => by
      have hne : f ≠ pteFrame pte := by
        rintro rfl
        rw [hf] at hdata
        cases hdata
      generalize pteFrame pte = g at hne ⊢
      exact hout g _ (by omega)
    exact h.areas.mono h.paging (h.paging.withMem hkeep) ⟨rfl, rfl, rfl, rfl, rfl, rfl⟩ rfl hframe
      (fun _ _ hne => hne) k hk

/-- The pages of the tasks are the only frames that the kernel writes here. -/
theorem RunInv.taskByte (h : RunInv img lay s) {f o : Nat} (ho : o < 4096) (hb : s.TaskByte (f * 4096 + o)) :
    (lay.role f = .task ∧ (o < TASK_PGD ∨ TASK_PGD + 8 ≤ o)) ∨
      (lay.role f = .other ∧ img.firstFree ≤ f ∧ s.task 0 = framePtr f) := by
  obtain ⟨i, o', hi, hne, ho', hout, hx⟩ := hb
  rcases Nat.eq_zero_or_pos i with rfl | hpos
  · obtain ⟨g, hram, habove, -, hother, hg⟩ := h.idle
    rw [hg, VA2PA_page hram] at hx
    obtain rfl : f = g := by omega
    exact .inr ⟨hother, habove, hg⟩
  · rw [h.paging.task_pa ⟨hpos, hi, hne⟩] at hx
    obtain ⟨rfl, rfl⟩ : f = lay.page i ∧ o = o' := by omega
    exact .inl ⟨(h.paging.task_ok ⟨hpos, hi, hne⟩).page, hout⟩

theorem RunInv.kernel (h : RunInv img lay s) {vma : Nat → VmArea} (hm : ∀ x, m x ≠ s.mem x → s.TaskByte x)
    (hareas : AllAreas img { s with mem := m, vma }) :
    Stepped img lay s .kernel lay { s with mem := m, vma } ∧ RunInv img lay { s with mem := m, vma } := by
  have hsame : ∀ f o, o < 4096 → (lay.role f = .task → TASK_PGD ≤ o ∧ o < TASK_PGD + 8) →
      (lay.role f = .other → f < img.firstFree ∨ s.task 0 ≠ framePtr f) → m (f * 4096 + o) = s.mem (f * 4096 + o) := by
    intro f o ho htask hother
    by_contra hne
    rcases h.taskByte ho (hm _ hne) with ⟨hrole, hout⟩ | ⟨hrole, habove, hidle⟩
    · have := htask hrole
      omega
    · rcases hother hrole with hlow | hno
      · omega
      · exact hno hidle
  have hkeep := h.paging.keepsTables_task fun f o ho htask hother => hsame f o ho htask fun hf => .inl (hother hf)
  refine ⟨.kernel hkeep (fun f hf o ho => hsame f o ho (fun ht => ?_) fun ht => ?_)
    (fun f hf hno o ho => hsame f o ho (fun ht => ?_) fun _ => .inr hno), h.withMem hkeep hareas⟩
  · rw [hf] at ht
    cases ht
  · rw [hf] at ht
    cases ht
  · rw [hf] at ht
    cases ht

/-- One step keeps the invariant. -/
theorem RunInv.step (h : RunInv img lay s) (hs : Step img s a t) (hclean : TablesClean t.trace) :
    ∃ lay', Stepped img lay s a lay' t ∧ RunInv img lay' t := by
  cases hs with
  | switch hj hrun => exact ⟨lay, h.switch hj hrun⟩
  | fault hi hrun => exact h.fault hi hrun hclean
  | fork hi hregs hframe hrun => exact h.fork hi hregs hframe hrun hclean
  | store hi hva htr _ hw => exact ⟨lay, h.store hi hva htr hw⟩
  | kernel hm hareas => exact ⟨lay, h.kernel hm hareas⟩

theorem Step.trace_suffix (hs : Step img s a t) : s.trace <:+ t.trace := by
  cases hs with
  | switch _ hrun => exact (((grows_switchTo _).run s).of_ok hrun).trace
  | fault _ hrun => exact (((grows_doPageFault _).run s).of_ok hrun).trace
  | fork _ _ _ hrun => exact (((grows_doCowFork _).run s).of_ok hrun).trace
  | store => exact List.suffix_refl _
  | kernel => exact List.suffix_refl _

end Steps

section Reachable
variable {img : Image} {ok : KState → Act → Prop} {s : KState}

/-- What holds after `task_init` and is kept by the steps that are allowed holds in every state reached. -/
theorem Reachable.rule {P : Layout → KState → Prop} (h : Reachable img ok s) (hclean : TablesClean s.trace)
    (hstart : ∀ m lay t, Started img m lay t → AreasBelow t → P lay t)
    (hstep : ∀ lay t a lay' u, RunInv img lay t → P lay t → ok t a → Stepped img lay t a lay' u →
      RunInv img lay' u → P lay' u) : ∃ lay, RunInv img lay s ∧ P lay s := by
  induction h with
  | start hready hrun hbelow =>
      obtain ⟨lay, hs, -⟩ := (taskInit_spec hready).of_ok hrun
      exact ⟨lay, hs.runInv hbelow, hstart _ lay _ hs hbelow⟩
  | step _ hok hs ih =>
      obtain ⟨lay, hinv, hp⟩ := ih (hclean.suffix hs.trace_suffix)
      obtain ⟨lay', hstepped, hinv'⟩ := hinv.step hs hclean
      exact ⟨lay', hinv', hstep lay _ _ lay' _ hinv hp hok hstepped hinv'⟩

theorem Reachable.inv (h : Reachable img ok s) (hclean : TablesClean s.trace) : ∃ lay, RunInv img lay s := by
  obtain ⟨lay, hinv, -⟩ := h.rule (P := fun _ _ => True) hclean (fun _ _ _ _ _ => trivial)
    fun _ _ _ _ _ _ _ _ _ _ => trivial
  exact ⟨lay, hinv⟩

end Reachable

end ZjuOs
