import ZjuOs.VmaList

/-! `do_fork`: the list of areas that the child gets, and what becomes of the parent's. -/
namespace ZjuOs
open Memory Exec Radix

/-- What `do_fork` copies of an area. -/
def VmArea.copied (a : VmArea) : Nat × Nat × Nat × Nat × Nat :=
  (a.vm_start, a.vm_end, a.vm_flags, a.vm_pgoff, a.vm_filesz)

/-- From `s` to `t` the task in slot `j` has got a list of its own with each area of the list `l`, whose nodes
are as they were. -/
structure DeepCopied (img : Image) (s t : KState) (j : Nat) (l : List Nat) : Prop where
  child : ∃ c l', t.task j = framePtr c ∧ Doubly img t c l' ∧ (∀ p ∈ l', ∃ f, p = framePtr f ∧ s.ref f = 0) ∧
    (l'.map fun p => (t.vma p).copied).Perm (l.map fun p => (s.vma p).copied)
  parent : ∀ p ∈ l, t.vma p = s.vma p

/-- The node at frame `f` is in use, and another node is before it. -/
structure Preceded (img : Image) (f : Nat) (s : KState) : Prop where
  pages : s.Pages img
  ram : img.Ram f
  live : s.ref f ≠ 0
  prev : (s.vma (framePtr f)).vm_prev ≠ 0

section Child
variable {img : Image} {lay : Layout} {s t : KState} {i j c d w regs : Nat}

/-- A store in the page of the new task, above the head of its list. -/
theorem Spawned.store (hs : Spawned img s t j c d w) {o : Nat} (hlo : TASK_MM + 8 ≤ o) (hhi : o + 8 ≤ 4096) (v : Nat) :
    Spawned img s (t.withMem (sd 8 t.mem (c * 4096 + o) v)) j c d w := by
  simp only [TASK_MM] at hlo
  have hframe : ∀ f, f ≠ c → SameFrame (sd 8 t.mem (c * 4096 + o) v) t.mem f := by
    intro f hf
    refine sameFrame_sd fun p hp => ?_
    omega
  exact
    { hs with
      frame := fun f hc hd => (hframe f hc).trans (hs.frame f hc hd)
      pgd := by
        rw [KState.withMem_mem, ld_sd_of_disjoint (by simp only [TASK_PGD]; omega)]
        exact hs.pgd
      mm := by
        rw [KState.withMem_mem, ld_sd_of_disjoint (by simp only [TASK_MM]; omega)]
        exact hs.mm
      kernel := fun o ho => (hframe d hs.ne.symm o ho).trans (hs.kernel o ho)
      sparing := hs.sparing.trans <| .withMem fun f _ h0 => hframe f <| by
        rintro rfl
        rw [hs.refPage] at h0
        cases h0 }

theorem Spawned.ends_store {Q : Unit → KState → Prop} {E : Halt → KState → Prop} {o v : Nat} (hs : Spawned img s t j c d w)
    (ho : TASK_MM + 8 ≤ o ∧ o + 8 ≤ 4096) (hQ : ∀ u, Spawned img s u j c d w → Q () u) :
    Ends (storeWord img (framePtr c + o) v) t Q E :=
  (ends_storeWord hs.ramPage ho.2).mpr (hQ _ (hs.store ho.1 ho.2 v))

/-- The new root table is cleared and then copied from the kernel's. -/
theorem ends_newRoot {α : Type} {f : Unit → K α} {m : Mem} {Q : α → KState → Prop} {E : Halt → KState → Prop}
    (hd : img.Ram d) (hne : d ≠ img.swapperFrame)
    (hQ : ∀ m', (∀ g, g ≠ d → SameFrame m' m g) →
      (∀ o, o < 4096 → m' (d * 4096 + o) = m (img.swapperFrame * 4096 + o)) → Ends (f ()) (t.withMem m') Q E) :
    Ends (memset img (framePtr d) 0 PGSIZE >>= fun _ => memcpy img (framePtr d) img.swapperPgDir PGSIZE >>= f)
      (t.withMem m) Q E := by
  have hfill : ∀ g, g ≠ d → SameFrame (fill m (d * 4096 + 0) PGSIZE 0) m g := fun g hg =>
    sameFrame_fill (by decide) hg.symm
  refine ends_bind.mpr ?_
  nth_rewrite 1 [← Nat.add_zero (framePtr d)]
  rw [ends_memset hd (by decide), swapperPgDir_eq, KState.withMem_withMem, KState.withMem_mem]
  refine ends_bind.mpr ((ends_copyFrame hd (swapperFrame_ram img) hne).mpr ?_)
  rw [KState.withMem_withMem, KState.withMem_mem]
  refine hQ _ (fun g hg => (sameFrame_copy_start (Nat.le_refl _) hg.symm).trans (hfill g hg)) fun o ho => ?_
  rw [copy_inside (by simp only [PGSIZE]; omega), Nat.add_sub_cancel_left]
  exact hfill _ hne.symm o ho

theorem forkChild_spec (h : Paging img lay s) (hr : Running lay s i) (hidle : s.task 0 ≠ 0)
    (hregs : regs < 2 ^ 64) (hframe : InFrame regs) :
    Ends (forkChild img regs) s
      (fun o t => (o = none ∧ (∀ j, j < NR_TASKS → s.task j ≠ 0) ∧ t.vma = s.vma) ∨
        ∃ j c d, o = some (framePtr c, j) ∧ Spawned img s t j c d (mmapOf lay s i))
      fun e t => (e = .null ∧ OutOfPages img t) ∨ regs ≠ framePtr (lay.page i) + regs % 4096 := by
  have ok := h.task i hr.pos hr.lt hr.some
  have hpram := (h.held _ (by rw [ok.page]; exact Role.noConfusion)).1
  obtain ⟨hlo, hhi⟩ := hframe
  simp only [PGSIZE, REGS_SIZE, TASK_MM] at hlo hhi
  rw [forkChild]
  refine ends_bind.mpr ((allocPage_spec h.pages).mono ?_ fun _ _ hno => hno.elim)
  rintro p u (⟨rfl, rfl, hfull⟩ | ⟨c, rfl, htaken⟩)
  · refine ends_bind.mpr (ends_notNull.mpr ?_)
    rw [if_pos rfl]
    exact .inl ⟨rfl, hfull⟩
  have hcp : c ≠ lay.page i := (htaken.ne h (by rw [ok.page]; exact Role.noConfusion)).symm
  refine ends_bind.mpr (ends_notNull.mpr ?_)
  rw [if_neg (framePtr_ne_zero c)]
  refine ends_bind.mpr (ends_get.mpr (ends_bind.mpr ?_))
  rw [htaken.tasks.current, hr.current, ok.ptr, ends_copyFrame htaken.ram hpram hcp]
  have hpage : ChildPage s (copy u.mem (c * 4096) (lay.page i * 4096) PGSIZE) c (mmapOf lay s i) := by
    refine ⟨fun f hf => (sameFrame_copy_start (Nat.le_refl _) hf.symm).trans (by rw [htaken.mem]; exact .refl _ _), ?_⟩
    refine ld_shift fun o ho => ?_
    rw [copy_inside (by simp only [PGSIZE, TASK_MM]; omega), Nat.add_assoc (lay.page i * 4096), ← htaken.mem,
      Nat.add_assoc, Nat.add_sub_cancel_left]
  generalize copy u.mem (c * 4096) (lay.page i * 4096) PGSIZE = m at hpage ⊢
  refine ends_bind.mpr ?_
  rw [takeSlot, ends_bind, ends_get]
  have htask : (u.withMem m).task = s.task := htaken.tasks.task
  rw [htask]
  cases hslot : freeSlot s.task with
  | none =>
      rw [ends_pure, ends_pure]
      exact .inl ⟨rfl, fun j hj => freeSlot_none hslot hj, htaken.tasks.vma⟩
  | some j =>
      obtain ⟨hj1, hj9, hzero⟩ := freeSlot_some hslot hidle
      have hchild := childFrame_eq htaken.ram hregs
      rw [ends_bind, ends_modify, ends_pure]
      change Ends _ ((u.enter j (framePtr c)).withMem m) _ _
      dsimp only
      rw [hchild, Nat.add_assoc, Nat.add_assoc, Nat.add_assoc]
      refine ends_bind.mpr (ends_storeChild htaken.ram hpage (by decide) (by decide) fun m₁ h₁ => ?_)
      refine ends_bind.mpr (ends_storeChild htaken.ram h₁ (by decide) (by decide) fun m₂ h₂ => ?_)
      refine ends_bind.mpr (ends_storeChild htaken.ram h₂ (by decide) (by decide) fun m₃ h₃ => ?_)
      have hpages : ((u.enter j (framePtr c)).withMem m₃).Pages img := htaken.pages
      refine ends_bind.mpr ((allocPage_spec hpages).mono ?_ fun _ _ hno => hno.elim)
      rintro q v (⟨rfl, rfl, hfull⟩ | ⟨d, rfl, hd⟩)
      · refine ends_bind.mpr ((ends_storeWord htaken.ram (by decide)).mpr (ends_bind.mpr (ends_notNull.mpr ?_)))
        rw [if_pos rfl]
        exact .inl ⟨rfl, hfull⟩
      refine ends_bind.mpr ((ends_storeWord htaken.ram (by decide)).mpr (ends_bind.mpr (ends_notNull.mpr ?_)))
      rw [if_neg (framePtr_ne_zero d)]
      have hmem : v.mem = m₃ := hd.mem
      rw [hmem]
      refine ends_newRoot hd.ram hd.ne_swapper fun m₄ hframe₄ hkernel => ?_
      have henrolled : Enrolled s u ((u.enter j (framePtr c)).withMem m₃) j (framePtr c) :=
        ⟨by rw [KState.withMem_task, KState.enter_task, htaken.tasks.task], htaken.tasks.current, htaken.tasks.idle,
          htaken.tasks.satp, htaken.tasks.vma, rfl, htaken.trace⟩
      have hspawn : Spawned img s (v.withMem m₄) j c d (mmapOf lay s i) :=
        .of_root htaken hj1 hj9 hzero henrolled hd h₃ hframe₄ hkernel
      have hin : ∀ o, o + 8 ≤ REGS_SIZE → TASK_MM + 8 ≤ regs % 4096 + o ∧ regs % 4096 + o + 8 ≤ 4096 := by
        intro o ho
        simp only [REGS_SIZE, TASK_MM] at *
        omega
      have ha0 := hin REGS_A0 (by decide)
      have hsp := hin REGS_SP (by decide)
      have hsepc := hin REGS_SEPC (by decide)
      refine ends_bind.mpr (hspawn.ends_store ha0 fun v₁ hv₁ => ends_bind.mpr ((ends_loadWord htaken.ram hsp.2).mpr ?_))
      refine ends_bind.mpr (ends_get.mpr (ends_bind.mpr (hv₁.ends_store hsp fun v₂ hv₂ => ends_bind.mpr ?_)))
      have hload : Ends (loadWord img (regs + REGS_SEPC)) v₂ (fun _ x => x = v₂) fun _ _ =>
          regs ≠ framePtr (lay.page i) + regs % 4096 := by
        by_cases hown : regs = framePtr (lay.page i) + regs % 4096
        · rw [hown, Nat.add_assoc, ← hown]
          exact (ends_loadWord hpram hsepc.2).mpr rfl
        · exact ((keeps_loadWord (P := (· = v₂)) _).run _ rfl).mono (fun _ _ hx => hx) fun _ _ _ => hown
      refine hload.mono ?_ fun _ _ he => .inr he
      rintro sepc _ rfl
      refine ends_bind.mpr (hv₂.ends_store hsepc fun v₃ hv₃ => ?_)
      exact ends_pure.mpr (.inr ⟨j, c, d, rfl, hv₃⟩)

end Child

section Preceded
variable {img : Image} {s t : KState} {f g : Nat}

theorem Preceded.taken (h : Preceded img f s) (ht : Taken img s t g) : Preceded img f t where
  pages := ht.pages
  ram := h.ram
  live := by
    rw [ht.ref h.ram h.live]
    exact h.live
  prev := by
    rw [ht.tasks.vma]
    exact h.prev

theorem blind_preceded (img : Image) (f : Nat) : Blind (Preceded img f) where
  withMem := fun s m h => { h with }
  log := fun s e h => { h with }
  allocPage := ⟨fun s h => (allocPage_spec h.pages).mono (fun p t ht => by
    rcases ht with ⟨-, rfl, -⟩ | ⟨g, -, ht⟩
    · exact h
    · exact h.taken ht) fun _ _ _ => trivial⟩

/-- Every node that `do_mmap` writes back to another node gets a back pointer. -/
theorem keeps_preceded (mm addr len pgoff filesz flags : Nat) :
    Keeps (Preceded img f) (doMmap img mm addr len pgoff filesz flags) := by
  refine ⟨fun s h => ?_⟩
  rw [doMmap]
  refine ends_bind.mpr ((allocPage_spec h.pages).mono ?_ fun _ _ hno => hno.elim)
  rintro p u (⟨rfl, rfl, -⟩ | ⟨g, rfl, ht⟩)
  · exact ends_bind.mpr (ends_notNull.mpr trivial)
  refine ends_bind.mpr (ends_notNull.mpr ?_)
  rw [if_neg (framePtr_ne_zero g)]
  refine ends_bind.mpr (((keeps_loadWord (P := (· = u)) mm).run u rfl).mono ?_ fun _ _ _ => trivial)
  rintro w _ rfl
  refine ends_bind.mpr (ends_modify.mpr (ends_bind.mpr (((blind_preceded img f).storeWord ..).run _ ?_ |>.mono
    (fun _ _ hx => ends_pure.mpr hx) fun _ _ _ => trivial)))
  have hu := h.taken ht
  have hne : framePtr f ≠ framePtr g := fun he => h.live (framePtr_inj he ▸ ht.free)
  refine ⟨hu.pages, hu.ram, hu.live, ?_⟩
  dsimp only
  rw [Function.update_of_ne hne]
  by_cases hw : w = 0
  · rw [if_pos hw]
    exact hu.prev
  · rw [if_neg hw, Function.update_apply]
    split
    · exact framePtr_ne_zero g
    · exact hu.prev

end Preceded

section Fork
variable {img : Image} {lay : Layout} {s t : KState} {i j c d w regs : Nat} {l : List Nat}

/-- The visit of an area by `do_fork`. -/
theorem keeps_visit {P : KState → Prop} (hP : Blind P) (child : Nat)
    (hmmap : ∀ mm addr len pgoff filesz flags, Keeps P (doMmap img mm addr len pgoff filesz flags)) (area : VmArea) :
    Keeps P (do
      let _ ← doMmap img (child + TASK_MM) area.vm_start ((area.vm_end + (2 ^ 64 - area.vm_start)) % 2 ^ 64)
        area.vm_pgoff area.vm_filesz area.vm_flags
      forValidPages img (fun va => copyPage img child va area.vm_flags) (2 ^ 52) (PGROUNDDOWN area.vm_start) area.vm_end) :=
  keeps_bind (hmmap ..) fun _ => keeps_forValidPages (fun _ => hP.copyPage ..) ..

/-- The first round of the list loop links the first node of the parent's list back to the child's. -/
theorem fork_links (hs : Spawned img s t j c d w) {f fuel : Nat} (hw : w = framePtr f) (hf : img.Ram f) (hlive : s.ref f ≠ 0)
    (hfuel : 0 < fuel) :
    Ends (forAreas (fun area => do
      let _ ← doMmap img (framePtr c + TASK_MM) area.vm_start ((area.vm_end + (2 ^ 64 - area.vm_start)) % 2 ^ 64)
        area.vm_pgoff area.vm_filesz area.vm_flags
      forValidPages img (fun va => copyPage img (framePtr c) va area.vm_flags) (2 ^ 52) (PGROUNDDOWN area.vm_start)
        area.vm_end) fuel w) t (fun _ u => Preceded img f u) fun _ _ => True := by
  obtain ⟨fuel, rfl⟩ := Nat.exists_eq_succ_of_ne_zero (Nat.ne_of_gt hfuel)
  have hblind := blind_preceded img f
  have hrest : ∀ ptr, Keeps (Preceded img f) (forAreas _ fuel ptr) :=
    keeps_forAreas (keeps_visit hblind (framePtr c) keeps_preceded) fuel
  rw [forAreas, if_neg (by rw [hw]; exact framePtr_ne_zero f)]
  refine ends_bind.mpr (ends_get.mpr (ends_bind.mpr (ends_bind.mpr ((doMmap_link hs.pages hs.ramPage).mono ?_ fun _ _ _ => trivial))))
  rintro _ u ⟨-, g, a, -, hm, hvma⟩
  have hlive' : t.ref f ≠ 0 := by
    rw [hs.ref f hf hlive]
    exact hlive
  have hne : framePtr f ≠ framePtr g := fun he => hlive' (framePtr_inj he ▸ hm.free)
  have hu : Preceded img f u := by
    refine ⟨hm.pages, hf, by rw [hm.live hf hlive']; exact hlive', ?_⟩
    rw [hvma, KState.link_vma, hs.mm, hw, if_neg (framePtr_ne_zero f), Function.update_of_ne hne, Function.update_self]
    exact framePtr_ne_zero g
  refine ((keeps_forValidPages (fun va => hblind.copyPage ..) ..).run u hu).mono ?_ fun _ _ _ => trivial
  intro _ v hv
  exact ends_bind.mpr (ends_get.mpr ((hrest _).run v hv))

/-- How `do_fork` ends with the list `l` of the parent. -/
theorem doFork_links (h : Paging img lay s) (hr : Running lay s i) (hidle : s.task 0 ≠ 0)
    (hl : NodeList img s (mmapOf lay s i) l) (hregs : regs < 2 ^ 64) (hframe : InFrame regs) :
    Ends (doFork img regs) s
      (fun n t => (n = -1 ∧ (∀ j, j < NR_TASKS → s.task j ≠ 0) ∧ t.vma = s.vma) ∨ ∃ j : Nat, n = j ∧ ((l = [] ∧ ∃ c d, Spawned img s t j c d 0) ∨
        ∃ f l', l = framePtr f :: l' ∧ Preceded img f t)) fun _ _ => True := by
  rw [doFork]
  refine ends_bind.mpr ((forkChild_spec h hr hidle hregs hframe).mono ?_ fun _ _ _ => trivial)
  rintro o u (⟨rfl, hfull, hvma⟩ | ⟨j, c, d, rfl, hs⟩)
  · exact ends_pure.mpr (.inl ⟨rfl, hfull, hvma⟩)
  have hij : i ≠ j := by
    rintro rfl
    exact hr.some hs.empty
  have ok := h.task i hr.pos hr.lt hr.some
  have hrole := hs.role h (f := lay.page i) (by rw [ok.page]; exact Role.noConfusion)
  have hpram := (h.held _ (by rw [ok.page]; exact Role.noConfusion)).1
  have hmm : ld 8 u.mem (lay.page i * 4096 + TASK_MM) = mmapOf lay s i :=
    (hs.frame _ hrole.1 hrole.2.1).ld (by decide)
  dsimp only
  refine ends_bind.mpr (ends_get.mpr ?_)
  rw [hs.current, hr.current, ok.ptr]
  refine ends_bind.mpr ((ends_loadWord hpram (by decide)).mpr ?_)
  rw [hmm]
  refine ends_bind.mpr ?_
  cases l with
  | nil =>
      have hzero : mmapOf lay s i = 0 := hl.chain
      rw [hzero] at hs ⊢
      obtain ⟨fuel, hfuel⟩ : ∃ fuel, 2 ^ 64 = fuel + 1 := ⟨2 ^ 64 - 1, rfl⟩
      rw [hfuel, forAreas, if_pos rfl]
      exact ends_pure.mpr (ends_pure.mpr (.inr ⟨j, rfl, .inl ⟨rfl, c, d, hs⟩⟩))
  | cons p l =>
      obtain ⟨hp, -, -⟩ := hl.chain
      obtain ⟨f, hf, hram, href⟩ := hl.node p List.mem_cons_self
      rw [hf] at hp
      refine (fork_links hs hp hram href (Nat.two_pow_pos 64)).mono ?_ fun _ _ _ => trivial
      exact fun _ v hv => ends_pure.mpr (.inr ⟨j, rfl, .inr ⟨f, l, by rw [hf], hv⟩⟩)

theorem Preceded.not_deepCopied {f : Nat} (hf : Preceded img f t) (hback : BackLinks s.vma 0 (framePtr f :: l)) :
    ¬ DeepCopied img s t j (framePtr f :: l) := fun hd => hf.prev (by
  rw [hd.parent _ List.mem_cons_self]
  exact hback.1)

/-- The new list is the copy that it should be exactly when the parent has no area. -/
theorem doFork_deepCopied (h : Paging img lay s) (hr : Running lay s i) (hidle : s.task 0 ≠ 0)
    (hl : NodeList img s (mmapOf lay s i) l) (hback : BackLinks s.vma 0 l) (hregs : regs < 2 ^ 64) (hframe : InFrame regs) :
    Ends (doFork img regs) s
      (fun n t => (n = -1 ∧ (∀ j, j < NR_TASKS → s.task j ≠ 0) ∧ t.vma = s.vma) ∨
        ∃ j : Nat, n = j ∧ (DeepCopied img s t j l ↔ l = [])) fun _ _ => True := by
  refine (doFork_links h hr hidle hl hregs hframe).mono (fun n t ht => ht.imp_right ?_) fun _ _ _ => trivial
  rintro ⟨j, rfl, ⟨rfl, c, d, hs⟩ | ⟨f, l', rfl, hf⟩⟩
  · refine ⟨j, rfl, iff_of_true ⟨⟨c, [], ?_, ?_, List.forall_mem_nil _, .nil⟩, List.forall_mem_nil _⟩ rfl⟩
    · rw [hs.task, Function.update_self]
    · exact ⟨⟨hs.mm, List.nodup_nil, List.forall_mem_nil _⟩, trivial, List.forall_mem_nil _⟩
  · refine ⟨j, rfl, iff_of_false (hf.not_deepCopied hback) (List.cons_ne_nil _ _)⟩

end Fork

section Unmapped
variable {img : Image} {lay : Layout} {s t u : KState} {i c regs : Nat} {l done : List Nat}

theorem SameArea.trans {a b d : VmArea} (h : SameArea a b) (h' : SameArea b d) : SameArea a d := by
  obtain ⟨p, rfl⟩ := h
  obtain ⟨q, rfl⟩ := h'
  exact ⟨q, rfl⟩

/-- The list loop of a fork of task `i`, which has no page mapped, has been through the nodes `done` of its list `l`. -/
structure ForkRun (img : Image) (lay : Layout) (s : KState) (i : Nat) (l : List Nat) (t : KState) (done : List Nat) : Prop where
  paging : Paging img lay t
  running : Running lay t i
  unmapped : ∀ va, UserVa va → leafPte t.mem (lay.root i) va = none
  areas : ∀ p ∈ l, SameArea (s.vma p) (t.vma p)
  node : ∀ p ∈ l, ∃ f, p = framePtr f ∧ img.Ram f ∧ t.ref f ≠ 0
  within : Within done.length s t

theorem ForkRun.mmapped (h : ForkRun img lay s i l t done) {g : Nat} {a : VmArea} (hm : Mmapped img t u c g a)
    (hw : Within 1 t u) (hc : lay.role c = .task) (p : Nat) : ForkRun img lay s i l u (done ++ [p]) where
  paging := hm.paging h.paging hc
  running :=
    { pos := h.running.pos
      lt := h.running.lt
      some := by rw [hm.task]; exact h.running.some
      current := by rw [hm.current, hm.task]; exact h.running.current
      satp := by rw [hm.satp]; exact h.running.satp }
  unmapped := fun va hva => by
    rw [h.paging.leafPte_congr (hm.keepsTables h.paging hc) (h.paging.task_ok h.running.live).root hva]
    exact h.unmapped va hva
  areas := fun q hq => by
    refine (h.areas q hq).trans (hm.rest q ?_)
    rintro rfl
    obtain ⟨f, hf, -, href⟩ := h.node _ hq
    exact href (framePtr_inj hf ▸ hm.free)
  node := fun q hq => by
    obtain ⟨f, hf, hram, href⟩ := h.node q hq
    exact ⟨f, hf, hram, by rw [hm.live hram href]; exact href⟩
  within := by
    refine h.within.trans hw ?_
    rw [List.length_append, List.length_singleton]

/-- With no page mapped the page loop visits none. -/
theorem ends_forUnmapped {visit : Nat → K Unit} {k va stop fuel : Nat} (h : Paging img lay t) (hr : Running lay t i)
    (hnone : ∀ va, UserVa va → leafPte t.mem (lay.root i) va = none) (hgrows : ∀ va, Grows k (visit va))
    (halign : va % PGSIZE = 0) (hstop : stop ≤ USER_END) (hfuel : rounds va stop < fuel) :
    Spec True (forValidPages img visit fuel va stop) t (fun _ u => u = t) fun _ _ => False := by
  have ok := h.task_ok hr.live
  have hram := h.page_ram hr.live
  have hrule : PageRule True img visit (fun _ => false) (fun u done => u = t ∧ done = []) (fun _ _ => False) [] := by
    constructor
    case grows => exact ⟨k, hgrows⟩
    case check =>
      rintro _ _ va ⟨rfl, -⟩ hva
      have huser : UserVa va := .of_lt (by simp only [PGSIZE, USER_END] at hva; omega)
      rw [ends_bind, ends_get, ends_bind, hr.current, ok.ptr, ends_loadWord hram (by decide), ok.pgd]
      refine (checkValid_spec h ok.root huser).mono (fun v u hv => ⟨hv.1, ?_⟩) fun _ _ hno => hno
      rw [hv.2, hnone va huser]
      rfl
    case visit =>
      intro _ _ _ _ _ _ hno
      cases hno
  have hspec := hrule.spec ⟨rfl, rfl⟩ halign hstop hfuel (by rw [List.filter_false]; exact List.prefix_rfl)
  exact hspec.mono (fun _ _ hu => hu.1) fun _ _ hno => hno

theorem grows_copyPage (child va flags : Nat) : Grows 3 (copyPage img child va flags) :=
  grows_add grows_allocPage (fun _ => grows_bind (grows_notNull _) fun _ => grows_bind (grows_memset ..) fun _ =>
    grows_bind (grows_memcpy ..) fun _ => grows_bind (grows_loadWord _) fun _ => grows_createMapping ..) le_rfl

theorem grows_forkChild (regs : Nat) : Grows 2 (forkChild img regs) := by
  refine grows_add (k := 1) grows_allocPage (fun _ => grows_bind (grows_notNull _) fun _ =>
    grows_bind grows_get fun _ => grows_bind (grows_memcpy ..) fun _ => grows_bind (grows_takeSlot _) fun o => ?_) le_rfl
  cases o with
  | none => exact grows_pure _
  | some pid =>
      refine grows_bind (grows_storeWord ..) fun _ => grows_bind (grows_storeWord ..) fun _ =>
        grows_bind (grows_storeWord ..) fun _ => grows_last grows_allocPage fun _ => ?_
      exact grows_bind (grows_storeWord ..) fun _ => grows_bind (grows_notNull _) fun _ =>
        grows_bind (grows_memset ..) fun _ => grows_bind (grows_memcpy ..) fun _ =>
          grows_bind (grows_storeWord ..) fun _ => grows_bind (grows_loadWord _) fun _ => grows_bind grows_get fun _ =>
            grows_bind (grows_storeWord ..) fun _ => grows_bind (grows_loadWord _) fun _ =>
              grows_bind (grows_storeWord ..) fun _ => grows_pure _

/-- The list loop of a task without mapped pages. -/
theorem forkLoop (h : Paging img lay s)
    (hc : lay.role c = .task) (hl : AreaList img s (mmapOf lay s i) l) :
    AreaRule True (fun area => do
      let _ ← doMmap img (framePtr c + TASK_MM) area.vm_start ((area.vm_end + (2 ^ 64 - area.vm_start)) % 2 ^ 64)
        area.vm_pgoff area.vm_filesz area.vm_flags
      forValidPages img (fun va => copyPage img (framePtr c) va area.vm_flags) (2 ^ 52) (PGROUNDDOWN area.vm_start) area.vm_end)
      (fun p => (s.vma p).vm_next) (fun p => [p]) (ForkRun img lay s i l)
      (fun e t => e = .null ∧ OutOfPages img t ∧ Within l.length s t) l l := by
  have hram := (h.held c (by rw [hc]; exact Role.noConfusion)).1
  refine ⟨⟨_, fun a => grows_add (grows_doMmap ..) (fun _ => grows_forValidPages (fun _ => grows_copyPage ..) ..) le_rfl⟩,
    fun t done p ht hp => ?_, fun t done p ht hp hall => ?_⟩
  · obtain ⟨b, hb⟩ := ht.areas p hp
    rw [hb]
  have hlen := hall.length_le
  rw [List.length_append, List.length_singleton] at hlen
  have hmmap : ∀ addr len pgoff filesz flags, Ends (doMmap img (framePtr c + TASK_MM) addr len pgoff filesz flags) t
      (fun _ u => (∃ g a, Mmapped img t u c g a) ∧ Within 1 t u)
      fun e u => e = .null ∧ OutOfPages img u ∧ Within l.length s u := fun addr len pgoff filesz flags => by
    refine ((doMmap_spec ht.paging.pages hram).and ((grows_doMmap ..).run t)).mono ?_ ?_
    · rintro _ u ⟨⟨-, g, hm⟩, hw⟩
      exact ⟨⟨g, _, hm⟩, hw⟩
    · rintro e _ ⟨⟨he, rfl, hfull⟩, hw⟩
      exact ⟨he, hfull, ht.within.trans hw hlen⟩
  refine Spec.bind (k := 3 * 2 ^ 52) (.of_ends (hmmap ..)) (fun _ => grows_forValidPages (fun _ => grows_copyPage ..) ..) ?_
  rintro _ u ⟨⟨g, a, hm⟩, hw⟩
  have hu := ht.mmapped hm hw hc p
  obtain ⟨b, hb⟩ := ht.areas p hp
  have hend := hl.below p hp
  rw [hb]
  dsimp only
  refine Spec.mono (ends_forUnmapped hu.paging hu.running hu.unmapped (fun va => grows_copyPage ..) ?_ hend ?_)
    (fun _ v hv => hv ▸ hu) fun _ _ hno => hno.elim
  · simp only [PGROUNDDOWN, PGSIZE]
    omega
  · simp only [rounds, PGSIZE, USER_END] at *
    omega

/-- A fork of a task without mapped pages returns as long as there are frames for the child's page, its root table and
its areas. -/
theorem doFork_returns (h : Paging img lay s) (hr : Running lay s i) (hidle : s.task 0 ≠ 0)
    (hl : AreaList img s (mmapOf lay s i) l) (hregs : regs < 2 ^ 64) (hframe : InFrame regs)
    (hown : regs = framePtr (lay.page i) + regs % 4096) (hnone : ∀ va, UserVa va → leafPte s.mem (lay.root i) va = none) :
    Spec True (doFork img regs) s (fun _ _ => True)
      fun e t => e = .null ∧ OutOfPages img t ∧ Within (2 + l.length) s t := by
  rw [doFork]
  refine ends_bind.mpr (((forkChild_spec h hr hidle hregs hframe).and ((grows_forkChild regs).run s)).mono ?_ ?_)
  rotate_left
  · rintro e t ⟨⟨he, hfull⟩ | hno, hw⟩
    · exact fun _ => ⟨he, hfull, hw.mono (Nat.le_add_right 2 _)⟩
    · exact absurd hown hno
  rintro o u ⟨⟨rfl, -⟩ | ⟨j, c, d, rfl, hs⟩, hw⟩
  · exact Spec.pure trivial
  have hij : i ≠ j := by
    rintro rfl
    exact hr.some hs.empty
  have hp := hs.paging h
  have hrun := hs.running hr
  have ok := h.task_ok hr.live
  have hrole := hs.role h (f := lay.page i) (by rw [ok.page]; exact Role.noConfusion)
  have hmm : ld 8 u.mem (lay.page i * 4096 + TASK_MM) = mmapOf lay s i :=
    (hs.frame _ hrole.1 hrole.2.1).ld (by decide)
  have hpage : (lay.spawn j c d).page i = lay.page i := Function.update_of_ne hij ..
  have hroot : (lay.spawn j c d).root i = lay.root i := Function.update_of_ne hij ..
  have hlu : AreaList img u (mmapOf (lay.spawn j c d) u i) l := by
    rw [mmapOf, hpage, hmm]
    exact hl.mono hs.vma fun f hf hne => by rw [hs.ref f hf hne]; exact hne
  have hstart : ForkRun img (lay.spawn j c d) u i l u [] :=
    { paging := hp
      running := hrun
      unmapped := fun va hva => by
        rw [hroot, hs.leaves h ok.root hva]
        exact hnone va hva
      areas := fun _ _ => .refl _
      node := hlu.node
      within := .of_eq rfl rfl }
  dsimp only
  refine ends_bind.mpr (ends_get.mpr ?_)
  rw [hs.current, hr.current, ok.ptr]
  refine ends_bind.mpr ((ends_loadWord (h.page_ram hr.live) (by decide)).mpr ?_)
  rw [hmm]
  have hchain : Chain (fun p => (u.vma p).vm_next) (mmapOf lay s i) l := by
    rw [hs.vma]
    exact hl.chain
  have hlen := hl.length_le
  refine Spec.bind (k := 0) (((forkLoop hp (Layout.role_spawn_page hs.ne) hlu).spec (fun _ hq => hq) hstart hchain
    (by omega) ?_).mono (fun _ _ hv => hv) fun _ _ he => ⟨he.1, he.2.1, hw.trans he.2.2 le_rfl⟩) (fun _ => grows_pure _)
    fun _ v _ => Spec.pure trivial
  rw [List.nil_append, List.flatMap_singleton']

end Unmapped

section Board

/-- Task 1 when it first runs on the board, with its list of areas. -/
theorem board_linked : ∃ lay s l, Loaded boardMem boardSegments lay s 5 ∧ s.Runs 1 ∧ Doubly board s (lay.page 1) l ∧
    AreaList board s (mmapOf lay s 1) l ∧ l.length = 3 := by
  obtain ⟨lay, s, l, hs, hruns, hl⟩ := bootMem_board.linked (n := 5) (by decide)
  obtain ⟨l', hl', hareas⟩ := hs.areas
  obtain rfl := hl.chain.unique hl'.chain
  exact ⟨lay, s, l, hs, hruns, hl, hl', hareas.length_eq.symm⟩

theorem doFork_deepCopied_board : ∃ s l regs, Reachable board (fun _ _ => True) s ∧ l.length = 3 ∧
    Ends (doFork board regs) s
      (fun n t => (n = -1 ∧ (∀ j, j < NR_TASKS → s.task j ≠ 0) ∧ t.vma = s.vma) ∨
        ∃ j : Nat, n = j ∧ (DeepCopied board s t j l ↔ l = [])) fun _ _ => True := by
  obtain ⟨lay, s, l, hs, hruns, hl, hareas, hlen⟩ := board_linked
  have hinv := hs.room.inv
  obtain ⟨hregs, hframe⟩ := topFrame (hinv.paging.page_ram hruns.1)
  exact ⟨s, l, _, hs.reach _ fun _ _ => trivial, hlen, doFork_deepCopied hinv.paging (hinv.running hruns) hinv.idle_ne
    hareas.toNodeList hl.back hregs hframe⟩

/-- Task 1 forks as soon as it runs: the first node of its list is linked to the child's. -/
theorem doFork_relinks : ∃ s t c l regs, ∃ j : Nat, Reachable board (fun _ _ => True) s ∧ s.Runs 1 ∧ s.task 1 = framePtr c ∧
    Doubly board s c l ∧ (doFork board regs).run s = .ok (j : Int) t ∧ ¬ DeepCopied board s t j l := by
  obtain ⟨lay, s, l, hs, hruns, hl, hareas, hlen⟩ := board_linked
  have hinv := hs.room.inv
  have hr := hinv.running hruns
  have hram := hinv.paging.page_ram hruns.1
  obtain ⟨hregs, hframe⟩ := topFrame hram
  have hown : framePtr (lay.page 1) + 0xee0 = framePtr (lay.page 1) + (framePtr (lay.page 1) + 0xee0) % 4096 := by
    simp only [framePtr, PGSIZE, PA2VA_OFFSET]
    omega
  have hnone : ∀ va, UserVa va → leafPte s.mem (lay.root 1) va = none := fun va hva => by
    rw [← hinv.paging.userPte_va hruns.1 hva, hs.unmapped]
  have hret := doFork_returns hinv.paging hr hinv.idle_ne hareas hregs hframe hown hnone
  have hlinks := doFork_links hinv.paging hr hinv.idle_ne hareas.toNodeList hregs hframe
  cases hrun : (doFork board (framePtr (lay.page 1) + 0xee0)).run s with
  | error e t =>
      obtain ⟨-, hfull, hw⟩ := hret.of_error hrun (.inl trivial)
      rw [hlen] at hw
      exact absurd hfull (hs.room.not_full hw le_rfl)
  | ok n t =>
      rcases hlinks.of_ok hrun with ⟨-, hfull, -⟩ | ⟨j, rfl, ⟨rfl, -⟩ | ⟨f, l', rfl, hf⟩⟩
      · exact absurd ((hs.alone 2 (by decide)).mp (hfull 2 (by decide))) (by decide)
      · cases hlen
      · exact ⟨s, t, _, _, _, j, hs.reach _ fun _ _ => trivial, hruns, (hinv.paging.task_ok hruns.1).ptr, hl, hrun,
          hf.not_deepCopied hl.back⟩

end Board

end ZjuOs
