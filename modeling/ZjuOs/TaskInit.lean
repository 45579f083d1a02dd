import ZjuOs.Elf
import ZjuOs.Carried

/-! `task_init`: the idle task and the first tasks. -/
namespace ZjuOs
open Memory Exec Radix

/-- Before `task_init`: the allocator has been set up, the user half of the kernel's root table is empty
and there are no tasks. -/
structure Ready (img : Image) (s : KState) : Prop where
  pages : s.Pages img
  swapper : ∀ i : Fin 512, i.val < 384 → tables s.mem img.swapperFrame i % 2 = 0
  task : s.task = fun _ => 0
  number : s.tasksNumber < NR_TASKS

/-- While `task_init` runs, and when it has returned: no user page is mapped, and the tasks have the areas
of the ELF file in the memory `m`. -/
structure Started (img : Image) (m : Mem) (lay : Layout) (s : KState) : Prop where
  paging : Paging img lay s
  unmapped : ∀ f, lay.role f ≠ .data
  image : ∀ f, f < img.firstFree → SameFrame s.mem m f
  lists : ∀ i, s.Live i → ∃ l, NodeList img s (s.mmap i) l ∧
    (ElfInside img m → List.Forall₂ (fun g p => g.At (s.vma p)) (elfSegments img m) l)
  idle : ∃ f, img.Ram f ∧ img.firstFree ≤ f ∧ s.ref f ≠ 0 ∧ lay.role f = .other ∧ s.task 0 = framePtr f ∧ s.current = framePtr f

section Image
variable {img : Image} {m m' : Mem} {va n k : Nat}

theorem Image.Holds.same (hh : img.Holds va n) (hk : k < n)
    (h : ∀ f, f < img.firstFree → SameFrame m m' f) : m (VA2PA va + k) = m' (VA2PA va + k) := by
  have hbelow := hh.below hk
  have hsplit := Nat.div_add_mod (VA2PA va + k) 4096
  have hlt : (VA2PA va + k) / 4096 < img.firstFree := Nat.div_lt_of_lt_mul (by rwa [Nat.mul_comm] at hbelow)
  have hbyte := h _ hlt ((VA2PA va + k) % 4096) (Nat.mod_lt _ (by omega))
  rwa [Nat.mul_comm, hsplit] at hbyte

theorem Image.Holds.ld_same (hh : img.Holds va n) {o k : Nat} (hk : o + k ≤ n)
    (h : ∀ f, f < img.firstFree → SameFrame m m' f) : ld k m (VA2PA va + o) = ld k m' (VA2PA va + o) :=
  ld_shift fun x hx => by
    rw [Nat.add_assoc]
    exact hh.same (by omega) h

/-- The ELF file is read from the kernel image alone. -/
theorem elfSegments_congr (h : ∀ f, f < img.firstFree → SameFrame m m' f) (he : ElfInside img m) :
    ElfInside img m' ∧ elfSegments img m = elfSegments img m' := by
  have hoff := he.1.ld_same (o := 32) (k := 8) (by omega) h
  have hnum := he.1.ld_same (o := 56) (k := 2) (by omega) h
  have hphdrs := he.2
  rw [hoff, hnum] at hphdrs
  refine ⟨⟨he.1, hphdrs⟩, ?_⟩
  rw [elfSegments, elfSegments, hoff, hnum]
  refine congrArg _ (segments_congr fun k hk => ?_)
  have hpa : VA2PA (img.sramdisk + ld 8 m' (VA2PA img.sramdisk + 32)) =
      VA2PA img.sramdisk + ld 8 m' (VA2PA img.sramdisk + 32) := by
    have h1 := he.1
    have hroom := img.room
    simp only [Image.Holds, VA2PA, VM_START, PA2VA_OFFSET] at *
    omega
  have hbyte := hphdrs.same hk h
  rwa [hpa] at hbyte

end Image

section Rounds
variable {img : Image} {lay : Layout} {s t u : KState} {m : Mem} {i c d : Nat} {gs : List Segment} {l : List Nat}

theorem Started.rest_of_spawn (h : Started img m lay s) (hs : Spawned img s t i c d 0) :
    ∀ f, f < img.firstFree → SameFrame t.mem m f := fun f hf =>
  (hs.frame f (by have := hs.abovePage; omega) (by have := hs.aboveRoot; omega)).trans (h.image f hf)

/-- The task in slot `i` has been set up. -/
theorem Started.add (h : Started img m lay s) (hs : Spawned img s t i c d 0) (hm : Mmaps img c t gs l u)
    (hgs : ElfInside img t.mem → gs = elfSegments img t.mem) (v : Nat) :
    Started img m (lay.spawn i c d) (u.withMem (sd 8 u.mem (c * 4096 + THREAD_SEPC) v)) := by
  have hrole : (lay.spawn i c d).role c = .task := Layout.role_spawn_page hs.ne
  have hpt := hs.paging h.paging
  have hpu := hm.paging hpt hrole
  have hsd : ∀ x, x < c * 4096 + THREAD_SEPC ∨ c * 4096 + THREAD_SEPC + 8 ≤ x →
      sd 8 u.mem (c * 4096 + THREAD_SEPC) v x = u.mem x := fun x hx => sd_outside hx
  have hkeep : KeepsTables img (lay.spawn i c d) u (sd 8 u.mem (c * 4096 + THREAD_SEPC) v) := by
    refine hpu.keepsTables_task fun f o ho hout _ => hsd _ ?_
    by_cases hfc : f = c
    · rw [hfc] at hout ⊢
      have := hout hrole
      simp only [TASK_PGD, THREAD_SEPC] at *
      omega
    · simp only [THREAD_SEPC]
      omega
  have hframe : ∀ f, f ≠ c → SameFrame (sd 8 u.mem (c * 4096 + THREAD_SEPC) v) t.mem f := fun f hf o ho => by
    rw [hsd _ (by simp only [THREAD_SEPC]; omega)]
    exact hm.mem (by simp only [TASK_MM]; omega)
  have hlive : ∀ f, img.Ram f → s.ref f ≠ 0 → u.ref f ≠ 0 := fun f hf hne => by
    have ht := hs.ref f hf hne
    rw [hm.live hf (by rw [ht]; exact hne), ht]
    exact hne
  have hpaging := hpu.withMem hkeep
  have hsecp : ld 8 (sd 8 u.mem (c * 4096 + THREAD_SEPC) v) (c * 4096 + TASK_MM) = ld 8 u.mem (c * 4096 + TASK_MM) :=
    ld_sd_of_disjoint (by simp only [THREAD_SEPC, TASK_MM]; omega)
  constructor
  case paging => exact hpaging
  case unmapped =>
    intro f hf
    by_cases hd : f = d
    · rw [hd, Layout.role_spawn_root] at hf
      cases hf
    · by_cases hc : f = c
      · rw [hc, hrole] at hf
        cases hf
      · rw [Layout.role_spawn_of_ne hc hd] at hf
        exact h.unmapped f hf
  case image =>
    intro f hf
    refine (hframe f ?_).trans (h.rest_of_spawn hs f hf)
    have := hs.abovePage
    omega
  case lists =>
    intro k hk
    have htask : u.task = t.task := hm.task.1
    have hkt : t.Live k := by
      rw [KState.Live, ← htask]
      exact hk
    rw [← hpaging.mmap_eq hk, mmapOf, KState.withMem_mem]
    by_cases hki : k = i
    · rw [hki, show (lay.spawn i c d).page i = c from Function.update_self .., hsecp]
      have hnil : NodeList img t (ld 8 t.mem (c * 4096 + TASK_MM)) [] :=
        ⟨hs.mm, List.nodup_nil, fun p hp => by cases hp⟩
      have hlist := hm.nodeList hnil
      rw [List.append_nil] at hlist
      refine ⟨l, hlist.mono rfl fun _ _ hne => hne, fun he => ?_⟩
      have hcongr := elfSegments_congr (fun f hf => (h.rest_of_spawn hs f hf).symm) he
      rw [hcongr.2, ← hgs hcongr.1]
      exact hm.areas hnil
    · have hks : s.Live k := (hs.live.mp hkt).resolve_right hki
      obtain ⟨l', hl', hareas⟩ := h.lists k hks
      have hnodes : NodeList img t (s.mmap k) l' :=
        hl'.mono hs.vma fun f hf hne => by rw [hs.ref f hf hne]; exact hne
      have hpage := hs.role h.paging (f := lay.page k) (by rw [(h.paging.task_ok hks).page]; exact Role.noConfusion)
      have hword : ld 8 (sd 8 u.mem (c * 4096 + THREAD_SEPC) v) ((lay.spawn i c d).page k * 4096 + TASK_MM) =
          s.mmap k := by
        rw [show (lay.spawn i c d).page k = lay.page k from Function.update_of_ne hki ..,
          ((hframe _ hpage.1).trans (hs.frame _ hpage.1 hpage.2.1)).ld (by decide), ← h.paging.mmap_eq hks, mmapOf]
      rw [hword]
      refine ⟨l', (hm.others hnodes).mono rfl fun _ _ hne => hne, fun he => ?_⟩
      have hold := hareas he
      rw [← hs.vma] at hold
      exact hm.keeps hnodes hold
  case idle =>
    obtain ⟨f, hram, habove, href, hother, htask, hcur⟩ := h.idle
    have hfc : f ≠ c := by
      rintro rfl
      exact href hs.freePage
    have hfd : f ≠ d := by
      rintro rfl
      exact href hs.freeRoot
    have hi0 : 0 ≠ i := by have := hs.pos; omega
    refine ⟨f, hram, habove, hlive f hram href, by rw [Layout.role_spawn_of_ne hfc hfd, hother], ?_, ?_⟩
    · rw [KState.withMem_task, hm.task.1, hs.task, Function.update_of_ne hi0, htask]
    · rw [KState.withMem_current, hm.task.2, hs.current, hcur]

theorem Started.add_carried (h : Started img m lay s) (hs : Spawned img s t i c d 0) (hm : Mmaps img c t gs l u) (v : Nat) :
    Carried img lay (lay.spawn i c d) s (u.withMem (sd 8 u.mem (c * 4096 + THREAD_SEPC) v)) := by
  have hrole : (lay.spawn i c d).role c = .task := Layout.role_spawn_page hs.ne
  have hframe : ∀ f, f ≠ c → SameFrame (sd 8 u.mem (c * 4096 + THREAD_SEPC) v) t.mem f := fun f hf o ho => by
    rw [sd_outside (by simp only [THREAD_SEPC]; omega)]
    exact hm.mem (by simp only [TASK_MM]; omega)
  have hout : ∀ f, (lay.spawn i c d).role f ≠ .task → f ≠ c := by
    rintro f hf rfl
    exact hf hrole
  refine (hs.carried h.paging).trans (hs.paging h.paging) (.same (.of_same fun f r p hf _ => ?_) hm.task.1 (fun f hf => ?_) ?_ ?_)
  · exact hframe f (hout f (by rw [hf]; exact Role.noConfusion))
  · exact hframe f (by have := hs.abovePage; omega)
  · exact fun f hram hne => by
      change u.ref f ≠ 0
      rw [hm.live hram hne]
      exact hne
  · exact fun f hf _ => hframe f (hout f (by rw [hf]; exact Role.noConfusion))

variable {n : Nat}

/-- `task_init` has halted: no page is left after `k` pages, or the ELF file cannot be read. -/
def Unstarted (img : Image) (m : Mem) (s : KState) (k : Nat) (e : Halt) (t : KState) : Prop :=
  (e = .null ∧ OutOfPages img t ∧ (ElfInside img m → Within k s t)) ∨ (e = .fault ∧ ¬ ElfInside img m)

theorem Unstarted.trans {k k' n : Nat} {e : Halt} (h : Unstarted img m t k' e u) (hw : ElfInside img m → Within k s t)
    (hn : k + k' ≤ n) : Unstarted img m s n e u :=
  h.imp_left fun ⟨he, hfull, hu⟩ => ⟨he, hfull, fun hh => (hw hh).trans (hu hh) hn⟩

theorem initTask_spec (h : Started img m lay s) (h1 : 1 ≤ i) (hi : i < NR_TASKS) (hempty : s.task i = 0) :
    Ends (initTask img i) s
      (fun _ t => ∃ lay' c, Started img m lay' t ∧ Carried img lay lay' s t ∧ t.trace = s.trace ∧ Sparing img s t ∧ c ≠ 0 ∧
        t.task = Function.update s.task i c ∧ (ElfInside img m → Within (phnum img m + 4) s t))
      (Unstarted img m s (phnum img m + 4)) := by
  refine ends_initTask h.paging h1 hi hempty (fun t ht hw => .inl ⟨rfl, ht, fun _ => hw.mono (by omega)⟩)
    fun t c d hs htrace hwt _ => ?_
  have himage := fun f hf => (h.rest_of_spawn hs f hf).symm
  have hpages : ∀ {u : KState}, (ElfInside img t.mem → Within (phnum img t.mem + 1) t u) → ElfInside img m →
      Within (phnum img m + 4) s u := fun hw he => by
    have hnum : phnum img m = phnum img t.mem := he.1.ld_same (by omega) himage
    refine hwt.trans (hw (elfSegments_congr himage he).1) ?_
    omega
  refine (vmaInit_spec hs.pages hs.ramPage hs.abovePage).mono ?_ ?_
  · rintro _ _ ⟨gs, l, u, v, hm, rfl, hgs⟩
    refine ⟨_, framePtr c, h.add hs hm (fun he => (hgs he).1) v, h.add_carried hs hm v, hm.trace.trans htrace, ?_, framePtr_ne_zero c, ?_,
      hpages fun he => (hgs he).2.1⟩
    · have href : t.ref c ≠ 0 := by
        rw [hs.refPage]
        decide
      refine (hs.sparing.trans (hm.sparing hs.ramPage href)).trans (.withMem fun f _ h0 => sameFrame_sd fun o ho => ?_)
      have hfc : f ≠ c := by
        rintro rfl
        rw [hm.live hs.ramPage href] at h0
        exact href h0
      simp only [THREAD_SEPC]
      omega
    · rw [KState.withMem_task, hm.task.1, hs.task]
  · rintro e u (⟨he, hfull, hw⟩ | ⟨he, hno⟩)
    · exact .inl ⟨he, hfull, hpages fun hh => (hw hh).1⟩
    · exact .inr ⟨he, fun hh => hno (elfSegments_congr himage hh).1⟩

theorem initTasks_spec (h : Started img m lay s) (h1 : 1 ≤ i) (hi : i + n ≤ NR_TASKS)
    (htask : ∀ k, 1 ≤ k → (s.task k ≠ 0 ↔ k < i)) :
    Ends (initTasks img n i) s
      (fun _ t => ∃ lay', Started img m lay' t ∧ Carried img lay lay' s t ∧ t.trace = s.trace ∧ Sparing img s t ∧
        (∀ k, 1 ≤ k → (t.task k ≠ 0 ↔ k < i + n)) ∧ (ElfInside img m → Within (n * (phnum img m + 4)) s t))
      (Unstarted img m s (n * (phnum img m + 4))) := by
  induction n generalizing i lay s with
  | zero => exact ends_pure.mpr ⟨lay, h, .refl lay s, rfl, .refl s, htask, fun _ => (Within.of_eq rfl rfl).mono (Nat.zero_le _)⟩
  | succ n ih =>
      have hempty : s.task i = 0 := by
        by_contra hne
        exact Nat.lt_irrefl i ((htask i h1).mp hne)
      have hsum : phnum img m + 4 + n * (phnum img m + 4) ≤ (n + 1) * (phnum img m + 4) := by
        rw [Nat.succ_mul, Nat.add_comm]
      rw [initTasks]
      refine ends_bind.mpr ((initTask_spec h h1 (by omega) hempty).mono ?_
        fun _ _ he => he.trans (fun _ => .of_eq rfl rfl) (by omega))
      rintro _ t ⟨lay', c, ht, hcarry, htrace, hspare, hc, htask', hwt⟩
      have hnext : ∀ k, 1 ≤ k → (t.task k ≠ 0 ↔ k < i + 1) := by
        intro k hk
        rw [htask']
        by_cases hki : k = i
        · rw [hki, Function.update_self]
          exact iff_of_true hc (Nat.lt_succ_self i)
        · rw [Function.update_of_ne hki, htask k hk]
          omega
      refine (ih ht (by omega) (by omega) hnext).mono ?_ fun _ _ he => he.trans hwt hsum
      rintro _ u ⟨lay'', hu, hucarry, hutrace, huspare, hutask, hwu⟩
      refine ⟨lay'', hu, hcarry.trans ht.paging hucarry, hutrace.trans htrace, hspare.trans huspare, fun k hk => ?_,
        fun he => (hwt he).trans (hwu he) hsum⟩
      rw [hutask k hk]
      omega

/-- The layout before the first task: no frame has a role. -/
def emptyLayout : Layout := { role := fun _ => .other, page := fun _ => 0, root := fun _ => 0 }

/-- `task_init` up to its loop: the idle task has been set up. -/
theorem ends_taskInit {Q : Unit → KState → Prop} {E : Halt → KState → Prop} (h : Ready img s)
    (hfull : ∀ t, OutOfPages img t → Within 1 s t → E .null t)
    (hloop : ∀ t, Started img s.mem emptyLayout t → Inherited img s emptyLayout t → t.trace = s.trace → Sparing img s t →
      (∀ k, 1 ≤ k → t.task k = 0) → Within 1 s t → Ends (initTasks img s.tasksNumber 1) t Q E) :
    Ends (taskInit img) s Q E := by
  rw [taskInit]
  refine ends_bind.mpr ((srand_spec 2024).mono ?_ fun _ _ hno => hno.elim)
  rintro _ v ⟨seed, hv⟩
  have hpages : v.Pages img := by rw [hv]; exact h.pages
  have hsv : v.mem = s.mem ∧ v.trace = s.trace ∧ v.tasksNumber = s.tasksNumber ∧ v.task = s.task ∧ v.buddy = s.buddy := by
    rw [hv]
    exact ⟨rfl, rfl, rfl, rfl, rfl⟩
  obtain ⟨hvmem, hvtrace, hvnumber, hvtask, hvbuddy⟩ := hsv
  refine ends_bind.mpr (Ends.mono (Ends.and (allocPage_spec hpages) (grows_allocPage.run v)) ?_
    fun _ _ hno => hno.1.elim)
  rintro p u ⟨⟨rfl, rfl, hno⟩ | ⟨f, rfl, hf⟩, hwu⟩
  · refine ends_bind.mpr (ends_notNull.mpr ?_)
    rw [if_pos rfl]
    exact hfull _ hno ⟨hvtrace ▸ hwu.trace, hvbuddy ▸ hwu.size, hvbuddy ▸ hwu.inUse⟩
  refine ends_bind.mpr (ends_notNull.mpr ?_)
  rw [if_neg (framePtr_ne_zero f)]
  nth_rewrite 1 [← Nat.add_zero (framePtr f)]
  refine ends_bind.mpr (ends_storeWords hf.ram (Nat.le_of_ble_eq_true rfl) fun m₁ _ h₁ => ?_)
  refine ends_bind.mpr (ends_storeWords hf.ram (Nat.le_of_ble_eq_true rfl) fun m₂ _ h₂ => ?_)
  refine ends_bind.mpr (ends_modify.mpr (ends_bind.mpr (ends_get.mpr ?_)))
  have hmem : u.mem = s.mem := hf.mem.trans hvmem
  have himage : ∀ g, g < img.firstFree → SameFrame m₂ s.mem g := fun g hg => by
    have hgf : g ≠ f := by have := hf.above; omega
    rw [← hmem]
    exact (h₂ g hgf).trans (h₁ g hgf)
  have hzero : ∀ k, 1 ≤ k → Function.update u.task 0 (framePtr f) k = 0 := fun k hk => by
    rw [Function.update_of_ne (by omega), hf.tasks.task, hvtask, h.task]
  have hlive : ∀ k, 1 ≤ k → Function.update u.task 0 (framePtr f) k ≠ 0 → False := fun k hk hne =>
    hne (hzero k hk)
  have hcount : u.tasksNumber = s.tasksNumber := hf.tasks.tasksNumber.trans hvnumber
  dsimp only
  rw [KState.withMem_tasksNumber, hcount]
  refine hloop _ ?_ ?_ (hf.trace.trans hvtrace) ?_ hzero ?_
  · constructor
    case paging =>
      exact
        { pages := hf.pages
          held := fun _ hg => absurd rfl hg
          owned := ⟨fun _ _ _ _ hg => by cases hg⟩
          pointer := fun _ _ _ _ hg => by cases hg
          leaf := fun _ _ _ _ hg => by cases hg
          task := fun k h1 _ hne => (hlive k h1 hne).elim
          apart := fun k _ h1 _ hne => (hlive k h1 hne).elim
          swapper := fun k hk => by
            have hsame := tables_congr (himage _ img.swapperFrame_lt)
            change tables m₂ _ _ % 2 = 0
            rw [hsame]
            exact h.swapper k hk }
    case unmapped => exact fun _ hg => by cases hg
    case image => exact himage
    case lists => exact fun k hk => (hlive k hk.1 hk.2.2).elim
    case idle =>
      refine ⟨f, hf.ram, hf.above, ?_, rfl, ?_, rfl⟩
      · change u.ref f ≠ 0
        rw [hf.taken]
        exact Nat.one_ne_zero
      · change Function.update u.task 0 (framePtr f) 0 = _
        rw [Function.update_self]
  · refine ⟨himage, fun g hg hne => ?_, fun k hk => (hlive k hk.1 hk.2.2).elim⟩
    have hvne : v.ref g ≠ 0 := by rwa [KState.ref, hvbuddy]
    have hgf : g ≠ f := by
      rintro rfl
      exact hvne hf.free
    refine ⟨rfl, ?_, ?_, ?_⟩
    · change u.ref g ≠ 0
      rw [hf.ref hg hvne]
      exact hvne
    · change Function.update u.task 0 (framePtr f) 0 ≠ _
      rw [Function.update_self]
      exact fun he => hgf (framePtr_inj he).symm
    · rw [← hmem]
      exact (h₂ g hgf).trans (h₁ g hgf)
  · have hidle : Sparing img u (u.withMem m₂) := .withMem fun g _ h0 => by
      have hgf : g ≠ f := by
        rintro rfl
        rw [hf.taken] at h0
        cases h0
      exact (h₂ g hgf).trans (h₁ g hgf)
    have hspare := hf.sparing.trans hidle
    rw [hv] at hspare
    exact ⟨hspare.unused, hspare.tables⟩
  · exact ⟨hvtrace ▸ hwu.trace, hvbuddy ▸ hwu.size, hvbuddy ▸ hwu.inUse⟩

/-- How `task_init` ends: a page is missing, the ELF file cannot be read, or all tasks are set up. -/
theorem taskInit_spec (h : Ready img s) :
    Ends (taskInit img) s
      (fun _ t => ∃ lay, Started img s.mem lay t ∧ Inherited img s lay t ∧ t.trace = s.trace ∧ Sparing img s t ∧
        (∀ k, 1 ≤ k → (t.task k ≠ 0 ↔ k ≤ s.tasksNumber)) ∧
        (ElfInside img s.mem → Within (1 + s.tasksNumber * (phnum img s.mem + 4)) s t))
      (Unstarted img s.mem s (1 + s.tasksNumber * (phnum img s.mem + 4))) := by
  refine ends_taskInit h (fun t hno hw => .inl ⟨rfl, hno, fun _ => hw.mono (Nat.le_add_right 1 _)⟩)
    fun t hstart hinit htrace hspare hzero hw => ?_
  have hnumber := h.number
  refine (initTasks_spec hstart (Nat.le_refl 1) (by omega) fun k hk => ?_).mono ?_ fun _ _ he => he.trans (fun _ => hw) le_rfl
  · exact iff_of_false (fun hne => hne (hzero k hk)) (by omega)
  · rintro _ u ⟨lay, hu, hcarry, hutrace, huspare, hutask, hwu⟩
    refine ⟨lay, hu, hinit.carried hstart.paging hcarry, hutrace.trans htrace, hspare.trans huspare, fun k hk => ?_,
      fun he => hw.trans (hwu he) le_rfl⟩
    rw [hutask k hk]
    omega

end Rounds

section Trails
variable {img : Image} {n i : Nat}

theorem grows_storeWords (va : Nat) (vs : List Nat) : Grows 0 (storeWords img va vs) := by
  induction vs generalizing va with
  | nil => exact grows_pure _
  | cons v vs ih => exact grows_bind (grows_storeWord ..) fun _ => ih _

theorem grows_copyRoot (pgd n j : Nat) : Grows 0 (copyRoot img pgd n j) := by
  induction n generalizing j with
  | zero => exact grows_pure _
  | succ n ih => exact grows_bind (grows_loadWord _) fun _ => grows_bind (grows_storeWord ..) fun _ => ih _

theorem grows_rand : Grows 0 rand :=
  grows_bind (grows_modify fun _ => .of_eq rfl rfl) fun _ => grows_bind grows_get fun _ => grows_pure _

theorem trails_initTask : Trails (initTask img i) := by
  have hwords : ∀ va vs, Trails (storeWords img va vs) := fun va vs => (grows_storeWords va vs).trails
  refine trails_bind grows_kalloc.trails fun task => trails_bind (Grows.trails (k := 0) (grows_modify fun _ => .of_eq rfl rfl)) fun _ => ?_
  refine trails_bind (grows_notNull _).trails fun _ => trails_bind grows_rand.trails fun _ => ?_
  refine trails_bind (hwords ..) fun _ => trails_bind (hwords ..) fun _ => trails_bind (hwords ..) fun _ => ?_
  refine trails_bind (hwords ..) fun _ => trails_bind grows_allocPage.trails fun _ => ?_
  refine trails_bind (grows_storeWord ..).trails fun _ => trails_bind (grows_notNull _).trails fun _ => ?_
  refine trails_bind (grows_copyRoot ..).trails fun _ => trails_bind grows_allocPage.trails fun _ => ?_
  refine trails_bind (grows_notNull _).trails fun _ => trails_bind (grows_loadWord _).trails fun _ => ?_
  refine trails_bind (grows_storeWord ..).trails fun _ => trails_bind (grows_storeWord ..).trails fun _ => ?_
  refine trails_bind (grows_loadField ..).trails fun _ => trails_bind (grows_loadField ..).trails fun num => ?_
  exact (grows_segments num _).trails

theorem trails_initTasks : Trails (initTasks img n i) := by
  induction n generalizing i with
  | zero => exact (grows_pure (k := 0) _).trails
  | succ n ih => exact trails_bind trails_initTask fun _ => ih

/-- `task_init` never takes an event back. -/
theorem trails_taskInit : Trails (taskInit img) := by
  refine trails_bind (Grows.trails (k := 0) (grows_modify fun _ => .of_eq rfl rfl)) fun _ => trails_bind grows_kalloc.trails fun idle => ?_
  refine trails_bind (grows_notNull _).trails fun _ => trails_bind (grows_storeWords ..).trails fun _ => ?_
  refine trails_bind (grows_storeWords ..).trails fun _ => trails_bind (Grows.trails (k := 0) (grows_modify fun _ => .of_eq rfl rfl)) fun _ => ?_
  exact trails_bind grows_get.trails fun _ => trails_initTasks

end Trails

end ZjuOs
