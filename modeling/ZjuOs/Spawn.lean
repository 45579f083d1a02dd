import ZjuOs.Loops

/-! A new task: its page, a copy of the parent's, and its root table, a copy of the kernel's. -/
namespace ZjuOs
open Memory Exec Radix

/-- Task `j` has been entered with page `c`, root table `d` and the list of areas at `w`. -/
structure Spawned (img : Image) (s t : KState) (j c d w : Nat) : Prop where
  pos : 1 ≤ j
  lt : j < NR_TASKS
  empty : s.task j = 0
  task : t.task = Function.update s.task j (framePtr c)
  current : t.current = s.current
  idle : t.idle = s.idle
  satp : t.satp = s.satp
  vma : t.vma = s.vma
  pages : t.Pages img
  ramPage : img.Ram c
  ramRoot : img.Ram d
  abovePage : img.firstFree ≤ c
  aboveRoot : img.firstFree ≤ d
  freePage : s.ref c = 0
  freeRoot : s.ref d = 0
  ne : c ≠ d
  refPage : t.ref c = 1
  refRoot : t.ref d = 1
  ref : ∀ f, img.Ram f → s.ref f ≠ 0 → t.ref f = s.ref f
  frame : ∀ f, f ≠ c → f ≠ d → SameFrame t.mem s.mem f
  pgd : ld 8 t.mem (c * 4096 + TASK_PGD) = framePtr d
  mm : ld 8 t.mem (c * 4096 + TASK_MM) = w
  kernel : ∀ o, o < 4096 → t.mem (d * 4096 + o) = s.mem (img.swapperFrame * 4096 + o)
  sparing : Sparing img s t

/-- The layout with the new task. -/
def Layout.spawn (lay : Layout) (j c d : Nat) : Layout where
  role := Function.update (Function.update lay.role c .task) d (.table d [])
  page := Function.update lay.page j c
  root := Function.update lay.root j d

section Spawned
variable {img : Image} {lay : Layout} {s t : KState} {i j c d w : Nat}

theorem Layout.role_spawn_root : (lay.spawn j c d).role d = .table d [] := Function.update_self ..

theorem Layout.role_spawn_page (h : c ≠ d) : (lay.spawn j c d).role c = .task := by
  change Function.update _ d _ c = _
  rw [Function.update_of_ne h, Function.update_self]

theorem Layout.role_spawn_of_ne {f : Nat} (hc : f ≠ c) (hd : f ≠ d) :
    (lay.spawn j c d).role f = lay.role f := by
  change Function.update _ d _ f = _
  rw [Function.update_of_ne hd, Function.update_of_ne hc]

theorem Spawned.other_page (h : Paging img lay s) (hs : Spawned img s t j c d w) : lay.role c = .other := by
  by_contra hne
  exact (h.held c hne).2.2 hs.freePage

theorem Spawned.other_root (h : Paging img lay s) (hs : Spawned img s t j c d w) : lay.role d = .other := by
  by_contra hne
  exact (h.held d hne).2.2 hs.freeRoot

theorem Spawned.role (h : Paging img lay s) (hs : Spawned img s t j c d w) {f : Nat}
    (hf : lay.role f ≠ .other) : f ≠ c ∧ f ≠ d ∧ (lay.spawn j c d).role f = lay.role f := by
  have hc : f ≠ c := fun he => hf (he ▸ hs.other_page h)
  have hd : f ≠ d := fun he => hf (he ▸ hs.other_root h)
  exact ⟨hc, hd, Layout.role_spawn_of_ne hc hd⟩

theorem Spawned.table_cases (hs : Spawned img s t j c d w) {f r : Nat}
    {p : List (Fin 512)} (hf : (lay.spawn j c d).role f = .table r p) :
    (f = d ∧ r = d ∧ p = []) ∨ (f ≠ c ∧ f ≠ d ∧ lay.role f = .table r p) := by
  by_cases hd : f = d
  · rw [hd, Layout.role_spawn_root] at hf
    cases hf
    exact .inl ⟨hd, rfl, rfl⟩
  · by_cases hc : f = c
    · rw [hc, Layout.role_spawn_page hs.ne] at hf
      cases hf
    · rw [Layout.role_spawn_of_ne hc hd] at hf
      exact .inr ⟨hc, hd, hf⟩

/-- The new root is a copy of the kernel's. -/
theorem Spawned.kernel_entry (hs : Spawned img s t j c d w) (k : Fin 512) :
    tables t.mem d k = tables s.mem img.swapperFrame k := by
  rw [tables, tables, entry, entry]
  refine ld_shift fun o ho => ?_
  have := hs.kernel (8 * k + o) (by omega)
  rwa [← Nat.add_assoc, ← Nat.add_assoc] at this

/-- The user half of the new root is empty, as the kernel's is. -/
theorem Spawned.root_empty (h : Paging img lay s) (hs : Spawned img s t j c d w) {k : Fin 512}
    (hk : k.val < 384) : tables t.mem d k % 2 = 0 := by
  rw [hs.kernel_entry]
  exact h.swapper k hk

theorem Spawned.paging (h : Paging img lay s) (hs : Spawned img s t j c d w) :
    Paging img (lay.spawn j c d) t := by
  have htab : ∀ f, f ≠ c → f ≠ d → tables t.mem f = tables s.mem f := fun f hc hd =>
    tables_congr (hs.frame f hc hd)
  have hroot : ∀ k : Fin 512, UserSlot [] k → tables t.mem d k % 2 = 0 := fun k hk =>
    hs.root_empty h (hk rfl)
  have hold : ∀ f, lay.role f ≠ .other → (lay.spawn j c d).role f = lay.role f := fun f hf =>
    (hs.role h hf).2.2
  constructor
  case pages => exact hs.pages
  case held =>
    intro f hf
    by_cases hd : f = d
    · rw [hd, hs.refRoot]
      exact ⟨hs.ramRoot, hs.aboveRoot, Nat.one_ne_zero⟩
    · by_cases hc : f = c
      · rw [hc, hs.refPage]
        exact ⟨hs.ramPage, hs.abovePage, Nat.one_ne_zero⟩
      · rw [Layout.role_spawn_of_ne hc hd] at hf
        obtain ⟨hram, habove, href⟩ := h.held f hf
        exact ⟨hram, habove, by rw [hs.ref f hram href]; exact href⟩
  case owned =>
    refine ⟨fun f r p k hf hp hk hv => ?_⟩
    rw [own_eq_some] at hf
    rcases hs.table_cases hf with ⟨rfl, rfl, rfl⟩ | ⟨hc, hd, hold'⟩
    · have := hroot k hk
      have := pteFormat_valid.mp hv
      omega
    · rw [htab f hc hd] at hv ⊢
      have hnext := own_eq_some.mp (h.owned.next f r p k (own_eq_some.mpr hold') hp hk hv)
      rw [own_eq_some, hold _ (by rw [hnext]; exact Role.noConfusion), hnext]
  case pointer =>
    intro f r p k hf hp hk hodd
    rcases hs.table_cases hf with ⟨rfl, rfl, rfl⟩ | ⟨hc, hd, hold'⟩
    · have := hroot k hk
      omega
    · rw [htab f hc hd] at hodd ⊢
      exact h.pointer f r p k hold' hp hk hodd
  case leaf =>
    intro f r p k hf hp hodd
    rcases hs.table_cases hf with ⟨-, -, rfl⟩ | ⟨hc, hd, hold'⟩
    · cases hp
    · rw [htab f hc hd] at hodd ⊢
      obtain ⟨hdata, hflags, hu⟩ := h.leaf f r p k hold' hp hodd
      exact ⟨by rw [hold _ (by rw [hdata]; exact Role.noConfusion), hdata], hflags, hu⟩
  case task =>
    intro k h1 hk hne
    rw [hs.task] at hne
    by_cases hkj : k = j
    · subst hkj
      exact
        { ptr := by
            rw [hs.task, Function.update_self, show (lay.spawn k c d).page k = c from Function.update_self ..]
          page := by
            rw [show (lay.spawn k c d).page k = c from Function.update_self ..]
            exact Layout.role_spawn_page hs.ne
          pgd := by
            rw [show (lay.spawn k c d).page k = c from Function.update_self ..,
              show (lay.spawn k c d).root k = d from Function.update_self ..]
            exact hs.pgd
          root := by
            rw [show (lay.spawn k c d).root k = d from Function.update_self ..]
            exact Layout.role_spawn_root }
    · rw [Function.update_of_ne hkj] at hne
      have ok := h.task k h1 hk hne
      have hpage := hs.role h (f := lay.page k) (by rw [ok.page]; exact Role.noConfusion)
      have hrt := hs.role h (f := lay.root k) (by rw [ok.root]; exact Role.noConfusion)
      have ep : (lay.spawn j c d).page k = lay.page k := Function.update_of_ne hkj ..
      have er : (lay.spawn j c d).root k = lay.root k := Function.update_of_ne hkj ..
      exact
        { ptr := by rw [hs.task, ep, Function.update_of_ne hkj]; exact ok.ptr
          page := by rw [ep, hpage.2.2]; exact ok.page
          pgd := by
            rw [ep, er]
            exact ((hs.frame _ hpage.1 hpage.2.1).ld (by decide)).trans ok.pgd
          root := by rw [er, hrt.2.2]; exact ok.root }
  case apart =>
    intro k k' h1 hk hne h1' hk' hne' hkk
    rw [hs.task] at hne hne'
    have hpr : ∀ m, m ≠ j → 1 ≤ m → m < NR_TASKS → Function.update s.task j (framePtr c) m ≠ 0 →
        (lay.spawn j c d).page m = lay.page m ∧ (lay.spawn j c d).root m = lay.root m ∧
          lay.page m ≠ c ∧ lay.root m ≠ d ∧ s.task m ≠ 0 := by
      intro m hm hm1 hm9 hmne
      rw [Function.update_of_ne hm] at hmne
      have ok := h.task m hm1 hm9 hmne
      exact ⟨Function.update_of_ne hm .., Function.update_of_ne hm ..,
        (hs.role h (by rw [ok.page]; exact Role.noConfusion)).1,
        (hs.role h (by rw [ok.root]; exact Role.noConfusion)).2.1, hmne⟩
    have hself : (lay.spawn j c d).page j = c ∧ (lay.spawn j c d).root j = d :=
      ⟨Function.update_self .., Function.update_self ..⟩
    by_cases hkj : k = j
    · subst hkj
      obtain ⟨ep, er, hp, hr, -⟩ := hpr k' (Ne.symm hkk) h1' hk' hne'
      rw [hself.1, hself.2, ep, er]
      exact ⟨hp.symm, hr.symm⟩
    · obtain ⟨ep, er, hp, hr, hn⟩ := hpr k hkj h1 hk hne
      by_cases hkj' : k' = j
      · subst hkj'
        rw [hself.1, hself.2, ep, er]
        exact ⟨hp, hr⟩
      · obtain ⟨ep', er', -, -, hn'⟩ := hpr k' hkj' h1' hk' hne'
        rw [ep, er, ep', er']
        exact h.apart k k' h1 hk hn h1' hk' hn' hkk
  case swapper =>
    intro k hk
    have hc : img.swapperFrame ≠ c := by have := img.swapperFrame_lt; have := hs.abovePage; omega
    have hd : img.swapperFrame ≠ d := by have := img.swapperFrame_lt; have := hs.aboveRoot; omega
    rw [htab _ hc hd]
    exact h.swapper k hk

theorem Spawned.running (hs : Spawned img s t j c d w) (hr : Running lay s i) :
    Running (lay.spawn j c d) t i := by
  have hij : i ≠ j := by
    rintro rfl
    exact hr.some hs.empty
  exact
    { pos := hr.pos
      lt := hr.lt
      some := by rw [hs.task, Function.update_of_ne hij]; exact hr.some
      current := by rw [hs.task, Function.update_of_ne hij, hs.current]; exact hr.current
      satp := by
        rw [hs.satp, show (lay.spawn j c d).root i = lay.root i from Function.update_of_ne hij ..]
        exact hr.satp }

theorem Spawned.leaves (h : Paging img lay s) (hs : Spawned img s t j c d w) {r va : Nat}
    (hr : lay.role r = .table r []) (hva : UserVa va) : leafPte t.mem r va = leafPte s.mem r va := by
  have hdesc : descend pteFormat (tables t.mem) r (path va) = descend pteFormat (tables s.mem) r (path va) :=
    h.owned.descend_congr (own_eq_some.mpr hr) (by simp [path]) hva.allowed fun x r' p' hx _ => by
      have hf := hs.role h (f := x) (by rw [own_eq_some.mp hx]; exact Role.noConfusion)
      exact tables_congr (hs.frame x hf.1 hf.2.1)
  rw [leafPte, leafPte, lookup_eq_descend, lookup_eq_descend, hdesc]
  refine Option.bind_congr fun l hd => ?_
  have hl := own_eq_some.mp (h.owned.descend (own_eq_some.mpr hr) (by simp [path]) hva.allowed hd)
  have hf := hs.role h (f := l) (by rw [hl]; exact Role.noConfusion)
  rw [tables_congr (hs.frame l hf.1 hf.2.1)]

/-- The new address space maps no user page. -/
theorem Spawned.leaves_new (h : Paging img lay s) (hs : Spawned img s t j c d w) {va : Nat}
    (hva : UserVa va) : leafPte t.mem d va = none := by
  have hempty := hs.root_empty h (k := vpn va 2) hva
  rw [leafPte, path, lookup, if_neg]
  rw [pteFormat_valid]
  omega

end Spawned

section Pointers
variable {img : Image}

theorem swapperPgDir_eq (img : Image) : img.swapperPgDir = framePtr img.swapperFrame := by
  have h1 := img.swapper_start
  have h2 := img.swapper_end
  have h3 := img.swapper_aligned
  have h4 := img.room
  simp only [Image.swapperFrame, framePtr, VA2PA, VM_START, PGSIZE, PA2VA_OFFSET] at *
  omega

theorem swapperFrame_ram (img : Image) : img.Ram img.swapperFrame := by
  have h1 := img.swapper_start
  have h2 := img.swapper_end
  have h3 := img.swapper_aligned
  have h4 := img.ekernel_le
  have h5 := img.room
  simp only [Image.swapperFrame, Image.Ram, VA2PA, VM_START, PGSIZE, PA2VA_OFFSET] at *
  omega

/-- A page of RAM is read through the direct map. -/
theorem readsAt_frame {s : KState} {f dst : Nat} (hf : img.Ram f) :
    ReadsAt img s (framePtr f) (f * 4096) dst PGSIZE := by
  intro k hk mem _
  have hlt := framePtr_lt hf (o := k) (by simp only [PGSIZE] at hk; omega)
  rw [Nat.mod_eq_of_lt hlt, kernelPa, if_pos (inDirectMap_frame hf hk), VA2PA_framePtr hf hk]
  rfl

/-- A page is copied to another page. -/
theorem ends_copyFrame {s : KState} {f g : Nat} {Q : Unit → KState → Prop} {E : Halt → KState → Prop}
    (hf : img.Ram f) (hg : img.Ram g) (hne : f ≠ g) :
    Ends (memcpy img (framePtr f) (framePtr g) PGSIZE) s Q E ↔
      Q () (s.withMem (copy s.mem (f * 4096) (g * 4096) PGSIZE)) := by
  have hlt := framePtr_lt hg (o := 0) (by omega)
  have hsrc : ReadsAt img s (framePtr g) (g * 4096) (f * 4096 + 0) PGSIZE := readsAt_frame hg
  have h := ends_memcpy (Q := Q) (E := E) (o := 0) hf (by decide) (by omega) hsrc
    (by simp only [PGSIZE]; omega)
  rwa [Nat.add_zero, Nat.add_zero] at h

theorem childFrame_eq {regs c : Nat} (hc : img.Ram c) (hregs : regs < 2 ^ 64) :
    childFrame regs (framePtr c) = framePtr c + regs % 4096 := by
  have hlt := framePtr_lt hc (o := regs % 4096) (by omega)
  simp only [childFrame, PGROUNDDOWN, PGSIZE]
  omega

end Pointers

section ChildPage
variable {img : Image} {s u : KState} {m : Mem} {c w o v : Nat}

/-- Of the memory of `s` only page `c` has changed, and its word for the list of areas is `w`. -/
structure ChildPage (s : KState) (m : Mem) (c w : Nat) : Prop where
  frame : ∀ f, f ≠ c → SameFrame m s.mem f
  mm : ld 8 m (c * 4096 + TASK_MM) = w

theorem ChildPage.store (h : ChildPage s m c w) (ho : o + 8 ≤ 4096) (hsep : o + 8 ≤ TASK_MM ∨ TASK_MM + 8 ≤ o) :
    ChildPage s (sd 8 m (c * 4096 + o) v) c w := by
  refine ⟨fun f hf => ?_, ?_⟩
  · refine (sameFrame_sd fun p hp => ?_).trans (h.frame f hf)
    omega
  · rw [ld_sd_of_disjoint (by omega)]
    exact h.mm

theorem ends_storeChild {Q : Unit → KState → Prop} {E : Halt → KState → Prop} (hc : img.Ram c)
    (h : ChildPage s m c w) (ho : o + 8 ≤ 4096) (hsep : o + 8 ≤ TASK_MM ∨ TASK_MM + 8 ≤ o)
    (hQ : ∀ m', ChildPage s m' c w → Q () (u.withMem m')) :
    Ends (storeWord img (framePtr c + o) v) (u.withMem m) Q E := by
  rw [ends_storeWord hc ho, KState.withMem_withMem]
  exact hQ _ (h.store ho hsep)

/-- A word of the task structure, or of the trap frame at byte `o` of a task's page. -/
def TaskWord (o k : Nat) : Prop := (k % 8 = 0 ∧ k ≤ TASK_MM) ∨ ∃ j, j < 36 ∧ k = o + 8 * j

/-- The words of the task in page `c`. -/
def TaskWords (m : Mem) (c o : Nat) (W : Nat → Nat) : Prop := ∀ k, TaskWord o k → ld 8 m (c * 4096 + k) = W k

section TaskWords
variable {img : Image} {s u : KState} {m : Mem} {c w o k k' v : Nat} {W : Nat → Nat}

theorem TaskWord.le (ho : TASK_MM + 8 ≤ o) (ho' : o + REGS_SIZE ≤ PGSIZE) (hk : TaskWord o k) : k + 8 ≤ 4096 := by
  simp only [TaskWord, TASK_MM, REGS_SIZE, PGSIZE] at *
  rcases hk with ⟨-, hle⟩ | ⟨j, hj, rfl⟩ <;> omega

theorem TaskWord.apart (ho : TASK_MM + 8 ≤ o) (hk : TaskWord o k) (hk' : TaskWord o k') (hne : k' ≠ k) :
    k' + 8 ≤ k ∨ k + 8 ≤ k' := by
  simp only [TaskWord, TASK_MM] at *
  rcases hk with ⟨hmod, hle⟩ | ⟨j, hj, rfl⟩
  · rcases hk' with ⟨hmod', hle'⟩ | ⟨j', hj', rfl⟩ <;> omega
  · rcases hk' with ⟨hmod', hle'⟩ | ⟨j', hj', rfl⟩ <;> omega

theorem TaskWord.field (hmod : k % 8 = 0) (hle : k ≤ TASK_MM) : TaskWord o k := .inl ⟨hmod, hle⟩

theorem TaskWord.frame {j : Nat} (hj : j < 36) : TaskWord o (o + 8 * j) := .inr ⟨j, hj, rfl⟩

theorem TaskWords.store (h : TaskWords m c o W) (ho : TASK_MM + 8 ≤ o) (hk : TaskWord o k) :
    TaskWords (sd 8 m (c * 4096 + k) v) c o (Function.update W k (v % 2 ^ 64)) := by
  intro k' hk'
  by_cases hne : k' = k
  · rw [hne, Function.update_self, ld_sd_self, show 256 ^ 8 = 2 ^ 64 from rfl]
  · have hsep := hk.apart ho hk' hne
    rw [Function.update_of_ne hne, ld_sd_of_disjoint (by omega), h k' hk']

/-- A store to the child's page. -/
theorem ends_storeTask {Q : Unit → KState → Prop} {E : Halt → KState → Prop} (hc : img.Ram c) (h : ChildPage s m c w)
    (hw : TaskWords m c o W) (ho : TASK_MM + 8 ≤ o) (ho' : o + REGS_SIZE ≤ PGSIZE) (hk : TaskWord o k) (hne : k ≠ TASK_MM)
    (hQ : ∀ m', ChildPage s m' c w → TaskWords m' c o (Function.update W k (v % 2 ^ 64)) → Q () (u.withMem m')) :
    Ends (storeWord img (framePtr c + k) v) (u.withMem m) Q E := by
  have hle := hk.le ho ho'
  rw [ends_storeWord hc hle, KState.withMem_withMem]
  refine hQ _ (h.store hle ?_) (hw.store ho hk)
  have hmm : TaskWord o TASK_MM := .field rfl le_rfl
  exact hmm.apart ho hk hne

/-- The page of a child: the words of its parent, but for those that `do_cow_fork` sets. -/
structure Forged (img : Image) (m m' : Mem) (f c o j : Nat) : Prop where
  pid : ld 8 m' (c * 4096 + TASK_PID) = j
  numbers : ∀ k, k % 8 = 0 → k < TASK_PID → ld 8 m' (c * 4096 + k) = ld 8 m (f * 4096 + k)
  ra : ld 8 m' (c * 4096 + THREAD_RA) = img.retFromFork % 2 ^ 64
  sp : ld 8 m' (c * 4096 + THREAD_SP) = framePtr c + o
  thread : ∀ k, k % 8 = 0 → THREAD_S ≤ k → k < TASK_PGD → ld 8 m' (c * 4096 + k) = ld 8 m (f * 4096 + k)
  stack : ld 8 m' (c * 4096 + (o + REGS_SP)) =
    (ld 8 m (f * 4096 + (o + REGS_SP)) + framePtr c + (2 ^ 64 - framePtr f)) % 2 ^ 64
  a0 : ld 8 m' (c * 4096 + (o + REGS_A0)) = 0
  sepc : ld 8 m' (c * 4096 + (o + REGS_SEPC)) = (ld 8 m (f * 4096 + (o + REGS_SEPC)) + 4) % 2 ^ 64
  others : ∀ k, k < 36 → k ≠ 2 → k ≠ 10 → k ≠ 32 →
    ld 8 m' (c * 4096 + (o + 8 * k)) = ld 8 m (f * 4096 + (o + 8 * k))

theorem Forged.congr {m m' m'' : Mem} {f g j : Nat} (h : Forged img m m' f g o j) (hs : SameFrame m'' m' g) (ho : o + REGS_SIZE ≤ PGSIZE) :
    Forged img m m'' f g o j := by
  simp only [REGS_SIZE, PGSIZE] at ho
  constructor
  case pid => rw [hs.ld (by decide), h.pid]
  case numbers =>
    intro k hmod hhi
    simp only [TASK_PID] at hhi
    rw [hs.ld (by omega), h.numbers k hmod hhi]
  case ra => rw [hs.ld (by decide), h.ra]
  case sp => rw [hs.ld (by decide), h.sp]
  case thread =>
    intro k hmod hlo hhi
    simp only [TASK_PGD] at hhi
    rw [hs.ld (by omega), h.thread k hmod hlo hhi]
  case stack => rw [hs.ld (by simp only [REGS_SP]; omega), h.stack]
  case a0 => rw [hs.ld (by simp only [REGS_A0]; omega), h.a0]
  case sepc => rw [hs.ld (by simp only [REGS_SEPC]; omega), h.sepc]
  case others =>
    intro k hk h2 h10 h32
    rw [hs.ld (by omega), h.others k hk h2 h10 h32]

/-- The stores of `do_cow_fork` to the words `W` of a child, in their order. -/
def forgedWords (W : Nat → Nat) (o pid sp ra stack sepc pgd : Nat) : Nat → Nat :=
  let W := Function.update W TASK_PID (pid % 2 ^ 64)
  let W := Function.update W THREAD_SP (sp % 2 ^ 64)
  let W := Function.update W THREAD_RA (ra % 2 ^ 64)
  let W := Function.update W (o + REGS_SP) (stack % 2 ^ 64)
  let W := Function.update W (o + REGS_A0) (0 % 2 ^ 64)
  let W := Function.update W (o + REGS_SEPC) (sepc % 2 ^ 64)
  Function.update W TASK_PGD (pgd % 2 ^ 64)

theorem TaskWords.forged {f j stack sepc pgd : Nat} (ho : TASK_MM + 8 ≤ o) (hj : j < 2 ^ 64) (hlt : framePtr c + o < 2 ^ 64)
    (h : TaskWords m c o (forgedWords (fun k => ld 8 s.mem (f * 4096 + k)) o j (framePtr c + o) img.retFromFork stack sepc pgd))
    (hstack : stack = (ld 8 s.mem (f * 4096 + (o + REGS_SP)) + framePtr c + (2 ^ 64 - framePtr f)) % 2 ^ 64)
    (hsepc : sepc = (ld 8 s.mem (f * 4096 + (o + REGS_SEPC)) + 4) % 2 ^ 64) : Forged img s.mem m f c o j := by
  simp only [TASK_MM] at ho
  have hread : ∀ k, TaskWord o k → ld 8 m (c * 4096 + k) = _ := h
  simp only [forgedWords, Function.update_apply, TASK_PID, THREAD_SP, THREAD_RA, TASK_PGD, REGS_SP, REGS_A0,
    REGS_SEPC] at hread
  constructor
  case pid =>
    change ld 8 m (c * 4096 + 24) = j
    rw [hread _ (.field rfl (by decide)), if_neg (by decide), if_neg (by omega), if_neg (by omega), if_neg (by omega),
      if_neg (by decide), if_neg (by decide), if_pos rfl, Nat.mod_eq_of_lt hj]
  case numbers =>
    intro k hmod hhi
    simp only [TASK_PID] at hhi
    rw [hread k (.field hmod (by simp only [TASK_MM]; omega)), if_neg (by omega), if_neg (by omega), if_neg (by omega),
      if_neg (by omega), if_neg (by omega), if_neg (by omega), if_neg (by omega)]
  case ra =>
    change ld 8 m (c * 4096 + 32) = _
    rw [hread _ (.field rfl (by decide)), if_neg (by decide), if_neg (by omega), if_neg (by omega), if_neg (by omega),
      if_pos rfl]
  case sp =>
    change ld 8 m (c * 4096 + 40) = _
    rw [hread _ (.field rfl (by decide)), if_neg (by decide), if_neg (by omega), if_neg (by omega), if_neg (by omega),
      if_neg (by decide), if_pos rfl, Nat.mod_eq_of_lt hlt]
  case thread =>
    intro k hmod hlo hhi
    simp only [THREAD_S, TASK_PGD] at hlo hhi
    rw [hread k (.field hmod (by simp only [TASK_MM]; omega)), if_neg (by omega), if_neg (by omega), if_neg (by omega),
      if_neg (by omega), if_neg (by omega), if_neg (by omega), if_neg (by omega)]
  case stack =>
    rw [hread _ (.frame (j := 2) (by decide)), if_neg (by omega), if_neg (by omega), if_neg (by omega), if_pos rfl, hstack,
      Nat.mod_mod]
  case a0 =>
    rw [hread _ (.frame (j := 10) (by decide)), if_neg (by omega), if_neg (by omega), if_pos rfl,
      Nat.zero_mod]
  case sepc =>
    rw [hread _ (.frame (j := 32) (by decide)), if_neg (by omega), if_pos rfl, hsepc, Nat.mod_mod]
  case others =>
    intro k hk h2 h10 h32
    rw [hread _ (.frame hk), if_neg (by omega), if_neg (by omega), if_neg (by omega),
      if_neg (by omega), if_neg (by omega), if_neg (by omega), if_neg (by omega)]

/-- The stores of `do_cow_fork` to the page that it has copied. -/
theorem ends_forge {α : Type} {k : K α} {Q : α → KState → Prop} {E : Halt → KState → Prop} {f j : Nat} (hc : img.Ram c)
    (h : ChildPage s m c w) (hw : TaskWords m c o fun k => ld 8 s.mem (f * 4096 + k)) (ho : TASK_MM + 8 ≤ o)
    (ho' : o + REGS_SIZE ≤ PGSIZE) (hj : j < 2 ^ 64) (hcur : u.current = framePtr f)
    (hQ : ∀ m', ChildPage s m' c w → (∀ pgd, Forged img s.mem (sd 8 m' (c * 4096 + TASK_PGD) pgd) f c o j) →
      Ends k (u.withMem m') Q E) :
    Ends (do
      storeWord img (framePtr c + TASK_PID) j
      storeWord img (framePtr c + THREAD_SP) (framePtr c + o)
      storeWord img (framePtr c + THREAD_RA) img.retFromFork
      let sp ← loadWord img (framePtr c + (o + REGS_SP))
      storeWord img (framePtr c + (o + REGS_SP)) ((sp + framePtr c + (2 ^ 64 - (← get).current)) % 2 ^ 64)
      storeWord img (framePtr c + (o + REGS_A0)) 0
      let sepc ← loadWord img (framePtr c + (o + REGS_SEPC))
      storeWord img (framePtr c + (o + REGS_SEPC)) ((sepc + 4) % 2 ^ 64)
      k) (u.withMem m) Q E := by
  have hsp : TaskWord o (o + REGS_SP) := .frame (j := 2) (by decide)
  have ha0 : TaskWord o (o + REGS_A0) := .frame (j := 10) (by decide)
  have hsepc : TaskWord o (o + REGS_SEPC) := .frame (j := 32) (by decide)
  have hfar : ∀ k n, n ≤ TASK_MM → o + k ≠ n := fun k n hn => by omega
  have hmm : ∀ k, o + k ≠ TASK_MM := fun k => hfar k _ le_rfl
  refine ends_bind.mpr (ends_storeTask hc h hw ho ho' (.field rfl (by decide)) (by decide) fun m₁ h₁ hw₁ => ?_)
  refine ends_bind.mpr (ends_storeTask hc h₁ hw₁ ho ho' (.field rfl (by decide)) (by decide) fun m₂ h₂ hw₂ => ?_)
  refine ends_bind.mpr (ends_storeTask hc h₂ hw₂ ho ho' (.field rfl (by decide)) (by decide) fun m₃ h₃ hw₃ => ?_)
  have hsp₃ : ld 8 m₃ (c * 4096 + (o + REGS_SP)) = ld 8 s.mem (f * 4096 + (o + REGS_SP)) := by
    rw [hw₃ _ hsp, Function.update_of_ne (hfar _ _ (by decide)), Function.update_of_ne (hfar _ _ (by decide)),
      Function.update_of_ne (hfar _ _ (by decide))]
  refine ends_bind.mpr ((ends_loadWord hc (hsp.le ho ho')).mpr (ends_bind.mpr (ends_get.mpr ?_)))
  refine ends_bind.mpr (ends_storeTask hc h₃ hw₃ ho ho' hsp (hmm _) fun m₄ h₄ hw₄ => ?_)
  refine ends_bind.mpr (ends_storeTask hc h₄ hw₄ ho ho' ha0 (hmm _) fun m₅ h₅ hw₅ => ?_)
  have hsepc₅ : ld 8 m₅ (c * 4096 + (o + REGS_SEPC)) = ld 8 s.mem (f * 4096 + (o + REGS_SEPC)) := by
    rw [hw₅ _ hsepc, Function.update_of_ne (by simp only [REGS_SEPC, REGS_A0]; omega),
      Function.update_of_ne (by simp only [REGS_SEPC, REGS_SP]; omega), Function.update_of_ne (hfar _ _ (by decide)),
      Function.update_of_ne (hfar _ _ (by decide)), Function.update_of_ne (hfar _ _ (by decide))]
  refine ends_bind.mpr ((ends_loadWord hc (hsepc.le ho ho')).mpr ?_)
  refine ends_bind.mpr (ends_storeTask hc h₅ hw₅ ho ho' hsepc (hmm _) fun m₆ h₆ hw₆ => ?_)
  refine hQ m₆ h₆ fun pgd => ?_
  have hwords := hw₆.store (v := pgd) ho (.field rfl (by decide) : TaskWord o TASK_PGD)
  refine TaskWords.forged ho hj (framePtr_lt hc (by simp only [REGS_SIZE, PGSIZE] at ho'; omega)) hwords ?_ ?_
  · rw [← hsp₃, ← hcur]
    rfl
  · rw [← hsepc₅]
    rfl

end TaskWords

end ChildPage

section CowChild
variable {img : Image} {lay : Layout} {s : KState} {i regs : Nat}

/-- The first empty slot; slot 0 holds the idle task. -/
theorem freeSlot_some {task : Nat → Nat} {j : Nat} (h : freeSlot task = some j) (hidle : task 0 ≠ 0) :
    1 ≤ j ∧ j < NR_TASKS ∧ task j = 0 := by
  have hmem := List.mem_range.mp (List.mem_of_find?_eq_some h)
  have hzero : task j = 0 := by simpa using List.find?_some h
  refine ⟨?_, hmem, hzero⟩
  rcases Nat.eq_zero_or_pos j with rfl | hpos
  · exact absurd hzero hidle
  · exact hpos

theorem freeSlot_none {task : Nat → Nat} {j : Nat} (h : freeSlot task = none) (hj : j < NR_TASKS) :
    task j ≠ 0 := by
  have := List.find?_eq_none.mp h j (List.mem_range.mpr hj)
  simpa using this

/-- A page has been taken and written. -/
theorem Calm.outside (h : Paging img lay s) {u : KState} {c : Nat} {m : Mem} (ht : Taken img s u c)
    (hm : ∀ f, f ≠ c → SameFrame m s.mem f) : Calm img lay (lay.withRole c .data) s (u.withMem m) none := by
  refine ((Calm.refl h).take ht).data role_withRole (ht.other h) fun x hx => ?_
  have hsplit : x = x / 4096 * 4096 + x % 4096 := by omega
  rw [ht.mem, hsplit]
  exact hm (x / 4096) (by omega) (x % 4096) (Nat.mod_lt _ (by decide))

/-- Page `p` is entered as task `j`. -/
@[simps -fullyApplied] def KState.enter (s : KState) (j p : Nat) : KState :=
  { s with tasksNumber := j, task := Function.update s.task j p }

/-- `v` is `s` with page `p` in slot `j` and the allocator of `u`, apart from bytes of memory. -/
structure Enrolled (s u v : KState) (j p : Nat) : Prop where
  task : v.task = Function.update s.task j p
  current : v.current = s.current
  idle : v.idle = s.idle
  satp : v.satp = s.satp
  vma : v.vma = s.vma
  buddy : v.buddy = u.buddy
  trace : v.trace = s.trace

/-- The page of the parent is copied to the one that has been taken. -/
theorem Taken.copied {u : KState} {c f o : Nat} (ht : Taken img s u c) (hne : c ≠ f) (ho : TASK_MM + 8 ≤ o)
    (ho' : o + REGS_SIZE ≤ PGSIZE) :
    ChildPage s (copy (fill u.mem (c * 4096) PGSIZE 0) (c * 4096) (f * 4096) PGSIZE) c (ld 8 s.mem (f * 4096 + TASK_MM)) ∧
      TaskWords (copy (fill u.mem (c * 4096) PGSIZE 0) (c * 4096) (f * 4096) PGSIZE) c o fun k => ld 8 s.mem (f * 4096 + k) := by
  have hfill : ∀ g, g ≠ c → SameFrame (fill u.mem (c * 4096) PGSIZE 0) s.mem g := fun g hg => by
    rw [ht.mem, ← Nat.add_zero (c * 4096)]
    exact sameFrame_fill (by decide) hg.symm
  have hword : ∀ k, k + 8 ≤ 4096 →
      ld 8 (copy (fill u.mem (c * 4096) PGSIZE 0) (c * 4096) (f * 4096) PGSIZE) (c * 4096 + k) = ld 8 s.mem (f * 4096 + k) := by
    intro k hk
    refine ld_shift fun o ho => ?_
    rw [copy_inside (by simp only [PGSIZE]; omega), Nat.add_assoc (c * 4096), Nat.add_sub_cancel_left,
      hfill f hne.symm (k + o) (by omega), Nat.add_assoc]
  exact ⟨⟨fun g hg => (sameFrame_copy_start (Nat.le_refl _) hg.symm).trans (hfill g hg), hword _ (by decide)⟩,
    fun k hk => hword k (hk.le ho ho')⟩

/-- The child's page and root table have been taken, and the memory outside them is as before. -/
theorem Spawned.of_taken {u u' v : KState} {c d j w : Nat} {m : Mem} (ht : Taken img s u c) (h1 : 1 ≤ j)
    (hj : j < NR_TASKS) (hzero : s.task j = 0) (hu : Enrolled s u u' j (framePtr c)) (hd : Taken img u' v d)
    (hframe : ∀ f, f ≠ c → f ≠ d → SameFrame m s.mem f)
    (hpgd : ld 8 m (c * 4096 + TASK_PGD) = framePtr d) (hmm : ld 8 m (c * 4096 + TASK_MM) = w)
    (hkernel : ∀ o, o < 4096 → m (d * 4096 + o) = s.mem (img.swapperFrame * 4096 + o)) :
    Spawned img s (v.withMem m) j c d w := by
  have href : ∀ f, u'.ref f = u.ref f := fun f => by rw [KState.ref, KState.ref, hu.buddy]
  have hcd : d ≠ c := by
    rintro rfl
    have hone : u'.ref d = 0 := hd.free
    rw [href, ht.taken] at hone
    exact Nat.one_ne_zero hone
  exact
    { pos := h1
      lt := hj
      empty := hzero
      task := by rw [KState.withMem_task, hd.tasks.task, hu.task]
      current := hd.tasks.current.trans hu.current
      idle := hd.tasks.idle.trans hu.idle
      satp := hd.tasks.satp.trans hu.satp
      vma := hd.tasks.vma.trans hu.vma
      pages := hd.pages
      ramPage := ht.ram
      ramRoot := hd.ram
      abovePage := ht.above
      aboveRoot := hd.above
      freePage := ht.free
      freeRoot := (ht.others d hd.ram hcd).symm.trans ((href d).symm.trans hd.free)
      ne := hcd.symm
      refPage := (hd.others c ht.ram hcd.symm).trans ((href c).trans ht.taken)
      refRoot := hd.taken
      ref := fun f hf hne => by
        have hold := ht.ref hf hne
        have hlive : u'.ref f ≠ 0 := by
          rw [href, hold]
          exact hne
        exact (hd.ref hf hlive).trans ((href f).trans hold)
      frame := hframe
      pgd := hpgd
      mm := hmm
      kernel := hkernel
      sparing := by
        refine ⟨fun f hf h0 => ?_, fun page m hm => .inl ?_⟩
        · have hfd : f ≠ d := by
            rintro rfl
            rw [KState.ref_withMem, hd.taken] at h0
            cases h0
          have hold : v.ref f = u.ref f := (hd.others f hf hfd).trans (href f)
          have hfc : f ≠ c := by
            rintro rfl
            rw [KState.ref_withMem, hold, ht.taken] at h0
            cases h0
          rw [KState.ref_withMem, hold, ht.others f hf hfc] at h0
          exact ⟨h0, hframe f hfc hfd⟩
        · rwa [KState.withMem_trace, hd.trace, hu.trace] at hm }

theorem Enrolled.ne {u u' v : KState} {c d j : Nat} (ht : Taken img s u c) (hu : Enrolled s u u' j (framePtr c))
    (hd : Taken img u' v d) : c ≠ d := by
  rintro rfl
  have hone : u'.ref c = 0 := hd.free
  rw [KState.ref, hu.buddy, ← KState.ref, ht.taken] at hone
  exact Nat.one_ne_zero hone

theorem Taken.ne_swapper {u : KState} {c : Nat} (ht : Taken img s u c) : c ≠ img.swapperFrame := by
  have habove := ht.above
  have hlt := img.swapperFrame_lt
  omega

/-- The root table of the child has been entered, and filled with that of the kernel. -/
theorem Spawned.of_root {u u' v : KState} {c d j w : Nat} {m : Mem} (ht : Taken img s u c) (h1 : 1 ≤ j) (hj : j < NR_TASKS)
    (hzero : s.task j = 0) (hu : Enrolled s u u' j (framePtr c)) (hd : Taken img u' v d) (hpage : ChildPage s u'.mem c w)
    (hframe : ∀ f, f ≠ d → SameFrame m (sd 8 u'.mem (c * 4096 + TASK_PGD) (framePtr d)) f)
    (hkernel : ∀ o, o < 4096 →
      m (d * 4096 + o) = sd 8 u'.mem (c * 4096 + TASK_PGD) (framePtr d) (img.swapperFrame * 4096 + o)) :
    Spawned img s (v.withMem m) j c d w := by
  have hcd := hu.ne ht hd
  have hout : ∀ f, f ≠ c → SameFrame (sd 8 u'.mem (c * 4096 + TASK_PGD) (framePtr d)) s.mem f := fun f hf =>
    (sameFrame_sd fun o ho => by simp only [TASK_PGD]; omega).trans (hpage.frame f hf)
  refine .of_taken ht h1 hj hzero hu hd (fun f hc hdf => (hframe f hdf).trans (hout f hc)) ?_ ?_ fun o ho =>
    (hkernel o ho).trans (hout _ ht.ne_swapper.symm o ho)
  · have hlt := framePtr_lt hd.ram (Nat.zero_le 4096)
    rw [Nat.add_zero] at hlt
    rw [(hframe c hcd).ld (by decide), ld_sd_self]
    exact Nat.mod_eq_of_lt hlt
  · rw [(hframe c hcd).ld (by decide), ld_sd_of_disjoint (by simp only [TASK_PGD, TASK_MM]; omega)]
    exact hpage.mm

/-- The root table of the child is entered, and filled with that of the kernel. -/
theorem Taken.ends_root {u u' v : KState} {c d f j o w : Nat} (ht : Taken img s u c) (h1 : 1 ≤ j) (hj : j < NR_TASKS)
    (hzero : s.task j = 0) (hu : Enrolled s u u' j (framePtr c)) (hd : Taken img u' v d) (hpage : ChildPage s u'.mem c w)
    (hforged : ∀ pgd, Forged img s.mem (sd 8 u'.mem (c * 4096 + TASK_PGD) pgd) f c o j) (ho : o + REGS_SIZE ≤ PGSIZE) :
    Ends (do
      storeWord img (framePtr c + TASK_PGD) (framePtr d)
      notNull (framePtr d)
      memcpy img (framePtr d) img.swapperPgDir PGSIZE
      return some (framePtr c, j)) v
      (fun r t => r = some (framePtr c, j) ∧ t.buddy = v.buddy ∧ t.tasksNumber = v.tasksNumber ∧ Spawned img s t j c d w ∧
        Forged img s.mem t.mem f c o j) fun _ _ => False := by
  have hcd := hu.ne ht hd
  have hmem : v.mem = u'.mem := hd.mem
  refine ends_bind.mpr ((ends_storeWord ht.ram (by decide)).mpr (ends_bind.mpr (ends_notNull.mpr ?_)))
  rw [if_neg (framePtr_ne_zero d), swapperPgDir_eq]
  refine ends_bind.mpr ((ends_copyFrame hd.ram (swapperFrame_ram img) hd.ne_swapper).mpr (ends_pure.mpr ?_))
  rw [KState.withMem_withMem, KState.withMem_mem, hmem]
  have hsame : ∀ f, f ≠ d → SameFrame (copy (sd 8 u'.mem (c * 4096 + TASK_PGD) (framePtr d)) (d * 4096)
      (img.swapperFrame * 4096) PGSIZE) (sd 8 u'.mem (c * 4096 + TASK_PGD) (framePtr d)) f := fun f hf =>
    sameFrame_copy_start (Nat.le_refl _) hf.symm
  refine ⟨rfl, rfl, rfl, .of_root ht h1 hj hzero hu hd hpage hsame fun o ho => ?_, (hforged _).congr (hsame c hcd) ho⟩
  rw [copy_inside (by simp only [PGSIZE]; omega), Nat.add_sub_cancel_left]

/-- The trap frame lies in the page of the running task, above what the forks change in the copy. -/
def InFrame (regs : Nat) : Prop := TASK_MM + 8 ≤ regs % PGSIZE ∧ regs % PGSIZE + REGS_SIZE ≤ PGSIZE

/-- The frames that the page and the root table of a child need; with no empty slot only the page is taken. -/
def childNeeds (task : Nat → Nat) : Nat := if freeSlot task = none then 1 else 2

/-- What `cowChild` returns, the frames it takes and the page that it makes. -/
theorem cowChild_forged (h : Paging img lay s) (hr : Running lay s i) (hidle : s.task 0 ≠ 0)
    (hregs : regs < 2 ^ 64) (hframe : InFrame regs) :
    Ends (cowChild img regs) s
      (fun o t => t.buddy.inUse = s.buddy.inUse + childNeeds s.task ∧
        ((o = none ∧ (∀ j, j < NR_TASKS → s.task j ≠ 0) ∧
          ∃ c, lay.role c = .other ∧ t.trace = s.trace ∧ Calm img lay (lay.withRole c .data) s t none) ∨
        ∃ j c d, o = some (framePtr c, j) ∧ Spawned img s t j c d (mmapOf lay s i) ∧
          Forged img s.mem t.mem (lay.page i) c (regs % 4096) j ∧ t.tasksNumber = j))
      fun e t => e = .null ∧ OutOfPages img t ∧ 2 ^ img.order < s.buddy.inUse + childNeeds s.task := by
  have ok := h.task i hr.pos hr.lt hr.some
  have hpram := (h.held _ (by rw [ok.page]; exact Role.noConfusion)).1
  obtain ⟨hlo, hhi⟩ := hframe
  rw [cowChild]
  refine ends_bind.mpr ((allocPage_spec h.pages).mono ?_ fun _ _ hno => hno.elim)
  rintro p u (⟨rfl, rfl, hfull⟩ | ⟨c, rfl, htaken⟩)
  · have hall := OutOfPages.inUse h.pages hfull
    refine ends_bind.mpr (ends_notNull.mpr ?_)
    rw [if_pos rfl]
    refine ⟨rfl, hfull, ?_⟩
    rw [childNeeds]
    split <;> omega
  -- the page of the parent is copied
  have huse := htaken.inUse h.pages
  have hcp : c ≠ lay.page i := (htaken.ne h (by rw [ok.page]; exact Role.noConfusion)).symm
  have hcur : u.current = framePtr (lay.page i) := by rw [htaken.tasks.current, hr.current, ok.ptr]
  obtain ⟨hpage, hwords⟩ := htaken.copied hcp hlo hhi
  rw [ends_bind, ends_notNull, if_neg (framePtr_ne_zero c), ends_bind]
  nth_rewrite 1 [← Nat.add_zero (framePtr c)]
  rw [ends_memset htaken.ram (by decide), ends_bind, ends_get, ends_bind, Nat.add_zero, KState.withMem_current, hcur,
    ends_copyFrame htaken.ram hpram hcp, KState.withMem_withMem, KState.withMem_mem]
  generalize copy (fill u.mem (c * 4096) PGSIZE 0) (c * 4096) (lay.page i * 4096) PGSIZE = m at hpage hwords ⊢
  have htask : (u.withMem m).task = s.task := htaken.tasks.task
  rw [ends_bind, takeSlot, ends_bind, ends_get, htask]
  cases hslot : freeSlot s.task with
  | none =>
      rw [ends_pure, ends_pure]
      refine ⟨?_, .inl ⟨rfl, fun j hj => freeSlot_none hslot hj, c, htaken.other h, htaken.trace, .outside h htaken hpage.frame⟩⟩
      rw [childNeeds, if_pos hslot]
      exact huse
  | some j =>
      have hneeds : childNeeds s.task = 2 := if_neg (by rw [hslot]; exact Option.some_ne_none j)
      obtain ⟨hj1, hj9, hzero⟩ := freeSlot_some hslot hidle
      rw [ends_bind, ends_modify, ends_pure]
      change Ends _ ((u.enter j (framePtr c)).withMem m) _ _
      dsimp only
      rw [childFrame_eq htaken.ram hregs, Nat.add_assoc, Nat.add_assoc, Nat.add_assoc]
      refine ends_forge htaken.ram hpage hwords hlo hhi (hj9.trans (by decide)) hcur fun m' hpage' hforged => ?_
      have hpages : ((u.enter j (framePtr c)).withMem m').Pages img := htaken.pages
      refine ends_bind.mpr ((allocPage_spec hpages).mono ?_ fun _ _ hno => hno.elim)
      rintro q v (⟨rfl, rfl, hfull⟩ | ⟨d, rfl, hd⟩)
      · refine ends_bind.mpr ((ends_storeWord htaken.ram (by decide)).mpr (ends_bind.mpr (ends_notNull.mpr ?_)))
        rw [if_pos rfl, hneeds]
        have hall : u.buddy.inUse = 2 ^ img.order := OutOfPages.inUse (s := u) htaken.pages hfull
        exact ⟨rfl, hfull, by omega⟩
      · have henrolled : Enrolled s u ((u.enter j (framePtr c)).withMem m') j (framePtr c) :=
          ⟨by rw [KState.withMem_task, KState.enter_task, htaken.tasks.task], htaken.tasks.current,
            htaken.tasks.idle, htaken.tasks.satp, htaken.tasks.vma, rfl, htaken.trace⟩
        have huse₂ : v.buddy.inUse = ((u.enter j (framePtr c)).withMem m').buddy.inUse + 1 := hd.inUse hpages
        refine (htaken.ends_root hj1 hj9 hzero henrolled hd hpage' hforged hhi).mono ?_ fun _ _ hno => hno.elim
        rintro r t ⟨rfl, hbuddy, hnumber, hs, hf⟩
        refine ⟨?_, .inr ⟨j, c, d, rfl, hs, hf, hnumber.trans hd.tasks.tasksNumber⟩⟩
        rw [hbuddy, hneeds]
        exact huse₂.trans (congrArg (· + 1) huse)

theorem cowChild_counted (h : Paging img lay s) (hr : Running lay s i) (hidle : s.task 0 ≠ 0)
    (hregs : regs < 2 ^ 64) (hframe : InFrame regs) :
    Ends (cowChild img regs) s
      (fun o t => t.buddy.inUse = s.buddy.inUse + childNeeds s.task ∧
        ((o = none ∧ (∀ j, j < NR_TASKS → s.task j ≠ 0) ∧
          ∃ c, lay.role c = .other ∧ t.trace = s.trace ∧ Calm img lay (lay.withRole c .data) s t none) ∨
        ∃ j c d, o = some (framePtr c, j) ∧ Spawned img s t j c d (mmapOf lay s i)))
      fun e t => e = .null ∧ OutOfPages img t ∧ 2 ^ img.order < s.buddy.inUse + childNeeds s.task :=
  (cowChild_forged h hr hidle hregs hframe).mono (fun _ _ ht => ⟨ht.1, ht.2.imp id fun hs => by
    obtain ⟨j, c, d, ho, hs, -⟩ := hs
    exact ⟨j, c, d, ho, hs⟩⟩) fun _ _ he => he

end CowChild

end ZjuOs
